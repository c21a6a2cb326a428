import PucRio.Gamao.SaveRoundTrip

/-! Matches that are saved and resumed while they are played, and which of their states a file
keeps. -/
namespace PucRio.Gamao
open PCA_tpCorPeca

section Steps
variable {j j' : JGO_tpJogo} {d d' : tpExibicaoDados}

/-- A move changes nothing but where pieces are. -/
theorem Executada.resto (h : Executada j j') : ∃ t b f, j' = { j with
    pTabuleiro := t
    pPecasCapturadas := b
    pPecasFinalizadas := f } := by
  have hcap (j : JGO_tpJogo) (k : Fin 24) : ∃ t b, j.comCaptura k = { j with
      pTabuleiro := t
      pPecasCapturadas := b } := by
    rw [JGO_tpJogo.comCaptura]
    split_ifs
    · exact ⟨_,_,rfl⟩
    · exact ⟨_,_,rfl⟩
  cases h with
  | @reentrada k _ _ =>
    obtain ⟨t,b,hk⟩ := hcap j k
    rw [hk]
    exact ⟨_,_,_,rfl⟩
  | finalizada _ => exact ⟨_,_,_,rfl⟩
  | @movida i k _ _ =>
    obtain ⟨t,b,hk⟩ := hcap (j.movida i k) k
    rw [hk]
    exact ⟨_,_,_,rfl⟩

/-- An answer to an offer to double changes at most the cube and the two flags. -/
theorem DobrarPartida_resto (j : JGO_tpJogo) (lixo : PCA_tpCorPeca) (aceita : Bool) :
    ∃ p b b', DobrarPartida j lixo aceita = { j with
        pDadoPontos := p
        PrimeiraDobraPartidaRealizada := b
        PartidaTerminouDobra := b' } ∧
      (p.Pontuacao = j.pDadoPontos.Pontuacao ∧ b = j.PrimeiraDobraPartidaRealizada ∨
        p.Pontuacao = wrap32 (j.pDadoPontos.Pontuacao*2)) := by
  rw [DobrarPartida]
  dsimp only
  by_cases hp : podeDobrar j lixo = true
  · rw [if_pos hp]
    cases aceita with
    | false => exact ⟨_,_,_,rfl,.inl ⟨rfl,rfl⟩⟩
    | true =>
      rw [if_pos rfl]
      cases hc : DPT_DobrarPontuacaoPartida (if j.PrimeiraDobraPartidaRealizada then j.pDadoPontos
        else DPT_AtualizarJogadorDobra j.pDadoPontos j.JogadorAtual) j.JogadorAtual with
      | none =>
        refine ⟨_,_,_,rfl,.inl ⟨?_,rfl⟩⟩
        split_ifs <;> rfl
      | some p =>
        refine ⟨_,_,_,rfl,.inr ?_⟩
        rw [DPT_DobrarPontuacaoPartida] at hc
        split_ifs at hc
        all_goals
          obtain rfl := Option.some_inj.mp hc
          rfl
  · rw [if_neg hp]
    exact ⟨_,_,_,rfl,.inl ⟨rfl,rfl⟩⟩

theorem percorrerDados_ExibicaoDados (serve : ℤ → Bool) (acao : Option JGO_tpJogo) (k : Fin 4) :
    (percorrerDados j d serve acao).ExibicaoDados k = d k ∨
      (percorrerDados j d serve acao).ExibicaoDados k = 0 := by
  rw [percorrerDados]
  cases Fin.find? fun k => serve (d k) with
  | none => exact .inl rfl
  | some i =>
    cases acao with
    | none => exact .inl rfl
    | some j' =>
      by_cases hk : k = i
      · subst hk
        exact .inr (Function.update_self _ _ _)
      · exact .inl (Function.update_of_ne hk _ _)

/-- A pass plays a die or leaves the dice as they are. -/
theorem volta_ExibicaoDados (lixo : PCA_tpCorPeca) (linha linha' : Entrada) (k : Fin 4) :
    (volta j d lixo linha linha').ExibicaoDados k = d k ∨
      (volta j d lixo linha linha').ExibicaoDados k = 0 := by
  have hcom (e : Entrada) : (comando j d lixo e).ExibicaoDados k = d k := by
    cases e <;> rfl
  rw [volta]
  split_ifs
  · cases LeCasa linha with
    | numero n => exact percorrerDados_ExibicaoDados _ _ k
    | _ => exact .inl (hcom _)
  · cases LeCasa linha with
    | numero n =>
      cases LeCasa linha' with
      | numero m =>
        dsimp only
        rw [jogar]
        split_ifs
        · exact .inl rfl
        · exact percorrerDados_ExibicaoDados _ _ k
        · exact percorrerDados_ExibicaoDados _ _ k
      | _ => exact .inl (hcom _)
    | _ => exact .inl (hcom _)

/-- The dice after a step: as before, or between -1 and 6. -/
theorem Partida.step_ExibicaoDados {s t : Partida} {a : Acao} (h : s.step a = some t) (k : Fin 4) :
    t.ExibicaoDados k = s.ExibicaoDados k ∨ -1 ≤ t.ExibicaoDados k ∧ t.ExibicaoDados k ≤ 6 := by
  cases a with
  | dados v v' =>
    rw [Partida.step] at h
    split at h
    case isFalse => cases h
    case isTrue hv =>
      have hdados : -1 ≤ JogarDados v v' k ∧ JogarDados v v' k ≤ 6 := by
        rw [JogarDados]
        split_ifs <;> omega
      cases hl : s.lugar with
      | disputa =>
        simp only [hl,Option.some_inj] at h
        subst h
        rw [disputar]
        split_ifs
        all_goals exact .inr hdados
      | rodada =>
        simp only [hl,Option.ite_none_left_eq_some,Option.some_inj] at h
        obtain ⟨-,rfl⟩ := h
        rw [passarVez]
        split_ifs
        · exact .inl rfl
        · exact .inr hdados
        · exact .inl rfl
        · exact .inr hdados
      | fim => simp [hl] at h
  | jogada linha linha' lixo =>
    cases hl : s.lugar with
    | disputa => simp [Partida.step,hl] at h
    | fim => simp [Partida.step,hl] at h
    | rodada =>
      simp only [Partida.step,hl,Option.ite_none_right_eq_some,Option.some_inj] at h
      obtain ⟨-,rfl⟩ := h
      rw [seguir]
      dsimp only
      rcases volta_ExibicaoDados (j := s.pJogo) (d := s.ExibicaoDados) lixo linha linha' k with
        hk | hk
      · exact .inl hk
      · rw [hk]
        exact .inr ⟨by decide,by decide⟩

end Steps

inductive AcaoSalva
  | jogo (a : Acao)
  | retomar (memoria : JGO_tpJogo) (lixo lixo' : PCA_tpCorPeca) (antes : ℤ × ℤ)

theorem dado_zero : 0 < 4 := by decide

theorem dado_um : 1 < 4 := by decide

/-- Where ProcessarPartida begins with a game and the dice that are shown. -/
def ProcessarPartida (pJogo : JGO_tpJogo) (ExibicaoDados : tpExibicaoDados) : Partida :=
  let ValorDado1 := ExibicaoDados ⟨0,dado_zero⟩
  let ValorDado2 := ExibicaoDados ⟨1,dado_um⟩
  if ValorDado1 ≠ -1 then proximaRodada pJogo ExibicaoDados
  else if ValorDado1 = ValorDado2 then ⟨pJogo,ExibicaoDados,.disputa⟩
  else
    let JogadorAtual := if ValorDado1 > ValorDado2 then PCA_PecaBranca else PCA_PecaPreta
    proximaRodada (pJogo.vezDe JogadorAtual) ExibicaoDados

/-- A step of the match, or a file saved where a move is asked for and resumed. -/
def Partida.stepSalva (s : Partida) : AcaoSalva → Option Partida
  | .jogo a => s.step a
  | .retomar memoria lixo lixo' antes =>
    if s.lugar = .rodada ∧ JogadasDisponiveis s.pJogo s.ExibicaoDados = true then
      (RecuperarJogo memoria lixo' antes (SalvarJogo s.pJogo s.ExibicaoDados lixo)).map fun x =>
        ProcessarPartida x.1 x.2
    else none

/-- A match started by IniciarNovaPartida that may be left and resumed any number of times. -/
def partidas (pJogo : JGO_tpJogo) (lixo : PCA_tpCorPeca) :
    TransitionSystem Partida AcaoSalva where
  init := (partida pJogo lixo).init
  step := Partida.stepSalva

theorem not_emBranco {nome : List Char} (hne : nome ≠ [])
    (hhead : ∀ c ∈ nome.head?, Scanf.isspace c = false) : ¬ EmBranco nome := by
  cases nome with
  | nil => exact absurd rfl hne
  | cons c nome =>
    intro hb
    have hspace := hb c List.mem_cons_self
    rw [hhead c rfl] at hspace
    cases hspace

namespace Salvavel
variable {j j' : JGO_tpJogo} {d d' : tpExibicaoDados}

/-- It does not depend on whose turn it is. -/
theorem vezDe (h : Salvavel j d) (c : PCA_tpCorPeca) : Salvavel (j.vezDe c) d :=
  ⟨h.brancas,h.pretas,h.soma,fun hb => (h.conservada hb).of_pecas rfl rfl rfl,h.dados,h.dobrado,
    h.primeira⟩

theorem of_dados (h : Salvavel j d)
    (hd : ∀ k, d' k = d k ∨ -1 ≤ d' k ∧ d' k ≤ 6) : Salvavel j d' :=
  ⟨h.brancas,h.pretas,h.soma,h.conservada,fun k => by
    have := h.dados k
    rcases hd k with hk | hk <;> omega,h.dobrado,h.primeira⟩

theorem executada (h : Salvavel j d) (hx : Executada j j') : Salvavel j' d := by
  have hsoma (c : PCA_tpCorPeca) : j'.soma c ≤ 360 := by
    rw [JGO_tpJogo.soma_executada hx]
    exact h.soma c
  have hc (hb : EmBranco j.NomeJogadorPecasPretas) : Conservada j' := (h.conservada hb).executada hx
  obtain ⟨t,b,f,rfl⟩ := hx.resto
  exact ⟨h.brancas,h.pretas,hsoma,hc,h.dados,h.dobrado,h.primeira⟩

theorem dobra (h : Salvavel j d) (lixo : PCA_tpCorPeca) (aceita : Bool) :
    Salvavel (DobrarPartida j lixo aceita) d := by
  obtain ⟨p,b,b',hj,hp⟩ := DobrarPartida_resto j lixo aceita
  rw [hj]
  have hc (hb : EmBranco j.NomeJogadorPecasPretas) : Conservada { j with
      pDadoPontos := p
      PrimeiraDobraPartidaRealizada := b
      PartidaTerminouDobra := b' } := (h.conservada hb).of_pecas rfl rfl rfl
  rcases hp with ⟨hp,rfl⟩ | hp
  · exact ⟨h.brancas,h.pretas,h.soma,hc,h.dados,by rw [hp]; exact h.dobrado,by
      rw [hp]
      exact h.primeira⟩
  · exact ⟨h.brancas,h.pretas,h.soma,hc,h.dados,by rw [hp]; exact h.dobrado.dobro.1,by
      rw [hp]
      exact fun _ => h.dobrado.dobro.2⟩

theorem step {s t : Partida} {a : Acao} (h : Salvavel s.pJogo s.ExibicaoDados)
    (hs : s.step a = some t) : Salvavel t.pJogo t.ExibicaoDados := by
  have hd := Partida.step_ExibicaoDados hs
  rcases Partida.step_cases hs with ⟨c,hc⟩ | ⟨linha,linha',lixo,-,hv⟩
  · rw [hc]
    exact (h.vezDe c).of_dados hd
  · rw [hv]
    refine of_dados ?_ hd
    rcases volta_pJogo (j := s.pJogo) (d := s.ExibicaoDados) lixo linha linha' with
      hj | ⟨aceita,hj⟩ | hx
    · rwa [hj]
    · rw [hj]
      exact h.dobra lixo aceita
    · exact h.executada hx

theorem length_codigo (c : PCA_tpCorPeca) : (Printf.int (codigo c)).length < 80 := by
  cases c <;> decide

/-- At most 15 pieces on each house read are at most 360. -/
theorem soma_recuperada {c : PCA_tpCorPeca} (ht : ∀ i, j'.pTabuleiro.pecas c i ≤ 15)
    (hb : j'.pPecasCapturadas = 0) (hf : j'.pPecasFinalizadas = PCF_CriarListaPecasFinalizadas) :
    j'.soma c ≤ 360 := by
  have htotal : j'.pTabuleiro.total c ≤ 24*15 := by
    have hle := Finset.sum_le_card_nsmul Finset.univ (j'.pTabuleiro.pecas c) 15 fun i _ => ht i
    rwa [Finset.card_univ,Fintype.card_fin,smul_eq_mul] at hle
  have hzero : PCF_ContarPecas PCF_CriarListaPecasFinalizadas c = 0 := by
    cases c <;> rfl
  rw [JGO_tpJogo.soma,hb,hf,hzero,BAR_ContarPecas,Multiset.count_zero]
  omega

/-- A resumed match can be saved again. -/
theorem retomar (h : Salvavel j d) {memoria : JGO_tpJogo} {lixo lixo' : PCA_tpCorPeca}
    {antes : ℤ × ℤ}
    (hr : RecuperarJogo memoria lixo' antes (SalvarJogo j d lixo) = some (j',d')) :
    Salvavel j' d' := by
  by_cases hb : EmBranco j.NomeJogadorPecasPretas
  · obtain ⟨g,hg,hmem⟩ := RecuperarJogo_branco h hb memoria lixo lixo' antes
    rw [hr] at hg
    obtain ⟨p,hp,hx⟩ := Option.map_eq_some_iff.mp hg.symm
    obtain ⟨rfl,rfl⟩ := Prod.mk.inj hx
    have hc := h.conservada hb
    have h15 (c : PCA_tpCorPeca) (i : Fin 24) : j.pTabuleiro.pecas c i ≤ 15 := by
      have hle := TAB_tpTabuleiro.pecas_le_total (t := j.pTabuleiro) (c := c) (i := i)
      have hs := hc.soma c
      rw [JGO_tpJogo.soma] at hs
      omega
    have hcasa (c : PCA_tpCorPeca) (i : Fin 24) :
        (recuperado memoria (cabecalhoBranco j d lixo) p (List.ofFn g)).pTabuleiro.pecas c i ≤
          15 := by
      rw [recuperado]
      dsimp only
      rw [pecas_montarTabuleiro]
      obtain ⟨hb,k,hp⟩ := hmem i
      cases c with
      | PCA_PecaBranca =>
        rw [lida,hb]
        exact (lida_contagens j.pTabuleiro PCA_PecaPreta i).trans_le (h15 _ i)
      | PCA_PecaPreta =>
        rw [lida,hp]
        exact (lida_contagens j.pTabuleiro PCA_PecaBranca k).trans_le (h15 _ k)
    refine ⟨h.brancas,⟨Printf.int_ne_nil _,?_,fun c hc => tabOuLinha_of_mem_int hc⟩,
      fun c => soma_recuperada (hcasa c) rfl rfl,fun he => ?_,fun k => ?_,
      recuperarDadoPontos_dobrado hp,fun hf => ?_⟩
    · exact length_codigo j.JogadorAtual
    · exact absurd he (not_emBranco (Printf.int_ne_nil _) fun c hc =>
        Printf.isspace_of_mem_int (List.mem_of_mem_head? hc))
    · have hd := h.dados
      have hs := toInt_range j.PontuacaoAcumuladaJogadorPecasBrancas
      fin_cases k
      · exact hd _
      · exact hd _
      · exact hd _
      · exact hs
    · cases hf
  · rw [RecuperarJogo_salvo h hb] at hr
    obtain ⟨p,hp,hx⟩ := Option.map_eq_some_iff.mp hr
    obtain ⟨rfl,rfl⟩ := Prod.mk.inj hx
    obtain ⟨hnome,hhead⟩ := aparado h.pretas hb
    refine ⟨h.brancas,hnome,fun c => ?_,fun he => ?_,h.dados,recuperarDadoPontos_dobrado hp,
      fun hf => ?_⟩
    · have htotal : (retomado memoria j p).pTabuleiro.total c = j.pTabuleiro.total c :=
        Finset.sum_congr rfl fun i _ => pecas_retomado memoria j p c i
      have hs := h.soma c
      have hzero : PCF_ContarPecas PCF_CriarListaPecasFinalizadas c = 0 := by
        cases c <;> rfl
      rw [JGO_tpJogo.soma] at hs ⊢
      rw [htotal]
      change j.pTabuleiro.total c+0+PCF_ContarPecas PCF_CriarListaPecasFinalizadas c ≤ 360
      omega
    · exact absurd he (not_emBranco hnome.ne_nil hhead)
    · cases hf

theorem inicial {pJogo : JGO_tpJogo} (hb : NomeInteiro pJogo.NomeJogadorPecasBrancas)
    (hp : NomeInteiro pJogo.NomeJogadorPecasPretas) (lixo : PCA_tpCorPeca) :
    Salvavel (IniciarNovaPartida pJogo lixo) (fun _ => -1) := by
  have hc := conservada_inicial pJogo lixo
  refine ⟨hb,hp,fun c => ?_,fun _ => hc,fun _ => ⟨by decide,by decide⟩,dobrado_one,fun hf => ?_⟩
  · rw [hc.soma c]
    decide
  · cases hf

/-- In every match, saved and resumed at any time. -/
theorem reachable {pJogo : JGO_tpJogo} (hb : NomeInteiro pJogo.NomeJogadorPecasBrancas)
    (hp : NomeInteiro pJogo.NomeJogadorPecasPretas) {lixo : PCA_tpCorPeca} {s : Partida}
    (h : (partidas pJogo lixo).Reachable s) : Salvavel s.pJogo s.ExibicaoDados := by
  refine h.invariant (I := fun s => Salvavel s.pJogo s.ExibicaoDados) (inicial hb hp lixo) ?_
  intro s a t hi _ hs
  cases a with
  | jogo a => exact hi.step hs
  | retomar memoria lixo lixo' antes =>
    simp only [partidas,Partida.stepSalva,Option.ite_none_right_eq_some,
      Option.map_eq_some_iff] at hs
    obtain ⟨-,x,hr,rfl⟩ := hs
    have hx := hi.retomar hr
    rw [ProcessarPartida]
    dsimp only
    split_ifs
    · exact hx
    · exact hx
    · exact hx.vezDe _
    · exact hx.vezDe _

end Salvavel

/-- A saved match is restored if and only if it is one of those that a file keeps. -/
theorem restored_iff (pJogo : JGO_tpJogo) (hb : NomeInteiro pJogo.NomeJogadorPecasBrancas)
    (hp : NomeInteiro pJogo.NomeJogadorPecasPretas) (lixo : PCA_tpCorPeca) {s : Partida}
    (h : (partidas pJogo lixo).Reachable s) (memoria : JGO_tpJogo) (lixo' lixo'' : PCA_tpCorPeca)
    (antes : ℤ × ℤ) :
    (∃ j', RecuperarJogo memoria lixo'' antes (SalvarJogo s.pJogo s.ExibicaoDados lixo') =
      some (j',s.ExibicaoDados) ∧ MesmaPartida s.pJogo j') ↔ Fiel s.pJogo :=
  (Salvavel.reachable hb hp h).recuperado_iff memoria lixo' lixo'' antes

theorem nomeInteiro_Ana : NomeInteiro "Ana".toList :=
  ⟨by decide,by decide,by simp [tabOuLinha]⟩

theorem nomeInteiro_Bia : NomeInteiro "Bia".toList :=
  ⟨by decide,by decide,by simp [tabOuLinha]⟩

/-- Between two moves of the first turn the match is kept. -/
theorem restored_mid_turn : ∃ s, (partidas jogoNovo PCA_PecaBranca).Reachable s ∧
    s.lugar = .rodada ∧ ∃ j', RecuperarJogo jogoNovo PCA_PecaPreta (0,0)
      (SalvarJogo s.pJogo s.ExibicaoDados PCA_PecaBranca) = some (j',s.ExibicaoDados) ∧
        MesmaPartida s.pJogo j' := by
  obtain ⟨s,hs,hp⟩ := TransitionSystem.exists_reachable_of_exec
    (T := partidas jogoNovo PCA_PecaBranca)
    (l := [.jogo (.dados 3 1),.jogo (.jogada (.numero 13) (.numero 10) PCA_PecaBranca)])
    (p := fun s => decide (s.lugar = .rodada) && decide (s.pJogo.pPecasCapturadas = 0) &&
      decide (s.pJogo.pPecasFinalizadas.listaPecasBrancas = 0) &&
      decide (s.pJogo.pPecasFinalizadas.listaPecasPretas = 0) &&
      decide (s.pJogo.pDadoPontos.Pontuacao = 1) &&
      decide (s.pJogo.NomeJogadorPecasPretas = "Bia".toList) &&
      !s.pJogo.PrimeiraDobraPartidaRealizada) (by decide +kernel)
  simp only [Bool.and_eq_true,decide_eq_true_eq,Bool.not_eq_true'] at hp
  obtain ⟨⟨⟨⟨⟨⟨hl,hb⟩,hfb⟩,hfp⟩,hd⟩,hn⟩,hflag⟩ := hp
  refine ⟨s,hs,hl,(restored_iff jogoNovo nomeInteiro_Ana nomeInteiro_Bia PCA_PecaBranca hs jogoNovo
    PCA_PecaBranca PCA_PecaPreta (0,0)).mpr ⟨fun c => ?_,fun c => ?_,?_,?_,fun h => ?_⟩⟩
  · rw [hb]
    exact Multiset.count_zero c
  · cases c
    · rw [PCF_ContarPecas,hfb,Multiset.card_zero]
    · rw [PCF_ContarPecas,hfp,Multiset.card_zero]
  · rw [hd]
    decide
  · rw [hn]
    exact not_emBranco (by decide) (by simp [Scanf.isspace])
  · rw [hflag] at h
    cases h

/-- White's piece on the bar is not restored. -/
theorem not_restored_captured : ¬ ∀ pJogo lixo s, NomeInteiro pJogo.NomeJogadorPecasBrancas →
    NomeInteiro pJogo.NomeJogadorPecasPretas → (partidas pJogo lixo).Reachable s →
    s.lugar = .rodada → ∀ memoria lixo' lixo'' antes, ∃ j',
      RecuperarJogo memoria lixo'' antes (SalvarJogo s.pJogo s.ExibicaoDados lixo') =
        some (j',s.ExibicaoDados) ∧ MesmaPartida s.pJogo j' := by
  intro hall
  obtain ⟨s,hs,hp⟩ := TransitionSystem.exists_reachable_of_exec
    (T := partidas jogoNovo PCA_PecaBranca) (l := lancesComCaptura.map .jogo)
    (p := fun s => decide (s.lugar = .rodada) &&
      decide (BAR_ContarPecas s.pJogo.pPecasCapturadas PCA_PecaBranca = 1))
    (by decide +kernel)
  simp only [Bool.and_eq_true,decide_eq_true_eq] at hp
  obtain ⟨hl,hbar⟩ := hp
  have hr := hall jogoNovo PCA_PecaBranca s nomeInteiro_Ana nomeInteiro_Bia hs hl jogoNovo
    PCA_PecaBranca PCA_PecaBranca (0,0)
  have hf := ((Salvavel.reachable nomeInteiro_Ana nomeInteiro_Bia hs).recuperado_iff jogoNovo
    PCA_PecaBranca PCA_PecaBranca (0,0)).mp hr
  rw [hf.barra PCA_PecaBranca] at hbar
  cases hbar

end PucRio.Gamao
