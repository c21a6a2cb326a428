import PucRio.Gamao.Resultado

/-! The matches of a game, new or resumed, and what ends each of them. -/
namespace PucRio.Gamao
open PCA_tpCorPeca

/-- A double has been refused among these offers. -/
def recusou (ofertas : List (PCA_tpCorPeca × Bool)) : Bool := ofertas.any fun o => !o.2

/-- The moments of a game, with whether a double was refused in the match: a match that goes on, one
for which ProcessarPartida has returned true, and the end of the game. -/
inductive Momento
  | partida (s : Partida) (recusada : Bool)
  | terminada (pJogo : JGO_tpJogo) (recusada : Bool)
  | encerrado

/-- A step of the match. -/
def Momento.jogada : Momento → Acao → Option Momento
  | .partida s recusada,a => (s.step a).map fun t =>
    match s.retorno a with
    | none => .partida t (recusada || recusou (oferta s a))
    | some true => .terminada t.pJogo (recusada || recusou (oferta s a))
    | some false => .encerrado
  | _,_ => none

/-- The loop of CriarJogo: the result is added up and another match begins. -/
def Momento.outra : Momento → PCA_tpCorPeca → Option Momento
  | .terminada pJogo _,lixo =>
    some (.partida (Gamao.partida (ProcessarResultadoPartida pJogo) lixo).init false)
  | _,_ => none

inductive AcaoJogo
  | jogada (a : Acao)
  | outra (lixo : PCA_tpCorPeca)

def Momento.step (m : Momento) : AcaoJogo → Option Momento
  | .jogada a => m.jogada a
  | .outra lixo => m.outra lixo

/-- A game of any number of matches, in memory that held `memoria`. -/
def CriarJogo (memoria : JGO_tpJogo) (NomeJogadorPecasBrancas NomeJogadorPecasPretas : List Char)
    (lixo : PCA_tpCorPeca) : TransitionSystem Momento AcaoJogo where
  init := .partida (partida { memoria with
    NomeJogadorPecasBrancas := NomeJogadorPecasBrancas
    PontuacaoAcumuladaJogadorPecasBrancas := 0
    NomeJogadorPecasPretas := NomeJogadorPecasPretas
    PontuacaoAcumuladaJogadorPecasPretas := 0 } lixo).init false
  step := Momento.step

/-- The one match of a game that RecuperarJogo has rebuilt. -/
def IniciarPartidaExistente (x : JGO_tpJogo × tpExibicaoDados) : TransitionSystem Momento Acao where
  init := .partida (ProcessarPartida x.1 x.2) false
  step := Momento.jogada

/-- All the pieces of a colour are finished, or a double of this match was refused. -/
def Motivada (m : Momento) : Prop := ∀ j recusada, m = .terminada j recusada →
  (∃ c, PCF_ContarPecas j.pPecasFinalizadas c = 15) ∨ recusada = true

section Steps
variable {s t : Partida} {a : Acao}

theorem Partida.retorno_none_iff (hs : s.step a = some t) :
    s.retorno a = none ↔ t.lugar ≠ .fim := by
  cases a <;> simp [Partida.retorno,hs]

theorem PartidaTerminou_iff {j : JGO_tpJogo} :
    PartidaTerminou j = true ↔ ∃ c, PCF_ContarPecas j.pPecasFinalizadas c = 15 := by
  rw [PartidaTerminou,Bool.or_eq_true,decide_eq_true_iff,decide_eq_true_iff]
  constructor
  · rintro (h | h)
    · exact ⟨_,h⟩
    · exact ⟨_,h⟩
  · rintro ⟨c,h⟩
    cases c
    · exact .inl h
    · exact .inr h

/-- Only a refusal puts the flag up, and it ends the match. -/
theorem Efeito.flag {ofertas : List (PCA_tpCorPeca × Bool)} (h : Efeito s t ofertas)
    (hf : s.pJogo.PartidaTerminouDobra = false) :
    t.pJogo.PartidaTerminouDobra = false ∨ recusou ofertas = true ∧ t.lugar = .fim := by
  cases h with
  | vez c hc =>
    rw [hc]
    exact .inl hf
  | pecas hc =>
    obtain hc | hc := hc
    · rw [hc]
      exact .inl hf
    · obtain ⟨p,b,f,hc⟩ := hc.resto
      rw [hc]
      exact .inl hf
  | @aceita lixo hp hc =>
    rw [hc,(DobrarPartida_true_resto s.pJogo lixo).1]
    exact .inl hf
  | recusada hc hl => exact .inr ⟨rfl,hl⟩

end Steps

/-- While a match goes on the flag is down; a match that ended has its reason. -/
inductive Justa : Momento → Prop
  | partida {s : Partida} {recusada : Bool} (hf : s.pJogo.PartidaTerminouDobra = false) :
    Justa (.partida s recusada)
  | terminada {j : JGO_tpJogo} {recusada : Bool}
    (h : (∃ c, PCF_ContarPecas j.pPecasFinalizadas c = 15) ∨ recusada = true) :
    Justa (.terminada j recusada)
  | encerrado : Justa .encerrado

namespace Justa
variable {m m' : Momento}

theorem motivada (h : Justa m) : Motivada m := by
  rintro j recusada rfl
  cases h with
  | terminada h => exact h

theorem jogada (h : Justa m) {a : Acao} (hs : m.jogada a = some m') : Justa m' := by
  cases h with
  | @partida s recusada hf =>
    obtain ⟨t,ht,rfl⟩ := Option.map_eq_some_iff.mp hs
    have he := (efeito_of_step ht).flag hf
    cases hr : s.retorno a with
    | none =>
      have hl := (Partida.retorno_none_iff ht).mp hr
      exact .partida (he.resolve_right fun h => hl h.2)
    | some continua =>
      cases continua with
      | false => exact .encerrado
      | true =>
        refine .terminada ?_
        obtain hf' | ⟨hrec,-⟩ := he
        · obtain hp | hp := Partida.retorno_true ht hr
          · exact .inl (PartidaTerminou_iff.mp hp)
          · rw [hf'] at hp
            cases hp
        · rw [hrec,Bool.or_true]
          exact .inr rfl
  | terminada h => cases hs
  | encerrado => cases hs

theorem outra {lixo : PCA_tpCorPeca} (hs : m.outra lixo = some m') : Justa m' := by
  cases m with
  | terminada j recusada =>
    obtain rfl := Option.some_inj.mp hs
    refine .partida ?_
    change (ProcessarResultadoPartida j).PartidaTerminouDobra = false
    rw [ProcessarResultadoPartida]
    dsimp only
    split_ifs <;> rfl
  | partida s recusada => cases hs
  | encerrado => cases hs

end Justa

section Flag
variable {s : Partida} {recusada : Bool}

/-- With the flag up, any command that does not leave the game ends the match. -/
theorem jogada_erro (hl : s.lugar = .rodada)
    (hd : JogadasDisponiveis s.pJogo s.ExibicaoDados = true)
    (hf : s.pJogo.PartidaTerminouDobra = true) :
    (Momento.partida s recusada).jogada (.jogada .erro .erro PCA_PecaBranca) =
      some (.terminada s.pJogo recusada) := by
  have hv : volta s.pJogo s.ExibicaoDados PCA_PecaBranca .erro .erro =
      comando s.pJogo s.ExibicaoDados PCA_PecaBranca .erro := volta_comando rfl
  have hs : s.step (.jogada .erro .erro PCA_PecaBranca) =
      some ⟨s.pJogo,s.ExibicaoDados,.fim⟩ := by
    simp [Partida.step,hl,hd,hv,seguir,comando,hf]
  have hr : s.retorno (.jogada .erro .erro PCA_PecaBranca) = some true := by
    simp [Partida.retorno,hs,hv,comando]
  have ho : oferta s (.jogada .erro .erro PCA_PecaBranca) = [] := rfl
  rw [Momento.jogada,hs,Option.map_some,hr,ho]
  dsimp only
  rw [show recusou [] = false from rfl,Bool.or_false]

/-- So does a turn without a move. -/
theorem jogada_dados (recusada : Bool) (hl : s.lugar = .rodada)
    (hd : JogadasDisponiveis s.pJogo s.ExibicaoDados = false)
    (hf : s.pJogo.PartidaTerminouDobra = true) : ∃ c,
    (Momento.partida s recusada).jogada (.dados 1 2) =
      some (.terminada (s.pJogo.vezDe c) recusada) := by
  obtain ⟨c,hc⟩ : ∃ c, passarVez s 1 2 = ⟨s.pJogo.vezDe c,s.ExibicaoDados,.fim⟩ :=
    ⟨_,if_pos hf⟩
  have hs : s.step (.dados 1 2) = some ⟨s.pJogo.vezDe c,s.ExibicaoDados,.fim⟩ := by
    simp [Partida.step,hl,hd,hc]
  have hr : s.retorno (.dados 1 2) = some true := by simp [Partida.retorno,hs]
  have ho : oferta s (.dados 1 2) = [] := rfl
  refine ⟨c,?_⟩
  rw [Momento.jogada,hs,Option.map_some,hr,ho]
  dsimp only
  rw [show recusou [] = false from rfl,Bool.or_false]

variable {x : JGO_tpJogo × tpExibicaoDados}

/-- A match that goes on with the flag up and no finished piece can end for no reason. -/
theorem exists_not_motivada_rodada (hl : s.lugar = .rodada)
    (hf : s.pJogo.PartidaTerminouDobra = true)
    (h0 : ∀ c, PCF_ContarPecas s.pJogo.pPecasFinalizadas c = 0) :
    ∃ m, (IniciarPartidaExistente x).Run (.partida s false) m ∧ ¬ Motivada m := by
  have hnot (c : PCA_tpCorPeca) : ¬ Motivada (.terminada (s.pJogo.vezDe c) false) := by
    intro h
    obtain ⟨c',hc'⟩ | hr := h _ _ rfl
    · rw [show PCF_ContarPecas (s.pJogo.vezDe c).pPecasFinalizadas c' = 0 from h0 c'] at hc'
      cases hc'
    · cases hr
  cases hd : JogadasDisponiveis s.pJogo s.ExibicaoDados with
  | true =>
    exact ⟨_,Relation.ReflTransGen.single ⟨_,trivial,jogada_erro hl hd hf⟩,
      hnot s.pJogo.JogadorAtual⟩
  | false =>
    obtain ⟨c,hc⟩ := jogada_dados false hl hd hf
    exact ⟨_,Relation.ReflTransGen.single ⟨_,trivial,hc⟩,hnot c⟩

theorem PartidaTerminou_of_zero {j : JGO_tpJogo}
    (h0 : ∀ c, PCF_ContarPecas j.pPecasFinalizadas c = 0) : PartidaTerminou j = false := by
  rw [← Bool.not_eq_true,PartidaTerminou_iff]
  rintro ⟨c,hc⟩
  rw [h0 c] at hc
  cases hc

theorem exists_not_motivada (hl : s.lugar ≠ .fim) (hf : s.pJogo.PartidaTerminouDobra = true)
    (h0 : ∀ c, PCF_ContarPecas s.pJogo.pPecasFinalizadas c = 0) :
    ∃ m, (IniciarPartidaExistente x).Run (.partida s false) m ∧ ¬ Motivada m := by
  cases hs : s.lugar with
  | fim => exact absurd hs hl
  | rodada => exact exists_not_motivada_rodada hs hf h0
  | disputa =>
    -- white wins the dispute
    let t : Partida := ⟨s.pJogo.vezDe PCA_PecaBranca,JogarDados 3 1,.rodada⟩
    have ht : s.step (.dados 3 1) = some t := by
      have hp : PartidaTerminou (s.pJogo.vezDe PCA_PecaBranca) = false :=
        PartidaTerminou_of_zero h0
      simp [Partida.step,hs,disputar,proximaRodada,hp,t]
    have hr : s.retorno (.dados 3 1) = none := (Partida.retorno_none_iff ht).mpr Lugar.noConfusion
    have hj : (Momento.partida s false).jogada (.dados 3 1) = some (.partida t false) := by
      rw [Momento.jogada,ht,Option.map_some,hr]
      rfl
    obtain ⟨m,hm,hnot⟩ := exists_not_motivada_rodada (x := x) (s := t) rfl hf h0
    exact ⟨m,Relation.ReflTransGen.head ⟨_,trivial,hj⟩ hm,hnot⟩

end Flag

section Games
variable {memoria : JGO_tpJogo} {lixo : PCA_tpCorPeca}

theorem PCF_ContarPecas_criada (c : PCA_tpCorPeca) :
    PCF_ContarPecas PCF_CriarListaPecasFinalizadas c = 0 := by
  cases c <;> rfl

theorem CriarJogo_motivada_iff (NomeJogadorPecasBrancas NomeJogadorPecasPretas : List Char) :
    (∀ m, (CriarJogo memoria NomeJogadorPecasBrancas NomeJogadorPecasPretas lixo).Reachable m →
      Motivada m) ↔ memoria.PartidaTerminouDobra = false := by
  constructor
  · intro h
    rw [← Bool.not_eq_true]
    intro hf
    obtain ⟨m,hm,hnot⟩ := exists_not_motivada (x := (memoria,fun _ => 0))
      (s := (partida { memoria with
        NomeJogadorPecasBrancas := NomeJogadorPecasBrancas
        PontuacaoAcumuladaJogadorPecasBrancas := 0
        NomeJogadorPecasPretas := NomeJogadorPecasPretas
        PontuacaoAcumuladaJogadorPecasPretas := 0 } lixo).init) Lugar.noConfusion hf
      PCF_ContarPecas_criada
    exact hnot (h m (Relation.ReflTransGen.mono
      (fun _ _ ⟨a,hg,ha⟩ => ⟨.jogada a,hg,ha⟩) _ _ hm))
  · intro hf m hm
    refine Justa.motivada (hm.invariant (.partida hf) ?_)
    intro m a m' hj _ hs
    cases a with
    | jogada a => exact hj.jogada hs
    | outra lixo => exact Justa.outra hs

/-- A rebuilt game has the flag of its memory and no finished piece. -/
theorem RecuperarJogo_some {antes : ℤ × ℤ} {arquivo : List Char}
    {x : JGO_tpJogo × tpExibicaoDados} (hx : RecuperarJogo memoria lixo antes arquivo = some x) :
    x.1.PartidaTerminouDobra = memoria.PartidaTerminouDobra ∧
      x.1.pPecasFinalizadas = PCF_CriarListaPecasFinalizadas := by
  cases hc : lerCabecalho arquivo with
  | none =>
    rw [RecuperarJogo,hc] at hx
    cases hx
  | some y =>
    rw [RecuperarJogo_eq hc] at hx
    obtain ⟨p,-,rfl⟩ := Option.map_eq_some_iff.mp hx
    exact ⟨rfl,rfl⟩

/-- The start of a match that has no finished piece. -/
theorem ProcessarPartida_inicio {j : JGO_tpJogo} (d : tpExibicaoDados)
    (h0 : ∀ c, PCF_ContarPecas j.pPecasFinalizadas c = 0) :
    (ProcessarPartida j d).lugar ≠ .fim ∧ ∃ c, (ProcessarPartida j d).pJogo = j.vezDe c := by
  have hproxima (c : PCA_tpCorPeca) : (proximaRodada (j.vezDe c) d).lugar ≠ .fim := by
    have hp : PartidaTerminou (j.vezDe c) = false := PartidaTerminou_of_zero h0
    rw [proximaRodada,hp]
    exact Lugar.noConfusion
  rw [ProcessarPartida]
  dsimp only
  split_ifs
  · exact ⟨hproxima j.JogadorAtual,_,rfl⟩
  · exact ⟨Lugar.noConfusion,j.JogadorAtual,rfl⟩
  · exact ⟨hproxima _,_,rfl⟩
  · exact ⟨hproxima _,_,rfl⟩

theorem IniciarPartidaExistente_motivada_iff {antes : ℤ × ℤ} {arquivo : List Char}
    {x : JGO_tpJogo × tpExibicaoDados} (hx : RecuperarJogo memoria lixo antes arquivo = some x) :
    (∀ m, (IniciarPartidaExistente x).Reachable m → Motivada m) ↔
      memoria.PartidaTerminouDobra = false := by
  obtain ⟨hflag,hfin⟩ := RecuperarJogo_some hx
  have h0 (c : PCA_tpCorPeca) : PCF_ContarPecas x.1.pPecasFinalizadas c = 0 := by
    rw [hfin]
    exact PCF_ContarPecas_criada c
  obtain ⟨hl,c,hc⟩ := ProcessarPartida_inicio x.2 h0
  have hflag' : (ProcessarPartida x.1 x.2).pJogo.PartidaTerminouDobra =
      memoria.PartidaTerminouDobra := by
    rw [hc]
    exact hflag
  constructor
  · intro h
    rw [← Bool.not_eq_true]
    intro hf
    obtain ⟨m,hm,hnot⟩ := exists_not_motivada (x := x) hl (hflag'.trans hf) (by rw [hc]; exact h0)
    exact hnot (h m hm)
  · intro hf m hm
    refine Justa.motivada (hm.invariant (.partida (hflag'.trans hf)) ?_)
    intro m a m' hj _ hs
    exact hj.jogada hs

end Games

/-- The matches of every game, new or resumed, end for their own reasons if and only if the flag
was down in the memory allocated for the game. -/
theorem motivada_iff (memoria : JGO_tpJogo) (lixo : PCA_tpCorPeca) :
    (∀ NomeJogadorPecasBrancas NomeJogadorPecasPretas,
      (∀ m, (CriarJogo memoria NomeJogadorPecasBrancas NomeJogadorPecasPretas lixo).Reachable m →
        Motivada m) ↔ memoria.PartidaTerminouDobra = false) ∧
    ∀ antes arquivo x, RecuperarJogo memoria lixo antes arquivo = some x →
      ((∀ m, (IniciarPartidaExistente x).Reachable m → Motivada m) ↔
        memoria.PartidaTerminouDobra = false) :=
  ⟨fun _ _ => CriarJogo_motivada_iff _ _,fun _ _ _ hx => IniciarPartidaExistente_motivada_iff hx⟩

/-- A match saved before its first roll is resumed with the flag down. -/
theorem motivada_resumed : ∃ x, RecuperarJogo jogoNovo PCA_PecaBranca (0,0)
      (SalvarJogo (IniciarNovaPartida jogoNovo PCA_PecaBranca) (fun _ => -1) PCA_PecaBranca) =
        some x ∧ ∀ m, (IniciarPartidaExistente x).Reachable m → Motivada m := by
  have hs : Salvavel (IniciarNovaPartida jogoNovo PCA_PecaBranca) fun _ => -1 :=
    Salvavel.inicial nomeInteiro_Ana nomeInteiro_Bia PCA_PecaBranca
  have hb : ¬ EmBranco (IniciarNovaPartida jogoNovo PCA_PecaBranca).NomeJogadorPecasPretas :=
    show ¬ EmBranco "Bia".toList from not_emBranco (by decide) (by simp [Scanf.isspace])
  have hx := RecuperarJogo_salvo hs hb jogoNovo PCA_PecaBranca PCA_PecaBranca (0,0)
  exact ⟨_,hx,((motivada_iff jogoNovo PCA_PecaBranca).2 _ _ _ hx).mpr rfl⟩

/-- The first command of the first match ends it. -/
theorem not_motivada_flag : ¬ ∀ memoria NomeJogadorPecasBrancas NomeJogadorPecasPretas lixo m,
    (CriarJogo memoria NomeJogadorPecasBrancas NomeJogadorPecasPretas lixo).Reachable m →
      Motivada m := by
  intro hall
  obtain ⟨m,hm,hp⟩ := TransitionSystem.exists_reachable_of_exec
    (T := CriarJogo { jogoNovo with PartidaTerminouDobra := true } "Ana".toList "Bia".toList
      PCA_PecaBranca)
    (l := [.jogada (.dados 3 1),.jogada (.jogada (.numero 13) (.numero 10) PCA_PecaBranca)])
    (p := fun m => match m with
      | .terminada j recusada => !PartidaTerminou j && !recusada
      | _ => false) (by decide +kernel)
  cases m with
  | terminada j recusada =>
    rw [Bool.and_eq_true,Bool.not_eq_true',Bool.not_eq_true'] at hp
    obtain h | h := hall _ _ _ _ _ hm _ _ rfl
    · rw [PartidaTerminou_iff.mpr h] at hp
      cases hp.1
    · rw [h] at hp
      cases hp.2
  | partida s recusada => cases hp
  | encerrado => cases hp

end PucRio.Gamao
