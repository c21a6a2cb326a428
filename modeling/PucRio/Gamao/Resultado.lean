import PucRio.Gamao.Dobras

/-! How a match ends, and what its result adds to the scores. -/
namespace PucRio.Gamao
open PCA_tpCorPeca

/-- The winner as ProcessarResultadoPartida sees it. -/
def vencedor (pJogo : JGO_tpJogo) : PCA_tpCorPeca :=
  if pJogo.PartidaTerminouDobra then
    if pJogo.JogadorAtual = PCA_PecaBranca then PCA_PecaBranca else PCA_PecaPreta
  else if PCF_ContarPecas pJogo.pPecasFinalizadas PCA_PecaBranca = 15 then PCA_PecaBranca
  else PCA_PecaPreta

def ProcessarResultadoPartida (pJogo : JGO_tpJogo) : JGO_tpJogo :=
  let CorJogadorVencedor := vencedor pJogo
  let pJogo := { pJogo with PartidaTerminouDobra := false }
  let PontuacaoPartida := Int32.ofInt pJogo.pDadoPontos.Pontuacao
  if CorJogadorVencedor = PCA_PecaPreta then { pJogo with
    PontuacaoAcumuladaJogadorPecasPretas :=
      pJogo.PontuacaoAcumuladaJogadorPecasPretas+PontuacaoPartida }
  else { pJogo with
    PontuacaoAcumuladaJogadorPecasBrancas :=
      pJogo.PontuacaoAcumuladaJogadorPecasBrancas+PontuacaoPartida }

def acumulada (pJogo : JGO_tpJogo) : PCA_tpCorPeca → Int32
  | PCA_PecaBranca => pJogo.PontuacaoAcumuladaJogadorPecasBrancas
  | PCA_PecaPreta => pJogo.PontuacaoAcumuladaJogadorPecasPretas

theorem acumulada_resultado (j : JGO_tpJogo) (c : PCA_tpCorPeca) :
    acumulada (ProcessarResultadoPartida j) c =
      if c = vencedor j then acumulada j c+Int32.ofInt j.pDadoPontos.Pontuacao
      else acumulada j c := by
  rw [ProcessarResultadoPartida]
  dsimp only
  cases vencedor j <;> cases c <;> rfl

section Runs
variable {pJogo : JGO_tpJogo} {lixo : PCA_tpCorPeca}

/-- What holds in a match that began with the flag of a refused double down: the flag goes up with
the refusal, which ends the match. -/
structure Andamento (pJogo : JGO_tpJogo) (s : Partida)
    (ofertas : List (PCA_tpCorPeca × Bool)) : Prop where
  contada : (aceitas ofertas).length < 31 → Contada s.pJogo (aceitas ofertas)
  acumuladas (c : PCA_tpCorPeca) : acumulada s.pJogo c = acumulada pJogo c
  aceitas : s.pJogo.PartidaTerminouDobra = false → ∀ o ∈ ofertas, o.2 = true
  recusada : s.pJogo.PartidaTerminouDobra = true → s.lugar = .fim ∧
    (s.pJogo.JogadorAtual,false) ∈ ofertas

theorem Partida.lugar_of_step {s t : Partida} {a : Acao} (h : s.step a = some t) :
    s.lugar ≠ .fim := by
  intro hl
  cases a with
  | dados v v' => simp [Partida.step,hl] at h
  | jogada linha linha' lixo => simp [Partida.step,hl] at h

/-- An accepted double touches neither the flag nor the scores nor the turn. -/
theorem DobrarPartida_true_resto (j : JGO_tpJogo) (lixo : PCA_tpCorPeca) :
    (DobrarPartida j lixo true).PartidaTerminouDobra = j.PartidaTerminouDobra ∧
      ∀ c, acumulada (DobrarPartida j lixo true) c = acumulada j c := by
  rw [DobrarPartida]
  dsimp only
  by_cases hp : podeDobrar j lixo = true
  · rw [if_pos hp,if_pos rfl]
    cases DPT_DobrarPontuacaoPartida _ _
    · exact ⟨rfl,fun c => by cases c <;> rfl⟩
    · exact ⟨rfl,fun c => by cases c <;> rfl⟩
  · rw [if_neg hp]
    exact ⟨rfl,fun _ => rfl⟩

namespace Andamento
variable {s t : Partida} {ofertas : List (PCA_tpCorPeca × Bool)}

theorem step (h : Andamento pJogo s ofertas) {a : Acao} (hs : s.step a = some t) :
    Andamento pJogo t (ofertas ++ oferta s a) := by
  have hflag : s.pJogo.PartidaTerminouDobra = false := by
    rw [← Bool.not_eq_true]
    exact fun hf => Partida.lugar_of_step hs (h.recusada hf).1
  have hall := h.aceitas hflag
  have he := efeito_of_step hs
  generalize oferta s a = feitas at he ⊢
  -- a step that makes no offer leaves the cube, the flags and the scores
  have hsem (hd : t.pJogo.pDadoPontos = s.pJogo.pDadoPontos)
      (hp : t.pJogo.PrimeiraDobraPartidaRealizada = s.pJogo.PrimeiraDobraPartidaRealizada)
      (hf : t.pJogo.PartidaTerminouDobra = s.pJogo.PartidaTerminouDobra)
      (ha : ∀ c, acumulada t.pJogo c = acumulada s.pJogo c) :
      Andamento pJogo t (ofertas ++ []) := by
    rw [List.append_nil]
    refine ⟨fun hlt => (h.contada hlt).of_cubo hd hp,fun c => (ha c).trans (h.acumuladas c),
      fun _ => hall,fun hft => ?_⟩
    rw [hf,hflag] at hft
    cases hft
  cases he with
  | vez c hc =>
    rw [hc] at hsem
    exact hsem rfl rfl rfl fun c => by cases c <;> rfl
  | pecas hc =>
    obtain hc | hc := hc
    · rw [hc] at hsem
      exact hsem rfl rfl rfl fun _ => rfl
    · obtain ⟨p,b,f,hc⟩ := hc.resto
      rw [hc] at hsem
      exact hsem rfl rfl rfl fun c => by cases c <;> rfl
  | @aceita lixo hp hc =>
    obtain ⟨hf,ha⟩ := DobrarPartida_true_resto s.pJogo lixo
    refine ⟨fun hlt => ?_,fun c => ?_,fun _ => ?_,fun hft => ?_⟩
    · rw [aceitas_true,List.length_append,List.length_singleton] at hlt
      rw [hc,aceitas_true]
      exact (h.contada (by omega)).aceita hlt hp
    · rw [hc,ha]
      exact h.acumuladas c
    · simpa using hall
    · rw [hc,hf,hflag] at hft
      cases hft
  | recusada hc hl =>
    refine ⟨fun hlt => ?_,fun c => ?_,fun hft => ?_,fun _ => ⟨hl,?_⟩⟩
    · rw [aceitas_false] at hlt ⊢
      rw [hc]
      exact (h.contada hlt).of_cubo rfl rfl
    · rw [← h.acumuladas c,hc]
      cases c <;> rfl
    · rw [hc] at hft
      cases hft
    · rw [hc]
      exact List.mem_append_right _ (List.mem_singleton.mpr rfl)

theorem reachable (hf : pJogo.PartidaTerminouDobra = false)
    (h : (disputada pJogo lixo).Reachable (s,ofertas)) : Andamento pJogo s ofertas := by
  refine h.invariant (I := fun x => Andamento pJogo x.1 x.2) ⟨?_,?_,?_,?_⟩ ?_
  · exact fun _ => .nova pJogo lixo
  · intro c
    cases c <;> rfl
  · intro _ o ho
    cases ho
  · intro hft
    rw [show (disputada pJogo lixo).init.1.pJogo.PartidaTerminouDobra = false from hf] at hft
    cases hft
  · rintro ⟨s,o⟩ a ⟨t,o'⟩ hx - hs
    obtain ⟨hs,ho⟩ := TransitionSystem.recorded_step hs
    dsimp only at ho
    subst ho
    exact hx.step hs

end Andamento

/-- A match that ProcessarPartida has ended with true was refused a double or has been won. -/
theorem Partida.retorno_true {s t : Partida} {a : Acao} (hs : s.step a = some t)
    (hr : s.retorno a = some true) :
    PartidaTerminou t.pJogo = true ∨ t.pJogo.PartidaTerminouDobra = true := by
  cases a with
  | dados v v' =>
    obtain ⟨_,-,ht⟩ := Partida.step_dados hs
    simp only [Partida.retorno,hs,Option.bind_some] at hr
    split_ifs at hr with hfim
    exact ht hfim
  | jogada linha linha' lixo =>
    simp only [Partida.retorno,hs,Option.bind_some] at hr
    split_ifs at hr with hfim
    obtain ⟨-,-,rfl⟩ := Partida.step_jogada hs
    have hne : (volta s.pJogo s.ExibicaoDados lixo linha linha').retorno ≠ some false := by
      simpa using hr
    rw [seguir] at hfim ⊢
    dsimp only at hfim ⊢
    split_ifs at hfim with h1 h2
    exact .inr h2

/-- Whom the claims of a match single out: the offer of this player was refused, or all were
accepted and the pieces of this colour are finished. -/
def Merece (j : JGO_tpJogo) (ofertas : List (PCA_tpCorPeca × Bool)) (c : PCA_tpCorPeca) : Prop :=
  (c,false) ∈ ofertas ∨
    (∀ o ∈ ofertas, o.2 = true) ∧ PCF_ContarPecas j.pPecasFinalizadas c = 15

theorem Andamento.merece {s : Partida} {ofertas : List (PCA_tpCorPeca × Bool)}
    (h : Andamento pJogo s ofertas)
    (hfim : PartidaTerminou s.pJogo = true ∨ s.pJogo.PartidaTerminouDobra = true) :
    Merece s.pJogo ofertas (vencedor s.pJogo) := by
  rw [vencedor]
  cases hf : s.pJogo.PartidaTerminouDobra with
  | true =>
    have hcor (c : PCA_tpCorPeca) :
        (if c = PCA_PecaBranca then PCA_PecaBranca else PCA_PecaPreta) = c := by
      cases c <;> rfl
    rw [if_pos rfl,hcor]
    exact .inl (h.recusada hf).2
  | false =>
    rw [if_neg (by decide)]
    refine .inr ⟨h.aceitas hf,?_⟩
    have hp : PartidaTerminou s.pJogo = true := hfim.resolve_right (by rw [hf]; decide)
    rw [PartidaTerminou,Bool.or_eq_true,decide_eq_true_iff,decide_eq_true_iff] at hp
    split_ifs with hb
    · exact hb
    · exact hp.resolve_left hb

/-- What the result adds: the value of the cube to one score, nothing to the other. -/
def Pontua (antes depois : JGO_tpJogo) (c : PCA_tpCorPeca) (dobras : ℕ) : Prop :=
  (acumulada depois c).toInt = (acumulada antes c).toInt+2^dobras ∧
    acumulada depois c.oponente = acumulada antes c.oponente

theorem toInt_soma {a : Int32} {k : ℕ} (hk : k < 31) :
    (a+Int32.ofInt (2^k)).toInt = a.toInt+2^k ↔ a.toInt+2^k < 2^31 := by
  have hpow : (2 : ℤ)^k ≤ 2^30 := pow_le_pow_right₀ (by decide) (by omega)
  have hpos : (0 : ℤ) < 2^k := by positivity
  have hof : (Int32.ofInt (2^k)).toInt = 2^k := Int32.toInt_ofInt_of_le (by omega) (by omega)
  have hle := a.le_toInt
  have hlt := a.toInt_lt
  rw [Int32.toInt_add,hof]
  constructor
  · intro h
    have := Int.bmod_lt (x := a.toInt+2^k) (m := 2^32) (by decide)
    omega
  · intro h
    exact Int.bmod_eq_of_le (by omega) (by omega)

theorem pontua_iff {j j' : JGO_tpJogo} (ha : ∀ c, acumulada j' c = acumulada j c) {dobras : ℕ}
    (hd : j'.pDadoPontos.Pontuacao = 2^dobras) (hlt : dobras < 31)
    {Merecedor : PCA_tpCorPeca → Prop} (hm : Merecedor (vencedor j')) :
    (∃ c, Merecedor c ∧ Pontua j (ProcessarResultadoPartida j') c dobras) ↔
      (acumulada j (vencedor j')).toInt+2^dobras < 2^31 := by
  have hpos : (0 : ℤ) < 2^dobras := by positivity
  constructor
  · rintro ⟨c,-,hc,-⟩
    rw [acumulada_resultado,ha,hd] at hc
    split_ifs at hc with hv
    · rw [← hv]
      exact (toInt_soma hlt).mp hc
    · omega
  · intro h
    refine ⟨_,hm,?_,?_⟩
    · rw [acumulada_resultado,if_pos rfl,ha,hd]
      exact (toInt_soma hlt).mpr h
    · rw [acumulada_resultado,if_neg (vencedor j').oponente_ne,ha]

/-- The cube and the players who double, in every state of a match; and the scores at its end,
which are right if and only if the winner's does not overflow. -/
theorem dobras_pontuadas_iff (hf : pJogo.PartidaTerminouDobra = false) {s : Partida}
    {ofertas : List (PCA_tpCorPeca × Bool)} (h : (disputada pJogo lixo).Reachable (s,ofertas))
    (hlt : (aceitas ofertas).length < 31) :
    s.pJogo.pDadoPontos.Pontuacao = 2^(aceitas ofertas).length ∧
    (aceitas ofertas).IsChain (· ≠ ·) ∧
    (∀ lixo', podeDobrar s.pJogo lixo' = true ↔
      ∀ c ∈ (aceitas ofertas).getLast?, s.pJogo.JogadorAtual = c.oponente) ∧
    ∀ a t, s.step a = some t → s.retorno a = some true →
      (aceitas (ofertas ++ oferta s a)).length < 31 →
      ((∃ c, Merece t.pJogo (ofertas ++ oferta s a) c ∧
          Pontua pJogo (ProcessarResultadoPartida t.pJogo) c
            (aceitas (ofertas ++ oferta s a)).length) ↔
        (acumulada pJogo (vencedor t.pJogo)).toInt+
          2^(aceitas (ofertas ++ oferta s a)).length < 2^31) := by
  have hs := Andamento.reachable hf h
  have hc := hs.contada hlt
  refine ⟨hc.cubo,hc.alternadas,hc.podeDobrar_iff,fun a t hst hr hlt' => ?_⟩
  have ht := hs.step hst
  exact pontua_iff ht.acumuladas (ht.contada hlt').cubo hlt'
    (ht.merece (Partida.retorno_true hst hr))

end Runs

/-- White's double is accepted, black's is refused: black wins two points. -/
theorem dobras_pontuadas_refused : ∃ s ofertas a t,
    (disputada jogoNovo PCA_PecaBranca).Reachable (s,ofertas) ∧ s.step a = some t ∧
    s.retorno a = some true ∧ ∃ c, Merece t.pJogo (ofertas ++ oferta s a) c ∧
      Pontua jogoNovo (ProcessarResultadoPartida t.pJogo) c
        (aceitas (ofertas ++ oferta s a)).length := by
  let a : Acao := .jogada (.dobrar false) .erro PCA_PecaBranca
  obtain ⟨x,hx,hp⟩ := TransitionSystem.exists_reachable_of_exec
    (T := disputada jogoNovo PCA_PecaBranca)
    (l := [.dados 3 1,.jogada (.dobrar true) .erro PCA_PecaBranca,
      .jogada (.numero 13) (.numero 10) PCA_PecaBranca,
      .jogada (.numero 6) (.numero 5) PCA_PecaBranca,.dados 4 2])
    (p := fun x => (x.1.step a).any (fun t => decide (vencedor t.pJogo = PCA_PecaPreta)) &&
      decide (x.1.retorno a = some true) && decide (x.2 = [(PCA_PecaBranca,true)]) &&
      decide (oferta x.1 a = [(PCA_PecaPreta,false)])) (by decide +kernel)
  simp only [Bool.and_eq_true,decide_eq_true_eq,Option.any_eq_true] at hp
  obtain ⟨⟨⟨⟨t,ht,hv⟩,hr⟩,ho⟩,ho'⟩ := hp
  obtain ⟨s,o⟩ := x
  dsimp only at ht hr ho ho'
  subst ho
  have hd : (aceitas ([(PCA_PecaBranca,true)] ++ oferta s a)).length = 1 := by
    rw [ho']
    rfl
  refine ⟨s,_,a,t,hx,ht,hr,((dobras_pontuadas_iff rfl hx (by decide)).2.2.2 a t ht hr
    (by rw [hd]; decide)).mpr ?_⟩
  rw [hd,hv]
  decide

/-- After a score of 2147483647 points. -/
theorem not_dobras_pontuadas_overflow : ¬ ∀ (pJogo : JGO_tpJogo) (lixo : PCA_tpCorPeca)
    (s : Partida) (ofertas : List (PCA_tpCorPeca × Bool)), pJogo.PartidaTerminouDobra = false →
    (disputada pJogo lixo).Reachable (s,ofertas) → ∀ a t, s.step a = some t →
    s.retorno a = some true → (aceitas (ofertas ++ oferta s a)).length < 31 →
    ∃ c, Merece t.pJogo (ofertas ++ oferta s a) c ∧
      Pontua pJogo (ProcessarResultadoPartida t.pJogo) c
        (aceitas (ofertas ++ oferta s a)).length := by
  intro hall
  let pJogo : JGO_tpJogo :=
    { jogoNovo with PontuacaoAcumuladaJogadorPecasBrancas := Int32.ofInt 2147483647 }
  let a : Acao := .jogada (.dobrar false) .erro PCA_PecaBranca
  obtain ⟨x,hx,hp⟩ := TransitionSystem.exists_reachable_of_exec
    (T := disputada pJogo PCA_PecaBranca) (l := [.dados 3 1])
    (p := fun x => (x.1.step a).any (fun t => decide (vencedor t.pJogo = PCA_PecaBranca)) &&
      decide (x.1.retorno a = some true) && decide (x.2 = []) &&
      decide (oferta x.1 a = [(PCA_PecaBranca,false)])) (by decide +kernel)
  simp only [Bool.and_eq_true,decide_eq_true_eq,Option.any_eq_true] at hp
  obtain ⟨⟨⟨⟨t,ht,hv⟩,hr⟩,ho⟩,ho'⟩ := hp
  obtain ⟨s,o⟩ := x
  dsimp only at ht hr ho ho'
  subst ho
  have hd : (aceitas ([] ++ oferta s a)).length = 0 := by
    rw [ho']
    rfl
  have h0 : Andamento pJogo s [] := Andamento.reachable rfl hx
  have h1 := h0.step ht
  have hpontua := (pontua_iff h1.acumuladas (h1.contada (by rw [hd]; decide)).cubo
    (by rw [hd]; decide) (h1.merece (Partida.retorno_true ht hr))).mp
    (hall pJogo _ s _ rfl hx a t ht hr (by rw [hd]; decide))
  rw [hd,hv] at hpontua
  revert hpontua
  decide

end PucRio.Gamao
