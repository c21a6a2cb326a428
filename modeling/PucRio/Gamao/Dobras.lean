import PucRio.Gamao.ResumedMatch
import Mathlib.Data.List.Chain

/-! The offers to double that are made and answered in a match, and what they leave of the cube. -/
namespace PucRio.Gamao
open PCA_tpCorPeca

/-- The offer that a step makes, with its answer. -/
def oferta (s : Partida) : Acao → List (PCA_tpCorPeca × Bool)
  | .dados _ _ => []
  | .jogada linha linha' lixo =>
    match comandoLido s.pJogo linha linha' with
    | some (.dobrar aceita) =>
      if podeDobrar s.pJogo lixo then [(s.pJogo.JogadorAtual,aceita)] else []
    | _ => []

/-- A match with its offers so far. -/
def disputada (pJogo : JGO_tpJogo) (lixo : PCA_tpCorPeca) :
    TransitionSystem (Partida × List (PCA_tpCorPeca × Bool)) Acao :=
  (partida pJogo lixo).recorded oferta

/-- The players whose doubles were accepted. -/
def aceitas (ofertas : List (PCA_tpCorPeca × Bool)) : List PCA_tpCorPeca :=
  (ofertas.filter Prod.snd).map Prod.fst

/-- What ProcessarPartida returns, where a step ends it. -/
def Partida.retorno (s : Partida) (a : Acao) : Option Bool :=
  (s.step a).bind fun t =>
    if t.lugar = .fim then
      match a with
      | .dados _ _ => some true
      | .jogada linha linha' lixo =>
        some ((volta s.pJogo s.ExibicaoDados lixo linha linha').retorno ≠ some false)
    else none

section Offers
variable {ofertas : List (PCA_tpCorPeca × Bool)} {c : PCA_tpCorPeca}

@[simp] theorem aceitas_nil : aceitas [] = [] := rfl

@[simp] theorem aceitas_true : aceitas (ofertas ++ [(c,true)]) = aceitas ofertas ++ [c] := by
  simp [aceitas]

@[simp] theorem aceitas_false : aceitas (ofertas ++ [(c,false)]) = aceitas ofertas := by
  simp [aceitas]

/-- The effects of a step: a turn passed on, moves and other commands, or an offer. -/
inductive Efeito (s t : Partida) : List (PCA_tpCorPeca × Bool) → Prop
  | vez (c : PCA_tpCorPeca) (h : t.pJogo = s.pJogo.vezDe c) : Efeito s t []
  | pecas (h : t.pJogo = s.pJogo ∨ Executada s.pJogo t.pJogo) : Efeito s t []
  | aceita {lixo : PCA_tpCorPeca} (hp : podeDobrar s.pJogo lixo = true)
      (h : t.pJogo = DobrarPartida s.pJogo lixo true) : Efeito s t [(s.pJogo.JogadorAtual,true)]
  | recusada (h : t.pJogo = { s.pJogo with PartidaTerminouDobra := true }) (hl : t.lugar = .fim) :
      Efeito s t [(s.pJogo.JogadorAtual,false)]

theorem DobrarPartida_recusada {j : JGO_tpJogo} {lixo : PCA_tpCorPeca}
    (h : podeDobrar j lixo = true) :
    DobrarPartida j lixo false = { j with PartidaTerminouDobra := true } := by
  rw [DobrarPartida]
  dsimp only
  rw [if_pos h]
  rfl

theorem DobrarPartida_fora_da_vez {j : JGO_tpJogo} {lixo : PCA_tpCorPeca}
    (h : podeDobrar j lixo = false) (aceita : Bool) : DobrarPartida j lixo aceita = j := by
  rw [DobrarPartida]
  dsimp only
  rw [if_neg (by rw [h]; decide)]

theorem efeito_of_step {s t : Partida} {a : Acao} (h : s.step a = some t) :
    Efeito s t (oferta s a) := by
  cases a with
  | dados v v' =>
    obtain ⟨c,hc,-⟩ := Partida.step_dados h
    exact .vez c hc
  | jogada linha linha' lixo =>
    obtain ⟨-,-,rfl⟩ := Partida.step_jogada h
    rw [oferta]
    cases hc : comandoLido s.pJogo linha linha' with
    | none => exact .pecas (volta_jogada lixo hc).2
    | some e =>
      have hv : (seguir (volta s.pJogo s.ExibicaoDados lixo linha linha')).pJogo =
          (comando s.pJogo s.ExibicaoDados lixo e).pJogo := by
        rw [volta_comando hc]
        rfl
      cases e with
      | dobrar aceita =>
        dsimp only
        cases hp : podeDobrar s.pJogo lixo with
        | false => exact .pecas (.inl (hv.trans (DobrarPartida_fora_da_vez hp aceita)))
        | true =>
          rw [if_pos rfl]
          cases aceita with
          | false =>
            have hj := hv.trans (DobrarPartida_recusada hp)
            refine .recusada hj ?_
            rw [seguir] at hj ⊢
            dsimp only at hj ⊢
            rw [hj,volta_comando hc]
            rfl
          | true => exact .aceita hp hv
      | _ => exact .pecas (.inl hv)

/-- An accepted double: the cube goes to the other player. -/
theorem DobrarPartida_aceita {j : JGO_tpJogo} {lixo : PCA_tpCorPeca}
    (h : podeDobrar j lixo = true)
    (h1 : j.PrimeiraDobraPartidaRealizada = true → j.pDadoPontos.Pontuacao ≠ 1) :
    DobrarPartida j lixo true = { j with
      pDadoPontos := ⟨wrap32 (j.pDadoPontos.Pontuacao*2),j.JogadorAtual.oponente⟩
      PrimeiraDobraPartidaRealizada := true } := by
  have hdobra : DPT_DobrarPontuacaoPartida (if j.PrimeiraDobraPartidaRealizada then j.pDadoPontos
      else DPT_AtualizarJogadorDobra j.pDadoPontos j.JogadorAtual) j.JogadorAtual =
      some ⟨wrap32 (j.pDadoPontos.Pontuacao*2),j.JogadorAtual⟩ := by
    cases hflag : j.PrimeiraDobraPartidaRealizada with
    | false =>
      rw [if_neg (by decide),DPT_DobrarPontuacaoPartida,if_neg fun hne => hne rfl]
      rfl
    | true =>
      have hdono : j.pDadoPontos.CorPeca = j.JogadorAtual := by
        rw [podeDobrar,DPT_ObterJogadorDobraPartida,if_neg (h1 hflag),hflag] at h
        simpa using h
      rw [if_pos rfl,DPT_DobrarPontuacaoPartida,if_neg fun hne => hne hdono,hdono]
  rw [DobrarPartida]
  dsimp only
  rw [if_pos h,if_pos rfl,hdobra,oponente_eq]
  rfl

/-- The cube and its flag are as the accepted doubles say. -/
structure Contada (j : JGO_tpJogo) (dobras : List PCA_tpCorPeca) : Prop where
  cubo : j.pDadoPontos.Pontuacao = 2^dobras.length
  primeira : j.PrimeiraDobraPartidaRealizada = true ↔ dobras ≠ []
  dono : ∀ c ∈ dobras.getLast?, j.pDadoPontos.CorPeca = c.oponente
  alternadas : dobras.IsChain (· ≠ ·)

namespace Contada
variable {j j' : JGO_tpJogo} {dobras : List PCA_tpCorPeca}

/-- It depends on the cube and its flag only. -/
theorem of_cubo (h : Contada j dobras) (hd : j'.pDadoPontos = j.pDadoPontos)
    (hp : j'.PrimeiraDobraPartidaRealizada = j.PrimeiraDobraPartidaRealizada) :
    Contada j' dobras := by
  refine ⟨?_,?_,?_,h.alternadas⟩
  · rw [hd]
    exact h.cubo
  · rw [hp]
    exact h.primeira
  · rw [hd]
    exact h.dono

theorem pontuacao_ne_one (h : Contada j dobras) (hd : dobras ≠ []) :
    j.pDadoPontos.Pontuacao ≠ 1 := by
  have hlt : (2 : ℤ)^0 < 2^dobras.length :=
    pow_lt_pow_right₀ (by decide) (List.length_pos_iff.mpr hd)
  rw [h.cubo]
  omega

/-- Only the player who accepted the last double may offer the next one. -/
theorem podeDobrar_iff (h : Contada j dobras) (lixo : PCA_tpCorPeca) :
    podeDobrar j lixo = true ↔ ∀ c ∈ dobras.getLast?, j.JogadorAtual = c.oponente := by
  rw [podeDobrar]
  cases hflag : j.PrimeiraDobraPartidaRealizada with
  | false =>
    have hnil : dobras = [] := by
      by_contra hne
      rw [h.primeira.mpr hne] at hflag
      cases hflag
    simp [hnil]
  | true =>
    have hne := h.primeira.mp hflag
    obtain ⟨c,hc⟩ : ∃ c, dobras.getLast? = some c :=
      ⟨dobras.getLast hne,List.getLast?_eq_some_getLast hne⟩
    have hdono := h.dono c hc
    rw [DPT_ObterJogadorDobraPartida,if_neg (h.pontuacao_ne_one hne),hdono,hc]
    simp [eq_comm]

theorem aceita (h : Contada j dobras) (hlt : dobras.length+1 < 31) {lixo : PCA_tpCorPeca}
    (hp : podeDobrar j lixo = true) :
    Contada (DobrarPartida j lixo true) (dobras ++ [j.JogadorAtual]) := by
  rw [DobrarPartida_aceita hp fun hflag => h.pontuacao_ne_one (h.primeira.mp hflag)]
  refine ⟨?_,?_,?_,?_⟩
  · dsimp only
    rw [h.cubo,wrap32_dobro (by omega),List.length_append,List.length_singleton]
  · simp
  · simp
  · rw [List.isChain_append]
    refine ⟨h.alternadas,List.isChain_singleton _,fun c hc c' hc' => ?_⟩
    obtain rfl : j.JogadorAtual = c' := by simpa using hc'
    rw [(h.podeDobrar_iff lixo).mp hp c hc]
    exact c.oponente_ne.symm

theorem nova (pJogo : JGO_tpJogo) (lixo : PCA_tpCorPeca) :
    Contada (IniciarNovaPartida pJogo lixo) [] :=
  ⟨rfl,by simp [IniciarNovaPartida,CriarEstruturasPartida],by simp,List.isChain_nil⟩

end Contada

end Offers

end PucRio.Gamao
