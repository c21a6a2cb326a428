import PucRio.Gamao.Jogo
import PucRio.Lib.TransitionSystem

/-! The run of a match: the dispute for the first turn, then rounds in which the player to move
types moves and commands as long as JogadasDisponiveis says so. -/
namespace PucRio.Gamao
open PCA_tpCorPeca

/-- As many pieces of a colour as asked for, put on one house. -/
def inserirPecas (pTabuleiro : TAB_tpTabuleiro) (CorPeca : PCA_tpCorPeca) (NumeroCasa : ℤ) :
    ℕ → TAB_tpTabuleiro
  | 0 => pTabuleiro
  | ContadorPeca+1 =>
    match TAB_InserirPeca (inserirPecas pTabuleiro CorPeca NumeroCasa ContadorPeca) CorPeca
      NumeroCasa with
    | .ok pTabuleiro => pTabuleiro
    | .error _ => inserirPecas pTabuleiro CorPeca NumeroCasa ContadorPeca

def InserirPecasVetor (pTabuleiro : TAB_tpTabuleiro) (VetorCasas : List ℕ)
    (CorPeca : PCA_tpCorPeca) : TAB_tpTabuleiro :=
  ((casas 1 24).zip VetorCasas).foldl (fun t x => inserirPecas t CorPeca x.1 x.2) pTabuleiro

def PecasBrancas : List ℕ := [0,0,0,0,0,5,0,3,0,0,0,0,5,0,0,0,0,0,0,0,0,0,0,2]

def PecasPretas : List ℕ := [2,0,0,0,0,0,0,0,0,0,0,5,0,0,0,0,3,0,5,0,0,0,0,0]

/-- What is not set keeps what the memory held: `lixo` in the new cube, the rest of `pJogo`. -/
def CriarEstruturasPartida (pJogo : JGO_tpJogo) (lixo : PCA_tpCorPeca) : JGO_tpJogo :=
  { pJogo with
    pDadoPontos := DPT_CriarDadoPontos lixo
    pPecasCapturadas := 0
    pPecasFinalizadas := PCF_CriarListaPecasFinalizadas
    pTabuleiro := TAB_CriarTabuleiro
    PrimeiraDobraPartidaRealizada := false }

/-- The board of IniciarNovaPartida. -/
def tabuleiroInicial : TAB_tpTabuleiro :=
  InserirPecasVetor (InserirPecasVetor TAB_CriarTabuleiro PecasBrancas PCA_PecaBranca) PecasPretas
    PCA_PecaPreta

/-- What IniciarNovaPartida hands to ProcessarPartida. -/
def IniciarNovaPartida (pJogo : JGO_tpJogo) (lixo : PCA_tpCorPeca) : JGO_tpJogo :=
  { CriarEstruturasPartida pJogo lixo with pTabuleiro := tabuleiroInicial }

def JogarDados (ValorDado1 ValorDado2 : ℤ) : tpExibicaoDados := fun ContadorDado =>
  if ContadorDado.val = 0 then ValorDado1
  else if ContadorDado.val = 1 then ValorDado2
  else if ValorDado1 = ValorDado2 then ValorDado1 else -1

/-- Where the program stands: rolling for the first turn, at the loops of ProcessarRodada and
ProcessarJogada, or past the match. -/
inductive Lugar
  | disputa
  | rodada
  | fim
  deriving DecidableEq

structure Partida where
  pJogo : JGO_tpJogo
  ExibicaoDados : tpExibicaoDados
  lugar : Lugar

inductive Acao
  | dados (ValorDado1 ValorDado2 : ℤ)
  | jogada (linha linha' : Entrada) (lixo : PCA_tpCorPeca)

/-- The game with another player to move. -/
def JGO_tpJogo.vezDe (pJogo : JGO_tpJogo) (JogadorAtual : PCA_tpCorPeca) : JGO_tpJogo :=
  { pJogo with JogadorAtual := JogadorAtual }

/-- The test of the loop of ProcessarPartida. -/
def proximaRodada (pJogo : JGO_tpJogo) (ExibicaoDados : tpExibicaoDados) : Partida :=
  ⟨pJogo,ExibicaoDados,if PartidaTerminou pJogo then .fim else .rodada⟩

/-- A roll decides who begins, unless both dice are the same. -/
def disputar (s : Partida) (ValorDado1 ValorDado2 : ℤ) : Partida :=
  let ExibicaoDados := JogarDados ValorDado1 ValorDado2
  if ValorDado1 = ValorDado2 then { s with ExibicaoDados := ExibicaoDados }
  else
    let JogadorAtual := if ValorDado1 > ValorDado2 then PCA_PecaBranca else PCA_PecaPreta
    proximaRodada (s.pJogo.vezDe JogadorAtual) ExibicaoDados

/-- ProcessarRodada ends with the turn passed on; the dice are rolled for the next round. -/
def passarVez (s : Partida) (ValorDado1 ValorDado2 : ℤ) : Partida :=
  let JogadorAtual :=
    if s.pJogo.JogadorAtual = PCA_PecaBranca then PCA_PecaPreta else PCA_PecaBranca
  let pJogo := s.pJogo.vezDe JogadorAtual
  if pJogo.PartidaTerminouDobra then ⟨pJogo,s.ExibicaoDados,.fim⟩
  else proximaRodada pJogo (JogarDados ValorDado1 ValorDado2)

/-- Where a pass of ProcessarJogada leads: back to its own loop, out of the match, or to the loop
of ProcessarRodada. -/
def seguir (v : Volta) : Partida :=
  let lugar := if v.retorno = none ∧ v.JogadaTerminou = false then .rodada
    else if v.retorno = some false then .fim
    else if v.pJogo.PartidaTerminouDobra then .fim
    else .rodada
  ⟨v.pJogo,v.ExibicaoDados,lugar⟩

def Partida.step (s : Partida) : Acao → Option Partida
  | .dados ValorDado1 ValorDado2 =>
    if 1 ≤ ValorDado1 ∧ ValorDado1 ≤ 6 ∧ 1 ≤ ValorDado2 ∧ ValorDado2 ≤ 6 then
      match s.lugar with
      | .disputa => some (disputar s ValorDado1 ValorDado2)
      | .rodada => if JogadasDisponiveis s.pJogo s.ExibicaoDados then none
        else some (passarVez s ValorDado1 ValorDado2)
      | .fim => none
    else none
  | .jogada linha linha' lixo =>
    match s.lugar with
    | .rodada => if JogadasDisponiveis s.pJogo s.ExibicaoDados then
        some (seguir (volta s.pJogo s.ExibicaoDados lixo linha linha')) else none
    | _ => none

/-- A match started by IniciarNovaPartida. -/
def partida (pJogo : JGO_tpJogo) (lixo : PCA_tpCorPeca) : TransitionSystem Partida Acao where
  init := ⟨IniciarNovaPartida pJogo lixo,fun _ => -1,.disputa⟩
  step := Partida.step

section Steps
variable {s t : Partida} {a : Acao}

/-- A roll hands the turn to a player, or ends the match. -/
theorem Partida.step_dados {v v' : ℤ} (h : s.step (.dados v v') = some t) :
    ∃ c, t.pJogo = s.pJogo.vezDe c ∧ (t.lugar = .fim →
      PartidaTerminou t.pJogo = true ∨ t.pJogo.PartidaTerminouDobra = true) := by
  have hproxima (pJogo : JGO_tpJogo) (d : tpExibicaoDados)
      (hfim : (proximaRodada pJogo d).lugar = .fim) : PartidaTerminou pJogo = true := by
    rw [proximaRodada] at hfim
    dsimp only at hfim
    split_ifs at hfim with hp
    exact hp
  rw [Partida.step] at h
  split at h
  · cases hl : s.lugar with
    | disputa =>
      simp only [hl,Option.some_inj] at h
      subst h
      rw [disputar]
      split_ifs
      · exact ⟨s.pJogo.JogadorAtual,rfl,fun hfim => absurd (hl.symm.trans hfim) (by decide)⟩
      · exact ⟨_,rfl,fun hfim => .inl (hproxima _ _ hfim)⟩
      · exact ⟨_,rfl,fun hfim => .inl (hproxima _ _ hfim)⟩
    | rodada =>
      simp only [hl,Option.ite_none_left_eq_some,Option.some_inj] at h
      obtain ⟨-,rfl⟩ := h
      rw [passarVez]
      split_ifs with hc hd hd
      · exact ⟨_,rfl,fun _ => .inr hd⟩
      · exact ⟨_,rfl,fun hfim => .inl (hproxima _ _ hfim)⟩
      · exact ⟨_,rfl,fun _ => .inr hd⟩
      · exact ⟨_,rfl,fun hfim => .inl (hproxima _ _ hfim)⟩
    | fim => simp [hl] at h
  · cases h

theorem Partida.step_jogada {linha linha' : Entrada} {lixo : PCA_tpCorPeca}
    (h : s.step (.jogada linha linha' lixo) = some t) : s.lugar = .rodada ∧
      JogadasDisponiveis s.pJogo s.ExibicaoDados = true ∧
      t = seguir (volta s.pJogo s.ExibicaoDados lixo linha linha') := by
  cases hl : s.lugar with
  | disputa => simp [Partida.step,hl] at h
  | fim => simp [Partida.step,hl] at h
  | rodada =>
    simp only [Partida.step,hl,Option.ite_none_right_eq_some,Option.some_inj] at h
    exact ⟨rfl,h.1,h.2.symm⟩

/-- What a step does to the game: another player to move, or a pass of ProcessarJogada. -/
theorem Partida.step_cases (h : s.step a = some t) :
    (∃ c, t.pJogo = s.pJogo.vezDe c) ∨
    (∃ linha linha' lixo, JogadasDisponiveis s.pJogo s.ExibicaoDados = true ∧
      t.pJogo = (volta s.pJogo s.ExibicaoDados lixo linha linha').pJogo) := by
  cases a with
  | dados v v' =>
    obtain ⟨c,hc,-⟩ := Partida.step_dados h
    exact .inl ⟨c,hc⟩
  | jogada linha linha' lixo =>
    obtain ⟨-,hd,rfl⟩ := Partida.step_jogada h
    exact .inr ⟨linha,linha',lixo,hd,rfl⟩

end Steps

end PucRio.Gamao
