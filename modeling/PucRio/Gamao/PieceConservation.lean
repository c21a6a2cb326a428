import PucRio.Gamao.Jogadas

/-! No piece is lost or gained in a match, and no house holds pieces of both colours. -/
namespace PucRio.Gamao
open PCA_tpCorPeca

namespace JGO_tpJogo
variable (j : JGO_tpJogo) (c : PCA_tpCorPeca) {i k : Fin 24}

/-- The pieces of a colour: on the board, on the bar and finished. -/
def soma : ℕ := j.pTabuleiro.total c+BAR_ContarPecas j.pPecasCapturadas c+
  PCF_ContarPecas j.pPecasFinalizadas c

/-- A house belongs to one colour. -/
def SemMistura : Prop :=
  ∀ i, j.pTabuleiro.pecas c i = 0 ∨ j.pTabuleiro.pecas c.oponente i = 0

variable {j c}

theorem SemMistura.oponente (h : j.SemMistura c) : j.SemMistura c.oponente := by
  intro i
  rw [PCA_tpCorPeca.oponente_oponente]
  exact (h i).symm

theorem soma_comCaptura : (j.comCaptura k).soma c = j.soma c := by
  rw [comCaptura]
  split_ifs with h
  · have hk : 0 < j.pTabuleiro.pecas j.JogadorAtual.oponente k := by
      rw [opostas] at h
      omega
    have ht := TAB_tpTabuleiro.total_removida c hk
    rw [soma,soma,← ht]
    dsimp only
    rw [BAR_ContarPecas_inserir]
    omega
  · rfl

theorem soma_reentrada (hb : 0 < j.naBarra) : (j.reentrada k).soma c = j.soma c := by
  have he := BAR_ContarPecas_erase hb c
  rw [soma,soma,← he,reentrada]
  dsimp only
  rw [TAB_tpTabuleiro.total_inserida]
  omega

theorem soma_finalizada (hi : 0 < j.proprias i) : (j.finalizada i).soma c = j.soma c := by
  have ht := TAB_tpTabuleiro.total_removida c hi
  rw [soma,soma,← ht,finalizada]
  dsimp only
  rw [PCF_ContarPecas_inserir]
  omega

theorem soma_movida (hi : 0 < j.proprias i) : (j.movida i k).soma c = j.soma c := by
  have ht := TAB_tpTabuleiro.total_removida c hi
  rw [soma,soma,← ht,movida]
  dsimp only
  rw [TAB_tpTabuleiro.total_inserida]

theorem soma_executada {j' : JGO_tpJogo} (h : Executada j j') : j'.soma c = j.soma c := by
  cases h with
  | reentrada hb hk =>
    rw [soma_reentrada (by rwa [comCaptura_naBarra]),soma_comCaptura]
  | finalizada hi => exact soma_finalizada hi
  | movida hi hk => rw [soma_comCaptura,soma_movida hi]

theorem pecas_comCaptura : (j.comCaptura k).pTabuleiro.pecas c i = j.pTabuleiro.pecas c i-
    if c = j.JogadorAtual.oponente ∧ i = k ∧ j.opostas k = 1 then 1 else 0 := by
  rw [comCaptura]
  by_cases h : j.opostas k = 1
  · simp only [h,if_true,and_true,TAB_tpTabuleiro.pecas_removida]
  · simp only [h,if_false,and_false,Nat.sub_zero]

/-- After a capture at most the player's own pieces stand on the house. -/
theorem opostas_comCaptura (h : j.opostas k ≤ 1) :
    (j.comCaptura k).pTabuleiro.pecas j.JogadorAtual.oponente k = 0 := by
  rw [pecas_comCaptura]
  by_cases h1 : j.opostas k = 1
  · rw [if_pos ⟨rfl,rfl,h1⟩]
    exact Nat.sub_eq_zero_of_le h
  · rw [if_neg fun hc => h1 hc.2.2]
    rw [opostas] at h h1
    omega

theorem semMistura_executada {j' : JGO_tpJogo} (hm : j.SemMistura j.JogadorAtual)
    (h : Executada j j') : j'.SemMistura j.JogadorAtual := by
  have hne := j.JogadorAtual.oponente_ne
  cases h with
  | @reentrada k hb hk =>
    intro i
    have hin (c : PCA_tpCorPeca) : ((j.comCaptura k).reentrada k).pTabuleiro.pecas c i =
        (j.comCaptura k).pTabuleiro.pecas c i+if c = j.JogadorAtual ∧ i = k then 1 else 0 := by
      rw [JGO_tpJogo.reentrada,comCaptura_JogadorAtual]
      exact TAB_tpTabuleiro.pecas_inserida _ _ _ _ _
    by_cases hi : i = k
    · subst hi
      right
      rw [hin,if_neg fun h => hne h.1]
      exact opostas_comCaptura hk
    · have hout (c : PCA_tpCorPeca) : ((j.comCaptura k).reentrada k).pTabuleiro.pecas c i ≤
          j.pTabuleiro.pecas c i := by
        rw [hin,if_neg fun h => hi h.2,pecas_comCaptura]
        exact Nat.sub_le _ _
      have h1 := hout j.JogadorAtual
      have h2 := hout j.JogadorAtual.oponente
      have := hm i
      omega
  | @finalizada i' hi' =>
    intro i
    have hout (c : PCA_tpCorPeca) : (j.finalizada i').pTabuleiro.pecas c i ≤
        j.pTabuleiro.pecas c i := by
      rw [JGO_tpJogo.finalizada]
      dsimp only
      rw [TAB_tpTabuleiro.pecas_removida]
      exact Nat.sub_le _ _
    have h1 := hout j.JogadorAtual
    have h2 := hout j.JogadorAtual.oponente
    have := hm i
    omega
  | @movida i' k hi' hk =>
    intro i
    by_cases hi : i = k
    · subst hi
      right
      have hc := opostas_comCaptura (j := j.movida i' i) (k := i) (by rwa [opostas_movida])
      exact hc
    · have hout (c : PCA_tpCorPeca) : ((j.movida i' k).comCaptura k).pTabuleiro.pecas c i ≤
          j.pTabuleiro.pecas c i := by
        rw [pecas_comCaptura,if_neg fun h => hi h.2.1,Nat.sub_zero,JGO_tpJogo.movida]
        dsimp only
        rw [TAB_tpTabuleiro.pecas_inserida,if_neg fun h => hi h.2,
          TAB_tpTabuleiro.pecas_removida]
        exact Nat.sub_le _ _
      have h1 := hout j.JogadorAtual
      have h2 := hout j.JogadorAtual.oponente
      have := hm i
      omega

end JGO_tpJogo

/-- What holds of the pieces throughout a match. -/
structure Conservada (j : JGO_tpJogo) : Prop where
  soma (c : PCA_tpCorPeca) : j.soma c = 15
  semMistura (c : PCA_tpCorPeca) : j.SemMistura c

namespace Conservada
variable {j j' : JGO_tpJogo}

/-- It depends on the pieces only. -/
theorem of_pecas (h : Conservada j) (ht : j'.pTabuleiro = j.pTabuleiro)
    (hb : j'.pPecasCapturadas = j.pPecasCapturadas)
    (hf : j'.pPecasFinalizadas = j.pPecasFinalizadas) : Conservada j' where
  soma c := by
    rw [← h.soma c,JGO_tpJogo.soma,JGO_tpJogo.soma,ht,hb,hf]
  semMistura c := by
    have hm := h.semMistura c
    rwa [JGO_tpJogo.SemMistura,← ht] at hm

theorem executada (h : Conservada j) (hx : Executada j j') : Conservada j' where
  soma c := (JGO_tpJogo.soma_executada hx).trans (h.soma c)
  semMistura c := by
    have hm := JGO_tpJogo.semMistura_executada (h.semMistura j.JogadorAtual) hx
    obtain rfl | rfl := j.JogadorAtual.eq_or_eq_oponente c
    · exact hm
    · exact hm.oponente

end Conservada

/-- An offer to double touches no piece. -/
theorem DobrarPartida_pecas (j : JGO_tpJogo) (lixo : PCA_tpCorPeca) (aceita : Bool) :
    (DobrarPartida j lixo aceita).pTabuleiro = j.pTabuleiro ∧
    (DobrarPartida j lixo aceita).pPecasCapturadas = j.pPecasCapturadas ∧
    (DobrarPartida j lixo aceita).pPecasFinalizadas = j.pPecasFinalizadas := by
  rw [DobrarPartida]
  dsimp only
  by_cases hp : podeDobrar j lixo = true
  · rw [if_pos hp]
    cases aceita with
    | false => exact ⟨rfl,rfl,rfl⟩
    | true =>
      rw [if_pos rfl]
      split <;> exact ⟨rfl,rfl,rfl⟩
  · rw [if_neg hp]
    exact ⟨rfl,rfl,rfl⟩

theorem Conservada.step {s t : Partida} {a : Acao} (h : Conservada s.pJogo)
    (hs : s.step a = some t) : Conservada t.pJogo := by
  rcases Partida.step_cases hs with ⟨c,hc⟩ | ⟨linha,linha',lixo,-,hv⟩
  · rw [hc]
    exact h.of_pecas rfl rfl rfl
  · rw [hv]
    rcases volta_pJogo (j := s.pJogo) (d := s.ExibicaoDados) lixo linha linha' with
      hj | ⟨aceita,hj⟩ | hx
    · rwa [hj]
    · rw [hj]
      obtain ⟨ht,hb,hf⟩ := DobrarPartida_pecas s.pJogo lixo aceita
      exact h.of_pecas ht hb hf
    · exact h.executada hx

theorem conservada_inicial (pJogo : JGO_tpJogo) (lixo : PCA_tpCorPeca) :
    Conservada (IniciarNovaPartida pJogo lixo) where
  soma c := by
    have ht : tabuleiroInicial.total c = 15 := by
      cases c <;> decide +kernel
    rw [JGO_tpJogo.soma]
    change tabuleiroInicial.total c+0+PCF_ContarPecas ⟨0,0⟩ c = 15
    rw [ht]
    cases c <;> rfl
  semMistura c := by
    have hm (c : PCA_tpCorPeca) : ∀ i, tabuleiroInicial.pecas c i = 0 ∨
        tabuleiroInicial.pecas c.oponente i = 0 := by
      cases c <;> decide +kernel
    exact hm c

theorem Conservada.reachable {pJogo : JGO_tpJogo} {lixo : PCA_tpCorPeca} {s : Partida}
    (h : (partida pJogo lixo).Reachable s) : Conservada s.pJogo :=
  h.invariant (I := fun s => Conservada s.pJogo) (conservada_inicial pJogo lixo)
    fun _ _ _ hi _ hs => hi.step hs

/-- Whatever is rolled and typed, each colour has its 15 pieces and no house holds both colours. -/
theorem pieces_conserved (pJogo : JGO_tpJogo) (lixo : PCA_tpCorPeca) {s : Partida}
    (h : (partida pJogo lixo).Reachable s) :
    (∀ c, ∑ i, s.pJogo.pTabuleiro.pecas c i+BAR_ContarPecas s.pJogo.pPecasCapturadas c+
      PCF_ContarPecas s.pJogo.pPecasFinalizadas c = 15) ∧
    ∀ i, s.pJogo.pTabuleiro.pecas PCA_PecaBranca i = 0 ∨
      s.pJogo.pTabuleiro.pecas PCA_PecaPreta i = 0 :=
  ⟨(Conservada.reachable h).soma,(Conservada.reachable h).semMistura PCA_PecaBranca⟩

def jogoNovo : JGO_tpJogo :=
  ⟨TAB_CriarTabuleiro,DPT_CriarDadoPontos PCA_PecaBranca,0,PCF_CriarListaPecasFinalizadas,
    PCA_PecaBranca,"Ana".toList,0,0,"Bia".toList,false,false⟩

/-- White leaves single pieces on houses 10 and 5, and black hits the one on house 5. White is to
play a double six, with house 19 closed. -/
def lancesComCaptura : List Acao :=
  [.dados 3 1,.jogada (.numero 13) (.numero 10) PCA_PecaBranca,
    .jogada (.numero 6) (.numero 5) PCA_PecaBranca,.dados 4 2,
    .jogada (.numero 1) (.numero 5) PCA_PecaBranca,
    .jogada (.numero 12) (.numero 14) PCA_PecaBranca,.dados 6 6]

theorem pieces_conserved_captured : ∃ s, (partida jogoNovo PCA_PecaBranca).Reachable s ∧
    BAR_ContarPecas s.pJogo.pPecasCapturadas PCA_PecaBranca = 1 ∧
    (∀ c, ∑ i, s.pJogo.pTabuleiro.pecas c i+BAR_ContarPecas s.pJogo.pPecasCapturadas c+
      PCF_ContarPecas s.pJogo.pPecasFinalizadas c = 15) ∧
    ∀ i, s.pJogo.pTabuleiro.pecas PCA_PecaBranca i = 0 ∨
      s.pJogo.pTabuleiro.pecas PCA_PecaPreta i = 0 := by
  obtain ⟨s,hs,hb⟩ := TransitionSystem.exists_reachable_of_exec
    (T := partida jogoNovo PCA_PecaBranca) (l := lancesComCaptura)
    (p := fun s => decide (BAR_ContarPecas s.pJogo.pPecasCapturadas PCA_PecaBranca = 1))
    (by decide +kernel)
  exact ⟨s,hs,of_decide_eq_true hb,pieces_conserved jogoNovo PCA_PecaBranca hs⟩

end PucRio.Gamao
