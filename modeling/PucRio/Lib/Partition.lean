import Mathlib.Algebra.BigOperators.Fin
import Mathlib.Data.Fintype.Card
import Mathlib.Order.Monotone.Basic
import Mathlib.Tactic.SplitIfs

/-! Sharing out. The frontier of a search tree is a list of nodes, the first of which is replaced by
its children at the end; what every node has as much of as its children together, the frontier
keeps. Consecutive blocks share out a list by where they start. -/
namespace PucRio

section Frontier
variable {α M : Type*} [AddCommMonoid M]

theorem sum_map_expand {w : α → M} {a : α} {rest children : List α}
    (h : w a = (children.map w).sum) :
    ((rest ++ children).map w).sum = ((a::rest).map w).sum := by
  rw [List.map_append,List.sum_append,List.map_cons,List.sum_cons,h,add_comm]

/-- Nodes by their depth, on two levels at most. -/
structure Levels (depth : α → ℕ) (l : List α) : Prop where
  sorted : l.Pairwise (depth · ≤ depth ·)
  span : ∀ a ∈ l, ∀ b ∈ l, depth b ≤ depth a+1

namespace Levels
variable {depth : α → ℕ} {a b : α} {rest children : List α}

theorem singleton (a : α) : Levels depth [a] where
  sorted := List.pairwise_singleton _ _
  span x hx y hy := by
    rw [List.mem_singleton.mp hx,List.mem_singleton.mp hy]
    exact Nat.le_succ _

theorem head_le (h : Levels depth (a::rest)) (hb : b ∈ a::rest) : depth a ≤ depth b := by
  cases hb with
  | head => exact le_rfl
  | tail _ hb => exact List.rel_of_pairwise_cons h.sorted hb

theorem expand (h : Levels depth (a::rest)) (hc : ∀ c ∈ children, depth c = depth a+1) :
    Levels depth (rest ++ children) := by
  have hrest (b : α) (hb : b ∈ rest) : depth a ≤ depth b ∧ depth b ≤ depth a+1 :=
    ⟨h.head_le (List.mem_cons_of_mem _ hb),
      h.span a List.mem_cons_self b (List.mem_cons_of_mem _ hb)⟩
  constructor
  · refine List.pairwise_append.mpr ⟨h.sorted.of_cons,?_,fun b hb c hcc => ?_⟩
    · apply List.pairwise_of_forall_mem_list
      intro b hb c hcc
      rw [hc b hb,hc c hcc]
    · rw [hc c hcc]
      exact (hrest b hb).2
  · have hall (b : α) (hb : b ∈ rest ++ children) : depth a ≤ depth b ∧ depth b ≤ depth a+1 := by
      rcases List.mem_append.mp hb with hb | hb
      · exact hrest b hb
      · have := hc b hb
        omega
    intro b hb c hcc
    have := (hall b hb).1
    have := (hall c hcc).2
    omega

end Levels

/-- A count of one is one place. -/
theorem existsUnique_of_sum_eq_one {p : α → Prop} [DecidablePred p] {l : List α}
    (h : (l.map fun a => if p a then 1 else 0).sum = 1) : ∃! i : Fin l.length, p (l.get i) := by
  rw [Fintype.existsUnique_iff_card_one,Finset.card_filter]
  rw [← Fin.sum_univ_fun_getElem] at h
  exact h

end Frontier

section Blocks
variable {f : ℕ → ℕ}

/-- Blocks that start where the one before ends have no gap and no overlap. -/
theorem existsUnique_block (hf : Monotone f) (h0 : f 0 = 0) {m k : ℕ} (hk : k < f m) :
    ∃! i : Fin m, f i ≤ k ∧ k < f (i+1) := by
  have hex : ∃ i, i < m ∧ f i ≤ k ∧ k < f (i+1) := by
    induction m with
    | zero => omega
    | succ m ih =>
      by_cases h : k < f m
      · obtain ⟨i,hi,hik⟩ := ih h
        exact ⟨i,by omega,hik⟩
      · exact ⟨m,by omega,by omega,hk⟩
  obtain ⟨i,hi,hik⟩ := hex
  refine ⟨⟨i,hi⟩,hik,fun j hj => Fin.ext ?_⟩
  show j.val = i
  rcases Nat.lt_trichotomy j.val i with h | h | h
  · have := hf (show j.val+1 ≤ i by omega)
    omega
  · exact h
  · have := hf (show i+1 ≤ j.val by omega)
    omega

end Blocks
end PucRio
