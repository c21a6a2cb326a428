import Mathlib.Algebra.Group.Basic
import Mathlib.Algebra.Group.Equiv.Defs
import Mathlib.Data.Set.Insert
import Mathlib.Data.Set.Function

/-! Linked grids: every node has a pointer for each direction. On a set of cells the nodes are linked
when each points to the node of its neighbour in every direction, and to none where there is no
neighbour. -/
namespace PucRio
variable {G α δ : Type*} [Add G] {off : δ → G}

/-- The nodes `g` of the cells in `D`, with the pointers `P`. -/
structure Linked (off : δ → G) (P : α → δ → Option α) (g : G → α) (D : Set G) : Prop where
  inj : Set.InjOn g D
  inside : ∀ p ∈ D, ∀ d, p+off d ∈ D → P (g p) d = some (g (p+off d))
  border : ∀ p ∈ D, ∀ d, p+off d ∉ D → P (g p) d = none

namespace Linked
variable {P P' : α → δ → Option α} {g : G → α} {D D' : Set G}

theorem empty (P : α → δ → Option α) (g : G → α) : Linked off P g ∅ where
  inj := Set.injOn_empty g
  inside _ hp := hp.elim
  border _ hp := hp.elim

theorem eq_some (h : Linked off P g D) {p q : G} (hp : p ∈ D) (hq : q ∈ D) {d : δ}
    (hd : p+off d = q) : P (g p) d = some (g q) := by
  subst hd
  exact h.inside p hp d hq

/-- A pointer leads to a cell of the grid. -/
theorem mem_of_some (h : Linked off P g D) {p : G} (hp : p ∈ D) {d : δ} {a : α}
    (ha : P (g p) d = some a) : p+off d ∈ D ∧ a = g (p+off d) := by
  by_cases hq : p+off d ∈ D
  · exact ⟨hq,Option.some.inj (ha.symm.trans (h.inside p hp d hq))⟩
  · rw [h.border p hp d hq] at ha
    cases ha

/-- Only the pointers of the nodes count. -/
theorem congr (h : Linked off P g D) (hP : ∀ p ∈ D, P' (g p) = P (g p)) : Linked off P' g D where
  inj := h.inj
  inside p hp d hq := by rw [hP p hp,h.inside p hp d hq]
  border p hp d hq := by rw [hP p hp,h.border p hp d hq]

/-- One more cell: its node points to its neighbours, and they to it. -/
theorem insert [DecidableEq G] (h : Linked off P g D) {q : G} {a : α} (hq : q ∉ D)
    (ha : ∀ p ∈ D, g p ≠ a) (hoff : ∀ d, q+off d ≠ q)
    (hin : ∀ d, q+off d ∈ D → P' a d = some (g (q+off d)))
    (hout : ∀ d, q+off d ∉ D → P' a d = none)
    (hnew : ∀ p ∈ D, ∀ d, p+off d = q → P' (g p) d = some a)
    (hold : ∀ p ∈ D, ∀ d, p+off d ≠ q → P' (g p) d = P (g p) d) :
    Linked off P' (Function.update g q a) (Insert.insert q D) := by
  have hg {p : G} (hp : p ∈ D) : Function.update g q a p = g p := by
    have hne : p ≠ q := fun h => hq (h ▸ hp)
    exact Function.update_of_ne hne a g
  refine ⟨?_,?_,?_⟩
  · rintro p (rfl | hp) p' (rfl | hp') heq
    · rfl
    · rw [Function.update_self,hg hp'] at heq
      exact absurd heq.symm (ha p' hp')
    · rw [Function.update_self,hg hp] at heq
      exact absurd heq (ha p hp)
    · rw [hg hp,hg hp'] at heq
      exact h.inj hp hp' heq
  · rintro p (rfl | hp) d (hd | hd)
    · exact absurd hd (hoff d)
    · rw [Function.update_self,hg hd,hin d hd]
    · rw [hg hp,hd,Function.update_self,hnew p hp d hd]
    · rw [hg hp,hg hd,hold p hp d fun h => hq (h ▸ hd),h.inside p hp d hd]
  · rintro p (rfl | hp) d hd
    · rw [Function.update_self,hout d fun h => hd (.inr h)]
    · rw [hg hp,hold p hp d fun h => hd (.inl h),h.border p hp d fun h => hd (.inr h)]

/-- Fewer cells: the pointers to those that go are cleared. -/
theorem restrict (h : Linked off P g D) (hD : D' ⊆ D)
    (hclear : ∀ p ∈ D', ∀ d, p+off d ∈ D → p+off d ∉ D' → P' (g p) d = none)
    (hkeep : ∀ p ∈ D', ∀ d, (p+off d ∈ D → p+off d ∈ D') → P' (g p) d = P (g p) d) :
    Linked off P' g D' where
  inj := h.inj.mono hD
  inside p hp d hq := by rw [hkeep p hp d fun _ => hq,h.inside p (hD hp) d (hD hq)]
  border p hp d hq := by
    by_cases hd : p+off d ∈ D
    · exact hclear p hp d hd hq
    · rw [hkeep p hp d fun h => absurd h hd,h.border p (hD hp) d hd]

/-- The same grid in other coordinates. -/
theorem reindex (h : Linked off P g D) (e : G ≃+ G) {τ : δ → δ} (hτ : ∀ d, off (τ d) = e (off d)) :
    Linked off (fun a d => P a (τ d)) (g ∘ e) (Set.preimage e D) where
  inj p hp p' hp' heq := e.injective (h.inj hp hp' heq)
  inside p hp d hq := by
    have hadd : e (p+off d) = e p+off (τ d) := by rw [map_add,hτ]
    rw [Set.mem_preimage,hadd] at hq
    rw [Function.comp_apply,Function.comp_apply,hadd]
    exact h.inside _ hp _ hq
  border p hp d hq := by
    rw [Set.mem_preimage,map_add,← hτ] at hq
    exact h.border _ hp _ hq

section Opposite
variable {G : Type*} [AddGroup G] {off : δ → G} {g : G → α} {D : Set G}

/-- One more node, with its pointers `N`: the nodes that it points to point back to it, in the opposite
direction, and the other pointers stay. -/
theorem insert_node [DecidableEq G] (h : Linked off P g D) {op : δ → δ}
    (hop : ∀ d, off (op d) = -off d) (hoff : ∀ d, off d ≠ 0) {q : G} {a : α} (hq : q ∉ D)
    (ha : ∀ p ∈ D, g p ≠ a) {N : δ → Option α}
    (hin : ∀ d, q+off d ∈ D → N d = some (g (q+off d))) (hout : ∀ d, q+off d ∉ D → N d = none)
    (hself : ∀ d, P' a d = N d)
    (hback : ∀ p ∈ D, ∀ d, N (op d) = some (g p) → P' (g p) d = some a)
    (hkeep : ∀ p ∈ D, ∀ d, N (op d) ≠ some (g p) → P' (g p) d = P (g p) d) :
    Linked off P' (Function.update g q a) (Insert.insert q D) := by
  refine h.insert hq ha (fun d hd => hoff d (add_eq_left.mp hd))
    (fun d hd => (hself d).trans (hin d hd)) (fun d hd => (hself d).trans (hout d hd)) ?_ ?_
  · rintro p hp d rfl
    have hp' : p+off d+off (op d) = p := by rw [hop,add_neg_cancel_right]
    refine hback p hp d ?_
    rw [hin (op d) (by rwa [hp']),hp']
  · intro p hp d hne
    refine hkeep p hp d fun hN => hne ?_
    by_cases hd : q+off (op d) ∈ D
    · have heq : q+off (op d) = p := h.inj hd hp (Option.some.inj ((hin _ hd).symm.trans hN))
      rw [← heq,hop,neg_add_cancel_right]
    · rw [hout _ hd] at hN
      cases hN

end Opposite

end Linked
end PucRio
