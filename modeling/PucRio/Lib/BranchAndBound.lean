import Mathlib.Order.Lattice
import Mathlib.Algebra.BigOperators.Group.List.Basic
import Mathlib.Algebra.Order.Ring.Nat
import Mathlib.Logic.Function.Iterate
import Mathlib.Tactic.SplitIfs

/-! Branch and bound over any search tree: nodes wait in a list, a node lies above the solutions
that extend it, and a solution is dropped only when its value is no better than the best. A loop
that replaces a node by lighter ones comes to an end. -/
namespace PucRio

section Covered
variable {ν ξ κ : Type*} [LinearOrder κ] (below : ν → ξ → Prop) (value : ξ → κ)

/-- Every solution is no better than the best, or lies below a waiting node. -/
def Covered (solution : ξ → Prop) (best : κ) (nodes : List ν) : Prop :=
  ∀ x, solution x → best ≤ value x ∨ ∃ t ∈ nodes, below t x

variable {below value} {solution : ξ → Prop} {best best' : κ} {rest : List ν} {t : ν}

/-- A node is replaced by children that cover what it covered, up to the best. -/
theorem Covered.branch (h : Covered below value solution best (rest ++ [t])) {children : List ν}
    (hc : ∀ x, solution x → below t x → best ≤ value x ∨ ∃ c ∈ children, below c x) :
    Covered below value solution best (rest ++ children) := by
  intro x hx
  rcases h x hx with hb | ⟨u,hu,hux⟩
  · exact .inl hb
  · rcases List.mem_append.mp hu with hu | hu
    · exact .inr ⟨u,List.mem_append_left _ hu,hux⟩
    · obtain rfl := List.mem_singleton.mp hu
      rcases hc x hx hux with hb | ⟨c,hcm,hcx⟩
      · exact .inl hb
      · exact .inr ⟨c,List.mem_append_right _ hcm,hcx⟩

/-- A leaf is examined: the best accounts for it from now on. -/
theorem Covered.examine (h : Covered below value solution best (rest ++ [t]))
    (hle : best' ≤ best) (ht : ∀ x, solution x → below t x → best' ≤ value x) :
    Covered below value solution best' rest := by
  intro x hx
  rcases h x hx with hb | ⟨u,hu,hux⟩
  · exact .inl (hle.trans hb)
  · rcases List.mem_append.mp hu with hu | hu
    · exact .inr ⟨u,hu,hux⟩
    · obtain rfl := List.mem_singleton.mp hu
      exact .inl (ht x hx hux)

/-- With no node left the best is a lower bound. -/
theorem Covered.optimal (h : Covered below value solution best []) {x : ξ} (hx : solution x) :
    best ≤ value x := by
  rcases h x hx with hb | ⟨u,hu,-⟩
  · exact hb
  · simp at hu

/-- Nodes that wait at several places, and may change them. -/
def CoveredBy (below : ν → ξ → Prop) (value : ξ → κ) (solution : ξ → Prop) (best : κ)
    (waiting : ν → Prop) : Prop :=
  ∀ x, solution x → best ≤ value x ∨ ∃ t, waiting t ∧ below t x

/-- A step accounts for the solutions below each node that waited. -/
theorem CoveredBy.step {waiting waiting' : ν → Prop}
    (h : CoveredBy below value solution best waiting) (hle : best' ≤ best)
    (hw : ∀ t x, waiting t → solution x → below t x →
      best' ≤ value x ∨ ∃ u, waiting' u ∧ below u x) :
    CoveredBy below value solution best' waiting' := by
  intro x hx
  rcases h x hx with hb | ⟨t,ht,htx⟩
  · exact .inl (hle.trans hb)
  · exact hw t x ht hx htx

end Covered

section Weight
variable {ν : Type*} (weight : ν → ℕ)

/-- A node is replaced by nodes that weigh less together. -/
theorem sum_weight_lt {rest children : List ν} {t : ν}
    (h : (children.map weight).sum < weight t) :
    ((rest ++ children).map weight).sum < ((rest ++ [t]).map weight).sum := by
  simp only [List.map_append,List.sum_append,List.map_cons,List.map_nil,List.sum_cons,
    List.sum_nil]
  omega

theorem sum_map_le_of_le {l : List ν} {b : ℕ} (h : ∀ c ∈ l, weight c ≤ b) :
    (l.map weight).sum ≤ l.length*b := by
  induction l with
  | nil => simp
  | cons a l ih =>
    have h1 := h a List.mem_cons_self
    have h2 := ih fun c hc => h c (List.mem_cons_of_mem _ hc)
    simp only [List.map_cons,List.sum_cons,List.length_cons,Nat.succ_mul]
    omega

end Weight

section Loop
variable {σ : Type*} {f : σ → σ} {I : σ → Prop}

/-- What one round of a loop keeps, any number of rounds keep. -/
theorem iterate_invariant (hstep : ∀ s, I s → I (f s)) {s : σ} (hs : I s) (k : ℕ) :
    I (f^[k] s) := by
  induction k generalizing s with
  | zero => exact hs
  | succ k ih => exact ih (hstep s hs)

/-- A loop whose rounds make the variant smaller comes to an end. -/
theorem exists_iterate_not_running (running : σ → Prop) (variant : σ → ℕ) (hstep : ∀ s, I s → I (f s))
    (hv : ∀ s, I s → running s → running (f s) → variant (f s) < variant s) {s : σ} (hs : I s) :
    ∃ k, ¬ running (f^[k] s) := by
  induction hm : variant s using Nat.strong_induction_on generalizing s with
  | _ m ih =>
    by_cases hr : running s
    · by_cases hr' : running (f s)
      · obtain ⟨k,hk⟩ := ih (variant (f s)) (hm ▸ hv s hs hr hr') (hstep s hs) rfl
        exact ⟨k+1,hk⟩
      · exact ⟨1,hr'⟩
    · exact ⟨0,hr⟩

end Loop
end PucRio
