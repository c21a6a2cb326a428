import Mathlib.Order.BoundedOrder.Basic
import Mathlib.Order.Lattice
import Mathlib.Tactic.ByContra
import Mathlib.Tactic.SplitIfs

/-! Hill climbing. One move after the other is made where it leads to a valid state that costs less.
The greatest cost is that of the states that are no solution. -/
namespace PucRio

section Climb
variable {σ ι α : Type*} [LinearOrder α] {valid : σ → Bool} {cost : σ → α} {move : ι → σ → σ}
  {s : σ} {m : ι} {moves : List ι}

/-- Where the moves lead to from a state. -/
def climb (valid : σ → Bool) (cost : σ → α) (move : ι → σ → σ) (s : σ) (moves : List ι) : σ :=
  moves.foldl (fun s m =>
    if valid (move m s) = true ∧ cost (move m s) < cost s then move m s else s) s

theorem climb_cons_of_better (h : valid (move m s) = true) (hlt : cost (move m s) < cost s) :
    climb valid cost move s (m::moves) = climb valid cost move (move m s) moves := by
  rw [climb,List.foldl_cons,if_pos ⟨h,hlt⟩]
  rfl

theorem climb_cons_of_not (h : ¬ (valid (move m s) = true ∧ cost (move m s) < cost s)) :
    climb valid cost move s (m::moves) = climb valid cost move s moves := by
  rw [climb,List.foldl_cons,if_neg h]
  rfl

theorem cost_climb_le (s : σ) (moves : List ι) : cost (climb valid cost move s moves) ≤ cost s := by
  induction moves generalizing s with
  | nil => exact le_rfl
  | cons m moves ih =>
    by_cases h : valid (move m s) = true ∧ cost (move m s) < cost s
    · rw [climb_cons_of_better h.1 h.2]
      exact (ih (move m s)).trans h.2.le
    · rw [climb_cons_of_not h]
      exact ih s

variable [OrderTop α]

/-- A solution is not given up. -/
theorem cost_climb_ne_top (h : cost s ≠ ⊤) : cost (climb valid cost move s moves) ≠ ⊤ :=
  ne_top_of_le_ne_top h (cost_climb_le s moves)

/-- A solution is found exactly from a solution, or where one of the moves leads to one from the
start: until then no move is made. -/
theorem cost_climb_ne_top_iff : cost (climb valid cost move s moves) ≠ ⊤ ↔
    cost s ≠ ⊤ ∨ ∃ m ∈ moves, valid (move m s) = true ∧ cost (move m s) ≠ ⊤ := by
  by_cases hs : cost s = ⊤
  · induction moves with
    | nil => simp [climb]
    | cons m moves ih =>
      have hlt : cost (move m s) < cost s ↔ cost (move m s) ≠ ⊤ := by
        rw [hs,lt_top_iff_ne_top]
      by_cases h : valid (move m s) = true ∧ cost (move m s) ≠ ⊤
      · rw [climb_cons_of_better h.1 (hlt.mpr h.2)]
        exact iff_of_true (cost_climb_ne_top h.2) (.inr ⟨m,List.mem_cons_self,h⟩)
      · rw [climb_cons_of_not (by rwa [hlt]),ih]
        simp [hs,h]
  · exact iff_of_true (cost_climb_ne_top hs) (.inl hs)

end Climb

end PucRio
