import Mathlib.Algebra.BigOperators.Group.List.Basic
import Mathlib.Algebra.Order.BigOperators.Group.List
import Mathlib.Algebra.Ring.Nat
import Mathlib.Data.Nat.Notation
import Mathlib.Order.Interval.Finset.Nat
import Mathlib.Tactic.SplitIfs

/-! A draw among weights. The numbers from 1 to the sum of the weights are shared out in the order of
the weights, to each as many as it says. -/
namespace PucRio

/-- Whose number `d` is. -/
def drawn : List ℕ → ℕ → Option ℕ
  | [],_ => none
  | n::w,d => if d ≤ n then some 0 else (drawn w (d-n)).map (·+1)

variable {w : List ℕ} {d i n : ℕ}

theorem drawn_eq_some (hd : 0 < d) (hi : w[i]? = some n) :
    drawn w d = some i ↔ (w.take i).sum < d ∧ d ≤ (w.take i).sum+n := by
  induction w generalizing d i with
  | nil => cases hi
  | cons m w ih =>
    rw [drawn]
    cases i with
    | zero =>
      obtain rfl : m = n := Option.some.inj hi
      rw [List.take_zero,List.sum_nil]
      split_ifs with h
      · exact ⟨fun _ => ⟨hd,by omega⟩,fun _ => rfl⟩
      · constructor
        · intro hmap
          obtain ⟨j,-,hj⟩ := Option.map_eq_some_iff.mp hmap
          cases hj
        · omega
    | succ i =>
      rw [List.take_succ_cons,List.sum_cons]
      split_ifs with h
      · constructor
        · intro h0
          cases Option.some.inj h0
        · omega
      · have hrest := ih (d := d-m) (by omega) hi
        constructor
        · intro hmap
          obtain ⟨j,hj,hij⟩ := Option.map_eq_some_iff.mp hmap
          obtain rfl : j = i := by omega
          have := hrest.mp hj
          omega
        · intro hbounds
          rw [hrest.mpr (by omega)]
          rfl

/-- Every number up to the sum is somebody's. -/
theorem exists_drawn (hd : 0 < d) (h : d ≤ w.sum) : ∃ i, drawn w d = some i := by
  induction w generalizing d with
  | nil => exact absurd h (by rw [List.sum_nil]; omega)
  | cons m w ih =>
    rw [drawn]
    rw [List.sum_cons] at h
    split_ifs with hle
    · exact ⟨0,rfl⟩
    · obtain ⟨i,hi⟩ := ih (d := d-m) (by omega) (by omega)
      exact ⟨i+1,by rw [hi]; rfl⟩

/-- Nobody with no weight has a number. -/
theorem drawn_ne_of_zero (hd : 0 < d) (hi : w[i]? = some 0) : drawn w d ≠ some i := by
  intro h
  have := (drawn_eq_some hd hi).mp h
  omega

theorem sum_take_add_le (hi : w[i]? = some n) : (w.take i).sum+n ≤ w.sum := by
  have hdrop : w.drop i = n::w.drop (i+1) := by
    obtain ⟨hlt,rfl⟩ := List.getElem?_eq_some_iff.mp hi
    exact List.drop_eq_getElem_cons hlt
  have hsum := congrArg List.sum (List.take_append_drop i w)
  rw [List.sum_append,hdrop,List.sum_cons] at hsum
  omega

/-- Of the numbers from 1 to the sum each weight has as many as it says. -/
theorem card_drawn (hi : w[i]? = some n) :
    ((Finset.range w.sum).filter fun k => drawn w (k+1) = some i).card = n := by
  have heq : ((Finset.range w.sum).filter fun k => drawn w (k+1) = some i) =
      Finset.Ico (w.take i).sum ((w.take i).sum+n) := by
    ext k
    rw [Finset.mem_filter,Finset.mem_range,Finset.mem_Ico,drawn_eq_some (Nat.succ_pos k) hi]
    have := sum_take_add_le hi
    omega
  rw [heq,Nat.card_Ico,Nat.add_sub_cancel_left]

end PucRio
