import Mathlib.Data.Fintype.BigOperators
import Mathlib.Algebra.BigOperators.Group.Finset.Basic
import Mathlib.Data.Int.ModEq
import Mathlib.Tactic.SplitIfs

/-! Positions of an unbounded log kept in a ring of `n` slots. A window marks, with one number for
each slot, the positions from `a` up to but not including `b`. -/
namespace PucRio

section Ring
variable {n : ℕ} [NeZero n]

/-- The slot of position `k`. -/
def slot (n : ℕ) [NeZero n] (k : ℕ) : Fin n := ⟨k%n,Nat.mod_lt k (Nat.pos_of_neZero n)⟩

/-- The next slot, back to the first after the last. -/
def nextSlot (i : Fin n) : Fin n :=
  if h : i.val+1 = n then ⟨0,Nat.pos_of_neZero n⟩ else ⟨i.val+1,by omega⟩

theorem nextSlot_slot (k : ℕ) : nextSlot (slot n k) = slot n (k+1) := by
  unfold nextSlot
  apply Fin.ext
  split_ifs with h
  · simp only [slot] at h ⊢
    rw [Nat.add_mod_eq_ite]
    have := Nat.pos_of_neZero n
    by_cases h1 : n = 1
    · subst h1; simp [Nat.mod_one]
    · have : 1%n = 1 := Nat.mod_eq_of_lt (by omega)
      rw [this,if_pos (by omega)]
      omega
  · simp only [slot] at h ⊢
    have hlt := Nat.mod_lt k (Nat.pos_of_neZero n)
    have h1 : 1%n = 1 := Nat.mod_eq_of_lt (by omega)
    rw [Nat.add_mod_eq_ite,h1,if_neg (by omega)]

theorem slot_add_self (k : ℕ) : slot n (k+n) = slot n k := by simp [slot]

/-- Fewer than `n` positions apart, two positions of one slot are the same. -/
theorem eq_of_slot_eq {a b : ℕ} (hab : a ≤ b) (hb : b < a+n) (h : slot n a = slot n b) :
    a = b := by
  have hm : a%n = b%n := congrArg Fin.val h
  have hd : n ∣ b-a := (Nat.modEq_iff_dvd' hab).mp hm
  have := Nat.eq_zero_of_dvd_of_lt hd (by omega)
  omega

structure Window (f : Fin n → ℤ) (a b : ℕ) : Prop where
  le : a ≤ b
  width : b ≤ a+n
  marks : ∀ k, a ≤ k → k < a+n → f (slot n k) = if k < b then 1 else 0

namespace Window
variable {f : Fin n → ℤ} {a b : ℕ}

theorem empty : Window (fun _ : Fin n => 0) 0 0 where
  le := le_rfl
  width := Nat.zero_le _
  marks k _ _ := by simp

/-- The slot to be filled next is unmarked exactly when the window is not full. -/
theorem eq_zero_iff (h : Window f a b) : f (slot n b) = 0 ↔ b < a+n := by
  constructor
  · intro hz
    by_contra hb
    obtain rfl : b = a+n := by have := h.width; omega
    rw [slot_add_self,h.marks a le_rfl (Nat.lt_add_of_pos_right (Nat.pos_of_neZero n)),
      if_pos (Nat.lt_add_of_pos_right (Nat.pos_of_neZero n))] at hz
    exact one_ne_zero hz
  · intro hb
    rw [h.marks b h.le hb,if_neg (lt_irrefl b)]

/-- The slot to be emptied next is marked exactly when the window is not empty. -/
theorem ne_zero_iff (h : Window f a b) : f (slot n a) ≠ 0 ↔ a < b := by
  rw [h.marks a le_rfl (Nat.lt_add_of_pos_right (Nat.pos_of_neZero n))]
  split_ifs with hab <;> simp [hab]

theorem push (h : Window f a b) (hb : b < a+n) : Window (Function.update f (slot n b) 1) a (b+1)
    where
  le := Nat.le_succ_of_le h.le
  width := hb
  marks k hk hk' := by
    by_cases he : slot n k = slot n b
    · have hkb : k = b := by
        rcases Nat.le_total k b with hle | hle
        · exact eq_of_slot_eq hle (by omega) he
        · exact (eq_of_slot_eq hle (by have := h.le; omega) he.symm).symm
      subst hkb
      simp
    · have hne : k ≠ b := fun hkb => he (by rw [hkb])
      rw [Function.update_of_ne he,h.marks k hk hk']
      simp only [show k < b+1 ↔ k < b by omega]

theorem pop (h : Window f a b) (hab : a < b) :
    Window (Function.update f (slot n a) (f (slot n a)-1)) (a+1) b where
  le := hab
  width := by have := h.width; omega
  marks k hk hk' := by
    by_cases hka : k = a+n
    · subst hka
      have := h.width
      rw [slot_add_self,Function.update_self,
        h.marks a le_rfl (Nat.lt_add_of_pos_right (Nat.pos_of_neZero n)),if_pos hab,if_neg (by omega)]
      rfl
    · have he : slot n k ≠ slot n a := fun he => by
        have := eq_of_slot_eq (by omega) (by omega) he.symm
        omega
      rw [Function.update_of_ne he]
      exact h.marks k (by omega) (by omega)

end Window
end Ring

section Counting
variable {ι β : Type*} [Fintype ι] [DecidableEq ι]

/-- A sum over all members of a family, after one member has changed. -/
theorem sum_comp_update (f : β → ℕ) (g : ι → β) (i : ι) (b : β) :
    ∑ x, f (Function.update g i b x) + f (g i) = ∑ x, f (g x) + f b := by
  have hsplit (h : ι → ℕ) : ∑ x, h x = h i + ∑ x ∈ Finset.univ.erase i, h x :=
    (Finset.add_sum_erase _ h (Finset.mem_univ i)).symm
  have hrest : ∑ x ∈ Finset.univ.erase i, f (Function.update g i b x) =
      ∑ x ∈ Finset.univ.erase i, f (g x) :=
    Finset.sum_congr rfl fun x hx => by rw [Function.update_of_ne (Finset.ne_of_mem_erase hx)]
  rw [hsplit,hsplit (fun x => f (g x)),hrest,Function.update_self]
  omega

end Counting
end PucRio
