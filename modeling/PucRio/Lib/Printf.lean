import Mathlib.Data.List.Basic
import PucRio.Lib.Scanf

/-! `%d` of C's `printf` family, and what `scanf` makes of numbers printed with a blank after each. -/
namespace PucRio

namespace Scanf

/-- `%[^…]`: the longest run of characters that are not in the set, if there is one. -/
def charsNot (stop : Char → Bool) (cs : List Char) : Option (List Char × List Char) :=
  let read := cs.takeWhile (!stop ·)
  if read = [] then none else some (read,cs.dropWhile (!stop ·))

/-- `%d` with a blank after it in the format. -/
def intBlank (cs : List Char) : Option (ℤ × List Char) :=
  (int cs).map fun x => (x.1,skipSpace x.2)

theorem charsNot_append {stop : Char → Bool} {read : List Char} {c : Char} (hread : read ≠ [])
    (hnot : ∀ x ∈ read, stop x = false) (hc : stop c = true) (cs : List Char) :
    charsNot stop (read ++ c::cs) = some (read,c::cs) := by
  have hnot' : ∀ x ∈ read, (!stop x) = true := by
    intro x hx
    rw [hnot x hx]
    rfl
  unfold charsNot
  dsimp only
  rw [List.takeWhile_append_of_pos hnot',List.dropWhile_append_of_pos hnot']
  have htake : (c::cs).takeWhile (!stop ·) = [] := by simp [hc]
  have hdrop : (c::cs).dropWhile (!stop ·) = c::cs := by simp [hc]
  rw [htake,hdrop,List.append_nil,if_neg hread]

end Scanf

namespace Printf

/-- `%d`. -/
def int (n : ℤ) : List Char :=
  if n < 0 then '-'::Nat.toDigits 10 n.natAbs else Nat.toDigits 10 n.natAbs

theorem digitsValue_toDigits (n : ℕ) : Scanf.digitsValue (Nat.toDigits 10 n) = n :=
  Nat.ofDigitChars_ten_toDigits

theorem isDigit_toDigits (n : ℕ) : ∀ d ∈ Nat.toDigits 10 n, d.isDigit = true :=
  fun _ hd => Nat.isDigit_of_mem_toDigits (by decide) (by decide) hd

theorem numeral_int {n : ℤ} (h₀ : -2^31 ≤ n) (h : n < 2^31) : Scanf.Numeral (int n) n := by
  unfold int
  split_ifs with hn
  · have hneg : Scanf.Numeral ('-'::Nat.toDigits 10 n.natAbs) _ :=
      .neg Nat.toDigits_ne_nil (isDigit_toDigits _) (by rw [digitsValue_toDigits]; omega)
    rw [digitsValue_toDigits] at hneg
    have habs : -(n.natAbs : ℤ) = n := by omega
    rwa [habs] at hneg
  · have hnat : Scanf.Numeral (Nat.toDigits 10 n.natAbs) _ :=
      .nat Nat.toDigits_ne_nil (isDigit_toDigits _) (by rw [digitsValue_toDigits]; omega)
    rw [digitsValue_toDigits] at hnat
    have habs : (n.natAbs : ℤ) = n := by omega
    rwa [habs] at hnat

theorem int_ne_nil (n : ℤ) : int n ≠ [] := by
  unfold int
  split_ifs
  · exact List.cons_ne_nil _ _
  · exact Nat.toDigits_ne_nil

/-- A numeral consists of digits and a sign. -/
theorem mem_int {n : ℤ} {c : Char} (h : c ∈ int n) : c = '-' ∨ c.isDigit = true := by
  unfold int at h
  split_ifs at h
  · rcases List.mem_cons.mp h with rfl | h
    · exact .inl rfl
    · exact .inr (isDigit_toDigits _ c h)
  · exact .inr (isDigit_toDigits _ c h)

theorem isspace_of_mem_int {n : ℤ} {c : Char} (h : c ∈ int n) : Scanf.isspace c = false := by
  rcases mem_int h with rfl | h
  · decide
  · exact Scanf.isspace_of_isDigit h

/-- Numbers printed with a character after each. -/
def ints (l : List (ℤ × Char)) : List Char := l.flatMap fun x => int x.1 ++ [x.2]

theorem ints_cons (x : ℤ × Char) (l : List (ℤ × Char)) : ints (x::l) = int x.1 ++ x.2::ints l := by
  rw [ints,List.flatMap_cons,List.append_assoc]
  rfl

/-- The numbers are in the range of `int` and the characters after them are blanks. -/
def Blanks (l : List (ℤ × Char)) : Prop :=
  ∀ x ∈ l, -2^31 ≤ x.1 ∧ x.1 < 2^31 ∧ Scanf.isspace x.2 = true

theorem head?_ints {l : List (ℤ × Char)} {c : Char} (h : c ∈ (ints l).head?) :
    Scanf.isspace c = false := by
  cases l with
  | nil => simp [ints] at h
  | cons x l =>
    rw [ints_cons,List.head?_append_of_ne_nil _ (int_ne_nil x.1)] at h
    exact isspace_of_mem_int (List.mem_of_mem_head? h)

theorem skipSpace_ints {blank : List Char} (h : ∀ c ∈ blank, Scanf.isspace c = true)
    (l : List (ℤ × Char)) : Scanf.skipSpace (blank ++ ints l) = ints l :=
  Scanf.skipSpace_append h fun _ hc => head?_ints hc

theorem not_isDigit_of_isspace {c : Char} (h : Scanf.isspace c = true) : c.isDigit = false := by
  cases hd : c.isDigit with
  | false => rfl
  | true =>
    rw [Scanf.isspace_of_isDigit hd] at h
    cases h

/-- One number is read back. -/
theorem intBlank_ints {x : ℤ × Char} {l : List (ℤ × Char)} (h : Blanks (x::l)) :
    Scanf.intBlank (ints (x::l)) = some (x.1,ints l) := by
  obtain ⟨h₀,h₁,hs⟩ := h x List.mem_cons_self
  have hdigit : Scanf.NoDigit (x.2::ints l) := by
    intro c hc
    obtain rfl : x.2 = c := by simpa using hc
    exact not_isDigit_of_isspace hs
  rw [ints_cons,Scanf.intBlank,Scanf.int_numeral (numeral_int h₀ h₁) hdigit,Option.map_some]
  have hskip : Scanf.skipSpace ([x.2] ++ ints l) = ints l :=
    skipSpace_ints (by simpa using hs) l
  exact congrArg some (Prod.ext rfl hskip)

theorem Blanks.tail {x : ℤ × Char} {l : List (ℤ × Char)} (h : Blanks (x::l)) : Blanks l :=
  fun y hy => h y (List.mem_cons_of_mem x hy)

theorem intBlank_nil : Scanf.intBlank (ints []) = none := rfl

end Printf

end PucRio
