import PucRio.Lib.Lua
import Mathlib.Algebra.Ring.Nat

/-! Lua's integers of 64 bits: how `tostring` writes one, and how `tonumber` reads one. The floats are a
parameter. -/
namespace PucRio.Lua

/-- An integer or a float. -/
inductive Number (F : Type*)
  | integer (n : BitVec 64)
  | float (x : F)
  deriving DecidableEq

def integerText (n : BitVec 64) : Str :=
  if n.toInt < 0 then '-'::Nat.toDigits 10 n.toInt.natAbs else Nat.toDigits 10 n.toInt.natAbs

section Reading

def isSpace (c : Char) : Bool := c == ' ' || decide (9 ≤ c.toNat ∧ c.toNat ≤ 13)

def isHexDigit (c : Char) : Bool :=
  c.isDigit || decide ('a' ≤ c ∧ c ≤ 'f') || decide ('A' ≤ c ∧ c ≤ 'F')

def hexValue (c : Char) : ℕ := if c.isDigit then c.toNat-48 else c.toLower.toNat-87

/-- The largest integer without its last digit, and that digit. -/
def MAXBY10 : ℕ := 922337203685477580

def MAXLASTD : ℕ := 7

/-- The digits of a decimal numeral and what follows them; none where it does not fit. -/
def readDecimal (neg : Bool) : ℕ → Str → Option (ℕ × Str)
  | a,[] => some (a,[])
  | a,c::s =>
    if c.isDigit then
      let d := c.toNat-48
      if MAXBY10 < a ∨ a = MAXBY10 ∧ MAXLASTD+neg.toNat < d then none else readDecimal neg (10*a+d) s
    else some (a,c::s)

/-- A hexadecimal numeral goes around. -/
def readHex : BitVec 64 → Str → BitVec 64 × Str
  | a,[] => (a,[])
  | a,c::s => if isHexDigit c then readHex (16*a+BitVec.ofNat 64 (hexValue c)) s else (a,c::s)

/-- The value, and what there was before and after the digits. -/
def readNumeral (neg : Bool) : Str → Option (BitVec 64 × Str × Str)
  | '0':: 'x'::s => some ((readHex 0 s).1,s,(readHex 0 s).2)
  | '0':: 'X'::s => some ((readHex 0 s).1,s,(readHex 0 s).2)
  | s => (readDecimal neg 0 s).map fun r => (BitVec.ofNat 64 r.1,s,r.2)

def readSign : Str → Bool × Str
  | '-'::s => (true,s)
  | '+'::s => (false,s)
  | s => (false,s)

/-- `l_str2int`: blanks may stand around the numeral, which has one digit at least. -/
def str2int (s : Str) : Option (BitVec 64) :=
  let s := readSign (s.dropWhile isSpace)
  (readNumeral s.1 s.2).bind fun r =>
    if r.2.1 = r.2.2 ∨ r.2.2.dropWhile isSpace ≠ [] then none
    else some (if s.1 then -r.1 else r.1)

end Reading

section RoundTrip

theorem isDigit_of_mem {k : ℕ} {c : Char} (hc : c ∈ Nat.toDigits 10 k) : c.isDigit = true :=
  Nat.isDigit_of_mem_toDigits (by decide) (by decide) hc

theorem digit_le_nine {c : Char} (hc : c.isDigit = true) : c.toNat-48 ≤ 9 := by
  simp only [Char.isDigit,Bool.and_eq_true,decide_eq_true_eq] at hc
  have h9 : c.val ≤ 57 := hc.2
  have hle : c.toNat ≤ 57 := UInt32.le_iff_toNat_le.mp h9
  omega

theorem le_ofDigitChars (s : Str) (a : ℕ) : a ≤ Nat.ofDigitChars 10 s a := by
  induction s generalizing a with
  | nil => exact Nat.le_refl a
  | cons c s ih =>
    rw [Nat.ofDigitChars_cons]
    refine Nat.le_trans ?_ (ih _)
    omega

/-- Digits of a value that fits are read to their end. -/
theorem readDecimal_digits (neg : Bool) {s : Str} (hs : ∀ c ∈ s, c.isDigit = true) {a : ℕ}
    (hfit : Nat.ofDigitChars 10 s a ≤ 2^63-1+neg.toNat) :
    readDecimal neg a s = some (Nat.ofDigitChars 10 s a,[]) := by
  induction s generalizing a with
  | nil => rfl
  | cons c s ih =>
    obtain ⟨hc,hs⟩ := List.forall_mem_cons.mp hs
    have hd := digit_le_nine hc
    rw [Nat.ofDigitChars_cons] at hfit ⊢
    have hle := le_ofDigitChars s (10*a+(c.toNat- '0'.toNat))
    have h48 : '0'.toNat = 48 := rfl
    rw [readDecimal,if_pos hc,if_neg,← h48,ih hs hfit]
    unfold MAXBY10 MAXLASTD
    rw [h48] at hle hfit
    have hneg : neg.toNat ≤ 1 := by cases neg <;> decide
    omega

theorem readNumeral_digits (neg : Bool) {s : Str} (hs : ∀ c ∈ s, c.isDigit = true)
    (hfit : Nat.ofDigitChars 10 s 0 ≤ 2^63-1+neg.toNat) :
    readNumeral neg s = some (BitVec.ofNat 64 (Nat.ofDigitChars 10 s 0),s,[]) := by
  unfold readNumeral
  split
  · exact absurd (hs 'x' (by simp)) (by decide)
  · exact absurd (hs 'X' (by simp)) (by decide)
  · rw [readDecimal_digits neg hs hfit]
    rfl

theorem not_isSpace_of_isDigit {c : Char} (hc : c.isDigit = true) : isSpace c = false := by
  simp only [Char.isDigit,Bool.and_eq_true,decide_eq_true_eq] at hc
  have h0 : 48 ≤ c.val := hc.1
  have hle : 48 ≤ c.toNat := UInt32.le_iff_toNat_le.mp h0
  rw [isSpace,Bool.or_eq_false_iff,decide_eq_false_iff_not,beq_eq_false_iff_ne]
  constructor
  · rintro rfl
    exact absurd hle (by decide)
  · omega

theorem readSign_digits {s : Str} (hs : ∀ c ∈ s, c.isDigit = true) : readSign s = (false,s) := by
  unfold readSign
  split
  · exact absurd (hs '-' (by simp)) (by decide)
  · exact absurd (hs '+' (by simp)) (by decide)
  · rfl

/-- What is written of an integer is read as that integer. -/
theorem str2int_integerText (n : BitVec 64) : str2int (integerText n) = some n := by
  have hdigits : ∀ c ∈ Nat.toDigits 10 n.toInt.natAbs, c.isDigit = true := fun c hc => isDigit_of_mem hc
  have hvalue : Nat.ofDigitChars 10 (Nat.toDigits 10 n.toInt.natAbs) 0 = n.toInt.natAbs :=
    Nat.ofDigitChars_ten_toDigits
  have hlt := n.toInt_lt
  have hge := n.le_toInt
  have hne : Nat.toDigits 10 n.toInt.natAbs ≠ [] := Nat.toDigits_ne_nil
  unfold str2int integerText
  split_ifs with hneg
  · have hread := readNumeral_digits true hdigits (by rw [hvalue,Bool.toNat_true]; omega)
    rw [List.dropWhile_cons_of_neg (by decide)]
    simp only [readSign,hread,Option.bind_some,hvalue,hne,List.dropWhile_nil,ne_eq,not_true_eq_false,
      or_false,if_false,if_true]
    rw [← BitVec.ofInt_natCast,Int.ofNat_natAbs_of_nonpos (Int.le_of_lt hneg),BitVec.ofInt_neg,
      BitVec.neg_neg,BitVec.ofInt_toInt]
  · have hread := readNumeral_digits false hdigits (by rw [hvalue,Bool.toNat_false]; omega)
    have hspace : (Nat.toDigits 10 n.toInt.natAbs).dropWhile isSpace = Nat.toDigits 10 n.toInt.natAbs := by
      obtain ⟨c,s,hcs⟩ := List.exists_cons_of_ne_nil hne
      rw [hcs,List.dropWhile_cons_of_neg]
      rw [not_isSpace_of_isDigit (hdigits c (hcs ▸ List.mem_cons_self))]
      exact Bool.false_ne_true
    simp only [hspace,readSign_digits hdigits,hread,Option.bind_some,hvalue,hne,List.dropWhile_nil,ne_eq,
      not_true_eq_false,or_false,if_false]
    rw [← BitVec.ofInt_natCast,Int.natAbs_of_nonneg (Int.not_lt.mp hneg),BitVec.ofInt_toInt]
    rfl

end RoundTrip
end PucRio.Lua
