import Mathlib.Algebra.Order.Ring.Int
import Mathlib.Algebra.Order.Ring.Nat
import Mathlib.Data.List.TakeDrop

/-! The directives of C's `scanf` family on the characters still to be read: what is left after
them, or none where they fail. -/
namespace PucRio.Scanf

def isspace (c : Char) : Bool := c ∈ [' ','\t','\n','\x0b','\x0c','\r']

/-- A blank in the format. -/
def skipSpace (cs : List Char) : List Char := cs.dropWhile isspace

/-- An ordinary character of the format. -/
def literal (c : Char) : List Char → Option (List Char)
  | [] => none
  | c'::cs => if c' = c then some cs else none

/-- `%c`, which takes the next character whatever it is. -/
def char : List Char → Option (Char × List Char)
  | [] => none
  | c::cs => some (c,cs)

def digitsValue (ds : List Char) : ℕ := ds.foldl (fun n d => 10*n+(d.toNat - '0'.toNat)) 0

/-- Digits, and what they stand for with the sign in front of them. C leaves open what a numeral
beyond the range of `int` gives. -/
def digits (negative : Bool) (cs : List Char) : Option (ℤ × List Char) :=
  let ds := cs.takeWhile Char.isDigit
  let n : ℤ := if negative then -digitsValue ds else digitsValue ds
  if ds = [] ∨ n < -2^31 ∨ 2^31 ≤ n then none else some (n,cs.dropWhile Char.isDigit)

/-- `%d`. -/
def int (cs : List Char) : Option (ℤ × List Char) :=
  match skipSpace cs with
  | '-'::cs => digits true cs
  | '+'::cs => digits false cs
  | cs => digits false cs

/-- The characters are a numeral for `n`, which is an `int`. -/
inductive Numeral : List Char → ℤ → Prop
  | nat {ds : List Char} (hne : ds ≠ []) (hd : ∀ d ∈ ds, d.isDigit) (h : digitsValue ds < 2^31) :
      Numeral ds (digitsValue ds)
  | neg {ds : List Char} (hne : ds ≠ []) (hd : ∀ d ∈ ds, d.isDigit) (h : digitsValue ds ≤ 2^31) :
      Numeral ('-'::ds) (-digitsValue ds)

theorem numeral_digit {d : Char} {n : ℕ} (hd : d.isDigit = true) (hn : digitsValue [d] = n) :
    Numeral [d] n := by
  have h : digitsValue [d] < 2^31 := by
    have h9 : d.toNat ≤ 57 := (Char.isDigit_iff_toNat.mp hd).2
    simp only [digitsValue,List.foldl_cons,List.foldl_nil]
    omega
  exact hn ▸ .nat (List.cons_ne_nil d []) (by simpa using hd) h

/-- A numeral ends where no further digit stands. -/
def NoDigit (cs : List Char) : Prop := ∀ c ∈ cs.head?, c.isDigit = false

theorem skipSpace_append {ws cs : List Char} (hw : ∀ c ∈ ws, isspace c = true)
    (hc : ∀ c ∈ cs.head?, isspace c = false) : skipSpace (ws ++ cs) = cs := by
  rw [skipSpace,List.dropWhile_append_of_pos hw]
  cases cs with
  | nil => rfl
  | cons c cs => simp [hc c rfl]

theorem skipSpace_self {cs : List Char} (hc : ∀ c ∈ cs.head?, isspace c = false) :
    skipSpace cs = cs :=
  skipSpace_append (List.forall_mem_nil _) hc

theorem takeWhile_digits {ds cs : List Char} (hd : ∀ d ∈ ds, d.isDigit) (hc : NoDigit cs) :
    (ds ++ cs).takeWhile Char.isDigit = ds ∧ (ds ++ cs).dropWhile Char.isDigit = cs := by
  rw [List.takeWhile_append_of_pos hd,List.dropWhile_append_of_pos hd]
  cases cs with
  | nil => simp
  | cons c cs => simp [hc c rfl]

theorem digits_append (negative : Bool) {ds cs : List Char} {n : ℤ} (hne : ds ≠ [])
    (hd : ∀ d ∈ ds, d.isDigit) (hc : NoDigit cs)
    (hn : n = if negative then -(digitsValue ds : ℤ) else digitsValue ds) (hlo : -2^31 ≤ n)
    (hhi : n < 2^31) : digits negative (ds ++ cs) = some (n,cs) := by
  obtain ⟨htake,hdrop⟩ := takeWhile_digits hd hc
  unfold digits
  dsimp only
  rw [htake,hdrop,← hn,if_neg (by simp only [hne,false_or]; omega)]

theorem isspace_of_isDigit {c : Char} (h : c.isDigit = true) : isspace c = false := by
  simp only [isspace,List.mem_cons,List.not_mem_nil,or_false,decide_eq_false_iff_not]
  rintro (rfl | rfl | rfl | rfl | rfl | rfl) <;> simp at h

/-- `%d` reads a numeral whole. -/
theorem int_numeral {ds cs : List Char} {n : ℤ} (h : Numeral ds n) (hc : NoDigit cs) :
    int (ds ++ cs) = some (n,cs) := by
  have hskip : skipSpace (ds ++ cs) = ds ++ cs := by
    refine skipSpace_self fun c hc' => ?_
    cases h with
    | nat hne hd =>
      cases ds with
      | nil => exact absurd rfl hne
      | cons d ds =>
        obtain rfl : d = c := by simpa using hc'
        exact isspace_of_isDigit (hd d (by simp))
    | neg hne hd =>
      obtain rfl : '-' = c := by simpa using hc'
      decide
  rw [int,hskip]
  cases h with
  | nat hne hd h =>
    have hread := digits_append false hne hd hc rfl (by omega) (by omega)
    cases ds with
    | nil => exact absurd rfl hne
    | cons d ds =>
      have hdigit := hd d (by simp)
      rw [List.cons_append] at hread ⊢
      split
      next heq => simp [(List.cons.inj heq).1] at hdigit
      next heq => simp [(List.cons.inj heq).1] at hdigit
      next => exact hread
  | neg hne hd h =>
    exact digits_append true hne hd hc rfl (by omega) (by omega)

/-! What directives leave behind where they fail. -/

/-- An ordinary text of the format: whether it was there, and what is left. -/
def literals : List Char → List Char → Bool × List Char
  | [],cs => (true,cs)
  | c::text,cs =>
    match literal c cs with
    | some cs => literals text cs
    | none => (false,cs)

/-- The sign of a numeral, and what follows it. -/
def sign : List Char → Bool × List Char
  | '-'::cs => (true,cs)
  | '+'::cs => (false,cs)
  | cs => (false,cs)

/-- `%d` with all that it may do: the number that it stores, if any, and what is left. A sign
without digits is taken from the input; `beyond` is what a numeral outside the range of `int`
stores, by its sign and digits. -/
def intOr (beyond : Bool → List Char → Int32) (cs : List Char) : Option ℤ × List Char :=
  let (negative,cs) := sign (skipSpace cs)
  let ds := cs.takeWhile Char.isDigit
  let n : ℤ := if negative then -digitsValue ds else digitsValue ds
  if ds = [] then (none,cs)
  else if n < -2^31 ∨ 2^31 ≤ n then
    (some (beyond negative ds).toInt,cs.dropWhile Char.isDigit)
  else (some n,cs.dropWhile Char.isDigit)

theorem int_eq_digits (cs : List Char) :
    int cs = digits (sign (skipSpace cs)).1 (sign (skipSpace cs)).2 := by
  rw [int]
  split
  · rename_i h
    rw [h]
    rfl
  · rename_i h
    rw [h]
    rfl
  · rename_i h₁ h₂
    rw [sign]
    · exact h₁
    · exact h₂

/-- Where the directive succeeds it does the same. -/
theorem intOr_of_int {beyond : Bool → List Char → Int32} {cs rest : List Char} {n : ℤ}
    (h : int cs = some (n,rest)) : intOr beyond cs = (some n,rest) := by
  rw [int_eq_digits,digits] at h
  rw [intOr]
  dsimp only at h ⊢
  rw [Option.ite_none_left_eq_some,not_or] at h
  obtain ⟨⟨hd,hn⟩,h⟩ := h
  obtain ⟨rfl,rfl⟩ := Prod.mk.inj (Option.some.inj h)
  rw [if_neg hd,if_neg hn]

theorem length_skipSpace_le (cs : List Char) : (skipSpace cs).length ≤ cs.length :=
  (List.dropWhile_sublist isspace).length_le

theorem length_literal_le {c : Char} {cs rest : List Char} (h : literal c cs = some rest) :
    rest.length ≤ cs.length := by
  cases cs with
  | nil => cases h
  | cons c' cs =>
    rw [literal,Option.ite_none_right_eq_some] at h
    obtain rfl := Option.some.inj h.2
    exact Nat.le_succ _

theorem length_literals_le (text cs : List Char) : (literals text cs).2.length ≤ cs.length := by
  induction text generalizing cs with
  | nil => exact le_rfl
  | cons c text ih =>
    rw [literals]
    cases h : literal c cs with
    | none => exact le_rfl
    | some rest => exact (ih rest).trans (length_literal_le h)

theorem length_sign_le (cs : List Char) : (sign cs).2.length ≤ cs.length := by
  rw [sign.eq_def]
  split
  · exact Nat.le_succ _
  · exact Nat.le_succ _
  · exact le_rfl

theorem length_intOr_le (beyond : Bool → List Char → Int32) (cs : List Char) :
    (intOr beyond cs).2.length ≤ cs.length := by
  have hsign := (length_sign_le (skipSpace cs)).trans (length_skipSpace_le cs)
  have hdrop := (List.dropWhile_sublist Char.isDigit (l := (sign (skipSpace cs)).2)).length_le
  rw [intOr]
  dsimp only
  by_cases hd : (sign (skipSpace cs)).2.takeWhile Char.isDigit = []
  · rw [if_pos hd]
    exact hsign
  · rw [if_neg hd,apply_ite Prod.snd,ite_self]
    exact hdrop.trans hsign

/-- A directive of a format, with the variable that it sets. -/
inductive Directive (σ : Type*)
  | blank
  | text (cs : List Char)
  | char (store : Char → σ → σ)
  | int (store : ℤ → σ → σ)

section Format
variable {σ : Type*} (beyond : Bool → List Char → Int32)

/-- Whether the directive succeeds, the variables after it, and what is left. -/
def Directive.run : Directive σ → σ → List Char → Bool × σ × List Char
  | .blank,x,cs => (true,x,skipSpace cs)
  | .text l,x,cs => ((literals l cs).1,x,(literals l cs).2)
  | .char store,x,cs => (Scanf.char cs).elim (false,x,cs) fun r => (true,store r.1 x,r.2)
  | .int store,x,cs =>
    (intOr beyond cs).1.elim (false,x,(intOr beyond cs).2)
      fun n => (true,store n x,(intOr beyond cs).2)

/-- A call of `scanf`: its directives one after the other, up to the first that fails. -/
def scan : List (Directive σ) → σ → List Char → σ × List Char
  | [],x,cs => (x,cs)
  | d::ds,x,cs =>
    if (d.run beyond x cs).1 then scan ds (d.run beyond x cs).2.1 (d.run beyond x cs).2.2
    else (d.run beyond x cs).2

variable {beyond} {x : σ} {cs rest : List Char} {ds : List (Directive σ)}

theorem scan_blank : scan beyond (.blank::ds) x cs = scan beyond ds x (skipSpace cs) := rfl

theorem scan_text {l : List Char} (h : literals l cs = (true,rest)) :
    scan beyond (.text l::ds) x cs = scan beyond ds x rest := by
  simp only [scan,Directive.run,h,if_true]

theorem scan_char {store : Char → σ → σ} {c : Char} (h : char cs = some (c,rest)) :
    scan beyond (.char store::ds) x cs = scan beyond ds (store c x) rest := by
  simp only [scan,Directive.run,h,Option.elim_some,if_true]

theorem scan_int {store : ℤ → σ → σ} {n : ℤ} (h : int cs = some (n,rest)) :
    scan beyond (.int store::ds) x cs = scan beyond ds (store n x) rest := by
  simp only [scan,Directive.run,intOr_of_int h,Option.elim_some,if_true]

theorem Directive.length_run_le (d : Directive σ) (x : σ) (cs : List Char) :
    (d.run beyond x cs).2.2.length ≤ cs.length := by
  cases d with
  | blank => exact length_skipSpace_le cs
  | text l => exact length_literals_le l cs
  | char store =>
    cases cs with
    | nil => exact le_rfl
    | cons c cs => exact Nat.le_succ _
  | int store =>
    have h := length_intOr_le beyond cs
    rw [Directive.run]
    cases (intOr beyond cs).1 with
    | none => exact h
    | some n => exact h

/-- A call takes characters from the input and puts none back. -/
theorem length_scan_le (ds : List (Directive σ)) (x : σ) (cs : List Char) :
    (scan beyond ds x cs).2.length ≤ cs.length := by
  induction ds generalizing x cs with
  | nil => exact le_rfl
  | cons d ds ih =>
    rw [scan]
    split_ifs
    · exact (ih _ _).trans (d.length_run_le x cs)
    · exact d.length_run_le x cs

end Format

end PucRio.Scanf
