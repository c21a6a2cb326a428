import Mathlib.Data.List.DropRight
import Mathlib.Data.List.Infix
import PucRio.Lib.Printf

/-! What Java's `String` and `Scanner` do with a text. `none` stands for an exception. An integer is
written and read without a bound on its size. -/
namespace PucRio.Java

/-- The first place of a character, or -1. -/
def indexOf (c : Char) (s : List Char) : ℤ := if c ∈ s then s.idxOf c else -1

/-- The last one. -/
def lastIndexOf (c : Char) (s : List Char) : ℤ :=
  if c ∈ s then s.length-1-s.reverse.idxOf c else -1

def substring (s : List Char) (beginIndex endIndex : ℤ) : Option (List Char) :=
  if 0 ≤ beginIndex ∧ beginIndex ≤ endIndex ∧ endIndex ≤ s.length then
    some ((s.take endIndex.toNat).drop beginIndex.toNat)
  else none

def substringFrom (s : List Char) (beginIndex : ℤ) : Option (List Char) :=
  substring s beginIndex s.length

def contains (s t : List Char) : Bool := s.tails.any (t.isPrefixOf ·)

def digits (ds : List Char) : Option ℤ :=
  if ds ≠ [] ∧ ds.all Char.isDigit = true then some (Scanf.digitsValue ds) else none

/-- `Integer.valueOf`. -/
def valueOf : List Char → Option ℤ
  | '-'::ds => (digits ds).map fun n => -n
  | '+'::ds => digits ds
  | ds => digits ds

/-- `split`, which drops empty pieces at the end. -/
def split (c : Char) (s : List Char) : List (List Char) :=
  if c ∈ s then (s.splitOn c).rdropWhile List.isEmpty else [s]

section Strings
variable {c : Char} {s t rest : List Char}

theorem indexOf_append (h : c ∉ s) (t : List Char) : indexOf c (s ++ c::t) = s.length := by
  rw [indexOf,if_pos (by simp),List.idxOf_append_of_notMem h,List.idxOf_cons_self,add_zero]

theorem indexOf_of_notMem (h : c ∉ s) : indexOf c s = -1 := if_neg h

theorem lastIndexOf_append (s : List Char) (h : c ∉ t) :
    lastIndexOf c (s ++ c::t) = s.length := by
  have hrev : c ∉ t.reverse := fun hm => h (List.mem_reverse.mp hm)
  rw [lastIndexOf,if_pos (by simp),List.reverse_append,List.reverse_cons,List.append_assoc,
    List.idxOf_append_of_notMem hrev,List.singleton_append,List.idxOf_cons_self,
    List.length_append,List.length_cons,List.length_reverse]
  push_cast
  omega

/-- The end of a text. -/
theorem substringFrom_append (s t : List Char) : substringFrom (s ++ t) s.length = some t := by
  rw [substringFrom,substring,if_pos (by simp),Int.toNat_natCast,Int.toNat_natCast,
    List.take_length,List.drop_left]

/-- The text between two characters. -/
theorem substring_between (s t rest : List Char) (a b : Char) :
    substring (s ++ a::(t ++ b::rest)) (s.length+1) (s.length+1+t.length) = some t := by
  have hle : (s.length : ℤ)+1+t.length ≤ (s ++ a::(t ++ b::rest)).length := by
    simp only [List.length_append,List.length_cons]
    push_cast
    omega
  have hsplit : s ++ a::(t ++ b::rest) = (s ++ [a]) ++ (t ++ b::rest) := by simp
  have hbegin : ((s.length : ℤ)+1).toNat = (s ++ [a]).length := by simp
  have hend : ((s.length : ℤ)+1+t.length).toNat = (s ++ [a]).length+t.length := by
    simp
    omega
  rw [substring,if_pos ⟨by omega,by omega,hle⟩,hbegin,hend,hsplit,List.take_length_add_append,
    List.drop_append_length,List.take_append_length]

theorem contains_iff : contains s t = true ↔ t <:+: s := by
  simp only [contains,List.any_eq_true,List.mem_tails,List.isPrefixOf_iff_prefix,
    List.infix_iff_prefix_suffix,and_comm]

theorem contains_of_prefix (h : t <+: s) : contains s t = true :=
  contains_iff.mpr h.isInfix

theorem contains_eq_false (ht : c ∈ t) (hs : c ∉ s) : contains s t = false :=
  Bool.eq_false_iff.mpr fun h => hs ((contains_iff.mp h).subset ht)

theorem digits_toDigits (n : ℕ) : digits (Nat.toDigits 10 n) = some (n : ℤ) := by
  rw [digits,if_pos ⟨Nat.toDigits_ne_nil,List.all_eq_true.mpr (Printf.isDigit_toDigits n)⟩,
    Printf.digitsValue_toDigits]

/-- What is written of an integer is read as it. -/
theorem valueOf_int (n : ℤ) : valueOf (Printf.int n) = some n := by
  rw [Printf.int]
  by_cases hn : n < 0
  · rw [if_pos hn,valueOf,digits_toDigits,Option.map_some,Option.some_inj]
    omega
  · have hsign (c : Char) (h : c.isDigit = false) (ds : List Char) :
        Nat.toDigits 10 n.natAbs ≠ c::ds := by
      intro hds
      have hc := Printf.isDigit_toDigits n.natAbs c (hds ▸ List.mem_cons_self)
      rw [h] at hc
      cases hc
    rw [if_neg hn]
    unfold valueOf
    split
    · exact absurd ‹_› (hsign '-' (by decide) _)
    · exact absurd ‹_› (hsign '+' (by decide) _)
    · rw [digits_toDigits,Option.some_inj]
      omega

end Strings

section Scanner

/-- The characters at which `nextLine` ends a line. -/
def isLineBreak (c : Char) : Bool :=
  c ∈ ['\n','\r',Char.ofNat 0x85,Char.ofNat 0x2028,Char.ofNat 0x2029]

def skipLineBreak : List Char → List Char
  | [] => []
  | '\r' :: '\n' :: cs => cs
  | _::cs => cs

/-- The next line and what follows it. -/
def nextLine (cs : List Char) : List Char × List Char :=
  (cs.takeWhile (!isLineBreak ·),skipLineBreak (cs.dropWhile (!isLineBreak ·)))

/-- Whether there is something else than blanks. -/
def hasNext (cs : List Char) : Bool := cs.any (!Char.isWhitespace ·)

theorem length_skipLineBreak (cs : List Char) (h : cs ≠ []) :
    (skipLineBreak cs).length < cs.length := by
  unfold skipLineBreak
  split
  · exact absurd rfl h
  · rw [List.length_cons,List.length_cons]
    omega
  · exact Nat.lt_succ_self _

theorem length_nextLine {cs : List Char} (h : cs ≠ []) : (nextLine cs).2.length < cs.length := by
  have hle := (List.dropWhile_sublist (!isLineBreak ·) (l := cs)).length_le
  rw [nextLine]
  cases hd : cs.dropWhile (!isLineBreak ·) with
  | nil => exact List.length_pos_iff.mpr h
  | cons c cs' =>
    rw [hd] at hle
    exact lt_of_lt_of_le (length_skipLineBreak _ (List.cons_ne_nil c cs')) hle

/-- The lines as long as there is something else than blanks. -/
def readLines (cs : List Char) : List (List Char) :=
  if _h : hasNext cs = true then (nextLine cs).1::readLines (nextLine cs).2 else []
termination_by cs.length
decreasing_by
  apply length_nextLine
  rintro rfl
  cases _h

variable {l rest : List Char}

theorem nextLine_append (h : ∀ c ∈ l, isLineBreak c = false) (rest : List Char) :
    nextLine (l ++ '\n'::rest) = (l,rest) := by
  have hnot : ∀ c ∈ l, (!isLineBreak c) = true := by
    intro c hc
    rw [h c hc]
    rfl
  rw [nextLine,List.takeWhile_append_of_pos hnot,List.dropWhile_append_of_pos hnot]
  have htake : ('\n'::rest).takeWhile (!isLineBreak ·) = [] := rfl
  have hdrop : ('\n'::rest).dropWhile (!isLineBreak ·) = '\n'::rest := rfl
  rw [htake,hdrop,List.append_nil]
  rfl

theorem nextLine_last (h : ∀ c ∈ l, isLineBreak c = false) : nextLine l = (l,[]) := by
  have hnot : ∀ c ∈ l, (!isLineBreak c) = true := by
    intro c hc
    rw [h c hc]
    rfl
  rw [nextLine,List.takeWhile_eq_self_iff.mpr hnot,List.dropWhile_eq_nil_iff.mpr hnot]
  rfl

/-- A line with something to read in it. -/
structure IsLine (l : List Char) : Prop where
  noBreak : ∀ c ∈ l, isLineBreak c = false
  hasNext : hasNext l = true

/-- Lines written one after the other are read as they were. -/
theorem readLines_intercalate {ls : List (List Char)} (h : ∀ l ∈ ls, IsLine l) :
    readLines (['\n'].intercalate ls) = ls := by
  induction ls with
  | nil =>
    rw [readLines,dif_neg (by decide)]
  | cons l ls ih =>
    have hl := h l List.mem_cons_self
    have hls : ∀ l ∈ ls, IsLine l := fun l' h' => h l' (List.mem_cons_of_mem _ h')
    cases ls with
    | nil =>
      rw [List.intercalate_singleton,readLines,dif_pos hl.hasNext,nextLine_last hl.noBreak]
      dsimp only
      rw [readLines,dif_neg (by decide)]
    | cons l' ls =>
      have hnext (rest : List Char) : Java.hasNext (l ++ '\n'::rest) = true := by
        rw [Java.hasNext,List.any_append]
        exact Bool.or_eq_true_iff.mpr (.inl hl.hasNext)
      rw [List.intercalate_cons_cons,List.append_assoc,List.singleton_append,readLines,
        dif_pos (hnext _),nextLine_append hl.noBreak]
      dsimp only
      rw [ih hls]

/-- So are they where the text is cut. -/
theorem split_intercalate {ls : List (List Char)} (h : ∀ l ∈ ls, IsLine l) (hls : ls ≠ []) :
    split '\n' (['\n'].intercalate ls) = ls := by
  have hnot : ∀ l ∈ ls, '\n' ∉ l := by
    intro l hl hmem
    have hbreak := (h l hl).noBreak '\n' hmem
    cases hbreak
  rw [split]
  split_ifs with hmem
  · rw [List.splitOn_intercalate '\n' hnot hls,List.rdropWhile_eq_self_iff]
    intro hne hempty
    have hlast := h _ (List.getLast_mem hne)
    rw [List.isEmpty_iff.mp hempty] at hlast
    cases hlast.hasNext
  · cases ls with
    | nil => exact absurd rfl hls
    | cons l ls =>
      cases ls with
      | nil => rw [List.intercalate_singleton]
      | cons l' ls =>
        rw [List.intercalate_cons_cons] at hmem
        simp at hmem

end Scanner

end PucRio.Java
