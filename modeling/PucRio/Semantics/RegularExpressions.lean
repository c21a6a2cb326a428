import Mathlib.Computability.Language

/-! Regular expressions, with a matcher that tries every way to cut the string in two. It decides the
language of the expression. -/
namespace PucRio.Semantics

inductive RE
  | REEmpty
  | REEpsilon
  | REAny
  | REChar (c : Char)
  | RESeq (e e' : RE)
  | REOr (e e' : RE)
  | REKleene (e : RE)
  deriving DecidableEq, Repr

namespace RE

/-- `exists` of the source. -/
def existsIn {α : Type*} (l : List α) (f : α → Bool) : Bool := (l.map f).or

/-- `eval` of the source; the second list of cuts leaves out the empty one. -/
def eval : RE → List Char → Bool
  | REEmpty,_ => false
  | REEpsilon,s => s == []
  | REAny,s => s.length == 1
  | REChar c,s => s == [c]
  | REOr e e',s => eval e s || eval e' s
  | RESeq e e',s => existsIn (List.range (s.length+1)) fun i => eval e (s.take i) && eval e' (s.drop i)
  | REKleene e,s => s == [] || existsIn (List.range' 1 s.length).attach fun i =>
      eval e (s.take i) && eval (REKleene e) (s.drop i)
termination_by e s => (e,s.length)
decreasing_by
  · decreasing_tactic
  · decreasing_tactic
  · decreasing_tactic
  · decreasing_tactic
  · decreasing_tactic
  · apply Prod.Lex.right
    obtain ⟨i,hi⟩ := i
    have hi := List.mem_range'_1.mp hi
    rw [List.length_drop]
    show s.length-i < s.length
    omega

/-- The words of an expression. -/
def lang : RE → Language Char
  | REEmpty => 0
  | REEpsilon => 1
  | REAny => { s | s.length = 1 }
  | REChar c => { [c] }
  | RESeq e e' => lang e*lang e'
  | REOr e e' => lang e+lang e'
  | REKleene e => KStar.kstar (lang e)

theorem existsIn_iff {α : Type*} (l : List α) (f : α → Bool) :
    existsIn l f = true ↔ ∃ i ∈ l, f i = true := by
  rw [existsIn,List.or,List.any_eq_true]
  simp

theorem mem_REAny (s : List Char) : s ∈ lang REAny ↔ s.length = 1 := Iff.rfl

theorem mem_REChar (c : Char) (s : List Char) : s ∈ lang (REChar c) ↔ s = [c] := Iff.rfl

theorem eval_RESeq (e e' : RE) (s : List Char) : eval (RESeq e e') s = true ↔
    ∃ i ≤ s.length, eval e (s.take i) = true ∧ eval e' (s.drop i) = true := by
  rw [eval,existsIn_iff]
  simp only [List.mem_range,Nat.lt_succ_iff,Bool.and_eq_true]

theorem eval_REKleene (e : RE) (s : List Char) : eval (REKleene e) s = true ↔
    s = [] ∨ ∃ i, 0 < i ∧ i ≤ s.length ∧ eval e (s.take i) = true ∧
      eval (REKleene e) (s.drop i) = true := by
  rw [eval,Bool.or_eq_true,existsIn_iff,beq_iff_eq]
  apply or_congr_right
  constructor
  · rintro ⟨⟨i,hi⟩,-,h⟩
    have hi := List.mem_range'_1.mp hi
    exact ⟨i,by omega,by omega,Bool.and_eq_true_iff.mp h⟩
  · rintro ⟨i,hpos,hle,h⟩
    exact ⟨⟨i,List.mem_range'_1.mpr ⟨hpos,by omega⟩⟩,List.mem_attach _ _,Bool.and_eq_true_iff.mpr h⟩

/-- A word of a product is cut somewhere. -/
theorem mem_mul_iff (l l' : Language Char) (s : List Char) :
    s ∈ l*l' ↔ ∃ i ≤ s.length, s.take i ∈ l ∧ s.drop i ∈ l' := by
  rw [Language.mem_mul]
  constructor
  · rintro ⟨a,ha,b,hb,rfl⟩
    exact ⟨a.length,by simp,by simpa using ha,by simpa using hb⟩
  · rintro ⟨i,-,ha,hb⟩
    exact ⟨_,ha,_,hb,List.take_append_drop i s⟩

/-- A word of a closure is empty or begins with a word that is not. -/
theorem mem_kstar_iff (l : Language Char) (s : List Char) : s ∈ KStar.kstar l ↔
    s = [] ∨ ∃ i, 0 < i ∧ i ≤ s.length ∧ s.take i ∈ l ∧ s.drop i ∈ KStar.kstar l := by
  constructor
  · intro h
    obtain ⟨words,rfl,hwords⟩ := Language.mem_kstar_iff_exists_nonempty.mp h
    cases words with
    | nil => exact .inl rfl
    | cons a words =>
      obtain ⟨ha,hne⟩ := hwords a List.mem_cons_self
      refine .inr ⟨a.length,List.length_pos_of_ne_nil hne,by simp,by simpa using ha,?_⟩
      rw [List.flatten_cons,List.drop_left]
      exact Language.join_mem_kstar fun y hy => (hwords y (List.mem_cons_of_mem _ hy)).1
  · rintro (rfl | ⟨i,-,-,ha,words,hwords,hall⟩)
    · exact Language.nil_mem_kstar l
    · rw [← List.take_append_drop i s,hwords]
      refine ⟨s.take i::words,rfl,?_⟩
      rintro y (_ | ⟨_,hy⟩)
      · exact ha
      · exact hall y hy

/-- The matcher accepts the words of the expression and no others. -/
theorem eval_iff (e : RE) (s : List Char) : eval e s = true ↔ s ∈ lang e := by
  induction e generalizing s with
  | REEmpty =>
    rw [eval]
    exact iff_of_false Bool.false_ne_true (Language.notMem_zero s)
  | REEpsilon =>
    rw [eval,beq_iff_eq]
    exact (Language.mem_one s).symm
  | REAny => rw [eval,beq_iff_eq,mem_REAny]
  | REChar c => rw [eval,beq_iff_eq,mem_REChar]
  | RESeq e e' ih ih' =>
    rw [eval_RESeq,lang,mem_mul_iff]
    simp only [ih,ih']
  | REOr e e' ih ih' =>
    rw [eval,Bool.or_eq_true,ih,ih']
    exact (Language.mem_add _ _ s).symm
  | REKleene e ih =>
    -- What is behind the first cut is shorter.
    induction hn : s.length using Nat.strong_induction_on generalizing s with
    | _ n ihn =>
      rw [eval_REKleene,lang,mem_kstar_iff]
      apply or_congr_right
      apply exists_congr
      intro i
      apply and_congr_right
      intro hpos
      apply and_congr_right
      intro hle
      have hdrop := ihn (s.drop i).length (by rw [List.length_drop]; omega) (s.drop i) rfl
      rw [ih,hdrop,lang]

end RE
end PucRio.Semantics
