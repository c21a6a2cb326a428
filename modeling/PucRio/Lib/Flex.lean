import Mathlib.Data.List.MinMax

/-! Scanners that a generator makes of rules: at a text the rule with the longest match is taken,
and of several such rules the first. Only classes of characters are repeated. -/
namespace PucRio.Flex
variable {α ρ : Type*}

inductive Pattern (α : Type*)
  | one (p : α → Bool)
  | many (p : α → Bool)
  | seq (P Q : Pattern α)
  | alt (P Q : Pattern α)
  | opt (P : Pattern α)

namespace Pattern

/-- The texts of a pattern. -/
def Matches : Pattern α → List α → Prop
  | one p,w => ∃ c, w = [c] ∧ p c = true
  | many p,w => ∀ c ∈ w, p c = true
  | seq P Q,w => ∃ u v, w = u++v ∧ P.Matches u ∧ Q.Matches v
  | alt P Q,w => P.Matches w ∨ Q.Matches w
  | opt P,w => w = [] ∨ P.Matches w

def splitsMany (p : α → Bool) : List α → List (List α × List α)
  | [] => [([],[])]
  | c::s => ([],c::s)::if p c then (splitsMany p s).map fun x => (c::x.1,x.2) else []

def splitsOne (p : α → Bool) : List α → List (List α × List α)
  | [] => []
  | c::s => if p c then [([c],s)] else []

/-- The ways to split a text behind a match. -/
def splits : Pattern α → List α → List (List α × List α)
  | one p,s => splitsOne p s
  | many p,s => splitsMany p s
  | seq P Q,s => (P.splits s).flatMap fun x => (Q.splits x.2).map fun y => (x.1++y.1,y.2)
  | alt P Q,s => P.splits s++Q.splits s
  | opt P,s => P.splits s++[([],s)]

theorem mem_splitsMany {p : α → Bool} {s w t : List α} :
    (w,t) ∈ splitsMany p s ↔ s = w++t ∧ ∀ c ∈ w, p c = true := by
  induction s generalizing w with
  | nil =>
    rw [splitsMany,List.mem_singleton,Prod.mk.injEq,List.nil_eq,List.append_eq_nil_iff]
    constructor
    · rintro ⟨rfl,rfl⟩
      exact ⟨⟨rfl,rfl⟩,List.forall_mem_nil _⟩
    · exact And.left
  | cons c s ih =>
    rw [splitsMany,List.mem_cons]
    cases w with
    | nil =>
      rw [Prod.mk.injEq,eq_self_iff_true,true_and,List.nil_append,eq_comm]
      constructor
      · rintro (h | h)
        · exact ⟨h,List.forall_mem_nil _⟩
        · split at h
          · obtain ⟨x,-,hx⟩ := List.mem_map.mp h
            cases hx
          · cases h
      · exact fun h => .inl h.1
    | cons d w =>
      by_cases hp : p c = true
      · simp only [hp,if_true,List.mem_map,Prod.exists,Prod.mk.injEq,List.cons.injEq,reduceCtorEq,
          false_and,false_or,List.cons_append,List.forall_mem_cons]
        constructor
        · rintro ⟨u,v,huv,⟨rfl,rfl⟩,rfl⟩
          obtain ⟨rfl,hu⟩ := ih.mp huv
          exact ⟨⟨rfl,rfl⟩,hp,hu⟩
        · rintro ⟨⟨rfl,rfl⟩,-,hw⟩
          exact ⟨w,t,ih.mpr ⟨rfl,hw⟩,⟨rfl,rfl⟩,rfl⟩
      · simp only [hp,if_false,List.not_mem_nil,or_false,Prod.mk.injEq,reduceCtorEq,false_and,
          List.cons_append,List.cons.injEq,List.forall_mem_cons,false_iff,not_and]
        rintro ⟨rfl,-⟩ hd
        exact absurd hd hp

theorem mem_splits {P : Pattern α} {s w t : List α} :
    (w,t) ∈ P.splits s ↔ s = w++t ∧ P.Matches w := by
  induction P generalizing s w t with
  | one p =>
    cases s with
    | nil =>
      simp only [splits,splitsOne,List.not_mem_nil,Matches,false_iff,not_and]
      rintro h ⟨c,rfl,-⟩
      cases h
    | cons c s =>
      simp only [splits,splitsOne,Matches]
      constructor
      · intro h
        split at h
        · rename_i hp
          obtain ⟨rfl,rfl⟩ := Prod.mk.inj (List.mem_singleton.mp h)
          exact ⟨rfl,c,rfl,hp⟩
        · cases h
      · rintro ⟨h,d,rfl,hp⟩
        obtain ⟨rfl,rfl⟩ := List.cons.inj h
        rw [if_pos hp]
        exact List.mem_singleton_self _
  | many p => exact mem_splitsMany
  | seq P Q ihP ihQ =>
    simp only [splits,Matches,List.mem_flatMap,List.mem_map,Prod.exists,Prod.mk.injEq]
    constructor
    · rintro ⟨u,r,hu,v,t',hv,rfl,rfl⟩
      obtain ⟨hs,hPu⟩ := ihP.mp hu
      obtain ⟨rfl,hQv⟩ := ihQ.mp hv
      exact ⟨by rw [hs,List.append_assoc],u,v,rfl,hPu,hQv⟩
    · rintro ⟨rfl,u,v,rfl,hu,hv⟩
      exact ⟨u,v++t,ihP.mpr ⟨List.append_assoc _ _ _,hu⟩,v,t,ihQ.mpr ⟨rfl,hv⟩,rfl,rfl⟩
  | alt P Q ihP ihQ =>
    rw [splits,List.mem_append,ihP,ihQ,← and_or_left]
    rfl
  | opt P ih =>
    rw [splits,List.mem_append,ih,List.mem_singleton,Prod.mk.injEq,Matches]
    constructor
    · rintro (⟨h,hP⟩ | ⟨rfl,rfl⟩)
      · exact ⟨h,.inr hP⟩
      · exact ⟨rfl,.inl rfl⟩
    · rintro ⟨h,rfl | hP⟩
      · exact .inr ⟨rfl,h.symm⟩
      · exact .inl ⟨h,hP⟩

/-- A character that the pattern can have in a text. -/
def uses : Pattern α → α → Bool
  | one p,c => p c
  | many p,c => p c
  | seq P Q,c => P.uses c||Q.uses c
  | alt P Q,c => P.uses c||Q.uses c
  | opt P,c => P.uses c

theorem Matches.uses {P : Pattern α} {w : List α} (h : P.Matches w) {c : α} (hc : c ∈ w) :
    P.uses c = true := by
  induction P generalizing w with
  | one p =>
    obtain ⟨d,rfl,hd⟩ := h
    rwa [List.mem_singleton.mp hc]
  | many p => exact h c hc
  | seq P Q ihP ihQ =>
    obtain ⟨u,v,rfl,hu,hv⟩ := h
    rw [Pattern.uses,Bool.or_eq_true]
    exact (List.mem_append.mp hc).imp (ihP hu) (ihQ hv)
  | alt P Q ihP ihQ =>
    rw [Pattern.uses,Bool.or_eq_true]
    exact h.imp (fun h => ihP h hc) fun h => ihQ h hc
  | opt P ih =>
    rcases h with rfl | h
    · cases hc
    · exact ih h hc

/-- The texts of the pattern are single characters. -/
def isOne : Pattern α → Bool
  | one _ => true
  | _ => false

theorem Matches.of_isOne {P : Pattern α} {w : List α} (h : P.Matches w) (hP : P.isOne = true) :
    ∃ c, w = [c] := by
  cases P with
  | one p =>
    obtain ⟨c,rfl,-⟩ := h
    exact ⟨c,rfl⟩
  | _ => cases hP

/-- The text `w` itself. -/
def word [DecidableEq α] : List α → Pattern α
  | [] => many fun _ => false
  | [a] => one (· == a)
  | a::w => seq (one (· == a)) (word w)

theorem matches_word [DecidableEq α] {l w : List α} : (word l).Matches w ↔ w = l := by
  induction l generalizing w with
  | nil =>
    refine ⟨fun h => List.eq_nil_iff_forall_not_mem.mpr fun c hc => Bool.noConfusion (h c hc),?_⟩
    rintro rfl c hc
    cases hc
  | cons a l ih =>
    cases l with
    | nil =>
      constructor
      · rintro ⟨c,rfl,hc⟩
        rw [beq_iff_eq.mp hc]
      · rintro rfl
        exact ⟨a,rfl,beq_self_eq_true a⟩
    | cons b l =>
      constructor
      · rintro ⟨u,v,rfl,⟨c,rfl,hc⟩,hv⟩
        rw [ih.mp hv,beq_iff_eq.mp hc]
        rfl
      · rintro rfl
        exact ⟨[a],b::l,rfl,⟨a,rfl,beq_self_eq_true a⟩,ih.mpr rfl⟩

def many1 (p : α → Bool) : Pattern α := seq (one p) (many p)

end Pattern

/-- Every match of every rule at a text. -/
def candidates (rules : List (Pattern α × ρ)) (s : List α) : List (ρ × List α × List α) :=
  rules.flatMap fun r => (r.1.splits s).map fun x => (r.2,x)

/-- The rule taken at a text, what it matches there and what is left. -/
def lex (rules : List (Pattern α × ρ)) (s : List α) : Option (ρ × List α × List α) :=
  (candidates rules s).argmax fun x => x.2.1.length

variable {rules : List (Pattern α × ρ)} {s : List α} {r : ρ} {w t : List α}

theorem mem_candidates : (r,w,t) ∈ candidates rules s ↔
    ∃ P, (P,r) ∈ rules ∧ s = w++t ∧ P.Matches w := by
  simp only [candidates,List.mem_flatMap,List.mem_map,Prod.exists,Prod.mk.injEq]
  constructor
  · rintro ⟨P,_,hP,_,_,hx,rfl,rfl,rfl⟩
    exact ⟨P,hP,Pattern.mem_splits.mp hx⟩
  · rintro ⟨P,hP,h⟩
    exact ⟨P,r,hP,w,t,Pattern.mem_splits.mpr h,rfl,rfl,rfl⟩

theorem lex_matches (h : lex rules s = some (r,w,t)) :
    ∃ P, (P,r) ∈ rules ∧ s = w++t ∧ P.Matches w :=
  mem_candidates.mp (List.argmax_mem h)

theorem lex_longest (h : lex rules s = some (r,w,t)) {P : Pattern α} {r' : ρ}
    (hP : (P,r') ∈ rules) {w' t' : List α} (hs : s = w'++t') (hw : P.Matches w') :
    w'.length ≤ w.length :=
  List.le_of_mem_argmax (f := fun x : ρ × List α × List α => x.2.1.length)
    (mem_candidates.mpr ⟨P,hP,hs,hw⟩) h

theorem exists_lex {P : Pattern α} (hP : (P,r) ∈ rules) (hs : s = w++t) (hw : P.Matches w) :
    ∃ x, lex rules s = some x := by
  apply Option.ne_none_iff_exists'.mp
  intro hn
  have hnil := List.argmax_eq_none.mp hn
  have hmem := mem_candidates.mpr ⟨P,hP,hs,hw⟩
  rw [hnil] at hmem
  cases hmem

end PucRio.Flex
