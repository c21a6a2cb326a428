import PucRio.TypedRpc.LuarpcIdl

/-! Values against declared types: the check as it is coded, and the relation that it decides. -/
namespace PucRio.TypedRpc
open Lua
variable {N : Type} [DecidableEq N]

/-- What the code asks of Lua's numbers, and which border of a list with holes `#` finds. -/
structure Runtime (N : Type) where
  /-- `math.floor(value) == value` -/
  isIntegral : N → Bool
  tostring : N → Str
  border : List (Value N) → ℕ
  isBorder : ∀ l, IsBorder l (border l)

section Validate
variable (R : Runtime N)

def nameOfReference : Reference → Str
  | .function => ['f','u','n','c','t','i','o','n']
  | .userdata => ['u','s','e','r','d','a','t','a']
  | .thread => ['t','h','r','e','a','d']

/-- `type(value)`, with numbers taken for integers and strings for characters where such are
expected. -/
def typeStr (expectedType : Str) : Value N → Str
  | .nil => ['n','i','l']
  | .boolean _ => ['b','o','o','l','e','a','n']
  | .number x =>
    if R.isIntegral x = true ∧ expectedType = ['i','n','t'] then ['i','n','t']
    else ['d','o','u','b','l','e']
  | .string s =>
    if expectedType = ['c','h','a','r'] ∧ s.length ≤ 1 then ['c','h','a','r']
    else ['s','t','r','i','n','g']
  | .table _ => ['t','a','b','l','e']
  | .reference type _ => nameOfReference type

def nullError (expectedType : Str) : Str :=
  "value cannot be null (expected non-null ".toList++expectedType++" value)".toList

def typeError (expectedType actual : Str) : Str :=
  "expected type ".toList++expectedType++" - actual=".toList++actual

/-- `validateType`, with what `validateStruct` answers. -/
def validateTypeWith (validateStruct : Str → Table N → Option Str) (expectedType : Str)
    (value : Value N) (allowNullValues : Bool) : Option Str :=
  if value.isNil then
    if allowNullValues then none else some (nullError expectedType)
  else
    if (expectedType ∈ primitiveTypes ∧ typeStr R expectedType value ≠ expectedType) ∨
        (expectedType ∉ primitiveTypes ∧ typeStr R expectedType value ≠ ['t','a','b','l','e']) then
      some (typeError expectedType (typeStr R expectedType value))
    else if expectedType ∈ primitiveTypes then none
    else
      match value with
      | .table data => validateStruct expectedType data
      | _ => none

def validateStruct : Structs → Str → Table N → Option Str
  | .nil,structName,_ => some ("unknown type '".toList++structName++"'".toList)
  | .cons name fields structs rest,structName,data =>
    if name = structName then
      (fields.findSome? fun v =>
        validateTypeWith R (validateStruct structs) v.type (rawget data (.string v.name)) true).map
          fun typeValidationError => "struct ".toList++structName++": ".toList++typeValidationError
    else validateStruct rest structName data

def validateType (expectedType : Str) (value : Value N) (internalStructs : Structs)
    (allowNullValues : Bool) : Option Str :=
  validateTypeWith R (validateStruct R internalStructs) expectedType value allowNullValues

end Validate

/-- A value is of a type. A struct's fields may be missing. -/
inductive HasType (R : Runtime N) : Structs → Str → Value N → Prop
  | int {structs : Structs} (x : N) (h : R.isIntegral x = true) :
      HasType R structs ['i','n','t'] (.number x)
  | double {structs : Structs} (x : N) : HasType R structs ['d','o','u','b','l','e'] (.number x)
  | char {structs : Structs} (s : Str) (h : s.length ≤ 1) :
      HasType R structs ['c','h','a','r'] (.string s)
  | string {structs : Structs} (s : Str) : HasType R structs ['s','t','r','i','n','g'] (.string s)
  | struct {structs nested : Structs} {name : Str} {fields : List Field} (data : Table N)
      (hname : name ∉ primitiveTypes) (hfind : structs.find name = some (fields,nested))
      (hfields : ∀ v ∈ fields, rawget data (.string v.name) ≠ .nil →
        HasType R nested v.type (rawget data (.string v.name))) :
      HasType R structs name (.table data)

variable {R : Runtime N}

/-- Only the struct of that name matters. -/
theorem HasType.of_find {structs structs' : Structs} {type : Str} {v : Value N}
    (h : HasType R structs type v)
    (hfind : ∀ s, structs.find type = some s → structs'.find type = some s) :
    HasType R structs' type v := by
  cases h with
  | int x h => exact .int x h
  | double x => exact .double x
  | char s h => exact .char s h
  | string s => exact .string s
  | struct data hname hstruct hfields => exact .struct data hname (hfind _ hstruct) hfields

theorem not_hasType_nil {structs : Structs} {type : Str} : ¬HasType R structs type .nil := by
  intro h
  cases h

omit [DecidableEq N] in
theorem typeStr_table {type : Str} {v : Value N} :
    typeStr R type v = ['t','a','b','l','e'] ↔ ∃ data, v = .table data := by
  constructor
  · intro h
    cases v with
    | table data => exact ⟨data,rfl⟩
    | number x =>
      rw [typeStr] at h
      split_ifs at h
      all_goals cases h
    | string s =>
      rw [typeStr] at h
      split_ifs at h
      all_goals cases h
    | reference type text =>
      cases type
      all_goals cases h
    | _ => cases h
  · rintro ⟨data,rfl⟩
    rfl

omit [DecidableEq N] in
theorem validateTypeWith_struct {validate : Str → Table N → Option Str} {type : Str}
    (htype : type ∉ primitiveTypes) {v : Value N} (hv : v ≠ .nil) (allowNullValues : Bool) :
    validateTypeWith R validate type v allowNullValues = none ↔
      ∃ data, v = .table data ∧ validate type data = none := by
  unfold validateTypeWith
  rw [if_neg fun h => hv (Value.isNil_iff.mp h),if_neg htype]
  split_ifs with hbad
  · constructor
    · intro h
      exact h.elim
    · rintro ⟨data,rfl,-⟩
      cases hbad with
      | inl h => exact absurd h.1 htype
      | inr h => exact absurd rfl h.2
  · have htable : typeStr R type v = ['t','a','b','l','e'] := by
      by_contra h
      exact hbad (Or.inr ⟨htype,h⟩)
    obtain ⟨data,rfl⟩ := typeStr_table.mp htable
    constructor
    · intro h
      exact ⟨data,rfl,h⟩
    · rintro ⟨data',heq,h⟩
      obtain rfl := Value.table.inj heq
      exact h

omit [DecidableEq N] in
theorem validateTypeWith_primitive {validate : Str → Table N → Option Str} {type : Str}
    (htype : type ∈ primitiveTypes) {v : Value N} (hv : v ≠ .nil) (allowNullValues : Bool) :
    validateTypeWith R validate type v allowNullValues = none ↔ typeStr R type v = type := by
  unfold validateTypeWith
  rw [if_neg fun h => hv (Value.isNil_iff.mp h),if_pos htype]
  split_ifs with hbad
  · constructor
    · intro h
      exact h.elim
    · intro h
      cases hbad with
      | inl hbad => exact absurd h hbad.2
      | inr hbad => exact absurd htype hbad.1
  · refine ⟨fun _ => ?_,fun _ => rfl⟩
    by_contra h
    exact hbad (Or.inl ⟨htype,h⟩)

/-- The check of a primitive type decides the relation. -/
theorem typeStr_eq_iff {structs : Structs} {type : Str} (htype : type ∈ primitiveTypes) (v : Value N) :
    typeStr R type v = type ↔ HasType R structs type v := by
  constructor
  · intro h
    cases v with
    | number x =>
      rw [typeStr] at h
      split_ifs at h with hint
      · exact hint.2 ▸ .int x hint.1
      · exact h ▸ .double x
    | string s =>
      rw [typeStr] at h
      split_ifs at h with hchar
      · exact hchar.1 ▸ .char s hchar.2
      · exact h ▸ .string s
    | reference kind text =>
      have hnot : nameOfReference kind ∉ primitiveTypes := by
        cases kind
        all_goals decide
      have hkind : nameOfReference kind = type := h
      exact absurd (hkind ▸ htype) hnot
    | nil =>
      obtain rfl : ['n','i','l'] = type := h
      exact absurd htype (by decide)
    | boolean b =>
      obtain rfl : ['b','o','o','l','e','a','n'] = type := h
      exact absurd htype (by decide)
    | table data =>
      obtain rfl : ['t','a','b','l','e'] = type := h
      exact absurd htype (by decide)
  · intro h
    cases h with
    | int x h => rw [typeStr,if_pos ⟨h,rfl⟩]
    | double x => rw [typeStr,if_neg fun h => by cases h.2]
    | char s h => rw [typeStr,if_pos ⟨rfl,h⟩]
    | string s => rw [typeStr,if_neg fun h => by cases h.1]
    | struct data hname => exact absurd htype hname

theorem validateStruct_iff {structs : Structs} {structName : Str} {data : Table N} :
    validateStruct R structs structName data = none ↔
      ∃ s, structs.find structName = some s ∧
        ∀ v ∈ s.1, validateType R v.type (rawget data (.string v.name)) s.2 true = none := by
  induction structs with
  | nil =>
    constructor
    · intro h
      cases h
    · rintro ⟨s,hs,-⟩
      cases hs
  | cons name fields nested rest _ ih =>
    unfold validateStruct Structs.find
    split_ifs with hname
    · rw [Option.map_eq_none_iff,List.findSome?_eq_none_iff]
      constructor
      · intro h
        exact ⟨_,rfl,h⟩
      · rintro ⟨s,hs,h⟩
        obtain rfl := Option.some.inj hs
        exact h
    · exact ih

/-- The check of a struct decides the relation, given that the checks of its fields do. -/
theorem validateStruct_cons_iff {name type : Str} {fields : List Field} {nested rest : Structs}
    (htype : type ∉ primitiveTypes) {data : Table N}
    (hnested : ∀ (type : Str) (v : Value N), v ≠ .nil →
      (validateType R type v nested true = none ↔ HasType R nested type v))
    (hrest : validateStruct R rest type data = none ↔ HasType R rest type (.table data)) :
    validateStruct R (.cons name fields nested rest) type data = none ↔
      HasType R (.cons name fields nested rest) type (.table data) := by
  rw [validateStruct_iff]
  by_cases hname : name = type
  · have hfind : (Structs.cons name fields nested rest).find type = some (fields,nested) := if_pos hname
    constructor
    · rintro ⟨s,hs,h⟩
      obtain rfl := Option.some.inj (hfind.symm.trans hs)
      exact .struct data htype hfind fun v hv hne => (hnested _ _ hne).mp (h v hv)
    · intro h
      cases h with
      | struct data hname hstruct hfields =>
        obtain ⟨rfl,rfl⟩ := Prod.mk.inj (Option.some.inj (hfind.symm.trans hstruct))
        refine ⟨_,hfind,fun v hv => ?_⟩
        by_cases hne : rawget data (.string v.name) = .nil
        · rw [hne]
          rfl
        · exact (hnested _ _ hne).mpr (hfields v hv hne)
  · have hfind : (Structs.cons name fields nested rest).find type = rest.find type := if_neg hname
    rw [hfind,← validateStruct_iff,hrest]
    constructor
    · exact fun h => h.of_find fun s hs => hfind.trans hs
    · exact fun h => h.of_find fun s hs => hfind.symm.trans hs

/-- The check finds nothing wrong exactly where the value is of the type. -/
theorem validateType_iff {structs : Structs} {type : Str} {v : Value N} (hv : v ≠ .nil)
    (allowNullValues : Bool) :
    validateType R type v structs allowNullValues = none ↔ HasType R structs type v := by
  have hstruct : ∀ (type : Str) (v : Value N), type ∉ primitiveTypes →
      ((∃ data, v = .table data ∧ validateStruct R structs type data = none) ↔
        HasType R structs type v) := by
    clear hv
    induction structs with
    | nil =>
      intro type v htype
      constructor
      · rintro ⟨data,-,h⟩
        exact absurd h (Option.some_ne_none _)
      · intro h
        cases h with
        | struct data hname hfind => cases hfind
        | _ => exact absurd (by decide) htype
    | cons name fields nested rest ihnested ih =>
      intro type v htype
      have hnested : ∀ (type : Str) (v : Value N), v ≠ .nil →
          (validateType R type v nested true = none ↔ HasType R nested type v) := by
        intro type v hv
        by_cases htype : type ∈ primitiveTypes
        · exact (validateTypeWith_primitive htype hv true).trans (typeStr_eq_iff htype v)
        · exact (validateTypeWith_struct htype hv true).trans (ihnested type v htype)
      have hdata (data : Table N) : validateStruct R rest type data = none ↔
          HasType R rest type (.table data) := by
        rw [← ih type (.table data) htype]
        constructor
        · exact fun h => ⟨data,rfl,h⟩
        · rintro ⟨data',heq,h⟩
          obtain rfl := Value.table.inj heq
          exact h
      constructor
      · rintro ⟨data,rfl,h⟩
        exact (validateStruct_cons_iff htype hnested (hdata data)).mp h
      · intro h
        cases h with
        | struct data hname hfind hfields =>
          refine ⟨data,rfl,(validateStruct_cons_iff htype hnested (hdata data)).mpr ?_⟩
          exact .struct data hname hfind hfields
        | _ => exact absurd (by decide) htype
  by_cases htype : type ∈ primitiveTypes
  · exact (validateTypeWith_primitive htype hv allowNullValues).trans (typeStr_eq_iff htype v)
  · exact (validateTypeWith_struct htype hv allowNullValues).trans (hstruct type v htype)

end PucRio.TypedRpc
