import PucRio.TypedRpc.TypedResults

/-! Parameters against the registry of structs. A struct keeps the structs of its fields as they were
registered before it; as none is ever replaced, the check goes by the registry alone. -/
namespace PucRio.TypedRpc
open Lua
variable {N : Type} [DecidableEq N]

/-- The registries that calls of `struct` lead to. -/
inductive Registry : Structs → Prop
  | empty : Registry .nil
  | struct {typeRegistry typeRegistry' : Structs} {data : StructData} (h : Registry typeRegistry)
      (hstruct : TypedRpc.struct typeRegistry data = .ok typeRegistry') : Registry typeRegistry'

/-- A value conforms to a type of the registry. A struct's fields may be missing. -/
inductive Conforms (R : Runtime N) (typeRegistry : Structs) : Str → Value N → Prop
  | int (x : N) (h : R.isIntegral x = true) : Conforms R typeRegistry ['i','n','t'] (.number x)
  | double (x : N) : Conforms R typeRegistry ['d','o','u','b','l','e'] (.number x)
  | char (s : Str) (h : s.length ≤ 1) : Conforms R typeRegistry ['c','h','a','r'] (.string s)
  | string (s : Str) : Conforms R typeRegistry ['s','t','r','i','n','g'] (.string s)
  | struct {name : Str} {fields : List Field} {structs : Structs} (data : Table N)
      (hname : name ∉ primitiveTypes) (hfind : typeRegistry.find name = some (fields,structs))
      (hfields : ∀ v ∈ fields, rawget data (.string v.name) ≠ .nil →
        Conforms R typeRegistry v.type (rawget data (.string v.name))) :
      Conforms R typeRegistry name (.table data)

section Registry
variable {typeRegistry typeRegistry' : Structs}

theorem useFields_ok {name : Str} {fields : List Field} {types : List Str} {usedStructs structs : Structs}
    (h : useFields typeRegistry name fields usedStructs = .ok structs)
    (hagree : Agree usedStructs typeRegistry) (hcovers : Covers usedStructs types) :
    Agree structs typeRegistry ∧ Covers structs (types++fields.map Field.type) := by
  induction fields generalizing usedStructs types with
  | nil =>
    obtain rfl := Except.ok.inj h
    rw [List.map_nil,List.append_nil]
    exact ⟨hagree,hcovers⟩
  | cons v fields ih =>
    unfold useFields at h
    split_ifs at h with hrecognized
    obtain ⟨hagree,hcovers⟩ := use_recognized hrecognized hagree hcovers
    rw [List.map_cons,List.append_cons]
    exact ih h hagree hcovers

/-- A struct that is registered goes by a new name, and has the structs of its fields. -/
theorem struct_ok {data : StructData} (h : struct typeRegistry data = .ok typeRegistry') :
    ∃ name fields structs, typeRegistry' = .cons name fields structs typeRegistry ∧
      typeRegistry.find name = none ∧ Agree structs typeRegistry ∧
        Covers structs (fields.map Field.type) := by
  unfold struct at h
  cases hname : data.name with
  | none =>
    rw [hname] at h
    cases h
  | some name =>
    cases hfields : data.fields with
    | none =>
      rw [hname,hfields] at h
      cases h
    | some fields =>
      rw [hname,hfields] at h
      dsimp only at h
      split_ifs at h with hnew
      cases hused : useFields typeRegistry name fields .nil with
      | error e =>
        rw [hused] at h
        cases h
      | ok structs =>
        rw [hused] at h
        have hempty : Covers .nil [] := fun _ ht => absurd ht List.not_mem_nil
        obtain ⟨hagree,hcovers⟩ := useFields_ok hused (fun _ _ hs => by cases hs) hempty
        exact ⟨name,fields,structs,(Except.ok.inj h).symm,
          Option.not_isSome_iff_eq_none.mp hnew,hagree,hcovers⟩

/-- The structs that a registered struct keeps are those of the registry. -/
theorem Registry.find (hreg : Registry typeRegistry) {name : Str} {s : List Field × Structs}
    (hs : typeRegistry.find name = some s) :
    Agree s.2 typeRegistry ∧ Covers s.2 (s.1.map Field.type) := by
  induction hreg generalizing name s with
  | empty => cases hs
  | @struct typeRegistry typeRegistry' data _ hstruct ih =>
    obtain ⟨new,fields,structs,rfl,hnew,hagree,hcovers⟩ := struct_ok hstruct
    -- a name that is found before is not the new one
    have hold {usedStructs : Structs} (h : Agree usedStructs typeRegistry) :
        Agree usedStructs (.cons new fields structs typeRegistry) := by
      intro type t ht
      have hne : new ≠ type := by
        rintro rfl
        rw [h new t ht] at hnew
        cases hnew
      exact (if_neg hne).trans (h type t ht)
    rw [Structs.find] at hs
    split_ifs at hs with hname
    · obtain rfl := Option.some.inj hs
      exact ⟨hold hagree,hcovers⟩
    · obtain ⟨h,hcov⟩ := ih hs
      exact ⟨hold h,hcov⟩

end Registry

section Conforms
variable {R : Runtime N} {typeRegistry structs : Structs} {type : Str} {v : Value N}

theorem HasType.conforms (hreg : Registry typeRegistry) (h : HasType R structs type v)
    (hagree : Agree structs typeRegistry) : Conforms R typeRegistry type v := by
  induction h with
  | int x h => exact .int x h
  | double x => exact .double x
  | char s h => exact .char s h
  | string s => exact .string s
  | struct data hname hfind _ ih =>
    have hs := hagree _ _ hfind
    exact .struct data hname hs fun v hv hne => ih v hv hne (hreg.find hs).1

theorem Conforms.hasType (hreg : Registry typeRegistry) (h : Conforms R typeRegistry type v) :
    HasType R typeRegistry type v := by
  induction h with
  | int x h => exact .int x h
  | double x => exact .double x
  | char s h => exact .char s h
  | string s => exact .string s
  | @struct name fields structs data hname hfind _ ih =>
    obtain ⟨hagree,hcovers⟩ := hreg.find hfind
    refine .struct data hname hfind fun v hv hne => ?_
    cases hcovers v.type (List.mem_map_of_mem hv) with
    | inl hprimitive =>
      exact (typeStr_eq_iff hprimitive _).mp ((typeStr_eq_iff hprimitive _).mpr (ih v hv hne))
    | inr hfound =>
      obtain ⟨s,hs⟩ := Option.isSome_iff_exists.mp hfound
      refine (ih v hv hne).of_find fun t ht => ?_
      rw [hs,← hagree _ s hs,ht]

theorem hasType_iff_conforms (hreg : Registry typeRegistry) :
    HasType R typeRegistry type v ↔ Conforms R typeRegistry type v :=
  ⟨fun h => h.conforms hreg fun _ _ hs => hs,fun h => h.hasType hreg⟩

end Conforms

section Params
variable (R : Runtime N)

/-- As many values as there are arguments that are not `out`, and each of its type. -/
def Accepted (typeRegistry : Structs) (m : Method) (params : List (Value N)) : Prop :=
  R.border params = (inTypes (m.args.getD [])).length ∧
    List.Forall₂ (Conforms R typeRegistry) (inTypes (m.args.getD [])) (params.take (R.border params))

variable {R}

theorem eq_of_processParams {args : Option (List Arg)} {params values : List (Value N)} {idl : Interface}
    (h : processParams R args params idl = some (.ok values)) : values = params := by
  obtain ⟨idlParams,-,h⟩ := Option.map_eq_some_iff.mp h
  split_ifs at h
  split at h
  · cases h
  · exact (Except.ok.inj h).symm

theorem processParams_ok_iff {typeRegistry : Structs} {interfaceRegistry : List Interface}
    {data : InterfaceData} {idl : Interface} {methodName : Str} {m : Method} {args : List Arg}
    (hreg : Registry typeRegistry) (h : interface typeRegistry interfaceRegistry data = .ok idl)
    (hm : idl.find methodName = some m) (hargs : m.args = some args) (params values : List (Value N)) :
    processParams R m.args params idl = some (.ok values) ↔
      values = params ∧ Accepted R typeRegistry m params := by
  rw [Accepted,hargs,Option.getD_some,← hargs,
    ← forall₂_congr fun type _ v => hasType_iff_conforms hreg]
  constructor
  · intro hok
    obtain rfl := eq_of_processParams hok
    have hall := (processParams_iff h hm hargs values).mp hok
    have hlen := hall.length_eq
    rw [List.length_take,Nat.min_eq_left (R.isBorder values).1] at hlen
    exact ⟨rfl,hlen.symm,hall⟩
  · rintro ⟨rfl,-,hall⟩
    exact (processParams_iff h hm hargs values).mpr hall

/-- What is accepted is what the declaration asks for, and is passed on as it is, except where a method
is declared without a list of arguments: there `ipairs(nil)` raises an error for no values, too. -/
theorem processParams_accepts_iff {typeRegistry : Structs} {interfaceRegistry : List Interface}
    {data : InterfaceData} {idl : Interface} {methodName : Str} {m : Method}
    (hreg : Registry typeRegistry) (h : interface typeRegistry interfaceRegistry data = .ok idl)
    (hm : idl.find methodName = some m) (params : List (Value N)) :
    (∀ values, processParams R m.args params idl = some (.ok values) ↔
        values = params ∧ Accepted R typeRegistry m params) ↔
      m.args ≠ none ∨ R.border params ≠ 0 := by
  cases hargs : m.args with
  | some args =>
    refine iff_of_true (fun values => ?_) (.inl (Option.some_ne_none _))
    rw [← hargs]
    exact processParams_ok_iff hreg h hm hargs params values
  | none =>
    have hnone (values : List (Value N)) : processParams R none params idl ≠ some (.ok values) :=
      fun hok => by cases hok
    have haccepted : Accepted R typeRegistry m params ↔ R.border params = 0 := by
      rw [Accepted,hargs]
      refine ⟨fun hacc => hacc.1,fun hzero => ⟨hzero,?_⟩⟩
      rw [hzero]
      exact .nil
    constructor
    · intro hall
      refine .inr fun hzero => hnone params ?_
      exact (hall params).mpr ⟨rfl,haccepted.mpr hzero⟩
    · rintro (hne | hne) values
      · exact absurd rfl hne
      · exact iff_of_false (hnone values) fun hacc => hne (haccepted.mp hacc.2)

def addressFields : List Field := [⟨['z','i','p'],['i','n','t']⟩]

def personFields : List Field := [⟨['n'],['s','t','r','i','n','g']⟩,⟨['h'],['a']⟩]

def addresses : Structs := .cons ['a'] addressFields .nil .nil

def persons : Structs := .cons ['p'] personFields addresses addresses

theorem registry_persons : Registry persons :=
  .struct
    (.struct .empty (show struct .nil ⟨some ['a'],some addressFields⟩ = .ok addresses from rfl))
    (show struct addresses ⟨some ['p'],some personFields⟩ = .ok persons from rfl)

/-- A person and a number, and a text to give back. -/
def personArgs : List Arg :=
  [⟨directionIn,['p']⟩,⟨directionOut,['s','t','r','i','n','g']⟩,
    ⟨directionIn,['d','o','u','b','l','e']⟩]

def withPerson : Interface :=
  let used := .cons ['p'] personFields addresses .nil
  ⟨['i'],[(['f'],⟨void,some personArgs,used⟩)],used⟩

theorem interface_withPerson :
    interface persons [] ⟨some ['i'],some [(['f'],⟨some void,some personArgs⟩)]⟩ =
      .ok withPerson := rfl

def personParams : List (Value ℕ) :=
  [.table [(.string ['n'],.string ['B','o']),
      (.string ['h'],.table [(.string ['z','i','p'],.number 7)])],
    .number 3]

theorem processParams_accepts_iff_person : ∃ m, withPerson.find ['f'] = some m ∧
    processParams integers m.args personParams withPerson = some (.ok personParams) ∧
    Accepted integers persons m personParams := by
  have hm : withPerson.find ['f'] =
      some ⟨void,some personArgs,.cons ['p'] personFields addresses .nil⟩ := rfl
  have hok : processParams integers (some personArgs) personParams withPerson =
      some (.ok personParams) := rfl
  have hall := (processParams_accepts_iff (R := integers) registry_persons interface_withPerson hm
    personParams).mpr (.inl nofun)
  exact ⟨_,hm,hok,((hall personParams).mp hok).2⟩

/-- An interface with the one method `f`, which is declared without a list of arguments. -/
def withoutArgs : InterfaceData := ⟨some ['i'],some [(['f'],⟨some void,none⟩)]⟩

theorem not_processParams_withoutArgs : ¬ ∀ (typeRegistry : Structs) (interfaceRegistry : List Interface)
    (data : InterfaceData) (idl : Interface) (methodName : Str) (m : Method), Registry typeRegistry →
      interface typeRegistry interfaceRegistry data = .ok idl → idl.find methodName = some m →
        ∀ params values : List (Value ℕ), processParams integers m.args params idl = some (.ok values) ↔
          values = params ∧ Accepted integers typeRegistry m params := by
  intro hall
  have h := (hall .nil [] withoutArgs ⟨['i'],[(['f'],⟨void,none,.nil⟩)],.nil⟩ ['f'] _ .empty rfl rfl
    [] []).mpr ⟨rfl,rfl,.nil⟩
  cases h

end Params
end PucRio.TypedRpc
