import PucRio.Lib.Lua

/-! The registries of structs and interfaces. Where the program ends with a message, the result is
the message. -/
namespace PucRio.TypedRpc
open Lua

def primitiveTypes : List Str :=
  [['i','n','t'],['d','o','u','b','l','e'],['c','h','a','r'],['s','t','r','i','n','g']]

instance (type : Str) : Decidable (type ∈ primitiveTypes) :=
  @List.instDecidableMemOfLawfulBEq Str instBEqOfDecidableEq instLawfulBEq type primitiveTypes

def void : Str := ['v','o','i','d']

structure Field where
  name : Str
  type : Str

/-- Structs by their names: the fields, and the structs that these are of. -/
inductive Structs where
  | nil
  | cons (name : Str) (fields : List Field) (structs rest : Structs)

def Structs.find : Structs → Str → Option (List Field × Structs)
  | .nil,_ => none
  | .cons name fields structs rest,key => if name = key then some (fields,structs) else rest.find key

/-- `usedStructs[type] = typeRegistry[type]`, where the type is not primitive. -/
def use (typeRegistry usedStructs : Structs) (type : Str) : Structs :=
  if type ∈ primitiveTypes then usedStructs
  else (typeRegistry.find type).elim usedStructs fun s => .cons type s.1 s.2 usedStructs

def Recognized (typeRegistry : Structs) (type : Str) : Prop :=
  type ∈ primitiveTypes ∨ (typeRegistry.find type).isSome = true

instance (typeRegistry : Structs) (type : Str) : Decidable (Recognized typeRegistry type) :=
  inferInstanceAs (Decidable (_ ∨ _))

def useFields (typeRegistry : Structs) (name : Str) : List Field → Structs → Except Str Structs
  | [],usedStructs => .ok usedStructs
  | v::fields,usedStructs =>
    if ¬Recognized typeRegistry v.type then
      .error ("[FATAL] - Struct ".toList++name++": unrecognized type '".toList++v.type++
        "' on field '".toList++v.name++"'".toList)
    else useFields typeRegistry name fields (use typeRegistry usedStructs v.type)

structure StructData where
  name : Option Str
  fields : Option (List Field)

/-- `struct`, which registers the struct. -/
def struct (typeRegistry : Structs) (data : StructData) : Except Str Structs :=
  match data.name,data.fields with
  | none,_ => .error "[FATAL] - Null struct name".toList
  | some _,none => .error "[FATAL] - Struct cannot be empty".toList
  | some name,some fields =>
    if (typeRegistry.find name).isSome then .error ("[FATAL] - Duplicate struct ".toList++name)
    else do
      let usedStructs ← useFields typeRegistry name fields .nil
      .ok (.cons name fields usedStructs typeRegistry)

structure Arg where
  direction : Str
  type : Str

def directionIn : Str := ['i','n']

def directionOut : Str := ['o','u','t']

structure MethodData where
  resulttype : Option Str
  args : Option (List Arg)

structure Method where
  resulttype : Str
  args : Option (List Arg)
  structs : Structs

structure InterfaceData where
  name : Option Str
  methods : Option (List (Str × MethodData))

structure Interface where
  name : Str
  methods : List (Str × Method)
  structs : Structs

section Interface
variable (typeRegistry : Structs) (name : Str)

/-- The text that names a method. -/
def inMethod (k : Str) : Str :=
  "[FATAL] - Interface ".toList++name++" - method ".toList++k++": ".toList

def useArgs (k : Str) : ℕ → List Arg → Structs → Except Str Structs
  | _,[],usedStructs => .ok usedStructs
  | i,varg::args,usedStructs =>
    if varg.direction ≠ directionIn ∧ varg.direction ≠ directionOut then
      .error (inMethod name k++"unrecognized direction for positional argument ".toList++
        Nat.toDigits 10 i++" - '".toList++varg.direction++"'".toList)
    else if ¬Recognized typeRegistry varg.type then
      .error (inMethod name k++"unrecognized type for positional argument ".toList++
        Nat.toDigits 10 i++" - '".toList++varg.type++"'".toList)
    else useArgs k (i+1) args (use typeRegistry usedStructs varg.type)

/-- The methods with their result types, and the structs of all their arguments. -/
def useMethods : List (Str × MethodData) → Structs → Except Str (List (Str × MethodData × Str) × Structs)
  | [],usedStructs => .ok ([],usedStructs)
  | (k,v)::methods,usedStructs =>
    match v.resulttype with
    | none => .error (inMethod name k++"result type cannot be null".toList)
    | some resulttype =>
      if resulttype ≠ void ∧ ¬Recognized typeRegistry resulttype then
        .error (inMethod name k++"unrecognized return type '".toList++resulttype)
      else do
        let usedStructs ← useArgs typeRegistry name k 1 (v.args.getD []) usedStructs
        let (rest,usedStructs) ← useMethods methods usedStructs
        .ok ((k,v,resulttype)::rest,usedStructs)

end Interface

/-- `interface`. All methods have the same table of structs, which holds those of the arguments of
any of them; a struct that only is a result is not in it. -/
def interface (typeRegistry : Structs) (interfaceRegistry : List Interface) (data : InterfaceData) :
    Except Str Interface :=
  match data.name,data.methods with
  | none,_ => .error "[FATAL] - Null interface name".toList
  | some _,none => .error "[FATAL] - No interface methods".toList
  | some name,some methods =>
    if interfaceRegistry.any fun i => i.name = name then
      .error ("[FATAL] - Duplicate interface ".toList++name)
    else do
      let (methods,usedStructs) ← useMethods typeRegistry name methods .nil
      .ok ⟨name,methods.map fun v => (v.1,⟨v.2.2,v.2.1.args,usedStructs⟩),usedStructs⟩

def Interface.find (idl : Interface) (methodName : Str) : Option Method :=
  (idl.methods.find? fun v => v.1 = methodName).map Prod.snd

section Used
variable {typeRegistry usedStructs : Structs} {type : Str}

/-- What is in the table is as it is in the registry. -/
def Agree (usedStructs typeRegistry : Structs) : Prop :=
  ∀ type s, usedStructs.find type = some s → typeRegistry.find type = some s

/-- The structs of a list of types are in the table. -/
def Covers (usedStructs : Structs) (types : List Str) : Prop :=
  ∀ type ∈ types, Recognized usedStructs type

theorem find_use (usedStructs : Structs) (hprimitive : type ∉ primitiveTypes) {s : List Field × Structs}
    (hs : typeRegistry.find type = some s) (key : Str) :
    (use typeRegistry usedStructs type).find key = if type = key then some s else usedStructs.find key := by
  rw [use,if_neg hprimitive,hs]
  rfl

/-- A recognized type is added to the table. -/
theorem use_recognized (hrecognized : Recognized typeRegistry type) {types : List Str}
    (hagree : Agree usedStructs typeRegistry) (hcovers : Covers usedStructs types) :
    Agree (use typeRegistry usedStructs type) typeRegistry ∧
      Covers (use typeRegistry usedStructs type) (types++[type]) := by
  by_cases hprimitive : type ∈ primitiveTypes
  · rw [use,if_pos hprimitive]
    refine ⟨hagree,fun key hkey => ?_⟩
    cases List.mem_append.mp hkey with
    | inl hkey => exact hcovers key hkey
    | inr hkey => exact Or.inl (List.mem_singleton.mp hkey ▸ hprimitive)
  · obtain ⟨s,hs⟩ := Option.isSome_iff_exists.mp (hrecognized.resolve_left hprimitive)
    have hfind := find_use usedStructs hprimitive hs
    constructor
    · intro key t ht
      rw [hfind] at ht
      split_ifs at ht with hkey
      · exact hkey ▸ hs.trans ht
      · exact hagree key t ht
    · intro key hkey
      by_cases htype : type = key
      · refine Or.inr ?_
        rw [hfind,if_pos htype]
        rfl
      · have hold : key ∈ types := by
          cases List.mem_append.mp hkey with
          | inl hkey => exact hkey
          | inr hkey => exact absurd (List.mem_singleton.mp hkey).symm htype
        refine (hcovers key hold).imp_right fun h => ?_
        rwa [hfind,if_neg htype]

theorem useArgs_ok {name k : Str} {args : List Arg} {i : ℕ} {types : List Str} {usedStructs' : Structs}
    (h : useArgs typeRegistry name k i args usedStructs = .ok usedStructs')
    (hagree : Agree usedStructs typeRegistry) (hcovers : Covers usedStructs types) :
    Agree usedStructs' typeRegistry ∧ Covers usedStructs' (types++args.map Arg.type) := by
  induction args generalizing i usedStructs types with
  | nil =>
    obtain rfl := Except.ok.inj h
    rw [List.map_nil,List.append_nil]
    exact ⟨hagree,hcovers⟩
  | cons varg args ih =>
    unfold useArgs at h
    split_ifs at h with hdirection hrecognized
    obtain ⟨hagree,hcovers⟩ := use_recognized hrecognized hagree hcovers
    rw [List.map_cons,List.append_cons]
    exact ih h hagree hcovers

/-- The types of a method's arguments. -/
def MethodData.types (v : MethodData) : List Str := (v.args.getD []).map Arg.type

theorem useMethods_ok {name : Str} {methods : List (Str × MethodData)} {types : List Str}
    {methods' : List (Str × MethodData × Str)} {usedStructs' : Structs}
    (h : useMethods typeRegistry name methods usedStructs = .ok (methods',usedStructs'))
    (hagree : Agree usedStructs typeRegistry) (hcovers : Covers usedStructs types) :
    Agree usedStructs' typeRegistry ∧ Covers usedStructs' types ∧
      ∀ v ∈ methods', Covers usedStructs' v.2.1.types := by
  induction methods generalizing usedStructs types methods' usedStructs' with
  | nil =>
    obtain ⟨rfl,rfl⟩ := Prod.mk.inj (Except.ok.inj h)
    exact ⟨hagree,hcovers,fun _ hv => absurd hv List.not_mem_nil⟩
  | cons entry methods ih =>
    obtain ⟨k,v⟩ := entry
    unfold useMethods at h
    cases hresult : v.resulttype with
    | none =>
      rw [hresult] at h
      cases h
    | some resulttype =>
      rw [hresult] at h
      dsimp only at h
      split_ifs at h
      cases hargs : useArgs typeRegistry name k 1 (v.args.getD []) usedStructs with
      | error e =>
        rw [hargs] at h
        cases h
      | ok used =>
        rw [hargs] at h
        obtain ⟨hagree,hcovers⟩ := useArgs_ok hargs hagree hcovers
        cases hrest : useMethods typeRegistry name methods used with
        | error e =>
          simp only [bind,Except.bind,hrest] at h
          cases h
        | ok rest =>
          obtain ⟨rest,used'⟩ := rest
          simp only [bind,Except.bind,hrest] at h
          obtain ⟨rfl,rfl⟩ := Prod.mk.inj (Except.ok.inj h)
          obtain ⟨hagree,hcovers,hmethods⟩ := ih hrest hagree hcovers
          refine ⟨hagree,fun type ht => hcovers type (List.mem_append_left _ ht),?_⟩
          refine List.forall_mem_cons.mpr
            ⟨fun type ht => hcovers type (List.mem_append_right _ ht),hmethods⟩

/-- The methods of a registered interface find the structs of their arguments as they are
registered. -/
theorem interface_ok {interfaceRegistry : List Interface} {data : InterfaceData} {idl : Interface}
    (h : interface typeRegistry interfaceRegistry data = .ok idl) {methodName : Str} {m : Method}
    (hm : idl.find methodName = some m) :
    m.structs = idl.structs ∧ Agree idl.structs typeRegistry ∧
      ∀ args, m.args = some args → Covers idl.structs (args.map Arg.type) := by
  unfold interface at h
  cases hname : data.name with
  | none =>
    rw [hname] at h
    cases h
  | some name =>
    cases hmethods : data.methods with
    | none =>
      rw [hname,hmethods] at h
      cases h
    | some methods =>
      rw [hname,hmethods] at h
      dsimp only at h
      split_ifs at h
      cases hused : useMethods typeRegistry name methods .nil with
      | error e =>
        rw [hused] at h
        cases h
      | ok used =>
        obtain ⟨methods',usedStructs⟩ := used
        simp only [bind,Except.bind,hused] at h
        obtain rfl := Except.ok.inj h
        have hempty : Covers .nil [] := fun _ ht => absurd ht List.not_mem_nil
        obtain ⟨hagree,-,hcovers⟩ := useMethods_ok hused (fun _ _ hs => by cases hs) hempty
        obtain ⟨v,hv,rfl⟩ := Option.map_eq_some_iff.mp hm
        obtain ⟨w,hw,rfl⟩ := List.mem_map.mp (List.mem_of_find?_eq_some hv)
        refine ⟨rfl,hagree,fun args hargs => ?_⟩
        have htypes : w.2.1.types = args.map Arg.type := by
          rw [MethodData.types,show w.2.1.args = some args from hargs]
          rfl
        rw [← htypes]
        exact hcovers w hw

end Used
end PucRio.TypedRpc
