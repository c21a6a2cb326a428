import PucRio.TypedRpc.Luarpc

/-! Which results the two ends hand over. Both look at the number of values only: the message about
a wrong type is the second value of `validateResponseData`, and they look at the first. Requests are
checked as they should be. -/
namespace PucRio.TypedRpc
open Lua
variable {N : Type} [DecidableEq N]

section Requests
variable {R : Runtime N}

theorem typeErrors_iff {position : Str} {structs : Structs} {i : ℕ} {types : List Str}
    {values : List (Value N)} (hlen : types.length ≤ values.length) :
    typeErrors R position structs i types values = none ↔
      List.Forall₂ (HasType R structs) types (values.take types.length) := by
  induction types generalizing i values with
  | nil => exact ⟨fun _ => List.Forall₂.nil,fun _ => rfl⟩
  | cons type types ih =>
    cases values with
    | nil => cases hlen
    | cons v values =>
      rw [List.length_cons,List.take_succ_cons,List.forall₂_cons,
        ← @ih (i+1) values (Nat.le_of_succ_le_succ hlen),typeErrors,List.headD_cons,List.tail_cons]
      have hcheck : validateType R type v structs false = none ↔ HasType R structs type v := by
        by_cases hv : v = .nil
        · subst hv
          constructor
          · intro h
            exact absurd h (Option.some_ne_none _)
          · exact fun h => absurd h not_hasType_nil
        · exact validateType_iff hv false
      rw [← hcheck]
      cases validateType R type v structs false with
      | none => exact (and_iff_right rfl).symm
      | some err => simp

omit [DecidableEq N] in
theorem forall₂_congr {α : Type} {P Q : α → Value N → Prop} {types : List α} {values : List (Value N)}
    (h : ∀ type ∈ types, ∀ v, P type v ↔ Q type v) :
    List.Forall₂ P types values ↔ List.Forall₂ Q types values := by
  induction types generalizing values with
  | nil => rw [List.forall₂_nil_left_iff,List.forall₂_nil_left_iff]
  | cons type types ih =>
    obtain ⟨htype,htypes⟩ := List.forall_mem_cons.mp h
    cases values with
    | nil =>
      constructor
      all_goals
        intro h
        cases h
    | cons v values => rw [List.forall₂_cons,List.forall₂_cons,htype v,ih htypes]

/-- The parameters that are accepted for a method of a registered interface are those of the
declared number and types. -/
theorem processParams_iff {typeRegistry : Structs} {interfaceRegistry : List Interface}
    {data : InterfaceData} {idl : Interface}
    (h : interface typeRegistry interfaceRegistry data = .ok idl) {methodName : Str} {m : Method}
    (hm : idl.find methodName = some m) {args : List Arg} (hargs : m.args = some args)
    (params : List (Value N)) :
    processParams R m.args params idl = some (.ok params) ↔
      List.Forall₂ (HasType R typeRegistry) (inTypes args) (params.take (R.border params)) := by
  obtain ⟨-,hagree,hcovers⟩ := interface_ok h hm
  have htypes : ∀ type ∈ inTypes args, ∀ v : Value N,
      HasType R idl.structs type v ↔ HasType R typeRegistry type v := by
    intro type htype v
    have hmem : type ∈ args.map Arg.type := (List.filter_sublist.map Arg.type).mem htype
    refine ⟨fun h => h.of_find (hagree type),fun h => ?_⟩
    cases hcovers args hargs type hmem with
    | inl hprimitive => exact (typeStr_eq_iff hprimitive v).mp ((typeStr_eq_iff hprimitive v).mpr h)
    | inr hfound =>
      obtain ⟨s,hs⟩ := Option.isSome_iff_exists.mp hfound
      refine h.of_find fun t ht => ?_
      rw [hs,← hagree type s hs,ht]
  rw [← forall₂_congr htypes,processParams,hargs,Option.map_some]
  split_ifs with hlen
  · constructor
    · intro h
      cases Option.some.inj h
    · intro h
      have htake := h.length_eq
      rw [List.length_take,Nat.min_eq_left (R.isBorder params).1] at htake
      exact absurd htake hlen
  · have hlength := not_not.mp hlen
    rw [← hlength,← typeErrors_iff (hlength ▸ (R.isBorder params).1)]
    cases typeErrors R "argument error (pos=".toList idl.structs 1 (inTypes args) params with
    | none => exact ⟨fun _ => rfl,fun _ => rfl⟩
    | some err =>
      constructor
      · intro h
        cases Option.some.inj h
      · intro h
        exact absurd h (Option.some_ne_none _)

end Requests

section Results
variable (R : Runtime N) (typeRegistry : Structs) (m : Method)

/-- As many values as the method has results. -/
def SameLength (result : List (Value N)) : Prop :=
  ∃ args, m.args = some args ∧ (outTypes m.resulttype args).length = R.border result

/-- The values are of the result's type and of the types of the `out` arguments. -/
def Agrees (values : List (Value N)) : Prop :=
  ∃ args, m.args = some args ∧ List.Forall₂ (HasType R typeRegistry) (outTypes m.resulttype args) values

/-- `table.unpack(result)` -/
def handed (result : List (Value N)) : List (Value N) := result.take (R.border result)

/-- The server answers with values that agree, or with an error. -/
def ServerSound (reply : Option (Reply N)) : Prop :=
  ∀ method result, reply = some (.response method result) → Agrees R typeRegistry m (handed R result)

/-- The stub returns `nil` and values that agree, or one value that is neither `nil` nor `false`. -/
def StubSound (returned : Option (List (Value N))) : Prop :=
  ∀ l, returned = some l → (∃ values, l = .nil::values ∧ Agrees R typeRegistry m values) ∨
    ∃ e : Value N, l = [e] ∧ e.truthy = true

variable {R m}

theorem passes_iff {result : List (Value N)} :
    (∃ e, validateResponseData R (some result) m = some (none,e)) ↔ SameLength R m result := by
  unfold validateResponseData SameLength
  cases m.args with
  | none =>
    constructor
    · rintro ⟨e,he⟩
      cases he
    · rintro ⟨args,hargs,-⟩
      cases hargs
  | some args =>
    rw [Option.bind_some]
    dsimp only
    split_ifs with hlen
    · constructor
      · rintro ⟨e,he⟩
        exact absurd (congrArg (Option.map Prod.fst) he) (by simp)
      · rintro ⟨args',hargs,h⟩
        exact absurd (Option.some.inj hargs ▸ h) hlen
    · exact ⟨fun _ => ⟨args,rfl,not_not.mp hlen⟩,fun _ => ⟨_,rfl⟩⟩

section Server
variable {encode : Reply N → Option Str} {impl : Str → Option (List (Value N) → Outcome N)}
  {idl : Interface} {data : Request N} {methodName : Str}

theorem method_of_invoke {method : Str} {outcome : Outcome N}
    (h : invoke R impl idl data = some (.ok (method,outcome))) : data.method = some method := by
  unfold invoke at h
  cases hmethod : data.method with
  | none =>
    rw [hmethod] at h
    cases Option.some.inj h
  | some name =>
    rw [hmethod] at h
    dsimp only at h
    cases himpl : impl name with
    | none =>
      rw [himpl] at h
      cases Option.some.inj h
    | some run =>
      rw [himpl] at h
      dsimp only at h
      cases hparams : data.params with
      | none =>
        rw [hparams] at h
        obtain ⟨rfl,-⟩ := Prod.mk.inj (Except.ok.inj (Option.some.inj h))
        rfl
      | some params =>
        rw [hparams] at h
        obtain ⟨m,-,h⟩ := Option.bind_eq_some_iff.mp h
        obtain ⟨checked,-,h⟩ := Option.bind_eq_some_iff.mp h
        cases checked with
        | error err => cases Option.some.inj h
        | ok params =>
          obtain ⟨rfl,-⟩ := Prod.mk.inj (Except.ok.inj (Option.some.inj h))
          rfl

/-- A run that returns is answered by its values exactly where there are as many as declared. -/
theorem answer_returned (hm : idl.find methodName = some m) (values : List (Value N))
    {method : Str} {result : List (Value N)} :
    answer R idl methodName (.returned values) = some (.response method result) ↔
      SameLength R m (resultParams R values) ∧ method = methodName ∧ result = resultParams R values := by
  rw [← passes_iff,answer,hm]
  simp only [Option.bind_eq_bind,Option.bind_some]
  cases validateResponseData R (some (resultParams R values)) m with
  | none =>
    constructor
    · intro h
      cases h
    · rintro ⟨⟨e,he⟩,-⟩
      cases he
  | some checked =>
    obtain ⟨errR,e⟩ := checked
    cases errR with
    | some errR =>
      constructor
      · intro h
        cases Option.some.inj h
      · rintro ⟨⟨e',he⟩,-⟩
        cases Option.some.inj he
    | none =>
      constructor
      · intro h
        obtain ⟨rfl,rfl⟩ := Reply.response.inj (Option.some.inj h)
        exact ⟨⟨e,rfl⟩,rfl,rfl⟩
      · rintro ⟨-,rfl,rfl⟩
        rfl

theorem answer_raised (error : Value N) {method : Str} {result : List (Value N)} :
    answer R idl methodName (.raised error) ≠ some (.response method result) := by
  intro h
  obtain ⟨text,-,h⟩ := Option.bind_eq_some_iff.mp h
  cases Option.some.inj h

/-- The server hands over whatever has the right number of values and can be encoded. -/
theorem response_iff (hm : idl.find methodName = some m) (hdata : data.method = some methodName)
    {method : Str} {result : List (Value N)} :
    processJsonRequest R encode impl idl data = some (.response method result) ↔
      ∃ values, invoke R impl idl data = some (.ok (methodName,.returned values)) ∧
        encode (.response methodName (resultParams R values)) ≠ none ∧
          SameLength R m (resultParams R values) ∧ method = methodName ∧
            result = resultParams R values := by
  constructor
  · intro h
    obtain ⟨reply,hreply,h⟩ := Option.bind_eq_some_iff.mp h
    obtain ⟨line,hline,h⟩ := Option.bind_eq_some_iff.mp h
    obtain rfl := Option.some.inj h
    obtain ⟨run,hrun,hreply⟩ := Option.bind_eq_some_iff.mp hreply
    cases run with
    | error err => cases Option.some.inj hreply
    | ok run =>
      obtain ⟨method',outcome⟩ := run
      obtain rfl : methodName = method' := Option.some.inj (hdata.symm.trans (method_of_invoke hrun))
      cases outcome with
      | raised error => exact absurd hreply (answer_raised error)
      | returned values =>
        obtain ⟨hlen,rfl,rfl⟩ := (answer_returned hm values).mp hreply
        refine ⟨values,hrun,?_,hlen,rfl,rfl⟩
        rw [hline]
        exact Option.some_ne_none line
  · rintro ⟨values,hrun,hencode,hlen,rfl,rfl⟩
    obtain ⟨line,hline⟩ := Option.ne_none_iff_exists'.mp hencode
    have hanswer := (answer_returned hm values).mpr ⟨hlen,rfl,rfl⟩
    rw [processJsonRequest,serve,hrun]
    simp only [Option.bind_eq_bind,Option.bind_some,hanswer,hline]

end Server

section Stub
variable {call : Request N → Option (DataR N)} {idl : Interface} {methodName : Str}
  {params : List (Value N)}

/-- What a stub returns is one error value, or what came back with the right number of values. -/
theorem stub_iff (hm : idl.find methodName = some m) {l : List (Value N)}
    (h : stub R call idl methodName params = some l) :
    (∃ e : Value N, l = [e] ∧ e.truthy = true) ∨ ∃ dataR result,
      exchange R call idl methodName params = some dataR ∧ dataR.error.truthy = false ∧
        dataR.result = some result ∧ SameLength R m result ∧ l = .nil::handed R result := by
  rw [stub,hm] at h
  obtain ⟨checked,hchecked,h⟩ := Option.bind_eq_some_iff.mp h
  cases checked with
  | error err => exact Or.inl ⟨_,(Option.some.inj h).symm,rfl⟩
  | ok paramList =>
    obtain ⟨dataR,hdataR,h⟩ := Option.bind_eq_some_iff.mp h
    split_ifs at h with herror
    · exact Or.inl ⟨_,(Option.some.inj h).symm,herror⟩
    · obtain ⟨errR,herrR,h⟩ := Option.bind_eq_some_iff.mp h
      obtain ⟨errR,e⟩ := errR
      cases errR with
      | some errR => exact Or.inl ⟨_,(Option.some.inj h).symm,rfl⟩
      | none =>
        obtain ⟨result,hresult,rfl⟩ := Option.map_eq_some_iff.mp h
        rw [hresult] at herrR
        refine Or.inr ⟨dataR,result,?_,Bool.eq_false_iff.mpr herror,hresult,passes_iff.mp ⟨e,herrR⟩,rfl⟩
        rw [exchange,hm]
        simp only [Option.bind_eq_bind,hchecked,Option.bind_some]
        exact hdataR

theorem stub_handed (hm : idl.find methodName = some m) {dataR : DataR N}
    (h : exchange R call idl methodName params = some dataR) (herror : dataR.error.truthy = false)
    {result : List (Value N)} (hresult : dataR.result = some result) (hlen : SameLength R m result) :
    stub R call idl methodName params = some (.nil::handed R result) := by
  obtain ⟨e,he⟩ := passes_iff.mpr hlen
  rw [exchange,hm] at h
  obtain ⟨checked,hchecked,h⟩ := Option.bind_eq_some_iff.mp h
  cases checked with
  | error err => cases h
  | ok paramList =>
    rw [stub,hm]
    simp only [Option.bind_eq_bind,hchecked,Option.bind_some]
    have hcall : call ⟨some methodName,some paramList⟩ = some dataR := h
    rw [hcall,Option.bind_some,if_neg (Bool.eq_false_iff.mp herror),hresult,he]
    rfl

end Stub

/-- The server and the stub hand over no other values than those that agree exactly where what they
have to hand over has the wrong number of values, or agrees, or cannot be encoded. -/
theorem sound_iff (R : Runtime N) (typeRegistry : Structs) {idl : Interface} {methodName : Str}
    {m : Method} (hm : idl.find methodName = some m) :
    (∀ encode impl params, ServerSound R typeRegistry m
        (processJsonRequest R encode impl idl ⟨some methodName,params⟩) ↔
      ∀ values, invoke R impl idl ⟨some methodName,params⟩ = some (.ok (methodName,.returned values)) →
        encode (.response methodName (resultParams R values)) = none ∨
          ¬SameLength R m (resultParams R values) ∨
            Agrees R typeRegistry m (handed R (resultParams R values))) ∧
    ∀ call params, StubSound R typeRegistry m (stub R call idl methodName params) ↔
      ∀ dataR, exchange R call idl methodName params = some dataR → dataR.error.truthy = false →
        ∀ result, dataR.result = some result →
          ¬SameLength R m result ∨ Agrees R typeRegistry m (handed R result) := by
  constructor
  · intro encode impl params
    constructor
    · intro hsound values hrun
      by_contra hbad
      obtain ⟨hencode,hbad⟩ := not_or.mp hbad
      obtain ⟨hlen,hagrees⟩ := not_or.mp hbad
      refine hagrees (hsound methodName _ ((response_iff hm rfl).mpr ?_))
      exact ⟨values,hrun,hencode,not_not.mp hlen,rfl,rfl⟩
    · intro h method result hreply
      obtain ⟨values,hrun,hencode,hlen,-,rfl⟩ := (response_iff hm rfl).mp hreply
      exact ((h values hrun).resolve_left hencode).resolve_left (not_not.mpr hlen)
  · intro call params
    constructor
    · intro hsound dataR hdataR herror result hresult
      by_contra hbad
      obtain ⟨hlen,hagrees⟩ := not_or.mp hbad
      have hstub := stub_handed hm hdataR herror hresult (not_not.mp hlen)
      cases hsound _ hstub with
      | inl hvalues =>
        obtain ⟨values,heq,h⟩ := hvalues
        obtain rfl := (List.cons.inj heq).2
        exact hagrees h
      | inr herr =>
        obtain ⟨e,heq,he⟩ := herr
        obtain rfl := (List.cons.inj heq).1
        cases he
    · intro h l hl
      cases stub_iff hm hl with
      | inl herr => exact Or.inr herr
      | inr hvalues =>
        obtain ⟨dataR,result,hdataR,herror,hresult,hlen,rfl⟩ := hvalues
        exact Or.inl ⟨_,rfl,(h dataR hdataR herror result hresult).resolve_left (not_not.mpr hlen)⟩

end Results

/-- Numbers that are integers. -/
def integers : Runtime ℕ where
  isIntegral _ := true
  tostring n := Nat.toDigits 10 n
  border l := (l.takeWhile fun v => !v.isNil).length
  isBorder := isBorder_takeWhile

/-- An interface with the one method `f`, which gives an `int`. -/
def oneMethod : InterfaceData :=
  ⟨some ['i'],some [(['f'],⟨some ['i','n','t'],some []⟩)]⟩

def registered : Interface := ⟨['i'],[(['f'],⟨['i','n','t'],some [],.nil⟩)],.nil⟩

theorem sound_iff_registered :
    ServerSound integers .nil ⟨['i','n','t'],some [],.nil⟩
        (processJsonRequest integers (fun _ => some []) (fun _ => some fun _ => .returned [.number 3])
          registered ⟨some ['f'],none⟩) ∧
      StubSound integers .nil ⟨['i','n','t'],some [],.nil⟩
        (stub integers (fun _ => some ⟨.nil,some [.number 3]⟩) registered ['f'] []) := by
  have hagrees : Agrees integers .nil ⟨['i','n','t'],some [],.nil⟩ [.number 3] :=
    ⟨[],rfl,List.Forall₂.cons (.int 3 rfl) List.Forall₂.nil⟩
  obtain ⟨hserver,hstub⟩ := sound_iff integers .nil (show registered.find ['f'] = some _ from rfl)
  constructor
  · refine (hserver _ _ _).mpr fun values hrun => Or.inr (Or.inr ?_)
    obtain ⟨-,hvalues⟩ := Prod.mk.inj (Except.ok.inj (Option.some.inj hrun))
    obtain rfl := Outcome.returned.inj hvalues
    exact hagrees
  · refine (hstub _ _).mpr fun dataR hdataR _ result hresult => Or.inr ?_
    obtain rfl := Option.some.inj hdataR
    obtain rfl := Option.some.inj hresult
    exact hagrees

/-- A string is handed over where an `int` is declared, at the server and at the stub. -/
theorem not_sound_registered :
    (interface .nil [] oneMethod = .ok registered ∧
      registered.find ['f'] = some ⟨['i','n','t'],some [],.nil⟩) ∧
    ¬ServerSound integers .nil ⟨['i','n','t'],some [],.nil⟩
        (processJsonRequest integers (fun _ => some [])
          (fun _ => some fun _ => .returned [.string ['a']]) registered ⟨some ['f'],none⟩) ∧
      ¬StubSound integers .nil ⟨['i','n','t'],some [],.nil⟩
        (stub integers (fun _ => some ⟨.nil,some [.string ['a']]⟩) registered ['f'] []) := by
  have hnot : ¬Agrees integers .nil ⟨['i','n','t'],some [],.nil⟩ [.string ['a']] := by
    rintro ⟨args,hargs,h⟩
    obtain rfl := Option.some.inj hargs
    cases h with
    | cons hvalue h => cases hvalue
  refine ⟨⟨rfl,rfl⟩,fun hsound => hnot (hsound ['f'] _ rfl),fun hsound => ?_⟩
  cases hsound _ rfl with
  | inl hvalues =>
    obtain ⟨values,heq,h⟩ := hvalues
    obtain rfl := (List.cons.inj heq).2
    exact hnot h
  | inr herr =>
    obtain ⟨e,heq,he⟩ := herr
    obtain rfl := (List.cons.inj heq).1
    cases he

end PucRio.TypedRpc
