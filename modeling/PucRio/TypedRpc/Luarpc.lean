import PucRio.TypedRpc.Validation

/-! A request at the server and at the stub. `none` stands for an error that is raised. -/
namespace PucRio.TypedRpc
open Lua
variable {N : Type} [DecidableEq N]

structure Request (N : Type) where
  method : Option Str
  params : Option (List (Value N))

/-- What the server answers, before it is encoded. -/
inductive Reply (N : Type) where
  | error (err : Str)
  | response (method : Str) (result : List (Value N))

/-- What `json.decode` gives of an answer. -/
structure DataR (N : Type) where
  error : Value N
  result : Option (List (Value N))

/-- How a run of the implementation ends. -/
inductive Outcome (N : Type) where
  | returned (values : List (Value N))
  | raised (error : Value N)

section Params
variable (R : Runtime N)

/-- The first of the values that is not of its type; `position` begins the message. -/
def typeErrors (position : Str) (structs : Structs) : ℕ → List Str → List (Value N) → Option Str
  | _,[],_ => none
  | i,type::types,values =>
    match validateType R type (values.headD .nil) structs false with
    | some typeValidationError =>
      some (position++Nat.toDigits 10 i++"): ".toList++typeValidationError)
    | none => typeErrors position structs (i+1) types values.tail

def inTypes (idlParams : List Arg) : List Str :=
  (idlParams.filter fun varg => varg.direction ≠ directionOut).map Arg.type

def outTypes (resulttype : Str) (args : List Arg) : List Str :=
  (if resulttype ≠ void then [resulttype] else [])++
    (args.filter fun v => v.direction = directionOut).map Arg.type

def paramsError (expected actual : ℕ) : Str :=
  "expected ".toList++Nat.toDigits 10 expected++" parameters - actual=".toList++Nat.toDigits 10 actual

def processParams (idlParams : Option (List Arg)) (params : List (Value N)) (idl : Interface) :
    Option (Except Str (List (Value N))) :=
  idlParams.map fun idlParams =>
    if (inTypes idlParams).length ≠ R.border params then
      .error (paramsError (inTypes idlParams).length (R.border params))
    else
      match typeErrors R "argument error (pos=".toList idl.structs 1 (inTypes idlParams) params with
      | some err => .error err
      | none => .ok params

def responseError (expected actual : ℕ) : Str :=
  "wrong number of response params - expected ".toList++Nat.toDigits 10 expected++
    " - actual ".toList++Nat.toDigits 10 actual

/-- The two values that `validateResponseData` returns. A wrong type is told by the second of
them. -/
def validateResponseData (result : Option (List (Value N))) (methodIdl : Method) :
    Option (Option Str × Option Str) :=
  methodIdl.args.bind fun args =>
    match result with
    | none =>
      -- the length of `nil` is asked for where nothing is expected
      if 0 < (outTypes methodIdl.resulttype args).length then
        some (some (responseError (outTypes methodIdl.resulttype args).length 0),none)
      else none
    | some result =>
      if (outTypes methodIdl.resulttype args).length ≠ R.border result then
        some (some (responseError (outTypes methodIdl.resulttype args).length (R.border result)),none)
      else
        some (none,typeErrors R "response argument error (pos=".toList methodIdl.structs 1
          (outTypes methodIdl.resulttype args) result)

end Params

section Server
variable (R : Runtime N) (encode : Reply N → Option Str)
  (impl : Str → Option (List (Value N) → Outcome N)) (idl : Interface) (data : Request N)

/-- The run of the implementation that a request leads to, or the error before it. -/
def invoke : Option (Except Str (Str × Outcome N)) :=
  match data.method with
  | none => some (.error "null method".toList)
  | some method =>
    match impl method with
    | none => some (.error ("method '".toList++method++"' not found".toList))
    | some run =>
      match data.params with
      | none => some (.ok (method,run []))
      | some params => do
        let m ← idl.find method
        match ← processParams R m.args params idl with
        | .error err => some (.error err)
        | .ok params => some (.ok (method,run (params.take (R.border params))))

/-- `table.remove(t, 1)` -/
def removeFirst (t : List (Value N)) : List (Value N) :=
  (t.take (R.border t)).tail++.nil::t.drop (R.border t)

/-- What is left of `{pcall(...)}`, without the status. -/
def resultParams (values : List (Value N)) : List (Value N) := removeFirst R (.boolean true::values)

/-- A value as an operand of `..` -/
def concatText : Value N → Option Str
  | .string s => some s
  | .number x => some (R.tostring x)
  | _ => none

/-- The answer to the run of a method. -/
def answer (method : Str) : Outcome N → Option (Reply N)
  | .raised error => do
    let text ← concatText R error
    some (.error ("Server error: invalid internal response - impl exception - ".toList++text))
  | .returned values => do
    let m ← idl.find method
    let errR ← validateResponseData R (some (resultParams R values)) m
    match errR.1 with
    | some errR => some (.error ("Server error: invalid internal response - ".toList++errR))
    | none => some (.response method (resultParams R values))

/-- The answer to a request, before it is encoded. -/
def serve : Option (Reply N) := do
  match ← invoke R impl idl data with
  | .error err => some (.error ("Server error: ".toList++err))
  | .ok run => answer R idl run.1 run.2

def processJsonRequest : Option (Reply N) := do
  let reply ← serve R impl idl data
  let _ ← encode reply
  some reply

end Server

section Stub
variable (R : Runtime N) (call : Request N → Option (DataR N)) (idl : Interface) (methodName : Str)
  (params : List (Value N))

/-- A method of the proxy. `call` encodes the request, sends it, and decodes what comes back. -/
def stub : Option (List (Value N)) :=
  match idl.find methodName with
  | none => some [.string ("Method ".toList++methodName++" is undefined".toList)]
  | some v => do
    match ← processParams R v.args params idl with
    | .error err => some [.string ("Client error: ".toList++err)]
    | .ok paramList =>
      let dataR ← call ⟨some methodName,some paramList⟩
      if dataR.error.truthy then some [dataR.error]
      else
        let errR ← validateResponseData R dataR.result v
        match errR.1 with
        | some errR => some [.string errR]
        | none => dataR.result.map fun result => .nil::result.take (R.border result)

/-- What comes back to the stub, where it gets to send the request. -/
def exchange : Option (DataR N) :=
  match idl.find methodName with
  | none => none
  | some v => do
    match ← processParams R v.args params idl with
    | .error _ => none
    | .ok paramList => call ⟨some methodName,some paramList⟩

end Stub
end PucRio.TypedRpc
