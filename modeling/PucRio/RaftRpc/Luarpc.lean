import PucRio.RaftRpc.Marshalling

/-! A call through a stub. `none` stands for an error that is raised, on either side, and for a
request that the server goes on waiting for the end of. -/
namespace PucRio.RaftRpc
open Lua Text
variable {N : Type}

/-- How a run of the implementation ends. -/
inductive Outcome (N : Type) where
  | returned (values : List (Value N))
  | raised (error : Value N)

/-- `table.pack(pcall(implFunc, ...))` -/
def pcall : Outcome N → List (Value N)
  | .returned values => .boolean true::values
  | .raised error => [.boolean false,error]

structure Servant (N : Type) where
  obj : Str → Option (List (Value N) → Outcome N)
  fields : List Str

/-- What `receive` gives: the lines that have an end, without their carriage returns. -/
def received (s : Str) : List Str := (lines '\n' s).map (·.filter (· != '\r'))

/-- The server waits for the line `-fim-`. -/
def requestRaw : List Str → Option (List Str)
  | [] => none
  | msg::msgs => if msg = fim then some [] else (requestRaw msgs).map (msg::·)

/-- The client also stops where the connection is closed. -/
def returns : List Str → List Str
  | [] => []
  | ack::acks => if ack = fim then [] else ack::returns acks

def error_msg (func_name : Str) : Str :=
  "___ERRORPC: Server attempt to call unkown method '".toList++func_name++"'.\n".toList++
    "Check server.lua files to see if it's object contains this method".toList

structure Validation (N : Type) where
  isValid : Bool
  params : List (Value N)
  reasons : Str

section Call
variable [DecidableEq N] (R : Runtime N) (validate_client : Str → List (Value N) → Option (Validation N))
  (fields : List Str) (servant : Servant N) (fname : Str) (params : List (Value N))

def process_request (request_msg : List Str) : Option Str := do
  let params ← unmarshalling R servant.fields request_msg.tail
  match request_msg.head?.bind servant.obj with
  | none => some (error_msg (request_msg.head?.getD ['n','i','l']))
  | some implFunc => marshalling R (pcall (implFunc params))

/-- The function `proxy_stub[fname]`. -/
def stub : Option (List (Value N)) := do
  let checked ← validate_client fname params
  if !checked.isValid && 0 < checked.reasons.length then
    some [.string ("[ERROR]: Invalid request. Reason: \n".toList++checked.reasons)]
  else do
    let msg ← create_protocol_msg R fname checked.params
    let request_raw ← requestRaw (received msg)
    let result ← process_request R servant request_raw
    unmarshalling R fields (returns (received result))

/-- What comes back of an outcome. -/
def results (outcome : Outcome N) : Option (List (Value N)) := do
  let result ← marshalling R (pcall outcome)
  unmarshalling R fields (returns (received result))

end Call

theorem received_line {line s : Str} (h : ∀ c ∈ line, isBreak c = false) :
    received (line++ '\n'::s) = line::received s := by
  have hbreak : ∀ c ∈ line, c ≠ '\n' ∧ c ≠ '\r' := by
    intro c hc
    simpa [isBreak] using h c hc
  rw [received,lines_append fun hmem => (hbreak _ hmem).1 rfl,List.map_cons]
  refine congrArg (·::_) (List.filter_eq_self.mpr fun c hc => ?_)
  exact bne_iff_ne.mpr (hbreak c hc).2

@[simp] theorem received_nil : received [] = [] := rfl

theorem isBreak_of_mem_received {s line : Str} (h : line ∈ received s) :
    ∀ c ∈ line, isBreak c = false := by
  obtain ⟨l,hl,rfl⟩ := List.mem_map.mp h
  intro c hc
  obtain ⟨hmem,hcr⟩ := List.mem_filter.mp hc
  have hlf := (of_mem_lines hl c hmem).2
  simpa [isBreak] using ⟨hlf,bne_iff_ne.mp hcr⟩

theorem mem_of_mem_returns {acks : List Str} {line : Str} (h : line ∈ returns acks) :
    line ∈ acks := by
  induction acks with
  | nil => exact h
  | cons ack acks ih =>
    rw [returns] at h
    split_ifs at h with hfim
    · cases h
    · cases h with
      | head => exact List.mem_cons_self
      | tail _ h => exact List.mem_cons_of_mem _ (ih h)

theorem returns_cons {ack : Str} {acks : List Str} (h : ack ≠ fim) :
    returns (ack::acks) = ack::returns acks := if_neg h

end PucRio.RaftRpc
