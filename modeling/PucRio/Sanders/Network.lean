import PucRio.Lib.Mailbox
import PucRio.Lib.TransitionSystem
import Mathlib.Data.Fintype.Card
import Mathlib.Data.List.Sort
import Mathlib.Tactic.SplitIfs

/-! The automaton of `SandersNode`, its fields and its handlers, and all nodes with one first-in
first-out channel for each ordered pair of them. A handler returns the new fields and the messages
it hands to `sendMessage`; whether a message leaves through a timer is not kept, since channels are
taken to be first-in first-out from that call on. -/
namespace PucRio.Sanders
variable {n : ℕ}

structure ProcessingRequest (n : ℕ) where
  sender : Fin n
  ts : ℕ
  deriving DecidableEq, Repr

/-- `compareTo` is not positive: by timestamp, then by the sender's id. -/
def ProcessingRequest.le (a b : ProcessingRequest n) : Prop :=
  a.ts < b.ts ∨ a.ts = b.ts ∧ a.sender ≤ b.sender

instance : DecidableRel (ProcessingRequest.le (n := n)) :=
  fun a b => inferInstanceAs (Decidable (a.ts < b.ts ∨ a.ts = b.ts ∧ a.sender ≤ b.sender))

inductive Message
  | reqTs (ts : ℕ)
  | yes
  | inqTs (inqTS : ℕ)
  | relinquish
  | release
  deriving DecidableEq, Repr

/-- The state section of the class. `cand` is `none` for `null`; `enterTimers` counts the started
`EnterCSLoopTimer`s; the queue is kept in the order of `compareTo`. -/
structure Node (n : ℕ) where
  inCS : Bool := false
  curTS : ℕ := 0
  myTS : ℕ := 0
  yesVotes : ℤ := 0
  hasVoted : Bool := false
  cand : Option (Fin n) := none
  candTS : ℕ := 0
  inquired : Bool := false
  deferredQ : List (ProcessingRequest n) := []
  requestedCS : Bool := false
  enterTimers : ℕ := 0
  deriving Repr

abbrev Sent (n : ℕ) := List (Fin n × Message)

/-- `deferredQ.add`. -/
def add (r : ProcessingRequest n) (q : List (ProcessingRequest n)) : List (ProcessingRequest n) :=
  q.orderedInsert ProcessingRequest.le r

theorem mem_add {r a : ProcessingRequest n} {q : List (ProcessingRequest n)} :
    a ∈ add r q ↔ a = r ∨ a ∈ q := by simp [add]

def handleYesMessage (s : Node n) : Node n × Sent n := ({ s with yesVotes := s.yesVotes+1 },[])

def handleReqTsMessage (s : Node n) (reqTS : ℕ) (sender : Fin n) : Node n × Sent n :=
  if !s.hasVoted then
    ({ s with cand := some sender, candTS := reqTS, hasVoted := true },[(sender,.yes)])
  else
    let s := { s with deferredQ := add ⟨sender,reqTS⟩ s.deferredQ }
    match s.cand with
    | some c =>
      if (reqTS < s.candTS ∨ reqTS = s.candTS ∧ sender < c) ∧ !s.inquired then
        ({ s with inquired := true },[(c,.inqTs s.candTS)])
      else (s,[])
    | none => (s,[])

/-- The vote goes to the request polled from the queue; with none, it is free again. -/
def passVote (s : Node n) : Node n × Sent n :=
  match s.deferredQ with
  | r::q => ({ s with cand := some r.sender, candTS := r.ts, deferredQ := q, inquired := false },
      [(r.sender,.yes)])
  | [] => ({ s with hasVoted := false, inquired := false },[])

/-- `none` where `cand` is `null`: a request without a sender cannot be answered. -/
def handleRelinquishMessage (s : Node n) : Option (Node n × Sent n) :=
  s.cand.map fun c => passVote { s with deferredQ := add ⟨c,s.candTS⟩ s.deferredQ }

def handleReleaseMessage (s : Node n) : Node n × Sent n := passVote s

def handleInqTsMessage (s : Node n) (inqTS : ℕ) (sender : Fin n) : Node n × Sent n :=
  if !s.inCS ∧ s.myTS = inqTS then
    ({ s with yesVotes := s.yesVotes-1 },[(sender,.relinquish)])
  else (s,[])

/-- The dispatch of `handleMessages` on one message. -/
def handleMessage (s : Node n) (sender : Fin n) : Message → Option (Node n × Sent n)
  | .inqTs inqTS => some (handleInqTsMessage s inqTS sender)
  | .release => some (handleReleaseMessage s)
  | .relinquish => handleRelinquishMessage s
  | .reqTs ts => some (handleReqTsMessage s ts sender)
  | .yes => some (handleYesMessage s)

/-- The members of a district, as `forall r in Si` visits them. -/
def members (coterieNodes : Finset (Fin n)) : List (Fin n) :=
  (List.finRange n).filter (· ∈ coterieNodes)

@[simp] theorem mem_members {coterieNodes : Finset (Fin n)} {i : Fin n} :
    i ∈ members coterieNodes ↔ i ∈ coterieNodes := by simp [members]

theorem nodup_members (coterieNodes : Finset (Fin n)) : (members coterieNodes).Nodup :=
  (List.nodup_finRange n).filter _

def enterCSLoop (coterieNodes : Finset (Fin n)) (s : Node n) : Node n :=
  if s.yesVotes < coterieNodes.card then { s with enterTimers := s.enterTimers+1 }
  else { s with inCS := true, requestedCS := false }

def enterCS (coterieNodes : Finset (Fin n)) (s : Node n) : Node n × Sent n :=
  if s.requestedCS ∨ s.inCS then (s,[]) else
    (enterCSLoop coterieNodes { s with requestedCS := true, myTS := s.curTS },
      (members coterieNodes).map (·,.reqTs s.curTS))

def exitCS (coterieNodes : Finset (Fin n)) (s : Node n) : Node n × Sent n :=
  ({ s with inCS := false, yesVotes := 0 },(members coterieNodes).map (·,.release))

def requestCS (coterieNodes : Finset (Fin n)) (s : Node n) : Node n × Sent n :=
  enterCS coterieNodes s

def leaveCS (coterieNodes : Finset (Fin n)) (s : Node n) : Node n × Sent n :=
  if s.inCS then exitCS coterieNodes s else (s,[])

/-- `chan j i` holds what `j` sent and `i` has not handled, oldest first. -/
structure Network (n : ℕ) where
  nodes : Fin n → Node n
  chan : Fin n → Fin n → List Message

inductive Action (n : ℕ)
  | requestCS (i : Fin n)
  | leaveCS (i : Fin n)
  /-- An `EnterCSLoopTimer` of `i` fires. -/
  | enterTimer (i : Fin n)
  /-- The end of a round at `i`: its clock advances. -/
  | postStep (i : Fin n)
  | deliver (j i : Fin n)
  deriving DecidableEq, Repr

namespace Network

def init (n : ℕ) : Network n := ⟨fun _ => {},fun _ _ => []⟩

def post (chan : Fin n → Fin n → List Message) (i : Fin n) (sent : Sent n) (a b : Fin n) :
    List Message :=
  if a = i then chan a b ++ addressedTo sent b else chan a b

/-- Node `i` has run a handler: its new fields and the messages it sent. -/
def commit (s : Network n) (i : Fin n) (r : Node n × Sent n) : Network n where
  nodes := Function.update s.nodes i r.1
  chan := post s.chan i r.2

/-- The oldest message from `j` to `i` has been taken out. -/
def take (s : Network n) (j i : Fin n) : Network n :=
  { s with chan := fun a b => if a = j ∧ b = i then (s.chan a b).tail else s.chan a b }

def step (district : Fin n → Finset (Fin n)) (s : Network n) : Action n → Option (Network n)
  | .requestCS i => some (s.commit i (requestCS (district i) (s.nodes i)))
  | .leaveCS i => some (s.commit i (leaveCS (district i) (s.nodes i)))
  | .enterTimer i =>
    let s' := s.nodes i
    if 0 < s'.enterTimers then
      some (s.commit i (enterCSLoop (district i) { s' with enterTimers := s'.enterTimers-1 },[]))
    else none
  | .postStep i => some (s.commit i ({ s.nodes i with curTS := (s.nodes i).curTS+1 },[]))
  | .deliver j i =>
    match s.chan j i with
    | [] => none
    | m::_ => (handleMessage (s.nodes i) j m).map ((s.take j i).commit i)

end Network

/-- The `SandersNode`s whose districts are given by the repository. -/
def sanders (district : Fin n → Finset (Fin n)) : TransitionSystem (Network n) (Action n) where
  init := .init n
  step := Network.step district

end PucRio.Sanders
