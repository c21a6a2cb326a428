import PucRio.Lib.TransitionSystem
import Mathlib.Algebra.Order.Group.Defs
import Mathlib.Data.List.Sort
import Mathlib.Logic.Function.Basic

/-! The loop of `waitIncoming` and the coroutines that it resumes. They come into being with a
connection; what one does between two calls of this module is left open. Times are numbers of
seconds, and the clock may say anything whenever it is read. -/
namespace PucRio.RaftRpc.Scheduler

/-! Coroutines and sockets are numbered in the order in which they are made. -/

abbrev Co := ℕ

abbrev Socket := ℕ

abbrev Stub := ℕ

/-- A suspended coroutine is in `wait`, or in a call through a stub. -/
inductive Status (τ : Type)
  | running
  | waiting (wakeup : τ)
  | calling (proxy_stub : Stub)
  | dead
  deriving DecidableEq, Repr

/-- Where the loop goes on when the coroutine stops that it has resumed. -/
inductive Back (τ : Type)
  | accepted (recvt : List Socket)
  | client (sckt : Socket) (recvt : List Socket)
  | timeout (wakeup : τ)
  deriving DecidableEq, Repr

/-- Where control is. `main` is the program before it calls `waitIncoming`. In `select` there is the
clock as it was read. -/
inductive Control (τ : Type)
  | main
  | top
  | select (now : τ) (nextTimeout : Option τ)
  | events (recvt : List Socket)
  | timeout (wakeup : τ)
  | resumed (co : Co) (back : Back τ)
  deriving DecidableEq, Repr

structure State (τ : Type) where
  servants_lst : List Socket
  sockets_lst : List Socket
  coroutines_by_socket : Socket → Option Co
  coroutines_by_wakeup : τ → List Co
  wakeup_times : List τ
  conn : Stub → Option Socket
  sockets : ℕ
  status : List (Status τ)
  control : Control τ

/-- What happens next. The clock is read by `clock` and `wait`; `ready` and `timedOut` are the answers
of `select`; `next` is what the loop does by itself. -/
inductive Action (τ : Type)
  | createServant
  | call (proxy_stub : Stub)
  | wait (now timeToWait : τ)
  | finish
  | waitIncoming
  | clock (now : τ)
  | ready (recvt : List Socket)
  | timedOut
  | next
  deriving DecidableEq, Repr

section Tables
variable {τ : Type} [LinearOrder τ]

def initial : State τ where
  servants_lst := []
  sockets_lst := []
  coroutines_by_socket _ := none
  coroutines_by_wakeup _ := []
  wakeup_times := []
  conn _ := none
  sockets := 0
  status := []
  control := .main

/-- The coroutines of a list from the first one on that is not dead. -/
def living (status : List (Status τ)) (coList : List Co) : List Co :=
  coList.dropWhile fun co => status[co]? = some .dead

namespace State
variable (s : State τ)

def createServant : State τ :=
  { s with
    servants_lst := s.servants_lst++[s.sockets]
    sockets_lst := s.sockets_lst++[s.sockets]
    sockets := s.sockets+1 }

/-- The last one of the entries for a socket goes. -/
def remove_socket (sckt : Socket) : State τ :=
  { s with sockets_lst := (s.sockets_lst.reverse.erase sckt).reverse }

/-- A stub has a new connection for each call. -/
def connect (proxy_stub : Stub) : State τ :=
  { s with
    conn := Function.update s.conn proxy_stub (some s.sockets)
    sockets := s.sockets+1 }

/-- The first half of a call in a coroutine. -/
def register (sckt : Socket) (co : Co) : State τ :=
  { s with
    coroutines_by_socket := Function.update s.coroutines_by_socket sckt (some co)
    sockets_lst := s.sockets_lst++[sckt] }

/-- The second half starts with the connection that the stub has now. -/
def unregister (proxy_stub : Stub) : State τ :=
  match s.conn proxy_stub with
  | none => s
  | some sckt =>
    { s with coroutines_by_socket := Function.update s.coroutines_by_socket sckt none }

def record (wakeup : τ) (co : Co) : State τ :=
  { s with
    wakeup_times := s.wakeup_times++[wakeup]
    coroutines_by_wakeup := Function.update s.coroutines_by_wakeup wakeup
      (s.coroutines_by_wakeup wakeup++[co]) }

/-- The coroutine goes on where it was suspended. -/
def resume (co : Co) (back : Back τ) : State τ :=
  let s' := match s.status[co]? with
    | some (.calling proxy_stub) => s.unregister proxy_stub
    | _ => s
  { s' with status := s.status.set co .running, control := .resumed co back }

/-- The coroutine stops, and the loop goes on. The socket of one that is dead is removed. -/
def stop (co : Co) (back : Back τ) (status : Status τ) : State τ :=
  let s' := { s with status := s.status.set co status }
  match back with
  | .accepted recvt => { s' with control := .events recvt }
  | .client sckt recvt =>
    { (if status = .dead then s'.remove_socket sckt else s') with control := .events recvt }
  | .timeout wakeup => { s' with control := .timeout wakeup }

/-- The loop through the coroutines of a wake time, up to the next one that is resumed. -/
def resumeNext (wakeup : τ) : State τ :=
  match living s.status (s.coroutines_by_wakeup wakeup) with
  | [] =>
    { s with
      coroutines_by_wakeup := Function.update s.coroutines_by_wakeup wakeup []
      control := .top }
  | co::coList =>
    { s with coroutines_by_wakeup :=
        Function.update s.coroutines_by_wakeup wakeup coList }.resume co (.timeout wakeup)

/-- A servant has a new connection, which a new coroutine reads from. -/
def accept (recvt : List Socket) : State τ :=
  { s with
    sockets_lst := s.sockets_lst++[s.sockets]
    sockets := s.sockets+1
    status := s.status++[.running]
    control := .resumed s.status.length (.accepted recvt) }

/-- The coroutine that waits for a socket, if it is not dead. -/
def reader (sckt : Socket) : Option Co :=
  (s.coroutines_by_socket sckt).filter fun co => s.status[co]? ≠ some .dead

/-- The loop through the sockets that are ready. -/
def event : List Socket → State τ
  | [] => { s with control := .top }
  | sckt::recvt =>
    if sckt ∈ s.servants_lst then s.accept recvt
    else match s.reader sckt with
      | some co => s.resume co (.client sckt recvt)
      | none => { s.remove_socket sckt with control := .events recvt }

end State
end Tables

section Steps
variable {τ : Type} [AddCommGroup τ] [LinearOrder τ]

/-- A negative timeout never runs out. -/
def step (s : State τ) (a : Action τ) : Option (State τ) :=
  match s.control,a with
  | .main,.createServant => some s.createServant
  | .main,.call proxy_stub => some (s.connect proxy_stub)
  | .main,.waitIncoming => some { s with control := .top }
  | .resumed _ _,.createServant => some s.createServant
  | .resumed co back,.call proxy_stub =>
    some (((s.connect proxy_stub).register s.sockets co).stop co back (.calling proxy_stub))
  | .resumed co back,.wait now timeToWait =>
    some ((s.record (now+timeToWait) co).stop co back (.waiting (now+timeToWait)))
  | .resumed co back,.finish => some (s.stop co back .dead)
  | .top,.clock now =>
    let wakeup_times := s.wakeup_times.insertionSort (· ≤ ·)
    some { s with
      wakeup_times := wakeup_times
      control := .select now (wakeup_times.head?.map (· - now)) }
  | .select _ _,.ready recvt =>
    if recvt ≠ [] ∧ ∀ sckt ∈ recvt, sckt ∈ s.sockets_lst then some { s with control := .events recvt }
    else none
  | .select _ (some nextTimeout),.timedOut =>
    if 0 ≤ nextTimeout then some (match s.wakeup_times with
      | [] => { s with control := .top }
      | wakeup::wakeup_times => { s with wakeup_times := wakeup_times }.resumeNext wakeup)
    else none
  | .events recvt,.next => some (s.event recvt)
  | .timeout wakeup,.next => some (s.resumeNext wakeup)
  | _,_ => none

def scheduler : TransitionSystem (State τ) (Action τ) := ⟨initial,step⟩

/-- There is one record for each coroutine that is suspended in `wait`. -/
def State.Recorded (s : State τ) : Prop :=
  ∀ wakeup, .waiting wakeup ∈ s.status →
    s.wakeup_times.count wakeup = s.status.count (.waiting wakeup)

/-- The timeout that `select` gets. Without one it blocks. -/
def State.InTime (s : State τ) : Prop :=
  ∀ now nextTimeout, s.control = .select now nextTimeout →
    (nextTimeout = none → s.wakeup_times = []) ∧
    ∀ t, nextTimeout = some t → 0 ≤ t ∧ ∀ wakeup ∈ s.wakeup_times, now+t ≤ wakeup

/-- No wake-up is lost. -/
def State.Sound (s : State τ) : Prop := s.Recorded ∧ s.InTime

/-- The coroutine that the loop is going to resume by itself. -/
def State.due (s : State τ) : Option Co :=
  match s.control with
  | .events (sckt::_) => if sckt ∈ s.servants_lst then none else s.reader sckt
  | .timeout wakeup => (living s.status (s.coroutines_by_wakeup wakeup)).head?
  | _ => none

/-- The clock is not past what is recorded; no coroutine waits until a time that is recorded for
others that have been resumed; and where one is resumed in `wait` while its record stays, no other one
waits until the same time. -/
def Timely (s : State τ) : Action τ → Prop
  | .clock now => ∀ wakeup ∈ s.wakeup_times, now ≤ wakeup
  | .wait now timeToWait =>
    now+timeToWait ∈ s.wakeup_times → .waiting (now+timeToWait) ∈ s.status
  | .timedOut => ∀ expired co wakeup, s.wakeup_times.head? = some expired →
    (living s.status (s.coroutines_by_wakeup expired)).head? = some co →
      s.status[co]? = some (.waiting wakeup) →
        wakeup = expired ∨ s.status.count (.waiting wakeup) ≤ 1
  | .next => ∀ co wakeup, s.due = some co → s.status[co]? = some (.waiting wakeup) →
    s.status.count (.waiting wakeup) ≤ 1
  | _ => True

end Steps
end PucRio.RaftRpc.Scheduler
