import PucRio.Aquad.Aquad2

/-! The bag of tasks whose workers split what they are given: the half that a worker does not go on
with goes back to the master, which forwards it or stacks it. Widths are added exactly; `area` is
what an accepted interval adds to the total. -/
namespace PucRio.Aquad.Aquad3
variable {R : Type*} {n_cores : ℕ}

abbrev Interval := ℚ × ℚ

/-- What a worker sends, a WORKER_AVAILABLE with the interval that it is about. -/
inductive ToMaster (R : Type*)
  | WORKER_AVAILABLE (area : R) (width : ℚ) (accepted : Option Interval)
  | ADD_TASK (task : Interval)
  deriving DecidableEq, Repr

inductive FromMaster
  | EXECUTE_TASK (task : Interval)
  | NO_MORE_TASKS
  deriving DecidableEq, Repr

/-- The loop of `master` goes on, or the master has left it, or `exit` has ended the program. -/
inductive Loop
  | running
  | left
  | exited
  deriving DecidableEq, Repr

/-- `added` has what each area was of that was added to `total_area`. -/
structure Master (n_cores : ℕ) (R : Type*) where
  stack : List Interval
  total_area : R
  idle : ℕ
  progress : ℚ
  availableWorkers : Fin (n_cores-1) → ℕ
  loop : Loop
  added : List (Option Interval)

inductive Worker
  | start
  | waiting
  | running (task : Interval)
  | finished
  deriving DecidableEq, Repr

/-- A call of `curve_subarea` accepts the interval or splits it. -/
inductive Outcome
  | accept
  | split
  deriving DecidableEq, Repr

/-- What a branch of the loop leaves and what it sends. -/
abbrev Result (n_cores : ℕ) (R : Type*) :=
  Master n_cores R × List (Fin (n_cores-1) × FromMaster)

section Rules
variable [Add R] (l r : ℚ)

/-- The test at the end of the loop, and the messages to all workers behind it. -/
def atEnd (m : Master n_cores R) (sent : List (Fin (n_cores-1) × FromMaster)) : Result n_cores R :=
  if m.idle = n_cores-1 ∧ stack_is_empty m.stack = true ∧ 1 ≤ m.progress/(r-l) then
    ({ m with loop := .left },sent++(List.finRange (n_cores-1)).map (·,.NO_MORE_TASKS))
  else (m,sent)

def workerAvailable (m : Master n_cores R) (source : Fin (n_cores-1)) (area : R) (width : ℚ)
    (accepted : Option Interval) : Result n_cores R :=
  let m := { m with
    total_area := m.total_area+area
    added := m.added++[accepted]
    progress := m.progress+width
    idle := m.idle+1
    availableWorkers := Function.update m.availableWorkers source 1 }
  if stack_is_empty m.stack = true then atEnd l r m []
  else
    match stack_pop m.stack with
    | none => ({ m with loop := .exited },[])
    | some (node,stack) =>
      atEnd l r { m with
        stack := stack
        idle := m.idle-1
        availableWorkers := Function.update m.availableWorkers source 0 }
        [(source,.EXECUTE_TASK node)]

/-- The first worker whose entry is 1. -/
def nextAvailableWorker (availableWorkers : Fin (n_cores-1) → ℕ) : Option (Fin (n_cores-1)) :=
  (List.finRange (n_cores-1)).find? (availableWorkers · = 1)

def addTask (m : Master n_cores R) (task : Interval) : Result n_cores R :=
  if m.idle ≠ 0 then
    let m := { m with idle := m.idle-1 }
    match nextAvailableWorker m.availableWorkers with
    | none => ({ m with loop := .exited },[])
    | some worker => atEnd l r m [(worker,.EXECUTE_TASK task)]
  else atEnd l r { m with stack := stack_push m.stack task } []

/-- One round of the master's loop. -/
def receive (m : Master n_cores R) (source : Fin (n_cores-1)) (u : ToMaster R) :
    Option (Result n_cores R) :=
  if m.loop = .running then
    match u with
    | .WORKER_AVAILABLE area width accepted => some (workerAvailable l r m source area width accepted)
    | .ADD_TASK task => some (addTask l r m task)
  else none

variable [Zero R] (area : ℚ → ℚ → R)

/-- A worker reports, or its call of `curve_subarea` goes one step on. -/
def work : Worker → Outcome → Option (Worker × List (ToMaster R))
  | .start,_ => some (.waiting,[.WORKER_AVAILABLE 0 0 none])
  | .running (a,b),.accept =>
    some (.waiting,[.WORKER_AVAILABLE (area a b) (b-a) (some (a,b))])
  | .running (a,b),.split =>
    let m := (a+b)*(1/2)
    some (.running (a,m),[.ADD_TASK (m,b)])
  | _,_ => none

def take : Worker → FromMaster → Option Worker
  | .waiting,.EXECUTE_TASK task => some (.running task)
  | .waiting,.NO_MORE_TASKS => some .finished
  | _,_ => none

/-- The tasks of the start, one for each process. -/
def createTasks (n_cores : ℕ) : List Interval :=
  (Aquad.createTasks l r n_cores).map fun node => (node.a,node.b)

/-- `main` on `n_cores` processes. -/
def rules (n_cores : ℕ) : FarmRules (Fin (n_cores-1)) (Master n_cores R) Worker (ToMaster R)
    FromMaster Outcome where
  master := ⟨createTasks l r n_cores,0,0,0,fun _ => 1,.running,[]⟩
  worker _ := .start
  receive := receive l r
  work := work area
  take := take

end Rules
end PucRio.Aquad.Aquad3
