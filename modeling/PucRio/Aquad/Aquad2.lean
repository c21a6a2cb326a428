import PucRio.Lib.MasterWorker
import Mathlib.Data.List.FinRange
import Mathlib.Data.Multiset.Basic
import Mathlib.Data.Rat.Defs

/-! The bag of tasks: the master hands the sub-intervals out one by one and adds up the areas that
come back. Doubles that bound an interval are rationals, and `area` is what `curve_subarea` returns
on an interval. -/
namespace PucRio.Aquad

section Stack
variable {α : Type*}

/-- `stack_data`, the top first. -/
def stack_push (stack : List α) (node : α) : List α := node::stack

def stack_pop : List α → Option (α × List α)
  | [] => none
  | node::next => some (node,next)

def stack_is_empty (stack : List α) : Bool := stack.length = 0

end Stack

/-- `stack_node`, with the number of the round that made it. -/
structure Node where
  i : ℕ
  a : ℚ
  b : ℚ
  deriving DecidableEq, Repr

def task (l r : ℚ) (n_task i : ℕ) : Node :=
  let w := (r-l)/n_task
  ⟨i,l+i*w,l+(i+1)*w⟩

def createTasks (l r : ℚ) (n_task : ℕ) : List Node :=
  (List.range n_task).foldl (fun stack i => stack_push stack (task l r n_task i)) []

theorem createTasks_eq (l r : ℚ) (n_task : ℕ) :
    createTasks l r n_task = ((List.range n_task).map (task l r n_task)).reverse := by
  have hpush (is : List ℕ) (stack : List Node) : is.foldl (fun stack i =>
      stack_push stack (task l r n_task i)) stack = (is.map (task l r n_task)).reverse++stack := by
    induction is generalizing stack with
    | nil => rfl
    | cons i is ih =>
      rw [List.foldl_cons,ih,List.map_cons,List.reverse_cons,List.append_assoc]
      rfl
  exact (hpush _ []).trans (List.append_nil _)

theorem coe_createTasks (l r : ℚ) (n_task : ℕ) : (createTasks l r n_task : Multiset Node) =
    ((List.range n_task).map (task l r n_task) : List Node) := by
  rw [createTasks_eq,Multiset.coe_reverse]

namespace Aquad2
variable {R : Type*} {n_cores : ℕ}

/-- A WORKER_AVAILABLE, with the sub-interval that its area is of; `none` at the start. -/
structure Available (R : Type*) where
  local_area : R
  node : Option Node
  deriving DecidableEq, Repr

inductive FromMaster
  | EXECUTE_TASK (node : Node)
  | NO_MORE_TASKS
  deriving DecidableEq, Repr

/-- The master between two `MPI_Recv`: `i` is the counter of its second loop, `n_cores` at its end.
`received` has the sender and the sub-interval of each area. -/
structure Master (n_cores : ℕ) (R : Type*) where
  stack : List Node
  total_area : R
  i : ℕ
  received : List (Fin (n_cores-1) × Option Node)
  deriving DecidableEq, Repr

inductive Place
  | start
  | waiting
  | running (node : Node)
  | finished
  deriving DecidableEq, Repr

structure Worker where
  place : Place
  executed : List Node
  deriving DecidableEq, Repr

section Rules
variable [Add R]

/-- Both loops of the master, and the messages to all workers behind them. -/
def receive (m : Master n_cores R) (source : Fin (n_cores-1)) (u : Available R) :
    Option (Master n_cores R × List (Fin (n_cores-1) × FromMaster)) :=
  let m' := { m with
    total_area := m.total_area+u.local_area, received := m.received++[(source,u.node)] }
  if stack_is_empty m.stack = false then
    (stack_pop m.stack).map fun r => ({ m' with stack := r.2 },[(source,.EXECUTE_TASK r.1)])
  else if m.i < n_cores then
    some ({ m' with i := m.i+1 },
      if m.i+1 = n_cores then (List.finRange (n_cores-1)).map (·,.NO_MORE_TASKS) else [])
  else none

variable [Zero R] (area : ℚ → ℚ → R)

/-- A worker sends: zero at the start, and the area it has computed. -/
def work (w : Worker) (_ : Unit) : Option (Worker × List (Available R)) :=
  match w.place with
  | .start => some ({ w with place := .waiting },[⟨0,none⟩])
  | .running node =>
    some (⟨.waiting,w.executed++[node]⟩,[⟨area node.a node.b,some node⟩])
  | _ => none

def take (w : Worker) (d : FromMaster) : Option Worker :=
  if w.place = .waiting then
    match d with
    | .EXECUTE_TASK node => some { w with place := .running node }
    | .NO_MORE_TASKS => some { w with place := .finished }
  else none

/-- `main` on `n_cores` processes. -/
def rules (n_cores n_task : ℕ) (l r : ℚ) :
    FarmRules (Fin (n_cores-1)) (Master n_cores R) Worker (Available R) FromMaster Unit where
  master := ⟨createTasks l r n_task,0,1,[]⟩
  worker _ := ⟨.start,[]⟩
  receive := receive
  work := work area
  take := take

end Rules
end Aquad2
end PucRio.Aquad
