import PucRio.Aquad.Aquad3
import PucRio.Lib.Subdivision
import Mathlib.Algebra.Order.BigOperators.Group.List
import Mathlib.Algebra.Order.Field.Basic
import Mathlib.Algebra.Order.Ring.Rat
import Mathlib.Data.List.ReduceOption
import Mathlib.Tactic.FieldSimp
import Mathlib.Tactic.Linarith

/-! When the master leaves its loop. What a worker owes the master is what `idle` lacks, so the
master waits for nobody once all are idle; and the intervals on the stack, on their way, at work and
added up are a subdivision all along. -/
namespace PucRio.Aquad.Aquad3
variable {R : Type*} {n_cores : ℕ}

section Local
variable {l r : ℚ}

/-- The end of a round: the loop goes on, or the master leaves it and tells everybody. -/
inductive AtEnd (m : Master n_cores R) (sent : List (Fin (n_cores-1) × FromMaster)) :
    Master n_cores R → List (Fin (n_cores-1) × FromMaster) → Prop
  | goesOn : AtEnd m sent m sent
  | leaves (idle : m.idle = n_cores-1) (stack : m.stack = []) :
      AtEnd m sent { m with loop := .left }
        (sent++(List.finRange (n_cores-1)).map (·,.NO_MORE_TASKS))

theorem atEnd_cases (m : Master n_cores R) (sent : List (Fin (n_cores-1) × FromMaster)) :
    AtEnd m sent (atEnd l r m sent).1 (atEnd l r m sent).2 := by
  unfold atEnd
  split_ifs with h
  · refine .leaves h.1 (List.length_eq_zero_iff.mp ?_)
    simpa [stack_is_empty] using h.2.1
  · exact .goesOn

variable [Add R]

/-- What a round of the loop does, up to its end. -/
inductive Received (m : Master n_cores R) (source : Fin (n_cores-1)) :
    ToMaster R → Master n_cores R → List (Fin (n_cores-1) × FromMaster) → Prop
  | pops {area : R} {width : ℚ} {accepted : Option Interval} {node : Interval}
      {next : List Interval} {m' : Master n_cores R} {sent : List (Fin (n_cores-1) × FromMaster)}
      (stack : m.stack = node::next) (atEnd : AtEnd ⟨next,m.total_area+area,m.idle,m.progress+width,
        Function.update m.availableWorkers source 0,m.loop,m.added++[accepted]⟩
        [(source,.EXECUTE_TASK node)] m' sent) :
      Received m source (.WORKER_AVAILABLE area width accepted) m' sent
  | idles {area : R} {width : ℚ} {accepted : Option Interval} {m' : Master n_cores R}
      {sent : List (Fin (n_cores-1) × FromMaster)} (stack : m.stack = [])
      (atEnd : AtEnd ⟨[],m.total_area+area,m.idle+1,m.progress+width,
        Function.update m.availableWorkers source 1,m.loop,m.added++[accepted]⟩ [] m' sent) :
      Received m source (.WORKER_AVAILABLE area width accepted) m' sent
  | forwards {task : Interval} {worker : Fin (n_cores-1)} {m' : Master n_cores R}
      {sent : List (Fin (n_cores-1) × FromMaster)} (idle : m.idle ≠ 0)
      (next : nextAvailableWorker m.availableWorkers = some worker)
      (atEnd : AtEnd { m with idle := m.idle-1 } [(worker,.EXECUTE_TASK task)] m' sent) :
      Received m source (.ADD_TASK task) m' sent
  | keeps {task : Interval} {m' : Master n_cores R} {sent : List (Fin (n_cores-1) × FromMaster)}
      (idle : m.idle = 0) (atEnd : AtEnd { m with stack := task::m.stack } [] m' sent) :
      Received m source (.ADD_TASK task) m' sent
  | exits {task : Interval} (idle : m.idle ≠ 0)
      (next : nextAvailableWorker m.availableWorkers = none) :
      Received m source (.ADD_TASK task) { m with idle := m.idle-1, loop := .exited } []

theorem received_of_receive {m m' : Master n_cores R} {source : Fin (n_cores-1)} {u : ToMaster R}
    {sent : List (Fin (n_cores-1) × FromMaster)} (h : receive l r m source u = some (m',sent)) :
    m.loop = .running ∧ Received m source u m' sent := by
  unfold receive at h
  split_ifs at h with hloop
  refine ⟨hloop,?_⟩
  cases u with
  | WORKER_AVAILABLE area width accepted =>
    obtain ⟨stack,total_area,idle,progress,availableWorkers,loop,added⟩ := m
    have he := Option.some.inj h
    unfold workerAvailable at he
    cases stack with
    | nil =>
      simp only [stack_is_empty,List.length_nil,decide_true,if_true] at he
      obtain ⟨rfl,rfl⟩ := Prod.mk.inj he
      exact .idles rfl (atEnd_cases _ _)
    | cons node next =>
      simp only [stack_is_empty,List.length_cons,Nat.add_eq_zero_iff,one_ne_zero,and_false,
        decide_false,Bool.false_eq_true,if_false,stack_pop,Function.update_idem,
        Nat.add_sub_cancel] at he
      obtain ⟨rfl,rfl⟩ := Prod.mk.inj he
      exact .pops rfl (atEnd_cases _ _)
  | ADD_TASK task =>
    have he := Option.some.inj h
    unfold addTask at he
    by_cases hidle : m.idle ≠ 0
    · rw [if_pos hidle] at he
      dsimp only at he
      cases hnext : nextAvailableWorker m.availableWorkers with
      | none =>
        rw [hnext] at he
        obtain ⟨rfl,rfl⟩ := Prod.mk.inj he
        exact .exits hidle hnext
      | some worker =>
        rw [hnext] at he
        obtain ⟨rfl,rfl⟩ := Prod.mk.inj he
        exact .forwards hidle hnext (atEnd_cases _ _)
    · rw [if_neg hidle] at he
      obtain ⟨rfl,rfl⟩ := Prod.mk.inj he
      exact .keeps (not_not.mp hidle) (atEnd_cases _ _)

variable [Zero R]

/-- What a worker does by itself. -/
inductive Worked (area : ℚ → ℚ → R) : Worker → Worker → List (ToMaster R) → Prop
  | starts : Worked area .start .waiting [.WORKER_AVAILABLE 0 0 none]
  | accepts (a b : ℚ) : Worked area (.running (a,b)) .waiting
      [.WORKER_AVAILABLE (area a b) (b-a) (some (a,b))]
  | splits (a b : ℚ) : Worked area (.running (a,b)) (.running (a,(a+b)*(1/2)))
      [.ADD_TASK ((a+b)*(1/2),b)]

omit [Add R] in
theorem worked_of_work {area : ℚ → ℚ → R} {w w' : Worker} {c : Outcome} {sent : List (ToMaster R)}
    (h : work area w c = some (w',sent)) : Worked area w w' sent := by
  cases w with
  | start =>
    obtain ⟨rfl,rfl⟩ := Prod.mk.inj (Option.some.inj h)
    exact .starts
  | waiting => cases h
  | running task =>
    obtain ⟨a,b⟩ := task
    cases c with
    | accept =>
      obtain ⟨rfl,rfl⟩ := Prod.mk.inj (Option.some.inj h)
      exact .accepts a b
    | split =>
      obtain ⟨rfl,rfl⟩ := Prod.mk.inj (Option.some.inj h)
      exact .splits a b
  | finished => cases h

inductive Taken : Worker → FromMaster → Worker → Prop
  | task (task : Interval) : Taken .waiting (.EXECUTE_TASK task) (.running task)
  | noMore : Taken .waiting .NO_MORE_TASKS .finished

theorem taken_of_take {w w' : Worker} {d : FromMaster} (h : take w d = some w') : Taken w d w' := by
  cases w with
  | waiting =>
    cases d with
    | EXECUTE_TASK task =>
      obtain rfl := Option.some.inj h
      exact .task task
    | NO_MORE_TASKS =>
      obtain rfl := Option.some.inj h
      exact .noMore
  | start => cases h
  | running task => cases h
  | finished => cases h

end Local

section Weights
variable {α : Type*}

def Worker.pending : Worker → ℕ
  | .start => 1
  | .running _ => 1
  | _ => 0

def ToMaster.pending : ToMaster R → ℕ
  | .WORKER_AVAILABLE .. => 1
  | .ADD_TASK _ => 0

def FromMaster.pending : FromMaster → ℕ
  | .EXECUTE_TASK _ => 1
  | .NO_MORE_TASKS => 0

/-- The idle workers that the master counts, and the WORKER_AVAILABLE messages that will come. -/
def pending (n_cores : ℕ) (R : Type*) : Weights (Fin (n_cores-1)) (Master n_cores R) Worker
    (ToMaster R) FromMaster ℕ where
  master m := m.idle
  worker _ := Worker.pending
  up _ := ToMaster.pending
  down _ := FromMaster.pending

def Worker.task : Worker → Multiset Interval
  | .running task => {task}
  | _ => 0

def ToMaster.task : ToMaster R → Multiset Interval
  | .WORKER_AVAILABLE _ _ accepted => (accepted.toList : List Interval)
  | .ADD_TASK task => {task}

def FromMaster.task : FromMaster → Multiset Interval
  | .EXECUTE_TASK task => {task}
  | .NO_MORE_TASKS => 0

/-- All intervals, wherever they are. -/
def intervals (n_cores : ℕ) (R : Type*) : Weights (Fin (n_cores-1)) (Master n_cores R) Worker
    (ToMaster R) FromMaster (Multiset Interval) where
  master m := m.stack+(m.added.reduceOption : List Interval)
  worker _ := Worker.task
  up _ := ToMaster.task
  down _ := FromMaster.task

section AtEnd
variable {X : Type*} [AddCommMonoid X] {m m' : Master n_cores R}
  {sent sent' : List (Fin (n_cores-1) × FromMaster)}

/-- The last messages weigh nothing. -/
theorem AtEnd.weight (v : Weights (Fin (n_cores-1)) (Master n_cores R) Worker (ToMaster R)
    FromMaster X) (hloop : ∀ m loop, v.master { m with loop := loop } = v.master m)
    (hdown : ∀ i, v.down i .NO_MORE_TASKS = 0) (h : AtEnd m sent m' sent') :
    v.master m'+(sent'.map fun x => v.down x.1 x.2).sum =
      v.master m+(sent.map fun x => v.down x.1 x.2).sum := by
  cases h with
  | goesOn => rfl
  | leaves idle stack =>
    rw [hloop,List.map_append,List.sum_append,List.map_map]
    simp only [Function.comp_def,hdown]
    simp

end AtEnd

variable [Add R] [Zero R] {area : ℚ → ℚ → R} {l r : ℚ}
  {s : Farm (Fin (n_cores-1)) (Master n_cores R) Worker (ToMaster R) FromMaster}

theorem pending_moved {x y : ℕ} (hnext : ∀ i task rest, s.toMaster i = .ADD_TASK task::rest →
      s.master.idle ≠ 0 → nextAvailableWorker s.master.availableWorkers ≠ none)
    (h : (pending n_cores R).Moved (rules l r area n_cores) s x y) : x = y := by
  have hatEnd := fun (m m' : Master n_cores R) sent sent' (h : AtEnd m sent m' sent') =>
    h.weight (pending n_cores R) (fun _ _ => rfl) fun _ => rfl
  cases h with
  | receive head receive =>
    obtain ⟨hloop,hreceived⟩ := received_of_receive receive
    cases hreceived with
    | pops stack atEnd => exact (hatEnd _ _ _ _ atEnd).symm
    | idles stack atEnd => exact (hatEnd _ _ _ _ atEnd).symm
    | forwards idle next atEnd =>
      rw [hatEnd _ _ _ _ atEnd]
      change s.master.idle+0 = s.master.idle-1+1
      omega
    | keeps idle atEnd => exact (hatEnd _ _ _ _ atEnd).symm
    | exits idle next => exact absurd next (hnext _ _ _ head idle)
  | work work =>
    rename_i i c w sent
    generalize s.worker i = w₀ at work ⊢
    cases worked_of_work work with
    | starts => rfl
    | accepts a b => rfl
    | splits a b => rfl
  | take head take =>
    rename_i i d rest w
    generalize s.worker i = w₀ at take ⊢
    cases taken_of_take take with
    | task task => rfl
    | noMore => rfl

theorem intervals_moved {x y : Multiset Interval}
    (hnext : ∀ i task rest, s.toMaster i = .ADD_TASK task::rest →
      s.master.idle ≠ 0 → nextAvailableWorker s.master.availableWorkers ≠ none)
    (h : (intervals n_cores R).Moved (rules l r area n_cores) s x y) :
    x = y ∨ ∃ a b, x = {(a,b)} ∧ y = {(a,(a+b)*(1/2))}+{((a+b)*(1/2),b)} := by
  have hatEnd := fun (m m' : Master n_cores R) sent sent' (h : AtEnd m sent m' sent') =>
    h.weight (intervals n_cores R) (fun _ _ => rfl) fun _ => rfl
  have hadded (added : List (Option Interval)) (accepted : Option Interval) :
      (((added++[accepted]).reduceOption : List Interval) : Multiset Interval) =
        (added.reduceOption : List Interval)+(accepted.toList : List Interval) := by
    rw [List.reduceOption_append,← Multiset.coe_add]
    cases accepted <;> rfl
  cases h with
  | receive head receive =>
    obtain ⟨hloop,hreceived⟩ := received_of_receive receive
    left
    cases hreceived with
    | pops stack atEnd =>
      rw [hatEnd _ _ _ _ atEnd]
      simp only [intervals,stack,hadded,ToMaster.task,FromMaster.task,List.map_cons,List.map_nil,
        List.sum_cons,List.sum_nil,← Multiset.cons_coe,← Multiset.singleton_add]
      abel
    | idles stack atEnd =>
      rw [hatEnd _ _ _ _ atEnd]
      simp only [intervals,stack,hadded,ToMaster.task,List.map_nil,List.sum_nil]
      abel
    | forwards idle next atEnd =>
      rw [hatEnd _ _ _ _ atEnd]
      simp only [intervals,ToMaster.task,FromMaster.task,List.map_cons,List.map_nil,List.sum_cons,
        List.sum_nil,add_zero]
    | keeps idle atEnd =>
      rw [hatEnd _ _ _ _ atEnd]
      simp only [intervals,ToMaster.task,List.map_nil,List.sum_nil,← Multiset.cons_coe,
        ← Multiset.singleton_add]
      abel
    | exits idle next => exact absurd next (hnext _ _ _ head idle)
  | work work =>
    rename_i i c w sent
    generalize s.worker i = w₀ at work ⊢
    cases worked_of_work work with
    | starts => exact .inl rfl
    | accepts a b => exact .inl rfl
    | splits a b => exact .inr ⟨a,b,rfl,by simp [intervals,Worker.task,ToMaster.task]⟩
  | take head take =>
    rename_i i d rest w
    generalize s.worker i = w₀ at take ⊢
    left
    cases taken_of_take take with
    | task task => simp [intervals,Worker.task,FromMaster.task]
    | noMore => simp [intervals,Worker.task,FromMaster.task]

end Weights

section Rounds

theorem site_send {i : Fin (n_cores-1)} {w : Worker} {up up' : List (ToMaster R)}
    {down down' : List FromMaster}
    (hup : (up.map ToMaster.pending).sum ≤ (up'.map ToMaster.pending).sum)
    (h : (pending n_cores R).site i w up down ≠ 0) :
    (pending n_cores R).site i w up' (down++down') ≠ 0 := by
  simp only [Weights.site,pending,List.map_append,List.sum_append] at h ⊢
  omega

theorem AtEnd.availableWorkers {m m' : Master n_cores R}
    {sent sent' : List (Fin (n_cores-1) × FromMaster)} (h : AtEnd m sent m' sent') :
    m'.availableWorkers = m.availableWorkers := by
  cases h <;> rfl

theorem AtEnd.total_area {m m' : Master n_cores R}
    {sent sent' : List (Fin (n_cores-1) × FromMaster)} (h : AtEnd m sent m' sent') :
    m'.total_area = m.total_area ∧ m'.added = m.added := by
  cases h <;> exact ⟨rfl,rfl⟩

theorem AtEnd.mem {m m' : Master n_cores R} {sent sent' : List (Fin (n_cores-1) × FromMaster)}
    (h : AtEnd m sent m' sent') {x : Fin (n_cores-1) × FromMaster} (hx : x ∈ sent) : x ∈ sent' := by
  cases h with
  | goesOn => exact hx
  | leaves idle stack => exact List.mem_append_left _ hx

theorem site_ne_zero_of_execute {i : Fin (n_cores-1)} {w : Worker} {up : List (ToMaster R)}
    {down : List FromMaster} {task : Interval} (h : .EXECUTE_TASK task ∈ down) :
    (pending n_cores R).site i w up down ≠ 0 := by
  have : 1 ≤ (down.map FromMaster.pending).sum :=
    List.single_le_sum (fun _ _ => Nat.zero_le _) 1 (List.mem_map_of_mem (f := FromMaster.pending) h)
  simp only [Weights.site,pending]
  omega

/-- Unless it exits, a round leaves the loop running, or all workers idle and the stack empty. -/
theorem Received.loop {m m' : Master n_cores R} {source : Fin (n_cores-1)} {u : ToMaster R}
    {sent : List (Fin (n_cores-1) × FromMaster)} [Add R] (hrunning : m.loop = .running)
    (hnext : ∀ task, u = .ADD_TASK task → m.idle ≠ 0 →
      nextAvailableWorker m.availableWorkers ≠ none) (h : Received m source u m' sent) :
    m'.loop = .running ∨ m'.loop = .left ∧ m'.idle = n_cores-1 ∧ m'.stack = [] := by
  have hatEnd {m₀ : Master n_cores R} {sent₀ : List (Fin (n_cores-1) × FromMaster)}
      (h : AtEnd m₀ sent₀ m' sent) (hm : m₀.loop = .running) :
      m'.loop = .running ∨ m'.loop = .left ∧ m'.idle = n_cores-1 ∧ m'.stack = [] := by
    cases h with
    | goesOn => exact .inl hm
    | leaves idle stack => exact .inr ⟨rfl,idle,stack⟩
  cases h with
  | pops stack atEnd => exact hatEnd atEnd hrunning
  | idles stack atEnd => exact hatEnd atEnd hrunning
  | forwards idle next atEnd => exact hatEnd atEnd hrunning
  | keeps idle atEnd => exact hatEnd atEnd hrunning
  | exits idle next => exact absurd next (hnext _ rfl idle)

end Rounds

section Invariant
variable [Add R] [Zero R] {area : ℚ → ℚ → R} {l r : ℚ} {a : FarmAction (Fin (n_cores-1)) Outcome}
  {s t : Farm (Fin (n_cores-1)) (Master n_cores R) Worker (ToMaster R) FromMaster}

/-- The area in a message is that of the accepted interval. -/
def ToMaster.Valid (area : ℚ → ℚ → R) : ToMaster R → Prop
  | .WORKER_AVAILABLE value _ accepted => value = accepted.elim 0 fun x => area x.1 x.2
  | .ADD_TASK _ => True

/-- What the master and one worker know of each other. A worker that is not at work has reported
behind all that it split off; where it owes no report, the master has it down as available. -/
structure Contact (area : ℚ → ℚ → R) (i : Fin (n_cores-1)) (available : ℕ) (w : Worker)
    (up : List (ToMaster R)) (down : List FromMaster) : Prop where
  last : w.task = 0 → ∀ task, up.getLast? ≠ some (.ADD_TASK task)
  free : available = 1 ∨ (pending n_cores R).site i w up down ≠ 0
  valid : ∀ u ∈ up, u.Valid area

structure Inv (area : ℚ → ℚ → R)
    (s : Farm (Fin (n_cores-1)) (Master n_cores R) Worker (ToMaster R) FromMaster) : Prop where
  pending : (pending n_cores R).total s = n_cores-1
  contact : ∀ i, Contact area i (s.master.availableWorkers i) (s.worker i) (s.toMaster i)
    (s.toWorker i)
  goesOn : s.master.loop ≠ .exited
  left : s.master.loop = .left → s.master.idle = n_cores-1 ∧ s.master.stack = []
  total_area : s.master.total_area =
    s.master.added.foldl (fun total x => total+x.elim 0 fun x => area x.1 x.2) 0

theorem inv_init : Inv area (rules l r area n_cores).farm.init where
  pending := by simp [Weights.total,Weights.site,Aquad3.pending,FarmRules.farm,rules,Worker.pending]
  contact i := by
    refine ⟨fun _ task h => ?_,.inl rfl,fun u hu => ?_⟩
    · cases h
    · cases hu
  goesOn := by
    change Loop.running ≠ .exited
    decide
  left h := by cases h
  total_area := rfl

/-- As long as the master counts an idle worker, there is one in its list. -/
theorem Inv.next (h : Inv area s) (hidle : s.master.idle ≠ 0) :
    nextAvailableWorker s.master.availableWorkers ≠ none := by
  intro hnone
  have hall (i : Fin (n_cores-1)) : 1 ≤ (Aquad3.pending n_cores R).site i (s.worker i)
      (s.toMaster i) (s.toWorker i) := by
    apply Nat.one_le_iff_ne_zero.mpr
    apply (h.contact i).free.resolve_left
    intro hi
    have := List.find?_eq_none.mp hnone i (List.mem_finRange i)
    exact this (by simpa using hi)
  have hp := h.pending
  have hsum := Finset.sum_le_sum fun i (_ : i ∈ Finset.univ) => hall i
  rw [Finset.sum_const,Finset.card_univ,Fintype.card_fin,smul_eq_mul,mul_one] at hsum
  change s.master.idle+_ = _ at hp
  omega

theorem Inv.contact_received (h : Inv area s) {i : Fin (n_cores-1)} {u : ToMaster R}
    {rest : List (ToMaster R)} {m : Master n_cores R} {sent : List (Fin (n_cores-1) × FromMaster)}
    (head : s.toMaster i = u::rest) (receive : Received s.master i u m sent) (j : Fin (n_cores-1)) :
    Contact area j (m.availableWorkers j) (s.worker j) (Function.update s.toMaster i rest j)
      (s.toWorker j++addressedTo sent j) := by
  have hup (hfree : j ≠ i ∨ u.pending = 0) : ((s.toMaster j).map ToMaster.pending).sum ≤
      ((Function.update s.toMaster i rest j).map ToMaster.pending).sum := by
    by_cases hj : j = i
    · subst hj
      have hu := hfree.resolve_left (not_not.mpr rfl)
      rw [Function.update_self,head,List.map_cons,List.sum_cons,hu,zero_add]
    · rw [Function.update_of_ne hj]
  have hkeep (havail : m.availableWorkers j = s.master.availableWorkers j)
      (hfree : j ≠ i ∨ u.pending = 0) : m.availableWorkers j = 1 ∨
      (Aquad3.pending n_cores R).site j (s.worker j) (Function.update s.toMaster i rest j)
        (s.toWorker j++addressedTo sent j) ≠ 0 := by
    rw [havail]
    exact (h.contact j).free.imp_right (site_send (hup hfree))
  have hrest : (∀ v ∈ Function.update s.toMaster i rest j, v ∈ s.toMaster j) ∧
      ((s.worker j).task = 0 → ∀ task, (Function.update s.toMaster i rest j).getLast? ≠
        some (.ADD_TASK task)) := by
    by_cases hj : j = i
    · subst hj
      rw [Function.update_self,head]
      refine ⟨fun v hv => List.mem_cons_of_mem u hv,fun hw task hlast => ?_⟩
      apply (h.contact j).last hw task
      rw [head,List.getLast?_cons,hlast]
      rfl
    · rw [Function.update_of_ne hj]
      exact ⟨fun v hv => hv,(h.contact j).last⟩
  refine ⟨hrest.2,?_,fun v hv => (h.contact j).valid v (hrest.1 v hv)⟩
  cases receive with
  | pops stack atEnd =>
    by_cases hj : j = i
    · subst hj
      refine .inr (site_ne_zero_of_execute (List.mem_append_right _
        (mem_addressedTo.mpr (atEnd.mem (List.mem_singleton_self _)))))
    · refine hkeep ?_ (.inl hj)
      rw [atEnd.availableWorkers]
      exact Function.update_of_ne hj _ _
  | idles stack atEnd =>
    by_cases hj : j = i
    · subst hj
      left
      rw [atEnd.availableWorkers]
      exact Function.update_self j 1 _
    · refine hkeep ?_ (.inl hj)
      rw [atEnd.availableWorkers]
      exact Function.update_of_ne hj _ _
  | forwards idle next atEnd => exact hkeep (by rw [atEnd.availableWorkers]) (.inr rfl)
  | keeps idle atEnd => exact hkeep (by rw [atEnd.availableWorkers]) (.inr rfl)
  | exits idle next => exact hkeep rfl (.inr rfl)

omit [Add R] in
theorem Contact.worked {i : Fin (n_cores-1)} {available : ℕ} {w w' : Worker}
    {up sent : List (ToMaster R)} {down : List FromMaster} (h : Contact area i available w up down)
    (work : Worked area w w' sent) : Contact area i available w' (up++sent) down := by
  have hsite : w'.pending+(sent.map ToMaster.pending).sum ≠ 0 := by
    cases work <;> simp [Worker.pending,ToMaster.pending]
  refine ⟨?_,.inr ?_,fun u hu => ?_⟩
  · cases work with
    | starts => simp
    | accepts a b => simp
    | splits a b => simp [Worker.task]
  · simp only [Weights.site,Aquad3.pending,List.map_append,List.sum_append]
    omega
  · rcases List.mem_append.mp hu with hu | hu
    · exact h.valid u hu
    · cases work with
      | starts => rw [List.mem_singleton.mp hu]; rfl
      | accepts a b => rw [List.mem_singleton.mp hu]; rfl
      | splits a b => rw [List.mem_singleton.mp hu]; trivial

omit [Add R] in
theorem Contact.taken {i : Fin (n_cores-1)} {available : ℕ} {w w' : Worker}
    {up : List (ToMaster R)} {d : FromMaster} {rest : List FromMaster}
    (h : Contact area i available w up (d::rest)) (take : Taken w d w') :
    Contact area i available w' up rest := by
  cases take with
  | task task =>
    refine ⟨fun hw => ?_,.inr ?_,h.valid⟩
    · simp [Worker.task] at hw
    · simp only [Weights.site,Aquad3.pending,Worker.pending]
      omega
  | noMore =>
    refine ⟨fun _ => h.last rfl,h.free.imp_right fun hsite => ?_,h.valid⟩
    simpa [Weights.site,Aquad3.pending,Worker.pending,FromMaster.pending] using hsite

theorem Inv.step (h : Inv area s) (hs : FarmStep (rules l r area n_cores) s a t) : Inv area t := by
  have hpending := (Aquad3.pending n_cores R).total_step
    (fun _ _ => pending_moved fun i task rest _ => h.next) hs
  refine ⟨hpending.trans h.pending,?_,?_,?_,?_⟩
  · intro j
    cases hs with
    | receive head receive =>
      rw [Farm.received_worker,Farm.received_toWorker]
      exact h.contact_received head (received_of_receive receive).2 j
    | @work i c w sent work =>
      rw [Farm.worked_toWorker]
      change Contact area j (s.master.availableWorkers j) (Function.update s.worker i w j)
        (Function.update s.toMaster i (s.toMaster i++sent) j) (s.toWorker j)
      by_cases hj : j = i
      · subst hj
        rw [Function.update_self,Function.update_self]
        exact (h.contact j).worked (worked_of_work work)
      · rw [Function.update_of_ne hj,Function.update_of_ne hj]
        exact h.contact j
    | @take i d rest w head take =>
      rw [Farm.taken_toMaster]
      change Contact area j (s.master.availableWorkers j) (Function.update s.worker i w j)
        (s.toMaster j) (Function.update s.toWorker i rest j)
      by_cases hj : j = i
      · subst hj
        rw [Function.update_self,Function.update_self]
        have hcontact := h.contact j
        rw [head] at hcontact
        exact hcontact.taken (taken_of_take take)
      · rw [Function.update_of_ne hj,Function.update_of_ne hj]
        exact h.contact j
  · cases hs with
    | receive head receive =>
      obtain ⟨hloop,hreceived⟩ := received_of_receive receive
      rw [Farm.received_master]
      rcases hreceived.loop hloop fun _ _ => h.next with hl | hl
      · simp [hl]
      · simp [hl.1]
    | work work => exact h.goesOn
    | take head take => exact h.goesOn
  · cases hs with
    | receive head receive =>
      obtain ⟨hloop,hreceived⟩ := received_of_receive receive
      rw [Farm.received_master]
      intro hleft
      rcases hreceived.loop hloop fun _ _ => h.next with hl | hl
      · rw [hl] at hleft
        cases hleft
      · exact hl.2
    | work work => exact h.left
    | take head take => exact h.left
  · cases hs with
    | @receive i u rest m sent head receive =>
      have hvalid := (h.contact i).valid u (head ▸ List.mem_cons_self)
      obtain ⟨hloop,hreceived⟩ := received_of_receive receive
      rw [Farm.received_master]
      cases hreceived with
      | pops stack atEnd =>
        rw [atEnd.total_area.1,atEnd.total_area.2,List.foldl_append,← h.total_area,hvalid]
        rfl
      | idles stack atEnd =>
        rw [atEnd.total_area.1,atEnd.total_area.2,List.foldl_append,← h.total_area,hvalid]
        rfl
      | forwards idle next atEnd =>
        rw [atEnd.total_area.1,atEnd.total_area.2]
        exact h.total_area
      | keeps idle atEnd =>
        rw [atEnd.total_area.1,atEnd.total_area.2]
        exact h.total_area
      | exits idle next => exact h.total_area
    | work work => exact h.total_area
    | take head take => exact h.total_area

theorem Inv.of_reachable (h : (rules l r area n_cores).farm.Reachable s) : Inv area s :=
  TransitionSystem.GuardedRun.invariant (I := Inv area) h inv_init
    fun _ _ _ hs _ ht => hs.step (.of_step ht)

/-- With all workers idle nobody is at work and nothing but the last messages is on its way. -/
theorem Inv.quiet (h : Inv area s) (hidle : s.master.idle = n_cores-1) (i : Fin (n_cores-1)) :
    (s.worker i).task = 0 ∧ s.toMaster i = [] ∧ ∀ d ∈ s.toWorker i, d = .NO_MORE_TASKS := by
  have hp := h.pending
  have hzero : ∑ i, (Aquad3.pending n_cores R).site i (s.worker i) (s.toMaster i)
      (s.toWorker i) = 0 := by
    change s.master.idle+_ = _ at hp
    omega
  have hsite := Finset.sum_eq_zero_iff.mp hzero i (Finset.mem_univ i)
  simp only [Weights.site,Aquad3.pending,Nat.add_eq_zero_iff,List.sum_eq_zero_iff,
    List.mem_map] at hsite
  obtain ⟨⟨hworker,hup⟩,hdown⟩ := hsite
  have htask : (s.worker i).task = 0 := by
    cases hw : s.worker i with
    | running task =>
      rw [hw] at hworker
      cases hworker
    | start => rfl
    | waiting => rfl
    | finished => rfl
  refine ⟨htask,?_,fun d hd => ?_⟩
  · cases hlast : (s.toMaster i).getLast? with
    | none => exact List.getLast?_eq_none_iff.mp hlast
    | some u =>
      cases u with
      | WORKER_AVAILABLE value width accepted =>
        have hmem := List.mem_of_getLast? hlast
        exact absurd (hup 1 ⟨_,hmem,rfl⟩) one_ne_zero
      | ADD_TASK task => exact absurd hlast ((h.contact i).last htask task)
  · cases d with
    | EXECUTE_TASK task => exact absurd (hdown 1 ⟨_,hd,rfl⟩) one_ne_zero
    | NO_MORE_TASKS => rfl

theorem endToEnd_tasks (hlr : l < r) (hcores : n_cores ≠ 0) : EndToEnd l r
    ((List.range n_cores).map fun i => ((task l r n_cores i).a,(task l r n_cores i).b)) := by
  have hpos : (0 : ℚ) < n_cores := by exact_mod_cast Nat.pos_of_ne_zero hcores
  have hw : 0 < (r-l)/n_cores := div_pos (sub_pos.mpr hlr) hpos
  have h := endToEnd_range (f := fun i : ℕ => l+i*((r-l)/n_cores)) (fun i => by
    push_cast
    linarith) n_cores
  simp only [Nat.cast_zero,zero_mul,add_zero,Nat.cast_succ] at h
  rw [mul_div_cancel₀ (r-l) hpos.ne',add_sub_cancel] at h
  exact h

/-- The intervals lie end to end in every state of a run. -/
theorem subdivision_of_reachable (hlr : l < r) (hcores : 2 ≤ n_cores)
    (h : (rules l r area n_cores).farm.Reachable s) :
    Subdivision l r ((intervals n_cores R).total s) := by
  have hne : n_cores ≠ 0 := by omega
  have hinv : Inv area s ∧ Subdivision l r ((intervals n_cores R).total s) := by
    refine TransitionSystem.GuardedRun.invariant
      (I := fun s => Inv area s ∧ Subdivision l r ((intervals n_cores R).total s)) h
      ⟨inv_init,_,?_,endToEnd_tasks hlr hne⟩ fun u a v hu _ hv => ?_
    · simp only [Weights.total,Weights.site,intervals,FarmRules.farm,rules,Worker.task,
        Aquad3.createTasks,List.reduceOption_nil,List.map_nil,List.sum_nil,Multiset.coe_nil,
        add_zero,Finset.sum_const_zero]
      conv_rhs => rw [← Multiset.map_coe,coe_createTasks,Multiset.map_coe,List.map_map]
      rfl
    · refine ⟨hu.1.step (.of_step hv),?_⟩
      obtain ⟨rest,x,y,hmoved,hx,hy⟩ := (intervals n_cores R).moved (.of_step hv)
      rcases intervals_moved (fun i task rest _ => hu.1.next) hmoved with hxy | ⟨a,b,rfl,rfl⟩
      · rw [hy,← hxy,← hx]
        exact hu.2
      · have hsub := hu.2
        rw [hx] at hsub
        have hab := hsub.lt
        rw [hy]
        exact hsub.cut (by linarith) (by linarith)
  exact hinv.2

/-- What holds when the master has left its loop: nothing is left to do anywhere, and the areas that
it has added up are those of a subdivision of the whole. -/
structure AllDone (area : ℚ → ℚ → R) (l r : ℚ)
    (s : Farm (Fin (n_cores-1)) (Master n_cores R) Worker (ToMaster R) FromMaster) : Prop where
  stack : s.master.stack = []
  worker : ∀ i, (s.worker i).task = 0
  toMaster : ∀ i task, .ADD_TASK task ∉ s.toMaster i
  toWorker : ∀ i task, .EXECUTE_TASK task ∉ s.toWorker i
  subdivision : Subdivision l r (s.master.added.reduceOption : List Interval)
  total_area : s.master.total_area =
    s.master.added.foldl (fun total x => total+x.elim 0 fun x => area x.1 x.2) 0

/-- In every run: no more idle workers than there are, no exit, and when the master has left its
loop all is done. -/
theorem all_tasks_done (area : ℚ → ℚ → R) (hcores : 2 ≤ n_cores) (hlr : l < r)
    (s : Farm (Fin (n_cores-1)) (Master n_cores R) Worker (ToMaster R) FromMaster)
    (h : (rules l r area n_cores).farm.Reachable s) :
    s.master.idle ≤ n_cores-1 ∧ s.master.loop ≠ .exited ∧
      (s.master.loop = .left → AllDone area l r s) := by
  have hinv := Inv.of_reachable h
  refine ⟨?_,hinv.goesOn,fun hleft => ?_⟩
  · have hp := hinv.pending
    change s.master.idle+_ = _ at hp
    omega
  · obtain ⟨hidle,hstack⟩ := hinv.left hleft
    have hquiet := hinv.quiet hidle
    refine ⟨hstack,fun i => (hquiet i).1,fun i task hmem => ?_,fun i task hmem => ?_,?_,
      hinv.total_area⟩
    · rw [(hquiet i).2.1] at hmem
      cases hmem
    · cases (hquiet i).2.2 _ hmem
    · have hsub := subdivision_of_reachable hlr hcores h
      have hsite (i : Fin (n_cores-1)) : (intervals n_cores R).site i (s.worker i)
          (s.toMaster i) (s.toWorker i) = 0 := by
        have hdown : ((s.toWorker i).map FromMaster.task).sum = 0 := by
          apply List.sum_eq_zero
          intro x hx
          obtain ⟨d,hd,rfl⟩ := List.mem_map.mp hx
          rw [(hquiet i).2.2 d hd]
          rfl
        simp only [Weights.site,intervals,(hquiet i).1,(hquiet i).2.1,hdown,List.map_nil,
          List.sum_nil,add_zero]
      rw [Weights.total,Finset.sum_eq_zero fun i _ => hsite i] at hsub
      simpa [intervals,hstack] using hsub

end Invariant

/-- One worker, which splits its first task. -/
theorem all_tasks_done_two :
    ∃ s : Farm (Fin (2-1)) (Master 2 ℚ) Worker (ToMaster ℚ) FromMaster, s.master.loop = .left ∧
      s.master.total_area = 2 ∧ s.master.added.length = 4 ∧ AllDone (fun a b => b-a) 0 2 s := by
  obtain ⟨s,hs,hp⟩ := TransitionSystem.exists_reachable_of_exec
    (T := (rules 0 2 (fun a b => b-a) 2).farm)
    (l := [.work 0 .accept,.receive 0,.take 0,.work 0 .split,.receive 0,.work 0 .accept,.receive 0,
      .take 0,.work 0 .accept,.receive 0,.take 0,.work 0 .accept,.receive 0,.take 0])
    (p := fun s => s.master.loop = .left && s.master.total_area = 2 &&
      s.master.added.length = 4) (by decide +kernel)
  simp only [Bool.and_eq_true,decide_eq_true_eq] at hp
  have hdone := all_tasks_done (fun a b => b-a) (by decide) (by decide) s hs
  exact ⟨s,hp.1.1,hp.1.2,hp.2,hdone.2.2 hp.1.1⟩

end PucRio.Aquad.Aquad3
