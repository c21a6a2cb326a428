import PucRio.Aquad.Aquad2
import Mathlib.Algebra.Order.BigOperators.Group.Finset
import Mathlib.Algebra.Order.BigOperators.Group.List

/-! No result gets lost. The sub-intervals, the results, the zeros of the start and the messages the
master still waits for are weights that every step keeps; each step takes one of a fixed number. -/
namespace PucRio.Aquad.Aquad2
variable {R : Type*} {n_cores : ℕ}

section Local
variable [AddCommMonoid R] {area : ℚ → ℚ → R}

/-- What `receive` does with a message. -/
inductive Received (m : Master n_cores R) (source : Fin (n_cores-1)) (u : Available R) :
    Master n_cores R → List (Fin (n_cores-1) × FromMaster) → Prop
  | hands {node : Node} {next : List Node} (stack : m.stack = node::next) :
      Received m source u ⟨next,m.total_area+u.local_area,m.i,m.received++[(source,u.node)]⟩
        [(source,.EXECUTE_TASK node)]
  | counts (stack : m.stack = []) (more : m.i+1 < n_cores) :
      Received m source u ⟨[],m.total_area+u.local_area,m.i+1,m.received++[(source,u.node)]⟩ []
  | notifies (stack : m.stack = []) (last : m.i+1 = n_cores) :
      Received m source u ⟨[],m.total_area+u.local_area,m.i+1,m.received++[(source,u.node)]⟩
        ((List.finRange (n_cores-1)).map (·,.NO_MORE_TASKS))

theorem received_of_receive {m m' : Master n_cores R} {source : Fin (n_cores-1)} {u : Available R}
    {sent : List (Fin (n_cores-1) × FromMaster)} (h : receive m source u = some (m',sent)) :
    Received m source u m' sent := by
  obtain ⟨stack,total_area,i,received⟩ := m
  unfold receive at h
  cases stack with
  | nil =>
    simp only [stack_is_empty,List.length_nil,decide_true,Bool.true_eq_false,if_false] at h
    by_cases hi : i < n_cores
    · rw [if_pos hi] at h
      obtain ⟨rfl,rfl⟩ := Prod.mk.inj (Option.some.inj h)
      by_cases hlast : i+1 = n_cores
      · rw [if_pos hlast]
        exact .notifies rfl hlast
      · rw [if_neg hlast]
        exact .counts rfl (by dsimp only; omega)
    · rw [if_neg hi] at h
      cases h
  | cons node next =>
    simp only [stack_is_empty,List.length_cons,Nat.add_eq_zero_iff,one_ne_zero,and_false,
      decide_false,if_true,stack_pop,Option.map_some] at h
    obtain ⟨rfl,rfl⟩ := Prod.mk.inj (Option.some.inj h)
    exact .hands rfl

/-- What a worker does by itself. -/
inductive Worked (area : ℚ → ℚ → R) (w : Worker) : Worker → List (Available R) → Prop
  | starts (place : w.place = .start) : Worked area w ⟨.waiting,w.executed⟩ [⟨0,none⟩]
  | executes {node : Node} (place : w.place = .running node) :
      Worked area w ⟨.waiting,w.executed++[node]⟩ [⟨area node.a node.b,some node⟩]

theorem worked_of_work {w w' : Worker} (c : Unit) {sent : List (Available R)}
    (h : work area w c = some (w',sent)) : Worked area w w' sent := by
  obtain ⟨place,executed⟩ := w
  cases place with
  | start =>
    obtain ⟨rfl,rfl⟩ := Prod.mk.inj (Option.some.inj h)
    exact .starts rfl
  | running node =>
    obtain ⟨rfl,rfl⟩ := Prod.mk.inj (Option.some.inj h)
    exact .executes rfl
  | waiting => cases h
  | finished => cases h

/-- What a worker does with a message, for which it waits. -/
inductive Taken (w : Worker) : FromMaster → Worker → Prop
  | task {node : Node} (place : w.place = .waiting) :
      Taken w (.EXECUTE_TASK node) ⟨.running node,w.executed⟩
  | noMore (place : w.place = .waiting) : Taken w .NO_MORE_TASKS ⟨.finished,w.executed⟩

theorem taken_of_take {w w' : Worker} {d : FromMaster} (h : take w d = some w') : Taken w d w' := by
  unfold take at h
  split_ifs at h with hplace
  cases d with
  | EXECUTE_TASK node =>
    obtain rfl := Option.some.inj h
    exact .task hplace
  | NO_MORE_TASKS =>
    obtain rfl := Option.some.inj h
    exact .noMore hplace

end Local

section Weights
variable {α : Type*}

theorem coe_cons (a : α) (l : List α) : ((a::l : List α) : Multiset α) = l+{a} := by
  rw [add_comm,Multiset.singleton_add,Multiset.cons_coe]

theorem coe_concat (l : List α) (a : α) : ((l++[a] : List α) : Multiset α) = l+{a} := by
  rw [← Multiset.coe_singleton,Multiset.coe_add]

def Place.task : Place → Multiset Node
  | .running node => {node}
  | _ => 0

def FromMaster.task : FromMaster → Multiset Node
  | .EXECUTE_TASK node => {node}
  | .NO_MORE_TASKS => 0

/-- The sub-intervals that are not executed yet, with those that were. -/
def tasks (n_cores : ℕ) (R : Type*) : Weights (Fin (n_cores-1)) (Master n_cores R) Worker
    (Available R) FromMaster (Multiset Node) where
  master m := m.stack
  worker _ w := w.place.task+w.executed
  up _ _ := 0
  down _ := FromMaster.task

/-- The sub-intervals without a result at the master, with those that have one. -/
def results (n_cores : ℕ) (R : Type*) : Weights (Fin (n_cores-1)) (Master n_cores R) Worker
    (Available R) FromMaster (Multiset Node) where
  master m := m.stack+(m.received.filterMap (·.2) : List Node)
  worker _ w := w.place.task
  up _ u := (u.node.toList : List Node)
  down _ := FromMaster.task

/-- The workers whose first message, the zero, is to be sent or on its way or came. -/
def zeros (n_cores : ℕ) (R : Type*) : Weights (Fin (n_cores-1)) (Master n_cores R) Worker
    (Available R) FromMaster (Multiset (Fin (n_cores-1))) where
  master m := ((m.received.filter (·.2.isNone)).map (·.1) : List (Fin (n_cores-1)))
  worker i w := if w.place = .start then {i} else 0
  up i u := if u.node.isNone then {i} else 0
  down _ _ := 0

def Place.pending : Place → ℕ
  | .start => 1
  | .running _ => 1
  | _ => 0

def FromMaster.pending : FromMaster → ℕ
  | .EXECUTE_TASK _ => 1
  | .NO_MORE_TASKS => 0

/-- The messages that will come, and the counter of those that the second loop has had. -/
def pending (n_cores : ℕ) (R : Type*) : Weights (Fin (n_cores-1)) (Master n_cores R) Worker
    (Available R) FromMaster ℕ where
  master m := m.i
  worker _ w := w.place.pending
  up _ _ := 1
  down _ := FromMaster.pending

def Place.steps : Place → ℕ
  | .start => 3
  | .running _ => 3
  | .waiting => 1
  | .finished => 0

def FromMaster.steps : FromMaster → ℕ
  | .EXECUTE_TASK _ => 3
  | .NO_MORE_TASKS => 0

/-- The steps that are left. -/
def steps (n_cores : ℕ) (R : Type*) : Weights (Fin (n_cores-1)) (Master n_cores R) Worker
    (Available R) FromMaster ℕ where
  master m := 3*m.stack.length
  worker _ w := w.place.steps
  up _ _ := 1
  down _ := FromMaster.steps

variable [AddCommMonoid R] {area : ℚ → ℚ → R} {n_task : ℕ} {l r : ℚ}
  {s : Farm (Fin (n_cores-1)) (Master n_cores R) Worker (Available R) FromMaster}

theorem tasks_moved {x y : Multiset Node}
    (h : (tasks n_cores R).Moved (rules area n_cores n_task l r) s x y) : x = y := by
  cases h with
  | receive head receive =>
    cases received_of_receive receive with
    | hands stack => simp [tasks,stack,FromMaster.task,coe_cons]
    | counts stack more => simp [tasks,stack]
    | notifies stack last => simp [tasks,stack,FromMaster.task,Function.comp_def]
  | @work i c w sent work =>
    cases worked_of_work c work with
    | starts place => simp [tasks,place,Place.task]
    | executes place => simp [tasks,place,Place.task,coe_concat,add_comm]
  | take head take =>
    cases taken_of_take take with
    | task place => simp [tasks,place,Place.task,FromMaster.task,add_comm]
    | noMore place => simp [tasks,place,Place.task,FromMaster.task]

theorem results_moved {x y : Multiset Node}
    (h : (results n_cores R).Moved (rules area n_cores n_task l r) s x y) : x = y := by
  cases h with
  | @receive j u rest m sent head receive =>
    have hresults (l : List (Fin (n_cores-1) × Option Node)) (i : Fin (n_cores-1)) :
        (((l++[(i,u.node)]).filterMap (·.2) : List Node) : Multiset Node) =
          (l.filterMap (·.2) : List Node)+(u.node.toList : List Node) := by
      rw [List.filterMap_append,← Multiset.coe_add]
      cases u.node <;> rfl
    cases received_of_receive receive with
    | hands stack =>
      simp only [results,stack,hresults,coe_cons,List.map_cons,List.map_nil,List.sum_cons,
        List.sum_nil,FromMaster.task]
      abel
    | counts stack more =>
      simp only [results,stack,hresults,List.map_nil,List.sum_nil]
      abel
    | notifies stack last =>
      simp only [results,stack,hresults,List.map_map]
      simp [FromMaster.task,Function.comp_def]
  | @work i c w sent work =>
    cases worked_of_work c work with
    | starts place => simp [results,place,Place.task]
    | executes place => simp [results,place,Place.task]
  | take head take =>
    cases taken_of_take take with
    | task place => simp [results,place,Place.task,FromMaster.task]
    | noMore place => simp [results,place,Place.task,FromMaster.task]

theorem zeros_moved {x y : Multiset (Fin (n_cores-1))}
    (h : (zeros n_cores R).Moved (rules area n_cores n_task l r) s x y) : x = y := by
  cases h with
  | @receive i u rest m sent head receive =>
    have hzeros (l : List (Fin (n_cores-1) × Option Node)) :
        ((((l++[(i,u.node)]).filter (·.2.isNone)).map (·.1) : List (Fin (n_cores-1))) :
          Multiset (Fin (n_cores-1))) = ((l.filter (·.2.isNone)).map (·.1) : List (Fin (n_cores-1)))+
            if u.node.isNone then {i} else 0 := by
      rw [List.filter_append,List.map_append,← Multiset.coe_add]
      cases u.node <;> rfl
    cases received_of_receive receive with
    | hands stack => simp only [zeros,hzeros,List.map_cons,List.map_nil,List.sum_cons,List.sum_nil,
        add_zero]
    | counts stack more => simp only [zeros,hzeros,List.map_nil,List.sum_nil,add_zero]
    | notifies stack last =>
      simp only [zeros,hzeros,List.map_map,Function.comp_def,List.map_const',List.sum_replicate,
        nsmul_zero,add_zero]
  | @work i c w sent work =>
    cases worked_of_work c work with
    | starts place => simp [zeros,place]
    | executes place => simp [zeros,place]
  | take head take =>
    cases taken_of_take take with
    | task place => simp [zeros,place]
    | noMore place => simp [zeros,place]

theorem pending_moved {x y : ℕ}
    (h : (pending n_cores R).Moved (rules area n_cores n_task l r) s x y) : x = y := by
  cases h with
  | receive head receive =>
    cases received_of_receive receive with
    | hands stack => simp [pending,FromMaster.pending]
    | counts stack more => simp [pending]
    | notifies stack last => simp [pending,FromMaster.pending,Function.comp_def]
  | @work i c w sent work =>
    cases worked_of_work c work with
    | starts place => simp [pending,place,Place.pending]
    | executes place => simp [pending,place,Place.pending]
  | take head take =>
    cases taken_of_take take with
    | task place => simp [pending,place,Place.pending,FromMaster.pending]
    | noMore place => simp [pending,place,Place.pending,FromMaster.pending]

theorem steps_moved {x y : ℕ}
    (h : (steps n_cores R).Moved (rules area n_cores n_task l r) s x y) : x = y+1 := by
  cases h with
  | receive head receive =>
    cases received_of_receive receive with
    | hands stack => simp [steps,stack,FromMaster.steps]; omega
    | counts stack more => simp [steps,stack]
    | notifies stack last => simp [steps,stack,FromMaster.steps,Function.comp_def]
  | @work i c w sent work =>
    cases worked_of_work c work with
    | starts place => simp [steps,place,Place.steps]
    | executes place => simp [steps,place,Place.steps]
  | take head take =>
    cases taken_of_take take with
    | task place => simp [steps,place,Place.steps,FromMaster.steps]
    | noMore place => simp [steps,place,Place.steps,FromMaster.steps]

end Weights

section Invariant
variable [AddCommMonoid R] {area : ℚ → ℚ → R} {n_task : ℕ} {l r : ℚ}
  {s t : Farm (Fin (n_cores-1)) (Master n_cores R) Worker (Available R) FromMaster}
  {a : FarmAction (Fin (n_cores-1)) Unit}

/-- What one worker is to the master before the last messages and after them. -/
structure Contact (area : ℚ → ℚ → R) (n_cores i : ℕ) (w : Worker) (up : List (Available R))
    (down : List FromMaster) : Prop where
  before : i < n_cores → w.place ≠ .finished ∧ .NO_MORE_TASKS ∉ down
  after : i = n_cores →
    w.place = .waiting ∧ down = [.NO_MORE_TASKS] ∨ w.place = .finished ∧ down = []
  area : ∀ u ∈ up, u.local_area = u.node.elim 0 fun node => area node.a node.b

structure Inv (area : ℚ → ℚ → R) (n_task : ℕ) (l r : ℚ)
    (s : Farm (Fin (n_cores-1)) (Master n_cores R) Worker (Available R) FromMaster) : Prop where
  tasks : (tasks n_cores R).total s = (createTasks l r n_task : List Node)
  results : (results n_cores R).total s = (createTasks l r n_task : List Node)
  zeros : (zeros n_cores R).total s = Finset.univ.val
  pending : (pending n_cores R).total s = n_cores
  total_area : s.master.total_area =
    (s.master.received.map fun x => x.2.elim 0 fun node => area node.a node.b).sum
  stack : s.master.i = n_cores → s.master.stack = []
  contact : ∀ i, Contact area n_cores s.master.i (s.worker i) (s.toMaster i) (s.toWorker i)

theorem inv_init (hcores : 2 ≤ n_cores) :
    Inv area n_task l r (rules area n_cores n_task l r).farm.init where
  tasks := by simp [Weights.total,Weights.site,Aquad2.tasks,FarmRules.farm,rules,Place.task]
  results := by simp [Weights.total,Weights.site,Aquad2.results,FarmRules.farm,rules,Place.task]
  zeros := by
    simp only [Weights.total,Weights.site,Aquad2.zeros,FarmRules.farm,rules,List.filter_nil,
      List.map_nil,List.sum_nil,add_zero,if_true,Finset.sum_multiset_singleton]
    exact zero_add _
  pending := by
    simp [Weights.total,Weights.site,Aquad2.pending,FarmRules.farm,rules,Place.pending]
    omega
  total_area := rfl
  stack h := by
    change 1 = n_cores at h
    omega
  contact i := by
    refine ⟨fun _ => ⟨?_,?_⟩,fun h => ?_,fun u hu => ?_⟩
    · change Place.start ≠ .finished
      decide
    · change _ ∉ ([] : List FromMaster)
      exact List.not_mem_nil
    · change 1 = n_cores at h
      omega
    · cases hu

/-- While the master waits for `n_cores - i` messages, somebody has yet to send one. -/
theorem Inv.exists_pending (h : Inv area n_task l r s) (hi : s.master.i < n_cores) :
    ∃ i, (Aquad2.pending n_cores R).site i (s.worker i) (s.toMaster i) (s.toWorker i) ≠ 0 := by
  by_contra hall
  push Not at hall
  have hp := h.pending
  rw [Weights.total,Finset.sum_eq_zero fun i _ => hall i] at hp
  exact absurd hp hi.ne

omit [AddCommMonoid R] in
theorem pending_site_eq_zero {i : Fin (n_cores-1)} {w : Worker} {up : List (Available R)}
    {down : List FromMaster} (h : (Aquad2.pending n_cores R).site i w up down = 0) :
    (w.place = .waiting ∨ w.place = .finished) ∧ up = [] ∧ ∀ d ∈ down, d = .NO_MORE_TASKS := by
  simp only [Weights.site,Aquad2.pending,Nat.add_eq_zero_iff,List.sum_eq_zero_iff,
    List.mem_map] at h
  obtain ⟨⟨hplace,hup⟩,hdown⟩ := h
  refine ⟨?_,?_,fun d hd => ?_⟩
  · cases hw : w.place with
    | start =>
      rw [hw] at hplace
      cases hplace
    | waiting => exact .inl rfl
    | running node =>
      rw [hw] at hplace
      cases hplace
    | finished => exact .inr rfl
  · apply List.eq_nil_iff_forall_not_mem.mpr
    intro u hu
    exact absurd (hup 1 ⟨u,hu,rfl⟩) one_ne_zero
  · cases d with
    | EXECUTE_TASK node => exact absurd (hdown 1 ⟨_,hd,rfl⟩) one_ne_zero
    | NO_MORE_TASKS => rfl

omit [AddCommMonoid R] in
/-- When it waits for no more, every worker waits or is done, and nothing comes from it. -/
theorem quiet (hp : (pending n_cores R).total s = n_cores) (hi : s.master.i = n_cores)
    (i : Fin (n_cores-1)) : ((s.worker i).place = .waiting ∨ (s.worker i).place = .finished) ∧
      s.toMaster i = [] ∧ ∀ d ∈ s.toWorker i, d = .NO_MORE_TASKS := by
  have hzero : ∑ i, (pending n_cores R).site i (s.worker i) (s.toMaster i) (s.toWorker i) = 0 := by
    change s.master.i+_ = _ at hp
    omega
  exact pending_site_eq_zero (Finset.sum_eq_zero_iff.mp hzero i (Finset.mem_univ i))

theorem Inv.contact_received (h : Inv area n_task l r s) {i : Fin (n_cores-1)} {u : Available R}
    {rest : List (Available R)} {m : Master n_cores R} {sent : List (Fin (n_cores-1) × FromMaster)}
    (head : s.toMaster i = u::rest) (receive : Received s.master i u m sent)
    (hp : (Aquad2.pending n_cores R).total (s.received i rest m sent) = n_cores) (j : Fin (n_cores-1)) :
    Contact area n_cores m.i (s.worker j) (Function.update s.toMaster i rest j)
      (s.toWorker j++addressedTo sent j) := by
  have harea : ∀ v ∈ Function.update s.toMaster i rest j,
      v.local_area = v.node.elim 0 fun node => area node.a node.b := by
    by_cases hj : j = i
    · subst hj
      rw [Function.update_self]
      exact fun v hv => (h.contact j).area v (head ▸ List.mem_cons_of_mem u hv)
    · rw [Function.update_of_ne hj]
      exact (h.contact j).area
  cases receive with
  | hands stack =>
    refine ⟨fun hi => ⟨((h.contact j).before hi).1,fun hmem => ?_⟩,fun hi => ?_,harea⟩
    · rcases List.mem_append.mp hmem with hmem | hmem
      · exact ((h.contact j).before hi).2 hmem
      · have := mem_addressedTo.mp hmem
        simp at this
    · rw [h.stack hi] at stack
      cases stack
  | counts stack more =>
    refine ⟨fun hi => ?_,fun hi => absurd hi more.ne,harea⟩
    rw [addressedTo_nil,List.append_nil]
    exact (h.contact j).before (Nat.lt_of_succ_lt hi)
  | notifies stack last =>
    refine ⟨fun hi => absurd last hi.ne,fun hi => .inl ?_,harea⟩
    obtain ⟨hplace,_,hdown⟩ := quiet hp last j
    simp only [Farm.received_worker,Farm.received_toWorker] at hplace hdown
    have hbefore := (h.contact j).before (Nat.lt_of_succ_le last.le)
    have hold : s.toWorker j = [] := by
      apply List.eq_nil_iff_forall_not_mem.mpr
      intro d hd
      obtain rfl := hdown d (List.mem_append_left _ hd)
      exact hbefore.2 hd
    refine ⟨hplace.resolve_right hbefore.1,?_⟩
    rw [hold,addressedTo_map_const (List.nodup_finRange _),if_pos (List.mem_finRange j)]
    rfl

theorem Contact.worked {i : ℕ} {w w' : Worker} {up sent : List (Available R)}
    {down : List FromMaster} (h : Contact area n_cores i w up down) (work : Worked area w w' sent) :
    Contact area n_cores i w' (up++sent) down := by
  cases work with
  | starts place =>
    refine ⟨fun hi => ⟨by simp,(h.before hi).2⟩,fun hi => ?_,fun u hu => ?_⟩
    · rcases h.after hi with hw | hw <;> simp [place] at hw
    · rcases List.mem_append.mp hu with hu | hu
      · exact h.area u hu
      · rw [List.mem_singleton.mp hu]
        rfl
  | executes place =>
    refine ⟨fun hi => ⟨by simp,(h.before hi).2⟩,fun hi => ?_,fun u hu => ?_⟩
    · rcases h.after hi with hw | hw <;> simp [place] at hw
    · rcases List.mem_append.mp hu with hu | hu
      · exact h.area u hu
      · rw [List.mem_singleton.mp hu]
        rfl

theorem Contact.taken {i : ℕ} {w w' : Worker} {up : List (Available R)} {d : FromMaster}
    {rest : List FromMaster} (hi : i ≤ n_cores) (h : Contact area n_cores i w up (d::rest))
    (take : Taken w d w') : Contact area n_cores i w' up rest := by
  cases take with
  | task place =>
    refine ⟨fun hi => ⟨by simp,fun hmem => (h.before hi).2 (List.mem_cons_of_mem _ hmem)⟩,
      fun hi => ?_,h.area⟩
    rcases h.after hi with hw | hw <;> simp at hw
  | noMore place =>
    have hlast : i = n_cores := by
      by_contra hne
      exact (h.before (lt_of_le_of_ne hi hne)).2 List.mem_cons_self
    refine ⟨fun hi => absurd hlast hi.ne,fun _ => .inr ⟨rfl,?_⟩,h.area⟩
    rcases h.after hlast with hw | hw
    · exact (List.cons.inj hw.2).2
    · cases hw.2

theorem Inv.i_le (h : Inv area n_task l r s) : s.master.i ≤ n_cores := by
  have hp := h.pending
  change s.master.i+_ = _ at hp
  omega

theorem Inv.step (h : Inv area n_task l r s) (hs : FarmStep (rules area n_cores n_task l r) s a t) :
    Inv area n_task l r t := by
  have htasks := (Aquad2.tasks n_cores R).total_step (fun _ _ => tasks_moved) hs
  have hresults := (Aquad2.results n_cores R).total_step (fun _ _ => results_moved) hs
  have hzeros := (Aquad2.zeros n_cores R).total_step (fun _ _ => zeros_moved) hs
  have hpending := ((Aquad2.pending n_cores R).total_step (fun _ _ => pending_moved) hs).trans
    h.pending
  refine ⟨htasks.trans h.tasks,hresults.trans h.results,hzeros.trans h.zeros,hpending,?_,?_,?_⟩
  · cases hs with
    | @receive i u rest m sent head receive =>
      have harea := (h.contact i).area u (head ▸ List.mem_cons_self)
      rw [Farm.received_master]
      cases received_of_receive receive with
      | hands stack => rw [List.map_append,List.sum_append,← h.total_area,harea]; simp
      | counts stack more => rw [List.map_append,List.sum_append,← h.total_area,harea]; simp
      | notifies stack last => rw [List.map_append,List.sum_append,← h.total_area,harea]; simp
    | work work => exact h.total_area
    | take head take => exact h.total_area
  · cases hs with
    | @receive i u rest m sent head receive =>
      rw [Farm.received_master]
      cases received_of_receive receive with
      | hands stack =>
        intro hi
        rw [h.stack hi] at stack
        cases stack
      | counts stack more => exact fun _ => rfl
      | notifies stack last => exact fun _ => rfl
    | work work => exact h.stack
    | take head take => exact h.stack
  · intro j
    cases hs with
    | receive head receive =>
      rw [Farm.received_worker,Farm.received_toWorker]
      exact h.contact_received head (received_of_receive receive) hpending j
    | @work i c w sent work =>
      rw [Farm.worked_toWorker]
      change Contact area n_cores s.master.i (Function.update s.worker i w j)
        (Function.update s.toMaster i (s.toMaster i++sent) j) (s.toWorker j)
      by_cases hj : j = i
      · subst hj
        rw [Function.update_self,Function.update_self]
        exact (h.contact j).worked (worked_of_work c work)
      · rw [Function.update_of_ne hj,Function.update_of_ne hj]
        exact h.contact j
    | @take i d rest w head take =>
      rw [Farm.taken_toMaster]
      change Contact area n_cores s.master.i (Function.update s.worker i w j) (s.toMaster j)
        (Function.update s.toWorker i rest j)
      by_cases hj : j = i
      · subst hj
        rw [Function.update_self,Function.update_self]
        have hcontact := h.contact j
        rw [head] at hcontact
        exact hcontact.taken h.i_le (taken_of_take take)
      · rw [Function.update_of_ne hj,Function.update_of_ne hj]
        exact h.contact j

theorem Inv.of_exec (hcores : 2 ≤ n_cores) {run : List (FarmAction (Fin (n_cores-1)) Unit)}
    (h : (rules area n_cores n_task l r).farm.exec (rules area n_cores n_task l r).farm.init run =
      some s) : Inv area n_task l r s :=
  TransitionSystem.GuardedRun.invariant (I := Inv area n_task l r) (TransitionSystem.run_of_exec h)
    (inv_init hcores) fun _ _ _ hs _ ht => hs.step (.of_step ht)

theorem length_add_steps {run : List (FarmAction (Fin (n_cores-1)) Unit)}
    (h : (rules area n_cores n_task l r).farm.exec s run = some t) :
    run.length+(steps n_cores R).total t = (steps n_cores R).total s := by
  induction run generalizing s with
  | nil =>
    obtain rfl : s = t := by simpa [TransitionSystem.exec] using h
    exact Nat.zero_add _
  | cons a run ih =>
    obtain ⟨u,hu,ht⟩ := Option.bind_eq_some_iff.mp h
    obtain ⟨rest,x,y,hmoved,hs,hrest⟩ := (steps n_cores R).moved (.of_step hu)
    have hxy := steps_moved hmoved
    have := ih ht
    rw [List.length_cons]
    omega

/-- Everybody is done, and nothing is on its way. -/
def Finished (s : Farm (Fin (n_cores-1)) (Master n_cores R) Worker (Available R) FromMaster) :
    Prop :=
  s.master.i = n_cores ∧ ∀ i, (s.worker i).place = .finished ∧ s.toMaster i = [] ∧ s.toWorker i = []

/-- A run only ends where everybody is done. -/
theorem Inv.finished (h : Inv area n_task l r s)
    (hstuck : ∀ a, (rules area n_cores n_task l r).farm.step s a = none) : Finished s := by
  have hwork (i : Fin (n_cores-1)) : work area (s.worker i) () = none := by
    have := hstuck (.work i ())
    simpa [FarmRules.farm,Farm.step,rules] using this
  have htake (i : Fin (n_cores-1)) (d : FromMaster) (rest : List FromMaster)
      (hd : s.toWorker i = d::rest) : take (s.worker i) d = none := by
    have := hstuck (.take i)
    simpa [FarmRules.farm,Farm.step,rules,hd] using this
  have hplace (i : Fin (n_cores-1)) :
      (s.worker i).place = .waiting ∨ (s.worker i).place = .finished := by
    have hi := hwork i
    cases hw : (s.worker i).place with
    | start => simp [work,hw] at hi
    | waiting => exact .inl rfl
    | running node => simp [work,hw] at hi
    | finished => exact .inr rfl
  have hlast : s.master.i = n_cores := by
    by_contra hne
    have hi := lt_of_le_of_ne h.i_le hne
    obtain ⟨i,hsite⟩ := h.exists_pending hi
    have hwaiting := (hplace i).resolve_right ((h.contact i).before hi).1
    have hdown : s.toWorker i = [] := by
      cases hd : s.toWorker i with
      | nil => rfl
      | cons d rest =>
        have := htake i d rest hd
        cases d <;> simp [take,hwaiting] at this
    have hup : s.toMaster i = [] := by
      cases hu : s.toMaster i with
      | nil => rfl
      | cons u rest =>
        have := hstuck (.receive i)
        simp only [FarmRules.farm,Farm.step,hu,Option.map_eq_none_iff] at this
        unfold rules receive at this
        cases hstack : s.master.stack with
        | nil => simp [hstack,stack_is_empty,hi] at this
        | cons node next => simp [hstack,stack_is_empty,stack_pop] at this
    apply hsite
    simp [Weights.site,Aquad2.pending,hwaiting,hdown,hup,Place.pending]
  refine ⟨hlast,fun i => ?_⟩
  obtain ⟨_,hup,_⟩ := quiet h.pending hlast i
  rcases (h.contact i).after hlast with hw | hw
  · have := htake i _ _ hw.2
    simp [take,hw.1] at this
  · exact ⟨hw.1,hup,hw.2⟩

end Invariant

section Results
variable {l r : ℚ} {n_task : ℕ}

theorem count_tasks {i : ℕ} (hi : i < n_task) : Multiset.count (task l r n_task i)
    ((List.range n_task).map (task l r n_task) : List Node) = 1 := by
  have hnodup : ((List.range n_task).map (task l r n_task)).Nodup := by
    apply List.Nodup.map _ List.nodup_range
    exact fun i j h => congrArg Node.i h
  exact Multiset.count_eq_one_of_mem (Multiset.coe_nodup.mpr hnodup)
    (Multiset.mem_coe.mpr (List.mem_map_of_mem (List.mem_range.mpr hi)))

variable [AddCommMonoid R] {area : ℚ → ℚ → R}
  {s : Farm (Fin (n_cores-1)) (Master n_cores R) Worker (Available R) FromMaster}

/-- All sub-intervals are executed, each by one worker and once, and the master has had all results
and every worker's zero. -/
structure Complete (area : ℚ → ℚ → R) (n_task : ℕ) (l r : ℚ)
    (s : Farm (Fin (n_cores-1)) (Master n_cores R) Worker (Available R) FromMaster) : Prop where
  one : ∀ i < n_task, ∃! w, task l r n_task i ∈ (s.worker w).executed
  once : ∑ w, ((s.worker w).executed : Multiset Node) =
    ((List.range n_task).map (task l r n_task) : List Node)
  results : ((s.master.received.filterMap (·.2) : List Node) : Multiset Node) =
    ((List.range n_task).map (task l r n_task) : List Node)
  zeros : (((s.master.received.filter (·.2.isNone)).map (·.1) : List (Fin (n_cores-1))) :
    Multiset (Fin (n_cores-1))) = Finset.univ.val
  total_area : s.master.total_area =
    ∑ i ∈ Finset.range n_task, area (task l r n_task i).a (task l r n_task i).b

theorem sum_received {received : List (Fin (n_cores-1) × Option Node)} {f : Node → R} :
    (received.map fun x => x.2.elim 0 f).sum = ((received.filterMap (·.2)).map f).sum := by
  induction received with
  | nil => rfl
  | cons x received ih =>
    rw [List.map_cons,List.sum_cons,ih,List.filterMap_cons]
    cases x.2 with
    | none => exact zero_add _
    | some node => rw [List.map_cons,List.sum_cons,Option.elim_some]

theorem Inv.complete (h : Inv area n_task l r s) (hi : s.master.i = n_cores) :
    Complete area n_task l r s := by
  have hstack := h.stack hi
  have hquiet (j : Fin (n_cores-1)) : (s.worker j).place.task = 0 ∧ s.toMaster j = [] ∧
      ((s.toWorker j).map FromMaster.task).sum = 0 := by
    obtain ⟨hplace,hup,hdown⟩ := quiet h.pending hi j
    refine ⟨?_,hup,?_⟩
    · rcases hplace with hw | hw <;> rw [hw] <;> rfl
    · apply List.sum_eq_zero
      intro x hx
      obtain ⟨d,hd,rfl⟩ := List.mem_map.mp hx
      rw [hdown d hd]
      rfl
  have honce : ∑ w, ((s.worker w).executed : Multiset Node) =
      ((List.range n_task).map (task l r n_task) : List Node) := by
    rw [← coe_createTasks,← h.tasks,Weights.total]
    simp only [Aquad2.tasks,hstack,Weights.site,hquiet,List.map_nil,List.sum_nil]
    simp
  have hresults : ((s.master.received.filterMap (·.2) : List Node) : Multiset Node) =
      ((List.range n_task).map (task l r n_task) : List Node) := by
    rw [← coe_createTasks,← h.results,Weights.total]
    simp only [Aquad2.results,hstack,Weights.site,hquiet,List.map_nil,List.sum_nil]
    simp
  refine ⟨fun i hlt => ?_,honce,hresults,?_,?_⟩
  · have hcount := count_tasks (l := l) (r := r) hlt
    rw [← honce,Multiset.count_sum'] at hcount
    obtain ⟨w,hw,huniq⟩ := existsUnique_ne_zero_of_sum_eq_one hcount
    refine ⟨w,Multiset.mem_coe.mp (Multiset.count_ne_zero.mp hw),fun v hv => huniq v ?_⟩
    exact Multiset.count_ne_zero.mpr (Multiset.mem_coe.mpr hv)
  · rw [← h.zeros,Weights.total]
    have hstart (j : Fin (n_cores-1)) : (s.worker j).place ≠ .start := by
      obtain ⟨hw | hw,_⟩ := quiet h.pending hi j <;> simp [hw]
    simp only [Aquad2.zeros,Weights.site,hquiet,hstart,if_false,List.map_nil,List.sum_nil]
    simp
  · have hsum := congrArg (fun m => (m.map fun node => area node.a node.b).sum) hresults
    simp only [Multiset.map_coe,Multiset.sum_coe,List.map_map] at hsum
    rw [h.total_area,sum_received,hsum]
    rfl

/-- On any number of processes, for any number of tasks and in any order of the messages: a run has
at most so many steps, it ends only where all are done, and when the master says so it has all. -/
theorem no_result_lost (area : ℚ → ℚ → R) (hcores : 2 ≤ n_cores) (n_task : ℕ) (l r : ℚ)
    (run : List (FarmAction (Fin (n_cores-1)) Unit))
    (s : Farm (Fin (n_cores-1)) (Master n_cores R) Worker (Available R) FromMaster)
    (h : (rules area n_cores n_task l r).farm.exec (rules area n_cores n_task l r).farm.init run =
      some s) :
    run.length ≤ 3*(n_cores-1)+3*n_task ∧
    ((∀ a, (rules area n_cores n_task l r).farm.step s a = none) → Finished s) ∧
    ((s.master.i = n_cores ∨ ∃ w, .NO_MORE_TASKS ∈ s.toWorker w ∨ (s.worker w).place = .finished) →
      Complete area n_task l r s) := by
  have hinv := Inv.of_exec hcores h
  refine ⟨?_,hinv.finished,fun hmore => hinv.complete ?_⟩
  · have hsteps := length_add_steps h
    have hinit : (steps n_cores R).total (rules area n_cores n_task l r).farm.init =
        3*(n_cores-1)+3*n_task := by
      simp [Weights.total,Weights.site,steps,FarmRules.farm,rules,createTasks_eq,Place.steps]
      omega
    omega
  · by_contra hne
    have hi := lt_of_le_of_ne hinv.i_le hne
    obtain ⟨w,hw⟩ := hmore.resolve_left hne
    obtain ⟨hplace,hdown⟩ := (hinv.contact w).before hi
    rcases hw with hw | hw
    · exact hdown hw
    · exact hplace hw

/-- Two workers and one task: the second worker only sends its zero. -/
theorem no_result_lost_three :
    ∃ s : Farm (Fin (3-1)) (Master 3 ℚ) Worker (Available ℚ) FromMaster,
      s.master.total_area = 2 ∧ Finished s ∧ Complete (fun a b => b-a) 1 0 2 s := by
  let T := (rules (fun a b => b-a) 3 1 0 2).farm
  let run : List (FarmAction (Fin 2) Unit) := [.work 0 (),.work 1 (),.receive 0,.receive 1,.take 0,
    .work 0 (),.receive 0,.take 0,.take 1]
  obtain ⟨s,hs,hp⟩ := (Option.any_eq_true _ _).mp (show (T.exec T.init run).any
    (fun s => s.master.total_area = 2 && decide (s.master.i = 3) &&
      decide (∀ i, (s.worker i).place = .finished ∧ s.toMaster i = [] ∧ s.toWorker i = [])) = true by
      decide +kernel)
  simp only [Bool.and_eq_true,decide_eq_true_eq] at hp
  have hlost := no_result_lost (fun a b => b-a) (by decide) 1 0 2 run s hs
  exact ⟨s,hp.1.1,⟨hp.1.2,hp.2⟩,hlost.2.2 (.inl hp.1.2)⟩

end Results

end PucRio.Aquad.Aquad2
