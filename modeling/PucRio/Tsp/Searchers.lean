import PucRio.Tsp.Search
import PucRio.Tsp.SplitStack

/-! The search by all threads of one process, with the best tour that they share. It is replaced in
two steps, `Copy_tour` and `Add_city`, under a mutex that its readers do not take. -/
namespace PucRio.Tsp
variable {n T : ℕ}

/-- The process, the best tour, and the values that its cost has had; those of finished tours are kept
apart, the last one first. -/
structure Searchers (n T : ℕ) where
  process : Process n T
  /-- The full tour with which a thread is in `Update_best_tour`. -/
  updating : Fin T → Option Tour := fun _ => none
  /-- The thread between `Copy_tour` and `Add_city`, which has `best_tour_mutex`. -/
  copying : Option (Fin T) := none
  loc_best_tour : Tour := .Init_tour INFINITY
  global_best_tour_cost : ℤ := INFINITY
  costs : List ℤ := [INFINITY]
  finished : List ℤ := [INFINITY]

namespace Action

def thread : Action T → Fin T
  | .step i => i
  | .trylock i _ _ => i
  | .search i _ => i
  | .spurious i => i

/-- What is read of the cost of the best tour is one of these. -/
def Reads (n : ℕ) (costs : List ℤ) : Action T → Prop
  | .search _ best => ∀ city < n, best city ∈ costs
  | _ => True

instance (n : ℕ) (costs : List ℤ) : (a : Action T) → Decidable (a.Reads n costs)
  | .search _ best => inferInstanceAs (Decidable (∀ city < n, best city ∈ costs))
  | .step _ => inferInstanceAs (Decidable True)
  | .trylock _ _ _ => inferInstanceAs (Decidable True)
  | .spurious _ => inferInstanceAs (Decidable True)

/-- The tour for which the first `Best_tour` is true; it reads `best home_town`. -/
def toUpdate (d : Digraph n) (s : Process n T) : Action T → Option Tour
  | .search i best => (visit d best (s.threads i).stack).bind fun (curr_tour,_) =>
    if curr_tour.City_count = n ∧
      curr_tour.cost+d.Cost curr_tour.Last_city home_town < best home_town then some curr_tour
    else none
  | _ => none

end Action

inductive Move (T : ℕ)
  | process (a : Action T)
  /-- `best_tour_mutex` is taken; where `Best_tour` is still true, `Copy_tour`. -/
  | copyTour (i : Fin T)
  /-- `Add_city` of the home town; the mutex is given back. -/
  | addHome (i : Fin T)

namespace Searchers
variable (d : Digraph n) (min_split_sz : ℕ)

def stepProcess (s : Searchers n T) (a : Action T) : Option (Searchers n T) :=
  if s.updating a.thread = none ∧ a.Reads n s.costs then
    (s.process.step d min_split_sz a).map fun process =>
      { s with
        process := process
        updating := Function.update s.updating a.thread (a.toUpdate d s.process) }
  else none

def stepCopy (s : Searchers n T) (i : Fin T) : Option (Searchers n T) :=
  match s.updating i,s.copying with
  | some tour,none =>
    if Best_tour d s.loc_best_tour tour then
      some { s with loc_best_tour := tour, copying := some i, costs := tour.cost::s.costs }
    else some { s with updating := Function.update s.updating i none }
  | _,_ => none

def stepAddHome (s : Searchers n T) (i : Fin T) : Option (Searchers n T) :=
  if s.copying = some i then
    let loc_best_tour := s.loc_best_tour.Add_city d home_town
    some { s with
      updating := Function.update s.updating i none
      copying := none
      loc_best_tour := loc_best_tour
      global_best_tour_cost := loc_best_tour.cost
      costs := loc_best_tour.cost::s.costs
      finished := loc_best_tour.cost::s.finished }
  else none

def step (s : Searchers n T) : Move T → Option (Searchers n T)
  | .process a => s.stepProcess d min_split_sz a
  | .copyTour i => if s.process.running then s.stepCopy d i else none
  | .addHome i => if s.process.running then s.stepAddHome d i else none

end Searchers

def parallelSearch (d : Digraph n) (min_split_sz : ℕ) (shares : Fin T → Stack n) :
    TransitionSystem (Searchers n T) (Move T) where
  init := { process := (parTreeSearch d min_split_sz shares).init }
  step := Searchers.step d min_split_sz

/-- The tours on the stacks of a process, the donated ones among them. -/
def Process.Waits (s : Process n T) (t : Tour) : Prop :=
  (∃ i, t ∈ (s.threads i).stack.list) ∨ ∃ stack, s.term.stack = some stack ∧ t ∈ stack.list

section Visit
variable {d : Digraph n} {best : ℕ → ℤ} {t : Tour} {stack stack' : Stack n}

/-- The tours that take the place of a visited tour. -/
def offspring (d : Digraph n) (best : ℕ → ℤ) (t : Tour) : List Tour :=
  if t.City_count = n then [] else children d best (n-1) t

theorem expand_ok {k : ℕ} {t' : Tour} (h : expand d best k t stack = some (t',stack')) :
    t' = t ∧ stack'.list = stack.list++children d best k t := by
  induction k generalizing stack with
  | zero =>
    cases h
    simp [children]
  | succ k ih =>
    simp only [expand,children] at h ⊢
    split_ifs at h ⊢ with hf
    · obtain ⟨pushed,hpush,hrest⟩ := Option.bind_eq_some_iff.mp h
      rw [Tour.Remove_last_city_Add_city] at hrest
      obtain ⟨ht,hlist⟩ := ih hrest
      have hpushed : pushed.list = stack.list++[t.Add_city d (k+1)] := by
        unfold Stack.Push_copy at hpush
        split_ifs at hpush
        cases hpush
        rfl
      refine ⟨ht,?_⟩
      rw [hlist,hpushed,List.append_assoc,List.singleton_append]
    · exact ih h

theorem visit_ok (h : visit d best stack = some (t,stack')) :
    ∃ rest, stack.list = rest++[t] ∧ stack'.list = rest++offspring d best t := by
  obtain ⟨⟨top,rest⟩,hpop,hvisit⟩ := Option.bind_eq_some_iff.mp h
  have hlist := Stack.Pop_eq_some hpop
  dsimp only at hvisit
  split_ifs at hvisit with hc
  · cases hvisit
    refine ⟨stack'.list,hlist,?_⟩
    rw [offspring,if_pos hc,List.append_nil]
  · obtain ⟨rfl,hrest⟩ := expand_ok hvisit
    refine ⟨rest.list,hlist,?_⟩
    rw [hrest,offspring,if_neg hc]

theorem isPath_offspring {u : Tour} (ht : IsPath d t) (hu : u ∈ offspring d best t) : IsPath d u := by
  unfold offspring at hu
  split_ifs at hu with hc
  · cases hu
  · obtain ⟨c,h1,hk,hf,rfl⟩ := mem_children.mp hu
    exact ht.Add_city ((Tour.Feasible_iff d).mp hf).1 (by omega)

/-- Each read of the cost may give another value; none is below `b`. -/
theorem covered_offspring {b : ℤ} (ht : IsPath d t) (hc : t.City_count ≠ n)
    (hb : ∀ city < n, b ≤ best city) {p : List ℕ} (hp : Hamiltonian n p) (hpre : t.cities <+: p) :
    b ≤ cycleCost d p ∨ ∃ u ∈ offspring d best t, u.cities <+: p := by
  obtain ⟨c,hcpre,h1,hlt,hnot⟩ := ht.exists_next hc hp hpre
  by_cases hf : t.cost+d.Cost t.Last_city c < best c
  · refine .inr ⟨t.Add_city d c,?_,hcpre⟩
    rw [offspring,if_neg hc]
    exact mem_children.mpr ⟨c,h1,by omega,(Tour.Feasible_iff d).mpr ⟨hnot,hf⟩,rfl⟩
  · refine .inl ?_
    obtain ⟨r,rfl⟩ := hcpre
    have hn : home_town < n := by unfold home_town; omega
    have hle := pathCost_le_append (d := d) (l := t.cities++[c]) (r := r++[home_town])
      fun x hx => by
        rw [← List.append_assoc] at hx
        rcases List.mem_append.mp hx with hx | hx
        · exact hp.lt hx
        · exact List.mem_singleton.mp hx ▸ hn
    have hcost := (ht.Add_city hnot hlt).cost
    rw [Tour.Add_city_cost,Tour.Add_city_cities] at hcost
    rw [← List.append_assoc] at hle
    have hread := hb c hlt
    unfold cycleCost
    omega

/-- Below a full tour lies one cycle. -/
theorem eq_of_full (hc : t.City_count = n) {p : List ℕ} (hp : Hamiltonian n p)
    (hpre : t.cities <+: p) : p = t.cities :=
  (hpre.eq_of_length (by rw [hp.length,← hc]; rfl)).symm

theorem cost_full (ht : IsPath d t) :
    t.cost+d.Cost t.Last_city home_town = cycleCost d t.cities :=
  congrArg Tour.cost ht.cost_home

end Visit

section Process
variable {d : Digraph n} {min_split_sz : ℕ} {s u s' : Process n T} {i : Fin T}

@[simp] theorem setThread_self (t : Thread n) : (s.setThread i t).threads i = t :=
  Function.update_self ..

theorem setThread_of_ne {j : Fin T} (h : j ≠ i) (t : Thread n) :
    (s.setThread i t).threads j = s.threads j :=
  Function.update_of_ne h ..

theorem wake_stack (t : Thread n) : (Process.wake t).stack = t.stack := by
  unfold Process.wake
  split_ifs <;> rfl

theorem wake_pc (t : Thread n) (h : t.pc ≠ .waiting) : Process.wake t = t := if_neg h

theorem wake_ne_exited (t : Thread n) (h : (Process.wake t).pc = .exited) : t.pc = .exited := by
  unfold Process.wake at h
  split_ifs at h
  exact h

/-- Some threads are woken. -/
def Woken (s s' : Process n T) : Prop :=
  s'.term = s.term ∧ ∀ j, s'.threads j = s.threads j ∨ s'.threads j = Process.wake (s.threads j)

theorem woken_signal {w : Option (Fin T)} (h : s.signal w = some s') : Woken s s' := by
  cases w with
  | none =>
    simp only [Process.signal] at h
    split_ifs at h
    cases h
    exact ⟨rfl,fun _ => .inl rfl⟩
  | some w =>
    simp only [Process.signal] at h
    split_ifs at h
    cases h
    refine ⟨rfl,?_⟩
    intro j
    by_cases hj : j = w
    · subst hj
      exact .inr (Function.update_self ..)
    · exact .inl (Function.update_of_ne hj ..)

/-- What a step of thread `i` other than a search leaves as it is. -/
structure Frame (s s' : Process n T) (i : Fin T) : Prop where
  calls : ∀ j, j ≠ i → (s.threads j).pc = .call → (s'.threads j).pc = .call
  waits : ∀ t, s'.Waits t ↔ s.Waits t
  exited : (s'.threads i).pc = .exited → s'.term.stack = none

theorem waits_congr (hterm : s'.term.stack = s.term.stack)
    (hstack : ∀ j, (s'.threads j).stack = (s.threads j).stack) (t : Tour) :
    s'.Waits t ↔ s.Waits t := by
  simp only [Process.Waits,hterm,hstack]

theorem Frame.woken (h : Frame s u i) (hw : Woken u s') : Frame s s' i := by
  obtain ⟨hterm,hthreads⟩ := hw
  have hstack (j) : (s'.threads j).stack = (u.threads j).stack := by
    obtain hj | hj := hthreads j <;> rw [hj]
    exact wake_stack _
  constructor
  · intro j hji hj
    have hu := h.calls j hji hj
    obtain he | he := hthreads j
    · rw [he,hu]
    · rw [he,wake_pc _ (by rw [hu]; decide),hu]
  · intro t
    exact (waits_congr (congrArg Term.stack hterm) hstack t).trans (h.waits t)
  · intro hi
    rw [hterm]
    apply h.exited
    obtain he | he := hthreads i <;> rw [he] at hi
    · exact hi
    · exact wake_ne_exited _ hi

/-- A thread goes on and keeps its stack. -/
theorem frame_setThread (term : Term n) {pc : Pc} (hterm : term.stack = s.term.stack)
    (hpc : pc = .exited → s.term.stack = none) :
    Frame s ({ s with term := term }.setThread i ⟨pc,(s.threads i).stack⟩) i := by
  constructor
  · intro j hj hc
    rwa [setThread_of_ne hj]
  · apply waits_congr hterm
    intro j
    by_cases hj : j = i
    · subst hj
      rw [setThread_self]
    · rw [setThread_of_ne hj]
  · intro hi
    rw [setThread_self] at hi
    exact hterm.trans (hpc hi)

/-- A thread without tours takes the donated stack. -/
theorem frame_take {new : Stack n} {count : ℕ} (hnil : (s.threads i).stack.list = [])
    (hnew : s.term.stack = some new) :
    Frame s ({ s with term := ⟨none,count⟩ }.setThread i ⟨.search,new⟩) i := by
  constructor
  · intro j hj hc
    rwa [setThread_of_ne hj]
  · intro t
    constructor
    · rintro (⟨j,hj⟩ | ⟨stack,hstack,-⟩)
      · by_cases hji : j = i
        · subst hji
          refine .inr ⟨new,hnew,?_⟩
          rwa [setThread_self] at hj
        · exact .inl ⟨j,by rwa [setThread_of_ne hji] at *⟩
      · cases hstack
    · rintro (⟨j,hj⟩ | ⟨stack,hstack,ht⟩)
      · have hji : j ≠ i := by
          rintro rfl
          rw [hnil] at hj
          cases hj
        exact .inl ⟨j,by rwa [setThread_of_ne hji] at *⟩
      · obtain rfl := Option.some.inj (hnew.symm.trans hstack)
        exact .inl ⟨i,by rwa [setThread_self]⟩
  · intro _
    rfl

/-- A thread gives some of its tours away. -/
theorem frame_donate {count : ℕ} (hnone : s.term.stack = none) :
    Frame s ({ s with term := ⟨some (s.threads i).stack.Split_stack.2,count⟩ }.setThread i
      ⟨.search,(s.threads i).stack.Split_stack.1⟩) i := by
  have hsplit (t : Tour) : t ∈ (s.threads i).stack.list ↔
      t ∈ (s.threads i).stack.Split_stack.1.list ∨ t ∈ (s.threads i).stack.Split_stack.2.list := by
    have hperm := splitPairs_perm ((s.threads i).stack.list.drop 1)
    have hlist := List.take_append_drop 1 (s.threads i).stack.list
    rw [← List.mem_append]
    change _ ↔ t ∈ ((s.threads i).stack.list.take 1++
      (Stack.splitPairs ((s.threads i).stack.list.drop 1)).1)++
      (Stack.splitPairs ((s.threads i).stack.list.drop 1)).2
    rw [List.append_assoc,List.mem_append,hperm.mem_iff,← List.mem_append,hlist]
  constructor
  · intro j hj hc
    rwa [setThread_of_ne hj]
  · intro t
    constructor
    · rintro (⟨j,hj⟩ | ⟨stack,hstack,ht⟩)
      · by_cases hji : j = i
        · subst hji
          refine .inl ⟨j,(hsplit t).mpr (.inl ?_)⟩
          rwa [setThread_self] at hj
        · exact .inl ⟨j,by rwa [setThread_of_ne hji] at *⟩
      · cases hstack
        exact .inl ⟨i,(hsplit t).mpr (.inr ht)⟩
    · rintro (⟨j,hj⟩ | ⟨stack,hstack,-⟩)
      · by_cases hji : j = i
        · subst hji
          obtain ht | ht := (hsplit t).mp hj
          · exact .inl ⟨j,by rwa [setThread_self]⟩
          · exact .inr ⟨_,rfl,ht⟩
        · exact .inl ⟨j,by rwa [setThread_of_ne hji] at *⟩
      · rw [hnone] at hstack
        cases hstack
  · intro hi
    rw [setThread_self] at hi
    cases hi

theorem afterTests_eq (stack : Stack n) :
    ∃ pc, pc ≠ .exited ∧ Process.afterTests stack = ⟨pc,stack⟩ := by
  unfold Process.afterTests
  split_ifs
  · exact ⟨.lock,by decide,rfl⟩
  · exact ⟨.search,by decide,rfl⟩

theorem frame_stepThread
    (hempty : ∀ i, (s.threads i).pc.emptyHanded = true → (s.threads i).stack.list = [])
    (hs : s.stepThread min_split_sz i = some s') : Frame s s' i := by
  have hkeep {pc : Pc} (hpc : pc ≠ .exited) :
      Frame s (s.setThread i ⟨pc,(s.threads i).stack⟩) i :=
    frame_setThread s.term rfl fun h => absurd h hpc
  obtain ⟨pc,hpc,htests⟩ := afterTests_eq (s.threads i).stack
  unfold Process.stepThread at hs
  dsimp only at hs
  rw [htests] at hs
  split at hs
  · split_ifs at hs <;>
    · cases hs
      first
        | exact hkeep (by decide)
        | exact hkeep hpc
  · split_ifs at hs <;>
    · cases hs
      first
        | exact hkeep (by decide)
        | exact hkeep hpc
  · split_ifs at hs
    · cases hs
      refine (frame_setThread { s.term with count := s.term.count+1 } rfl
        fun (h : Pc.returned = .exited) => by cases h).woken ⟨rfl,?_⟩
      intro j
      by_cases hj : j = i
      · subst hj
        exact .inl (by simp [Process.setThread])
      · exact .inr (by simp [Process.setThread,Process.broadcast,hj])
    · cases hs
      exact frame_setThread _ rfl fun h => by cases h
  · rename_i hi
    split_ifs at hs
    · split at hs
      · rename_i new hnew
        cases hs
        exact frame_take (hempty i (by rw [hi]; rfl)) hnew
      · rename_i hnone
        cases hs
        exact frame_setThread _ rfl fun _ => hnone
    · cases hs
      exact hkeep (by decide)
  · cases hs

theorem frame_stepTrylock {got : Bool} {w : Option (Fin T)}
    (hs : s.stepTrylock i got w = some s') : Frame s s' i := by
  unfold Process.stepTrylock at hs
  dsimp only at hs
  split_ifs at hs with hi hgot
  · exact (frame_donate (Option.isNone_iff_eq_none.mp hgot.2.2)).woken (woken_signal hs)
  · cases hs
    exact frame_setThread s.term rfl fun h => by cases h

theorem frame_step {a : Action T} (ha : ∀ i best, a ≠ .search i best)
    (hempty : ∀ i, (s.threads i).pc.emptyHanded = true → (s.threads i).stack.list = [])
    (hs : s.step d min_split_sz a = some s') : Frame s s' a.thread := by
  unfold Process.step at hs
  split_ifs at hs
  cases a with
  | step i => exact frame_stepThread hempty hs
  | trylock i got w => exact frame_stepTrylock hs
  | search i best => exact absurd rfl (ha i best)
  | spurious i =>
    dsimp only at hs
    split_ifs at hs with hi
    cases hs
    have hwake : Process.wake (s.threads i) = ⟨.woken,(s.threads i).stack⟩ := if_pos hi
    rw [hwake]
    exact frame_setThread s.term rfl fun h => by cases h

/-- The top tour of a stack gives way to others. -/
theorem waits_visit {t : Tour} {rest l : List Tour} {stack : Stack n}
    (hlist : (s.threads i).stack.list = rest++[t]) (hstack : stack.list = rest++l) :
    (∀ x, (s.setThread i ⟨.call,stack⟩).Waits x → s.Waits x ∨ x ∈ l) ∧
    (∀ x, s.Waits x → x = t ∨ (s.setThread i ⟨.call,stack⟩).Waits x) ∧
    ∀ x ∈ l, (s.setThread i ⟨.call,stack⟩).Waits x := by
  have hself : ((s.setThread i ⟨.call,stack⟩).threads i).stack.list = rest++l := by
    rw [setThread_self]
    exact hstack
  have hother (j) (hj : j ≠ i) : ((s.setThread i ⟨.call,stack⟩).threads j).stack =
      (s.threads j).stack := by
    rw [setThread_of_ne hj]
  refine ⟨?_,?_,?_⟩
  · rintro x (⟨j,hj⟩ | hterm)
    · by_cases hji : j = i
      · subst hji
        rw [hself] at hj
        obtain hx | hx := List.mem_append.mp hj
        · exact .inl (.inl ⟨j,hlist ▸ List.mem_append_left _ hx⟩)
        · exact .inr hx
      · exact .inl (.inl ⟨j,hother j hji ▸ hj⟩)
    · exact .inl (.inr hterm)
  · rintro x (⟨j,hj⟩ | hterm)
    · by_cases hji : j = i
      · subst hji
        rw [hlist] at hj
        obtain hx | hx := List.mem_append.mp hj
        · exact .inr (.inl ⟨j,hself ▸ List.mem_append_left _ hx⟩)
        · exact .inl (List.mem_singleton.mp hx)
      · exact .inr (.inl ⟨j,(hother j hji).symm ▸ hj⟩)
    · exact .inr (.inr hterm)
  · intro x hx
    exact .inl ⟨i,hself ▸ List.mem_append_right _ hx⟩

end Process

end PucRio.Tsp
