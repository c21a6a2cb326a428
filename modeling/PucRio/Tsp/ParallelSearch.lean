import PucRio.Tsp.InitialTours
import PucRio.Tsp.Searchers

/-! The search by all processes. Their threads find a cheapest cycle, in whatever order they go on,
where none of them reads the cost of the best tour of its process while this is replaced. -/
namespace PucRio.Tsp
variable {n T C : ℕ}

/-- The processes, and the costs of tours that each of them has not received yet. -/
structure Cluster (n T C : ℕ) where
  processes : Fin C → Searchers n T
  messages : Fin C → List ℤ := fun _ => []

namespace Cluster

inductive Move (T C : ℕ)
  | process (cluster_rank : Fin C) (m : Tsp.Move T)
  /-- `Look_for_best_tours` receives a cost, from any of the other processes. -/
  | receive (cluster_rank : Fin C) (tour_cost : ℤ)

def Bcast_tour_cost (messages : Fin C → List ℤ) (cluster_rank : Fin C) (tour_cost : ℤ) :
    Fin C → List ℤ :=
  fun dest => if dest ≠ cluster_rank then tour_cost::messages dest else messages dest

def stepProcess (d : Digraph n) (min_split_sz : ℕ) (c : Cluster n T C) (cluster_rank : Fin C)
    (m : Tsp.Move T) : Option (Cluster n T C) :=
  ((c.processes cluster_rank).step d min_split_sz m).map fun s =>
    { processes := Function.update c.processes cluster_rank s
      messages := match m with
        | .addHome _ => Bcast_tour_cost c.messages cluster_rank s.global_best_tour_cost
        | _ => c.messages }

def Look_for_best_tours (c : Cluster n T C) (cluster_rank : Fin C) (tour_cost : ℤ) :
    Option (Cluster n T C) :=
  if tour_cost ∈ c.messages cluster_rank then
    let s := c.processes cluster_rank
    some
      { processes := Function.update c.processes cluster_rank
          { s with global_best_tour_cost :=
              if tour_cost < s.global_best_tour_cost then tour_cost else s.global_best_tour_cost }
        messages := Function.update c.messages cluster_rank
          ((c.messages cluster_rank).erase tour_cost) }
  else none

def step (d : Digraph n) (min_split_sz : ℕ) (c : Cluster n T C) :
    Move T C → Option (Cluster n T C)
  | .process cluster_rank m => c.stepProcess d min_split_sz cluster_rank m
  | .receive cluster_rank tour_cost => c.Look_for_best_tours cluster_rank tour_cost

end Cluster

def clusterSearch (d : Digraph n) (min_split_sz : ℕ) (shares : Fin C → Fin T → Stack n) :
    TransitionSystem (Cluster n T C) (Cluster.Move T C) where
  init := { processes := fun cluster_rank => (parallelSearch d min_split_sz (shares cluster_rank)).init }
  step := Cluster.step d min_split_sz

/-- `MPI_MINLOC`, for a cost and a rank. -/
def minloc (loc_data data : ℤ × Fin C) : ℤ × Fin C :=
  if data.1 < loc_data.1 ∨ data.1 = loc_data.1 ∧ data.2 < loc_data.2 then data else loc_data

/-- The best tour of a process at the end. Process 0 receives that of the process with the least cost,
the first one if there are several. -/
def Get_global_best_tour (n : ℕ) (loc_best_tour : Fin C → Tour) (cluster_rank : Fin C) : Tour :=
  let global_data := (List.finRange C).foldl
    (fun data rank => minloc data ((loc_best_tour rank).cost,rank))
    ((loc_best_tour cluster_rank).cost,cluster_rank)
  if global_data.2.val = 0 then loc_best_tour cluster_rank
  else if cluster_rank.val = 0 then
    ⟨(loc_best_tour global_data.2).cities.take (n+1),global_data.1⟩
  else loc_best_tour cluster_rank

/-- What the reduction gives is the cost of that process, and no other one is less. -/
theorem foldl_minloc (cost : Fin C → ℤ) (l : List (Fin C)) {data : ℤ × Fin C}
    (h : data.1 = cost data.2) :
    (l.foldl (fun data rank => minloc data (cost rank,rank)) data).1 =
      cost (l.foldl (fun data rank => minloc data (cost rank,rank)) data).2 ∧
    (l.foldl (fun data rank => minloc data (cost rank,rank)) data).1 ≤ data.1 ∧
    ∀ rank ∈ l, (l.foldl (fun data rank => minloc data (cost rank,rank)) data).1 ≤ cost rank := by
  induction l generalizing data with
  | nil => exact ⟨h,le_rfl,fun _ hr => by cases hr⟩
  | cons rank l ih =>
    have hmin : (minloc data (cost rank,rank)).1 = cost (minloc data (cost rank,rank)).2 ∧
        (minloc data (cost rank,rank)).1 ≤ data.1 ∧
        (minloc data (cost rank,rank)).1 ≤ cost rank := by
      unfold minloc
      dsimp only
      split_ifs with hlt
      · exact ⟨rfl,by omega,le_rfl⟩
      · exact ⟨h,le_rfl,by omega⟩
    obtain ⟨heq,hle,hall⟩ := ih hmin.1
    refine ⟨heq,hle.trans hmin.2.1,?_⟩
    intro r hr
    obtain rfl | hr := List.mem_cons.mp hr
    · exact hle.trans hmin.2.2
    · exact hall r hr

/-- The last thread finds no donated tours, and no search reads the cost of a tour without its way
home. -/
def ReadsFinished (s : Searchers n T) : Move T → Prop
  | .process a => LastFindsNone s.process a ∧ a.Reads n s.finished
  | _ => True

instance (s : Searchers n T) : (a : Move T) → Decidable (ReadsFinished s a)
  | .process a =>
    inferInstanceAs (Decidable (LastFindsNone s.process a ∧ a.Reads n s.finished))
  | .copyTour _ => inferInstanceAs (Decidable True)
  | .addHome _ => inferInstanceAs (Decidable True)

/-- In every process. -/
def Cluster.ReadsFinished (c : Cluster n T C) : Cluster.Move T C → Prop
  | .process cluster_rank m => Tsp.ReadsFinished (c.processes cluster_rank) m
  | .receive _ _ => True

instance (c : Cluster n T C) : (a : Cluster.Move T C) → Decidable (c.ReadsFinished a)
  | .process r m => inferInstanceAs (Decidable (Tsp.ReadsFinished (c.processes r) m))
  | .receive _ _ => inferInstanceAs (Decidable True)

/-- The Hamiltonian paths below the tours that the threads of a process start with. -/
def BelowShares (shares : Fin T → Stack n) (p : List ℕ) : Prop :=
  Hamiltonian n p ∧ ∃ i, ∃ t ∈ (shares i).list, t.cities <+: p

section Invariant
variable {d : Digraph n} {shares : Fin T → Stack n} {min_split_sz : ℕ} {s s' : Searchers n T}
  {b : ℤ}

/-- `b` is the cost of the last finished tour; a cycle of these shares that is cheaper lies below a
tour that waits or with which a thread is to update the best tour. -/
structure Exploring (d : Digraph n) (shares : Fin T → Stack n) (s : Searchers n T) (b : ℤ) :
    Prop where
  ends : Working s.process ∨ Ended s.process
  exited : (∀ i, (s.process.threads i).pc = .exited) → s.process.term.stack = none
  paths : ∀ t, s.process.Waits t → IsPath d t
  updating : ∀ i t, s.updating i = some t →
    IsPath d t ∧ t.City_count = n ∧ (s.process.threads i).pc = .call
  covered : CoveredBy (fun (t : Tour) p => t.cities <+: p) (cycleCost d) (BelowShares shares) b
    fun t => s.process.Waits t ∨ ∃ i, s.updating i = some t
  finished : ∀ c ∈ s.finished, b ≤ c
  settled : s.copying = none → s.loc_best_tour.cost = b ∧
    (s.loc_best_tour = .Init_tour INFINITY ∨ ∃ p, Hamiltonian n p ∧
      s.loc_best_tour = ⟨p++[home_town],cycleCost d p⟩)
  copied : ∀ i, s.copying = some i →
    s.updating i = some s.loc_best_tour ∧ cycleCost d s.loc_best_tour.cities < b

namespace Exploring

theorem empty (h : Exploring d shares s b) (i : Fin T)
    (hi : (s.process.threads i).pc.emptyHanded = true) : (s.process.threads i).stack.list = [] :=
  h.ends.elim (fun hw => hw.empty i hi) fun he => he.empty i

/-- The mutex is taken: the tour is still better, or it is dropped. -/
theorem copyTour (h : Exploring d shares s b) {i : Fin T} (hs : s.stepCopy d i = some s') :
    Exploring d shares s' b := by
  unfold Searchers.stepCopy at hs
  split at hs
  · rename_i tour hi hcopying
    obtain ⟨hpath,hfull,hpc⟩ := h.updating i tour hi
    obtain ⟨hcost,hbest⟩ := h.settled hcopying
    split_ifs at hs with hbt
    · cases hs
      refine ⟨h.ends,h.exited,h.paths,h.updating,h.covered,h.finished,(fun hc => by cases hc),?_⟩
      intro j hj
      cases hj
      refine ⟨hi,?_⟩
      rw [← cost_full hpath,← hcost]
      exact of_decide_eq_true hbt
    · cases hs
      refine ⟨h.ends,h.exited,h.paths,?_,?_,h.finished,h.settled,?_⟩
      · intro j t hj
        by_cases hji : j = i
        · subst hji
          simp only [Function.update_self] at hj
          cases hj
        · simp only [Function.update_of_ne hji] at hj
          exact h.updating j t hj
      · refine h.covered.step le_rfl ?_
        rintro t p (ht | ⟨j,hj⟩) hp hpre
        · exact .inr ⟨t,.inl ht,hpre⟩
        · by_cases hji : j = i
          · subst hji
            obtain rfl := Option.some.inj (hi.symm.trans hj)
            refine .inl ?_
            rw [eq_of_full hfull hp.1 hpre,← cost_full hpath,← hcost]
            exact not_lt.mp fun hlt => hbt (decide_eq_true hlt)
          · exact .inr ⟨t,.inr ⟨j,(Function.update_of_ne hji ..).trans hj⟩,hpre⟩
      · intro j hj
        rw [hcopying] at hj
        cases hj
  · cases hs

/-- The tour is finished, and its cost is the least so far. -/
theorem addHome (h : Exploring d shares s b) {i : Fin T} (hs : s.stepAddHome d i = some s') :
    ∃ b', Exploring d shares s' b' := by
  unfold Searchers.stepAddHome at hs
  split_ifs at hs with hcopying
  cases hs
  obtain ⟨hi,hlt⟩ := h.copied i hcopying
  obtain ⟨hpath,hfull,hpc⟩ := h.updating i _ hi
  refine ⟨cycleCost d s.loc_best_tour.cities,h.ends,h.exited,h.paths,?_,?_,?_,?_,?_⟩
  · intro j t hj
    by_cases hji : j = i
    · subst hji
      simp only [Function.update_self] at hj
      cases hj
    · simp only [Function.update_of_ne hji] at hj
      exact h.updating j t hj
  · refine h.covered.step hlt.le ?_
    rintro t p (ht | ⟨j,hj⟩) hp hpre
    · exact .inr ⟨t,.inl ht,hpre⟩
    · by_cases hji : j = i
      · subst hji
        obtain rfl := Option.some.inj (hi.symm.trans hj)
        refine .inl ?_
        rw [eq_of_full hfull hp.1 hpre]
      · exact .inr ⟨t,.inr ⟨j,(Function.update_of_ne hji ..).trans hj⟩,hpre⟩
  · intro c hc
    obtain rfl | hc := List.mem_cons.mp hc
    · rw [hpath.cost_home]
    · exact hlt.le.trans (h.finished c hc)
  · intro _
    dsimp only
    rw [hpath.cost_home]
    exact ⟨rfl,.inr ⟨_,hpath.hamiltonian hfull,rfl⟩⟩
  · intro j hj
    cases hj

/-- A step that is no search moves tours about. -/
theorem move (h : Exploring d shares s b) {a : Action T} {u : Process n T}
    (ha : ∀ i best, a ≠ .search i best) (hidle : s.updating a.thread = none)
    (hends : Working u ∨ Ended u) (hu : s.process.step d min_split_sz a = some u) :
    Exploring d shares { s with process := u } b := by
  have hframe := frame_step ha h.empty hu
  refine ⟨hends,fun hall => hframe.exited (hall _),?_,?_,?_,h.finished,h.settled,h.copied⟩
  · intro t ht
    exact h.paths t ((hframe.waits t).mp ht)
  · intro i t hi
    obtain ⟨hpath,hfull,hpc⟩ := h.updating i t hi
    refine ⟨hpath,hfull,hframe.calls i ?_ hpc⟩
    rintro rfl
    rw [hidle] at hi
    cases hi
  · refine h.covered.step le_rfl ?_
    rintro t p (ht | ht) hp hpre
    · exact .inr ⟨t,.inl ((hframe.waits t).mpr ht),hpre⟩
    · exact .inr ⟨t,.inr ht,hpre⟩

/-- A search replaces a tour by those one city longer, or keeps it to update the best tour. -/
theorem search (h : Exploring d shares s b) {i : Fin T} {best : ℕ → ℤ} {t : Tour} {stack : Stack n}
    (hn : 1 ≤ n) (hidle : s.updating i = none) (hbest : ∀ city < n, b ≤ best city)
    (hends : Working (s.process.setThread i ⟨.call,stack⟩) ∨
      Ended (s.process.setThread i ⟨.call,stack⟩))
    (hvisit : visit d best (s.process.threads i).stack = some (t,stack)) :
    Exploring d shares { s with
      process := s.process.setThread i ⟨.call,stack⟩
      updating := Function.update s.updating i
        ((Action.search i best).toUpdate d s.process) } b := by
  obtain ⟨rest,hlist,hstack⟩ := visit_ok hvisit
  obtain ⟨hback,hforth,hnew⟩ := waits_visit hlist hstack
  have ht : IsPath d t := h.paths t (.inl ⟨i,hlist ▸ by simp⟩)
  have hself : ((s.process.setThread i ⟨.call,stack⟩).threads i).pc = .call := by
    rw [setThread_self]
  have hupdate : (Action.search i best).toUpdate d s.process =
      if t.City_count = n ∧ t.cost+d.Cost t.Last_city home_town < best home_town then some t
      else none := by
    rw [Action.toUpdate,hvisit,Option.bind_some]
  rw [hupdate]
  constructor
  · exact hends
  · intro hall
    have hi := hall i
    rw [hself] at hi
    cases hi
  · intro x hx
    obtain hx | hx := hback x hx
    · exact h.paths x hx
    · exact isPath_offspring ht hx
  · intro j x hj
    by_cases hji : j = i
    · subst hji
      simp only [Function.update_self] at hj
      split_ifs at hj with hc
      cases hj
      exact ⟨ht,hc.1,hself⟩
    · simp only [Function.update_of_ne hji] at hj
      obtain ⟨hpath,hfull,hpc⟩ := h.updating j x hj
      refine ⟨hpath,hfull,?_⟩
      rw [setThread_of_ne hji]
      exact hpc
  · refine h.covered.step le_rfl ?_
    rintro x p (hx | ⟨j,hj⟩) hp hpre
    · obtain rfl | hx := hforth x hx
      · by_cases hc : x.City_count = n
        · by_cases hcheap : x.cost+d.Cost x.Last_city home_town < best home_town
          · refine .inr ⟨x,.inr ⟨i,?_⟩,hpre⟩
            exact (Function.update_self ..).trans (if_pos ⟨hc,hcheap⟩)
          · refine .inl ?_
            rw [eq_of_full hc hp.1 hpre,← cost_full ht]
            exact (hbest home_town (by unfold home_town; omega)).trans (not_lt.mp hcheap)
        · obtain hle | ⟨u,hu,hup⟩ := covered_offspring ht hc hbest hp.1 hpre
          · exact .inl hle
          · exact .inr ⟨u,.inl (hnew u hu),hup⟩
      · exact .inr ⟨x,.inl hx,hpre⟩
    · have hji : j ≠ i := by
        rintro rfl
        rw [hidle] at hj
        cases hj
      exact .inr ⟨x,.inr ⟨j,(Function.update_of_ne hji ..).trans hj⟩,hpre⟩
  · exact h.finished
  · exact h.settled
  · intro j hj
    obtain ⟨hupdating,hlt⟩ := h.copied j hj
    have hji : j ≠ i := by
      rintro rfl
      rw [hidle] at hupdating
      cases hupdating
    exact ⟨(Function.update_of_ne hji ..).trans hupdating,hlt⟩

theorem process (h : Exploring d shares s b) (hn : 1 ≤ n) {a : Action T}
    (hg : LastFindsNone s.process a ∧ a.Reads n s.finished)
    (hs : s.stepProcess d min_split_sz a = some s') : Exploring d shares s' b := by
  unfold Searchers.stepProcess at hs
  split_ifs at hs with hguard
  obtain ⟨u,hu,rfl⟩ := Option.map_eq_some_iff.mp hs
  have hends : Working u ∨ Ended u :=
    h.ends.elim (fun hw => hw.step hg.1 hu) fun he => .inr (he.step hu)
  have hstay : Function.update s.updating a.thread none = s.updating := by
    rw [← hguard.1,Function.update_eq_self]
  cases a with
  | search i best =>
    have hbest (city) (hc : city < n) : b ≤ best city := h.finished _ (hg.2 city hc)
    cases hvisit : visit d best (s.process.threads i).stack with
    | none =>
      have hnone : (Action.search i best).toUpdate d s.process = none := by
        rw [Action.toUpdate,hvisit,Option.bind_none]
      rw [hnone,hstay]
      unfold Process.step at hu
      split_ifs at hu with hr
      dsimp only at hu
      split_ifs at hu with hpc
      rw [hvisit] at hu
      cases hu
      exact ⟨hends,h.exited,h.paths,h.updating,h.covered,h.finished,h.settled,h.copied⟩
    | some r =>
      obtain ⟨t,stack⟩ := r
      unfold Process.step at hu
      split_ifs at hu with hr
      dsimp only at hu
      split_ifs at hu with hpc
      rw [hvisit] at hu
      cases hu
      exact h.search hn hguard.1 hbest hends hvisit
  | step i =>
    rw [show (Action.step i).toUpdate d s.process = none from rfl,hstay]
    exact h.move (fun _ _ ha => by cases ha) hguard.1 hends hu
  | trylock i got w =>
    rw [show (Action.trylock i got w).toUpdate d s.process = none from rfl,hstay]
    exact h.move (fun _ _ ha => by cases ha) hguard.1 hends hu
  | spurious i =>
    rw [show (Action.spurious i).toUpdate d s.process = none from rfl,hstay]
    exact h.move (fun _ _ ha => by cases ha) hguard.1 hends hu

theorem step (h : Exploring d shares s b) (hn : 1 ≤ n) {a : Move T} (hg : ReadsFinished s a)
    (hs : s.step d min_split_sz a = some s') : ∃ b', Exploring d shares s' b' := by
  cases a with
  | process a => exact ⟨b,h.process hn hg hs⟩
  | copyTour i =>
    change (if _ then _ else _) = _ at hs
    split_ifs at hs
    exact ⟨b,h.copyTour hs⟩
  | addHome i =>
    change (if _ then _ else _) = _ at hs
    split_ifs at hs
    exact h.addHome hs

/-- Where every thread is through no tour is left. -/
theorem not_waits (h : Exploring d shares s b)
    (hend : ∀ i, (s.process.threads i).pc = .returned ∨ (s.process.threads i).pc = .exited)
    (t : Tour) : ¬ s.process.Waits t := by
  obtain hw | he := h.ends
  · have hall (i) : (s.process.threads i).pc = .exited :=
      (hend i).resolve_left (hw.none_returned i)
    rintro (⟨i,hi⟩ | ⟨stack,hstack,-⟩)
    · rw [hw.empty i (by rw [hall i]; rfl)] at hi
      cases hi
    · rw [h.exited hall] at hstack
      cases hstack
  · rintro (⟨i,hi⟩ | ⟨stack,hstack,ht⟩)
    · rw [he.empty i] at hi
      cases hi
    · rw [he.noTours stack hstack] at ht
      cases ht

/-- Where every thread is through, the best tour is the cheapest of these shares. -/
theorem exact (h : Exploring d shares s b)
    (hend : ∀ i, (s.process.threads i).pc = .returned ∨ (s.process.threads i).pc = .exited) :
    (∀ q, BelowShares shares q → s.loc_best_tour.cost ≤ cycleCost d q) ∧
    (s.loc_best_tour = .Init_tour INFINITY ∨ ∃ p, Hamiltonian n p ∧
      s.loc_best_tour = ⟨p++[home_town],cycleCost d p⟩) := by
  have hidle (i t) : s.updating i ≠ some t := by
    intro hi
    obtain ⟨-,-,hpc⟩ := h.updating i t hi
    obtain hi | hi := hend i <;>
    · rw [hpc] at hi
      cases hi
  have hcopying : s.copying = none := by
    cases hc : s.copying with
    | none => rfl
    | some i => exact absurd (h.copied i hc).1 (hidle i _)
  obtain ⟨hcost,hbest⟩ := h.settled hcopying
  refine ⟨?_,hbest⟩
  intro q hq
  rw [hcost]
  obtain hle | ⟨t,ht | ⟨i,hi⟩,-⟩ := h.covered q hq
  · exact hle
  · exact absurd ht (h.not_waits hend t)
  · exact absurd hi (hidle i t)

end Exploring

theorem exploring_init (d : Digraph n) (min_split_sz : ℕ)
    (hpaths : ∀ i, ∀ t ∈ (shares i).list, IsPath d t) :
    Exploring d shares (parallelSearch d min_split_sz shares).init INFINITY where
  ends := .inl (working_init d min_split_sz shares)
  exited _ := rfl
  paths := by
    rintro t (⟨i,hi⟩ | ⟨stack,hstack,-⟩)
    · exact hpaths i t hi
    · cases hstack
  updating i t hi := by cases hi
  covered p hp := by
    obtain ⟨i,t,ht,hpre⟩ := hp.2
    exact .inr ⟨t,.inl (.inl ⟨i,ht⟩),hpre⟩
  finished c hc := (List.mem_singleton.mp hc).ge
  settled _ := ⟨rfl,.inl rfl⟩
  copied i hi := by cases hi

end Invariant

section Processes
variable {d : Digraph n} {min_split_sz : ℕ} {shares : Fin C → Fin T → Stack n} {c c' : Cluster n T C}

theorem exploring_step (hn : 1 ≤ n) (h : ∀ r, ∃ b, Exploring d (shares r) (c.processes r) b)
    {a : Cluster.Move T C} (hg : c.ReadsFinished a) (hs : c.step d min_split_sz a = some c') :
    ∀ r, ∃ b, Exploring d (shares r) (c'.processes r) b := by
  intro r
  cases a with
  | process rank m =>
    obtain ⟨s,hstep,rfl⟩ := Option.map_eq_some_iff.mp hs
    by_cases hr : r = rank
    · subst hr
      obtain ⟨b,hb⟩ := h r
      dsimp only
      rw [Function.update_self]
      exact hb.step hn hg hstep
    · dsimp only
      rw [Function.update_of_ne hr]
      exact h r
  | receive rank tour_cost =>
    -- the cost that is received is no part of the invariant
    obtain ⟨-,hs⟩ := Option.ite_none_right_eq_some.mp hs
    cases hs
    by_cases hr : r = rank
    · subst hr
      obtain ⟨b,hb⟩ := h r
      dsimp only
      rw [Function.update_self]
      exact ⟨b,hb.ends,hb.exited,hb.paths,hb.updating,hb.covered,hb.finished,hb.settled,hb.copied⟩
    · dsimp only
      rw [Function.update_of_ne hr]
      exact h r

/-- For three cities: the shares of two processes with one thread each, or of two threads. -/
def threeShares (d : Digraph 3) : Fin 2 → Stack 3 :=
  ![⟨[⟨[0,1],d.Cost 0 1⟩],Nat.le_of_ble_eq_true rfl⟩,
    ⟨[⟨[0,2],d.Cost 0 2⟩],Nat.le_of_ble_eq_true rfl⟩]

/-- The only thread of a process finds the cycle of its share. -/
def searchShare (cluster_rank : Fin 2) : List (Cluster.Move 1 2) :=
  let thread : Fin 1 := Fin.last 0
  [Move.process (.step thread),.process (.search thread fun _ => INFINITY),.process (.step thread),
    .process (.search thread fun _ => INFINITY),.copyTour thread,.addHome thread,
    .process (.step thread),.process (.step thread)].map (.process cluster_rank)

/-- Any number of processes with any number of threads, in any order: while no search reads the cost
of a tour without its way home and the last thread of a process finds no donated tours, what process 0
has when all of them are through is a cheapest cycle. -/
theorem clusterSearch_exact (d : Digraph n) (hn : 2 ≤ n)
    (small : ∀ p, Hamiltonian n p → cycleCost d p < INFINITY) (hT : 0 < T) (hC : 0 < C)
    (hlt : T*C < 2^31) {fuel : ℕ}
    (hshares : ∀ (r : Fin C) (i : Fin T), Partition_tree d T C r i fuel = .ok (shares r i))
    (h : (clusterSearch d min_split_sz shares).ReachableUnder Cluster.ReadsFinished c)
    (hend : ∀ r i, ((c.processes r).process.threads i).pc = .returned ∨
      ((c.processes r).process.threads i).pc = .exited) :
    ∃ p, Hamiltonian n p ∧ (∀ q, Hamiltonian n q → cycleCost d p ≤ cycleCost d q) ∧
      Get_global_best_tour n (fun r => (c.processes r).loc_best_tour) ⟨0,hC⟩ =
        ⟨p++[home_town],cycleCost d p⟩ := by
  obtain ⟨hpaths,hcover⟩ := shares_cover hn hT hC hlt hshares
  have hexact (r) : (∀ q, BelowShares (shares r) q →
      (c.processes r).loc_best_tour.cost ≤ cycleCost d q) ∧
      ((c.processes r).loc_best_tour = .Init_tour INFINITY ∨ ∃ p, Hamiltonian n p ∧
        (c.processes r).loc_best_tour = ⟨p++[home_town],cycleCost d p⟩) := by
    obtain ⟨b,hb⟩ := h.invariant (I := fun c => ∀ r, ∃ b, Exploring d (shares r) (c.processes r) b)
      (fun r => ⟨_,exploring_init d min_split_sz (hpaths r)⟩)
      (fun _ _ _ he hg hs => exploring_step (by omega) he hg hs) r
    exact hb.exact (hend r)
  unfold Get_global_best_tour
  obtain ⟨hcost,-,hall⟩ := foldl_minloc (fun r => (c.processes r).loc_best_tour.cost)
    (List.finRange C)
    (show ((c.processes ⟨0,hC⟩).loc_best_tour.cost,(⟨0,hC⟩ : Fin C)).1 = _ from rfl)
  generalize (List.finRange C).foldl _ _ = global_data at hcost hall ⊢
  have hleast (q) (hq : Hamiltonian n q) :
      (c.processes global_data.2).loc_best_tour.cost ≤ cycleCost d q := by
    obtain ⟨r,i,t,ht,hpre⟩ := hcover q hq
    rw [← hcost]
    exact (hall r (List.mem_finRange r)).trans ((hexact r).1 q ⟨hq,i,t,ht,hpre⟩)
  obtain hbest | ⟨p,hp,hbest⟩ := (hexact global_data.2).2
  · have hham := hamiltonian_range (n := n) (by omega)
    have hle := hleast _ hham
    rw [hbest] at hle
    exact absurd (small _ hham) (not_lt.mpr hle)
  · have hvalue : global_data.1 = cycleCost d p := hcost.trans (congrArg Tour.cost hbest)
    rw [hbest] at hleast
    refine ⟨p,hp,hleast,?_⟩
    dsimp only
    rw [if_pos rfl]
    split_ifs with hzero
    · obtain hroot : global_data.2 = ⟨0,hC⟩ := Fin.ext hzero
      rw [← hroot]
      exact hbest
    · rw [hbest,hvalue,List.take_of_length_le]
      simp [hp.length]

theorem clusterSearch_exact_three : ∃ c : Cluster 3 1 2,
    (∀ r i, ((c.processes r).process.threads i).pc = .returned) ∧
    ∃ p, Hamiltonian 3 p ∧
      (∀ q, Hamiltonian 3 q → cycleCost (unitCosts 3) p ≤ cycleCost (unitCosts 3) q) ∧
      Get_global_best_tour 3 (fun r => (c.processes r).loc_best_tour) ⟨0,two_pos⟩ =
        ⟨p++[home_town],cycleCost (unitCosts 3) p⟩ := by
  obtain ⟨c,hc,hl⟩ := TransitionSystem.exists_reachableUnder_of_execUnder
    (G := Cluster.ReadsFinished)
    (T := clusterSearch (unitCosts 3) 2 fun r _ => threeShares (unitCosts 3) r)
    (l := searchShare 0++.receive 1 3::searchShare 1)
    (p := fun c => ((c.processes 0).process.threads (Fin.last 0)).pc = .returned &&
      ((c.processes 1).process.threads (Fin.last 0)).pc = .returned) (by decide +kernel)
  simp only [Bool.and_eq_true,decide_eq_true_eq] at hl
  have hend (r i) : ((c.processes r).process.threads i).pc = .returned := by
    rw [Subsingleton.elim i (Fin.last 0)]
    fin_cases r
    · exact hl.1
    · exact hl.2
  have hshares (r : Fin 2) (i : Fin 1) :
      Partition_tree (unitCosts 3) 1 2 r i 9 = .ok (threeShares (unitCosts 3) r) := by
    fin_cases r <;> fin_cases i <;> rfl
  exact ⟨c,hend,clusterSearch_exact (unitCosts 3) (by decide)
    (fun _ => cycleCost_unitCosts_lt (by decide)) (by decide) (by decide) (by decide) hshares hc
    fun r i => .inl (hend r i)⟩

end Processes

/-- The way home from city 2 is long. -/
def longWayHome : Digraph 3 where
  Cost i j := if i = j then 0 else if i = 2 ∧ j = 0 then 10 else if i = 0 ∧ j = 2 then 2 else 1
  diagonal _ _ := if_pos rfl
  positive i j _ _ hij := by
    rw [if_neg hij]
    split_ifs <;> decide

/-- Thread `j` reads 2 where thread `i` has copied the tour `0 1 2` and not added the way home yet. -/
def readInBetween (i j : Fin 2) : List (Move 2) :=
  [.process (.step i),.process (.search i fun _ => INFINITY),.process (.step i),
    .process (.search i fun _ => INFINITY),.copyTour i,.process (.step j),
    .process (.search j fun _ => 2),.process (.step j),.process (.step j),.addHome i,
    .process (.step i),.process (.step i),.process (.step j)]

/-- Both threads are through with the cycle that costs 12; there is one that costs 4. -/
theorem not_exact_readInBetween :
    (∀ i : Fin 2, Partition_tree longWayHome 2 1 0 i 9 = .ok (threeShares longWayHome i)) ∧
    (∃ s, (parallelSearch longWayHome 2 (threeShares longWayHome)).Reachable s ∧
      (∀ i, (s.process.threads i).pc = .returned) ∧ s.loc_best_tour = ⟨[0,1,2,0],12⟩) ∧
    cycleCost longWayHome [0,2,1] = 4 := by
  refine ⟨?_,?_,by decide⟩
  · intro i
    fin_cases i <;> rfl
  · obtain ⟨s,hs,hl⟩ := TransitionSystem.exists_reachable_of_exec (l := readInBetween 0 1)
      (T := parallelSearch longWayHome 2 (threeShares longWayHome))
      (p := fun s => ((s.process.threads 0).pc = .returned && (s.process.threads 1).pc = .returned) &&
        s.loc_best_tour = ⟨[0,1,2,0],12⟩) (by decide +kernel)
    simp only [Bool.and_eq_true,decide_eq_true_eq] at hl
    refine ⟨s,hs,Fin.forall_fin_two.mpr hl.1,hl.2⟩

end PucRio.Tsp
