import PucRio.Aquad.AllTasksDone

/-! Whom the master takes to be idle. With one worker its two accounts of the idle workers agree with
what it has received and sent; with more they disagree from the first message on. -/
namespace PucRio.Aquad.Aquad3
variable {R : Type*} {n_cores : ℕ}

/-- What the master knows of a worker: it said that it is available, or was sent a task. -/
inductive Event (n_cores : ℕ)
  | available (worker : Fin (n_cores-1))
  | execute (worker : Fin (n_cores-1))
  deriving DecidableEq, Repr

def Event.worker : Event n_cores → Fin (n_cores-1)
  | .available worker => worker
  | .execute worker => worker

def ToMaster.event (source : Fin (n_cores-1)) : ToMaster R → List (Event n_cores)
  | .WORKER_AVAILABLE .. => [.available source]
  | .ADD_TASK _ => []

def FromMaster.event (dest : Fin (n_cores-1)) : FromMaster → List (Event n_cores)
  | .EXECUTE_TASK _ => [.execute dest]
  | .NO_MORE_TASKS => []

section Events
variable [Add R] (l r : ℚ)

/-- What a round of the master's loop adds to the record. -/
def events (s : Farm (Fin (n_cores-1)) (Master n_cores R) Worker (ToMaster R) FromMaster) :
    FarmAction (Fin (n_cores-1)) Outcome → List (Event n_cores)
  | .receive i => s.toMaster i |>.head?.elim [] fun u =>
    (receive l r s.master i u).elim [] fun res =>
      u.event i++res.2.flatMap fun x => x.2.event x.1
  | _ => []

end Events

/-- The last that the master knows of the worker is that it is available. -/
def Free (log : List (Event n_cores)) (worker : Fin (n_cores-1)) : Prop :=
  (log.filter (·.worker = worker)).getLast? = some (.available worker)

instance (log : List (Event n_cores)) (worker : Fin (n_cores-1)) : Decidable (Free log worker) :=
  inferInstanceAs (Decidable (_ = _))

/-- `idle` and `availableWorkers` both say who is free, and only who was free was sent a task. -/
structure Agrees (m : Master n_cores R) (log : List (Event n_cores)) : Prop where
  idle : m.idle = (Finset.univ.filter fun w => m.availableWorkers w = 1).card
  free : ∀ w, m.availableWorkers w = 1 ↔ Free log w
  sent : ∀ p q w, log = p++.execute w::q → Free p w

section Free
variable {log : List (Event n_cores)} {w : Fin (n_cores-1)}

theorem free_available : Free (log++[.available w]) w := by
  simp [Free,List.filter_append,Event.worker]

theorem not_free_execute : ¬ Free (log++[.execute w]) w := by
  simp [Free,List.filter_append,Event.worker]

/-- A record with one event more only has one place more for a task. -/
theorem sent_concat {e : Event n_cores} (h : ∀ p q w, log = p++.execute w::q → Free p w)
    (he : ∀ w, e = .execute w → Free log w) (p q : List (Event n_cores)) (w : Fin (n_cores-1))
    (heq : log++[e] = p++.execute w::q) : Free p w := by
  rcases List.eq_nil_or_concat q with rfl | ⟨q,e',rfl⟩
  · obtain ⟨rfl,hlast⟩ := List.append_inj' heq rfl
    exact he w (List.singleton_inj.mp hlast)
  · rw [List.concat_eq_append,← List.cons_append,← List.append_assoc] at heq
    exact h p q w (List.append_inj' heq rfl).1

end Free

section Rounds
variable [Add R] {m m' : Master n_cores R} {sent sent' : List (Fin (n_cores-1) × FromMaster)}

omit [Add R] in
theorem AtEnd.events (h : AtEnd m sent m' sent') :
    (sent'.flatMap fun x => x.2.event x.1) = sent.flatMap fun x => x.2.event x.1 := by
  cases h with
  | goesOn => rfl
  | leaves idle stack =>
    rw [List.flatMap_append,List.flatMap_map]
    simp [FromMaster.event]

omit [Add R] in
theorem AtEnd.idle (h : AtEnd m sent m' sent') : m'.idle = m.idle := by
  cases h <;> rfl

end Rounds

section OneWorker
variable [Add R] [Zero R] {area : ℚ → ℚ → R} {l r : ℚ}
  {x y : Farm (Fin (2-1)) (Master 2 R) Worker (ToMaster R) FromMaster × List (Event 2)}

/-- The record of a run with one worker. -/
structure OneWorker (area : ℚ → ℚ → R)
    (x : Farm (Fin (2-1)) (Master 2 R) Worker (ToMaster R) FromMaster × List (Event 2)) : Prop where
  inv : Inv area x.1
  idle : x.2 = [] → x.1.master.idle = 0
  agrees : x.2 ≠ [] → Agrees x.1.master x.2

theorem OneWorker.sent (h : OneWorker area x) (p q : List (Event 2)) (w : Fin (2-1))
    (heq : x.2 = p++.execute w::q) : Free p w := by
  have hne : x.2 ≠ [] := by simp [heq]
  exact (h.agrees hne).sent p q w heq

theorem one_worker (i j : Fin (2-1)) : i = j := Fin.ext (by omega)

theorem card_available (i : Fin (2-1)) (availableWorkers : Fin (2-1) → ℕ) :
    (Finset.univ.filter fun w => availableWorkers w = 1).card =
      if availableWorkers i = 1 then 1 else 0 := by
  have huniv : (Finset.univ : Finset (Fin (2-1))) = {i} :=
    Finset.eq_singleton_iff_unique_mem.mpr ⟨Finset.mem_univ i,fun j _ => one_worker j i⟩
  rw [huniv,Finset.filter_singleton]
  split_ifs <;> rfl

/-- A task comes back only while the worker is at work: the master has nobody to forward it to. -/
theorem Inv.busy {s : Farm (Fin (2-1)) (Master 2 R) Worker (ToMaster R) FromMaster}
    (h : Inv area s) {i : Fin (2-1)} {u : ToMaster R} {rest : List (ToMaster R)}
    (head : s.toMaster i = u::rest) : s.master.idle = 0 := by
  by_contra hidle
  have hp := h.pending
  change s.master.idle+_ = _ at hp
  have hquiet := (h.quiet (by omega) i).2.1
  rw [head] at hquiet
  cases hquiet

theorem OneWorker.step (h : OneWorker area x) {a : FarmAction (Fin (2-1)) Outcome}
    (hs : ((rules l r area 2).farm.recorded (events l r)).step x a = some y) :
    OneWorker area y := by
  obtain ⟨hstep,hlog⟩ := TransitionSystem.recorded_step hs
  have hfarm := FarmStep.of_step hstep
  have hinv := h.inv.step hfarm
  obtain ⟨t,log⟩ := y
  simp only at hstep hlog hfarm hinv
  cases hfarm with
  | work work =>
    obtain rfl : log = x.2 := hlog.trans (List.append_nil _)
    exact ⟨hinv,h.idle,h.agrees⟩
  | take head take =>
    obtain rfl : log = x.2 := hlog.trans (List.append_nil _)
    exact ⟨hinv,h.idle,h.agrees⟩
  | @receive i u rest m sent head receive =>
    have hidle := h.inv.busy head
    have hevents : events l r x.1 (.receive i) = u.event i++sent.flatMap fun x => x.2.event x.1 := by
      simp only [events,head,List.head?_cons,Option.elim_some]
      rw [show Aquad3.receive l r x.1.master i u = _ from receive,Option.elim_some]
    rw [hevents] at hlog
    have huniq (w : Fin (2-1)) : w = i := one_worker w i
    cases (received_of_receive receive).2 with
    | pops stack atEnd =>
      rw [atEnd.events] at hlog
      have hlog' : log = (x.2++[.available i])++[.execute i] := by
        rw [hlog,List.append_assoc]
        rfl
      have hzero : m.availableWorkers i = 0 := by
        rw [atEnd.availableWorkers]
        exact Function.update_self i 0 _
      refine ⟨hinv,fun hnil => by simp [hlog'] at hnil,fun _ => ⟨?_,fun w => ?_,?_⟩⟩
      · rw [card_available i,Farm.received_master,hzero,atEnd.idle]
        exact hidle
      · rw [huniq w,Farm.received_master,hzero,hlog']
        exact iff_of_false (by decide) not_free_execute
      · simp only [hlog']
        apply sent_concat (sent_concat h.sent ?_)
        · intro w _
          rw [huniq w]
          exact free_available
        · intro w hw
          cases hw
    | idles stack atEnd =>
      rw [atEnd.events] at hlog
      have hlog' : log = x.2++[.available i] := hlog
      have hone : m.availableWorkers i = 1 := by
        rw [atEnd.availableWorkers]
        exact Function.update_self i 1 _
      refine ⟨hinv,fun hnil => by simp [hlog'] at hnil,fun _ => ⟨?_,fun w => ?_,?_⟩⟩
      · rw [card_available i,Farm.received_master,hone,atEnd.idle]
        simp [hidle]
      · rw [huniq w,Farm.received_master,hone,hlog']
        exact iff_of_true rfl free_available
      · simp only [hlog']
        apply sent_concat h.sent
        intro w hw
        cases hw
    | forwards idle next atEnd => exact absurd hidle idle
    | keeps idle atEnd =>
      rw [atEnd.events] at hlog
      have hlog' : log = x.2 := hlog.trans (List.append_nil _)
      subst hlog'
      have hm : m.idle = x.1.master.idle ∧ m.availableWorkers = x.1.master.availableWorkers :=
        ⟨atEnd.idle,atEnd.availableWorkers⟩
      refine ⟨hinv,fun hnil => hm.1.trans (h.idle hnil),fun hne => ?_⟩
      obtain ⟨hcount,hfree,hsent⟩ := h.agrees hne
      refine ⟨?_,?_,hsent⟩
      · rw [Farm.received_master,hm.1,hm.2]
        exact hcount
      · rw [Farm.received_master,hm.2]
        exact hfree
    | exits idle next => exact absurd hidle idle

end OneWorker

section MoreWorkers
variable [Add R] [Zero R]

/-- With two workers the first message already shows the disagreement: the other worker has not
reported, and its entry is 1. -/
theorem exists_not_agrees (area : ℚ → ℚ → R) (l r : ℚ) (hcores : 3 ≤ n_cores) : ∃ x,
    ((rules l r area n_cores).farm.recorded (events l r)).Reachable x ∧ x.2 ≠ [] ∧
      ¬ Agrees x.1.master x.2 := by
  let i : Fin (n_cores-1) := ⟨0,by omega⟩
  let s₀ := (rules l r area n_cores).farm.init
  let s := s₀.worked i .waiting [.WORKER_AVAILABLE (0 : R) 0 none]
  have hs : ((rules l r area n_cores).farm.recorded (events l r)).step (s₀,[]) (.work i .accept) =
      some (s,[]) := rfl
  have head : s.toMaster i = [.WORKER_AVAILABLE (0 : R) 0 none] := by
    simp only [s,Farm.worked_toMaster,Function.update_self]
    rfl
  obtain ⟨⟨m,sent⟩,hreceive⟩ : ∃ res, receive l r s.master i (.WORKER_AVAILABLE (0 : R) 0 none) =
      some res := ⟨_,rfl⟩
  have hevents : events l r s (.receive i) =
      .available i::sent.flatMap fun x => x.2.event x.1 := by
    simp only [events,head,List.head?_cons,Option.elim_some,hreceive]
    rfl
  have hstep : (rules l r area n_cores).farm.step s (.receive i) = some (s.received i [] m sent) := by
    have hrules : (rules l r area n_cores).receive s.master i (.WORKER_AVAILABLE (0 : R) 0 none) =
        some (m,sent) := hreceive
    simp only [FarmRules.farm,Farm.step,head,hrules,Option.map_some]
  have ht : ((rules l r area n_cores).farm.recorded (events l r)).step (s,[]) (.receive i) =
      some (s.received i [] m sent,events l r s (.receive i)) := by
    simp only [TransitionSystem.recorded,hstep,Option.map_some,List.nil_append]
  refine ⟨_,((TransitionSystem.ReachableUnder.init.step trivial hs).step trivial ht),?_,
    fun hagrees => ?_⟩
  · simp [hevents]
  · have hidle := hagrees.idle
    rw [Farm.received_master] at hidle
    cases (received_of_receive hreceive).2 with
    | pops stack atEnd =>
      rw [atEnd.idle,atEnd.availableWorkers] at hidle
      have hzero := Finset.card_eq_zero.mp hidle.symm
      have hother : (⟨1,by omega⟩ : Fin (n_cores-1)) ∈ Finset.univ.filter fun w =>
          Function.update s.master.availableWorkers i 0 w = 1 := by
        rw [Finset.mem_filter,Function.update_of_ne (Fin.ne_of_val_ne one_ne_zero)]
        exact ⟨Finset.mem_univ _,rfl⟩
      rw [hzero] at hother
      exact absurd hother (Finset.notMem_empty _)
    | idles stack atEnd =>
      have hlength := congrArg List.length stack
      change (Aquad3.createTasks l r n_cores).length = 0 at hlength
      rw [Aquad3.createTasks,createTasks_eq] at hlength
      simp at hlength
      omega

/-- The two accounts and the messages agree in all runs just when there is one worker. -/
theorem agrees_iff (area : ℚ → ℚ → R) (l r : ℚ) (hcores : 2 ≤ n_cores) :
    (∀ x, ((rules l r area n_cores).farm.recorded (events l r)).Reachable x → x.2 ≠ [] →
      Agrees x.1.master x.2) ↔ n_cores = 2 := by
  constructor
  · intro h
    by_contra hne
    have hmore : 3 ≤ n_cores := by omega
    obtain ⟨x,hx,hlog,hnot⟩ := exists_not_agrees area l r hmore
    exact hnot (h x hx hlog)
  · rintro rfl x hx
    have hone : OneWorker area x := TransitionSystem.GuardedRun.invariant (I := OneWorker area) hx
      ⟨inv_init,fun _ => rfl,fun hne => absurd rfl hne⟩ fun _ _ _ hs _ ht => hs.step ht
    exact hone.agrees

end MoreWorkers

/-- On two processes all runs agree, on three not. -/
theorem agrees_iff_two_three :
    (∀ x, ((rules 0 2 (fun a b => b-a) 2).farm.recorded (events 0 2)).Reachable x → x.2 ≠ [] →
      Agrees x.1.master x.2) ∧
    ¬ ∀ x, ((rules 0 2 (fun a b => b-a) 3).farm.recorded (events 0 2)).Reachable x → x.2 ≠ [] →
      Agrees x.1.master x.2 := by
  have hthree := agrees_iff (fun a b => b-a) 0 2 (show 2 ≤ 3 by decide)
  exact ⟨(agrees_iff (fun a b => b-a) 0 2 (by decide)).mpr rfl,fun h => absurd (hthree.mp h) (by decide)⟩

/-- Worker 0 is sent a task that worker 1 split off, and its entry stays 1: the half that it splits
off next is sent to itself, at work, while worker 1 is idle. -/
theorem not_agrees_three : ∃ x, ((rules 0 3 (fun a b => b-a) 3).farm.recorded (events 0 3)).Reachable
    x ∧ x.2 ≠ [] ∧ ¬ Agrees x.1.master x.2 ∧ x.2.getLast? = some (.execute 0) ∧
      ¬ Free x.2.dropLast 0 ∧ Free x.2.dropLast 1 := by
  obtain ⟨x,hx,hp⟩ := TransitionSystem.exists_reachable_of_exec
    (T := (rules 0 3 (fun a b => b-a) 3).farm.recorded (events 0 3))
    (l := [.work 0 .accept,.receive 0,.work 1 .accept,.receive 1,.take 0,.work 0 .accept,.receive 0,
      .take 1,.work 1 .split,.take 0,.work 0 .accept,.receive 0,.receive 1,.work 1 .accept,
      .receive 1,.take 0,.work 0 .split,.receive 0])
    (p := fun x => decide (x.2.getLast? = some (.execute 0)) && !decide (Free x.2.dropLast 0) &&
      decide (Free x.2.dropLast 1)) (by decide +kernel)
  simp only [Bool.and_eq_true,decide_eq_true_eq,Bool.not_eq_true',decide_eq_false_iff_not] at hp
  obtain ⟨⟨hlast,hbusy⟩,hfree⟩ := hp
  have hlog := List.dropLast_append_getLast? _ hlast
  refine ⟨x,hx,fun hnil => ?_,fun h => hbusy (h.sent _ [] 0 hlog.symm),hlast,hbusy,hfree⟩
  rw [hnil] at hlast
  cases hlast

end PucRio.Aquad.Aquad3
