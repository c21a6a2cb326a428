import PucRio.Lib.Mailbox
import PucRio.Lib.TransitionSystem
import Mathlib.Algebra.BigOperators.Group.Finset.Piecewise
import Mathlib.Algebra.BigOperators.Pi
import Mathlib.Algebra.Order.BigOperators.Group.Finset
import Mathlib.Data.Fintype.BigOperators
import Mathlib.Tactic.Abel

/-! A master and its workers, with a queue each way between the master and every worker. Each part
of a state weighs something; what a step adds and takes away is seen where it acts, and the rest of
the total stays as it is. -/
namespace PucRio
variable {ι M W U D C X : Type*}

structure Farm (ι M W U D : Type*) where
  master : M
  worker : ι → W
  toMaster : ι → List U
  toWorker : ι → List D

/-- What the master does with a message of a worker, what a worker does by itself, as it chooses,
and what it does with a message of the master. -/
structure FarmRules (ι M W U D C : Type*) where
  master : M
  worker : ι → W
  receive : M → ι → U → Option (M × List (ι × D))
  work : W → C → Option (W × List U)
  take : W → D → Option W

inductive FarmAction (ι C : Type*)
  | receive (i : ι)
  | work (i : ι) (c : C)
  | take (i : ι)
  deriving DecidableEq, Repr

namespace Farm
variable [DecidableEq ι]

/-- The state with other contents of the master and at worker `i`. -/
def put (s : Farm ι M W U D) (m : M) (i : ι) (w : W) (up : List U) (down : List D) :
    Farm ι M W U D :=
  ⟨m,Function.update s.worker i w,Function.update s.toMaster i up,Function.update s.toWorker i down⟩

/-- The master has sent messages. -/
def send (s : Farm ι M W U D) (sent : List (ι × D)) : Farm ι M W U D :=
  { s with toWorker := fun j => s.toWorker j++addressedTo sent j }

def received (s : Farm ι M W U D) (i : ι) (rest : List U) (master : M) (sent : List (ι × D)) :
    Farm ι M W U D := (s.put master i (s.worker i) rest (s.toWorker i)).send sent

def worked (s : Farm ι M W U D) (i : ι) (worker : W) (sent : List U) : Farm ι M W U D :=
  s.put s.master i worker (s.toMaster i++sent) (s.toWorker i)

def taken (s : Farm ι M W U D) (i : ι) (rest : List D) (worker : W) : Farm ι M W U D :=
  s.put s.master i worker (s.toMaster i) rest

theorem put_self (s : Farm ι M W U D) (i : ι) :
    s.put s.master i (s.worker i) (s.toMaster i) (s.toWorker i) = s := by
  simp only [put,Function.update_eq_self]

section Fields
variable (s : Farm ι M W U D) (i j : ι)

@[simp] theorem received_master (rest : List U) (m : M) (sent : List (ι × D)) :
    (s.received i rest m sent).master = m := rfl

@[simp] theorem received_worker (rest : List U) (m : M) (sent : List (ι × D)) :
    (s.received i rest m sent).worker = s.worker := Function.update_eq_self i s.worker

@[simp] theorem received_toMaster (rest : List U) (m : M) (sent : List (ι × D)) :
    (s.received i rest m sent).toMaster = Function.update s.toMaster i rest := rfl

@[simp] theorem received_toWorker (rest : List U) (m : M) (sent : List (ι × D)) :
    (s.received i rest m sent).toWorker j = s.toWorker j++addressedTo sent j := by
  simp only [received,send,put,Function.update_eq_self]

@[simp] theorem worked_master (w : W) (sent : List U) : (s.worked i w sent).master = s.master := rfl

@[simp] theorem worked_worker (w : W) (sent : List U) :
    (s.worked i w sent).worker = Function.update s.worker i w := rfl

@[simp] theorem worked_toMaster (w : W) (sent : List U) :
    (s.worked i w sent).toMaster = Function.update s.toMaster i (s.toMaster i++sent) := rfl

@[simp] theorem worked_toWorker (w : W) (sent : List U) :
    (s.worked i w sent).toWorker = s.toWorker := Function.update_eq_self i s.toWorker

@[simp] theorem taken_master (rest : List D) (w : W) : (s.taken i rest w).master = s.master := rfl

@[simp] theorem taken_worker (rest : List D) (w : W) :
    (s.taken i rest w).worker = Function.update s.worker i w := rfl

@[simp] theorem taken_toMaster (rest : List D) (w : W) :
    (s.taken i rest w).toMaster = s.toMaster := Function.update_eq_self i s.toMaster

@[simp] theorem taken_toWorker (rest : List D) (w : W) :
    (s.taken i rest w).toWorker = Function.update s.toWorker i rest := rfl

end Fields

def step (R : FarmRules ι M W U D C) (s : Farm ι M W U D) : FarmAction ι C →
    Option (Farm ι M W U D)
  | .receive i =>
    match s.toMaster i with
    | [] => none
    | u::rest => (R.receive s.master i u).map fun r => s.received i rest r.1 r.2
  | .work i c => (R.work (s.worker i) c).map fun r => s.worked i r.1 r.2
  | .take i =>
    match s.toWorker i with
    | [] => none
    | d::rest => (R.take (s.worker i) d).map fun w => s.taken i rest w

end Farm

def FarmRules.farm [DecidableEq ι] (R : FarmRules ι M W U D C) :
    TransitionSystem (Farm ι M W U D) (FarmAction ι C) where
  init := ⟨R.master,R.worker,fun _ => [],fun _ => []⟩
  step := Farm.step R

/-- A step with all that it reads and writes. -/
inductive FarmStep [DecidableEq ι] (R : FarmRules ι M W U D C) (s : Farm ι M W U D) :
    FarmAction ι C → Farm ι M W U D → Prop
  | receive {i : ι} {u : U} {rest : List U} {m : M} {sent : List (ι × D)}
      (head : s.toMaster i = u::rest) (receive : R.receive s.master i u = some (m,sent)) :
      FarmStep R s (.receive i) (s.received i rest m sent)
  | work {i : ι} {c : C} {w : W} {sent : List U} (work : R.work (s.worker i) c = some (w,sent)) :
      FarmStep R s (.work i c) (s.worked i w sent)
  | take {i : ι} {d : D} {rest : List D} {w : W} (head : s.toWorker i = d::rest)
      (take : R.take (s.worker i) d = some w) : FarmStep R s (.take i) (s.taken i rest w)

theorem FarmStep.of_step [DecidableEq ι] {R : FarmRules ι M W U D C} {s t : Farm ι M W U D}
    {a : FarmAction ι C} (h : R.farm.step s a = some t) : FarmStep R s a t := by
  cases a with
  | receive i =>
    simp only [FarmRules.farm,Farm.step] at h
    cases hi : s.toMaster i with
    | nil =>
      rw [hi] at h
      cases h
    | cons u rest =>
      rw [hi] at h
      obtain ⟨r,hr,rfl⟩ := Option.map_eq_some_iff.mp h
      exact .receive hi hr
  | work i c =>
    obtain ⟨r,hr,rfl⟩ := Option.map_eq_some_iff.mp h
    exact .work hr
  | take i =>
    simp only [FarmRules.farm,Farm.step] at h
    cases hi : s.toWorker i with
    | nil =>
      rw [hi] at h
      cases h
    | cons d rest =>
      rw [hi] at h
      obtain ⟨w,hw,rfl⟩ := Option.map_eq_some_iff.mp h
      exact .take hi hw

section Weights

/-- What each part of a state weighs: the master, and worker by worker all that is there. -/
structure Weights (ι M W U D X : Type*) where
  master : M → X
  worker : ι → W → X
  up : ι → U → X
  down : ι → D → X

variable [Fintype ι] [DecidableEq ι] [AddCommMonoid X]

/-- What lies with a worker and on the way from it and to it. -/
def Weights.site (v : Weights ι M W U D X) (i : ι) (w : W) (up : List U) (down : List D) : X :=
  v.worker i w+(up.map (v.up i)).sum+(down.map (v.down i)).sum

def Weights.total (v : Weights ι M W U D X) (s : Farm ι M W U D) : X :=
  v.master s.master+∑ i, v.site i (s.worker i) (s.toMaster i) (s.toWorker i)

/-- What a step takes from the weight and what it adds. -/
inductive Weights.Moved (v : Weights ι M W U D X) (R : FarmRules ι M W U D C) (s : Farm ι M W U D) :
    X → X → Prop
  | receive {i : ι} {u : U} {rest : List U} {m : M} {sent : List (ι × D)}
      (head : s.toMaster i = u::rest) (receive : R.receive s.master i u = some (m,sent)) :
      Moved v R s (v.master s.master+v.up i u)
        (v.master m+(sent.map fun x => v.down x.1 x.2).sum)
  | work {i : ι} {c : C} {w : W} {sent : List U} (work : R.work (s.worker i) c = some (w,sent)) :
      Moved v R s (v.worker i (s.worker i)) (v.worker i w+(sent.map (v.up i)).sum)
  | take {i : ι} {d : D} {rest : List D} {w : W} (head : s.toWorker i = d::rest)
      (take : R.take (s.worker i) d = some w) :
      Moved v R s (v.worker i (s.worker i)+v.down i d) (v.worker i w)

/-- A family that changes at one place: the sum of the others stays. -/
theorem exists_sum_update (f : ι → X) (i : ι) :
    ∃ rest, ∀ x, ∑ j, Function.update f i x j = rest+x := by
  refine ⟨∑ j ∈ Finset.univ.erase i, f j,fun x => ?_⟩
  rw [← Finset.sum_erase_add _ _ (Finset.mem_univ i),Function.update_self]
  congr 1
  apply Finset.sum_congr rfl
  intro j hj
  exact Function.update_of_ne (Finset.ne_of_mem_erase hj) _ _

theorem existsUnique_ne_zero_of_sum_eq_one {f : ι → ℕ} (h : ∑ i, f i = 1) : ∃! i, f i ≠ 0 := by
  obtain ⟨i,hi⟩ : ∃ i, f i ≠ 0 := by
    by_contra hall
    push Not at hall
    rw [Finset.sum_eq_zero fun i _ => hall i] at h
    cases h
  refine ⟨i,hi,fun j hj => ?_⟩
  by_contra hne
  have hle : f j ≤ ∑ x ∈ Finset.univ.erase i, f x :=
    Finset.single_le_sum (fun _ _ => Nat.zero_le _) (Finset.mem_erase.mpr ⟨hne,Finset.mem_univ j⟩)
  rw [← Finset.sum_erase_add _ _ (Finset.mem_univ i)] at h
  omega

theorem sum_addressedTo (sent : List (ι × D)) (f : ι → D → X) :
    ∑ i, ((addressedTo sent i).map (f i)).sum = (sent.map fun x => f x.1 x.2).sum := by
  induction sent with
  | nil => simp
  | cons m sent ih =>
    have hsplit (i : ι) : ((addressedTo (m::sent) i).map (f i)).sum =
        (if m.1 = i then f i m.2 else 0)+((addressedTo sent i).map (f i)).sum := by
      rw [addressedTo_cons]
      split_ifs with h
      · rfl
      · rw [zero_add]
    rw [Finset.sum_congr rfl fun i _ => hsplit i,Finset.sum_add_distrib,ih,
      Finset.sum_ite_eq Finset.univ m.1 fun i => f i m.2,if_pos (Finset.mem_univ _)]
    rfl

variable {v : Weights ι M W U D X} {R : FarmRules ι M W U D C} {s t : Farm ι M W U D}
  {a : FarmAction ι C}

/-- All but the master and the site of worker `i` weighs the same, whatever is put there. -/
theorem Weights.exists_total_put (v : Weights ι M W U D X) (s : Farm ι M W U D) (i : ι) :
    ∃ others, ∀ m w up down, v.total (s.put m i w up down) =
      others+(v.master m+v.site i w up down) := by
  obtain ⟨others,hothers⟩ :=
    exists_sum_update (fun j => v.site j (s.worker j) (s.toMaster j) (s.toWorker j)) i
  refine ⟨others,fun m w up down => ?_⟩
  have hsite (j : ι) : v.site j (Function.update s.worker i w j) (Function.update s.toMaster i up j)
      (Function.update s.toWorker i down j) = Function.update
        (fun j => v.site j (s.worker j) (s.toMaster j) (s.toWorker j)) i (v.site i w up down) j := by
    by_cases hj : j = i
    · subst hj
      simp only [Function.update_self]
    · simp only [Function.update_of_ne hj]
  change v.master m+∑ j, v.site j (Function.update s.worker i w j) (Function.update s.toMaster i up j)
    (Function.update s.toWorker i down j) = _
  rw [Finset.sum_congr rfl fun j _ => hsite j,hothers]
  abel

theorem Weights.total_send (v : Weights ι M W U D X) (s : Farm ι M W U D) (sent : List (ι × D)) :
    v.total (s.send sent) = v.total s+(sent.map fun x => v.down x.1 x.2).sum := by
  have hsite (j : ι) : v.site j (s.worker j) (s.toMaster j) (s.toWorker j++addressedTo sent j) =
      v.site j (s.worker j) (s.toMaster j) (s.toWorker j)+((addressedTo sent j).map (v.down j)).sum := by
    rw [Weights.site,Weights.site,List.map_append,List.sum_append]
    abel
  change v.master s.master+∑ j, v.site j (s.worker j) (s.toMaster j)
    (s.toWorker j++addressedTo sent j) = _
  rw [Finset.sum_congr rfl fun j _ => hsite j,Finset.sum_add_distrib,sum_addressedTo,← add_assoc]
  rfl

theorem Weights.moved (v : Weights ι M W U D X) (h : FarmStep R s a t) :
    ∃ rest x y, v.Moved R s x y ∧ v.total s = rest+x ∧ v.total t = rest+y := by
  cases h with
  | @receive i u tail m sent head receive =>
    obtain ⟨others,hothers⟩ := v.exists_total_put s i
    refine ⟨others+(v.worker i (s.worker i)+(tail.map (v.up i)).sum+
      ((s.toWorker i).map (v.down i)).sum),_,_,
      .receive head receive,?_,?_⟩
    · have hs := hothers s.master (s.worker i) (s.toMaster i) (s.toWorker i)
      rw [s.put_self] at hs
      rw [hs,Weights.site,head,List.map_cons,List.sum_cons]
      abel
    · rw [Farm.received,Weights.total_send,hothers,Weights.site]
      abel
  | @work i c w sent work =>
    obtain ⟨others,hothers⟩ := v.exists_total_put s i
    refine ⟨others+(v.master s.master+((s.toMaster i).map (v.up i)).sum+
      ((s.toWorker i).map (v.down i)).sum),_,_,.work work,?_,?_⟩
    · have hs := hothers s.master (s.worker i) (s.toMaster i) (s.toWorker i)
      rw [s.put_self] at hs
      rw [hs,Weights.site]
      abel
    · rw [Farm.worked,hothers,Weights.site,List.map_append,List.sum_append]
      abel
  | @take i d tail w head take =>
    obtain ⟨others,hothers⟩ := v.exists_total_put s i
    refine ⟨others+(v.master s.master+((s.toMaster i).map (v.up i)).sum+(tail.map (v.down i)).sum),_,_,
      .take head take,?_,?_⟩
    · have hs := hothers s.master (s.worker i) (s.toMaster i) (s.toWorker i)
      rw [s.put_self] at hs
      rw [hs,Weights.site,head,List.map_cons,List.sum_cons]
      abel
    · rw [Farm.taken,hothers,Weights.site]
      abel

/-- What no local step changes, the whole keeps. -/
theorem Weights.total_step (v : Weights ι M W U D X) (hv : ∀ x y, v.Moved R s x y → x = y)
    (h : FarmStep R s a t) : v.total t = v.total s := by
  obtain ⟨rest,x,y,hmoved,hs,ht⟩ := v.moved h
  rw [hs,ht,hv x y hmoved]

end Weights
end PucRio
