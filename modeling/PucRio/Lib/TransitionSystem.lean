import Mathlib.Logic.Relation
import Mathlib.Data.Nat.Notation
import Mathlib.Tactic.ByContra
import Mathlib.Tactic.SplitIfs

/-! Transition systems given by a partial step function, and their runs. A guard is a condition
on a state and the action taken there; a guarded run takes only steps that meet it. -/
namespace PucRio

/-- A start state and what each action does to a state (`none`: the action is not enabled). -/
structure TransitionSystem (σ α : Type*) where
  init : σ
  step : σ → α → Option σ

namespace TransitionSystem
variable {σ α : Type*} (T : TransitionSystem σ α)

/-- One step by an action that meets the guard. -/
def GuardedStep (G : σ → α → Prop) (s t : σ) : Prop := ∃ a, G s a ∧ T.step s a = some t

/-- Any number of steps, all of which meet the guard. -/
def GuardedRun (G : σ → α → Prop) : σ → σ → Prop := Relation.ReflTransGen (T.GuardedStep G)

def ReachableUnder (G : σ → α → Prop) (s : σ) : Prop := T.GuardedRun G T.init s

def Run : σ → σ → Prop := T.GuardedRun (fun _ _ => True)

def Reachable (s : σ) : Prop := T.Run T.init s

variable {T}

theorem ReachableUnder.init {G : σ → α → Prop} : T.ReachableUnder G T.init :=
  Relation.ReflTransGen.refl

theorem ReachableUnder.step {G : σ → α → Prop} {s t : σ} {a : α}
    (h : T.ReachableUnder G s) (hg : G s a) (hs : T.step s a = some t) : T.ReachableUnder G t :=
  Relation.ReflTransGen.tail h ⟨a,hg,hs⟩

theorem ReachableUnder.run {G : σ → α → Prop} {s t : σ}
    (h : T.ReachableUnder G s) (hr : T.GuardedRun G s t) : T.ReachableUnder G t :=
  Relation.ReflTransGen.trans h hr

/-- What holds at one state and is kept by every guarded step holds along every guarded run
from there. -/
theorem GuardedRun.invariant {G : σ → α → Prop} {I : σ → Prop} {s t : σ}
    (hr : T.GuardedRun G s t) (hs : I s)
    (hstep : ∀ s a t, I s → G s a → T.step s a = some t → I t) : I t := by
  induction hr with
  | refl => exact hs
  | tail _ h ih =>
    obtain ⟨a,hg,ha⟩ := h
    exact hstep _ a _ ih hg ha

/-- The invariant rule: true at the start and kept by every guarded step. -/
theorem ReachableUnder.invariant {G : σ → α → Prop} {I : σ → Prop} {s : σ}
    (h : T.ReachableUnder G s) (hinit : I T.init)
    (hstep : ∀ s a t, I s → G s a → T.step s a = some t → I t) : I s :=
  GuardedRun.invariant h hinit hstep

theorem GuardedRun.mono {G H : σ → α → Prop} (hGH : ∀ s a, G s a → H s a) {s t : σ}
    (hr : T.GuardedRun G s t) : T.GuardedRun H s t :=
  Relation.ReflTransGen.mono (fun _ _ ⟨a,hg,ha⟩ => ⟨a,hGH _ a hg,ha⟩) _ _ hr

theorem ReachableUnder.reachable {G : σ → α → Prop} {s : σ} (h : T.ReachableUnder G s) :
    T.Reachable s := GuardedRun.mono (fun _ _ _ => trivial) h

variable (T)

/-- Execute a list of actions, stopping where one is not enabled or breaks the guard. -/
def execUnder (G : σ → α → Prop) [∀ s a, Decidable (G s a)] : σ → List α → Option σ
  | s,[] => some s
  | s,a::l => if G s a then (T.step s a).bind (execUnder G · l) else none

/-- Execute a list of actions from a state. -/
def exec : σ → List α → Option σ
  | s,[] => some s
  | s,a::l => (T.step s a).bind (exec · l)

variable {T}

theorem guardedRun_of_execUnder {G : σ → α → Prop} [∀ s a, Decidable (G s a)] {l : List α}
    {s t : σ} (h : T.execUnder G s l = some t) : T.GuardedRun G s t := by
  induction l generalizing s with
  | nil =>
    obtain rfl : s = t := by simpa [execUnder] using h
    exact Relation.ReflTransGen.refl
  | cons a l ih =>
    rw [execUnder] at h
    split_ifs at h with hg
    obtain ⟨u,hu,ht⟩ := Option.bind_eq_some_iff.mp h
    exact Relation.ReflTransGen.head ⟨a,hg,hu⟩ (ih ht)

theorem exec_of_execUnder {G : σ → α → Prop} [∀ s a, Decidable (G s a)] {l : List α} {s t : σ}
    (h : T.execUnder G s l = some t) : T.exec s l = some t := by
  induction l generalizing s with
  | nil => exact h
  | cons a l ih =>
    rw [execUnder] at h
    split_ifs at h
    obtain ⟨u,hu,ht⟩ := Option.bind_eq_some_iff.mp h
    exact Option.bind_eq_some_iff.mpr ⟨u,hu,ih ht⟩

theorem run_of_exec {l : List α} {s t : σ} (h : T.exec s l = some t) : T.Run s t := by
  induction l generalizing s with
  | nil =>
    obtain rfl : s = t := by simpa [exec] using h
    exact Relation.ReflTransGen.refl
  | cons a l ih =>
    obtain ⟨u,hu,ht⟩ := Option.bind_eq_some_iff.mp h
    exact Relation.ReflTransGen.head ⟨a,trivial,hu⟩ (ih ht)

/-- A list of actions that ends in a state with `p` shows such a state to be reachable. -/
theorem exists_reachable_of_exec {l : List α} {p : σ → Bool}
    (h : (T.exec T.init l).any p = true) : ∃ s, T.Reachable s ∧ p s = true := by
  obtain ⟨s,hs,hp⟩ := (Option.any_eq_true _ _).mp h
  exact ⟨s,run_of_exec hs,hp⟩

theorem exists_reachableUnder_of_execUnder {G : σ → α → Prop} [∀ s a, Decidable (G s a)]
    {l : List α} {p : σ → Bool} (h : (T.execUnder G T.init l).any p = true) :
    ∃ s, T.ReachableUnder G s ∧ p s = true := by
  obtain ⟨s,hs,hp⟩ := (Option.any_eq_true _ _).mp h
  exact ⟨s,guardedRun_of_execUnder hs,hp⟩

/-- Where allowed actions keep an invariant and others break what it is for, this holds after every
part of a list of actions exactly when each of them is allowed where it is taken. -/
theorem exec_take_iff {I F : σ → Prop} {G : σ → α → Prop} (hF : ∀ s, I s → F s)
    (hgood : ∀ s a, I s → G s a → ∃ t, T.step s a = some t ∧ I t)
    (hbad : ∀ s a t, I s → ¬ G s a → T.step s a = some t → ¬ F t) (l : List α) {s : σ} (hs : I s) :
    (∀ k, ∃ t, T.exec s (l.take k) = some t ∧ F t) ↔
      ∀ k a t, l[k]? = some a → T.exec s (l.take k) = some t → G t a := by
  induction l generalizing s with
  | nil =>
    constructor
    · intro _ k a t ha
      cases ha
    · intro _ k
      exact ⟨s,congrArg (T.exec s) List.take_nil,hF s hs⟩
  | cons b l ih =>
    have hsucc {t : σ} (ht : T.step s b = some t) (k : ℕ) :
        T.exec s ((b::l).take (k+1)) = T.exec t (l.take k) := by
      rw [List.take_succ_cons,exec,ht,Option.bind_some]
    constructor
    · intro hall
      have hg : G s b := by
        by_contra hg
        obtain ⟨t,ht,hFt⟩ := hall 1
        obtain ⟨u,hu,htu⟩ := Option.bind_eq_some_iff.mp ht
        obtain rfl : u = t := Option.some.inj htu
        exact hbad s b u hs hg hu hFt
      obtain ⟨t,ht,hIt⟩ := hgood s b hs hg
      have hrest := (ih hIt).mp fun k => hsucc ht k ▸ hall (k+1)
      rintro (_ | k) a u ha hu
      · obtain rfl : b = a := Option.some.inj ha
        obtain rfl : s = u := Option.some.inj hu
        exact hg
      · rw [hsucc ht] at hu
        exact hrest k a u ha hu
    · intro hall
      obtain ⟨t,ht,hIt⟩ := hgood s b hs (hall 0 b s rfl rfl)
      have hrest := (ih hIt).mpr fun k a u ha hu => hall (k+1) a u ha (hsucc ht k ▸ hu)
      rintro (_ | k)
      · exact ⟨s,rfl,hF s hs⟩
      · rw [hsucc ht]
        exact hrest k

theorem exec_append (l l' : List α) (s : σ) :
    T.exec s (l++l') = (T.exec s l).bind (T.exec · l') := by
  induction l generalizing s with
  | nil => rfl
  | cons a l ih =>
    rw [List.cons_append,exec,exec,Option.bind_assoc]
    exact Option.bind_congr fun t _ => ih t

/-- So do the states of a run that is known to go on to its end. -/
theorem exec_take_iff_of_exec {I F : σ → Prop} {G : σ → α → Prop} (hF : ∀ s, I s → F s)
    (hgood : ∀ s a t, I s → G s a → T.step s a = some t → I t)
    (hbad : ∀ s a t, I s → ¬ G s a → T.step s a = some t → ¬ F t) {l : List α} {s u : σ}
    (hs : I s) (h : T.exec s l = some u) : (∀ k t, T.exec s (l.take k) = some t → F t) ↔
      ∀ k a t, l[k]? = some a → T.exec s (l.take k) = some t → G t a := by
  have hstart (k : ℕ) : ∃ t, T.exec s (l.take k) = some t := by
    rw [← List.take_append_drop k l,exec_append] at h
    obtain ⟨t,ht,-⟩ := Option.bind_eq_some_iff.mp h
    exact ⟨t,ht⟩
  have henabled {k : ℕ} {a : α} {t : σ} (ha : l[k]? = some a) (ht : T.exec s (l.take k) = some t) :
      ∃ t', T.step t a = some t' := by
    obtain ⟨v,hv⟩ := hstart (k+1)
    rw [List.take_add_one,ha,exec_append,ht,Option.bind_some] at hv
    obtain ⟨t',ht',-⟩ := Option.bind_eq_some_iff.mp hv
    exact ⟨t',ht'⟩
  have hiff := exec_take_iff (G := fun s a => G s a ∧ ∃ t, T.step s a = some t) hF
    (fun s a hI hG => hG.2.imp fun t ht => ⟨ht,hgood s a t hI hG.1 ht⟩)
    (fun s a t hI hG ht => hbad s a t hI (fun hg => hG ⟨hg,t,ht⟩) ht) l hs
  constructor
  · intro hall k a t ha ht
    have hexists (k : ℕ) : ∃ t, T.exec s (l.take k) = some t ∧ F t :=
      (hstart k).imp fun t ht => ⟨ht,hall k t ht⟩
    exact (hiff.mp hexists k a t ha ht).1
  · intro hall k t ht
    obtain ⟨t',ht',hF'⟩ := hiff.mpr (fun k a t ha ht => ⟨hall k a t ha ht,henabled ha ht⟩) k
    cases ht.symm.trans ht'
    exact hF'

section Bisimulation
variable {P : α → Prop} {R : σ → σ → Prop} {s t : σ}

/-- One of these actions is enabled on both sides or on neither, and what it leads to is related
again. -/
def Bisimulation (T : TransitionSystem σ α) (P : α → Prop) (R : σ → σ → Prop) : Prop :=
  ∀ s t a, P a → R s t → Option.Rel R (T.step s a) (T.step t a)

/-- So are lists of them. -/
theorem Bisimulation.exec (h : T.Bisimulation P R) (hr : R s t) (l : List α) (hl : ∀ a ∈ l, P a) :
    Option.Rel R (T.exec s l) (T.exec t l) := by
  induction l generalizing s t with
  | nil => exact .some hr
  | cons a l ih =>
    obtain ⟨ha,hrest⟩ := List.forall_mem_cons.mp hl
    have hstep := h s t a ha hr
    rw [TransitionSystem.exec,TransitionSystem.exec]
    generalize T.step s a = s', T.step t a = t' at hstep
    cases hstep with
    | some hrel => exact ih hrel hrest
    | none => exact .none

theorem rel_mono {Q : σ → σ → Prop} (h : ∀ s t, R s t → Q s t) {x y : Option σ} :
    Option.Rel R x y → Option.Rel Q x y
  | .some hst => .some (h _ _ hst)
  | .none => .none

end Bisimulation

section Recorded
variable {ω : Type*}

/-- The system that also keeps, in their order, the events of its steps. -/
def recorded (T : TransitionSystem σ α) (events : σ → α → List ω) :
    TransitionSystem (σ × List ω) α where
  init := (T.init,[])
  step s a := (T.step s.1 a).map fun t => (t,s.2++events s.1 a)

theorem recorded_step {events : σ → α → List ω} {s t : σ × List ω} {a : α}
    (h : (T.recorded events).step s a = some t) :
    T.step s.1 a = some t.1 ∧ t.2 = s.2++events s.1 a := by
  obtain ⟨u,hu,rfl⟩ := Option.map_eq_some_iff.mp h
  exact ⟨hu,rfl⟩

end Recorded

end TransitionSystem
end PucRio
