import Mathlib.Data.List.Basic
import Mathlib.Data.Nat.Notation
import Mathlib.Order.Basic

/-! Computations that need not end, or not at their end. An evaluator with fuel is a sequence of partial
results, each of which is kept by the next one; what it yields is the result that enough fuel gives. A
deterministic machine has a step that is undefined where it has stopped. A loop with a `return` in its
body runs in `Except`, an error being the `return`. -/
namespace PucRio
variable {α β : Type*}

/-- `y` has the result of `x`, where `x` has one. -/
def KeptBy (x y : Option α) : Prop := ∀ a, x = some a → y = some a

/-- With some fuel, hence with more, the result is `a`. -/
def Yields (f : ℕ → Option α) (a : α) : Prop := ∃ n, f n = some a

theorem KeptBy.refl (x : Option α) : KeptBy x x := fun _ h => h

theorem KeptBy.none (y : Option α) : KeptBy none y := fun _ h => nomatch h

theorem KeptBy.trans {x y z : Option α} (h : KeptBy x y) (h' : KeptBy y z) : KeptBy x z :=
  fun a ha => h' a (h a ha)

theorem KeptBy.bind {x y : Option α} {f g : α → Option β} (h : KeptBy x y)
    (hf : ∀ a, KeptBy (f a) (g a)) : KeptBy (x.bind f) (y.bind g) := by
  intro b hb
  obtain ⟨a,ha,hb⟩ := Option.bind_eq_some_iff.mp hb
  rw [h a ha]
  exact hf a b hb

theorem KeptBy.ite {p : Prop} [Decidable p] {x y x' y' : Option α} (h : KeptBy x y)
    (h' : KeptBy x' y') : KeptBy (if p then x else x') (if p then y else y') := by
  split
  · exact h
  · exact h'

variable {f : ℕ → Option α}

/-- More fuel keeps the result. -/
theorem keptBy_of_le (hf : ∀ n, KeptBy (f n) (f (n+1))) {m n : ℕ} (h : m ≤ n) :
    KeptBy (f m) (f n) := by
  induction h with
  | refl => exact KeptBy.refl _
  | step _ ih => exact ih.trans (hf _)

theorem Yields.unique (hf : ∀ n, KeptBy (f n) (f (n+1))) {a b : α} (ha : Yields f a)
    (hb : Yields f b) : a = b := by
  obtain ⟨m,hm⟩ := ha
  obtain ⟨n,hn⟩ := hb
  have hma := keptBy_of_le hf (Nat.le_max_left m n) a hm
  have hnb := keptBy_of_le hf (Nat.le_max_right m n) b hn
  exact Option.some.inj (hma.symm.trans hnb)

/-- What the sequence comes to: its result, or none. -/
theorem exists_eq_some_iff_yields (hf : ∀ n, KeptBy (f n) (f (n+1))) :
    ∃ x : Option α, ∀ a, x = some a ↔ Yields f a := by
  by_cases h : ∃ a, Yields f a
  · obtain ⟨a,ha⟩ := h
    refine ⟨some a,fun b => ⟨?_,fun hb => congrArg some (Yields.unique hf ha hb)⟩⟩
    rintro ⟨⟩
    exact ha
  · refine ⟨none,fun a => ⟨fun hnone => (Option.some_ne_none a hnone.symm).elim,?_⟩⟩
    exact fun ha => absurd ⟨a,ha⟩ h

variable {σ : Type*}

/-- `n` steps, if there are as many. -/
def runSteps (step : σ → Option σ) : ℕ → σ → Option σ
  | 0,s => some s
  | n+1,s => (step s).bind (runSteps step n)

variable {step : σ → Option σ} {s t u : σ} {m n : ℕ}

theorem runSteps_succ (h : step s = some t) : runSteps step (n+1) s = runSteps step n t := by
  rw [runSteps,h,Option.bind_some]

theorem runSteps_one (h : step s = some t) : runSteps step 1 s = some t :=
  runSteps_succ h

theorem runSteps_add (h : runSteps step m s = some t) :
    runSteps step (m+n) s = runSteps step n t := by
  induction m generalizing s with
  | zero =>
    obtain rfl : s = t := Option.some.inj h
    rw [Nat.zero_add]
  | succ m ih =>
    obtain ⟨u,hu,ht⟩ := Option.bind_eq_some_iff.mp h
    rw [Nat.succ_add,runSteps_succ hu,ih ht]

/-- A run that has stopped passes every state on the way, and stops later by as many steps. -/
theorem runSteps_suffix (h : runSteps step m s = some t) (hstop : runSteps step n s = some u)
    (hu : step u = none) : ∃ k, n = m+k ∧ runSteps step k t = some u := by
  obtain ⟨k,rfl⟩ | ⟨k,rfl⟩ : (∃ k, n = m+k) ∨ ∃ k, m = n+(k+1) := by
    by_cases hle : m ≤ n
    · exact .inl ⟨n-m,by omega⟩
    · exact .inr ⟨m-n-1,by omega⟩
  · exact ⟨k,rfl,by rw [← runSteps_add h,hstop]⟩
  · rw [runSteps_add hstop,runSteps,hu] at h
    cases h

/-- Two runs that have stopped are the same. -/
theorem runSteps_stop_unique (h : runSteps step m s = some t) (ht : step t = none)
    (h' : runSteps step n s = some u) (hu : step u = none) : t = u := by
  obtain ⟨k,-,hk⟩ := runSteps_suffix h h' hu
  cases k with
  | zero => exact Option.some.inj hk
  | succ k => simp [runSteps,ht] at hk

/-- As many steps can be made, or fewer. -/
theorem exists_runSteps_of_le (hn : ∃ u, runSteps step n s = some u) (h : m ≤ n) :
    ∃ t, runSteps step m s = some t := by
  obtain ⟨u,hu⟩ := hn
  induction m generalizing n s with
  | zero => exact ⟨s,rfl⟩
  | succ m ih =>
    obtain ⟨n,rfl⟩ : ∃ k, n = k+1 := ⟨n-1,by omega⟩
    obtain ⟨t,ht,hu⟩ := Option.bind_eq_some_iff.mp hu
    rw [runSteps_succ ht]
    exact ih (Nat.le_of_succ_le_succ h) hu

/-- There is a run from one state to the other. -/
def Reaches (step : σ → Option σ) (s t : σ) : Prop := ∃ n, runSteps step n s = some t

namespace Reaches

theorem refl (step : σ → Option σ) (s : σ) : Reaches step s s := ⟨0,rfl⟩

theorem single (h : step s = some t) : Reaches step s t := ⟨1,runSteps_one h⟩

theorem trans (h : Reaches step s t) (h' : Reaches step t u) : Reaches step s u := by
  obtain ⟨m,hm⟩ := h
  obtain ⟨n,hn⟩ := h'
  exact ⟨m+n,by rw [runSteps_add hm,hn]⟩

theorem head (h : step s = some t) (h' : Reaches step t u) : Reaches step s u :=
  (single h).trans h'

/-- What every step keeps holds at the end. -/
theorem invariant {I : σ → Prop} (h : Reaches step s t) (hs : I s)
    (hI : ∀ s t, I s → step s = some t → I t) : I t := by
  obtain ⟨n,hn⟩ := h
  induction n generalizing s with
  | zero =>
    obtain rfl : s = t := Option.some.inj hn
    exact hs
  | succ n ih =>
    obtain ⟨u,hu,ht⟩ := Option.bind_eq_some_iff.mp hn
    exact ih (hI s u hs hu) ht

/-- The state where a run stops is reached from every state on the way. -/
theorem passes (h : Reaches step s t) (hstop : Reaches step s u) (hu : step u = none) :
    Reaches step t u := by
  obtain ⟨m,hm⟩ := h
  obtain ⟨n,hn⟩ := hstop
  obtain ⟨k,-,hk⟩ := runSteps_suffix hm hn hu
  exact ⟨k,hk⟩

theorem stop_unique (h : Reaches step s t) (ht : step t = none) (h' : Reaches step s u)
    (hu : step u = none) : t = u := by
  obtain ⟨m,hm⟩ := h
  obtain ⟨n,hn⟩ := h'
  exact runSteps_stop_unique hm ht hn hu

/-- As many steps can be made as from a state on the way. -/
theorem exists_runSteps (h : Reaches step s t) (ht : ∃ u, runSteps step n t = some u) :
    ∃ u, runSteps step n s = some u := by
  obtain ⟨m,hm⟩ := h
  obtain ⟨u,hu⟩ := ht
  exact exists_runSteps_of_le ⟨u,by rw [runSteps_add hm,hu]⟩ (Nat.le_add_left n m)

/-- A run that stops does not go on for ever. -/
theorem not_forever (h : Reaches step s t) (ht : step t = none) :
    ¬ ∀ n, ∃ u, runSteps step n s = some u := by
  intro hall
  obtain ⟨m,hm⟩ := h
  obtain ⟨u,hu⟩ := hall (m+1)
  rw [runSteps_add hm,runSteps,ht] at hu
  cases hu

end Reaches

/-- The machine that counts how often it leaves a state of a kind. -/
def counting (step : σ → Option σ) (p : σ → Bool) (s : σ × ℕ) : Option (σ × ℕ) :=
  (step s.1).map fun t => (t,if p s.1 then s.2+1 else s.2)

theorem counting_of_step {p : σ → Bool} (h : step s = some t) (n : ℕ) :
    counting step p (s,n) = some (t,if p s then n+1 else n) := by
  rw [counting,h]
  rfl

theorem Reaches.of_counting {p : σ → Bool} {x y : σ × ℕ} (h : Reaches (counting step p) x y) :
    Reaches step x.1 y.1 := by
  obtain ⟨k,hk⟩ := h
  induction k generalizing x with
  | zero =>
    obtain rfl : x = y := Option.some.inj hk
    exact .refl ..
  | succ k ih =>
    obtain ⟨z,hz,hk⟩ := Option.bind_eq_some_iff.mp hk
    obtain ⟨t,ht,rfl⟩ := Option.map_eq_some_iff.mp hz
    exact .head ht (ih hk)

section EarlyReturn
variable {ε : Type*}

/-- While the body leaves the state alone, the loop looks for the first place to return. -/
theorem foldlM_eq_findSome? {f : σ → α → Except ε σ} {g : α → Option ε} {s : σ} (l : List α)
    (h : ∀ a ∈ l, f s a = (g a).elim (.ok s) .error) :
    l.foldlM f s = (l.findSome? g).elim (.ok s) .error := by
  induction l with
  | nil => rfl
  | cons a l ih =>
    have ha := h a List.mem_cons_self
    have hl := ih fun b hb => h b (List.mem_cons_of_mem a hb)
    rw [List.foldlM_cons,ha,List.findSome?_cons]
    cases g a with
    | none => exact hl
    | some e => rfl

theorem except_ok_bind {ε α β : Type} (a : α) (f : α → Except ε β) : (Except.ok a >>= f) = f a := rfl

theorem ok_of_bind {ε α β : Type} {r : Except ε α} {f : α → Except ε β} {b : β}
    (h : r >>= f = .ok b) : ∃ a, r = .ok a ∧ f a = .ok b := by
  cases r with
  | error _ => cases h
  | ok a => exact ⟨a,rfl,h⟩

end EarlyReturn

end PucRio
