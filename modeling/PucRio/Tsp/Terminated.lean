import PucRio.Lib.RingWindow
import PucRio.Lib.TransitionSystem
import PucRio.Tsp.Partition
import Mathlib.Algebra.Order.BigOperators.Group.Finset
import Mathlib.Data.Fin.VecNotation

/-! The threads of one process: `Par_tree_search` around `Terminated`. Every section under the
mutex of `term` is one step, and so is the body of the search; what the search reads of the best
tour is left open, since other threads write it without that mutex. -/
namespace PucRio.Tsp
variable {n T : ℕ}

/-- `term_struct`; `count` is the number of threads without work. -/
structure Term (n : ℕ) where
  stack : Option (Stack n) := none
  count : ℕ := 0

namespace Term

/-- `term->stack` holds no tour, or there is none. -/
def NoTours (term : Term n) : Prop := ∀ stack, term.stack = some stack → stack.list = []

end Term

/-- Where a thread is: at the two tests before any lock, at one of the sections under the mutex, in
the condition wait, in the body of the search, or past them. -/
inductive Pc
  | call
  | readStack
  | trylock
  | lock
  | waiting
  | woken
  | search
  | returned
  | exited
  deriving DecidableEq, Repr

/-- In the condition wait, or woken from it and not running yet. -/
def Pc.idle : Pc → ℕ
  | .waiting => 1
  | .woken => 1
  | _ => 0

/-- Places where a thread has no tours. -/
def Pc.emptyHanded : Pc → Bool
  | .lock => true
  | .waiting => true
  | .woken => true
  | .returned => true
  | .exited => true
  | _ => false

structure Thread (n : ℕ) where
  pc : Pc
  stack : Stack n

/-- `running` is false once a thread has called `exit`. -/
structure Process (n T : ℕ) where
  term : Term n
  threads : Fin T → Thread n
  running : Bool := true

/-- The tours a thread takes off its stack and puts on it. `none`: the process exits. -/
def visit (d : Digraph n) (best : ℕ → ℤ) (stack : Stack n) : Option (Tour × Stack n) :=
  stack.Pop.bind fun (curr_tour,stack) =>
    if curr_tour.City_count = n then some (curr_tour,stack)
    else expand d best (n-1) curr_tour stack

inductive Action (T : ℕ)
  /-- The next step of thread `i`: a test, the section of an empty-handed thread, or the section
  after the wait. -/
  | step (i : Fin T)
  /-- `pthread_mutex_trylock`; where it gets the lock and donates, `wake` is who is signalled. -/
  | trylock (i : Fin T) (got : Bool) (wake : Option (Fin T))
  /-- The body of the search; `best` is what it reads of the cost of the best tour. -/
  | search (i : Fin T) (best : ℕ → ℤ)
  /-- The condition wait returns without a signal. -/
  | spurious (i : Fin T)

namespace Process
variable (d : Digraph n) (min_split_sz : ℕ)

def setThread (s : Process n T) (i : Fin T) (t : Thread n) : Process n T :=
  { s with threads := Function.update s.threads i t }

def wake (t : Thread n) : Thread n := if t.pc = .waiting then { t with pc := .woken } else t

/-- `pthread_cond_signal`: one waiting thread is woken, if there is one. -/
def signal (s : Process n T) : Option (Fin T) → Option (Process n T)
  | some w => if (s.threads w).pc = .waiting then some (s.setThread w (wake (s.threads w))) else none
  | none => if ∀ w, (s.threads w).pc ≠ .waiting then some s else none

/-- `pthread_cond_broadcast`. -/
def broadcast (s : Process n T) : Process n T := { s with threads := fun w => wake (s.threads w) }

/-- The two branches behind the tests: `FALSE` with a tour on the stack, else to the mutex. -/
def afterTests (stack : Stack n) : Thread n := ⟨if stack.Empty_stack then .lock else .search,stack⟩

def stepThread (s : Process n T) (i : Fin T) : Option (Process n T) :=
  let stack := (s.threads i).stack
  match (s.threads i).pc with
  | .call =>
    if min_split_sz ≤ stack.list.length ∧ 0 < s.term.count then
      some (s.setThread i ⟨.readStack,stack⟩)
    else some (s.setThread i (afterTests stack))
  | .readStack =>
    if s.term.stack.isNone then some (s.setThread i ⟨.trylock,stack⟩)
    else some (s.setThread i (afterTests stack))
  | .lock =>
    let s' := { s with term := { s.term with count := s.term.count+1 } }
    if s.term.count+1 = T then some (s'.broadcast.setThread i ⟨.returned,stack⟩)
    else some (s'.setThread i ⟨.waiting,stack⟩)
  | .woken =>
    if s.term.count < T then
      match s.term.stack with
      | some new => some ({ s with term := ⟨none,s.term.count-1⟩ }.setThread i ⟨.search,new⟩)
      | none => some ({ s with term := { s.term with count := s.term.count-1 } }.setThread i
          ⟨.exited,stack⟩)
    else some (s.setThread i ⟨.returned,stack⟩)
  | _ => none

def stepTrylock (s : Process n T) (i : Fin T) (got : Bool) (wake : Option (Fin T)) :
    Option (Process n T) :=
  let t := s.threads i
  if t.pc = .trylock then
    if got = true ∧ 0 < s.term.count ∧ s.term.stack.isNone = true then
      let (old,new) := t.stack.Split_stack
      ({ s with term := { s.term with stack := some new } }.setThread i ⟨.search,old⟩).signal wake
    else some (s.setThread i ⟨.search,t.stack⟩)
  else none

def step (s : Process n T) : Action T → Option (Process n T)
  | a => if s.running then
    match a with
    | .step i => s.stepThread min_split_sz i
    | .trylock i got wake => s.stepTrylock i got wake
    | .search i best =>
      if (s.threads i).pc = .search then
        match visit d best (s.threads i).stack with
        | some (_,stack) => some (s.setThread i ⟨.call,stack⟩)
        | none => some { s with running := false }
      else none
    | .spurious i =>
      if (s.threads i).pc = .waiting then some (s.setThread i (wake (s.threads i))) else none
    else none

end Process

/-- The threads of one process, each with its share of the tours. -/
def parTreeSearch (d : Digraph n) (min_split_sz : ℕ) (shares : Fin T → Stack n) :
    TransitionSystem (Process n T) (Action T) where
  init := { term := {}, threads := fun i => ⟨.call,shares i⟩ }
  step := Process.step d min_split_sz

/-- Once a thread has returned `TRUE` no tour is left. -/
def CleanEnd (s : Process n T) : Prop :=
  (∃ i, (s.threads i).pc = .returned) → s.term.NoTours ∧ ∀ i, (s.threads i).stack.list = []

/-- The last thread to run out of work finds no donated tours in `term->stack`. -/
def LastFindsNone (s : Process n T) : Action T → Prop
  | .step i => (s.threads i).pc = .lock → s.term.count+1 = T → s.term.NoTours
  | _ => True

/-- Threads are at work: the count is that of the idle threads, and these hold no tours. -/
structure Working (s : Process n T) : Prop where
  count : s.term.count = ∑ i, (s.threads i).pc.idle
  count_lt : ∀ _ : Fin T, s.term.count < T
  none_returned : ∀ i, (s.threads i).pc ≠ .returned
  empty : ∀ i, (s.threads i).pc.emptyHanded = true → (s.threads i).stack.list = []

/-- All threads are done or about to be told so. -/
structure Ended (s : Process n T) : Prop where
  count : s.term.count = T
  noTours : s.term.NoTours
  pc : ∀ i, (s.threads i).pc = .waiting ∨ (s.threads i).pc = .woken ∨ (s.threads i).pc = .returned
  empty : ∀ i, (s.threads i).stack.list = []

section Steps
variable {d : Digraph n} {min_split_sz : ℕ} {s s' : Process n T}

/-- One thread moves; the count follows it. -/
theorem Working.setThread (h : Working s) {i : Fin T} {t : Thread n} (term : Term n)
    (count : term.count+(s.threads i).pc.idle = s.term.count+t.pc.idle)
    (count_lt : term.count < T) (returned : t.pc ≠ .returned)
    (empty : t.pc.emptyHanded = true → t.stack.list = []) :
    Working ({ s with term := term }.setThread i t) := by
  constructor
  · have := sum_comp_update (fun t : Thread n => t.pc.idle) s.threads i t
    have := h.count
    simp only [Process.setThread]
    omega
  · exact fun _ => count_lt
  · intro x
    by_cases hx : x = i
    · subst hx; simpa [Process.setThread] using returned
    · simpa [Process.setThread,hx] using h.none_returned x
  · intro x
    by_cases hx : x = i
    · subst hx; simpa [Process.setThread] using empty
    · simpa [Process.setThread,hx] using h.empty x

theorem Working.wake (h : Working s) (i : Fin T) :
    Working (s.setThread i (Process.wake (s.threads i))) := by
  unfold Process.wake
  split_ifs with hw
  · exact h.setThread s.term (by rw [hw]; rfl) (h.count_lt i) (by simp)
      fun _ => h.empty i (by rw [hw]; rfl)
  · rw [Process.setThread,Function.update_eq_self]
    exact h

theorem Working.signal (h : Working s) {w : Option (Fin T)} (hs : s.signal w = some s') :
    Working s' := by
  cases w with
  | none =>
    simp only [Process.signal] at hs
    split_ifs at hs
    obtain rfl := Option.some.inj hs
    exact h
  | some w =>
    simp only [Process.signal] at hs
    split_ifs at hs
    obtain rfl := Option.some.inj hs
    exact h.wake w

theorem Ended.setThread (h : Ended s) {i : Fin T} {t : Thread n}
    (pc : t.pc = .waiting ∨ t.pc = .woken ∨ t.pc = .returned) (empty : t.stack.list = []) :
    Ended (s.setThread i t) := by
  refine ⟨h.count,h.noTours,fun x => ?_,fun x => ?_⟩
  · by_cases hx : x = i
    · subst hx; simpa [Process.setThread] using pc
    · simpa [Process.setThread,hx] using h.pc x
  · by_cases hx : x = i
    · subst hx; simpa [Process.setThread] using empty
    · simpa [Process.setThread,hx] using h.empty x

/-- The last thread: all others are idle, so no stack holds a tour. -/
theorem Working.last (h : Working s) {i : Fin T} (hi : (s.threads i).pc = .lock)
    (hc : s.term.count+1 = T) (hn : s.term.NoTours) :
    Ended ({ s with term := { s.term with count := s.term.count+1 } }.broadcast.setThread i
      ⟨.returned,(s.threads i).stack⟩) := by
  have hidle (x : Fin T) (hx : x ≠ i) : (s.threads x).pc.idle = 1 := by
    have hle (y : Fin T) : (s.threads y).pc.idle ≤ 1 := by
      cases (s.threads y).pc <;> simp [Pc.idle]
    by_contra hne
    have hsum := Finset.add_sum_erase Finset.univ (fun y => (s.threads y).pc.idle)
      (Finset.mem_univ i)
    have hsum' := Finset.add_sum_erase (Finset.univ.erase i) (fun y => (s.threads y).pc.idle)
      (Finset.mem_erase.mpr ⟨hx,Finset.mem_univ x⟩)
    have hrest : ∑ y ∈ (Finset.univ.erase i).erase x, (s.threads y).pc.idle ≤
        ((Finset.univ.erase i).erase x).card := by
      simpa using Finset.sum_le_card_nsmul _ (fun y => (s.threads y).pc.idle) 1 fun y _ => hle y
    have hcard : ((Finset.univ.erase i).erase x).card+2 = T := by
      rw [Finset.card_erase_of_mem (Finset.mem_erase.mpr ⟨hx,Finset.mem_univ x⟩),
        Finset.card_erase_of_mem (Finset.mem_univ i),Finset.card_univ,Fintype.card_fin]
      have := i.isLt
      have := x.isLt
      have : i.val ≠ x.val := fun he => hx (Fin.ext he.symm)
      omega
    have hzero : (s.threads i).pc.idle = 0 := by rw [hi]; rfl
    have := h.count
    have := hle x
    omega
  have hpc (x : Fin T) (hx : x ≠ i) :
      (s.threads x).pc = .waiting ∨ (s.threads x).pc = .woken := by
    have := hidle x hx
    revert this
    cases (s.threads x).pc <;> simp [Pc.idle]
  have hempty (x : Fin T) : (s.threads x).stack.list = [] := by
    by_cases hx : x = i
    · subst hx; exact h.empty x (by rw [hi]; rfl)
    · refine h.empty x ?_
      rcases hpc x hx with hp | hp <;> rw [hp] <;> rfl
  refine ⟨hc,hn,fun x => ?_,fun x => ?_⟩
  · by_cases hx : x = i
    · subst hx; simp [Process.setThread]
    · rcases hpc x hx with hp | hp <;>
        simp [Process.setThread,Process.broadcast,Process.wake,hx,hp]
  · by_cases hx : x = i
    · subst hx; simpa [Process.setThread] using hempty x
    · rcases hpc x hx with hp | hp <;>
        simpa [Process.setThread,Process.broadcast,Process.wake,hx,hp] using hempty x

theorem afterTests_pc (stack : Stack n) :
    (Process.afterTests stack).pc.idle = 0 ∧ (Process.afterTests stack).pc ≠ .returned ∧
    ((Process.afterTests stack).pc.emptyHanded = true → stack.list = []) := by
  unfold Process.afterTests
  split_ifs with he
  · exact ⟨rfl,by simp,fun _ => by simpa [Stack.Empty_stack] using he⟩
  · exact ⟨rfl,by simp,by simp [Pc.emptyHanded]⟩

theorem Working.stepThread (h : Working s) {i : Fin T}
    (hg : (s.threads i).pc = .lock → s.term.count+1 = T → s.term.NoTours)
    (hs : s.stepThread min_split_sz i = some s') : Working s' ∨ Ended s' := by
  have hlt := h.count_lt i
  have hpass {t : Thread n} (hi : (s.threads i).pc.idle = 0) (ht : t.pc.idle = 0)
      (hr : t.pc ≠ .returned) (he : t.pc.emptyHanded = true → t.stack.list = []) :
      Working (s.setThread i t) := h.setThread s.term (by omega) hlt hr he
  obtain ⟨h1,h2,h3⟩ := afterTests_pc (s.threads i).stack
  unfold Process.stepThread at hs
  dsimp only at hs
  split at hs
  · rename_i hi
    have h0 : (s.threads i).pc.idle = 0 := by rw [hi]; rfl
    split_ifs at hs
    · obtain rfl := Option.some.inj hs
      exact .inl (hpass h0 rfl (by simp) (by simp [Pc.emptyHanded]))
    · obtain rfl := Option.some.inj hs
      exact .inl (hpass h0 h1 h2 h3)
  · rename_i hi
    have h0 : (s.threads i).pc.idle = 0 := by rw [hi]; rfl
    split_ifs at hs
    · obtain rfl := Option.some.inj hs
      exact .inl (hpass h0 rfl (by simp) (by simp [Pc.emptyHanded]))
    · obtain rfl := Option.some.inj hs
      exact .inl (hpass h0 h1 h2 h3)
  · rename_i hi
    split_ifs at hs with hc
    · obtain rfl := Option.some.inj hs
      exact .inr (h.last hi hc (hg hi hc))
    · obtain rfl := Option.some.inj hs
      refine .inl (h.setThread _ ?_ ?_ (by simp) fun _ => h.empty i (by rw [hi]; rfl))
      · rw [hi]; rfl
      · dsimp only; omega
  · rename_i hi
    have hone : (s.threads i).pc.idle = 1 := by rw [hi]; rfl
    have hpos : 0 < s.term.count := by
      rw [h.count]
      have := Finset.single_le_sum (f := fun x => (s.threads x).pc.idle)
        (fun x _ => Nat.zero_le _) (Finset.mem_univ i)
      simp only [hone] at this
      omega
    rw [if_pos hlt] at hs
    split at hs
    · obtain rfl := Option.some.inj hs
      refine .inl (h.setThread _ ?_ ?_ (by simp) (by simp [Pc.emptyHanded]))
      · rw [hone]; simp only [Pc.idle]; omega
      · dsimp only; omega
    · obtain rfl := Option.some.inj hs
      refine .inl (h.setThread _ ?_ ?_ (by simp) fun _ => h.empty i (by rw [hi]; rfl))
      · rw [hone]; simp only [Pc.idle]; omega
      · dsimp only; omega
  · simp at hs

theorem Working.stepTrylock (h : Working s) {i : Fin T} {got : Bool} {w : Option (Fin T)}
    (hs : s.stepTrylock i got w = some s') : Working s' := by
  have hlt := h.count_lt i
  unfold Process.stepTrylock at hs
  dsimp only at hs
  split_ifs at hs with hi
  · refine Working.signal (h.setThread _ ?_ ?_ ?_ ?_) hs
    · rw [hi]; rfl
    · exact hlt
    · simp
    · simp [Pc.emptyHanded]
  · obtain rfl := Option.some.inj hs
    exact h.setThread s.term (by rw [hi]; rfl) hlt (by simp) (by simp [Pc.emptyHanded])

/-- While threads work, a step leaves them working or ends all of them. -/
theorem Working.step (h : Working s) {a : Action T} (hg : LastFindsNone s a)
    (hs : s.step d min_split_sz a = some s') : Working s' ∨ Ended s' := by
  unfold Process.step at hs
  split_ifs at hs with hr
  cases a with
  | step i => exact h.stepThread hg hs
  | trylock i got w => exact .inl (h.stepTrylock hs)
  | search i best =>
    dsimp only at hs
    split_ifs at hs with hi
    split at hs
    · obtain rfl := Option.some.inj hs
      exact .inl (h.setThread s.term (by rw [hi]; rfl) (h.count_lt i) (by simp)
        (by simp [Pc.emptyHanded]))
    · obtain rfl := Option.some.inj hs
      exact .inl ⟨h.count,h.count_lt,h.none_returned,h.empty⟩
  | spurious i =>
    dsimp only at hs
    split_ifs at hs
    obtain rfl := Option.some.inj hs
    exact .inl (h.wake i)

/-- After the end the threads still in the wait are woken and return. -/
theorem Ended.step (h : Ended s) {a : Action T} (hs : s.step d min_split_sz a = some s') :
    Ended s' := by
  unfold Process.step at hs
  split_ifs at hs with hr
  cases a with
  | step i =>
    simp only [Process.stepThread,h.count,lt_irrefl,if_false] at hs
    rcases h.pc i with hi | hi | hi
    · simp [hi] at hs
    · simp only [hi] at hs
      obtain rfl := Option.some.inj hs
      exact h.setThread (.inr (.inr rfl)) (h.empty i)
    · simp [hi] at hs
  | trylock i got w =>
    dsimp only [Process.stepTrylock] at hs
    rcases h.pc i with hi | hi | hi <;> simp [hi] at hs
  | search i best =>
    dsimp only at hs
    rcases h.pc i with hi | hi | hi <;> simp [hi] at hs
  | spurious i =>
    dsimp only at hs
    split_ifs at hs with hi
    obtain rfl := Option.some.inj hs
    refine h.setThread ?_ ?_
    · simp [Process.wake,hi]
    · simpa [Process.wake,hi] using h.empty i

end Steps

theorem working_init (d : Digraph n) (min_split_sz : ℕ) (shares : Fin T → Stack n) :
    Working (parTreeSearch d min_split_sz shares).init where
  count := by simp [parTreeSearch,Pc.idle]
  count_lt i := Nat.lt_of_le_of_lt (Nat.zero_le _) i.isLt
  none_returned := by simp [parTreeSearch]
  empty := by simp [parTreeSearch,Pc.emptyHanded]

/-- For any number of threads and any shares of the tours: as long as the last thread finds no
donated tours, no thread returns `TRUE` while there are tours. -/
theorem cleanEnd_of_lastFindsNone (d : Digraph n) (min_split_sz : ℕ) (shares : Fin T → Stack n)
    (s : Process n T) (h : (parTreeSearch d min_split_sz shares).ReachableUnder LastFindsNone s) :
    CleanEnd s := by
  have hinv : Working s ∨ Ended s :=
    h.invariant (I := fun s => Working s ∨ Ended s) (.inl (working_init d min_split_sz shares))
      fun _ _ _ hs hg ht => hs.elim (fun hw => hw.step hg ht) fun he => .inr (he.step ht)
  rintro ⟨i,hi⟩
  rcases hinv with hw | he
  · exact absurd hi (hw.none_returned i)
  · exact ⟨he.noTours,he.empty⟩

/-- Every way between two cities costs 1. -/
def unitCosts (n : ℕ) : Digraph n where
  Cost i j := if i = j then 0 else 1
  diagonal := by simp
  positive i j _ _ h := by simp [h]

instance (term : Term n) : Decidable term.NoTours :=
  match h : term.stack with
  | none => .isTrue fun _ hs => by simp [h] at hs
  | some stack => decidable_of_iff (stack.list = [])
      ⟨fun he s hs => Option.some.inj (h.symm.trans hs) ▸ he,fun hn => hn stack h⟩

instance (s : Process n T) (a : Action T) : Decidable (LastFindsNone s a) := by
  unfold LastFindsNone
  split <;> infer_instance

/-- Two threads and one tour left: thread 1 waits, thread 0 ends the search. -/
theorem cleanEnd_of_lastFindsNone_two : ∃ s : Process 2 2,
    (s.threads 0).pc = .returned ∧ (s.threads 1).pc = .returned ∧ CleanEnd s := by
  obtain ⟨s,hs,hl⟩ := TransitionSystem.exists_reachableUnder_of_execUnder (G := LastFindsNone)
    (T := parTreeSearch (unitCosts 2) 2
      ![⟨[⟨[0,1],1⟩],by decide⟩,⟨[],by decide⟩])
    (l := [.step 1,.step 1,.step 0,.search 0 fun _ => INFINITY,.step 0,.step 0,.step 1])
    (p := fun s => (s.threads 0).pc = .returned && (s.threads 1).pc = .returned) (by decide)
  simp only [Bool.and_eq_true,decide_eq_true_eq] at hl
  exact ⟨s,hl.1,hl.2,cleanEnd_of_lastFindsNone _ _ _ s hs⟩

/-- The shares of two threads for four cities. -/
def twoShares : Fin 2 → Stack 4 :=
  ![⟨[⟨[0,2],1⟩,⟨[0,1],1⟩],by decide⟩,⟨[⟨[0,3],1⟩],by decide⟩]

/-- Thread `j` is through with its tour and waits; thread `i` donates one of its two tours, is
through with the other, and is the last thread before thread `j` runs. -/
def donatedTooLate (i j : Fin T) : List (Action T) :=
  [.step j,.search j fun _ => INFINITY,.step j,.search j fun _ => INFINITY,
    .step j,.search j fun _ => INFINITY,.step j,.search j fun _ => 4,.step j,.search j fun _ => 4,
    .step j,.step j,
    .step i,.step i,.trylock i true (some j),.search i fun _ => 4,
    .step i,.step i,.search i fun _ => 4,.step i,.step i,.search i fun _ => 4,
    .step i,.search i fun _ => 4,.step i,.search i fun _ => 4,.step i,.step i]

/-- Thread 0 returns `TRUE` and the tour `0 1` is still in `term->stack`. -/
theorem not_cleanEnd_two :
    (∀ i, Partition_tree (unitCosts 4) 2 1 0 i.val 9 = .ok (twoShares i)) ∧
    ∃ s, (parTreeSearch (unitCosts 4) 2 twoShares).Reachable s ∧ ¬ CleanEnd s := by
  constructor
  · intro i
    fin_cases i <;> rfl
  · obtain ⟨s,hs,hl⟩ := TransitionSystem.exists_reachable_of_exec (l := donatedTooLate 0 1)
      (T := parTreeSearch (unitCosts 4) 2 twoShares)
      (p := fun s => (s.threads 0).pc = .returned &&
        s.term.stack.any (fun stack => stack.list = [⟨[0,1],1⟩])) (by decide)
    simp only [Bool.and_eq_true,decide_eq_true_eq,Option.any_eq_true] at hl
    obtain ⟨hpc,stack,hstack,hlist⟩ := hl
    refine ⟨s,hs,fun h => ?_⟩
    have := (h ⟨0,hpc⟩).1 stack hstack
    rw [this] at hlist
    simp at hlist

end PucRio.Tsp
