import PucRio.LimitedBuffer.Accounts

/-! The threads in a call come to rest after a bounded number of steps. What each of them then waits
for is not there; while no reader is woken in vain, it is a call that is yet to come. -/
namespace PucRio.LimitedBuffer
variable {n p c : ℕ} {α : Type*}

section Runs
variable [NeZero n] {s t : Threads n p c α}

/-- No thread that is in a call can take a step. -/
def Threads.Stuck (s : Threads n p c α) : Prop :=
  (∀ i, s.step (.producer i) = none) ∧ ∀ j, s.step (.consumer j) = none

/-- Nobody is inside, and who waits cannot go on: a producer for a slot with no reads counted, a
consumer for a deposit. -/
structure Threads.AtRest (s : Threads n p c α) : Prop where
  unlocked : s.lbuf.e = 1
  producer : ∀ i, s.producers i = .idle ∨
    (∃ data, s.producers i = .waitSW data) ∧ s.lbuf.freeSlot = false
  consumer : ∀ j, s.consumers j = .idle ∨
    ∃ r, s.consumers j = .waitSR r ∧ s.lbuf.pendingReads r j = 0

/-- A producer that cannot go on waits at a semaphore without a permit. -/
theorem lbuf_deposit_eq_none {lbuf : LBUF n c α} {u : Producer n α}
    (h : lbuf.lbuf_deposit u = none) : u = .idle ∨ (∃ data, u = .waitSW data) ∧ lbuf.sW = 0 ∨
    ((∃ data, u = .enter data) ∨ ∃ w data, u = .leave w data) ∧ lbuf.e = 0 := by
  have hwait {x : Sem n} {β : Type _} {f : LBUF n c α → β} (h : (lbuf.sem_wait x).map f = none) :
      lbuf.value x = 0 := lbuf.sem_wait_eq_none.mp (Option.map_eq_none_iff.mp h)
  cases u with
  | idle => exact .inl rfl
  | enter data => exact .inr (.inr ⟨.inl ⟨data,rfl⟩,hwait h⟩)
  | delay data => cases h
  | waitSW data => exact .inr (.inl ⟨⟨data,rfl⟩,hwait h⟩)
  | signalEntry data target => cases h
  | write data => cases h
  | leave w data => exact .inr (.inr ⟨.inr ⟨w,data,rfl⟩,hwait h⟩)
  | signalExit target => cases h

theorem lbuf_consume_eq_none {lbuf : LBUF n c α} {j : Fin c} {u : Consumer n α}
    (h : lbuf.lbuf_consume j u = none) : u = .idle ∨ (∃ r, u = .waitSR r ∧ lbuf.sR r = 0) ∨
    (u = .enter ∨ ∃ r data, u = .leave r data) ∧ lbuf.e = 0 := by
  have hwait {x : Sem n} {β : Type _} {f : LBUF n c α → β} (h : (lbuf.sem_wait x).map f = none) :
      lbuf.value x = 0 := lbuf.sem_wait_eq_none.mp (Option.map_eq_none_iff.mp h)
  cases u with
  | idle => exact .inl rfl
  | enter => exact .inr (.inr ⟨.inl rfl,hwait h⟩)
  | delay r => cases h
  | waitSR r => exact .inr (.inl ⟨r,rfl,hwait (x := .sR r) h⟩)
  | signalEntry r target => cases h
  | read r => cases h
  | leave r data => exact .inr (.inr ⟨.inr ⟨r,data,rfl⟩,hwait h⟩)
  | signalExit data target => cases h

theorem Threads.Stuck.producer {i : Fin p} (hs : s.Stuck) : s.producers i = .idle ∨
    (∃ data, s.producers i = .waitSW data) ∧ s.lbuf.sW = 0 ∨
    ((∃ data, s.producers i = .enter data) ∨ ∃ w data, s.producers i = .leave w data) ∧
      s.lbuf.e = 0 :=
  lbuf_deposit_eq_none (Option.map_eq_none_iff.mp (hs.1 i))

theorem Threads.Stuck.consumer {j : Fin c} (hs : s.Stuck) : s.consumers j = .idle ∨
    (∃ r, s.consumers j = .waitSR r ∧ s.lbuf.sR r = 0) ∨
    (s.consumers j = .enter ∨ ∃ r data, s.consumers j = .leave r data) ∧ s.lbuf.e = 0 :=
  lbuf_consume_eq_none (Option.map_eq_none_iff.mp (hs.2 j))

/-- A thread that has the permit could post it. -/
theorem Threads.Stuck.baton (hs : s.Stuck) (k : Thread p c) : (s.view k).baton? = none := by
  cases k with
  | inl i =>
    change (s.producers i).view.baton? = none
    obtain hi | ⟨⟨data,hi⟩,-⟩ | ⟨⟨data,hi⟩ | ⟨w,data,hi⟩,-⟩ := hs.producer (i := i) <;>
    · rw [hi]
      rfl
  | inr j =>
    change (s.consumers j).view.baton? = none
    obtain hj | ⟨r,hj,-⟩ | ⟨hj | ⟨r,data,hj⟩,-⟩ := hs.consumer (j := j) <;>
    · rw [hj]
      rfl

/-- Who sleeps at a semaphore finds no permit there. -/
theorem Threads.Stuck.value {y : Sem n} {k : Thread p c} (hs : s.Stuck)
    (hk : (s.view k).asleep? = some y) : s.lbuf.value y = 0 := by
  cases k with
  | inl i =>
    change (s.producers i).view.asleep? = _ at hk
    obtain hi | ⟨⟨data,hi⟩,hzero⟩ | ⟨⟨data,hi⟩ | ⟨w,data,hi⟩,-⟩ := hs.producer (i := i)
    · rw [hi] at hk
      cases hk
    · rw [hi] at hk
      cases hk
      exact hzero
    · rw [hi] at hk
      cases hk
    · rw [hi] at hk
      cases hk
  | inr j =>
    change (s.consumers j).view.asleep? = _ at hk
    obtain hj | ⟨r,hj,hzero⟩ | ⟨hj | ⟨r,data,hj⟩,-⟩ := hs.consumer (j := j)
    · rw [hj] at hk
      cases hk
    · rw [hj] at hk
      cases hk
      exact hzero
    · rw [hj] at hk
      cases hk
    · rw [hj] at hk
      cases hk

/-- The permit is at the lock, since else a thread that sleeps could take it. -/
theorem Threads.Stuck.unlocked {x : Sem n} (hs : s.Stuck) (h : Accounts s.lbuf s.view x) :
    x = .e ∧ s.lbuf.e = 1 := by
  have hvalue (y) : s.lbuf.value y = hits (some x) y := by
    have hpermit := h.permit y
    simpa [hs.baton] using hpermit
  have hx : x = .e := by
    by_contra hne
    obtain ⟨k,hk⟩ := h.exists_asleep hne (by rw [hits_self]; omega)
    have hzero := hs.value hk
    rw [hvalue,hits_self] at hzero
    cases hzero
  subst hx
  exact ⟨rfl,hvalue .e⟩

theorem Threads.Stuck.atRest {x : Sem n} (hs : s.Stuck) (h : Accounts s.lbuf s.view x) :
    s.AtRest := by
  obtain ⟨rfl,hone⟩ := hs.unlocked h
  have hproducer (i) : s.producers i = .idle ∨ ∃ data, s.producers i = .waitSW data := by
    obtain hi | ⟨hi,-⟩ | ⟨-,hzero⟩ := hs.producer (i := i)
    · exact .inl hi
    · exact .inr hi
    · omega
  have hconsumer (j) : s.consumers j = .idle ∨ ∃ r, s.consumers j = .waitSR r := by
    obtain hj | ⟨r,hj,-⟩ | ⟨-,hzero⟩ := hs.consumer (j := j)
    · exact .inl hj
    · exact .inr ⟨r,hj⟩
    · omega
  -- Nobody is counted in `nW` and `nR`.
  have hcounts (k) : (s.view k).writing = 0 ∧ (s.view k).reading? = none := by
    cases k with
    | inl i =>
      change (s.producers i).view.writing = 0 ∧ (s.producers i).view.reading? = none
      obtain hi | ⟨data,hi⟩ := hproducer i <;>
      · rw [hi]
        exact ⟨rfl,rfl⟩
    | inr j =>
      change (s.consumers j).view.writing = 0 ∧ (s.consumers j).view.reading? = none
      obtain hj | ⟨r,hj⟩ := hconsumer j <;>
      · rw [hj]
        exact ⟨rfl,rfl⟩
  have hnW : s.lbuf.nW = 0 := by
    rw [h.writers]
    simp [hcounts]
  have hnR (i) : s.lbuf.nR i = 0 := by
    rw [h.readers]
    simp [hcounts]
  obtain ⟨hwriter,hreader⟩ := h.settled rfl hnW
  refine ⟨hone,?_,?_⟩
  · intro i
    apply (hproducer i).imp_right
    rintro ⟨data,hi⟩
    have hasleep : (s.view (.inl i)).asleep? = some .sW := by
      change (s.producers i).view.asleep? = _
      rw [hi]
      rfl
    have hpos := h.pos_of_asleep (by simp) hasleep
    rw [hits_of_ne (by simp)] at hpos
    refine ⟨⟨data,hi⟩,?_⟩
    by_contra hfree
    have hzero := hwriter (Bool.not_eq_false _ ▸ hfree) (hnR _)
    change 0 < s.lbuf.waitForDeposit+0 at hpos
    omega
  · intro j
    apply (hconsumer j).imp_right
    rintro ⟨r,hj⟩
    refine ⟨r,hj,hreader j r ?_⟩
    change (s.consumers j).view.asleep? = _
    rw [hj]
    rfl

/-- The steps that are left of a call, if it never waits. -/
def Producer.left : Producer n α → ℕ
  | .idle => 0
  | .enter _ => 7
  | .delay _ => 6
  | .waitSW _ => 5
  | .signalEntry _ _ => 4
  | .write _ => 3
  | .leave _ _ => 2
  | .signalExit _ => 1

def Consumer.left : Consumer n α → ℕ
  | .idle => 0
  | .enter => 7
  | .delay _ => 6
  | .waitSR _ => 5
  | .signalEntry _ _ => 4
  | .read _ => 3
  | .leave _ _ => 2
  | .signalExit _ _ => 1

def Threads.left (s : Threads n p c α) : ℕ :=
  ∑ i, (s.producers i).left+∑ j, (s.consumers j).left

theorem lbuf_deposit_left {lbuf l : LBUF n c α} {u u' : Producer n α}
    (h : lbuf.lbuf_deposit u = some (l,u')) : u'.left < u.left := by
  cases u with
  | idle => cases h
  | enter data =>
    obtain ⟨w,-,he⟩ := Option.map_eq_some_iff.mp h
    split_ifs at he <;>
    · obtain ⟨-,rfl⟩ := Prod.mk.inj he
      simp [Producer.left]
  | delay data =>
    obtain ⟨-,rfl⟩ := Prod.mk.inj (Option.some.inj h)
    simp [Producer.left]
  | waitSW data =>
    obtain ⟨w,-,he⟩ := Option.map_eq_some_iff.mp h
    obtain ⟨-,rfl⟩ := Prod.mk.inj he
    simp [Producer.left]
  | signalEntry data target =>
    obtain ⟨-,rfl⟩ := Prod.mk.inj (Option.some.inj h)
    simp [Producer.left]
  | write data =>
    obtain ⟨-,rfl⟩ := Prod.mk.inj (Option.some.inj h)
    simp [Producer.left]
  | leave w data =>
    obtain ⟨w,-,he⟩ := Option.map_eq_some_iff.mp h
    obtain ⟨-,rfl⟩ := Prod.mk.inj he
    simp [Producer.left]
  | signalExit target =>
    obtain ⟨-,rfl⟩ := Prod.mk.inj (Option.some.inj h)
    simp [Producer.left]

theorem lbuf_consume_left {lbuf l : LBUF n c α} {j : Fin c} {u u' : Consumer n α}
    (h : lbuf.lbuf_consume j u = some (l,u')) : u'.left < u.left := by
  cases u with
  | idle => cases h
  | enter =>
    obtain ⟨w,-,he⟩ := Option.map_eq_some_iff.mp h
    simp only at he
    split_ifs at he <;>
    · obtain ⟨-,rfl⟩ := Prod.mk.inj he
      simp [Consumer.left]
  | delay r =>
    obtain ⟨-,rfl⟩ := Prod.mk.inj (Option.some.inj h)
    simp [Consumer.left]
  | waitSR r =>
    obtain ⟨w,-,he⟩ := Option.map_eq_some_iff.mp h
    obtain ⟨-,rfl⟩ := Prod.mk.inj he
    simp [Consumer.left]
  | signalEntry r target =>
    obtain ⟨-,rfl⟩ := Prod.mk.inj (Option.some.inj h)
    simp [Consumer.left]
  | read r =>
    obtain ⟨-,rfl⟩ := Prod.mk.inj (Option.some.inj h)
    simp [Consumer.left]
  | leave r data =>
    obtain ⟨w,-,he⟩ := Option.map_eq_some_iff.mp h
    obtain ⟨-,rfl⟩ := Prod.mk.inj he
    simp [Consumer.left]
  | signalExit data target =>
    obtain ⟨-,rfl⟩ := Prod.mk.inj (Option.some.inj h)
    simp [Consumer.left]

/-- A step of a thread in a call, not a new call. -/
def Action.goesOn : Action p c α → Bool
  | .producer _ => true
  | .consumer _ => true
  | _ => false

theorem Threads.left_step {a : Action p c α} (ha : a.goesOn = true) (h : s.step a = some t) :
    t.left < s.left := by
  cases a with
  | deposit i data => cases ha
  | consume j => cases ha
  | producer i =>
    obtain ⟨⟨l,u⟩,hl,he⟩ := Option.map_eq_some_iff.mp h
    obtain ⟨hp,hc⟩ : t.producers = Function.update s.producers i u ∧ t.consumers = s.consumers := by
      dsimp only at he
      split at he <;> subst he <;> exact ⟨rfl,rfl⟩
    have hlt := lbuf_deposit_left hl
    have hsum := sum_comp_update Producer.left s.producers i u
    rw [left,left,hp,hc]
    omega
  | consumer j =>
    obtain ⟨⟨l,u⟩,hl,he⟩ := Option.map_eq_some_iff.mp h
    obtain ⟨hp,hc⟩ : t.producers = s.producers ∧ t.consumers = Function.update s.consumers j u := by
      dsimp only at he
      split at he <;> subst he <;> exact ⟨rfl,rfl⟩
    have hlt := lbuf_consume_left hl
    have hsum := sum_comp_update Consumer.left s.consumers j u
    rw [left,left,hp,hc]
    omega

omit [NeZero n] in
theorem Threads.left_le (s : Threads n p c α) : s.left ≤ 7*(p+c) := by
  have hp : ∑ i, (s.producers i).left ≤ ∑ _i : Fin p, 7 :=
    Finset.sum_le_sum fun i _ => by cases s.producers i <;> simp [Producer.left]
  have hc : ∑ j, (s.consumers j).left ≤ ∑ _j : Fin c, 7 :=
    Finset.sum_le_sum fun j _ => by cases s.consumers j <;> simp [Consumer.left]
  rw [Finset.sum_const_nat fun _ _ => rfl,Finset.card_univ,Fintype.card_fin] at hp hc
  rw [left]
  omega

theorem Threads.left_exec {buffer : Fin n → α} {l : List (Action p c α)}
    (hl : ∀ a ∈ l, a.goesOn = true) (h : (limitedBuffer p c buffer).exec s l = some t) :
    l.length+t.left ≤ s.left := by
  induction l generalizing s with
  | nil =>
    obtain rfl : s = t := Option.some.inj h
    simp
  | cons a l ih =>
    obtain ⟨u,hu,ht⟩ := Option.bind_eq_some_iff.mp h
    have hlt := Threads.left_step (hl a List.mem_cons_self) hu
    have hle := ih (fun b hb => hl b (List.mem_cons_of_mem a hb)) ht
    rw [List.length_cons]
    omega

/-- Whatever was called, and in whatever order the threads go on: after `7*(p+c)` steps at most none
of them can, and then what each waits for is not there. -/
theorem comes_to_rest (buffer : Fin n → α) (h : (limitedBuffer p c buffer).Reachable s)
    {l : List (Action p c α)} (hl : ∀ a ∈ l, a.goesOn = true)
    (hexec : (limitedBuffer p c buffer).exec s l = some t) :
    l.length ≤ 7*(p+c) ∧ (t.Stuck → t.AtRest) := by
  constructor
  · have hle := Threads.left_exec hl hexec
    have hbound := s.left_le
    omega
  · intro hs
    have ht : (limitedBuffer p c buffer).Reachable t :=
      Relation.ReflTransGen.trans h (TransitionSystem.run_of_exec hexec)
    obtain ⟨x,hx⟩ := exists_accounts ht
    exact hs.atRest hx

/-- A producer that calls while the value of another one has not been read, and comes to rest. -/
def secondDeposit (i j : Fin 2) : List (Action 2 2 ℕ) :=
  [.deposit i 7,.producer i,.producer i,.producer i,.producer i,.producer i,.deposit j 8]

theorem comes_to_rest_two : ∃ s t : Threads 1 2 2 ℕ, (limitedBuffer 2 2 fun _ => 0).Reachable s ∧
    (limitedBuffer 2 2 fun _ => 0).exec s [.producer 1,.producer 1] = some t ∧ 2 ≤ 7*(2+2) ∧
    t.AtRest := by
  obtain ⟨s,hs,hl⟩ := TransitionSystem.exists_reachable_of_exec
    (T := limitedBuffer (n := 1) 2 2 (fun _ => 0)) (l := secondDeposit 0 1)
    (p := fun s => ((limitedBuffer 2 2 fun _ => 0).exec s [.producer 1,.producer 1]).any fun t =>
      ((t.step (.producer 0)).isNone && (t.step (.producer 1)).isNone) &&
        ((t.step (.consumer 0)).isNone && (t.step (.consumer 1)).isNone)) (by decide)
  obtain ⟨t,ht,hstuck⟩ := (Option.any_eq_true _ _).mp hl
  simp only [Bool.and_eq_true,Option.isNone_iff_eq_none] at hstuck
  have hrest := comes_to_rest (fun _ => 0) hs (l := [.producer 1,.producer 1]) (by decide) ht
  exact ⟨s,t,hs,ht,hrest.1,
    hrest.2 ⟨Fin.forall_fin_two.mpr hstuck.1,Fin.forall_fin_two.mpr hstuck.2⟩⟩

/-- While no second writer is admitted and no reader is woken in vain: a consumer waits only if it
has been given all deposits, and a producer only if some consumer that has not called is `n` deposits
behind. -/
theorem waits_for_call (buffer : Fin n → α)
    (h : (limitedBuffer p c buffer).ReachableUnder Exclusive s) (hs : s.Stuck) :
    (∀ j, s.consumers j ≠ .idle → s.received j = s.deposited) ∧ ∀ i, s.producers i ≠ .idle →
      ∃ j, s.consumers j = .idle ∧ s.deposited.length = (s.received j).length+n := by
  obtain ⟨x,hx⟩ := exists_accounts h.reachable
  have hrest := hs.atRest hx
  obtain ⟨-,hinv⟩ := h.invariant (I := fun s => Baton s ∧ BroadcastInv s)
    ⟨baton_init p buffer,broadcastInv_init p buffer⟩
    fun _ _ _ hs hg ht => ⟨hs.1.step ht,hs.2.step hs.1 hg ht⟩
  have hgiven (j) (hj : s.consumers j ≠ .idle) : s.received j = s.deposited := by
    obtain ⟨r,hwait,hpending⟩ := (hrest.consumer j).resolve_left hj
    have hreader := hinv.reader j
    rw [hwait] at hreader
    rw [hreader.readIndex r rfl] at hpending
    apply hreader.in_order.eq_of_length_le
    by_contra hlt
    exact hreader.window.ne_zero_iff.mpr (Nat.lt_of_not_le hlt) hpending
  refine ⟨hgiven,?_⟩
  intro i hi
  obtain ⟨-,hfull⟩ := (hrest.producer i).resolve_left hi
  obtain ⟨j,hj⟩ := not_forall.mp (of_decide_eq_false hfull)
  have hfinished : (s.consumers j).finished = 0 := by
    obtain hj | ⟨r,hj,-⟩ := hrest.consumer j <;>
    · rw [hj]
      rfl
  have hwindow := (hinv.reader j).window
  rw [hinv.nextWrite] at hj
  have hle : (s.received j).length+n ≤ s.deposited.length := by
    by_contra hlt
    exact hj (hwindow.eq_zero_iff.mpr (by omega))
  refine ⟨j,?_,?_⟩
  · by_contra hne
    rw [hgiven j hne] at hle
    have hpos := Nat.pos_of_neZero n
    omega
  · have hwidth := hwindow.width
    omega

theorem waits_for_call_two : ∃ s : Threads 1 2 2 ℕ, s.deposited = [7] ∧ ∃ j,
    s.consumers j = .idle ∧ s.deposited.length = (s.received j).length+1 := by
  obtain ⟨s,hs,hl⟩ := TransitionSystem.exists_reachableUnder_of_execUnder (G := Exclusive)
    (T := limitedBuffer (n := 1) 2 2 (fun _ => 0))
    (l := secondDeposit 0 1++[.producer 1,.producer 1])
    (p := fun s => s.deposited = [7] && (s.producers 1).left = 5 &&
      (((s.step (.producer 0)).isNone && (s.step (.producer 1)).isNone) &&
        ((s.step (.consumer 0)).isNone && (s.step (.consumer 1)).isNone))) (by decide)
  simp only [Bool.and_eq_true,decide_eq_true_eq,Option.isNone_iff_eq_none] at hl
  obtain ⟨⟨hdeposited,hleft⟩,hproducer,hconsumer⟩ := hl
  have hstuck : s.Stuck := ⟨Fin.forall_fin_two.mpr hproducer,Fin.forall_fin_two.mpr hconsumer⟩
  refine ⟨s,hdeposited,(waits_for_call (fun _ => 0) hs hstuck).2 1 ?_⟩
  intro hidle
  rw [hidle] at hleft
  cases hleft

end Runs
end PucRio.LimitedBuffer
