import PucRio.LimitedBuffer.Broadcast

/-! The books of the buffer. Who waits at a semaphore is counted until the permit for him is posted,
`nW` and `nR` count who writes and who reads, and `SIGNAL` gives the lock back only when nobody who
waits could go on. -/
namespace PucRio.LimitedBuffer
variable {n p c : ℕ} {α : Type*}

/-- What the buffer knows of a thread: the semaphore it is to post, the one it waits for or is about
to wait for, whether it is counted in `nW`, and the slot for which it is counted in `nR`. -/
structure View (n : ℕ) where
  baton? : Option (Sem n) := none
  asleep? : Option (Sem n) := none
  writing : ℕ := 0
  reading? : Option (Fin n) := none

/-- 1 for what is meant, else 0. -/
def hits {β : Type*} [DecidableEq β] (o : Option β) (y : β) : ℕ := if o = some y then 1 else 0

section Hits
variable {β : Type*} [DecidableEq β]

@[simp] theorem hits_none (y : β) : hits none y = 0 := rfl

@[simp] theorem hits_self (y : β) : hits (some y) y = 1 := if_pos rfl

theorem hits_of_ne {x y : β} (h : x ≠ y) : hits (some x) y = 0 :=
  if_neg fun he => h (Option.some.inj he)

theorem hits_pos {o : Option β} {y : β} (h : 0 < hits o y) : o = some y := by
  unfold hits at h
  split_ifs at h with ho
  · exact ho
  · exact absurd h (lt_irrefl 0)

end Hits

def Producer.view : Producer n α → View n
  | .idle => {}
  | .enter _ => {}
  | .delay _ => { baton? := some .e, asleep? := some .sW }
  | .waitSW _ => { asleep? := some .sW }
  | .signalEntry _ target => { baton? := some target, writing := 1 }
  | .write _ => { writing := 1 }
  | .leave _ _ => { writing := 1 }
  | .signalExit target => { baton? := some target }

def Consumer.view : Consumer n α → View n
  | .idle => {}
  | .enter => {}
  | .delay r => { baton? := some .e, asleep? := some (.sR r) }
  | .waitSR r => { asleep? := some (.sR r) }
  | .signalEntry r target => { baton? := some target, reading? := some r }
  | .read r => { reading? := some r }
  | .leave r _ => { reading? := some r }
  | .signalExit _ target => { baton? := some target }

abbrev Thread (p c : ℕ) := Fin p ⊕ Fin c

def Threads.view (s : Threads n p c α) : Thread p c → View n :=
  Sum.elim (fun i => (s.producers i).view) fun j => (s.consumers j).view

namespace LBUF

/-- The permits at a semaphore. -/
def value (lbuf : LBUF n c α) : Sem n → ℕ
  | .e => lbuf.e
  | .sW => lbuf.sW
  | .sR i => lbuf.sR i

/-- The count of the threads that wait for a semaphore and are not to be woken yet. -/
def delayed (lbuf : LBUF n c α) : Sem n → ℕ
  | .e => 0
  | .sW => lbuf.waitForDeposit
  | .sR i => lbuf.waitForRead i

/-- What thread `k` waits for at a semaphore is not there. -/
def Blocked (lbuf : LBUF n c α) : Thread p c → Sem n → Prop
  | .inl _,.sW => lbuf.freeSlot = false
  | .inr j,.sR r => lbuf.pendingReads r j = 0
  | _,_ => False

variable (lbuf : LBUF n c α)

theorem value_sem_post (x y : Sem n) :
    (lbuf.sem_post x).value y = lbuf.value y+hits (some x) y := by
  cases x with
  | e => cases y <;> rfl
  | sW => cases y <;> rfl
  | sR i =>
    cases y with
    | e => rfl
    | sW => rfl
    | sR k =>
      by_cases hk : k = i
      · subst hk
        simp [sem_post,value]
      · rw [hits_of_ne (by simpa using Ne.symm hk)]
        simp [sem_post,value,hk]

theorem value_sem_wait {lbuf w : LBUF n c α} {x : Sem n} (h : lbuf.sem_wait x = some w)
    (y : Sem n) : w.value y+hits (some x) y = lbuf.value y := by
  cases x with
  | e =>
    simp only [sem_wait] at h
    split_ifs at h with hpos
    obtain rfl := Option.some.inj h
    cases y with
    | e => simp only [value,hits_self]; omega
    | sW => rfl
    | sR k => rfl
  | sW =>
    simp only [sem_wait] at h
    split_ifs at h with hpos
    obtain rfl := Option.some.inj h
    cases y with
    | e => rfl
    | sW => simp only [value,hits_self]; omega
    | sR k => rfl
  | sR i =>
    simp only [sem_wait] at h
    split_ifs at h with hpos
    obtain rfl := Option.some.inj h
    cases y with
    | e => rfl
    | sW => rfl
    | sR k =>
      by_cases hk : k = i
      · subst hk
        simp only [value,Function.update_self,hits_self]
        omega
      · rw [hits_of_ne (by simpa using Ne.symm hk)]
        simp [value,hk]

theorem sem_wait_eq_none {x : Sem n} : lbuf.sem_wait x = none ↔ lbuf.value x = 0 := by
  cases x <;>
  · simp only [sem_wait,value]
    split_ifs with h
    · simp; omega
    · simp; omega

/-- What the threads wait for has not changed. -/
structure Keeps (l lbuf : LBUF n c α) : Prop where
  pendingReads : l.pendingReads = lbuf.pendingReads
  nextWriteIndex : l.nextWriteIndex = lbuf.nextWriteIndex
  nW : l.nW = lbuf.nW
  nR : l.nR = lbuf.nR

theorem Keeps.freeSlot {l : LBUF n c α} (h : l.Keeps lbuf) : l.freeSlot = lbuf.freeSlot := by
  simp only [LBUF.freeSlot,h.pendingReads,h.nextWriteIndex]

theorem Keeps.trans {lbuf l l' : LBUF n c α} (h' : l'.Keeps l) (h : l.Keeps lbuf) : l'.Keeps lbuf :=
  ⟨h'.pendingReads.trans h.pendingReads,h'.nextWriteIndex.trans h.nextWriteIndex,h'.nW.trans h.nW,
    h'.nR.trans h.nR⟩

theorem sem_post_keeps (x : Sem n) : (lbuf.sem_post x).Keeps lbuf := by
  cases x <;> constructor <;> rfl

theorem delayed_sem_post (x : Sem n) : (lbuf.sem_post x).delayed = lbuf.delayed := by
  cases x <;> rfl

variable {lbuf} in
theorem sem_wait_keeps {x : Sem n} {w : LBUF n c α} (h : lbuf.sem_wait x = some w) :
    w.Keeps lbuf ∧ w.delayed = lbuf.delayed := by
  cases x <;>
  · simp only [sem_wait] at h
    split_ifs at h
    obtain rfl := Option.some.inj h
    exact ⟨⟨rfl,rfl,rfl,rfl⟩,rfl⟩

variable {lbuf}

theorem pos_of_wakeReader {i : Fin n} (h : lbuf.wakeReader = some i) : 0 < lbuf.waitForRead i := by
  obtain ⟨k,-,hk⟩ := List.exists_of_findSome?_eq_some h
  obtain ⟨j,-,hj⟩ := List.exists_of_findSome?_eq_some hk
  split_ifs at hj with hpos
  obtain rfl := Option.some.inj hj
  exact hpos.2

theorem wakeReader_eq_none (h : lbuf.wakeReader = none) (hnW : lbuf.nW = 0) (j : Fin c)
    (i : Fin n) : lbuf.waitForRead i = 0 := by
  have hi := List.findSome?_eq_none_iff.mp h i (List.mem_finRange i)
  have hj := List.findSome?_eq_none_iff.mp hi j (List.mem_finRange j)
  split_ifs at hj with hpos
  by_contra hne
  exact hpos ⟨hnW,Nat.pos_of_ne_zero hne⟩

variable (lbuf)

theorem value_SIGNAL : lbuf.SIGNAL.1.value = lbuf.value := by
  unfold SIGNAL
  split
  · funext y
    cases y <;> rfl
  · split_ifs
    · funext y
      cases y <;> rfl
    · rfl

theorem nR_SIGNAL : lbuf.SIGNAL.1.nR = lbuf.nR := by
  unfold SIGNAL
  split
  · rfl
  · split_ifs <;> rfl

/-- Who is to be woken is not counted any more. -/
theorem delayed_SIGNAL {y : Sem n} (hy : y ≠ .e) :
    lbuf.SIGNAL.1.delayed y+hits (some lbuf.SIGNAL.2) y = lbuf.delayed y := by
  unfold SIGNAL
  split
  · rename_i i hi
    have hpos := pos_of_wakeReader hi
    cases y with
    | e => exact absurd rfl hy
    | sW => rfl
    | sR k =>
      by_cases hk : k = i
      · subst hk
        simp only [delayed,Function.update_self,hits_self]
        omega
      · rw [hits_of_ne (by simpa using Ne.symm hk)]
        simp [delayed,hk]
  · split_ifs with hcond
    · cases y with
      | e => exact absurd rfl hy
      | sW => simp only [delayed,hits_self]; omega
      | sR k => rfl
    · rw [hits_of_ne hy.symm]
      rfl

/-- The lock is given back when there is nobody to be woken. -/
theorem settled_of_SIGNAL (h : lbuf.SIGNAL.2 = .e) (hnW : lbuf.SIGNAL.1.nW = 0) :
    (lbuf.SIGNAL.1.freeSlot = true → lbuf.SIGNAL.1.nR lbuf.SIGNAL.1.nextWriteIndex = 0 →
      lbuf.SIGNAL.1.waitForDeposit = 0) ∧ ∀ (_ : Fin c) i, lbuf.SIGNAL.1.waitForRead i = 0 := by
  have hnone : lbuf.wakeReader = none ∧ lbuf.SIGNAL.1 = lbuf ∧
      ¬ (lbuf.freeSlot ∧ lbuf.nW = 0 ∧ lbuf.nR lbuf.nextWriteIndex = 0 ∧
        0 < lbuf.waitForDeposit) := by
    unfold SIGNAL at h ⊢
    split at h
    · cases h
    · rename_i hnone
      split_ifs at h with hcond
      exact ⟨hnone,congrArg Prod.fst (if_neg hcond),hcond⟩
  obtain ⟨hnone,hsame,hcond⟩ := hnone
  rw [hsame] at hnW ⊢
  refine ⟨?_,wakeReader_eq_none hnone hnW⟩
  intro hfree hnR
  by_contra hne
  exact hcond ⟨hfree,hnW,hnR,Nat.pos_of_ne_zero hne⟩

end LBUF

/-- What a step does to a buffer and to what it knows of the thread `k`. -/
inductive Segment (k : Thread p c) (lbuf l : LBUF n c α) (v v' : View n) : Prop
  | signal {x : Sem n} {w u : LBUF n c α} (wait : lbuf.sem_wait x = some w) (eq : l = u.SIGNAL.1)
      (value : u.value = w.value) (delayed : u.delayed = w.delayed)
      (nW : u.nW+v.writing = w.nW+v'.writing)
      (nR : ∀ i, u.nR i+hits v.reading? i = w.nR i+hits v'.reading? i) (baton : v.baton? = none)
      (baton' : v'.baton? = some u.SIGNAL.2)
      (asleep : ∀ y, y ≠ .e → hits v.asleep? y = hits (some x) y) (asleep' : v'.asleep? = none)
  | delay {y : Sem n} {w : LBUF n c α} (wait : lbuf.sem_wait .e = some w)
      (value : l.value = w.value) (delayed : ∀ z, l.delayed z = w.delayed z+hits (some y) z)
      (keeps : l.Keeps w) (blocked : l.Blocked k y) (view : v = {})
      (view' : v' = { baton? := some .e, asleep? := some y })
  | post {x : Sem n} (eq : l = lbuf.sem_post x) (baton : v.baton? = some x)
      (view : v' = { v with baton? := none })
  | quiet (value : l.value = lbuf.value) (delayed : l.delayed = lbuf.delayed) (keeps : l.Keeps lbuf)
      (view : v' = v)

/-- One more reader is counted. -/
theorem readers_add (nR : Fin n → ℤ) (r i : Fin n) :
    Function.update nR r (nR r+1) i+hits none i = nR i+hits (some r) i := by
  by_cases hi : i = r
  · subst hi
    simp
  · simp [hi,hits_of_ne (Ne.symm hi)]

section Steps
variable [NeZero n] {lbuf l : LBUF n c α}

theorem lbuf_deposit_segment {i : Fin p} {t t' : Producer n α}
    (h : lbuf.lbuf_deposit t = some (l,t')) : Segment (.inl i) lbuf l t.view t'.view := by
  cases t with
  | idle => cases h
  | enter data =>
    obtain ⟨w,hw,he⟩ := Option.map_eq_some_iff.mp h
    split_ifs at he with hfree
    · obtain ⟨rfl,rfl⟩ := Prod.mk.inj he
      exact .signal hw rfl rfl rfl (add_zero _) (fun _ => rfl) rfl rfl
        (fun y hy => (hits_of_ne hy.symm).symm) rfl
    · obtain ⟨rfl,rfl⟩ := Prod.mk.inj he
      refine .delay (y := .sW) hw ?_ ?_ ⟨rfl,rfl,rfl,rfl⟩ ?_ rfl rfl
      · funext z
        cases z <;> rfl
      · intro z
        cases z <;> rfl
      · exact Bool.eq_false_iff.mpr hfree
  | delay data =>
    obtain ⟨rfl,rfl⟩ := Prod.mk.inj (Option.some.inj h)
    exact .post (x := .e) rfl rfl rfl
  | waitSW data =>
    obtain ⟨w,hw,he⟩ := Option.map_eq_some_iff.mp h
    obtain ⟨rfl,rfl⟩ := Prod.mk.inj he
    exact .signal hw rfl rfl rfl (add_zero _) (fun _ => rfl) rfl rfl (fun _ _ => rfl) rfl
  | signalEntry data target =>
    obtain ⟨rfl,rfl⟩ := Prod.mk.inj (Option.some.inj h)
    exact .post rfl rfl rfl
  | write data =>
    obtain ⟨rfl,rfl⟩ := Prod.mk.inj (Option.some.inj h)
    exact .quiet rfl rfl ⟨rfl,rfl,rfl,rfl⟩ rfl
  | leave writeIndex data =>
    obtain ⟨w,hw,he⟩ := Option.map_eq_some_iff.mp h
    obtain ⟨rfl,rfl⟩ := Prod.mk.inj he
    refine .signal hw rfl rfl rfl ?_ (fun _ => rfl) rfl rfl
      (fun y hy => (hits_of_ne hy.symm).symm) rfl
    simp [Producer.view]
  | signalExit target =>
    obtain ⟨rfl,rfl⟩ := Prod.mk.inj (Option.some.inj h)
    exact .post rfl rfl rfl

theorem lbuf_consume_segment {j : Fin c} {t t' : Consumer n α}
    (h : lbuf.lbuf_consume j t = some (l,t')) :
    Segment (p := p) (.inr j) lbuf l t.view t'.view := by
  cases t with
  | idle => cases h
  | enter =>
    obtain ⟨w,hw,he⟩ := Option.map_eq_some_iff.mp h
    simp only at he
    split_ifs at he with hpending
    · obtain ⟨rfl,rfl⟩ := Prod.mk.inj he
      refine .delay hw ?_ ?_ ⟨rfl,rfl,rfl,rfl⟩ ?_ rfl rfl
      · funext z
        cases z <;> rfl
      · intro z
        cases z with
        | e => rfl
        | sW => rfl
        | sR k =>
          generalize (w.getAndAdvanceNextReadIndex j).2 = r
          by_cases hk : k = r
          · subst hk
            simp [LBUF.delayed]
            rfl
          · rw [hits_of_ne (by simpa using Ne.symm hk)]
            simp [LBUF.delayed,hk]
            rfl
      · exact hpending
    · obtain ⟨rfl,rfl⟩ := Prod.mk.inj he
      refine .signal hw rfl rfl rfl rfl ?_ rfl rfl (fun y hy => (hits_of_ne hy.symm).symm) rfl
      exact readers_add _ _
  | delay r =>
    obtain ⟨rfl,rfl⟩ := Prod.mk.inj (Option.some.inj h)
    exact .post (x := .e) rfl rfl rfl
  | waitSR r =>
    obtain ⟨w,hw,he⟩ := Option.map_eq_some_iff.mp h
    obtain ⟨rfl,rfl⟩ := Prod.mk.inj he
    refine .signal hw rfl rfl rfl rfl ?_ rfl rfl (fun _ _ => rfl) rfl
    exact readers_add _ _
  | signalEntry r target =>
    obtain ⟨rfl,rfl⟩ := Prod.mk.inj (Option.some.inj h)
    exact .post rfl rfl rfl
  | read r =>
    obtain ⟨rfl,rfl⟩ := Prod.mk.inj (Option.some.inj h)
    exact .quiet rfl rfl ⟨rfl,rfl,rfl,rfl⟩ rfl
  | leave r data =>
    obtain ⟨w,hw,he⟩ := Option.map_eq_some_iff.mp h
    obtain ⟨rfl,rfl⟩ := Prod.mk.inj he
    refine .signal hw rfl rfl rfl rfl ?_ rfl rfl (fun y hy => (hits_of_ne hy.symm).symm) rfl
    intro k
    by_cases hk : k = r
    · subst hk
      simp [Consumer.view]
    · simp [Consumer.view,hk,hits_of_ne (Ne.symm hk)]
  | signalExit data target =>
    obtain ⟨rfl,rfl⟩ := Prod.mk.inj (Option.some.inj h)
    exact .post rfl rfl rfl

end Steps

/-- Nobody who waits could go on, if no writer is active. -/
def Settled (lbuf : LBUF n c α) (view : Thread p c → View n) : Prop := lbuf.nW = 0 →
  (lbuf.freeSlot = true → lbuf.nR lbuf.nextWriteIndex = 0 → lbuf.waitForDeposit = 0) ∧
  ∀ j r, (view (.inr j)).asleep? = some (.sR r) → lbuf.pendingReads r j = 0

/-- Only a thread that cannot go on has been counted since. -/
theorem Settled.keeps {lbuf l : LBUF n c α} {view view' : Thread p c → View n}
    (h : Settled lbuf view) (keeps : l.Keeps lbuf)
    (writer : l.freeSlot = true → l.waitForDeposit = lbuf.waitForDeposit)
    (reader : ∀ j r, (view' (.inr j)).asleep? = some (.sR r) → l.pendingReads r j ≠ 0 →
      (view (.inr j)).asleep? = some (.sR r)) : Settled l view' := by
  intro hzero
  obtain ⟨hwriter,hreader⟩ := h (keeps.nW ▸ hzero)
  constructor
  · intro hfree hnR
    rw [writer hfree]
    rw [keeps.freeSlot] at hfree
    rw [keeps.nR,keeps.nextWriteIndex] at hnR
    exact hwriter hfree hnR
  · intro j r hj
    by_contra hne
    exact hne (keeps.pendingReads ▸ hreader j r (reader j r hj hne))

/-- The books balance, with the permit at `x` or meant for it. -/
structure Accounts (lbuf : LBUF n c α) (view : Thread p c → View n) (x : Sem n) : Prop where
  permit : ∀ y, lbuf.value y+∑ k, hits (view k).baton? y = hits (some x) y
  asleep : ∀ y, y ≠ .e → lbuf.delayed y+hits (some x) y = ∑ k, hits (view k).asleep? y
  writers : lbuf.nW = (∑ k, (view k).writing : ℕ)
  readers : ∀ i, lbuf.nR i = (∑ k, hits (view k).reading? i : ℕ)
  settled : x = .e → Settled lbuf view

namespace Accounts
variable {lbuf l : LBUF n c α} {view : Thread p c → View n} {x y : Sem n} {k : Thread p c}

theorem eq_of_wait {w : LBUF n c α} (h : Accounts lbuf view x) (hw : lbuf.sem_wait y = some w) :
    x = y := by
  have hvalue := LBUF.value_sem_wait hw y
  have hpermit := h.permit y
  rw [hits_self] at hvalue
  exact Option.some.inj (hits_pos (y := y) (by omega))

theorem eq_of_baton (h : Accounts lbuf view x) (hk : (view k).baton? = some y) : x = y := by
  have hle := Finset.single_le_sum (f := fun k => hits (view k).baton? y) (fun _ _ => Nat.zero_le _)
    (Finset.mem_univ k)
  have hpermit := h.permit y
  rw [hk,hits_self] at hle
  exact Option.some.inj (hits_pos (y := y) (by omega))

theorem exists_asleep (h : Accounts lbuf view x) (hy : y ≠ .e)
    (hpos : 0 < lbuf.delayed y+hits (some x) y) : ∃ k, (view k).asleep? = some y := by
  rw [h.asleep y hy] at hpos
  obtain ⟨k,-,hk⟩ := Finset.exists_ne_zero_of_sum_ne_zero hpos.ne'
  exact ⟨k,hits_pos (Nat.pos_of_ne_zero hk)⟩

theorem pos_of_asleep (h : Accounts lbuf view x) (hy : y ≠ .e) (hk : (view k).asleep? = some y) :
    0 < lbuf.delayed y+hits (some x) y := by
  have hle := Finset.single_le_sum (f := fun k => hits (view k).asleep? y)
    (fun _ _ => Nat.zero_le _) (Finset.mem_univ k)
  rw [hk,hits_self] at hle
  rw [h.asleep y hy]
  omega

/-- One step of one thread. -/
theorem step {v' : View n} (h : Accounts lbuf view x) (hs : Segment k lbuf l (view k) v') :
    ∃ x', Accounts l (Function.update view k v') x' := by
  have hbaton y := sum_comp_update (fun v : View n => hits v.baton? y) view k v'
  have hasleep y := sum_comp_update (fun v : View n => hits v.asleep? y) view k v'
  have hwriting := sum_comp_update View.writing view k v'
  have hreading i := sum_comp_update (fun v : View n => hits v.reading? i) view k v'
  cases hs with
  | @signal x' w u wait eq value delayed nW nR baton baton' asleep asleep' =>
    obtain rfl := h.eq_of_wait wait
    obtain ⟨hkeeps,hdelayed⟩ := LBUF.sem_wait_keeps wait
    have hnew : ∀ y, y ≠ .e → l.delayed y+hits (some u.SIGNAL.2) y =
        ∑ k', hits (Function.update view k v' k').asleep? y := by
      intro y hy
      have h1 := u.delayed_SIGNAL hy
      have h2 := h.asleep y hy
      have h3 := hasleep y
      rw [asleep y hy,asleep',hits_none] at h3
      rw [eq,h1,delayed,hdelayed]
      omega
    refine ⟨u.SIGNAL.2,?_,hnew,?_,?_,?_⟩
    · intro y
      have h1 := h.permit y
      have h2 := LBUF.value_sem_wait wait y
      have h3 := hbaton y
      rw [baton,baton',hits_none] at h3
      rw [eq,u.value_SIGNAL,value]
      omega
    · rw [eq,u.SIGNAL_same.nW]
      have h1 := h.writers
      rw [hkeeps.nW] at nW
      omega
    · intro i
      have h1 := h.readers i
      have h2 := nR i
      have h3 := hreading i
      rw [hkeeps.nR] at h2
      rw [eq,u.nR_SIGNAL]
      omega
    · intro he hzero
      rw [eq] at hzero hnew ⊢
      obtain ⟨hwriter,hreader⟩ := u.settled_of_SIGNAL he hzero
      refine ⟨hwriter,?_⟩
      intro j r hj
      -- Nobody is asleep who is neither counted nor about to be woken.
      have hne : (.sR r : Sem n) ≠ .e := by simp
      have hsum := hnew (.sR r) hne
      have hle := Finset.single_le_sum (f := fun k' => hits (Function.update view k v' k').asleep?
        (.sR r)) (fun _ _ => Nat.zero_le _) (Finset.mem_univ (Sum.inr j))
      rw [hj,hits_self,← hsum,he,hits_of_ne hne.symm] at hle
      have hzero := hreader j r
      change u.SIGNAL.1.delayed (.sR r) = 0 at hzero
      omega
  | @delay y w wait value delayed keeps blocked viewk view' =>
    obtain rfl := h.eq_of_wait wait
    obtain ⟨hkeeps,hdelayed⟩ := LBUF.sem_wait_keeps wait
    subst view'
    simp only [viewk,hits_none,add_zero] at hbaton hasleep hwriting hreading
    refine ⟨.e,?_,?_,?_,?_,?_⟩
    · intro z
      have h1 := h.permit z
      have h2 := LBUF.value_sem_wait wait z
      have h3 := hbaton z
      rw [value]
      omega
    · intro z hz
      have h1 := h.asleep z hz
      have h2 := hasleep z
      rw [delayed,hdelayed]
      omega
    · rw [keeps.nW,hkeeps.nW,h.writers,hwriting]
    · intro i
      rw [keeps.nR,hkeeps.nR,h.readers i,hreading i]
    · intro he
      refine (h.settled he).keeps (keeps.trans hkeeps) ?_ ?_
      · intro hfree
        cases y with
        | e => cases k <;> exact blocked.elim
        | sW =>
          cases k with
          | inl i => exact absurd hfree (Bool.eq_false_iff.mp blocked)
          | inr j => exact blocked.elim
        | sR r =>
          have hz := delayed .sW
          rw [hdelayed] at hz
          exact hz
      · intro j r hj hne
        by_cases hk : Sum.inr j = k
        · subst hk
          rw [Function.update_self] at hj
          obtain rfl : y = .sR r := Option.some.inj hj
          exact absurd blocked hne
        · rwa [Function.update_of_ne hk] at hj
  | @post y eq baton view' =>
    obtain rfl := h.eq_of_baton baton
    have hkeeps := lbuf.sem_post_keeps x
    subst view' eq
    simp only [baton,hits_none,add_zero,
      Nat.add_right_cancel_iff] at hbaton hasleep hwriting hreading
    refine ⟨x,?_,?_,?_,?_,?_⟩
    · intro z
      have h1 := h.permit z
      have h2 := hbaton z
      rw [LBUF.value_sem_post]
      omega
    · intro z hz
      rw [LBUF.delayed_sem_post,h.asleep z hz,hasleep]
    · rw [hkeeps.nW,h.writers,hwriting]
    · intro i
      rw [hkeeps.nR,h.readers i,hreading]
    · intro hx
      refine (h.settled hx).keeps hkeeps (fun _ => congrFun (lbuf.delayed_sem_post x) .sW) ?_
      intro j r hj _
      by_cases hk : Sum.inr j = k
      · subst hk
        rwa [Function.update_self] at hj
      · rwa [Function.update_of_ne hk] at hj
  | quiet value delayed keeps view' =>
    subst view'
    rw [Function.update_eq_self]
    refine ⟨x,?_,?_,?_,?_,?_⟩
    · exact fun y => value ▸ h.permit y
    · exact fun y hy => delayed ▸ h.asleep y hy
    · exact keeps.nW.trans h.writers
    · exact fun i => (congrFun keeps.nR i).trans (h.readers i)
    · exact fun hx => (h.settled hx).keeps keeps (fun _ => congrFun delayed .sW) fun _ _ hj _ => hj

end Accounts

section Runs
variable [NeZero n] {s t : Threads n p c α}

/-- Beside the steps of the threads there are the calls, which the buffer does not know of yet. -/
theorem Threads.step_view {a : Action p c α} (h : s.step a = some t) :
    (t.lbuf = s.lbuf ∧ t.view = s.view) ∨
    ∃ k v, Segment k s.lbuf t.lbuf (s.view k) v ∧ t.view = Function.update s.view k v := by
  have hproducer (i : Fin p) (u : Producer n α) (r : Threads n p c α)
      (hp : r.producers = Function.update s.producers i u) (hc : r.consumers = s.consumers) :
      r.view = Function.update s.view (.inl i) u.view := by
    funext k
    cases k with
    | inl x =>
      by_cases hx : x = i
      · subst hx
        simp [Threads.view,hp]
      · simp [Threads.view,hp,hx]
    | inr j => simp [Threads.view,hc]
  have hconsumer (j : Fin c) (u : Consumer n α) (r : Threads n p c α)
      (hp : r.producers = s.producers) (hc : r.consumers = Function.update s.consumers j u) :
      r.view = Function.update s.view (.inr j) u.view := by
    funext k
    cases k with
    | inl i => simp [Threads.view,hp]
    | inr x =>
      by_cases hx : x = j
      · subst hx
        simp [Threads.view,hc]
      · simp [Threads.view,hc,hx]
  cases a with
  | deposit i data =>
    simp only [Threads.step] at h
    split at h
    · rename_i hidle
      obtain rfl := Option.some.inj h
      refine .inl ⟨rfl,(hproducer i (.enter data) (s.setProducer i _) rfl rfl).trans ?_⟩
      apply Function.update_eq_self_iff.mpr
      simp [Threads.view,hidle,Producer.view]
    · cases h
  | consume j =>
    simp only [Threads.step] at h
    split at h
    · rename_i hidle
      obtain rfl := Option.some.inj h
      refine .inl ⟨rfl,(hconsumer j .enter (s.setConsumer j _) rfl rfl).trans ?_⟩
      apply Function.update_eq_self_iff.mpr
      simp [Threads.view,hidle,Consumer.view]
    · cases h
  | producer i =>
    obtain ⟨⟨l,u⟩,hl,he⟩ := Option.map_eq_some_iff.mp h
    obtain ⟨hb,hp,hc⟩ : t.lbuf = l ∧ t.producers = Function.update s.producers i u ∧
        t.consumers = s.consumers := by
      dsimp only at he
      split at he <;> subst he <;> exact ⟨rfl,rfl,rfl⟩
    exact .inr ⟨.inl i,u.view,hb ▸ lbuf_deposit_segment hl,hproducer i u t hp hc⟩
  | consumer j =>
    obtain ⟨⟨l,u⟩,hl,he⟩ := Option.map_eq_some_iff.mp h
    obtain ⟨hb,hp,hc⟩ : t.lbuf = l ∧ t.producers = s.producers ∧
        t.consumers = Function.update s.consumers j u := by
      dsimp only at he
      split at he <;> subst he <;> exact ⟨rfl,rfl,rfl⟩
    exact .inr ⟨.inr j,u.view,hb ▸ lbuf_consume_segment hl,hconsumer j u t hp hc⟩

theorem accounts_init (p c : ℕ) (buffer : Fin n → α) :
    Accounts (Threads.init p c buffer).lbuf (Threads.init p c buffer).view .e := by
  have hview : (Threads.init p c buffer).view = fun _ => {} := by
    funext k
    cases k <;> rfl
  rw [hview]
  constructor
  · intro y
    cases y <;> simp [Threads.init,lbuf_create,LBUF.value,hits_of_ne]
  · intro y hy
    cases y with
    | e => exact absurd rfl hy
    | sW => simp [Threads.init,lbuf_create,LBUF.delayed,hits_of_ne]
    | sR i => simp [Threads.init,lbuf_create,LBUF.delayed,hits_of_ne]
  · simp [Threads.init,lbuf_create]
  · simp [Threads.init,lbuf_create]
  · intro _ _
    exact ⟨fun _ _ => rfl,fun _ _ h => by cases h⟩

theorem exists_accounts {buffer : Fin n → α} (h : (limitedBuffer p c buffer).Reachable s) :
    ∃ x, Accounts s.lbuf s.view x := by
  refine TransitionSystem.GuardedRun.invariant (I := fun s => ∃ x, Accounts s.lbuf s.view x) h
    ⟨.e,accounts_init p c buffer⟩ ?_
  rintro s a t ⟨x,hx⟩ - ht
  obtain ⟨hlbuf,hview⟩ | ⟨k,v,hsegment,hview⟩ := Threads.step_view ht
  · rw [hlbuf,hview]
    exact ⟨x,hx⟩
  · rw [hview]
    exact hx.step hsegment

end Runs
end PucRio.LimitedBuffer
