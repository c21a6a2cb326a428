import PucRio.Lib.PartialRun
import PucRio.LimitedBuffer.Buffer
import Mathlib.Algebra.Order.BigOperators.Group.Finset

/-! The passed baton. The semaphores are split: one permit is at one of them or with a thread
that has yet to post it, so nothing runs between the choice of a semaphore and the wake-up. `SIGNAL`
posts them loop by loop. -/
namespace PucRio.LimitedBuffer
variable {n p c : ℕ} {α : Type*}

/-- The semaphore a thread has chosen in `SIGNAL` and not posted yet. -/
def Producer.target? : Producer n α → Option (Sem n)
  | .signalEntry _ target => some target
  | .signalExit target => some target
  | _ => none

def Consumer.target? : Consumer n α → Option (Sem n)
  | .signalEntry _ target => some target
  | .signalExit _ target => some target
  | _ => none

/-- Threads between a `sem_wait` and the next `sem_post`. -/
def Producer.inside (t : Producer n α) : ℕ :=
  match t with
  | .delay _ => 1
  | t => if t.target?.isSome then 1 else 0

def Consumer.inside (t : Consumer n α) : ℕ :=
  match t with
  | .delay _ => 1
  | t => if t.target?.isSome then 1 else 0

def LBUF.permits (lbuf : LBUF n c α) : ℕ := lbuf.e+lbuf.sW+∑ i, lbuf.sR i

def Threads.permits (s : Threads n p c α) : ℕ :=
  s.lbuf.permits+∑ i, (s.producers i).inside+∑ j, (s.consumers j).inside

theorem Producer.inside_of_target {t : Producer n α} {x : Sem n} (h : t.target? = some x) :
    t.inside = 1 := by
  cases t <;> simp_all [inside,target?]

theorem Consumer.inside_of_target {t : Consumer n α} {x : Sem n} (h : t.target? = some x) :
    t.inside = 1 := by
  cases t <;> simp_all [inside,target?]

/-- Semaphores and delayed-thread counters apart, two buffers agree. -/
structure Same (l l' : LBUF n c α) : Prop where
  buffer : l'.buffer = l.buffer
  pendingReads : l'.pendingReads = l.pendingReads
  nextConsume : l'.nextConsume = l.nextConsume
  nextWriteIndex : l'.nextWriteIndex = l.nextWriteIndex
  nW : l'.nW = l.nW

theorem Same.freeSlot {l l' : LBUF n c α} (h : Same l l') : l'.freeSlot = l.freeSlot := by
  simp only [LBUF.freeSlot,h.pendingReads,h.nextWriteIndex]

theorem Same.trans {l l' l'' : LBUF n c α} (h : Same l l') (h' : Same l' l'') : Same l l'' :=
  ⟨h'.buffer.trans h.buffer,h'.pendingReads.trans h.pendingReads,
    h'.nextConsume.trans h.nextConsume,h'.nextWriteIndex.trans h.nextWriteIndex,h'.nW.trans h.nW⟩

namespace LBUF
variable (lbuf : LBUF n c α)

theorem sem_post_same (x : Sem n) : Same lbuf (lbuf.sem_post x) := by cases x <;> constructor <;> rfl

theorem permits_sem_post (x : Sem n) : (lbuf.sem_post x).permits = lbuf.permits+1 := by
  cases x with
  | e => simp only [permits,sem_post]; omega
  | sW => simp only [permits,sem_post]; omega
  | sR i =>
    have := sum_comp_update id lbuf.sR i (lbuf.sR i+1)
    simp only [id] at this
    simp only [permits,sem_post]
    omega

theorem sem_post_sW (x : Sem n) : (lbuf.sem_post x).sW = lbuf.sW + if x = .sW then 1 else 0 := by
  cases x <;> rfl

variable {lbuf}

theorem sem_wait_same {x : Sem n} {l : LBUF n c α} (h : lbuf.sem_wait x = some l) :
    Same lbuf l := by
  cases x <;>
  · simp only [sem_wait] at h
    split_ifs at h
    obtain rfl := Option.some.inj h
    constructor <;> rfl

theorem permits_sem_wait {x : Sem n} {l : LBUF n c α} (h : lbuf.sem_wait x = some l) :
    l.permits+1 = lbuf.permits := by
  cases x with
  | e =>
    simp only [sem_wait] at h
    split_ifs at h
    obtain rfl := Option.some.inj h
    simp only [permits]; omega
  | sW =>
    simp only [sem_wait] at h
    split_ifs at h
    obtain rfl := Option.some.inj h
    simp only [permits]; omega
  | sR i =>
    simp only [sem_wait] at h
    split_ifs at h
    obtain rfl := Option.some.inj h
    have := sum_comp_update id lbuf.sR i (lbuf.sR i-1)
    simp only [id] at this
    simp only [permits]
    omega

theorem sW_pos_of_sem_wait {l : LBUF n c α} (h : lbuf.sem_wait .sW = some l) : 0 < lbuf.sW := by
  simp only [sem_wait] at h
  split_ifs at h with hpos
  exact hpos

variable (lbuf)

theorem SIGNAL_same : Same lbuf lbuf.SIGNAL.1 := by
  unfold SIGNAL
  split
  · constructor <;> rfl
  · split_ifs <;> constructor <;> rfl

theorem admitReader_same (readIndex : Fin n) : Same lbuf (lbuf.admitReader readIndex).1 :=
  have h := SIGNAL_same { lbuf with
    nR := Function.update lbuf.nR readIndex (lbuf.nR readIndex+1) }
  ⟨h.buffer,h.pendingReads,h.nextConsume,h.nextWriteIndex,h.nW⟩

@[simp] theorem permits_SIGNAL : lbuf.SIGNAL.1.permits = lbuf.permits := by
  unfold SIGNAL
  split
  · rfl
  · split_ifs <;> rfl

@[simp] theorem SIGNAL_sW : lbuf.SIGNAL.1.sW = lbuf.sW := by
  unfold SIGNAL
  split
  · rfl
  · split_ifs <;> rfl

/-- A writer is woken only for a free slot, with no other writer active. -/
theorem SIGNAL_eq_sW (h : lbuf.SIGNAL.2 = .sW) : lbuf.nW = 0 ∧ lbuf.freeSlot = true := by
  unfold SIGNAL at h
  split at h
  · simp at h
  · split_ifs at h with hc
    exact ⟨hc.2.1,hc.1⟩

end LBUF

section Choice
variable {lbuf l : LBUF n c α}

/-- What `lbuf_deposit` awaits before `nW++`: a free slot, and here no other writer. -/
def LBUF.WriterMayEnter (lbuf : LBUF n c α) : Prop := lbuf.nW = 0 ∧ lbuf.freeSlot = true

/-- A step with the semaphores in view: it takes the permit and may choose `sW`, or it posts or
keeps what it has. -/
inductive BatonStep (lbuf l : LBUF n c α) (target? target?' : Option (Sem n)) : Prop
  | opens {x : Sem n} {w : LBUF n c α} (wait : lbuf.sem_wait x = some w) (sW : l.sW = w.sW)
      (choice : target?' = some .sW → l.WriterMayEnter)
  | keeps (nW : l.nW = lbuf.nW) (free : l.freeSlot = lbuf.freeSlot)
      (sW : 0 < l.sW → 0 < lbuf.sW ∨ target? = some .sW) (none : target?' = none)

/-- A code segment that ends in `SIGNAL`. -/
theorem BatonStep.signal {x : Sem n} {w v : LBUF n c α} {target? : Option (Sem n)}
    (wait : lbuf.sem_wait x = some w) (sW : v.sW = w.sW) :
    BatonStep lbuf v.SIGNAL.1 target? (some v.SIGNAL.2) := by
  refine .opens wait (v.SIGNAL_sW.trans sW) fun h => ?_
  obtain ⟨hnW,hfree⟩ := v.SIGNAL_eq_sW (Option.some.inj h)
  exact ⟨v.SIGNAL_same.nW.trans hnW,v.SIGNAL_same.freeSlot.trans hfree⟩

theorem BatonStep.post (x : Sem n) {target? : Option (Sem n)} (h : x = .sW → target? = some .sW) :
    BatonStep lbuf (lbuf.sem_post x) target? none := by
  refine .keeps (lbuf.sem_post_same x).nW (lbuf.sem_post_same x).freeSlot (fun hpos => ?_) rfl
  rw [LBUF.sem_post_sW] at hpos
  split_ifs at hpos with hx
  · exact .inr (h hx)
  · exact .inl hpos

/-- One permit, and while it is meant for a writer that writer may enter. -/
structure Baton (s : Threads n p c α) : Prop where
  one : s.permits = 1
  at_sW : 0 < s.lbuf.sW → s.lbuf.WriterMayEnter
  of_producer : ∀ i, (s.producers i).target? = some .sW → s.lbuf.WriterMayEnter
  of_consumer : ∀ j, (s.consumers j).target? = some .sW → s.lbuf.WriterMayEnter

/-- Whoever takes the permit leaves none behind. -/
theorem Threads.alone {s : Threads n p c α} (h : s.permits = 1) {x : Sem n} {w : LBUF n c α}
    (hw : s.lbuf.sem_wait x = some w) : w.sW = 0 ∧ (∀ i, (s.producers i).target? ≠ some .sW) ∧
    ∀ j, (s.consumers j).target? ≠ some .sW := by
  have hwait := LBUF.permits_sem_wait hw
  simp only [Threads.permits] at h
  have hp : ∑ i, (s.producers i).inside = 0 := by omega
  have hc : ∑ j, (s.consumers j).inside = 0 := by omega
  refine ⟨by simp only [LBUF.permits] at *; omega,fun i hi => ?_,fun j hj => ?_⟩
  · have := Finset.sum_eq_zero_iff.mp hp i (Finset.mem_univ i)
    rw [Producer.inside_of_target hi] at this
    exact one_ne_zero this
  · have := Finset.sum_eq_zero_iff.mp hc j (Finset.mem_univ j)
    rw [Consumer.inside_of_target hj] at this
    exact one_ne_zero this

end Choice

section Steps
variable [NeZero n] {lbuf l : LBUF n c α}

/-- A step of a thread passes the permit it takes on, or keeps it. -/
theorem lbuf_deposit_permits {t t' : Producer n α} (h : lbuf.lbuf_deposit t = some (l,t')) :
    l.permits+t'.inside = lbuf.permits+t.inside := by
  cases t with
  | idle => simp [LBUF.lbuf_deposit] at h
  | enter data =>
    obtain ⟨w,hw,he⟩ := Option.map_eq_some_iff.mp h
    have hwait := LBUF.permits_sem_wait hw
    split_ifs at he
    · obtain ⟨rfl,rfl⟩ := Prod.mk.inj he
      exact (congrArg (·+1) (LBUF.permits_SIGNAL _)).trans hwait
    · obtain ⟨rfl,rfl⟩ := Prod.mk.inj he
      exact hwait
  | delay data =>
    obtain ⟨rfl,rfl⟩ := Prod.mk.inj (Option.some.inj h)
    exact lbuf.permits_sem_post _
  | waitSW data =>
    obtain ⟨w,hw,he⟩ := Option.map_eq_some_iff.mp h
    have hwait := LBUF.permits_sem_wait hw
    obtain ⟨rfl,rfl⟩ := Prod.mk.inj he
    exact (congrArg (·+1) (LBUF.permits_SIGNAL _)).trans hwait
  | signalEntry data target =>
    obtain ⟨rfl,rfl⟩ := Prod.mk.inj (Option.some.inj h)
    exact lbuf.permits_sem_post _
  | write data =>
    obtain ⟨rfl,rfl⟩ := Prod.mk.inj (Option.some.inj h)
    rfl
  | leave writeIndex data =>
    obtain ⟨w,hw,he⟩ := Option.map_eq_some_iff.mp h
    have hwait := LBUF.permits_sem_wait hw
    obtain ⟨rfl,rfl⟩ := Prod.mk.inj he
    exact (congrArg (·+1) (LBUF.permits_SIGNAL _)).trans hwait
  | signalExit target =>
    obtain ⟨rfl,rfl⟩ := Prod.mk.inj (Option.some.inj h)
    exact lbuf.permits_sem_post _

theorem lbuf_consume_permits {j : Fin c} {t t' : Consumer n α}
    (h : lbuf.lbuf_consume j t = some (l,t')) : l.permits+t'.inside = lbuf.permits+t.inside := by
  cases t with
  | idle => simp [LBUF.lbuf_consume] at h
  | enter =>
    obtain ⟨w,hw,he⟩ := Option.map_eq_some_iff.mp h
    have hwait := LBUF.permits_sem_wait hw
    simp only at he
    split_ifs at he
    · obtain ⟨rfl,rfl⟩ := Prod.mk.inj he
      exact hwait
    · obtain ⟨rfl,rfl⟩ := Prod.mk.inj he
      exact (congrArg (·+1) (LBUF.permits_SIGNAL _)).trans hwait
  | delay r =>
    obtain ⟨rfl,rfl⟩ := Prod.mk.inj (Option.some.inj h)
    exact lbuf.permits_sem_post _
  | waitSR r =>
    obtain ⟨w,hw,he⟩ := Option.map_eq_some_iff.mp h
    have hwait := LBUF.permits_sem_wait hw
    obtain ⟨rfl,rfl⟩ := Prod.mk.inj he
    exact (congrArg (·+1) (LBUF.permits_SIGNAL _)).trans hwait
  | signalEntry r target =>
    obtain ⟨rfl,rfl⟩ := Prod.mk.inj (Option.some.inj h)
    exact lbuf.permits_sem_post _
  | read r =>
    obtain ⟨rfl,rfl⟩ := Prod.mk.inj (Option.some.inj h)
    rfl
  | leave r data =>
    obtain ⟨w,hw,he⟩ := Option.map_eq_some_iff.mp h
    have hwait := LBUF.permits_sem_wait hw
    obtain ⟨rfl,rfl⟩ := Prod.mk.inj he
    exact (congrArg (·+1) (LBUF.permits_SIGNAL _)).trans hwait
  | signalExit data target =>
    obtain ⟨rfl,rfl⟩ := Prod.mk.inj (Option.some.inj h)
    exact lbuf.permits_sem_post _

theorem Threads.permits_step {s s' : Threads n p c α} {a : Action p c α}
    (h : s.step a = some s') : s'.permits = s.permits := by
  cases a with
  | deposit i data =>
    simp only [Threads.step] at h
    split at h
    · rename_i hidle
      obtain rfl := Option.some.inj h
      have := sum_comp_update Producer.inside s.producers i (.enter data)
      have he : (.enter data : Producer n α).inside = (.idle : Producer n α).inside := rfl
      rw [hidle,he] at this
      simp only [Threads.permits,Threads.setProducer]
      omega
    · simp at h
  | consume j =>
    simp only [Threads.step] at h
    split at h
    · rename_i hidle
      obtain rfl := Option.some.inj h
      have := sum_comp_update Consumer.inside s.consumers j .enter
      have he : (.enter : Consumer n α).inside = (.idle : Consumer n α).inside := rfl
      rw [hidle,he] at this
      simp only [Threads.permits,Threads.setConsumer]
      omega
    · simp at h
  | producer i =>
    obtain ⟨⟨l,t⟩,hl,rfl⟩ := Option.map_eq_some_iff.mp h
    have := lbuf_deposit_permits hl
    have := sum_comp_update Producer.inside s.producers i t
    have hs : ∀ (d : List α), ({ { s with lbuf := l }.setProducer i t with
        deposited := d } : Threads n p c α).permits = s.permits := by
      intro d
      simp only [Threads.permits,Threads.setProducer]
      omega
    dsimp only
    split
    · exact hs _
    · exact hs s.deposited
  | consumer j =>
    obtain ⟨⟨l,t⟩,hl,rfl⟩ := Option.map_eq_some_iff.mp h
    have := lbuf_consume_permits hl
    have := sum_comp_update Consumer.inside s.consumers j t
    have hs : ∀ (r : Fin c → List α), ({ { s with lbuf := l }.setConsumer j t with
        received := r } : Threads n p c α).permits = s.permits := by
      intro r
      simp only [Threads.permits,Threads.setConsumer]
      omega
    dsimp only
    split
    · exact hs _
    · exact hs s.received

theorem lbuf_deposit_baton {t t' : Producer n α} (h : lbuf.lbuf_deposit t = some (l,t')) :
    BatonStep lbuf l t.target? t'.target? := by
  cases t with
  | idle => simp [LBUF.lbuf_deposit] at h
  | enter data =>
    obtain ⟨w,hw,he⟩ := Option.map_eq_some_iff.mp h
    split_ifs at he
    · obtain ⟨rfl,rfl⟩ := Prod.mk.inj he
      exact .signal hw rfl
    · obtain ⟨rfl,rfl⟩ := Prod.mk.inj he
      exact .opens hw rfl (by simp [Producer.target?])
  | delay data =>
    obtain ⟨rfl,rfl⟩ := Prod.mk.inj (Option.some.inj h)
    exact .post .e (by simp)
  | waitSW data =>
    obtain ⟨w,hw,he⟩ := Option.map_eq_some_iff.mp h
    obtain ⟨rfl,rfl⟩ := Prod.mk.inj he
    exact .signal hw rfl
  | signalEntry data target =>
    obtain ⟨rfl,rfl⟩ := Prod.mk.inj (Option.some.inj h)
    exact .post target (by simp [Producer.target?])
  | write data =>
    obtain ⟨rfl,rfl⟩ := Prod.mk.inj (Option.some.inj h)
    exact .keeps rfl rfl .inl rfl
  | leave writeIndex data =>
    obtain ⟨w,hw,he⟩ := Option.map_eq_some_iff.mp h
    obtain ⟨rfl,rfl⟩ := Prod.mk.inj he
    exact .signal hw rfl
  | signalExit target =>
    obtain ⟨rfl,rfl⟩ := Prod.mk.inj (Option.some.inj h)
    exact .post target (by simp [Producer.target?])

theorem lbuf_consume_baton {j : Fin c} {t t' : Consumer n α}
    (h : lbuf.lbuf_consume j t = some (l,t')) : BatonStep lbuf l t.target? t'.target? := by
  cases t with
  | idle => simp [LBUF.lbuf_consume] at h
  | enter =>
    obtain ⟨w,hw,he⟩ := Option.map_eq_some_iff.mp h
    simp only at he
    split_ifs at he
    · obtain ⟨rfl,rfl⟩ := Prod.mk.inj he
      exact .opens hw rfl (by simp [Consumer.target?])
    · obtain ⟨rfl,rfl⟩ := Prod.mk.inj he
      exact .signal hw rfl
  | delay r =>
    obtain ⟨rfl,rfl⟩ := Prod.mk.inj (Option.some.inj h)
    exact .post .e (by simp)
  | waitSR r =>
    obtain ⟨w,hw,he⟩ := Option.map_eq_some_iff.mp h
    obtain ⟨rfl,rfl⟩ := Prod.mk.inj he
    exact .signal hw rfl
  | signalEntry r target =>
    obtain ⟨rfl,rfl⟩ := Prod.mk.inj (Option.some.inj h)
    exact .post target (by simp [Consumer.target?])
  | read r =>
    obtain ⟨rfl,rfl⟩ := Prod.mk.inj (Option.some.inj h)
    exact .keeps rfl rfl .inl rfl
  | leave r data =>
    obtain ⟨w,hw,he⟩ := Option.map_eq_some_iff.mp h
    obtain ⟨rfl,rfl⟩ := Prod.mk.inj he
    exact .signal hw rfl
  | signalExit data target =>
    obtain ⟨rfl,rfl⟩ := Prod.mk.inj (Option.some.inj h)
    exact .post target (by simp [Consumer.target?])

theorem baton_init (p : ℕ) (buffer : Fin n → α) : Baton (Threads.init p c buffer) where
  one := by simp [Threads.permits,Threads.init,LBUF.permits,lbuf_create,Producer.inside,
    Producer.target?,Consumer.inside,Consumer.target?]
  at_sW h := by simp [Threads.init,lbuf_create] at h
  of_producer i h := by simp [Threads.init,Producer.target?] at h
  of_consumer j h := by simp [Threads.init,Consumer.target?] at h

theorem Baton.step {s s' : Threads n p c α} {a : Action p c α} (h : Baton s)
    (hs : s.step a = some s') : Baton s' := by
  have one := (Threads.permits_step hs).trans h.one
  cases a with
  | deposit i data =>
    simp only [Threads.step] at hs
    split at hs
    · obtain rfl := Option.some.inj hs
      refine ⟨one,h.at_sW,fun x hx => ?_,h.of_consumer⟩
      by_cases hxi : x = i
      · subst hxi; simp [Threads.setProducer,Producer.target?] at hx
      · exact h.of_producer x (by simpa [Threads.setProducer,hxi] using hx)
    · simp at hs
  | consume j =>
    simp only [Threads.step] at hs
    split at hs
    · obtain rfl := Option.some.inj hs
      refine ⟨one,h.at_sW,h.of_producer,fun x hx => ?_⟩
      by_cases hxj : x = j
      · subst hxj; simp [Threads.setConsumer,Consumer.target?] at hx
      · exact h.of_consumer x (by simpa [Threads.setConsumer,hxj] using hx)
    · simp at hs
  | producer i =>
    obtain ⟨⟨l,t⟩,hl,he⟩ := Option.map_eq_some_iff.mp hs
    obtain ⟨hb,hp,hc⟩ : s'.lbuf = l ∧ s'.producers = Function.update s.producers i t ∧
        s'.consumers = s.consumers := by
      dsimp only at he
      split at he <;> subst he <;> exact ⟨rfl,rfl,rfl⟩
    cases lbuf_deposit_baton hl with
    | opens wait sW choice =>
      obtain ⟨h0,hnp,hnc⟩ := Threads.alone h.one wait
      refine ⟨one,fun hx => ?_,fun x hx => ?_,fun x hx => ?_⟩
      · rw [hb,sW] at hx; omega
      · rw [hb]
        by_cases hxi : x = i
        · subst hxi; exact choice (by simpa [hp] using hx)
        · exact absurd (by simpa [hp,hxi] using hx) (hnp x)
      · exact absurd (hc ▸ hx) (hnc x)
    | keeps nW free sW none =>
      have hm : s.lbuf.WriterMayEnter → s'.lbuf.WriterMayEnter := by
        rw [hb]; rintro ⟨h₁,h₂⟩; exact ⟨nW.trans h₁,free.trans h₂⟩
      refine ⟨one,fun hx => hm ?_,fun x hx => hm ?_,fun x hx => hm (h.of_consumer x (hc ▸ hx))⟩
      · rcases sW (hb ▸ hx) with hx | hx
        · exact h.at_sW hx
        · exact h.of_producer i hx
      · by_cases hxi : x = i
        · subst hxi; simp [hp,none] at hx
        · exact h.of_producer x (by simpa [hp,hxi] using hx)
  | consumer j =>
    obtain ⟨⟨l,t⟩,hl,he⟩ := Option.map_eq_some_iff.mp hs
    obtain ⟨hb,hp,hc⟩ : s'.lbuf = l ∧ s'.producers = s.producers ∧
        s'.consumers = Function.update s.consumers j t := by
      dsimp only at he
      split at he <;> subst he <;> exact ⟨rfl,rfl,rfl⟩
    cases lbuf_consume_baton hl with
    | opens wait sW choice =>
      obtain ⟨h0,hnp,hnc⟩ := Threads.alone h.one wait
      refine ⟨one,fun hx => ?_,fun x hx => ?_,fun x hx => ?_⟩
      · rw [hb,sW] at hx; omega
      · exact absurd (hp ▸ hx) (hnp x)
      · rw [hb]
        by_cases hxj : x = j
        · subst hxj; exact choice (by simpa [hc] using hx)
        · exact absurd (by simpa [hc,hxj] using hx) (hnc x)
    | keeps nW free sW none =>
      have hm : s.lbuf.WriterMayEnter → s'.lbuf.WriterMayEnter := by
        rw [hb]; rintro ⟨h₁,h₂⟩; exact ⟨nW.trans h₁,free.trans h₂⟩
      refine ⟨one,fun hx => hm ?_,fun x hx => hm (h.of_producer x (hp ▸ hx)),fun x hx => hm ?_⟩
      · rcases sW (hb ▸ hx) with hx | hx
        · exact h.at_sW hx
        · exact h.of_consumer j hx
      · by_cases hxj : x = j
        · subst hxj; simp [hc,none] at hx
        · exact h.of_consumer x (by simpa [hc,hxj] using hx)

end Steps

/-- A buffer, and the semaphores posted so far. -/
abbrev Posts (n c : ℕ) (α : Type*) := LBUF n c α × List (Sem n)

namespace LBUF

def post (x : Sem n) (r : Posts n c α) : Posts n c α := (r.1.sem_post x,r.2++[x])

/-- The body of the nested loops. -/
def wake (i : Fin n) (r : Posts n c α) : Except (Posts n c α) (Posts n c α) :=
  if r.1.nW = 0 ∧ 0 < r.1.waitForRead i then
    .error (post (.sR i) ({ r.1 with
      waitForRead := Function.update r.1.waitForRead i (r.1.waitForRead i-1) },r.2))
  else .ok r

def wakeLoop (r : Posts n c α) : Except (Posts n c α) (Posts n c α) :=
  (List.finRange n).foldlM (fun r i => (List.finRange c).foldlM (fun r _ => wake i r) r) r

/-- What `SIGNAL` does behind its loops. -/
def wakeWriter (freeSlot : Bool) (r : Posts n c α) : Posts n c α :=
  if freeSlot ∧ r.1.nW = 0 ∧ r.1.nR r.1.nextWriteIndex = 0 ∧ 0 < r.1.waitForDeposit then
    post .sW ({ r.1 with waitForDeposit := r.1.waitForDeposit-1 },r.2)
  else post .e r

/-- `SIGNAL` with its `sem_post`. -/
def SIGNALPosts (lbuf : LBUF n c α) : Posts n c α :=
  match wakeLoop (lbuf,[]) with
  | .error r => r
  | .ok r => wakeWriter lbuf.freeSlot r

variable (lbuf : LBUF n c α)

/-- What is posted and done for a reader at slot `i`. -/
def woken (i : Fin n) : Posts n c α :=
  post (.sR i) ({ lbuf with
    waitForRead := Function.update lbuf.waitForRead i (lbuf.waitForRead i-1) },[])

theorem wakeLoop_eq :
    wakeLoop (lbuf,[]) = (lbuf.wakeReader.map lbuf.woken).elim (.ok (lbuf,[])) .error := by
  unfold wakeLoop wakeReader
  rw [foldlM_eq_findSome? (g := fun i => ((List.finRange c).findSome? fun _ =>
    if lbuf.nW = 0 ∧ 0 < lbuf.waitForRead i then some i else none).map lbuf.woken)]
  · rw [List.map_findSome?]
    rfl
  · intro i _
    rw [foldlM_eq_findSome? (g := fun _ =>
      (if lbuf.nW = 0 ∧ 0 < lbuf.waitForRead i then some i else none).map lbuf.woken)]
    · rw [List.map_findSome?]
      rfl
    · intro j _
      by_cases hi : lbuf.nW = 0 ∧ 0 < lbuf.waitForRead i
      · rw [wake,if_pos hi,if_pos hi]
        rfl
      · rw [wake,if_neg hi,if_neg hi]
        rfl

/-- Whichever way it takes, `SIGNAL` posts the one semaphore it has chosen. -/
theorem SIGNALPosts_eq : lbuf.SIGNALPosts = (lbuf.SIGNAL.1.sem_post lbuf.SIGNAL.2,[lbuf.SIGNAL.2]) := by
  unfold SIGNALPosts SIGNAL
  rw [wakeLoop_eq]
  cases lbuf.wakeReader with
  | some i => rfl
  | none =>
    change wakeWriter lbuf.freeSlot (lbuf,[]) = _
    unfold wakeWriter
    split_ifs with h <;> rfl

end LBUF

/-- Threads that have passed a semaphore and not posted one since. -/
def Threads.inside (s : Threads n p c α) : ℕ :=
  ∑ i, (s.producers i).inside+∑ j, (s.consumers j).inside

/-- One permit in the whole system, and one post for each `SIGNAL`. -/
theorem one_permit [NeZero n] (buffer : Fin n → α) (s : Threads n p c α)
    (h : (limitedBuffer p c buffer).Reachable s) :
    s.lbuf.e+s.lbuf.sW+∑ i, s.lbuf.sR i+s.inside = 1 ∧
    ∀ lbuf : LBUF n c α, lbuf.SIGNALPosts.2.length = 1 := by
  constructor
  · have hb : Baton s := TransitionSystem.GuardedRun.invariant (I := Baton) h (baton_init p buffer)
      fun _ _ _ hs _ ht => hs.step ht
    have hone := hb.one
    simp only [Threads.permits,LBUF.permits] at hone
    rw [Threads.inside,← Nat.add_assoc]
    exact hone
  · intro lbuf
    rw [lbuf.SIGNALPosts_eq]
    rfl

/-- A consumer that waits while a producer is inside. -/
theorem one_permit_two : ∃ s : Threads 1 1 2 ℕ, s.inside = 1 ∧ s.lbuf.waitForRead 0 = 1 ∧
    s.lbuf.e+s.lbuf.sW+∑ i, s.lbuf.sR i+s.inside = 1 := by
  obtain ⟨s,hs,hl⟩ := TransitionSystem.exists_reachable_of_exec
    (T := limitedBuffer (n := 1) 1 2 (fun _ => 0))
    (l := [.consume 0,.consumer 0,.consumer 0,.deposit 0 7,.producer 0])
    (p := fun s => s.inside = 1 && s.lbuf.waitForRead 0 = 1) (by decide)
  simp only [Bool.and_eq_true,decide_eq_true_eq] at hl
  exact ⟨s,hl.1,hl.2,(one_permit (fun _ => 0) s hs).1⟩

end PucRio.LimitedBuffer
