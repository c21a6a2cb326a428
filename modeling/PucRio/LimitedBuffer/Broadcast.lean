import PucRio.LimitedBuffer.Baton

/-! Every consumer is given the deposited values in order. The slots hold a window of the log of
deposits for each consumer, from the first value it has not read. Two writers at once, or a
reader woken for a slot it has already read, break the window. -/
namespace PucRio.LimitedBuffer
variable {n p c : ℕ} {α : Type*}

/-- From `nW++` to `nW--`. -/
def Producer.active : Producer n α → ℕ
  | .signalEntry _ _ => 1
  | .write _ => 1
  | .leave _ _ => 1
  | _ => 0

/-- The read index of this call has been taken. -/
def Consumer.started : Consumer n α → ℕ
  | .idle => 0
  | .enter => 0
  | _ => 1

/-- The value of this call has been read from the buffer. -/
def Consumer.copied : Consumer n α → ℕ
  | .leave _ _ => 1
  | .signalExit _ _ => 1
  | _ => 0

/-- The pending read of this call has been taken back. -/
def Consumer.finished : Consumer n α → ℕ
  | .signalExit _ _ => 1
  | _ => 0

/-- From `nR++` to `nR--`. -/
def Consumer.admitted : Consumer n α → Bool
  | .signalEntry _ _ => true
  | .read _ => true
  | .leave _ _ => true
  | _ => false

def Consumer.readIndex? : Consumer n α → Option (Fin n)
  | .delay r => some r
  | .waitSR r => some r
  | .signalEntry r _ => some r
  | .read r => some r
  | .leave r _ => some r
  | _ => none

def Consumer.data? : Consumer n α → Option α
  | .leave _ data => some data
  | .signalExit data _ => some data
  | _ => none

/-- How many values consumer `j` has read from the buffer. -/
def Threads.reads (s : Threads n p c α) (j : Fin c) : ℕ :=
  (s.received j).length+(s.consumers j).copied

/-- What each consumer was given are the first deposited values in order, and a deposited value
stays in its slot until every consumer has read it. -/
def Broadcasts [NeZero n] (s : Threads n p c α) : Prop :=
  (∀ j, s.received j <+: s.deposited) ∧
  ∀ k d, s.deposited[k]? = some d → ∀ j, s.reads j ≤ k → s.lbuf.buffer (slot n k) = d

/-- A writer that does not wait finds no other writer, and a reader that is woken finds its read
pending. -/
def Exclusive (s : Threads n p c α) : Action p c α → Prop
  | .producer i =>
    match s.producers i with
    | .enter _ => s.lbuf.freeSlot = true → s.lbuf.nW = 0
    | _ => True
  | .consumer j =>
    match s.consumers j with
    | .waitSR readIndex => s.lbuf.pendingReads readIndex j ≠ 0
    | _ => True
  | _ => True

instance (s : Threads n p c α) (a : Action p c α) : Decidable (Exclusive s a) := by
  unfold Exclusive
  split
  · split <;> infer_instance
  · split <;> infer_instance
  · infer_instance

section Readers
variable [NeZero n]

/-- One consumer against the log: its window of pending reads, its place in the call, and the
values it has yet to read, still in their slots. -/
structure Reader (buffer : Fin n → α) (pending : Fin n → ℤ) (next : Fin n)
    (deposited received : List α) (t : Consumer n α) : Prop where
  next_eq : next = slot n (received.length+t.started)
  readIndex : ∀ r, t.readIndex? = some r → r = slot n received.length
  window : Window pending (received.length+t.finished) deposited.length
  admitted : t.admitted = true → received.length < deposited.length
  data : ∀ d, t.data? = some d → deposited[received.length]? = some d
  in_order : received <+: deposited
  kept : ∀ k d, deposited[k]? = some d → received.length+t.copied ≤ k → buffer (slot n k) = d

namespace Reader
variable {buffer : Fin n → α} {pending : Fin n → ℤ} {next : Fin n}
  {deposited received : List α} {t : Consumer n α} {r : Fin n} {target : Sem n}

theorem init (buffer : Fin n → α) :
    Reader buffer (fun _ => 0) (slot n 0) [] [] .idle where
  next_eq := rfl
  readIndex := by simp [Consumer.readIndex?]
  window := .empty
  admitted := by simp [Consumer.admitted]
  data := by simp [Consumer.data?]
  in_order := List.prefix_rfl
  kept := by simp

/-- A writer fills the free slot. -/
theorem overwrite (h : Reader buffer pending next deposited received t)
    (free : deposited.length < received.length+t.finished+n) (value : α) :
    Reader (Function.update buffer (slot n deposited.length) value) pending next deposited
      received t where
  __ := h
  kept k d hd hk := by
    have hlt : k < deposited.length := (List.getElem?_eq_some_iff.mp hd).1
    have hf : t.finished ≤ t.copied := by cases t <;> simp [Consumer.finished,Consumer.copied]
    have hne : slot n k ≠ slot n deposited.length := fun he => by
      have := eq_of_slot_eq hlt.le (by omega) he
      omega
    rw [Function.update_of_ne hne]
    exact h.kept k d hd hk

/-- The value in the free slot is marked for the consumers. -/
theorem publish (h : Reader buffer pending next deposited received t)
    (free : deposited.length < received.length+t.finished+n) {value : α}
    (hv : buffer (slot n deposited.length) = value) :
    Reader buffer (Function.update pending (slot n deposited.length) 1) next
      (deposited ++ [value]) received t where
  next_eq := h.next_eq
  readIndex := h.readIndex
  window := by
    rw [List.length_append]
    exact h.window.push free
  admitted ht := by
    have := h.admitted ht
    simp only [List.length_append]
    omega
  data d hd := by
    have hx := h.data d hd
    rw [List.getElem?_append_left (List.getElem?_eq_some_iff.mp hx).1]
    exact hx
  in_order := h.in_order.trans (List.prefix_append _ _)
  kept k d hd hk := by
    by_cases hlt : k < deposited.length
    · exact h.kept k d (by rwa [List.getElem?_append_left hlt] at hd) hk
    · have hle := (List.getElem?_eq_some_iff.mp hd).1
      obtain rfl : k = deposited.length := by simp at hle; omega
      obtain rfl : value = d := by simpa using hd
      exact hv

/-- `lbuf_consume` is called. -/
theorem call (h : Reader buffer pending next deposited received .idle) :
    Reader buffer pending next deposited received .enter :=
  ⟨h.next_eq,by simp [Consumer.readIndex?],h.window,by simp [Consumer.admitted],
    by simp [Consumer.data?],h.in_order,h.kept⟩

/-- The read index is taken; the reader is to wait. -/
theorem delay (h : Reader buffer pending next deposited received .enter) :
    Reader buffer pending (nextSlot next) deposited received (.delay next) where
  next_eq := by rw [h.next_eq]; exact nextSlot_slot _
  readIndex r hr := by
    obtain rfl : next = r := Option.some.inj hr
    exact h.next_eq
  window := h.window
  admitted ht := by simp [Consumer.admitted] at ht
  data d hd := by simp [Consumer.data?] at hd
  in_order := h.in_order
  kept := h.kept

theorem wait (h : Reader buffer pending next deposited received (.delay r)) :
    Reader buffer pending next deposited received (.waitSR r) :=
  ⟨h.next_eq,h.readIndex,h.window,by simp [Consumer.admitted],by simp [Consumer.data?],
    h.in_order,h.kept⟩

/-- A reader that finds its read pending is admitted, after a wait or without one. -/
theorem admitReader (h : Reader buffer pending next deposited received (.waitSR r))
    (hp : pending r ≠ 0) (target : Sem n) :
    Reader buffer pending next deposited received (.signalEntry r target) where
  next_eq := h.next_eq
  readIndex := h.readIndex
  window := h.window
  admitted _ := by
    rw [h.readIndex r rfl] at hp
    exact h.window.ne_zero_iff.mp hp
  data d hd := by simp [Consumer.data?] at hd
  in_order := h.in_order
  kept := h.kept

theorem start (h : Reader buffer pending next deposited received (.signalEntry r target)) :
    Reader buffer pending next deposited received (.read r) :=
  ⟨h.next_eq,h.readIndex,h.window,h.admitted,by simp [Consumer.data?],h.in_order,h.kept⟩

/-- The slot is read. -/
theorem copy (h : Reader buffer pending next deposited received (.read r)) :
    Reader buffer pending next deposited received (.leave r (buffer r)) where
  next_eq := h.next_eq
  readIndex := h.readIndex
  window := h.window
  admitted := h.admitted
  data d hd := by
    have hlt := h.admitted rfl
    obtain rfl : buffer r = d := Option.some.inj hd
    rw [h.readIndex r rfl,h.kept received.length _ (List.getElem?_eq_getElem hlt) le_rfl]
    exact List.getElem?_eq_getElem hlt
  in_order := h.in_order
  kept k d hd hk := h.kept k d hd (Nat.le_of_succ_le hk)

/-- The pending read is taken back. -/
theorem finish {data : α} (h : Reader buffer pending next deposited received (.leave r data))
    (target : Sem n) : Reader buffer (Function.update pending r (pending r-1)) next deposited
      received (.signalExit data target) where
  next_eq := h.next_eq
  readIndex r hr := by simp [Consumer.readIndex?] at hr
  window := by
    rw [h.readIndex r rfl]
    exact h.window.pop (h.admitted rfl)
  admitted ht := by simp [Consumer.admitted] at ht
  data := h.data
  in_order := h.in_order
  kept := h.kept

/-- `lbuf_consume` returns the value. -/
theorem returned {data : α}
    (h : Reader buffer pending next deposited received (.signalExit data target)) :
    Reader buffer pending next deposited (received ++ [data]) .idle where
  next_eq := by rw [List.length_append]; exact h.next_eq
  readIndex r hr := by simp [Consumer.readIndex?] at hr
  window := by rw [List.length_append]; exact h.window
  admitted ht := by simp [Consumer.admitted] at ht
  data d hd := by simp [Consumer.data?] at hd
  in_order := by
    obtain ⟨hlt,hd⟩ := List.getElem?_eq_some_iff.mp (h.data data rfl)
    have htake := List.prefix_iff_eq_take.mp h.in_order
    have hx : received ++ [data] = deposited.take (received.length+1) := by
      rw [List.take_succ_eq_append_getElem hlt,← htake,hd]
    rw [hx]
    exact List.take_prefix _ _
  kept k d hd hk := h.kept k d hd (by
    simp only [List.length_append,List.length_singleton,Consumer.copied] at *
    omega)

end Reader
end Readers

section Invariant
variable [NeZero n]

/-- The readers, and at most one writer, whose slot is free. -/
structure BroadcastInv (s : Threads n p c α) : Prop where
  nextWrite : s.lbuf.nextWriteIndex = slot n s.deposited.length
  reader : ∀ j, Reader s.lbuf.buffer (s.lbuf.pendingReads · j) (s.lbuf.nextConsume j) s.deposited
    (s.received j) (s.consumers j)
  writers : s.lbuf.nW = (∑ i, (s.producers i).active : ℕ)
  one_writer : s.lbuf.nW ≤ 1
  free : ∀ i, (s.producers i).active = 1 → ∀ j,
    s.deposited.length < (s.received j).length+(s.consumers j).finished+n
  written : ∀ i w d, s.producers i = .leave w d →
    w = s.lbuf.nextWriteIndex ∧ s.lbuf.buffer w = d

theorem broadcastInv_init (p : ℕ) (buffer : Fin n → α) :
    BroadcastInv (Threads.init p c buffer) where
  nextWrite := rfl
  reader _ := .init buffer
  writers := by simp [Threads.init,lbuf_create,Producer.active]
  one_writer := by simp [Threads.init,lbuf_create]
  free i hi := by simp [Threads.init,Producer.active] at hi
  written i w d hi := by simp [Threads.init] at hi

namespace BroadcastInv
variable {s s' : Threads n p c α} {l w : LBUF n c α}

theorem broadcasts (h : BroadcastInv s) : Broadcasts s :=
  ⟨fun j => (h.reader j).in_order,fun k d hd j hk => (h.reader j).kept k d hd hk⟩

theorem active_unique (h : BroadcastInv s) {i x : Fin p} (hi : (s.producers i).active = 1)
    (hx : (s.producers x).active = 1) : x = i := by
  by_contra hne
  have hsum : ∑ y ∈ {x,i}, (s.producers y).active ≤ ∑ y, (s.producers y).active :=
    Finset.sum_le_sum_of_subset (Finset.subset_univ _)
  rw [Finset.sum_pair hne,hx,hi] at hsum
  have := h.writers
  have := h.one_writer
  omega

/-- A writer may enter: the slot is free for every consumer. -/
theorem free_of_freeSlot (h : BroadcastInv s) (hf : s.lbuf.freeSlot = true) (j : Fin c) :
    s.deposited.length < (s.received j).length+(s.consumers j).finished+n := by
  have hz := of_decide_eq_true hf j
  rw [h.nextWrite] at hz
  exact (h.reader j).window.eq_zero_iff.mp hz

/-- A step of a producer that neither writes nor changes the count of writers. -/
theorem producer (h : BroadcastInv s) {i : Fin p} {t : Producer n α} (same : Same s.lbuf l)
    (active : t.active = (s.producers i).active) (notLeave : ∀ w d, t ≠ .leave w d) :
    BroadcastInv ({ s with lbuf := l }.setProducer i t) := by
  obtain ⟨hb,hp,hc,hn,hw⟩ := same
  constructor
  · simpa only [Threads.setProducer,hn] using h.nextWrite
  · intro j
    simpa only [Threads.setProducer,hb,hp,hc] using h.reader j
  · have := sum_comp_update Producer.active s.producers i t
    have := h.writers
    simp only [Threads.setProducer,hw]
    omega
  · simpa only [Threads.setProducer,hw] using h.one_writer
  · intro x hx
    by_cases hxi : x = i
    · subst hxi
      exact h.free x (by simpa [Threads.setProducer,active] using hx)
    · exact h.free x (by simpa [Threads.setProducer,hxi] using hx)
  · intro x v d hx
    by_cases hxi : x = i
    · subst hxi
      exact absurd (by simpa [Threads.setProducer] using hx) (notLeave v d)
    · simp only [Threads.setProducer,hn,hb]
      exact h.written x v d (by simpa [Threads.setProducer,hxi] using hx)

/-- A writer is admitted. -/
theorem admitWriter (h : BroadcastInv s) {i : Fin p} {data : α} {target : Sem n}
    (same : Same { s.lbuf with nW := s.lbuf.nW+1 } l) (idle : (s.producers i).active = 0)
    (enter : s.lbuf.WriterMayEnter) :
    BroadcastInv ({ s with lbuf := l }.setProducer i (.signalEntry data target)) := by
  obtain ⟨hb,hp,hc,hn,hw⟩ := same
  have hnW : l.nW = 1 := by simp [hw,enter.1]
  constructor
  · exact hn.trans h.nextWrite
  · intro j
    simpa only [Threads.setProducer,hb,hp,hc] using h.reader j
  · have hs := sum_comp_update Producer.active s.producers i (.signalEntry data target)
    have hx := h.writers
    have ha : (.signalEntry data target : Producer n α).active = 1 := rfl
    rw [enter.1] at hx
    simp only [Threads.setProducer,hnW]
    omega
  · exact hnW.le
  · exact fun x _ => h.free_of_freeSlot enter.2
  · intro x v d hx
    have hxi : x ≠ i := by
      rintro rfl
      simp [Threads.setProducer] at hx
    simp only [Threads.setProducer,hn,hb]
    exact h.written x v d (by simpa [Threads.setProducer,hxi] using hx)

/-- The writer fills its slot. -/
theorem write (h : BroadcastInv s) {i : Fin p} {data : α} (hi : s.producers i = .write data) :
    BroadcastInv ({ s with lbuf := { s.lbuf with
        buffer := Function.update s.lbuf.buffer s.lbuf.nextWriteIndex data } }.setProducer i
      (.leave s.lbuf.nextWriteIndex data)) := by
  have ha : (s.producers i).active = 1 := by rw [hi]; rfl
  have hact : ((.leave s.lbuf.nextWriteIndex data : Producer n α)).active = 1 := rfl
  constructor
  · exact h.nextWrite
  · intro j
    simp only [Threads.setProducer,h.nextWrite]
    exact (h.reader j).overwrite (h.free i ha j) data
  · have hs := sum_comp_update Producer.active s.producers i
      (.leave s.lbuf.nextWriteIndex data)
    have := h.writers
    simp only [Threads.setProducer]
    omega
  · exact h.one_writer
  · exact fun _ _ => h.free i ha
  · intro x v d hx
    by_cases hxi : x = i
    · subst hxi
      obtain ⟨rfl,rfl⟩ := by simpa [Threads.setProducer] using hx
      simp [Threads.setProducer]
    · have hx' : s.producers x = .leave v d := by simpa [Threads.setProducer,hxi] using hx
      exact absurd (h.active_unique ha (by rw [hx']; rfl)) hxi

/-- The writer marks its slot and leaves. -/
theorem publish (h : BroadcastInv s) {i : Fin p} {v : Fin n} {data : α} {target : Sem n}
    (hi : s.producers i = .leave v data)
    (same : Same { s.lbuf with
      nW := s.lbuf.nW-1
      pendingReads := Function.update s.lbuf.pendingReads v fun _ => 1
      nextWriteIndex := nextSlot s.lbuf.nextWriteIndex } l) :
    BroadcastInv { { s with lbuf := l }.setProducer i (.signalExit target) with
      deposited := s.deposited ++ [data] } := by
  obtain ⟨hb,hp,hc,hn,hw⟩ := same
  obtain ⟨rfl,hv⟩ := h.written i v data hi
  have ha : (s.producers i).active = 1 := by rw [hi]; rfl
  have hother (x : Fin p) (hx : x ≠ i) : (s.producers x).active = 0 := by
    have h1 : (s.producers x).active ≠ 1 := fun h1 => hx (h.active_unique ha h1)
    revert h1
    cases s.producers x <;> simp [Producer.active]
  have hnone (x : Fin p) : ((Function.update s.producers i (.signalExit target)) x).active = 0 := by
    by_cases hx : x = i
    · subst hx; simp [Producer.active]
    · simp [hx,hother x hx]
  have hcount : s.lbuf.nW = 1 := by
    have hs := sum_comp_update Producer.active s.producers i (.signalExit target)
    have hact : (.signalExit target : Producer n α).active = 0 := rfl
    have hz := Finset.sum_eq_zero fun x (_ : x ∈ Finset.univ) => hnone x
    have := h.writers
    omega
  constructor
  · simp only [Threads.setProducer,hn,h.nextWrite,List.length_append]
    exact nextSlot_slot _
  · intro j
    have hcol : (fun x => l.pendingReads x j) = Function.update (s.lbuf.pendingReads · j)
        (slot n s.deposited.length) 1 := by
      funext x
      simp only [hp,h.nextWrite]
      by_cases hx : x = slot n s.deposited.length
      · subst hx; simp
      · simp [hx]
    simp only [Threads.setProducer,hb,hc,hcol]
    exact (h.reader j).publish (h.free i ha j) (h.nextWrite ▸ hv)
  · simp only [Threads.setProducer,hw,hcount,hnone]
    simp
  · simp [Threads.setProducer,hw,hcount]
  · intro x hx
    have := hnone x
    simp only [Threads.setProducer] at hx
    omega
  · intro x v d hx
    have := hnone x
    simp only [Threads.setProducer] at hx
    rw [hx] at this
    simp [Producer.active] at this

/-- A step of consumer `j`: the others keep what they have. -/
theorem consumer (h : BroadcastInv s) {j : Fin c} {t : Consumer n α} (received : List α)
    (buffer : l.buffer = s.lbuf.buffer) (nextWriteIndex : l.nextWriteIndex = s.lbuf.nextWriteIndex)
    (nW : l.nW = s.lbuf.nW)
    (pending : ∀ x, x ≠ j → ∀ i, l.pendingReads i x = s.lbuf.pendingReads i x)
    (nextConsume : ∀ x, x ≠ j → l.nextConsume x = s.lbuf.nextConsume x)
    (reader : Reader s.lbuf.buffer (l.pendingReads · j) (l.nextConsume j) s.deposited received t)
    (mono : (s.received j).length+(s.consumers j).finished ≤ received.length+t.finished) :
    BroadcastInv { { s with lbuf := l }.setConsumer j t with
      received := Function.update s.received j received } := by
  constructor
  · exact nextWriteIndex.trans h.nextWrite
  · intro x
    by_cases hx : x = j
    · subst hx; simpa [Threads.setConsumer,buffer] using reader
    · simp only [Threads.setConsumer,Function.update_of_ne hx,buffer,nextConsume x hx,
        pending x hx]
      exact h.reader x
  · exact nW.trans h.writers
  · exact nW.trans_le h.one_writer
  · intro i hi x
    have := h.free i hi x
    by_cases hx : x = j
    · subst hx
      simp only [Threads.setConsumer,Function.update_self]
      omega
    · simpa [Threads.setConsumer,hx] using this
  · intro i v d hi
    simp only [Threads.setConsumer,buffer,nextWriteIndex]
    exact h.written i v d hi

/-- A step of consumer `j` inside the call that leaves the pending reads alone. -/
theorem consumerQuiet (h : BroadcastInv s) {j : Fin c} {t : Consumer n α} (same : Same s.lbuf l)
    (reader : Reader s.lbuf.buffer (s.lbuf.pendingReads · j) (s.lbuf.nextConsume j) s.deposited
      (s.received j) t)
    (mono : (s.consumers j).finished ≤ t.finished) :
    BroadcastInv ({ s with lbuf := l }.setConsumer j t) := by
  have hx := h.consumer (j := j) (t := t) (s.received j) same.buffer
    same.nextWriteIndex same.nW (fun x _ i => by rw [same.pendingReads])
    (fun x _ => by rw [same.nextConsume])
    (by simpa only [same.pendingReads,same.nextConsume] using reader) (by omega)
  rwa [Function.update_eq_self] at hx

/-- The first segment of `lbuf_consume`: the read index is taken. -/
theorem consumerEnter (h : BroadcastInv s) {j : Fin c} {t : Consumer n α}
    (hj : s.consumers j = .enter)
    (same : Same { s.lbuf with
      nextConsume := Function.update s.lbuf.nextConsume j (nextSlot (s.lbuf.nextConsume j)) } l)
    (reader : Reader s.lbuf.buffer (s.lbuf.pendingReads · j) (nextSlot (s.lbuf.nextConsume j))
      s.deposited (s.received j) t) :
    BroadcastInv ({ s with lbuf := l }.setConsumer j t) := by
  have hx := h.consumer (j := j) (t := t) (s.received j) same.buffer
    same.nextWriteIndex same.nW (fun x _ i => by rw [same.pendingReads])
    (fun x hx => by rw [same.nextConsume]; exact Function.update_of_ne hx _ _)
    (by simpa only [same.pendingReads,same.nextConsume,Function.update_self] using reader)
    (by rw [hj]; simp [Consumer.finished])
  rwa [Function.update_eq_self] at hx

/-- The last segment of `lbuf_consume`: the pending read is taken back. -/
theorem consumerLeave (h : BroadcastInv s) {j : Fin c} {r : Fin n} {data : α} {target : Sem n}
    (hj : s.consumers j = .leave r data)
    (same : Same { s.lbuf with
      pendingReads := Function.update s.lbuf.pendingReads r
        (Function.update (s.lbuf.pendingReads r) j (s.lbuf.pendingReads r j-1)) } l) :
    BroadcastInv ({ s with lbuf := l }.setConsumer j (.signalExit data target)) := by
  obtain ⟨hb,hp,hc,hn,hW⟩ := same
  have hr := h.reader j
  rw [hj] at hr
  have hother (x : Fin c) (hx : x ≠ j) (i : Fin n) :
      l.pendingReads i x = s.lbuf.pendingReads i x := by
    rw [hp]
    by_cases hi : i = r
    · subst hi; simp [hx]
    · simp [hi]
  have hcol : (l.pendingReads · j) =
      Function.update (s.lbuf.pendingReads · j) r (s.lbuf.pendingReads r j-1) := by
    funext i
    rw [hp]
    by_cases hi : i = r
    · subst hi; simp
    · simp [hi]
  have hx := h.consumer (j := j) (t := .signalExit data target) (s.received j) hb hn
    hW hother (fun x _ => congrFun hc x) (by rw [hcol,hc]; exact hr.finish target)
    (by simp [hj,Consumer.finished])
  rwa [Function.update_eq_self] at hx

/-- A step of a producer thread. -/
theorem producerStep (h : BroadcastInv s) (hb : Baton s) {i : Fin p}
    (hg : Exclusive s (.producer i)) (hs : s.step (.producer i) = some s') :
    BroadcastInv s' := by
  obtain ⟨⟨l,t⟩,hl,rfl⟩ := Option.map_eq_some_iff.mp hs
  cases hi : s.producers i with
  | idle => simp [hi,LBUF.lbuf_deposit] at hl
  | enter data =>
    rw [hi] at hl
    obtain ⟨w,hw,hx⟩ := Option.map_eq_some_iff.mp hl
    have same := LBUF.sem_wait_same hw
    split_ifs at hx with hf
    · obtain ⟨rfl,rfl⟩ := Prod.mk.inj hx
      rw [same.freeSlot] at hf
      simp only [Exclusive,hi] at hg
      refine h.admitWriter (Same.trans ?_ (LBUF.SIGNAL_same _)) (by rw [hi]; rfl) ⟨hg hf,hf⟩
      exact ⟨same.buffer,same.pendingReads,same.nextConsume,same.nextWriteIndex,
        congrArg (·+1) same.nW⟩
    · obtain ⟨rfl,rfl⟩ := Prod.mk.inj hx
      exact h.producer ⟨same.buffer,same.pendingReads,same.nextConsume,same.nextWriteIndex,same.nW⟩
        (by rw [hi]; rfl) (by simp)
  | delay data =>
    rw [hi] at hl
    obtain ⟨rfl,rfl⟩ := Prod.mk.inj (Option.some.inj hl)
    exact h.producer (LBUF.sem_post_same _ _) (by rw [hi]; rfl) (by simp)
  | waitSW data =>
    rw [hi] at hl
    obtain ⟨w,hw,hx⟩ := Option.map_eq_some_iff.mp hl
    have same := LBUF.sem_wait_same hw
    obtain ⟨rfl,rfl⟩ := Prod.mk.inj hx
    refine h.admitWriter (Same.trans ?_ (LBUF.SIGNAL_same _)) (by rw [hi]; rfl)
      (hb.at_sW (LBUF.sW_pos_of_sem_wait hw))
    exact ⟨same.buffer,same.pendingReads,same.nextConsume,same.nextWriteIndex,
      congrArg (·+1) same.nW⟩
  | signalEntry data target =>
    rw [hi] at hl
    obtain ⟨rfl,rfl⟩ := Prod.mk.inj (Option.some.inj hl)
    exact h.producer (LBUF.sem_post_same _ _) (by rw [hi]; rfl) (by simp)
  | write data =>
    rw [hi] at hl
    obtain ⟨rfl,rfl⟩ := Prod.mk.inj (Option.some.inj hl)
    exact h.write hi
  | leave writeIndex data =>
    rw [hi] at hl
    obtain ⟨w,hw,hx⟩ := Option.map_eq_some_iff.mp hl
    have same := LBUF.sem_wait_same hw
    obtain ⟨rfl,rfl⟩ := Prod.mk.inj hx
    refine h.publish hi (Same.trans ?_ (LBUF.SIGNAL_same _))
    exact ⟨same.buffer,congrArg (Function.update · writeIndex fun _ => 1) same.pendingReads,
      same.nextConsume,congrArg nextSlot same.nextWriteIndex,congrArg (·-1) same.nW⟩
  | signalExit target =>
    rw [hi] at hl
    obtain ⟨rfl,rfl⟩ := Prod.mk.inj (Option.some.inj hl)
    exact h.producer (LBUF.sem_post_same _ _) (by rw [hi]; rfl) (by simp)

/-- A step of a consumer thread. -/
theorem consumerStep (h : BroadcastInv s) {j : Fin c} (hg : Exclusive s (.consumer j))
    (hs : s.step (.consumer j) = some s') : BroadcastInv s' := by
  obtain ⟨⟨l,t⟩,hl,rfl⟩ := Option.map_eq_some_iff.mp hs
  have hr := h.reader j
  cases hj : s.consumers j with
  | idle => simp [hj,LBUF.lbuf_consume] at hl
  | enter =>
    rw [hj] at hl hr
    obtain ⟨w,hw,hx⟩ := Option.map_eq_some_iff.mp hl
    obtain ⟨hb,hp,hc,hn,hW⟩ := LBUF.sem_wait_same hw
    have hnext : Same { s.lbuf with
        nextConsume := Function.update s.lbuf.nextConsume j (nextSlot (s.lbuf.nextConsume j)) }
        (w.getAndAdvanceNextReadIndex j).1 :=
      ⟨hb,hp,congrArg (fun f : Fin c → Fin n => Function.update f j (nextSlot (f j))) hc,hn,hW⟩
    have hread : (w.getAndAdvanceNextReadIndex j).2 = s.lbuf.nextConsume j := congrFun hc j
    simp only at hx
    split_ifs at hx with hz
    · obtain ⟨rfl,rfl⟩ := Prod.mk.inj hx
      rw [hread]
      exact h.consumerEnter hj
        ⟨hnext.buffer,hnext.pendingReads,hnext.nextConsume,hnext.nextWriteIndex,hnext.nW⟩ hr.delay
    · obtain ⟨rfl,rfl⟩ := Prod.mk.inj hx
      refine h.consumerEnter hj (hnext.trans (LBUF.admitReader_same _ _)) ?_
      rw [hread]
      refine hr.delay.wait.admitReader (fun he => hz ?_) _
      rw [hnext.pendingReads,hread]
      exact he
  | delay r =>
    rw [hj] at hl hr
    obtain ⟨rfl,rfl⟩ := Prod.mk.inj (Option.some.inj hl)
    exact h.consumerQuiet (LBUF.sem_post_same _ _) hr.wait (by simp [hj,Consumer.finished])
  | waitSR r =>
    rw [hj] at hl hr
    obtain ⟨w,hw,hx⟩ := Option.map_eq_some_iff.mp hl
    obtain ⟨hb,hp,hc,hn,hW⟩ := LBUF.sem_wait_same hw
    obtain ⟨rfl,rfl⟩ := Prod.mk.inj hx
    simp only [Exclusive,hj] at hg
    exact h.consumerQuiet (Same.trans ⟨hb,hp,hc,hn,hW⟩ (w.admitReader_same r)) (hr.admitReader hg _)
      (by simp [hj,Consumer.finished])
  | signalEntry r target =>
    rw [hj] at hl hr
    obtain ⟨rfl,rfl⟩ := Prod.mk.inj (Option.some.inj hl)
    exact h.consumerQuiet (LBUF.sem_post_same _ _) hr.start (by simp [hj,Consumer.finished])
  | read r =>
    rw [hj] at hl hr
    obtain ⟨rfl,rfl⟩ := Prod.mk.inj (Option.some.inj hl)
    exact h.consumerQuiet ⟨rfl,rfl,rfl,rfl,rfl⟩ hr.copy (by simp [hj,Consumer.finished])
  | leave r data =>
    rw [hj] at hl hr
    obtain ⟨w,hw,hx⟩ := Option.map_eq_some_iff.mp hl
    obtain ⟨hb,hp,hc,hn,hW⟩ := LBUF.sem_wait_same hw
    obtain ⟨rfl,rfl⟩ := Prod.mk.inj hx
    refine h.consumerLeave hj (Same.trans ?_ (LBUF.SIGNAL_same _))
    exact ⟨hb,congrArg (fun f : Fin n → Fin c → ℤ =>
      Function.update f r (Function.update (f r) j (f r j-1))) hp,hc,hn,hW⟩
  | signalExit data target =>
    rw [hj] at hl hr
    obtain ⟨rfl,rfl⟩ := Prod.mk.inj (Option.some.inj hl)
    obtain ⟨hb,hp,hc,hn,hW⟩ := s.lbuf.sem_post_same target
    refine h.consumer _ hb hn hW (fun x _ i => by rw [hp]) (fun x _ => by rw [hc]) ?_ ?_
    · rw [hp,hc]; exact hr.returned
    · simp [hj,Consumer.finished]

theorem step (h : BroadcastInv s) (hb : Baton s) {a : Action p c α} (hg : Exclusive s a)
    (hs : s.step a = some s') : BroadcastInv s' := by
  cases a with
  | deposit i data =>
    simp only [Threads.step] at hs
    split at hs
    · rename_i hi
      obtain rfl := Option.some.inj hs
      exact h.producer ⟨rfl,rfl,rfl,rfl,rfl⟩ (by rw [hi]; rfl) (by simp)
    · simp at hs
  | consume j =>
    simp only [Threads.step] at hs
    split at hs
    · rename_i hj
      obtain rfl := Option.some.inj hs
      have hr := h.reader j
      rw [hj] at hr
      exact h.consumerQuiet ⟨rfl,rfl,rfl,rfl,rfl⟩ hr.call (by simp [hj,Consumer.finished])
    · simp at hs
  | producer i => exact h.producerStep hb hg hs
  | consumer j => exact h.consumerStep hg hs

end BroadcastInv
end Invariant

/-- At every size and for any numbers of threads, a run in which no second writer is admitted and
no reader is woken in vain gives every consumer the deposits in order. -/
theorem broadcasts_of_exclusive [NeZero n] (buffer : Fin n → α) (s : Threads n p c α)
    (h : (limitedBuffer p c buffer).ReachableUnder Exclusive s) : Broadcasts s := by
  have hinv : Baton s ∧ BroadcastInv s :=
    h.invariant (I := fun s => Baton s ∧ BroadcastInv s) ⟨baton_init p buffer,broadcastInv_init p buffer⟩
      fun _ _ _ hs hg ht => ⟨hs.1.step ht,hs.2.step hs.1 hg ht⟩
  exact hinv.2.broadcasts

/-- Two consumers that wait for the first value and are both given it. -/
theorem broadcasts_of_exclusive_two : ∃ s : Threads 1 1 2 ℕ,
    s.received 0 = [7] ∧ s.received 1 = [7] ∧ Broadcasts s := by
  obtain ⟨s,hs,hl⟩ := TransitionSystem.exists_reachableUnder_of_execUnder (G := Exclusive)
    (T := limitedBuffer (n := 1) 1 2 (fun _ => 0))
    (l := [.consume 0,.consumer 0,.consumer 0,.consume 1,.consumer 1,.consumer 1,.deposit 0 7,
      .producer 0,.producer 0,.producer 0,.producer 0,.producer 0,.consumer 0,.consumer 0,
      .consumer 1,.consumer 1,.consumer 0,.consumer 1,.consumer 0,.consumer 0,.consumer 1,
      .consumer 1])
    (p := fun s => s.received 0 = [7] && s.received 1 = [7]) (by decide)
  simp only [Bool.and_eq_true,decide_eq_true_eq] at hl
  exact ⟨s,hl.1,hl.2,broadcasts_of_exclusive (fun _ => 0) s hs⟩

/-- Two producers are admitted to one slot: 7 is lost. -/
def secondWriter : List (Action 2 1 ℕ) :=
  [.deposit 0 7,.deposit 1 8,.producer 0,.producer 0,.producer 1,.producer 1,.producer 0,
    .producer 1,.producer 0,.producer 0,.producer 1,.producer 1,.consume 0,.consumer 0,
    .consumer 0,.consumer 0,.consumer 0,.consumer 0]

/-- Consumer 0 calls again before consumer 1 has left, whose `SIGNAL` wakes it: 7 comes twice. -/
def wokenInVain : List (Action 1 2 ℕ) :=
  [.consume 0,.consumer 0,.consumer 0,.consume 1,.consumer 1,.consumer 1,.deposit 0 7,
    .producer 0,.producer 0,.producer 0,.producer 0,.producer 0,.consumer 0,.consumer 0,
    .consumer 1,.consumer 1,.consumer 0,.consumer 1,.consumer 0,.consumer 0,.consume 0,
    .consumer 0,.consumer 0,.consumer 1,.consumer 1,.consumer 0,.consumer 0,.consumer 0,
    .consumer 0,.consumer 0]

theorem not_broadcasts :
    (∃ s : Threads 1 2 1 ℕ, (limitedBuffer 2 1 fun _ => 0).Reachable s ∧ ¬ Broadcasts s) ∧
    ∃ s : Threads 1 1 2 ℕ, (limitedBuffer 1 2 fun _ => 0).Reachable s ∧ ¬ Broadcasts s := by
  constructor
  · obtain ⟨s,hs,hl⟩ := TransitionSystem.exists_reachable_of_exec (l := secondWriter)
      (T := limitedBuffer (n := 1) 2 1 (fun _ => 0))
      (p := fun s => s.received 0 = [8] && s.deposited = [7,8]) (by decide)
    simp only [Bool.and_eq_true,decide_eq_true_eq] at hl
    refine ⟨s,hs,fun h => absurd (h.1 0) ?_⟩
    rw [hl.1,hl.2]
    decide
  · obtain ⟨s,hs,hl⟩ := TransitionSystem.exists_reachable_of_exec (l := wokenInVain)
      (T := limitedBuffer (n := 1) 1 2 (fun _ => 0))
      (p := fun s => s.received 0 = [7,7] && s.deposited = [7]) (by decide)
    simp only [Bool.and_eq_true,decide_eq_true_eq] at hl
    refine ⟨s,hs,fun h => absurd (h.1 0) ?_⟩
    rw [hl.1,hl.2]
    decide

end PucRio.LimitedBuffer
