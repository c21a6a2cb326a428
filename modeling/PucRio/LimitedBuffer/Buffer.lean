import PucRio.Lib.RingWindow
import PucRio.Lib.TransitionSystem
import Mathlib.Data.Fin.VecNotation

/-! The limited buffer and the threads that run `lbuf_deposit` and `lbuf_consume`. A step of a
thread is one `sem_wait` with the code segment it opens, one `sem_post`, or one segment that no
semaphore opens. -/
namespace PucRio.LimitedBuffer
variable {n p c : ℕ} {α : Type*}

structure LBUF (n c : ℕ) (α : Type*) where
  buffer : Fin n → α
  pendingReads : Fin n → Fin c → ℤ
  nextConsume : Fin c → Fin n
  nextWriteIndex : Fin n
  waitForDeposit : ℕ
  waitForRead : Fin n → ℕ
  nW : ℤ
  nR : Fin n → ℤ
  e : ℕ
  sW : ℕ
  sR : Fin n → ℕ

/-- `lbuf_create`; `malloc` leaves anything in the buffer. -/
def lbuf_create [NeZero n] (c : ℕ) (buffer : Fin n → α) : LBUF n c α where
  buffer := buffer
  pendingReads _ _ := 0
  nextConsume _ := slot n 0
  nextWriteIndex := slot n 0
  waitForDeposit := 0
  waitForRead _ := 0
  nW := 0
  nR _ := 0
  e := 1
  sW := 0
  sR _ := 0

/-- The semaphores of the buffer. -/
inductive Sem (n : ℕ)
  | e
  | sW
  | sR (i : Fin n)
  deriving DecidableEq, Repr

namespace LBUF
variable (lbuf : LBUF n c α)

def sem_post : Sem n → LBUF n c α
  | .e => { lbuf with e := lbuf.e+1 }
  | .sW => { lbuf with sW := lbuf.sW+1 }
  | .sR i => { lbuf with sR := Function.update lbuf.sR i (lbuf.sR i+1) }

/-- `none`: the thread blocks. -/
def sem_wait : Sem n → Option (LBUF n c α)
  | .e => if 0 < lbuf.e then some { lbuf with e := lbuf.e-1 } else none
  | .sW => if 0 < lbuf.sW then some { lbuf with sW := lbuf.sW-1 } else none
  | .sR i =>
    if 0 < lbuf.sR i then some { lbuf with sR := Function.update lbuf.sR i (lbuf.sR i-1) }
    else none

/-- No consumer has still to read the slot `nextWriteIndex`. -/
def freeSlot : Bool := decide (∀ j, lbuf.pendingReads lbuf.nextWriteIndex j = 0)

/-- The nested loops of `SIGNAL`: the first slot with a waiting reader. -/
def wakeReader : Option (Fin n) :=
  (List.finRange n).findSome? fun i => (List.finRange c).findSome? fun _ =>
    if lbuf.nW = 0 ∧ 0 < lbuf.waitForRead i then some i else none

/-- `SIGNAL` up to its `sem_post`: the semaphore it chooses. -/
def SIGNAL : LBUF n c α × Sem n :=
  match lbuf.wakeReader with
  | some i =>
    ({ lbuf with waitForRead := Function.update lbuf.waitForRead i (lbuf.waitForRead i-1) },.sR i)
  | none =>
    if lbuf.freeSlot ∧ lbuf.nW = 0 ∧ lbuf.nR lbuf.nextWriteIndex = 0 ∧ 0 < lbuf.waitForDeposit then
      ({ lbuf with waitForDeposit := lbuf.waitForDeposit-1 },.sW)
    else (lbuf,.e)

end LBUF

/-- Where a thread is in `lbuf_deposit`. -/
inductive Producer (n : ℕ) (α : Type*)
  | idle
  | enter (data : α)
  | delay (data : α)
  | waitSW (data : α)
  | signalEntry (data : α) (target : Sem n)
  | write (data : α)
  | leave (writeIndex : Fin n) (data : α)
  | signalExit (target : Sem n)

/-- Where a thread is in `lbuf_consume`. -/
inductive Consumer (n : ℕ) (α : Type*)
  | idle
  | enter
  | delay (readIndex : Fin n)
  | waitSR (readIndex : Fin n)
  | signalEntry (readIndex : Fin n) (target : Sem n)
  | read (readIndex : Fin n)
  | leave (readIndex : Fin n) (data : α)
  | signalExit (data : α) (target : Sem n)

namespace LBUF
variable [NeZero n] (lbuf : LBUF n c α)

/-- `nW++` and the choice of the `SIGNAL` behind it. -/
def admitWriter (data : α) : LBUF n c α × Producer n α :=
  let r := { lbuf with nW := lbuf.nW+1 }.SIGNAL
  (r.1,.signalEntry data r.2)

/-- One step of `lbuf_deposit`. -/
def lbuf_deposit : Producer n α → Option (LBUF n c α × Producer n α)
  | .idle => none
  | .enter data => (lbuf.sem_wait .e).map fun lbuf =>
    if lbuf.freeSlot then lbuf.admitWriter data
    else ({ lbuf with waitForDeposit := lbuf.waitForDeposit+1 },.delay data)
  | .delay data => some (lbuf.sem_post .e,.waitSW data)
  | .waitSW data => (lbuf.sem_wait .sW).map fun lbuf => lbuf.admitWriter data
  | .signalEntry data target => some (lbuf.sem_post target,.write data)
  | .write data =>
    some ({ lbuf with buffer := Function.update lbuf.buffer lbuf.nextWriteIndex data },
      .leave lbuf.nextWriteIndex data)
  | .leave writeIndex _ => (lbuf.sem_wait .e).map fun lbuf =>
    let r := LBUF.SIGNAL { lbuf with
      nW := lbuf.nW-1
      pendingReads := Function.update lbuf.pendingReads writeIndex fun _ => 1
      nextWriteIndex := nextSlot lbuf.nextWriteIndex }
    (r.1,.signalExit r.2)
  | .signalExit target => some (lbuf.sem_post target,.idle)

def getAndAdvanceNextReadIndex (threadId : Fin c) : LBUF n c α × Fin n :=
  ({ lbuf with nextConsume :=
      Function.update lbuf.nextConsume threadId (nextSlot (lbuf.nextConsume threadId)) },
    lbuf.nextConsume threadId)

/-- `nR[readIndex]++` and the choice of the `SIGNAL` behind it. -/
def admitReader (readIndex : Fin n) : LBUF n c α × Consumer n α :=
  let r := { lbuf with
    nR := Function.update lbuf.nR readIndex (lbuf.nR readIndex+1) }.SIGNAL
  (r.1,.signalEntry readIndex r.2)

/-- One step of `lbuf_consume`. -/
def lbuf_consume (threadId : Fin c) : Consumer n α → Option (LBUF n c α × Consumer n α)
  | .idle => none
  | .enter => (lbuf.sem_wait .e).map fun lbuf =>
    let (lbuf,readIndex) := lbuf.getAndAdvanceNextReadIndex threadId
    if lbuf.pendingReads readIndex threadId = 0 then
      ({ lbuf with waitForRead :=
          Function.update lbuf.waitForRead readIndex (lbuf.waitForRead readIndex+1) },
        .delay readIndex)
    else lbuf.admitReader readIndex
  | .delay readIndex => some (lbuf.sem_post .e,.waitSR readIndex)
  | .waitSR readIndex => (lbuf.sem_wait (.sR readIndex)).map fun lbuf => lbuf.admitReader readIndex
  | .signalEntry readIndex target => some (lbuf.sem_post target,.read readIndex)
  | .read readIndex => some (lbuf,.leave readIndex (lbuf.buffer readIndex))
  | .leave readIndex data => (lbuf.sem_wait .e).map fun lbuf =>
    let r := LBUF.SIGNAL { lbuf with
      nR := Function.update lbuf.nR readIndex (lbuf.nR readIndex-1)
      pendingReads := Function.update lbuf.pendingReads readIndex
        (Function.update (lbuf.pendingReads readIndex) threadId
          (lbuf.pendingReads readIndex threadId-1)) }
    (r.1,.signalExit data r.2)
  | .signalExit _ target => some (lbuf.sem_post target,.idle)

end LBUF

/-- The buffer, its threads, and what was deposited and what each consumer was given so far. A
value counts as deposited once its slot is marked for the consumers. -/
structure Threads (n p c : ℕ) (α : Type*) where
  lbuf : LBUF n c α
  producers : Fin p → Producer n α
  consumers : Fin c → Consumer n α
  deposited : List α
  received : Fin c → List α

inductive Action (p c : ℕ) (α : Type*)
  /-- Thread `i` calls `lbuf_deposit`. -/
  | deposit (i : Fin p) (data : α)
  /-- Thread `j` calls `lbuf_consume`. -/
  | consume (j : Fin c)
  | producer (i : Fin p)
  | consumer (j : Fin c)
  deriving DecidableEq, Repr

namespace Threads
variable [NeZero n]

def init (p c : ℕ) (buffer : Fin n → α) : Threads n p c α where
  lbuf := lbuf_create c buffer
  producers _ := .idle
  consumers _ := .idle
  deposited := []
  received _ := []

def setProducer (s : Threads n p c α) (i : Fin p) (t : Producer n α) : Threads n p c α :=
  { s with producers := Function.update s.producers i t }

def setConsumer (s : Threads n p c α) (j : Fin c) (t : Consumer n α) : Threads n p c α :=
  { s with consumers := Function.update s.consumers j t }

def step (s : Threads n p c α) : Action p c α → Option (Threads n p c α)
  | .deposit i data =>
    match s.producers i with
    | .idle => some (s.setProducer i (.enter data))
    | _ => none
  | .consume j =>
    match s.consumers j with
    | .idle => some (s.setConsumer j .enter)
    | _ => none
  | .producer i => (s.lbuf.lbuf_deposit (s.producers i)).map fun (lbuf,t) =>
    let s' := { s with lbuf := lbuf }.setProducer i t
    match s.producers i with
    | .leave _ data => { s' with deposited := s.deposited ++ [data] }
    | _ => s'
  | .consumer j => (s.lbuf.lbuf_consume j (s.consumers j)).map fun (lbuf,t) =>
    let s' := { s with lbuf := lbuf }.setConsumer j t
    match s.consumers j with
    | .signalExit data _ =>
      { s' with received := Function.update s.received j (s.received j ++ [data]) }
    | _ => s'

end Threads

/-- The buffer of `n` slots with `p` producer and `c` consumer threads. -/
def limitedBuffer [NeZero n] (p c : ℕ) (buffer : Fin n → α) :
    TransitionSystem (Threads n p c α) (Action p c α) where
  init := .init p c buffer
  step := Threads.step

end PucRio.LimitedBuffer
