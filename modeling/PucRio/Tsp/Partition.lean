import PucRio.Tsp.Tour
import Mathlib.Data.Int.DivMod
import Mathlib.Data.Nat.Factorial.Basic
import Mathlib.Order.Interval.Finset.Nat

/-! The initial partition of the search tree: the size of the queue, the breadth-first search that
fills it, and the block of its tours that a thread pushes on its stack. -/
namespace PucRio.Tsp
variable {n : ℕ}

/-- Why a thread does not get its tours. `noMemory` is an allocation of a negative size; `unset` is a
read of a queue slot never written. -/
inductive Stop
  | outOfFuel
  | noQueue
  | noMemory
  | emptyQueue
  | fullQueue
  | unset
  deriving DecidableEq, Repr

/-- An `int`. -/
def wrap32 (x : ℤ) : ℤ := x.bmod (2^32)

/-- A `long long`. -/
def wrap64 (x : ℤ) : ℤ := x.bmod (2^64)

/-- The product of `1,…,k` as it comes out in a `long long`. -/
def Fact : ℕ → ℤ
  | 0 => 1
  | k+1 => wrap64 (Fact k*(k+1))

/-- The loop of `Get_upper_bd_queue_sz`; `threads` is `thread_count * cluster_count`. -/
def growSize (threads : ℤ) : ℕ → ℤ → ℤ → Except Stop ℤ
  | 0,_,_ => .error .outOfFuel
  | fuel+1,fact,size =>
    if size < threads then growSize threads fuel (wrap32 (fact+1)) (wrap32 (size*wrap32 (fact+1)))
    else .ok size

def Get_upper_bd_queue_sz (n : ℕ) (threads : ℤ) (fuel : ℕ) : Except Stop ℤ := do
  let size ← growSize threads fuel ((n : ℤ)-1) ((n : ℤ)-1)
  .ok (if Fact (n-1) < size then 0 else size)

/-- `head` is the first tour, `tail` the first available slot. -/
structure Queue where
  list : ℕ → Option Tour
  list_alloc : ℕ
  head : ℕ
  tail : ℕ
  full : Bool

namespace Queue

/-- A negative `size` is more than any `malloc` gives, and `list` is written through `NULL`. -/
def Init_queue (size : ℤ) : Except Stop Queue :=
  if size < 0 then .error .noMemory else .ok ⟨fun _ => none,size.toNat,0,0,false⟩

def Empty_queue (queue : Queue) : Bool := !queue.full && queue.head == queue.tail

def Queue_elt (queue : Queue) (i : ℕ) : Except Stop Tour :=
  match queue.list ((queue.head+i)%queue.list_alloc) with
  | some tour => .ok tour
  | none => .error .unset

def Dequeue (queue : Queue) : Except Stop (Tour × Queue) :=
  if queue.Empty_queue then .error .emptyQueue else
    match queue.list queue.head with
    | some tour => .ok (tour,{ queue with head := (queue.head+1)%queue.list_alloc })
    | none => .error .unset

def Enqueue (queue : Queue) (tour : Tour) : Except Stop Queue :=
  if queue.full then .error .fullQueue else
    let tail := (queue.tail+1)%queue.list_alloc
    .ok { queue with
      list := Function.update queue.list queue.tail (some tour)
      tail := tail
      full := queue.full || tail == queue.head }

/-- The tours from `head` up to `tail`, with a slot to spare. -/
structure Holds (queue : Queue) (tours : List Tour) : Prop where
  head : queue.head < queue.list_alloc
  tail : queue.tail = (queue.head+tours.length)%queue.list_alloc
  full : queue.full = false
  spare : tours.length < queue.list_alloc
  elt : ∀ i (h : i < tours.length),
    queue.list ((queue.head+i)%queue.list_alloc) = some (tours.get ⟨i,h⟩)

section Holds
variable {queue : Queue} {tours : List Tour}

theorem Init_queue_spec {size : ℤ} (h : 0 < size) :
    ∃ queue, Init_queue size = .ok queue ∧ queue.list_alloc = size.toNat ∧ queue.Holds [] := by
  refine ⟨⟨fun _ => none,size.toNat,0,0,false⟩,if_neg (by omega),rfl,?_⟩
  have : 0 < size.toNat := by omega
  exact ⟨this,(Nat.zero_mod _).symm,rfl,this,fun i hi => absurd hi (Nat.not_lt_zero i)⟩

theorem Init_queue_of_neg {size : ℤ} (h : size < 0) : Init_queue size = .error .noMemory :=
  if_pos h

theorem Queue_elt_spec (h : queue.Holds tours) (i : Fin tours.length) :
    queue.Queue_elt i = .ok (tours.get i) := by
  simp only [Queue_elt,h.elt i i.isLt]

theorem Dequeue_spec {tour : Tour} (h : queue.Holds (tour::tours)) :
    ∃ rest, queue.Dequeue = .ok (tour,rest) ∧
    rest.list_alloc = queue.list_alloc ∧ rest.Holds tours := by
  have hspare := h.spare
  rw [List.length_cons] at hspare
  have hne : queue.head ≠ queue.tail := by
    intro he
    have htail := h.tail
    rw [← he,List.length_cons] at htail
    have := Nat.mod_injOn_Ico queue.head queue.list_alloc
      (by simp; omega) (by simp; omega) ((Nat.mod_eq_of_lt h.head).trans
        htail)
    omega
  have helt := h.elt 0 (Nat.succ_pos _)
  rw [Nat.add_zero,Nat.mod_eq_of_lt h.head] at helt
  refine ⟨{ queue with head := (queue.head+1)%queue.list_alloc },?_,rfl,?_⟩
  · simp [Dequeue,Empty_queue,h.full,hne,helt]
  · refine ⟨Nat.mod_lt _ (by omega),?_,h.full,Nat.lt_of_succ_lt hspare,fun i hi => ?_⟩
    · rw [Nat.mod_add_mod,h.tail,List.length_cons]
      congr 1
      omega
    · have := h.elt (i+1) (Nat.succ_lt_succ hi)
      rw [Nat.mod_add_mod,Nat.add_assoc,Nat.add_comm 1 i]
      exact this

theorem Enqueue_spec (tour : Tour) (h : queue.Holds tours)
    (hroom : tours.length+1 < queue.list_alloc) :
    ∃ longer, queue.Enqueue tour = .ok longer ∧ longer.list_alloc = queue.list_alloc ∧
      longer.Holds (tours ++ [tour]) := by
  have hinj := Nat.mod_injOn_Ico queue.head queue.list_alloc
  have htail : (queue.tail+1)%queue.list_alloc = (queue.head+(tours.length+1))%queue.list_alloc := by
    rw [h.tail,Nat.mod_add_mod,Nat.add_assoc]
  have hne : (queue.tail+1)%queue.list_alloc ≠ queue.head := by
    intro he
    have := hinj (by simp; omega) (by simp; omega)
      ((htail.symm.trans he).trans (Nat.mod_eq_of_lt h.head).symm)
    omega
  refine ⟨{ queue with
    list := Function.update queue.list queue.tail (some tour)
    tail := (queue.tail+1)%queue.list_alloc
    full := queue.full || (queue.tail+1)%queue.list_alloc == queue.head },?_,rfl,?_⟩
  · simp [Enqueue,h.full]
  refine ⟨h.head,?_,by simp [h.full,hne],by simpa using hroom,fun i hi => ?_⟩
  · rw [List.length_append,List.length_singleton]
    exact htail
  · rw [List.length_append,List.length_singleton] at hi
    show Function.update queue.list queue.tail (some tour) ((queue.head+i)%queue.list_alloc) = _
    by_cases hlast : i = tours.length
    · subst hlast
      rw [← h.tail,Function.update_self]
      simp
    · have hslot : (queue.head+i)%queue.list_alloc ≠ queue.tail := by
        rw [h.tail]
        intro he
        have := hinj (by simp; omega) (by simp; omega) he
        omega
      rw [Function.update_of_ne hslot,h.elt i (by omega)]
      simp [List.getElem_append_left (show i < tours.length by omega)]

end Holds
end Queue

variable (d : Digraph n)

/-- The body of the breadth-first search for one tour: its unvisited neighbours go to the queue. -/
def enqueueNbrs (tour : Tour) (queue : Queue) (curr_sz : ℕ) : Except Stop (Queue × ℕ) :=
  (List.range' 1 (n-1)).foldlM (fun (queue,curr_sz) nbr =>
    if tour.Visited nbr then .ok (queue,curr_sz)
    else (queue.Enqueue (tour.Add_city d nbr)).map (·,curr_sz+1)) (queue,curr_sz)

def breadthFirst (threads : ℕ) : ℕ → Queue → ℕ → Except Stop (Queue × ℕ)
  | 0,_,_ => .error .outOfFuel
  | fuel+1,queue,curr_sz =>
    if curr_sz < threads then do
      let (tour,queue) ← queue.Dequeue
      let (queue,curr_sz) ← enqueueNbrs d tour queue (curr_sz-1)
      breadthFirst threads fuel queue curr_sz
    else .ok (queue,curr_sz)

/-- The queue and `init_tour_count`. -/
def Build_initial_queue (queue_size : ℤ) (threads fuel : ℕ) : Except Stop (Queue × ℕ) := do
  let queue ← Queue.Init_queue (wrap32 (2*queue_size))
  let queue ← queue.Enqueue (.Init_tour 0)
  breadthFirst d threads fuel queue 1

/-- `my_first_tour` and `my_count`; `my_last_tour` is the last of that many tours. -/
def Set_init_tours (init_tour_count threads thread_global_rank : ℕ) : ℕ × ℕ :=
  let quotient := init_tour_count/threads
  let remainder := init_tour_count%threads
  if thread_global_rank < remainder then (thread_global_rank*(quotient+1),quotient+1)
  else (thread_global_rank*quotient+remainder,quotient)

/-- The tours `my_last_tour,…,my_first_tour` are pushed. -/
def pushTours (queue : Queue) (my_first_tour : ℕ) : ℕ → Stack n → Except Stop (Stack n)
  | 0,stack => .ok stack
  | k+1,stack => do
    let tour ← queue.Queue_elt (my_first_tour+k)
    pushTours queue my_first_tour k (stack.Push tour)

/-- The stack of thread `my_rank` of process `cluster_rank`. -/
def Partition_tree (thread_count cluster_count cluster_rank my_rank fuel : ℕ) :
    Except Stop (Stack n) := do
  let threads := thread_count*cluster_count
  let queue_size ← Get_upper_bd_queue_sz n threads fuel
  if queue_size = 0 then .error .noQueue else
    let (queue,init_tour_count) ← Build_initial_queue d queue_size threads fuel
    let (my_first_tour,my_count) :=
      Set_init_tours init_tour_count threads (my_rank+thread_count*cluster_rank)
    pushTours queue my_first_tour my_count (.Init_stack n)

/-- The tours one unvisited city longer. -/
def extensions (tour : Tour) : List Tour :=
  ((List.range' 1 (n-1)).filter fun nbr => !tour.Visited nbr).map (tour.Add_city d)

variable {d}

section Extensions
variable {queue : Queue} {tours : List Tour}

/-- With room for all of them the body of the search enqueues the extensions. -/
theorem enqueueNbrs_spec (tour : Tour) (h : queue.Holds tours)
    (hroom : tours.length+(n-1) < queue.list_alloc) (curr_sz : ℕ) : ∃ longer,
      enqueueNbrs d tour queue curr_sz = .ok (longer,curr_sz+(extensions d tour).length) ∧
      longer.list_alloc = queue.list_alloc ∧ longer.Holds (tours ++ extensions d tour) := by
  have hlen : (List.range' 1 (n-1)).length = n-1 := List.length_range'
  rw [← hlen] at hroom
  unfold enqueueNbrs extensions
  generalize List.range' 1 (n-1) = nbrs at hroom
  induction nbrs generalizing queue tours curr_sz with
  | nil => exact ⟨queue,rfl,rfl,by simpa using h⟩
  | cons nbr nbrs ih =>
    rw [List.length_cons] at hroom
    cases hv : tour.Visited nbr with
    | true =>
      obtain ⟨longer,hl,ha,hh⟩ := ih h curr_sz (by omega)
      refine ⟨longer,?_,ha,by simpa [hv] using hh⟩
      rw [List.foldlM_cons]
      simp only [hv,if_true]
      refine hl.trans ?_
      simp [hv]
    | false =>
      obtain ⟨next,hn,han,hhn⟩ := Queue.Enqueue_spec (tour.Add_city d nbr) h (by omega)
      obtain ⟨longer,hl,ha,hh⟩ := ih hhn (curr_sz+1) (by rw [han]; simp; omega)
      refine ⟨longer,?_,ha.trans han,by simpa [hv] using hh⟩
      rw [List.foldlM_cons]
      simp only [hv,hn,Bool.false_eq_true,if_false,Except.map]
      refine hl.trans ?_
      simp [hv]
      omega

end Extensions

theorem wrap64_eq {x : ℤ} (h0 : 0 ≤ x) (h : x < 2^63) : wrap64 x = x := by
  unfold wrap64
  rw [Int.bmod_eq_emod_of_lt (by omega),Int.emod_eq_of_lt h0 (by omega)]

/-- Up to `20!` the factorial fits. -/
theorem Fact_eq_factorial {k : ℕ} (hk : k ≤ 20) : Fact k = k.factorial := by
  induction k with
  | zero => rfl
  | succ k ih =>
    have hle : ((k+1).factorial : ℤ) ≤ (20 : ℕ).factorial :=
      Int.ofNat_le.mpr (Nat.factorial_le hk)
    have h20 : ((20 : ℕ).factorial : ℤ) < 2^63 := by decide
    have hmul : Fact k*(k+1) = ((k+1).factorial : ℤ) := by
      rw [ih (by omega),Nat.factorial_succ]
      push_cast
      ring
    rw [Fact,hmul]
    exact wrap64_eq (by positivity) (by omega)

theorem wrap32_eq {x : ℤ} (h0 : 0 ≤ x) (h : x < 2^31) : wrap32 x = x := by
  unfold wrap32
  rw [Int.bmod_eq_emod_of_lt (by omega),Int.emod_eq_of_lt h0 (by omega)]

theorem wrap32_lt (x : ℤ) : wrap32 x < 2^31 := by
  unfold wrap32
  have := Int.bmod_lt (x := x) (m := 2^32) (by norm_num)
  omega

/-- Past the largest `int` comes the least. -/
theorem wrap32_neg {x : ℤ} (h : 2^31 ≤ x) (hlt : x < 2^32) : wrap32 x < 0 := by
  unfold wrap32
  rw [Int.bmod_def,if_neg (by omega)]
  omega

/-- From `66!` on the factorial is a multiple of `2^64`. -/
theorem Fact_eq_zero {k : ℕ} (hk : 66 ≤ k) : Fact k = 0 := by
  induction k, hk using Nat.le_induction with
  | base => decide +kernel
  | succ k _ ih => rw [Fact,ih,zero_mul]; rfl

theorem le_of_queue {n : ℕ} (hn : 2 ≤ n) (hq : (n : ℤ)-1 ≤ Fact (n-1)) : n ≤ 66 := by
  by_contra h
  rw [Fact_eq_zero (by omega)] at hq
  omega

/-- One thread needs one tour: the queue size is `n-1`, unless the factorial falls short of it. -/
theorem Get_upper_bd_queue_sz_one (hn : 2 ≤ n) (fuel : ℕ) :
    Get_upper_bd_queue_sz n 1 (fuel+1) = .ok (if Fact (n-1) < (n : ℤ)-1 then 0 else (n : ℤ)-1) := by
  have : ¬ (n : ℤ)-1 < 1 := by omega
  simp only [Get_upper_bd_queue_sz,growSize,if_neg this]
  rfl

/-- The stack with the tour at home alone. -/
def rootStack (hn : 2 ≤ n) : Stack n := ⟨[.Init_tour 0],Nat.mul_pos (by omega) (by omega)⟩

/-- With one thread in all the whole tree is its share. -/
theorem Partition_tree_one (hn : 2 ≤ n) (fuel : ℕ) : Partition_tree d 1 1 0 0 (fuel+1) =
    if Fact (n-1) < (n : ℤ)-1 then .error .noQueue
    else .ok (rootStack hn) := by
  have hsz := Get_upper_bd_queue_sz_one hn fuel
  unfold Partition_tree
  simp only [Nat.mul_one,Nat.cast_one,hsz]
  by_cases hf : Fact (n-1) < (n : ℤ)-1
  · simp only [if_pos hf]
    rfl
  · have h0 : ¬ (n : ℤ)-1 = 0 := by omega
    have hle := le_of_queue hn (not_lt.mp hf)
    have hw : wrap32 (2*((n : ℤ)-1)) = 2*((n : ℤ)-1) := wrap32_eq (by omega) (by omega)
    have hpos : ¬ 2*((n : ℤ)-1) < 0 := by omega
    obtain ⟨k,hk⟩ : ∃ k, (2*((n : ℤ)-1)).toNat = k+2 := ⟨(2*((n : ℤ)-1)).toNat-2,by omega⟩
    have hroom : ¬ 0 = n*n := by nlinarith
    have hq : Build_initial_queue d ((n : ℤ)-1) 1 (fuel+1) = .ok (⟨Function.update (fun _ => none) 0
        (some (.Init_tour 0)),k+2,0,1,false⟩,1) := by
      have h1 : (0+1)%(k+2) = 1 := Nat.mod_eq_of_lt (by omega)
      simp only [Build_initial_queue,hw,Queue.Init_queue,if_neg hpos,hk,bind,Except.bind,
        Queue.Enqueue,h1,breadthFirst]
      rfl
    have hs : Set_init_tours 1 1 (0+1*0) = (0,1) := rfl
    simp only [if_neg hf,bind,Except.bind,h0,if_false,hq,hs]
    simp [pushTours,Queue.Queue_elt,Stack.Push,Stack.Init_stack,hroom,bind,Except.bind,rootStack]

end PucRio.Tsp
