import PucRio.Lib.Partition
import PucRio.Tsp.Search
import Mathlib.Logic.Equiv.Fin.Basic

/-! The initial partition shares the search tree out. The queue holds a frontier of the tree, and the
threads of all processes take consecutive blocks of it: every Hamiltonian path lies below one of the
tours that they start with. -/
namespace PucRio.Tsp
variable {n : ℕ}

section Tree
variable {d : Digraph n} {t u : Tour}

/-- The Hamiltonian paths below a tour. -/
def leaves (n : ℕ) (t : Tour) : ℕ := (n-t.City_count).factorial

/-- Whether a path extends a tour, as a number. -/
def above (p : List ℕ) (t : Tour) : ℕ := if t.cities <+: p then 1 else 0

theorem mem_extensions : u ∈ extensions d t ↔
    ∃ c, 1 ≤ c ∧ c < n ∧ c ∉ t.cities ∧ u = t.Add_city d c := by
  simp only [extensions,List.mem_map,List.mem_filter,List.mem_range'_1,Tour.Visited,
    Bool.not_eq_true',decide_eq_false_iff_not]
  constructor
  · rintro ⟨c,⟨hc,hnot⟩,rfl⟩
    exact ⟨c,hc.1,by omega,hnot,rfl⟩
  · rintro ⟨c,h1,hlt,hnot,rfl⟩
    exact ⟨c,⟨⟨h1,by omega⟩,hnot⟩,rfl⟩

theorem City_count_extensions (hu : u ∈ extensions d t) : u.City_count = t.City_count+1 := by
  obtain ⟨c,-,-,-,rfl⟩ := mem_extensions.mp hu
  simp [Tour.City_count]

namespace IsPath

theorem extensions (h : IsPath d t) (hu : u ∈ extensions d t) : IsPath d u := by
  obtain ⟨c,-,hlt,hnot,rfl⟩ := mem_extensions.mp hu
  exact h.Add_city hnot hlt

/-- A path has one extension for every city it lacks. -/
theorem length_extensions (h : IsPath d t) : (Tsp.extensions d t).length = n-t.City_count := by
  have hhome : home_town ∈ t.cities := List.mem_of_mem_head? h.home
  have hperm : (t.cities ++ (List.range' 1 (n-1)).filter fun c => !t.Visited c).Perm
      (List.range n) := by
    refine (List.perm_ext_iff_of_nodup ?_ List.nodup_range).mpr fun c => ?_
    · refine List.nodup_append.mpr ⟨h.nodup,(List.nodup_range' ..).filter _,?_⟩
      rintro a ha b hb rfl
      simp [Tour.Visited,ha] at hb
    · simp only [List.mem_append,List.mem_filter,List.mem_range'_1,Tour.Visited,Bool.not_eq_true',
        decide_eq_false_iff_not,List.mem_range]
      constructor
      · rintro (hc | hc)
        · exact h.lt c hc
        · omega
      · intro hc
        by_cases hm : c ∈ t.cities
        · exact .inl hm
        · have : c ≠ 0 := by
            rintro rfl
            exact hm hhome
          exact .inr ⟨by omega,hm⟩
  have hlen := hperm.length_eq
  rw [List.length_append,List.length_range] at hlen
  rw [Tsp.extensions,List.length_map,Tour.City_count]
  omega

theorem leaves_eq (h : IsPath d t) (hn : t.City_count ≠ n) :
    leaves n t = ((Tsp.extensions d t).map (leaves n)).sum := by
  have hle : t.City_count ≤ n := h.length_le
  obtain ⟨m,hm⟩ : ∃ m, n-t.City_count = m+1 := ⟨n-t.City_count-1,by omega⟩
  have hchild : (Tsp.extensions d t).map (leaves n) =
      (Tsp.extensions d t).map fun _ => m.factorial := by
    refine List.map_congr_left fun u hu => ?_
    rw [leaves,City_count_extensions hu,show n-(t.City_count+1) = m by omega]
  rw [hchild,List.map_const',List.sum_replicate,h.length_extensions,hm,leaves,hm,
    Nat.factorial_succ,smul_eq_mul]

/-- A Hamiltonian path goes on in one way. -/
theorem above_eq (h : IsPath d t) (hn : t.City_count ≠ n) {p : List ℕ} (hp : Hamiltonian n p) :
    above p t = ((Tsp.extensions d t).map (above p)).sum := by
  by_cases hpre : t.cities <+: p
  · obtain ⟨c,hcpre,h1,hlt,hnot⟩ := h.exists_next hn hp hpre
    have hiff (x : ℕ) : t.cities ++ [x] <+: p ↔ x = c := by
      constructor
      · intro hx
        have := (List.prefix_of_prefix_length_le hx hcpre (by simp)).eq_of_length (by simp)
        simpa using this
      · rintro rfl
        exact hcpre
    have hcount : ((List.range' 1 (n-1)).filter fun x => !t.Visited x).count c = 1 := by
      apply List.count_eq_one_of_mem ((List.nodup_range' ..).filter _)
      simp only [List.mem_filter,List.mem_range'_1,Tour.Visited,Bool.not_eq_true',
        decide_eq_false_iff_not]
      exact ⟨by omega,hnot⟩
    rw [above,if_pos hpre,Tsp.extensions,List.map_map,List.sum_map_eq_nsmul_single c,hcount]
    · rw [one_smul]
      exact (if_pos hcpre).symm
    · intro x hx _
      exact if_neg fun hxp => hx ((hiff x).mp hxp)
  · have hzero : ∀ u ∈ Tsp.extensions d t, above p u = 0 := by
      intro u hu
      obtain ⟨c,-,-,-,rfl⟩ := mem_extensions.mp hu
      exact if_neg fun hx => hpre ((List.prefix_append _ _).trans hx)
    rw [above,if_neg hpre,List.map_congr_left hzero]
    simp

end IsPath

/-- The tours in the queue cut the search tree across. -/
structure Frontier (d : Digraph n) (tours : List Tour) : Prop where
  paths : ∀ t ∈ tours, IsPath d t
  levels : Levels Tour.City_count tours
  leaves : (tours.map (leaves n)).sum = (n-1).factorial
  above : ∀ p, Hamiltonian n p → (tours.map (above p)).sum = 1

namespace Frontier
variable {tours : List Tour}

theorem init (hn : 1 ≤ n) : Frontier d [.Init_tour 0] where
  paths := by
    intro t ht
    rw [List.mem_singleton.mp ht]
    exact .init hn
  levels := .singleton _
  leaves := by simp [Tsp.leaves,Tour.City_count,Tour.Init_tour]
  above p hp := by
    obtain ⟨r,rfl⟩ := List.head?_eq_some_iff.mp hp.home
    simp [Tsp.above,Tour.Init_tour]

theorem ne_nil (h : Frontier d tours) : tours ≠ [] := by
  rintro rfl
  exact (Nat.factorial_pos (n-1)).ne h.leaves

/-- While there are fewer tours than Hamiltonian paths, the first in the queue goes on. -/
theorem City_count_ne (h : Frontier d (t::tours)) (hlt : (t::tours).length < (n-1).factorial) :
    t.City_count ≠ n := by
  intro hn
  have hone : (t::tours).map (Tsp.leaves n) = (t::tours).map fun _ => 1 := by
    refine List.map_congr_left fun u hu => ?_
    have hge : t.City_count ≤ u.City_count := h.levels.head_le hu
    rw [Tsp.leaves,Nat.sub_eq_zero_of_le (by omega),Nat.factorial_zero]
  have hsum := h.leaves
  rw [hone,List.map_const',List.sum_replicate,smul_eq_mul,Nat.mul_one] at hsum
  omega

/-- One step of the breadth-first search. -/
theorem step (h : Frontier d (t::tours)) (hn : t.City_count ≠ n) :
    Frontier d (tours ++ extensions d t) := by
  have ht := h.paths t List.mem_cons_self
  constructor
  · intro u hu
    rcases List.mem_append.mp hu with hu | hu
    · exact h.paths u (List.mem_cons_of_mem _ hu)
    · exact ht.extensions hu
  · exact h.levels.expand fun u hu => City_count_extensions hu
  · rw [sum_map_expand (ht.leaves_eq hn)]
    exact h.leaves
  · intro p hp
    rw [sum_map_expand (ht.above_eq hn hp)]
    exact h.above p hp

end Frontier

/-- Every round of the search leaves less to expand. -/
theorem sum_weight_extensions (hn : 2 ≤ n) (ht : IsPath d t) (hne : t.City_count ≠ n) :
    ((extensions d t).map (weight n)).sum < weight n t := by
  have hle : t.City_count ≤ n := ht.length_le
  obtain ⟨m,hm⟩ : ∃ m, n-t.City_count = m+1 := ⟨n-t.City_count-1,by omega⟩
  have hchild : ∀ u ∈ extensions d t, weight n u ≤ n^m := by
    intro u hu
    rw [weight,City_count_extensions hu,show n-(t.City_count+1) = m by omega]
  have hpos := List.length_pos_of_ne_nil ht.ne_nil
  have hsum := sum_map_le_of_le (weight n) hchild
  rw [ht.length_extensions,hm] at hsum
  have hlt : (m+1)*n^m < n*n^m := by
    apply Nat.mul_lt_mul_of_pos_right
    · unfold Tour.City_count at hm
      omega
    · exact Nat.pow_pos (by omega)
  rw [weight,hm,Nat.pow_succ,Nat.mul_comm]
  exact hsum.trans_lt hlt

end Tree

section Blocks
variable {init_tour_count threads : ℕ}

/-- The tour a thread's block starts with; the next thread's is one past the block. -/
def firstTour (init_tour_count threads i : ℕ) : ℕ :=
  i*(init_tour_count/threads)+min i (init_tour_count%threads)

theorem Set_init_tours_eq (i : ℕ) : Set_init_tours init_tour_count threads i =
    (firstTour init_tour_count threads i,
      firstTour init_tour_count threads (i+1)-firstTour init_tour_count threads i) := by
  unfold Set_init_tours firstTour
  dsimp only
  generalize init_tour_count/threads = quotient
  generalize init_tour_count%threads = remainder
  rw [Nat.succ_mul]
  split_ifs with h
  · rw [min_eq_left h.le,min_eq_left (Nat.succ_le_of_lt h),Nat.mul_succ]
    simp only [Prod.mk.injEq,true_and]
    omega
  · rw [min_eq_right (by omega),min_eq_right (by omega)]
    simp only [Prod.mk.injEq,true_and]
    omega

theorem firstTour_mono (init_tour_count threads : ℕ) :
    Monotone (firstTour init_tour_count threads) := by
  apply monotone_nat_of_le_succ
  intro i
  exact Nat.add_le_add (Nat.mul_le_mul_right _ (Nat.le_succ i))
    (min_le_min_right _ (Nat.le_succ i))

theorem firstTour_threads (h : 0 < threads) :
    firstTour init_tour_count threads threads = init_tour_count := by
  have := Nat.div_add_mod init_tour_count threads
  rw [firstTour,min_eq_right (Nat.mod_lt _ h).le]
  exact this

/-- Tour `k` of the queue is one of `my_first_tour,…,my_last_tour`. -/
def Assigned (init_tour_count threads thread_global_rank k : ℕ) : Prop :=
  let (my_first_tour,my_count) := Set_init_tours init_tour_count threads thread_global_rank
  my_first_tour ≤ k ∧ k < my_first_tour+my_count

theorem assigned_iff {i k : ℕ} : Assigned init_tour_count threads i k ↔
    firstTour init_tour_count threads i ≤ k ∧ k < firstTour init_tour_count threads (i+1) := by
  have := firstTour_mono init_tour_count threads (Nat.le_succ i)
  simp only [Assigned,Set_init_tours_eq]
  omega

/-- Every tour falls to one thread of one process. -/
theorem existsUnique_assigned {thread_count cluster_count k : ℕ} (ht : 0 < thread_count)
    (hc : 0 < cluster_count) (hk : k < init_tour_count) :
    ∃! p : Fin cluster_count × Fin thread_count,
      Assigned init_tour_count (thread_count*cluster_count) (p.2+thread_count*p.1) k := by
  have hpos : 0 < thread_count*cluster_count := Nat.mul_pos ht hc
  have hblock : ∃! i : Fin (cluster_count*thread_count),
      Assigned init_tour_count (thread_count*cluster_count) i k := by
    simp only [assigned_iff]
    apply existsUnique_block (firstTour_mono _ _)
    · simp [firstTour]
    · rw [Nat.mul_comm cluster_count,firstTour_threads hpos]
      exact hk
  exact finProdFinEquiv.existsUnique_congr_right.mpr hblock

end Blocks

section Queue
variable {d : Digraph n} {threads fuel : ℕ} {queue : Queue} {tours : List Tour} {queue_size : ℤ}

/-- The breadth-first search ends, in a queue with room for the tours of one more round. -/
theorem breadthFirst_spec (hn : 2 ≤ n) (hleaves : threads ≤ (n-1).factorial)
    (hroom : threads+n < queue.list_alloc+2) (hq : queue.Holds tours) (hf : Frontier d tours) :
    ∃ fuel last all, breadthFirst d threads fuel queue tours.length = .ok (last,all.length) ∧
      last.Holds all ∧ Frontier d all ∧ threads ≤ all.length := by
  induction hw : (tours.map (weight n)).sum using Nat.strong_induction_on generalizing queue tours with
  | _ w ih =>
    by_cases hsz : tours.length < threads
    · cases tours with
      | nil => exact absurd rfl hf.ne_nil
      | cons t rest =>
        have hne := hf.City_count_ne (by omega)
        have ht := hf.paths t List.mem_cons_self
        rw [List.length_cons] at hsz
        obtain ⟨q,hdq,hqa,hqh⟩ := Queue.Dequeue_spec hq
        obtain ⟨q',heq,hqa',hqh'⟩ :=
          enqueueNbrs_spec (d := d) t hqh (by omega) rest.length
        have hless : ((rest ++ extensions d t).map (weight n)).sum < w := by
          rw [← hw,List.map_append,List.sum_append,List.map_cons,List.sum_cons,Nat.add_comm]
          exact Nat.add_lt_add_right (sum_weight_extensions hn ht hne) _
        obtain ⟨fuel,last,all,hrun,hall⟩ :=
          ih _ hless (by rw [hqa',hqa]; exact hroom) hqh' (hf.step hne) rfl
        refine ⟨fuel+1,last,all,?_,hall⟩
        rw [breadthFirst,List.length_cons,if_pos hsz,hdq]
        show (enqueueNbrs d t q (rest.length+1-1) >>= _) = _
        rw [Nat.add_sub_cancel,heq,← List.length_append]
        exact hrun
    · exact ⟨1,queue,tours,by rw [breadthFirst,if_neg hsz],hq,hf,not_lt.mp hsz⟩

theorem growSize_ge {threads fact size : ℤ} (h : growSize threads fuel fact size = .ok queue_size) :
    threads ≤ queue_size ∧ (queue_size = size ∨ size < threads) := by
  induction fuel generalizing fact size with
  | zero => cases h
  | succ fuel ih =>
    rw [growSize] at h
    split_ifs at h with hlt
    · exact ⟨(ih h).1,.inr hlt⟩
    · cases h
      exact ⟨not_lt.mp hlt,.inl rfl⟩

theorem growSize_lt {threads fact size : ℤ} (hsize : size < 2^31)
    (h : growSize threads fuel fact size = .ok queue_size) : queue_size < 2^31 := by
  induction fuel generalizing fact size with
  | zero => cases h
  | succ fuel ih =>
    rw [growSize] at h
    split_ifs at h with hlt
    · exact ih (wrap32_lt _) h
    · cases h
      exact hsize

/-- Where there is a queue, its size is no less than the threads, the neighbours of the home town
and no more than the factorial. -/
theorem Get_upper_bd_queue_sz_spec {threads : ℤ}
    (h : Get_upper_bd_queue_sz n threads fuel = .ok queue_size) (h0 : queue_size ≠ 0) :
    threads ≤ queue_size ∧ (n : ℤ)-1 ≤ queue_size ∧ queue_size ≤ Fact (n-1) ∧
      (2 ≤ n → queue_size < 2^31) := by
  unfold Get_upper_bd_queue_sz at h
  cases hg : growSize threads fuel ((n : ℤ)-1) ((n : ℤ)-1) with
  | error e => rw [hg] at h; cases h
  | ok size =>
    rw [hg] at h
    have hsize : (if Fact (n-1) < size then 0 else size) = queue_size := Except.ok.inj h
    split_ifs at hsize with hf
    · exact absurd hsize.symm h0
    · subst hsize
      obtain ⟨hge,heq⟩ := growSize_ge hg
      have hn1 : (n : ℤ)-1 ≤ size := by omega
      refine ⟨hge,hn1,not_lt.mp hf,fun hn => ?_⟩
      have := le_of_queue hn (hn1.trans (not_lt.mp hf))
      exact growSize_lt (by omega) hg

/-- There are Hamiltonian paths enough for the threads. -/
theorem le_factorial_of_queue {queue_size : ℤ} (hlt : threads < 2^31)
    (ht : (threads : ℤ) ≤ queue_size) (hf : queue_size ≤ Fact (n-1)) :
    threads ≤ (n-1).factorial := by
  by_cases hn : n-1 ≤ 20
  · rw [Fact_eq_factorial hn] at hf
    omega
  · have h21 : (21 : ℕ).factorial ≤ (n-1).factorial := Nat.factorial_le (by omega)
    have : 2^31 ≤ (21 : ℕ).factorial := by decide
    omega

theorem Build_initial_queue_spec (d : Digraph n) (hn : 2 ≤ n)
    (hleaves : threads ≤ (n-1).factorial) (hge : (threads : ℤ) ≤ queue_size)
    (hn1 : (n : ℤ)-1 ≤ queue_size) (hfit : 2*queue_size < 2^31) :
    ∃ fuel last all, Build_initial_queue d queue_size threads fuel = .ok (last,all.length) ∧
      last.Holds all ∧ Frontier d all ∧ threads ≤ all.length := by
  obtain ⟨queue,hi,hia,hih⟩ := Queue.Init_queue_spec (show 0 < 2*queue_size by omega)
  obtain ⟨root,hr,hra,hrh⟩ := Queue.Enqueue_spec (.Init_tour 0) hih
    (by rw [hia,List.length_nil]; omega)
  obtain ⟨fuel,last,all,hrun,hall⟩ := breadthFirst_spec (d := d) hn hleaves
    (by rw [hra,hia]; omega) hrh (.init (by omega))
  refine ⟨fuel,last,all,?_,hall⟩
  rw [Build_initial_queue,wrap32_eq (by omega) hfit,hi]
  show (queue.Enqueue (.Init_tour 0) >>= _) = _
  rw [hr]
  exact hrun

/-- What the initial partition is to give: the search that fills the queue ends without an error,
every Hamiltonian path extends one tour of the queue, and every tour of the queue falls to one
thread of one process. -/
def Partitions (d : Digraph n) (thread_count cluster_count : ℕ) (queue_size : ℤ) : Prop :=
  ∃ fuel queue tours, Build_initial_queue d queue_size (thread_count*cluster_count) fuel =
      .ok (queue,tours.length) ∧ queue.Holds tours ∧
    (∀ p, Hamiltonian n p → ∃! i : Fin tours.length, (tours.get i).cities <+: p) ∧
    ∀ i : Fin tours.length, ∃! p : Fin cluster_count × Fin thread_count,
      Assigned tours.length (thread_count*cluster_count) (p.2+thread_count*p.1) i

/-- Past the largest `int` the queue is not allocated. -/
theorem not_partitions_of_le (d : Digraph n) (thread_count cluster_count : ℕ)
    (hover : 2^31 ≤ 2*queue_size) (hint : queue_size < 2^31) :
    ¬ Partitions d thread_count cluster_count queue_size := by
  rintro ⟨fuel,queue,tours,hrun,-⟩
  rw [Build_initial_queue,Queue.Init_queue_of_neg (wrap32_neg hover (by omega))] at hrun
  cases hrun

/-- Where there is a queue, the initial partition is one exactly where twice the queue size is an
`int`. -/
theorem partitions_iff (n : ℕ) (hn : 2 ≤ n) (d : Digraph n) (thread_count cluster_count fuel : ℕ)
    (ht : 0 < thread_count) (hc : 0 < cluster_count) (hlt : thread_count*cluster_count < 2^31)
    (queue_size : ℤ)
    (hq : Get_upper_bd_queue_sz n (wrap32 (thread_count*cluster_count)) fuel = .ok queue_size)
    (h0 : queue_size ≠ 0) :
    Partitions d thread_count cluster_count queue_size ↔ 2*queue_size < 2^31 := by
  rw [wrap32_eq (by positivity) (by exact_mod_cast hlt)] at hq
  obtain ⟨hge,hn1,hf,hint⟩ := Get_upper_bd_queue_sz_spec hq h0
  constructor
  · intro h
    by_contra hover
    exact not_partitions_of_le d thread_count cluster_count (not_lt.mp hover) (hint hn) h
  · intro hfit
    have hthreads : ((thread_count*cluster_count : ℕ) : ℤ) ≤ queue_size := by exact_mod_cast hge
    obtain ⟨fuel,last,all,hrun,hl,hall,-⟩ := Build_initial_queue_spec d hn
      (le_factorial_of_queue hlt hthreads hf) hthreads hn1 hfit
    exact ⟨fuel,last,all,hrun,hl,fun p hp => existsUnique_of_sum_eq_one (hall.above p hp),
      fun i => existsUnique_assigned ht hc i.isLt⟩

/-- Five cities, two processes with three threads each. -/
theorem partitions_iff_five : Partitions (unitCosts 5) 3 2 20 ↔ 2*(20 : ℤ) < 2^31 :=
  partitions_iff 5 (by decide) (unitCosts 5) 3 2 3 (by decide) (by decide) (by decide) 20 (by decide)
    (by decide)

/-- Eighteen cities, a thousand processes with sixty thousand threads each: the queue size comes out
as `17·18·…·23`. -/
theorem not_partitions_eighteen :
    Get_upper_bd_queue_sz 18 (wrap32 (60000*1000)) 9 = .ok 1235591280 ∧
      ¬ Partitions (unitCosts 18) 60000 1000 1235591280 :=
  ⟨by decide +kernel,not_partitions_of_le _ _ _ (by norm_num) (by norm_num)⟩

end Queue

section Shares
variable {threads fuel : ℕ} {d : Digraph n} {queue last : Queue} {tours : List Tour}

/-- However much fuel there is: what the breadth-first search ends with is a frontier, of less than
one round more tours than there are threads. -/
theorem breadthFirst_ok {sz : ℕ} (hleaves : threads ≤ (n-1).factorial)
    (hroom : threads+n < queue.list_alloc+2) (hq : queue.Holds tours) (hf : Frontier d tours)
    (hlen : tours.length < threads+n)
    (h : breadthFirst d threads fuel queue tours.length = .ok (last,sz)) :
    ∃ all, last.Holds all ∧ Frontier d all ∧ sz = all.length ∧ all.length < threads+n := by
  induction fuel generalizing queue tours with
  | zero => cases h
  | succ fuel ih =>
    rw [breadthFirst] at h
    split_ifs at h with hsz
    · cases tours with
      | nil => exact absurd rfl hf.ne_nil
      | cons t rest =>
        have hne := hf.City_count_ne (by omega)
        have ht := hf.paths t List.mem_cons_self
        rw [List.length_cons] at hsz
        obtain ⟨q,hdq,hqa,hqh⟩ := Queue.Dequeue_spec hq
        obtain ⟨q',heq,hqa',hqh'⟩ := enqueueNbrs_spec (d := d) t hqh (by omega) rest.length
        have hext := ht.length_extensions
        have hcount := List.length_pos_of_ne_nil ht.ne_nil
        rw [hdq] at h
        change (enqueueNbrs d t q (rest.length+1-1) >>= _) = _ at h
        rw [Nat.add_sub_cancel,heq,← List.length_append] at h
        refine ih (by rw [hqa',hqa]; exact hroom) hqh' (hf.step hne) ?_ h
        rw [List.length_append,hext]
        unfold Tour.City_count
        omega
    · cases h
      exact ⟨tours,hq,hf,rfl,hlen⟩

theorem Build_initial_queue_ok {queue_size : ℤ} {sz : ℕ} (hn : 2 ≤ n) (hpos : 0 < threads)
    (hleaves : threads ≤ (n-1).factorial) (hge : (threads : ℤ) ≤ queue_size)
    (hn1 : (n : ℤ)-1 ≤ queue_size) (hint : queue_size < 2^31)
    (h : Build_initial_queue d queue_size threads fuel = .ok (last,sz)) :
    ∃ all, last.Holds all ∧ Frontier d all ∧ sz = all.length ∧ all.length < threads+n := by
  have hfit : 2*queue_size < 2^31 := by
    by_contra hover
    rw [Build_initial_queue,
      Queue.Init_queue_of_neg (wrap32_neg (not_lt.mp hover) (by omega))] at h
    cases h
  obtain ⟨queue,hi,hia,hih⟩ := Queue.Init_queue_spec (show 0 < 2*queue_size by omega)
  obtain ⟨root,hr,hra,hrh⟩ := Queue.Enqueue_spec (.Init_tour 0) hih
    (by rw [hia,List.length_nil]; omega)
  rw [Build_initial_queue,wrap32_eq (by omega) hfit,hi] at h
  change (queue.Enqueue (.Init_tour 0) >>= _) = _ at h
  rw [hr] at h
  refine breadthFirst_ok hleaves ?_ hrh (.init (by omega)) ?_ h
  · rw [hra,hia]
    omega
  · rw [List.nil_append,List.length_singleton]
    omega

/-- The block of a thread, the last tour pushed first. -/
theorem pushTours_ok {first k : ℕ} {stack stack' : Stack n} (hq : queue.Holds tours)
    (hk : first+k ≤ tours.length) (hroom : stack.list.length+k ≤ n*n)
    (h : pushTours queue first k stack = .ok stack') :
    stack'.list = stack.list++((tours.drop first).take k).reverse := by
  induction k generalizing stack with
  | zero =>
    cases h
    simp
  | succ k ih =>
    have helt := Queue.Queue_elt_spec hq ⟨first+k,by omega⟩
    have hfull : ¬ stack.list.length = n*n := by omega
    have hpush : (stack.Push (tours.get ⟨first+k,by omega⟩)).list =
        stack.list++[tours.get ⟨first+k,by omega⟩] := by
      rw [Stack.Push,dif_neg hfull]
    change (queue.Queue_elt (first+k) >>= _) = _ at h
    rw [helt] at h
    have hrest := ih (by omega) (by rw [hpush,List.length_append,List.length_singleton]; omega) h
    rw [hrest,hpush,List.take_add_one]
    simp [show first+k < tours.length by omega]

theorem Partition_tree_ok {thread_count cluster_count cluster_rank my_rank : ℕ} {stack : Stack n}
    (h : Partition_tree d thread_count cluster_count cluster_rank my_rank fuel = .ok stack) :
    ∃ queue_size queue init_tour_count,
      Get_upper_bd_queue_sz n ((thread_count*cluster_count : ℕ) : ℤ) fuel = .ok queue_size ∧
      queue_size ≠ 0 ∧ Build_initial_queue d queue_size (thread_count*cluster_count) fuel =
        .ok (queue,init_tour_count) ∧
      pushTours queue
        (Set_init_tours init_tour_count (thread_count*cluster_count)
          (my_rank+thread_count*cluster_rank)).1
        (Set_init_tours init_tour_count (thread_count*cluster_count)
          (my_rank+thread_count*cluster_rank)).2 (.Init_stack n) = .ok stack := by
  unfold Partition_tree at h
  cases hsz : Get_upper_bd_queue_sz n ((thread_count*cluster_count : ℕ) : ℤ) fuel with
  | error e =>
    simp only [hsz] at h
    cases h
  | ok queue_size =>
    simp only [hsz] at h
    change (if queue_size = 0 then _ else _) = _ at h
    split_ifs at h with h0
    cases hb : Build_initial_queue d queue_size (thread_count*cluster_count) fuel with
    | error e =>
      rw [hb] at h
      cases h
    | ok r =>
      rw [hb] at h
      exact ⟨queue_size,r.1,r.2,rfl,h0,hb,h⟩

section Cluster
variable {T C : ℕ} {shares : Fin C → Fin T → Stack n}

theorem blockSize_le {k : ℕ} (hpos : 0 < threads) (hlen : tours.length < threads+n) :
    firstTour tours.length threads (k+1)-firstTour tours.length threads k ≤ n+1 := by
  have hdiv := Nat.div_mul_le_self tours.length threads
  have hquotient : tours.length/threads ≤ n := by
    by_contra hlt
    have hmul := Nat.mul_le_mul_right threads (Nat.succ_le_of_lt (not_le.mp hlt))
    rw [Nat.succ_mul] at hmul
    have hle := Nat.le_mul_of_pos_right n hpos
    omega
  unfold firstTour
  rw [Nat.succ_mul]
  omega

/-- What the threads of all processes start with. -/
theorem shares_cover (hn : 2 ≤ n) (hT : 0 < T) (hC : 0 < C) (hlt : T*C < 2^31)
    (h : ∀ (c : Fin C) (i : Fin T), Partition_tree d T C c i fuel = .ok (shares c i)) :
    (∀ c i, ∀ t ∈ (shares c i).list, IsPath d t) ∧
    ∀ p, Hamiltonian n p → ∃ c i, ∃ t ∈ (shares c i).list, t.cities <+: p := by
  have hpos : 0 < T*C := Nat.mul_pos hT hC
  obtain ⟨queue_size,queue,count,hsz,h0,hbuild,-⟩ := Partition_tree_ok (h ⟨0,hC⟩ ⟨0,hT⟩)
  obtain ⟨hge,hn1,hfact,hint⟩ := Get_upper_bd_queue_sz_spec hsz h0
  obtain ⟨tours,hq,hf,rfl,hlen⟩ := Build_initial_queue_ok hn hpos
    (le_factorial_of_queue hlt hge hfact) hge hn1 (hint hn) hbuild
  have hblock (c : Fin C) (i : Fin T) : (shares c i).list =
      ((tours.drop (firstTour tours.length (T*C) (i+T*c))).take
        (firstTour tours.length (T*C) (i+T*c+1)-
          firstTour tours.length (T*C) (i+T*c))).reverse := by
    obtain ⟨size,queue',count',hsz',-,hbuild',hpush⟩ := Partition_tree_ok (h c i)
    obtain rfl := Except.ok.inj (hsz.symm.trans hsz')
    obtain ⟨rfl,rfl⟩ := Prod.mk.inj (Except.ok.inj (hbuild.symm.trans hbuild'))
    rw [Set_init_tours_eq] at hpush
    have hrank : (i : ℕ)+T*c < T*C := by
      have hmul := Nat.mul_le_mul_left T (Nat.succ_le_of_lt c.isLt)
      rw [Nat.succ_eq_add_one,Nat.mul_succ] at hmul
      omega
    have hmono : firstTour tours.length (T*C) (i+T*c) ≤ firstTour tours.length (T*C) (i+T*c+1) :=
      firstTour_mono tours.length (T*C) (Nat.le_succ _)
    have hend : firstTour tours.length (T*C) (i+T*c+1) ≤ firstTour tours.length (T*C) (T*C) :=
      firstTour_mono tours.length (T*C) (Nat.succ_le_of_lt hrank)
    rw [firstTour_threads hpos] at hend
    rw [pushTours_ok hq (by dsimp only; omega) ?_ hpush]
    · simp [Stack.Init_stack]
    · have hle := blockSize_le (k := i+T*c) hpos hlen
      have hsquare : n+1 ≤ n*n := by nlinarith
      rw [Stack.Init_stack,List.length_nil]
      omega
  constructor
  · intro c i t ht
    rw [hblock c i,List.mem_reverse] at ht
    exact hf.paths t (List.mem_of_mem_drop (List.mem_of_mem_take ht))
  · intro p hp
    obtain ⟨k,hk,-⟩ := existsUnique_of_sum_eq_one (hf.above p hp)
    obtain ⟨⟨c,i⟩,hi,-⟩ := existsUnique_assigned hT hC k.isLt
    dsimp only at hi
    rw [assigned_iff] at hi
    refine ⟨c,i,tours.get k,?_,hk⟩
    rw [hblock c i,List.mem_reverse]
    apply List.mem_of_getElem? (i := k-firstTour tours.length (T*C) (i+T*c))
    rw [List.getElem?_take_of_lt (by omega),List.getElem?_drop,Nat.add_sub_cancel' hi.1]
    exact List.getElem?_eq_getElem k.isLt

end Cluster

end Shares
end PucRio.Tsp
