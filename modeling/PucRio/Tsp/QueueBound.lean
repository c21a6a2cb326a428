import PucRio.Tsp.Partition
import Mathlib.Data.Nat.Factorial.Basic
import Mathlib.Tactic.IntervalCases

/-! When the size of the queue is that of a level of the search tree. The levels below the root have
`n-1`, `(n-1)(n-2)`, … tours; the loop multiplies by `n`, `n+1`, … instead. -/
namespace PucRio.Tsp
open Nat (factorial ascFactorial descFactorial)

def FitsInt (x : ℤ) : Prop := -2^31 ≤ x ∧ x < 2^31

def FitsLongLong (x : ℤ) : Prop := -2^63 ≤ x ∧ x < 2^63

/-- The loop stores nothing that an `int` does not hold. -/
def GrowsInRange (threads : ℤ) : ℕ → ℤ → ℤ → Prop
  | 0,_,_ => True
  | fuel+1,fact,size => size < threads → FitsInt (fact+1) ∧ FitsInt (size*(fact+1)) ∧
      GrowsInRange threads fuel (fact+1) (size*(fact+1))

/-- Nor does `Fact` store what a `long long` does not. -/
def FactInRange (k : ℕ) : Prop := ∀ i < k, FitsLongLong (Fact i*(i+1))

/-- The first level below the root with a tour for each thread is the one `k` towns from home. -/
structure FirstLevel (n threads k : ℕ) : Prop where
  pos : 1 ≤ k
  enough : threads ≤ (n-1).descFactorial k
  first : ∀ i, 1 ≤ i → i < k → (n-1).descFactorial i < threads

/-- The size comes out without overflow, is that of the first level with enough tours, and zero just
where there are fewer tours than threads. -/
def QueueSized (n threads : ℕ) : Prop :=
  ∃ fuel, ∃ size : ℕ, Get_upper_bd_queue_sz n threads fuel = .ok size ∧
    GrowsInRange threads fuel ((n : ℤ)-1) ((n : ℤ)-1) ∧ FactInRange (n-1) ∧
    (size = 0 ↔ (n-1).factorial < threads) ∧
    (threads ≤ (n-1).factorial → ∃ k, FirstLevel n threads k ∧ size = (n-1).descFactorial k)

/-- The factorial fits, and the loop makes no pass, or more than all tours are wanted and a product
of its factors is enough and fits, or `7·8·9·10 = 7!` is what is wanted. -/
structure SizeFits (n threads : ℕ) : Prop where
  two_le : 2 ≤ n
  le : n ≤ 21
  threads : threads ≤ n-1 ∨
    ((n-1).factorial < threads ∧
      ∃ k, threads ≤ (n-1).ascFactorial k ∧ (n-1).ascFactorial k < 2^31) ∨
    (n = 8 ∧ 2520 < threads ∧ threads ≤ 5040)

section Loop
variable {m p k fuel threads : ℕ}

theorem ascFactorial_le (hm : 1 ≤ m) (h : p ≤ k) : m.ascFactorial p ≤ m.ascFactorial k := by
  induction k, h using Nat.le_induction with
  | base => rfl
  | succ k _ ih =>
    rw [Nat.ascFactorial_succ]
    exact ih.trans (Nat.le_mul_of_pos_left _ (by omega))

theorem cast_ascFactorial_succ (m p : ℕ) :
    ((m.ascFactorial (p+1) : ℕ) : ℤ)*((m : ℤ)+p+1) = (m.ascFactorial (p+1+1) : ℕ) := by
  rw [Nat.ascFactorial_succ (k := p.succ)]
  push_cast
  ring

/-- Where nothing overflows the loop ends with the first of its products that is enough. -/
theorem growSize_eq {size : ℤ} (hm : 1 ≤ m)
    (hin : GrowsInRange threads fuel ((m : ℤ)+p) (m.ascFactorial (p+1) : ℕ))
    (h : growSize threads fuel ((m : ℤ)+p) (m.ascFactorial (p+1) : ℕ) = .ok size) :
    ∃ k, p < k ∧ size = (m.ascFactorial k : ℕ) ∧ threads ≤ m.ascFactorial k ∧
      (p+1 < k → m.ascFactorial (k-1) < threads ∧ m.ascFactorial k < 2^31) := by
  induction fuel generalizing p with
  | zero => cases h
  | succ fuel ih =>
    rw [growSize] at h
    have hsucc := cast_ascFactorial_succ m p
    split_ifs at h with hlt
    · obtain ⟨hfact,hsize,hrest⟩ := hin hlt
      rw [hsucc] at hsize hrest
      rw [wrap32_eq (by omega) hfact.2,hsucc,wrap32_eq (by omega) hsize.2] at h
      rw [add_assoc,← Nat.cast_succ] at h hrest
      obtain ⟨k,hpk,rfl,henough,hfirst⟩ := ih hrest h
      refine ⟨k,by omega,rfl,henough,fun _ => ?_⟩
      by_cases hk : p+1+1 < k
      · exact hfirst hk
      · obtain rfl : k = p+1+1 := by omega
        have := hsize.2
        exact ⟨by rw [Nat.add_sub_cancel]; omega,by omega⟩
    · cases h
      exact ⟨p+1,by omega,rfl,by omega,fun h => absurd h (lt_irrefl _)⟩

/-- With a product that fits and is enough the loop ends and nothing overflows. -/
theorem growSize_ends (hm : 1 ≤ m) (hpk : p < k) (henough : threads ≤ m.ascFactorial k)
    (hfits : m.ascFactorial k < 2^31) : ∃ fuel, ∃ size : ℤ,
      growSize threads fuel ((m : ℤ)+p) (m.ascFactorial (p+1) : ℕ) = .ok size ∧
      GrowsInRange threads fuel ((m : ℤ)+p) (m.ascFactorial (p+1) : ℕ) := by
  induction hd : k-p generalizing p with
  | zero => omega
  | succ d ih =>
    by_cases hlt : ((m.ascFactorial (p+1) : ℕ) : ℤ) < threads
    · have hpk' : p+1 < k := by
        by_contra hk
        obtain rfl : k = p+1 := by omega
        omega
      have hsucc := cast_ascFactorial_succ m p
      have hle : m.ascFactorial (p+1+1) ≤ m.ascFactorial k := ascFactorial_le hm hpk'
      have hfact : m+p+1 ≤ m.ascFactorial (p+1+1) := by
        rw [Nat.ascFactorial_succ]
        exact Nat.le_mul_of_pos_right _ (ascFactorial_le hm (Nat.zero_le _))
      obtain ⟨fuel,size,hrun,hin⟩ := ih hpk' (by omega)
      rw [Nat.cast_succ,← add_assoc] at hrun hin
      refine ⟨fuel+1,size,?_,fun _ => ?_⟩
      · rw [growSize,if_pos hlt,wrap32_eq (by omega) (by omega),hsucc,
          wrap32_eq (by omega) (by omega)]
        exact hrun
      · rw [hsucc]
        exact ⟨⟨by omega,by omega⟩,⟨by omega,by omega⟩,hin⟩
    · exact ⟨1,_,if_neg hlt,fun h => absurd h hlt⟩

/-- With the home town alone the product stays zero. -/
theorem growSize_zero {fact size : ℤ} (hthreads : 1 ≤ threads) :
    growSize threads fuel fact 0 ≠ .ok size := by
  induction fuel generalizing fact with
  | zero => exact fun h => by cases h
  | succ fuel ih =>
    rw [growSize,if_pos (by omega),zero_mul]
    exact ih

end Loop

section Levels
variable {n m k j threads : ℕ}

theorem fitsLongLong_factorial {i : ℕ} (hi : i < 20) : FitsLongLong (Fact i*(i+1)) := by
  have hle : ((i+1).factorial : ℤ) ≤ (20 : ℕ).factorial := Int.ofNat_le.mpr (Nat.factorial_le hi)
  have h20 : ((20 : ℕ).factorial : ℤ) < 2^63 := by decide
  have hmul : Fact i*(i+1) = ((i+1).factorial : ℤ) := by
    rw [Fact_eq_factorial (by omega),Nat.factorial_succ]
    push_cast
    ring
  rw [hmul]
  exact ⟨by omega,by omega⟩

/-- The factorials up to `20!` fit, `21!` does not. -/
theorem factInRange_iff : FactInRange k ↔ k ≤ 20 := by
  constructor
  · intro h
    by_contra hk
    have h21 := (h 20 (by omega)).2
    rw [Fact_eq_factorial le_rfl] at h21
    exact absurd h21 (by decide)
  · intro hk i hi
    exact fitsLongLong_factorial (by omega)

/-- A product of thirteen factors is too much for an `int`. -/
theorem lt_of_ascFactorial_lt (hm : 1 ≤ m) (h : m.ascFactorial k < 2^31) : k < 13 := by
  by_contra hk
  have hle := (Nat.ascFactorial_le 13 hm).trans (ascFactorial_le hm (not_lt.mp hk))
  have : 2^31 ≤ (1 : ℕ).ascFactorial 13 := by decide
  omega

/-- Of the products that fit and do not exceed the factorial only `7·8·9·10` is the size of a level. -/
theorem eq_of_ascFactorial_eq (hm : 1 ≤ m) (hm20 : m ≤ 20) (hk : 2 ≤ k)
    (hfits : m.ascFactorial k < 2^31) (h : m.ascFactorial k = m.descFactorial j) :
    m = 7 ∧ k = 4 := by
  have hj : j ≤ m := by
    rw [← Nat.descFactorial_pos,← h]
    exact ascFactorial_le hm (Nat.zero_le k)
  have hk13 := lt_of_ascFactorial_lt hm hfits
  have hall : ((List.range' 1 20).all fun m => (List.range' 2 11).all fun k =>
      (List.range 21).all fun j =>
        m.ascFactorial k != m.descFactorial j || (m == 7 && k == 4)) = true := by decide +kernel
  simp only [List.all_eq_true,List.mem_range'_1,List.mem_range,Bool.or_eq_true,bne_iff_ne,
    Bool.and_eq_true,beq_iff_eq] at hall
  exact (hall m (by omega) k (by omega) j (by omega)).resolve_left fun hne => hne h

theorem firstLevel_one (hn : threads ≤ n-1) : FirstLevel n threads 1 :=
  ⟨le_rfl,by rwa [Nat.descFactorial_one],fun i h1 hi => absurd h1 (by omega)⟩

/-- With eight towns and more than `7·6·5·4·3` threads the level is the one six towns from home. -/
theorem firstLevel_six (hlt : 2520 < threads) (hle : threads ≤ 5040) : FirstLevel 8 threads 6 := by
  refine ⟨by omega,hle,fun i _ hi => ?_⟩
  have hmono : ∀ i < 6, (7 : ℕ).descFactorial i ≤ 2520 := by decide
  exact (hmono i hi).trans_lt hlt

theorem lt_of_firstLevel (hk : FirstLevel 8 threads k) (hsize : (8-1 : ℕ).descFactorial k = 5040) :
    2520 < threads := by
  by_contra hle
  have hk5 : k ≤ 5 := by
    by_contra h5
    have h := hk.first 5 (by omega) (by omega)
    exact hle (lt_of_le_of_lt (by decide) h)
  have hmono : ∀ i < 6, (7 : ℕ).descFactorial i ≤ 2520 := by decide
  exact absurd (hsize.symm.le.trans (hmono k (by omega))) (by omega)

end Levels

section Main
variable {n threads : ℕ}

/-- A size that comes out without overflow is a product of the factors of the loop, or zero where
that product exceeds the factorial. -/
theorem size_eq {fuel : ℕ} {size : ℤ} (hn : 2 ≤ n) (hn21 : n ≤ 21)
    (hin : GrowsInRange threads fuel ((n : ℤ)-1) ((n : ℤ)-1))
    (h : Get_upper_bd_queue_sz n threads fuel = .ok size) :
    ∃ k, 0 < k ∧ threads ≤ (n-1).ascFactorial k ∧
      size = (if (n-1).factorial < (n-1).ascFactorial k then 0 else (n-1).ascFactorial k : ℕ) ∧
      (1 < k → (n-1).ascFactorial (k-1) < threads ∧ (n-1).ascFactorial k < 2^31) := by
  have hstart : ((n : ℤ)-1) = ((n-1 : ℕ) : ℤ)+(0 : ℕ) := by omega
  have hone : ((n : ℤ)-1) = ((n-1).ascFactorial (0+1) : ℕ) := by
    rw [zero_add,Nat.ascFactorial_succ,Nat.ascFactorial_zero]
    omega
  rw [Get_upper_bd_queue_sz] at h
  cases hg : growSize threads fuel ((n : ℤ)-1) ((n : ℤ)-1) with
  | error e => rw [hg] at h; cases h
  | ok grown =>
    rw [hg] at h
    obtain rfl : (if Fact (n-1) < grown then 0 else grown) = size := Except.ok.inj h
    nth_rewrite 1 [hstart] at hin hg
    rw [hone] at hin hg
    obtain ⟨k,hk,rfl,henough,hfirst⟩ := growSize_eq (by omega) hin hg
    refine ⟨k,hk,henough,?_,fun h1 => hfirst (by omega)⟩
    rw [Fact_eq_factorial (by omega)]
    split_ifs <;> omega

theorem Get_upper_bd_queue_sz_ends {k : ℕ} (hn : 2 ≤ n) (hk : 0 < k)
    (henough : threads ≤ (n-1).ascFactorial k) (hfits : (n-1).ascFactorial k < 2^31) :
    ∃ fuel, ∃ size : ℤ, Get_upper_bd_queue_sz n threads fuel = .ok size ∧
      GrowsInRange threads fuel ((n : ℤ)-1) ((n : ℤ)-1) := by
  have hstart : ((n-1 : ℕ) : ℤ)+(0 : ℕ) = (n : ℤ)-1 := by omega
  have hone : ((n-1).ascFactorial (0+1) : ℕ) = (n : ℤ)-1 := by
    rw [zero_add,Nat.ascFactorial_succ,Nat.ascFactorial_zero]
    omega
  obtain ⟨fuel,grown,hrun,hin⟩ := growSize_ends (m := n-1) (p := 0) (by omega) hk henough hfits
  rw [hstart,hone] at hrun hin
  refine ⟨fuel,if Fact (n-1) < grown then 0 else grown,?_,hin⟩
  rw [Get_upper_bd_queue_sz,hrun]
  rfl

theorem ascFactorial_one (m : ℕ) : m.ascFactorial 1 = m := by
  rw [Nat.ascFactorial_succ,Nat.ascFactorial_zero,mul_one,Nat.add_zero]

theorem SizeFits.exists_fits (h : SizeFits n threads) :
    ∃ k, 0 < k ∧ threads ≤ (n-1).ascFactorial k ∧ (n-1).ascFactorial k < 2^31 := by
  have hle := h.le
  obtain hn | ⟨hlt,k,henough,hfits⟩ | ⟨rfl,hlt,hle⟩ := h.threads
  · rw [← ascFactorial_one (n-1)] at hn
    refine ⟨1,one_pos,hn,?_⟩
    rw [ascFactorial_one]
    omega
  · refine ⟨k,Nat.pos_of_ne_zero fun hk => ?_,henough,hfits⟩
    rw [hk,Nat.ascFactorial_zero] at henough
    have := Nat.factorial_pos (n-1)
    omega
  · exact ⟨4,by decide,hle,by decide⟩

theorem queueSized_of_sizeFits (h : SizeFits n threads) : QueueSized n threads := by
  have hn := h.two_le
  obtain ⟨k₀,hk₀,henough₀,hfits₀⟩ := h.exists_fits
  obtain ⟨fuel,size,hget,hin⟩ := Get_upper_bd_queue_sz_ends hn hk₀ henough₀ hfits₀
  obtain ⟨k,hk,henough,rfl,hfirst⟩ := size_eq hn h.le hin hget
  have hrange : FactInRange (n-1) := factInRange_iff.mpr (by have := h.le; omega)
  -- an earlier product would have been enough as well
  have hle {i : ℕ} (hi : 0 < i) (hthreads : threads ≤ (n-1).ascFactorial i) : k ≤ i := by
    by_contra hik
    have := (hfirst (by omega)).1
    have := ascFactorial_le (m := n-1) (by omega) (show i ≤ k-1 by omega)
    omega
  refine ⟨fuel,_,hget,hin,hrange,?_⟩
  obtain hsmall | ⟨hlt,-⟩ | ⟨rfl,hlt,hle5040⟩ := h.threads
  · obtain rfl : k = 1 := by
      have := hle one_pos (by rwa [ascFactorial_one])
      omega
    have hself := Nat.self_le_factorial (n-1)
    rw [ascFactorial_one,if_neg (by omega)]
    refine ⟨by omega,fun _ => ⟨1,firstLevel_one hsmall,?_⟩⟩
    rw [Nat.descFactorial_one]
  · rw [if_pos (by omega)]
    exact ⟨⟨fun _ => hlt,fun _ => rfl⟩,fun h => absurd h (by omega)⟩
  · obtain rfl : k = 4 := by
      have hk4 := hle (by decide) (show threads ≤ (8-1 : ℕ).ascFactorial 4 from hle5040)
      by_contra hk
      have hmono := henough.trans (ascFactorial_le (m := 8-1) (by decide) (show k ≤ 3 by omega))
      have : (8-1 : ℕ).ascFactorial 3 = 504 := by decide
      omega
    refine ⟨⟨fun h => absurd h (by decide),fun h => ?_⟩,fun _ => ⟨6,firstLevel_six hlt hle5040,rfl⟩⟩
    exact absurd h (not_lt.mpr hle5040)

theorem not_queueSized_one : ¬ QueueSized 1 threads := by
  rintro ⟨fuel,size,hget,-,-,hzero,-⟩
  have hone : ((1 : ℕ) : ℤ)-1 = 0 := rfl
  rw [Get_upper_bd_queue_sz,hone] at hget
  cases hg : growSize threads fuel 0 0 with
  | error e => rw [hg] at hget; cases hget
  | ok grown =>
    rw [hg] at hget
    have hthreads : threads = 0 := by
      by_contra hpos
      exact growSize_zero (by omega) hg
    obtain rfl : grown = 0 := by
      cases fuel with
      | zero => cases hg
      | succ fuel =>
        rw [growSize,if_neg (by omega)] at hg
        exact (Except.ok.inj hg).symm
    have hsize : (if Fact 0 < 0 then 0 else 0) = (size : ℤ) := Except.ok.inj hget
    have := hzero.mp (by split_ifs at hsize <;> omega)
    omega

theorem sizeFits_of_queueSized (hn : 1 ≤ n) (h : QueueSized n threads) : SizeFits n threads := by
  obtain ⟨fuel,size,hget,hin,hrange,hzero,hlevel⟩ := h
  have hn21 : n ≤ 21 := by
    have := factInRange_iff.mp hrange
    omega
  have hn2 : 2 ≤ n := by
    by_contra hn2
    obtain rfl : n = 1 := by omega
    exact not_queueSized_one ⟨fuel,size,hget,hin,hrange,hzero,hlevel⟩
  obtain ⟨k,hk,henough,hsize,hfirst⟩ := size_eq hn2 hn21 hin hget
  refine ⟨hn2,hn21,?_⟩
  by_cases hsmall : threads ≤ n-1
  · exact .inl hsmall
  · have hk1 : 1 < k := by
      by_contra hk1
      obtain rfl : k = 1 := by omega
      rw [ascFactorial_one] at henough
      exact hsmall henough
    by_cases hlt : (n-1).factorial < threads
    · exact .inr (.inl ⟨hlt,k,henough,(hfirst hk1).2⟩)
    · obtain ⟨j,hj,hsizej⟩ := hlevel (not_lt.mp hlt)
      have hne : size ≠ 0 := fun h => hlt (hzero.mp h)
      have heq : size = (n-1).ascFactorial k := by
        split_ifs at hsize <;> omega
      have hcoincide := eq_of_ascFactorial_eq (by omega) (by omega) hk1 (hfirst hk1).2
        (heq.symm.trans hsizej)
      obtain rfl : n = 8 := by omega
      obtain rfl : k = 4 := hcoincide.2
      exact .inr (.inr ⟨rfl,lt_of_firstLevel hj (hsizej.symm.trans heq),henough⟩)

/-- The queue has the size of the first level with a tour for each thread exactly where the factors
of the loop make no difference. -/
theorem queueSized_iff (hn : 1 ≤ n) : QueueSized n threads ↔ SizeFits n threads :=
  ⟨sizeFits_of_queueSized hn,queueSized_of_sizeFits⟩

theorem queueSized_iff_five : QueueSized 5 4 ↔ SizeFits 5 4 := queueSized_iff (by decide)

/-- Four threads for four towns: there are six tours, and `3·4` is taken to be too many. -/
theorem queue_too_small : (4 : ℕ) ≤ (4-1 : ℕ).factorial ∧ Get_upper_bd_queue_sz 4 4 2 = .ok 0 ∧
    ¬ QueueSized 4 4 := by
  refine ⟨by decide,rfl,?_⟩
  rintro ⟨fuel,size,hget,-,-,hzero,-⟩
  have hsize : size = 0 := by
    obtain _ | _ | fuel := fuel
    · cases hget
    · cases hget
    · exact Nat.cast_injective (Except.ok.inj hget).symm
  exact absurd (hzero.mp hsize) (by decide)

end Main

end PucRio.Tsp
