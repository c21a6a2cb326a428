import Mathlib.Data.List.Nodup
import Mathlib.Data.List.Perm.Basic
import Mathlib.Data.List.Range
import Mathlib.Logic.Equiv.Basic
import Mathlib.Order.Lattice

/-! A priority queue in a binary heap, as the one of the Java library. A value that is removed from
the middle leaves a hole, into which the last value sinks, or from which it rises. Since the value
in the hole is not compared again, its key may have changed before. -/
namespace PucRio.BinaryHeap
variable {α R : Type*} [LinearOrder R]

def parent (k : ℕ) : ℕ := (k-1)/2

section Sift
variable (key : α → R)

/-- Up from a hole. -/
def siftUp (es : ℕ → α) (k : ℕ) (x : α) : ℕ → α :=
  if k = 0 then Function.update es k x
  else if key (es (parent k)) ≤ key x then Function.update es k x
  else siftUp (Function.update es k (es (parent k))) (parent k) x
termination_by k
decreasing_by
  unfold parent
  omega

/-- The child with the lesser key, the left one of two equal ones. -/
def lesserChild (es : ℕ → α) (k n : ℕ) : ℕ :=
  if 2*k+2 < n ∧ key (es (2*k+2)) < key (es (2*k+1)) then 2*k+2 else 2*k+1

/-- Down from a hole, with so many values. -/
def siftDown (es : ℕ → α) (k : ℕ) (x : α) (n : ℕ) : ℕ → α :=
  if k < n/2 then
    if key x ≤ key (es (lesserChild key es k n)) then Function.update es k x
    else siftDown (Function.update es k (es (lesserChild key es k n))) (lesserChild key es k n) x n
  else Function.update es k x
termination_by n-k
decreasing_by
  unfold lesserChild
  split_ifs <;> omega

end Sift

/-- The values of the queue are the first ones of `queue`. -/
structure PriorityQueue (α : Type*) where
  queue : ℕ → α
  size : ℕ

namespace PriorityQueue

def toList (q : PriorityQueue α) : List α := (List.range q.size).map q.queue

section Operations
variable (key : α → R) (q : PriorityQueue α)

def offer (x : α) : PriorityQueue α := ⟨siftUp key q.queue q.size x,q.size+1⟩

/-- The head, and the queue without it. -/
def poll : Option (α × PriorityQueue α) :=
  if q.size = 0 then none
  else if q.size = 1 then some (q.queue 0,⟨q.queue,0⟩)
  else some (q.queue 0,⟨siftDown key q.queue 0 (q.queue (q.size-1)) (q.size-1),q.size-1⟩)

def removeAt [DecidableEq α] (i : ℕ) : PriorityQueue α :=
  let s := q.size-1
  if s = i then ⟨q.queue,s⟩
  else
    let moved := q.queue s
    let es := siftDown key q.queue i moved s
    if es i = moved then ⟨siftUp key es i moved,s⟩ else ⟨es,s⟩

/-- Remove the first value with a property. -/
def remove [DecidableEq α] (p : α → Bool) : PriorityQueue α :=
  ((List.range q.size).find? fun i => p (q.queue i)).elim q (q.removeAt key)

end Operations

end PriorityQueue

variable {key : α → R} {es : ℕ → α} {n k i c : ℕ} {x : α}

/-- No value has a lesser key than its parent. -/
def Ordered (key : α → R) (es : ℕ → α) (n : ℕ) : Prop :=
  ∀ i, 0 < i → i < n → key (es (parent i)) ≤ key (es i)

/-- So do values that are not next to the hole, and those on its two sides. -/
structure Around (key : α → R) (es : ℕ → α) (n hole : ℕ) : Prop where
  except : ∀ i, 0 < i → i < n → i ≠ hole → parent i ≠ hole → key (es (parent i)) ≤ key (es i)
  across : hole ≠ 0 → ∀ i, 0 < i → i < n → parent i = hole → key (es (parent hole)) ≤ key (es i)

theorem parent_lt (h : 0 < k) : parent k < k := by
  unfold parent
  omega

theorem Ordered.head_le (h : Ordered key es n) (hi : i < n) : key (es 0) ≤ key (es i) := by
  induction i using Nat.strongRecOn with
  | ind i ih =>
    obtain rfl | hpos := Nat.eq_zero_or_pos i
    · exact le_rfl
    · have hlt := parent_lt hpos
      exact (ih (parent i) hlt (hlt.trans hi)).trans (h i hpos hi)

theorem Ordered.around (h : Ordered key es n) (hk : k < n) : Around key es n k where
  except i hpos hi _ _ := h i hpos hi
  across hne i hpos hi hparent := by
    refine (h k (Nat.pos_of_ne_zero hne) hk).trans ?_
    exact hparent ▸ h i hpos hi

/-- A value comes into the hole. -/
theorem Around.ordered (h : Around key es n k)
    (habove : k ≠ 0 → key (es (parent k)) ≤ key x)
    (hbelow : ∀ i, 0 < i → i < n → parent i = k → key x ≤ key (es i)) :
    Ordered key (Function.update es k x) n := by
  intro i hpos hi
  by_cases hik : i = k
  · subst hik
    rw [Function.update_self,Function.update_of_ne (parent_lt hpos).ne]
    exact habove hpos.ne'
  rw [Function.update_of_ne hik]
  by_cases hparent : parent i = k
  · rw [hparent,Function.update_self]
    exact hbelow i hpos hi hparent
  · rw [Function.update_of_ne hparent]
    exact h.except i hpos hi hik hparent

/-- What is in the hole does not matter. -/
theorem Around.congr {es' : ℕ → α} (h : Around key es n k) (heq : ∀ i, i ≠ k → es' i = es i) :
    Around key es' n k where
  except i hpos hi hne hparent := by
    rw [heq i hne,heq _ hparent]
    exact h.except i hpos hi hne hparent
  across hne i hpos hi hparent := by
    have hki : k < i := hparent ▸ parent_lt hpos
    rw [heq i hki.ne',heq _ (parent_lt (Nat.pos_of_ne_zero hne)).ne]
    exact h.across hne i hpos hi hparent

/-- Nor does its key. -/
theorem Around.congr_key {key' : α → R} (h : Around key es n k) (hk : k < n)
    (heq : ∀ i < n, i ≠ k → key' (es i) = key (es i)) : Around key' es n k where
  except i hpos hi hne hparent := by
    rw [heq i hi hne,heq _ ((parent_lt hpos).trans hi) hparent]
    exact h.except i hpos hi hne hparent
  across hne i hpos hi hparent := by
    have hlt := parent_lt (Nat.pos_of_ne_zero hne)
    have hki : k < i := hparent ▸ parent_lt hpos
    rw [heq i hi hki.ne',heq _ (hlt.trans hk) hlt.ne]
    exact h.across hne i hpos hi hparent

theorem Around.mono {m : ℕ} (h : Around key es n k) (hm : m ≤ n) : Around key es m k where
  except i hpos hi := h.except i hpos (hi.trans_le hm)
  across hne i hpos hi := h.across hne i hpos (hi.trans_le hm)

/-- The hole goes up. -/
theorem Around.up (h : Around key es n k) (hk : k < n) (hpos : 0 < k) :
    Around key (Function.update es k (es (parent k))) n (parent k) where
  except i hi hin hne hparent := by
    have hik : i ≠ k := by
      rintro rfl
      exact hparent rfl
    rw [Function.update_of_ne hik]
    by_cases hunder : parent i = k
    · rw [hunder,Function.update_self]
      exact h.across hpos.ne' i hi hin hunder
    · rw [Function.update_of_ne hunder]
      exact h.except i hi hin hik hunder
  across hne i hi hin hparent := by
    have hlt := parent_lt hpos
    have hlt' := parent_lt (Nat.pos_of_ne_zero hne)
    have hup := h.except (parent k) (Nat.pos_of_ne_zero hne) (hlt.trans hk) hlt.ne
      (hlt'.trans hlt).ne
    rw [Function.update_of_ne (hlt'.trans hlt).ne]
    by_cases hik : i = k
    · rw [hik,Function.update_self]
      exact hup
    · rw [Function.update_of_ne hik]
      have hle := h.except i hi hin hik (hparent.trans_ne hlt.ne)
      rw [hparent] at hle
      exact hup.trans hle

/-- The hole goes down to the lesser child. -/
theorem Around.down (h : Around key es n k) (hc : c < n) (hpos : 0 < c) (hparent : parent c = k)
    (hmin : ∀ i, 0 < i → i < n → parent i = k → key (es c) ≤ key (es i)) :
    Around key (Function.update es k (es c)) n c where
  except i hi hin hne hunder := by
    by_cases hik : i = k
    · subst hik
      rw [Function.update_self,Function.update_of_ne (parent_lt hi).ne]
      exact h.across hi.ne' c hpos hc hparent
    rw [Function.update_of_ne hik]
    by_cases hunder' : parent i = k
    · rw [hunder',Function.update_self]
      exact hmin i hi hin hunder'
    · rw [Function.update_of_ne hunder']
      exact h.except i hi hin hik hunder'
  across hne i hi hin hunder := by
    have hkc : k < c := hparent ▸ parent_lt hpos
    have hci : c < i := hunder ▸ parent_lt hi
    rw [hparent,Function.update_self,Function.update_of_ne (hkc.trans hci).ne']
    have hle := h.except i hi hin (hkc.trans hci).ne' (hunder.trans_ne hkc.ne')
    rwa [hunder] at hle

theorem siftUp_ordered (h : Around key es n k) (hk : k < n)
    (hbelow : ∀ i, 0 < i → i < n → parent i = k → key x ≤ key (es i)) :
    Ordered key (siftUp key es k x) n := by
  induction es, k using siftUp.induct key x with
  | case1 es =>
    rw [siftUp,if_pos rfl]
    exact h.ordered (fun h => absurd rfl h) hbelow
  | case2 es k hne hle =>
    rw [siftUp,if_neg hne,if_pos hle]
    exact h.ordered (fun _ => hle) hbelow
  | case3 es k hne hle ih =>
    rw [siftUp,if_neg hne,if_neg hle]
    have hpos := Nat.pos_of_ne_zero hne
    have hlt := parent_lt hpos
    refine ih (h.up hk hpos) (hlt.trans hk) fun i hi hin hparent => ?_
    by_cases hik : i = k
    · rw [hik,Function.update_self]
      exact (not_le.mp hle).le
    · rw [Function.update_of_ne hik]
      have hup := h.except i hi hin hik (hparent.trans_ne hlt.ne)
      rw [hparent] at hup
      exact (not_le.mp hle).le.trans hup

theorem lesserChild_spec (key : α → R) (es : ℕ → α) (h : k < n/2) :
    (lesserChild key es k n < n ∧ k < lesserChild key es k n) ∧
      parent (lesserChild key es k n) = k ∧
      ∀ i, 0 < i → i < n → parent i = k → key (es (lesserChild key es k n)) ≤ key (es i) := by
  unfold lesserChild parent
  split_ifs with hright
  · refine ⟨by omega,by omega,fun i hpos hi hparent => ?_⟩
    obtain rfl | rfl : i = 2*k+1 ∨ i = 2*k+2 := by omega
    · exact hright.2.le
    · exact le_rfl
  · refine ⟨by omega,by omega,fun i hpos hi hparent => ?_⟩
    obtain rfl | rfl : i = 2*k+1 ∨ i = 2*k+2 := by omega
    · exact le_rfl
    · exact not_lt.mp fun hlt => hright ⟨hi,hlt⟩

theorem parent_ne (h : ¬k < n/2) (hi : i < n) (hpos : 0 < i) : parent i ≠ k := by
  unfold parent
  omega

theorem siftDown_ordered (h : Around key es n k)
    (habove : k ≠ 0 → key (es (parent k)) ≤ key x) : Ordered key (siftDown key es k x n) n := by
  induction es, k using siftDown.induct key x n with
  | case1 es k hk hle =>
    rw [siftDown,if_pos hk,if_pos hle]
    refine h.ordered habove fun i hpos hi hparent => hle.trans ?_
    exact (lesserChild_spec key es hk).2.2 i hpos hi hparent
  | case2 es k hk hle ih =>
    rw [siftDown,if_pos hk,if_neg hle]
    obtain ⟨⟨hlt,hgt⟩,hparent,hmin⟩ := lesserChild_spec key es hk
    refine ih (h.down hlt (Nat.zero_lt_of_lt hgt) hparent hmin) fun _ => ?_
    rw [hparent,Function.update_self]
    exact (not_le.mp hle).le
  | case3 es k hk =>
    rw [siftDown,if_neg hk]
    exact h.ordered habove fun i hpos hi hparent => absurd hparent (parent_ne hk hi hpos)

/-- What is over the hole stays. -/
theorem siftDown_of_lt (h : i < k) : siftDown key es k x n i = es i := by
  induction es, k using siftDown.induct key x n with
  | case1 es k hk hle =>
    rw [siftDown,if_pos hk,if_pos hle,Function.update_of_ne h.ne]
  | case2 es k hk hle ih =>
    obtain ⟨⟨-,hgt⟩,-⟩ := lesserChild_spec key es hk
    rw [siftDown,if_pos hk,if_neg hle,ih (h.trans hgt),Function.update_of_ne h.ne]
  | case3 es k hk =>
    rw [siftDown,if_neg hk,Function.update_of_ne h.ne]

/-- A value sinks into the hole, or it rises from there. -/
theorem sift_ordered [DecidableEq α] (h : Around key es n k) (hk : k < n) (x : α) :
    Ordered key (if siftDown key es k x n k = x then siftUp key (siftDown key es k x n) k x
      else siftDown key es k x n) n := by
  by_cases hsink : k < n/2 ∧ ¬key x ≤ key (es (lesserChild key es k n))
  · obtain ⟨⟨hlt,hgt⟩,hparent,hmin⟩ := lesserChild_spec key es hsink.1
    rw [siftDown,if_pos hsink.1,if_neg hsink.2,siftDown_of_lt hgt,
      Function.update_self,if_neg fun heq => hsink.2 (congrArg key heq).ge]
    refine siftDown_ordered (h.down hlt (Nat.zero_lt_of_lt hgt) hparent hmin) fun _ => ?_
    rw [hparent,Function.update_self]
    exact (not_le.mp hsink.2).le
  · have hstay : siftDown key es k x n = Function.update es k x := by
      rw [siftDown]
      split_ifs with hhalf hle
      · rfl
      · exact absurd ⟨hhalf,hle⟩ hsink
      · rfl
    have hbelow (i : ℕ) (hpos : 0 < i) (hi : i < n) (hparent : parent i = k) :
        key x ≤ key (es i) := by
      by_cases hhalf : k < n/2
      · obtain ⟨-,-,hmin⟩ := lesserChild_spec key es hhalf
        have hle := not_not.mp fun hle => hsink ⟨hhalf,hle⟩
        exact hle.trans (hmin i hpos hi hparent)
      · exact absurd hparent (parent_ne hhalf hi hpos)
    rw [hstay,Function.update_self,if_pos rfl]
    refine siftUp_ordered (h.congr fun i hi => ?_) hk fun i hpos hi hparent => ?_
    · exact Function.update_of_ne hi ..
    · have hne : i ≠ k := by
        rintro rfl
        exact (parent_lt hpos).ne hparent
      rw [Function.update_of_ne hne]
      exact hbelow i hpos hi hparent

section Contents

theorem update_update_swap (es : ℕ → α) (k c : ℕ) (x : α) :
    Function.update (Function.update es k (es c)) c x =
      Function.update es k x ∘ Equiv.swap k c := by
  funext i
  by_cases hc : i = c
  · subst hc
    rw [Function.update_self,Function.comp_apply,Equiv.swap_apply_right,Function.update_self]
  rw [Function.update_of_ne hc]
  by_cases hk : i = k
  · subst hk
    rw [Function.update_self,Function.comp_apply,Equiv.swap_apply_left,
      Function.update_of_ne (Ne.symm hc)]
  · rw [Function.update_of_ne hk,Function.comp_apply,Equiv.swap_apply_of_ne_of_ne hk hc,
      Function.update_of_ne hk]

/-- A move of the hole does not change what there is. -/
theorem map_update_perm (es : ℕ → α) (hk : k < n) (hc : c < n) (x : α) :
    ((List.range n).map (Function.update (Function.update es k (es c)) c x)).Perm
      ((List.range n).map (Function.update es k x)) := by
  rw [update_update_swap,← List.map_map]
  refine List.Perm.map _ ((List.perm_ext_iff_of_nodup ?_ List.nodup_range).mpr fun i => ?_)
  · exact List.Nodup.map (Equiv.swap k c).injective List.nodup_range
  · rw [List.mem_map]
    constructor
    · rintro ⟨j,hj,rfl⟩
      rw [List.mem_range] at hj ⊢
      rw [Equiv.swap_apply_def]
      split_ifs <;> assumption
    · intro hi
      refine ⟨Equiv.swap k c i,?_,Equiv.swap_apply_self ..⟩
      rw [List.mem_range] at hi ⊢
      rw [Equiv.swap_apply_def]
      split_ifs <;> assumption

theorem siftUp_perm (hk : k < n) : ((List.range n).map (siftUp key es k x)).Perm
    ((List.range n).map (Function.update es k x)) := by
  induction es, k using siftUp.induct key x with
  | case1 es => rw [siftUp,if_pos rfl]
  | case2 es k hne hle => rw [siftUp,if_neg hne,if_pos hle]
  | case3 es k hne hle ih =>
    rw [siftUp,if_neg hne,if_neg hle]
    have hlt := (parent_lt (Nat.pos_of_ne_zero hne)).trans hk
    exact (ih hlt).trans (map_update_perm es hk hlt x)

theorem siftDown_perm (hk : k < n) : ((List.range n).map (siftDown key es k x n)).Perm
    ((List.range n).map (Function.update es k x)) := by
  induction es, k using siftDown.induct key x n with
  | case1 es k hhalf hle => rw [siftDown,if_pos hhalf,if_pos hle]
  | case2 es k hhalf hle ih =>
    rw [siftDown,if_pos hhalf,if_neg hle]
    obtain ⟨⟨hlt,-⟩,-⟩ := lesserChild_spec key es hhalf
    exact (ih hlt).trans (map_update_perm es hk hlt x)
  | case3 es k hhalf => rw [siftDown,if_neg hhalf]

theorem sift_perm [DecidableEq α] (key : α → R) (es : ℕ → α) (hk : k < n) (x : α) :
    ((List.range n).map (if siftDown key es k x n k = x then siftUp key (siftDown key es k x n) k x
      else siftDown key es k x n)).Perm ((List.range n).map (Function.update es k x)) := by
  split_ifs with hstay
  · have hsame := Function.update_eq_self k (siftDown key es k x n)
    rw [hstay] at hsame
    refine (siftUp_perm hk).trans ?_
    rw [hsame]
    exact siftDown_perm hk
  · exact siftDown_perm hk

theorem map_update_last (es : ℕ → α) (n : ℕ) (x : α) :
    (List.range (n+1)).map (Function.update es n x) = (List.range n).map es++[x] := by
  rw [List.range_succ,List.map_append,List.map_singleton,Function.update_self]
  congr 1
  refine List.map_congr_left fun i hi => Function.update_of_ne ?_ ..
  exact (List.mem_range.mp hi).ne

/-- The last value comes into the hole. -/
theorem map_hole_perm (es : ℕ → α) (hi : i < n) : ((List.range (n+1)).map es).Perm
    (es i::(List.range n).map (Function.update es i (es n))) := by
  have hperm := map_update_perm es (hi.trans n.lt_succ_self) n.lt_succ_self (es i)
  rw [map_update_last,Function.update_eq_self] at hperm
  exact hperm.symm.trans List.perm_append_comm

end Contents

namespace PriorityQueue
variable {q : PriorityQueue α}

theorem length_toList (q : PriorityQueue α) : q.toList.length = q.size := by
  rw [toList,List.length_map,List.length_range]

theorem mem_toList : x ∈ q.toList ↔ ∃ i < q.size, q.queue i = x := by
  simp only [toList,List.mem_map,List.mem_range]

theorem offer_perm (q : PriorityQueue α) (x : α) : (q.offer key x).toList.Perm (q.toList++[x]) := by
  rw [toList,toList,← map_update_last]
  exact siftUp_perm q.size.lt_succ_self

theorem offer_ordered (h : Ordered key q.queue q.size) (x : α) :
    Ordered key (q.offer key x).queue (q.offer key x).size := by
  refine siftUp_ordered ⟨fun i hpos hi hne _ => ?_,fun _ i hpos hi hparent => ?_⟩
    q.size.lt_succ_self fun i hpos hi hparent => ?_
  · exact h i hpos (lt_of_le_of_ne (Nat.le_of_lt_succ hi) hne)
  · exact absurd (hparent ▸ parent_lt hpos) (Nat.le_of_lt_succ hi).not_gt
  · exact absurd (hparent ▸ parent_lt hpos) (Nat.le_of_lt_succ hi).not_gt

/-- The head has the least key. -/
theorem poll_spec (h : Ordered key q.queue q.size) (hsize : q.size ≠ 0) :
    ∃ x q', q.poll key = some (x,q') ∧ q.toList.Perm (x::q'.toList) ∧
      (∀ y ∈ q.toList, key x ≤ key y) ∧ Ordered key q'.queue q'.size := by
  have hmin (y : α) (hy : y ∈ q.toList) : key (q.queue 0) ≤ key y := by
    obtain ⟨i,hi,rfl⟩ := mem_toList.mp hy
    exact h.head_le hi
  obtain ⟨n,hn⟩ := Nat.exists_eq_succ_of_ne_zero hsize
  rw [poll,if_neg hsize]
  by_cases hone : q.size = 1
  · rw [if_pos hone]
    refine ⟨_,_,rfl,?_,hmin,fun i _ hi => absurd hi i.not_lt_zero⟩
    rw [toList,hone]
    exact .refl _
  · have hpos : 0 < n := by omega
    rw [if_neg hone,hn,Nat.succ_sub_one]
    refine ⟨_,_,rfl,?_,hmin,?_⟩
    · rw [toList,hn]
      exact (map_hole_perm q.queue hpos).trans (.cons _ (siftDown_perm hpos).symm)
    · refine siftDown_ordered (((h.around ?_).mono ?_)) fun hne => absurd rfl hne
      · exact Nat.pos_of_ne_zero hsize
      · exact hn ▸ n.le_succ

/-- The value in the hole is removed. -/
theorem removeAt_spec [DecidableEq α] (h : Around key q.queue q.size i) (hi : i < q.size) :
    q.toList.Perm (q.queue i::(q.removeAt key i).toList) ∧
      Ordered key (q.removeAt key i).queue (q.removeAt key i).size := by
  obtain ⟨n,hn⟩ := Nat.exists_eq_add_one.mpr (Nat.zero_lt_of_lt hi)
  rw [removeAt,hn,Nat.add_sub_cancel]
  dsimp only
  by_cases hlast : n = i
  · rw [if_pos hlast]
    subst hlast
    refine ⟨?_,fun j hpos hj => ?_⟩
    · rw [toList,hn,List.range_succ,List.map_append]
      exact List.perm_append_comm
    · have hlt : j < n := hj
      exact h.except j hpos (hlt.trans hi) hlt.ne ((parent_lt hpos).trans hlt).ne
  · have hlt : i < n := by omega
    have hordered := sift_ordered (h.mono (hn ▸ n.le_succ)) hlt (q.queue n)
    rw [if_neg hlast]
    have hperm := sift_perm key q.queue hlt (q.queue n)
    split_ifs at hordered hperm ⊢ with hstay
    all_goals
      refine ⟨?_,hordered⟩
      rw [toList,hn]
      exact (map_hole_perm q.queue hlt).trans (.cons _ hperm.symm)

/-- The first value with a property is removed, whose key may have changed. -/
theorem remove_spec [DecidableEq α] {key' : α → R} {p : α → Bool}
    (h : Ordered key q.queue q.size) (hp : ∃ x ∈ q.toList, p x = true)
    (hkey : ∀ x, p x = false → key' x = key x)
    (huniq : ∀ i < q.size, ∀ j < q.size, p (q.queue i) = true → p (q.queue j) = true → i = j) :
    ∃ x, p x = true ∧ q.toList.Perm (x::(q.remove key' p).toList) ∧
      Ordered key' (q.remove key' p).queue (q.remove key' p).size := by
  cases hfind : (List.range q.size).find? fun i => p (q.queue i) with
  | none =>
    obtain ⟨x,hx,hpx⟩ := hp
    obtain ⟨i,hi,rfl⟩ := mem_toList.mp hx
    exact absurd hpx (List.find?_eq_none.mp hfind i (List.mem_range.mpr hi))
  | some i =>
    have hpi : p (q.queue i) = true := List.find?_some (p := fun i => p (q.queue i)) hfind
    have hi := List.mem_range.mp (List.mem_of_find?_eq_some hfind)
    have haround : Around key' q.queue q.size i :=
      (h.around hi).congr_key hi fun j hj hne => hkey _ <| by
        by_contra hpj
        exact hne (huniq j hj i hi (eq_true_of_ne_false hpj) hpi)
    rw [remove,hfind,Option.elim_some]
    exact ⟨_,hpi,removeAt_spec haround hi⟩

end PriorityQueue

end PucRio.BinaryHeap
