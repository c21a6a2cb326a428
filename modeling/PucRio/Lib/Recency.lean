import Mathlib.Algebra.Order.Ring.Int
import Mathlib.Data.List.Nodup
import Mathlib.Data.List.Perm.Basic

/-! Least recently used: the cache as a list of keys, the most recent one first, and a table that
keeps the recency of its keys as time stamps instead. -/
namespace PucRio.Recency
variable {α : Type*}

/-- `recent` has the resident keys, the least recently used one last. -/
structure Cache (α : Type*) where
  recent : List α
  faults : ℕ
  deriving DecidableEq

def Cache.empty : Cache α := ⟨[],0⟩

section
variable [DecidableEq α]

/-- An access to a cache with room for `capacity` keys. -/
def Cache.access (capacity : ℕ) (cache : Cache α) (a : α) : Cache α :=
  if a ∈ cache.recent then ⟨a::cache.recent.erase a,cache.faults⟩
  else if cache.recent.length < capacity then ⟨a::cache.recent,cache.faults+1⟩
  else ⟨a::cache.recent.dropLast,cache.faults+1⟩

/-- The cache after a trace of accesses. -/
def lru (capacity : ℕ) (trace : List α) : Cache α :=
  trace.foldl (Cache.access capacity) Cache.empty

theorem Cache.access_hit {cache : Cache α} {a : α} (capacity : ℕ) (h : a ∈ cache.recent) :
    cache.access capacity a = ⟨a::cache.recent.erase a,cache.faults⟩ :=
  if_pos h

theorem Cache.access_add {capacity : ℕ} {cache : Cache α} {a : α} (h : a ∉ cache.recent)
    (hroom : cache.recent.length < capacity) :
    cache.access capacity a = ⟨a::cache.recent,cache.faults+1⟩ := by
  rw [Cache.access,if_neg h,if_pos hroom]

theorem Cache.access_replace {capacity : ℕ} {cache : Cache α} {a : α} (h : a ∉ cache.recent)
    (hroom : ¬cache.recent.length < capacity) :
    cache.access capacity a = ⟨a::cache.recent.dropLast,cache.faults+1⟩ := by
  rw [Cache.access,if_neg h,if_neg hroom]

theorem lru_append (capacity : ℕ) (trace : List α) (a : α) :
    lru capacity (trace++[a]) = (lru capacity trace).access capacity a := by
  rw [lru,List.foldl_append]
  rfl

/-- An access to the most recent key changes nothing. -/
theorem foldl_access_replicate (capacity : ℕ) (a : α) (l : List α) (faults n : ℕ) :
    (List.replicate n a).foldl (Cache.access capacity) ⟨a::l,faults⟩ = ⟨a::l,faults⟩ := by
  induction n with
  | zero => rfl
  | succ n ih =>
    rw [List.replicate_succ,List.foldl_cons,Cache.access_hit capacity List.mem_cons_self,
      List.erase_cons_head,ih]

theorem faults_access_le (capacity : ℕ) (cache : Cache α) (a : α) :
    (cache.access capacity a).faults ≤ cache.faults+1 := by
  unfold Cache.access
  split_ifs <;> simp

end

/-- The keys of the table in the order of their stamps, none of them past `now`, the latest
first. -/
structure Stamped (now : ℤ) (table : List (α × ℤ)) (recent : List α) : Prop where
  nodup : recent.Nodup
  le_now : ∀ x ∈ table, x.2 ≤ now
  order : ∃ order : List (α × ℤ), order.Perm table ∧ order.Pairwise (fun x y => y.2 < x.2) ∧
    order.map Prod.fst = recent

namespace Stamped
variable {now now' : ℤ} {table table' rest : List (α × ℤ)} {recent : List α} {a : α} {t : ℤ}

theorem nil (now : ℤ) : Stamped now ([] : List (α × ℤ)) [] :=
  ⟨List.nodup_nil,by simp,[],List.Perm.nil,List.Pairwise.nil,rfl⟩

theorem perm_keys (h : Stamped now table recent) : recent.Perm (table.map Prod.fst) := by
  obtain ⟨order,hperm,-,hrecent⟩ := h.order
  rw [← hrecent]
  exact hperm.map _

theorem mem_iff (h : Stamped now table recent) : a ∈ recent ↔ a ∈ table.map Prod.fst :=
  h.perm_keys.mem_iff

theorem length_eq (h : Stamped now table recent) : recent.length = table.length := by
  rw [h.perm_keys.length_eq,List.length_map]

theorem nodup_keys (h : Stamped now table recent) : (table.map Prod.fst).Nodup :=
  h.perm_keys.nodup_iff.mp h.nodup

/-- A key that is not in the table is added with a later stamp. -/
theorem add (h : Stamped now table recent) (ha : a ∉ recent) (hnow : now < now')
    (htable : table'.Perm ((a,now')::table)) : Stamped now' table' (a::recent) := by
  obtain ⟨order,hperm,hsorted,hrecent⟩ := h.order
  refine ⟨List.nodup_cons.mpr ⟨ha,h.nodup⟩,?_,(a,now')::order,(hperm.cons _).trans htable.symm,
    List.pairwise_cons.mpr ⟨?_,hsorted⟩,?_⟩
  · intro x hx
    rcases List.mem_cons.mp (htable.mem_iff.mp hx) with rfl | hx
    · exact le_refl _
    · exact (h.le_now x hx).trans (Int.le_of_lt hnow)
  · intro x hx
    exact lt_of_le_of_lt (h.le_now x (hperm.mem_iff.mp hx)) hnow
  · rw [List.map_cons,hrecent]

/-- What is left of the table when one entry is gone. -/
theorem erase [DecidableEq α] (h : Stamped now table recent) (htable : table.Perm ((a,t)::rest)) :
    Stamped now rest (recent.erase a) := by
  obtain ⟨order,hperm,hsorted,hrecent⟩ := h.order
  have hmem : (a,t) ∈ order := (hperm.trans htable).mem_iff.mpr List.mem_cons_self
  obtain ⟨before,after,horder⟩ := List.append_of_mem hmem
  have hnd := h.nodup
  rw [← hrecent,horder,List.map_append,List.map_cons] at hnd
  have ha : a ∉ before.map Prod.fst := fun ha =>
    (List.nodup_cons.mp (List.nodup_middle.mp hnd)).1 (List.mem_append_left _ ha)
  refine ⟨h.nodup.erase a,?_,before++after,?_,?_,?_⟩
  · intro x hx
    exact h.le_now x (htable.mem_iff.mpr (List.mem_cons_of_mem _ hx))
  · have hp := hperm.trans htable
    rw [horder] at hp
    exact (List.perm_middle.symm.trans hp).cons_inv
  · rw [horder] at hsorted
    exact hsorted.sublist ((List.sublist_cons_self _ after).append_left before)
  · rw [← hrecent,horder,List.map_append,List.map_append,List.map_cons,
      List.erase_append_right _ ha,List.erase_cons_head]

/-- An access to a key of the table gives it a later stamp. -/
theorem hit [DecidableEq α] (h : Stamped now table recent) (hnow : now < now')
    (htable : table.Perm ((a,t)::rest)) (htable' : table'.Perm ((a,now')::rest)) :
    Stamped now' table' (a::recent.erase a) :=
  (h.erase htable).add (fun ha => (h.nodup.mem_erase_iff.mp ha).1 rfl) hnow htable'

/-- The entry with the earliest stamp is the last of the recency list. -/
theorem getLast_of_earliest {e : α × ℤ} (h : Stamped now table recent) (he : e ∈ table)
    (hmin : ∀ x ∈ table, e.2 ≤ x.2) : ∃ front, recent = front++[e.1] := by
  obtain ⟨order,hperm,hsorted,hrecent⟩ := h.order
  obtain ⟨before,after,horder⟩ := List.append_of_mem (hperm.mem_iff.mpr he)
  cases after with
  | nil =>
    refine ⟨before.map Prod.fst,?_⟩
    rw [← hrecent,horder,List.map_append]
    rfl
  | cons x after =>
    -- An entry behind it would have an earlier stamp.
    have hx : x ∈ order := by simp [horder]
    rw [horder] at hsorted
    have hlt := (List.pairwise_cons.mp (List.pairwise_append.mp hsorted).2.1).1 x
      List.mem_cons_self
    have hle := hmin x (hperm.mem_iff.mp hx)
    omega

/-- A key that is not in the table takes the place of the one with the earliest stamp. -/
theorem replace [DecidableEq α] {e : α × ℤ} (h : Stamped now table recent) (ha : a ∉ recent)
    (hnow : now < now') (htable : table.Perm (e::rest)) (hmin : ∀ x ∈ table, e.2 ≤ x.2)
    (htable' : table'.Perm ((a,now')::rest)) : Stamped now' table' (a::recent.dropLast) := by
  obtain ⟨front,hfront⟩ :=
    h.getLast_of_earliest (htable.mem_iff.mpr List.mem_cons_self) hmin
  have hlast : recent.erase e.1 = recent.dropLast := by
    have hnd := h.nodup
    rw [hfront] at hnd ⊢
    have he : e.1 ∉ front := fun he =>
      (List.nodup_cons.mp (List.nodup_middle.mp hnd)).1 (List.mem_append_left _ he)
    rw [List.erase_append_right _ he,List.erase_cons_head,List.dropLast_concat,List.append_nil]
  rw [← hlast]
  exact (h.erase htable).add (fun hmem => ha (List.mem_of_mem_erase hmem)) hnow htable'

end Stamped
end PucRio.Recency
