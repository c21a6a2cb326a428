import Mathlib.Algebra.Order.Group.Defs
import Mathlib.Data.Set.Insert
import Mathlib.Logic.Function.Basic
import Mathlib.Order.Lattice

/-! A search that always goes on from a value with the least sum of what it has cost so far and an
estimate of what is left. An estimate that no step to a value lowers by more than the step costs
makes what has been searched final. The same order is taken where the estimate is too large by one
amount everywhere but at the goal. -/
namespace PucRio.BestFirst
variable {V R : Type*} [AddCommGroup R] [LinearOrder R]

/-- A walk from the start, with what it costs to enter each of its values. -/
inductive Walk (next : V → V → Prop) (cost : V → R) (start : V) : V → R → Prop
  | start : Walk next cost start start 0
  | step {u v : V} {c : R} (h : Walk next cost start u c) (hv : next u v) :
      Walk next cost start v (c+cost v)

/-- Values that have been searched and values in the queue; those in `E` have still to be looked at
from the value `cur`. -/
structure Frontier (next : V → V → Prop) (cost : V → R) (start : V) (g : V → R)
    (visited queued : Set V) (cur : V) (E : Set V) : Prop where
  rooted : start ∈ visited ∨ (start ∈ queued ∧ g start = 0)
  disjoint : ∀ v ∈ queued, v ∉ visited
  walk : ∀ v, v ∈ visited ∨ v ∈ queued → Walk next cost start v (g v)
  least : ∀ v ∈ visited, ∀ c, Walk next cost start v c → g v ≤ c
  relaxed : ∀ u ∈ visited, ∀ v, next u v → (u = cur ∧ v ∈ E) ∨ v ∈ visited ∨
    (v ∈ queued ∧ g v ≤ g u+cost v)

/-- No step but back to the start lowers the estimate by more than it costs. -/
structure Consistent (next : V → V → Prop) (cost : V → R) (start : V) (pot : V → R) : Prop where
  nonneg : ∀ v, 0 ≤ cost v
  step : ∀ u v, next u v → v ≠ start → pot u ≤ cost v+pot v

variable {next : V → V → Prop} {cost pot g : V → R} {start cur u v n goal : V} {c B : R}
  {visited queued E E' : Set V}

theorem Walk.nonneg [IsOrderedAddMonoid R] (h : Walk next cost start v c)
    (hcost : ∀ v, 0 ≤ cost v) : 0 ≤ c := by
  induction h with
  | start => exact le_rfl
  | step _ _ ih => exact add_nonneg ih (hcost _)

namespace Frontier

theorem init (hg : g start = 0) : Frontier next cost start g ∅ {start} cur E where
  rooted := .inr ⟨rfl,hg⟩
  disjoint _ _ := Set.notMem_empty _
  walk v hv := by
    obtain hv | rfl := hv
    · exact absurd hv (Set.notMem_empty v)
    · exact hg ▸ .start
  least v hv := absurd hv (Set.notMem_empty v)
  relaxed u hu := absurd hu (Set.notMem_empty u)

/-- A walk leads to what has been searched, or some value in the queue promises no more than it. -/
theorem exists_queued [IsOrderedAddMonoid R]
    (h : Frontier next cost start g visited queued cur ∅)
    (hpot : Consistent next cost start pot) (hw : Walk next cost start v c) :
    v ∈ visited ∨ ∃ m ∈ queued, g m+pot m ≤ c+pot v := by
  induction hw with
  | start =>
    refine h.rooted.imp_right fun hs => ⟨start,hs.1,?_⟩
    rw [hs.2]
  | @step u v c hu hv ih =>
    by_cases hvisited : v ∈ visited
    · exact .inl hvisited
    right
    by_cases hstart : v = start
    · subst hstart
      obtain ⟨hqueued,hzero⟩ := h.rooted.resolve_left hvisited
      refine ⟨v,hqueued,?_⟩
      rw [hzero]
      exact add_le_add_left (hu.step hv |>.nonneg hpot.nonneg) _
    obtain hu' | ⟨m,hm,hle⟩ := ih
    · obtain ⟨-,hE⟩ | hv' | ⟨hqueued,hle⟩ := h.relaxed u hu' v hv
      · exact absurd hE (Set.notMem_empty v)
      · exact absurd hv' hvisited
      · refine ⟨v,hqueued,add_le_add_left (hle.trans (add_le_add_left ?_ _)) _⟩
        exact h.least u hu' c hu
    · refine ⟨m,hm,hle.trans ?_⟩
      rw [add_assoc]
      exact add_le_add_right (hpot.step u v hv hstart) c

/-- The least value in the queue has its least cost. -/
theorem least_of_queued [IsOrderedAddMonoid R]
    (h : Frontier next cost start g visited queued cur ∅)
    (hpot : Consistent next cost start pot) (hn : n ∈ queued)
    (hmin : ∀ m ∈ queued, g n+pot n ≤ g m+pot m) (hw : Walk next cost start n c) : g n ≤ c := by
  obtain hvisited | ⟨m,hm,hle⟩ := h.exists_queued hpot hw
  · exact absurd hvisited (h.disjoint n hn)
  · exact le_of_add_le_add_right ((hmin m hm).trans hle)

/-- With nothing in the queue, all that can be reached has been searched. -/
theorem mem_of_walk [IsOrderedAddMonoid R] (h : Frontier next cost start g visited ∅ cur ∅)
    (hpot : Consistent next cost start pot) (hw : Walk next cost start v c) : v ∈ visited := by
  obtain hvisited | ⟨m,hm,-⟩ := h.exists_queued hpot hw
  · exact hvisited
  · exact absurd hm (Set.notMem_empty m)

/-- It is searched next. -/
theorem poll [IsOrderedAddMonoid R] (h : Frontier next cost start g visited queued cur ∅)
    (hpot : Consistent next cost start pot) (hn : n ∈ queued)
    (hmin : ∀ m ∈ queued, g n+pot n ≤ g m+pot m) :
    Frontier next cost start g (insert n visited) (queued \ {n}) n {v | next n v} where
  rooted := by
    obtain hs | ⟨hs,hzero⟩ := h.rooted
    · exact .inl (.inr hs)
    · by_cases heq : start = n
      · exact .inl (.inl heq)
      · exact .inr ⟨⟨hs,heq⟩,hzero⟩
  disjoint v hv := by
    rintro (rfl | hvisited)
    · exact hv.2 rfl
    · exact h.disjoint v hv.1 hvisited
  walk v hv := by
    refine h.walk v ?_
    obtain (rfl | hv) | hv := hv
    · exact .inr hn
    · exact .inl hv
    · exact .inr hv.1
  least v hv c hw := by
    obtain rfl | hv := hv
    · exact h.least_of_queued hpot hn hmin hw
    · exact h.least v hv c hw
  relaxed u hu v hv := by
    obtain rfl | hu := hu
    · exact .inl ⟨rfl,hv⟩
    right
    obtain ⟨-,hE⟩ | hvisited | ⟨hqueued,hle⟩ := h.relaxed u hu v hv
    · exact absurd hE (Set.notMem_empty v)
    · exact .inl (.inr hvisited)
    · by_cases heq : v = n
      · exact .inl (.inl heq)
      · exact .inr ⟨⟨hqueued,heq⟩,hle⟩

/-- A value that has been searched, or is in the queue for no more, is left as it is. -/
theorem skip (h : Frontier next cost start g visited queued cur E) (hE : ∀ w ∈ E, w ∈ E' ∨ w = v)
    (hv : v ∈ visited ∨ (v ∈ queued ∧ g v ≤ g cur+cost v)) :
    Frontier next cost start g visited queued cur E' where
  rooted := h.rooted
  disjoint := h.disjoint
  walk := h.walk
  least := h.least
  relaxed u hu w hw := by
    obtain ⟨rfl,hmem⟩ | hrest := h.relaxed u hu w hw
    · obtain hmem | rfl := hE w hmem
      · exact .inl ⟨rfl,hmem⟩
      · exact .inr hv
    · exact .inr hrest

/-- Any other one comes into the queue, with a new cost. -/
theorem offer [DecidableEq V] (h : Frontier next cost start g visited queued cur E)
    (hE : ∀ w ∈ E, w ∈ E' ∨ w = v) (hcur : cur ∈ visited) (hnext : next cur v)
    (hv : v ∉ visited) (hstart : start ∈ visited) (hless : v ∈ queued → g cur+cost v ≤ g v) :
    Frontier next cost start (Function.update g v (g cur+cost v)) visited (insert v queued)
      cur E' := by
  have hold (u : V) (hu : u ∈ visited) : Function.update g v (g cur+cost v) u = g u := by
    refine Function.update_of_ne ?_ ..
    rintro rfl
    exact hv hu
  refine ⟨.inl hstart,?_,?_,?_,?_⟩
  · rintro w (rfl | hw)
    · exact hv
    · exact h.disjoint w hw
  · intro w hw
    by_cases heq : w = v
    · subst heq
      rw [Function.update_self]
      exact (h.walk cur (.inl hcur)).step hnext
    · rw [Function.update_of_ne heq]
      exact h.walk w (hw.imp_right fun hw => hw.resolve_left heq)
  · intro u hu c hw
    rw [hold u hu]
    exact h.least u hu c hw
  · intro u hu w hw
    rw [hold u hu]
    by_cases heq : w = v
    · subst heq
      rw [Function.update_self]
      obtain ⟨rfl,-⟩ | hvisited | ⟨hqueued,hle⟩ := h.relaxed u hu w hw
      · exact .inr (.inr ⟨.inl rfl,le_rfl⟩)
      · exact absurd hvisited hv
      · exact .inr (.inr ⟨.inl rfl,(hless hqueued).trans hle⟩)
    · rw [Function.update_of_ne heq]
      obtain ⟨rfl,hmem⟩ | hvisited | ⟨hqueued,hle⟩ := h.relaxed u hu w hw
      · exact .inl ⟨rfl,(hE w hmem).resolve_right heq⟩
      · exact .inr (.inl hvisited)
      · exact .inr (.inr ⟨.inr hqueued,hle⟩)

end Frontier

/-- An estimate that is too large by one amount everywhere but at the goal. -/
structure Overestimates (key pot : V → R) (goal : V) (slack : R) : Prop where
  pos : 0 < slack
  atGoal : key goal = pot goal
  other : ∀ v, v ≠ goal → key v = pot v+slack

/-- Nothing in the queue promises less than `B`, and the goal is there for no more. -/
structure Eager (pot : V → R) (goal : V) (g : V → R) (queued : Set V) (B : R) : Prop where
  bound : ∀ m ∈ queued, B ≤ g m+pot m
  atGoal : goal ∈ queued → g goal+pot goal ≤ B

variable [IsOrderedAddMonoid R] {key : V → R} {slack : R}

/-- The goal is searched as soon as it is in the queue; until then, the estimates make no
difference. -/
theorem Overestimates.least (hkey : Overestimates key pot goal slack)
    (heager : goal ∈ queued → ∀ m ∈ queued, g goal+pot goal ≤ g m+pot m) (hn : n ∈ queued)
    (hmin : ∀ m ∈ queued, g n+key n ≤ g m+key m) :
    (∀ m ∈ queued, g n+pot n ≤ g m+pot m) ∧ (goal ∈ queued → n = goal) := by
  have hgoal (hmem : goal ∈ queued) : n = goal := by
    by_contra hne
    have hle := hmin goal hmem
    rw [hkey.other n hne,hkey.atGoal,← add_assoc] at hle
    have hback : g n+pot n+slack ≤ g n+pot n+0 := by
      rw [add_zero]
      exact hle.trans (heager hmem n hn)
    exact (le_of_add_le_add_left hback).not_gt hkey.pos
  refine ⟨?_,hgoal⟩
  by_cases hmem : goal ∈ queued
  · rw [hgoal hmem]
    exact heager hmem
  · intro m hm
    have hle := hmin m hm
    rw [hkey.other n fun heq => hmem (heq ▸ hn),hkey.other m fun heq => hmem (heq ▸ hm),
      ← add_assoc,← add_assoc] at hle
    exact le_of_add_le_add_right hle

theorem Eager.offer [DecidableEq V] (h : Eager pot goal g queued (g cur+pot cur))
    (hpot : Consistent next cost start pot) (hgoal : cost goal+pot goal ≤ pot cur)
    (hnext : next cur v) (hstart : v ≠ start) (hcur : v ≠ cur) :
    Eager pot goal (Function.update g v (g cur+cost v)) (insert v queued)
      (Function.update g v (g cur+cost v) cur+pot cur) := by
  rw [Function.update_of_ne hcur.symm]
  constructor
  · intro m hm
    by_cases heq : m = v
    · subst heq
      rw [Function.update_self,add_assoc]
      exact add_le_add_right (hpot.step cur m hnext hstart) _
    · rw [Function.update_of_ne heq]
      exact h.bound m (hm.resolve_left heq)
  · intro hm
    by_cases heq : goal = v
    · subst heq
      rw [Function.update_self,add_assoc]
      exact add_le_add_right hgoal _
    · rw [Function.update_of_ne heq]
      exact h.atGoal (hm.resolve_left heq)

end PucRio.BestFirst
