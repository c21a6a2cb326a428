import Mathlib.Algebra.Order.Group.Multiset
import Mathlib.Data.Multiset.AddSub
import Mathlib.Order.Basic
import Mathlib.Tactic.Abel

/-! Subdivisions. Intervals that lie end to end from one point to another, in any order; an interval
may be cut at any point inside it. -/
namespace PucRio
variable {α : Type*} [Preorder α]

/-- Intervals that lead from `l` to `r`, one after the other. -/
def EndToEnd : α → α → List (α × α) → Prop
  | l,r,[] => l = r
  | l,r,(a,b)::t => a = l ∧ a < b ∧ EndToEnd b r t

/-- The same intervals lead from `l` to `r` in some order. -/
def Subdivision (l r : α) (m : Multiset (α × α)) : Prop :=
  ∃ t : List (α × α), (t : Multiset (α × α)) = m ∧ EndToEnd l r t

theorem endToEnd_append {l r : α} {t u : List (α × α)} :
    EndToEnd l r (t++u) ↔ ∃ c, EndToEnd l c t ∧ EndToEnd c r u := by
  induction t generalizing l with
  | nil =>
    constructor
    · exact fun h => ⟨l,rfl,h⟩
    · rintro ⟨c,rfl,h⟩
      exact h
  | cons x t ih =>
    constructor
    · rintro ⟨ha,hab,h⟩
      obtain ⟨c,ht,hu⟩ := ih.mp h
      exact ⟨c,⟨ha,hab,ht⟩,hu⟩
    · rintro ⟨c,⟨ha,hab,ht⟩,hu⟩
      exact ⟨ha,hab,ih.mpr ⟨c,ht,hu⟩⟩

theorem lt_of_mem_endToEnd {l r : α} {t : List (α × α)} (h : EndToEnd l r t) {x : α × α}
    (hx : x ∈ t) : x.1 < x.2 := by
  induction t generalizing l with
  | nil => cases hx
  | cons y t ih =>
    cases hx with
    | head => exact h.2.1
    | tail _ hx => exact ih h.2.2 hx

/-- The points of an increasing sequence. -/
theorem endToEnd_range {f : ℕ → α} (hf : ∀ i, f i < f (i+1)) (n : ℕ) :
    EndToEnd (f 0) (f n) ((List.range n).map fun i => (f i,f (i+1))) := by
  induction n with
  | zero => exact rfl
  | succ n ih =>
    rw [List.range_succ,List.map_append,endToEnd_append]
    exact ⟨f n,ih,rfl,hf n,rfl⟩

namespace Subdivision
variable {l r a b c : α} {m : Multiset (α × α)}

theorem lt (h : Subdivision l r (m+{(a,b)})) : a < b := by
  obtain ⟨t,ht,hchain⟩ := h
  apply lt_of_mem_endToEnd hchain (x := (a,b))
  rw [← Multiset.mem_coe,ht]
  exact Multiset.mem_add.mpr (.inr (Multiset.mem_singleton_self _))

/-- An interval is cut in two. -/
theorem cut (h : Subdivision l r (m+{(a,b)})) (hac : a < c) (hcb : c < b) :
    Subdivision l r (m+({(a,c)}+{(c,b)})) := by
  obtain ⟨t,ht,hchain⟩ := h
  have hmem : (a,b) ∈ t := by
    rw [← Multiset.mem_coe,ht]
    exact Multiset.mem_add.mpr (.inr (Multiset.mem_singleton_self _))
  obtain ⟨u,v,rfl⟩ := List.append_of_mem hmem
  obtain ⟨d,hu,rfl,hab,hv⟩ := endToEnd_append.mp hchain
  refine ⟨u++(a,c)::(c,b)::v,?_,endToEnd_append.mpr ⟨a,hu,rfl,hac,rfl,hcb,hv⟩⟩
  have hm : m = ((u++v : List (α × α)) : Multiset (α × α)) := by
    apply add_right_cancel (b := ({(a,b)} : Multiset (α × α)))
    rw [← ht,← Multiset.coe_add,← Multiset.coe_add,← Multiset.cons_coe,← Multiset.singleton_add]
    abel
  rw [hm,← Multiset.coe_add,← Multiset.coe_add,← Multiset.cons_coe,← Multiset.cons_coe,
    ← Multiset.singleton_add,← Multiset.singleton_add]
  abel

end Subdivision
end PucRio
