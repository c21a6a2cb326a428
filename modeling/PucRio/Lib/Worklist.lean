import Mathlib.Data.List.Nodup
import Mathlib.Logic.Relation

/-! A search with a list that is both what was found and what is still to be looked at: new nodes are
appended, and an index runs after them. The list has so many places. -/
namespace PucRio.Worklist
open Relation

variable {V : Type*}

abbrev Reach (next : V → List V) : V → V → Prop := ReflTransGen fun a b => b ∈ next a

variable {next : V → List V} {cap fuel c : ℕ} {p : V} {vec : List V}

/-- Found are `p` and nodes that are reached from it, none twice. -/
structure Found (next : V → List V) (p : V) (vec : List V) : Prop where
  nodup : vec.Nodup
  reach : ∀ q ∈ vec, Reach next p q
  start : p ∈ vec

theorem Found.singleton (next : V → List V) (p : V) : Found next p [p] := by
  refine ⟨List.nodup_singleton p,fun q hq => ?_,List.mem_singleton_self p⟩
  rw [List.mem_singleton.mp hq]

theorem Found.snoc (h : Found next p vec) {q : V} (hq : q ∉ vec) (hreach : Reach next p q) :
    Found next p (vec++[q]) := by
  refine ⟨?_,fun r hr => ?_,List.mem_append_left _ h.start⟩
  · rw [List.nodup_append]
    refine ⟨h.nodup,List.nodup_singleton q,fun a ha b hb => ?_⟩
    rw [List.mem_singleton.mp hb]
    exact ne_of_mem_of_not_mem ha hq
  · obtain hr | hr := List.mem_append.mp hr
    · exact h.reach r hr
    · rwa [List.mem_singleton.mp hr]

/-- What is closed under `next` and has `p` in it has all that is reached from there. -/
theorem mem_of_closed (hp : p ∈ vec) (hclosed : ∀ a ∈ vec, ∀ b ∈ next a, b ∈ vec) {q : V}
    (hreach : Reach next p q) : q ∈ vec := by
  induction hreach with
  | refl => exact hp
  | tail _ hstep ih => exact hclosed _ ih _ hstep

variable [DecidableEq V]

/-- Appended unless it was found before. -/
def offer (cap : ℕ) (vec : List V) (q : V) : Option (List V) :=
  if q ∈ vec then some vec else if vec.length < cap then some (vec++[q]) else none

def explore (next : V → List V) (cap : ℕ) : ℕ → ℕ → List V → Option (List V)
  | 0,_,_ => none
  | fuel+1,c,vec =>
    if hc : c < vec.length then
      ((next vec[c]).foldlM (offer cap) vec).bind (explore next cap fuel (c+1))
    else some vec

/-- Reached nodes are appended, so many that none is missing; there is a place for each. -/
theorem foldlM_offer (hcap : ∀ vec, Found next p vec → vec.length ≤ cap) (h : Found next p vec)
    {l : List V} (hl : ∀ q ∈ l, Reach next p q) :
    ∃ more, l.foldlM (offer cap) vec = some (vec++more) ∧ Found next p (vec++more) ∧
      ∀ q ∈ l, q ∈ vec++more := by
  induction l generalizing vec with
  | nil =>
    rw [← List.append_nil vec] at h
    exact ⟨[],by rw [List.append_nil]; rfl,h,fun q hq => absurd hq List.not_mem_nil⟩
  | cons q l ih =>
    have hreach := hl q List.mem_cons_self
    have hrest : ∀ q ∈ l, Reach next p q := fun q hq => hl q (List.mem_cons_of_mem _ hq)
    rw [List.foldlM_cons]
    by_cases hq : q ∈ vec
    · obtain ⟨more,heq,hfound,hmem⟩ := ih h hrest
      refine ⟨more,?_,hfound,?_⟩
      · rw [offer,if_pos hq]
        exact heq
      · rintro r (_ | ⟨_,hr⟩)
        · exact List.mem_append_left _ hq
        · exact hmem r hr
    · have hsnoc := h.snoc hq hreach
      have hroom : vec.length < cap := by
        have hlength := hcap _ hsnoc
        rwa [List.length_append,List.length_singleton] at hlength
      obtain ⟨more,heq,hfound,hmem⟩ := ih hsnoc hrest
      rw [List.append_assoc] at heq hfound hmem
      refine ⟨[q]++more,?_,hfound,?_⟩
      · rw [offer,if_neg hq,if_pos hroom]
        exact heq
      · rintro r (_ | ⟨_,hr⟩)
        · exact List.mem_append_right _ List.mem_cons_self
        · exact hmem r hr

/-- The search ends with the reached nodes, each once. -/
theorem explore_eq_some (hcap : ∀ vec, Found next p vec → vec.length ≤ cap)
    (h : Found next p vec) (hc : c ≤ vec.length) (hfuel : cap < c+fuel)
    (hclosed : ∀ a ∈ vec.take c, ∀ b ∈ next a, b ∈ vec) :
    ∃ found, explore next cap fuel c vec = some found ∧ found.Nodup ∧
      ∀ q, q ∈ found ↔ Reach next p q := by
  induction fuel generalizing c vec with
  | zero => exact absurd (hcap _ h) (by omega)
  | succ fuel ih =>
    rw [explore]
    split
    next hlt =>
      have hmem : vec[c] ∈ vec := List.getElem_mem hlt
      obtain ⟨more,heq,hfound,hnext⟩ := foldlM_offer hcap h
        (fun q hq => (h.reach _ hmem).tail hq : ∀ q ∈ next vec[c], Reach next p q)
      rw [heq]
      refine ih hfound (by rw [List.length_append]; omega) (by omega) fun a ha b hb => ?_
      rw [List.take_append_of_le_length (Nat.succ_le_of_lt hlt),List.take_succ_eq_append_getElem hlt,
        List.mem_append,List.mem_singleton] at ha
      obtain ha | rfl := ha
      · exact List.mem_append_left _ (hclosed a ha b hb)
      · exact hnext b hb
    next hge =>
      rw [List.take_of_length_le (Nat.not_lt.mp hge)] at hclosed
      exact ⟨vec,rfl,h.nodup,fun q => ⟨h.reach q,mem_of_closed h.start hclosed⟩⟩

end PucRio.Worklist
