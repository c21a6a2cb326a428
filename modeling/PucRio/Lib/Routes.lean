import Mathlib.Algebra.Order.Ring.Int
import Mathlib.Logic.Function.Basic

/-! Routes to one destination. Every node keeps how far it believes the destination to be and where
to go on to, and offers distances to other nodes. An offer may arrive late or several times: what
counts is that the offering node is never farther than it offered. -/
namespace PucRio
variable {ν : Type*}

/-- `direction` is the next node, if any. -/
structure Route (ν : Type*) where
  distance : ℤ
  direction : Option ν
  deriving DecidableEq, Repr

/-- The routes kept, and the distances on offer. -/
structure Routing (table : ν → Option (Route ν)) (offers : ν → ℤ → Prop) : Prop where
  nonneg : ∀ x r, table x = some r → 0 ≤ r.distance
  home : ∀ x r, table x = some r → r.distance = 0 → r.direction = none
  onward : ∀ x r, table x = some r → 0 < r.distance → ∃ y r', r.direction = some y ∧ y ≠ x ∧
    table y = some r' ∧ r'.distance < r.distance
  offered : ∀ y d, offers y d → ∃ r, table y = some r ∧ r.distance ≤ d

/-- The node reached after so many directions. -/
def follow (table : ν → Option (Route ν)) : ℕ → ν → Option ν
  | 0,x => some x
  | j+1,x => (table x).bind fun r => r.direction.bind (follow table j)

theorem follow_succ {table : ν → Option (Route ν)} {x : ν} {r : Route ν} (hx : table x = some r)
    (j : ℕ) : follow table (j+1) x = r.direction.bind (follow table j) := by
  rw [follow,hx,Option.bind_some]

namespace Routing
variable {table : ν → Option (Route ν)} {offers offers' : ν → ℤ → Prop} {x y : ν} {d : ℤ}
  {r : Route ν}

theorem empty (h : ∀ y d, ¬ offers y d) : Routing (fun _ : ν => none) offers where
  nonneg _ _ h := by cases h
  home _ _ h := by cases h
  onward _ _ h := by cases h
  offered y d hd := absurd hd (h y d)

/-- A node offers what it has, or worse. -/
theorem offer (h : Routing table offers) (hoffers : ∀ y d, offers' y d → offers y d ∨
    ∃ r, table y = some r ∧ r.distance ≤ d) : Routing table offers' := by
  refine ⟨h.nonneg,h.home,h.onward,fun y d hd => ?_⟩
  rcases hoffers y d hd with hd | hd
  · exact h.offered y d hd
  · exact hd

/-- The directions lead to the destination, in no more steps than the distance. -/
theorem exists_follow (h : Routing table offers) (hx : table x = some r) :
    ∃ (j : ℕ) (y : ν) (r' : Route ν), j ≤ r.distance ∧ follow table j x = some y ∧ table y = some r' ∧
      r'.distance = 0 := by
  induction hn : r.distance.toNat using Nat.strong_induction_on generalizing x r with
  | _ n ih =>
    have hpos := h.nonneg x r hx
    by_cases h0 : r.distance = 0
    · exact ⟨0,x,r,by omega,rfl,hx,h0⟩
    · obtain ⟨y,r',hd,-,hy,hlt⟩ := h.onward x r hx (by omega)
      have := h.nonneg y r' hy
      obtain ⟨j,z,r'',hj,hf,hz,hz0⟩ := ih r'.distance.toNat (by omega) hy rfl
      exact ⟨j+1,z,r'',by omega,by rw [follow_succ hx,hd,Option.bind_some,hf],hz,hz0⟩

variable [DecidableEq ν]

/-- A node takes a route no longer than its own. -/
theorem improve (h : Routing table offers) (hpos : 0 ≤ r.distance)
    (hzero : r.distance = 0 → r.direction = none)
    (hon : 0 < r.distance → ∃ y r', r.direction = some y ∧ y ≠ x ∧ table y = some r' ∧
      r'.distance < r.distance)
    (hle : ∀ old, table x = some old → r.distance ≤ old.distance) :
    Routing (Function.update table x (some r)) offers := by
  have hkeep (y : ν) (r' : Route ν) (hy : table y = some r') :
      ∃ r'', Function.update table x (some r) y = some r'' ∧ r''.distance ≤ r'.distance := by
    by_cases hyx : y = x
    · subst hyx
      exact ⟨r,Function.update_self ..,hle r' hy⟩
    · exact ⟨r',by rw [Function.update_of_ne hyx]; exact hy,le_rfl⟩
  have hlift (z : ν) (s : Route ν) (hs : ∃ y r', s.direction = some y ∧ y ≠ z ∧
      table y = some r' ∧ r'.distance < s.distance) : ∃ y r', s.direction = some y ∧ y ≠ z ∧
      Function.update table x (some r) y = some r' ∧ r'.distance < s.distance := by
    obtain ⟨y,r',hd,hne,hy,hlt⟩ := hs
    obtain ⟨r'',hy',hle'⟩ := hkeep y r' hy
    exact ⟨y,r'',hd,hne,hy',hle'.trans_lt hlt⟩
  have hcases (z : ν) (s : Route ν) (hz : Function.update table x (some r) z = some s) :
      z = x ∧ s = r ∨ table z = some s := by
    by_cases hzx : z = x
    · subst hzx
      rw [Function.update_self] at hz
      exact .inl ⟨rfl,(Option.some.inj hz).symm⟩
    · rw [Function.update_of_ne hzx] at hz
      exact .inr hz
  constructor
  · intro z s hz
    rcases hcases z s hz with ⟨-,rfl⟩ | hz
    · exact hpos
    · exact h.nonneg z s hz
  · intro z s hz
    rcases hcases z s hz with ⟨-,rfl⟩ | hz
    · exact hzero
    · exact h.home z s hz
  · intro z s hz hlt
    rcases hcases z s hz with ⟨rfl,rfl⟩ | hz
    · exact hlift z s (hon hlt)
    · exact hlift z s (h.onward z s hz hlt)
  · intro y d hd
    obtain ⟨r',hy,hle'⟩ := h.offered y d hd
    obtain ⟨r'',hy',hle''⟩ := hkeep y r' hy
    exact ⟨r'',hy',hle''.trans hle'⟩

/-- The destination is at `x` itself. -/
theorem originate (h : Routing table offers) (x : ν) :
    Routing (Function.update table x (some ⟨0,none⟩)) offers :=
  h.improve le_rfl (fun _ => rfl) (fun h => absurd h (lt_irrefl _)) fun old ho => h.nonneg x old ho

/-- An offer is one step longer for the node that takes it. -/
theorem adopt (h : Routing table offers) (hd : offers y d) (hne : y ≠ x)
    (hlt : ∀ old, table x = some old → d+1 < old.distance) :
    Routing (Function.update table x (some ⟨d+1,some y⟩)) offers := by
  obtain ⟨r',hy,hle⟩ := h.offered y d hd
  have := h.nonneg y r' hy
  refine h.improve (show 0 ≤ d+1 by omega) (fun h0 => ?_) (fun _ => ?_)
    fun old ho => (hlt old ho).le
  · have : d+1 = 0 := h0
    omega
  · exact ⟨y,r',rfl,hne,hy,show r'.distance < d+1 by omega⟩

end Routing
end PucRio
