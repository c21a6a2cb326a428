import Mathlib.Data.List.Nodup
import Mathlib.Data.List.Perm.Subperm
import Mathlib.Logic.Function.Basic

/-! The plan of the attacks: which of the five planes attack each of the eleven enemy bases. -/
namespace PucRio.Pathfinding

/-- A plan is read at 0 to 54. -/
abbrev Strategy := ℕ → Char

/-- Where the plan has an attack. -/
def attacks (strategy : Strategy) : List ℕ := (List.range 55).filter (strategy · = '1')

/-- Not all planes are lost, and none has more than five attacks. -/
def validateStrategy (strategy : Strategy) : Bool :=
  if (attacks strategy).length > 24 then false
  else (List.range 5).all fun i => !decide ((attacks strategy).countP (·%5 = i) > 5)

/-- At some places attacks come in or go. -/
def disturb (places : List ℕ) (strategy : Strategy) : Strategy :=
  places.foldl (fun strategy idx =>
    Function.update strategy idx (if strategy idx = '1' then '0' else '1')) strategy

/-- The rounds of `Refresh`: a changed plan is taken if it is valid and cheaper. -/
def anneal (cheaper : Strategy → Strategy → Bool) (strategy : Strategy) (rounds : List (List ℕ)) :
    Strategy :=
  rounds.foldl (fun strategy places =>
    let newStrategy := disturb places strategy
    if validateStrategy newStrategy = false then strategy
    else if cheaper newStrategy strategy then newStrategy else strategy) strategy

/-- The cost of an attack on a base, and the planes that make it. -/
structure EnemyBaseAttack (R : Type) where
  cost : R
  warplanes : List ℕ

def airplanes (strategy : Strategy) (i : ℕ) : List ℕ :=
  (List.range 5).filter fun j => strategy (5*i+j) = '1'

/-- `bases.get`: the attacks are under the orders of the bases, from one on. -/
def bases {R : Type} (cost : ℕ → R) (strategy : Strategy) (order : ℕ) :
    Option (EnemyBaseAttack R) :=
  if 1 ≤ order ∧ order ≤ 11 then some ⟨cost order,airplanes strategy (order-1)⟩ else none

section Plan
variable {strategy : Strategy} {i j order : ℕ}

theorem mem_airplanes : j ∈ airplanes strategy i ↔ j < 5 ∧ strategy (5*i+j) = '1' := by
  simp only [airplanes,List.mem_filter,List.mem_range,decide_eq_true_eq]

/-- No change makes a valid plan one that is not. -/
theorem validateStrategy_anneal (cheaper : Strategy → Strategy → Bool) (rounds : List (List ℕ))
    (h : validateStrategy strategy = true) :
    validateStrategy (anneal cheaper strategy rounds) = true := by
  unfold anneal
  induction rounds generalizing strategy with
  | nil => exact h
  | cons places rounds ih =>
    rw [List.foldl_cons]
    apply ih
    dsimp only
    split_ifs with hinvalid hcheaper
    · exact h
    · exact eq_true_of_ne_false hinvalid
    · exact h

/-- In a valid plan a plane attacks at most five different bases. -/
theorem length_le_of_validateStrategy (h : validateStrategy strategy = true) {l : List ℕ}
    (hnodup : l.Nodup) (hl : ∀ i ∈ l, i < 11 ∧ j ∈ airplanes strategy i) : l.length ≤ 5 := by
  by_cases hnil : l = []
  · exact hnil ▸ Nat.zero_le 5
  obtain ⟨i,hi⟩ := List.exists_mem_of_ne_nil l hnil
  have hj := (mem_airplanes.mp (hl i hi).2).1
  have hcount : (attacks strategy).countP (·%5 = j) ≤ 5 := by
    unfold validateStrategy at h
    split_ifs at h
    have hplane := List.all_eq_true.mp h j (List.mem_range.mpr hj)
    simpa using hplane
  have hmap : (l.map (5*·+j)).Nodup :=
    hnodup.map fun a b hab => by omega
  have hsub : l.map (5*·+j) ⊆ (attacks strategy).filter (·%5 = j) := by
    intro k hk
    obtain ⟨i,hi,rfl⟩ := List.mem_map.mp hk
    obtain ⟨hlt,hplane⟩ := hl i hi
    simp only [attacks,List.mem_filter,List.mem_range,decide_eq_true_eq]
    exact ⟨⟨by omega,(mem_airplanes.mp hplane).2⟩,by omega⟩
  calc l.length = (l.map (5*·+j)).length := (List.length_map _).symm
    _ ≤ ((attacks strategy).filter (·%5 = j)).length := (List.subperm_of_subset hmap hsub).length_le
    _ = (attacks strategy).countP (·%5 = j) := List.countP_eq_length_filter.symm
    _ ≤ 5 := hcount

end Plan

end PucRio.Pathfinding
