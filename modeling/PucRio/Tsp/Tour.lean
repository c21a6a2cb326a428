import Mathlib.Data.List.Range
import Mathlib.Data.List.Perm.Basic
import Mathlib.Tactic

/-! Partial tours and the stack they wait on. A tour keeps the cities it has visited, the stack
its tours from the bottom up; the pool of unused tours is not kept. -/
namespace PucRio.Tsp
variable {n : ℕ}

def INFINITY : ℤ := 1000000

def home_town : ℕ := 0

/-- What `Read_digraph` lets through. -/
structure Digraph (n : ℕ) where
  Cost : ℕ → ℕ → ℤ
  diagonal : ∀ i, i < n → Cost i i = 0
  positive : ∀ i j, i < n → j < n → i ≠ j → 0 < Cost i j

theorem Digraph.nonneg (d : Digraph n) {i j : ℕ} (hi : i < n) (hj : j < n) : 0 ≤ d.Cost i j := by
  by_cases h : i = j
  · subst h; exact (d.diagonal i hi).ge
  · exact (d.positive i j hi hj h).le

structure Tour where
  cities : List ℕ
  cost : ℤ
  deriving DecidableEq, Repr

namespace Tour

def City_count (tour : Tour) : ℕ := tour.cities.length

def Last_city (tour : Tour) : ℕ := tour.cities.getLastD home_town

def Init_tour (cost : ℤ) : Tour := ⟨[home_town],cost⟩

def Visited (tour : Tour) (city : ℕ) : Bool := city ∈ tour.cities

variable (d : Digraph n)

def Add_city (tour : Tour) (new_city : ℕ) : Tour :=
  ⟨tour.cities ++ [new_city],tour.cost+d.Cost tour.Last_city new_city⟩

def Remove_last_city (tour : Tour) : Tour :=
  let cities := tour.cities.dropLast
  ⟨cities,tour.cost-d.Cost (cities.getLastD home_town) tour.Last_city⟩

/-- `best` is what is read of the cost of `loc_best_tour`. -/
def Feasible (best : ℤ) (tour : Tour) (city : ℕ) : Bool :=
  !tour.Visited city && decide (tour.cost+d.Cost tour.Last_city city < best)

@[simp] theorem Add_city_cities (tour : Tour) (c : ℕ) :
    (tour.Add_city d c).cities = tour.cities ++ [c] := rfl

@[simp] theorem Add_city_cost (tour : Tour) (c : ℕ) :
    (tour.Add_city d c).cost = tour.cost+d.Cost tour.Last_city c := rfl

@[simp] theorem Last_city_Add_city (tour : Tour) (c : ℕ) : (tour.Add_city d c).Last_city = c := by
  simp [Last_city]

/-- What the search adds to a tour it takes off again. -/
@[simp] theorem Remove_last_city_Add_city (tour : Tour) (c : ℕ) :
    (tour.Add_city d c).Remove_last_city d = tour := by
  simp [Remove_last_city,Last_city,Add_city]

theorem Feasible_iff {best : ℤ} {tour : Tour} {c : ℕ} : tour.Feasible d best c = true ↔
    c ∉ tour.cities ∧ tour.cost+d.Cost tour.Last_city c < best := by
  simp [Feasible,Visited]

end Tour

/-- `list[0..list_sz)`; `list_alloc` is `n*n`. -/
structure Stack (n : ℕ) where
  list : List Tour
  le_alloc : list.length ≤ n*n

namespace Stack

def Init_stack (n : ℕ) : Stack n := ⟨[],Nat.zero_le _⟩

def Empty_stack (stack : Stack n) : Bool := stack.list.isEmpty

/-- `Push` frees the tour where the stack is full. -/
def Push (stack : Stack n) (tour : Tour) : Stack n :=
  if h : stack.list.length = n*n then stack
  else ⟨stack.list ++ [tour],by have := stack.le_alloc; simp; omega⟩

/-- `none`: the stack overflows and the process exits. -/
def Push_copy (stack : Stack n) (tour : Tour) : Option (Stack n) :=
  if h : stack.list.length = n*n then none
  else some ⟨stack.list ++ [tour],by have := stack.le_alloc; simp; omega⟩

/-- `none`: the stack is empty and the process exits. -/
def Pop (stack : Stack n) : Option (Tour × Stack n) :=
  stack.list.getLast?.map fun tour =>
    (tour,⟨stack.list.dropLast,by have := stack.le_alloc; simp; omega⟩)

theorem Pop_eq_some {stack rest : Stack n} {tour : Tour} (h : stack.Pop = some (tour,rest)) :
    stack.list = rest.list ++ [tour] := by
  obtain ⟨t,ht,he⟩ := Option.map_eq_some_iff.mp h
  obtain ⟨rfl,rfl⟩ := Prod.mk.inj he
  exact (List.dropLast_append_getLast? t ht).symm

theorem Pop_eq_none {stack : Stack n} : stack.Pop = none ↔ stack.list = [] := by
  simp [Pop]

/-- The loop of `Split_stack` from `new_src` on: in each pair the first tour goes to the new
stack and the second stays. -/
def splitPairs {α : Type*} : List α → List α × List α
  | [] => ([],[])
  | [a] => ([],[a])
  | a::b::l => (b::(splitPairs l).1,a::(splitPairs l).2)

theorem length_splitPairs {α : Type*} (l : List α) :
    (splitPairs l).1.length+(splitPairs l).2.length = l.length := by
  induction l using splitPairs.induct with
  | case1 => rfl
  | case2 a => rfl
  | case3 a b l ih => simp only [splitPairs,List.length_cons]; omega

/-- The old stack keeps its bottom tour; the second component is the new stack. -/
def Split_stack (stack : Stack n) : Stack n × Stack n :=
  let old := stack.list.take 1 ++ (splitPairs (stack.list.drop 1)).1
  let new := (splitPairs (stack.list.drop 1)).2
  have h : old.length+new.length ≤ n*n := by
    have := length_splitPairs (stack.list.drop 1)
    have := stack.le_alloc
    simp only [old,new,List.length_append,List.length_take,List.length_drop] at *
    omega
  (⟨old,by omega⟩,⟨new,by omega⟩)

end Stack

section Search
variable (d : Digraph n)

/-- The loop over the neighbours `nbr,…,1`: every feasible one is added, copied to the stack and
taken off again. `best` is what each call of `Feasible` reads of the cost of `loc_best_tour`. -/
def expand (best : ℕ → ℤ) : ℕ → Tour → Stack n → Option (Tour × Stack n)
  | 0,curr_tour,stack => some (curr_tour,stack)
  | k+1,curr_tour,stack =>
    let nbr := k+1
    if curr_tour.Feasible d (best nbr) nbr then
      let curr_tour := curr_tour.Add_city d nbr
      (stack.Push_copy curr_tour).bind fun stack =>
        expand best k (curr_tour.Remove_last_city d) stack
    else expand best k curr_tour stack

/-- The tours that the loop adds for a tour. -/
def children (best : ℕ → ℤ) : ℕ → Tour → List Tour
  | 0,_ => []
  | k+1,tour =>
    if tour.Feasible d (best (k+1)) (k+1) then tour.Add_city d (k+1)::children best k tour
    else children best k tour

variable {d} {best : ℕ → ℤ}

theorem length_children_le (best : ℕ → ℤ) (k : ℕ) (tour : Tour) : (children d best k tour).length ≤ k := by
  induction k with
  | zero => rfl
  | succ k ih =>
    simp only [children]
    split_ifs
    · simpa using ih
    · omega

theorem mem_children {k : ℕ} {tour t : Tour} : t ∈ children d best k tour ↔
    ∃ c, 1 ≤ c ∧ c ≤ k ∧ tour.Feasible d (best c) c = true ∧ t = tour.Add_city d c := by
  induction k with
  | zero =>
    simp only [children,List.not_mem_nil,false_iff,not_exists]
    omega
  | succ k ih =>
    simp only [children]
    constructor
    · intro h
      split_ifs at h with hf
      · rcases List.mem_cons.mp h with rfl | h
        · exact ⟨k+1,by omega,le_rfl,hf,rfl⟩
        · obtain ⟨c,h1,hk,hc⟩ := ih.mp h
          exact ⟨c,h1,by omega,hc⟩
      · obtain ⟨c,h1,hk,hc⟩ := ih.mp h
        exact ⟨c,h1,by omega,hc⟩
    · rintro ⟨c,h1,hk,hf,rfl⟩
      by_cases hc : c = k+1
      · subst hc; simp [hf]
      · have hm := ih.mpr ⟨c,h1,by omega,hf,rfl⟩
        split_ifs
        · exact List.mem_cons_of_mem _ hm
        · exact hm

/-- With room for all of them the loop pushes exactly these tours. -/
theorem expand_eq_some (best : ℕ → ℤ) {k : ℕ} (tour : Tour) {stack : Stack n}
    (h : stack.list.length+k ≤ n*n) : ∃ s, expand d best k tour stack = some (tour,s) ∧
      s.list = stack.list ++ children d best k tour := by
  induction k generalizing stack with
  | zero => exact ⟨stack,rfl,by simp [children]⟩
  | succ k ih =>
    simp only [expand,children]
    split_ifs with hf
    · have hroom : ¬ stack.list.length = n*n := by omega
      simp only [Stack.Push_copy,hroom,dite_false,Option.bind_some,Tour.Remove_last_city_Add_city]
      obtain ⟨s,hs,hl⟩ := @ih ⟨stack.list ++ [tour.Add_city d (k+1)],by simp; omega⟩
        (by simp; omega)
      exact ⟨s,hs,by rw [hl]; simp⟩
    · exact ih (by omega)

end Search
end PucRio.Tsp
