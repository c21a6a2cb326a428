import PucRio.Lib.BranchAndBound
import PucRio.Tsp.Terminated

/-! The search by one thread of one process. No message ever comes from another process, and the
last thread is the only one. -/
namespace PucRio.Tsp
variable {n : ℕ}

/-- Where `Par_tree_search` is: in its loop, past it, waiting for another thread for ever, or ended
by `exit` or, for want of a queue, by `pthread_exit`. -/
inductive Status
  | running
  | returned
  | blocked
  | exited
  | noTours
  deriving DecidableEq, Repr

structure Search (n : ℕ) where
  stack : Stack n
  term : Term n
  loc_best_tour : Tour
  global_best_tour_cost : ℤ
  status : Status

/-- `Terminated` with no other thread to take a step in between. `none`: it waits. -/
def Terminated (thread_count min_split_sz : ℕ) (term : Term n) (stack : Stack n) :
    Option (Bool × Term n × Stack n) :=
  if min_split_sz ≤ stack.list.length ∧ 0 < term.count ∧ term.stack.isNone = true then
    let (old,new) := stack.Split_stack
    some (false,{ term with stack := some new },old)
  else if stack.Empty_stack then
    if term.count+1 = thread_count then some (true,{ term with count := term.count+1 },stack)
    else none
  else some (false,term,stack)

section Code
variable (d : Digraph n)

def Best_tour (loc_best_tour tour : Tour) : Bool :=
  decide (tour.cost+d.Cost tour.Last_city home_town < loc_best_tour.cost)

def Update_best_tour (s : Search n) (tour : Tour) : Search n :=
  if Best_tour d s.loc_best_tour tour then
    let loc_best_tour := tour.Add_city d home_town
    { s with loc_best_tour := loc_best_tour, global_best_tour_cost := loc_best_tour.cost }
  else s

/-- The body of the loop of `Par_tree_search`. -/
def body (s : Search n) : Search n :=
  match visit d (fun _ => s.loc_best_tour.cost) s.stack with
  | none => { s with status := .exited }
  | some (curr_tour,stack) =>
    let s := { s with stack := stack }
    if curr_tour.City_count = n ∧ Best_tour d s.loc_best_tour curr_tour = true then
      Update_best_tour d s curr_tour
    else s

/-- One round of the loop: the test and the body. -/
def round (min_split_sz : ℕ) (s : Search n) : Search n :=
  match s.status with
  | .running =>
    match Terminated 1 min_split_sz s.term s.stack with
    | none => { s with status := .blocked }
    | some (true,term,stack) => { s with term := term, stack := stack, status := .returned }
    | some (false,term,stack) => body d { s with term := term, stack := stack }
  | _ => s

/-- What `main` sets up, and the share of the tours. -/
def start (fuel : ℕ) : Search n :=
  let s : Search n := ⟨.Init_stack n,{},.Init_tour INFINITY,INFINITY,.noTours⟩
  match Partition_tree d 1 1 0 0 fuel with
  | .ok stack => { s with stack := stack, status := .running }
  | .error _ => s

/-- The search after `k` rounds. -/
def searchAfter (min_split_sz fuel k : ℕ) : Search n := (round d min_split_sz)^[k] (start d fuel)

/-- The cost of going through the cities in order. -/
def pathCost : List ℕ → ℤ
  | a::b::l => d.Cost a b+pathCost (b::l)
  | _ => 0

def cycleCost (p : List ℕ) : ℤ := pathCost d (p ++ [home_town])

end Code

/-- All cities in some order, the home town first. -/
structure Hamiltonian (n : ℕ) (p : List ℕ) : Prop where
  home : p.head? = some home_town
  perm : p.Perm (List.range n)

/-- The best tour is a cheapest Hamiltonian cycle. -/
def Exact (d : Digraph n) (s : Search n) : Prop :=
  ∃ p, Hamiltonian n p ∧ (∀ q, Hamiltonian n q → cycleCost d p ≤ cycleCost d q) ∧
    s.loc_best_tour = ⟨p ++ [home_town],cycleCost d p⟩ ∧ s.global_best_tour_cost = cycleCost d p

/-- The search ends with a cheapest cycle, and no stack operation on its way makes the process
exit. -/
def SearchExact (d : Digraph n) (min_split_sz fuel : ℕ) : Prop :=
  (∃ k, (searchAfter d min_split_sz fuel k).status = .returned ∧
    Exact d (searchAfter d min_split_sz fuel k)) ∧
  ∀ k, (searchAfter d min_split_sz fuel k).status ≠ .exited

section Paths
variable {d : Digraph n}

theorem pathCost_append_singleton {l : List ℕ} (hl : l ≠ []) (c : ℕ) :
    pathCost d (l ++ [c]) = pathCost d l+d.Cost (l.getLastD home_town) c := by
  induction l with
  | nil => exact absurd rfl hl
  | cons a l ih =>
    cases l with
    | nil => simp [pathCost]
    | cons b l =>
      have := ih (by simp)
      simp only [List.cons_append,pathCost] at this ⊢
      rw [this]
      simp only [List.getLastD_cons]
      ring

theorem pathCost_le_append {l r : List ℕ} (h : ∀ c ∈ l ++ r, c < n) :
    pathCost d l ≤ pathCost d (l ++ r) := by
  induction r generalizing l with
  | nil => simp
  | cons c r ih =>
    have hle := ih (l := l ++ [c]) (by simpa using h)
    rw [List.append_assoc,List.singleton_append] at hle
    refine le_trans ?_ hle
    by_cases hl : l = []
    · subst hl; simp [pathCost]
    · rw [pathCost_append_singleton hl]
      have hlast : l.getLastD home_town ∈ l := by
        rw [List.getLastD_eq_getLast?,List.getLast?_eq_some_getLast hl,Option.getD_some]
        exact List.getLast_mem hl
      have := d.nonneg (h _ (List.mem_append_left _ hlast))
        (h c (List.mem_append_right _ List.mem_cons_self))
      omega

theorem Hamiltonian.length {p : List ℕ} (h : Hamiltonian n p) : p.length = n := by
  simpa using h.perm.length_eq

theorem Hamiltonian.lt {p : List ℕ} (h : Hamiltonian n p) {c : ℕ} (hc : c ∈ p) : c < n :=
  List.mem_range.mp (h.perm.mem_iff.mp hc)

theorem Hamiltonian.nodup {p : List ℕ} (h : Hamiltonian n p) : p.Nodup :=
  h.perm.nodup_iff.mpr List.nodup_range

theorem hamiltonian_range (hn : 1 ≤ n) : Hamiltonian n (List.range n) where
  home := by
    obtain ⟨k,rfl⟩ := Nat.exists_eq_add_of_le hn
    rw [Nat.add_comm,List.range_succ_eq_map]
    rfl
  perm := .rfl

/-- A tour on the stack: a path from the home town through different cities. -/
structure IsPath (d : Digraph n) (t : Tour) : Prop where
  home : t.cities.head? = some home_town
  nodup : t.cities.Nodup
  lt : ∀ c ∈ t.cities, c < n
  cost : t.cost = pathCost d t.cities

namespace IsPath
variable {t : Tour}

theorem ne_nil (h : IsPath d t) : t.cities ≠ [] := fun he => by
  have := h.home
  simp [he] at this

theorem subperm (h : IsPath d t) : t.cities.Subperm (List.range n) :=
  h.nodup.subperm fun _ hc => List.mem_range.mpr (h.lt _ hc)

theorem length_le (h : IsPath d t) : t.cities.length ≤ n := by simpa using h.subperm.length_le

theorem init (hn : 1 ≤ n) : IsPath d (.Init_tour 0) :=
  ⟨rfl,by simp [Tour.Init_tour],by simp [Tour.Init_tour,home_town]; omega,rfl⟩

theorem Add_city (h : IsPath d t) {c : ℕ} (hc : c ∉ t.cities) (hlt : c < n) :
    IsPath d (t.Add_city d c) where
  home := by simp [h.home,List.head?_append]
  nodup := by
    rw [Tour.Add_city_cities]
    refine List.nodup_append.mpr ⟨h.nodup,by simp,?_⟩
    rintro a ha b hb rfl
    exact hc (List.mem_singleton.mp hb ▸ ha)
  lt x hx := by
    rcases List.mem_append.mp hx with hx | hx
    · exact h.lt x hx
    · exact List.mem_singleton.mp hx ▸ hlt
  cost := by
    rw [Tour.Add_city_cost,Tour.Add_city_cities,pathCost_append_singleton h.ne_nil,h.cost]
    rfl

/-- A tour through all cities is a Hamiltonian path. -/
theorem hamiltonian (h : IsPath d t) (hn : t.City_count = n) : Hamiltonian n t.cities :=
  ⟨h.home,h.subperm.perm_of_length_le (by simp [← hn,Tour.City_count])⟩

/-- The next city of a Hamiltonian path that a shorter tour begins. -/
theorem exists_next (h : IsPath d t) (hn : t.City_count ≠ n) {p : List ℕ} (hp : Hamiltonian n p)
    (hpre : t.cities <+: p) : ∃ c, t.cities ++ [c] <+: p ∧ 1 ≤ c ∧ c < n ∧ c ∉ t.cities := by
  obtain ⟨r,rfl⟩ := hpre
  cases r with
  | nil => exact absurd (by simpa [Tour.City_count] using hp.length) hn
  | cons c r =>
    have hnot : c ∉ t.cities := fun hm =>
      (List.nodup_append.mp hp.nodup).2.2 c hm c List.mem_cons_self rfl
    have hhome : home_town ∈ t.cities := List.mem_of_mem_head? h.home
    refine ⟨c,⟨r,by simp⟩,?_,hp.lt (by simp),hnot⟩
    by_contra hc
    obtain rfl : c = home_town := by unfold home_town; omega
    exact hnot hhome

end IsPath

/-- The tours on the stack by their place in it: a stack this high has been built by that many
cities, each with at most `n-2` tours left behind. -/
def Height (n : ℕ) (list : List Tour) : Prop :=
  ∀ q t, list[q]? = some t → q ≤ (t.City_count-1)*(n-2)

/-- The cycles are those examined, those cut off by the bound, and those below a waiting tour. -/
abbrev CyclesCovered (d : Digraph n) (best : ℤ) (list : List Tour) : Prop :=
  Covered (fun (t : Tour) p => t.cities <+: p) (cycleCost d) (Hamiltonian n) best list

/-- The search at the head of its loop or past it. -/
structure SearchInv (d : Digraph n) (s : Search n) : Prop where
  paths : ∀ t ∈ s.stack.list, IsPath d t
  height : Height n s.stack.list
  covered : CyclesCovered d s.loc_best_tour.cost s.stack.list
  best : s.loc_best_tour = .Init_tour INFINITY ∨ ∃ p, Hamiltonian n p ∧
    s.loc_best_tour = ⟨p ++ [home_town],cycleCost d p⟩
  global : s.global_best_tour_cost = s.loc_best_tour.cost
  status : s.status = .running ∧ s.term = {} ∨ s.status = .returned ∧ s.stack.list = []

/-- Tours weigh more than all the tours that one round makes of them. -/
def weight (n : ℕ) (t : Tour) : ℕ := n^(n-t.City_count)

section Rounds
variable {d : Digraph n} {min_split_sz : ℕ} {s : Search n}

/-- The tours that take the place of a tour. -/
def successors (d : Digraph n) (best : ℤ) (t : Tour) : List Tour :=
  if t.City_count = n then [] else children d (fun _ => best) (n-1) t

theorem Height.room {rest : List Tour} {t : Tour} (hn : 2 ≤ n) (ht : IsPath d t)
    (h : Height n (rest ++ [t])) : rest.length+(n-1) ≤ n*n := by
  have hq := h rest.length t (by simp)
  have hle := ht.length_le
  obtain ⟨m,rfl⟩ := Nat.exists_eq_add_of_le hn
  have hm : (t.City_count-1)*(2+m-2) ≤ (m+1)*m := by
    rw [Nat.add_sub_cancel_left]
    exact Nat.mul_le_mul_right m (by unfold Tour.City_count; omega)
  have : (m+1)*m+(m+1) ≤ (2+m)*(2+m) := by nlinarith
  omega

theorem Height.successors {best : ℤ} {rest : List Tour} {t : Tour} (hn : 2 ≤ n) (ht : IsPath d t)
    (h : Height n (rest ++ [t])) : Height n (rest ++ successors d best t) := by
  intro q u hu
  by_cases hq : q < rest.length
  · rw [List.getElem?_append_left hq] at hu
    exact h q u (by rwa [List.getElem?_append_left hq])
  · have hbase := h rest.length t (by simp)
    rw [List.getElem?_append_right (by omega)] at hu
    have hj := (List.getElem?_eq_some_iff.mp hu).1
    have hmem := List.mem_of_getElem? hu
    unfold Tsp.successors at hj hmem
    split_ifs at hj hmem with hc
    · simp at hmem
    · have hk := length_children_le (d := d) (fun _ => best) (n-1) t
      obtain ⟨c,-,-,-,rfl⟩ := mem_children.mp hmem
      have hcount : (t.Add_city d c).City_count-1 = (t.City_count-1)+1 := by
        have := List.length_pos_of_ne_nil ht.ne_nil
        simp only [Tour.City_count,Tour.Add_city_cities,List.length_append,List.length_singleton]
        omega
      rw [hcount,Nat.succ_mul]
      omega

/-- A round takes the top tour off and puts its successors in its place. -/
theorem visit_spec (best : ℤ) (hn : 2 ≤ n) (paths : ∀ t ∈ s.stack.list, IsPath d t)
    (height : Height n s.stack.list) (hne : s.stack.list ≠ []) :
    ∃ rest t stack, visit d (fun _ => best) s.stack = some (t,stack) ∧
      s.stack.list = rest ++ [t] ∧ stack.list = rest ++ successors d best t := by
  cases hpop : s.stack.Pop with
  | none => exact absurd (Stack.Pop_eq_none.mp hpop) hne
  | some r =>
    obtain ⟨t,rest⟩ := r
    have hlist := Stack.Pop_eq_some hpop
    have ht : IsPath d t := paths t (by simp [hlist])
    have hroom := Height.room hn ht (hlist ▸ height)
    unfold visit successors
    rw [hpop,Option.bind_some]
    by_cases hc : t.City_count = n
    · exact ⟨rest.list,t,rest,by simp [hc],hlist,by simp [hc]⟩
    · obtain ⟨stack,hs,hl⟩ := expand_eq_some (d := d) (fun _ => best) t hroom
      exact ⟨rest.list,t,stack,by simp [hc,hs],hlist,by simp [hc,hl]⟩

theorem isPath_successors {best : ℤ} {t u : Tour} (ht : IsPath d t)
    (hu : u ∈ successors d best t) : IsPath d u := by
  unfold successors at hu
  split_ifs at hu with hc
  · simp at hu
  · obtain ⟨c,h1,hk,hf,rfl⟩ := mem_children.mp hu
    exact ht.Add_city ((Tour.Feasible_iff d).mp hf).1 (by omega)

/-- The bound cuts off only cycles that are no better than the best. -/
theorem covered_successors {best : ℤ} {rest : List Tour} {t : Tour} (ht : IsPath d t)
    (hc : t.City_count ≠ n) (h : CyclesCovered d best (rest ++ [t])) :
    CyclesCovered d best (rest ++ successors d best t) := by
  refine h.branch fun p hp hpre => ?_
  obtain ⟨c,hcpre,h1,hlt,hnot⟩ := ht.exists_next hc hp hpre
  by_cases hf : t.cost+d.Cost t.Last_city c < best
  · refine .inr ⟨t.Add_city d c,?_,hcpre⟩
    rw [successors,if_neg hc]
    exact mem_children.mpr ⟨c,h1,by omega,(Tour.Feasible_iff d).mpr ⟨hnot,hf⟩,rfl⟩
  · refine .inl ?_
    obtain ⟨r,rfl⟩ := hcpre
    have hn : home_town < n := by unfold home_town; omega
    have hle := pathCost_le_append (d := d) (l := t.cities ++ [c]) (r := r ++ [home_town])
      fun x hx => by
        rw [← List.append_assoc] at hx
        rcases List.mem_append.mp hx with hx | hx
        · exact hp.lt hx
        · exact List.mem_singleton.mp hx ▸ hn
    have hcost := (ht.Add_city hnot hlt).cost
    rw [Tour.Add_city_cost,Tour.Add_city_cities] at hcost
    rw [← List.append_assoc] at hle
    unfold cycleCost
    omega

/-- The cost of a full tour closed by the way home. -/
theorem IsPath.cost_home {t : Tour} (ht : IsPath d t) :
    t.Add_city d home_town = ⟨t.cities ++ [home_town],cycleCost d t.cities⟩ := by
  have := pathCost_append_singleton (d := d) ht.ne_nil home_town
  rw [Tour.Add_city,cycleCost,this,ht.cost]
  rfl

theorem sum_weight_successors {best : ℤ} {t : Tour} (hn : 2 ≤ n) (ht : IsPath d t) :
    ((successors d best t).map (weight n)).sum < weight n t := by
  have hpos : 0 < weight n t := Nat.pow_pos (by omega)
  unfold successors
  split_ifs with hc
  · simpa using hpos
  · have hle := ht.length_le
    unfold Tour.City_count at hc
    obtain ⟨m,hm⟩ : ∃ m, n-t.cities.length = m+1 := ⟨n-t.cities.length-1,by omega⟩
    have hchild : ∀ c ∈ children d (fun _ => best) (n-1) t, weight n c ≤ n^m := by
      intro c hcm
      obtain ⟨x,-,-,-,rfl⟩ := mem_children.mp hcm
      have : n-(t.Add_city d x).City_count = m := by
        simp only [Tour.City_count,Tour.Add_city_cities,List.length_append,List.length_singleton]
        omega
      rw [weight,this]
    have hsum := sum_map_le_of_le (weight n) hchild
    have hlen := length_children_le (d := d) (fun _ => best) (n-1) t
    have hmul : (children d (fun _ => best) (n-1) t).length*n^m ≤ (n-1)*n^m :=
      Nat.mul_le_mul_right _ hlen
    have hw : weight n t = n*n^m := by
      rw [weight,Tour.City_count,hm,Nat.pow_succ,Nat.mul_comm]
    have hlt : (n-1)*n^m < n*n^m := Nat.mul_lt_mul_of_pos_right (by omega) (Nat.pow_pos (by omega))
    omega

/-- The body of the loop with a tour on the stack. -/
theorem SearchInv.body (h : SearchInv d s) (hn : 2 ≤ n) (hr : s.status = .running)
    (hne : s.stack.list ≠ []) : SearchInv d (body d s) ∧ (body d s).status = .running ∧
    ((body d s).stack.list.map (weight n)).sum < (s.stack.list.map (weight n)).sum := by
  obtain ⟨rest,t,stack,hv,hlist,hstack⟩ :=
    visit_spec s.loc_best_tour.cost hn h.paths h.height hne
  have ht : IsPath d t := h.paths t (by simp [hlist])
  have hterm : s.term = {} := by
    rcases h.status with hs | hs
    · exact hs.2
    · simp [hs.1] at hr
  have paths : ∀ u ∈ stack.list, IsPath d u := by
    intro u hu
    rcases List.mem_append.mp (hstack ▸ hu) with hu | hu
    · exact h.paths u (by simp [hlist,hu])
    · exact isPath_successors ht hu
  have height : Height n stack.list := hstack ▸ Height.successors hn ht (hlist ▸ h.height)
  have hweight : (stack.list.map (weight n)).sum < (s.stack.list.map (weight n)).sum := by
    rw [hstack,hlist]
    exact sum_weight_lt (weight n) (sum_weight_successors hn ht)
  have hcov := hlist ▸ h.covered
  unfold Tsp.body
  simp only [hv]
  by_cases hc : t.City_count = n
  · have hham := ht.hamiltonian hc
    have hnil : successors d s.loc_best_tour.cost t = [] := if_pos hc
    rw [hnil,List.append_nil] at hstack
    have hbelow : ∀ p, Hamiltonian n p → t.cities <+: p → p = t.cities := fun p hp hpre =>
      (hpre.eq_of_length (by rw [hp.length,← hc]; rfl)).symm
    have hcost : t.cost+d.Cost t.Last_city home_town = cycleCost d t.cities :=
      congrArg Tour.cost ht.cost_home
    by_cases hb : t.cost+d.Cost t.Last_city home_town < s.loc_best_tour.cost
    · have hbt : Best_tour d s.loc_best_tour t = true := decide_eq_true hb
      simp only [hc,hbt,and_self,if_true,Update_best_tour]
      refine ⟨⟨paths,height,?_,.inr ⟨t.cities,hham,ht.cost_home⟩,rfl,.inl ⟨hr,hterm⟩⟩,hr,hweight⟩
      rw [hstack]
      exact hcov.examine hb.le fun p hp hpre => by rw [hbelow p hp hpre]; exact hcost.le
    · have hbt : ¬ (t.City_count = n ∧ Best_tour d s.loc_best_tour t = true) := fun hx =>
        hb (of_decide_eq_true hx.2)
      simp only [if_neg hbt]
      refine ⟨⟨paths,height,?_,h.best,h.global,.inl ⟨hr,hterm⟩⟩,hr,hweight⟩
      rw [hstack]
      refine hcov.examine le_rfl fun p hp hpre => ?_
      rw [hbelow p hp hpre]
      exact hcost ▸ not_lt.mp hb
  · simp only [hc,false_and,if_false]
    refine ⟨⟨paths,height,?_,h.best,h.global,.inl ⟨hr,hterm⟩⟩,hr,hweight⟩
    rw [hstack]
    exact covered_successors ht hc hcov

theorem SearchInv.round (h : SearchInv d s) (hn : 2 ≤ n) :
    SearchInv d (round d min_split_sz s) ∧ (s.status = .running →
      (round d min_split_sz s).status = .running →
      ((round d min_split_sz s).stack.list.map (weight n)).sum <
        (s.stack.list.map (weight n)).sum) := by
  rcases h.status with ⟨hr,hterm⟩ | ⟨hr,hnil⟩
  · by_cases hne : s.stack.list = []
    · have htrue : Terminated 1 min_split_sz s.term s.stack = some (true,⟨none,1⟩,s.stack) := by
        simp [Terminated,hterm,Stack.Empty_stack,hne]
      simp only [Tsp.round,hr,htrue]
      exact ⟨⟨h.paths,h.height,h.covered,h.best,h.global,.inr ⟨rfl,hne⟩⟩,by simp⟩
    · have hfalse : Terminated 1 min_split_sz s.term s.stack = some (false,s.term,s.stack) := by
        simp [Terminated,hterm,Stack.Empty_stack,hne]
      have hround : Tsp.round d min_split_sz s = Tsp.body d s := by
        unfold Tsp.round
        rw [hr]
        simp only [hfalse]
        rw [← hr]
      rw [hround]
      obtain ⟨hinv,-,hlt⟩ := h.body hn hr hne
      exact ⟨hinv,fun _ _ => hlt⟩
  · simp only [Tsp.round,hr]
    exact ⟨h,by simp⟩

end Rounds

/-- The invariant at the first round, where there is a queue. -/
theorem searchInv_start (d : Digraph n) (hn : 2 ≤ n) (fuel : ℕ) (hq : (n : ℤ)-1 ≤ Fact (n-1)) :
    SearchInv d (start d (fuel+1)) := by
  have hstart : start d (fuel+1) =
      ⟨rootStack hn,{},.Init_tour INFINITY,INFINITY,.running⟩ := by
    simp only [start,Partition_tree_one hn fuel,if_neg (not_lt.mpr hq)]
  rw [hstart]
  refine ⟨fun t ht => ?_,fun q t hq => ?_,fun p hp => ?_,.inl rfl,rfl,.inl ⟨rfl,rfl⟩⟩
  · obtain rfl := List.mem_singleton.mp ht
    exact .init (by omega)
  · have hlt : q < 1 := (List.getElem?_eq_some_iff.mp hq).1
    omega
  · refine .inr ⟨.Init_tour 0,List.mem_singleton_self _,?_⟩
    obtain ⟨r,rfl⟩ := List.head?_eq_some_iff.mp hp.home
    exact ⟨r,rfl⟩

/-- With a queue the search is exact. -/
theorem searchExact_of_queue (d : Digraph n) (hn : 2 ≤ n)
    (small : ∀ p, Hamiltonian n p → cycleCost d p < INFINITY) (min_split_sz fuel : ℕ)
    (hq : (n : ℤ)-1 ≤ Fact (n-1)) : SearchExact d min_split_sz (fuel+1) := by
  have hinit := searchInv_start d hn fuel hq
  have hinv (k : ℕ) : SearchInv d (searchAfter d min_split_sz (fuel+1) k) :=
    iterate_invariant (fun s hs => (hs.round hn).1) hinit k
  obtain ⟨k,hk⟩ := exists_iterate_not_running (f := round d min_split_sz)
    (I := SearchInv d) (fun s => s.status = .running) (fun s => (s.stack.list.map (weight n)).sum)
    (fun _ hs => (hs.round hn).1) (fun _ hs => (hs.round hn).2) hinit
  constructor
  · have hend := hinv k
    rcases hend.status with ⟨hs,-⟩ | ⟨hs,hnil⟩
    · exact absurd hs hk
    · refine ⟨k,hs,?_⟩
      have hopt (p : List ℕ) (hp : Hamiltonian n p) :
          (searchAfter d min_split_sz (fuel+1) k).loc_best_tour.cost ≤ cycleCost d p :=
        (hnil ▸ hend.covered).optimal hp
      rcases hend.best with hb | ⟨p,hp,hb⟩
      · have hham := hamiltonian_range (n := n) (by omega)
        have := hopt _ hham
        rw [hb] at this
        have := small _ hham
        exact absurd this (not_lt.mpr (by assumption))
      · refine ⟨p,hp,fun q hq => ?_,hb,?_⟩
        · have := hopt q hq
          rwa [hb] at this
        · rw [hend.global,hb]
  · intro k
    rcases (hinv k).status with ⟨hs,-⟩ | ⟨hs,-⟩ <;> simp [hs]

/-- Without a queue the thread leaves before it has searched anything. -/
theorem not_searchExact_of_no_queue (d : Digraph n) (hn : 2 ≤ n) (min_split_sz fuel : ℕ)
    (hq : Fact (n-1) < (n : ℤ)-1) : ¬ SearchExact d min_split_sz (fuel+1) := by
  rintro ⟨⟨k,hk,-⟩,-⟩
  have hstart : (start d (fuel+1)).status = .noTours := by
    simp only [start,Partition_tree_one hn fuel,if_pos hq]
  have hstay : (searchAfter d min_split_sz (fuel+1) k).status = .noTours :=
    iterate_invariant (I := fun s : Search n => s.status = .noTours)
      (fun s hs => by simp only [round,hs]) hstart k
  rw [hk] at hstay
  simp at hstay

/-- One process with one thread finds a cheapest Hamiltonian cycle, and its stack never
overflows, exactly where `(n-1)!` as a `long long` is no less than `n-1`. -/
theorem searchExact_iff (n : ℕ) (hn : 2 ≤ n) (d : Digraph n)
    (small : ∀ p, Hamiltonian n p → cycleCost d p < INFINITY) (min_split_sz fuel : ℕ) :
    SearchExact d min_split_sz (fuel+1) ↔ (n : ℤ)-1 ≤ Fact (n-1) := by
  refine ⟨fun h => ?_,searchExact_of_queue d hn small min_split_sz fuel⟩
  by_contra hq
  exact not_searchExact_of_no_queue d hn min_split_sz fuel (by omega) h

/-- Up to 21 cities the factorial fits, and there is a queue. -/
theorem queue_of_le {n : ℕ} (hn : n ≤ 21) : (n : ℤ)-1 ≤ Fact (n-1) := by
  rw [Fact_eq_factorial (by omega)]
  have := Nat.self_le_factorial (n-1)
  omega

theorem pathCost_unitCosts_le (n : ℕ) (l : List ℕ) : pathCost (unitCosts n) l ≤ l.length := by
  induction l with
  | nil => rfl
  | cons a l ih =>
    cases l with
    | nil => simp [pathCost]
    | cons b l =>
      have h1 : (unitCosts n).Cost a b ≤ 1 := by unfold unitCosts; dsimp only; split_ifs <;> omega
      simp only [pathCost,List.length_cons,Nat.cast_add,Nat.cast_one] at ih ⊢
      omega

theorem cycleCost_unitCosts_lt {n : ℕ} (hn : n < 999999) {p : List ℕ} (hp : Hamiltonian n p) :
    cycleCost (unitCosts n) p < INFINITY := by
  have hle := pathCost_unitCosts_le n (p ++ [home_town])
  simp only [List.length_append,hp.length,List.length_singleton] at hle
  unfold cycleCost INFINITY
  omega

theorem searchExact_iff_five : SearchExact (unitCosts 5) 2 1 ↔ (5 : ℤ)-1 ≤ Fact 4 :=
  searchExact_iff 5 (by decide) (unitCosts 5) (fun _ => cycleCost_unitCosts_lt (by decide)) 2 0

/-- With 22 cities `21!` does not fit: it comes out negative, and there is no search. -/
theorem not_searchExact_unitCosts : (∀ p, Hamiltonian 22 p → cycleCost (unitCosts 22) p < INFINITY) ∧
    Fact 21 = -4249290049419214848 ∧ ¬ SearchExact (unitCosts 22) 1 1 := by
  have hf : Fact 21 = -4249290049419214848 := by decide +kernel
  refine ⟨fun _ => cycleCost_unitCosts_lt (by decide),hf,?_⟩
  exact not_searchExact_of_no_queue (unitCosts 22) (by decide) 1 0 (hf ▸ by decide)

end Paths
end PucRio.Tsp
