import Mathlib.Logic.Function.Basic
import PucRio.Tsp.Tour

/-! `Split_stack` on the arrays: the loop compacts the list of the old stack in place while it fills
the one of the new stack. Entries are pointers to tours, so two of them may be equal tours. -/
namespace PucRio.Tsp
variable {α : Type*}

/-- `my_stack_struct`, with what lies in `list` behind `list_sz`. -/
structure StackArray (α : Type*) where
  list : ℕ → α
  list_sz : ℕ

def StackArray.tours (stack : StackArray α) : List α := (List.range stack.list_sz).map stack.list

/-- What the loop of `Split_stack` writes. -/
structure Split (α : Type*) where
  old : StackArray α
  new : StackArray α

namespace StackArray

/-- `list[dest++] = tour` -/
def append (stack : StackArray α) (tour : α) : StackArray α :=
  ⟨Function.update stack.list stack.list_sz tour,stack.list_sz+1⟩

@[simp] theorem tours_append (stack : StackArray α) (tour : α) :
    (stack.append tour).tours = stack.tours ++ [tour] := by
  simp only [tours,append,List.range_succ,List.map_append,List.map_cons,List.map_nil,
    Function.update_self]
  congr 1
  apply List.map_congr_left
  intro i hi
  have hlt := List.mem_range.mp hi
  exact Function.update_of_ne (by omega) _ _

theorem append_list_of_lt (stack : StackArray α) (tour : α) {i : ℕ} (hi : stack.list_sz < i) :
    (stack.append tour).list i = stack.list i :=
  Function.update_of_ne (by omega) _ _

end StackArray

namespace Split

/-- The body of the loop; the sizes of the two stacks are `old_dest` and `new_dest`. -/
def pass (list_sz new_src : ℕ) (s : Split α) : Split α :=
  let old_src := new_src+1
  let new := s.new.append (s.old.list new_src)
  if old_src < list_sz then ⟨s.old.append (s.old.list old_src),new⟩ else ⟨s.old,new⟩

def loop (list_sz : ℕ) : ℕ → ℕ → Split α → Split α
  | 0,_,s => s
  | fuel+1,new_src,s =>
    if new_src < list_sz then loop list_sz fuel (new_src+2) (s.pass list_sz new_src) else s

end Split

/-- The old stack and the new one; `list` is what `Init_stack` allocates. -/
def StackArray.Split_stack (list : ℕ → α) (stack : StackArray α) : StackArray α × StackArray α :=
  let s := Split.loop stack.list_sz stack.list_sz 1 ⟨⟨stack.list,1⟩,⟨list,0⟩⟩
  (s.old,s.new)

section Loop

/-- What the loop has not read yet. -/
def rest (list_sz new_src : ℕ) (list : ℕ → α) : List α :=
  (List.range' new_src (list_sz-new_src)).map list

theorem rest_of_le {list_sz new_src : ℕ} (h : list_sz ≤ new_src) (list : ℕ → α) :
    rest list_sz new_src list = [] := by
  simp [rest,h]

theorem rest_of_lt {list_sz new_src : ℕ} (h : new_src < list_sz) (list : ℕ → α) :
    rest list_sz new_src list = list new_src::rest list_sz (new_src+1) list := by
  rw [rest,show list_sz-new_src = list_sz-(new_src+1)+1 by omega,List.range'_succ]
  rfl

theorem rest_append {list_sz new_src : ℕ} {stack : StackArray α} (h : stack.list_sz < new_src) (tour : α) :
    rest list_sz new_src (stack.append tour).list = rest list_sz new_src stack.list := by
  apply List.map_congr_left
  intro i hi
  obtain ⟨hle,-⟩ := List.mem_range'_1.mp hi
  exact stack.append_list_of_lt tour (by omega)

/-- The loop deals out what it has not read yet; it writes in the old list behind that. -/
theorem loop_tours (list_sz fuel new_src : ℕ) (s : Split α) (hfuel : list_sz ≤ new_src+2*fuel)
    (hdest : s.old.list_sz ≤ new_src) :
    (s.loop list_sz fuel new_src).old.tours =
        s.old.tours ++ (Stack.splitPairs (rest list_sz new_src s.old.list)).1 ∧
      (s.loop list_sz fuel new_src).new.tours =
        s.new.tours ++ (Stack.splitPairs (rest list_sz new_src s.old.list)).2 := by
  induction fuel generalizing new_src s with
  | zero => simp [Split.loop,rest_of_le (show list_sz ≤ new_src by omega),Stack.splitPairs]
  | succ fuel ih =>
    rw [Split.loop]
    split_ifs with hlt
    · by_cases hnext : new_src+1 < list_sz
      · have hpass : s.pass list_sz new_src =
            ⟨s.old.append (s.old.list (new_src+1)),s.new.append (s.old.list new_src)⟩ := if_pos hnext
        obtain ⟨hold,hnew⟩ := ih (new_src+2) (s.pass list_sz new_src) (by omega)
          (by rw [hpass]; exact Nat.succ_le_succ (by omega))
        rw [hold,hnew,hpass,rest_append (by omega),rest_of_lt hlt,rest_of_lt hnext]
        simp [Stack.splitPairs]
      · have hpass : s.pass list_sz new_src = ⟨s.old,s.new.append (s.old.list new_src)⟩ := if_neg hnext
        obtain ⟨hold,hnew⟩ := ih (new_src+2) (s.pass list_sz new_src) (by omega)
          (by rw [hpass]; exact hdest.trans (by omega))
        rw [hold,hnew,hpass,rest_of_lt hlt,rest_of_le (by omega),rest_of_le (by omega)]
        simp [Stack.splitPairs]
    · simp [rest_of_le (show list_sz ≤ new_src by omega),Stack.splitPairs]

/-- The two stacks of the arrays are those of the lists. -/
theorem Split_stack_tours (list : ℕ → α) {stack : StackArray α} (h : 1 ≤ stack.list_sz) :
    (stack.Split_stack list).1.tours =
        stack.tours.take 1 ++ (Stack.splitPairs (stack.tours.drop 1)).1 ∧
      (stack.Split_stack list).2.tours = (Stack.splitPairs (stack.tours.drop 1)).2 := by
  have hrest : stack.tours = stack.list 0::rest stack.list_sz 1 stack.list := by
    rw [← Nat.zero_add 1,← rest_of_lt h,StackArray.tours,List.range_eq_range',rest,Nat.sub_zero]
  obtain ⟨hold,hnew⟩ := loop_tours stack.list_sz stack.list_sz 1 ⟨⟨stack.list,1⟩,⟨list,0⟩⟩
    (by omega) le_rfl
  rw [hrest]
  exact ⟨hold,hnew⟩

end Loop

/-- The array form refines `Stack.Split_stack`. -/
theorem Split_stack_refines {n : ℕ} {stack : Stack n} {array : StackArray Tour}
    (h : array.tours = stack.list) (hpos : 1 ≤ array.list_sz) (list : ℕ → Tour) :
    (array.Split_stack list).1.tours = stack.Split_stack.1.list ∧
      (array.Split_stack list).2.tours = stack.Split_stack.2.list := by
  have htours := Split_stack_tours list hpos
  rwa [h] at htours

section Splits

theorem splitPairs_perm (l : List α) : ((Stack.splitPairs l).1 ++ (Stack.splitPairs l).2).Perm l := by
  induction l using Stack.splitPairs.induct with
  | case1 => exact .refl _
  | case2 a => exact .refl _
  | case3 a b l ih =>
    refine (List.Perm.cons b (List.perm_middle.trans (ih.cons a))).trans ?_
    exact .swap a b l

theorem splitPairs_sublist (l : List α) :
    (Stack.splitPairs l).1.Sublist l ∧ (Stack.splitPairs l).2.Sublist l := by
  induction l using Stack.splitPairs.induct with
  | case1 => exact ⟨.refl _,.refl _⟩
  | case2 a => exact ⟨List.nil_sublist _,.refl _⟩
  | case3 a b l ih => exact ⟨(ih.1.cons_cons b).cons a,(ih.2.cons b).cons_cons a⟩

theorem splitPairs_ne_nil {l : List α} (hl : l ≠ []) : (Stack.splitPairs l).2 ≠ [] := by
  induction l using Stack.splitPairs.induct with
  | case1 => exact absurd rfl hl
  | case2 a => exact List.cons_ne_nil _ _
  | case3 a b l ih => exact List.cons_ne_nil _ _

/-- Neither stack is empty, the tours of both are those there were, and no two of them change
places. -/
def SplitsTours (tours old new : List α) : Prop :=
  old ≠ [] ∧ new ≠ [] ∧ (old ++ new).Perm tours ∧ old.Sublist tours ∧ new.Sublist tours

/-- A stack is split as it should unless it holds a single tour, and then the new one is empty. -/
theorem Split_stack_splits_iff {min_split_sz : ℕ} (hmin : 1 ≤ min_split_sz) {stack : StackArray α}
    (hsz : min_split_sz ≤ stack.list_sz) (list : ℕ → α) :
    SplitsTours stack.tours (stack.Split_stack list).1.tours (stack.Split_stack list).2.tours ↔
      2 ≤ stack.list_sz := by
  obtain ⟨hold,hnew⟩ := Split_stack_tours list (hmin.trans hsz)
  have hlen : stack.tours.length = stack.list_sz := by simp [StackArray.tours]
  rw [hold,hnew]
  cases htours : stack.tours with
  | nil =>
    rw [htours,List.length_nil] at hlen
    omega
  | cons tour tours =>
    rw [htours,List.length_cons] at hlen
    rw [List.take_succ_cons,List.take_zero,List.drop_succ_cons,List.drop_zero]
    constructor
    · rintro ⟨-,hne,-⟩
      cases tours with
      | nil => exact absurd rfl hne
      | cons _ tours =>
        rw [List.length_cons] at hlen
        omega
    · intro h2
      have hne : tours ≠ [] := by
        rintro rfl
        rw [List.length_nil] at hlen
        omega
      obtain ⟨hs1,hs2⟩ := splitPairs_sublist tours
      exact ⟨List.cons_ne_nil _ _,splitPairs_ne_nil hne,(splitPairs_perm tours).cons tour,
        hs1.cons_cons tour,hs2.cons tour⟩

/-- Two tours, on a stack that may be split from one tour on. -/
def twoTours : StackArray Tour := ⟨fun i => .Init_tour i,2⟩

theorem Split_stack_splits_iff_two : SplitsTours twoTours.tours
    (twoTours.Split_stack fun _ => .Init_tour 0).1.tours
    (twoTours.Split_stack fun _ => .Init_tour 0).2.tours ↔ 2 ≤ twoTours.list_sz :=
  Split_stack_splits_iff (le_refl 1) (by decide) _

/-- Of a stack of one tour nothing is given away. -/
theorem not_SplitsTours_single : ¬ ∀ (min_split_sz : ℕ) (stack : StackArray Tour) (list : ℕ → Tour),
    1 ≤ min_split_sz → min_split_sz ≤ stack.list_sz →
      SplitsTours stack.tours (stack.Split_stack list).1.tours (stack.Split_stack list).2.tours := by
  intro hall
  obtain ⟨-,hne,-⟩ := hall 1 ⟨fun _ => .Init_tour 0,1⟩ (fun _ => .Init_tour 0) le_rfl le_rfl
  exact hne rfl

end Splits
end PucRio.Tsp
