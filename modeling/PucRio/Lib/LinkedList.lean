import PucRio.Lib.PartialRun
import Mathlib.Data.Finset.Card
import Mathlib.Data.Finset.SDiff
import Mathlib.Data.List.Nodup
import Mathlib.Logic.Function.Basic

/-! A heap of cells, which `malloc` gives and `free` takes back, and the linked lists in it. -/
namespace PucRio
variable {α β : Type}

/-- How a program on a heap stops before its end. -/
inductive HeapStop
  /-- `malloc` gives `NULL`. -/
  | exhausted
  /-- A pointer is followed that leads to no cell, or to one of another kind. -/
  | invalid
  /-- A loop does not end. -/
  | endless
  deriving DecidableEq, Repr

structure Heap (β : Type) where
  live : Finset ℕ
  cell : ℕ → β
  requests : ℕ

/-- What a request is answered with, by how many there were before. -/
structure Allocator where
  malloc : ℕ → Finset ℕ → Option ℕ
  fresh : ∀ n s a, malloc n s = some a → a ∉ s

def Allocator.Refuses (A : Allocator) : Prop := ∃ n s, A.malloc n s = none

namespace Heap

def load (h : Heap β) : Option ℕ → Except HeapStop β
  | none => .error .invalid
  | some a => if a ∈ h.live then .ok (h.cell a) else .error .invalid

def store (h : Heap β) (p : Option ℕ) (c : β) : Except HeapStop (Heap β) :=
  match p with
  | none => .error .invalid
  | some a =>
    if a ∈ h.live then .ok { h with cell := Function.update h.cell a c } else .error .invalid

/-- A new cell with its first contents. -/
def malloc (A : Allocator) (h : Heap β) (c : β) : Except HeapStop (ℕ × Heap β) :=
  match A.malloc h.requests h.live with
  | none => .error .exhausted
  | some a => .ok (a,⟨insert a h.live,Function.update h.cell a c,h.requests+1⟩)

def free (h : Heap β) : Option ℕ → Except HeapStop (Heap β)
  | none => .ok h
  | some a => if a ∈ h.live then .ok { h with live := h.live.erase a } else .error .invalid

/-- The cells in use are the same, with the same contents. -/
def Same (h h' : Heap β) : Prop := h.live = h'.live ∧ ∀ a ∈ h.live, h.cell a = h'.cell a

variable {h h' : Heap β} {a b : ℕ} {c : β}

theorem load_some (ha : a ∈ h.live) : h.load (some a) = .ok (h.cell a) := if_pos ha

theorem store_some (ha : a ∈ h.live) :
    h.store (some a) c = .ok { h with cell := Function.update h.cell a c } := if_pos ha

theorem free_some (ha : a ∈ h.live) :
    h.free (some a) = .ok { h with live := h.live.erase a } := if_pos ha

/-- A request fails, or it gives a new cell. -/
theorem malloc_cases (A : Allocator) (h : Heap β) (c : β) :
    (A.Refuses ∧ h.malloc A c = .error .exhausted) ∨ ∃ a, a ∉ h.live ∧
      h.malloc A c = .ok (a,⟨insert a h.live,Function.update h.cell a c,h.requests+1⟩) := by
  rw [malloc]
  cases ha : A.malloc h.requests h.live with
  | none => exact .inl ⟨⟨_,_,ha⟩,rfl⟩
  | some a => exact .inr ⟨a,A.fresh _ _ _ ha,rfl⟩

section Lists
variable (view : β → Option (α × Option ℕ))

/-- The value in a cell of a list, and the pointer to the next one. -/
def node (h : Heap β) (p : Option ℕ) : Except HeapStop (α × Option ℕ) := do
  let c ← h.load p
  (view c).elim (.error .invalid) .ok

/-- The values from a pointer on, with their addresses. -/
inductive Chain (h : Heap β) : Option ℕ → List (ℕ × α) → Prop
  | nil : Chain h none []
  | cons {a : ℕ} {v : α} {next : Option ℕ} {l : List (ℕ × α)} : a ∈ h.live →
      view (h.cell a) = some (v,next) → Chain h next l → Chain h (some a) ((a,v)::l)

/-- The last cell: `while (temp->next != NULL) temp = temp->next;`. -/
def last (h : Heap β) : ℕ → Option ℕ → Except HeapStop (Option ℕ)
  | 0,_ => .error .endless
  | n+1,p => do
    let (_,next) ← h.node view p
    if next.isNone then return p else last h n next

/-- Every cell from a pointer on is freed when the pointer to the next one has been read. -/
def freeAll : ℕ → Heap β → Option ℕ → Except HeapStop (Heap β)
  | _,h,none => .ok h
  | 0,_,some _ => .error .endless
  | n+1,h,some a => do
    let (_,next) ← h.node view (some a)
    let h ← h.free (some a)
    freeAll n h next

end Lists

variable {view : β → Option (α × Option ℕ)} {p next : Option ℕ} {v : α} {l m : List (ℕ × α)}

theorem node_some (ha : a ∈ h.live) (hv : view (h.cell a) = some (v,next)) :
    h.node view (some a) = .ok (v,next) := by
  rw [node,load_some ha,except_ok_bind,hv]
  rfl

namespace Chain

theorem live (hc : Chain view h p l) : ∀ x ∈ l, x.1 ∈ h.live := by
  induction hc with
  | nil => simp
  | cons ha hv hc ih => exact List.forall_mem_cons.mpr ⟨ha,ih⟩

/-- Only the cells of the list count. -/
theorem congr (hc : Chain view h p l) (hlive : ∀ x ∈ l, x.1 ∈ h'.live)
    (hcell : ∀ x ∈ l, h'.cell x.1 = h.cell x.1) : Chain view h' p l := by
  induction hc with
  | nil => exact .nil
  | cons ha hv hc ih =>
    rw [List.forall_mem_cons] at hlive hcell
    refine .cons hlive.1 ?_ (ih hlive.2 hcell.2)
    rw [hcell.1,hv]

theorem length_le (hc : Chain view h p l) (hl : (l.map Prod.fst).Nodup) :
    l.length ≤ h.live.card := by
  rw [← List.length_map (Prod.fst : ℕ × α → ℕ),← List.toFinset_card_of_nodup hl]
  apply Finset.card_le_card
  intro a ha
  obtain ⟨x,hx,rfl⟩ := List.mem_map.mp (List.mem_toFinset.mp ha)
  exact hc.live x hx

/-- The loop ends at the last cell. -/
theorem last_eq {n : ℕ} (hc : Chain view h p (l++[(b,v)])) (hn : l.length < n) :
    last view h n p = .ok (some b) := by
  induction l generalizing p n with
  | nil =>
    obtain ⟨n,rfl⟩ := Nat.exists_eq_add_of_lt hn
    cases hc with
    | cons ha hv hc =>
      cases hc
      rw [last,node_some ha hv]
      rfl
  | cons x l ih =>
    obtain ⟨n,rfl⟩ : ∃ k, n = k+1 := ⟨n-1,by simp at hn; omega⟩
    cases hc with
    | @cons _ _ next _ ha hv hc =>
      rw [last,node_some ha hv,except_ok_bind]
      cases next with
      | none => cases l <;> cases hc
      | some a => exact ih hc (Nat.lt_of_succ_lt_succ hn)

theorem last_view (hc : Chain view h p (l++[(b,v)])) : view (h.cell b) = some (v,none) := by
  induction l generalizing p with
  | nil =>
    cases hc with
    | cons ha hv hc =>
      cases hc
      exact hv
  | cons x l ih =>
    cases hc with
    | cons ha hv hc => exact ih hc

/-- Another list may follow the last cell. -/
theorem append (hc : Chain view h p (l++[(b,v)])) (hlive : ∀ x ∈ l, x.1 ∈ h'.live)
    (hcell : ∀ x ∈ l, h'.cell x.1 = h.cell x.1) (hb : b ∈ h'.live)
    (hv : view (h'.cell b) = some (v,next)) (hm : Chain view h' next m) :
    Chain view h' p (l++(b,v)::m) := by
  induction l generalizing p with
  | nil =>
    cases hc with
    | cons => exact .cons hb hv hm
  | cons x l ih =>
    rw [List.forall_mem_cons] at hlive hcell
    cases hc with
    | cons ha hx hc =>
      refine .cons hlive.1 ?_ (ih hc hlive.2 hcell.2)
      rw [hcell.1,hx]

theorem freeAll_eq {n : ℕ} (hc : Chain view h p l) (hl : (l.map Prod.fst).Nodup)
    (hn : l.length ≤ n) :
    freeAll view n h p = .ok { h with live := h.live \ (l.map Prod.fst).toFinset } := by
  induction l generalizing n h p with
  | nil =>
    cases hc
    cases n <;> simp [freeAll]
  | cons x l ih =>
    obtain ⟨n,rfl⟩ : ∃ k, n = k+1 := ⟨n-1,by simp at hn; omega⟩
    cases hc with
    | @cons a v next _ ha hv hc =>
      obtain ⟨hal,hl⟩ := List.nodup_cons.mp hl
      have hrest : Chain view { h with live := h.live.erase a } next l := by
        apply hc.congr
        · intro y hy
          have hne : y.1 ≠ a := fun heq => hal (List.mem_map.mpr ⟨y,hy,heq⟩)
          exact Finset.mem_erase.mpr ⟨hne,hc.live y hy⟩
        · simp
      rw [freeAll]
      simp only [node_some ha hv,free_some ha,except_ok_bind,ih hrest hl (Nat.le_of_succ_le_succ hn)]
      simp [Finset.erase_sdiff_comm,Finset.sdiff_insert]

end Chain
end Heap
end PucRio
