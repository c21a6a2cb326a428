import Mathlib.Data.List.Nodup
import Mathlib.Tactic.SplitIfs

/-! Second chance: the keys in the order in which they were loaded, each with a bit that every access
sets. The key to go is the first with its bit clear; those before it lose theirs and go behind. -/
namespace PucRio.SecondChance
variable {α : Type*}

structure Cache (α : Type*) where
  queue : List (α × Bool)
  faults : ℕ
  deriving DecidableEq

def Cache.empty : Cache α := ⟨[],0⟩

def clear (x : α × Bool) : α × Bool := (x.1,false)

/-- The queue without the key to go; the keys of the second list have been passed over. -/
def evictFrom : List (α × Bool) → List (α × Bool) → List (α × Bool)
  | (a,true)::queue,passed => evictFrom queue (passed++[(a,false)])
  | (_,false)::queue,passed => queue++passed
  | [],passed => passed.tail

def evict (queue : List (α × Bool)) : List (α × Bool) := evictFrom queue []

theorem evictFrom_append {front queue passed : List (α × Bool)} (h : ∀ x ∈ front, x.2 = true) :
    evictFrom (front++queue) passed = evictFrom queue (passed++front.map clear) := by
  induction front generalizing passed with
  | nil => simp
  | cons x front ih =>
    obtain ⟨a,bit⟩ := x
    obtain rfl : bit = true := h _ List.mem_cons_self
    rw [List.cons_append,evictFrom,ih fun x hx => h x (List.mem_cons_of_mem _ hx),List.map_cons,
      List.append_assoc]
    rfl

/-- Some key is to go before all have been passed over. -/
theorem evict_append_cons {front rest : List (α × Bool)} {a : α} (h : ∀ x ∈ front, x.2 = true) :
    evict (front++(a,false)::rest) = rest++front.map clear := by
  rw [evict,evictFrom_append h]
  rfl

/-- All are passed over, and the first one goes. -/
theorem evict_of_forall {queue : List (α × Bool)} (h : ∀ x ∈ queue, x.2 = true) :
    evict queue = (queue.map clear).tail := by
  have heq : evictFrom (queue++[]) [] = evictFrom [] ([]++queue.map clear) := evictFrom_append h
  rw [List.append_nil] at heq
  exact heq

section
variable [DecidableEq α]

/-- An access sets the bit of its key. -/
def touch (a : α) (queue : List (α × Bool)) : List (α × Bool) :=
  queue.map fun x => if x.1 = a then (a,true) else x

/-- An access to a cache with room for `capacity` keys. -/
def Cache.access (capacity : ℕ) (cache : Cache α) (a : α) : Cache α :=
  if a ∈ cache.queue.map Prod.fst then ⟨touch a cache.queue,cache.faults⟩
  else if cache.queue.length < capacity then ⟨cache.queue++[(a,true)],cache.faults+1⟩
  else ⟨evict cache.queue++[(a,true)],cache.faults+1⟩

/-- The cache after a trace of accesses. -/
def secondChance (capacity : ℕ) (trace : List α) : Cache α :=
  trace.foldl (Cache.access capacity) Cache.empty

theorem secondChance_append (capacity : ℕ) (trace : List α) (a : α) :
    secondChance capacity (trace++[a]) = (secondChance capacity trace).access capacity a := by
  rw [secondChance,List.foldl_append]
  rfl

/-- An access to a key with its bit set changes nothing. -/
theorem touch_eq_self {a : α} {queue : List (α × Bool)} (h : ∀ x ∈ queue, x.1 = a → x.2 = true) :
    touch a queue = queue := by
  unfold touch
  conv_rhs => rw [← List.map_id queue]
  apply List.map_congr_left
  intro x hx
  split_ifs with ha
  · exact Prod.ext ha.symm (h x hx ha).symm
  · rfl

theorem touch_append_cons {a : α} {front rest : List (α × Bool)} {bit : Bool}
    (hfront : a ∉ front.map Prod.fst) (hrest : a ∉ rest.map Prod.fst) :
    touch a (front++(a,bit)::rest) = front++(a,true)::rest := by
  have hself {l : List (α × Bool)} (hl : a ∉ l.map Prod.fst) : touch a l = l :=
    touch_eq_self fun x hx ha => absurd (ha ▸ List.mem_map_of_mem hx) hl
  calc touch a (front++(a,bit)::rest)
      = touch a front++(if a = a then (a,true) else (a,bit))::touch a rest := List.map_append
    _ = front++(a,true)::rest := by rw [hself hfront,hself hrest,if_pos rfl]

end
end PucRio.SecondChance
