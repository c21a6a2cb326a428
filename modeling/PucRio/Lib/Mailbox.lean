import Mathlib.Data.List.Count
import Mathlib.Data.List.Perm.Basic

/-! Queues of messages, counted by a property: taking one message out by its position, and
appending to each queue what a list of addressed messages holds for it. -/
namespace PucRio
variable {α ι : Type*}

theorem countP_eraseIdx_le (l : List α) (k : ℕ) (p : α → Bool) :
    (l.eraseIdx k).countP p ≤ l.countP p := (List.eraseIdx_sublist l k).countP_le

/-- Taking one element out of a list, counted. -/
theorem countP_eraseIdx_add {l : List α} {k : ℕ} {a : α} (h : l[k]? = some a) (p : α → Bool) :
    (l.eraseIdx k).countP p + (if p a then 1 else 0) = l.countP p := by
  obtain ⟨hk,rfl⟩ := List.getElem?_eq_some_iff.mp h
  rw [← (List.getElem_cons_eraseIdx_perm hk).countP_eq p,List.countP_cons]

variable [DecidableEq ι]

/-- What a list of addressed messages holds for the destination `d`, in order. -/
def addressedTo (sent : List (ι × α)) (d : ι) : List α :=
  sent.filterMap (fun m => if m.1 = d then some m.2 else none)

@[simp] theorem addressedTo_nil (d : ι) : addressedTo ([] : List (ι × α)) d = [] := rfl

theorem addressedTo_cons (m : ι × α) (sent : List (ι × α)) (d : ι) :
    addressedTo (m::sent) d = if m.1 = d then m.2::addressedTo sent d else addressedTo sent d := by
  by_cases h : m.1 = d <;> simp [addressedTo,h]

theorem countP_addressedTo (sent : List (ι × α)) (d : ι) (p : α → Bool) :
    (addressedTo sent d).countP p = sent.countP (fun m => m.1 = d ∧ p m.2) := by
  induction sent with
  | nil => rfl
  | cons m sent ih => by_cases h : m.1 = d <;> simp [addressedTo_cons,h,List.countP_cons,ih]

theorem mem_addressedTo {sent : List (ι × α)} {d : ι} {a : α} :
    a ∈ addressedTo sent d ↔ (d,a) ∈ sent := by
  simp [addressedTo]

/-- One message to everybody on a list. -/
theorem addressedTo_map_const {l : List ι} (hl : l.Nodup) (a : α) (d : ι) :
    addressedTo (l.map (·,a)) d = if d ∈ l then [a] else [] := by
  induction l with
  | nil => rfl
  | cons i l ih =>
    obtain ⟨hi,hl⟩ := List.nodup_cons.mp hl
    by_cases h : i = d
    · subst h; simp [addressedTo_cons,ih hl,hi]
    · simp [addressedTo_cons,ih hl,h,Ne.symm h]

end PucRio
