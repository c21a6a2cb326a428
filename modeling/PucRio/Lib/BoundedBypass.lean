import Mathlib.Data.List.Induction
import Mathlib.Tactic.ByContra

/-! Taking turns. The history of a scheduler says who came, who left and whose turn it was; it is fair
if nobody has two turns while somebody else, there all the time, has none in between. -/
namespace PucRio

inductive TurnEvent (α : Type*)
  | arrives (a : α)
  | leaves (a : α)
  | turn (a : α)
  deriving DecidableEq, Repr

namespace TurnEvent
variable {α : Type*} {log : List (TurnEvent α)} {e : TurnEvent α} {p q : α}

/-- Has come and not left since. -/
def Alive (log : List (TurnEvent α)) (q : α) : Prop :=
  ∃ before after, log = before++arrives q::after ∧ leaves q ∉ after

/-- Since a turn of `p`, who has not left, `q` has been there all the time and had none. -/
def Waits (log : List (TurnEvent α)) (p q : α) : Prop :=
  p ≠ q ∧ ∃ before between, log = before++turn p::between ∧ Alive before q ∧
    leaves p ∉ between ∧ leaves q ∉ between ∧ turn q ∉ between

/-- At no turn is there anybody who has been waiting since the last one. -/
def Fair (log : List (TurnEvent α)) : Prop :=
  ∀ before p after, log = before++turn p::after → ∀ q, ¬ Waits before p q

/-- A list that ends in `e` and has `x` in it. -/
theorem snoc_eq_iff {β : Type*} {l before after : List β} {b x : β} :
    l++[b] = before++x::after ↔ (l = before ∧ b = x ∧ after = []) ∨
      ∃ after', after = after'++[b] ∧ l = before++x::after' := by
  constructor
  · intro h
    obtain rfl | ⟨after',c,rfl⟩ := List.eq_nil_or_concat after
    · obtain ⟨rfl,hb⟩ := List.append_inj' h rfl
      exact .inl ⟨rfl,List.head_eq_of_cons_eq hb,rfl⟩
    · rw [List.concat_eq_append,← List.cons_append,← List.append_assoc] at h
      obtain ⟨rfl,hb⟩ := List.append_inj' h rfl
      obtain rfl := List.head_eq_of_cons_eq hb
      exact .inr ⟨after',List.concat_eq_append,rfl⟩
  · rintro (⟨rfl,rfl,rfl⟩ | ⟨after',rfl,rfl⟩)
    · rfl
    · rw [← List.cons_append,← List.append_assoc]

theorem not_mem_snoc {β : Type*} {l : List β} {b x : β} : x ∉ l++[b] ↔ x ∉ l ∧ b ≠ x := by
  rw [List.mem_append,List.mem_singleton,not_or,ne_comm]

theorem alive_snoc : Alive (log++[e]) q ↔ e = arrives q ∨ (Alive log q ∧ e ≠ leaves q) := by
  constructor
  · rintro ⟨before,after,hlog,hleaves⟩
    obtain ⟨rfl,rfl,rfl⟩ | ⟨after,rfl,rfl⟩ := snoc_eq_iff.mp hlog
    · exact .inl rfl
    · obtain ⟨hafter,he⟩ := not_mem_snoc.mp hleaves
      exact .inr ⟨⟨before,after,rfl,hafter⟩,he⟩
  · rintro (rfl | ⟨⟨before,after,rfl,hleaves⟩,he⟩)
    · exact ⟨log,[],rfl,List.not_mem_nil⟩
    · exact ⟨before,after++[e],snoc_eq_iff.mpr (.inr ⟨after,rfl,rfl⟩),
        not_mem_snoc.mpr ⟨hleaves,he⟩⟩

/-- Waiting begins with somebody's turn, and ends with one's own or with either's leaving. -/
theorem waits_snoc : Waits (log++[e]) p q ↔ p ≠ q ∧ ((e = turn p ∧ Alive log q) ∨
    (Waits log p q ∧ e ≠ leaves p ∧ e ≠ leaves q ∧ e ≠ turn q)) := by
  constructor
  · rintro ⟨hne,before,between,hlog,halive,hp,hq,hturn⟩
    refine ⟨hne,?_⟩
    obtain ⟨rfl,rfl,rfl⟩ | ⟨between,rfl,rfl⟩ := snoc_eq_iff.mp hlog
    · exact .inl ⟨rfl,halive⟩
    · rw [not_mem_snoc] at hp hq hturn
      exact .inr ⟨⟨hne,before,between,rfl,halive,hp.1,hq.1,hturn.1⟩,hp.2,hq.2,hturn.2⟩
  · rintro ⟨hne,⟨rfl,halive⟩ | ⟨⟨-,before,between,rfl,halive,hp,hq,hturn⟩,hep,heq,heturn⟩⟩
    · exact ⟨hne,log,[],rfl,halive,List.not_mem_nil,List.not_mem_nil,List.not_mem_nil⟩
    · exact ⟨hne,before,between++[e],snoc_eq_iff.mpr (.inr ⟨between,rfl,rfl⟩),halive,
        not_mem_snoc.mpr ⟨hp,hep⟩,not_mem_snoc.mpr ⟨hq,heq⟩,not_mem_snoc.mpr ⟨hturn,heturn⟩⟩

theorem fair_snoc : Fair (log++[e]) ↔ Fair log ∧ ∀ p, e = turn p → ∀ q, ¬ Waits log p q := by
  constructor
  · intro h
    refine ⟨fun before p after hlog => ?_,fun p he => ?_⟩
    · exact h before p (after++[e]) (snoc_eq_iff.mpr (.inr ⟨after,rfl,hlog⟩))
    · exact h log p [] (snoc_eq_iff.mpr (.inl ⟨rfl,he,rfl⟩))
  · rintro ⟨hfair,hlast⟩ before p after hlog
    obtain ⟨rfl,he,-⟩ | ⟨after',-,hlog⟩ := snoc_eq_iff.mp hlog
    · exact hlast p he
    · exact hfair before p after' hlog

section Snoc
variable {x : α}

@[simp] theorem alive_arrives : Alive (log++[arrives x]) q ↔ q = x ∨ Alive log q := by
  simp [alive_snoc,eq_comm]

@[simp] theorem alive_leaves : Alive (log++[leaves x]) q ↔ Alive log q ∧ q ≠ x := by
  simp [alive_snoc,eq_comm]

@[simp] theorem alive_turn : Alive (log++[turn x]) q ↔ Alive log q := by
  simp [alive_snoc]

@[simp] theorem waits_arrives : Waits (log++[arrives x]) p q ↔ Waits log p q := by
  have hne (h : Waits log p q) : p ≠ q := h.1
  simpa [waits_snoc] using hne

@[simp] theorem waits_leaves : Waits (log++[leaves x]) p q ↔ Waits log p q ∧ p ≠ x ∧ q ≠ x := by
  have hne (h : Waits log p q) : p ≠ q := h.1
  rw [waits_snoc]
  constructor
  · rintro ⟨-,⟨h,-⟩ | ⟨h,hp,hq,-⟩⟩
    · cases h
    · exact ⟨h,fun hpx => hp (congrArg leaves hpx.symm),fun hqx => hq (congrArg leaves hqx.symm)⟩
  · rintro ⟨h,hp,hq⟩
    exact ⟨hne h,.inr ⟨h,fun hx => hp (leaves.inj hx).symm,fun hx => hq (leaves.inj hx).symm,
      fun hx => by cases hx⟩⟩

@[simp] theorem fair_arrives : Fair (log++[arrives x]) ↔ Fair log := by
  simp [fair_snoc]

@[simp] theorem fair_leaves : Fair (log++[leaves x]) ↔ Fair log := by
  simp [fair_snoc]

end Snoc

theorem not_alive_nil : ¬ Alive [] q := by
  rintro ⟨before,after,h,-⟩
  cases before <;> cases h

theorem not_waits_nil : ¬ Waits [] p q := by
  rintro ⟨-,before,between,h,-⟩
  cases before <;> cases h

theorem fair_nil : Fair ([] : List (TurnEvent α)) := by
  intro before p after h
  cases before <;> cases h

/-- Who waits is there. -/
theorem Waits.alive (h : Waits log p q) : Alive log q := by
  induction log using List.reverseRecOn with
  | nil => exact absurd h not_waits_nil
  | append_singleton log e ih =>
    obtain ⟨-,⟨rfl,halive⟩ | ⟨hwaits,-,hq,-⟩⟩ := waits_snoc.mp h
    · exact alive_snoc.mpr (.inr ⟨halive,fun h => by cases h⟩)
    · exact alive_snoc.mpr (.inr ⟨ih hwaits,hq⟩)

end TurnEvent
end PucRio
