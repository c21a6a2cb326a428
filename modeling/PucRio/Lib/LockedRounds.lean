import Mathlib.Data.Fintype.Card
import Mathlib.Data.Finset.Card
import Mathlib.Tactic.Use

/-! Locking over numbered rounds. A round may propose one value, which processes accept. A value
that a majority has accepted is locked: whoever proposes later has asked a majority for the latest
round each of them accepted, and takes over the value of the best answer. -/
namespace PucRio
variable {P V : Type*}

/-- What has happened in each round. `quorum` answered before the proposal was made, and `best`
is the latest round among their answers (zero: none of them had accepted anything). -/
structure LockedRounds (P V : Type*) where
  est : ℕ → Option V
  accepted : ℕ → Finset P
  quorum : ℕ → Finset P
  best : ℕ → ℕ

def Majority [Fintype P] (s : Finset P) : Prop := Fintype.card P < 2*s.card

theorem exists_mem_of_majority [Fintype P] [DecidableEq P] {s t : Finset P} (hs : Majority s)
    (ht : Majority t) : ∃ i, i ∈ s ∧ i ∈ t := by
  by_contra h
  have hdisj : Disjoint s t := Finset.disjoint_left.mpr fun i hi hi' => h ⟨i,hi,hi'⟩
  have hcard := Finset.card_le_univ (s ∪ t)
  rw [Finset.card_union_of_disjoint hdisj] at hcard
  unfold Majority at hs ht
  omega

namespace LockedRounds

def empty : LockedRounds P V := ⟨fun _ => none,fun _ => ∅,fun _ => ∅,fun _ => 0⟩

/-- `i` accepts what round `r` proposed. -/
def accept [DecidableEq P] (L : LockedRounds P V) (i : P) (r : ℕ) : LockedRounds P V :=
  { L with accepted := Function.update L.accepted r (insert i (L.accepted r)) }

/-- Round `r` proposes `v` on the answers of `q`. -/
def propose (L : LockedRounds P V) (r : ℕ) (v : V) (q : Finset P) (b : ℕ) : LockedRounds P V where
  est := Function.update L.est r (some v)
  accepted := L.accepted
  quorum := Function.update L.quorum r q
  best := Function.update L.best r b

variable {L : LockedRounds P V} {round : P → ℕ}

theorem propose_cases {r r' : ℕ} {v w : V} {q : Finset P} {b : ℕ}
    (h : (L.propose r v q b).est r' = some w) : r' = r ∧ w = v ∨ r' ≠ r ∧ L.est r' = some w := by
  by_cases hr : r' = r
  · subst hr
    exact .inl ⟨rfl,by simpa [LockedRounds.propose] using h.symm⟩
  · exact .inr ⟨hr,by simpa [LockedRounds.propose,hr] using h⟩

theorem est_propose {r r' : ℕ} {v w : V} {q : Finset P} {b : ℕ} (hnone : L.est r = none)
    (h : L.est r' = some w) : (L.propose r v q b).est r' = some w := by
  have : r' ≠ r := by
    rintro rfl
    simp [hnone] at h
  simpa [LockedRounds.propose,this] using h

theorem mem_accept [DecidableEq P] {i j : P} {r r' : ℕ} (h : j ∈ (L.accept i r).accepted r') :
    r' = r ∧ j = i ∨ j ∈ L.accepted r' := by
  by_cases hr : r' = r
  · subst hr
    exact (Finset.mem_insert.mp (by simpa [LockedRounds.accept] using h)).imp (⟨rfl,·⟩) id
  · exact .inr (by simpa [LockedRounds.accept,hr] using h)

/-- What a process or a proposal may add: nothing is taken back, an acceptance is in the round the
process has reached, and a proposal is made in a round of its own. -/
structure Extends (L L' : LockedRounds P V) (round : P → ℕ) (own : ℕ → Prop) (i : P) : Prop where
  est : ∀ r v, L.est r = some v → L'.est r = some v
  accepted : ∀ r, L.accepted r ⊆ L'.accepted r
  est_new : ∀ r v, L'.est r = some v → L.est r = some v ∨ own r
  accepted_new : ∀ r j, j ∈ L'.accepted r → j ∈ L.accepted r ∨ j = i ∧ r = round i

theorem Extends.refl {own : ℕ → Prop} {i : P} : L.Extends L round own i :=
  ⟨fun _ _ h => h,fun _ => Finset.Subset.refl _,fun _ _ h => .inl h,fun _ _ h => .inl h⟩

theorem extends_propose {own : ℕ → Prop} {i : P} {r : ℕ} {v : V} {q : Finset P} {b : ℕ}
    (hnone : L.est r = none) (hown : own r) : L.Extends (L.propose r v q b) round own i where
  est _ _ h := est_propose hnone h
  accepted _ := Finset.Subset.refl _
  est_new _ _ h := (propose_cases h).elim (fun h => .inr (h.1 ▸ hown)) fun h => .inl h.2
  accepted_new _ _ h := .inl h

theorem extends_accept [DecidableEq P] {own : ℕ → Prop} (i : P) :
    L.Extends (L.accept i (round i)) round own i where
  est _ _ h := h
  accepted r := by
    by_cases hr : r = round i
    · subst hr; simp [LockedRounds.accept]
    · simp [LockedRounds.accept,hr]
  est_new _ _ h := .inl h
  accepted_new _ _ hj := (mem_accept hj).elim (fun h => .inr ⟨h.2,h.1⟩) .inl

variable [Fintype P]

/-- The rules that lock a value; `round i` is the round that `i` has reached. -/
structure Locked (L : LockedRounds P V) (round : P → ℕ) : Prop where
  pos : ∀ r v, L.est r = some v → 0 < r
  accepted : ∀ r i, i ∈ L.accepted r → L.est r ≠ none
  quorum : ∀ r v, L.est r = some v → Majority (L.quorum r)
  left : ∀ r v, L.est r = some v → ∀ i ∈ L.quorum r, r ≤ round i
  best : ∀ r v, L.est r = some v → ∀ i ∈ L.quorum r, ∀ r' < r, i ∈ L.accepted r' → r' ≤ L.best r
  source : ∀ r v, L.est r = some v → 0 < L.best r →
    ∃ r', L.best r ≤ r' ∧ r' < r ∧ L.est r' = some v

/-- A majority has accepted `v` in one round. -/
def Chosen (L : LockedRounds P V) (v : V) : Prop :=
  ∃ r, L.est r = some v ∧ Majority (L.accepted r)

theorem Chosen.mono {L L' : LockedRounds P V} {own : ℕ → Prop} {i : P} {v : V}
    (hc : L.Chosen v) (h : L.Extends L' round own i) : L'.Chosen v := by
  obtain ⟨r,hr,hm⟩ := hc
  refine ⟨r,h.est r v hr,?_⟩
  have := Finset.card_le_card (h.accepted r)
  unfold Majority at hm ⊢
  omega

theorem locked_empty (round : P → ℕ) : (empty : LockedRounds P V).Locked round := by
  constructor <;> simp [empty]

theorem Locked.mono {L : LockedRounds P V} {round round' : P → ℕ} (h : L.Locked round)
    (hr : ∀ i, round i ≤ round' i) : L.Locked round' :=
  { h with left := fun r v hv i hi => (h.left r v hv i hi).trans (hr i) }

/-- A round without a proposal proposes the value of the best answer of a majority. -/
theorem Locked.propose (h : L.Locked round) {r : ℕ} {v : V} {q : Finset P} {b : ℕ} (hr : 0 < r)
    (hnone : L.est r = none) (hq : Majority q) (hleft : ∀ i ∈ q, r ≤ round i)
    (hbest : ∀ i ∈ q, ∀ r' < r, i ∈ L.accepted r' → r' ≤ b)
    (hsource : 0 < b → ∃ r', b ≤ r' ∧ r' < r ∧ L.est r' = some v) :
    (L.propose r v q b).Locked round where
  pos r' w hw := by
    obtain ⟨rfl,-⟩ | ⟨-,hw⟩ := propose_cases hw
    · exact hr
    · exact h.pos r' w hw
  accepted r' i hi := by
    obtain ⟨w,hw⟩ := Option.ne_none_iff_exists'.mp (h.accepted r' i hi)
    simp [est_propose hnone hw]
  quorum r' w hw := by
    obtain ⟨rfl,-⟩ | ⟨hr,hw⟩ := propose_cases hw
    · simpa [LockedRounds.propose] using hq
    · simpa [LockedRounds.propose,hr] using h.quorum r' w hw
  left r' w hw := by
    obtain ⟨rfl,-⟩ | ⟨hr,hw⟩ := propose_cases hw
    · simpa [LockedRounds.propose] using hleft
    · simpa [LockedRounds.propose,hr] using h.left r' w hw
  best r' w hw := by
    obtain ⟨rfl,-⟩ | ⟨hr,hw⟩ := propose_cases hw
    · simpa [LockedRounds.propose] using hbest
    · simpa [LockedRounds.propose,hr] using h.best r' w hw
  source r' w hw hpos := by
    obtain ⟨rfl,rfl⟩ | ⟨hr,hw⟩ := propose_cases hw
    · obtain ⟨r'',hb,hlt,hv⟩ := hsource (by simpa [LockedRounds.propose] using hpos)
      exact ⟨r'',by simpa [LockedRounds.propose] using hb,hlt,est_propose hnone hv⟩
    · obtain ⟨r'',hb,hlt,hv⟩ := h.source r' w hw (by simpa [LockedRounds.propose,hr] using hpos)
      exact ⟨r'',by simpa [LockedRounds.propose,hr] using hb,hlt,est_propose hnone hv⟩

variable [DecidableEq P]

/-- A process accepts in the round it has reached only. -/
theorem Locked.accept (h : L.Locked round) {i : P} (hest : L.est (round i) ≠ none) :
    (L.accept i (round i)).Locked round where
  pos := h.pos
  accepted r j hj := by
    obtain ⟨rfl,-⟩ | hj := mem_accept hj
    · exact hest
    · exact h.accepted r j hj
  quorum := h.quorum
  left := h.left
  best r v hv j hj r' hr' hacc := by
    obtain ⟨rfl,rfl⟩ | hacc := mem_accept hacc
    · -- round `r` has asked `i`, so `i` had reached it
      have := h.left r v hv j hj
      omega
    · exact h.best r v hv j hj r' hr' hacc
  source := h.source

/-- Once a majority has accepted `x` in round `r`, every later round proposes `x`. -/
theorem Locked.est_eq (h : L.Locked round) {r : ℕ} {x : V} (hx : L.est r = some x)
    (hm : Majority (L.accepted r)) :
    ∀ {r' : ℕ} {y : V}, r ≤ r' → L.est r' = some y → y = x := by
  intro r'
  induction r' using Nat.strong_induction_on with
  | _ r' ih =>
    intro y hle hy
    obtain rfl | hlt := Nat.eq_or_lt_of_le hle
    · exact Option.some.inj (hy.symm.trans hx)
    · -- somebody who accepted in round `r` was asked by round `r'`
      obtain ⟨i,hi,hq⟩ := exists_mem_of_majority hm (h.quorum r' y hy)
      have hbest := h.best r' y hy i hq r hlt hi
      have hpos := h.pos r x hx
      obtain ⟨r'',hb,hr'',hy'⟩ := h.source r' y hy (by omega)
      exact ih r'' hr'' (by omega) hy'

/-- At most one value is ever chosen. -/
theorem Locked.chosen_unique (h : L.Locked round) {x y : V} (hx : L.Chosen x) (hy : L.Chosen y) :
    x = y := by
  obtain ⟨r,hr,hm⟩ := hx
  obtain ⟨r',hr',hm'⟩ := hy
  cases Nat.le_total r r' with
  | inl hle => exact (h.est_eq hr hm hle hr').symm
  | inr hle => exact h.est_eq hr' hm' hle hr

end LockedRounds
end PucRio
