import Mathlib.Logic.Relation
import PucRio.Dungeon.Perceptions

/-! What the agent may conclude: each change of its marks is one of a few, which keep them true and keep
every hazard that is marked marked. -/
namespace PucRio.Dungeon

/-- Nothing that is marked as free has the hazard, and so on. -/
structure Sound (s : State) : Prop where
  doesNotHave : ∀ h, ∀ c ∈ (s.marks h).doesNotHave, c ∉ s.hazardCell h
  has : ∀ h, ∀ c ∈ (s.marks h).has, c ∈ s.hazardCell h
  apart : ∀ h, ∀ c ∈ (s.marks h).mightHave, c ∉ (s.marks h).doesNotHave
  certain : ∀ c ∈ s.teletransport.has, ∀ n ∈ neighbours c, n ∈ s.wallCell ∨ n ∈ s.visited
  walls : ∀ h, ∀ c ∈ s.hazardCell h, c ∉ s.wallCell

def MarkedAt (h : Hazard) (s : State) (c : Cell) : Prop :=
  c ∈ (s.marks h).mightHave ∨ c ∈ (s.marks h).has

/-- Every hazard beside the cell is marked, unless the agent has been there. -/
def Marked (s : State) (p : Cell) : Prop :=
  ∀ h, ∀ c ∈ neighbours p, c ∉ s.visited → c ∈ s.hazardCell h → MarkedAt h s c

inductive Learn : State → State → Prop
  | deny {s : State} {h : Hazard} {c : Cell} (hc : c ∉ s.hazardCell h) :
      Learn s (s.mark (.deny c) h)
  | suspect {s : State} {h : Hazard} {c : Cell} (hc : c ∉ (s.marks h).doesNotHave) :
      Learn s (s.mark (.suspect c) h)
  | confirm {s : State} {h : Hazard} {c : Cell} (hc : c ∈ s.hazardCell h)
      (hall : h = .teletransport → ∀ n ∈ neighbours c, n ∈ s.wallCell ∨ n ∈ s.visited) :
      Learn s (s.mark (.confirm c) h)
  | fall {s : State} {c : Cell} (hc : c ∈ s.hazardCell .hole) :
      Learn s (s.mark (fun k => { k with has := k.has++[c] }) .hole)
  | other {s t : State} (hf : t.toFacts = s.toFacts) (hc : t.cell = s.cell)
      (hv : t.visited = s.visited) (hm : ∀ h, t.marks h = s.marks h) : Learn s t

def Learns : State → State → Prop := Relation.ReflTransGen Learn

section Learn
variable {s t u : State} {h : Hazard} {c p : Cell}

theorem Learn.frame (hl : Learn s t) :
    t.toFacts = s.toFacts ∧ t.cell = s.cell ∧ t.visited = s.visited := by
  cases hl with
  | other hf hc hv => exact ⟨hf,hc,hv⟩
  | _ => exact ⟨State.toFacts_mark,State.cell_mark,State.visited_mark⟩

theorem mem_filter_ne {l : List Cell} {a : Cell} : a ∈ l.filter (· ≠ c) ↔ a ∈ l ∧ a ≠ c := by
  rw [List.mem_filter,decide_eq_true_iff]

theorem mem_snoc {l : List Cell} {a : Cell} : a ∈ l++[c] ↔ a ∈ l ∨ a = c := by
  rw [List.mem_append,List.mem_singleton]

/-- A change of the marks for one hazard is sound where it is for this hazard. -/
theorem Sound.mark (hs : Sound s) {f : Marks → Marks}
    (hno : ∀ c ∈ (f (s.marks h)).doesNotHave, c ∉ s.hazardCell h)
    (hhas : ∀ c ∈ (f (s.marks h)).has, c ∈ s.hazardCell h)
    (hapart : ∀ c ∈ (f (s.marks h)).mightHave, c ∉ (f (s.marks h)).doesNotHave)
    (hcertain : h = .teletransport → ∀ c ∈ (f (s.marks h)).has, ∀ n ∈ neighbours c,
      n ∈ s.wallCell ∨ n ∈ s.visited) : Sound (s.mark f h) := by
  have hother {P : Marks → Hazard → Prop} (hP : P (f (s.marks h)) h)
      (hall : ∀ h', P (s.marks h') h') (h' : Hazard) : P ((s.mark f h).marks h') h' := by
    by_cases hh : h' = h
    · rw [hh,State.marks_mark]
      exact hP
    · rw [State.marks_mark_of_ne hh]
      exact hall h'
  refine ⟨?_,?_,?_,?_,?_⟩
  · rw [State.toFacts_mark]
    exact hother (P := fun k h => ∀ c ∈ k.doesNotHave, c ∉ s.hazardCell h) hno hs.doesNotHave
  · rw [State.toFacts_mark]
    exact hother (P := fun k h => ∀ c ∈ k.has, c ∈ s.hazardCell h) hhas hs.has
  · exact hother (P := fun k _ => ∀ c ∈ k.mightHave, c ∉ k.doesNotHave) hapart hs.apart
  · rw [State.toFacts_mark,State.visited_mark]
    refine hother (P := fun k h => h = .teletransport → ∀ c ∈ k.has, ∀ n ∈ neighbours c,
      n ∈ s.wallCell ∨ n ∈ s.visited) hcertain (fun h' hh => ?_) .teletransport rfl
    rw [hh]
    exact hs.certain
  · rw [State.toFacts_mark]
    exact hs.walls

theorem Learn.sound (hl : Learn s t) (hs : Sound s) : Sound t := by
  cases hl with
  | @deny h c hc =>
    apply hs.mark
    · intro a ha
      obtain ha | rfl := mem_snoc.mp ha
      · exact hs.doesNotHave h a ha
      · exact hc
    · exact hs.has h
    · intro a ha hno
      obtain ⟨ha,hne⟩ := mem_filter_ne.mp ha
      exact (mem_snoc.mp hno).elim (hs.apart h a ha) hne
    · rintro rfl
      exact hs.certain
  | @suspect h c hc =>
    apply hs.mark
    · exact hs.doesNotHave h
    · exact hs.has h
    · intro a ha
      obtain ha | rfl := mem_snoc.mp ha
      · exact hs.apart h a ha
      · exact hc
    · rintro rfl
      exact hs.certain
  | @confirm h c hc hall =>
    apply hs.mark
    · exact hs.doesNotHave h
    · intro a ha
      obtain ha | rfl := mem_snoc.mp ha
      · exact hs.has h a ha
      · exact hc
    · intro a ha
      exact hs.apart h a (mem_filter_ne.mp ha).1
    · rintro rfl a ha
      obtain ha | rfl := mem_snoc.mp ha
      · exact hs.certain a ha
      · exact hall rfl
  | @fall c hc =>
    apply hs.mark
    · exact hs.doesNotHave .hole
    · intro a ha
      obtain ha | rfl := mem_snoc.mp ha
      · exact hs.has .hole a ha
      · exact hc
    · exact hs.apart .hole
    · intro hh
      cases hh
  | other hf _ hv hm =>
    have hc := hm .teletransport
    change t.teletransport = s.teletransport at hc
    refine ⟨?_,?_,?_,?_,?_⟩
    · intro h
      rw [hm,hf]
      exact hs.doesNotHave h
    · intro h
      rw [hm,hf]
      exact hs.has h
    · intro h
      rw [hm]
      exact hs.apart h
    · rw [hc,hf,hv]
      exact hs.certain
    · rw [hf]
      exact hs.walls

/-- A mark on a cell with the hazard stays. -/
theorem Learn.markedAt (hl : Learn s t) (hc : c ∈ s.hazardCell h) (hm : MarkedAt h s c) :
    MarkedAt h t c := by
  have hmark {h' : Hazard} {f : Marks → Marks}
      (hf : h = h' → c ∈ (f (s.marks h)).mightHave ∨ c ∈ (f (s.marks h)).has) :
      MarkedAt h (s.mark f h') c := by
    by_cases hh : h = h'
    · subst hh
      rw [MarkedAt,State.marks_mark]
      exact hf rfl
    · rw [MarkedAt,State.marks_mark_of_ne hh]
      exact hm
  cases hl with
  | @deny h' d hd =>
    refine hmark ?_
    rintro rfl
    refine hm.imp (fun hc' => mem_filter_ne.mpr ⟨hc',?_⟩) id
    rintro rfl
    exact hd hc
  | @suspect h' d => exact hmark fun _ => hm.imp (fun hc' => mem_snoc.mpr (.inl hc')) id
  | @confirm h' d =>
    refine hmark fun _ => ?_
    by_cases hcd : c = d
    · exact .inr (mem_snoc.mpr (.inr hcd))
    · exact hm.imp (fun hc' => mem_filter_ne.mpr ⟨hc',hcd⟩) fun hc' => mem_snoc.mpr (.inl hc')
  | @fall d => exact hmark fun _ => hm.imp id fun hc' => mem_snoc.mpr (.inl hc')
  | other _ _ _ hmk =>
    rw [MarkedAt,hmk]
    exact hm

theorem Learns.frame (hl : Learns s t) :
    t.toFacts = s.toFacts ∧ t.cell = s.cell ∧ t.visited = s.visited := by
  induction hl with
  | refl => exact ⟨rfl,rfl,rfl⟩
  | tail _ hl ih =>
    obtain ⟨hf,hc,hv⟩ := hl.frame
    exact ⟨hf.trans ih.1,hc.trans ih.2.1,hv.trans ih.2.2⟩

theorem Learns.sound (hl : Learns s t) (hs : Sound s) : Sound t := by
  induction hl with
  | refl => exact hs
  | tail _ hl ih => exact hl.sound ih

theorem Learns.markedAt (hl : Learns s t) (hc : c ∈ s.hazardCell h) (hm : MarkedAt h s c) :
    MarkedAt h t c := by
  induction hl with
  | refl => exact hm
  | tail hr hl ih => exact hl.markedAt ((Learns.frame hr).1 ▸ hc) ih

theorem Learns.marked (hl : Learns s t) (hm : Marked s p) : Marked t p := by
  intro h c hc hnew hz
  rw [hl.frame.2.2] at hnew
  rw [hl.frame.1] at hz
  exact hl.markedAt hz (hm h c hc hnew hz)

theorem Learns.refl : Learns s s := Relation.ReflTransGen.refl

theorem Learns.trans (hl : Learns s t) (hl' : Learns t u) : Learns s u :=
  Relation.ReflTransGen.trans hl hl'

theorem Learn.learns (hl : Learn s t) : Learns s t := Relation.ReflTransGen.single hl

theorem Learns.foldl {f : State → Cell → State} (l : List Cell)
    (hf : ∀ t, Learns s t → ∀ c ∈ l, Learns t (f t c)) : Learns s (l.foldl f s) := by
  induction l generalizing s with
  | nil => exact .refl
  | cons c l ih =>
    have hc := hf s .refl c List.mem_cons_self
    exact hc.trans (ih fun t ht d hd => hf t (hc.trans ht) d (List.mem_cons_of_mem _ hd))

end Learn

section Update
variable {s : State} {h : Hazard} {c : Cell}

theorem mem_adjacent {f : Facts} {c n : Cell} :
    n ∈ f.adjacent c ↔ n ∈ neighbours c ∧ f.isWalkable n := by
  rw [Facts.adjacent,List.mem_filter,decide_eq_true_iff]

theorem isWalkable_of_hazard {f : Facts} (hc : c ∈ f.hazardCell h) : f.isWalkable c := by
  cases h with
  | hole => exact .inr (.inr (.inr (.inr (.inr (.inl hc)))))
  | enemy => exact .inr (.inr (.inl hc))
  | teletransport => exact .inr (.inr (.inr (.inr (.inr (.inr hc)))))

theorem learns_updateCertainty : Learns s (s.updateCertainty h) := by
  rw [State.updateCertainty]
  cases hf : (s.hazardCell h).find? fun c => c ∈ (s.marks h).mightHave ∧
      ∀ n ∈ neighbours c, n ∈ s.wallCell ∨ n ∈ s.visited with
  | none => exact .refl
  | some c =>
    have hc := List.find?_some hf
    rw [decide_eq_true_iff] at hc
    exact (Learn.confirm (List.mem_of_find?_eq_some hf) fun _ => hc.2).learns

theorem learns_updateCertainties : Learns s s.updateCertainties :=
  (learns_updateCertainty.trans learns_updateCertainty).trans learns_updateCertainty

theorem learns_removeCurrentCellUncertainty : Learns s (s.removeCurrentCellUncertainty h) := by
  rw [State.removeCurrentCellUncertainty]
  split
  · exact .refl
  · rename_i hc
    exact (Learn.deny hc).learns

theorem learns_removeCurrentCellUncertainties : Learns s s.removeCurrentCellUncertainties :=
  (learns_removeCurrentCellUncertainty.trans learns_removeCurrentCellUncertainty).trans
    learns_removeCurrentCellUncertainty

theorem learns_removeAdjacentUncertainties (hp : ¬ s.perceive h s.cell) :
    Learns s (s.removeAdjacentUncertainties h) := by
  refine Learns.foldl _ fun t ht c hc => (Learn.deny fun hz => hp ⟨c,hc,?_⟩).learns
  rwa [ht.frame.1] at hz

theorem learns_setMightHave {known : List Cell} : Learns s (s.setMightHave h known c) := by
  rw [State.setMightHave]
  split
  · rename_i hc
    exact (Learn.suspect hc.2.2).learns
  · exact .refl

/-- A hazard that is not marked yet is marked. -/
theorem markedAt_setMightHave {known : List Cell} (hs : Sound s)
    (hknown : ∀ c ∈ known, c ∈ (s.marks h).has) (hnew : c ∉ s.visited) (hc : c ∈ s.hazardCell h) :
    MarkedAt h (s.setMightHave h known c) c := by
  rw [State.setMightHave]
  split
  · rw [MarkedAt,State.marks_mark]
    exact .inl (mem_snoc.mpr (.inr rfl))
  · rename_i hn
    by_cases hk : c ∈ known
    · exact .inr (hknown c hk)
    · exact absurd ⟨hnew,hk,fun hno => hs.doesNotHave h c hno hc⟩ hn

/-- All hazards of a list of cells are marked, one after the other. -/
theorem markedAt_foldl {set : State → Cell → State} (hset : ∀ s c, Learns s (set s c))
    (hone : ∀ s c, Sound s → c ∉ s.visited → c ∈ s.hazardCell h → MarkedAt h (set s c) c)
    {l : List Cell} (hs : Sound s) (hl : c ∈ l) (hnew : c ∉ s.visited) (hc : c ∈ s.hazardCell h) :
    MarkedAt h (l.foldl set s) c := by
  induction l generalizing s with
  | nil => exact absurd hl List.not_mem_nil
  | cons d l ih =>
    have hd := hset s d
    obtain ⟨hf,-,hv⟩ := hd.frame
    obtain rfl | hl := List.mem_cons.mp hl
    · have hm := hone s c hs hnew hc
      exact (Learns.foldl l fun t _ d _ => hset t d).markedAt (hf ▸ hc) hm
    · exact ih (hd.sound hs) hl (hv ▸ hnew) (hf ▸ hc)

end Update

section Adjacencies
variable {s : State} {c : Cell}

/-- What looking around does for one kind of hazard. -/
structure LooksAround (h : Hazard) (look : State → State) : Prop where
  learns : ∀ s, Learns s (look s)
  marks : ∀ s, Sound s → ∀ c ∈ s.adjacent s.cell, c ∉ s.visited → c ∈ s.hazardCell h →
    MarkedAt h (look s) c

theorem looksAround_hole : LooksAround .hole State.setAdjacenciesMightHaveHole where
  learns _ := Learns.foldl _ fun _ _ _ _ => learns_setMightHave
  marks _ hs _ hl hnew hc := markedAt_foldl (fun _ _ => learns_setMightHave)
    (fun _ _ hs => markedAt_setMightHave hs fun _ hc => absurd hc List.not_mem_nil) hs hl hnew hc

theorem looksAround_enemy : LooksAround .enemy State.setAdjacenciesMightHaveEnemy where
  learns _ := Learns.foldl _ fun _ _ _ _ => learns_setMightHave
  marks _ hs _ hl hnew hc := markedAt_foldl (fun _ _ => learns_setMightHave)
    (fun _ _ hs => markedAt_setMightHave hs fun _ hc => hc) hs hl hnew hc

/-- On a teletransport that is certain there is nothing left to mark. -/
theorem looksAround_teletransport :
    LooksAround .teletransport State.setAdjacenciesMightHaveTeletransport where
  learns s := by
    rw [State.setAdjacenciesMightHaveTeletransport]
    split
    · exact .refl
    · exact Learns.foldl _ fun _ _ _ _ => learns_setMightHave
  marks s hs c hl hnew hc := by
    rw [State.setAdjacenciesMightHaveTeletransport]
    split
    · rename_i hcell
      obtain hw | hv := hs.certain _ hcell c (mem_adjacent.mp hl).1
      · exact absurd hw (hs.walls _ c hc)
      · exact absurd hv hnew
    · exact markedAt_foldl (fun _ _ => learns_setMightHave)
        (fun _ _ hs => markedAt_setMightHave hs fun _ hc => hc) hs hl hnew hc

/-- Looking around where the hazard is perceived leaves none of them without a mark. -/
theorem LooksAround.perceived {h : Hazard} {look : State → State} (hk : LooksAround h look)
    (s : State) :
    Learns s (if s.perceive h s.cell then look s else s) ∧
      (Sound s → ∀ c ∈ neighbours s.cell, c ∉ s.visited → c ∈ s.hazardCell h →
        MarkedAt h (if s.perceive h s.cell then look s else s) c) := by
  split
  · exact ⟨hk.learns s,fun hs c hc hnew hz =>
      hk.marks s hs c (mem_adjacent.mpr ⟨hc,isWalkable_of_hazard hz⟩) hnew hz⟩
  · rename_i hp
    exact ⟨.refl,fun _ c hc _ hz =>
      absurd ⟨c,mem_adjacent.mpr ⟨hc,isWalkable_of_hazard hz⟩,hz⟩ hp⟩

theorem learns_unperceived (h : Hazard) (s : State) :
    Learns s (if ¬ s.perceive h s.cell then s.removeAdjacentUncertainties h else s) := by
  split
  · rename_i hp
    exact learns_removeAdjacentUncertainties hp
  · exact .refl

/-- All that is learned in a cell. -/
theorem learns_updateUncertainties (s : State) :
    Learns s s.perceptions_updateUncertainties ∧
      (Sound s → Marked s.perceptions_updateUncertainties s.cell) := by
  generalize ht : s.perceptions_updateUncertainties = t
  unfold State.perceptions_updateUncertainties at ht
  extract_lets s₀ s₁ s₂ s₃ s₄ s₅ s₆ at ht
  have h₀ : Learns s s₀ := learns_removeCurrentCellUncertainties
  obtain ⟨h₁,hm₁⟩ := looksAround_hole.perceived s₀
  obtain ⟨h₂,hm₂⟩ := looksAround_enemy.perceived s₁
  obtain ⟨h₃,hm₃⟩ := looksAround_teletransport.perceived s₂
  have h₄ : Learns s₃ s₄ := learns_unperceived .hole s₃
  have h₅ : Learns s₄ s₅ := learns_unperceived .enemy s₄
  have h₆ : Learns s₅ s₆ := learns_unperceived .teletransport s₅
  have h₇ : Learns s₆ t := ht ▸ learns_updateCertainties
  have h₁₀ : Learns s s₁ := h₀.trans h₁
  have h₂₀ : Learns s s₂ := h₁₀.trans h₂
  have h₃t : Learns s₃ t := h₄.trans (h₅.trans (h₆.trans h₇))
  have h₂t : Learns s₂ t := Learns.trans h₃ h₃t
  refine ⟨h₂₀.trans h₂t,fun hs h c hc hnew hz => ?_⟩
  have hz' : c ∈ t.hazardCell h := hz
  have hnew' : c ∉ t.visited := hnew
  rw [(h₂₀.trans h₂t).frame.1] at hz'
  rw [(h₂₀.trans h₂t).frame.2.2] at hnew'
  have hback {u : State} (hu : Learns s u) :
      c ∈ neighbours u.cell ∧ c ∉ u.visited ∧ c ∈ u.hazardCell h := by
    rw [hu.frame.1,hu.frame.2.1,hu.frame.2.2]
    exact ⟨hc,hnew',hz'⟩
  cases h with
  | hole =>
    obtain ⟨hc,hnew,hz⟩ := hback h₀
    exact (Learns.trans h₂ h₂t).markedAt (hback h₁₀).2.2 (hm₁ (h₀.sound hs) c hc hnew hz)
  | enemy =>
    obtain ⟨hc,hnew,hz⟩ := hback h₁₀
    exact h₂t.markedAt (hback h₂₀).2.2 (hm₂ (h₁₀.sound hs) c hc hnew hz)
  | teletransport =>
    obtain ⟨hc,hnew,hz⟩ := hback h₂₀
    exact h₃t.markedAt (hback (h₂₀.trans h₃)).2.2 (hm₃ (h₂₀.sound hs) c hc hnew hz)

end Adjacencies

section Paths
variable {s t : State} {h : Hazard} {f : Marks → Marks} {c : Cell} {known : List Cell}

theorem curPath_mark : (s.mark f h).curPath = s.curPath := by cases h <;> rfl

theorem curPath_foldl {set : State → Cell → State}
    (hset : ∀ s c, (set s c).curPath = s.curPath) (l : List Cell) :
    (l.foldl set s).curPath = s.curPath := by
  induction l generalizing s with
  | nil => rfl
  | cons c l ih => exact ih.trans (hset s c)

theorem curPath_setMightHave : (s.setMightHave h known c).curPath = s.curPath := by
  rw [State.setMightHave]
  split
  · exact curPath_mark
  · rfl

theorem curPath_removeCurrentCellUncertainty :
    (s.removeCurrentCellUncertainty h).curPath = s.curPath := by
  rw [State.removeCurrentCellUncertainty]
  split
  · rfl
  · exact curPath_mark

theorem curPath_updateCertainty : (s.updateCertainty h).curPath = s.curPath := by
  rw [State.updateCertainty]
  cases List.find? _ _ with
  | none => rfl
  | some c => exact curPath_mark

theorem curPath_updateCertainties : s.updateCertainties.curPath = s.curPath := by
  rw [State.updateCertainties,State.updateHoleCertainties,curPath_updateCertainty,
    State.updateTeletransportCertainties,curPath_updateCertainty,State.updateEnemyCertainties,
    curPath_updateCertainty]

theorem curPath_ite {P : Prop} [Decidable P] (hp : t.curPath = s.curPath) :
    (if P then t else s).curPath = s.curPath := by
  split
  · exact hp
  · rfl

theorem curPath_updateUncertainties (s : State) :
    s.perceptions_updateUncertainties.curPath = s.curPath := by
  have hremove (h : Hazard) (s : State) : (s.removeAdjacentUncertainties h).curPath = s.curPath :=
    curPath_foldl (fun _ _ => curPath_mark) _
  have htele (s : State) : s.setAdjacenciesMightHaveTeletransport.curPath = s.curPath := by
    rw [State.setAdjacenciesMightHaveTeletransport]
    split
    · rfl
    · exact curPath_foldl (fun _ _ => curPath_setMightHave) _
  generalize ht : s.perceptions_updateUncertainties = t
  unfold State.perceptions_updateUncertainties at ht
  extract_lets s₀ s₁ s₂ s₃ s₄ s₅ s₆ at ht
  have h₀ : s₀.curPath = s.curPath := curPath_removeCurrentCellUncertainty.trans
    (curPath_removeCurrentCellUncertainty.trans curPath_removeCurrentCellUncertainty)
  have h₁ : s₁.curPath = s₀.curPath :=
    curPath_ite (curPath_foldl (fun _ _ => curPath_setMightHave) _)
  have h₂ : s₂.curPath = s₁.curPath :=
    curPath_ite (curPath_foldl (fun _ _ => curPath_setMightHave) _)
  have h₃ : s₃.curPath = s₂.curPath := curPath_ite (htele s₂)
  have h₄ : s₄.curPath = s₃.curPath := curPath_ite (hremove .hole s₃)
  have h₅ : s₅.curPath = s₄.curPath := curPath_ite (hremove .enemy s₄)
  have h₆ : s₆.curPath = s₅.curPath := curPath_ite (hremove .teletransport s₅)
  have h₇ : t.curPath = s₆.curPath := by
    rw [← ht]
    exact curPath_updateCertainties
  exact h₇.trans (h₆.trans (h₅.trans (h₄.trans (h₃.trans (h₂.trans (h₁.trans h₀))))))

end Paths

end PucRio.Dungeon
