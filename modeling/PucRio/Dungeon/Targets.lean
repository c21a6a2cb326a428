import PucRio.Dungeon.Actions
import PucRio.Dungeon.Knowledge

/-! Where the agent means to go: of the goals that keep a path, the first that is come to before a clause
gives an action, and the cell that it names. -/
namespace PucRio.Dungeon

namespace State

/-- One of the clauses before those for danger acts. -/
def Busy (s : State) : Prop :=
  (s.cell = s.startPoint ∧ s.exiting = true) ∨ s.curEnergy < 1 ∨ s.cell ∈ s.goldCell ∨
    (∃ p ∈ s.curPath, p ≠ []) ∨ ¬ s.isWalkable s.agent_willWalkTo ∨
    ¬ s.perceptions_perceiveDanger s.cell ∧ ∃ n ∈ s.adjacent s.cell, n ∉ s.visited

instance (s : State) : Decidable s.Busy := inferInstanceAs (Decidable (_ ∨ _ ∨ _ ∨ _ ∨ _ ∨ _))

def Near (s : State) (l : List Cell) : Prop := ∃ n ∈ s.adjacent s.cell, n ∈ l

instance (s : State) (l : List Cell) : Decidable (s.Near l) :=
  inferInstanceAs (Decidable (∃ n ∈ s.adjacent s.cell, n ∈ l))

/-- For each goal: whether a clause between it and the one before acts, and the cell it names. -/
def aims (s : State) : List (Bool × Option Cell) :=
  [(decide s.Busy,s.openSafe),
    (decide ((0 < s.curAmmo ∧ 50 < s.curEnergy) ∧ s.Near s.enemy.has),
      if 0 < s.curAmmo ∧ 50 < s.curEnergy then s.beside s.enemy.has else none),
    (decide (50 < s.curEnergy ∧ s.Near s.enemy.mightHave),
      if 50 < s.curEnergy then s.beside s.enemy.mightHave else none),
    (decide (s.curEnergy < 51 ∧ s.cell ∈ s.powerupCell),
      if s.curEnergy < 51 then s.powerup else none),
    (decide (s.curCost < 1 ∧ s.Near s.hole.mightHave),
      if s.curCost < 1 then s.beside s.hole.mightHave else none),
    (false,some s.startPoint)]

end State

def firstAim : List (Bool × Option Cell) → Option Cell
  | [] => none
  | l::ls => if l.1 then none else l.2 <|> firstAim ls

/-- The cell that the agent means to go to, if it does not act at once. -/
def State.target (s : State) : Option Cell := firstAim s.aims

section Groups
variable {s : State} {d : ℤ}

/-- A group of clauses acts under a condition, and else has the goal of a path to a cell. -/
structure Settles (s : State) (o : Option Choice) (acts : Prop) (aim : Option Cell) : Prop where
  acting : acts → ∃ a t, o = some (.act a t)
  aiming : ¬ acts → o = aim.map fun c => .follow (s.go s.cell c)
  elsewhere : ¬ acts → aim ≠ some s.cell

/-- Walk or shoot where the agent looks, turn if there is another such cell, else go for a path. -/
theorem settles_ahead {P Q acts : Prop} [Decidable P] [Decidable Q] {o : Option Choice}
    {rest : Option Choice} {aim : Option Cell} (hacts : acts ↔ P ∨ Q)
    (ho : P → ∃ a t, o = some (.act a t)) (hrest : rest = aim.map fun c => .follow (s.go s.cell c))
    (helse : ¬ acts → aim ≠ some s.cell) : Settles s ((if P then o else none) <|>
      (if Q then some (.act .rotate s.agent_rotate) else none) <|> rest) acts aim := by
  by_cases hP : P
  · obtain ⟨a,t,rfl⟩ := ho hP
    rw [if_pos hP]
    exact ⟨fun _ => ⟨a,t,rfl⟩,fun h => absurd (hacts.mpr (.inl hP)) h,helse⟩
  · rw [if_neg hP]
    by_cases hQ : Q
    · rw [if_pos hQ]
      exact ⟨fun _ => ⟨_,_,rfl⟩,fun h => absurd (hacts.mpr (.inr hQ)) h,helse⟩
    · rw [if_neg hQ]
      exact ⟨fun h => absurd (hacts.mp h) (not_or.mpr ⟨hP,hQ⟩),fun _ => hrest,helse⟩

/-- A shot at an enemy that is known finds it. -/
theorem attack_shoot_isSome (hs : Sound s) {n : Cell} (hn : n ∈ s.adjacent s.cell)
    (hhas : n ∈ s.enemy.has) : (s.attack_shoot d).isSome := by
  obtain ⟨e,he,heq⟩ := List.mem_map.mp (hs.has .enemy n hhas)
  rw [State.attack_shoot,Option.isSome_map,List.findSome?_isSome_iff]
  refine ⟨n,List.mem_filter.mpr ⟨hn,decide_eq_true hhas⟩,List.find?_isSome.mpr ⟨e,he,?_⟩⟩
  exact decide_eq_true heq

theorem willWalkTo_mem_neighbours : s.agent_willWalkTo ∈ neighbours s.cell := by
  rw [State.agent_willWalkTo]
  cases s.orientation <;> simp [neighbours]

theorem ite_beside_ne {P : Prop} [Decidable P] {l : List Cell} :
    (if P then s.beside l else none) ≠ some s.cell := by
  intro h
  split at h
  · rw [State.beside] at h
    have hc := List.find?_some h
    exact (of_decide_eq_true hc).2 rfl
  · cases h

variable (hw : s.isWalkable s.agent_willWalkTo)
include hw

theorem willWalkTo_mem_adjacent : s.agent_willWalkTo ∈ s.adjacent s.cell :=
  mem_adjacent.mpr ⟨willWalkTo_mem_neighbours,hw⟩

theorem walkAhead_acts : ∃ a t, s.walkAhead = some (.act a t) := by
  obtain ⟨t,ht⟩ := Option.isSome_iff_exists.mp (agent_walkTo_isSome.mpr hw)
  exact ⟨.walk,t,by rw [State.walkAhead,ht]; rfl⟩

/-- A cell of a kind beside the agent is the one in front or another one. -/
theorem exists_adjacent_iff (K : Cell → Prop) : (∃ n ∈ s.adjacent s.cell, K n) ↔
    K s.agent_willWalkTo ∨ ∃ n ∈ s.adjacent s.cell, K n ∧ n ≠ s.agent_willWalkTo := by
  constructor
  · rintro ⟨n,hn,hK⟩
    by_cases heq : n = s.agent_willWalkTo
    · exact .inl (heq ▸ hK)
    · exact .inr ⟨n,hn,hK,heq⟩
  · rintro (hK | ⟨n,hn,hK,-⟩)
    · exact ⟨_,willWalkTo_mem_adjacent hw,hK⟩
    · exact ⟨n,hn,hK⟩

theorem settles_explore : Settles s s.getNextMove_explore
    (¬ s.perceptions_perceiveDanger s.cell ∧ ∃ n ∈ s.adjacent s.cell, n ∉ s.visited) s.openSafe := by
  refine settles_ahead ?_ (fun _ => walkAhead_acts hw) ?_ ?_
  · rw [exists_adjacent_iff hw (· ∉ s.visited)]
    constructor
    · rintro ⟨hd,hn | ⟨n,hn,hnew,hne⟩⟩
      · exact .inl ⟨hw,hd,hn⟩
      · exact .inr ⟨n,hn,hd,hnew,hne⟩
    · rintro (⟨-,hd,hn⟩ | ⟨n,hn,hd,hnew,hne⟩)
      · exact ⟨hd,.inl hn⟩
      · exact ⟨hd,.inr ⟨n,hn,hnew,hne⟩⟩
  · rw [State.path_setPathToOpenSafeAction,Option.map_map]
    rfl
  · intro hacts h
    rw [State.openSafe] at h
    have hc := List.find?_some h
    obtain ⟨hd,-,-,hn⟩ := of_decide_eq_true hc
    exact hacts ⟨hd,hn⟩

theorem settles_fight (hs : Sound s) : Settles s (s.getNextMove_fight d)
    ((0 < s.curAmmo ∧ 50 < s.curEnergy) ∧ s.Near s.enemy.has)
    (if 0 < s.curAmmo ∧ 50 < s.curEnergy then s.beside s.enemy.has else none) := by
  refine settles_ahead ?_ ?_ ?_ ?_
  · rw [State.Near,exists_adjacent_iff hw (· ∈ s.enemy.has)]
    constructor
    · rintro ⟨⟨ha,he⟩,hn | hn⟩
      · exact .inl ⟨ha,⟨_,willWalkTo_mem_adjacent hw,hn,rfl⟩,he⟩
      · exact .inr ⟨ha,hn,he⟩
    · rintro (⟨ha,⟨n,-,hn,rfl⟩,he⟩ | ⟨ha,hn,he⟩)
      · exact ⟨⟨ha,he⟩,.inl hn⟩
      · exact ⟨⟨ha,he⟩,.inr hn⟩
  · rintro ⟨-,⟨n,hn,hhas,-⟩,-⟩
    obtain ⟨r,hr⟩ := Option.isSome_iff_exists.mp (attack_shoot_isSome (d := d) hs hn hhas)
    exact ⟨r.1,r.2,by rw [hr]; rfl⟩
  · split
    · rw [State.path_setPathToFightAction,Option.map_map]
      rfl
    · rfl
  · exact fun _ => ite_beside_ne

theorem settles_riskEnemy : Settles s s.getNextMove_riskEnemy
    (50 < s.curEnergy ∧ s.Near s.enemy.mightHave)
    (if 50 < s.curEnergy then s.beside s.enemy.mightHave else none) := by
  refine settles_ahead ?_ (fun _ => walkAhead_acts hw) ?_ ?_
  · rw [State.Near,exists_adjacent_iff hw (· ∈ s.enemy.mightHave),and_or_left]
  · split
    · rw [State.path_setPathToRiskEnemyAction,Option.map_map]
      rfl
    · rfl
  · exact fun _ => ite_beside_ne

theorem settles_riskHole : Settles s s.getNextMove_riskHole
    (s.curCost < 1 ∧ s.Near s.hole.mightHave)
    (if s.curCost < 1 then s.beside s.hole.mightHave else none) := by
  refine settles_ahead ?_ (fun _ => walkAhead_acts hw) ?_ ?_
  · rw [State.Near,exists_adjacent_iff hw (· ∈ s.hole.mightHave),and_or_left]
  · split
    · rw [State.path_setPathToHoleRisk,Option.map_map]
      rfl
    · rfl
  · exact fun _ => ite_beside_ne

omit hw in
theorem settles_powerup : Settles s s.getNextMove_powerup
    (s.curEnergy < 51 ∧ s.cell ∈ s.powerupCell)
    (if s.curEnergy < 51 then s.powerup else none) := by
  rw [State.getNextMove_powerup]
  constructor
  · intro h
    rw [if_pos h]
    exact ⟨_,_,rfl⟩
  · intro h
    rw [if_neg h]
    split
    · change s.path_setPathToPowerupAction.map Choice.follow = _
      rw [State.path_setPathToPowerupAction,Option.map_map]
      rfl
    · rfl
  · intro _ h
    split at h
    · rw [State.powerup] at h
      have hc := List.find?_some h
      exact (of_decide_eq_true hc).2 rfl
    · cases h

end Groups

section Choose
variable {s : State} {d : ℤ}

/-- The clauses give an action where there is no cell to go to, and else have the goal of a path to it;
for the last of the goals the agent is leaving. -/
def Answers (s : State) (ch : Choice) (c : Option Cell) : Prop :=
  c.elim (∃ a t, ch = .act a t) fun c => ∃ u, ch = .follow (u.go s.cell c) ∧
    (u = s ∧ c ≠ s.cell ∨ u = { s with exiting := true } ∧ c = s.startPoint)

theorem Settles.answers {o : Option Choice} {acts : Prop} [Decidable acts] {aim : Option Cell}
    {ch : Choice} {ls : List (Bool × Option Cell)} (ho : Settles s o acts aim)
    (hch : Answers s ch (firstAim ls)) :
    Answers s (o.getD ch) (firstAim ((decide acts,aim)::ls)) := by
  rw [firstAim]
  by_cases ha : acts
  · obtain ⟨a,t,rfl⟩ := ho.acting ha
    rw [if_pos (decide_eq_true ha)]
    exact ⟨a,t,rfl⟩
  · rw [if_neg (by simp [ha]),ho.aiming ha]
    cases aim with
    | none => exact hch
    | some c => exact ⟨s,rfl,.inl ⟨rfl,fun h => ho.elsewhere ha (congrArg some h)⟩⟩

theorem orElse_getD {α : Type} (o o' : Option α) (a : α) :
    (o <|> o').getD a = o.getD (o'.getD a) := by
  cases o <;> rfl

/-- Where no path is kept and nothing is to be had at once. -/
structure Free (s : State) : Prop where
  exit : ¬ (s.cell = s.startPoint ∧ s.exiting = true)
  energy : ¬ s.curEnergy < 1
  gold : s.cell ∉ s.goldCell
  curPath : s.curPath = []

theorem Free.busy_iff (h : Free s) : s.Busy ↔ ¬ s.isWalkable s.agent_willWalkTo ∨
    ¬ s.perceptions_perceiveDanger s.cell ∧ ∃ n ∈ s.adjacent s.cell, n ∉ s.visited := by
  have hpath : ¬ ∃ p ∈ s.curPath, p ≠ [] := by
    rintro ⟨p,hp,-⟩
    rw [h.curPath] at hp
    cases hp
  rw [State.Busy,or_iff_right h.exit,or_iff_right h.energy,or_iff_right h.gold,or_iff_right hpath]

theorem Free.choose (h : Free s) : s.choose d = s.chooseFree d := by
  have hpath : ¬ ∃ p ∈ s.curPath, p ≠ [] ∧ p.head? ≠ some s.agent_willWalkTo := by
    rintro ⟨p,hp,-⟩
    rw [h.curPath] at hp
    cases hp
  have hdrop : [] ∉ s.curPath := by
    rw [h.curPath]
    exact List.not_mem_nil
  rw [State.choose,State.getNextMove_exit,if_neg h.exit,State.getNextMove_gameOver,if_neg h.energy,
    State.getNextMove_pickGold,if_neg h.gold,State.getNextMove_dropPath,if_neg hdrop,
    State.getNextMove_turnToPath,if_neg hpath,h.curPath]
  rfl

theorem Free.answers (h : Free s) (hs : Sound s) : Answers s (s.choose d) s.target := by
  rw [h.choose,State.chooseFree,orElse_getD]
  by_cases hw : s.isWalkable s.agent_willWalkTo
  · have hbusy : s.Busy ↔ ¬ s.perceptions_perceiveDanger s.cell ∧
        ∃ n ∈ s.adjacent s.cell, n ∉ s.visited := by
      rw [h.busy_iff,or_iff_right (not_not.mpr hw)]
    rw [State.getNextMove_turnFromWall,if_neg (not_not.mpr hw),Option.getD_none]
    simp only [orElse_getD]
    have hexplore := settles_explore hw
    rw [← hbusy] at hexplore
    apply hexplore.answers
    apply (settles_fight hw hs).answers
    apply (settles_riskEnemy hw).answers
    apply settles_powerup.answers
    apply (settles_riskHole hw).answers
    exact ⟨_,rfl,.inr ⟨rfl,rfl⟩⟩
  · have hbusy : s.Busy := h.busy_iff.mpr (.inl hw)
    rw [State.getNextMove_turnFromWall,if_pos hw,State.target,State.aims,firstAim,
      if_pos (decide_eq_true hbusy)]
    exact ⟨_,_,rfl⟩

end Choose

end PucRio.Dungeon
