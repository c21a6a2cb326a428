import PucRio.Lib.TransitionSystem
import PucRio.Dungeon.Actions
import PucRio.Dungeon.Learning

/-! Whatever the agent does, what it holds of the cells is true, and no hazard next to a cell that it has
entered is overlooked. -/
namespace PucRio.Dungeon

section Walk
variable {s t : State} {c p : Cell}

theorem learns_go (a b : Cell) : Learns s (s.go a b) := by
  rw [State.go]
  cases StoredPaths.stored _ b with
  | none => exact .refl
  | some e =>
    refine Learn.learns (.other rfl rfl rfl fun h => ?_)
    cases h <;> rfl

theorem learns_fallIntoHole : Learns s s.fallIntoHole := by
  rw [State.fallIntoHole]
  split
  · rename_i hc
    refine Learns.trans (Learn.learns (.fall (c := s.cell) hc))
      (Learn.learns (.other rfl rfl rfl fun h => ?_))
    cases h <;> rfl
  · exact .refl

theorem learns_curEnergy (n : ℤ) : Learns s { s with curEnergy := n } := by
  refine Learn.learns (.other rfl rfl rfl fun h => ?_)
  cases h <;> rfl

theorem learns_allowDanger (b : Bool) : Learns s { s with allowDanger := b } := by
  refine Learn.learns (.other rfl rfl rfl fun h => ?_)
  cases h <;> rfl

theorem learns_meetEnemy {e : Enemy} (hc : s.cell ∈ s.hazardCell .enemy) :
    Learns s (s.meetEnemy e) := by
  have hconfirm : Learns { s with curEnergy := s.curEnergy-e.damage }
      (({ s with curEnergy := s.curEnergy-e.damage }).mark (.confirm s.cell) .enemy) := by
    refine Learn.learns (.confirm hc fun h => ?_)
    cases h
  exact ((learns_curEnergy _).trans hconfirm).trans
    ((learns_updateUncertainties _).1.trans (learns_allowDanger true))

theorem learns_meetEnemies {es : List Enemy} (hes : es ≠ [] → s.cell ∈ s.hazardCell .enemy) :
    Learns s (s.meetEnemies es) := by
  induction es generalizing s with
  | nil => exact .refl
  | cons e es ih =>
    have hc := hes (List.cons_ne_nil e es)
    have hm := learns_meetEnemy (e := e) hc
    rw [State.meetEnemies]
    cases hp : (s.meetEnemy e).path_setPathToNearestVisited with
    | none =>
      refine hm.trans (ih fun _ => ?_)
      rw [hm.frame.1,hm.frame.2.1]
      exact hc
    | some u =>
      obtain ⟨c,-,rfl⟩ := Option.map_eq_some_iff.mp hp
      exact (hm.trans (learns_go _ c)).trans (learns_allowDanger false)

theorem learns_meetEnemies_here (hc : s.cell = c) :
    Learns s (s.meetEnemies (s.enemyCell.filter fun e => e.cell = c)) := by
  apply learns_meetEnemies
  intro hne
  obtain ⟨e,he⟩ := List.exists_mem_of_ne_nil _ hne
  obtain ⟨he,hec⟩ := List.mem_filter.mp he
  rw [hc]
  exact List.mem_map.mpr ⟨e,he,of_decide_eq_true hec⟩

theorem agent_walkTo_spec (h : s.agent_walkTo c = some t) :
    s.isWalkable c ∧ Learns (s.enter c) t ∧ (Sound (s.enter c) → Marked t c) := by
  rw [State.agent_walkTo] at h
  split at h
  · rename_i hw
    obtain rfl := Option.some.inj h
    obtain ⟨hl,hm⟩ := learns_updateUncertainties (s.enter c)
    have hfall := hl.trans learns_fallIntoHole
    have hmeet := learns_meetEnemies_here (hfall.frame.2.1 : _ = c)
    exact ⟨hw,hfall.trans hmeet,fun hs => (learns_fallIntoHole.trans hmeet).marked (hm hs)⟩
  · cases h

/-- Walking into a walkable cell always succeeds. -/
theorem agent_walkTo_isSome : (s.agent_walkTo c).isSome ↔ s.isWalkable c := by
  rw [State.agent_walkTo]
  split
  · rename_i hw
    exact ⟨fun _ => hw,fun _ => rfl⟩
  · rename_i hw
    exact ⟨fun h => absurd h Bool.false_ne_true,fun h => absurd h hw⟩

theorem visited_enter (hp : p ∈ s.visited) : p ∈ (s.enter c).visited := by
  change p ∈ if c ∈ s.visited then s.visited else s.visited++[c]
  split
  · exact hp
  · exact List.mem_append_left _ hp

theorem marks_enter (h : Hazard) : (s.enter c).marks h = s.marks h := by cases h <;> rfl

theorem Sound.enter (hs : Sound s) : Sound (s.enter c) := by
  refine ⟨?_,?_,?_,?_,hs.walls⟩
  · intro h
    rw [marks_enter]
    exact hs.doesNotHave h
  · intro h
    rw [marks_enter]
    exact hs.has h
  · intro h
    rw [marks_enter]
    exact hs.apart h
  · intro a ha n hn
    exact (hs.certain a ha n hn).imp id visited_enter

theorem Marked.enter (hm : Marked s p) : Marked (s.enter c) p := by
  intro h a ha hnew hz
  rw [MarkedAt,marks_enter]
  exact hm h a ha (fun hv => hnew (visited_enter hv)) hz

end Walk

section Shoot
variable {s t : State} {a : Action} {d : ℤ} {p c : Cell}

/-- A shot may take enemies away, with what was known of their cells, but adds none. -/
structure Shot (s t : State) : Prop where
  wallCell : t.wallCell = s.wallCell
  visited : t.visited = s.visited
  hazard : ∀ h, ∀ c ∈ t.hazardCell h, c ∈ s.hazardCell h
  doesNotHave : ∀ h, (t.marks h).doesNotHave = (s.marks h).doesNotHave
  mightHave : ∀ h, (t.marks h).mightHave = (s.marks h).mightHave
  has : ∀ h, ∀ c ∈ (t.marks h).has, c ∈ (s.marks h).has
  kept : ∀ h, ∀ c ∈ (s.marks h).has, c ∈ (t.marks h).has ↔ c ∈ t.hazardCell h

theorem Shot.sound (h : Shot s t) (hs : Sound s) : Sound t := by
  refine ⟨?_,?_,?_,?_,?_⟩
  · intro k c hc hz
    rw [h.doesNotHave] at hc
    exact hs.doesNotHave k c hc (h.hazard k c hz)
  · intro k c hc
    exact (h.kept k c (h.has k c hc)).mp hc
  · intro k
    rw [h.doesNotHave,h.mightHave]
    exact hs.apart k
  · intro c hc
    rw [h.wallCell,h.visited]
    exact hs.certain c (h.has .teletransport c hc)
  · intro k c hc
    rw [h.wallCell]
    exact hs.walls k c (h.hazard k c hc)

theorem Shot.marked (h : Shot s t) (hm : Marked s p) : Marked t p := by
  intro k c hc hnew hz
  rw [h.visited] at hnew
  rw [MarkedAt,h.mightHave]
  exact (hm k c hc hnew (h.hazard k c hz)).imp id fun hc => (h.kept k c hc).mpr hz

theorem mem_others {e : Enemy} {es : List Enemy} :
    c ∈ (es.filter fun e' : Enemy => e'.cell ≠ e.cell).map Enemy.cell ↔
      c ∈ es.map Enemy.cell ∧ c ≠ e.cell := by
  constructor
  · intro hc
    obtain ⟨e',he',rfl⟩ := List.mem_map.mp hc
    obtain ⟨he',hne⟩ := List.mem_filter.mp he'
    exact ⟨List.mem_map.mpr ⟨e',he',rfl⟩,of_decide_eq_true hne⟩
  · rintro ⟨hc,hne⟩
    obtain ⟨e',he',rfl⟩ := List.mem_map.mp hc
    exact List.mem_map.mpr ⟨e',List.mem_filter.mpr ⟨he',decide_eq_true hne⟩,rfl⟩

/-- Only enemies are shot: it is enough to look at these. -/
theorem Shot.of_enemy (hs : Sound s) (hwall : t.wallCell = s.wallCell) (hv : t.visited = s.visited)
    (hhole : t.hole = s.hole ∧ t.holeCell = s.holeCell)
    (htele : t.teletransport = s.teletransport ∧ t.teletransportCell = s.teletransportCell)
    (hno : t.enemy.doesNotHave = s.enemy.doesNotHave) (hmight : t.enemy.mightHave = s.enemy.mightHave)
    (hz : ∀ c ∈ t.hazardCell .enemy, c ∈ s.hazardCell .enemy)
    (hhas : ∀ c, c ∈ t.enemy.has ↔ c ∈ s.enemy.has ∧ c ∈ t.hazardCell .enemy) : Shot s t := by
  have hmarks (h : Hazard) (hh : h ≠ .enemy) : t.marks h = s.marks h ∧ t.hazardCell h = s.hazardCell h := by
    cases h with
    | hole => exact hhole
    | enemy => exact absurd rfl hh
    | teletransport => exact htele
  have hcases {P : Hazard → Prop} (he : P .enemy) (hall : ∀ h, h ≠ .enemy → P h) (h : Hazard) : P h := by
    by_cases hh : h = .enemy
    · exact hh ▸ he
    · exact hall h hh
  refine ⟨hwall,hv,?_,?_,?_,?_,?_⟩
  · exact hcases hz fun h hh c hc => (hmarks h hh).2 ▸ hc
  · exact hcases hno fun h hh => congrArg Marks.doesNotHave (hmarks h hh).1
  · exact hcases hmight fun h hh => congrArg Marks.mightHave (hmarks h hh).1
  · exact hcases (fun c hc => ((hhas c).mp hc).1) fun h hh c hc => (hmarks h hh).1 ▸ hc
  · refine hcases (fun c hc => ⟨fun h => ((hhas c).mp h).2,fun h => (hhas c).mpr ⟨hc,h⟩⟩)
      fun h hh c hc => ?_
    rw [(hmarks h hh).1,(hmarks h hh).2]
    exact ⟨fun _ => hs.has h c hc,fun _ => hc⟩

theorem shot_hit (hs : Sound s) {e : Enemy} (he : e ∈ s.enemyCell) : Shot s (s.hit d e).2 := by
  have hcell : e.cell ∈ s.hazardCell .enemy := List.mem_map.mpr ⟨e,he,rfl⟩
  rw [State.hit]
  split
  · refine .of_enemy hs rfl rfl ⟨rfl,rfl⟩ ⟨rfl,rfl⟩ rfl rfl (fun c hc => (mem_others.mp hc).1) fun c => ?_
    constructor
    · intro hc
      obtain ⟨hc,hne⟩ := mem_filter_ne.mp hc
      exact ⟨hc,mem_others.mpr ⟨hs.has .enemy c hc,hne⟩⟩
    · rintro ⟨hc,hz⟩
      exact mem_filter_ne.mpr ⟨hc,(mem_others.mp hz).2⟩
  · have hz (c : Cell) : c ∈ ((s.enemyCell.filter fun e' : Enemy => e'.cell ≠ e.cell)++
        [{ e with energy := e.energy-d }]).map Enemy.cell ↔ c ∈ s.hazardCell .enemy := by
      rw [List.map_append,List.mem_append,mem_others,List.map_cons,List.map_nil,List.mem_singleton]
      constructor
      · rintro (⟨hc,-⟩ | rfl)
        · exact hc
        · exact hcell
      · intro hc
        by_cases hce : c = e.cell
        · exact .inr hce
        · exact .inl ⟨hc,hce⟩
    refine .of_enemy hs rfl rfl ⟨rfl,rfl⟩ ⟨rfl,rfl⟩ rfl rfl (fun c hc => (hz c).mp hc) fun c => ?_
    exact ⟨fun hc => ⟨hc,(hz c).mpr (hs.has .enemy c hc)⟩,And.left⟩

theorem Shot.paid (h : Shot s t) (m n : ℤ) : Shot s { t with curCost := m, curAmmo := n } := by
  have hmarks (k : Hazard) : ({ t with curCost := m, curAmmo := n } : State).marks k = t.marks k := by
    cases k <;> rfl
  refine ⟨h.wallCell,h.visited,h.hazard,fun k => ?_,fun k => ?_,fun k => ?_,fun k => ?_⟩
  · rw [hmarks]
    exact h.doesNotHave k
  · rw [hmarks]
    exact h.mightHave k
  · rw [hmarks]
    exact h.has k
  · rw [hmarks]
    exact h.kept k

theorem attack_shoot_spec (hs : Sound s) (h : s.attack_shoot d = some (a,t)) : Shot s t := by
  obtain ⟨e,he,heq⟩ := Option.map_eq_some_iff.mp h
  obtain ⟨c,-,hc⟩ := List.exists_of_findSome?_eq_some he
  obtain rfl : _ = t := congrArg Prod.snd heq
  exact (shot_hit hs (List.mem_of_find?_eq_some hc)).paid _ _

end Shoot

section Runs
variable {s t : State} {p : Cell}

inductive Move
  | walkTo (c : Cell)
  | rotate
  | shoot (damage : ℤ)
  deriving DecidableEq, Repr

/-- The agent from `s₀` on. Only into walkable cells does it walk; a shot at nothing changes nothing. -/
def agent (s₀ : State) : TransitionSystem State Move where
  init := s₀
  step s a := match a with
    | .walkTo c => s.agent_walkTo c
    | .rotate => some s.agent_rotate
    | .shoot d => some ((s.attack_shoot d).elim s Prod.snd)

theorem learns_agent_rotate : Learns s s.agent_rotate := by
  refine Learn.learns (.other rfl rfl rfl fun h => ?_)
  cases h <;> rfl

/-- One move keeps what is known true and what is marked marked. -/
theorem Sound.step {s₀ : State} {a : Move} (hs : Sound s) (h : (agent s₀).step s a = some t) :
    Sound t ∧ (∀ p, Marked s p → Marked t p) ∧ ∀ c, a = .walkTo c → Marked t c := by
  cases a with
  | walkTo c =>
    obtain ⟨-,hl,hm⟩ := agent_walkTo_spec h
    refine ⟨hl.sound hs.enter,fun p hp => hl.marked hp.enter,fun c' hc => ?_⟩
    obtain rfl := Move.walkTo.inj hc
    exact hm hs.enter
  | rotate =>
    obtain rfl := Option.some.inj h
    refine ⟨learns_agent_rotate.sound hs,fun p hp => learns_agent_rotate.marked hp,fun c hc => ?_⟩
    cases hc
  | shoot d =>
    obtain rfl := Option.some.inj h
    refine ⟨?_,fun p hp => ?_,fun c hc => ?_⟩
    · cases hr : s.attack_shoot d with
      | none => exact hs
      | some r => exact (attack_shoot_spec hs hr).sound hs
    · cases hr : s.attack_shoot d with
      | none => exact hp
      | some r => exact (attack_shoot_spec hs hr).marked hp
    · cases hc

theorem Sound.exec {s₀ : State} {l : List Move} (hs : Sound s) (h : (agent s₀).exec s l = some t) :
    Sound t ∧ ∀ p, Marked s p ∨ .walkTo p ∈ l → Marked t p := by
  induction l generalizing s with
  | nil =>
    obtain rfl := Option.some.inj h
    exact ⟨hs,fun p hp => hp.resolve_right List.not_mem_nil⟩
  | cons a l ih =>
    obtain ⟨u,hu,ht⟩ := Option.bind_eq_some_iff.mp h
    obtain ⟨hsu,hkeep,hnew⟩ := hs.step hu
    obtain ⟨hst,hm⟩ := ih hsu ht
    refine ⟨hst,fun p hp => hm p ?_⟩
    obtain hp | hp := hp
    · exact .inl (hkeep p hp)
    · exact (List.mem_cons.mp hp).imp (fun h => hnew p h.symm) id

end Runs

section Map
variable {m : GameMap} {s₀ : State}

theorem mem_places {p : Cell × Cells} : p ∈ m.places ↔
    ∃ i < m.nRows, ∃ j < m.nColumns, (((j : ℤ),(i : ℤ)),m.value i j) = p := by
  simp only [GameMap.places,List.mem_flatMap,List.mem_range,List.mem_map]

/-- A cell has one value. -/
theorem places_unique {c : Cell} {v w : Cells} (hv : (c,v) ∈ m.places) (hw : (c,w) ∈ m.places) :
    v = w := by
  obtain ⟨i,-,j,-,hv⟩ := mem_places.mp hv
  obtain ⟨k,-,l,-,hw⟩ := mem_places.mp hw
  obtain ⟨rfl,rfl⟩ := Prod.mk.inj hv
  obtain ⟨hc,rfl⟩ := Prod.mk.inj hw
  obtain ⟨hl,hk⟩ := Prod.mk.inj hc
  rw [Int.natCast_inj.mp hl,Int.natCast_inj.mp hk]

theorem mem_having {l : List Cells} {c : Cell} : c ∈ m.having l ↔ ∃ v ∈ l, (c,v) ∈ m.places := by
  rw [GameMap.having]
  constructor
  · intro hc
    obtain ⟨⟨c,v⟩,hp,rfl⟩ := List.mem_map.mp hc
    obtain ⟨hp,hv⟩ := List.mem_filter.mp hp
    exact ⟨v,of_decide_eq_true hv,hp⟩
  · rintro ⟨v,hv,hp⟩
    exact List.mem_map.mpr ⟨(c,v),List.mem_filter.mpr ⟨hp,decide_eq_true hv⟩,rfl⟩

theorem mem_enemies {e : Enemy} (he : e ∈ m.enemies) :
    ∃ v ∈ [Cells.ENEMY20,Cells.ENEMY50], (e.cell,v) ∈ m.places := by
  obtain ⟨⟨c,v⟩,hp,hv⟩ := List.mem_filterMap.mp he
  split_ifs at hv with h20 h50
  · obtain rfl := Option.some.inj hv
    exact ⟨v,List.mem_cons.mpr (.inl h20),hp⟩
  · obtain rfl := Option.some.inj hv
    exact ⟨v,List.mem_cons_of_mem _ (List.mem_singleton.mpr h50),hp⟩

theorem not_wall {l : List Cells} (hl : .WALL ∉ l) {c : Cell} (hc : ∃ v ∈ l, (c,v) ∈ m.places) :
    c ∉ m.having [.WALL] := by
  intro hw
  obtain ⟨v,hv,hp⟩ := hc
  obtain ⟨w,hw,hp'⟩ := mem_having.mp hw
  obtain rfl := List.mem_singleton.mp hw
  exact hl (places_unique hp hp' ▸ hv)

theorem sound_resetGame (h : m.resetGame = some s₀) : Sound s₀ := by
  obtain ⟨f,hf,rfl⟩ := Option.map_eq_some_iff.mp h
  obtain ⟨start,-,rfl⟩ := Option.map_eq_some_iff.mp hf
  have hmarks (f : Facts) (h : Hazard) : (agent_reset f).marks h = ⟨[],[],[]⟩ := by cases h <;> rfl
  refine ⟨?_,?_,?_,?_,?_⟩
  · intro h c hc
    rw [hmarks] at hc
    cases hc
  · intro h c hc
    rw [hmarks] at hc
    cases hc
  · intro h c hc
    rw [hmarks] at hc
    cases hc
  · intro c hc
    cases hc
  · intro h c hc
    cases h with
    | hole => exact not_wall (by decide) (mem_having.mp hc)
    | enemy =>
      obtain ⟨e,he,rfl⟩ := List.mem_map.mp hc
      exact not_wall (by decide) (mem_enemies he)
    | teletransport => exact not_wall (by decide) (mem_having.mp hc)

/-- What is held of a cell is true, and nothing next to a cell that was entered is overlooked. -/
theorem knowledge_sound (hm : m.resetGame = some s₀) {l : List Move} {s : State}
    (hs : (agent s₀).exec s₀ l = some s) (h : Hazard) :
    (∀ c ∈ (s.marks h).doesNotHave, c ∉ s.hazardCell h) ∧
    (∀ c ∈ (s.marks h).has, c ∈ s.hazardCell h) ∧
    (∀ c ∈ (s.marks h).mightHave, c ∉ (s.marks h).doesNotHave) ∧
    ∀ p, .walkTo p ∈ l → ∀ c ∈ neighbours p, c ∉ s.visited → c ∈ s.hazardCell h →
      c ∈ (s.marks h).mightHave ∨ c ∈ (s.marks h).has := by
  obtain ⟨hsound,hmarked⟩ := (sound_resetGame hm).exec hs
  exact ⟨hsound.doesNotHave h,hsound.has h,hsound.apart h,fun p hp => hmarked p (.inr hp) h⟩

/-- A hole beside the second cell. -/
def pit : GameMap := .ofRows [[.START,.FLOOR],[.WALL,.HOLE]]

theorem knowledge_sound_pit : ∃ s₀ s, pit.resetGame = some s₀ ∧
    (agent s₀).exec s₀ [.walkTo (1,0)] = some s ∧
      ((1,1) ∈ (s.marks .hole).mightHave ∨ (1,1) ∈ (s.marks .hole).has) := by
  obtain ⟨s₀,hm⟩ : ∃ s₀, pit.resetGame = some s₀ := ⟨_,rfl⟩
  obtain ⟨s,hs⟩ : ∃ s, (agent s₀).exec s₀ [.walkTo (1,0)] = some s := by
    obtain rfl := Option.some.inj hm
    exact ⟨_,rfl⟩
  refine ⟨s₀,s,hm,hs,(knowledge_sound hm hs .hole).2.2.2 (1,0) List.mem_cons_self (1,1) ?_ ?_ ?_⟩
  · decide
  · obtain rfl := Option.some.inj hm
    obtain rfl := Option.some.inj hs
    decide
  · obtain rfl := Option.some.inj hm
    obtain rfl := Option.some.inj hs
    decide

end Map

end PucRio.Dungeon
