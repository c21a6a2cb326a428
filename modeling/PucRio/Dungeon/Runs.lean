import PucRio.Dungeon.Decides

/-! The agent in the hands of a host, which asks for one move after the other and takes the agent
elsewhere from a teletransport. -/
namespace PucRio.Dungeon

section Sound
variable {s t : State} {d : ℤ}

def Choice.state : Choice → State
  | act _ s => s
  | retry s => s
  | follow s => s

/-- Only the walls, the hazards and what is known count. -/
theorem Sound.congr (hs : Sound s) (hwall : t.wallCell = s.wallCell)
    (hz : ∀ h, t.hazardCell h = s.hazardCell h) (hv : t.visited = s.visited)
    (hm : ∀ h, t.marks h = s.marks h) : Sound t := by
  have hc : t.teletransport = s.teletransport := hm .teletransport
  refine ⟨?_,?_,?_,?_,?_⟩
  · intro h
    rw [hm,hz]
    exact hs.doesNotHave h
  · intro h
    rw [hm,hz]
    exact hs.has h
  · intro h
    rw [hm]
    exact hs.apart h
  · rw [hc,hwall,hv]
    exact hs.certain
  · intro h
    rw [hz,hwall]
    exact hs.walls h

/-- A clause that succeeds leaves what is known true. -/
def Keeps (o : Option Choice) : Prop := ∀ ch, o = some ch → Sound ch.state

theorem keeps_none : Keeps none := fun _ h => (Option.some_ne_none _ h.symm).elim

theorem keeps_some {ch : Choice} (h : Sound ch.state) : Keeps (some ch) :=
  fun _ heq => Option.some.inj heq ▸ h

theorem Keeps.orElse {o o' : Option Choice} (h : Keeps o) (h' : Keeps o') : Keeps (o <|> o') := by
  cases o with
  | none => exact h'
  | some ch => exact h

theorem Keeps.ite {P : Prop} [Decidable P] {o : Option Choice} (h : Keeps o) :
    Keeps (if P then o else none) := by
  split
  · exact h
  · exact keeps_none

theorem Keeps.getD {o : Option Choice} {ch : Choice} (h : Keeps o) (hch : Sound ch.state) :
    Sound (o.getD ch).state := by
  cases o with
  | none => exact hch
  | some ch' => exact h ch' rfl

theorem Sound.walkTo (hs : Sound s) {c : Cell} (h : s.agent_walkTo c = some t) : Sound t :=
  (agent_walkTo_spec h).2.1.sound hs.enter

variable (hs : Sound s)
include hs

theorem keeps_go (o : Option Cell) : Keeps ((o.map fun c => s.go s.cell c).map .follow) := by
  cases o with
  | none => exact keeps_none
  | some c => exact keeps_some ((learns_go s.cell c).sound hs)

theorem keeps_rotate : Keeps (some (.act .rotate s.agent_rotate)) :=
  keeps_some (learns_agent_rotate.sound hs)

theorem keeps_walkAhead : Keeps s.walkAhead := by
  rw [State.walkAhead]
  cases hw : s.agent_walkTo s.agent_willWalkTo with
  | none => exact keeps_none
  | some t => exact keeps_some (hs.walkTo hw)

theorem keeps_shoot : Keeps ((s.attack_shoot d).map fun r => .act r.1 r.2) := by
  cases hr : s.attack_shoot d with
  | none => exact keeps_none
  | some r => exact keeps_some ((attack_shoot_spec hs hr).sound hs)

theorem sound_chooseFree : Sound (s.chooseFree d).state := by
  have hrot := keeps_rotate hs
  have hwalk := keeps_walkAhead hs
  have hgo := keeps_go hs
  refine Keeps.getD ?_ ((learns_go _ _).sound hs.leaving)
  apply Keeps.orElse
  · exact hrot.ite
  apply Keeps.orElse
  · exact hwalk.ite.orElse (hrot.ite.orElse (hgo _))
  apply Keeps.orElse
  · exact (keeps_shoot hs).ite.orElse (hrot.ite.orElse (hgo _).ite)
  apply Keeps.orElse
  · exact hwalk.ite.orElse (hrot.ite.orElse (hgo _).ite)
  apply Keeps.orElse
  · refine (Keeps.ite (keeps_some ?_)).orElse (hgo _).ite
    refine hs.congr rfl (fun h => ?_) rfl fun h => ?_ <;> cases h <;> rfl
  · exact hwalk.ite.orElse (hrot.ite.orElse (hgo _).ite)

theorem sound_walkAlong {ps : List (List Cell)} (h : s.walkAlong ps = .ok t) : Sound t := by
  induction ps generalizing s with
  | nil => cases h
  | cons p ps ih =>
    rw [State.walkAlong] at h
    split at h
    · have hp := hs.dropPath [p.tail]
      cases hw : ({ s with curPath := [p.tail] } : State).agent_walkTo s.agent_willWalkTo with
      | none =>
        rw [hw] at h
        exact ih hp h
      | some u =>
        rw [hw] at h
        exact Except.ok.inj h ▸ hp.walkTo hw
    · exact ih hs h

/-- Whatever clause succeeds, what is known stays true. -/
theorem sound_choose : Sound (s.choose d).state := by
  refine Keeps.getD ?_ ?_
  · apply Keeps.orElse
    · exact Keeps.ite (keeps_some hs)
    apply Keeps.orElse
    · exact Keeps.ite (keeps_some hs)
    apply Keeps.orElse
    · refine Keeps.ite (keeps_some ?_)
      refine hs.congr rfl (fun h => ?_) rfl fun h => ?_ <;> cases h <;> rfl
    apply Keeps.orElse
    · exact Keeps.ite (keeps_some (hs.dropPath _))
    · exact (keeps_rotate hs).ite
  · obtain ⟨t,ht⟩ | ⟨q,hq,-⟩ := walkAlong_cases (s := s) s.curPath
    · rw [ht]
      exact sound_walkAlong hs ht
    · rw [hq]
      exact sound_chooseFree (hs.dropPath q)

theorem Sound.getNextMove {n : ℕ} {a : Action} (h : s.getNextMove d n = some (a,t)) : Sound t := by
  induction n generalizing s with
  | zero => cases h
  | succ n ih =>
    have hch := sound_choose (d := d) hs
    cases hc : s.choose d with
    | act a' u =>
      rw [hc] at hch
      rw [State.getNextMove,hc] at h
      obtain ⟨-,rfl⟩ := Prod.mk.inj (Option.some.inj h)
      exact hch
    | retry u =>
      rw [hc] at hch
      exact ih hch (getNextMove_of_calls (.inl hc) n ▸ h)
    | follow u =>
      rw [hc] at hch
      exact ih hch (getNextMove_of_calls (.inr hc) n ▸ h)

end Sound

section Host
variable {m : GameMap} {s₀ s : State}

/-- A move that is found, or the way from a teletransport to a walkable cell. -/
def HostStep (s t : State) : Prop :=
  (∃ d n a, s.getNextMove d n = some (a,t)) ∨
    s.cell ∈ s.teletransportCell ∧ ∃ c, s.agent_walkTo c = some t

theorem sound_of_hostSteps (hm : m.resetGame = some s₀)
    (hr : Relation.ReflTransGen HostStep s₀ s) : Sound s := by
  induction hr with
  | refl => exact sound_resetGame hm
  | tail _ h ih =>
    obtain ⟨d,n,a,h⟩ | ⟨-,c,h⟩ := h
    · exact ih.getNextMove h
    · exact ih.walkTo h

/-- In every state that the host comes to, the agent decides exactly if it can reach where it means
to go. -/
theorem decides_iff (hm : m.resetGame = some s₀) (hr : Relation.ReflTransGen HostStep s₀ s) (d : ℤ) :
    s.Decides d ↔ ∀ c, s.target = some c → s.Reaches s.cell c :=
  (sound_of_hostSteps hm hr).chooses_iff

/-- Requests of the host: a move, or a cell to which it takes the agent. -/
def hostMoves : List (Option Cell) → State → Option State
  | [],s => some s
  | none::l,s => (s.getNextMove 20 4).bind fun r => hostMoves l r.2
  | some c::l,s =>
    if s.cell ∈ s.teletransportCell then (s.agent_walkTo c).bind (hostMoves l) else none

theorem hostSteps_of_hostMoves {l : List (Option Cell)} {s t : State}
    (h : hostMoves l s = some t) : Relation.ReflTransGen HostStep s t := by
  induction l generalizing s with
  | nil =>
    obtain rfl := Option.some.inj h
    exact .refl
  | cons c l ih =>
    cases c with
    | none =>
      obtain ⟨⟨a,u⟩,hu,ht⟩ := Option.bind_eq_some_iff.mp h
      exact (ih ht).head (.inl ⟨20,4,a,hu⟩)
    | some c =>
      rw [hostMoves] at h
      split_ifs at h with htele
      obtain ⟨u,hu,ht⟩ := Option.bind_eq_some_iff.mp h
      exact (ih ht).head (.inr ⟨htele,c,hu⟩)

/-- A teletransport beside a hole, and two cells to which there is no way. -/
def island : GameMap := .ofRows
  [[.START,.FLOOR,.TELETRANSPORT],
   [.WALL,.HOLE,.WALL],
   [.WALL,.WALL,.WALL],
   [.FLOOR,.FLOOR,.WALL]]

/-- The agent comes back from the teletransport to the cell beside the start, where it means to go. -/
theorem decides_iff_island : ∃ s₀ s, island.resetGame = some s₀ ∧
    Relation.ReflTransGen HostStep s₀ s ∧ s.target = some (0,0) ∧ s.Decides 20 := by
  obtain ⟨s₀,hm⟩ : ∃ s₀, island.resetGame = some s₀ := ⟨_,rfl⟩
  have hmoves : ((hostMoves [none,none,none,some (1,0)] s₀).any fun s =>
      s.target = some (0,0) && (0,0) ∈ s.path s.cell) = true := by
    obtain rfl := Option.some.inj hm
    decide +kernel
  obtain ⟨s,hs,hp⟩ := (Option.any_eq_true _ _).mp hmoves
  rw [Bool.and_eq_true,decide_eq_true_eq,decide_eq_true_eq] at hp
  have hr := hostSteps_of_hostMoves hs
  refine ⟨s₀,s,hm,hr,hp.1,(decides_iff hm hr 20).mpr fun c hc => ?_⟩
  obtain rfl := Option.some.inj (hp.1.symm.trans hc)
  exact .single hp.2

/-- The agent is taken to the island, walks around and means to leave. -/
theorem stranded_island : ((island.resetGame.bind (hostMoves
    [none,none,none,some (0,3),none,none,none])).all fun s =>
      s.choose 20 = .follow (s.choose 20).state ∧
        (s.choose 20).state.choose 20 = .follow (s.choose 20).state) = true := by
  decide +kernel

theorem not_decides_island : ∃ s₀ s, island.resetGame = some s₀ ∧
    Relation.ReflTransGen HostStep s₀ s ∧ ∀ n, s.getNextMove 20 n = none := by
  obtain ⟨s₀,hm⟩ : ∃ s₀, island.resetGame = some s₀ := ⟨_,rfl⟩
  have hall := stranded_island
  obtain ⟨s,hs⟩ : ∃ s, hostMoves [none,none,none,some (0,3),none,none,none] s₀ = some s := by
    apply Option.isSome_iff_exists.mp
    obtain rfl := Option.some.inj hm
    decide +kernel
  rw [hm,Option.bind_some,hs] at hall
  obtain ⟨h₁,h₂⟩ := of_decide_eq_true hall
  have hloop (n : ℕ) : (s.choose 20).state.getNextMove 20 n = none := by
    induction n with
    | zero => rfl
    | succ n ih => rw [getNextMove_of_calls (.inr h₂),ih]
  refine ⟨s₀,s,hm,hostSteps_of_hostMoves hs,fun n => ?_⟩
  cases n with
  | zero => rfl
  | succ n => rw [getNextMove_of_calls (.inr h₁),hloop]

end Host

section Caution
variable {s t : State} {c : Cell} {d : ℤ}

/-- The paths that are kept lead over visited cells. -/
def Retraces (s : State) : Prop := ∀ p ∈ s.curPath, ∀ c ∈ p, c ∈ s.visited

/-- What the agent walks into: a cell where it has been, one without hazards, or one that is suspected
when no safe cell is left to be explored. -/
def State.MayEnter (s : State) (c : Cell) : Prop :=
  c ∈ s.visited ∨ (∀ h, c ∉ s.hazardCell h) ∨ s.openSafe = none ∧
    (50 < s.curEnergy ∧ c ∈ s.enemy.mightHave ∨ s.curCost < 1 ∧ c ∈ s.hole.mightHave)

theorem Retraces.congr (hs : Retraces s) (hp : t.curPath = s.curPath) (hv : t.visited = s.visited) :
    Retraces t := by
  intro p hmem c hc
  rw [hp] at hmem
  rw [hv]
  exact hs p hmem c hc

theorem Retraces.append (hs : Retraces s) {p : List Cell} (hp : ∀ c ∈ p, c ∈ s.visited) :
    Retraces { s with curPath := s.curPath++[p] } := by
  intro q hq
  obtain hq | hq := List.mem_append.mp hq
  · exact hs q hq
  · rw [List.mem_singleton.mp hq]
    exact hp

theorem Retraces.go (hs : Retraces s) (a b : Cell) : Retraces (s.go a b) := by
  by_cases h : b ≠ a ∧ s.Reaches a b
  · obtain ⟨p,hp,-,hgo⟩ := go_spec h.1 h.2
    rw [hgo]
    exact hs.append hp.visited
  · rw [go_of_not_reaches h]
    exact hs

theorem Retraces.updateUncertainties (hs : Retraces s) :
    Retraces s.perceptions_updateUncertainties :=
  hs.congr (curPath_updateUncertainties s) (learns_updateUncertainties s).1.frame.2.2

theorem Retraces.withDanger (hs : Retraces s) (b : Bool) :
    Retraces { s with allowDanger := b } := hs

theorem Retraces.meetEnemy (hs : Retraces s) (e : Enemy) : Retraces (s.meetEnemy e) := by
  have hmark : Retraces (({ s with curEnergy := s.curEnergy-e.damage } : State).mark
      (.confirm s.cell) .enemy) := hs
  exact hmark.updateUncertainties.withDanger true

theorem Retraces.meetEnemies {es : List Enemy} (hs : Retraces s) : Retraces (s.meetEnemies es) := by
  induction es generalizing s with
  | nil => exact hs
  | cons e es ih =>
    have hmeet := hs.meetEnemy e
    rw [State.meetEnemies]
    cases hp : (s.meetEnemy e).path_setPathToNearestVisited with
    | none => exact ih hmeet
    | some u =>
      obtain ⟨c,-,rfl⟩ := Option.map_eq_some_iff.mp hp
      exact (hmeet.go _ c).withDanger false

theorem Retraces.fallIntoHole (hs : Retraces s) : Retraces s.fallIntoHole := by
  rw [State.fallIntoHole]
  split
  · exact hs
  · exact hs

theorem Retraces.walkTo (hs : Retraces s) (h : s.agent_walkTo c = some t) : Retraces t := by
  rw [State.agent_walkTo] at h
  split at h
  · obtain rfl := Option.some.inj h
    have henter : Retraces (s.enter c) := fun p hp b hb => visited_enter (hs p hp b hb)
    exact henter.updateUncertainties.fallIntoHole.meetEnemies
  · cases h

theorem cell_walkTo (h : s.agent_walkTo c = some t) : t.cell = c :=
  (agent_walkTo_spec h).2.1.frame.2.1

/-- What a clause does: the agent stays in its cell or enters one that it may enter, or it asks for the
next move again and only the paths differ. -/
structure Cautious (s : State) (ch : Choice) : Prop where
  retraces : Retraces ch.state
  acts : ∀ a t, ch = .act a t → t.cell = s.cell ∨ s.MayEnter t.cell
  calls : (∀ a t, ch ≠ .act a t) →
    ∃ q b, ch.state = { s with curPath := q, exiting := b }

theorem go_eq (a b : Cell) : ∃ q, s.go a b = { s with curPath := q } := by
  rw [State.go]
  cases StoredPaths.stored _ b with
  | none => exact ⟨s.curPath,rfl⟩
  | some e => exact ⟨_,rfl⟩

variable {ch : Choice}

theorem Cautious.stays {a : Action} (ht : Retraces t) (hc : t.cell = s.cell) :
    Cautious s (.act a t) where
  retraces := ht
  acts _ _ h := by
    cases h
    exact .inl hc
  calls h := (h _ _ rfl).elim

theorem Cautious.enters {a : Action} (ht : Retraces t) (hc : s.MayEnter t.cell) :
    Cautious s (.act a t) where
  retraces := ht
  acts _ _ h := by
    cases h
    exact .inr hc
  calls h := (h _ _ rfl).elim

theorem Cautious.of_paths {q : List (List Cell)} (h : Cautious { s with curPath := q } ch) :
    Cautious s ch := ⟨h.retraces,h.acts,h.calls⟩

/-- With a safe cell left, the agent explores. -/
theorem openSafe_of_explore (h : s.getNextMove_explore = none) : s.openSafe = none := by
  simp only [State.getNextMove_explore,State.path_setPathToOpenSafeAction,
    Option.orElse_eq_orElse,Option.orElse_eq_or,Option.or_eq_none_iff,Option.map_eq_none_iff] at h
  exact h.2.2

section Clauses
variable (hs : Retraces s)
include hs

theorem cautious_rotate : Cautious s (.act .rotate s.agent_rotate) := .stays hs rfl

theorem cautious_go (b : Bool) (c : Cell) :
    Cautious s (.follow (({ s with exiting := b } : State).go s.cell c)) where
  retraces := Retraces.go (s := { s with exiting := b }) hs s.cell c
  acts _ _ h := by cases h
  calls _ := by
    obtain ⟨q,hq⟩ := go_eq (s := { s with exiting := b }) s.cell c
    exact ⟨q,b,hq⟩

theorem cautious_aim {aim : Option Cell}
    (h : (aim.map fun c => s.go s.cell c).map .follow = some ch) : Cautious s ch := by
  rw [Option.map_map,Option.map_eq_some_iff] at h
  obtain ⟨c,-,rfl⟩ := h
  exact cautious_go hs s.exiting c

theorem cautious_walkAhead (hm : s.MayEnter s.agent_willWalkTo) (h : s.walkAhead = some ch) :
    Cautious s ch := by
  obtain ⟨t,ht,rfl⟩ := Option.map_eq_some_iff.mp h
  refine .enters (hs.walkTo ht) ?_
  rwa [cell_walkTo ht]

theorem cautious_shoot (h : ((s.attack_shoot d).map fun r => .act r.1 r.2) = some ch) :
    Cautious s ch := by
  obtain ⟨r,hr,rfl⟩ := Option.map_eq_some_iff.mp h
  obtain ⟨e,-,rfl⟩ := Option.map_eq_some_iff.mp hr
  rw [State.hit]
  split
  · exact .stays hs rfl
  · exact .stays hs rfl

/-- A group of clauses, of which the second turns the agent. -/
theorem cautious_group {P Q : Prop} [Decidable P] [Decidable Q] {first rest : Option Choice}
    (hfirst : P → first = some ch → Cautious s ch) (hrest : rest = some ch → Cautious s ch)
    (h : ((if P then first else none) <|>
      (if Q then some (.act .rotate s.agent_rotate) else none) <|> rest) = some ch) :
    Cautious s ch := by
  simp only [Option.orElse_eq_orElse,Option.orElse_eq_or,Option.or_eq_some_iff,
    Option.ite_none_right_eq_some] at h
  obtain ⟨hP,h⟩ | ⟨-,⟨-,h⟩ | ⟨-,h⟩⟩ := h
  · exact hfirst hP h
  · cases h
    exact cautious_rotate hs
  · exact hrest h

theorem cautious_explore (h : s.getNextMove_explore = some ch) : Cautious s ch := by
  refine cautious_group hs (fun hP => cautious_walkAhead hs (.inr (.inl fun k hk => ?_)))
    (cautious_aim hs) h
  have hp : s.perceive k s.cell := ⟨_,willWalkTo_mem_adjacent hP.1,hk⟩
  cases k with
  | hole => exact hP.2.1 (.inl hp)
  | enemy => exact hP.2.1 (.inr (.inl hp))
  | teletransport => exact hP.2.1 (.inr (.inr hp))

theorem cautious_if_aim {P : Prop} [Decidable P] {aim : Option Cell}
    (h : (if P then (aim.map fun c => s.go s.cell c).map .follow else none) = some ch) :
    Cautious s ch := cautious_aim hs (Option.ite_none_right_eq_some.mp h).2

theorem cautious_fight (h : s.getNextMove_fight d = some ch) : Cautious s ch :=
  cautious_group hs (fun _ => cautious_shoot hs) (cautious_if_aim hs) h

theorem cautious_riskEnemy (hsafe : s.openSafe = none) (h : s.getNextMove_riskEnemy = some ch) :
    Cautious s ch :=
  cautious_group hs (fun hP => cautious_walkAhead hs (.inr (.inr ⟨hsafe,.inl hP⟩)))
    (cautious_if_aim hs) h

theorem cautious_riskHole (hsafe : s.openSafe = none) (h : s.getNextMove_riskHole = some ch) :
    Cautious s ch :=
  cautious_group hs (fun hP => cautious_walkAhead hs (.inr (.inr ⟨hsafe,.inr hP⟩)))
    (cautious_if_aim hs) h

theorem cautious_powerup (h : s.getNextMove_powerup = some ch) : Cautious s ch := by
  simp only [State.getNextMove_powerup,Option.orElse_eq_orElse,Option.orElse_eq_or,
    Option.or_eq_some_iff,Option.ite_none_right_eq_some] at h
  obtain ⟨-,h⟩ | ⟨-,-,h⟩ := h
  · cases h
    exact .stays hs rfl
  · exact cautious_aim hs h

theorem cautious_chooseFree : Cautious s (s.chooseFree d) := by
  generalize hch : s.chooseFree d = ch
  rw [State.chooseFree,Option.getD_eq_iff] at hch
  simp only [Option.orElse_eq_orElse,Option.orElse_eq_or,Option.or_eq_some_iff,
    Option.or_eq_none_iff] at hch
  obtain (h | ⟨-,h | ⟨hexplore,h | ⟨-,h | ⟨-,h | ⟨-,h⟩⟩⟩⟩⟩) | ⟨-,rfl⟩ := hch
  · rw [State.getNextMove_turnFromWall,Option.ite_none_right_eq_some] at h
    cases h.2
    exact cautious_rotate hs
  · exact cautious_explore hs h
  · exact cautious_fight hs h
  · exact cautious_riskEnemy hs (openSafe_of_explore hexplore) h
  · exact cautious_powerup hs h
  · exact cautious_riskHole hs (openSafe_of_explore hexplore) h
  · exact cautious_go hs true _

end Clauses

theorem Retraces.singleton {p : List Cell} (hp : ∀ c ∈ p, c ∈ s.visited) :
    Retraces { s with curPath := [p] } := by
  intro q hq
  rw [List.mem_singleton.mp hq]
  exact hp

/-- A path that is tried leads to a visited cell, and so does what remains of it. -/
theorem Retraces.walkAlong {ps : List (List Cell)} (hs : Retraces s)
    (hps : ∀ p ∈ ps, ∀ c ∈ p, c ∈ s.visited) :
    match s.walkAlong ps with
    | .ok t => Retraces t ∧ t.cell ∈ s.visited
    | .error t => Retraces t := by
  induction ps generalizing s with
  | nil => exact hs
  | cons p ps ih =>
    obtain ⟨hp,hps⟩ := List.forall_mem_cons.mp hps
    rw [State.walkAlong]
    split_ifs with hhead
    · have htail : Retraces { s with curPath := [p.tail] } :=
        .singleton fun c hc => hp c (List.mem_of_mem_tail hc)
      cases hw : ({ s with curPath := [p.tail] } : State).agent_walkTo s.agent_willWalkTo with
      | none => exact ih htail hps
      | some t =>
        refine ⟨htail.walkTo hw,?_⟩
        rw [cell_walkTo hw]
        exact hp _ (List.mem_of_head? hhead)
    · exact ih hs hps

theorem cautious_walked (hs : Retraces s) :
    Cautious s (State.walked d (s.walkAlong s.curPath)) := by
  have h := hs.walkAlong hs
  obtain ⟨t,ht⟩ | ⟨q,hq,-⟩ := walkAlong_cases (s := s) s.curPath
  · rw [ht] at h ⊢
    exact .enters h.1 (.inl h.2)
  · rw [hq] at h ⊢
    exact .of_paths (cautious_chooseFree h)

theorem cautious_choose (hs : Retraces s) : Cautious s (s.choose d) := by
  generalize hch : s.choose d = ch
  rw [State.choose,Option.getD_eq_iff] at hch
  simp only [Option.orElse_eq_orElse,Option.orElse_eq_or,Option.or_eq_some_iff,
    State.getNextMove_exit,State.getNextMove_gameOver,State.getNextMove_pickGold,
    State.getNextMove_dropPath,State.getNextMove_turnToPath,Option.ite_none_right_eq_some] at hch
  obtain (⟨-,h⟩ | ⟨-,⟨-,h⟩ | ⟨-,⟨-,h⟩ | ⟨-,⟨-,h⟩ | ⟨-,-,h⟩⟩⟩⟩) | ⟨-,rfl⟩ := hch
  · cases h
    exact .stays hs rfl
  · cases h
    exact .stays hs rfl
  · cases h
    exact .stays hs rfl
  · cases h
    refine ⟨fun p hp => hs p (List.mem_of_mem_erase hp),?_,fun _ => ⟨_,s.exiting,rfl⟩⟩
    intro a t hact
    cases hact
  · cases h
    exact cautious_rotate hs
  · exact cautious_walked hs

theorem Retraces.getNextMove {n : ℕ} {a : Action} (hs : Retraces s)
    (h : s.getNextMove d n = some (a,t)) : Retraces t ∧ (t.cell = s.cell ∨ s.MayEnter t.cell) := by
  induction n generalizing s with
  | zero => cases h
  | succ n ih =>
    have hch := cautious_choose (d := d) hs
    by_cases hact : ∃ a t, s.choose d = .act a t
    · obtain ⟨a',u,hc⟩ := hact
      rw [hc] at hch
      rw [State.getNextMove,hc] at h
      obtain ⟨-,rfl⟩ := Prod.mk.inj (Option.some.inj h)
      exact ⟨hch.retraces,hch.acts _ _ rfl⟩
    · obtain ⟨q,b,hu⟩ := hch.calls fun a t hc => hact ⟨a,t,hc⟩
      have hcalls : s.Calls d (s.choose d).state := by
        cases hc : s.choose d with
        | act a t => exact (hact ⟨a,t,hc⟩).elim
        | retry u => exact .inl hc
        | follow u => exact .inr hc
      rw [getNextMove_of_calls hcalls] at h
      have hnext := ih hch.retraces h
      rw [hu] at hnext
      exact hnext

theorem retraces_resetGame {m : GameMap} (hm : m.resetGame = some s) : Retraces s := by
  obtain ⟨f,-,rfl⟩ := Option.map_eq_some_iff.mp hm
  intro p hp
  cases hp

theorem retraces_of_hostSteps {m : GameMap} {s₀ : State} (hm : m.resetGame = some s₀)
    (hr : Relation.ReflTransGen HostStep s₀ s) : Retraces s := by
  induction hr with
  | refl => exact retraces_resetGame hm
  | tail _ h ih =>
    obtain ⟨d,n,a,h⟩ | ⟨-,c,h⟩ := h
    · exact (ih.getNextMove h).1
    · exact ih.walkTo h

/-- On its own the agent walks into no cell but those that it may enter. -/
theorem mayEnter_of_getNextMove {m : GameMap} {s₀ : State} {n : ℕ} {a : Action}
    (hm : m.resetGame = some s₀) (hr : Relation.ReflTransGen HostStep s₀ s)
    (h : s.getNextMove d n = some (a,t)) : t.cell = s.cell ∨ s.MayEnter t.cell :=
  ((retraces_of_hostSteps hm hr).getNextMove h).2

theorem mayEnter_of_getNextMove_island : ∃ s₀ s t : State, ∃ a, island.resetGame = some s₀ ∧
    hostMoves [none,none] s₀ = some s ∧ s.getNextMove 20 4 = some (a,t) ∧
      (t.cell = s.cell ∨ s.MayEnter t.cell) := by
  obtain ⟨s₀,hm⟩ : ∃ s₀, island.resetGame = some s₀ := ⟨_,rfl⟩
  have hsome : ((hostMoves [none,none] s₀).bind fun s => s.getNextMove 20 4).isSome = true := by
    obtain rfl := Option.some.inj hm
    decide +kernel
  obtain ⟨⟨a,t⟩,hr⟩ := Option.isSome_iff_exists.mp hsome
  obtain ⟨s,hs,ht⟩ := Option.bind_eq_some_iff.mp hr
  exact ⟨s₀,s,t,a,hm,hs,ht,mayEnter_of_getNextMove hm (hostSteps_of_hostMoves hs) ht⟩

end Caution

end PucRio.Dungeon
