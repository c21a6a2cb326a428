import PucRio.Ludo.PawnConservation

/-! Whether a player always has something to click. `hasMove` and the registered moves agree number
by number; they are asked for different numbers when a six has become a seven, or when a save is
taken up in a phase that its dice do not fit. -/
namespace PucRio.Ludo

/-- The move is the player's and the rules allow it so many steps on. -/
def Action.Legal (b : Board) (c : PlayerColor) (diceValue : ℕ) : Action → Prop
  | .rollDice => False
  | .yardToTrack => canMoveFromYardToTrack (b.yards c) diceValue = true
  | .trackToTrack fromSquare toSquare _ => fromSquare ∈ ownSquares b c ∧
    canMoveInsideTrack b.track diceValue c fromSquare = true ∧
    toSquare = destinationPos diceValue fromSquare
  | .trackToLane lane fromSquare toLanePosition => lane = c ∧ fromSquare ∈ ownSquares b c ∧
    canMoveFromTrackToLane (b.lanes c) diceValue c fromSquare = true ∧
    toLanePosition = fromSquare+diceValue-getPositionOfLastSquareOfPlayer c
  | .trackToPocket pocket fromSquare => pocket = c ∧ fromSquare ∈ ownSquares b c ∧
    canMoveFromTrackToPocket diceValue c fromSquare = true
  | .laneToLane lane fromLanePosition toLanePosition => lane = c ∧
    fromLanePosition ∈ ownLaneSquares b c ∧
    canMoveInsideLane (b.lanes c) diceValue fromLanePosition = true ∧
    toLanePosition = fromLanePosition+diceValue
  | .laneToPocket lane fromLanePosition => lane = c ∧ fromLanePosition ∈ ownLaneSquares b c ∧
    canMoveFromLaneToPocket diceValue fromLanePosition = true

section Agreement
variable {b : Board} {c : PlayerColor} {d n : ℕ} {a : Action}

theorem hasMove_of_legal (h : a.Legal b c d) : hasMove b c d = true := by
  rw [hasMove_iff]
  cases a with
  | rollDice => exact h.elim
  | yardToTrack => exact .inl h
  | trackToTrack => exact .inr (.inl ⟨_,h.1,.inl h.2.1⟩)
  | trackToLane => exact .inr (.inl ⟨_,h.2.1,.inr (.inl h.2.2.1)⟩)
  | trackToPocket => exact .inr (.inl ⟨_,h.2.1,.inr (.inr h.2.2)⟩)
  | laneToLane => exact .inr (.inr ⟨_,h.2.1,.inr h.2.2.1⟩)
  | laneToPocket => exact .inr (.inr ⟨_,h.2.1,.inl h.2.2⟩)

theorem legal_of_mem_setTrackMoves (ha : a ∈ setTrackMoves b c d) : a.Legal b c d := by
  obtain ⟨position,hp,hmove⟩ := mem_setTrackMoves.mp ha
  rcases hmove with ⟨h,rfl⟩ | ⟨h,rfl⟩ | ⟨h,rfl⟩
  · exact ⟨hp,h,rfl⟩
  · exact ⟨rfl,hp,h,rfl⟩
  · exact ⟨rfl,hp,h⟩

theorem legal_of_mem_setLaneMoves (ha : a ∈ setLaneMoves b c d) : a.Legal b c d := by
  obtain ⟨position,hp,hmove⟩ := mem_setLaneMoves.mp ha
  rcases hmove with ⟨h,rfl⟩ | ⟨h,rfl⟩
  · exact ⟨rfl,hp,h⟩
  · exact ⟨rfl,hp,h,rfl⟩

/-- What the rules allow and `setPlayerMoves` asks for when it opens no barrier. -/
theorem exists_mem_of_hasMove (h : hasMove b c d = true) :
    canMoveFromYardToTrack (b.yards c) d = true ∨ (∃ a, a ∈ setTrackMoves b c d) ∨
      ∃ a, a ∈ setLaneMoves b c d := by
  rcases hasMove_iff.mp h with h | ⟨position,hp,h⟩ | ⟨position,hp,h⟩
  · exact .inl h
  · refine .inr (.inl ?_)
    rcases h with h | h | h
    · exact ⟨_,mem_setTrackMoves.mpr ⟨position,hp,.inl ⟨h,rfl⟩⟩⟩
    · exact ⟨_,mem_setTrackMoves.mpr ⟨position,hp,.inr (.inl ⟨h,rfl⟩)⟩⟩
    · exact ⟨_,mem_setTrackMoves.mpr ⟨position,hp,.inr (.inr ⟨h,rfl⟩)⟩⟩
  · refine .inr (.inr ?_)
    rcases h with h | h
    · exact ⟨_,mem_setLaneMoves.mpr ⟨position,hp,.inl ⟨h,rfl⟩⟩⟩
    · exact ⟨_,mem_setLaneMoves.mpr ⟨position,hp,.inr ⟨h,rfl⟩⟩⟩

/-- One of the opened barriers has a way for its pawn. -/
theorem exists_legal_setMovePawnFromBarrierMoves
    (h : canMovePawnFromBarrier b.track d c = true) :
    ∃ a ∈ setMovePawnFromBarrierMoves b c d, a.Legal b c d := by
  obtain ⟨position,hp,hmove⟩ := List.any_eq_true.mp h
  obtain ⟨hbarrier,hinside⟩ := (Bool.and_eq_true _ _).mp hmove
  have hown : position ∈ ownSquares b c := by
    have hcount := hbarrier
    simp only [currentPlayerHasBarrierAtTrack,Bool.and_eq_true,decide_eq_true_eq] at hcount
    have hpawn : c ∈ b.track position := List.count_pos_iff.mp (by omega)
    exact List.mem_filter.mpr ⟨hp,decide_eq_true hpawn⟩
  exact ⟨_,mem_setMovePawnFromBarrierMoves.mpr ⟨position,hown,hbarrier,rfl⟩,hown,hinside,rfl⟩

/-- The moves are registered for the number that the dice stand for. -/
theorem exists_legal_setPlayerMoves (h : hasMove b c (sixBecomesSeven b c d n) = true) :
    ∃ a ∈ setPlayerMoves b c d n, a.Legal b c (sixBecomesSeven b c d n) := by
  unfold setPlayerMoves
  dsimp only
  split_ifs with hbarrier hyard
  · exact exists_legal_setMovePawnFromBarrierMoves hbarrier.2.2
  · exact ⟨_,List.mem_append_left _ (List.mem_append_left _ (List.mem_singleton_self _)),hyard⟩
  · rcases exists_mem_of_hasMove h with h | ⟨a,ha⟩ | ⟨a,ha⟩
    · exact (hyard h).elim
    · exact ⟨a,List.mem_append_left _ (List.mem_append_right _ ha),legal_of_mem_setTrackMoves ha⟩
    · exact ⟨a,List.mem_append_right _ ha,legal_of_mem_setLaneMoves ha⟩

theorem hasMove_of_mem_setPlayerMoves (ha : a ∈ setPlayerMoves b c d n) :
    hasMove b c (sixBecomesSeven b c d n) = true := by
  unfold setPlayerMoves at ha
  dsimp only at ha
  split_ifs at ha with hbarrier hyard
  · obtain ⟨a',-,h⟩ := exists_legal_setMovePawnFromBarrierMoves hbarrier.2.2
    exact hasMove_of_legal h
  · exact hasMove_iff.mpr (.inl hyard)
  · rcases List.mem_append.mp ha with ha | ha
    · exact hasMove_of_legal (legal_of_mem_setTrackMoves ha)
    · exact hasMove_of_legal (legal_of_mem_setLaneMoves ha)

theorem setPlayerMoves_ne_nil_iff :
    setPlayerMoves b c d n ≠ [] ↔ hasMove b c (sixBecomesSeven b c d n) = true := by
  constructor
  · intro h
    obtain ⟨a,ha⟩ := List.exists_mem_of_ne_nil _ h
    exact hasMove_of_mem_setPlayerMoves ha
  · intro h
    obtain ⟨a,ha,-⟩ := exists_legal_setPlayerMoves h
    exact List.ne_nil_of_mem ha

/-- No yard and no lane has a move of so many steps. -/
theorem exists_legal_setTrackMoves (hd : 6 ≤ d) (h : hasMove b c d = true) :
    ∃ a ∈ setTrackMoves b c d, a.Legal b c d := by
  rcases exists_mem_of_hasMove h with h | ⟨a,ha⟩ | ⟨a,ha⟩
  · simp only [canMoveFromYardToTrack,Bool.and_eq_true,beq_iff_eq] at h
    omega
  · exact ⟨a,ha,legal_of_mem_setTrackMoves ha⟩
  · obtain ⟨position,hp,hmove⟩ := mem_setLaneMoves.mp ha
    have hpos := Finset.mem_Icc.mp (mem_ownLaneSquares.mp hp).1
    simp only [canMoveFromLaneToPocket,canMoveInsideLane,Bool.and_eq_true,beq_iff_eq,
      decide_eq_true_eq] at hmove
    omega

theorem setTrackMoves_ne_nil_iff (hd : 6 ≤ d) : setTrackMoves b c d ≠ [] ↔ hasMove b c d = true := by
  constructor
  · intro h
    obtain ⟨a,ha⟩ := List.exists_mem_of_ne_nil _ h
    exact hasMove_of_legal (legal_of_mem_setTrackMoves ha)
  · intro h
    obtain ⟨a,ha,-⟩ := exists_legal_setTrackMoves hd h
    exact List.ne_nil_of_mem ha

end Agreement

namespace Game

/-- The number of steps that the awaited move takes. -/
def steps (g : Game) : ℕ :=
  match g.board.currentAction with
  | .SELECTPAWNBONUS10 => 10
  | .SELECTPAWNBONUS20 => 20
  | _ => sixBecomesSeven g.board g.board.currentPlayer g.curValue g.consecutive6

def NotStuck (g : Game) : Prop :=
  g.board.currentAction ≠ .GAMEENDED →
    .rollDice ∈ g.actions ∨ ∃ a ∈ g.actions, a.Legal g.board g.board.currentPlayer g.steps

/-- A saved board has a move of the number that its phase asks for. -/
def savedMove (b : Board) (value count : ℕ) : Bool :=
  match b.currentAction with
  | .SELECTPAWN => !hasMove b b.currentPlayer value ||
    hasMove b b.currentPlayer (sixBecomesSeven b b.currentPlayer value count)
  | .SELECTPAWNBONUS10 => hasMove b b.currentPlayer 10
  | .SELECTPAWNBONUS20 => hasMove b b.currentPlayer 20
  | _ => true

/-- A player who can move a six can move the seven that it becomes, and a save can be taken up. -/
def LeavesMove (g : Game) : Event → Prop
  | .click i roll => g.actions[i]? = some .rollDice → roll = 6 →
    g.board.yards g.board.currentPlayer = 0 → g.consecutive6 < 2 → g.canMove 6 = true →
      g.canMove 7 = true
  | .load file => ∀ saved ∈ loadFromFile file, savedMove saved.1 saved.2.1 saved.2.2 = true
  | _ => True

instance (g : Game) : ∀ e, Decidable (g.LeavesMove e)
  | .click i roll => inferInstanceAs (Decidable (g.actions[i]? = some .rollDice → roll = 6 →
    g.board.yards g.board.currentPlayer = 0 → g.consecutive6 < 2 → g.canMove 6 = true →
      g.canMove 7 = true))
  | .newGame => inferInstanceAs (Decidable True)
  | .save => inferInstanceAs (Decidable True)
  | .load file => inferInstanceAs (Decidable (∀ saved ∈ loadFromFile file,
    savedMove saved.1 saved.2.1 saved.2.2 = true))

/-- Every click can be carried out, and there is one. -/
structure Live (g : Game) : Prop where
  registered : ∀ a ∈ g.actions, a = .rollDice ∨ a.Backed g.board
  notStuck : g.NotStuck

section Listeners
variable {g : Game}

theorem live_of_rollDice (h : g.actions = [.rollDice]) : g.Live where
  registered _ ha := .inl (List.mem_singleton.mp (h ▸ ha))
  notStuck _ := .inl (h ▸ List.mem_singleton_self _)

theorem live_of_gameEnded (h : g.actions = []) (hend : g.board.currentAction = .GAMEENDED) :
    g.Live where
  registered _ ha := by
    rw [h] at ha
    cases ha
  notStuck hne := (hne hend).elim

theorem live_register {actions : List Action} (ha : g.actions = [])
    (hbacked : ∀ a ∈ actions, a.Backed g.board)
    (hlegal : ∃ a ∈ actions, a.Legal g.board g.board.currentPlayer g.steps) :
    (g.register actions).Live := by
  have hactions : (g.register actions).actions = actions := by
    simp only [register,ha,List.nil_append]
  constructor
  · intro a hmem
    rw [hactions] at hmem
    exact .inr (hbacked a hmem)
  · intro _
    rw [hactions]
    exact .inr hlegal

theorem setPlayerDice_actions (h : g.actions = []) : g.setPlayerDice.actions = [.rollDice] := by
  simp only [setPlayerDice,register,h,List.nil_append]

theorem live_endTurn (h : g.actions = []) : g.endTurn.Live := by
  unfold endTurn
  split_ifs
  · exact live_of_rollDice (setPlayerDice_actions (g := Game.nextPlayer _) h)
  · exact live_of_rollDice (setPlayerDice_actions h)

theorem live_registerMoves (h : g.actions = []) (hphase : g.board.currentAction = .SELECTPAWN)
    (hmove : g.canMove (sixBecomesSeven g.board g.board.currentPlayer g.curValue g.consecutive6) =
      true) : (g.registerMoves g.curValue).Live := by
  refine live_register h (fun _ => backed_of_mem_setPlayerMoves) ?_
  have hsteps : g.steps =
      sixBecomesSeven g.board g.board.currentPlayer g.curValue g.consecutive6 := by
    simp only [steps,hphase]
  rw [hsteps]
  exact exists_legal_setPlayerMoves hmove

theorem live_registerBonus {d : ℕ} (h : g.actions = []) (hsteps : g.steps = d) (hd : 6 ≤ d)
    (hmove : g.canMove d = true) : (g.registerBonus d).Live := by
  refine live_register h (fun _ => backed_of_mem_setTrackMoves) ?_
  rw [hsteps]
  exact exists_legal_setTrackMoves hd hmove

theorem live_onActionExecuted (h : g.actions = []) {a : Action} (ha : a ≠ .rollDice)
    (capturedPawn : Bool) : (g.onActionExecuted capturedPawn a).Live := by
  rcases g.onActionExecuted_cases a ha capturedPawn with heq | heq | ⟨hmove,heq⟩ | ⟨hmove,heq⟩
  · rw [heq]
    exact live_endTurn h
  · rw [heq]
    exact live_of_gameEnded h rfl
  · rw [heq]
    exact live_registerBonus (g := g.setCurrentAction _) h rfl (by omega) hmove
  · rw [heq]
    exact live_registerBonus (g := g.setCurrentAction _) h rfl (by omega) hmove

theorem sixBecomesSeven_eq {b : Board} {c : PlayerColor} {d n : ℕ} :
    sixBecomesSeven b c d n = d ∨
      d = 6 ∧ b.yards c = 0 ∧ n < 3 ∧ sixBecomesSeven b c d n = 7 := by
  unfold sixBecomesSeven
  split_ifs with h
  · exact .inr ⟨h.1,h.2.1,h.2.2,rfl⟩
  · exact .inl rfl

theorem live_diceActionListener (h : g.actions = [])
    (hseven : g.curValue = 6 → g.board.yards g.board.currentPlayer = 0 → g.consecutive6 < 3 →
      g.canMove 6 = true → g.canMove 7 = true) : g.diceActionListener.Live := by
  rcases g.diceActionListener_cases with ⟨-,-,-,heq⟩ | ⟨-,hmove,heq⟩ | ⟨-,heq | ⟨-,heq⟩⟩
  · rw [heq]
    exact live_of_rollDice (setPlayerDice_actions (g := Game.nextPlayer _)
      (g.removeLastMovedPawn_actions.trans h))
  · rw [heq]
    refine live_registerMoves (g := g.setCurrentAction .SELECTPAWN) h rfl ?_
    rcases sixBecomesSeven_eq (b := g.board) (c := g.board.currentPlayer) (d := g.curValue)
      (n := g.consecutive6) with hsame | ⟨h6,hyard,hn,hchanged⟩
    · exact (congrArg g.canMove hsame).trans hmove
    · exact (congrArg g.canMove hchanged).trans (hseven h6 hyard hn (h6 ▸ hmove))
  · rw [heq]
    exact live_of_rollDice (setPlayerDice_actions (g := Game.nextPlayer _) h)
  · rw [heq]
    exact live_of_rollDice (setPlayerDice_actions h)

theorem Live.executeAction {roll : ℕ} {a : Action} (h : g.Live) (ha : a ∈ g.actions)
    (hseven : a = .rollDice → roll = 6 → g.board.yards g.board.currentPlayer = 0 →
      g.consecutive6 < 2 → g.canMove 6 = true → g.canMove 7 = true) :
    (g.executeAction a roll).Live := by
  rcases h.registered a ha with rfl | hbacked
  · refine live_diceActionListener (g := (({ g with actions := [] } : Game).execute roll
      .rollDice).1) rfl fun h6 hyard hn => ?_
    have h6 : roll = 6 := h6
    have hn : (if roll = 6 then g.consecutive6+1 else g.consecutive6) < 3 := hn
    rw [if_pos h6] at hn
    exact hseven rfl h6 hyard (by omega)
  · have hne : a ≠ .rollDice := by
      rintro rfl
      exact hbacked
    obtain ⟨t,captured,ht,hmoved⟩ := execute_move (g := { g with actions := [] }) roll hbacked
    unfold Game.executeAction
    rw [ht]
    exact live_onActionExecuted hmoved.actions hne captured

theorem live_loadMap {saved : Board} {value count : ℕ} (h : savedMove saved value count = true) :
    (g.loadMap saved value count).Live := by
  unfold loadMap
  dsimp only
  split
  · exact live_of_gameEnded rfl rfl
  · exact live_of_rollDice rfl
  · rename_i hphase
    split_ifs with hmove
    · refine live_registerMoves rfl hphase ?_
      simp only [savedMove,hphase,Bool.or_eq_true,Bool.not_eq_true'] at h
      exact h.resolve_left (Bool.not_eq_false _ ▸ hmove)
    · exact live_of_rollDice rfl
  · rename_i hphase
    simp only [savedMove,hphase] at h
    exact live_registerBonus rfl (by simp only [steps,hphase]) (by omega) h
  · rename_i hphase
    simp only [savedMove,hphase] at h
    exact live_registerBonus rfl (by simp only [steps,hphase]) (by omega) h

/-- The step lemma. -/
theorem Live.step {t : Game} {e : Event} (h : g.Live) (hg : g.LeavesMove e)
    (ht : g.step e = some t) : t.Live := by
  cases e with
  | click i roll =>
    simp only [Game.step] at ht
    split_ifs at ht
    obtain ⟨a,ha,rfl⟩ := Option.map_eq_some_iff.mp ht
    exact h.executeAction (List.mem_of_getElem? ha) fun hroll => hg (hroll ▸ ha)
  | newGame =>
    obtain rfl := Option.some.inj ht
    exact live_of_rollDice rfl
  | save =>
    obtain rfl := Option.some.inj ht
    exact h
  | load file =>
    obtain ⟨saved,hsaved,rfl⟩ := Option.map_eq_some_iff.mp ht
    exact live_loadMap (hg saved hsaved)

theorem not_notStuck_of_nil (h : g.actions = []) (hphase : g.board.currentAction ≠ .GAMEENDED) :
    ¬g.NotStuck := by
  intro hlive
  rcases hlive hphase with hroll | ⟨a,ha,-⟩
  · rw [h] at hroll
    cases hroll
  · rw [h] at ha
    cases ha

theorem registerMoves_nil (h : g.actions = [])
    (hmove : ¬g.canMove (sixBecomesSeven g.board g.board.currentPlayer g.curValue g.consecutive6) =
      true) : (g.registerMoves g.curValue).actions = [] := by
  simp only [registerMoves,register,h,List.nil_append]
  exact Classical.not_not.mp fun hne => hmove (setPlayerMoves_ne_nil_iff.mp hne)

theorem registerBonus_nil {d : ℕ} (h : g.actions = []) (hd : 6 ≤ d) (hmove : ¬g.canMove d = true) :
    (g.registerBonus d).actions = [] := by
  simp only [registerBonus,register,h,List.nil_append]
  exact Classical.not_not.mp fun hne => hmove ((setTrackMoves_ne_nil_iff hd).mp hne)

/-- The seven that a six becomes has no move. -/
theorem not_notStuck_diceActionListener (h : g.actions = []) (h6 : g.curValue = 6)
    (hyard : g.board.yards g.board.currentPlayer = 0) (hn : g.consecutive6 < 3)
    (hmove6 : g.canMove 6 = true) (hmove7 : ¬g.canMove 7 = true) :
    ¬g.diceActionListener.NotStuck := by
  rcases g.diceActionListener_cases with ⟨-,h3,-⟩ | ⟨-,-,heq⟩ | ⟨hnone,-⟩
  · omega
  · have hseven : sixBecomesSeven g.board g.board.currentPlayer g.curValue g.consecutive6 = 7 :=
      if_pos ⟨h6,hyard,hn⟩
    rw [heq]
    refine not_notStuck_of_nil (registerMoves_nil (g := g.setCurrentAction .SELECTPAWN) h ?_) nofun
    exact fun hmove => hmove7 ((congrArg g.canMove hseven).symm.trans hmove)
  · exact (hnone (h6 ▸ hmove6)).elim

theorem not_notStuck_loadMap {saved : Board} {value count : ℕ}
    (h : ¬savedMove saved value count = true) : ¬(g.loadMap saved value count).NotStuck := by
  unfold loadMap
  dsimp only
  split
  · rename_i hphase
    exact (h (by simp only [savedMove,hphase])).elim
  · rename_i hphase
    exact (h (by simp only [savedMove,hphase])).elim
  · rename_i hphase
    simp only [savedMove,hphase,Bool.or_eq_true,not_or,Bool.not_eq_true'] at h
    split_ifs with hmove
    · refine not_notStuck_of_nil (registerMoves_nil rfl h.2) ?_
      exact fun hend => absurd (hphase.symm.trans hend) (by decide)
    · exact (h.1 (Bool.eq_false_of_not_eq_true hmove)).elim
  · rename_i hphase
    simp only [savedMove,hphase] at h
    refine not_notStuck_of_nil (registerBonus_nil rfl (by omega) h) ?_
    exact fun hend => absurd (hphase.symm.trans hend) (by decide)
  · rename_i hphase
    simp only [savedMove,hphase] at h
    refine not_notStuck_of_nil (registerBonus_nil rfl (by omega) h) ?_
    exact fun hend => absurd (hphase.symm.trans hend) (by decide)

/-- A step that breaks the guard leaves nothing to click. -/
theorem not_notStuck_of_not_leavesMove {t : Game} {e : Event} (h : ¬g.LeavesMove e)
    (ht : g.step e = some t) : ¬t.NotStuck := by
  cases e with
  | click i roll =>
    simp only [LeavesMove,Classical.not_imp] at h
    obtain ⟨hroll,h6,hyard,hn,hmove6,hmove7⟩ := h
    subst h6
    simp only [Game.step] at ht
    rw [if_pos (by decide),hroll] at ht
    obtain rfl := Option.some.inj ht
    exact not_notStuck_diceActionListener (g := (({ g with actions := [] } : Game).execute 6
      .rollDice).1) rfl rfl hyard (show g.consecutive6+1 < 3 by omega) hmove6 hmove7
  | newGame => exact (h trivial).elim
  | save => exact (h trivial).elim
  | load file =>
    simp only [LeavesMove,not_forall] at h
    obtain ⟨⟨saved,value,count⟩,hsaved,hbad⟩ := h
    obtain rfl : g.loadMap saved value count = t := by
      simpa only [Game.step,Option.mem_def.mp hsaved,Option.map_some,Option.some.injEq] using ht
    exact not_notStuck_loadMap hbad

end Listeners
end Game

theorem live_of_reachableUnder {g : Game} (h : ludo.ReachableUnder Game.LeavesMove g) : g.Live :=
  h.invariant (Game.live_of_rollDice rfl) fun _ _ _ hs hg ht => hs.step hg ht

/-- Nothing is ever stuck while the guard is met, the first step that breaks it is stuck, and the
moves that are registered for a roll are there if and only if the number has one. -/
theorem notStuck_of_reachableUnder {g : Game} (h : ludo.ReachableUnder Game.LeavesMove g) :
    g.NotStuck ∧ (∀ e t, g.step e = some t → (t.NotStuck ↔ g.LeavesMove e)) ∧
      ∀ b c d n, setPlayerMoves b c d n ≠ [] ↔ hasMove b c (sixBecomesSeven b c d n) = true := by
  have hlive := live_of_reachableUnder h
  refine ⟨hlive.notStuck,fun e t ht => ⟨fun hn => ?_,fun hg => (hlive.step hg ht).notStuck⟩,
    fun _ _ _ _ => setPlayerMoves_ne_nil_iff⟩
  exact Classical.not_not.mp fun hg => Game.not_notStuck_of_not_leavesMove hg ht hn

/-- One round of the other players with nothing to move. -/
def noMoves : List Event := [.click 0 1,.click 0 1]

/-- Green brings a pawn out with a five. -/
def greenOut : List Event := [.click 0 5,.click 0 1]++noMoves

/-- Four rounds in which green brings its pawns out and red builds a barrier seven squares on. -/
def fourRounds : List Event :=
  greenOut++[.click 0 5,.click 0 1]++
  greenOut++[.click 0 6,.click 0 1,.click 0 6,.click 0 1,.click 0 5,.click 0 1]++
  greenOut++[.click 0 6,.click 0 1,.click 0 6,.click 1 1,.click 0 2,.click 1 1]++
  greenOut++[.click 0 6,.click 0 1,.click 0 6,.click 0 1,.click 0 2,.click 0 1]

theorem notStuck_of_reachableUnder_fourRounds : ∃ g, ludo.ReachableUnder Game.LeavesMove g ∧
    g.board.track 9 = [.GREEN,.GREEN,.GREEN,.GREEN] ∧ g.board.track 16 = [.RED,.RED] ∧
    g.NotStuck := by
  obtain ⟨g,hg,hp⟩ := TransitionSystem.exists_reachableUnder_of_execUnder (T := ludo)
    (G := Game.LeavesMove) (l := fourRounds)
    (p := fun g => g.board.track 9 = [.GREEN,.GREEN,.GREEN,.GREEN] ∧
      g.board.track 16 = [.RED,.RED]) (by decide +kernel)
  rw [decide_eq_true_eq] at hp
  exact ⟨g,hg,hp.1,hp.2,(notStuck_of_reachableUnder hg).1⟩

/-- Green rolls a six: `hasMove` says yes for it, and for the seven nothing is registered. -/
theorem stuck_after_fourRounds : ∃ g, ludo.Reachable g ∧ g.curValue = 6 ∧ g.canMove 6 = true ∧
    ¬g.NotStuck := by
  obtain ⟨g,hg,hp⟩ := TransitionSystem.exists_reachable_of_exec (T := ludo)
    (l := fourRounds++[.click 0 6])
    (p := fun g => g.curValue = 6 ∧ g.canMove 6 = true ∧ g.actions = [] ∧
      g.board.currentAction = .SELECTPAWN) (by decide +kernel)
  rw [decide_eq_true_eq] at hp
  obtain ⟨h6,hmove,hnil,hphase⟩ := hp
  refine ⟨g,hg,h6,hmove,Game.not_notStuck_of_nil hnil ?_⟩
  exact fun hend => absurd (hphase.symm.trans hend) (by decide)

end PucRio.Ludo
