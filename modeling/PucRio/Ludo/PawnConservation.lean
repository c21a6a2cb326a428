import PucRio.Ludo.GameSave

/-! Every colour keeps its four pawns. A registered action moves a pawn that is where the action takes
it from; only the penalty for three sixes takes up a pawn that may be gone. -/
namespace PucRio.Ludo

instance {p : PlayerColor → Prop} [DecidablePred p] : Decidable (∀ c, p c) :=
  decidable_of_iff (p .RED ∧ p .GREEN ∧ p .YELLOW ∧ p .BLUE)
    ⟨fun h c => by cases c <;> simp only [h],fun h => ⟨h _,h _,h _,h _⟩⟩

def Conserved (b : Board) : Prop := ∀ c, b.pawns c = 4

instance (b : Board) : Decidable (Conserved b) := inferInstanceAs (Decidable (∀ c, b.pawns c = 4))

theorem conserved_new : Conserved .new := by decide +kernel

/-- The move of a pawn that is there, and whose squares are on the board. -/
def Action.Backed (b : Board) : Action → Prop
  | .rollDice => False
  | .yardToTrack => True
  | .trackToTrack fromSquare toSquare _ => fromSquare ∈ Finset.Icc 1 52 ∧
    toSquare ∈ Finset.Icc 1 52 ∧ b.currentPlayer ∈ b.track fromSquare
  | .trackToLane lane fromSquare toLanePosition => fromSquare ∈ Finset.Icc 1 52 ∧
    toLanePosition ∈ Finset.Icc 1 5 ∧ lane ∈ b.track fromSquare
  | .trackToPocket pocket fromSquare => fromSquare ∈ Finset.Icc 1 52 ∧ pocket ∈ b.track fromSquare
  | .laneToLane lane fromLanePosition toLanePosition => fromLanePosition ∈ Finset.Icc 1 5 ∧
    toLanePosition ∈ Finset.Icc 1 5 ∧ 0 < b.lanes lane fromLanePosition
  | .laneToPocket lane fromLanePosition => fromLanePosition ∈ Finset.Icc 1 5 ∧
    0 < b.lanes lane fromLanePosition

section Registered
variable {b : Board} {c : PlayerColor} {d n position : ℕ} {a : Action}

theorem destinationPos_pos (hp : position ∈ Finset.Icc 1 52) : 1 ≤ destinationPos d position := by
  have := Finset.mem_Icc.mp hp
  unfold destinationPos
  split_ifs <;> omega

theorem destinationPos_le (h : canMoveInsideTrack b.track d c position = true) :
    destinationPos d position ≤ 52 := by
  simp only [canMoveInsideTrack,Bool.and_eq_true,decide_eq_true_eq] at h
  exact h.1.2

/-- A pawn that turns into its lane lands on one of the five squares. -/
theorem lanePosition_mem (h : canMoveFromTrackToLane (b.lanes c) d c position = true) :
    position+d-getPositionOfLastSquareOfPlayer c ∈ Finset.Icc 1 5 := by
  unfold canMoveFromTrackToLane at h
  dsimp only at h
  split at h
  · cases h
  · rename_i j hj
    have hlast := List.find?_some hj
    have hlt := List.mem_of_find?_eq_some hj
    rw [List.mem_range] at hlt
    rw [beq_iff_eq] at hlast
    split_ifs at h with h0
    simp only [Bool.and_eq_true,decide_eq_true_eq] at h
    exact Finset.mem_Icc.mpr ⟨by omega,h.1⟩

theorem backed_of_mem_setTrackMoves (ha : a ∈ setTrackMoves b b.currentPlayer d) : a.Backed b := by
  obtain ⟨position,hp,hmove⟩ := mem_setTrackMoves.mp ha
  obtain ⟨hpos,hc⟩ := mem_ownSquares.mp hp
  rcases hmove with ⟨h,rfl⟩ | ⟨h,rfl⟩ | ⟨-,rfl⟩
  · exact ⟨hpos,Finset.mem_Icc.mpr ⟨destinationPos_pos hpos,destinationPos_le h⟩,hc⟩
  · exact ⟨hpos,lanePosition_mem h,hc⟩
  · exact ⟨hpos,hc⟩

theorem backed_of_mem_setLaneMoves (ha : a ∈ setLaneMoves b c d) : a.Backed b := by
  obtain ⟨position,hp,hmove⟩ := mem_setLaneMoves.mp ha
  obtain ⟨hpos,hc⟩ := mem_ownLaneSquares.mp hp
  rcases hmove with ⟨-,rfl⟩ | ⟨h,rfl⟩
  · exact ⟨hpos,hc⟩
  · simp only [canMoveInsideLane,Bool.and_eq_true,decide_eq_true_eq] at h
    have := Finset.mem_Icc.mp hpos
    exact ⟨hpos,Finset.mem_Icc.mpr (by omega),hc⟩

/-- A barrier is opened by six or seven steps, which stay on the track. -/
theorem backed_of_mem_setMovePawnFromBarrierMoves (hd : d = 6 ∨ d = 7)
    (ha : a ∈ setMovePawnFromBarrierMoves b b.currentPlayer d) : a.Backed b := by
  obtain ⟨position,hp,-,rfl⟩ := mem_setMovePawnFromBarrierMoves.mp ha
  obtain ⟨hpos,hc⟩ := mem_ownSquares.mp hp
  have := Finset.mem_Icc.mp hpos
  refine ⟨hpos,Finset.mem_Icc.mpr ⟨destinationPos_pos hpos,?_⟩,hc⟩
  unfold destinationPos
  split_ifs <;> omega

theorem backed_of_mem_setPlayerMoves (ha : a ∈ setPlayerMoves b b.currentPlayer d n) :
    a.Backed b := by
  unfold setPlayerMoves at ha
  dsimp only at ha
  split_ifs at ha with hbarrier hyard
  · exact backed_of_mem_setMovePawnFromBarrierMoves hbarrier.1 ha
  · rcases List.mem_append.mp ha with ha | ha
    · rcases List.mem_append.mp ha with ha | ha
      · rw [List.mem_singleton.mp ha]
        trivial
      · exact backed_of_mem_setTrackMoves ha
    · exact backed_of_mem_setLaneMoves ha
  · rcases List.mem_append.mp ha with ha | ha
    · exact backed_of_mem_setTrackMoves ha
    · exact backed_of_mem_setLaneMoves ha

end Registered

section Squares
variable {b : Board} {c d : PlayerColor} {p q : ℕ}

theorem mem_track_addToTrack (h : d ∈ b.track p) : d ∈ (b.addToTrack q c).track p := by
  by_cases hpq : p = q
  · subst hpq
    simp only [Board.addToTrack,Function.update_self]
    exact List.mem_append_left _ h
  · simpa only [Board.addToTrack,Function.update_of_ne hpq] using h

theorem mem_track_removeFromTrack (h : d ∈ b.track p) (hd : d ≠ c) :
    d ∈ (b.removeFromTrack q c).track p := by
  by_cases hpq : p = q
  · subst hpq
    simp only [Board.removeFromTrack,Function.update_self]
    exact (List.mem_erase_of_ne hd).mpr h
  · simpa only [Board.removeFromTrack,Function.update_of_ne hpq] using h

/-- A pawn that has gone from one square to another stands on the other, also if they are one
square. -/
theorem mem_track_of_moved (h : c ∈ b.track q) :
    c ∈ ((b.addToTrack p c).removeFromTrack q c).track p := by
  by_cases hpq : p = q
  · subst hpq
    simp only [Board.addToTrack,Board.removeFromTrack,Function.update_self]
    rw [List.erase_append_left _ h]
    exact List.mem_append_right _ (List.mem_singleton_self c)
  · simp only [Board.removeFromTrack,Function.update_of_ne hpq,Board.addToTrack,
      Function.update_self]
    exact List.mem_append_right _ (List.mem_singleton_self c)

end Squares

section Execute
variable {g : Game} {a : Action} (roll : ℕ)

/-- What the move of a pawn leaves: all pawns are there, and the last moved one stands where it has
been noted, if that is on the track. -/
structure Moved (g t : Game) : Prop where
  pawns : ∀ c, t.board.pawns c = g.board.pawns c
  actions : t.actions = g.actions
  position : t.lastMovedPawnDestinationType = some .TRACKSQUARE →
    t.lastMovedPawnPosition ∈ Finset.Icc 1 52
  there : t.lastMovedPawnDestinationType = some .TRACKSQUARE →
    t.board.currentPlayer ∈ t.board.track t.lastMovedPawnPosition

theorem Moved.offTrack {t : Game} (hpawns : ∀ c, t.board.pawns c = g.board.pawns c)
    (hactions : t.actions = g.actions)
    (h : t.lastMovedPawnDestinationType ≠ some .TRACKSQUARE) : Moved g t :=
  ⟨hpawns,hactions,fun ht => (h ht).elim,fun ht => (h ht).elim⟩

theorem getInitialSquarePosition_mem (c : PlayerColor) :
    getInitialSquarePosition c ∈ Finset.Icc 1 52 := by
  cases c <;> decide

/-- A captured pawn stands where the other goes, and is of another colour. -/
theorem opponent_mem {l : List PlayerColor} {c o : PlayerColor} {shouldRemoveOpponent : Bool}
    (h : ((l.head?.filter (· != c)).filter fun _ => shouldRemoveOpponent) = some o) :
    o ∈ l ∧ c ≠ o := by
  obtain ⟨ho,-⟩ := Option.filter_eq_some_iff.mp h
  obtain ⟨hhead,hne⟩ := Option.filter_eq_some_iff.mp ho
  exact ⟨List.mem_of_mem_head? hhead,fun hc => by simp [hc] at hne⟩

/-- Capturing takes no pawn off the board, and none of the player's from its square. -/
theorem pawns_capture {b : Board} {o : PlayerColor} {p : ℕ} (hp : p ∈ Finset.Icc 1 52)
    (ho : o ∈ b.track p) (d : PlayerColor) :
    ((b.addToYard o).removeFromTrack p o).pawns d = b.pawns d := by
  rw [Board.pawns_removeFromTrack (b.addToYard o) o d hp ho,Board.pawns_addToYard]
  omega

theorem pawns_move {b : Board} {c : PlayerColor} {p q : ℕ} (hp : p ∈ Finset.Icc 1 52)
    (hq : q ∈ Finset.Icc 1 52) (hc : c ∈ b.track q) (d : PlayerColor) :
    ((b.addToTrack p c).removeFromTrack q c).pawns d = b.pawns d := by
  rw [Board.pawns_removeFromTrack _ _ _ hq (mem_track_addToTrack hc),
    Board.pawns_addToTrack _ _ _ hp]
  omega

theorem execute_trackToTrack {p q : ℕ} {shouldRemoveOpponent : Bool}
    (h : (Action.trackToTrack q p shouldRemoveOpponent).Backed g.board) :
    ∃ t captured, g.execute roll (.trackToTrack q p shouldRemoveOpponent) = (t,some captured) ∧
      Moved g t := by
  obtain ⟨hq,hp,hc⟩ := h
  unfold Game.execute
  dsimp only
  generalize ho : ((g.board.track p).head?.filter (· != g.board.currentPlayer)).filter
    (fun _ => shouldRemoveOpponent) = opponent
  cases opponent with
  | none =>
    dsimp only
    rw [if_pos (mem_track_addToTrack hc)]
    exact ⟨_,_,rfl,pawns_move hp hq hc,rfl,fun _ => hp,fun _ => mem_track_of_moved hc⟩
  | some o =>
    obtain ⟨hmem,hne⟩ := opponent_mem ho
    have hthere := mem_track_removeFromTrack (b := g.board.addToYard o) (q := p) hc hne
    dsimp only
    rw [if_pos (mem_track_addToTrack hthere)]
    refine ⟨_,_,rfl,fun d => ?_,rfl,fun _ => hp,fun _ => mem_track_of_moved hthere⟩
    exact (pawns_move hp hq hthere d).trans (pawns_capture hp hmem d)

/-- A pawn that is there can be moved: nothing is thrown. -/
theorem execute_move (h : a.Backed g.board) :
    ∃ t captured, g.execute roll a = (t,some captured) ∧ Moved g t := by
  cases a with
  | rollDice => exact h.elim
  | yardToTrack =>
    have hp := getInitialSquarePosition_mem g.board.currentPlayer
    refine ⟨_,_,rfl,fun d => ?_,rfl,fun _ => hp,fun _ => ?_⟩
    · show (Board.addToTrack _ _ _).pawns d = _
      rw [Board.pawns_addToTrack _ _ _ hp,Board.pawns_removeFromYard]
      omega
    · simp [Board.addToTrack,Board.removeFromYard]
  | trackToTrack q p shouldRemoveOpponent => exact execute_trackToTrack roll h
  | trackToLane c q k =>
    obtain ⟨hq,hk,hc⟩ := h
    refine ⟨_,_,if_pos hc,.offTrack (fun d => ?_) rfl (by simp)⟩
    show (Board.addToLane _ _ _).pawns d = _
    rw [Board.pawns_addToLane _ _ _ hk,Board.pawns_removeFromTrack _ _ _ hq hc]
    omega
  | trackToPocket c q =>
    obtain ⟨hq,hc⟩ := h
    refine ⟨_,_,if_pos hc,.offTrack (fun d => ?_) rfl (by simp)⟩
    show (Board.addToPocket _ _).pawns d = _
    rw [Board.pawns_addToPocket,Board.pawns_removeFromTrack _ _ _ hq hc]
    omega
  | laneToLane c j k =>
    obtain ⟨hj,hk,hpos⟩ := h
    refine ⟨_,_,if_pos hpos,.offTrack (fun d => ?_) rfl (by simp)⟩
    show (Board.addToLane _ _ _).pawns d = _
    rw [Board.pawns_addToLane _ _ _ hk,Board.pawns_removeFromLane _ _ _ hj hpos]
    omega
  | laneToPocket c j =>
    obtain ⟨hj,hpos⟩ := h
    refine ⟨_,_,if_pos hpos,.offTrack (fun d => ?_) rfl (by simp)⟩
    show (Board.addToPocket _ _).pawns d = _
    rw [Board.pawns_addToPocket,Board.pawns_removeFromLane _ _ _ hj hpos]
    omega

end Execute

namespace Game

/-- A player who can move a third six has the pawn moved last where it has been noted. -/
def Streak (g : Game) : Prop :=
  g.consecutive6 = 2 → g.canMove 6 = true →
    g.lastMovedPawnDestinationType = some .TRACKSQUARE →
      g.board.currentPlayer ∈ g.board.track g.lastMovedPawnPosition

instance (g : Game) : Decidable g.Streak :=
  inferInstanceAs (Decidable (g.consecutive6 = 2 → g.canMove 6 = true →
    g.lastMovedPawnDestinationType = some .TRACKSQUARE →
      g.board.currentPlayer ∈ g.board.track g.lastMovedPawnPosition))

/-- A save has four pawns of each colour. -/
def LoadsFour (_ : Game) : Event → Prop
  | .load file => ∀ saved ∈ loadFromFile file, Conserved saved.1
  | _ => True

/-- A save has four pawns of each colour, and if it waits for the dice it fits the static fields,
which stay as they are. -/
def LoadsWhole (g : Game) : Event → Prop
  | .load file => ∀ saved ∈ loadFromFile file, Conserved saved.1 ∧
    (saved.1.currentAction = .ROLLDICE →
      Streak { g with board := saved.1, consecutive6 := saved.2.2 })
  | _ => True

instance (g : Game) : ∀ e, Decidable (g.LoadsFour e)
  | .click _ _ => inferInstanceAs (Decidable True)
  | .newGame => inferInstanceAs (Decidable True)
  | .save => inferInstanceAs (Decidable True)
  | .load file => inferInstanceAs (Decidable (∀ saved ∈ loadFromFile file, Conserved saved.1))

instance (g : Game) : ∀ e, Decidable (g.LoadsWhole e)
  | .click _ _ => inferInstanceAs (Decidable True)
  | .newGame => inferInstanceAs (Decidable True)
  | .save => inferInstanceAs (Decidable True)
  | .load file => inferInstanceAs (Decidable (∀ saved ∈ loadFromFile file, Conserved saved.1 ∧
    (saved.1.currentAction = .ROLLDICE →
      Streak { g with board := saved.1, consecutive6 := saved.2.2 })))

/-- What holds whenever a click is awaited. -/
structure Whole (g : Game) : Prop where
  conserved : Conserved g.board
  registered : ∀ a ∈ g.actions, a = .rollDice ∨ a.Backed g.board
  position : g.lastMovedPawnDestinationType = some .TRACKSQUARE →
    g.lastMovedPawnPosition ∈ Finset.Icc 1 52
  streak : .rollDice ∈ g.actions → g.Streak

section Listeners
variable {g : Game}

theorem streak_of_there (h : g.lastMovedPawnDestinationType = some .TRACKSQUARE →
    g.board.currentPlayer ∈ g.board.track g.lastMovedPawnPosition) : g.Streak :=
  fun _ _ => h

theorem streak_nextPlayer : g.nextPlayer.Streak := nofun

theorem Whole.setCurrentAction (h : g.Whole) (currentAction : CurrentAction) :
    (g.setCurrentAction currentAction).Whole where
  conserved := h.conserved
  registered a ha := by
    rcases h.registered a ha with hroll | hbacked
    · exact .inl hroll
    · cases a <;> exact .inr hbacked
  position := h.position
  streak := h.streak

/-- Waiting for the dice. -/
theorem Whole.setPlayerDice (hc : Conserved g.board) (ha : g.actions = [])
    (hpos : g.lastMovedPawnDestinationType = some .TRACKSQUARE →
      g.lastMovedPawnPosition ∈ Finset.Icc 1 52) (hs : g.Streak) : g.setPlayerDice.Whole where
  conserved := hc
  registered a h := by
    simp only [Game.setPlayerDice,register,ha,List.nil_append,List.mem_singleton] at h
    exact .inl h
  position := hpos
  streak _ := hs

/-- Waiting for the move of a pawn. -/
theorem Whole.register {actions : List Action} (hc : Conserved g.board) (ha : g.actions = [])
    (hpos : g.lastMovedPawnDestinationType = some .TRACKSQUARE →
      g.lastMovedPawnPosition ∈ Finset.Icc 1 52) (h : ∀ a ∈ actions, a.Backed g.board) :
    (g.register actions).Whole where
  conserved := hc
  registered a hmem := by
    simp only [Game.register,ha,List.nil_append] at hmem
    exact .inr (h a hmem)
  position := hpos
  streak hmem := by
    simp only [Game.register,ha,List.nil_append] at hmem
    exact (h _ hmem).elim

/-- What a listener finds after the move of a pawn. -/
structure Settled (g : Game) : Prop where
  conserved : Conserved g.board
  actions : g.actions = []
  position : g.lastMovedPawnDestinationType = some .TRACKSQUARE →
    g.lastMovedPawnPosition ∈ Finset.Icc 1 52
  there : g.lastMovedPawnDestinationType = some .TRACKSQUARE →
    g.board.currentPlayer ∈ g.board.track g.lastMovedPawnPosition

theorem Settled.endTurn (h : g.Settled) : g.endTurn.Whole := by
  unfold Game.endTurn
  split_ifs
  · exact .setPlayerDice h.conserved h.actions h.position streak_nextPlayer
  · exact .setPlayerDice h.conserved h.actions h.position (streak_of_there h.there)

theorem Settled.registerBonus (h : g.Settled) (currentAction : CurrentAction) (steps : ℕ) :
    ((g.setCurrentAction currentAction).registerBonus steps).Whole :=
  .register h.conserved h.actions h.position fun _ => backed_of_mem_setTrackMoves

theorem Settled.onActionExecuted (h : g.Settled) {a : Action} (ha : a ≠ .rollDice)
    (capturedPawn : Bool) : (g.onActionExecuted capturedPawn a).Whole := by
  rcases g.onActionExecuted_cases a ha capturedPawn with heq | heq | ⟨-,heq⟩ | ⟨-,heq⟩
  · rw [heq]
    exact h.endTurn
  · rw [heq]
    exact .setCurrentAction ⟨h.conserved,by simp [h.actions],h.position,by simp [h.actions]⟩ _
  · rw [heq]
    exact h.registerBonus _ _
  · rw [heq]
    exact h.registerBonus _ _

/-- The pawn goes back to the yard if it stands where it has been noted. -/
theorem pawns_removeLastMovedPawn (hpos : g.lastMovedPawnDestinationType = some .TRACKSQUARE →
      g.lastMovedPawnPosition ∈ Finset.Icc 1 52)
    (hthere : g.lastMovedPawnDestinationType = some .TRACKSQUARE →
      g.board.currentPlayer ∈ g.board.track g.lastMovedPawnPosition) (c : PlayerColor) :
    g.removeLastMovedPawn.board.pawns c = g.board.pawns c := by
  unfold removeLastMovedPawn
  split_ifs with h
  · show (Board.addToYard _ _).pawns c = _
    rw [Board.pawns_addToYard,Board.pawns_removeFromTrack g.board _ c (hpos h) (hthere h)]
    omega
  · rfl

/-- What the dice leave of a state in which they were awaited. -/
theorem Whole.diceActionListener {roll : ℕ} (h : g.Whole) (hs : g.Streak) :
    ((({ g with actions := [] } : Game).execute roll .rollDice).1).diceActionListener.Whole := by
  generalize ht : (({ g with actions := [] } : Game).execute roll .rollDice).1 = t
  have hboard : t.board = g.board := by rw [← ht]; rfl
  have hactions : t.actions = [] := by rw [← ht]; rfl
  have hsix : t.curValue = 6 → t.consecutive6 = g.consecutive6+1 := by
    rw [← ht]
    exact fun h6 => if_pos h6
  have hpos : t.lastMovedPawnDestinationType = some .TRACKSQUARE →
      t.lastMovedPawnPosition ∈ Finset.Icc 1 52 := by
    rw [← ht]
    exact h.position
  have hthere : t.consecutive6 = 3 → t.curValue = 6 → t.canMove 6 = true →
      t.lastMovedPawnDestinationType = some .TRACKSQUARE →
        t.board.currentPlayer ∈ t.board.track t.lastMovedPawnPosition := by
    intro h3 h6
    have h2 : g.consecutive6 = 2 := by
      have := hsix h6
      omega
    rw [← ht]
    exact hs h2
  have hc : Conserved t.board := hboard ▸ h.conserved
  rcases t.diceActionListener_cases with ⟨h6,h3,hmove,heq⟩ | ⟨-,-,heq⟩ | ⟨hmove,heq | ⟨h6,heq⟩⟩
  · have hkept : Conserved t.removeLastMovedPawn.board := fun c =>
      (pawns_removeLastMovedPawn hpos (hthere h3 h6 hmove) c).trans (hc c)
    rw [heq]
    apply Whole.setCurrentAction
    refine .setPlayerDice (g := Game.nextPlayer _) hkept
      (t.removeLastMovedPawn_actions.trans hactions) ?_ streak_nextPlayer
    unfold removeLastMovedPawn
    split_ifs <;> exact hpos
  · rw [heq]
    exact .register hc hactions hpos fun _ => backed_of_mem_setPlayerMoves
  · rw [heq]
    apply Whole.setCurrentAction
    exact .setPlayerDice (g := Game.nextPlayer _) hc hactions hpos streak_nextPlayer
  · rw [heq]
    apply Whole.setCurrentAction
    exact .setPlayerDice hc hactions hpos fun _ hmove6 => (hmove (h6 ▸ hmove6)).elim

theorem Whole.executeAction {roll : ℕ} {a : Action} (h : g.Whole) (ha : a ∈ g.actions) :
    (g.executeAction a roll).Whole := by
  rcases h.registered a ha with rfl | hbacked
  · exact h.diceActionListener (h.streak ha)
  · have hne : a ≠ .rollDice := by
      rintro rfl
      exact hbacked
    obtain ⟨t,captured,ht,hmoved⟩ := execute_move (g := { g with actions := [] }) roll hbacked
    unfold Game.executeAction
    rw [ht]
    have hsettled : t.Settled := ⟨fun c => (hmoved.pawns c).trans (h.conserved c),hmoved.actions,
      hmoved.position,hmoved.there⟩
    exact hsettled.onActionExecuted hne captured

theorem Whole.startGame (h : g.Whole) : g.startGame.Whole :=
  .setPlayerDice conserved_new rfl h.position nofun

theorem Whole.loadMap {saved : Board} {value count : ℕ} (h : g.Whole) (hc : Conserved saved)
    (hs : saved.currentAction = .ROLLDICE →
      Streak { g with board := saved, consecutive6 := count }) :
    (g.loadMap saved value count).Whole := by
  unfold Game.loadMap
  dsimp only
  split
  · exact ⟨hc,nofun,h.position,nofun⟩
  · rename_i hroll
    exact .setPlayerDice hc rfl h.position (hs hroll)
  · split_ifs
    · exact .register hc rfl h.position fun _ => backed_of_mem_setPlayerMoves
    · exact .setPlayerDice hc rfl h.position streak_nextPlayer
  · exact .register hc rfl h.position fun _ => backed_of_mem_setTrackMoves
  · exact .register hc rfl h.position fun _ => backed_of_mem_setTrackMoves

/-- The step lemma. -/
theorem Whole.step {t : Game} {e : Event} (h : g.Whole) (hg : g.LoadsWhole e)
    (ht : g.step e = some t) : t.Whole := by
  cases e with
  | click i roll =>
    simp only [Game.step] at ht
    split_ifs at ht
    obtain ⟨a,ha,rfl⟩ := Option.map_eq_some_iff.mp ht
    exact h.executeAction (List.mem_of_getElem? ha)
  | newGame =>
    obtain rfl := Option.some.inj ht
    exact h.startGame
  | save =>
    obtain rfl := Option.some.inj ht
    exact h
  | load file =>
    obtain ⟨saved,hsaved,rfl⟩ := Option.map_eq_some_iff.mp ht
    obtain ⟨hc,hs⟩ := hg saved hsaved
    exact h.loadMap hc hs

end Listeners
end Game

theorem whole_init : ludo.init.Whole :=
  .setPlayerDice conserved_new rfl nofun nofun

theorem whole_of_reachableUnder {g : Game} (h : ludo.ReachableUnder Game.LoadsWhole g) : g.Whole :=
  h.invariant whole_init fun _ _ _ hs hg ht => hs.step hg ht

/-- In every game into which only whole saves are loaded, each colour has its four pawns. -/
theorem conserved_of_reachableUnder {g : Game} (h : ludo.ReachableUnder Game.LoadsWhole g) :
    Conserved g.board :=
  (whole_of_reachableUnder h).conserved

section Exact
variable {g : Game} {saved : Board} {value count : ℕ}

theorem pawns_loadMap (c : PlayerColor) :
    (g.loadMap saved value count).board.pawns c = saved.pawns c := by
  unfold Game.loadMap
  dsimp only
  split
  · rfl
  · rfl
  · split_ifs <;> rfl
  · rfl
  · rfl

theorem pawns_diceActionListener_third (h6 : g.curValue = 6) (h3 : g.consecutive6 = 3)
    (hmove : g.canMove 6 = true) (c : PlayerColor) :
    g.diceActionListener.board.pawns c = g.removeLastMovedPawn.board.pawns c := by
  rcases g.diceActionListener_cases with ⟨-,-,-,heq⟩ | ⟨hthird,-⟩ | ⟨hnone,-⟩
  · rw [heq]
    rfl
  · exact (hthird ⟨h6,h3⟩).elim
  · exact (hnone (h6 ▸ hmove)).elim

/-- A pawn that is not where it is looked for comes into the yard all the same. -/
theorem pawns_removeLastMovedPawn_gone
    (htrack : g.lastMovedPawnDestinationType = some .TRACKSQUARE)
    (hgone : g.board.currentPlayer ∉ g.board.track g.lastMovedPawnPosition) :
    g.removeLastMovedPawn.board.pawns g.board.currentPlayer =
      g.board.pawns g.board.currentPlayer+1 := by
  have hsame : g.board.removeFromTrack g.lastMovedPawnPosition g.board.currentPlayer = g.board := by
    simp only [Board.removeFromTrack,List.erase_of_not_mem hgone,Function.update_eq_self]
  unfold Game.removeLastMovedPawn
  rw [if_pos htrack]
  dsimp only
  rw [hsame,Board.pawns_addToYard,if_pos rfl]

/-- The third six of such a player. -/
theorem pawns_third_six (hact : g.actions = [.rollDice]) (h2 : g.consecutive6 = 2)
    (hmove : g.canMove 6 = true) (htrack : g.lastMovedPawnDestinationType = some .TRACKSQUARE)
    (hgone : g.board.currentPlayer ∉ g.board.track g.lastMovedPawnPosition) :
    ∃ t, g.step (.click 0 6) = some t ∧
      t.board.pawns g.board.currentPlayer = g.board.pawns g.board.currentPlayer+1 := by
  refine ⟨g.executeAction .rollDice 6,by rw [Game.step,if_pos (by decide),hact]; rfl,?_⟩
  let t : Game := { g with actions := [], curValue := 6, consecutive6 := g.consecutive6+1 }
  exact (pawns_diceActionListener_third (g := t) rfl (congrArg (·+1) h2) hmove _).trans
    (pawns_removeLastMovedPawn_gone (g := t) htrack hgone)

/-- Where a step breaks the guard, the pawns are wrong at once or after one more click. -/
theorem exists_not_conserved {e : Event} (h : ¬g.LoadsWhole e) {t : Game} (ht : g.step e = some t) :
    ∃ u, ludo.Run t u ∧ ¬Conserved u.board := by
  cases e with
  | click => exact (h trivial).elim
  | newGame => exact (h trivial).elim
  | save => exact (h trivial).elim
  | load file =>
    simp only [Game.LoadsWhole,not_forall] at h
    obtain ⟨⟨saved,value,count⟩,hsaved,hbad⟩ := h
    obtain rfl : g.loadMap saved value count = t := by
      simpa only [Game.step,Option.mem_def.mp hsaved,Option.map_some,Option.some.injEq] using ht
    by_cases hc : Conserved saved
    · obtain ⟨hroll,hstreak⟩ := Classical.not_imp.mp (not_and.mp hbad hc)
      simp only [Game.Streak,Classical.not_imp] at hstreak
      obtain ⟨h2,hmove,htrack,hgone⟩ := hstreak
      have hload : g.loadMap saved value count =
          { g with
            board := saved
            curValue := value
            consecutive6 := count
            actions := [.rollDice] } := by
        unfold Game.loadMap
        dsimp only at hroll ⊢
        rw [hroll]
        rfl
      rw [hload]
      obtain ⟨u,hu,hpawns⟩ := pawns_third_six (g := { g with
        board := saved
        curValue := value
        consecutive6 := count
        actions := [.rollDice] }) rfl h2 hmove htrack hgone
      refine ⟨u,Relation.ReflTransGen.single ⟨.click 0 6,trivial,hu⟩,fun hu4 => ?_⟩
      dsimp only at hpawns
      rw [hu4,hc] at hpawns
      omega
    · exact ⟨_,Relation.ReflTransGen.refl,fun hload => hc fun c => by
        rw [← pawns_loadMap (g := g),hload]⟩

end Exact

/-- Red has two sixes behind it, a pawn on its first square, and the dice to roll. -/
def redAfterTwoSixes : List Line :=
  [.curPlayer 1,.curAction .ROLLDICE,.curDice 6,.consecutive6 2,.trackPosition 48 1 1,
    .yardColor 1 3,.pocketColor 1 0,.yardColor 2 4,.pocketColor 2 0,.yardColor 3 4,
    .pocketColor 3 0,.yardColor 4 4,.pocketColor 4 0]

/-- The save is loaded at the start of the program, where no pawn has been moved, and red rolls its
third six. -/
theorem conserved_of_reachableUnder_loaded : ∃ g, ludo.ReachableUnder Game.LoadsWhole g ∧
    g.board.currentPlayer = .GREEN ∧ g.board.track 48 = [.RED] ∧ Conserved g.board := by
  obtain ⟨g,hg,hp⟩ := TransitionSystem.exists_reachableUnder_of_execUnder (T := ludo)
    (G := Game.LoadsWhole) (l := [.load redAfterTwoSixes,.click 0 6])
    (p := fun g => g.board.currentPlayer = .GREEN ∧ g.board.track 48 = [.RED]) (by decide +kernel)
  rw [decide_eq_true_eq] at hp
  exact ⟨g,hg,hp.1,hp.2,conserved_of_reachableUnder hg⟩

/-- Green has gone to its first square before, and the penalty looks for the red pawn there. -/
theorem not_conserved_of_third_six : ∃ g, ludo.ReachableUnder Game.LoadsFour g ∧
    g.board.pawns .RED = 5 := by
  obtain ⟨g,hg,hp⟩ := TransitionSystem.exists_reachableUnder_of_execUnder (T := ludo)
    (G := Game.LoadsFour) (l := [.click 0 5,.click 0 1,.load redAfterTwoSixes,.click 0 6])
    (p := fun g => g.board.pawns .RED = 5) (by decide +kernel)
  exact ⟨g,hg,of_decide_eq_true hp⟩

end PucRio.Ludo
