import PucRio.Ludo.NeverStuck

/-! What is registered in a state. Whatever has happened, it is the dice, or the moves of the board as
it stands for the number of steps that the phase asks for, or nothing after the end. -/
namespace PucRio.Ludo
namespace Game

/-- The moves that the phase asks for. -/
def moves (g : Game) : List Action :=
  match g.board.currentAction with
  | .SELECTPAWNBONUS10 => setTrackMoves g.board g.board.currentPlayer 10
  | .SELECTPAWNBONUS20 => setTrackMoves g.board g.board.currentPlayer 20
  | _ => setPlayerMoves g.board g.board.currentPlayer g.curValue g.consecutive6

/-- The moves of a bonus, or those of a roll. -/
theorem moves_cases (g : Game) :
    (∃ d, g.moves = setTrackMoves g.board g.board.currentPlayer d ∧ g.steps = d) ∨
    ((g.board.currentAction ≠ .SELECTPAWNBONUS10 ∧ g.board.currentAction ≠ .SELECTPAWNBONUS20) ∧
      g.moves = setPlayerMoves g.board g.board.currentPlayer g.curValue g.consecutive6 ∧
      g.steps = sixBecomesSeven g.board g.board.currentPlayer g.curValue g.consecutive6) := by
  unfold moves steps
  cases g.board.currentAction with
  | ROLLDICE => exact .inr ⟨by decide,rfl,rfl⟩
  | SELECTPAWN => exact .inr ⟨by decide,rfl,rfl⟩
  | SELECTPAWNBONUS10 => exact .inl ⟨10,rfl,rfl⟩
  | SELECTPAWNBONUS20 => exact .inl ⟨20,rfl,rfl⟩
  | GAMEENDED => exact .inr ⟨by decide,rfl,rfl⟩

/-- What a state has registered, if it has been reached. -/
inductive Ready (g : Game) : Prop
  | dice (actions : g.actions = [.rollDice])
  | move (actions : g.actions = g.moves)
    (select : g.board.currentAction = .SELECTPAWN → g.canMove g.curValue = true)
    (waits : g.board.currentAction ≠ .ROLLDICE) (running : g.board.currentAction ≠ .GAMEENDED)
  | ended (actions : g.actions = []) (phase : g.board.currentAction = .GAMEENDED)

section Ready
variable {g : Game} {a : Action}

theorem backed_of_mem_moves (ha : a ∈ g.moves) : a.Backed g.board := by
  unfold moves at ha
  split at ha
  · exact backed_of_mem_setTrackMoves ha
  · exact backed_of_mem_setTrackMoves ha
  · exact backed_of_mem_setPlayerMoves ha

theorem Ready.backed (h : g.Ready) (ha : a ∈ g.actions) : a = .rollDice ∨ a.Backed g.board := by
  cases h with
  | dice actions => exact .inl (List.mem_singleton.mp (actions ▸ ha))
  | move actions => exact .inr (backed_of_mem_moves (actions ▸ ha))
  | ended actions =>
    rw [actions] at ha
    cases ha

theorem ready_endTurn (h : g.actions = []) : g.endTurn.Ready := by
  apply Ready.dice
  unfold endTurn
  split_ifs
  · exact setPlayerDice_actions (g := Game.nextPlayer _) h
  · exact setPlayerDice_actions h

theorem ready_registerMoves (h : g.actions = []) (hphase : g.board.currentAction = .SELECTPAWN)
    (hmove : g.canMove g.curValue = true) : (g.registerMoves g.curValue).Ready := by
  refine .move ?_ (fun _ => hmove) ?_ ?_
  · simp only [registerMoves,register,moves,h,hphase,List.nil_append]
  · exact fun hroll => absurd (hphase.symm.trans hroll) (by decide)
  · exact fun hend => absurd (hphase.symm.trans hend) (by decide)

theorem ready_registerBonus {steps : ℕ} (h : g.actions = [])
    (hphase : g.board.currentAction = .SELECTPAWNBONUS10 ∧ steps = 10 ∨
      g.board.currentAction = .SELECTPAWNBONUS20 ∧ steps = 20) : (g.registerBonus steps).Ready := by
  have hmoves : (g.registerBonus steps).actions = g.moves := by
    rcases hphase with ⟨hphase,rfl⟩ | ⟨hphase,rfl⟩
    · simp only [registerBonus,register,moves,h,hphase,List.nil_append]
    · simp only [registerBonus,register,moves,h,hphase,List.nil_append]
  have hbonus (action : CurrentAction) (ha : action ≠ .SELECTPAWNBONUS10)
      (hb : action ≠ .SELECTPAWNBONUS20) : g.board.currentAction ≠ action := by
    rintro rfl
    exact hphase.elim (fun h10 => ha h10.1) fun h20 => hb h20.1
  exact .move hmoves (fun hselect => (hbonus _ (by decide) (by decide) hselect).elim)
    (hbonus _ (by decide) (by decide)) (hbonus _ (by decide) (by decide))

theorem ready_onActionExecuted (h : g.actions = []) (ha : a ≠ .rollDice) (capturedPawn : Bool) :
    (g.onActionExecuted capturedPawn a).Ready := by
  rcases g.onActionExecuted_cases a ha capturedPawn with heq | heq | ⟨-,heq⟩ | ⟨-,heq⟩
  · rw [heq]
    exact ready_endTurn h
  · rw [heq]
    exact .ended h rfl
  · rw [heq]
    exact ready_registerBonus (g := g.setCurrentAction _) h (.inl ⟨rfl,rfl⟩)
  · rw [heq]
    exact ready_registerBonus (g := g.setCurrentAction _) h (.inr ⟨rfl,rfl⟩)

theorem ready_diceActionListener (h : g.actions = []) : g.diceActionListener.Ready := by
  rcases g.diceActionListener_cases with ⟨-,-,-,heq⟩ | ⟨-,hmove,heq⟩ | ⟨-,heq | ⟨-,heq⟩⟩
  · rw [heq]
    exact .dice (setPlayerDice_actions (g := Game.nextPlayer _)
      (g.removeLastMovedPawn_actions.trans h))
  · rw [heq]
    exact ready_registerMoves (g := g.setCurrentAction _) h rfl hmove
  · rw [heq]
    exact .dice (setPlayerDice_actions (g := Game.nextPlayer _) h)
  · rw [heq]
    exact .dice (setPlayerDice_actions h)

theorem Ready.executeAction {roll : ℕ} (h : g.Ready) (ha : a ∈ g.actions) :
    (g.executeAction a roll).Ready := by
  rcases h.backed ha with rfl | hbacked
  · exact ready_diceActionListener (g := (({ g with actions := [] } : Game).execute roll
      .rollDice).1) rfl
  · have hne : a ≠ .rollDice := by
      rintro rfl
      exact hbacked
    obtain ⟨t,captured,ht,hmoved⟩ := execute_move (g := { g with actions := [] }) roll hbacked
    unfold Game.executeAction
    rw [ht]
    exact ready_onActionExecuted hmoved.actions hne captured

theorem ready_loadMap (saved : Board) (value count : ℕ) : (g.loadMap saved value count).Ready := by
  unfold loadMap
  dsimp only
  split
  · exact .ended rfl rfl
  · exact .dice rfl
  · rename_i hphase
    split_ifs with hmove
    · exact ready_registerMoves rfl hphase hmove
    · exact .dice rfl
  · rename_i hphase
    exact ready_registerBonus rfl (.inl ⟨hphase,rfl⟩)
  · rename_i hphase
    exact ready_registerBonus rfl (.inr ⟨hphase,rfl⟩)

theorem Ready.step {t : Game} {e : Event} (h : g.Ready) (ht : g.step e = some t) : t.Ready := by
  cases e with
  | click i roll =>
    simp only [Game.step] at ht
    split_ifs at ht
    obtain ⟨a,ha,rfl⟩ := Option.map_eq_some_iff.mp ht
    exact h.executeAction (List.mem_of_getElem? ha)
  | newGame =>
    obtain rfl := Option.some.inj ht
    exact .dice rfl
  | save =>
    obtain rfl := Option.some.inj ht
    exact h
  | load file =>
    obtain ⟨saved,-,rfl⟩ := Option.map_eq_some_iff.mp ht
    exact ready_loadMap saved.1 saved.2.1 saved.2.2

end Ready

section TrackMoves
variable {g : Game} {b : Board} {c : PlayerColor} {d n p q : ℕ} {shouldRemoveOpponent : Bool}

/-- A move along the track goes as far as it has been asked for. -/
theorem trackToTrack_of_mem_setTrackMoves
    (h : .trackToTrack p q shouldRemoveOpponent ∈ setTrackMoves b c d) :
    .trackToTrack p q shouldRemoveOpponent = setPlayerTrackToTrackMoves d p ∧
      p ∈ ownSquares b c ∧ canMoveInsideTrack b.track d c p = true := by
  obtain ⟨position,hp,hmove⟩ := mem_setTrackMoves.mp h
  rcases hmove with ⟨hinside,heq⟩ | ⟨-,heq⟩ | ⟨-,heq⟩
  · obtain rfl : p = position := by
      simp only [setPlayerTrackToTrackMoves,Action.trackToTrack.injEq] at heq
      exact heq.1
    exact ⟨heq,hp,hinside⟩
  · cases heq
  · cases heq

theorem not_trackToTrack_mem_setLaneMoves :
    .trackToTrack p q shouldRemoveOpponent ∉ setLaneMoves b c d := by
  intro h
  obtain ⟨position,-,⟨-,heq⟩ | ⟨-,heq⟩⟩ := mem_setLaneMoves.mp h
  · cases heq
  · cases heq

/-- So does one of a roll, which has passed `canMoveInsideTrack` or opens a barrier. -/
theorem trackToTrack_of_mem_setPlayerMoves
    (h : .trackToTrack p q shouldRemoveOpponent ∈ setPlayerMoves b c d n) :
    .trackToTrack p q shouldRemoveOpponent =
        setPlayerTrackToTrackMoves (sixBecomesSeven b c d n) p ∧ p ∈ ownSquares b c ∧
      (canMoveInsideTrack b.track (sixBecomesSeven b c d n) c p = true ∨
        (sixBecomesSeven b c d n = 6 ∨ sixBecomesSeven b c d n = 7) ∧
          canMovePawnFromBarrier b.track (sixBecomesSeven b c d n) c = true ∧
          currentPlayerHasBarrierAtTrack b.track c p = true) := by
  have hmoves (yard : List Action) (hyard : .trackToTrack p q shouldRemoveOpponent ∉ yard)
      (h : .trackToTrack p q shouldRemoveOpponent ∈ yard ++
        setTrackMoves b c (sixBecomesSeven b c d n) ++
        setLaneMoves b c (sixBecomesSeven b c d n)) :
      .trackToTrack p q shouldRemoveOpponent ∈ setTrackMoves b c (sixBecomesSeven b c d n) := by
    rcases List.mem_append.mp h with h | h
    · exact (List.mem_append.mp h).resolve_left hyard
    · exact (not_trackToTrack_mem_setLaneMoves h).elim
  unfold setPlayerMoves at h
  dsimp only at h
  split_ifs at h with hbarrier hyard
  · obtain ⟨position,hp,hat,heq⟩ := mem_setMovePawnFromBarrierMoves.mp h
    obtain rfl : p = position := by
      simp only [setPlayerTrackToTrackMoves,Action.trackToTrack.injEq] at heq
      exact heq.1
    exact ⟨heq,hp,.inr ⟨hbarrier.1,hbarrier.2.2,hat⟩⟩
  · obtain ⟨heq,hp,hinside⟩ := trackToTrack_of_mem_setTrackMoves (hmoves _ (by simp) h)
    exact ⟨heq,hp,.inl hinside⟩
  · obtain ⟨heq,hp,hinside⟩ := trackToTrack_of_mem_setTrackMoves (hmoves _ (by simp) h)
    exact ⟨heq,hp,.inl hinside⟩

theorem trackToTrack_of_mem_moves (h : .trackToTrack p q shouldRemoveOpponent ∈ g.moves) :
    .trackToTrack p q shouldRemoveOpponent = setPlayerTrackToTrackMoves g.steps p ∧
      p ∈ ownSquares g.board g.board.currentPlayer ∧
      (canMoveInsideTrack g.board.track g.steps g.board.currentPlayer p = true ∨
        (g.steps = 6 ∨ g.steps = 7) ∧
          canMovePawnFromBarrier g.board.track g.steps g.board.currentPlayer = true ∧
          currentPlayerHasBarrierAtTrack g.board.track g.board.currentPlayer p = true) := by
  rcases g.moves_cases with ⟨d,hmoves,hsteps⟩ | ⟨-,hmoves,hsteps⟩
  · rw [hmoves] at h
    rw [hsteps]
    obtain ⟨heq,hp,hinside⟩ := trackToTrack_of_mem_setTrackMoves h
    exact ⟨heq,hp,.inl hinside⟩
  · rw [hmoves] at h
    rw [hsteps]
    exact trackToTrack_of_mem_setPlayerMoves h

theorem Ready.trackToTrack (hg : g.Ready)
    (h : .trackToTrack p q shouldRemoveOpponent ∈ g.actions) :
    .trackToTrack p q shouldRemoveOpponent ∈ g.moves := by
  cases hg with
  | dice actions =>
    rw [actions] at h
    cases List.mem_singleton.mp h
  | move actions => exact actions ▸ h
  | ended actions =>
    rw [actions] at h
    cases h

end TrackMoves
end Game

theorem ready_of_reachable {g : Game} (h : ludo.Reachable g) : g.Ready :=
  TransitionSystem.GuardedRun.invariant h (.dice rfl) fun _ _ _ hs _ ht => hs.step ht

end PucRio.Ludo
