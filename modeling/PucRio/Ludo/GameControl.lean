import PucRio.Lib.TransitionSystem
import PucRio.Ludo.MovementRules

/-! A game: what the actions do to the board, what their listeners register next, and what a saved
game is loaded as. -/
namespace PucRio.Ludo

/-- The board, the dice, what the last move left in the static fields of `GameControl`, and the
registered actions. -/
structure Game where
  board : Board
  curValue : ℕ
  consecutive6 : ℕ
  lastMovedPawnPosition : ℕ
  lastMovedPawnDestinationType : Option SquareType
  actions : List Action

namespace Game

/-- `execute` of an action, with what the dice show if they are rolled. `none`: an exception, after
which no listener runs; else whether a pawn has been captured. -/
def execute (g : Game) (roll : ℕ) : Action → Game × Option Bool
  | .rollDice =>
    ({ g with
      curValue := roll
      consecutive6 := if roll = 6 then g.consecutive6+1 else g.consecutive6 },some false)
  | .yardToTrack =>
    let color := g.board.currentPlayer
    let position := getInitialSquarePosition color
    ({ g with
      board := (g.board.removeFromYard color).addToTrack position color
      lastMovedPawnPosition := position
      lastMovedPawnDestinationType := some .TRACKSQUARE },some false)
  | .trackToTrack fromSquare toSquare shouldRemoveOpponent =>
    let color := g.board.currentPlayer
    let opponentColor := ((g.board.track toSquare).head?.filter (· != color)).filter
      fun _ => shouldRemoveOpponent
    let board := match opponentColor with
      | none => g.board
      | some opponentColor => (g.board.addToYard opponentColor).removeFromTrack toSquare opponentColor
    let g := { g with
      board := board.addToTrack toSquare color
      lastMovedPawnPosition := toSquare
      lastMovedPawnDestinationType := some .TRACKSQUARE }
    if color ∈ g.board.track fromSquare then
      ({ g with board := g.board.removeFromTrack fromSquare color },some opponentColor.isSome)
    else (g,none)
  | .trackToLane lane fromSquare toLanePosition =>
    if lane ∈ g.board.track fromSquare then
      ({ g with
        board := (g.board.removeFromTrack fromSquare lane).addToLane lane toLanePosition
        lastMovedPawnPosition := toLanePosition
        lastMovedPawnDestinationType := some .LANESQUARE },some false)
    else (g,none)
  | .trackToPocket pocket fromSquare =>
    if pocket ∈ g.board.track fromSquare then
      ({ g with
        board := (g.board.removeFromTrack fromSquare pocket).addToPocket pocket
        lastMovedPawnPosition := pocket.asInt
        lastMovedPawnDestinationType := some .POCKETSQUARE },some false)
    else (g,none)
  | .laneToLane lane fromLanePosition toLanePosition =>
    if 0 < g.board.lanes lane fromLanePosition then
      ({ g with
        board := (g.board.removeFromLane lane fromLanePosition).addToLane lane toLanePosition
        lastMovedPawnPosition := toLanePosition
        lastMovedPawnDestinationType := some .LANESQUARE },some false)
    else (g,none)
  | .laneToPocket lane fromLanePosition =>
    if 0 < g.board.lanes lane fromLanePosition then
      ({ g with
        board := (g.board.removeFromLane lane fromLanePosition).addToPocket lane
        lastMovedPawnPosition := lane.asInt
        lastMovedPawnDestinationType := some .POCKETSQUARE },some false)
    else (g,none)

def register (g : Game) (actions : List Action) : Game := { g with actions := g.actions ++ actions }

def setPlayerDice (g : Game) : Game := g.register [.rollDice]

def setCurrentAction (g : Game) (currentAction : CurrentAction) : Game :=
  { g with board := { g.board with currentAction := currentAction } }

/-- `Board.nextPlayer`, which resets the count of sixes. -/
def nextPlayer (g : Game) : Game :=
  { g with
    board := { g.board with currentPlayer := g.board.currentPlayer.next }
    consecutive6 := 0 }

def canMove (g : Game) (diceValue : ℕ) : Bool := hasMove g.board g.board.currentPlayer diceValue

/-- The moves after a roll of the dice. -/
def registerMoves (g : Game) (diceValue : ℕ) : Game :=
  g.register (setPlayerMoves g.board g.board.currentPlayer diceValue g.consecutive6)

/-- The moves of a bonus. -/
def registerBonus (g : Game) (steps : ℕ) : Game :=
  g.register (setTrackMoves g.board g.board.currentPlayer steps)

/-- How every turn ends that does not go on with a bonus. -/
def endTurn (g : Game) : Game :=
  (if g.curValue ≠ 6 ∨ g.consecutive6 = 3 then g.nextPlayer else g).setPlayerDice

/-- The removal may fail; the yard gets its pawn all the same. -/
def removeLastMovedPawn (g : Game) : Game :=
  if g.lastMovedPawnDestinationType = some .TRACKSQUARE then
    let color := g.board.currentPlayer
    { g with board := (g.board.removeFromTrack g.lastMovedPawnPosition color).addToYard color }
  else g

def diceActionListener (g : Game) : Game :=
  let g := g.setCurrentAction .SELECTPAWN
  if g.curValue = 6 ∧ g.consecutive6 = 3 then
    let g := if g.canMove g.curValue then g.removeLastMovedPawn else g
    (g.nextPlayer.setPlayerDice).setCurrentAction .ROLLDICE
  else if g.canMove g.curValue then g.registerMoves g.curValue
  else ((if g.curValue ≠ 6 then g.nextPlayer else g).setCurrentAction .ROLLDICE).setPlayerDice

def moveFromTrackToTrackActionListener (g : Game) (capturedPawn : Bool) : Game :=
  if capturedPawn = true ∧ g.canMove 20 = true then
    (g.setCurrentAction .SELECTPAWNBONUS20).registerBonus 20
  else g.endTurn

def moveToPocketActionListener (g : Game) : Game :=
  if gameFinished (g.board.pockets g.board.currentPlayer) then g.setCurrentAction .GAMEENDED
  else if g.canMove 10 then (g.setCurrentAction .SELECTPAWNBONUS10).registerBonus 10
  else g.endTurn

/-- The listener that each action has been registered with. -/
def onActionExecuted (g : Game) (capturedPawn : Bool) : Action → Game
  | .rollDice => g.diceActionListener
  | .yardToTrack => g.endTurn
  | .trackToTrack .. => g.moveFromTrackToTrackActionListener capturedPawn
  | .trackToLane .. => g.endTurn
  | .laneToLane .. => g.endTurn
  | .trackToPocket .. => g.moveToPocketActionListener
  | .laneToPocket .. => g.moveToPocketActionListener

/-- `executeAction` of a registered action. -/
def executeAction (g : Game) (a : Action) (roll : ℕ) : Game :=
  match ({ g with actions := [] } : Game).execute roll a with
  | (g,none) => g
  | (g,some capturedPawn) => g.onActionExecuted capturedPawn a

/-- Neither the dice's value nor the static fields are reset. -/
def startGame (g : Game) : Game :=
  ({ g with board := .new, consecutive6 := 0, actions := [] } : Game).setPlayerDice

def loadMap (g : Game) (savedMap : Board) (curValue consecutive6 : ℕ) : Game :=
  let g := { g with
    board := savedMap
    curValue := curValue
    consecutive6 := consecutive6
    actions := [] }
  match savedMap.currentAction with
  | .GAMEENDED => g.setCurrentAction .GAMEENDED
  | .ROLLDICE => g.setPlayerDice
  | .SELECTPAWN =>
    if g.canMove curValue then g.registerMoves curValue else g.nextPlayer.setPlayerDice
  | .SELECTPAWNBONUS10 => g.registerBonus 10
  | .SELECTPAWNBONUS20 => g.registerBonus 20

section Cases
variable (g : Game)

theorem removeLastMovedPawn_setCurrentAction (currentAction : CurrentAction) :
    (g.setCurrentAction currentAction).removeLastMovedPawn =
      g.removeLastMovedPawn.setCurrentAction currentAction := by
  unfold removeLastMovedPawn
  rw [apply_ite (setCurrentAction · currentAction)]
  rfl

theorem removeLastMovedPawn_actions : g.removeLastMovedPawn.actions = g.actions := by
  unfold removeLastMovedPawn
  split_ifs <;> rfl

/-- The listener asks what the state before it says. -/
theorem diceActionListener_eq : g.diceActionListener =
    if g.curValue = 6 ∧ g.consecutive6 = 3 then
      ((if g.canMove g.curValue = true then (g.setCurrentAction .SELECTPAWN).removeLastMovedPawn
        else g.setCurrentAction .SELECTPAWN).nextPlayer.setPlayerDice).setCurrentAction .ROLLDICE
    else if g.canMove g.curValue = true then
      (g.setCurrentAction .SELECTPAWN).registerMoves g.curValue
    else ((if g.curValue ≠ 6 then (g.setCurrentAction .SELECTPAWN).nextPlayer
      else g.setCurrentAction .SELECTPAWN).setCurrentAction .ROLLDICE).setPlayerDice := rfl

/-- What can come of a roll of the dice. -/
theorem diceActionListener_cases :
    (g.curValue = 6 ∧ g.consecutive6 = 3 ∧ g.canMove 6 = true ∧ g.diceActionListener =
      g.removeLastMovedPawn.nextPlayer.setPlayerDice.setCurrentAction .ROLLDICE) ∨
    (¬(g.curValue = 6 ∧ g.consecutive6 = 3) ∧ g.canMove g.curValue = true ∧
      g.diceActionListener = (g.setCurrentAction .SELECTPAWN).registerMoves g.curValue) ∨
    (¬g.canMove g.curValue = true ∧
      (g.diceActionListener = g.nextPlayer.setPlayerDice.setCurrentAction .ROLLDICE ∨
      (g.curValue = 6 ∧ g.diceActionListener = g.setPlayerDice.setCurrentAction .ROLLDICE))) := by
  rw [diceActionListener_eq,removeLastMovedPawn_setCurrentAction]
  split_ifs with hthird hmove hmove hother
  · exact .inl ⟨hthird.1,hthird.2,hthird.1 ▸ hmove,rfl⟩
  · exact .inr (.inr ⟨hmove,.inl rfl⟩)
  · exact .inr (.inl ⟨hthird,hmove,rfl⟩)
  · exact .inr (.inr ⟨hmove,.inl rfl⟩)
  · exact .inr (.inr ⟨hmove,.inr ⟨not_not.mp hother,rfl⟩⟩)

/-- What can come of the move of a pawn. -/
theorem onActionExecuted_cases (a : Action) (ha : a ≠ .rollDice) (capturedPawn : Bool) :
    g.onActionExecuted capturedPawn a = g.endTurn ∨
    g.onActionExecuted capturedPawn a = g.setCurrentAction .GAMEENDED ∨
    (g.canMove 10 = true ∧ g.onActionExecuted capturedPawn a =
      (g.setCurrentAction .SELECTPAWNBONUS10).registerBonus 10) ∨
    (g.canMove 20 = true ∧ g.onActionExecuted capturedPawn a =
      (g.setCurrentAction .SELECTPAWNBONUS20).registerBonus 20) := by
  have pocket : g.moveToPocketActionListener = g.endTurn ∨
      g.moveToPocketActionListener = g.setCurrentAction .GAMEENDED ∨
      (g.canMove 10 = true ∧ g.moveToPocketActionListener =
        (g.setCurrentAction .SELECTPAWNBONUS10).registerBonus 10) := by
    unfold moveToPocketActionListener
    split_ifs with hend h
    · exact .inr (.inl rfl)
    · exact .inr (.inr ⟨h,rfl⟩)
    · exact .inl rfl
  cases a with
  | rollDice => exact (ha rfl).elim
  | yardToTrack => exact .inl rfl
  | trackToLane => exact .inl rfl
  | laneToLane => exact .inl rfl
  | trackToTrack =>
    simp only [onActionExecuted,moveFromTrackToTrackActionListener]
    split_ifs with h
    · exact .inr (.inr (.inr ⟨h.2,rfl⟩))
    · exact .inl rfl
  | trackToPocket => exact pocket.imp_right (Or.imp_right .inl)
  | laneToPocket => exact pocket.imp_right (Or.imp_right .inl)

end Cases
end Game

end PucRio.Ludo
