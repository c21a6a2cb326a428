import PucRio.Ludo.Board

/-! Which moves there are: the rules, the question whether a player has a move, and the actions that
are registered for the moves. -/
namespace PucRio.Ludo

section Barriers

def opponentHasBarrierAt (track : ℕ → List PlayerColor) (currentPlayer : PlayerColor)
    (position : ℕ) : Bool :=
  !isShelterPosition position && decide (1 < (track position).length) &&
    (track position).head? != some currentPlayer

def currentPlayerHasBarrierAtTrack (track : ℕ → List PlayerColor) (currentPlayer : PlayerColor)
    (position : ℕ) : Bool :=
  !isShelterPosition position && decide (1 < (track position).count currentPlayer)

def currentPlayerHasBarrier (track : ℕ → List PlayerColor) (currentPlayer : PlayerColor) : Bool :=
  (List.range' 1 52).any (currentPlayerHasBarrierAtTrack track currentPlayer)

end Barriers

section Rules

def canMoveFromLaneToPocket (diceValue pawnPosition : ℕ) : Bool := pawnPosition+diceValue == 6

def canMoveInsideLane (lane : ℕ → ℕ) (diceValue pawnPosition : ℕ) : Bool :=
  decide (pawnPosition+diceValue < 6) && decide (lane (pawnPosition+diceValue) < 2)

/-- The first square counted that is the player's last decides; past the fifth square of the lane
there is none. -/
def canMoveFromTrackToLane (lane : ℕ → ℕ) (diceValue : ℕ) (currentPlayer : PlayerColor)
    (pawnPosition : ℕ) : Bool :=
  let last := getPositionOfLastSquareOfPlayer currentPlayer
  match (List.range diceValue).find? fun j => pawnPosition+j == last with
  | none => false
  | some j =>
    if diceValue = 6 ∧ j = 0 then false
    else decide (pawnPosition+diceValue-last ≤ 5) && decide (lane (pawnPosition+diceValue-last) < 2)

def canMoveFromTrackToPocket (diceValue : ℕ) (currentPlayer : PlayerColor) (pawnPosition : ℕ) :
    Bool :=
  pawnPosition == getPositionOfLastSquareOfPlayer currentPlayer && diceValue == 6

/-- The square so many steps on, where one turn around the track is enough. -/
def destinationPos (diceValue pawnPosition : ℕ) : ℕ :=
  if 52 < pawnPosition+diceValue then pawnPosition+diceValue-52 else pawnPosition+diceValue

/-- Squares past the 52nd are not looked at for barriers. -/
def canMoveInsideTrack (track : ℕ → List PlayerColor) (diceValue : ℕ)
    (currentPlayer : PlayerColor) (pawnPosition : ℕ) : Bool :=
  let destination := destinationPos diceValue pawnPosition
  let stopped := (List.range diceValue).any fun j =>
    pawnPosition+j == getPositionOfLastSquareOfPlayer currentPlayer ||
      decide (pawnPosition+j ≤ 52) && opponentHasBarrierAt track currentPlayer (pawnPosition+j)
  !stopped && decide (destination ≤ 52) &&
    (isShelterPosition destination || decide ((track destination).length < 2))

def canMovePawnFromBarrier (track : ℕ → List PlayerColor) (diceValue : ℕ)
    (currentPlayer : PlayerColor) : Bool :=
  (List.range' 1 52).any fun position =>
    currentPlayerHasBarrierAtTrack track currentPlayer position &&
      canMoveInsideTrack track diceValue currentPlayer position

def canMoveFromYardToTrack (yard : ℤ) (diceValue : ℕ) : Bool := decide (0 < yard) && diceValue == 5

def gameFinished (pocket : ℕ) : Bool := pocket == 4

end Rules

/-- What is registered in the `ActionManager`. Every pawn and the dice have coordinates of their
own. -/
inductive Action
  | rollDice
  | yardToTrack
  | trackToTrack (fromSquare toSquare : ℕ) (shouldRemoveOpponent : Bool)
  | trackToLane (lane : PlayerColor) (fromSquare toLanePosition : ℕ)
  | trackToPocket (pocket : PlayerColor) (fromSquare : ℕ)
  | laneToLane (lane : PlayerColor) (fromLanePosition toLanePosition : ℕ)
  | laneToPocket (lane : PlayerColor) (fromLanePosition : ℕ)
  deriving DecidableEq, Repr

section Moves
variable (b : Board) (currentPlayer : PlayerColor) (diceValue : ℕ)

/-- The pawns on the track that are asked for their moves. -/
def ownSquares : List ℕ := (List.range' 1 52).filter fun position => currentPlayer ∈ b.track position

/-- The squares of the player's lane with a pawn. -/
def ownLaneSquares : List ℕ :=
  (List.range' 1 5).filter fun position => 0 < b.lanes currentPlayer position

def hasMove : Bool :=
  canMoveFromYardToTrack (b.yards currentPlayer) diceValue ||
  (ownSquares b currentPlayer).any (fun position =>
    canMoveInsideTrack b.track diceValue currentPlayer position ||
    canMoveFromTrackToLane (b.lanes currentPlayer) diceValue currentPlayer position ||
    canMoveFromTrackToPocket diceValue currentPlayer position) ||
  (ownLaneSquares b currentPlayer).any fun position =>
    canMoveFromLaneToPocket diceValue position ||
    canMoveInsideLane (b.lanes currentPlayer) diceValue position

def setPlayerTrackToTrackMoves (pawnPosition : ℕ) : Action :=
  .trackToTrack pawnPosition (destinationPos diceValue pawnPosition)
    (!isShelterPosition (destinationPos diceValue pawnPosition))

def setPlayerTrackToLaneMoves (pawnPosition : ℕ) : Action :=
  .trackToLane currentPlayer pawnPosition
    (pawnPosition+diceValue-getPositionOfLastSquareOfPlayer currentPlayer)

def setTrackMoves : List Action :=
  (ownSquares b currentPlayer).flatMap fun position =>
    (if canMoveInsideTrack b.track diceValue currentPlayer position then
      [setPlayerTrackToTrackMoves diceValue position] else []) ++
    (if canMoveFromTrackToLane (b.lanes currentPlayer) diceValue currentPlayer position then
      [setPlayerTrackToLaneMoves currentPlayer diceValue position] else []) ++
    if canMoveFromTrackToPocket diceValue currentPlayer position then
      [.trackToPocket currentPlayer position] else []

def setLaneMoves : List Action :=
  (ownLaneSquares b currentPlayer).flatMap fun position =>
    (if canMoveFromLaneToPocket diceValue position then [.laneToPocket currentPlayer position]
      else []) ++
    if canMoveInsideLane (b.lanes currentPlayer) diceValue position then
      [.laneToLane currentPlayer position (position+diceValue)] else []

/-- All barriers of the player are opened, also those with no way for the pawn. -/
def setMovePawnFromBarrierMoves : List Action :=
  ((ownSquares b currentPlayer).filter (currentPlayerHasBarrierAtTrack b.track currentPlayer)).map
    (setPlayerTrackToTrackMoves diceValue)

/-- A six is a seven for a player with no pawn in the yard. -/
def sixBecomesSeven (consecutive6 : ℕ) : ℕ :=
  if diceValue = 6 ∧ b.yards currentPlayer = 0 ∧ consecutive6 < 3 then 7 else diceValue

def setPlayerMoves (consecutive6 : ℕ) : List Action :=
  let diceValue := sixBecomesSeven b currentPlayer diceValue consecutive6
  if (diceValue = 6 ∨ diceValue = 7) ∧ currentPlayerHasBarrier b.track currentPlayer = true ∧
      canMovePawnFromBarrier b.track diceValue currentPlayer = true then
    setMovePawnFromBarrierMoves b currentPlayer diceValue
  else
    (if canMoveFromYardToTrack (b.yards currentPlayer) diceValue then [.yardToTrack] else []) ++
      setTrackMoves b currentPlayer diceValue ++ setLaneMoves b currentPlayer diceValue

end Moves

section Registered
variable {b : Board} {c : PlayerColor} {d position : ℕ} {a : Action}

theorem mem_range'_iff {n : ℕ} : position ∈ List.range' 1 n ↔ position ∈ Finset.Icc 1 n := by
  rw [List.mem_range'_1,Finset.mem_Icc]
  omega

theorem mem_ownSquares : position ∈ ownSquares b c ↔
    position ∈ Finset.Icc 1 52 ∧ c ∈ b.track position := by
  simp only [ownSquares,List.mem_filter,mem_range'_iff,decide_eq_true_eq]

theorem mem_ownLaneSquares : position ∈ ownLaneSquares b c ↔
    position ∈ Finset.Icc 1 5 ∧ 0 < b.lanes c position := by
  simp only [ownLaneSquares,List.mem_filter,mem_range'_iff,decide_eq_true_eq]

theorem mem_setTrackMoves : a ∈ setTrackMoves b c d ↔ ∃ position ∈ ownSquares b c,
    (canMoveInsideTrack b.track d c position = true ∧ a = setPlayerTrackToTrackMoves d position) ∨
    (canMoveFromTrackToLane (b.lanes c) d c position = true ∧
      a = setPlayerTrackToLaneMoves c d position) ∨
    (canMoveFromTrackToPocket d c position = true ∧ a = .trackToPocket c position) := by
  simp only [setTrackMoves,List.mem_flatMap,List.mem_append,List.mem_ite_nil_right,
    List.mem_singleton,or_assoc]

theorem mem_setLaneMoves : a ∈ setLaneMoves b c d ↔ ∃ position ∈ ownLaneSquares b c,
    (canMoveFromLaneToPocket d position = true ∧ a = .laneToPocket c position) ∨
    (canMoveInsideLane (b.lanes c) d position = true ∧
      a = .laneToLane c position (position+d)) := by
  simp only [setLaneMoves,List.mem_flatMap,List.mem_append,List.mem_ite_nil_right,
    List.mem_singleton]

theorem mem_setMovePawnFromBarrierMoves : a ∈ setMovePawnFromBarrierMoves b c d ↔
    ∃ position ∈ ownSquares b c, currentPlayerHasBarrierAtTrack b.track c position = true ∧
      a = setPlayerTrackToTrackMoves d position := by
  simp only [setMovePawnFromBarrierMoves,List.mem_map,List.mem_filter,and_assoc,
    eq_comm (a := a)]

theorem hasMove_iff : hasMove b c d = true ↔
    canMoveFromYardToTrack (b.yards c) d = true ∨
    (∃ position ∈ ownSquares b c, canMoveInsideTrack b.track d c position = true ∨
      canMoveFromTrackToLane (b.lanes c) d c position = true ∨
      canMoveFromTrackToPocket d c position = true) ∨
    ∃ position ∈ ownLaneSquares b c, canMoveFromLaneToPocket d position = true ∨
      canMoveInsideLane (b.lanes c) d position = true := by
  simp only [hasMove,Bool.or_eq_true,List.any_eq_true,or_assoc]

end Registered
end PucRio.Ludo
