import PucRio.Ludo.GameControl

/-! Saved games as their lines, and all that can happen to a game. A file from which Java would keep a
`null` is refused. -/
namespace PucRio.Ludo

/-- A line of a saved game with its numbers read. -/
inductive Line
  | curPlayer (color : ℕ)
  | curAction (action : CurrentAction)
  | curDice (value : ℕ)
  | consecutive6 (count : ℕ)
  | trackPosition (position color count : ℕ)
  | yardColor (color : ℕ) (count : ℤ)
  | pocketColor (color count : ℕ)
  | lanePosition (position color count : ℕ)
  deriving DecidableEq, Repr

/-- What is read of the line after a `YARD` line, whatever line it is: the first number as a colour
and the last as a count. -/
def Line.asPocket : Line → Option (ℕ × ℕ)
  | .pocketColor color count => some (color,count)
  | .yardColor color count => some (color,count.toNat)
  | .trackPosition position _ count => some (position,count)
  | .lanePosition position _ count => some (position,count)
  | _ => none

/-- The yards and pockets are those that the file has brought so far. -/
structure Loading where
  track : ℕ → List PlayerColor := fun _ => []
  lanes : PlayerColor → ℕ → ℕ := fun _ _ => 0
  yards : PlayerColor → Option ℤ := fun _ => none
  pockets : PlayerColor → Option ℕ := fun _ => none

namespace Loading

/-- The `TRACK` lines; the file goes on after them. -/
def readTrack (l : Loading) : List Line → Option (Loading × List Line)
  | .trackPosition position color count::lines =>
    if count = 0 then l.readTrack lines
    else if 1 ≤ position ∧ position ≤ 52 then
      (PlayerColor.get color).bind fun c => readTrack { l with
        track := Function.update l.track position (l.track position ++ List.replicate count c) } lines
    else none
  | [] => none
  | lines => some (l,lines)

/-- The `YARD` and `POCKET` lines and the `LANE` lines under them. A yard starts with its four pawns
and loses those that it lacks. -/
def readYards (l : Loading) (inside : Bool) : List Line → Option Loading
  | .yardColor yardColor yardCount::line::lines =>
    (PlayerColor.get yardColor).bind fun y => line.asPocket.bind fun pocket =>
      (PlayerColor.get pocket.1).bind fun p => readYards { l with
        yards := Function.update l.yards y (some (4-(4-yardCount).toNat))
        pockets := Function.update l.pockets p (some pocket.2) } true lines
  | .yardColor _ _::_ => none
  | .lanePosition position color count::lines =>
    if inside = false then some l
    else if count = 0 then l.readYards inside lines
    else if 1 ≤ position ∧ position ≤ 5 then
      (PlayerColor.get color).bind fun c => readYards { l with
        lanes := Function.update l.lanes c (Function.update (l.lanes c) position
          (l.lanes c position+count)) } inside lines
    else none
  | _ => some l

/-- Every colour must have got its yard and its pocket. -/
def board (l : Loading) (currentPlayer : PlayerColor) (currentAction : CurrentAction) :
    Option Board :=
  let all : List PlayerColor := [.RED,.GREEN,.YELLOW,.BLUE]
  if all.all fun c => (l.yards c).isSome && (l.pockets c).isSome then
    some ⟨l.track,l.lanes,fun c => (l.yards c).getD 0,fun c => (l.pockets c).getD 0,currentPlayer,
      currentAction⟩
  else none

end Loading

/-- The board, the dice's value and the count of sixes. -/
def loadFromFile : List Line → Option (Board × ℕ × ℕ)
  | .curPlayer player::.curAction action::.curDice value::.consecutive6 count::lines => do
    let currentPlayer ← PlayerColor.get player
    let (l,lines) ← Loading.readTrack {} lines
    let l ← l.readYards false lines
    let board ← l.board currentPlayer action
    some (board,value,count)
  | _ => none

/-- A click on the registered action number `i`, with what the dice show if it rolls them, or one of
the buttons. -/
inductive Event
  | click (i roll : ℕ)
  | newGame
  | save
  | load (file : List Line)
  deriving DecidableEq, Repr

namespace Game

/-- Saving changes nothing, and a file that is refused is not loaded. -/
def step (g : Game) : Event → Option Game
  | .click i roll =>
    if 1 ≤ roll ∧ roll ≤ 6 then (g.actions[i]?).map fun a => g.executeAction a roll else none
  | .newGame => some g.startGame
  | .save => some g
  | .load file => (loadFromFile file).map fun (board,value,count) => g.loadMap board value count

end Game

/-- A game from the start of the program. -/
def ludo : TransitionSystem Game Event where
  init := Game.startGame ⟨.new,1,0,0,none,[]⟩
  step := Game.step

end PucRio.Ludo
