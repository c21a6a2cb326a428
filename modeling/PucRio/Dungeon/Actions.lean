import PucRio.Dungeon.Perceptions
import PucRio.Lib.StoredPaths

/-! What the agent does: it turns, walks, looks for paths and shoots. The clauses for its next move
stand in their order; a clause that fails gives `none`. -/
namespace PucRio.Dungeon

namespace Orientation

def next : Orientation → Orientation
  | right => down
  | down => left
  | left => up
  | up => right

end Orientation

inductive Action
  | exit
  | gameOver
  | pickGold
  | rotate
  | walk
  | kill
  | attack
  | pickPowerup
  deriving DecidableEq, Repr

namespace State

section Turn

def agent_rotate (s : State) : State :=
  { s with orientation := s.orientation.next, curCost := s.curCost-1 }

/-- The cell in front of the agent. -/
def agent_willWalkTo (s : State) : Cell :=
  match s.orientation with
  | .up => (s.cell.1,s.cell.2-1)
  | .right => (s.cell.1+1,s.cell.2)
  | .down => (s.cell.1,s.cell.2+1)
  | .left => (s.cell.1-1,s.cell.2)

end Turn

section Path

def harmless (s : State) (c : Cell) : Prop :=
  c ∉ s.enemy.mightHave ∧ c ∉ s.teletransport.mightHave ∧ c ∉ s.teletransport.has ∧
    c ∉ s.enemy.has

instance (s : State) (c : Cell) : Decidable (s.harmless c) :=
  inferInstanceAs (Decidable (_ ∧ _ ∧ _ ∧ _))

/-- The cells to which there is a `path`, of weight 1. -/
def path (s : State) (c : Cell) : List Cell :=
  if c ∈ s.visited then
    s.visited.filter fun n => n ∈ s.adjacent c ∧
      (s.allowDanger = true ∨ s.harmless n ∧ s.harmless c)
  else []

/-- It succeeds also where there is no route, and then no path is kept. -/
def go (s : State) (origin target : Cell) : State :=
  (StoredPaths.stored (StoredPaths.traverse s.path (s.visited.length+1) origin [] 0 [])
    target).elim s fun e => { s with curPath := s.curPath++[e.1.reverse.tail] }

def openSafe (s : State) : Option Cell :=
  s.visited.find? fun c => ¬ s.perceptions_perceiveDanger c ∧ c ∉ s.enemy.has ∧
    c ∉ s.teletransport.has ∧ ∃ n ∈ s.adjacent c, n ∉ s.visited

def path_setPathToOpenSafeAction (s : State) : Option State :=
  s.openSafe.map fun c => s.go s.cell c

/-- The first visited cell beside one of the cells where the agent is not. -/
def beside (l : List Cell) (s : State) : Option Cell :=
  (l.flatMap s.adjacent).find? fun c => c ∈ s.visited ∧ c ≠ s.cell

def path_setPathToFightAction (s : State) : Option State :=
  (s.beside s.enemy.has).map fun c => s.go s.cell c

def path_setPathToRiskEnemyAction (s : State) : Option State :=
  (s.beside s.enemy.mightHave).map fun c => s.go s.cell c

def path_setPathToHoleRisk (s : State) : Option State :=
  (s.beside s.hole.mightHave).map fun c => s.go s.cell c

def powerup (s : State) : Option Cell :=
  s.powerupCell.find? fun c => c ∈ s.visited ∧ c ≠ s.cell

def path_setPathToPowerupAction (s : State) : Option State :=
  s.powerup.map fun c => s.go s.cell c

def path_setPathToNearestVisited (s : State) : Option State :=
  ((s.adjacent s.cell).find? fun c => c ∈ s.visited).map fun c => s.go s.cell c

def path_setPathToExit (s : State) : State := s.go s.cell s.startPoint

end Path

section Walk

def fallIntoHole (s : State) : State :=
  if s.cell ∈ s.holeCell then
    { s with
      hole := { s.hole with has := s.hole.has++[s.cell] }
      curCost := s.curCost-1000
      curEnergy := 0 }
  else s

def meetEnemy (s : State) (e : Enemy) : State :=
  let s := ({ s with curEnergy := s.curEnergy-e.damage }).mark (.confirm s.cell) .enemy
  { s.perceptions_updateUncertainties with allowDanger := true }

/-- One enemy after the other until there is a cell to run away to. -/
def meetEnemies : List Enemy → State → State
  | [],s => s
  | e::es,s => (s.meetEnemy e).path_setPathToNearestVisited.elim (meetEnemies es (s.meetEnemy e))
      fun s => { s with allowDanger := false }

def enter (s : State) (c : Cell) : State :=
  { s with
    cell := c
    visited := if c ∈ s.visited then s.visited else s.visited++[c]
    curCost := s.curCost-1 }

def agent_walkTo (s : State) (c : Cell) : Option State :=
  if s.isWalkable c then
    let s := (s.enter c).perceptions_updateUncertainties.fallIntoHole
    some (meetEnemies (s.enemyCell.filter fun e => e.cell = c) s)
  else none

end Walk

section Shoot

/-- What a shot at an enemy does. -/
def hit (s : State) (damage : ℤ) (e : Enemy) : Action × State :=
  let others := s.enemyCell.filter fun e' => e'.cell ≠ e.cell
  if e.energy-damage < 1 then
    (.kill,{ s with
      enemyCell := others
      floorCell := s.floorCell++[e.cell]
      enemy := { s.enemy with has := s.enemy.has.filter (· ≠ e.cell) } })
  else (.attack,{ s with enemyCell := others++[{ e with energy := e.energy-damage }] })

/-- At the first enemy beside the agent that is known, wherever the agent looks. -/
def attack_shoot (damage : ℤ) (s : State) : Option (Action × State) :=
  (((s.adjacent s.cell).filter (· ∈ s.enemy.has)).findSome? fun c =>
    s.enemyCell.find? fun e => e.cell = c).map fun e =>
      let r := s.hit damage e
      (r.1,{ r.2 with curCost := r.2.curCost-10, curAmmo := r.2.curAmmo-1 })

end Shoot
end State

/-- What a clause that succeeds does: it gives an action, or it asks for the next move again, after an
empty path was dropped or with the goal that a path be kept. -/
inductive Choice
  | act (a : Action) (s : State)
  | retry (s : State)
  | follow (s : State)
  deriving DecidableEq, Repr

namespace State

section Clauses

def getNextMove_exit (s : State) : Option Choice :=
  if s.cell = s.startPoint ∧ s.exiting = true then some (.act .exit s) else none

def getNextMove_gameOver (s : State) : Option Choice :=
  if s.curEnergy < 1 then some (.act .gameOver s) else none

def getNextMove_pickGold (s : State) : Option Choice :=
  if s.cell ∈ s.goldCell then
    some (.act .pickGold { s with
      goldCell := s.goldCell.erase s.cell
      floorCell := s.floorCell++[s.cell]
      curCost := s.curCost+1000 })
  else none

def getNextMove_dropPath (s : State) : Option Choice :=
  if [] ∈ s.curPath then some (.retry { s with curPath := s.curPath.erase [] }) else none

/-- Some path begins with a cell that is not in front of the agent. -/
def getNextMove_turnToPath (s : State) : Option Choice :=
  if ∃ p ∈ s.curPath, p ≠ [] ∧ p.head? ≠ some s.agent_willWalkTo then
    some (.act .rotate s.agent_rotate)
  else none

/-- The paths are tried one after the other; the last one that was is kept. -/
def walkAlong (s : State) : List (List Cell) → Except State State
  | [] => .error s
  | p::ps =>
    if p.head? = some s.agent_willWalkTo then
      (({ s with curPath := [p.tail] } : State).agent_walkTo s.agent_willWalkTo).elim
        (walkAlong { s with curPath := [p.tail] } ps) .ok
    else walkAlong s ps

def getNextMove_turnFromWall (s : State) : Option Choice :=
  if ¬ s.isWalkable s.agent_willWalkTo then some (.act .rotate s.agent_rotate) else none

/-- `agent_walkTo` the cell in front -/
def walkAhead (s : State) : Option Choice :=
  (s.agent_walkTo s.agent_willWalkTo).map (.act .walk)

/-- No danger around: go where the agent has not been. -/
def getNextMove_explore (s : State) : Option Choice :=
  (if s.isWalkable s.agent_willWalkTo ∧ ¬ s.perceptions_perceiveDanger s.cell ∧
      s.agent_willWalkTo ∉ s.visited then s.walkAhead else none) <|>
  (if ∃ n ∈ s.adjacent s.cell, ¬ s.perceptions_perceiveDanger s.cell ∧ n ∉ s.visited ∧
      n ≠ s.agent_willWalkTo then some (.act .rotate s.agent_rotate) else none) <|>
  s.path_setPathToOpenSafeAction.map .follow

def getNextMove_fight (damage : ℤ) (s : State) : Option Choice :=
  (if 0 < s.curAmmo ∧ (∃ n ∈ s.adjacent s.cell, n ∈ s.enemy.has ∧ n = s.agent_willWalkTo) ∧
      50 < s.curEnergy then (s.attack_shoot damage).map fun r => .act r.1 r.2 else none) <|>
  (if 0 < s.curAmmo ∧ (∃ n ∈ s.adjacent s.cell, n ∈ s.enemy.has ∧ n ≠ s.agent_willWalkTo) ∧
      50 < s.curEnergy then some (.act .rotate s.agent_rotate) else none) <|>
  (if 0 < s.curAmmo ∧ 50 < s.curEnergy then s.path_setPathToFightAction.map .follow else none)

def getNextMove_riskEnemy (s : State) : Option Choice :=
  (if 50 < s.curEnergy ∧ s.agent_willWalkTo ∈ s.enemy.mightHave then s.walkAhead else none) <|>
  (if 50 < s.curEnergy ∧ (∃ n ∈ s.adjacent s.cell, n ∈ s.enemy.mightHave ∧
      n ≠ s.agent_willWalkTo) then some (.act .rotate s.agent_rotate) else none) <|>
  (if 50 < s.curEnergy then s.path_setPathToRiskEnemyAction.map .follow else none)

def getNextMove_powerup (s : State) : Option Choice :=
  (if s.curEnergy < 51 ∧ s.cell ∈ s.powerupCell then
    some (.act .pickPowerup { s with
      powerupCell := s.powerupCell.erase s.cell
      floorCell := s.floorCell++[s.cell]
      curCost := s.curCost-1
      curEnergy := s.curEnergy+50 })
  else none) <|>
  (if s.curEnergy < 51 then s.path_setPathToPowerupAction.map .follow else none)

def getNextMove_riskHole (s : State) : Option Choice :=
  (if s.curCost < 1 ∧ s.agent_willWalkTo ∈ s.hole.mightHave then s.walkAhead else none) <|>
  (if s.curCost < 1 ∧ (∃ n ∈ s.adjacent s.cell, n ∈ s.hole.mightHave ∧
      n ≠ s.agent_willWalkTo) then some (.act .rotate s.agent_rotate) else none) <|>
  (if s.curCost < 1 then s.path_setPathToHoleRisk.map .follow else none)

/-- The last clause never fails. -/
def getNextMove_leave (s : State) : Choice :=
  .follow ({ s with exiting := true } : State).path_setPathToExit

end Clauses

/-- The clauses after those for paths. -/
def chooseFree (damage : ℤ) (s : State) : Choice :=
  (s.getNextMove_turnFromWall <|> s.getNextMove_explore <|> s.getNextMove_fight damage <|>
    s.getNextMove_riskEnemy <|> s.getNextMove_powerup <|> s.getNextMove_riskHole).getD
    s.getNextMove_leave

/-- The clauses from the walk along a path on. -/
def walked (damage : ℤ) : Except State State → Choice
  | .ok s => .act .walk s
  | .error s => s.chooseFree damage

/-- The first clause that succeeds. -/
def choose (damage : ℤ) (s : State) : Choice :=
  (s.getNextMove_exit <|> s.getNextMove_gameOver <|> s.getNextMove_pickGold <|>
    s.getNextMove_dropPath <|> s.getNextMove_turnToPath).getD
    (walked damage (s.walkAlong s.curPath))

/-- `damage` is what a shot does; the clauses call each other at most `n` times. -/
def getNextMove (damage : ℤ) : ℕ → State → Option (Action × State)
  | 0,_ => none
  | n+1,s =>
    match s.choose damage with
    | .act a t => some (a,t)
    | .retry t => getNextMove damage n t
    | .follow t => getNextMove damage n t

end State

end PucRio.Dungeon
