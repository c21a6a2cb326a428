import Mathlib.Data.Rat.Defs
import PucRio.Lib.Predecessors
import PucRio.Lib.TransitionSystem
import PucRio.Pathfinding.AttackStrategy

/-! The way over the map. Which node the queue gives, and how costs are added and compared, is left
open. -/
namespace PucRio.Pathfinding
open PucRio.Predecessors

/-- The types of tiles. -/
inductive Cells
  | MOUNTAIN
  | PLAIN
  | ROCK
  | ENEMYAA
  | ENEMYBASE
  | START
  | END
  deriving DecidableEq, Repr

namespace Cells

def asChar : Cells → Char
  | MOUNTAIN => 'M'
  | PLAIN => '.'
  | ROCK => 'R'
  | ENEMYAA => 'C'
  | ENEMYBASE => 'z'
  | START => 'I'
  | END => 'F'

def getCost : Cells → ℤ
  | MOUNTAIN => 200
  | PLAIN => 1
  | ROCK => 5
  | ENEMYAA => 50
  | ENEMYBASE => -1
  | START => 0
  | END => 0

end Cells

/-- The orders of the bases, by their tiles. -/
def enemyBases (tileType : Char) : Option ℕ :=
  (['0', '1', '2', '3', '4', '5', '6', '7', '8', '9', 'A'].idxOf? tileType).map (·+1)

structure WarPlaneInfo where
  name : String
  firepower : ℚ
  energy : ℤ
  deriving DecidableEq

def WarPlaneInfo.decrementEnergy (x : WarPlaneInfo) : WarPlaneInfo := { x with energy := x.energy-1 }

/-- A cell of the map, its type (`none`: an unknown tile) and what is left of the planes there. -/
structure Node where
  X : ℕ
  Y : ℕ
  CellType : Option Cells
  enemyBaseOrder : Option ℕ := none
  warplaneInfo_Estate : List WarPlaneInfo := []
  deriving DecidableEq

namespace Node

/-- What `equals` and `hashCode` look at. -/
def pos (n : Node) : ℕ × ℕ := (n.X,n.Y)

def setEstate (n : Node) (warplaneInfo : List WarPlaneInfo) : Node :=
  { n with warplaneInfo_Estate := warplaneInfo.map fun x => ⟨x.name,x.firepower,x.energy⟩ }

end Node

/-- Rows of tiles, none shorter than the first. -/
structure GameMap where
  mapData : List (List Char)
  nonempty : mapData ≠ []
  wide : ∀ row ∈ mapData, (mapData.headD []).length ≤ row.length

namespace GameMap

def nRows (map : GameMap) : ℕ := map.mapData.length

def nColumns (map : GameMap) : ℕ := (map.mapData.headD []).length

/-- The tile in a row and a column, both from zero on. -/
def tile (map : GameMap) (i j : ℕ) : Option Char := (map.mapData[i]?).bind (·[j]?)

/-- The last cell with a tile, as column and row from one on; (0,0) if there is none. -/
def last (map : GameMap) (tileType : Char) : ℕ × ℕ :=
  ((List.range map.nRows).flatMap fun i => (List.range map.nColumns).map fun j => (i,j)).foldl
    (fun at' p => if map.tile p.1 p.2 = some tileType then (p.2+1,p.1+1) else at') (0,0)

/-- `none`: an index is not one of the array; `some none`: null. -/
def getValue (map : GameMap) (row column : ℕ) : Option (Option Node) :=
  if map.nRows < row ∨ map.nColumns < column then some none
  else if row = 0 ∨ column = 0 then none
  else (map.tile (row-1) (column-1)).map fun tileType => some <|
    if tileType = Cells.MOUNTAIN.asChar then ⟨column,row,some .MOUNTAIN,none,[]⟩
    else if tileType = Cells.PLAIN.asChar then ⟨column,row,some .PLAIN,none,[]⟩
    else if tileType = Cells.ROCK.asChar then ⟨column,row,some .ROCK,none,[]⟩
    else if tileType = Cells.ENEMYAA.asChar then ⟨column,row,some .ENEMYAA,none,[]⟩
    else if (enemyBases tileType).isSome then
      ⟨column,row,some .ENEMYBASE,enemyBases tileType,[]⟩
    else if tileType = Cells.START.asChar then ⟨column,row,some .START,none,[]⟩
    else if tileType = Cells.END.asChar then ⟨column,row,some .END,none,[]⟩
    else ⟨column,row,none,none,[]⟩

/-- North, south, west and east, as far as they are in the map. -/
def getNeighbors (map : GameMap) (row column : ℕ) : Option (List (Option Node)) :=
  [(decide (row > 1),row-1,column),(decide (row+1 ≤ map.nRows),row+1,column),
    (decide (column > 1),row,column-1),(decide (column+1 ≤ map.nColumns),row,column+1)].mapM
    fun p => if p.1 then map.getValue p.2.1 p.2.2 else some none

end GameMap

/-- How costs are added and compared, those of the types, and those of the attacks. -/
structure Costs (R : Type) where
  zero : R
  add : R → R → R
  less : R → R → Bool
  ofInt : ℤ → R
  attack : ℕ → R

/-- The nodes of a path and its score. -/
structure Path (R : Type) where
  nodes : List Node
  score : R

/-- Nodes are kept by their coordinates in `visited`, `pathMap` and `gScore`. -/
structure Search (R : Type) where
  visited : List Node
  queue : List Node
  pathMap : ℕ × ℕ → Option Node
  gScore : ℕ × ℕ → Option R
  path : Option (Path R)

section Search
variable {R : Type} (costs : Costs R) (strategy : Strategy) (map : GameMap)

def getTraversalCost (toNode : Node) : Option R :=
  if toNode.CellType = some .ENEMYBASE then
    toNode.enemyBaseOrder.bind fun order => (bases costs.attack strategy order).map (·.cost)
  else toNode.CellType.map fun type => costs.ofInt type.getCost

/-- The plane with this number loses energy. -/
def attackWith (planes : List WarPlaneInfo) (x : ℕ) : Option (List WarPlaneInfo) :=
  (planes[x]?).map fun plane => planes.set x plane.decrementEnergy

/-- A neighbour takes over the planes, which attack if it is a base. -/
def reach (curNode neighbor : Node) : Option Node :=
  let reached := neighbor.setEstate curNode.warplaneInfo_Estate
  if neighbor.CellType = some .ENEMYBASE then
    neighbor.enemyBaseOrder.bind fun order => (bases costs.attack strategy order).bind fun attack =>
      (attack.warplanes.foldlM attackWith reached.warplaneInfo_Estate).map fun planes =>
        { reached with warplaneInfo_Estate := planes }
  else some reached

/-- One neighbour of the node that was taken from the queue. -/
def relax (curNode : Node) (s : Search R) (neighbor : Option Node) : Option (Search R) :=
  neighbor.elim (some s) fun neighbor =>
    if ∃ u ∈ s.visited, u.pos = neighbor.pos then some s
    else (s.gScore curNode.pos).bind fun g => (getTraversalCost costs strategy neighbor).bind fun cost =>
      let g_x := costs.add g cost
      let better := if ∃ u ∈ s.queue, u.pos = neighbor.pos then
        (s.gScore neighbor.pos).map fun gScore => costs.less g_x gScore
      else some true
      better.bind fun better =>
        if better then (reach costs strategy curNode neighbor).map fun reached =>
          { s with
            gScore := Function.update s.gScore neighbor.pos (some g_x)
            queue := s.queue.eraseP (fun u => neighbor.pos = u.pos)++[reached]
            pathMap := Function.update s.pathMap neighbor.pos (some curNode) }
        else some s

/-- Take the node number `i` from the queue. -/
def Search.poll (s : Search R) (i : ℕ) : Option (Search R) :=
  if s.path.isSome then none
  else (s.queue[i]?).bind fun curNode =>
    if curNode.pos = map.last Cells.END.asChar then
      (s.gScore curNode.pos).bind fun score =>
        (walkBack Node.pos s.pathMap (s.visited.length+1) curNode []).map fun route =>
          { s with queue := s.queue.eraseIdx i, path := some ⟨route,score⟩ }
    else (map.getNeighbors curNode.Y curNode.X).bind fun neighbors =>
      neighbors.foldlM (relax costs strategy curNode)
        { s with visited := s.visited++[curNode], queue := s.queue.eraseIdx i }

def startNode (warPlaneList : List WarPlaneInfo) : Node :=
  let start := map.last Cells.START.asChar
  Node.setEstate ⟨start.1,start.2,some .START,none,[]⟩ warPlaneList

/-- The search with a plan, over all orders in which the queue may give its nodes. -/
def findPath (warPlaneList : List WarPlaneInfo) : TransitionSystem (Search R) ℕ where
  init :=
    let start := startNode map warPlaneList
    ⟨[],[start],fun _ => none,Function.update (fun _ => none) start.pos (some costs.zero),none⟩
  step := Search.poll costs strategy map

end Search

end PucRio.Pathfinding
