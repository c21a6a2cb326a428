import Mathlib.Data.List.Basic
import Mathlib.Algebra.Order.Ring.Int

/-! The map of the dungeon as facts, in the order in which they are written, and what the agent keeps.
Facts of which there is always one are values; a goal that is only tested is a proposition. -/
namespace PucRio.Dungeon

/-- Column and row. -/
abbrev Cell := ℤ × ℤ

scoped instance : DecidableEq Cell := instDecidableEqProd

scoped instance (c : Cell) (l : List Cell) : Decidable (c ∈ l) :=
  @List.instDecidableMemOfLawfulBEq Cell instBEqOfDecidableEq instLawfulBEq c l

inductive Cells
  | START
  | WALL
  | HOLE
  | POWERUP
  | FLOOR
  | FLOORVISITED
  | TELETRANSPORT
  | GOLD
  | ENEMY20
  | ENEMY50
  deriving DecidableEq, Repr

structure GameMap where
  nRows : ℕ
  nColumns : ℕ
  value : ℕ → ℕ → Cells

structure Enemy where
  damage : ℤ
  energy : ℤ
  cell : Cell
  deriving DecidableEq, Repr

inductive Hazard
  | hole
  | enemy
  | teletransport
  deriving DecidableEq, Repr

structure Facts where
  startPoint : Cell
  wallCell : List Cell
  floorCell : List Cell
  enemyCell : List Enemy
  goldCell : List Cell
  powerupCell : List Cell
  holeCell : List Cell
  teletransportCell : List Cell
  deriving DecidableEq, Repr

namespace Facts

def hazardCell (f : Facts) : Hazard → List Cell
  | .hole => f.holeCell
  | .enemy => f.enemyCell.map Enemy.cell
  | .teletransport => f.teletransportCell

def isWalkable (f : Facts) (c : Cell) : Prop :=
  c = f.startPoint ∨ c ∈ f.floorCell ∨ c ∈ f.hazardCell .enemy ∨ c ∈ f.goldCell ∨
    c ∈ f.powerupCell ∨ c ∈ f.hazardCell .hole ∨ c ∈ f.hazardCell .teletransport

instance (f : Facts) (c : Cell) : Decidable (f.isWalkable c) :=
  inferInstanceAs (Decidable (_ ∨ _ ∨ _ ∨ _ ∨ _ ∨ _ ∨ _))

end Facts

def neighbours (c : Cell) : List Cell := [(c.1+1,c.2),(c.1-1,c.2),(c.1,c.2+1),(c.1,c.2-1)]

/-- The solutions of `adjacent`, in their order. -/
def Facts.adjacent (f : Facts) (c : Cell) : List Cell := (neighbours c).filter (f.isWalkable ·)

inductive Orientation
  | up
  | right
  | down
  | left
  deriving DecidableEq, Repr

/-- What is held of the cells for one kind of hazard. -/
structure Marks where
  doesNotHave : List Cell
  mightHave : List Cell
  has : List Cell
  deriving DecidableEq, Repr

structure State extends Facts where
  curEnergy : ℤ
  curCost : ℤ
  curAmmo : ℤ
  cell : Cell
  orientation : Orientation
  visited : List Cell
  exiting : Bool
  curPath : List (List Cell)
  allowDanger : Bool
  hole : Marks
  enemy : Marks
  teletransport : Marks
  deriving DecidableEq, Repr

def agent_reset (f : Facts) : State where
  toFacts := f
  curEnergy := 100
  curCost := 0
  curAmmo := 5
  cell := f.startPoint
  orientation := .up
  visited := [f.startPoint]
  exiting := false
  curPath := []
  allowDanger := false
  hole := ⟨[],[],[]⟩
  enemy := ⟨[],[],[]⟩
  teletransport := ⟨[],[],[]⟩

namespace GameMap

/-- The map of so many rows, all as long as the first. -/
def ofRows (rows : List (List Cells)) : GameMap where
  nRows := rows.length
  nColumns := (rows.headD []).length
  value i j := (rows.getD i []).getD j .WALL

def places (m : GameMap) : List (Cell × Cells) :=
  (List.range m.nRows).flatMap fun i : ℕ =>
    (List.range m.nColumns).map fun j : ℕ => (((j : ℤ),(i : ℤ)),m.value i j)

/-- The cells with one of some values, row by row. -/
def having (m : GameMap) (l : List Cells) : List Cell :=
  (m.places.filter fun p => p.2 ∈ l).map Prod.fst

def enemies (m : GameMap) : List Enemy :=
  m.places.filterMap fun p =>
    if p.2 = .ENEMY20 then some ⟨20,100,p.1⟩ else
    if p.2 = .ENEMY50 then some ⟨50,100,p.1⟩ else none

/-- Of several start cells the last one is written. -/
def facts (m : GameMap) : Option Facts :=
  (m.having [.START]).getLast?.map fun start =>
    { startPoint := start
      wallCell := m.having [.WALL]
      floorCell := m.having [.START,.FLOOR,.FLOORVISITED]
      enemyCell := m.enemies
      goldCell := m.having [.GOLD]
      powerupCell := m.having [.POWERUP]
      holeCell := m.having [.HOLE]
      teletransportCell := m.having [.TELETRANSPORT] }

/-- Without a start cell the agent cannot be reset. -/
def resetGame (m : GameMap) : Option State := m.facts.map agent_reset

end GameMap

namespace State

def marks (s : State) : Hazard → Marks
  | .hole => s.hole
  | .enemy => s.enemy
  | .teletransport => s.teletransport

def mark (s : State) (f : Marks → Marks) : Hazard → State
  | .hole => { s with hole := f s.hole }
  | .enemy => { s with enemy := f s.enemy }
  | .teletransport => { s with teletransport := f s.teletransport }

section Mark
variable {s : State} {f : Marks → Marks} {h h' : Hazard}

@[simp] theorem marks_mark : (s.mark f h).marks h = f (s.marks h) := by cases h <;> rfl

theorem marks_mark_of_ne (hne : h' ≠ h) : (s.mark f h).marks h' = s.marks h' := by
  cases h <;> cases h' <;> first | rfl | exact absurd rfl hne

@[simp] theorem toFacts_mark : (s.mark f h).toFacts = s.toFacts := by cases h <;> rfl

@[simp] theorem visited_mark : (s.mark f h).visited = s.visited := by cases h <;> rfl

@[simp] theorem cell_mark : (s.mark f h).cell = s.cell := by cases h <;> rfl

end Mark
end State

end PucRio.Dungeon
