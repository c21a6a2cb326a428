import PucRio.Dungeon.Map

/-! What the agent perceives in a cell and what it concludes about the cells around. -/
namespace PucRio.Dungeon

namespace Marks
variable (c : Cell) (k : Marks)

def deny : Marks :=
  { k with doesNotHave := k.doesNotHave++[c], mightHave := k.mightHave.filter (· ≠ c) }

def suspect : Marks := { k with mightHave := k.mightHave++[c] }

def confirm : Marks := { k with mightHave := k.mightHave.filter (· ≠ c), has := k.has++[c] }

end Marks

namespace State

section Perceive

def perceive (h : Hazard) (s : State) (c : Cell) : Prop :=
  ∃ n ∈ s.adjacent c, n ∈ s.hazardCell h

instance (h : Hazard) (s : State) (c : Cell) : Decidable (s.perceive h c) :=
  inferInstanceAs (Decidable (∃ n ∈ s.adjacent c, n ∈ s.hazardCell h))

abbrev perceptions_perceiveHole (s : State) (c : Cell) : Prop := s.perceive .hole c

abbrev perceptions_perceiveEnemy (s : State) (c : Cell) : Prop := s.perceive .enemy c

abbrev perceptions_perceiveTeletransport (s : State) (c : Cell) : Prop :=
  s.perceive .teletransport c

def perceptions_perceiveDanger (s : State) (c : Cell) : Prop :=
  s.perceptions_perceiveHole c ∨ s.perceptions_perceiveEnemy c ∨
    s.perceptions_perceiveTeletransport c

instance (s : State) (c : Cell) : Decidable (s.perceptions_perceiveDanger c) :=
  inferInstanceAs (Decidable (_ ∨ _ ∨ _))

end Perceive

section Update

/-- The first cell of which it is certain, since all around are walls or were visited. -/
def updateCertainty (h : Hazard) (s : State) : State :=
  ((s.hazardCell h).find? fun c => c ∈ (s.marks h).mightHave ∧
    ∀ n ∈ neighbours c, n ∈ s.wallCell ∨ n ∈ s.visited).elim s fun c => s.mark (.confirm c) h

def updateEnemyCertainties : State → State := updateCertainty .enemy

def updateTeletransportCertainties : State → State := updateCertainty .teletransport

def updateHoleCertainties : State → State := updateCertainty .hole

def updateCertainties (s : State) : State :=
  s.updateEnemyCertainties.updateTeletransportCertainties.updateHoleCertainties

def removeCurrentCellUncertainty (h : Hazard) (s : State) : State :=
  if s.cell ∈ s.hazardCell h then s else s.mark (.deny s.cell) h

def removeCurrentCellUncertainties (s : State) : State :=
  ((s.removeCurrentCellUncertainty .hole).removeCurrentCellUncertainty
    .enemy).removeCurrentCellUncertainty .teletransport

def removeAdjacentUncertainties (h : Hazard) (s : State) : State :=
  (s.adjacent s.cell).foldl (fun s c => s.mark (.deny c) h) s

def removeAdjacentHoleUncertainties : State → State := removeAdjacentUncertainties .hole

def removeAdjacentEnemyUncertainties : State → State := removeAdjacentUncertainties .enemy

def removeAdjacentTeletransportUncertainties : State → State :=
  removeAdjacentUncertainties .teletransport

def setMightHave (h : Hazard) (known : List Cell) (s : State) (c : Cell) : State :=
  if c ∉ s.visited ∧ c ∉ known ∧ c ∉ (s.marks h).doesNotHave then s.mark (.suspect c) h else s

/-- A hole that is known may still be one that might be. -/
def setMightHaveHole (s : State) : Cell → State := s.setMightHave .hole []

def setMightHaveEnemy (s : State) : Cell → State := s.setMightHave .enemy s.enemy.has

def setMightHaveTeletransport (s : State) : Cell → State :=
  s.setMightHave .teletransport s.teletransport.has

def setAdjacenciesMightHaveHole (s : State) : State :=
  (s.adjacent s.cell).foldl setMightHaveHole s

def setAdjacenciesMightHaveEnemy (s : State) : State :=
  (s.adjacent s.cell).foldl setMightHaveEnemy s

/-- Nothing is concluded on a teletransport that is known. -/
def setAdjacenciesMightHaveTeletransport (s : State) : State :=
  if s.cell ∈ s.teletransport.has then s else (s.adjacent s.cell).foldl setMightHaveTeletransport s

def perceptions_updateUncertainties (s : State) : State :=
  let s := s.removeCurrentCellUncertainties
  let s := if s.perceptions_perceiveHole s.cell then s.setAdjacenciesMightHaveHole else s
  let s := if s.perceptions_perceiveEnemy s.cell then s.setAdjacenciesMightHaveEnemy else s
  let s := if s.perceptions_perceiveTeletransport s.cell then
    s.setAdjacenciesMightHaveTeletransport else s
  let s := if ¬ s.perceptions_perceiveHole s.cell then s.removeAdjacentHoleUncertainties else s
  let s := if ¬ s.perceptions_perceiveEnemy s.cell then s.removeAdjacentEnemyUncertainties else s
  let s := if ¬ s.perceptions_perceiveTeletransport s.cell then
    s.removeAdjacentTeletransportUncertainties else s
  s.updateCertainties

end Update
end State

end PucRio.Dungeon
