import Mathlib.Algebra.BigOperators.Group.Finset.Basic
import Mathlib.Algebra.Order.Ring.Int
import Mathlib.Data.List.Count
import Mathlib.Order.Interval.Finset.Nat

/-! The board: where the pawns are, how they are put down and taken up, and what is special about
some squares of the track. A pawn is its colour. -/
namespace PucRio.Ludo

inductive PlayerColor
  | RED
  | GREEN
  | YELLOW
  | BLUE
  deriving DecidableEq, Repr

/-- What the current player is to do. -/
inductive CurrentAction
  | ROLLDICE
  | SELECTPAWN
  | SELECTPAWNBONUS10
  | SELECTPAWNBONUS20
  | GAMEENDED
  deriving DecidableEq, Repr

inductive SquareType
  | YARDSQUARE
  | TRACKSQUARE
  | LANESQUARE
  | POCKETSQUARE
  deriving DecidableEq, Repr

namespace PlayerColor

def asInt : PlayerColor → ℕ
  | RED => 1
  | GREEN => 2
  | YELLOW => 3
  | BLUE => 4

def get : ℕ → Option PlayerColor
  | 1 => some RED
  | 2 => some GREEN
  | 3 => some YELLOW
  | 4 => some BLUE
  | _ => none

/-- The order of play, as `Board.nextPlayer` has it. -/
def next : PlayerColor → PlayerColor
  | GREEN => YELLOW
  | YELLOW => BLUE
  | BLUE => RED
  | RED => GREEN

end PlayerColor

section Positions

def getPositionOfLastSquareOfPlayer : PlayerColor → ℕ
  | .BLUE => 33
  | .GREEN => 7
  | .RED => 46
  | .YELLOW => 20

def getInitialSquarePosition : PlayerColor → ℕ
  | .BLUE => 35
  | .GREEN => 9
  | .RED => 48
  | .YELLOW => 22

def isInitialSquarePosition : ℕ → Option PlayerColor
  | 35 => some .BLUE
  | 9 => some .GREEN
  | 48 => some .RED
  | 22 => some .YELLOW
  | _ => none

def isShelterPosition (position : ℕ) : Bool :=
  (isInitialSquarePosition position).isSome || position == 5 || position == 18 ||
    position == 31 || position == 44

end Positions

/-- Squares count from one: 52 on the track, and 5 in each lane, where all pawns are of the lane's
colour. -/
structure Board where
  track : ℕ → List PlayerColor
  lanes : PlayerColor → ℕ → ℕ
  yards : PlayerColor → ℤ
  pockets : PlayerColor → ℕ
  currentPlayer : PlayerColor
  currentAction : CurrentAction

namespace Board

def addToTrack (b : Board) (position : ℕ) (c : PlayerColor) : Board :=
  { b with track := Function.update b.track position (b.track position ++ [c]) }

/-- The first pawn of the colour is taken up. -/
def removeFromTrack (b : Board) (position : ℕ) (c : PlayerColor) : Board :=
  { b with track := Function.update b.track position ((b.track position).erase c) }

def addToLane (b : Board) (c : PlayerColor) (position : ℕ) : Board :=
  { b with
    lanes := Function.update b.lanes c (Function.update (b.lanes c) position
      (b.lanes c position+1)) }

def removeFromLane (b : Board) (c : PlayerColor) (position : ℕ) : Board :=
  { b with
    lanes := Function.update b.lanes c (Function.update (b.lanes c) position
      (b.lanes c position-1)) }

def addToYard (b : Board) (c : PlayerColor) : Board :=
  { b with yards := Function.update b.yards c (b.yards c+1) }

def removeFromYard (b : Board) (c : PlayerColor) : Board :=
  { b with yards := Function.update b.yards c (b.yards c-1) }

def addToPocket (b : Board) (c : PlayerColor) : Board :=
  { b with pockets := Function.update b.pockets c (b.pockets c+1) }

/-- A new board, as `resetBoard` leaves it. -/
def new : Board where
  track _ := []
  lanes _ _ := 0
  yards _ := 4
  pockets _ := 0
  currentPlayer := .GREEN
  currentAction := .ROLLDICE

/-- The pawns of a colour in its yard, on the track, in its lane and in its pocket. -/
def pawns (b : Board) (c : PlayerColor) : ℤ :=
  b.yards c+∑ p ∈ Finset.Icc 1 52, ((b.track p).count c : ℤ)+
    ∑ k ∈ Finset.Icc 1 5, (b.lanes c k : ℤ)+b.pockets c

section Pawns
variable (b : Board) (c d : PlayerColor) {p k : ℕ}

/-- A sum in which one term has been replaced. -/
theorem sum_update {ι α : Type*} [DecidableEq ι] {s : Finset ι} {i : ι} (hi : i ∈ s) (f : α → ℤ)
    (g : ι → α) (a : α) :
    ∑ x ∈ s, f (Function.update g i a x) = ∑ x ∈ s, f (g x)+(f a-f (g i)) := by
  rw [← Finset.add_sum_erase s _ hi,← Finset.add_sum_erase s (fun x => f (g x)) hi]
  have hrest : ∑ x ∈ s.erase i, f (Function.update g i a x) = ∑ x ∈ s.erase i, f (g x) :=
    Finset.sum_congr rfl fun x hx => by rw [Function.update_of_ne (Finset.ne_of_mem_erase hx)]
  rw [hrest,Function.update_self]
  omega

theorem pawns_addToTrack (hp : p ∈ Finset.Icc 1 52) :
    (b.addToTrack p c).pawns d = b.pawns d+if c = d then 1 else 0 := by
  have := sum_update hp (fun l : List PlayerColor => (l.count d : ℤ)) b.track (b.track p ++ [c])
  simp only [pawns,addToTrack]
  rw [this]
  by_cases h : c = d
  · simp [h]
    omega
  · simp [h]

theorem pawns_removeFromTrack (hp : p ∈ Finset.Icc 1 52) (hc : c ∈ b.track p) :
    (b.removeFromTrack p c).pawns d = b.pawns d-if c = d then 1 else 0 := by
  have := sum_update hp (fun l : List PlayerColor => (l.count d : ℤ)) b.track ((b.track p).erase c)
  simp only [pawns,removeFromTrack]
  rw [this]
  by_cases h : c = d
  · subst h
    have hpos := List.count_pos_iff.mpr hc
    rw [List.count_erase_self,if_pos rfl]
    omega
  · rw [List.count_erase_of_ne (Ne.symm h),if_neg h]
    omega

theorem pawns_addToLane (hk : k ∈ Finset.Icc 1 5) :
    (b.addToLane c k).pawns d = b.pawns d+if c = d then 1 else 0 := by
  simp only [pawns,addToLane]
  by_cases h : c = d
  · subst h
    rw [Function.update_self,sum_update hk (fun n : ℕ => (n : ℤ)),if_pos rfl]
    push_cast
    omega
  · rw [Function.update_of_ne (Ne.symm h),if_neg h,add_zero]

theorem pawns_removeFromLane (hk : k ∈ Finset.Icc 1 5) (hpos : 0 < b.lanes c k) :
    (b.removeFromLane c k).pawns d = b.pawns d-if c = d then 1 else 0 := by
  simp only [pawns,removeFromLane]
  by_cases h : c = d
  · subst h
    rw [Function.update_self,sum_update hk (fun n : ℕ => (n : ℤ)),if_pos rfl]
    push_cast [Nat.cast_sub (show 1 ≤ b.lanes c k from hpos)]
    omega
  · rw [Function.update_of_ne (Ne.symm h),if_neg h,sub_zero]

theorem pawns_addToYard : (b.addToYard c).pawns d = b.pawns d+if c = d then 1 else 0 := by
  simp only [pawns,addToYard]
  by_cases h : c = d
  · subst h
    rw [Function.update_self,if_pos rfl]
    omega
  · rw [Function.update_of_ne (Ne.symm h),if_neg h,add_zero]

theorem pawns_removeFromYard : (b.removeFromYard c).pawns d = b.pawns d-if c = d then 1 else 0 := by
  simp only [pawns,removeFromYard]
  by_cases h : c = d
  · subst h
    rw [Function.update_self,if_pos rfl]
    omega
  · rw [Function.update_of_ne (Ne.symm h),if_neg h,sub_zero]

theorem pawns_addToPocket : (b.addToPocket c).pawns d = b.pawns d+if c = d then 1 else 0 := by
  simp only [pawns,addToPocket]
  by_cases h : c = d
  · subst h
    rw [Function.update_self,if_pos rfl]
    push_cast
    omega
  · rw [Function.update_of_ne (Ne.symm h),if_neg h,add_zero]

end Pawns
end Board
end PucRio.Ludo
