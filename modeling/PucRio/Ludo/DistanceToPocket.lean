import Mathlib.Algebra.Order.BigOperators.Group.Finset
import Mathlib.Tactic.Linarith
import Mathlib.Tactic.Ring
import PucRio.Ludo.RegisteredMoves
import PucRio.Ludo.SavedGame

/-! How far a player's pawns have to go. The board sums it up over its squares; here it is compared
with the steps of the way that each pawn takes. -/
namespace PucRio.Ludo
open Finset

/-- Lane squares nearer to the pocket count less; a yard counts as a turn and a lane. -/
def Board.getDistanceToPocketSum (b : Board) (player : PlayerColor) : ℤ :=
  let lastPosition : ℤ := getPositionOfLastSquareOfPlayer player
  (∑ i ∈ Icc 1 5, (b.lanes player i : ℤ)*(6-i))+
  (∑ i ∈ Icc 1 52,
    if 0 < (b.track i).length then
      if player ∈ getPawnsColors (b.track i) then
        if lastPosition < i then ((b.track i).length : ℤ)*(5+lastPosition+52-i)
        else ((b.track i).length : ℤ)*(5+lastPosition-i)
      else 0
    else 0)+
  b.yards player*(52+5)

/-- Where a pawn can be. -/
inductive Place
  | yard
  | track (position : ℕ)
  | lane (position : ℕ)
  | pocket
  deriving DecidableEq, Repr

/-- One step on a player's way: out of the yard, around the track, into the lane behind the last
square, and behind its fifth square into the pocket. -/
def Place.advance (c : PlayerColor) : Place → Place
  | .yard => .track (getInitialSquarePosition c)
  | .track position =>
    if position = getPositionOfLastSquareOfPlayer c then .lane 1 else .track (destinationPos 1 position)
  | .lane position => if position = 5 then .pocket else .lane (position+1)
  | .pocket => .pocket

def Place.stepsLeft (c : PlayerColor) : Place → ℕ
  | .yard => 57
  | .track position =>
    if getPositionOfLastSquareOfPlayer c < position then
      getPositionOfLastSquareOfPlayer c+52-position+6
    else getPositionOfLastSquareOfPlayer c-position+6
  | .lane position => 6-position
  | .pocket => 0

/-- The places that the board has. -/
def Place.Valid : Place → Prop
  | .track position => position ∈ Icc 1 52
  | .lane position => position ∈ Icc 1 5
  | _ => True

/-- The steps that all pawns of a player have left. -/
def Board.stepsToPocket (b : Board) (c : PlayerColor) : ℤ :=
  b.yards c*Place.yard.stepsLeft c+
  (∑ i ∈ Icc 1 52, ((b.track i).count c : ℤ)*(Place.track i).stepsLeft c)+
  (∑ i ∈ Icc 1 5, (b.lanes c i : ℤ)*(Place.lane i).stepsLeft c)+
  b.pockets c*Place.pocket.stepsLeft c

def DistanceRight (b : Board) (c : PlayerColor) : Prop :=
  b.getDistanceToPocketSum c = b.stepsToPocket c

/-- The player's pawns on the track. -/
def Board.onTrack (b : Board) (c : PlayerColor) : ℤ := ∑ i ∈ Icc 1 52, ((b.track i).count c : ℤ)

/-- The other pawns on squares with one of the player's, each with a step less than it were. -/
def Board.sharers (b : Board) (c : PlayerColor) : ℤ :=
  ∑ i ∈ Icc 1 52, if c ∈ b.track i then
    (((b.track i).length : ℤ)-(b.track i).count c)*((Place.track i).stepsLeft c-1) else 0

section Way
variable {c : PlayerColor} {place : Place} {n : ℕ}

theorem getPositionOfLastSquareOfPlayer_mem (c : PlayerColor) :
    getPositionOfLastSquareOfPlayer c ∈ Icc 1 52 := by
  cases c <;> decide

theorem getInitialSquarePosition_eq (c : PlayerColor) :
    getInitialSquarePosition c = getPositionOfLastSquareOfPlayer c+2 := by
  cases c <;> rfl

theorem Place.Valid.advance (h : place.Valid) : (place.advance c).Valid := by
  cases place with
  | yard => exact getInitialSquarePosition_mem c
  | track position =>
    have hp := mem_Icc.mp h
    simp only [Place.advance]
    split_ifs
    · exact mem_Icc.mpr (by decide)
    · refine mem_Icc.mpr ⟨destinationPos_pos h,?_⟩
      unfold destinationPos
      split_ifs <;> omega
  | lane position =>
    have hp := mem_Icc.mp h
    simp only [Place.advance]
    split_ifs
    · trivial
    · exact mem_Icc.mpr (by omega)
  | pocket => trivial

/-- A step leaves one less. -/
theorem stepsLeft_advance (h : place.Valid) :
    (place.advance c).stepsLeft c = place.stepsLeft c-1 := by
  have hlast := mem_Icc.mp (getPositionOfLastSquareOfPlayer_mem c)
  cases place with
  | yard =>
    simp only [Place.advance,Place.stepsLeft,getInitialSquarePosition_eq]
    rw [if_pos (by omega)]
    omega
  | track position =>
    have hp := mem_Icc.mp h
    simp only [Place.advance]
    split_ifs with hturn
    · simp only [Place.stepsLeft]
      rw [if_neg (by omega)]
      omega
    · simp only [Place.stepsLeft,destinationPos]
      split_ifs <;> omega
  | lane position =>
    have hp := mem_Icc.mp h
    simp only [Place.advance]
    split_ifs <;> simp only [Place.stepsLeft] <;> omega
  | pocket => rfl

theorem stepsLeft_eq_zero (h : place.Valid) : place.stepsLeft c = 0 ↔ place = .pocket := by
  cases place with
  | yard => simp [Place.stepsLeft]
  | track position =>
    have hpos : 0 < (Place.track position).stepsLeft c := by
      simp only [Place.stepsLeft]
      split_ifs <;> exact Nat.succ_pos _
    exact iff_of_false hpos.ne' (by simp)
  | lane position =>
    have hp := mem_Icc.mp h
    simp only [Place.stepsLeft,reduceCtorEq,iff_false]
    omega
  | pocket => simp [Place.stepsLeft]

/-- A pawn is in its pocket after the steps that it had left, and not before. -/
theorem iterate_advance (h : place.Valid) :
    (Place.advance c)^[n] place = .pocket ↔ place.stepsLeft c ≤ n := by
  induction n generalizing place with
  | zero => rw [Function.iterate_zero,id_eq,← stepsLeft_eq_zero h,Nat.le_zero]
  | succ n ih => rw [Function.iterate_succ_apply,ih h.advance,stepsLeft_advance h,Nat.sub_le_iff_le_add]

end Way

section Moves
variable {c : PlayerColor} {d position : ℕ} {lane : ℕ → ℕ} {track : ℕ → List PlayerColor}

/-- The moves go as many steps as the dice say. -/
theorem stepsLeft_of_canMoveFromTrackToLane
    (h : canMoveFromTrackToLane lane d c position = true) :
    (Place.track position).stepsLeft c =
      (Place.lane (position+d-getPositionOfLastSquareOfPlayer c)).stepsLeft c+d := by
  unfold canMoveFromTrackToLane at h
  dsimp only at h
  split at h
  · cases h
  · rename_i j hj
    have hlast := List.find?_some hj
    rw [beq_iff_eq] at hlast
    have hlt := List.mem_range.mp (List.mem_of_find?_eq_some hj)
    split_ifs at h
    simp only [Bool.and_eq_true,decide_eq_true_eq] at h
    simp only [Place.stepsLeft]
    rw [if_neg (by omega)]
    omega

theorem stepsLeft_of_canMoveFromTrackToPocket
    (h : canMoveFromTrackToPocket d c position = true) :
    (Place.track position).stepsLeft c = Place.pocket.stepsLeft c+d := by
  simp only [canMoveFromTrackToPocket,Bool.and_eq_true,beq_iff_eq] at h
  simp only [Place.stepsLeft]
  rw [if_neg (by omega)]
  omega

theorem stepsLeft_of_canMoveInsideLane (h : canMoveInsideLane lane d position = true) :
    (Place.lane position).stepsLeft c = (Place.lane (position+d)).stepsLeft c+d := by
  simp only [canMoveInsideLane,Bool.and_eq_true,decide_eq_true_eq] at h
  simp only [Place.stepsLeft]
  omega

theorem stepsLeft_of_canMoveFromLaneToPocket
    (h : canMoveFromLaneToPocket d position = true) :
    (Place.lane position).stepsLeft c = Place.pocket.stepsLeft c+d := by
  simp only [canMoveFromLaneToPocket,beq_iff_eq] at h
  simp only [Place.stepsLeft]
  omega

/-- Along the track also, unless the pawn passes the place where it has to turn. -/
theorem stepsLeft_destinationPos (hp : position ∈ Icc 1 52) (hd : d ≤ 52)
    (hturn : ∀ j < d, destinationPos j position ≠ getPositionOfLastSquareOfPlayer c) :
    (Place.track position).stepsLeft c = (Place.track (destinationPos d position)).stepsLeft c+d := by
  have hp := mem_Icc.mp hp
  have hlast := mem_Icc.mp (getPositionOfLastSquareOfPlayer_mem c)
  induction d with
  | zero =>
    rw [destinationPos,if_neg (by omega)]
    rfl
  | succ d ih =>
    have hrest := ih (by omega) fun j hj => hturn j (by omega)
    have hstep := hturn d (by omega)
    rw [hrest]
    simp only [Place.stepsLeft,destinationPos] at hstep ⊢
    split_ifs at hstep ⊢ <;> omega

end Moves

section Sums
variable {b : Board} {c : PlayerColor}

/-- On every square of the track the board counts each of the player's pawns a step short, and the
other pawns there. -/
theorem getDistanceToPocketSum_eq (b : Board) (c : PlayerColor) :
    b.getDistanceToPocketSum c+b.onTrack c = b.stepsToPocket c+b.sharers c := by
  have hlane : ∑ i ∈ Icc 1 5, (b.lanes c i : ℤ)*(6-i) =
      ∑ i ∈ Icc 1 5, (b.lanes c i : ℤ)*(Place.lane i).stepsLeft c := by
    refine sum_congr rfl fun i hi => ?_
    have hi := mem_Icc.mp hi
    have hcast : ((Place.lane i).stepsLeft c : ℤ) = 6-i := by
      simp only [Place.stepsLeft]
      omega
    rw [hcast]
  have htrack : (∑ i ∈ Icc 1 52,
      if 0 < (b.track i).length then
        if c ∈ getPawnsColors (b.track i) then
          if (getPositionOfLastSquareOfPlayer c : ℤ) < i then
            ((b.track i).length : ℤ)*(5+getPositionOfLastSquareOfPlayer c+52-i)
          else ((b.track i).length : ℤ)*(5+getPositionOfLastSquareOfPlayer c-i)
        else 0
      else 0)+b.onTrack c =
      ∑ i ∈ Icc 1 52, ((b.track i).count c : ℤ)*(Place.track i).stepsLeft c+b.sharers c := by
    rw [Board.onTrack,Board.sharers,← sum_add_distrib,← sum_add_distrib]
    refine sum_congr rfl fun i hi => ?_
    have hi := mem_Icc.mp hi
    by_cases hc : c ∈ b.track i
    · have hsteps : ((Place.track i).stepsLeft c : ℤ) =
          if (getPositionOfLastSquareOfPlayer c : ℤ) < i then
            5+(getPositionOfLastSquareOfPlayer c : ℤ)+52-i+1
          else 5+(getPositionOfLastSquareOfPlayer c : ℤ)-i+1 := by
        simp only [Place.stepsLeft]
        split_ifs <;> omega
      rw [if_pos (List.length_pos_of_mem hc),if_pos (mem_getPawnsColors.mpr hc),if_pos hc,hsteps]
      split_ifs <;> ring
    · have hcolors : c ∉ getPawnsColors (b.track i) := fun h => hc (mem_getPawnsColors.mp h)
      rw [if_neg hcolors,if_neg hc,List.count_eq_zero.mpr hc,ite_self]
      ring
  unfold Board.getDistanceToPocketSum Board.stepsToPocket
  simp only [hlane,Place.stepsLeft] at htrack ⊢
  push_cast at htrack ⊢
  linarith

theorem distanceRight_iff_sharers : DistanceRight b c ↔ b.sharers c = b.onTrack c := by
  have heq := getDistanceToPocketSum_eq b c
  unfold DistanceRight
  constructor <;> intro h <;> linarith

theorem onTrack_eq_zero : b.onTrack c = 0 ↔ ∀ i ∈ Icc 1 52, c ∉ b.track i := by
  unfold Board.onTrack
  rw [sum_eq_zero_iff_of_nonneg fun i _ => Int.natCast_nonneg _]
  simp only [Int.natCast_eq_zero,List.count_eq_zero]

/-- One pawn that shares a square counts for more than four pawns lack. -/
theorem sharers_eq_onTrack_iff (h : b.onTrack c ≤ 4) :
    b.sharers c = b.onTrack c ↔ b.onTrack c = 0 := by
  have hsteps (i : ℕ) : 5 ≤ ((Place.track i).stepsLeft c : ℤ)-1 := by
    simp only [Place.stepsLeft]
    split_ifs <;> omega
  have hothers (i : ℕ) : 0 ≤ ((b.track i).length : ℤ)-(b.track i).count c := by
    have hle := List.count_le_length (a := c) (l := b.track i)
    omega
  have hterm (i : ℕ) : 0 ≤ if c ∈ b.track i then
      (((b.track i).length : ℤ)-(b.track i).count c)*((Place.track i).stepsLeft c-1) else 0 := by
    split_ifs
    · exact mul_nonneg (hothers i) (by linarith [hsteps i])
    · exact le_rfl
  constructor
  · intro heq
    by_contra hne
    have hsharers : b.sharers c ≠ 0 := heq ▸ hne
    obtain ⟨i,hi,hpos⟩ := exists_ne_zero_of_sum_ne_zero hsharers
    have hle := single_le_sum (fun i _ => hterm i) hi
    have hother : 1 ≤ ((b.track i).length : ℤ)-(b.track i).count c := by
      refine lt_of_le_of_ne (hothers i) fun hzero => hpos ?_
      rw [← hzero,zero_mul,ite_self]
    have hfive : 1*5 ≤ (((b.track i).length : ℤ)-(b.track i).count c)*
        ((Place.track i).stepsLeft c-1) :=
      mul_le_mul hother (hsteps i) (by decide) (hothers i)
    have hc : c ∈ b.track i := by
      by_contra hc
      exact hpos (if_neg hc)
    rw [if_pos hc] at hle
    have hall : b.sharers c = ∑ i ∈ Icc 1 52, if c ∈ b.track i then
      (((b.track i).length : ℤ)-(b.track i).count c)*((Place.track i).stepsLeft c-1) else 0 := rfl
    linarith
  · intro hzero
    rw [hzero]
    refine sum_eq_zero fun i hi => if_neg (onTrack_eq_zero.mp hzero i hi)

end Sums

namespace Game

/-- No save that is loaded has a yard with fewer than no pawns, or breaks what keeps four pawns of
each colour. -/
def LoadsPawns (g : Game) : Event → Prop
  | .load file => g.LoadsWhole (.load file) ∧
    ∀ saved ∈ loadFromFile file, ∀ c, 0 ≤ saved.1.yards c
  | _ => True

instance (g : Game) : ∀ e, Decidable (g.LoadsPawns e)
  | .click _ _ => inferInstanceAs (Decidable True)
  | .newGame => inferInstanceAs (Decidable True)
  | .save => inferInstanceAs (Decidable True)
  | .load file => inferInstanceAs (Decidable (g.LoadsWhole (.load file) ∧
    ∀ saved ∈ loadFromFile file, ∀ c, 0 ≤ saved.1.yards c))

theorem LoadsPawns.whole {g : Game} {e : Event} (h : g.LoadsPawns e) : g.LoadsWhole e := by
  cases e with
  | load file => exact h.1
  | click i roll => trivial
  | newGame => trivial
  | save => trivial

section Yards
variable {g t : Game} {a : Action}

theorem yards_addToYard {b : Board} (h : ∀ c, 0 ≤ b.yards c) (o c : PlayerColor) :
    0 ≤ (b.addToYard o).yards c := by
  simp only [Board.addToYard]
  by_cases hc : c = o
  · rw [hc,Function.update_self]
    exact Int.le_add_one (h _)
  · rw [Function.update_of_ne hc]
    exact h c

theorem yards_endTurn (g : Game) : g.endTurn.board.yards = g.board.yards := by
  unfold Game.endTurn
  split_ifs <;> rfl

theorem yards_onActionExecuted (ha : a ≠ .rollDice) (capturedPawn : Bool) :
    (g.onActionExecuted capturedPawn a).board.yards = g.board.yards := by
  obtain heq | heq | ⟨-,heq⟩ | ⟨-,heq⟩ := g.onActionExecuted_cases a ha capturedPawn
  · rw [heq,yards_endTurn]
  · rw [heq]
    rfl
  · rw [heq]
    rfl
  · rw [heq]
    rfl

theorem yards_removeLastMovedPawn (h : ∀ c, 0 ≤ g.board.yards c) (c : PlayerColor) :
    0 ≤ g.removeLastMovedPawn.board.yards c := by
  unfold removeLastMovedPawn
  split_ifs
  · exact yards_addToYard (b := g.board.removeFromTrack _ _) h _ c
  · exact h c

theorem yards_diceActionListener (h : ∀ c, 0 ≤ g.board.yards c) (c : PlayerColor) :
    0 ≤ g.diceActionListener.board.yards c := by
  obtain ⟨-,-,-,heq⟩ | ⟨-,-,heq⟩ | ⟨-,heq | ⟨-,heq⟩⟩ := g.diceActionListener_cases
  · rw [heq]
    exact yards_removeLastMovedPawn h c
  · rw [heq]
    exact h c
  · rw [heq]
    exact h c
  · rw [heq]
    exact h c

theorem yards_loadMap (saved : Board) (value count : ℕ) :
    (g.loadMap saved value count).board.yards = saved.yards := by
  unfold loadMap
  dsimp only
  split
  · rfl
  · rfl
  · split_ifs <;> rfl
  · rfl
  · rfl

/-- A pawn leaves the yard only if there is one. -/
theorem yard_pos_of_mem_moves (h : .yardToTrack ∈ g.moves) :
    0 < g.board.yards g.board.currentPlayer := by
  have htrack {d : ℕ} : .yardToTrack ∉ setTrackMoves g.board g.board.currentPlayer d := by
    simp [mem_setTrackMoves,setPlayerTrackToTrackMoves,setPlayerTrackToLaneMoves]
  have hlane {d : ℕ} : .yardToTrack ∉ setLaneMoves g.board g.board.currentPlayer d := by
    simp [mem_setLaneMoves]
  have hbarrier {d : ℕ} : .yardToTrack ∉
      setMovePawnFromBarrierMoves g.board g.board.currentPlayer d := by
    simp [mem_setMovePawnFromBarrierMoves,setPlayerTrackToTrackMoves]
  obtain ⟨d,hmoves,-⟩ | ⟨-,hmoves,-⟩ := g.moves_cases
  · exact absurd (hmoves ▸ h) htrack
  · rw [hmoves,setPlayerMoves] at h
    split_ifs at h with hopen hyard
    · exact absurd h hbarrier
    · simp only [canMoveFromYardToTrack,Bool.and_eq_true,decide_eq_true_eq] at hyard
      exact hyard.1
    · rw [List.append_assoc,List.mem_append,List.mem_append] at h
      obtain h | h | h := h
      · exact absurd h List.not_mem_nil
      · exact absurd h htrack
      · exact absurd h hlane

theorem yards_execute (h : ∀ c, 0 ≤ g.board.yards c)
    (hyard : a = .yardToTrack → 0 < g.board.yards g.board.currentPlayer) (roll : ℕ)
    (c : PlayerColor) : 0 ≤ (g.execute roll a).1.board.yards c := by
  cases a with
  | rollDice => exact h c
  | yardToTrack =>
    have hpos := hyard rfl
    simp only [execute,Board.addToTrack,Board.removeFromYard]
    by_cases hc : c = g.board.currentPlayer
    · rw [hc,Function.update_self]
      omega
    · rw [Function.update_of_ne hc]
      exact h c
  | trackToTrack fromSquare toSquare shouldRemoveOpponent =>
    simp only [execute]
    split <;> split
    · exact h c
    · exact h c
    · exact yards_addToYard h _ c
    · exact yards_addToYard h _ c
  | trackToLane lane fromSquare toLanePosition =>
    simp only [execute]
    split <;> exact h c
  | trackToPocket pocket fromSquare =>
    simp only [execute]
    split <;> exact h c
  | laneToLane lane fromLanePosition toLanePosition =>
    simp only [execute]
    split <;> exact h c
  | laneToPocket lane fromLanePosition =>
    simp only [execute]
    split <;> exact h c

theorem yards_executeAction {roll : ℕ} (hg : g.Ready) (h : ∀ c, 0 ≤ g.board.yards c)
    (ha : a ∈ g.actions) (c : PlayerColor) : 0 ≤ (g.executeAction a roll).board.yards c := by
  obtain rfl | hbacked := hg.backed ha
  · exact yards_diceActionListener (g := (({ g with actions := [] } : Game).execute roll
      .rollDice).1) h c
  · have hne : a ≠ .rollDice := by
      rintro rfl
      exact hbacked
    have hyard : a = .yardToTrack → 0 < g.board.yards g.board.currentPlayer := by
      rintro rfl
      cases hg with
      | dice actions =>
        rw [actions] at ha
        cases List.mem_singleton.mp ha
      | move actions => exact yard_pos_of_mem_moves (actions ▸ ha)
      | ended actions =>
        rw [actions] at ha
        cases ha
    obtain ⟨t,captured,ht,-⟩ := execute_move (g := { g with actions := [] }) roll hbacked
    have hnonneg := yards_execute (g := { g with actions := [] }) h hyard roll c
    unfold Game.executeAction
    rw [ht] at hnonneg ⊢
    dsimp only
    rwa [yards_onActionExecuted hne]

theorem yards_step {e : Event} (hg : g.Ready) (h : ∀ c, 0 ≤ g.board.yards c)
    (hload : g.LoadsPawns e) (ht : g.step e = some t) (c : PlayerColor) : 0 ≤ t.board.yards c := by
  cases e with
  | click i roll =>
    simp only [Game.step] at ht
    split_ifs at ht
    obtain ⟨a,ha,rfl⟩ := Option.map_eq_some_iff.mp ht
    exact yards_executeAction hg h (List.mem_of_getElem? ha) c
  | newGame =>
    obtain rfl := Option.some.inj ht
    exact (by decide : (0 : ℤ) ≤ 4)
  | save =>
    obtain rfl := Option.some.inj ht
    exact h c
  | load file =>
    obtain ⟨saved,hsaved,rfl⟩ := Option.map_eq_some_iff.mp ht
    rw [yards_loadMap]
    exact hload.2 saved hsaved c

end Yards
end Game

section Main
variable {g : Game}

theorem yards_of_reachableUnder (h : ludo.ReachableUnder Game.LoadsPawns g) (c : PlayerColor) :
    0 ≤ g.board.yards c := by
  have hboth := h.invariant (I := fun g => g.Ready ∧ ∀ c, 0 ≤ g.board.yards c)
    ⟨.dice rfl,fun _ => (by decide : (0 : ℤ) ≤ 4)⟩
    fun _ _ _ hs hload ht => ⟨hs.1.step ht,Game.yards_step hs.1 hs.2 hload ht⟩
  exact hboth.2 c

/-- No more than its four pawns. -/
theorem onTrack_le_of_reachableUnder (h : ludo.ReachableUnder Game.LoadsPawns g) (c : PlayerColor) :
    g.board.onTrack c ≤ 4 := by
  have hyard := yards_of_reachableUnder h c
  have hfour := conserved_of_reachableUnder
    (TransitionSystem.GuardedRun.mono (fun _ _ hload => hload.whole) h) c
  have hlane : 0 ≤ ∑ k ∈ Icc 1 5, (g.board.lanes c k : ℤ) :=
    sum_nonneg fun k _ => Int.natCast_nonneg _
  unfold Board.pawns at hfour
  unfold Board.onTrack
  omega

/-- The board's sum is the pawns' steps exactly where the pawns that share squares with the player's
make up for a step of each of these on the track; in a game with four pawns of each colour, where the
player has none on the track. -/
theorem distanceRight_iff (c : PlayerColor) :
    (∀ b : Board, DistanceRight b c ↔ b.sharers c = b.onTrack c) ∧
      ∀ g, ludo.ReachableUnder Game.LoadsPawns g →
        (DistanceRight g.board c ↔ ∀ i ∈ Icc 1 52, c ∉ g.board.track i) := by
  refine ⟨fun b => distanceRight_iff_sharers,fun g hg => ?_⟩
  rw [distanceRight_iff_sharers,sharers_eq_onTrack_iff (onTrack_le_of_reachableUnder hg c),
    onTrack_eq_zero]

/-- Green has brought a pawn out; blue has none on the track. -/
theorem distanceRight_iff_blue : ∃ g, ludo.ReachableUnder Game.LoadsPawns g ∧
    g.board.track 9 = [.GREEN] ∧
      (DistanceRight g.board .BLUE ↔ ∀ i ∈ Icc 1 52, .BLUE ∉ g.board.track i) := by
  obtain ⟨g,hg,hp⟩ := TransitionSystem.exists_reachableUnder_of_execUnder (T := ludo)
    (G := Game.LoadsPawns) (l := [.click 0 5,.click 0 1])
    (p := fun g => g.board.track 9 = [.GREEN]) (by decide +kernel)
  exact ⟨g,hg,of_decide_eq_true hp,(distanceRight_iff .BLUE).2 g hg⟩

/-- Green rolls a five and brings a pawn out to its first square: 56 steps from the pocket, where the
board counts 55. -/
theorem not_distanceRight_five : ∃ g, ludo.Reachable g ∧ g.board.track 9 = [.GREEN] ∧
    g.board.getDistanceToPocketSum .GREEN = 226 ∧ g.board.stepsToPocket .GREEN = 227 ∧
    ¬ DistanceRight g.board .GREEN := by
  obtain ⟨g,hg,hp⟩ := TransitionSystem.exists_reachable_of_exec (T := ludo)
    (l := [.click 0 5,.click 0 1]) (p := fun g => g.board.track 9 = [.GREEN] ∧
      g.board.getDistanceToPocketSum .GREEN = 226 ∧ g.board.stepsToPocket .GREEN = 227)
    (by decide +kernel)
  obtain ⟨htrack,hsum,hsteps⟩ := of_decide_eq_true hp
  refine ⟨g,hg,htrack,hsum,hsteps,?_⟩
  rw [DistanceRight,hsum,hsteps]
  decide

end Main

end PucRio.Ludo
