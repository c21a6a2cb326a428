import PucRio.Ludo.Resume

/-! What can be played on after a load. Pawns of one square may have changed places on a shelter,
where nobody looks at their order; and the static fields of the last move, which are not in the file, are
asked only by a third six. So both games can always do the same. -/
namespace PucRio.Ludo

/-- The same board, up to the order of the pawns on a shelter. -/
structure Board.Alike (b t : Board) : Prop where
  track : ∀ p ∈ Finset.Icc 1 52, (b.track p).Perm (t.track p)
  unsheltered : ∀ p ∈ Finset.Icc 1 52, isShelterPosition p = false → b.track p = t.track p
  lanes : ∀ c, ∀ k ∈ Finset.Icc 1 5, b.lanes c k = t.lanes c k
  yards : b.yards = t.yards
  pockets : b.pockets = t.pockets
  currentPlayer : b.currentPlayer = t.currentPlayer
  currentAction : b.currentAction = t.currentAction

namespace Board.Alike
variable {b t : Board} {p k : ℕ} {c : PlayerColor}

theorem refl (b : Board) : b.Alike b :=
  ⟨fun _ _ => .refl _,fun _ _ _ => rfl,fun _ _ _ => rfl,rfl,rfl,rfl,rfl⟩

theorem looks (h : b.Alike t) : b.Looks t where
  track := h.track
  head p hp hshelter := by rw [h.unsheltered p hp hshelter]
  lanes := h.lanes
  yardPos c := by rw [h.yards]
  yardZero c := by rw [h.yards]

/-- One square has been changed on both boards. -/
theorem updateTrack (h : b.Alike t) {l m : List PlayerColor}
    (hperm : p ∈ Finset.Icc 1 52 → l.Perm m)
    (heq : p ∈ Finset.Icc 1 52 → isShelterPosition p = false → l = m) :
    ({ b with track := Function.update b.track p l } : Board).Alike
      { t with track := Function.update t.track p m } where
  track q hq := by
    by_cases hp : q = p
    · subst hp
      simpa only [Function.update_self] using hperm hq
    · simpa only [Function.update_of_ne hp] using h.track q hq
  unsheltered q hq hshelter := by
    by_cases hp : q = p
    · subst hp
      simpa only [Function.update_self] using heq hq hshelter
    · simpa only [Function.update_of_ne hp] using h.unsheltered q hq hshelter
  lanes := h.lanes
  yards := h.yards
  pockets := h.pockets
  currentPlayer := h.currentPlayer
  currentAction := h.currentAction

theorem addToTrack (h : b.Alike t) (p : ℕ) (c : PlayerColor) :
    (b.addToTrack p c).Alike (t.addToTrack p c) := by
  apply h.updateTrack
  · exact fun hp => (h.track p hp).append_right _
  · exact fun hp hshelter => by rw [h.unsheltered p hp hshelter]

theorem removeFromTrack (h : b.Alike t) (p : ℕ) (c : PlayerColor) :
    (b.removeFromTrack p c).Alike (t.removeFromTrack p c) := by
  apply h.updateTrack
  · exact fun hp => (h.track p hp).erase c
  · exact fun hp hshelter => by rw [h.unsheltered p hp hshelter]

/-- One square of a lane has been changed on both boards. -/
theorem updateLane (h : b.Alike t) (c : PlayerColor) (k n : ℕ) :
    ({ b with lanes := Function.update b.lanes c (Function.update (b.lanes c) k n) } : Board).Alike
      { t with lanes := Function.update t.lanes c (Function.update (t.lanes c) k n) } where
  track := h.track
  unsheltered := h.unsheltered
  lanes d j hj := by
    by_cases hd : d = c
    · subst hd
      by_cases hk : j = k
      · subst hk
        simp only [Function.update_self]
      · simpa only [Function.update_self,Function.update_of_ne hk] using h.lanes d j hj
    · simpa only [Function.update_of_ne hd] using h.lanes d j hj
  yards := h.yards
  pockets := h.pockets
  currentPlayer := h.currentPlayer
  currentAction := h.currentAction

theorem addToLane (h : b.Alike t) (hk : k ∈ Finset.Icc 1 5) (c : PlayerColor) :
    (b.addToLane c k).Alike (t.addToLane c k) := by
  unfold Board.addToLane
  rw [h.lanes c k hk]
  exact h.updateLane c k _

theorem removeFromLane (h : b.Alike t) (hk : k ∈ Finset.Icc 1 5) (c : PlayerColor) :
    (b.removeFromLane c k).Alike (t.removeFromLane c k) := by
  unfold Board.removeFromLane
  rw [h.lanes c k hk]
  exact h.updateLane c k _

theorem addToYard (h : b.Alike t) (c : PlayerColor) : (b.addToYard c).Alike (t.addToYard c) :=
  { h with yards := by simp only [Board.addToYard,h.yards] }

theorem removeFromYard (h : b.Alike t) (c : PlayerColor) :
    (b.removeFromYard c).Alike (t.removeFromYard c) :=
  { h with yards := by simp only [Board.removeFromYard,h.yards] }

theorem addToPocket (h : b.Alike t) (c : PlayerColor) :
    (b.addToPocket c).Alike (t.addToPocket c) :=
  { h with pockets := by simp only [Board.addToPocket,h.pockets] }

end Board.Alike

namespace Game

/-- What the static fields say of the last moved pawn. -/
def lastMoved (g : Game) : ℕ × Option SquareType :=
  (g.lastMovedPawnPosition,g.lastMovedPawnDestinationType)

/-- They say the same in both games, if one of them has a square of the track. -/
def SameLast (g t : Game) : Prop :=
  g.lastMoved.2 = some .TRACKSQUARE ∨ t.lastMoved.2 = some .TRACKSQUARE → g.lastMoved = t.lastMoved

/-- The next roll takes no pawn off the track. -/
def NoThirdSix (g : Game) : Prop :=
  .rollDice ∈ g.actions → g.consecutive6 = 2 → g.canMove 6 = false

/-- Games with boards alike and all else equal but the static fields. -/
structure Alike (g t : Game) : Prop where
  board : g.board.Alike t.board
  curValue : g.curValue = t.curValue
  consecutive6 : g.consecutive6 = t.consecutive6
  actions : g.actions = t.actions

namespace Alike
variable {g t : Game}

theorem resumes (h : g.Alike t) : g.Resumes t where
  currentPlayer := h.board.currentPlayer.symm
  currentAction := h.board.currentAction.symm
  curValue := h.curValue.symm
  actions a := by rw [h.actions]

theorem canMove (h : g.Alike t) (d : ℕ) : g.canMove d = t.canMove d := by
  unfold Game.canMove
  rw [h.board.looks.hasMove_eq,h.board.currentPlayer]

theorem register (h : g.Alike t) (actions : List Action) :
    (g.register actions).Alike (t.register actions) :=
  { h with actions := by simp only [Game.register,h.actions] }

theorem setCurrentAction (h : g.Alike t) (currentAction : CurrentAction) :
    (g.setCurrentAction currentAction).Alike (t.setCurrentAction currentAction) :=
  { h with board := { h.board with currentAction := rfl } }

theorem nextPlayer (h : g.Alike t) : g.nextPlayer.Alike t.nextPlayer :=
  { h with
    board := { h.board with currentPlayer := congrArg PlayerColor.next h.board.currentPlayer }
    consecutive6 := rfl }

theorem registerMoves (h : g.Alike t) (d : ℕ) : (g.registerMoves d).Alike (t.registerMoves d) := by
  unfold Game.registerMoves
  rw [h.board.looks.setPlayerMoves_eq,h.board.currentPlayer,h.consecutive6]
  exact h.register _

theorem registerBonus (h : g.Alike t) (d : ℕ) : (g.registerBonus d).Alike (t.registerBonus d) := by
  unfold Game.registerBonus
  rw [h.board.looks.setTrackMoves_eq,h.board.currentPlayer]
  exact h.register _

theorem endTurn (h : g.Alike t) : g.endTurn.Alike t.endTurn := by
  unfold Game.endTurn
  rw [h.curValue,h.consecutive6]
  split_ifs
  · exact h.nextPlayer.register _
  · exact h.register _

theorem removeLastMovedPawn (h : g.Alike t) (hlast : g.SameLast t) :
    g.removeLastMovedPawn.Alike t.removeLastMovedPawn := by
  unfold Game.removeLastMovedPawn
  by_cases htrack : g.lastMovedPawnDestinationType = some .TRACKSQUARE ∨
      t.lastMovedPawnDestinationType = some .TRACKSQUARE
  · obtain ⟨hposition,htype⟩ := Prod.mk.inj (hlast htrack)
    rw [htype,hposition,h.board.currentPlayer]
    split_ifs
    · exact ⟨(h.board.removeFromTrack _ _).addToYard _,h.curValue,h.consecutive6,h.actions⟩
    · exact h
  · obtain ⟨hg,ht⟩ := not_or.mp htrack
    rw [if_neg hg,if_neg ht]
    exact h

/-- A third six asks the static fields. -/
theorem diceActionListener (h : g.Alike t)
    (hlast : (g.curValue = 6 ∧ g.consecutive6 = 3) ∧ g.canMove g.curValue = true → g.SameLast t) :
    g.diceActionListener.Alike t.diceActionListener := by
  have hselect := h.setCurrentAction .SELECTPAWN
  rw [h.curValue,h.consecutive6,h.canMove t.curValue] at hlast
  rw [Game.diceActionListener_eq,Game.diceActionListener_eq,h.curValue,h.consecutive6,
    h.canMove t.curValue]
  split_ifs with hthird hmove
  · have hsame : (g.setCurrentAction .SELECTPAWN).SameLast (t.setCurrentAction .SELECTPAWN) :=
      hlast ⟨hthird,hmove⟩
    exact ((hselect.removeLastMovedPawn hsame).nextPlayer.register _).setCurrentAction _
  · exact (hselect.nextPlayer.register _).setCurrentAction _
  · exact hselect.registerMoves _
  · exact (hselect.nextPlayer.setCurrentAction _).register _
  · exact (hselect.setCurrentAction _).register _

theorem moveFromTrackToTrackActionListener (h : g.Alike t) (capturedPawn : Bool) :
    (g.moveFromTrackToTrackActionListener capturedPawn).Alike
      (t.moveFromTrackToTrackActionListener capturedPawn) := by
  unfold Game.moveFromTrackToTrackActionListener
  rw [h.canMove 20]
  split_ifs
  · exact (h.setCurrentAction _).registerBonus _
  · exact h.endTurn

theorem moveToPocketActionListener (h : g.Alike t) :
    g.moveToPocketActionListener.Alike t.moveToPocketActionListener := by
  unfold Game.moveToPocketActionListener
  rw [h.canMove 10,h.board.pockets,h.board.currentPlayer]
  split_ifs
  · exact h.setCurrentAction _
  · exact (h.setCurrentAction _).registerBonus _
  · exact h.endTurn

theorem onActionExecuted (h : g.Alike t) (capturedPawn : Bool) {a : Action} (ha : a ≠ .rollDice) :
    (g.onActionExecuted capturedPawn a).Alike (t.onActionExecuted capturedPawn a) := by
  cases a with
  | rollDice => exact (ha rfl).elim
  | yardToTrack => exact h.endTurn
  | trackToTrack => exact h.moveFromTrackToTrackActionListener capturedPawn
  | trackToLane => exact h.endTurn
  | laneToLane => exact h.endTurn
  | trackToPocket => exact h.moveToPocketActionListener
  | laneToPocket => exact h.moveToPocketActionListener

section Execute
variable {p q k : ℕ} {shouldRemoveOpponent : Bool}

/-- A pawn is captured on both boards or on neither. -/
theorem opponent_eq (h : g.Alike t) (hq : q ∈ Finset.Icc 1 52)
    (hflag : shouldRemoveOpponent = !isShelterPosition q) :
    (((g.board.track q).head?.filter (· != g.board.currentPlayer)).filter fun _ =>
      shouldRemoveOpponent) =
      ((t.board.track q).head?.filter (· != t.board.currentPlayer)).filter fun _ =>
        shouldRemoveOpponent := by
  rw [h.board.currentPlayer]
  cases hshelter : isShelterPosition q with
  | true =>
    rw [hflag,hshelter]
    simp
  | false => rw [h.board.unsheltered q hq hshelter]

/-- What is left of an action whose pawn is on both boards or on neither. -/
theorem ite_alike {P Q : Prop} [Decidable P] [Decidable Q] (hPQ : P ↔ Q) {x y x' y' : Game}
    {r s : Option Bool} (h : x.Alike y) (h' : x'.Alike y') :
    ((if P then (x,r) else (x',s)).1.Alike (if Q then (y,r) else (y',s)).1) ∧
      (if P then (x,r) else (x',s)).2 = (if Q then (y,r) else (y',s)).2 := by
  split_ifs with hP hQ hQ
  · exact ⟨h,rfl⟩
  · exact (hQ (hPQ.mp hP)).elim
  · exact (hP (hPQ.mpr hQ)).elim
  · exact ⟨h',rfl⟩

theorem execute_trackToTrack (h : g.Alike t) (roll : ℕ) (hp : p ∈ Finset.Icc 1 52)
    (hq : q ∈ Finset.Icc 1 52) (hflag : shouldRemoveOpponent = !isShelterPosition q) :
    (g.execute roll (.trackToTrack p q shouldRemoveOpponent)).1.Alike
        (t.execute roll (.trackToTrack p q shouldRemoveOpponent)).1 ∧
      (g.execute roll (.trackToTrack p q shouldRemoveOpponent)).2 =
        (t.execute roll (.trackToTrack p q shouldRemoveOpponent)).2 := by
  unfold Game.execute
  dsimp only
  rw [h.opponent_eq hq hflag,h.board.currentPlayer]
  generalize ((t.board.track q).head?.filter (· != t.board.currentPlayer)).filter
    (fun _ => shouldRemoveOpponent) = opponent
  generalize t.board.currentPlayer = color
  cases opponent with
  | none =>
    have hadd := h.board.addToTrack q color
    exact ite_alike (hadd.track p hp).mem_iff
      ⟨hadd.removeFromTrack p color,h.curValue,h.consecutive6,h.actions⟩
      ⟨hadd,h.curValue,h.consecutive6,h.actions⟩
  | some o =>
    have hadd := ((h.board.addToYard o).removeFromTrack q o).addToTrack q color
    exact ite_alike (hadd.track p hp).mem_iff
      ⟨hadd.removeFromTrack p color,h.curValue,h.consecutive6,h.actions⟩
      ⟨hadd,h.curValue,h.consecutive6,h.actions⟩

theorem execute (h : g.Alike t) (roll : ℕ) {a : Action} (ha : a.Backed g.board)
    (hflag : ∀ p q s, a = .trackToTrack p q s → s = !isShelterPosition q) :
    (g.execute roll a).1.Alike (t.execute roll a).1 ∧
      (g.execute roll a).2 = (t.execute roll a).2 := by
  cases a with
  | rollDice => exact ha.elim
  | yardToTrack =>
    unfold Game.execute
    dsimp only
    rw [h.board.currentPlayer]
    refine ⟨⟨?_,h.curValue,h.consecutive6,h.actions⟩,rfl⟩
    exact (h.board.removeFromYard _).addToTrack _ _
  | trackToTrack p q s => exact h.execute_trackToTrack roll ha.1 ha.2.1 (hflag p q s rfl)
  | trackToLane lane p k =>
    refine ite_alike (h.board.track p ha.1).mem_iff ?_ h
    exact ⟨(h.board.removeFromTrack p lane).addToLane ha.2.1 lane,h.curValue,h.consecutive6,h.actions⟩
  | trackToPocket pocket p =>
    refine ite_alike (h.board.track p ha.1).mem_iff ?_ h
    exact ⟨(h.board.removeFromTrack p pocket).addToPocket pocket,h.curValue,h.consecutive6,h.actions⟩
  | laneToLane lane j k =>
    refine ite_alike (by rw [h.board.lanes lane j ha.1]) ?_ h
    exact ⟨(h.board.removeFromLane ha.1 lane).addToLane ha.2.1 lane,h.curValue,h.consecutive6,
      h.actions⟩
  | laneToPocket lane j =>
    refine ite_alike (by rw [h.board.lanes lane j ha.1]) ?_ h
    exact ⟨(h.board.removeFromLane ha.1 lane).addToPocket lane,h.curValue,h.consecutive6,h.actions⟩

theorem executeAction_rollDice (h : g.Alike t) (roll : ℕ) (ha : .rollDice ∈ g.actions)
    (hlast : g.SameLast t ∨ g.NoThirdSix) :
    (g.executeAction .rollDice roll).Alike (t.executeAction .rollDice roll) := by
  have hrolled : Alike (({ g with actions := [] } : Game).execute roll .rollDice).1
      (({ t with actions := [] } : Game).execute roll .rollDice).1 :=
    ⟨h.board,rfl,by simp only [Game.execute,h.consecutive6],rfl⟩
  refine hrolled.diceActionListener ?_
  rintro ⟨⟨rfl : roll = 6,hthree : g.consecutive6+1 = 3⟩,hmove : g.canMove 6 = true⟩
  refine hlast.resolve_right fun hno => ?_
  rw [hno ha (by omega)] at hmove
  cases hmove

theorem executeAction (h : g.Alike t) (hg : g.Ready) (hlast : g.SameLast t ∨ g.NoThirdSix)
    (roll : ℕ) {a : Action} (ha : a ∈ g.actions) :
    (g.executeAction a roll).Alike (t.executeAction a roll) := by
  rcases hg.backed ha with rfl | hbacked
  · exact h.executeAction_rollDice roll ha hlast
  have hne : a ≠ .rollDice := by
    rintro rfl
    exact hbacked
  have hempty : Alike { g with actions := [] } { t with actions := [] } := { h with actions := rfl }
  have hexecute := hempty.execute roll hbacked fun p q s hpq => by
    subst hpq
    obtain ⟨heq,-⟩ := trackToTrack_of_mem_moves (hg.trackToTrack ha)
    obtain ⟨-,rfl,rfl⟩ := Action.trackToTrack.inj heq
    rfl
  unfold Game.executeAction
  generalize ({ g with actions := [] } : Game).execute roll a = x at hexecute
  generalize ({ t with actions := [] } : Game).execute roll a = y at hexecute
  obtain ⟨g',captured⟩ := x
  obtain ⟨t',captured'⟩ := y
  obtain ⟨halike,rfl : captured = captured'⟩ := hexecute
  cases captured with
  | none => exact halike
  | some captured => exact halike.onActionExecuted captured hne

end Execute

theorem startGame (h : g.Alike t) : g.startGame.Alike t.startGame :=
  ⟨.refl _,h.curValue,rfl,rfl⟩

/-- The board that was there is forgotten. -/
theorem loadMap (g t : Game) (saved : Board) (value count : ℕ) :
    (g.loadMap saved value count).Alike (t.loadMap saved value count) := by
  have hloaded : (g.loaded saved value count []).Alike (t.loaded saved value count []) :=
    ⟨.refl _,rfl,rfl,rfl⟩
  unfold Game.loadMap
  dsimp only
  split
  · exact hloaded.setCurrentAction _
  · exact hloaded.register _
  · split_ifs with hmove hmove' hmove'
    · exact hloaded.registerMoves _
    · exact (hmove' hmove).elim
    · exact (hmove hmove').elim
    · exact hloaded.nextPlayer.register _
  · exact hloaded.registerBonus _
  · exact hloaded.registerBonus _

end Alike
end Game

section LastMoved
variable {g t : Game} {a : Action}

theorem Game.lastMoved_removeLastMovedPawn : g.removeLastMovedPawn.lastMoved = g.lastMoved := by
  unfold removeLastMovedPawn
  split_ifs <;> rfl

/-- No listener writes the static fields. -/
theorem Game.lastMoved_diceActionListener : g.diceActionListener.lastMoved = g.lastMoved := by
  rcases g.diceActionListener_cases with ⟨-,-,-,heq⟩ | ⟨-,-,heq⟩ | ⟨-,heq | ⟨-,heq⟩⟩
  · rw [heq]
    exact g.lastMoved_removeLastMovedPawn
  · rw [heq]
    rfl
  · rw [heq]
    rfl
  · rw [heq]
    rfl

theorem Game.lastMoved_onActionExecuted (ha : a ≠ .rollDice) (capturedPawn : Bool) :
    (g.onActionExecuted capturedPawn a).lastMoved = g.lastMoved := by
  rcases g.onActionExecuted_cases a ha capturedPawn with heq | heq | ⟨-,heq⟩ | ⟨-,heq⟩
  · rw [heq]
    unfold endTurn
    split_ifs <;> rfl
  · rw [heq]
    rfl
  · rw [heq]
    rfl
  · rw [heq]
    rfl

theorem Game.lastMoved_executeAction (ha : a ≠ .rollDice) (roll : ℕ) :
    (g.executeAction a roll).lastMoved =
      (({ g with actions := [] } : Game).execute roll a).1.lastMoved := by
  unfold executeAction
  generalize ({ g with actions := [] } : Game).execute roll a = x
  obtain ⟨g',captured⟩ := x
  cases captured with
  | none => rfl
  | some captured => exact lastMoved_onActionExecuted ha captured

/-- A move writes them, in both games the same. -/
theorem Game.Alike.lastMoved_execute (h : g.Alike t) (roll : ℕ) (ha : a.Backed g.board) :
    (g.execute roll a).1.lastMoved = (t.execute roll a).1.lastMoved := by
  cases a with
  | rollDice => exact ha.elim
  | yardToTrack =>
    unfold Game.execute
    dsimp only
    rw [h.board.currentPlayer]
    rfl
  | trackToTrack p q s =>
    unfold Game.execute
    dsimp only
    split_ifs <;> rfl
  | trackToLane lane p k =>
    have ht := (h.board.track p ha.1).mem_iff.mp ha.2.2
    simp only [Game.execute,if_pos ha.2.2,if_pos ht]
    rfl
  | trackToPocket pocket p =>
    have ht := (h.board.track p ha.1).mem_iff.mp ha.2
    simp only [Game.execute,if_pos ha.2,if_pos ht]
    rfl
  | laneToLane lane j k =>
    have ht := h.board.lanes lane j ha.1 ▸ ha.2.2
    simp only [Game.execute,if_pos ha.2.2,if_pos ht]
    rfl
  | laneToPocket lane j =>
    have ht := h.board.lanes lane j ha.1 ▸ ha.2
    simp only [Game.execute,if_pos ha.2,if_pos ht]
    rfl

theorem Game.Alike.sameLast_executeAction (h : g.Alike t) (roll : ℕ) (ha : a.Backed g.board) :
    (g.executeAction a roll).SameLast (t.executeAction a roll) := by
  intro _
  have hne : a ≠ .rollDice := by
    rintro rfl
    exact ha
  have hempty : Alike { g with actions := [] } { t with actions := [] } := { h with actions := rfl }
  rw [lastMoved_executeAction hne,lastMoved_executeAction hne]
  exact hempty.lastMoved_execute roll ha

theorem Game.SameLast.executeAction (h : g.SameLast t) (halike : g.Alike t) (hg : g.Ready) (roll : ℕ)
    (ha : a ∈ g.actions) : (g.executeAction a roll).SameLast (t.executeAction a roll) := by
  rcases hg.backed ha with rfl | hbacked
  · have hkept (g : Game) : (g.executeAction .rollDice roll).lastMoved = g.lastMoved :=
      lastMoved_diceActionListener (g := (({ g with actions := [] } : Game).execute roll
        .rollDice).1)
    unfold SameLast
    rw [hkept,hkept]
    exact h
  · exact halike.sameLast_executeAction roll hbacked

theorem Game.lastMoved_loadMap (saved : Board) (value count : ℕ) :
    (g.loadMap saved value count).lastMoved = g.lastMoved := by
  unfold loadMap
  dsimp only
  split <;> try split_ifs
  all_goals rfl

/-- After any roll a pawn is to be moved, or no six is behind, or a six cannot be moved. -/
theorem Game.noThirdSix_executeAction (g : Game) (roll : ℕ) :
    (g.executeAction .rollDice roll).NoThirdSix := by
  have hactions : (({ g with actions := [] } : Game).execute roll .rollDice).1.actions = [] := rfl
  show ((({ g with actions := [] } : Game).execute roll .rollDice).1.diceActionListener).NoThirdSix
  generalize (({ g with actions := [] } : Game).execute roll .rollDice).1 = g at hactions
  intro hroll htwo
  rcases g.diceActionListener_cases with ⟨-,-,-,heq⟩ | ⟨-,-,heq⟩ | ⟨hnone,heq | ⟨hsix,heq⟩⟩
  · rw [heq] at htwo
    cases htwo
  · rw [heq] at hroll
    simp only [registerMoves,register,setCurrentAction,hactions,List.nil_append] at hroll
    exact (backed_of_mem_setPlayerMoves hroll).elim
  · rw [heq] at htwo
    cases htwo
  · rw [heq]
    rw [hsix] at hnone
    exact Bool.eq_false_iff.mpr hnone

theorem Game.noThirdSix_loadMap (saved : Board) (value : ℕ) {count : ℕ} (h : count ≠ 2) :
    (g.loadMap saved value count).NoThirdSix := by
  have hcount : (g.loadMap saved value count).consecutive6 = count ∨
      (g.loadMap saved value count).consecutive6 = 0 := by
    unfold loadMap
    dsimp only
    split <;> try split_ifs
    all_goals first | exact .inl rfl | exact .inr rfl
  intro _ htwo
  omega

end LastMoved

/-- No game is loaded that has two sixes behind it. -/
def Event.LoadsNoTwoSixes : Event → Prop
  | .load file => ∀ saved ∈ loadFromFile file, saved.2.2 ≠ 2
  | _ => True

section Step
variable {g t : Game}

/-- What holds after each thing that can be done with both games holds after a step. -/
theorem rel_step {Q : Game → Game → Prop} (hactions : g.actions = t.actions) (e : Event)
    (hclick : ∀ a ∈ g.actions, ∀ roll, Q (g.executeAction a roll) (t.executeAction a roll))
    (hnew : Q g.startGame t.startGame) (hsave : Q g t)
    (hload : ∀ file, e = .load file → ∀ saved ∈ loadFromFile file,
      Q (g.loadMap saved.1 saved.2.1 saved.2.2) (t.loadMap saved.1 saved.2.1 saved.2.2)) :
    Option.Rel Q (g.step e) (t.step e) := by
  cases e with
  | click i roll =>
    simp only [Game.step,← hactions]
    split_ifs
    · cases ha : g.actions[i]? with
      | none => exact .none
      | some a => exact .some (hclick a (List.mem_of_getElem? ha) roll)
    · exact .none
  | newGame => exact .some hnew
  | save => exact .some hsave
  | load file =>
    simp only [Game.step]
    cases hfile : loadFromFile file with
    | none => exact .none
    | some saved => exact .some (hload file rfl saved hfile)

/-- Whatever is done with one game can be done with the other. -/
theorem bisimulation_sameLast :
    ludo.Bisimulation (fun _ => True) fun g t => g.Ready ∧ g.Alike t ∧ g.SameLast t := by
  rintro g t e - ⟨hg,h,hlast⟩
  refine rel_step h.actions e ?_ ⟨.dice rfl,h.startGame,hlast⟩ ⟨hg,h,hlast⟩ ?_
  · intro a ha roll
    exact ⟨hg.executeAction ha,h.executeAction hg (.inl hlast) roll ha,hlast.executeAction h hg roll ha⟩
  · rintro file - saved -
    refine ⟨Game.ready_loadMap _ _ _,.loadMap _ _ _ _ _,?_⟩
    unfold Game.SameLast
    rw [Game.lastMoved_loadMap,Game.lastMoved_loadMap]
    exact hlast

/-- A move makes the static fields the same, and before it nobody asks them. -/
theorem bisimulation_noThirdSix : ludo.Bisimulation Event.LoadsNoTwoSixes fun g t =>
    g.Ready ∧ g.Alike t ∧ (g.SameLast t ∨ g.NoThirdSix) := by
  rintro g t e he ⟨hg,h,hlast⟩
  refine rel_step h.actions e ?_ ⟨.dice rfl,h.startGame,.inr ?_⟩ ⟨hg,h,hlast⟩ ?_
  · intro a ha roll
    refine ⟨hg.executeAction ha,h.executeAction hg hlast roll ha,?_⟩
    rcases hg.backed ha with rfl | hbacked
    · exact .inr (g.noThirdSix_executeAction roll)
    · exact .inl (h.sameLast_executeAction roll hbacked)
  · rintro - (htwo : 0 = 2)
    cases htwo
  · rintro file rfl saved hsaved
    exact ⟨Game.ready_loadMap _ _ _,.loadMap _ _ _ _ _,
      .inr (Game.noThirdSix_loadMap _ _ (he saved hsaved))⟩

/-- Both can be played on, as long as nobody asks for what they do not share. -/
theorem Game.Alike.exec (h : g.Alike t) (hg : g.Ready) (l : List Event)
    (hlast : g.SameLast t ∨ (g.NoThirdSix ∧ ∀ e ∈ l, e.LoadsNoTwoSixes)) :
    Option.Rel Game.Alike (ludo.exec g l) (ludo.exec t l) := by
  rcases hlast with hsame | ⟨hno,hl⟩
  · have hrel := bisimulation_sameLast.exec ⟨hg,h,hsame⟩ l fun _ _ => trivial
    exact TransitionSystem.rel_mono (fun _ _ h => h.2.1) hrel
  · have hrel := bisimulation_noThirdSix.exec ⟨hg,h,.inr hno⟩ l hl
    exact TransitionSystem.rel_mono (fun _ _ h => h.2.1) hrel

end Step

/-- No yard with a fifth pawn, and no pawn between two of another colour where there is no shelter. -/
def Board.Plain (b : Board) : Prop :=
  (∀ c, b.yards c ≤ 4) ∧ ∀ p ∈ Finset.Icc 1 52, isShelterPosition p = false → Together (b.track p)

theorem alike_reloaded {b : Board} (h : b.Plain) : b.Alike b.reloaded where
  track := (looks_reloaded b).track
  unsheltered p hp hshelter := by
    simp only [Board.reloaded]
    rw [if_pos (mem_range'_iff.mpr hp)]
    exact (grouped_eq_self (h.2 p hp hshelter)).symm
  lanes := (looks_reloaded b).lanes
  yards := by
    funext c
    exact (min_eq_right (h.1 c)).symm
  pockets := rfl
  currentPlayer := rfl
  currentAction := rfl

/-- A save that is loaded into any game has the player, the phase, the dice and the actions of the game
that it has been made of, if and only if the phase is the dice's when they are registered; and then both
games can be played on in the same ways, where the same pawn has been moved last, or no third six can
come before a move. -/
theorem resumes_iff_of_reachable {g : Game} (h : ludo.Reachable g) (s : Game) :
    ∃ t, s.step (.load (saveToFile g.board g.curValue g.consecutive6)) = some t ∧
      (g.Resumes t ↔ (.rollDice ∈ g.actions → g.board.currentAction = .ROLLDICE)) ∧
      (g.Resumes t → g.board.Plain → ∀ l,
        g.SameLast s ∨ (g.NoThirdSix ∧ ∀ e ∈ l, e.LoadsNoTwoSixes) →
          Option.Rel Game.Resumes (ludo.exec g l) (ludo.exec t l)) := by
  have hready := ready_of_reachable h
  have hiff := Game.resumes_iff s hready
  refine ⟨s.loadMap g.board.reloaded g.curValue g.consecutive6,?_,hiff,?_⟩
  · unfold Game.step
    dsimp only
    rw [loadFromFile_saveToFile]
    rfl
  · intro hresumes hplain l hlast
    have halike : g.Alike (s.loadMap g.board.reloaded g.curValue g.consecutive6) := by
      rw [Game.loadMap_reloaded s hready (hiff.mp hresumes)]
      exact ⟨alike_reloaded hplain,rfl,rfl,rfl⟩
    have hsame : g.SameLast (s.loadMap g.board.reloaded g.curValue g.consecutive6) ↔ g.SameLast s := by
      unfold Game.SameLast
      rw [Game.lastMoved_loadMap]
    have hrel := halike.exec hready l (hlast.imp_left hsame.mpr)
    exact TransitionSystem.rel_mono (fun _ _ h => h.resumes) hrel

/-- Green has rolled a five, and is to bring a pawn out. -/
theorem resumes_iff_of_reachable_five : ∃ g t, ludo.Reachable g ∧ g.actions = [.yardToTrack] ∧
    g.step (.load (saveToFile g.board g.curValue g.consecutive6)) = some t ∧ g.Resumes t ∧
    ∀ l, Option.Rel Game.Resumes (ludo.exec g l) (ludo.exec t l) := by
  obtain ⟨g,hg,hp⟩ := TransitionSystem.exists_reachable_of_exec (T := ludo) (l := [.click 0 5])
    (p := fun g => g.actions = [.yardToTrack] ∧ (∀ c ∈ [PlayerColor.RED,.GREEN,.YELLOW,.BLUE],
      g.board.yards c ≤ 4) ∧ ∀ p ∈ Finset.Icc (1 : ℕ) 52, g.board.track p = [])
    (by decide +kernel)
  rw [decide_eq_true_eq] at hp
  obtain ⟨hactions,hyards,htrack⟩ := hp
  obtain ⟨t,ht,hiff,hplay⟩ := resumes_iff_of_reachable hg g
  have hresumes : g.Resumes t := hiff.mpr fun hdice => by
    rw [hactions] at hdice
    cases List.mem_singleton.mp hdice
  have hplain : g.board.Plain := by
    refine ⟨fun c => hyards c (by cases c <;> decide),fun p hp _ c d hsub => ?_⟩
    rw [htrack p hp] at hsub
    cases hsub
  exact ⟨g,t,hg,hactions,ht,hresumes,fun l => hplay hresumes hplain l (.inl fun _ => rfl)⟩

/-- Green has brought it out and yellow is to roll, but for the load yellow has rolled green's five. -/
theorem not_resumes_after_five : ∃ g t, ludo.Reachable g ∧ g.actions = [.rollDice] ∧
    g.step (.load (saveToFile g.board g.curValue g.consecutive6)) = some t ∧
    t.actions = [.yardToTrack] ∧ ¬g.Resumes t := by
  obtain ⟨g,hg,hp⟩ := TransitionSystem.exists_reachable_of_exec (T := ludo)
    (l := [.click 0 5,.click 0 1])
    (p := fun g => g.actions = [.rollDice] ∧
      (g.step (.load (saveToFile g.board g.curValue g.consecutive6))).any fun t =>
        t.actions = [.yardToTrack]) (by decide +kernel)
  rw [decide_eq_true_eq] at hp
  obtain ⟨t,ht,hactions⟩ := (Option.any_eq_true _ _).mp hp.2
  rw [decide_eq_true_eq] at hactions
  refine ⟨g,t,hg,hp.1,ht,hactions,fun hresumes => ?_⟩
  have hdice := (hresumes.actions .rollDice).mpr (hp.1 ▸ List.mem_singleton_self _)
  rw [hactions] at hdice
  cases List.mem_singleton.mp hdice

end PucRio.Ludo
