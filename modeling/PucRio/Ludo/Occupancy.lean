import PucRio.Ludo.RegisteredMoves

/-! How many pawns a square of the track holds. Barriers are opened without a look at where their pawns
go to; where every opened barrier has a way, at most two pawns of one colour meet. -/
namespace PucRio.Ludo

/-- At most two pawns, of one colour. -/
def Pair (l : List PlayerColor) : Prop := l.length ≤ 2 ∧ ∀ c ∈ l, ∀ d ∈ l, c = d

instance (l : List PlayerColor) : Decidable (Pair l) :=
  inferInstanceAs (Decidable (l.length ≤ 2 ∧ ∀ c ∈ l, ∀ d ∈ l, c = d))

def Board.Paired (b : Board) : Prop :=
  ∀ p ∈ Finset.Icc 1 52, isShelterPosition p = false → Pair (b.track p)

instance (b : Board) : Decidable b.Paired :=
  inferInstanceAs (Decidable (∀ p ∈ Finset.Icc 1 52, isShelterPosition p = false →
    Pair (b.track p)))

section Pair
variable {l : List PlayerColor} {c : PlayerColor}

theorem Pair.erase (h : Pair l) (c : PlayerColor) : Pair (l.erase c) := by
  refine ⟨(List.erase_sublist).length_le.trans h.1,fun a ha b hb => ?_⟩
  exact h.2 a (List.mem_of_mem_erase ha) b (List.mem_of_mem_erase hb)

/-- Where fewer than two pawns are, there is one of the player's, or one that is captured. -/
theorem pair_append (h : l.length < 2) :
    match (l.head?.filter (· != c)).filter fun _ => true with
    | none => Pair (l ++ [c])
    | some o => Pair (l.erase o ++ [c]) := by
  cases l with
  | nil => exact ⟨by simp,by simp⟩
  | cons x l =>
    obtain rfl : l = [] := List.length_eq_zero_iff.mp (by simp only [List.length_cons] at h; omega)
    by_cases hx : x = c
    · subst hx
      simp [Option.filter,Pair]
    · simp [Option.filter,Pair,hx]

end Pair

section Board
variable {b : Board} {c : PlayerColor} {p : ℕ}

theorem paired_new : Board.new.Paired := fun _ _ _ => ⟨by simp [Board.new],by simp [Board.new]⟩

theorem Board.Paired.removeFromTrack (h : b.Paired) (p : ℕ) (c : PlayerColor) :
    (b.removeFromTrack p c).Paired := by
  intro q hq hshelter
  by_cases hpq : q = p
  · subst hpq
    simp only [Board.removeFromTrack,Function.update_self]
    exact (h q hq hshelter).erase c
  · simp only [Board.removeFromTrack,Function.update_of_ne hpq]
    exact h q hq hshelter

theorem Board.Paired.addToTrack (h : b.Paired)
    (hp : isShelterPosition p = false → Pair (b.track p ++ [c])) : (b.addToTrack p c).Paired := by
  intro q hq hshelter
  by_cases hpq : q = p
  · subst hpq
    simp only [Board.addToTrack,Function.update_self]
    exact hp hshelter
  · simp only [Board.addToTrack,Function.update_of_ne hpq]
    exact h q hq hshelter

theorem isShelterPosition_getInitialSquarePosition (c : PlayerColor) :
    isShelterPosition (getInitialSquarePosition c) = true := by
  cases c <;> rfl

theorem canMoveInsideTrack_dest {track : ℕ → List PlayerColor} {d : ℕ}
    (h : canMoveInsideTrack track d c p = true) :
    isShelterPosition (destinationPos d p) = true ∨ (track (destinationPos d p)).length < 2 := by
  simp only [canMoveInsideTrack,Bool.and_eq_true,Bool.or_eq_true,decide_eq_true_eq] at h
  exact h.2

end Board

namespace Game
variable {g : Game} {a : Action}

/-- Every registered move along the track passes `canMoveInsideTrack`. -/
def Checked (g : Game) : Prop := ∀ p q shouldRemoveOpponent,
  .trackToTrack p q shouldRemoveOpponent ∈ g.actions →
    canMoveInsideTrack g.board.track g.steps g.board.currentPlayer p = true

section Execute

theorem paired_trackToTrack {p q : ℕ} {shouldRemoveOpponent : Bool} (roll : ℕ)
    (h : g.board.Paired) (hflag : shouldRemoveOpponent = !isShelterPosition q)
    (hdest : isShelterPosition q = true ∨ (g.board.track q).length < 2) :
    (g.execute roll (.trackToTrack p q shouldRemoveOpponent)).1.board.Paired := by
  have hcapture : isShelterPosition q = false →
      match ((g.board.track q).head?.filter (· != g.board.currentPlayer)).filter
        (fun _ => shouldRemoveOpponent) with
      | none => Pair (g.board.track q ++ [g.board.currentPlayer])
      | some o => Pair ((g.board.track q).erase o ++ [g.board.currentPlayer]) := by
    intro hshelter
    rw [hflag,hshelter]
    exact pair_append (hdest.resolve_left (by rw [hshelter]; decide))
  unfold Game.execute
  dsimp only
  generalize ((g.board.track q).head?.filter (· != g.board.currentPlayer)).filter
    (fun _ => shouldRemoveOpponent) = opponent at hcapture ⊢
  cases opponent with
  | none =>
    have hadd := h.addToTrack (c := g.board.currentPlayer) hcapture
    dsimp only
    split_ifs
    · exact hadd.removeFromTrack _ _
    · exact hadd
  | some o =>
    have hremoved : ((g.board.addToYard o).removeFromTrack q o).Paired :=
      Board.Paired.removeFromTrack (b := g.board.addToYard o) h q o
    have hadd := hremoved.addToTrack (p := q) (c := g.board.currentPlayer) fun hshelter => by
      simp only [Board.removeFromTrack,Board.addToYard,Function.update_self]
      exact hcapture hshelter
    dsimp only
    split_ifs
    · exact hadd.removeFromTrack _ _
    · exact hadd

/-- Off the track two pawns may meet, and on a shelter. -/
theorem paired_execute (roll : ℕ) (h : g.board.Paired) (hbacked : a.Backed g.board)
    (ha : ∀ p q s, a = .trackToTrack p q s → s = (!isShelterPosition q) ∧
      (isShelterPosition q = true ∨ (g.board.track q).length < 2)) :
    (g.execute roll a).1.board.Paired := by
  cases a with
  | rollDice => exact h
  | yardToTrack =>
    refine Board.Paired.addToTrack (b := g.board.removeFromYard _) h fun hshelter => ?_
    rw [isShelterPosition_getInitialSquarePosition] at hshelter
    cases hshelter
  | trackToTrack p q s =>
    obtain ⟨hflag,hdest⟩ := ha p q s rfl
    exact paired_trackToTrack roll h hflag hdest
  | trackToLane c p k =>
    have heq : g.execute roll (.trackToLane c p k) = _ := if_pos hbacked.2.2
    rw [heq]
    exact h.removeFromTrack p c
  | trackToPocket c p =>
    have heq : g.execute roll (.trackToPocket c p) = _ := if_pos hbacked.2
    rw [heq]
    exact h.removeFromTrack p c
  | laneToLane c j k =>
    have heq : g.execute roll (.laneToLane c j k) = _ := if_pos hbacked.2.2
    rw [heq]
    exact h
  | laneToPocket c j =>
    have heq : g.execute roll (.laneToPocket c j) = _ := if_pos hbacked.2
    rw [heq]
    exact h

end Execute
end Game

section Opened
variable {b : Board} {c : PlayerColor} {d n p : ℕ}

/-- If one of the player's barriers can be opened with a six or a seven, all of them can. -/
def OpensChecked (b : Board) (c : PlayerColor) (diceValue consecutive6 : ℕ) : Prop :=
  let d := sixBecomesSeven b c diceValue consecutive6
  (d = 6 ∨ d = 7) → canMovePawnFromBarrier b.track d c = true →
    ∀ p ∈ Finset.Icc 1 52, currentPlayerHasBarrierAtTrack b.track c p = true →
      canMoveInsideTrack b.track d c p = true

instance : Decidable (OpensChecked b c d n) :=
  inferInstanceAs (Decidable (sixBecomesSeven b c d n = 6 ∨ sixBecomesSeven b c d n = 7 →
    canMovePawnFromBarrier b.track (sixBecomesSeven b c d n) c = true →
      ∀ p ∈ Finset.Icc 1 52, currentPlayerHasBarrierAtTrack b.track c p = true →
        canMoveInsideTrack b.track (sixBecomesSeven b c d n) c p = true))

theorem mem_ownSquares_of_barrier (hp : p ∈ Finset.Icc 1 52)
    (h : currentPlayerHasBarrierAtTrack b.track c p = true) : p ∈ ownSquares b c := by
  simp only [currentPlayerHasBarrierAtTrack,Bool.and_eq_true,decide_eq_true_eq] at h
  exact mem_ownSquares.mpr ⟨hp,List.count_pos_iff.mp (by omega)⟩

theorem currentPlayerHasBarrier_of_canMovePawnFromBarrier
    (h : canMovePawnFromBarrier b.track d c = true) :
    currentPlayerHasBarrier b.track c = true := by
  obtain ⟨position,hp,hmove⟩ := List.any_eq_true.mp h
  exact List.any_eq_true.mpr ⟨position,hp,((Bool.and_eq_true _ _).mp hmove).1⟩

/-- The moves of a roll pass `canMoveInsideTrack` where the opened barriers do. -/
theorem checked_setPlayerMoves_iff :
    (∀ p q s, .trackToTrack p q s ∈ setPlayerMoves b c d n →
      canMoveInsideTrack b.track (sixBecomesSeven b c d n) c p = true) ↔ OpensChecked b c d n := by
  constructor
  · intro h hd hopen p hp hbarrier
    have hmem : setPlayerTrackToTrackMoves (sixBecomesSeven b c d n) p ∈ setPlayerMoves b c d n := by
      unfold setPlayerMoves
      dsimp only
      rw [if_pos ⟨hd,currentPlayerHasBarrier_of_canMovePawnFromBarrier hopen,hopen⟩]
      exact mem_setMovePawnFromBarrierMoves.mpr
        ⟨p,mem_ownSquares_of_barrier hp hbarrier,hbarrier,rfl⟩
    exact h p _ _ hmem
  · intro h p q s hmem
    obtain ⟨-,hp,hinside | ⟨hd,hopen,hat⟩⟩ := Game.trackToTrack_of_mem_setPlayerMoves hmem
    · exact hinside
    · exact h hd hopen p (mem_ownSquares.mp hp).1 hat

end Opened

namespace Game

/-- Where a roll or a save brings moves, all barriers can be opened if one can; a save has at most two
pawns, of one colour, on a square that is no shelter. -/
def KeepsPairs (g : Game) : Event → Prop
  | .click i roll => g.actions[i]? = some .rollDice → g.canMove roll = true →
    ¬(roll = 6 ∧ g.consecutive6 = 2) → OpensChecked g.board g.board.currentPlayer roll
      (if roll = 6 then g.consecutive6+1 else g.consecutive6)
  | .load file => ∀ saved ∈ loadFromFile file, saved.1.Paired ∧
    (saved.1.currentAction = .SELECTPAWN →
      hasMove saved.1 saved.1.currentPlayer saved.2.1 = true →
        OpensChecked saved.1 saved.1.currentPlayer saved.2.1 saved.2.2)
  | _ => True

instance (g : Game) : ∀ e, Decidable (g.KeepsPairs e)
  | .click i roll => inferInstanceAs (Decidable (g.actions[i]? = some .rollDice →
    g.canMove roll = true → ¬(roll = 6 ∧ g.consecutive6 = 2) →
      OpensChecked g.board g.board.currentPlayer roll
        (if roll = 6 then g.consecutive6+1 else g.consecutive6)))
  | .newGame => inferInstanceAs (Decidable True)
  | .save => inferInstanceAs (Decidable True)
  | .load file => inferInstanceAs (Decidable (∀ saved ∈ loadFromFile file, saved.1.Paired ∧
    (saved.1.currentAction = .SELECTPAWN →
      hasMove saved.1 saved.1.currentPlayer saved.2.1 = true →
        OpensChecked saved.1 saved.1.currentPlayer saved.2.1 saved.2.2)))

section Listeners
variable {g : Game} {a : Action}

theorem checked_of_rollDice (h : g.actions = [.rollDice]) : g.Checked := by
  intro p q s hmem
  rw [h] at hmem
  cases List.mem_singleton.mp hmem

theorem checked_of_nil (h : g.actions = []) : g.Checked := by
  intro p q s hmem
  rw [h] at hmem
  cases hmem

theorem checked_registerMoves (h : g.actions = []) (hphase : g.board.currentAction = .SELECTPAWN) :
    (g.registerMoves g.curValue).Checked ↔
      OpensChecked g.board g.board.currentPlayer g.curValue g.consecutive6 := by
  have hsteps : (g.registerMoves g.curValue).steps =
      sixBecomesSeven g.board g.board.currentPlayer g.curValue g.consecutive6 := by
    simp only [registerMoves,register,steps,hphase]
  have hactions : (g.registerMoves g.curValue).actions =
      setPlayerMoves g.board g.board.currentPlayer g.curValue g.consecutive6 := by
    simp only [registerMoves,register,h,List.nil_append]
  unfold Checked
  rw [hsteps,hactions]
  exact checked_setPlayerMoves_iff

theorem checked_registerBonus {d : ℕ} (h : g.actions = []) (hsteps : g.steps = d) :
    (g.registerBonus d).Checked := by
  intro p q s hmem
  have hactions : (g.registerBonus d).actions =
      setTrackMoves g.board g.board.currentPlayer d := by
    simp only [registerBonus,register,h,List.nil_append]
  rw [hactions] at hmem
  show canMoveInsideTrack g.board.track g.steps g.board.currentPlayer p = true
  rw [hsteps]
  exact (trackToTrack_of_mem_setTrackMoves hmem).2.2

theorem checked_endTurn (h : g.actions = []) : g.endTurn.Checked := by
  apply checked_of_rollDice
  unfold endTurn
  split_ifs
  · exact setPlayerDice_actions (g := Game.nextPlayer _) h
  · exact setPlayerDice_actions h

/-- What follows a pawn's move is checked, and leaves the board alone. -/
theorem checked_onActionExecuted (h : g.actions = []) (ha : a ≠ .rollDice) (capturedPawn : Bool) :
    (g.onActionExecuted capturedPawn a).Checked ∧
      (g.onActionExecuted capturedPawn a).board.track = g.board.track := by
  rcases g.onActionExecuted_cases a ha capturedPawn with heq | heq | ⟨-,heq⟩ | ⟨-,heq⟩
  · rw [heq]
    refine ⟨checked_endTurn h,?_⟩
    unfold endTurn
    split_ifs <;> rfl
  · rw [heq]
    exact ⟨checked_of_nil h,rfl⟩
  · rw [heq]
    exact ⟨checked_registerBonus (g := g.setCurrentAction _) h rfl,rfl⟩
  · rw [heq]
    exact ⟨checked_registerBonus (g := g.setCurrentAction _) h rfl,rfl⟩

theorem paired_removeLastMovedPawn (h : g.board.Paired) : g.removeLastMovedPawn.board.Paired := by
  unfold removeLastMovedPawn
  split_ifs
  · exact h.removeFromTrack _ _
  · exact h

theorem paired_diceActionListener (h : g.board.Paired) : g.diceActionListener.board.Paired := by
  rcases g.diceActionListener_cases with ⟨-,-,-,heq⟩ | ⟨-,-,heq⟩ | ⟨-,heq | ⟨-,heq⟩⟩
  · rw [heq]
    exact paired_removeLastMovedPawn h
  · rw [heq]
    exact h
  · rw [heq]
    exact h
  · rw [heq]
    exact h

theorem checked_diceActionListener (h : g.actions = []) : g.diceActionListener.Checked ↔
    (g.canMove g.curValue = true → ¬(g.curValue = 6 ∧ g.consecutive6 = 3) →
      OpensChecked g.board g.board.currentPlayer g.curValue g.consecutive6) := by
  rcases g.diceActionListener_cases with ⟨h6,h3,-,heq⟩ | ⟨hthird,hmove,heq⟩ | ⟨hnone,hdice⟩
  · rw [heq]
    refine ⟨fun _ _ hthird => (hthird ⟨h6,h3⟩).elim,fun _ => ?_⟩
    exact checked_of_rollDice (setPlayerDice_actions (g := Game.nextPlayer _)
      (g.removeLastMovedPawn_actions.trans h))
  · have hopens := checked_registerMoves (g := g.setCurrentAction .SELECTPAWN) h rfl
    rw [heq]
    exact ⟨fun hc _ _ => hopens.mp hc,fun hc => hopens.mpr (hc hmove hthird)⟩
  · refine ⟨fun _ hmove => (hnone hmove).elim,fun _ => ?_⟩
    cases hdice with
    | inl heq =>
      rw [heq]
      exact checked_of_rollDice (setPlayerDice_actions (g := Game.nextPlayer _) h)
    | inr heq =>
      rw [heq.2]
      exact checked_of_rollDice (setPlayerDice_actions h)

theorem loadMap_track (saved : Board) (value count : ℕ) :
    (g.loadMap saved value count).board.track = saved.track := by
  unfold loadMap
  dsimp only
  split
  · rfl
  · rfl
  · split_ifs <;> rfl
  · rfl
  · rfl

theorem checked_loadMap (saved : Board) (value count : ℕ) :
    (g.loadMap saved value count).Checked ↔ (saved.currentAction = .SELECTPAWN →
      hasMove saved saved.currentPlayer value = true →
        OpensChecked saved saved.currentPlayer value count) := by
  unfold loadMap
  dsimp only
  split
  · rename_i hphase
    exact ⟨fun _ hselect => absurd (hphase.symm.trans hselect) (by decide),
      fun _ => checked_of_nil rfl⟩
  · rename_i hphase
    exact ⟨fun _ hselect => absurd (hphase.symm.trans hselect) (by decide),
      fun _ => checked_of_rollDice rfl⟩
  · rename_i hphase
    split_ifs with hmove
    · rw [checked_registerMoves rfl hphase]
      exact ⟨fun hopens _ _ => hopens,fun hopens => hopens hphase hmove⟩
    · exact ⟨fun _ _ hsaved => (hmove hsaved).elim,fun _ => checked_of_rollDice rfl⟩
  · rename_i hphase
    refine ⟨fun _ hselect => absurd (hphase.symm.trans hselect) (by decide),fun _ => ?_⟩
    exact checked_registerBonus rfl (by simp only [steps,hphase])
  · rename_i hphase
    refine ⟨fun _ hselect => absurd (hphase.symm.trans hselect) (by decide),fun _ => ?_⟩
    exact checked_registerBonus rfl (by simp only [steps,hphase])

/-- A pawn's move of a checked state. -/
theorem Checked.executeAction {roll : ℕ} (h : g.Checked) (hg : g.Ready) (hp : g.board.Paired)
    (ha : a ∈ g.actions) (hne : a ≠ .rollDice) :
    (g.executeAction a roll).board.Paired ∧ (g.executeAction a roll).Checked := by
  have hbacked := (hg.backed ha).resolve_left hne
  have hpaired : (({ g with actions := [] } : Game).execute roll a).1.board.Paired := by
    refine paired_execute (g := { g with actions := [] }) roll hp hbacked ?_
    rintro p q s rfl
    obtain ⟨heq,-⟩ := trackToTrack_of_mem_moves (hg.trackToTrack ha)
    obtain ⟨-,rfl,rfl⟩ := Action.trackToTrack.inj heq
    exact ⟨rfl,canMoveInsideTrack_dest (h _ _ _ ha)⟩
  obtain ⟨t,captured,ht,hmoved⟩ := execute_move (g := { g with actions := [] }) roll hbacked
  rw [ht] at hpaired
  unfold Game.executeAction
  rw [ht]
  obtain ⟨hchecked,htrack⟩ := checked_onActionExecuted hmoved.actions hne captured
  refine ⟨?_,hchecked⟩
  show ∀ p ∈ Finset.Icc 1 52,_
  intro p hp
  rw [htrack]
  exact hpaired p hp

/-- The step lemma: the guard says exactly when occupancy and checks are kept. -/
theorem keepsPairs_iff {t : Game} {e : Event} (hg : g.Ready) (hp : g.board.Paired)
    (hc : g.Checked) (ht : g.step e = some t) : t.board.Paired ∧ t.Checked ↔ g.KeepsPairs e := by
  cases e with
  | click i roll =>
    simp only [Game.step] at ht
    split_ifs at ht
    obtain ⟨a,ha,rfl⟩ := Option.map_eq_some_iff.mp ht
    by_cases hroll : a = .rollDice
    · subst hroll
      have hdice := checked_diceActionListener (g := (({ g with actions := [] } : Game).execute roll
        .rollDice).1) rfl
      have hthird : (roll = 6 ∧ (if roll = 6 then g.consecutive6+1 else g.consecutive6) = 3) ↔
          roll = 6 ∧ g.consecutive6 = 2 := by
        split_ifs <;> omega
      refine ⟨fun h _ hmove hn => hdice.mp h.2 hmove fun h3 => hn (hthird.mp h3),fun h => ?_⟩
      refine ⟨paired_diceActionListener (g := (({ g with actions := [] } : Game).execute roll
        .rollDice).1) hp,hdice.mpr fun hmove hn => ?_⟩
      exact h ha hmove fun h2 => hn (hthird.mpr h2)
    · refine ⟨fun _ hdice => ?_,fun _ => hc.executeAction hg hp (List.mem_of_getElem? ha) hroll⟩
      exact (hroll (Option.some.inj (ha.symm.trans hdice))).elim
  | newGame =>
    obtain rfl := Option.some.inj ht
    exact ⟨fun _ => trivial,fun _ => ⟨paired_new,checked_of_rollDice rfl⟩⟩
  | save =>
    obtain rfl := Option.some.inj ht
    exact ⟨fun _ => trivial,fun _ => ⟨hp,hc⟩⟩
  | load file =>
    obtain ⟨saved,hsaved,rfl⟩ := Option.map_eq_some_iff.mp ht
    have hpaired : (g.loadMap saved.1 saved.2.1 saved.2.2).board.Paired ↔ saved.1.Paired := by
      unfold Board.Paired
      rw [loadMap_track]
    rw [hpaired,checked_loadMap]
    refine ⟨fun h saved' hsaved' => ?_,fun h => h saved hsaved⟩
    obtain rfl : saved = saved' := Option.some.inj (hsaved.symm.trans hsaved')
    exact h

end Listeners
end Game

/-- While the guard is met, squares hold at most two pawns of one colour and the moves along the track
have been checked; the first step that breaks it ends one of both. -/
theorem paired_of_reachableUnder {g : Game} (h : ludo.ReachableUnder Game.KeepsPairs g) :
    g.board.Paired ∧ g.Checked ∧
      ∀ e t, g.step e = some t → (t.board.Paired ∧ t.Checked ↔ g.KeepsPairs e) := by
  have hkeeps : (g.Ready ∧ g.board.Paired) ∧ g.Checked := by
    refine h.invariant (I := fun g => (g.Ready ∧ g.board.Paired) ∧ g.Checked)
      ⟨⟨.dice rfl,paired_new⟩,Game.checked_of_rollDice rfl⟩ fun s e t hs hguard ht => ?_
    have hstep := (Game.keepsPairs_iff hs.1.1 hs.1.2 hs.2 ht).mpr hguard
    exact ⟨⟨hs.1.1.step ht,hstep.1⟩,hstep.2⟩
  exact ⟨hkeeps.1.2,hkeeps.2,fun _ _ => Game.keepsPairs_iff hkeeps.1.1 hkeeps.1.2 hkeeps.2⟩

/-- The first player's part of a round in which the others have nothing to move. -/
def alone (l : List Event) : List Event := l++[.click 0 1]++noMoves

/-- Green brings its pawns out and builds two barriers, one seven squares before the other. -/
def twoBarriers : List Event :=
  alone [.click 0 5,.click 0 1]++alone [.click 0 5,.click 0 1]++
  alone [.click 0 5,.click 0 1]++alone [.click 0 5,.click 0 1]++
  alone [.click 0 6,.click 0 1,.click 0 1,.click 1 1]++
  alone [.click 0 6,.click 0 1,.click 0 1,.click 1 1]++
  alone [.click 0 1,.click 0 1]++alone [.click 0 1,.click 0 1]

theorem paired_of_reachableUnder_twoBarriers : ∃ g, ludo.ReachableUnder Game.KeepsPairs g ∧
    g.board.track 10 = [.GREEN,.GREEN] ∧ g.board.track 17 = [.GREEN,.GREEN] ∧
    g.board.Paired ∧ g.Checked := by
  obtain ⟨g,hg,hp⟩ := TransitionSystem.exists_reachableUnder_of_execUnder (T := ludo)
    (G := Game.KeepsPairs) (l := twoBarriers)
    (p := fun g => g.board.track 10 = [.GREEN,.GREEN] ∧ g.board.track 17 = [.GREEN,.GREEN])
    (by decide +kernel)
  rw [decide_eq_true_eq] at hp
  have hpaired := paired_of_reachableUnder hg
  exact ⟨g,hg,hp.1,hp.2,hpaired.1,hpaired.2.1⟩

/-- Green rolls a six, a seven now, and may open both barriers; the first pawn is the third there. -/
theorem crowded_after_twoBarriers :
    (∃ g, ludo.Reachable g ∧ .trackToTrack 10 17 true ∈ g.actions ∧
      canMoveInsideTrack g.board.track g.steps g.board.currentPlayer 10 = false) ∧
    ∃ g, ludo.Reachable g ∧ g.board.track 17 = [.GREEN,.GREEN,.GREEN] ∧ ¬g.board.Paired := by
  obtain ⟨g,hg,hp⟩ := TransitionSystem.exists_reachable_of_exec (T := ludo)
    (l := twoBarriers++[.click 0 6])
    (p := fun g => .trackToTrack 10 17 true ∈ g.actions ∧
      canMoveInsideTrack g.board.track g.steps g.board.currentPlayer 10 = false) (by decide +kernel)
  obtain ⟨t,ht,hq⟩ := TransitionSystem.exists_reachable_of_exec (T := ludo)
    (l := twoBarriers++[.click 0 6,.click 0 1])
    (p := fun g => g.board.track 17 = [.GREEN,.GREEN,.GREEN] ∧ ¬g.board.Paired)
    (by decide +kernel)
  rw [decide_eq_true_eq] at hp hq
  exact ⟨⟨g,hg,hp⟩,t,ht,hq⟩

end PucRio.Ludo
