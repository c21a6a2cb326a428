import PucRio.Ludo.RegisteredMoves
import PucRio.Ludo.SavedGame

/-! A game that is saved and taken up again. The moves depend on little of the board, which the file
keeps; the phase in the file is the one that the last listener left. -/
namespace PucRio.Ludo

/-- What the moves depend on. -/
structure Board.Looks (b t : Board) : Prop where
  track : ∀ p ∈ Finset.Icc 1 52, (b.track p).Perm (t.track p)
  head : ∀ p ∈ Finset.Icc 1 52, isShelterPosition p = false → (b.track p).head? = (t.track p).head?
  lanes : ∀ c, ∀ k ∈ Finset.Icc 1 5, b.lanes c k = t.lanes c k
  yardPos : ∀ c, 0 < b.yards c ↔ 0 < t.yards c
  yardZero : ∀ c, b.yards c = 0 ↔ t.yards c = 0

theorem looks_reloaded (b : Board) : b.Looks b.reloaded where
  track p hp := by
    simp only [Board.reloaded]
    rw [if_pos (mem_range'_iff.mpr hp)]
    exact grouped_perm.symm
  head p hp _ := by
    simp only [Board.reloaded]
    rw [if_pos (mem_range'_iff.mpr hp)]
    exact head?_grouped.symm
  lanes c k hk := by
    simp only [Board.reloaded]
    rw [if_pos (mem_range'_iff.mpr hk)]
  yardPos c := by
    simp only [Board.reloaded]
    omega
  yardZero c := by
    simp only [Board.reloaded]
    omega

namespace Board.Looks
variable {b t : Board} {c : PlayerColor} {d n p : ℕ}

theorem length_eq (h : b.Looks t) (hp : p ∈ Finset.Icc 1 52) :
    (b.track p).length = (t.track p).length := (h.track p hp).length_eq

theorem opponentHasBarrierAt_eq (h : b.Looks t) (hp : p ∈ Finset.Icc 1 52) :
    opponentHasBarrierAt b.track c p = opponentHasBarrierAt t.track c p := by
  unfold opponentHasBarrierAt
  cases hshelter : isShelterPosition p with
  | true => rfl
  | false => rw [h.length_eq hp,h.head p hp hshelter]

theorem currentPlayerHasBarrierAtTrack_eq (h : b.Looks t) (hp : p ∈ Finset.Icc 1 52) :
    currentPlayerHasBarrierAtTrack b.track c p = currentPlayerHasBarrierAtTrack t.track c p := by
  unfold currentPlayerHasBarrierAtTrack
  rw [(h.track p hp).count_eq]

theorem canMoveInsideTrack_eq (h : b.Looks t) (hp : p ∈ Finset.Icc 1 52) :
    canMoveInsideTrack b.track d c p = canMoveInsideTrack t.track d c p := by
  have hpos := Finset.mem_Icc.mp hp
  have hstopped (j : ℕ) : (p+j == getPositionOfLastSquareOfPlayer c ||
      decide (p+j ≤ 52) && opponentHasBarrierAt b.track c (p+j)) =
      (p+j == getPositionOfLastSquareOfPlayer c ||
        decide (p+j ≤ 52) && opponentHasBarrierAt t.track c (p+j)) := by
    by_cases hj : p+j ≤ 52
    · rw [h.opponentHasBarrierAt_eq (Finset.mem_Icc.mpr ⟨by omega,hj⟩)]
    · simp only [hj,decide_false,Bool.false_and]
  unfold canMoveInsideTrack
  dsimp only
  simp only [hstopped]
  by_cases hdest : destinationPos d p ≤ 52
  · rw [h.length_eq (Finset.mem_Icc.mpr ⟨destinationPos_pos hp,hdest⟩)]
  · simp only [hdest,decide_false,Bool.and_false,Bool.false_and]

theorem canMoveFromTrackToLane_eq (h : b.Looks t) :
    canMoveFromTrackToLane (b.lanes c) d c p = canMoveFromTrackToLane (t.lanes c) d c p := by
  unfold canMoveFromTrackToLane
  dsimp only
  cases hfind : (List.range d).find? fun j => p+j == getPositionOfLastSquareOfPlayer c with
  | none => rfl
  | some j =>
    have hj := List.mem_range.mp (List.mem_of_find?_eq_some hfind)
    have hlast := List.find?_some hfind
    rw [beq_iff_eq] at hlast
    dsimp only
    by_cases hk : p+d-getPositionOfLastSquareOfPlayer c ≤ 5
    · rw [h.lanes c _ (Finset.mem_Icc.mpr ⟨by omega,hk⟩)]
    · simp only [hk,decide_false,Bool.false_and]

theorem canMoveInsideLane_eq (h : b.Looks t) (hp : p ∈ Finset.Icc 1 5) :
    canMoveInsideLane (b.lanes c) d p = canMoveInsideLane (t.lanes c) d p := by
  have hpos := Finset.mem_Icc.mp hp
  unfold canMoveInsideLane
  by_cases hd : p+d < 6
  · rw [h.lanes c (p+d) (Finset.mem_Icc.mpr (by omega))]
  · simp only [hd,decide_false,Bool.false_and]

theorem canMoveFromYardToTrack_eq (h : b.Looks t) :
    canMoveFromYardToTrack (b.yards c) d = canMoveFromYardToTrack (t.yards c) d := by
  unfold canMoveFromYardToTrack
  simp only [h.yardPos c]

theorem ownSquares_eq (h : b.Looks t) : ownSquares b c = ownSquares t c := by
  apply List.filter_congr
  intro p hp
  have hmem := (h.track p (mem_range'_iff.mp hp)).mem_iff (a := c)
  simp only [hmem]

theorem ownLaneSquares_eq (h : b.Looks t) : ownLaneSquares b c = ownLaneSquares t c := by
  apply List.filter_congr
  intro k hk
  rw [h.lanes c k (mem_range'_iff.mp hk)]

theorem any_eq {l : List ℕ} {f g : ℕ → Bool} (h : ∀ x ∈ l, f x = g x) : l.any f = l.any g := by
  induction l with
  | nil => rfl
  | cons x l ih =>
    rw [List.any_cons,List.any_cons,h x List.mem_cons_self,
      ih fun y hy => h y (List.mem_cons_of_mem _ hy)]

theorem hasMove_eq (h : b.Looks t) : hasMove b c d = hasMove t c d := by
  unfold hasMove
  rw [h.canMoveFromYardToTrack_eq,h.ownSquares_eq,h.ownLaneSquares_eq]
  congr 1
  · congr 1
    apply any_eq
    intro p hp
    rw [h.canMoveInsideTrack_eq (mem_ownSquares.mp hp).1,h.canMoveFromTrackToLane_eq]
  · apply any_eq
    intro k hk
    rw [h.canMoveInsideLane_eq (mem_ownLaneSquares.mp hk).1]

theorem setTrackMoves_eq (h : b.Looks t) : setTrackMoves b c d = setTrackMoves t c d := by
  unfold setTrackMoves
  rw [h.ownSquares_eq]
  apply List.flatMap_congr
  intro p hp
  rw [h.canMoveInsideTrack_eq (mem_ownSquares.mp hp).1,h.canMoveFromTrackToLane_eq]

theorem setLaneMoves_eq (h : b.Looks t) : setLaneMoves b c d = setLaneMoves t c d := by
  unfold setLaneMoves
  rw [h.ownLaneSquares_eq]
  apply List.flatMap_congr
  intro k hk
  rw [h.canMoveInsideLane_eq (mem_ownLaneSquares.mp hk).1]

theorem setMovePawnFromBarrierMoves_eq (h : b.Looks t) :
    setMovePawnFromBarrierMoves b c d = setMovePawnFromBarrierMoves t c d := by
  unfold setMovePawnFromBarrierMoves
  rw [h.ownSquares_eq]
  congr 1
  apply List.filter_congr
  intro p hp
  exact h.currentPlayerHasBarrierAtTrack_eq (mem_ownSquares.mp hp).1

theorem currentPlayerHasBarrier_eq (h : b.Looks t) :
    currentPlayerHasBarrier b.track c = currentPlayerHasBarrier t.track c :=
  any_eq fun _ hp => h.currentPlayerHasBarrierAtTrack_eq (mem_range'_iff.mp hp)

theorem canMovePawnFromBarrier_eq (h : b.Looks t) :
    canMovePawnFromBarrier b.track d c = canMovePawnFromBarrier t.track d c := by
  apply any_eq
  intro p hp
  rw [h.currentPlayerHasBarrierAtTrack_eq (mem_range'_iff.mp hp),
    h.canMoveInsideTrack_eq (mem_range'_iff.mp hp)]

theorem sixBecomesSeven_eq (h : b.Looks t) :
    sixBecomesSeven b c d n = sixBecomesSeven t c d n := by
  unfold sixBecomesSeven
  simp only [h.yardZero c]

theorem setPlayerMoves_eq (h : b.Looks t) : setPlayerMoves b c d n = setPlayerMoves t c d n := by
  unfold setPlayerMoves
  rw [h.sixBecomesSeven_eq]
  dsimp only
  rw [h.currentPlayerHasBarrier_eq,h.canMovePawnFromBarrier_eq,
    h.setMovePawnFromBarrierMoves_eq,h.canMoveFromYardToTrack_eq,h.setTrackMoves_eq,
    h.setLaneMoves_eq]

end Board.Looks

namespace Game
variable {g t : Game}

/-- The other game has the same player to move, phase, dice and actions. -/
structure Resumes (g t : Game) : Prop where
  currentPlayer : t.board.currentPlayer = g.board.currentPlayer
  currentAction : t.board.currentAction = g.board.currentAction
  curValue : t.curValue = g.curValue
  actions : ∀ a, a ∈ t.actions ↔ a ∈ g.actions

section Load
variable {b : Board} {value count : ℕ}

theorem moves_eq (h : g.board.Looks t.board) (hplayer : t.board.currentPlayer = g.board.currentPlayer)
    (hphase : t.board.currentAction = g.board.currentAction) (hvalue : t.curValue = g.curValue)
    (hcount : t.consecutive6 = g.consecutive6) : t.moves = g.moves := by
  unfold moves
  rw [hphase,hplayer,hvalue,hcount]
  cases g.board.currentAction with
  | SELECTPAWNBONUS10 => exact h.setTrackMoves_eq.symm
  | SELECTPAWNBONUS20 => exact h.setTrackMoves_eq.symm
  | ROLLDICE => exact h.setPlayerMoves_eq.symm
  | SELECTPAWN => exact h.setPlayerMoves_eq.symm
  | GAMEENDED => exact h.setPlayerMoves_eq.symm

theorem rollDice_not_mem_moves (g : Game) : .rollDice ∉ g.moves :=
  fun h => (backed_of_mem_moves h).elim

/-- The board that is loaded, with actions. -/
def loaded (g : Game) (b : Board) (value count : ℕ) (actions : List Action) : Game :=
  { g with
    board := b
    curValue := value
    consecutive6 := count
    actions := actions }

theorem loadMap_rollDice (h : b.currentAction = .ROLLDICE) :
    g.loadMap b value count = g.loaded b value count [.rollDice] := by
  unfold loadMap
  simp only [h]
  rfl

theorem loadMap_ended (h : b.currentAction = .GAMEENDED) :
    g.loadMap b value count = g.loaded b value count [] := by
  unfold loadMap
  simp only [h]
  unfold setCurrentAction loaded
  rw [← h]

/-- In a phase that waits for a move. -/
theorem loadMap_moves (hdice : b.currentAction ≠ .ROLLDICE) (hend : b.currentAction ≠ .GAMEENDED)
    (hselect : b.currentAction = .SELECTPAWN → hasMove b b.currentPlayer value = true) :
    g.loadMap b value count = g.loaded b value count (g.loaded b value count []).moves := by
  unfold loadMap
  dsimp only
  split
  · rename_i hphase
    exact (hend hphase).elim
  · rename_i hphase
    exact (hdice hphase).elim
  · rename_i hphase
    split_ifs with hmove
    · simp only [loaded,moves,registerMoves,register,hphase,List.nil_append]
    · exact (hmove (hselect hphase)).elim
  · rename_i hphase
    simp only [loaded,moves,registerBonus,register,hphase,List.nil_append]
  · rename_i hphase
    simp only [loaded,moves,registerBonus,register,hphase,List.nil_append]

/-- A state whose phase fits its actions is loaded as it has been saved, but for the board. -/
theorem loadMap_reloaded (s : Game) (h : g.Ready)
    (hdice : .rollDice ∈ g.actions → g.board.currentAction = .ROLLDICE) :
    s.loadMap g.board.reloaded g.curValue g.consecutive6 =
      s.loaded g.board.reloaded g.curValue g.consecutive6 g.actions := by
  have hlooks := looks_reloaded g.board
  cases h with
  | dice actions =>
    rw [actions]
    exact loadMap_rollDice (hdice (actions ▸ List.mem_singleton_self _))
  | ended actions phase =>
    rw [actions]
    exact loadMap_ended phase
  | move actions select waits running =>
    have hmoves : (s.loaded g.board.reloaded g.curValue g.consecutive6 []).moves = g.moves :=
      moves_eq hlooks rfl rfl rfl rfl
    rw [actions,← hmoves]
    exact loadMap_moves waits running fun hselect => hlooks.hasMove_eq.symm.trans (select hselect)

theorem next_ne (c : PlayerColor) : c.next ≠ c := by cases c <;> decide

/-- Only a save in the phase of the dice has the dice registered again for the same player. -/
theorem phase_of_loadMap (h : .rollDice ∈ (g.loadMap b value count).actions)
    (hplayer : (g.loadMap b value count).board.currentPlayer = b.currentPlayer) :
    b.currentAction = .ROLLDICE := by
  have hmoves (hne : b.currentAction ≠ .ROLLDICE) (hend : b.currentAction ≠ .GAMEENDED)
      (hselect : b.currentAction = .SELECTPAWN → hasMove b b.currentPlayer value = true) : False := by
    rw [loadMap_moves hne hend hselect] at h
    exact rollDice_not_mem_moves _ h
  cases hphase : b.currentAction with
  | ROLLDICE => rfl
  | SELECTPAWN =>
    refine (hmoves (by simp [hphase]) (by simp [hphase]) fun _ => ?_).elim
    by_contra hnone
    unfold loadMap at hplayer
    simp only [hphase] at hplayer
    split_ifs at hplayer with hmove
    · exact hnone hmove
    · exact next_ne _ hplayer
  | SELECTPAWNBONUS10 => exact (hmoves (by simp [hphase]) (by simp [hphase]) (by simp [hphase])).elim
  | SELECTPAWNBONUS20 => exact (hmoves (by simp [hphase]) (by simp [hphase]) (by simp [hphase])).elim
  | GAMEENDED =>
    rw [loadMap_ended hphase] at h
    cases h

/-- The four are the same if and only if the phase is the dice's when the dice are registered. -/
theorem resumes_iff (s : Game) (h : g.Ready) :
    g.Resumes (s.loadMap g.board.reloaded g.curValue g.consecutive6) ↔
      (.rollDice ∈ g.actions → g.board.currentAction = .ROLLDICE) := by
  constructor
  · intro hresumes hdice
    exact phase_of_loadMap (b := g.board.reloaded) ((hresumes.actions _).mpr hdice) hresumes.currentPlayer
  · intro hdice
    rw [loadMap_reloaded s h hdice]
    exact ⟨rfl,rfl,rfl,fun _ => Iff.rfl⟩

end Load
end Game
end PucRio.Ludo
