import PucRio.Ludo.RegisteredMoves

/-! What a pawn passes on its way. The squares past the 52nd are not looked at, nor those in front of
the lane, nor a barrier with one of the player's pawns before it. Every barrier is opened as soon as one
of them has a free way, also one whose own way is closed. -/
namespace PucRio.Ludo

/-- No shelter, with two pawns of another colour. -/
def Board.Closed (b : Board) (c : PlayerColor) (position : ℕ) : Prop :=
  isShelterPosition position = false ∧ ∃ d ∈ b.track position, d ≠ c ∧ 1 < (b.track position).count d

instance (b : Board) (c : PlayerColor) (position : ℕ) : Decidable (b.Closed c position) :=
  inferInstanceAs (Decidable (isShelterPosition position = false ∧
    ∃ d ∈ b.track position, d ≠ c ∧ 1 < (b.track position).count d))

section Ways
variable (b : Board) (c : PlayerColor) (diceValue : ℕ)

/-- A pawn on the track neither leaves its colour's last square nor goes past it, and no pawn passes a
closed square. The squares of the way are counted around the track. -/
def Action.MayPass : Action → ℕ → Prop
  | .trackToTrack fromSquare _ _,j =>
    destinationPos j fromSquare ≠ getPositionOfLastSquareOfPlayer c ∧
      (0 < j → ¬b.Closed c (destinationPos j fromSquare))
  | .trackToLane lane fromSquare _,j =>
    0 < j → fromSquare+j ≤ getPositionOfLastSquareOfPlayer lane → ¬b.Closed c (fromSquare+j)
  | _,_ => True

instance : ∀ a j, Decidable (Action.MayPass b c a j)
  | .trackToTrack fromSquare _ _,j => inferInstanceAs (Decidable
    (destinationPos j fromSquare ≠ getPositionOfLastSquareOfPlayer c ∧
      (0 < j → ¬b.Closed c (destinationPos j fromSquare))))
  | .trackToLane lane fromSquare _,j => inferInstanceAs (Decidable (0 < j →
    fromSquare+j ≤ getPositionOfLastSquareOfPlayer lane → ¬b.Closed c (fromSquare+j)))
  | .rollDice,_ => inferInstanceAs (Decidable True)
  | .yardToTrack,_ => inferInstanceAs (Decidable True)
  | .trackToPocket ..,_ => inferInstanceAs (Decidable True)
  | .laneToLane ..,_ => inferInstanceAs (Decidable True)
  | .laneToPocket ..,_ => inferInstanceAs (Decidable True)

def Action.Lawful (a : Action) : Prop := ∀ j < diceValue, a.MayPass b c j

instance (a : Action) : Decidable (a.Lawful b c diceValue) :=
  inferInstanceAs (Decidable (∀ j < diceValue, a.MayPass b c j))

/-- The steps of a way that nobody looks at, and those of an opened barrier whose way
`canMoveInsideTrack` refuses. -/
def Action.Unseen : Action → ℕ → Prop
  | .trackToTrack fromSquare _ _,j => 52 < fromSquare+j ∨
    (((diceValue = 6 ∨ diceValue = 7) ∧ currentPlayerHasBarrierAtTrack b.track c fromSquare = true) ∧
      canMoveInsideTrack b.track diceValue c fromSquare = false) ∨
    (b.track (fromSquare+j)).head? = some c
  | _,_ => True

instance : ∀ a j, Decidable (Action.Unseen b c diceValue a j)
  | .trackToTrack fromSquare _ _,j => inferInstanceAs (Decidable (52 < fromSquare+j ∨
    (((diceValue = 6 ∨ diceValue = 7) ∧ currentPlayerHasBarrierAtTrack b.track c fromSquare = true) ∧
      canMoveInsideTrack b.track diceValue c fromSquare = false) ∨
    (b.track (fromSquare+j)).head? = some c))
  | .rollDice,_ => inferInstanceAs (Decidable True)
  | .yardToTrack,_ => inferInstanceAs (Decidable True)
  | .trackToLane ..,_ => inferInstanceAs (Decidable True)
  | .trackToPocket ..,_ => inferInstanceAs (Decidable True)
  | .laneToLane ..,_ => inferInstanceAs (Decidable True)
  | .laneToPocket ..,_ => inferInstanceAs (Decidable True)

end Ways

section Seen
variable {b : Board} {c : PlayerColor} {d n j p q : ℕ} {s : Bool}

theorem destinationPos_of_le (h : p+j ≤ 52) : destinationPos j p = p+j := if_neg (by omega)

/-- A closed square with another colour's pawn before its others is a barrier. -/
theorem opponentHasBarrierAt_of_closed (h : b.Closed c p) (hhead : (b.track p).head? ≠ some c) :
    opponentHasBarrierAt b.track c p = true := by
  obtain ⟨hshelter,o,-,-,hcount⟩ := h
  have hlength : 1 < (b.track p).length := lt_of_lt_of_le hcount List.count_le_length
  simp only [opponentHasBarrierAt,Bool.and_eq_true,Bool.not_eq_true',decide_eq_true_eq,bne_iff_ne,
    ne_eq]
  exact ⟨⟨hshelter,hlength⟩,hhead⟩

/-- What `canMoveInsideTrack` looks at. -/
theorem seen_of_canMoveInsideTrack (h : canMoveInsideTrack b.track d c p = true) (hj : j < d)
    (hle : p+j ≤ 52) (hhead : (b.track (p+j)).head? ≠ some c) :
    destinationPos j p ≠ getPositionOfLastSquareOfPlayer c ∧ ¬b.Closed c (destinationPos j p) := by
  rw [destinationPos_of_le hle]
  simp only [canMoveInsideTrack,Bool.and_eq_true,Bool.not_eq_true',List.any_eq_false,List.mem_range,
    Bool.or_eq_true,beq_iff_eq,decide_eq_true_eq,not_or,not_and] at h
  obtain ⟨hlast,hbarrier⟩ := h.1.1 j hj
  exact ⟨hlast,fun hclosed => hbarrier hle (opponentHasBarrierAt_of_closed hclosed hhead)⟩

/-- A move is as lawful as the part of its way that nobody looks at. -/
theorem lawful_iff {a : Action} (h : ∀ p q s, a = .trackToTrack p q s →
      canMoveInsideTrack b.track d c p = true ∨
        (d = 6 ∨ d = 7) ∧ currentPlayerHasBarrierAtTrack b.track c p = true) :
    a.Lawful b c d ↔ ∀ j < d, a.Unseen b c d j → a.MayPass b c j := by
  refine ⟨fun hlawful j hj _ => hlawful j hj,fun hfree j hj => ?_⟩
  by_cases hunseen : a.Unseen b c d j
  · exact hfree j hj hunseen
  · cases a with
    | trackToTrack p q s =>
      obtain ⟨hle,hunseen⟩ := not_or.mp hunseen
      obtain ⟨hopens,hhead⟩ := not_or.mp hunseen
      have hinside : canMoveInsideTrack b.track d c p = true :=
        (h p q s rfl).elim id fun hbarrier => by simpa [hbarrier] using hopens
      obtain ⟨hlast,hclosed⟩ := seen_of_canMoveInsideTrack hinside hj (not_lt.mp hle) hhead
      exact ⟨hlast,fun _ => hclosed⟩
    | _ => exact (hunseen trivial).elim

end Seen

/-- In every state that is reached the registered moves are lawful where the squares that nobody looks
at are; a move along the track goes as many steps as the roll or the bonus has. -/
theorem lawful_iff_of_reachable {g : Game} (h : ludo.Reachable g) : ∀ a ∈ g.actions,
    (a.Lawful g.board g.board.currentPlayer g.steps ↔ ∀ j < g.steps,
      a.Unseen g.board g.board.currentPlayer g.steps j → a.MayPass g.board g.board.currentPlayer j) ∧
    ∀ p q s, a = .trackToTrack p q s →
      p ∈ ownSquares g.board g.board.currentPlayer ∧ q = destinationPos g.steps p := by
  intro a ha
  have hready := ready_of_reachable h
  refine ⟨lawful_iff ?_,?_⟩
  · rintro p q s rfl
    obtain ⟨-,-,hway⟩ := Game.trackToTrack_of_mem_moves (hready.trackToTrack ha)
    exact hway.imp_right fun hopens => ⟨hopens.1,hopens.2.2⟩
  · rintro p q s rfl
    obtain ⟨heq,hp,-⟩ := Game.trackToTrack_of_mem_moves (hready.trackToTrack ha)
    exact ⟨hp,(Action.trackToTrack.inj heq).2.1⟩

/-- Blue brings two pawns round to the first square of the track, and red one out. -/
def barrierPastTheEnd : List Event :=
  noMoves++[.click 0 5,.click 0 1,.click 0 1]++
  noMoves++[.click 0 6,.click 0 1,.click 0 6,.click 0 1,.click 0 5,.click 0 1,.click 0 1]++
  noMoves++[.click 0 6,.click 1 1,.click 0 6,.click 1 1,.click 0 5,.click 2 1,.click 0 1]++
  noMoves++[.click 0 6,.click 1 1,.click 0 1,.click 1 1,.click 0 5,.click 0 1]++
  noMoves++[.click 0 5,.click 0 1]

/-- Red rolls a four: all squares of the way are looked at, or free. -/
theorem lawful_iff_of_reachable_four : ∃ g, ludo.Reachable g ∧
    .trackToTrack 48 52 true ∈ g.actions ∧
    (Action.trackToTrack 48 52 true).Lawful g.board g.board.currentPlayer g.steps := by
  obtain ⟨g,hg,hp⟩ := TransitionSystem.exists_reachable_of_exec (T := ludo)
    (l := barrierPastTheEnd++[.click 0 4])
    (p := fun g => .trackToTrack 48 52 true ∈ g.actions ∧ ∀ j < g.steps,
      Action.Unseen g.board g.board.currentPlayer g.steps (.trackToTrack 48 52 true) j →
        Action.MayPass g.board g.board.currentPlayer (.trackToTrack 48 52 true) j)
    (by decide +kernel)
  rw [decide_eq_true_eq] at hp
  exact ⟨g,hg,hp.1,(lawful_iff_of_reachable hg _ hp.1).1.mpr hp.2⟩

/-- Red rolls a six, and its pawn may pass blue's barrier. -/
theorem not_lawful_six : ∃ g, ludo.Reachable g ∧ g.board.track 1 = [.BLUE,.BLUE] ∧
    .trackToTrack 48 2 true ∈ g.actions ∧
    ¬(Action.trackToTrack 48 2 true).Lawful g.board g.board.currentPlayer g.steps := by
  obtain ⟨g,hg,hp⟩ := TransitionSystem.exists_reachable_of_exec (T := ludo)
    (l := barrierPastTheEnd++[.click 0 6])
    (p := fun g => g.board.track 1 = [.BLUE,.BLUE] ∧ .trackToTrack 48 2 true ∈ g.actions ∧
      ¬(Action.trackToTrack 48 2 true).Lawful g.board g.board.currentPlayer g.steps)
    (by decide +kernel)
  rw [decide_eq_true_eq] at hp
  exact ⟨g,hg,hp⟩

end PucRio.Ludo
