import Mathlib.Algebra.Order.BigOperators.Group.Finset
import PucRio.Lib.Words
import PucRio.Ludo.PawnConservation
import PucRio.Ludo.SaveText

/-! A game written to a file and read again, encrypted or not. Of the yards the reader keeps at most
four pawns. -/
namespace PucRio.Ludo
open Java

section Lines
variable (player : ℕ) (action : CurrentAction) (value count : ℕ) (lines : List Line)

/-- The number after a name of so many characters. -/
theorem number_of_field (name : String) (n : ℤ) {k : ℤ} (hk : (name.toList.length : ℤ)+1 = k) :
    (substringFrom (field name n) k).bind Java.valueOf = some n := by
  have hlength : (name.toList.length : ℤ)+1 = (name.toList ++ ['=']).length := by simp
  have hsplit : field name n = (name.toList ++ ['=']) ++ Printf.int n := by simp [field]
  rw [← hk,hlength,hsplit,substringFrom_append,Option.bind_some,valueOf_int]

theorem valueOf_text : (substringFrom (Line.text (.curAction action)) 10).bind
    CurrentAction.valueOf = some action := by
  cases action <;> decide

/-- The lines of a file are read as what they say. -/
theorem loadLines_text :
    loadLines ((.curPlayer player::.curAction action::.curDice value::.consecutive6 count::
      lines).map Line.text) =
      (loadFromFile (.curPlayer player::.curAction action::.curDice value::.consecutive6 count::
        lines)).map fun x => (x.1,(x.2.1 : ℤ),(x.2.2 : ℤ)) := by
  have hplayer : (substringFrom (Line.text (.curPlayer player)) 10).bind Java.valueOf =
      some (player : ℤ) := number_of_field "CURPLAYER" player (by decide)
  have hdice : (substringFrom (Line.text (.curDice value)) 8).bind Java.valueOf =
      some (value : ℤ) := number_of_field "CURDICE" value (by decide)
  have hsix : (substringFrom (Line.text (.consecutive6 count)) 13).bind Java.valueOf =
      some (count : ℤ) := number_of_field "CONSECUTIVE6" count (by decide)
  simp only [List.map_cons,loadLines,hplayer,valueOf_text,hdice,hsix,bind,Option.bind_some,
    Int.toNat_natCast,Loading.readTrackText_text,loadFromFile]
  cases PlayerColor.get player with
  | none => rfl
  | some currentPlayer =>
    simp only [Option.bind_some]
    cases Loading.readTrack {} lines with
    | none => rfl
    | some x =>
      simp only [Option.map_some,Option.bind_some,Loading.readYardsText_text]
      cases x.1.readYards false x.2 with
      | none => rfl
      | some l =>
        simp only [Option.bind_some]
        cases l.board currentPlayer action <;> rfl

end Lines

section File
variable {encrypt : List Char → List Char} {decrypt : List Char → Option (List Char)}

theorem isLine_map (lines : List Line) : ∀ l ∈ lines.map Line.text, IsLine l := by
  intro l hl
  obtain ⟨line,-,rfl⟩ := List.mem_map.mp hl
  exact isLine_text line

/-- A text of two lines or more is read line by line. -/
theorem loadFromText_plain (first second : Line) (lines : List Line) :
    loadFromText decrypt (saveString (first::second::lines)) =
      loadLines ((first::second::lines).map Line.text) := by
  have hrest := readLines_intercalate (isLine_map (second::lines))
  have hne : ['\n'].intercalate ((second::lines).map Line.text) ≠ [] := by
    intro h
    rw [h,readLines,dif_neg (by decide)] at hrest
    cases hrest
  have hfile : saveString (first::second::lines) =
      first.text ++ '\n'::['\n'].intercalate ((second::lines).map Line.text) := by
    rw [saveString,List.map_cons,List.map_cons,List.intercalate_cons_cons,List.append_assoc]
    rfl
  rw [loadFromText,hfile,if_neg (by simp),nextLine_append (isLine_text first).noBreak]
  dsimp only
  rw [if_neg hne,hrest]
  rfl

/-- A text of one line is decrypted first. -/
theorem loadFromText_encrypted (first : Line) (lines : List Line)
    (hd : ∀ s, decrypt (encrypt s) = some s)
    (hl : ∀ s, encrypt s ≠ [] ∧ ∀ c ∈ encrypt s, isLineBreak c = false) :
    loadFromText decrypt (encrypt (saveString (first::lines))) =
      loadLines ((first::lines).map Line.text) := by
  obtain ⟨hne,hbreak⟩ := hl (saveString (first::lines))
  have hsplit := split_intercalate (isLine_map (first::lines)) (by simp)
  rw [loadFromText,if_neg hne,nextLine_last hbreak]
  dsimp only
  rw [if_pos rfl,hd,Option.bind_some,saveString,hsplit]

/-- What is written to a file is read from it, whether it is encrypted or not. -/
theorem loadFromText_saveToText (hd : ∀ s, decrypt (encrypt s) = some s)
    (hl : ∀ s, encrypt s ≠ [] ∧ ∀ c ∈ encrypt s, isLineBreak c = false) (b : Board)
    (curValue consecutive6 : ℕ) (shouldEncryptSave : Bool) :
    loadFromText decrypt (saveToText encrypt b curValue consecutive6 shouldEncryptSave) =
      some (b.reloaded,(curValue : ℤ),(consecutive6 : ℤ)) := by
  have hload := loadFromFile_saveToFile b curValue consecutive6
  cases shouldEncryptSave with
  | false =>
    refine (loadFromText_plain _ _ _).trans ((loadLines_text _ _ _ _ _).trans ?_)
    exact congrArg (Option.map _) hload
  | true =>
    refine (loadFromText_encrypted _ _ hd hl).trans ((loadLines_text _ _ _ _ _).trans ?_)
    exact congrArg (Option.map _) hload

end File

/-- Two boards with the same contents; the pawns of a square in any order. -/
structure SameBoard (b b' : Board) : Prop where
  yards (c : PlayerColor) : b'.yards c = b.yards c
  track : ∀ p ∈ Finset.Icc 1 52, (b'.track p).Perm (b.track p)
  lanes (c : PlayerColor) : ∀ k ∈ Finset.Icc 1 5, b'.lanes c k = b.lanes c k
  pockets (c : PlayerColor) : b'.pockets c = b.pockets c
  currentPlayer : b'.currentPlayer = b.currentPlayer
  currentAction : b'.currentAction = b.currentAction

theorem sameBoard_reloaded_iff {b : Board} : SameBoard b b.reloaded ↔ ∀ c, b.yards c ≤ 4 := by
  constructor
  · intro h c
    have hc : min 4 (b.yards c) = b.yards c := h.yards c
    omega
  · intro h
    refine ⟨fun c => min_eq_right (h c),fun p hp => ?_,fun c k hk => ?_,fun _ => rfl,rfl,rfl⟩
    · have hp' : p ∈ List.range' 1 52 := by
        have := Finset.mem_Icc.mp hp
        rw [List.mem_range'_1]
        omega
      rw [Board.reloaded]
      dsimp only
      rw [if_pos hp']
      exact grouped_perm
    · have hk' : k ∈ List.range' 1 5 := by
        have := Finset.mem_Icc.mp hk
        rw [List.mem_range'_1]
        omega
      rw [Board.reloaded]
      dsimp only
      rw [if_pos hk']

/-- With four pawns of each colour no yard has more. -/
theorem yards_le_of_conserved {b : Board} (h : Conserved b) (c : PlayerColor) : b.yards c ≤ 4 := by
  have hc := h c
  have htrack : 0 ≤ ∑ p ∈ Finset.Icc 1 52, ((b.track p).count c : ℤ) :=
    Finset.sum_nonneg fun _ _ => Int.natCast_nonneg _
  have hlane : 0 ≤ ∑ k ∈ Finset.Icc 1 5, (b.lanes c k : ℤ) :=
    Finset.sum_nonneg fun _ _ => Int.natCast_nonneg _
  rw [Board.pawns] at hc
  omega

/-- The file of a game gives the same game, board and dice. -/
def Reloads (encrypt : List Char → List Char) (decrypt : List Char → Option (List Char))
    (shouldEncryptSave : Bool) (b : Board) (curValue consecutive6 : ℕ) : Prop :=
  ∃ b', loadFromText decrypt (saveToText encrypt b curValue consecutive6 shouldEncryptSave) =
    some (b',(curValue : ℤ),(consecutive6 : ℤ)) ∧ SameBoard b b'

section RoundTrip
variable {encrypt : List Char → List Char} {decrypt : List Char → Option (List Char)}

theorem reloads_iff_yards (hd : ∀ s, decrypt (encrypt s) = some s)
    (hl : ∀ s, encrypt s ≠ [] ∧ ∀ c ∈ encrypt s, isLineBreak c = false) (b : Board)
    (curValue consecutive6 : ℕ) (shouldEncryptSave : Bool) :
    Reloads encrypt decrypt shouldEncryptSave b curValue consecutive6 ↔ ∀ c, b.yards c ≤ 4 := by
  rw [Reloads,loadFromText_saveToText hd hl,← sameBoard_reloaded_iff]
  simp

/-- Every board comes back unless a yard has more than four pawns, and in a game that loads nothing
but whole saves no yard has. -/
theorem reloads_iff (hd : ∀ s, decrypt (encrypt s) = some s)
    (hl : ∀ s, encrypt s ≠ [] ∧ ∀ c ∈ encrypt s, isLineBreak c = false)
    (shouldEncryptSave : Bool) :
    (∀ (b : Board) (curValue consecutive6 : ℕ),
      Reloads encrypt decrypt shouldEncryptSave b curValue consecutive6 ↔ ∀ c, b.yards c ≤ 4) ∧
    ∀ g, ludo.ReachableUnder Game.LoadsWhole g →
      Reloads encrypt decrypt shouldEncryptSave g.board g.curValue g.consecutive6 := by
  refine ⟨fun b curValue consecutive6 => reloads_iff_yards hd hl b curValue consecutive6 _,
    fun g hg => ?_⟩
  rw [reloads_iff_yards hd hl]
  exact yards_le_of_conserved (whole_of_reachableUnder hg).conserved

end RoundTrip

section New

/-- The text of a new game. -/
def newText : List Char := saveString (saveToFile ludo.init.board 1 0)

/-- What the program's cipher makes of it. -/
def newCipher : List Char :=
  ("Osmh+PauJgphnlHgE7w/A2g1chw2KTOF9M0osKCBdh+MBsxlrS/Tae8/7ey9GiCybtA+OotTuK5TKZaIU79TiHfyZ5SH" ++
    "ThmnBrTjUJJ6khqrIcC8a+3jjjQ0HkRLgxP9onRyRIToiVtKRIQ2q1+hb+Q96DomtDMAoEVo/nczAfFwQOCQqRjkLu75" ++
    "NT+gTCSp6/H5mjVnmzHcqeP650zSctYlfm7uCrR6JMOk0nFVS7z3ZjX5ZqcvLQJgoP3DIGUmlW2qgEiZvnMsi4bKkO/o" ++
    "BABnjRiuGh7tr9FlRz5ppuI=").toList

/-- The cipher on the text of a new game; any other text is written with the codes of its
characters. -/
def encryptNew (s : List Char) : List Char :=
  if s = newText then newCipher
  else 'A'::s.flatMap fun c => List.replicate c.toNat '1' ++ ['0']

def decryptNew (t : List Char) : Option (List Char) :=
  if t = newCipher then some newText
  else some ((Text.lines '0' t.tail).map fun code => Char.ofNat code.length)

theorem lines_codes (s : List Char) :
    (Text.lines '0' (s.flatMap fun c => List.replicate c.toNat '1' ++ ['0'])).map
      (fun code => Char.ofNat code.length) = s := by
  induction s with
  | nil => rfl
  | cons c s ih =>
    have hcode : '0' ∉ List.replicate c.toNat '1' := fun h => by
      cases List.eq_of_mem_replicate h
    rw [List.flatMap_cons,List.append_assoc,List.singleton_append,Text.lines_append hcode,
      List.map_cons,ih,List.length_replicate,Char.ofNat_toNat]

theorem head?_newCipher : newCipher.head? = some 'O' := by
  delta newCipher
  simp only [String.toList_append,List.head?_append]
  rw [String.toList_ofList]
  rfl

theorem all_newCipher : newCipher.all (fun c => !isLineBreak c) = true := by
  delta newCipher
  simp only [String.toList_append,List.all_append,Bool.and_eq_true]
  refine ⟨⟨⟨?_,?_⟩,?_⟩,?_⟩ <;> rw [String.toList_ofList] <;> decide

theorem decryptNew_encryptNew (s : List Char) : decryptNew (encryptNew s) = some s := by
  rw [encryptNew]
  split_ifs with hs
  · rw [decryptNew,if_pos rfl,hs]
  · have hne : ('A'::s.flatMap fun c => List.replicate c.toNat '1' ++ ['0']) ≠ newCipher := by
      intro h
      have hhead := congrArg List.head? h
      rw [List.head?_cons,head?_newCipher] at hhead
      exact absurd hhead (by decide)
    rw [decryptNew,if_neg hne,List.tail_cons,lines_codes]

theorem encryptNew_line (s : List Char) :
    encryptNew s ≠ [] ∧ ∀ c ∈ encryptNew s, isLineBreak c = false := by
  rw [encryptNew]
  split_ifs
  · refine ⟨fun h => ?_,fun c hc => ?_⟩
    · have hhead := head?_newCipher
      rw [h] at hhead
      cases hhead
    have hc' := List.all_eq_true.mp all_newCipher c hc
    rwa [Bool.not_eq_true'] at hc'
  · refine ⟨List.cons_ne_nil _ _,fun c hc => ?_⟩
    rcases List.mem_cons.mp hc with rfl | hc
    · decide
    · obtain ⟨c',-,hc⟩ := List.mem_flatMap.mp hc
      rcases List.mem_append.mp hc with hc | hc
      · rw [List.eq_of_mem_replicate hc]
        decide
      · rw [List.mem_singleton.mp hc]
        decide

/-- A new game, encrypted, comes back. -/
theorem reloads_iff_new : saveToText encryptNew ludo.init.board 1 0 true = newCipher ∧
    Reloads encryptNew decryptNew true ludo.init.board ludo.init.curValue
      ludo.init.consecutive6 := by
  refine ⟨?_,(reloads_iff decryptNew_encryptNew encryptNew_line true).2 ludo.init .init⟩
  rw [saveToText,if_pos rfl,← newText,encryptNew,if_pos rfl]

end New

/-- Red comes out of two penalties with five pawns in its yard: the first one at the save that waits
for red's third six, the second one in red's next turn. -/
def fiveInTheYard : List Event :=
  [.click 0 5,.click 0 1,.load redAfterTwoSixes,.click 0 6,.click 0 1,.click 0 1,.click 0 1,
    .click 0 6,.click 0 6,.click 0 6,.click 0 6,.click 0 6]

/-- The fifth pawn does not come back. -/
theorem not_reloads_five : ¬ ∀ encrypt decrypt, (∀ s, decrypt (encrypt s) = some s) →
    (∀ s, encrypt s ≠ [] ∧ ∀ c ∈ encrypt s, isLineBreak c = false) → ∀ g,
    ludo.ReachableUnder Game.LoadsFour g → ∀ shouldEncryptSave,
      Reloads encrypt decrypt shouldEncryptSave g.board g.curValue g.consecutive6 := by
  intro hall
  obtain ⟨g,hg,hp⟩ := TransitionSystem.exists_reachableUnder_of_execUnder (T := ludo)
    (G := Game.LoadsFour) (l := fiveInTheYard) (p := fun g => g.board.yards .RED = 5)
    (by decide +kernel)
  have hload := hall encryptNew decryptNew decryptNew_encryptNew encryptNew_line g hg false
  have hyard := (reloads_iff_yards decryptNew_encryptNew encryptNew_line g.board g.curValue
    g.consecutive6 false).mp hload .RED
  rw [of_decide_eq_true hp] at hyard
  exact absurd hyard (by decide)

end PucRio.Ludo
