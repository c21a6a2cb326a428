import PucRio.Lib.JavaText
import PucRio.Ludo.SavedGame

/-! A saved game as the text of its file, encrypted or not, and how the lines of the text are read. -/
namespace PucRio.Ludo
open Java

def CurrentAction.text : CurrentAction → List Char
  | .ROLLDICE => "ROLLDICE".toList
  | .SELECTPAWN => "SELECTPAWN".toList
  | .SELECTPAWNBONUS10 => "SELECTPAWNBONUS10".toList
  | .SELECTPAWNBONUS20 => "SELECTPAWNBONUS20".toList
  | .GAMEENDED => "GAMEENDED".toList

def CurrentAction.valueOf (s : List Char) : Option CurrentAction :=
  [CurrentAction.ROLLDICE,.SELECTPAWN,.SELECTPAWNBONUS10,.SELECTPAWNBONUS20,.GAMEENDED].find?
    fun action => action.text = s

/-- A name and its number. -/
def field (name : String) (n : ℤ) : List Char := name.toList ++ '='::Printf.int n

/-- A line as it is written. -/
def Line.text : Line → List Char
  | .curPlayer color => field "CURPLAYER" color
  | .curAction action => "CURACTION=".toList ++ action.text
  | .curDice value => field "CURDICE" value
  | .consecutive6 count => field "CONSECUTIVE6" count
  | .trackPosition position color count =>
    field "TRACKPOSITION" position ++ '&'::(field "COLOR" color ++ '&'::field "COUNT" count)
  | .yardColor color count => field "YARDCOLOR" color ++ '&'::field "COUNT" count
  | .pocketColor color count => field "POCKETCOLOR" color ++ '&'::field "COUNT" count
  | .lanePosition position color count =>
    field "LANEPOSITION" position ++ '&'::(field "COLOR" color ++ '&'::field "COUNT" count)

/-- The number between the first = and the first &. -/
def numberBetween (parser : List Char) : Option ℤ :=
  (substring parser (indexOf '=' parser+1) (indexOf '&' parser)).bind Java.valueOf

/-- The number after the last =. -/
def numberAtEnd (parser : List Char) : Option ℤ :=
  (substringFrom parser (lastIndexOf '=' parser+1)).bind Java.valueOf

/-- The text after the first &. -/
def afterFirst (parser : List Char) : Option (List Char) :=
  substringFrom parser (indexOf '&' parser+1)

namespace Loading

/-- So many pawns of a colour put on a square of the track. -/
def addToTrack (l : Loading) (position color count : ℤ) : Option Loading :=
  if count ≤ 0 then some l
  else if 1 ≤ position ∧ position ≤ 52 then
    (PlayerColor.get color.toNat).map fun c => { l with
      track := Function.update l.track position.toNat
        (l.track position.toNat ++ List.replicate count.toNat c) }
  else none

/-- So many pawns put on a square of a colour's lane. -/
def addToLane (l : Loading) (position color count : ℤ) : Option Loading :=
  if count ≤ 0 then some l
  else if 1 ≤ position ∧ position ≤ 5 then
    (PlayerColor.get color.toNat).map fun c => { l with
      lanes := Function.update l.lanes c (Function.update (l.lanes c) position.toNat
        (l.lanes c position.toNat+count.toNat)) }
  else none

/-- A new yard, which loses the pawns that it lacks, and a new pocket. -/
def setYard (l : Loading) (yardColor yardCount pocketColor pocketCount : ℤ) : Option Loading := do
  let y ← PlayerColor.get yardColor.toNat
  let p ← PlayerColor.get pocketColor.toNat
  some { l with
    yards := Function.update l.yards y (some (4-(4-yardCount).toNat))
    pockets := Function.update l.pockets p (some pocketCount.toNat) }

/-- `TRACK` lines, and LANE lines in the same form: position, colour, count. -/
def squareLine (parser : List Char) : Option (ℤ × ℤ × ℤ) := do
  let position ← numberBetween parser
  let parser ← afterFirst parser
  let color ← numberBetween parser
  let count ← numberAtEnd parser
  some (position,color,count)

def readTrackText (l : Loading) : List (List Char) → Option (Loading × List (List Char))
  | [] => none
  | parser::saveFile =>
    if contains parser "TRACK".toList then do
      let (position,color,count) ← squareLine parser
      let l ← l.addToTrack position color count
      readTrackText l saveFile
    else some (l,parser::saveFile)

/-- The loop over the yards with the loop over the lanes in it. Past the last line the text is "END
OF FILE". -/
def readYardsText (l : Loading) (inside : Bool) : List (List Char) → Option Loading
  | [] => some l
  | [parser] =>
    if inside && contains parser "LANE".toList then do
      let (position,color,count) ← squareLine parser
      l.addToLane position color count
    else if contains parser "YARD".toList then none
    else some l
  | parser::next::saveFile =>
    if inside && contains parser "LANE".toList then do
      let (position,color,count) ← squareLine parser
      let l ← l.addToLane position color count
      readYardsText l inside (next::saveFile)
    else if contains parser "YARD".toList then do
      let yardColor ← numberBetween parser
      let yardCount ← numberAtEnd parser
      let pocketColor ← numberBetween next
      let pocketCount ← numberAtEnd next
      let l ← l.setYard yardColor yardCount pocketColor pocketCount
      readYardsText l true saveFile
    else some l

end Loading

/-- What is made of the lines of a file. -/
def loadLines : List (List Char) → Option (Board × ℤ × ℤ)
  | player::action::dice::six::saveFile => do
    let color ← (substringFrom player 10).bind Java.valueOf
    let currentPlayer ← PlayerColor.get color.toNat
    let currentAction ← (substringFrom action 10).bind CurrentAction.valueOf
    let currentDice ← (substringFrom dice 8).bind Java.valueOf
    let consecutive6 ← (substringFrom six 13).bind Java.valueOf
    let (l,saveFile) ← Loading.readTrackText {} saveFile
    let l ← l.readYardsText false saveFile
    let board ← l.board currentPlayer currentAction
    some (board,currentDice,consecutive6)
  | _ => none

/-- A file of one line is an encrypted one. -/
def loadFromText (decrypt : List Char → Option (List Char)) (file : List Char) :
    Option (Board × ℤ × ℤ) :=
  if file = [] then none
  else
    let line := (nextLine file).1
    let rest := (nextLine file).2
    if rest = [] then (decrypt line).bind fun save => loadLines (split '\n' save)
    else loadLines (line::readLines rest)

/-- The text of the lines. -/
def saveString (lines : List Line) : List Char := ['\n'].intercalate (lines.map Line.text)

def saveToText (encrypt : List Char → List Char) (board : Board) (curValue consecutive6 : ℕ)
    (shouldEncryptSave : Bool) : List Char :=
  let saveString := saveString (saveToFile board curValue consecutive6)
  if shouldEncryptSave then encrypt saveString else saveString

section Fields
variable {name : String} {n : ℤ}

/-- The characters of a line that stand in no name. -/
def isMark (c : Char) : Bool := c == '=' || c == '&' || c == '-' || c.isDigit

theorem notMem_int {c : Char} (hc : c ≠ '-') (hd : c.isDigit = false) : c ∉ Printf.int n := by
  intro h
  rcases Printf.mem_int h with rfl | h
  · exact hc rfl
  · rw [hd] at h
    cases h

theorem notMem_field {c : Char} (hname : c ∉ name.toList) (he : c ≠ '=') (hc : c ≠ '-')
    (hd : c.isDigit = false) : c ∉ field name n := by
  intro h
  rcases List.mem_append.mp h with h | h
  · exact hname h
  · rcases List.mem_cons.mp h with rfl | h
    · exact he rfl
    · exact notMem_int hc hd h

theorem numberBetween_field (he : '=' ∉ name.toList) (ha : '&' ∉ name.toList) (rest : List Char) :
    numberBetween (field name n ++ '&'::rest) = some n := by
  have hbegin : indexOf '=' (field name n ++ '&'::rest) = name.toList.length := by
    rw [field,List.append_assoc]
    exact indexOf_append he _
  have hend : indexOf '&' (field name n ++ '&'::rest) =
      name.toList.length+1+(Printf.int n).length := by
    rw [indexOf_append (notMem_field ha (by decide) (by decide) (by decide)),field]
    simp only [List.length_append,List.length_cons]
    push_cast
    omega
  rw [numberBetween,hbegin,hend,field,List.append_assoc,List.cons_append,substring_between,
    Option.bind_some,valueOf_int]

theorem afterFirst_field (ha : '&' ∉ name.toList) (rest : List Char) :
    afterFirst (field name n ++ '&'::rest) = some rest := by
  rw [afterFirst,indexOf_append (notMem_field ha (by decide) (by decide) (by decide))]
  have hsplit : field name n ++ '&'::rest = (field name n ++ ['&']) ++ rest := by simp
  have hlength : ((field name n).length : ℤ)+1 = (field name n ++ ['&']).length := by simp
  rw [hsplit,hlength,substringFrom_append]

theorem numberAtEnd_field (s : List Char) : numberAtEnd (s ++ field name n) = some n := by
  have hlast : lastIndexOf '=' (s ++ field name n) = (s ++ name.toList).length := by
    rw [field,← List.append_assoc]
    exact lastIndexOf_append _ (notMem_int (by decide) (by decide))
  have hsplit : s ++ field name n = (s ++ name.toList ++ ['=']) ++ Printf.int n := by
    simp [field]
  have hlength : ((s ++ name.toList).length : ℤ)+1 = (s ++ name.toList ++ ['=']).length := by
    simp [add_assoc]
  rw [numberAtEnd,hlast,hlength,hsplit,substringFrom_append,Option.bind_some,valueOf_int]

end Fields

section Lines

def Line.isTrack : Line → Bool
  | .trackPosition _ _ _ => true
  | _ => false

def Line.isYard : Line → Bool
  | .yardColor _ _ => true
  | _ => false

def Line.isLane : Line → Bool
  | .lanePosition _ _ _ => true
  | _ => false

variable {name : String} {n : ℤ} {c : Char} {rest t : List Char}

theorem notMem_field_of_isMark (hc : isMark c = false) (hname : c ∉ name.toList) :
    c ∉ field name n := by
  simp only [isMark,Bool.or_eq_false_iff,beq_eq_false_iff_ne] at hc
  exact notMem_field hname hc.1.1.1 hc.1.2 hc.2

theorem notMem_line (hc : isMark c = false) (hname : c ∉ name.toList) (hr : c ∉ rest) :
    c ∉ field name n ++ '&'::rest := by
  intro h
  rcases List.mem_append.mp h with h | h
  · exact notMem_field_of_isMark hc hname h
  · rcases List.mem_cons.mp h with rfl | h
    · cases hc
    · exact hr h

theorem contains_field (h : t <+: name.toList) : contains (field name n ++ rest) t = true := by
  refine contains_of_prefix (h.trans ?_)
  rw [field,List.append_assoc]
  exact List.prefix_append _ _

/-- A line is taken for one of the track just if it is one. -/
theorem contains_TRACK (line : Line) : contains line.text "TRACK".toList = line.isTrack := by
  cases line with
  | curPlayer color =>
    exact contains_eq_false (c := 'K') (by decide) (notMem_field_of_isMark (by decide) (by decide))
  | curAction action => cases action <;> decide
  | curDice value =>
    exact contains_eq_false (c := 'K') (by decide) (notMem_field_of_isMark (by decide) (by decide))
  | consecutive6 count =>
    exact contains_eq_false (c := 'K') (by decide) (notMem_field_of_isMark (by decide) (by decide))
  | trackPosition position color count => exact contains_field (by decide)
  | yardColor color count =>
    exact contains_eq_false (c := 'K') (by decide) (notMem_line (by decide) (by decide)
      (notMem_field_of_isMark (by decide) (by decide)))
  | pocketColor color count =>
    exact contains_eq_false (c := 'A') (by decide) (notMem_line (by decide) (by decide)
      (notMem_field_of_isMark (by decide) (by decide)))
  | lanePosition position color count =>
    exact contains_eq_false (c := 'K') (by decide) (notMem_line (by decide) (by decide)
      (notMem_line (by decide) (by decide) (notMem_field_of_isMark (by decide) (by decide))))

theorem contains_YARD (line : Line) : contains line.text "YARD".toList = line.isYard := by
  cases line with
  | curPlayer color =>
    exact contains_eq_false (c := 'D') (by decide) (notMem_field_of_isMark (by decide) (by decide))
  | curAction action => cases action <;> decide
  | curDice value =>
    exact contains_eq_false (c := 'Y') (by decide) (notMem_field_of_isMark (by decide) (by decide))
  | consecutive6 count =>
    exact contains_eq_false (c := 'Y') (by decide) (notMem_field_of_isMark (by decide) (by decide))
  | trackPosition position color count =>
    exact contains_eq_false (c := 'Y') (by decide) (notMem_line (by decide) (by decide)
      (notMem_line (by decide) (by decide) (notMem_field_of_isMark (by decide) (by decide))))
  | yardColor color count => exact contains_field (by decide)
  | pocketColor color count =>
    exact contains_eq_false (c := 'Y') (by decide) (notMem_line (by decide) (by decide)
      (notMem_field_of_isMark (by decide) (by decide)))
  | lanePosition position color count =>
    exact contains_eq_false (c := 'Y') (by decide) (notMem_line (by decide) (by decide)
      (notMem_line (by decide) (by decide) (notMem_field_of_isMark (by decide) (by decide))))

theorem contains_LANE (line : Line) : contains line.text "LANE".toList = line.isLane := by
  cases line with
  | curPlayer color =>
    exact contains_eq_false (c := 'N') (by decide) (notMem_field_of_isMark (by decide) (by decide))
  | curAction action => cases action <;> decide
  | curDice value =>
    exact contains_eq_false (c := 'L') (by decide) (notMem_field_of_isMark (by decide) (by decide))
  | consecutive6 count =>
    exact contains_eq_false (c := 'L') (by decide) (notMem_field_of_isMark (by decide) (by decide))
  | trackPosition position color count =>
    exact contains_eq_false (c := 'E') (by decide) (notMem_line (by decide) (by decide)
      (notMem_line (by decide) (by decide) (notMem_field_of_isMark (by decide) (by decide))))
  | yardColor color count =>
    exact contains_eq_false (c := 'E') (by decide) (notMem_line (by decide) (by decide)
      (notMem_field_of_isMark (by decide) (by decide)))
  | pocketColor color count =>
    exact contains_eq_false (c := 'A') (by decide) (notMem_line (by decide) (by decide)
      (notMem_field_of_isMark (by decide) (by decide)))
  | lanePosition position color count => exact contains_field (by decide)

/-- The characters that lines are made of. -/
def inLines (c : Char) : Bool := c.isUpper || isMark c

theorem inLines_field (h : name.toList.all inLines = true) : ∀ c ∈ field name n, inLines c = true := by
  intro c hc
  rcases List.mem_append.mp hc with hc | hc
  · exact List.all_eq_true.mp h c hc
  · rcases List.mem_cons.mp hc with rfl | hc
    · decide
    · rcases Printf.mem_int hc with rfl | hd
      · decide
      · rw [inLines,isMark,hd,Bool.or_true,Bool.or_true]

theorem inLines_line (h : name.toList.all inLines = true) (hr : ∀ c ∈ rest, inLines c = true) :
    ∀ c ∈ field name n ++ '&'::rest, inLines c = true := by
  intro c hc
  rcases List.mem_append.mp hc with hc | hc
  · exact inLines_field h c hc
  · rcases List.mem_cons.mp hc with rfl | hc
    · decide
    · exact hr c hc

theorem inLines_text (line : Line) : ∀ c ∈ line.text, inLines c = true := by
  cases line with
  | curPlayer color => exact inLines_field (by decide)
  | curAction action =>
    refine List.all_eq_true.mp ?_
    cases action <;> decide
  | curDice value => exact inLines_field (by decide)
  | consecutive6 count => exact inLines_field (by decide)
  | trackPosition position color count =>
    exact inLines_line (by decide) (inLines_line (by decide) (inLines_field (by decide)))
  | yardColor color count => exact inLines_line (by decide) (inLines_field (by decide))
  | pocketColor color count => exact inLines_line (by decide) (inLines_field (by decide))
  | lanePosition position color count =>
    exact inLines_line (by decide) (inLines_line (by decide) (inLines_field (by decide)))

theorem hasNext_field (h : name.toList.any (!Char.isWhitespace ·) = true) :
    hasNext (field name n) = true := by
  rw [hasNext,field,List.any_append,h,Bool.true_or]

theorem hasNext_line (h : name.toList.any (!Char.isWhitespace ·) = true) :
    hasNext (field name n ++ rest) = true := by
  rw [hasNext,List.any_append]
  exact Bool.or_eq_true_iff.mpr (.inl (hasNext_field h))

/-- Every line has something in it and no end of line. -/
theorem isLine_text (line : Line) : IsLine line.text where
  noBreak c hc := by
    have hin := inLines_text line c hc
    by_contra hbreak
    simp only [isLineBreak,Bool.not_eq_false,decide_eq_true_eq,List.mem_cons,List.not_mem_nil,
      or_false] at hbreak
    rcases hbreak with rfl | rfl | rfl | rfl | rfl
    all_goals cases hin
  hasNext := by
    cases line with
    | curPlayer color => exact hasNext_field (by decide)
    | curAction action => cases action <;> decide
    | curDice value => exact hasNext_field (by decide)
    | consecutive6 count => exact hasNext_field (by decide)
    | trackPosition position color count => exact hasNext_line (by decide)
    | yardColor color count => exact hasNext_line (by decide)
    | pocketColor color count => exact hasNext_line (by decide)
    | lanePosition position color count => exact hasNext_line (by decide)

end Lines

section Loops
variable {l : Loading} {lines : List Line}

namespace Loading

theorem squareLine_text {name : String} (he : '=' ∉ name.toList) (ha : '&' ∉ name.toList)
    (position color count : ℤ) :
    squareLine (field name position ++ '&'::(field "COLOR" color ++ '&'::field "COUNT" count)) =
      some (position,color,count) := by
  have hend : numberAtEnd (field "COLOR" color ++ '&'::field "COUNT" count) = some count := by
    rw [List.append_cons]
    exact numberAtEnd_field _
  have hcolor : numberBetween (field "COLOR" color ++ '&'::field "COUNT" count) = some color :=
    numberBetween_field (by decide) (by decide) _
  rw [squareLine,numberBetween_field he ha,afterFirst_field ha]
  simp only [bind,Option.bind_some,hcolor,hend]

theorem squareLine_trackPosition (position color count : ℕ) :
    squareLine (Line.text (.trackPosition position color count)) =
      some ((position : ℤ),(color : ℤ),(count : ℤ)) :=
  squareLine_text (by decide) (by decide) _ _ _

theorem squareLine_lanePosition (position color count : ℕ) :
    squareLine (Line.text (.lanePosition position color count)) =
      some ((position : ℤ),(color : ℤ),(count : ℤ)) :=
  squareLine_text (by decide) (by decide) _ _ _

theorem addToTrack_natCast (l : Loading) (position color count : ℕ) :
    l.addToTrack position color count =
      if count = 0 then some l
      else if 1 ≤ position ∧ position ≤ 52 then
        (PlayerColor.get color).map fun c => { l with
          track := Function.update l.track position
            (l.track position ++ List.replicate count c) }
      else none := by
  rw [addToTrack]
  have hcount : (count : ℤ) ≤ 0 ↔ count = 0 := by omega
  have hposition : (1 ≤ (position : ℤ) ∧ (position : ℤ) ≤ 52) ↔ 1 ≤ position ∧ position ≤ 52 := by
    omega
  simp only [hcount,hposition,Int.toNat_natCast]

theorem addToLane_natCast (l : Loading) (position color count : ℕ) :
    l.addToLane position color count =
      if count = 0 then some l
      else if 1 ≤ position ∧ position ≤ 5 then
        (PlayerColor.get color).map fun c => { l with
          lanes := Function.update l.lanes c (Function.update (l.lanes c) position
            (l.lanes c position+count)) }
      else none := by
  rw [addToLane]
  have hcount : (count : ℤ) ≤ 0 ↔ count = 0 := by omega
  have hposition : (1 ≤ (position : ℤ) ∧ (position : ℤ) ≤ 5) ↔ 1 ≤ position ∧ position ≤ 5 := by
    omega
  simp only [hcount,hposition,Int.toNat_natCast]

theorem readTrackText_text : l.readTrackText (lines.map Line.text) =
    (l.readTrack lines).map fun x => (x.1,x.2.map Line.text) := by
  induction lines generalizing l with
  | nil => rfl
  | cons line lines ih =>
    rw [List.map_cons,readTrackText,contains_TRACK]
    cases line with
    | trackPosition position color count =>
      rw [squareLine_trackPosition,readTrack,if_pos (by rfl)]
      simp only [bind,Option.bind_some,addToTrack_natCast]
      split_ifs
      · exact ih
      · cases PlayerColor.get color with
        | none => rfl
        | some c => exact ih
      · rfl
    | _ =>
      rw [if_neg (by simp [Line.isTrack]),readTrack]
      · rfl
      all_goals simp

theorem numberBetween_of_notMem {s : List Char} (h : '&' ∉ s) : numberBetween s = none := by
  have hbegin : -1 ≤ indexOf '=' s := by
    rw [indexOf]
    split_ifs <;> omega
  rw [numberBetween,indexOf_of_notMem h,substring,if_neg (by omega)]
  rfl

/-- A line with a number between = and &, and one at its end. -/
theorem pocket_eq {s : List Char} {color count : ℤ} (hcolor : numberBetween s = some color)
    (hcount : numberAtEnd s = some count) {α : Type} (f : ℤ → ℤ → Option α) :
    ((numberBetween s).bind fun color => (numberAtEnd s).bind fun count => f color count) =
      f color count := by
  rw [hcolor,hcount]
  rfl

/-- What is read of the line after that of a yard. -/
theorem pocket_text (line : Line) {α : Type} (f : ℤ → ℤ → Option α)
    (hf : ∀ color count, f color count = f color.toNat count.toNat) :
    ((numberBetween line.text).bind fun color => (numberAtEnd line.text).bind fun count =>
      f color count) = line.asPocket.bind fun x => f x.1 x.2 := by
  have hnone (h : '&' ∉ line.text) (hp : line.asPocket = none) :
      ((numberBetween line.text).bind fun color => (numberAtEnd line.text).bind fun count =>
        f color count) = line.asPocket.bind fun x => f x.1 x.2 := by
    rw [numberBetween_of_notMem h,hp]
    rfl
  have hline (name : String) (he : '=' ∉ name.toList) (ha : '&' ∉ name.toList) (n m : ℤ) :
      numberBetween (field name n ++ '&'::field "COUNT" m) = some n ∧
        numberAtEnd (field name n ++ '&'::field "COUNT" m) = some m := by
    refine ⟨numberBetween_field he ha _,?_⟩
    rw [List.append_cons]
    exact numberAtEnd_field _
  have hsquare (name : String) (he : '=' ∉ name.toList) (ha : '&' ∉ name.toList) (n c m : ℤ) :
      numberBetween (field name n ++ '&'::(field "COLOR" c ++ '&'::field "COUNT" m)) = some n ∧
        numberAtEnd (field name n ++ '&'::(field "COLOR" c ++ '&'::field "COUNT" m)) =
          some m := by
    refine ⟨numberBetween_field he ha _,?_⟩
    rw [List.append_cons,← List.append_assoc,List.append_cons]
    exact numberAtEnd_field _
  cases line with
  | curPlayer color => exact hnone (notMem_field (by decide) (by decide) (by decide) (by decide)) rfl
  | curAction action =>
    refine hnone ?_ rfl
    cases action <;> decide
  | curDice value => exact hnone (notMem_field (by decide) (by decide) (by decide) (by decide)) rfl
  | consecutive6 count =>
    exact hnone (notMem_field (by decide) (by decide) (by decide) (by decide)) rfl
  | trackPosition position color count =>
    obtain ⟨hcolor,hcount⟩ := hsquare "TRACKPOSITION" (by decide) (by decide) position
      color count
    exact pocket_eq hcolor hcount f
  | yardColor color count =>
    obtain ⟨hcolor,hcount⟩ := hline "YARDCOLOR" (by decide) (by decide) color count
    exact (pocket_eq hcolor hcount f).trans (hf _ _)
  | pocketColor color count =>
    obtain ⟨hcolor,hcount⟩ := hline "POCKETCOLOR" (by decide) (by decide) color count
    exact pocket_eq hcolor hcount f
  | lanePosition position color count =>
    obtain ⟨hcolor,hcount⟩ := hsquare "LANEPOSITION" (by decide) (by decide) position
      color count
    exact pocket_eq hcolor hcount f

/-- A lane's line inside of the loop over the lanes. -/
theorem readYardsText_lane (position color count : ℕ) (saveFile : List (List Char)) :
    l.readYardsText true (Line.text (.lanePosition position color count)::saveFile) =
      (l.addToLane position color count).bind fun l => l.readYardsText true saveFile := by
  have hlane : contains (Line.text (.lanePosition position color count)) "LANE".toList = true :=
    contains_LANE (.lanePosition position color count)
  cases saveFile with
  | nil =>
    rw [readYardsText,hlane,squareLine_lanePosition,Bool.and_self,if_pos rfl]
    simp only [bind,Option.bind_some]
    cases l.addToLane position color count <;> rfl
  | cons next saveFile =>
    rw [readYardsText,hlane,squareLine_lanePosition,Bool.and_self,if_pos rfl]
    rfl

theorem text_yardColor (color : ℕ) (count : ℤ) : Line.text (.yardColor color count) =
    field "YARDCOLOR" color ++ '&'::field "COUNT" count := rfl

theorem readYardsText_yard (inside : Bool) (yardColor : ℕ) (yardCount : ℤ) (next : Line)
    (saveFile : List (List Char)) :
    l.readYardsText inside (Line.text (.yardColor yardColor yardCount)::next.text::saveFile) =
      (PlayerColor.get yardColor).bind fun y => next.asPocket.bind fun pocket =>
        (PlayerColor.get pocket.1).bind fun p => readYardsText { l with
          yards := Function.update l.yards y (some (4-(4-yardCount).toNat))
          pockets := Function.update l.pockets p (some pocket.2) } true saveFile := by
  have hlane : contains (Line.text (.yardColor yardColor yardCount)) "LANE".toList = false :=
    contains_LANE (.yardColor yardColor yardCount)
  have hyard : contains (Line.text (.yardColor yardColor yardCount)) "YARD".toList = true :=
    contains_YARD (.yardColor yardColor yardCount)
  have hbetween : numberBetween (Line.text (.yardColor yardColor yardCount)) =
      some (yardColor : ℤ) := by
    rw [text_yardColor]
    exact numberBetween_field (by decide) (by decide) _
  have hend : numberAtEnd (Line.text (.yardColor yardColor yardCount)) = some yardCount := by
    rw [text_yardColor,List.append_cons]
    exact numberAtEnd_field _
  rw [readYardsText,hlane,hyard,hbetween,hend]
  simp only [Bool.and_false,Bool.false_eq_true,if_false,if_true,bind,Option.bind_some]
  rw [pocket_text next (fun pocketColor pocketCount =>
    (l.setYard yardColor yardCount pocketColor pocketCount).bind fun l =>
      l.readYardsText true saveFile) fun _ _ => by simp only [setYard,Int.toNat_natCast]]
  simp only [setYard,Int.toNat_natCast,bind]
  cases PlayerColor.get yardColor with
  | none => cases next.asPocket <;> rfl
  | some y =>
    cases next.asPocket with
    | none => rfl
    | some pocket =>
      simp only [Option.bind_some]
      cases PlayerColor.get pocket.1 <;> rfl

theorem readYardsText_text (inside : Bool) :
    l.readYardsText inside (lines.map Line.text) = l.readYards inside lines := by
  induction hn : lines.length using Nat.strong_induction_on generalizing l lines inside with
  | _ n ih =>
    cases lines with
    | nil => rfl
    | cons line lines =>
      have hrest (l : Loading) (inside : Bool) (lines' : List Line)
          (h : lines'.length < (line::lines).length) :
          l.readYardsText inside (lines'.map Line.text) = l.readYards inside lines' :=
        ih _ (hn ▸ h) inside rfl
      have hstop (hl : line.isLane = false) (hy : line.isYard = false) :
          l.readYardsText inside ((line::lines).map Line.text) = some l := by
        cases lines with
        | nil =>
          rw [List.map_cons,List.map_nil,readYardsText,contains_LANE,contains_YARD,hl,hy]
          simp
        | cons next lines =>
          rw [List.map_cons,List.map_cons,readYardsText,contains_LANE,contains_YARD,hl,hy]
          simp
      cases line with
      | yardColor yardColor yardCount =>
        cases lines with
        | nil =>
          rw [List.map_cons,List.map_nil,readYardsText,contains_LANE,contains_YARD]
          simp [Line.isLane,Line.isYard,readYards]
        | cons next lines =>
          have hlines (l : Loading) :
              l.readYardsText true (lines.map Line.text) = l.readYards true lines :=
            hrest l true lines (by rw [List.length_cons,List.length_cons]; omega)
          rw [List.map_cons,List.map_cons,readYardsText_yard,readYards]
          simp only [hlines]
      | lanePosition position color count =>
        cases inside with
        | false =>
          rw [readYards,if_pos rfl]
          cases lines with
          | nil =>
            rw [List.map_cons,List.map_nil,readYardsText,contains_YARD]
            simp [Line.isYard]
          | cons next lines =>
            rw [List.map_cons,List.map_cons,readYardsText,contains_YARD]
            simp [Line.isYard]
        | true =>
          have hlines (l : Loading) :
              l.readYardsText true (lines.map Line.text) = l.readYards true lines :=
            hrest l true lines (by rw [List.length_cons]; omega)
          rw [List.map_cons,readYardsText_lane,addToLane_natCast,readYards,
            if_neg (show ¬ true = false by decide)]
          split_ifs
          · exact hlines l
          · cases PlayerColor.get color with
            | none => rfl
            | some c => exact hlines _
          · rfl
      | _ =>
        rw [hstop rfl rfl,readYards]
        all_goals simp

end Loading
end Loops

end PucRio.Ludo
