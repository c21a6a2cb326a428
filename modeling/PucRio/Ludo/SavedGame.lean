import PucRio.Ludo.GameSave

/-! What is written of a game, and what is read of it again: pawns of one colour come to stand together,
and a yard has at most its four pawns. -/
namespace PucRio.Ludo

def addColor (colors : List PlayerColor) (color : PlayerColor) : List PlayerColor :=
  if color ∈ colors then colors else colors ++ [color]

/-- The colours of a square's pawns, each once. -/
def getPawnsColors (pawns : List PlayerColor) : List PlayerColor := pawns.foldl addColor []

section Colors
variable {pawns colors : List PlayerColor} {c d : PlayerColor}

theorem mem_addColor : d ∈ addColor colors c ↔ d ∈ colors ∨ d = c := by
  unfold addColor
  split_ifs with hc
  · exact ⟨.inl,fun h => h.elim id fun heq => heq ▸ hc⟩
  · rw [List.mem_append,List.mem_singleton]

theorem nodup_addColor (h : colors.Nodup) : (addColor colors c).Nodup := by
  unfold addColor
  split_ifs with hc
  · exact h
  · refine List.nodup_append.mpr ⟨h,List.nodup_singleton c,fun a ha b hb => ?_⟩
    rw [List.mem_singleton.mp hb]
    rintro rfl
    exact hc ha

theorem head?_addColor (h : colors ≠ []) : (addColor colors c).head? = colors.head? := by
  unfold addColor
  split_ifs with hc
  · rfl
  · exact List.head?_append_of_ne_nil _ h

theorem mem_foldl_addColor : d ∈ pawns.foldl addColor colors ↔ d ∈ colors ∨ d ∈ pawns := by
  induction pawns generalizing colors with
  | nil => simp
  | cons c pawns ih => rw [List.foldl_cons,ih,mem_addColor,List.mem_cons,or_assoc]

theorem nodup_foldl_addColor (h : colors.Nodup) : (pawns.foldl addColor colors).Nodup := by
  induction pawns generalizing colors with
  | nil => exact h
  | cons c pawns ih => exact ih (nodup_addColor h)

theorem head?_foldl_addColor (h : colors ≠ []) :
    (pawns.foldl addColor colors).head? = colors.head? := by
  induction pawns generalizing colors with
  | nil => rfl
  | cons c pawns ih =>
    have hne : addColor colors c ≠ [] := by
      apply List.ne_nil_of_mem
      exact mem_addColor.mpr (.inr rfl)
    rw [List.foldl_cons,ih hne,head?_addColor h]

theorem mem_getPawnsColors : d ∈ getPawnsColors pawns ↔ d ∈ pawns := by
  unfold getPawnsColors
  rw [mem_foldl_addColor]
  simp only [List.not_mem_nil,false_or]

theorem nodup_getPawnsColors : (getPawnsColors pawns).Nodup := nodup_foldl_addColor List.nodup_nil

theorem head?_getPawnsColors : (getPawnsColors pawns).head? = pawns.head? := by
  cases pawns with
  | nil => rfl
  | cons c pawns =>
    have hne : [c] ≠ [] := List.cons_ne_nil _ _
    exact head?_foldl_addColor hne

end Colors

/-- A square's pawns, those of one colour together. -/
def grouped (pawns : List PlayerColor) : List PlayerColor :=
  (getPawnsColors pawns).flatMap fun color => List.replicate (pawns.count color) color

section Grouped
variable {pawns : List PlayerColor} {c d : PlayerColor}

theorem count_flatMap_replicate {colors : List PlayerColor} (h : colors.Nodup)
    (f : PlayerColor → ℕ) : (colors.flatMap fun color => List.replicate (f color) color).count d =
      if d ∈ colors then f d else 0 := by
  induction colors with
  | nil => rfl
  | cons c colors ih =>
    obtain ⟨hc,hnodup⟩ := List.nodup_cons.mp h
    rw [List.flatMap_cons,List.count_append,ih hnodup,List.count_replicate]
    by_cases hd : d = c
    · subst hd
      simp [hc]
    · simp [hd,Ne.symm hd]

theorem grouped_perm : (grouped pawns).Perm pawns := by
  apply List.perm_iff_count.mpr
  intro d
  unfold grouped
  rw [count_flatMap_replicate nodup_getPawnsColors]
  split_ifs with hd
  · rfl
  · exact (List.count_eq_zero_of_not_mem fun h => hd (mem_getPawnsColors.mpr h)).symm

theorem head?_grouped : (grouped pawns).head? = pawns.head? := by
  rw [← @head?_getPawnsColors pawns]
  unfold grouped
  cases hcolors : getPawnsColors pawns with
  | nil => rfl
  | cons c colors =>
    have hc : c ∈ pawns := mem_getPawnsColors.mp (hcolors ▸ List.mem_cons_self)
    obtain ⟨n,hn⟩ := Nat.exists_eq_succ_of_ne_zero (List.count_pos_iff.mpr hc).ne'
    rw [List.flatMap_cons,hn]
    rfl

/-- No pawn stands between two of another colour. -/
def Together (pawns : List PlayerColor) : Prop := ∀ c d, [c,d,c].Sublist pawns → c = d

theorem getPawnsColors_concat :
    getPawnsColors (pawns++[c]) = addColor (getPawnsColors pawns) c := by
  unfold getPawnsColors
  rw [List.foldl_append]
  rfl

/-- The pawns of the colours that the last one does not have. -/
theorem flatMap_replicate_concat {colors : List PlayerColor} (h : c ∉ colors) :
    (colors.flatMap fun color => List.replicate ((pawns++[c]).count color) color) =
      colors.flatMap fun color => List.replicate (pawns.count color) color := by
  apply List.flatMap_congr
  intro d hd
  have hne : c ≠ d := fun heq => h (heq ▸ hd)
  rw [List.count_append,List.count_singleton,beq_eq_false_iff_ne.mpr hne]
  rfl

theorem grouped_concat_of_not_mem (hc : c ∉ pawns) : grouped (pawns++[c]) = grouped pawns++[c] := by
  have hcolors : c ∉ getPawnsColors pawns := fun h => hc (mem_getPawnsColors.mp h)
  have hcount : (pawns++[c]).count c = 1 := by
    rw [List.count_append,List.count_eq_zero_of_not_mem hc,List.count_singleton_self]
  unfold grouped
  rw [getPawnsColors_concat,addColor,if_neg hcolors,List.flatMap_append,
    flatMap_replicate_concat hcolors,List.flatMap_singleton,hcount]
  rfl

theorem grouped_concat_of_getLast? (h : grouped pawns = pawns) (hlast : pawns.getLast? = some c) :
    grouped (pawns++[c]) = pawns++[c] := by
  have hc : c ∈ getPawnsColors pawns := mem_getPawnsColors.mpr (List.mem_of_getLast? hlast)
  obtain ⟨colors,e,hcolors⟩ := (List.eq_nil_or_concat' _).resolve_left (List.ne_nil_of_mem hc)
  have he : e ∈ pawns := mem_getPawnsColors.mp (hcolors ▸ List.mem_concat_self)
  have hpawns : pawns = (colors.flatMap fun color => List.replicate (pawns.count color) color) ++
      List.replicate (pawns.count e) e := by
    conv_lhs => rw [← h,grouped,hcolors,List.flatMap_append,List.flatMap_singleton]
  have hce : c = e := by
    rw [hpawns,List.getLast?_append,List.getLast?_replicate,
      if_neg (List.count_pos_iff.mpr he).ne'] at hlast
    exact (Option.some.inj hlast).symm
  subst hce
  have hnodup : (colors++[c]).Nodup := hcolors ▸ nodup_getPawnsColors
  have hcolors' : c ∉ colors := fun hmem =>
    (List.disjoint_of_nodup_append hnodup) hmem (List.mem_singleton_self c)
  unfold grouped
  rw [getPawnsColors_concat,addColor,if_pos hc,hcolors,List.flatMap_append,
    flatMap_replicate_concat hcolors',List.flatMap_singleton,List.count_append,
    List.count_singleton_self,List.replicate_succ',← List.append_assoc,← hpawns]

/-- The pawns stay in their order. -/
theorem grouped_eq_self (h : Together pawns) : grouped pawns = pawns := by
  induction pawns using List.reverseRecOn with
  | nil => rfl
  | append_singleton pawns c ih =>
    have hgrouped := ih fun a b hab => h a b (hab.trans (List.sublist_append_left _ _))
    by_cases hc : c ∈ pawns
    · obtain ⟨front,e,rfl⟩ := (List.eq_nil_or_concat' _).resolve_left (List.ne_nil_of_mem hc)
      have hce : c = e := by
        by_contra hne
        have hfront : c ∈ front := (List.mem_append.mp hc).resolve_right fun hmem =>
          hne (List.mem_singleton.mp hmem)
        refine hne (h c e ?_)
        rw [List.append_assoc]
        exact (List.singleton_sublist.mpr hfront).append (.refl _)
      subst hce
      exact grouped_concat_of_getLast? hgrouped List.getLast?_concat
    · rw [grouped_concat_of_not_mem hc,hgrouped]

end Grouped

section Save
variable (b : Board)

def saveTrackSquare (position : ℕ) : List Line :=
  (getPawnsColors (b.track position)).map fun color =>
    .trackPosition position color.asInt ((b.track position).count color)

def saveLaneSquare (color : PlayerColor) (position : ℕ) : List Line :=
  if 0 < b.lanes color position then [.lanePosition position color.asInt (b.lanes color position)]
  else []

def savePlayer (color : PlayerColor) : List Line :=
  .yardColor color.asInt (b.yards color)::.pocketColor color.asInt (b.pockets color)::
    (List.range' 1 5).flatMap (saveLaneSquare b color)

/-- The lines that `saveToFile` writes. -/
def saveToFile (curValue consecutive6 : ℕ) : List Line :=
  .curPlayer b.currentPlayer.asInt::.curAction b.currentAction::.curDice curValue::
    .consecutive6 consecutive6::((List.range' 1 52).flatMap (saveTrackSquare b) ++
      (savePlayer b .RED ++ (savePlayer b .GREEN ++ (savePlayer b .YELLOW ++ savePlayer b .BLUE))))

/-- The board as it is read again. -/
def Board.reloaded : Board where
  track p := if p ∈ List.range' 1 52 then grouped (b.track p) else []
  lanes c k := if k ∈ List.range' 1 5 then b.lanes c k else 0
  yards c := min 4 (b.yards c)
  pockets := b.pockets
  currentPlayer := b.currentPlayer
  currentAction := b.currentAction

end Save

theorem PlayerColor.get_asInt (c : PlayerColor) : PlayerColor.get c.asInt = some c := by
  cases c <;> rfl

namespace Loading
variable {b : Board} {l : Loading} {lines : List Line}

theorem readTrack_colors {p : ℕ} (hp : 1 ≤ p ∧ p ≤ 52) {colors : List PlayerColor}
    {f : PlayerColor → ℕ} (hf : ∀ c ∈ colors, f c ≠ 0) :
    l.readTrack (colors.map (fun c => .trackPosition p c.asInt (f c)) ++ lines) =
      readTrack { l with
        track := Function.update l.track p
          (l.track p ++ colors.flatMap fun c => List.replicate (f c) c) } lines := by
  induction colors generalizing l with
  | nil =>
    congr 2
    simp
  | cons c colors ih =>
    rw [List.map_cons,List.cons_append,readTrack,if_neg (hf c List.mem_cons_self),if_pos hp,
      PlayerColor.get_asInt,Option.bind_some,ih fun d hd => hf d (List.mem_cons_of_mem _ hd)]
    congr 2
    simp only [Function.update_self,Function.update_idem,List.flatMap_cons,List.append_assoc]

theorem readTrack_square {p : ℕ} (hp : 1 ≤ p ∧ p ≤ 52) :
    l.readTrack (saveTrackSquare b p ++ lines) =
      readTrack { l with
        track := Function.update l.track p (l.track p ++ grouped (b.track p)) } lines :=
  readTrack_colors hp fun _ hc => (List.count_pos_iff.mpr (mem_getPawnsColors.mp hc)).ne'

theorem readTrack_squares {positions : List ℕ} (h : ∀ p ∈ positions, 1 ≤ p ∧ p ≤ 52)
    (hnodup : positions.Nodup) :
    l.readTrack (positions.flatMap (saveTrackSquare b) ++ lines) =
      readTrack { l with
        track := fun p =>
          if p ∈ positions then l.track p ++ grouped (b.track p) else l.track p } lines := by
  induction positions generalizing l with
  | nil => simp
  | cons p positions ih =>
    obtain ⟨hp,hnodup⟩ := List.nodup_cons.mp hnodup
    rw [List.flatMap_cons,List.append_assoc,readTrack_square (h p List.mem_cons_self),
      ih (fun q hq => h q (List.mem_cons_of_mem _ hq)) hnodup]
    congr 2
    funext q
    by_cases hq : q = p
    · subst hq
      simp [hp]
    · simp [hq]

theorem readYards_laneSquares {c : PlayerColor} {positions : List ℕ}
    (h : ∀ k ∈ positions, 1 ≤ k ∧ k ≤ 5) (hnodup : positions.Nodup) :
    l.readYards true (positions.flatMap (saveLaneSquare b c) ++ lines) =
      readYards { l with
        lanes := Function.update l.lanes c fun k =>
          if k ∈ positions then l.lanes c k+b.lanes c k else l.lanes c k } true lines := by
  induction positions generalizing l with
  | nil => simp
  | cons k positions ih =>
    obtain ⟨hk,hnodup⟩ := List.nodup_cons.mp hnodup
    have ih {l : Loading} := ih (l := l) (fun j hj => h j (List.mem_cons_of_mem _ hj)) hnodup
    rw [List.flatMap_cons,List.append_assoc,saveLaneSquare]
    split_ifs with hpos
    · rw [List.singleton_append,readYards,if_neg (by decide),if_neg (by omega),
        if_pos (h k List.mem_cons_self),PlayerColor.get_asInt,Option.bind_some,ih]
      congr 2
      rw [Function.update_idem]
      congr 1
      funext j
      dsimp only
      rw [Function.update_self]
      by_cases hj : j = k
      · subst hj
        simp [hk]
      · simp [hj]
    · rw [List.nil_append,ih]
      congr 3
      funext j
      by_cases hj : j = k
      · subst hj
        have hzero : b.lanes c j = 0 := by omega
        simp [hk,hzero]
      · simp [hj]

theorem yard_eq (y : ℤ) : (4 : ℤ)-(4-y).toNat = min 4 y := by omega

/-- What the lines of a player bring. -/
def withPlayer (l : Loading) (b : Board) (c : PlayerColor) : Loading :=
  { l with
    yards := Function.update l.yards c (some (min 4 (b.yards c)))
    pockets := Function.update l.pockets c (some (b.pockets c))
    lanes := Function.update l.lanes c fun k =>
      if k ∈ List.range' 1 5 then l.lanes c k+b.lanes c k else l.lanes c k }

theorem readYards_savePlayer (inside : Bool) (c : PlayerColor) :
    l.readYards inside (savePlayer b c ++ lines) = (l.withPlayer b c).readYards true lines := by
  have hlane : ∀ k ∈ List.range' 1 5, 1 ≤ k ∧ k ≤ 5 := by decide
  rw [savePlayer,List.cons_append,List.cons_append,readYards,PlayerColor.get_asInt,
    Option.bind_some,Line.asPocket,Option.bind_some,PlayerColor.get_asInt,Option.bind_some,
    readYards_laneSquares hlane (by decide),yard_eq]
  rfl

theorem readTrack_savePlayer (c : PlayerColor) :
    l.readTrack (savePlayer b c ++ lines) = some (l,savePlayer b c ++ lines) := rfl

/-- Each player's lines have been read once. -/
theorem board_withPlayer (track : ℕ → List PlayerColor) (currentPlayer : PlayerColor)
    (currentAction : CurrentAction) :
    ((((({ track := track } : Loading).withPlayer b .RED).withPlayer b .GREEN).withPlayer b
      .YELLOW).withPlayer b .BLUE).board currentPlayer currentAction =
      some { b.reloaded with
        track := track
        currentPlayer := currentPlayer
        currentAction := currentAction } := by
  unfold Loading.board
  dsimp only
  split_ifs with hall
  · congr 2
    · funext c k
      cases c <;> simp [withPlayer,Board.reloaded]
    · funext c
      cases c <;> rfl
    · funext c
      cases c <;> rfl
  · exact (hall rfl).elim

end Loading

/-- What is written is read. -/
theorem loadFromFile_saveToFile (b : Board) (curValue consecutive6 : ℕ) :
    loadFromFile (saveToFile b curValue consecutive6) = some (b.reloaded,curValue,consecutive6) := by
  have htrack : ∀ p ∈ List.range' 1 52, 1 ≤ p ∧ p ≤ 52 := by decide
  have hyards (l : Loading) : l.readYards false
      (savePlayer b .RED ++ (savePlayer b .GREEN ++ (savePlayer b .YELLOW ++ savePlayer b .BLUE))) =
      some ((((l.withPlayer b .RED).withPlayer b .GREEN).withPlayer b .YELLOW).withPlayer b .BLUE) := by
    have hlast (l : Loading) : l.readYards true (savePlayer b .BLUE) = some (l.withPlayer b .BLUE) := by
      rw [← List.append_nil (savePlayer b .BLUE),Loading.readYards_savePlayer]
      rfl
    rw [Loading.readYards_savePlayer,Loading.readYards_savePlayer,Loading.readYards_savePlayer,hlast]
  rw [saveToFile,loadFromFile,PlayerColor.get_asInt,Option.bind_eq_bind,Option.bind_some,
    Loading.readTrack_squares htrack (by decide)]
  rw [Loading.readTrack_savePlayer,Option.bind_eq_bind,Option.bind_some]
  dsimp only
  rw [hyards,Option.bind_eq_bind,Option.bind_some,Loading.board_withPlayer,Option.bind_eq_bind,
    Option.bind_some]
  rfl

end PucRio.Ludo
