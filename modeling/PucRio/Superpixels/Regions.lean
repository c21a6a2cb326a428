import PucRio.Superpixels.Connectivity

/-! The regions of the new labels, over the whole scan. They are connected because every segment after
the first one touches a pixel that has its label; they are large because the number of labels grows with
large segments only. -/
namespace PucRio.Superpixels

variable {w h K : ℕ} {labels nlabels : ℤ × ℤ → ℤ} {label v : ℤ} {o p q : ℤ × ℤ}
variable {vec done rest : List (ℤ × ℤ)} {s : Scan}

/-- The segments of some pixels have labels, and no other pixel has; each label is that of one region,
and each segment lies in a region. -/
structure Coloured (w h : ℕ) (labels : ℤ × ℤ → ℤ) (done : List (ℤ × ℤ)) (nlabels : ℤ × ℤ → ℤ) :
    Prop where
  labelled : ∀ q, 0 ≤ nlabels q ↔ ∃ p ∈ done, Joined w h labels p q
  joined : ∀ p q, 0 ≤ nlabels p → nlabels p = nlabels q → Joined w h nlabels p q
  kept : ∀ p q, 0 ≤ nlabels p → Joined w h labels p q → nlabels p = nlabels q

structure Scanned (w h K : ℕ) (labels : ℤ × ℤ → ℤ) (done : List (ℤ × ℤ)) (s : Scan) : Prop
    extends Coloured w h labels done s.nlabels where
  nonneg : 0 ≤ s.label
  lt : ∀ q, s.nlabels q < max s.label 1
  big : ∀ l, 0 ≤ l → l < s.label → ∃ vec : List (ℤ × ℤ), vec.Nodup ∧
    (∀ q ∈ vec, InImage w h q ∧ s.nlabels q = l) ∧ limit w h K < vec.length
  large : 0 < s.label ↔ ∃ p ∈ done, Large w h K labels p
  first : done = [] → s.adjlabel = 0

section Adjacent

theorem adjacent_cases (w h : ℕ) (nlabels : ℤ × ℤ → ℤ) (o : ℤ × ℤ) (adjlabel : ℤ) :
    (adjacent w h nlabels o adjlabel = adjlabel ∧ ∀ q ∈ neighbours w h o, nlabels q < 0) ∨
      ∃ q ∈ neighbours w h o, 0 ≤ nlabels q ∧ adjacent w h nlabels o adjlabel = nlabels q := by
  unfold adjacent
  induction neighbours w h o using List.reverseRecOn with
  | nil => exact .inl ⟨rfl,fun q hq => absurd hq List.not_mem_nil⟩
  | append_singleton l q ih =>
    rw [List.foldl_append,List.foldl_cons,List.foldl_nil]
    by_cases hq : nlabels q ≥ 0
    · rw [if_pos hq]
      exact .inr ⟨q,List.mem_append_right _ (List.mem_singleton_self q),hq,rfl⟩
    · rw [if_neg hq]
      obtain ⟨hsame,hnone⟩ | ⟨r,hr,hlabel,heq⟩ := ih
      · refine .inl ⟨hsame,fun r hr => ?_⟩
        obtain hr | hr := List.mem_append.mp hr
        · exact hnone r hr
        · rw [List.mem_singleton.mp hr]
          omega
      · exact .inr ⟨r,List.mem_append_left _ hr,hlabel,heq⟩

/-- A pixel of the scan is the first, or the one on its left or above it came before. -/
theorem before_of_pixels (hpixels : pixels w h = done++o::rest) :
    done = [] ∨ ∃ r ∈ done, r ∈ neighbours w h o := by
  have hlength : done.length < (pixels w h).length := by simp [hpixels]
  have hsize : done.length < w*h := by rwa [length_pixels] at hlength
  have hw : 0 < w := Nat.pos_of_ne_zero fun hw => by simp [hw] at hsize
  have hat (i : ℕ) (hi : i < done.length) :
      (((i%w : ℕ) : ℤ),((i/w : ℕ) : ℤ)) ∈ done := by
    have hget : (pixels w h)[i]? = some (((i%w : ℕ) : ℤ),((i/w : ℕ) : ℤ)) := by
      rw [pixels_eq,List.getElem?_map,List.getElem?_range (by omega)]
      rfl
    rw [hpixels,List.getElem?_append_left hi] at hget
    exact List.mem_of_getElem? hget
  have ho : o = (((done.length%w : ℕ) : ℤ),((done.length/w : ℕ) : ℤ)) := by
    have hget : (pixels w h)[done.length]? =
        some (((done.length%w : ℕ) : ℤ),((done.length/w : ℕ) : ℤ)) := by
      rw [pixels_eq,List.getElem?_map,List.getElem?_range hsize]
      rfl
    rw [hpixels,List.getElem?_append_right le_rfl,Nat.sub_self] at hget
    exact Option.some.inj hget
  have himage (r : ℤ × ℤ) (hr : r ∈ done) : InImage w h r :=
    mem_pixels.mp (hpixels ▸ List.mem_append_left _ hr)
  obtain rfl | hne := eq_or_ne done []
  · exact .inl rfl
  have hpos := List.length_pos_of_ne_nil hne
  have hdiv := Nat.div_add_mod done.length w
  by_cases hcol : done.length%w = 0
  · -- the first of a row, behind a whole one
    have hrow : w ≤ done.length := Nat.le_of_dvd hpos (Nat.dvd_of_mod_eq_zero hcol)
    have hr := hat (done.length-w) (by omega)
    refine .inr ⟨_,hr,mem_neighbours.mpr ⟨himage _ hr,.inr (.inl ?_)⟩⟩
    have hup : (done.length-w)/w+1 = done.length/w := (Nat.div_eq_sub_div hw hrow).symm
    rw [ho,Nat.mod_eq_sub_mod hrow |>.symm,← hup]
    ext <;> simp
  · have hr := hat (done.length-1) (by omega)
    refine .inr ⟨_,hr,mem_neighbours.mpr ⟨himage _ hr,.inl ?_⟩⟩
    have hlt := Nat.mod_lt done.length hw
    have hleft : done.length-1 = w*(done.length/w)+(done.length%w-1) := by omega
    have hmod : (done.length-1)%w = done.length%w-1 := by
      rw [hleft,Nat.mul_add_mod,Nat.mod_eq_of_lt (by omega)]
    have hsame : (done.length-1)/w = done.length/w := by
      have hcolumn : done.length%w-1 < w := by omega
      rw [hleft,Nat.mul_add_div hw,Nat.div_eq_of_lt hcolumn,Nat.add_zero]
    rw [ho,hmod,hsame]
    ext <;> simp
    omega

end Adjacent

section Paint

/-- Connected pixels that have a label stay connected where pixels without one are painted. -/
theorem joined_paint (hfree : ∀ r ∈ vec, nlabels r < 0) (hp : 0 ≤ nlabels p)
    (hjoined : Joined w h nlabels p q) : Joined w h (paint nlabels vec v) p q := by
  have hkeep (r : ℤ × ℤ) (hr : 0 ≤ nlabels r) : paint nlabels vec v r = nlabels r :=
    paint_of_not_mem fun hmem => absurd (hfree r hmem) (by omega)
  induction hjoined with
  | refl => rfl
  | tail hbefore hstep ih =>
    have hlabel := Joined.eq hbefore
    refine ih.tail ⟨hstep.1,?_⟩
    rw [hkeep _ (hlabel ▸ hp),hkeep _ (hstep.2 ▸ hlabel ▸ hp)]
    exact hstep.2

/-- The pixels of a segment are connected when they have one label. -/
theorem joined_paint_segment (hmem : ∀ q, q ∈ vec ↔ Joined w h labels o q) (hp : p ∈ vec)
    (hjoined : Joined w h labels p q) : Joined w h (paint nlabels vec v) p q := by
  induction hjoined with
  | refl => rfl
  | tail hbefore hstep ih =>
    have hr := (hmem _).mpr (((hmem p).mp hp).trans hbefore)
    have hnext := (hmem _).mpr (((hmem _).mp hr).tail hstep)
    exact ih.tail ⟨hstep.1,by rw [paint_of_mem hr,paint_of_mem hnext]⟩

/-- A new segment gets a label that no pixel has, or the one of a pixel that it touches. -/
theorem Coloured.paint_segment (hs : Coloured w h labels done nlabels) (ho : InImage w h o)
    (hmem : ∀ q, q ∈ vec ↔ Joined w h labels o q) (hfree : ∀ q ∈ vec, nlabels q < 0) (hv : 0 ≤ v)
    (hattach : (∃ r ∈ neighbours w h o, nlabels r = v) ∨ ∀ q, nlabels q ≠ v) :
    Coloured w h labels (done++[o]) (paint nlabels vec v) := by
  have hkeep (r : ℤ × ℤ) (hr : 0 ≤ nlabels r) : r ∉ vec := fun hmem =>
    absurd (hfree r hmem) (by omega)
  have himage (r : ℤ × ℤ) (hr : r ∈ vec) : InImage w h r := Joined.inImage ho ((hmem r).mp hr)
  -- from the segment to the region whose label it gets
  have hacross {p q : ℤ × ℤ} (hp : p ∈ vec) (hq : q ∉ vec) (heq : v = nlabels q) :
      Joined w h (paint nlabels vec v) p q := by
    obtain ⟨r,hr,hlabel⟩ | hfresh := hattach
    · have hrv : 0 ≤ nlabels r := hlabel ▸ hv
      have hback := Joined.symm ho ((hmem p).mp hp)
      have hstart : Joined w h (paint nlabels vec v) p o := joined_paint_segment hmem hp hback
      have hstep : paint nlabels vec v o = paint nlabels vec v r := by
        rw [paint_of_mem ((hmem o).mpr .refl),paint_of_not_mem (hkeep r hrv),hlabel]
      exact (hstart.tail ⟨hr,hstep⟩).trans
        (joined_paint hfree hrv (hs.joined r q hrv (hlabel.trans heq)))
    · exact absurd heq.symm (hfresh q)
  refine ⟨fun q => ?_,fun p q hp heq => ?_,fun p q hp hjoined => ?_⟩
  · by_cases hq : q ∈ vec
    · rw [paint_of_mem hq]
      exact iff_of_true hv ⟨o,List.mem_append_right _ (List.mem_singleton_self o),(hmem q).mp hq⟩
    · rw [paint_of_not_mem hq,hs.labelled]
      constructor
      · rintro ⟨p,hp,hjoined⟩
        exact ⟨p,List.mem_append_left _ hp,hjoined⟩
      · rintro ⟨p,hp,hjoined⟩
        obtain hp | hp := List.mem_append.mp hp
        · exact ⟨p,hp,hjoined⟩
        · rw [List.mem_singleton.mp hp] at hjoined
          exact absurd ((hmem q).mpr hjoined) hq
  · by_cases hpv : p ∈ vec <;> by_cases hqv : q ∈ vec
    · have hback := Joined.symm ho ((hmem p).mp hpv)
      exact joined_paint_segment hmem hpv (hback.trans ((hmem q).mp hqv))
    · rw [paint_of_mem hpv,paint_of_not_mem hqv] at heq
      exact hacross hpv hqv heq
    · rw [paint_of_not_mem hpv,paint_of_mem hqv] at heq
      exact Joined.symm (himage q hqv) (hacross hqv hpv heq.symm)
    · rw [paint_of_not_mem hpv] at hp heq
      rw [paint_of_not_mem hqv] at heq
      exact joined_paint hfree hp (hs.joined p q hp heq)
  · by_cases hpv : p ∈ vec
    · have hqv := (hmem q).mpr (((hmem p).mp hpv).trans hjoined)
      rw [paint_of_mem hpv,paint_of_mem hqv]
    · rw [paint_of_not_mem hpv] at hp
      have heq := hs.kept p q hp hjoined
      rw [paint_of_not_mem hpv,paint_of_not_mem (hkeep q (heq ▸ hp)),heq]

end Paint

section Scan

theorem Scanned.start (w h K : ℕ) (labels : ℤ × ℤ → ℤ) : Scanned w h K labels [] ⟨fun _ => -1,0,0⟩ where
  labelled := fun q => by simp
  joined := fun p q hp => absurd hp (not_le.mpr neg_one_lt_zero)
  kept := fun p q hp => absurd hp (not_le.mpr neg_one_lt_zero)
  nonneg := le_rfl
  lt := fun q => by simp
  big := fun l h0 hlt => absurd hlt (not_lt.mpr h0)
  large := by simp
  first := fun _ => rfl

theorem large_congr (hjoined : Joined w h labels o p) :
    Large w h K labels p → Large w h K labels o := by
  rintro ⟨vec,hnodup,hvec,hlimit⟩
  exact ⟨vec,hnodup,fun q hq => hjoined.trans (hvec q hq),hlimit⟩

theorem large_iff (hnodup : vec.Nodup) (hmem : ∀ q, q ∈ vec ↔ Joined w h labels o q) :
    Large w h K labels o ↔ limit w h K < vec.length := by
  constructor
  · rintro ⟨vec',hnodup',hvec',hlimit⟩
    have hsub : vec' ⊆ vec := fun q hq => (hmem q).mpr (hvec' q hq)
    exact hlimit.trans_le (List.subperm_of_subset hnodup' hsub).length_le
  · exact fun hlimit => ⟨vec,hnodup,fun q hq => (hmem q).mp hq,hlimit⟩

/-- Before the first segment no pixel has a label, and the label is zero. -/
theorem Scanned.nil (hs : Scanned w h K labels [] s) : (∀ q, s.nlabels q < 0) ∧ s.label = 0 := by
  refine ⟨fun q => ?_,?_⟩
  · have hnone : ¬ 0 ≤ s.nlabels q := by
      rw [hs.labelled]
      simp
    omega
  · have hzero : ¬ 0 < s.label := by
      rw [hs.large]
      simp
    have hnonneg := hs.nonneg
    omega

/-- The regions that there were keep their pixels. -/
theorem Scanned.big_paint (hs : Scanned w h K labels done s) (hfree : ∀ q ∈ vec, s.nlabels q < 0)
    {l : ℤ} (h0 : 0 ≤ l) (hl : l < s.label) : ∃ old : List (ℤ × ℤ), old.Nodup ∧
      (∀ q ∈ old, InImage w h q ∧ paint s.nlabels vec v q = l) ∧ limit w h K < old.length := by
  obtain ⟨old,hnodup,hold,hlimit⟩ := hs.big l h0 hl
  refine ⟨old,hnodup,fun q hq => ⟨(hold q hq).1,?_⟩,hlimit⟩
  have hlabel := (hold q hq).2
  rw [paint_of_not_mem fun hvec => absurd (hfree q hvec) (by omega),hlabel]

theorem lt_paint {bound : ℤ} (hv : v < bound) (hlt : ∀ q, nlabels q < bound) (q : ℤ × ℤ) :
    paint nlabels vec v q < bound := by
  unfold paint
  split
  · exact hv
  · exact hlt q

theorem exists_mem_snoc {P : ℤ × ℤ → Prop} :
    (∃ p ∈ done++[o], P p) ↔ (∃ p ∈ done, P p) ∨ P o := by
  simp only [List.mem_append,List.mem_singleton,or_and_right,exists_or,exists_eq_left]

/-- A pixel that has a label already. -/
theorem Scanned.skip (hs : Scanned w h K labels done s) (hlabel : 0 ≤ s.nlabels o) :
    Scanned w h K labels (done++[o]) s := by
  obtain ⟨p,hp,hjoined⟩ := (hs.labelled o).mp hlabel
  refine { hs with labelled := fun q => ?_,large := ?_,first := fun hnil => ?_ }
  · rw [exists_mem_snoc,← hs.labelled]
    exact (or_iff_left_of_imp fun hq => (hs.labelled q).mpr ⟨p,hp,hjoined.trans hq⟩).symm
  · rw [exists_mem_snoc,← hs.large]
    exact (or_iff_left_of_imp fun hlarge => hs.large.mpr
      ⟨p,hp,large_congr hjoined hlarge⟩).symm
  · exact absurd hnil (by simp)

/-- What the new segment is attached to: nothing before it, or a pixel with the label found. -/
theorem adjlabel_cases (hs : Scanned w h K labels done s)
    (hnear : done = [] ∨ ∃ r ∈ done, r ∈ neighbours w h o) :
    (done = [] ∧ adjacent w h s.nlabels o s.adjlabel = 0) ∨
      ∃ r ∈ neighbours w h o, 0 ≤ s.nlabels r ∧
        adjacent w h s.nlabels o s.adjlabel = s.nlabels r := by
  obtain ⟨hsame,hnone⟩ | hfound := adjacent_cases w h s.nlabels o s.adjlabel
  · obtain rfl | ⟨r,hr,hmem⟩ := hnear
    · exact .inl ⟨rfl,hsame.trans (hs.first rfl)⟩
    · have hlabel := (hs.labelled r).mpr ⟨r,hr,.refl⟩
      exact absurd (hnone r hmem) (by omega)
  · exact .inr hfound

/-- A small segment. -/
theorem Scanned.merge (hs : Scanned w h K labels done s) (ho : InImage w h o)
    (hnear : done = [] ∨ ∃ r ∈ done, r ∈ neighbours w h o) (hnodup : vec.Nodup)
    (hmem : ∀ q, q ∈ vec ↔ Joined w h labels o q) (hfree : ∀ q ∈ vec, s.nlabels q < 0)
    (hsmall : vec.length ≤ limit w h K) : Scanned w h K labels (done++[o])
      ⟨paint s.nlabels vec (adjacent w h s.nlabels o s.adjlabel),s.label-1+1,
        adjacent w h s.nlabels o s.adjlabel⟩ := by
  have hcases := adjlabel_cases hs hnear
  generalize adjacent w h s.nlabels o s.adjlabel = v at hcases ⊢
  have hv : 0 ≤ v ∧ v < max s.label 1 ∧
      ((∃ r ∈ neighbours w h o, s.nlabels r = v) ∨ ∀ q, s.nlabels q ≠ v) := by
    obtain ⟨rfl,rfl⟩ | ⟨r,hr,hlabel,rfl⟩ := hcases
    · exact ⟨le_rfl,lt_max_of_lt_right zero_lt_one,.inr fun q => (hs.nil.1 q).ne⟩
    · exact ⟨hlabel,hs.lt r,.inl ⟨r,hr,rfl⟩⟩
  rw [Int.sub_add_cancel]
  exact {
    toColoured := hs.toColoured.paint_segment ho hmem hfree hv.1 hv.2.2
    nonneg := hs.nonneg
    lt := lt_paint hv.2.1 hs.lt
    big := fun l h0 hl => hs.big_paint hfree h0 hl
    large := by
      rw [exists_mem_snoc,← hs.large,large_iff hnodup hmem]
      exact (or_iff_left hsmall.not_gt).symm
    first := fun hnil => absurd hnil (by simp) }

/-- A large one. -/
theorem Scanned.number (hs : Scanned w h K labels done s) (ho : InImage w h o)
    (hnear : done = [] ∨ ∃ r ∈ done, r ∈ neighbours w h o) (hnodup : vec.Nodup)
    (hmem : ∀ q, q ∈ vec ↔ Joined w h labels o q) (hfree : ∀ q ∈ vec, s.nlabels q < 0)
    (hlarge : limit w h K < vec.length) (adjlabel : ℤ) : Scanned w h K labels (done++[o])
      ⟨paint s.nlabels vec s.label,s.label+1,adjlabel⟩ := by
  have h0 := hs.nonneg
  have hattach : (∃ r ∈ neighbours w h o, s.nlabels r = s.label) ∨
      ∀ q, s.nlabels q ≠ s.label := by
    obtain hzero | hpos := h0.eq_or_lt
    · obtain rfl | ⟨r,hr,hmem⟩ := hnear
      · exact .inr fun q => ((hs.nil.1 q).trans_le h0).ne
      · have hlabel := (hs.labelled r).mpr ⟨r,hr,.refl⟩
        have hlt := hs.lt r
        exact .inl ⟨r,hmem,by omega⟩
    · exact .inr fun q => ((hs.lt q).trans_le (max_le le_rfl hpos)).ne
  refine ⟨hs.toColoured.paint_segment ho hmem hfree h0 hattach,by dsimp; omega,?_,?_,?_,?_⟩
  · refine lt_paint (lt_max_of_lt_left (Int.lt_succ _)) fun q => (hs.lt q).trans_le ?_
    exact max_le_max_right 1 (Int.le_add_one le_rfl)
  · intro l hl0 hl
    obtain hlt | rfl := (Int.le_of_lt_add_one hl).lt_or_eq
    · exact hs.big_paint hfree hl0 hlt
    · refine ⟨vec,hnodup,fun q hq => ⟨?_,paint_of_mem hq⟩,hlarge⟩
      exact Joined.inImage ho ((hmem q).mp hq)
  · rw [exists_mem_snoc,large_iff hnodup hmem]
    exact iff_of_true (Int.lt_add_one_of_le h0) (.inr hlarge)
  · exact fun hnil => absurd hnil (by simp)

/-- One pixel of the scan. -/
theorem Scanned.segment (hs : Scanned w h K labels done s) (ho : InImage w h o)
    (hnear : done = [] ∨ ∃ r ∈ done, r ∈ neighbours w h o) :
    ∃ s', segment w h K labels s o = some s' ∧ Scanned w h K labels (done++[o]) s' := by
  unfold Superpixels.segment
  by_cases hnew : 0 > s.nlabels o
  · have hjoined (q : ℤ × ℤ) (hq : Joined w h labels o q) : s.nlabels q < 0 := by
      by_contra hlabel
      obtain ⟨p,hp,hpq⟩ := (hs.labelled q).mp (not_lt.mp hlabel)
      have hback := Joined.symm ho hq
      exact absurd ((hs.labelled o).mpr ⟨p,hp,hpq.trans hback⟩) (by omega)
    obtain ⟨vec,hnodup,hmem,hfill⟩ := fill_segment ho hs.nonneg hjoined
    have hfree (q : ℤ × ℤ) (hq : q ∈ vec) : s.nlabels q < 0 := hjoined q ((hmem q).mp hq)
    have hadjacent : adjacent w h (Function.update s.nlabels o s.label) o s.adjlabel =
        adjacent w h s.nlabels o s.adjlabel := by
      refine List.foldl_ext _ _ _ fun adj q hq => ?_
      have hne : q ≠ o := fun heq => not_mem_neighbours (heq ▸ hq)
      simp only [Function.update_of_ne hne]
    simp only [if_pos hnew,hfill,Option.map_some,hadjacent]
    refine ⟨_,rfl,?_⟩
    by_cases hsmall : vec.length ≤ limit w h K
    · rw [if_pos hsmall,foldl_update_paint]
      exact hs.merge ho hnear hnodup hmem hfree hsmall
    · rw [if_neg hsmall]
      exact hs.number ho hnear hnodup hmem hfree (not_le.mp hsmall) _
  · rw [if_neg hnew]
    exact ⟨s,rfl,hs.skip (not_lt.mp hnew)⟩

/-- The rest of the scan. -/
theorem Scanned.run (hs : Scanned w h K labels done s) (hpixels : pixels w h = done++rest) :
    ∃ s', rest.foldlM (Superpixels.segment w h K labels) s = some s' ∧
      Scanned w h K labels (pixels w h) s' := by
  induction rest generalizing done s with
  | nil =>
    rw [List.append_nil] at hpixels
    exact ⟨s,rfl,hpixels ▸ hs⟩
  | cons o rest ih =>
    have himage : ∀ p ∈ done++o::rest, InImage w h p := fun p hp => mem_pixels.mp (hpixels ▸ hp)
    obtain ⟨s₁,hstep,hs₁⟩ := hs.segment
      (himage o (List.mem_append_right _ List.mem_cons_self)) (before_of_pixels hpixels)
    rw [← List.singleton_append,← List.append_assoc] at hpixels
    obtain ⟨s',hrest,hs'⟩ := ih hs₁ hpixels
    refine ⟨s',?_,hs'⟩
    rw [List.foldlM_cons,hstep]
    exact hrest

end Scan

section Main

theorem enforce_eq_some (w h K : ℕ) (labels : ℤ × ℤ → ℤ) :
    ∃ s, enforceLabelConnectivity w h K labels = some (s.nlabels,s.label) ∧
      Scanned w h K labels (pixels w h) s := by
  obtain ⟨s,hrun,hs⟩ := (Scanned.start w h K labels).run (List.nil_append _).symm
  exact ⟨s,by rw [enforceLabelConnectivity,hrun]; rfl,hs⟩

theorem Scanned.relabelled (hs : Scanned w h K labels (pixels w h) s) (hpos : 0 < s.label) :
    Relabelled w h K labels s.nlabels s.label := by
  have hlabel (p : ℤ × ℤ) (hp : InImage w h p) : 0 ≤ s.nlabels p :=
    (hs.labelled p).mpr ⟨p,mem_pixels.mpr hp,.refl⟩
  refine ⟨fun p hp => ⟨hlabel p hp,?_⟩,fun l h0 hl => ?_,?_,?_⟩
  · exact (hs.lt p).trans_le (max_le le_rfl hpos)
  · obtain ⟨vec,hnodup,hvec,hlimit⟩ := hs.big l h0 hl
    rw [List.countP_eq_length_filter]
    refine hlimit.trans_le (List.subperm_of_subset hnodup fun q hq => ?_).length_le
    obtain ⟨himage,hq⟩ := hvec q hq
    exact List.mem_filter.mpr ⟨mem_pixels.mpr himage,decide_eq_true hq⟩
  · exact fun p q hp _ heq => hs.joined p q (hlabel p hp) heq
  · exact fun p q hp hq heq => hs.kept p q (hlabel p hp) (.single ⟨hq,heq⟩)

/-- The new labels are as they should be exactly where a segment has more pixels than the limit. With
small segments only all pixels get label 0, of no labels. -/
theorem connects_iff (hw : 1 ≤ w) (hh : 1 ≤ h) (labels : ℤ × ℤ → ℤ) :
    Connects w h K labels ↔ ∃ p, InImage w h p ∧ Large w h K labels p := by
  obtain ⟨s,hrun,hs⟩ := enforce_eq_some w h K labels
  have hlarge : 0 < s.label ↔ ∃ p, InImage w h p ∧ Large w h K labels p := by
    simp only [hs.large,mem_pixels]
  rw [← hlarge]
  constructor
  · rintro ⟨nlabels,numlabels,heq,hrelabelled⟩
    obtain ⟨rfl,rfl⟩ := Prod.mk.inj (Option.some.inj (hrun.symm.trans heq))
    have hcorner := hrelabelled.range (0,0) ⟨le_rfl,by dsimp; omega,le_rfl,by dsimp; omega⟩
    exact hcorner.1.trans_lt hcorner.2
  · exact fun hpos => ⟨s.nlabels,s.label,hrun,hs.relabelled hpos⟩

/-- Two labels in an image of two by two pixels, a column each. -/
def columns : ℤ × ℤ → ℤ := fun p => p.1

theorem connects_columns : Connects 2 2 1 columns := by
  refine (connects_iff (by decide) (by decide) columns).mpr ⟨(0,0),by decide,[(0,0),(0,1)],by decide,
    ?_,by decide⟩
  intro q hq
  obtain rfl | hq := List.mem_cons.mp hq
  · exact .refl
  · obtain rfl := List.mem_singleton.mp hq
    exact .single ⟨by decide,rfl⟩

/-- Four labels in such an image. -/
def checkered : ℤ × ℤ → ℤ := fun p => p.1+2*p.2

/-- Each segment is one pixel and the limit is one: label 0 everywhere, and no labels. -/
theorem not_connects_checkered :
    (enforceLabelConnectivity 2 2 1 checkered).map (fun r => ((pixels 2 2).map r.1,r.2)) =
        some ([0,0,0,0],0) ∧
      ¬ Connects 2 2 1 checkered := by
  have hrun : (enforceLabelConnectivity 2 2 1 checkered).map
      (fun r => ((pixels 2 2).map r.1,r.2)) = some ([0,0,0,0],0) := by
    decide +kernel
  refine ⟨hrun,?_⟩
  rintro ⟨nlabels,numlabels,heq,hrelabelled⟩
  rw [heq] at hrun
  obtain ⟨-,rfl⟩ := Prod.mk.inj (Option.some.inj hrun)
  have hcorner := hrelabelled.range (0,0) (by decide)
  omega

end Main

end PucRio.Superpixels
