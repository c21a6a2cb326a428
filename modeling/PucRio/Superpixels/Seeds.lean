import Mathlib.Algebra.Order.Ring.Int
import Mathlib.Data.Int.DivMod
import Mathlib.Data.List.Range
import Mathlib.Data.Nat.Sqrt
import Mathlib.Tactic.Linarith
import Mathlib.Tactic.Ring
import Mathlib.Tactic.SplitIfs

/-! Where the clusters of the superpixels start: at the points of a grid, each moved to the pixel of
least gradient around it. What the pixels look like and how gradients compare is left open. -/
namespace PucRio.Superpixels

/-- What is asked of the pixels: a gradient of three of them, the two ways it is computed, and whether
the one is less than the other. -/
structure Gradient (P G : Type) where
  FLT_MAX : G
  compared : P → P → P → G
  kept : P → P → P → G
  less : G → G → Bool

/-- The pixels that are read, and the position of the cluster. -/
structure Search where
  reads : List (ℤ × ℤ)
  min : ℤ × ℤ
  deriving DecidableEq, Repr

/-- From one before the center to one behind, while the next is less than the size. -/
def window (center size : ℤ) : List ℤ := [center-1,center,center+1].takeWhile (·+1 < size)

variable {P G : Type}

/-- The pixel of least gradient so far, and that gradient. -/
def findStep (grad : Gradient P G) (Lab : ℤ → ℤ → P) (best : G × ℤ × ℤ) (sW sH : ℤ) : G × ℤ × ℤ :=
  let c1 := Lab sW (sH+1)
  let c2 := Lab (sW+1) sH
  let c3 := Lab sW sH
  if grad.less (grad.compared c1 c2 c3) best.1 then (grad.kept c1 c2 c3,sW,sH) else best

def findSmallestGradient (grad : Gradient P G) (Lab : ℤ → ℤ → P) (w h s i j : ℤ) : Search :=
  let centerX := i+s/2
  let centerY := j+s/2
  let best := (window centerX w).foldl (fun best sW =>
    (window centerY h).foldl (fun best sH => findStep grad Lab best sW sH) best)
    (grad.FLT_MAX,centerX,centerY)
  { reads := ((window centerX w).flatMap fun sW => (window centerY h).flatMap fun sH =>
      [(sW,sH+1),(sW+1,sH),(sW,sH)])++[best.2]
    min := best.2 }

/-- The loop over the clusters, with so many left. -/
def seeds (w h s : ℤ) : ℕ → ℤ → ℤ → List (ℤ × ℤ)
  | 0,_,_ => []
  | k+1,i,j =>
    if w < i+s then
      if h < j+s then [] else (0,j+s)::seeds w h s k 0 (j+s)
    else (i+s,j)::seeds w h s k (i+s) j

/-- `(int)floor(sqrt(width * height / k))`; on sizes of an image the quotient and the root are exact
enough. -/
def side (w h k : ℕ) : ℕ := Nat.sqrt (w*h/k)

/-- The searches for the clusters; they are as many as the result says. -/
def initializeClusters (grad : Gradient P G) (Lab : ℤ → ℤ → P) (w h k : ℕ) : List Search :=
  (seeds w h (side w h k) k 0 0).map fun p =>
    findSmallestGradient grad Lab w h (side w h k) p.1 p.2

def InImage (w h : ℕ) (p : ℤ × ℤ) : Prop := 0 ≤ p.1 ∧ p.1 < w ∧ 0 ≤ p.2 ∧ p.2 < h

/-- All pixels read, and all clusters, are in the image. -/
def SeedsInImage (grad : Gradient P G) (Lab : ℤ → ℤ → P) (w h k : ℕ) : Prop :=
  ∀ c ∈ initializeClusters grad Lab w h k, (∀ p ∈ c.reads, InImage w h p) ∧ InImage w h c.min

/-- How many clusters there are: `k`, or what the grid has. -/
def clusterCount (w h k : ℕ) : ℕ :=
  min k ((w/side w h k+1)*(h/side w h k+1)-1)

/-- The side is at least two, and half of it behind the last point of the grid in a row, and behind the
last row with one, there is still image. -/
structure GridFits (w h k : ℕ) : Prop where
  two_le : 2 ≤ side w h k
  lt_w : min (clusterCount w h k) (w/side w h k)*side w h k+side w h k/2 < w
  lt_h : clusterCount w h k/(w/side w h k+1)*side w h k+side w h k/2 < h

section Search
variable {grad : Gradient P G} {Lab : ℤ → ℤ → P} {w h k : ℕ} {s i j : ℤ}

theorem mem_window {center size x : ℤ} :
    x ∈ window center size ↔ center-1 ≤ x ∧ x ≤ center+1 ∧ x+1 < size := by
  unfold window
  simp only [List.takeWhile_cons,List.takeWhile_nil]
  split_ifs <;> simp_all <;> omega

/-- The pixel found is the center or one of the window. -/
theorem find_cases (grad : Gradient P G) (Lab : ℤ → ℤ → P) (wx wy : List ℤ) (best : G × ℤ × ℤ) :
    (wx.foldl (fun best sW => wy.foldl (fun best sH => findStep grad Lab best sW sH) best) best).2 =
        best.2 ∨
      ((wx.foldl (fun best sW => wy.foldl (fun best sH => findStep grad Lab best sW sH) best)
          best).2.1 ∈ wx ∧
        (wx.foldl (fun best sW => wy.foldl (fun best sH => findStep grad Lab best sW sH) best)
          best).2.2 ∈ wy) := by
  have hcolumn (sW : ℤ) (l : List ℤ) (best : G × ℤ × ℤ) :
      (l.foldl (fun best sH => findStep grad Lab best sW sH) best).2 = best.2 ∨
        ((l.foldl (fun best sH => findStep grad Lab best sW sH) best).2.1 = sW ∧
          (l.foldl (fun best sH => findStep grad Lab best sW sH) best).2.2 ∈ l) := by
    induction l generalizing best with
    | nil => exact .inl rfl
    | cons sH l ih =>
      rw [List.foldl_cons]
      obtain hsame | ⟨hx,hy⟩ := ih (findStep grad Lab best sW sH)
      · rw [hsame]
        unfold findStep
        dsimp only
        split_ifs
        · exact .inr ⟨rfl,List.mem_cons_self⟩
        · exact .inl rfl
      · exact .inr ⟨hx,List.mem_cons_of_mem _ hy⟩
  induction wx generalizing best with
  | nil => exact .inl rfl
  | cons sW wx ih =>
    rw [List.foldl_cons]
    obtain hsame | ⟨hx,hy⟩ := ih (wy.foldl (fun best sH => findStep grad Lab best sW sH) best)
    · rw [hsame]
      obtain hsame | ⟨hx,hy⟩ := hcolumn sW wy best
      · exact .inl hsame
      · exact .inr ⟨List.mem_cons.mpr (.inl hx),hy⟩
    · exact .inr ⟨List.mem_cons_of_mem _ hx,hy⟩

theorem mem_reads {p : ℤ × ℤ} : p ∈ (findSmallestGradient grad Lab w h s i j).reads ↔
    (∃ sW ∈ window (i+s/2) w, ∃ sH ∈ window (j+s/2) h,
      p = (sW,sH+1) ∨ p = (sW+1,sH) ∨ p = (sW,sH)) ∨
    p = (findSmallestGradient grad Lab w h s i j).min := by
  unfold findSmallestGradient
  simp only [List.mem_append,List.mem_flatMap,List.mem_cons,List.not_mem_nil,or_false]

theorem min_cases (grad : Gradient P G) (Lab : ℤ → ℤ → P) (w h : ℕ) (s i j : ℤ) :
    (findSmallestGradient grad Lab w h s i j).min = (i+s/2,j+s/2) ∨
    ((findSmallestGradient grad Lab w h s i j).min.1 ∈ window (i+s/2) w ∧
      (findSmallestGradient grad Lab w h s i j).min.2 ∈ window (j+s/2) h) :=
  find_cases grad Lab _ _ _

/-- Around a center in the image that is not at its upper or left border everything is in it. -/
theorem inImage_of_center (hx : 1 ≤ i+s/2) (hy : 1 ≤ j+s/2) (hxw : i+s/2 < w) (hyh : j+s/2 < h) :
    (∀ p ∈ (findSmallestGradient grad Lab w h s i j).reads, InImage w h p) ∧
      InImage w h (findSmallestGradient grad Lab w h s i j).min := by
  have hmin : InImage w h (findSmallestGradient grad Lab w h s i j).min := by
    obtain hcenter | ⟨hmx,hmy⟩ := min_cases grad Lab w h s i j
    · rw [hcenter]
      exact ⟨by omega,hxw,by omega,hyh⟩
    · rw [mem_window] at hmx hmy
      exact ⟨by omega,by omega,by omega,by omega⟩
  refine ⟨fun p hp => ?_,hmin⟩
  obtain ⟨sW,hsW,sH,hsH,hp⟩ | rfl := mem_reads.mp hp
  · rw [mem_window] at hsW hsH
    obtain rfl | rfl | rfl := hp <;> exact ⟨by dsimp; omega,by dsimp; omega,by dsimp; omega,by dsimp; omega⟩
  · exact hmin

/-- With the center behind a border the window is empty, and the center is read. -/
theorem center_lt (hmin : InImage w h (findSmallestGradient grad Lab w h s i j).min) :
    i+s/2 < w ∧ j+s/2 < h := by
  obtain hcenter | ⟨hmx,hmy⟩ := min_cases grad Lab w h s i j
  · rw [hcenter] at hmin
    exact ⟨hmin.2.1,hmin.2.2.2⟩
  · rw [mem_window] at hmx hmy
    exact ⟨by omega,by omega⟩

/-- With a side of one a pixel above the image is read. -/
theorem not_inImage_one (hw : 1 < w) (hh : 1 ≤ h) :
    ¬ ∀ p ∈ (findSmallestGradient grad Lab w h 1 1 0).reads, InImage w h p := by
  intro hall
  have hread := hall (0,-1) (mem_reads.mpr (.inl ⟨0,mem_window.mpr (by omega),-1,
    mem_window.mpr (by omega),.inr (.inr rfl)⟩))
  exact absurd hread.2.2.1 (by decide)

end Search

section Grid
variable {w h S : ℕ}

/-- The point of the grid that comes after so many others, row by row. -/
def gridPoint (w S q : ℕ) : ℤ × ℤ := (((q%(w/S+1)*S : ℕ) : ℤ),((q/(w/S+1)*S : ℕ) : ℤ))

/-- What is left of the grid at the end of a row. -/
theorem min_sub {k before all m : ℕ} (h : before+(m+1) ≤ all) :
    min (k+1) (all+(m+1)-1-(before+m)) = min k (all+(m+1)-1-(before+(m+1)+0))+1 := by
  omega

/-- The points are taken in their order, from the one behind (a,b) on. -/
theorem seeds_eq (hS : 0 < S) {a b : ℕ} (ha : a ≤ w/S) (hb : b ≤ h/S) (k : ℕ) :
    seeds w h S k ((a*S : ℕ) : ℤ) ((b*S : ℕ) : ℤ) =
      (List.range' (b*(w/S+1)+a+1)
        (min k ((w/S+1)*(h/S+1)-1-(b*(w/S+1)+a)))).map (gridPoint w S) := by
  induction k generalizing a b with
  | zero => rw [seeds,Nat.zero_min]; rfl
  | succ k ih =>
    have hrow : (w : ℤ) < ((a*S : ℕ) : ℤ)+S ↔ w/S < a+1 := by
      rw [Nat.div_lt_iff_lt_mul hS,Nat.succ_mul]
      omega
    have hcol : (h : ℤ) < ((b*S : ℕ) : ℤ)+S ↔ h/S < b+1 := by
      rw [Nat.div_lt_iff_lt_mul hS,Nat.succ_mul]
      omega
    have htotal : (w/S+1)*(h/S+1) = h/S*(w/S+1)+(w/S+1) := by ring
    rw [seeds]
    by_cases hlast : w/S < a+1
    · obtain rfl : a = w/S := by omega
      rw [if_pos (hrow.mpr hlast)]
      by_cases hend : h/S < b+1
      · obtain rfl : b = h/S := by omega
        have hzero : (w/S+1)*(h/S+1)-1-(h/S*(w/S+1)+w/S) = 0 := by omega
        rw [if_pos (hcol.mpr hend),hzero,Nat.min_zero]
        rfl
      · have hmul : (b+1)*(w/S+1) ≤ h/S*(w/S+1) := Nat.mul_le_mul_right _ (by omega)
        have hsucc : (b+1)*(w/S+1) = b*(w/S+1)+(w/S+1) := Nat.succ_mul _ _
        have hnext : b*(w/S+1)+w/S+1 = (b+1)*(w/S+1)+0 := by ring
        have hcount : min (k+1) ((w/S+1)*(h/S+1)-1-(b*(w/S+1)+w/S)) =
            min k ((w/S+1)*(h/S+1)-1-((b+1)*(w/S+1)+0))+1 := by
          rw [hsucc] at hmul
          rw [htotal,hsucc]
          exact min_sub hmul
        have hpoint : gridPoint w S ((b+1)*(w/S+1)+0) = (0,((b*S : ℕ) : ℤ)+S) := by
          rw [gridPoint,Nat.add_zero,Nat.mul_mod_left,Nat.mul_div_cancel _ (Nat.succ_pos _),
            Nat.zero_mul,Nat.succ_mul]
          rfl
        have hrest := ih (a := 0) (b := b+1) (Nat.zero_le _) (by omega)
        rw [Nat.zero_mul,Nat.succ_mul] at hrest
        rw [if_neg (fun hlt => hend (hcol.mp hlt)),hcount,hnext,List.range'_succ,List.map_cons,
          hpoint]
        congr 1
    · have hcount : min (k+1) ((w/S+1)*(h/S+1)-1-(b*(w/S+1)+a)) =
          min k ((w/S+1)*(h/S+1)-1-(b*(w/S+1)+(a+1)))+1 := by
        have hmul : b*(w/S+1) ≤ h/S*(w/S+1) := Nat.mul_le_mul_right _ hb
        omega
      have hpoint : gridPoint w S (b*(w/S+1)+(a+1)) = (((a*S : ℕ) : ℤ)+S,((b*S : ℕ) : ℤ)) := by
        have hlt : a+1 < w/S+1 := by omega
        rw [gridPoint,Nat.mul_comm b,Nat.mul_add_mod,Nat.mod_eq_of_lt hlt,
          Nat.mul_add_div (Nat.succ_pos _),Nat.div_eq_of_lt hlt,Nat.add_zero,Nat.succ_mul]
        rfl
      have hrest := ih (a := a+1) (b := b) (by omega) hb
      rw [Nat.succ_mul] at hrest
      rw [if_neg (fun hlt => hlast (hrow.mp hlt)),hcount,Nat.add_assoc (b*(w/S+1)),List.range'_succ,
        List.map_cons,hpoint]
      congr 1

end Grid

section Main
variable {grad : Gradient P G} {Lab : ℤ → ℤ → P} {w h k : ℕ}

theorem side_pos (hk : 1 ≤ k) (hkwh : k ≤ w*h) : 0 < side w h k :=
  Nat.sqrt_pos.mpr (Nat.div_pos hkwh hk)

theorem clusterCount_pos (hk : 1 ≤ k) (hS : 0 < side w h k) : 0 < clusterCount w h k := by
  have hsq : side w h k*side w h k ≤ w*h := (Nat.sqrt_le _).trans (Nat.div_le_self _ _)
  refine lt_min hk ?_
  by_contra hzero
  have hcols : w/side w h k = 0 := by
    by_contra hne
    have : 2*1 ≤ (w/side w h k+1)*(h/side w h k+1) :=
      Nat.mul_le_mul (Nat.succ_le_succ (Nat.pos_of_ne_zero hne)) (Nat.succ_pos _)
    omega
  have hrows : h/side w h k = 0 := by
    by_contra hne
    have : 1*2 ≤ (w/side w h k+1)*(h/side w h k+1) :=
      Nat.mul_le_mul (Nat.succ_pos _) (Nat.succ_le_succ (Nat.pos_of_ne_zero hne))
    omega
  rw [Nat.div_eq_zero_iff_lt hS] at hcols hrows
  exact absurd (Nat.mul_lt_mul'' hcols hrows) (not_lt.mpr hsq)

theorem mem_initializeClusters (hS : 0 < side w h k) {c : Search} :
    c ∈ initializeClusters grad Lab w h k ↔ ∃ q, (1 ≤ q ∧ q ≤ clusterCount w h k) ∧
      c = findSmallestGradient grad Lab w h (side w h k) (gridPoint w (side w h k) q).1
        (gridPoint w (side w h k) q).2 := by
  have hseeds := seeds_eq (w := w) (h := h) hS (Nat.zero_le (w/side w h k))
    (Nat.zero_le (h/side w h k)) k
  rw [Nat.zero_mul,Nat.zero_mul,Nat.cast_zero] at hseeds
  unfold initializeClusters clusterCount
  rw [hseeds,List.map_map,List.mem_map]
  constructor
  · rintro ⟨q,hq,rfl⟩
    rw [List.mem_range'_1] at hq
    exact ⟨q,by omega,rfl⟩
  · rintro ⟨q,hq,rfl⟩
    exact ⟨q,by rw [List.mem_range'_1]; omega,rfl⟩

theorem seedsInImage_of_gridFits (hfits : GridFits w h k) : SeedsInImage grad Lab w h k := by
  have h2 := hfits.two_le
  intro c hc
  obtain ⟨q,hq,rfl⟩ := (mem_initializeClusters (by omega)).mp hc
  have hcol : q%(w/side w h k+1)*side w h k ≤
      min (clusterCount w h k) (w/side w h k)*side w h k := by
    refine Nat.mul_le_mul_right _ (le_min ((Nat.mod_le _ _).trans hq.2) ?_)
    exact Nat.le_of_lt_succ (Nat.mod_lt _ (Nat.succ_pos _))
  have hrow : q/(w/side w h k+1)*side w h k ≤
      clusterCount w h k/(w/side w h k+1)*side w h k :=
    Nat.mul_le_mul_right _ (Nat.div_le_div_right hq.2)
  have hltw := hfits.lt_w
  have hlth := hfits.lt_h
  apply inImage_of_center <;> simp only [gridPoint] <;> omega

theorem gridFits_of_seedsInImage (hw : 1 ≤ w) (hh : 1 ≤ h) (hk : 1 ≤ k) (hkwh : k ≤ w*h)
    (hin : SeedsInImage grad Lab w h k) : GridFits w h k := by
  have hS := side_pos hk hkwh
  have hcount := clusterCount_pos hk hS
  have hcenter {q : ℕ} (hq : 1 ≤ q ∧ q ≤ clusterCount w h k) :
      q%(w/side w h k+1)*side w h k+side w h k/2 < w ∧
        q/(w/side w h k+1)*side w h k+side w h k/2 < h := by
    have hlt := center_lt (hin _ ((mem_initializeClusters hS).mpr ⟨q,hq,rfl⟩)).2
    simp only [gridPoint] at hlt
    omega
  refine ⟨?_,?_,(hcenter ⟨hcount,le_rfl⟩).2⟩
  · by_contra hone
    have h1 : side w h k = 1 := by omega
    have hfirst := hin _ ((mem_initializeClusters hS).mpr ⟨1,⟨le_rfl,hcount⟩,rfl⟩)
    have hcol : 1%(w/1+1) = 1 := Nat.mod_eq_of_lt (by omega)
    have hrow : 1/(w/1+1) = 0 := Nat.div_eq_of_lt (by omega)
    simp only [h1,gridPoint,hcol,hrow,Nat.cast_one,Nat.cast_zero,Nat.one_mul,Nat.zero_mul] at hfirst
    have hlt := (center_lt hfirst.2).1
    exact not_inImage_one (by omega) hh hfirst.1
  · by_cases hcols : w/side w h k = 0
    · have hlt := (hcenter ⟨le_rfl,hcount⟩).1
      rw [hcols,Nat.min_zero]
      rwa [hcols,Nat.zero_add,Nat.mod_one] at hlt
    · have hlt := (hcenter (q := min (clusterCount w h k) (w/side w h k))
        ⟨le_min hcount (Nat.pos_of_ne_zero hcols),min_le_left _ _⟩).1
      rwa [Nat.mod_eq_of_lt (Nat.lt_succ_of_le (min_le_right _ _))] at hlt

/-- All that is read lies in the image exactly where the grid leaves half a step at its ends and its
step is not one. -/
theorem seedsInImage_iff (grad : Gradient P G) (Lab : ℤ → ℤ → P) (hw : 1 ≤ w) (hh : 1 ≤ h)
    (hk : 1 ≤ k) (hkwh : k ≤ w*h) : SeedsInImage grad Lab w h k ↔ GridFits w h k :=
  ⟨gridFits_of_seedsInImage hw hh hk hkwh,seedsInImage_of_gridFits⟩

/-- Any pixels with any gradients. -/
def flat : Gradient Unit Unit := ⟨(),fun _ _ _ => (),fun _ _ _ => (),fun _ _ => false⟩

theorem seedsInImage_iff_five : SeedsInImage flat (fun _ _ => ()) 5 5 2 ↔ GridFits 5 5 2 :=
  seedsInImage_iff flat (fun _ _ => ()) (by decide) (by decide) (by decide) (by decide)

/-- The cluster of an image of two by two pixels starts at (2,0), from where the center is moved to
(3,1). -/
theorem not_seedsInImage_two :
    initializeClusters flat (fun _ _ => ()) 2 2 1 = [⟨[(3,1)],(3,1)⟩] ∧
      ¬ SeedsInImage flat (fun _ _ => ()) 2 2 1 := by
  have hclusters : initializeClusters flat (fun _ _ => ()) 2 2 1 = [⟨[(3,1)],(3,1)⟩] := by
    decide +kernel
  refine ⟨hclusters,fun hin => ?_⟩
  have hmin := (hin ⟨[(3,1)],(3,1)⟩ (hclusters ▸ List.mem_singleton_self _)).2
  exact absurd hmin.2.1 (by decide)

end Main

end PucRio.Superpixels
