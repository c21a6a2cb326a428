import PucRio.Lib.Worklist
import PucRio.Superpixels.Seeds
import Mathlib.Data.Int.Interval
import Mathlib.Data.List.ProdSigma

/-! The labels of an image are made connected: one pixel after the other that has no new label starts
a segment, and a segment of few pixels gets the label of one that was there before. The fill of one
segment finds the pixels without a new label that are joined to the first, and gives them one value. -/
namespace PucRio.Superpixels
open PucRio.Worklist

instance (w h : ℕ) (p : ℤ × ℤ) : Decidable (InImage w h p) :=
  inferInstanceAs (Decidable (_ ∧ _))

/-- In the order of `dx4` and `dy4`, as far as they are in the image. -/
def neighbours (w h : ℕ) (p : ℤ × ℤ) : List (ℤ × ℤ) :=
  [(p.1-1,p.2),(p.1,p.2-1),(p.1+1,p.2),(p.1,p.2+1)].filter (InImage w h ·)

/-- The entries of `xvec` and `yvec` up to `count`, and the new labels. -/
structure Fill where
  vec : List (ℤ × ℤ)
  nlabels : ℤ × ℤ → ℤ

/-- A neighbour during the fill that began at `o`; nothing if there is no entry left to write. -/
def visit (w h : ℕ) (labels : ℤ × ℤ → ℤ) (label : ℤ) (o : ℤ × ℤ) (f : Fill) (q : ℤ × ℤ) :
    Option Fill :=
  if 0 > f.nlabels q ∧ labels o = labels q then
    if f.vec.length < w*h then some ⟨f.vec++[q],Function.update f.nlabels q label⟩ else none
  else some f

/-- From the entry `c` on. -/
def fill (w h : ℕ) (labels : ℤ × ℤ → ℤ) (label : ℤ) (o : ℤ × ℤ) : ℕ → ℕ → Fill → Option Fill
  | 0,_,_ => none
  | fuel+1,c,f =>
    if hc : c < f.vec.length then
      ((neighbours w h f.vec[c]).foldlM (visit w h labels label o) f).bind
        (fill w h labels label o fuel (c+1))
    else some f

structure Scan where
  nlabels : ℤ × ℤ → ℤ
  label : ℤ
  adjlabel : ℤ

/-- The last label around, or the one from before. -/
def adjacent (w h : ℕ) (nlabels : ℤ × ℤ → ℤ) (o : ℤ × ℤ) (adjlabel : ℤ) : ℤ :=
  (neighbours w h o).foldl (fun adj q => if nlabels q ≥ 0 then nlabels q else adj) adjlabel

/-- `SUPSZ >> 2`. -/
def limit (w h K : ℕ) : ℕ := w*h/K/4

/-- A pixel of the scan. The fill has a round for each entry and one to see that there is no more. -/
def segment (w h K : ℕ) (labels : ℤ × ℤ → ℤ) (s : Scan) (o : ℤ × ℤ) : Option Scan :=
  if 0 > s.nlabels o then
    let nlabels := Function.update s.nlabels o s.label
    let adjlabel := adjacent w h nlabels o s.adjlabel
    (fill w h labels s.label o (w*h+1) 0 ⟨[o],nlabels⟩).map fun f =>
      if f.vec.length ≤ limit w h K then
        { nlabels := f.vec.foldl (fun nlabels q => Function.update nlabels q adjlabel) f.nlabels
          label := s.label-1+1
          adjlabel := adjlabel }
      else ⟨f.nlabels,s.label+1,adjlabel⟩
  else some s

def pixels (w h : ℕ) : List (ℤ × ℤ) :=
  (List.range h).flatMap fun j : ℕ => (List.range w).map fun k : ℕ => ((k : ℤ),(j : ℤ))

/-- The new labels and how many there are. -/
def enforceLabelConnectivity (w h K : ℕ) (labels : ℤ × ℤ → ℤ) : Option ((ℤ × ℤ → ℤ) × ℤ) :=
  ((pixels w h).foldlM (segment w h K labels) ⟨fun _ => -1,0,0⟩).map fun s => (s.nlabels,s.label)

/-- Over neighbours that have the same label. -/
abbrev Joined (w h : ℕ) (labels : ℤ × ℤ → ℤ) : ℤ × ℤ → ℤ × ℤ → Prop :=
  Relation.ReflTransGen fun p q => q ∈ neighbours w h p ∧ labels p = labels q

/-- What new labels, so many, are to be. -/
structure Relabelled (w h K : ℕ) (labels nlabels : ℤ × ℤ → ℤ) (numlabels : ℤ) : Prop where
  range : ∀ p, InImage w h p → 0 ≤ nlabels p ∧ nlabels p < numlabels
  size : ∀ l, 0 ≤ l → l < numlabels → limit w h K < (pixels w h).countP (nlabels · = l)
  joined : ∀ p q, InImage w h p → InImage w h q → nlabels p = nlabels q → Joined w h nlabels p q
  kept : ∀ p q, InImage w h p → q ∈ neighbours w h p → labels p = labels q →
    nlabels p = nlabels q

/-- The scan ends without a write behind an end, and with such labels. -/
def Connects (w h K : ℕ) (labels : ℤ × ℤ → ℤ) : Prop :=
  ∃ nlabels numlabels, enforceLabelConnectivity w h K labels = some (nlabels,numlabels) ∧
    Relabelled w h K labels nlabels numlabels

/-- From `p` more pixels than the limit are reached. -/
def Large (w h K : ℕ) (labels : ℤ × ℤ → ℤ) (p : ℤ × ℤ) : Prop :=
  ∃ vec : List (ℤ × ℤ), vec.Nodup ∧ (∀ q ∈ vec, Joined w h labels p q) ∧ limit w h K < vec.length

section Image
variable {w h : ℕ} {labels : ℤ × ℤ → ℤ} {p q : ℤ × ℤ}

theorem mem_neighbours : q ∈ neighbours w h p ↔ InImage w h q ∧
    (q = (p.1-1,p.2) ∨ q = (p.1,p.2-1) ∨ q = (p.1+1,p.2) ∨ q = (p.1,p.2+1)) := by
  unfold neighbours
  simp only [List.mem_filter,List.mem_cons,List.not_mem_nil,or_false,decide_eq_true_eq,and_comm]

theorem mem_neighbours_symm (hp : InImage w h p) (hq : q ∈ neighbours w h p) :
    p ∈ neighbours w h q := by
  obtain ⟨-,rfl | rfl | rfl | rfl⟩ := mem_neighbours.mp hq <;>
    simp [mem_neighbours,hp]

theorem not_mem_neighbours : p ∉ neighbours w h p := by
  simp only [mem_neighbours,Prod.ext_iff]
  omega

theorem Joined.inImage (hp : InImage w h p) (hjoined : Joined w h labels p q) : InImage w h q := by
  induction hjoined with
  | refl => exact hp
  | tail _ hstep _ => exact (mem_neighbours.mp hstep.1).1

theorem Joined.eq (hjoined : Joined w h labels p q) : labels p = labels q := by
  induction hjoined with
  | refl => rfl
  | tail _ hstep ih => exact ih.trans hstep.2

theorem Joined.symm (hp : InImage w h p) (hjoined : Joined w h labels p q) :
    Joined w h labels q p := by
  induction hjoined with
  | refl => rfl
  | tail hbefore hstep ih =>
    exact .head ⟨mem_neighbours_symm (Joined.inImage hp hbefore) hstep.1,hstep.2.symm⟩ ih

theorem mem_pixels : p ∈ pixels w h ↔ InImage w h p := by
  unfold pixels InImage
  simp only [List.mem_flatMap,List.mem_map,List.mem_range]
  constructor
  · rintro ⟨j,hj,k,hk,rfl⟩
    exact ⟨by omega,by omega,by omega,by omega⟩
  · rintro ⟨h0,hw,h1,hh⟩
    exact ⟨p.2.toNat,by omega,p.1.toNat,by omega,by ext <;> simp <;> omega⟩

theorem length_pixels : (pixels w h).length = w*h := by
  unfold pixels
  simp [List.length_flatMap,Nat.mul_comm]

/-- The counter of the pixels, as the loops leave it. -/
theorem pixels_eq : pixels w h = (List.range (w*h)).map fun i : ℕ =>
    (((i%w : ℕ) : ℤ),((i/w : ℕ) : ℤ)) := by
  unfold pixels
  induction h with
  | zero => rfl
  | succ h ih =>
    rw [List.range_succ,List.flatMap_append,ih,Nat.mul_succ,List.range_add,List.map_append]
    congr 1
    rw [List.flatMap_singleton,List.map_map]
    refine List.map_congr_left fun k hk => ?_
    have hk := List.mem_range.mp hk
    simp only [Function.comp_apply,Nat.mul_add_mod,Nat.mod_eq_of_lt hk,
      Nat.mul_add_div (Nat.zero_lt_of_lt hk),Nat.div_eq_of_lt hk,Nat.add_zero]

end Image

/-- The labels when the pixels of a list have got one. -/
def paint (nlabels : ℤ × ℤ → ℤ) (vec : List (ℤ × ℤ)) (label : ℤ) : ℤ × ℤ → ℤ :=
  fun q => if q ∈ vec then label else nlabels q

/-- The neighbours that the fill takes from a pixel, unless it has them already. -/
def unlabelled (w h : ℕ) (labels nlabels : ℤ × ℤ → ℤ) (o p : ℤ × ℤ) : List (ℤ × ℤ) :=
  (neighbours w h p).filter fun q => 0 > nlabels q ∧ labels o = labels q

section Paint
variable {nlabels : ℤ × ℤ → ℤ} {vec : List (ℤ × ℤ)} {label : ℤ} {q : ℤ × ℤ}

theorem paint_of_mem (h : q ∈ vec) : paint nlabels vec label q = label := if_pos h

theorem paint_of_not_mem (h : q ∉ vec) : paint nlabels vec label q = nlabels q := if_neg h

theorem update_paint :
    Function.update (paint nlabels vec label) q label = paint nlabels (vec++[q]) label := by
  funext r
  by_cases hr : r = q
  · subst hr
    rw [Function.update_self,paint_of_mem (List.mem_append_right _ (List.mem_singleton_self r))]
  · rw [Function.update_of_ne hr]
    simp [paint,hr]

theorem foldl_update (label' : ℤ) (vec' : List (ℤ × ℤ)) :
    vec'.foldl (fun nlabels q => Function.update nlabels q label') (paint nlabels vec label') =
      paint nlabels (vec++vec') label' := by
  induction vec' generalizing vec with
  | nil => rw [List.append_nil]; rfl
  | cons q vec' ih => rw [List.foldl_cons,update_paint,ih,List.append_assoc,List.singleton_append]

/-- Painting over what was painted. -/
theorem foldl_update_paint (label' : ℤ) :
    vec.foldl (fun nlabels q => Function.update nlabels q label') (paint nlabels vec label) =
      paint nlabels vec label' := by
  have hstart : paint nlabels vec label = paint (paint nlabels vec label) [] label' := by
    funext r
    simp [paint]
  rw [hstart,foldl_update]
  funext r
  by_cases hr : r ∈ vec <;> simp [paint,hr]

end Paint

section Fill
variable {w h : ℕ} {labels nlabels : ℤ × ℤ → ℤ} {label : ℤ} {o p : ℤ × ℤ} {vec : List (ℤ × ℤ)}

/-- Offering a neighbour that has no label yet to the list of the search. -/
theorem visit_eq (hlabel : 0 ≤ label) (q : ℤ × ℤ) :
    visit w h labels label o ⟨vec,paint nlabels vec label⟩ q =
      if 0 > nlabels q ∧ labels o = labels q then
        (offer (w*h) vec q).map fun vec => ⟨vec,paint nlabels vec label⟩
      else some ⟨vec,paint nlabels vec label⟩ := by
  unfold visit offer
  dsimp only
  by_cases hq : q ∈ vec
  · have hlt : ¬ 0 > label := by omega
    simp only [paint_of_mem hq,hlt,false_and,if_false,if_pos hq,Option.map_some,ite_self]
  · simp only [paint_of_not_mem hq,if_neg hq,update_paint]
    congr 1
    split <;> rfl

theorem foldlM_visit (hlabel : 0 ≤ label) (l : List (ℤ × ℤ)) :
    l.foldlM (visit w h labels label o) ⟨vec,paint nlabels vec label⟩ =
      ((l.filter fun q => 0 > nlabels q ∧ labels o = labels q).foldlM (offer (w*h)) vec).map
        fun vec => ⟨vec,paint nlabels vec label⟩ := by
  induction l generalizing vec with
  | nil => rfl
  | cons q l ih =>
    rw [List.foldlM_cons,visit_eq hlabel]
    by_cases hq : 0 > nlabels q ∧ labels o = labels q
    · rw [if_pos hq,List.filter_cons_of_pos (by simpa using hq),List.foldlM_cons]
      cases hoffer : offer (w*h) vec q with
      | none => rfl
      | some vec' => exact ih
    · rw [if_neg hq,List.filter_cons_of_neg (by simpa using hq)]
      exact ih

/-- The fill is the search over the neighbours without a label. -/
theorem fill_eq (hlabel : 0 ≤ label) (fuel c : ℕ) :
    fill w h labels label o fuel c ⟨vec,paint nlabels vec label⟩ =
      (explore (unlabelled w h labels nlabels o) (w*h) fuel c vec).map
        fun vec => ⟨vec,paint nlabels vec label⟩ := by
  induction fuel generalizing c vec with
  | zero => rfl
  | succ fuel ih =>
    rw [fill,explore]
    split
    · rw [foldlM_visit hlabel,← unlabelled]
      cases hmore : (unlabelled w h labels nlabels o vec[c]).foldlM (offer (w*h)) vec with
      | none => rfl
      | some vec' => exact ih (c+1)
    · rfl

/-- Where no pixel joined to the first has a label the search reaches these, and no other. -/
theorem reach_iff_joined (hfree : ∀ q, Joined w h labels o q → nlabels q < 0) {q : ℤ × ℤ} :
    Reach (unlabelled w h labels nlabels o) o q ↔ Joined w h labels o q := by
  constructor
  · intro hreach
    induction hreach with
    | refl => rfl
    | tail _ hstep ih =>
      obtain ⟨hmem,hcond⟩ := List.mem_filter.mp hstep
      have hsame : labels o = labels _ := (of_decide_eq_true hcond).2
      exact ih.tail ⟨hmem,ih.eq.symm.trans hsame⟩
  · intro hjoined
    induction hjoined with
    | refl => rfl
    | tail hbefore hstep ih =>
      have hnext := hbefore.tail hstep
      exact ih.tail (List.mem_filter.mpr ⟨hstep.1,decide_eq_true ⟨hfree _ hnext,Joined.eq hnext⟩⟩)

/-- The fill of a segment that has no label yet finds its pixels, each once, and there is an entry for
each. -/
theorem fill_segment (ho : InImage w h o) (hlabel : 0 ≤ label)
    (hfree : ∀ q, Joined w h labels o q → nlabels q < 0) :
    ∃ vec : List (ℤ × ℤ), vec.Nodup ∧ (∀ q, q ∈ vec ↔ Joined w h labels o q) ∧
      fill w h labels label o (w*h+1) 0 ⟨[o],Function.update nlabels o label⟩ =
        some ⟨vec,paint nlabels vec label⟩ := by
  have hstart : Function.update nlabels o label = paint nlabels [o] label := by
    have hnil : nlabels = paint nlabels [] label := by
      funext r
      simp [paint]
    conv_lhs => rw [hnil]
    exact update_paint
  have hcap (vec : List (ℤ × ℤ)) (hfound : Found (unlabelled w h labels nlabels o) o vec) :
      vec.length ≤ w*h := by
    rw [← length_pixels]
    refine (List.subperm_of_subset hfound.nodup fun q hq => ?_).length_le
    exact mem_pixels.mpr (Joined.inImage ho ((reach_iff_joined hfree).mp (hfound.reach q hq)))
  obtain ⟨vec,heq,hnodup,hmem⟩ := explore_eq_some hcap (.singleton _ o) (Nat.zero_le _)
    (by omega : w*h < 0+(w*h+1)) fun a ha => absurd ha List.not_mem_nil
  refine ⟨vec,hnodup,fun q => (hmem q).trans (reach_iff_joined hfree),?_⟩
  rw [hstart,fill_eq hlabel,heq]
  rfl

end Fill

end PucRio.Superpixels
