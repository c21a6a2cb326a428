import PucRio.Lib.PartialRun
import Mathlib.Data.List.Nodup

/-! Code with labels. An instruction leaves control to the next one, or sends it to a label; where the
code does not have the label, control leaves the code. A piece of code runs within other code as it
does alone. -/
namespace PucRio

/-- Where control is. -/
inductive Control (Λ : Type)
  | inside (pc : ℕ)
  | gone (l : Λ)
  deriving DecidableEq, Repr

/-- Instructions, the labels that some of them are, and what they do to the state. There is a label
where control is sent to one. -/
structure LabelledCode (ι S Λ : Type) where
  label : ι → Option Λ
  exec : ι → S → Option (Option Λ × S)

namespace LabelledCode
variable {ι S Λ : Type} [DecidableEq Λ] (I : LabelledCode ι S Λ)

def labels (a : List ι) : List Λ := a.filterMap I.label

def goto (a : List ι) (l : Λ) : Control Λ :=
  (a.findIdx? fun x => I.label x = some l).elim (.gone l) .inside

def step (a : List ι) : Control Λ × S → Option (Control Λ × S)
  | (.inside pc,s) => a[pc]?.bind fun x => (I.exec x s).map fun r =>
      (r.1.elim (.inside (pc+1)) (I.goto a),r.2)
  | (.gone _,_) => none

/-- Control in a piece of code, `n` instructions behind the start of the code that has it. -/
def shift (a : List ι) (n : ℕ) : Control Λ → Control Λ
  | .inside pc => .inside (n+pc)
  | .gone l => I.goto a l

variable {I} {a b pre post : List ι} {s t u : S} {l : Λ} {k pc : ℕ} {x : ι}

theorem step_fall (hx : a[pc]? = some x) (he : I.exec x s = some (none,t)) :
    I.step a (.inside pc,s) = some (.inside (pc+1),t) := by
  simp [step,hx,he]

theorem step_jump (hx : a[pc]? = some x) (he : I.exec x s = some (some l,t)) :
    I.step a (.inside pc,s) = some (I.goto a l,t) := by
  simp [step,hx,he]

theorem step_end : I.step a (.inside a.length,s) = none := by
  simp [step]

omit [DecidableEq Λ] in
theorem mem_labels : l ∈ I.labels a ↔ ∃ x ∈ a, I.label x = some l := List.mem_filterMap

omit [DecidableEq Λ] in
theorem labels_append (a b : List ι) : I.labels (a++b) = I.labels a++I.labels b :=
  List.filterMap_append

theorem goto_of_notMem (h : l ∉ I.labels a) : I.goto a l = .gone l := by
  have hnone : (a.findIdx? fun x => I.label x = some l) = none := by
    rw [List.findIdx?_eq_none_iff]
    intro x hx
    exact decide_eq_false fun hl => h (mem_labels.mpr ⟨x,hx,hl⟩)
  rw [goto,hnone]
  rfl

theorem goto_of_mem (h : l ∈ I.labels a) : ∃ k < a.length, I.goto a l = .inside k := by
  obtain ⟨x,hx,hxl⟩ := mem_labels.mp h
  obtain ⟨k,hk⟩ : ∃ k, (a.findIdx? fun x => I.label x = some l) = some k := by
    rw [← Option.isSome_iff_exists,List.findIdx?_isSome,List.any_eq_true]
    exact ⟨x,hx,decide_eq_true hxl⟩
  refine ⟨k,(List.findIdx?_eq_some_iff_getElem.mp hk).choose,?_⟩
  rw [goto,hk]
  rfl

theorem step_inside_le (h : I.step a (.inside pc,s) = some (.inside k,t)) : k ≤ a.length := by
  obtain ⟨x,hx,h⟩ := Option.bind_eq_some_iff.mp h
  obtain ⟨⟨j,u⟩,-,h⟩ := Option.map_eq_some_iff.mp h
  cases j with
  | none =>
    cases h
    exact (List.getElem?_eq_some_iff.mp hx).choose
  | some l =>
    obtain ⟨hgoto,-⟩ := Prod.mk.inj h
    by_cases hl : l ∈ I.labels a
    · obtain ⟨k',hk',hg⟩ := goto_of_mem hl
      cases hg.symm.trans hgoto
      exact Nat.le_of_lt hk'
    · cases (goto_of_notMem hl).symm.trans hgoto

/-- Control goes to the label, where it is the only one with its name before. -/
theorem goto_append (h : l ∉ I.labels pre) (hx : I.label x = some l) :
    I.goto (pre++x::post) l = .inside pre.length := by
  have hnone : (pre.findIdx? fun x => I.label x = some l) = none := by
    rw [List.findIdx?_eq_none_iff]
    intro y hy
    exact decide_eq_false fun hl => h (mem_labels.mpr ⟨y,hy,hl⟩)
  rw [goto,List.findIdx?_append,hnone,List.findIdx?_cons]
  simp [hx]

theorem shift_goto (h : (I.labels (pre++b++post)).Nodup) (l : Λ) :
    I.shift (pre++b++post) pre.length (I.goto b l) = I.goto (pre++b++post) l := by
  by_cases hl : l ∈ I.labels b
  · obtain ⟨x,hx,hxl⟩ := mem_labels.mp hl
    obtain ⟨i,hi⟩ : ∃ i, (b.findIdx? fun x => I.label x = some l) = some i := by
      rw [← Option.isSome_iff_exists,List.findIdx?_isSome,List.any_eq_true]
      exact ⟨x,hx,decide_eq_true hxl⟩
    have hpre : (pre.findIdx? fun x => I.label x = some l) = none := by
      rw [List.findIdx?_eq_none_iff]
      intro y hy
      apply decide_eq_false
      intro hyl
      rw [labels_append,labels_append] at h
      have hdisj := (List.nodup_append.mp (List.nodup_append.mp h).1).2.2
      exact hdisj l (mem_labels.mpr ⟨y,hy,hyl⟩) l hl rfl
    have hgoto : I.goto b l = .inside i := by
      rw [goto,hi]
      rfl
    rw [hgoto,goto,List.append_assoc,List.findIdx?_append,hpre,List.findIdx?_append,hi]
    simp [shift,Nat.add_comm]
  · rw [goto_of_notMem hl]
    rfl

theorem step_within (h : (I.labels (pre++b++post)).Nodup) (hk : k < b.length) (s : S) :
    I.step (pre++b++post) (.inside (pre.length+k),s) =
      (I.step b (.inside k,s)).map fun r => (I.shift (pre++b++post) pre.length r.1,r.2) := by
  have hget : (pre++b++post)[pre.length+k]? = b[k]? := by
    rw [List.append_assoc,List.getElem?_append_right (Nat.le_add_right ..),Nat.add_sub_cancel_left,
      List.getElem?_append_left hk]
  rw [step,step,hget,List.getElem?_eq_getElem hk,Option.bind_some,Option.bind_some]
  cases he : I.exec b[k] s with
  | none => rfl
  | some r =>
    obtain ⟨j,t⟩ := r
    cases j with
    | none => rfl
    | some l =>
      show some (I.goto _ l,t) = some (I.shift _ _ (I.goto b l),t)
      rw [shift_goto h]

theorem exists_step_within (pre : List ι) {y : Control Λ} (h : (I.labels (pre++b++post)).Nodup)
    (hk : k < b.length) (hs : I.step (pre++b++post) (.inside (pre.length+k),s) = some (y,t)) :
    ∃ z, I.step b (.inside k,s) = some (z,t) ∧ y = I.shift (pre++b++post) pre.length z := by
  rw [step_within h hk] at hs
  obtain ⟨⟨z,u⟩,hz,heq⟩ := Option.map_eq_some_iff.mp hs
  cases heq
  exact ⟨z,hz,rfl⟩

/-- Within other code, a piece of code runs as it does alone, and it is left for the place where its
label is. -/
theorem reaches_within (pre : List ι) (h : (I.labels (pre++b++post)).Nodup) {p : Control Λ × S → Bool}
    (hp : ∀ k < b.length, ∀ s, p (.inside (pre.length+k),s) = false) {y : Control Λ}
    (hr : Reaches (I.step b) (.inside k,s) (y,t)) (n : ℕ) :
    Reaches (counting (I.step (pre++b++post)) p) ((.inside (pre.length+k),s),n)
      ((I.shift (pre++b++post) pre.length y,t),n) := by
  obtain ⟨m,hm⟩ := hr
  induction m generalizing k s with
  | zero =>
    cases hm
    exact .refl ..
  | succ m ih =>
    obtain ⟨⟨z,u⟩,hz,hm⟩ := Option.bind_eq_some_iff.mp hm
    have hk : k < b.length := by
      by_contra hk
      rw [step,List.getElem?_eq_none (Nat.le_of_not_lt hk)] at hz
      cases hz
    have hstep := step_within h hk s
    rw [hz] at hstep
    have hcount := counting_of_step (p := p) hstep n
    rw [hp k hk s] at hcount
    apply Reaches.head hcount
    cases z with
    | inside k' => exact ih hm
    | gone l =>
      cases m with
      | zero =>
        cases hm
        exact .refl ..
      | succ m => cases hm

/-- Code that control runs through. -/
inductive Straight (I : LabelledCode ι S Λ) : List ι → S → S → Prop
  | nil (s : S) : Straight I [] s s
  | cons {x : ι} {b : List ι} {s t u : S} : I.exec x s = some (none,t) → Straight I b t u →
      Straight I (x::b) s u

namespace Straight

omit [DecidableEq Λ] in
theorem single (h : I.exec x s = some (none,t)) : I.Straight [x] s t := .cons h (.nil t)

omit [DecidableEq Λ] in
theorem append (h : I.Straight b s t) (h' : I.Straight a t u) : I.Straight (b++a) s u := by
  induction h with
  | nil => exact h'
  | cons he _ ih => exact .cons he (ih h')

theorem reaches_from (h : I.Straight b s t) (pre : List ι) :
    Reaches (I.step (pre++b++post)) (.inside pre.length,s) (.inside (pre++b).length,t) := by
  induction h generalizing pre with
  | nil s =>
    rw [List.append_nil]
    exact .refl ..
  | @cons x b s t u he _ ih =>
    have hx : (pre++x::b++post)[pre.length]? = some x := by simp
    apply Reaches.head (step_fall hx he)
    have hnext := ih (pre++[x])
    simp only [List.append_assoc,List.singleton_append,List.length_append,List.length_singleton]
      at hnext
    simpa only [List.append_assoc,List.cons_append,List.length_append] using hnext

theorem reaches (h : I.Straight b s t) :
    Reaches (I.step (b++post)) (.inside 0,s) (.inside b.length,t) :=
  h.reaches_from []

/-- Code that ends in a jump out of it. -/
theorem gone (h : I.Straight b s t) (hx : I.exec x t = some (some l,u))
    (hl : l ∉ I.labels (b++[x])) :
    Reaches (I.step (b++[x])) (.inside 0,s) (.gone l,u) := by
  have hget : (b++[x])[b.length]? = some x := by simp
  rw [← goto_of_notMem hl]
  exact h.reaches.trans (.single (step_jump hget hx))

end Straight

/-- The first one of two pieces of code leaves both. -/
theorem reaches_left (h : (I.labels (b++post)).Nodup)
    (hr : Reaches (I.step b) (.inside 0,s) (.gone l,t)) :
    Reaches (I.step (b++post)) (.inside 0,s) (I.goto (b++post) l,t) := by
  have hw := reaches_within (I := I) (b := b) (p := fun _ => false) [] h
    (fun _ _ _ => rfl) hr 0
  exact hw.of_counting

theorem reaches_right (pre : List ι) (h : (I.labels (pre++b)).Nodup)
    (hr : Reaches (I.step b) (.inside 0,s) (.gone l,t)) :
    Reaches (I.step (pre++b)) (.inside pre.length,s) (I.goto (pre++b) l,t) := by
  rw [← List.append_nil (pre++b)] at h
  have hw := reaches_within (p := fun _ => false) pre h (fun _ _ _ => rfl) hr 0
  rw [List.append_nil] at hw
  exact hw.of_counting

/-- A piece of code stands in other code, behind `pc` instructions. -/
def StandsAt (whole : List ι) (pc : ℕ) (c : List ι) : Prop :=
  ∃ pre post, whole = pre++c++post ∧ pre.length = pc

namespace StandsAt
variable {whole c : List ι}

theorem left (h : StandsAt whole pc (a++b)) : StandsAt whole pc a := by
  obtain ⟨pre,post,rfl,hpc⟩ := h
  exact ⟨pre,b++post,by simp,hpc⟩

theorem right (h : StandsAt whole pc (a++b)) : StandsAt whole (pc+a.length) b := by
  obtain ⟨pre,post,rfl,rfl⟩ := h
  exact ⟨pre++a,post,by simp,List.length_append⟩

theorem tail (h : StandsAt whole pc (x::c)) : StandsAt whole (pc+1) c :=
  right (a := [x]) h

theorem getElem? (h : StandsAt whole pc (x::c)) : whole[pc]? = some x := by
  obtain ⟨pre,post,rfl,rfl⟩ := h
  simp

/-- Control is sent to a label where it stands, if the code has it once. -/
theorem goto (h : StandsAt whole pc (x::c)) (hx : I.label x = some l)
    (hn : (I.labels whole).Nodup) : I.goto whole l = .inside pc := by
  obtain ⟨pre,post,rfl,rfl⟩ := h
  have hsplit : pre++x::c++post = pre++x::(c++post) := by simp
  rw [hsplit] at hn ⊢
  refine goto_append (fun hmem => ?_) hx
  rw [labels_append] at hn
  exact (List.nodup_append.mp hn).2.2 l hmem l (mem_labels.mpr ⟨x,List.mem_cons_self,hx⟩) rfl

theorem straight (h : StandsAt whole pc c) (hs : I.Straight c s t) :
    Reaches (I.step whole) (.inside pc,s) (.inside (pc+c.length),t) := by
  obtain ⟨pre,post,rfl,rfl⟩ := h
  rw [← List.length_append]
  exact hs.reaches_from pre

/-- A piece of code that is left for a label sends control there. -/
theorem gone (h : StandsAt whole pc c) (hn : (I.labels whole).Nodup)
    (hr : Reaches (I.step c) (.inside 0,s) (.gone l,t)) :
    Reaches (I.step whole) (.inside pc,s) (I.goto whole l,t) := by
  obtain ⟨pre,post,rfl,rfl⟩ := h
  exact (reaches_within (p := fun _ => false) pre hn (fun _ _ _ => rfl) hr 0).of_counting

end StandsAt

end LabelledCode
end PucRio
