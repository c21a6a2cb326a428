import PucRio.Monga.Llvm
import PucRio.Lib.PartialRun
import Mathlib.Data.List.Nodup
import Mathlib.Data.Set.Insert

/-! The labels of what is generated: each is new and stands once, and jumps go to them or to the
labels that were asked for. -/
namespace PucRio.Monga

section Gen
variable {α β : Type} {x : Gen α} {f : α → Gen β} {g g₁ g₂ g' : GenState} {a : α} {b : β}
  {c c' : List Item} {r : β × List Item × GenState}

/-- What is generated by two parts, one after the other. -/
theorem Gen.bind_ok (h : (x >>= f) g = .ok r) : ∃ a c g₁ b c' g₂, x g = .ok (a,c,g₁) ∧
    f a g₁ = .ok (b,c',g₂) ∧ r = (b,c++c',g₂) := by
  obtain ⟨⟨a,c,g₁⟩,hx,h⟩ := ok_of_bind h
  obtain ⟨⟨b,c',g₂⟩,hf,h⟩ := ok_of_bind h
  exact ⟨a,c,g₁,b,c',g₂,hx,hf,(Except.ok.inj h).symm⟩

theorem Gen.bind_of_ok (hx : x g = .ok (a,c,g₁)) (hf : f a g₁ = .ok (b,c',g₂)) :
    (x >>= f) g = .ok (b,c++c',g₂) := by
  show (x g >>= fun r => f r.1 r.2.2 >>= fun r' => Except.ok (r'.1,r.2.1++r'.2.1,r'.2.2)) = _
  rw [hx,except_ok_bind,hf,except_ok_bind]

theorem Gen.bind_label (f : ℕ → Gen β) (g : GenState) : (getNextTempLabel >>= f) g =
    f (g.curTempLabel+1) { g with curTempLabel := g.curTempLabel+1 } := by
  show (f (g.curTempLabel+1) { g with curTempLabel := g.curTempLabel+1 } >>= fun r =>
    Except.ok (r.1,r.2.1,r.2.2)) = _
  cases f (g.curTempLabel+1) { g with curTempLabel := g.curTempLabel+1 } <;> rfl

theorem Gen.bind_temp (f : ℕ → Gen β) (g : GenState) : (getNextTempVar >>= f) g =
    f (g.curTempVar+1) { g with curTempVar := g.curTempVar+1 } := by
  show (f (g.curTempVar+1) { g with curTempVar := g.curTempVar+1 } >>= fun r =>
    Except.ok (r.1,r.2.1,r.2.2)) = _
  cases f (g.curTempVar+1) { g with curTempVar := g.curTempVar+1 } <;> rfl

theorem Gen.bind_name (type : MType) (f : VarType → Gen β) :
    (typeName (some type) >>= f) = f type.name := by
  funext g
  show (f type.name g >>= fun r => Except.ok (r.1,r.2.1,r.2.2)) = _
  cases f type.name g <;> rfl

theorem Gen.bind_slot (decl : Decl) (f : Slot → Gen β) (g : GenState) :
    (getSlot decl >>= f) g = f (g.slots decl) g := by
  show (f (g.slots decl) g >>= fun r => Except.ok (r.1,r.2.1,r.2.2)) = _
  cases f (g.slots decl) g <;> rfl

/-- What is written stands in front of what follows. -/
theorem Gen.write_ok {f : Unit → Gen β} (h : (llvmWrite c >>= f) g = .ok r) :
    ∃ b c' g', f () g = .ok (b,c',g') ∧ r = (b,c++c',g') := by
  obtain ⟨_,_,_,b,c',g',hw,hf,rfl⟩ := Gen.bind_ok h
  cases hw
  exact ⟨b,c',g',hf,rfl⟩

end Gen

section Fresh

def Item.label? : Item → Option ℕ
  | .label l => some l
  | _ => none

/-- Where an instruction may send control. -/
def Item.targets : Item → List ℕ
  | .br l => [l]
  | .condBr _ lt lf => [lt,lf]
  | _ => []

def labelsOf (c : List Item) : List ℕ := c.filterMap Item.label?

/-- The labels are behind `n` up to `m`, and jumps go to them or to those in `E`. -/
structure Fresh (n m : ℕ) (c : List Item) (E : Set ℕ) : Prop where
  le : n ≤ m
  bounds : ∀ l ∈ labelsOf c, n < l ∧ l ≤ m
  nodup : (labelsOf c).Nodup
  targets : ∀ x ∈ c, ∀ l ∈ x.targets, l ∈ labelsOf c ∨ l ∈ E

theorem labelsOf_append (c c' : List Item) : labelsOf (c++c') = labelsOf c++labelsOf c' :=
  List.filterMap_append

theorem labelsOf_insert (c c' : List Item) (l : ℕ) :
    (labelsOf (c++.br l::.label l::c')).Perm (l::labelsOf (c++c')) := by
  rw [labelsOf_append,labelsOf_append]
  exact List.perm_middle

namespace Fresh
variable {n m k : ℕ} {c c' : List Item} {E F : Set ℕ}

theorem nil (n : ℕ) (E : Set ℕ) : Fresh n n [] E where
  le := Nat.le_refl n
  bounds := by simp [labelsOf]
  nodup := List.nodup_nil
  targets := by simp

theorem up (h : Fresh n m c E) (hm : m ≤ k) : Fresh n k c E where
  le := h.le.trans hm
  bounds l hl := ⟨(h.bounds l hl).1,(h.bounds l hl).2.trans hm⟩
  nodup := h.nodup
  targets := h.targets

theorem down (h : Fresh n m c E) (hn : k ≤ n) : Fresh k m c E where
  le := hn.trans h.le
  bounds l hl := ⟨hn.trans_lt (h.bounds l hl).1,(h.bounds l hl).2⟩
  nodup := h.nodup
  targets := h.targets

theorem mono (h : Fresh n m c E) (hE : E ⊆ F) : Fresh n m c F where
  le := h.le
  bounds := h.bounds
  nodup := h.nodup
  targets x hx l hl := (h.targets x hx l hl).imp_right fun hE' => hE hE'

theorem append (h : Fresh n m c E) (h' : Fresh m k c' E) : Fresh n k (c++c') E where
  le := h.le.trans h'.le
  bounds l hl := by
    rw [labelsOf_append] at hl
    obtain hl | hl := List.mem_append.mp hl
    · exact ⟨(h.bounds l hl).1,(h.bounds l hl).2.trans h'.le⟩
    · exact ⟨h.le.trans_lt (h'.bounds l hl).1,(h'.bounds l hl).2⟩
  nodup := by
    rw [labelsOf_append,List.nodup_append]
    refine ⟨h.nodup,h'.nodup,?_⟩
    rintro l hl l' hl' rfl
    exact absurd (h.bounds l hl).2 (Nat.not_le_of_lt (h'.bounds l hl').1)
  targets x hx l hl := by
    rw [labelsOf_append,List.mem_append]
    obtain hx | hx := List.mem_append.mp hx
    · exact (h.targets x hx l hl).imp_left .inl
    · exact (h'.targets x hx l hl).imp_left .inr

/-- Lines without a label. -/
theorem plain (hc : ∀ x ∈ c, x.label? = none) (ht : ∀ x ∈ c, ∀ l ∈ x.targets, l ∈ E) (n : ℕ) :
    Fresh n n c E := by
  have hnil : labelsOf c = [] := List.filterMap_eq_nil_iff.mpr hc
  refine ⟨Nat.le_refl n,?_,?_,fun x hx l hl => .inr (ht x hx l hl)⟩
  · simp [hnil]
  · simp [hnil]

/-- A label that was asked for before everything else is set in between. -/
theorem insert (c c' : List Item) (h : Fresh (n+1) m (c++c') (insert (n+1) E)) :
    Fresh n m (c++.br (n+1)::.label (n+1)::c') E where
  le := (Nat.le_succ n).trans h.le
  bounds l hl := by
    obtain rfl | hl := List.mem_cons.mp ((labelsOf_insert c c' (n+1)).mem_iff.mp hl)
    · exact ⟨Nat.lt_succ_self n,h.le⟩
    · exact ⟨(Nat.lt_succ_self n).trans (h.bounds l hl).1,(h.bounds l hl).2⟩
  nodup := by
    rw [(labelsOf_insert c c' (n+1)).nodup_iff,List.nodup_cons]
    exact ⟨fun hl => absurd (h.bounds _ hl).1 (Nat.lt_irrefl _),h.nodup⟩
  targets x hx l hl := by
    rw [(labelsOf_insert c c' (n+1)).mem_iff,List.mem_cons]
    have hold (hx : x ∈ c++c') : (l = n+1 ∨ l ∈ labelsOf (c++c')) ∨ l ∈ E := by
      obtain hl | rfl | hE := h.targets x hx l hl
      · exact .inl (.inr hl)
      · exact .inl (.inl rfl)
      · exact .inr hE
    obtain hx | hx := List.mem_append.mp hx
    · exact hold (List.mem_append_left c' hx)
    obtain rfl | hx := List.mem_cons.mp hx
    · exact .inl (.inl (List.mem_singleton.mp hl))
    obtain rfl | hx := List.mem_cons.mp hx
    · cases hl
    · exact hold (List.mem_append_right c hx)

end Fresh
end Fresh

section Orderly
variable {α β : Type} {E : Set ℕ} {D : Set Decl}

/-- The labels are new, the temporaries go on, and only the records in `D` are written. -/
structure Emits (E : Set ℕ) (D : Set Decl) (g : GenState) (c : List Item) (g' : GenState) :
    Prop where
  fresh : Fresh g.curTempLabel g'.curTempLabel c E
  temp_le : g.curTempVar ≤ g'.curTempVar
  slots : ∀ d ∉ D, g'.slots d = g.slots d

theorem Emits.nil (E : Set ℕ) (D : Set Decl) (g : GenState) : Emits E D g [] g :=
  ⟨.nil ..,Nat.le_refl _,fun _ _ => rfl⟩

theorem Emits.append {g₁ g₂ g₃ : GenState} {c c' : List Item} (h : Emits E D g₁ c g₂)
    (h' : Emits E D g₂ c' g₃) : Emits E D g₁ (c++c') g₃ :=
  ⟨h.fresh.append h'.fresh,h.temp_le.trans h'.temp_le,
    fun d hd => (h'.slots d hd).trans (h.slots d hd)⟩

def Orderly (E : Set ℕ) (D : Set Decl) (x : Gen α) : Prop := ∀ g a c g', x g = .ok (a,c,g') →
  Emits E D g c g'

namespace Orderly
variable {x : Gen α} {f : α → Gen β}

theorem pure (E : Set ℕ) (a : α) : Orderly E D (pure a : Gen α) := by
  intro g a' c g' h
  cases h
  exact .nil ..

theorem stop (E : Set ℕ) (e : GenStop) : Orderly E D (.stop e : Gen α) := by
  intro g a c g' h
  cases h

theorem bind (hx : Orderly E D x) (hf : ∀ a, Orderly E D (f a)) : Orderly E D (x >>= f) := by
  intro g b c g' h
  obtain ⟨a,c₁,g₁,b',c₂,g₂,h₁,h₂,heq⟩ := Gen.bind_ok h
  cases heq
  exact (hx _ _ _ _ h₁).append (hf _ _ _ _ _ h₂)

theorem write {c : List Item} (hc : ∀ x ∈ c, x.label? = none)
    (ht : ∀ x ∈ c, ∀ l ∈ x.targets, l ∈ E) : Orderly E D (llvmWrite c) := by
  intro g a c g' h
  cases h
  exact ⟨.plain hc ht _,Nat.le_refl _,fun _ _ => rfl⟩

/-- A line that is no label and sends control nowhere. -/
theorem line {x : Item} (E : Set ℕ) (hx : x.label? = none) (ht : x.targets = []) :
    Orderly E D (llvmWrite [x]) := by
  refine write (fun y hy => ?_) fun y hy l hl => ?_
  · rw [List.mem_singleton.mp hy,hx]
  · rw [List.mem_singleton.mp hy,ht] at hl
    cases hl

theorem nextTempVar (E : Set ℕ) : Orderly E D getNextTempVar := by
  intro g a c g' h
  cases h
  exact ⟨.nil ..,Nat.le_succ _,fun _ _ => rfl⟩

theorem slot (E : Set ℕ) (decl : Decl) : Orderly E D (getSlot decl) := by
  intro g a c g' h
  cases h
  exact .nil ..

theorem setSlot (E : Set ℕ) {decl : Decl} (hd : decl ∈ D) (s : Slot) :
    Orderly E D (setSlot decl s) := by
  intro g a c g' h
  cases h
  refine ⟨.nil ..,Nat.le_refl _,fun d hne => Function.update_of_ne ?_ ..⟩
  rintro rfl
  exact hne hd

theorem name (E : Set ℕ) (type : Option MType) : Orderly E D (typeName type) := by
  cases type with
  | none => exact stop E .null
  | some type => exact pure E type.name

theorem arith {e1 e2 : Gen ℕ} (h1 : Orderly E D e1) (h2 : Orderly E D e2) (tag : BinExp)
    (type1 : Option MType) : Orderly E D (genArith tag type1 e1 e2) := by
  apply h1.bind
  intro r1
  apply h2.bind
  intro r2
  apply (nextTempVar E).bind
  intro ret
  apply (name E type1).bind
  intro name
  exact (line E rfl rfl).bind fun _ => pure E ret

theorem expVar (E : Set ℕ) (var : TVar) : Orderly E D (genExpVar var) := by
  apply (nextTempVar E).bind
  intro ret
  cases var with
  | indexed e1 e2 => exact stop E .wild
  | id tag decl =>
    cases tag with
    | VarParam => exact (slot E decl).bind fun s => pure E s.varNumber
    | VarDec =>
      apply (slot E decl).bind
      intro s
      exact (line E rfl rfl).bind fun _ => pure E ret

theorem cmdCall {args : Gen (List (VarType × ℕ))} (h : Orderly E D args) (func : FuncHeader) :
    Orderly E D (genCmdCall func args) := by
  apply (nextTempVar E).bind
  intro ret
  apply h.bind
  intro args
  apply (name E _).bind
  intro name
  exact (line E rfl rfl).bind fun _ => pure E ret

theorem minus {un : Gen ℕ} (h : Orderly E D un) (type type1 : Option MType) :
    Orderly E D (genMinus type type1 un) := by
  apply h.bind
  intro t
  apply (nextTempVar E).bind
  intro ret
  apply (name E type).bind
  intro n
  apply (name E type1).bind
  intro n1
  exact (line E rfl rfl).bind fun _ => pure E ret

theorem new (E : Set ℕ) (type : MType) (size : TExp) : Orderly E D (genNew type size) := by
  apply (nextTempVar E).bind
  intro ret
  cases size with
  | int l => exact (line E rfl rfl).bind fun _ => pure E ret
  | _ => exact stop E .newNotConstant

theorem string (E : Set ℕ) (c : String) : Orderly E D (genString c) := by
  apply (nextTempVar E).bind
  intro temp
  apply (nextTempVar E).bind
  intro ret
  exact (write (by simp [Item.label?]) (by simp [Item.targets])).bind fun _ => pure E ret

theorem int (E : Set ℕ) (l : ℤ) : Orderly E D (genInt l) := by
  apply (nextTempVar E).bind
  intro ret
  exact (line E rfl rfl).bind fun _ => pure E ret

theorem float (E : Set ℕ) (d : BitVec 64) : Orderly E D (genFloat d) := by
  apply (nextTempVar E).bind
  intro ret
  exact (line E rfl rfl).bind fun _ => pure E ret

theorem cast {un : Gen ℕ} (h : Orderly E D un) : Orderly E D (genCast un) := by
  apply h.bind
  intro t
  apply (nextTempVar E).bind
  intro ret
  exact (line E rfl rfl).bind fun _ => pure E ret

end Orderly

/-- The jumps of a condition go to the two labels. -/
def OrderlyCond (D : Set Decl) (cond : ℕ → ℕ → Gen Unit) : Prop :=
  ∀ E lt lf, lt ∈ E → lf ∈ E → Orderly E D (cond lt lf)

theorem genTruth_ok {type : Option MType} {cond : ℕ → ℕ → Gen Unit} {g g' : GenState} {r : ℕ}
    {c : List Item} (h : genTruth type cond g = .ok (r,c,g')) : ∃ c₁ float n,
    n = g.curTempLabel ∧
    cond (n+1) (n+2) { g with curTempVar := g.curTempVar+1, curTempLabel := n+5 } =
      .ok ((),c₁,g') ∧ r = g.curTempVar+1 ∧
    c = c₁++[.br (n+1),.label (n+1),.truth (n+4) float true,.br (n+3),.br (n+2),.label (n+2),
      .truth (n+5) float false,.br (n+3),.label (n+3),.phi r float (n+4) (n+1) (n+5) (n+2)] := by
  rw [genTruth] at h
  simp only [Gen.bind_label,Gen.bind_temp] at h
  cases type with
  | none => cases h
  | some type =>
    rw [Gen.bind_name] at h
    obtain ⟨_,c₁,g₁,_,c₂,g₂,h₁,h₂,heq⟩ := Gen.bind_ok h
    cases h₂
    cases heq
    exact ⟨c₁,decide (type.name = .VarFloat),_,rfl,h₁,rfl,rfl⟩

theorem OrderlyCond.truth {cond : ℕ → ℕ → Gen Unit} (h : OrderlyCond D cond)
    (E : Set ℕ) (type : Option MType) : Orderly E D (genTruth type cond) := by
  intro g r c g' hg
  obtain ⟨c₁,float,n,hn,h₁,-,rfl⟩ := genTruth_ok hg
  have hcond := h (insert (n+3) (insert (n+2) (insert (n+1) E))) (n+1) (n+2) (by simp) (by simp)
    _ _ _ _ h₁
  refine ⟨?_,(Nat.le_succ _).trans hcond.temp_le,hcond.slots⟩
  rw [← hn]
  have hc₁ : Fresh (n+3) g'.curTempLabel c₁ (insert (n+3) (insert (n+2) (insert (n+1) E))) :=
    hcond.fresh.down (by simp)
  have hplain (c : List Item) (hc : ∀ x ∈ c, x.label? = none)
      (ht : ∀ x ∈ c, ∀ l ∈ x.targets, l = n+3) :=
    Fresh.plain (E := insert (n+3) (insert (n+2) (insert (n+1) E))) hc
      (fun x hx l hl => .inl (ht x hx l hl)) g'.curTempLabel
  have h3 := hc₁.append (hplain [.truth (n+4) float true,.br (n+3),.truth (n+5) float false,
    .phi r float (n+4) (n+1) (n+5) (n+2)] (by simp [Item.label?]) (by simp [Item.targets]))
  have h2 := Fresh.insert (c₁++[.truth (n+4) float true,.br (n+3),.truth (n+5) float false])
    [.phi r float (n+4) (n+1) (n+5) (n+2)] (by simpa using h3)
  have h1 := Fresh.insert (c₁++[.truth (n+4) float true,.br (n+3)])
    [.truth (n+5) float false,.br (n+3),.label (n+3),.phi r float (n+4) (n+1) (n+5) (n+2)]
    (by simpa using h2)
  have h0 := Fresh.insert c₁ [.truth (n+4) float true,.br (n+3),.br (n+2),
    .label (n+2),.truth (n+5) float false,.br (n+3),.label (n+3),
    .phi r float (n+4) (n+1) (n+5) (n+2)] (by simpa using h1)
  exact h0

/-- A label is set between two conditions. -/
theorem genCondOr_ok {e1 e2 : ℕ → ℕ → Gen Unit} {lt lf : ℕ} {g g' : GenState} {u : Unit}
    {c : List Item} (h : genCondOr e1 e2 lt lf g = .ok (u,c,g')) : ∃ c₁ g₁ c₂ nl,
    nl = g.curTempLabel+1 ∧ e1 lt nl { g with curTempLabel := nl } = .ok ((),c₁,g₁) ∧
    e2 lt lf g₁ = .ok ((),c₂,g') ∧ c = c₁++.br nl::.label nl::c₂ := by
  rw [genCondOr,Gen.bind_label] at h
  obtain ⟨_,c₁,g₁,_,c₂,g₂,h₁,h₂,heq⟩ := Gen.bind_ok h
  obtain ⟨_,c₃,g₃,h₃,heq'⟩ := Gen.write_ok h₂
  cases heq'
  cases heq
  exact ⟨c₁,g₁,c₃,_,rfl,h₁,h₃,rfl⟩

theorem genCondAnd_ok {e1 e2 : ℕ → ℕ → Gen Unit} {lt lf : ℕ} {g g' : GenState} {u : Unit}
    {c : List Item} (h : genCondAnd e1 e2 lt lf g = .ok (u,c,g')) : ∃ c₁ g₁ c₂ nl,
    nl = g.curTempLabel+1 ∧ e1 nl lf { g with curTempLabel := nl } = .ok ((),c₁,g₁) ∧
    e2 lt lf g₁ = .ok ((),c₂,g') ∧ c = c₁++.br nl::.label nl::c₂ := by
  rw [genCondAnd,Gen.bind_label] at h
  obtain ⟨_,c₁,g₁,_,c₂,g₂,h₁,h₂,heq⟩ := Gen.bind_ok h
  obtain ⟨_,c₃,g₃,h₃,heq'⟩ := Gen.write_ok h₂
  cases heq'
  cases heq
  exact ⟨c₁,g₁,c₃,_,rfl,h₁,h₃,rfl⟩

namespace OrderlyCond
variable {e1 e2 : ℕ → ℕ → Gen Unit} {v1 v2 : Gen ℕ}

theorem stop (e : GenStop) : OrderlyCond D fun _ _ => .stop e :=
  fun E _ _ _ _ => Orderly.stop E e

theorem or (h1 : OrderlyCond D e1) (h2 : OrderlyCond D e2) : OrderlyCond D (genCondOr e1 e2) := by
  intro E lt lf hlt hlf g u c g' hg
  obtain ⟨c₁,g₁,c₂,nl,rfl,hc₁,hc₂,rfl⟩ := genCondOr_ok hg
  have h := (h1 (insert _ E) _ _ (.inr hlt) (.inl rfl) _ _ _ _ hc₁).append
    (h2 _ _ _ (.inr hlt) (.inr hlf) _ _ _ _ hc₂)
  exact ⟨.insert _ _ h.fresh,h.temp_le,h.slots⟩

theorem and (h1 : OrderlyCond D e1) (h2 : OrderlyCond D e2) : OrderlyCond D (genCondAnd e1 e2) := by
  intro E lt lf hlt hlf g u c g' hg
  obtain ⟨c₁,g₁,c₂,nl,rfl,hc₁,hc₂,rfl⟩ := genCondAnd_ok hg
  have h := (h1 (insert _ E) _ _ (.inl rfl) (.inr hlf) _ _ _ _ hc₁).append
    (h2 _ _ _ (.inr hlt) (.inr hlf) _ _ _ _ hc₂)
  exact ⟨.insert _ _ h.fresh,h.temp_le,h.slots⟩

theorem comp (h1 : ∀ E, Orderly E D v1) (h2 : ∀ E, Orderly E D v2) (type1 : Option MType)
    (opcode : Opcode) : OrderlyCond D (genCondComp type1 v1 v2 opcode) := by
  intro E lt lf hlt hlf
  apply (h1 E).bind
  intro r1
  apply (h2 E).bind
  intro r2
  apply (Orderly.nextTempVar E).bind
  intro t
  apply (Orderly.name E type1).bind
  intro name
  exact Orderly.write (by simp [Item.label?]) (by simp [Item.targets,hlt,hlf])

theorem order (h1 : ∀ E, Orderly E D v1) (h2 : ∀ E, Orderly E D v2) (type type1 : Option MType)
    (float int : Opcode) : OrderlyCond D (genCondOrder type type1 v1 v2 float int) := by
  intro E lt lf hlt hlf
  apply (Orderly.name E type).bind
  intro name
  exact comp h1 h2 type1 _ E lt lf hlt hlf

theorem equal (h1 : ∀ E, Orderly E D v1) (h2 : ∀ E, Orderly E D v2) (type1 : Option MType) :
    OrderlyCond D (genCondEqual type1 v1 v2) := by
  intro E lt lf hlt hlf
  apply (h1 E).bind
  intro r1
  apply (h2 E).bind
  intro r2
  apply (Orderly.nextTempVar E).bind
  intro t
  apply (Orderly.name E type1).bind
  intro name
  exact Orderly.write (by simp [Item.label?]) (by simp [Item.targets,hlt,hlf])

theorem test (h1 : ∀ E, Orderly E D v1) (type : Option MType) (zero : String) :
    OrderlyCond D (genCondTest v1 type zero) := by
  intro E lt lf hlt hlf
  apply (h1 E).bind
  intro result
  apply (Orderly.nextTempVar E).bind
  intro ret
  apply (Orderly.name E type).bind
  intro name
  exact Orderly.write (by simp [Item.label?]) (by simp [Item.targets,hlt,hlf])

theorem swap (h : OrderlyCond D e1) : OrderlyCond D fun lt lf => e1 lf lt :=
  fun E _ _ hlt hlf => h E _ _ hlf hlt

end OrderlyCond

/-- The value and the jumps of an expression. -/
structure OrderlyGens (D : Set Decl) (G : Gens) : Prop where
  exp : ∀ E, Orderly E D G.exp
  cond : OrderlyCond D G.cond

theorem OrderlyGens.condBin {G1 G2 : Gens} (h1 : OrderlyGens D G1) (h2 : OrderlyGens D G2)
    (type : Option MType) (tag : BinExp) (type1 : Option MType) :
    OrderlyCond D (genCondBin type tag type1 G1 G2) := by
  cases tag with
  | ExpOr => exact .or h1.cond h2.cond
  | ExpAnd => exact .and h1.cond h2.cond
  | ExpLess => exact .order h1.exp h2.exp _ _ _ _
  | ExpLessEqual => exact .order h1.exp h2.exp _ _ _ _
  | ExpGreater => exact .order h1.exp h2.exp _ _ _ _
  | ExpGreaterEqual => exact .order h1.exp h2.exp _ _ _ _
  | ExpEqual => exact .equal h1.exp h2.exp _
  | ExpAdd => exact .stop _
  | ExpSub => exact .stop _
  | ExpMul => exact .stop _
  | ExpDiv => exact .stop _

theorem OrderlyGens.bin {G1 G2 : Gens} (h1 : OrderlyGens D G1) (h2 : OrderlyGens D G2)
    (type : Option MType) (tag : BinExp) (type1 : Option MType) (E : Set ℕ) :
    Orderly E D (genBin type tag type1 G1 G2) := by
  have htruth (tag : BinExp) : Orderly E D (genTruth type (genCondBin type tag type1 G1 G2)) :=
    (h1.condBin h2 type tag type1).truth E type
  cases tag with
  | ExpAdd => exact (h1.exp E).arith (h2.exp E) _ _
  | ExpSub => exact (h1.exp E).arith (h2.exp E) _ _
  | ExpMul => exact (h1.exp E).arith (h2.exp E) _ _
  | ExpDiv => exact (h1.exp E).arith (h2.exp E) _ _
  | _ => exact htruth _

mutual

theorem orderly_gens : (e : TExp) → OrderlyGens D (gens e)
  | .bin type tag e1 e2 =>
    ⟨(orderly_gens e1).bin (orderly_gens e2) type tag e1.type,
      (orderly_gens e1).condBin (orderly_gens e2) type tag e1.type⟩
  | .var _ var => ⟨fun E => .expVar E var,.stop _⟩
  | .call func parameters =>
    ⟨fun E => (orderly_genArgs parameters E).cmdCall func,
      .test (fun E => (orderly_genArgs parameters E).cmdCall func) _ _⟩
  | .not type un => ⟨fun E => (orderly_gens un).cond.swap.truth E type,(orderly_gens un).cond.swap⟩
  | .minus type un => ⟨fun E => ((orderly_gens un).exp E).minus type un.type,.stop _⟩
  | .new type exp => ⟨fun E => .new E type exp,.stop _⟩
  | .string c => ⟨fun E => .string E c,.stop _⟩
  | .int l => ⟨fun E => .int E l,.test (fun E => .int E l) _ _⟩
  | .float d => ⟨fun E => .float E d,.test (fun E => .float E d) _ _⟩
  | .castIntToFloat un => ⟨fun E => ((orderly_gens un).exp E).cast,.stop _⟩

theorem orderly_genArgs : (args : TExpList) → ∀ E, Orderly E D (genArgs args)
  | .nil => fun E => .pure E []
  | .cons exp next => fun E => ((orderly_gens exp).exp E).bind fun _ =>
    (Orderly.name E exp.type).bind fun _ => (orderly_genArgs next E).bind fun _ => .pure E _

end

/-- A loop has its condition before and behind its body. -/
theorem genCmd_while_ok {e : TExp} {cmd : TCmd} {g g' : GenState} {u : Unit} {c : List Item}
    (h : genCmd (.whileDo e cmd) g = .ok (u,c,g')) : ∃ n c₁ g₁ body g₂ c₂,
    n = g.curTempLabel ∧ genCond e (n+1) (n+2) { g with curTempLabel := n+2 } = .ok ((),c₁,g₁) ∧
    genCmd cmd g₁ = .ok ((),body,g₂) ∧ genCond e (n+1) (n+2) g₂ = .ok ((),c₂,g') ∧
    c = c₁++.br (n+1)::.label (n+1)::(body++(c₂++[.br (n+2),.label (n+2)])) := by
  rw [genCmd,Gen.bind_label,Gen.bind_label] at h
  obtain ⟨_,c₁,g₁,_,_,_,h₁,h,heq⟩ := Gen.bind_ok h
  cases heq
  obtain ⟨_,_,_,h,heq⟩ := Gen.write_ok h
  cases heq
  obtain ⟨_,body,g₂,_,_,_,h₂,h,heq⟩ := Gen.bind_ok h
  cases heq
  obtain ⟨_,c₂,g₃,_,_,_,h₃,h,heq⟩ := Gen.bind_ok h
  cases heq
  cases h
  exact ⟨_,c₁,g₁,body,g₂,c₂,rfl,h₁,h₂,h₃,rfl⟩

theorem genCmd_if_ok {e : TExp} {cmd : TCmd} {g g' : GenState} {u : Unit} {c : List Item}
    (h : genCmd (.ifThen e cmd) g = .ok (u,c,g')) : ∃ n c₁ g₁ body,
    n = g.curTempLabel ∧ genCond e (n+2) (n+1) { g with curTempLabel := n+2 } = .ok ((),c₁,g₁) ∧
    genCmd cmd g₁ = .ok ((),body,g') ∧
    c = c₁++.br (n+2)::.label (n+2)::(body++[.br (n+1),.label (n+1)]) := by
  rw [genCmd,Gen.bind_label,Gen.bind_label] at h
  obtain ⟨_,c₁,g₁,_,_,_,h₁,h,heq⟩ := Gen.bind_ok h
  cases heq
  obtain ⟨_,_,_,h,heq⟩ := Gen.write_ok h
  cases heq
  obtain ⟨_,body,g₂,_,_,_,h₂,h,heq⟩ := Gen.bind_ok h
  cases heq
  cases h
  exact ⟨_,c₁,g₁,body,rfl,h₁,h₂,rfl⟩

theorem genCmd_ifElse_ok {e : TExp} {cmd1 cmd2 : TCmd} {g g' : GenState} {u : Unit}
    {c : List Item} (h : genCmd (.ifElse e cmd1 cmd2) g = .ok (u,c,g')) :
    ∃ n c₁ g₁ body1 g₂ body2, n = g.curTempLabel ∧
    genCond e (n+1) (n+2) { g with curTempLabel := n+3 } = .ok ((),c₁,g₁) ∧
    genCmd cmd1 g₁ = .ok ((),body1,g₂) ∧ genCmd cmd2 g₂ = .ok ((),body2,g') ∧
    c = c₁++.br (n+1)::.label (n+1)::(body1++.br (n+3)::.br (n+2)::.label (n+2)::
      (body2++[.br (n+3),.label (n+3)])) := by
  rw [genCmd,Gen.bind_label,Gen.bind_label,Gen.bind_label] at h
  obtain ⟨_,c₁,g₁,_,_,_,h₁,h,heq⟩ := Gen.bind_ok h
  cases heq
  obtain ⟨_,_,_,h,heq⟩ := Gen.write_ok h
  cases heq
  obtain ⟨_,body1,g₂,_,_,_,h₂,h,heq⟩ := Gen.bind_ok h
  cases heq
  obtain ⟨_,_,_,h,heq⟩ := Gen.write_ok h
  cases heq
  obtain ⟨_,_,_,h,heq⟩ := Gen.write_ok h
  cases heq
  obtain ⟨_,body2,g₃,_,_,_,h₃,h,heq⟩ := Gen.bind_ok h
  cases heq
  cases h
  exact ⟨_,c₁,g₁,body1,g₂,body2,rfl,h₁,h₂,h₃,rfl⟩

namespace Orderly

theorem arrPtr (E : Set ℕ) (array : ℕ) (type : Option MType) (size : ℤ) (position : ℕ) :
    Orderly E D (genArrPtr array type size position) := by
  apply (nextTempVar E).bind
  intro ret
  apply (name E type).bind
  intro n
  exact (line E rfl rfl).bind fun _ => pure E ret

theorem newPtr (E : Set ℕ) (exp : TExp) (t : ℕ) : Orderly E D (genNewPtr exp t) := by
  unfold genNewPtr
  split
  · apply (nextTempVar E).bind
    intro position0
    exact (line E rfl rfl).bind fun _ => arrPtr E _ _ _ _
  · exact pure E t

theorem index (E : Set ℕ) (var : TVar) : Orderly E D (genIndex var) := by
  cases var with
  | id tag decl => exact pure E ()
  | indexed e1 e2 =>
    apply ((orderly_gens e2).exp E).bind
    intro t
    apply (name E e2.type).bind
    intro n
    show Orderly E D (if n ≠ .VarInt then .stop .indexNotInt else Pure.pure ())
    split
    · exact stop E .indexNotInt
    · exact pure E ()

theorem var (E : Set ℕ) (v : TVar) : Orderly E D (genVar v) := by
  cases v with
  | indexed e1 e2 => exact pure E Place.garbage
  | id tag decl =>
    cases tag with
    | VarParam => exact pure E Place.garbage
    | VarDec => exact (slot E decl).bind fun s => pure E _

theorem cmdVar (E : Set ℕ) (v : TVar) (exp : TExp) : Orderly E D (genCmdVar v exp) := by
  apply ((orderly_gens exp).exp E).bind
  intro t
  apply (newPtr E exp t).bind
  intro t
  apply (index E v).bind
  intro _
  apply (name E exp.type).bind
  intro n
  apply (var E v).bind
  intro place
  exact line E rfl rfl

theorem ret (E : Set ℕ) (returnExp : Option TExp) : Orderly E D (genReturn returnExp) := by
  cases returnExp with
  | none => exact stop E .null
  | some exp =>
    apply ((orderly_gens exp).exp E).bind
    intro t
    apply (name E exp.type).bind
    intro n
    exact line E rfl rfl

theorem defVar (E : Set ℕ) (isGlobal : Bool) {defvar : Decl} (hd : defvar ∈ D) :
    Orderly E D (genDefVar isGlobal defvar) := by
  apply (nextTempVar E).bind
  intro n
  apply (setSlot E hd ⟨n,isGlobal⟩).bind
  intro _
  cases isGlobal <;> exact line E rfl rfl

theorem defVarList (E : Set ℕ) (isGlobal : Bool) {vars : List Decl} (hv : ∀ d ∈ vars, d ∈ D) :
    Orderly E D (genDefVarList isGlobal vars) := by
  induction vars with
  | nil => exact pure E ()
  | cons defvar next ih =>
    rw [List.forall_mem_cons] at hv
    exact (defVar E isGlobal hv.1).bind fun _ => ih hv.2

end Orderly

section Commands
variable {E : Set ℕ} {D : Set Decl}

theorem orderly_while {e : TExp} {cmd : TCmd} (h : ∀ E, Orderly E D (genCmd cmd)) :
    Orderly E D (genCmd (.whileDo e cmd)) := by
  intro g u c g' hg
  obtain ⟨n,c₁,g₁,body,g₂,c₂,hn,h₁,h₂,h₃,rfl⟩ := genCmd_while_ok hg
  have hcond := (orderly_gens (D := D) e).cond (insert (n+2) (insert (n+1) E)) (n+1) (n+2) (.inr (.inl rfl))
    (.inl rfl)
  have hall := ((hcond _ _ _ _ h₁).append (h _ _ _ _ _ h₂)).append (hcond _ _ _ _ h₃)
  refine ⟨?_,hall.temp_le,hall.slots⟩
  rw [← hn]
  have h2 := Fresh.insert (c₁++body++c₂) [] (by simpa using hall.fresh)
  have h1 := Fresh.insert c₁ (body++(c₂++[.br (n+2),.label (n+2)])) (by simpa using h2)
  exact h1

theorem orderly_if {e : TExp} {cmd : TCmd} (h : ∀ E, Orderly E D (genCmd cmd)) :
    Orderly E D (genCmd (.ifThen e cmd)) := by
  intro g u c g' hg
  obtain ⟨n,c₁,g₁,body,hn,h₁,h₂,rfl⟩ := genCmd_if_ok hg
  have hcond := (orderly_gens (D := D) e).cond (insert (n+2) (insert (n+1) E)) (n+2) (n+1) (.inl rfl)
    (.inr (.inl rfl))
  have hall := (hcond _ _ _ _ h₁).append (h _ _ _ _ _ h₂)
  refine ⟨?_,hall.temp_le,hall.slots⟩
  rw [← hn]
  have h2 := Fresh.insert c₁ body (by simpa using hall.fresh)
  have h1 := Fresh.insert (c₁++.br (n+2)::.label (n+2)::body) [] (by simpa using h2)
  simpa using h1

theorem orderly_ifElse {e : TExp} {cmd1 cmd2 : TCmd} (hc1 : ∀ E, Orderly E D (genCmd cmd1))
    (hc2 : ∀ E, Orderly E D (genCmd cmd2)) : Orderly E D (genCmd (.ifElse e cmd1 cmd2)) := by
  intro g u c g' hg
  obtain ⟨n,c₁,g₁,body1,g₂,body2,hn,h₁,h₂,h₃,rfl⟩ := genCmd_ifElse_ok hg
  have hcond := (orderly_gens (D := D) e).cond (insert (n+3) (insert (n+2) (insert (n+1) E))) (n+1) (n+2)
    (by simp) (by simp)
  have hbr : Emits (insert (n+3) (insert (n+2) (insert (n+1) E))) D g₂ [.br (n+3)] g₂ :=
    ⟨.plain (by simp [Item.label?]) (by simp [Item.targets]) _,Nat.le_refl _,fun _ _ => rfl⟩
  have hall := (((hcond _ _ _ _ h₁).append (hc1 _ _ _ _ _ h₂)).append hbr).append
    (hc2 _ _ _ _ _ h₃)
  refine ⟨?_,hall.temp_le,hall.slots⟩
  rw [← hn]
  have h3 := Fresh.insert (c₁++body1++[.br (n+3)]++body2) []
    (by simpa using hall.fresh)
  have h2 := Fresh.insert (c₁++body1++[.br (n+3)]) (body2++[.br (n+3),.label (n+3)])
    (by simpa using h3)
  have h1 := Fresh.insert c₁ (body1++.br (n+3)::.br (n+2)::.label (n+2)::
    (body2++[.br (n+3),.label (n+3)])) (by simpa using h2)
  exact h1

mutual

/-- The variables that are declared in a command. -/
def TCmd.declared : TCmd → List Decl
  | .whileDo _ cmd => cmd.declared
  | .ifThen _ cmd => cmd.declared
  | .ifElse _ c1 c2 => c1.declared++c2.declared
  | .ret _ => []
  | .call _ _ => []
  | .block vars cmds => vars++cmds.declared
  | .assign _ _ => []

def TCmdList.declared : TCmdList → List Decl
  | .nil => []
  | .cons cmd next => cmd.declared++next.declared

end

mutual

theorem orderly_genCmd : (cmd : TCmd) → (∀ d ∈ cmd.declared, d ∈ D) → ∀ E,
    Orderly E D (genCmd cmd)
  | .whileDo _ cmd => fun hd _ => orderly_while (orderly_genCmd cmd hd)
  | .ifThen _ cmd => fun hd _ => orderly_if (orderly_genCmd cmd hd)
  | .ifElse _ c1 c2 => fun hd _ => orderly_ifElse
    (orderly_genCmd c1 fun d h => hd d (List.mem_append_left _ h))
    (orderly_genCmd c2 fun d h => hd d (List.mem_append_right _ h))
  | .ret returnExp => fun _ E => .ret E returnExp
  | .call func parameters => fun _ E =>
    ((orderly_genArgs parameters E).cmdCall func).bind fun _ => .pure E ()
  | .block _ cmds => fun hd E =>
    (Orderly.defVarList E false fun d h => hd d (List.mem_append_left _ h)).bind fun _ =>
      orderly_genCmdList cmds (fun d h => hd d (List.mem_append_right _ h)) E
  | .assign var exp => fun _ E => .cmdVar E var exp

theorem orderly_genCmdList : (cmds : TCmdList) → (∀ d ∈ cmds.declared, d ∈ D) → ∀ E,
    Orderly E D (genCmdList cmds)
  | .nil => fun _ E => .pure E ()
  | .cons cmd next => fun hd E =>
    (orderly_genCmd cmd (fun d h => hd d (List.mem_append_left _ h)) E).bind fun _ =>
      orderly_genCmdList next (fun d h => hd d (List.mem_append_right _ h)) E

end

end Commands
end Orderly
end PucRio.Monga
