import PucRio.Monga.Labels
import Mathlib.Data.List.Chain

/-! The temporaries of what is generated: each is defined before it is read, and, as long as no
number of a label is taken for one, only once. -/
namespace PucRio.Monga

section Items

/-- The temporaries that a line defines; the parameters stand in the head of the function. -/
def Item.defs : Item → List ℕ
  | .cmp t _ _ _ _ _ => [t]
  | .test t _ _ _ _ => [t]
  | .arith t _ _ _ _ => [t]
  | .minus t _ _ _ => [t]
  | .load t _ _ _ => [t]
  | .int t _ => [t]
  | .float t _ => [t]
  | .truth t _ _ => [t]
  | .phi t _ _ _ _ _ => [t]
  | .alloca t _ _ => [t]
  | .allocaArray t _ _ => [t]
  | .getelementptr t _ _ _ _ => [t]
  | .sitofp t _ => [t]
  | .call t _ _ _ => [t]
  | .define _ _ params => params.map Prod.snd
  | _ => []

def Place.uses : Place → List ℕ
  | .temp n => [n]
  | _ => []

/-- The temporaries that a line reads. -/
def Item.uses : Item → List ℕ
  | .condBr t _ _ => [t]
  | .ret _ t => [t]
  | .cmp _ _ _ _ r1 r2 => [r1,r2]
  | .test _ _ _ r _ => [r]
  | .arith _ _ _ e1 e2 => [e1,e2]
  | .minus _ _ _ r => [r]
  | .load _ _ isGlobal varNumber => if isGlobal then [] else [varNumber]
  | .phi _ _ t1 _ t2 _ => [t1,t2]
  | .getelementptr _ _ _ array position => [array,position]
  | .storeChar _ t => [t]
  | .sitofp _ r => [r]
  | .call _ _ _ args => args.map Prod.snd
  | .store _ _ t _ place => t::place.uses
  | _ => []

/-- The number of what is stored into is that of no variable: it is an element of an array. -/
def Item.unknown : Item → Bool
  | .store _ _ _ none _ => true
  | _ => false

/-- A block ends. -/
def Item.ends : Item → Bool
  | .br _ => true
  | .condBr _ _ _ => true
  | .ret _ _ => true
  | _ => false

def defsOf (c : List Item) : List ℕ := c.flatMap Item.defs

/-- What is read has been defined, by `c` or before. -/
def DefinedFrom (S : List ℕ) : List Item → Prop
  | [] => True
  | x::c => x.uses ⊆ S ∧ DefinedFrom (x.defs++S) c

/-- A label stands behind the end of a block. -/
def Sealed (c : List Item) : Prop :=
  (∀ x ∈ c.head?, x.label? = none) ∧ c.IsChain fun x y => y.label?.isSome = true → x.ends = true

theorem defsOf_append (c c' : List Item) : defsOf (c++c') = defsOf c++defsOf c' :=
  List.flatMap_append

theorem defsOf_cons (x : Item) (c : List Item) : defsOf (x::c) = x.defs++defsOf c :=
  List.flatMap_cons

theorem DefinedFrom.mono {c : List Item} : ∀ {S S' : List ℕ}, S ⊆ S' → DefinedFrom S c →
    DefinedFrom S' c := by
  induction c with
  | nil => exact fun _ _ => trivial
  | cons x c ih =>
    intro S S' hS h
    refine ⟨fun t ht => hS (h.1 ht),ih (fun t ht => ?_) h.2⟩
    obtain ht | ht := List.mem_append.mp ht
    · exact List.mem_append_left _ ht
    · exact List.mem_append_right _ (hS ht)

theorem DefinedFrom.append {c c' : List Item} : ∀ {S : List ℕ}, DefinedFrom S c →
    DefinedFrom (defsOf c++S) c' → DefinedFrom S (c++c') := by
  induction c with
  | nil => exact fun _ h => h
  | cons x c ih =>
    intro S h h'
    refine ⟨h.1,ih h.2 (h'.mono fun t ht => ?_)⟩
    rw [defsOf_cons] at ht
    simp only [List.mem_append] at ht ⊢
    tauto

theorem Sealed.append {c c' : List Item} (h : Sealed c) (h' : Sealed c') : Sealed (c++c') := by
  refine ⟨fun x hx => ?_,?_⟩
  · rw [List.head?_append] at hx
    cases hc : c.head? with
    | none =>
      rw [hc] at hx
      exact h'.1 x hx
    | some y =>
      rw [hc] at hx
      exact h.1 x (hc ▸ hx)
  · rw [List.isChain_append]
    refine ⟨h.2,h'.2,fun x _ y hy hlabel => ?_⟩
    rw [h'.1 y hy] at hlabel
    cases hlabel

end Items

section Temps
variable {S A B : List ℕ} {b b' : Bool} {n m k : ℕ} {c c' : List Item}

/-- The lines `c` of a function, behind lines that define `S`, while the counter goes from `n` to
`m`. The numbers in `A` have been given out before. -/
structure Temps (S A : List ℕ) (b : Bool) (n : ℕ) (c : List Item) (m : ℕ) : Prop where
  defined : DefinedFrom S c
  sealed : Sealed c
  le : n ≤ m
  nodup : b = true → (defsOf c).Nodup
  range : b = true → ∀ t ∈ defsOf c, t ∈ A ∨ (n < t ∧ t ≤ m)
  known : b = true → ∀ x ∈ c, x.unknown = false

namespace Temps

theorem nil (S A : List ℕ) (b : Bool) (h : n ≤ m) : Temps S A b n [] m where
  defined := trivial
  sealed := ⟨fun _ hx => (by cases hx),.nil⟩
  le := h
  nodup _ := List.nodup_nil
  range _ _ ht := by cases ht
  known _ _ hx := by cases hx

/-- The numbers given out before are not used twice. -/
theorem append (h : Temps S A b n c m) (h' : Temps (defsOf c++S) B b' m c' k)
    (hA : ∀ t ∈ A, t ≤ n) (hB : ∀ t ∈ B, t ≤ n) (hAB : A.Disjoint B) :
    Temps S (A++B) (b && b') n (c++c') k where
  defined := h.defined.append h'.defined
  sealed := h.sealed.append h'.sealed
  le := h.le.trans h'.le
  nodup hb := by
    rw [Bool.and_eq_true] at hb
    rw [defsOf_append,List.nodup_append']
    refine ⟨h.nodup hb.1,h'.nodup hb.2,fun t ht ht' => ?_⟩
    obtain hA' | hA' := h.range hb.1 t ht <;> obtain hB' | hB' := h'.range hb.2 t ht'
    · exact hAB hA' hB'
    · have := hA t hA'
      have := h.le
      omega
    · have := hB t hB'
      omega
    · omega
  range hb t ht := by
    rw [Bool.and_eq_true] at hb
    have := h.le
    have := h'.le
    rw [defsOf_append] at ht
    obtain ht | ht := List.mem_append.mp ht
    · refine (h.range hb.1 t ht).imp (List.mem_append_left B) fun hn => ?_
      omega
    · refine (h'.range hb.2 t ht).imp (List.mem_append_right A) fun hn => ?_
      omega
  known hb x hx := by
    rw [Bool.and_eq_true] at hb
    exact (List.mem_append.mp hx).elim (h.known hb.1 x) (h'.known hb.2 x)

theorem concat (h : Temps S [] b n c m) (h' : Temps (defsOf c++S) [] b' m c' k) :
    Temps S [] (b && b') n (c++c') k :=
  h.append h' (List.forall_mem_nil _) (List.forall_mem_nil _) (List.disjoint_nil_left _)

theorem weaken (h : Temps S A b n c m) (hb : b' = true → b = true) : Temps S A b' n c m :=
  ⟨h.defined,h.sealed,h.le,fun h' => h.nodup (hb h'),fun h' => h.range (hb h'),
    fun h' => h.known (hb h')⟩

/-- A number that the counter gives out at the start. -/
theorem fresh (h : Temps S ((n+1)::A) b (n+1) c m) : Temps S A b n c m where
  defined := h.defined
  sealed := h.sealed
  le := (Nat.le_succ n).trans h.le
  nodup := h.nodup
  range hb t ht := by
    have := h.le
    obtain hA | hn := h.range hb t ht
    · refine (List.mem_cons.mp hA).symm.imp_right fun heq => ?_
      omega
    · right
      omega
  known := h.known

end Temps
end Temps

section Supplies
variable {α β : Type} {K A : List ℕ} {vs vs' : List (DecTag × Decl)} {b b' : Bool} {x : Gen α}
  {f : α → Gen β} {V : α → List ℕ} {W : β → List ℕ}

/-- The number in the record of a variable has been defined, or the variable is a global one. -/
def Known (slots : Decl → Slot) (S : List ℕ) (v : DecTag × Decl) : Prop :=
  (slots v.2).varNumber ∈ S ∨ (v.1 = .VarDec ∧ (slots v.2).isGlobal = true)

theorem Known.mono {slots : Decl → Slot} {S S' : List ℕ} {v : DecTag × Decl} (hS : S ⊆ S')
    (h : Known slots S v) : Known slots S' v := h.imp_left fun ht => hS ht

/-- A part of the generator that reads the temporaries in `K` and the variables in `vs`, may define
the numbers in `A`, and leaves the temporaries in `V` defined. -/
def Supplies (K A : List ℕ) (vs : List (DecTag × Decl)) (b : Bool) (x : Gen α) (V : α → List ℕ) :
    Prop :=
  ∀ S g a c g', K ⊆ S → A.Nodup → (∀ t ∈ A, t ≤ g.curTempVar) → (∀ v ∈ vs, Known g.slots S v) →
    x g = .ok (a,c,g') → g'.slots = g.slots ∧
      Temps S A b g.curTempVar c g'.curTempVar ∧ V a ⊆ defsOf c++S

namespace Supplies

theorem stop (e : GenStop) : Supplies K A vs b (.stop e : Gen α) V := by
  intro S g a c g' _ _ _ _ h
  cases h

theorem pure {a : α} (hV : V a ⊆ K) : Supplies K A vs b (pure a : Gen α) V := by
  intro S g a' c g' hK _ _ _ h
  cases h
  exact ⟨rfl,.nil S A b (Nat.le_refl _),fun t ht => hK (hV ht)⟩

theorem weaken (h : Supplies K A vs b x V) (hvs : vs ⊆ vs') (hb : b' = true → b = true) :
    Supplies K A vs' b' x V := by
  intro S g a c g' hK hA hle hv hx
  obtain ⟨hslots,ht,hV⟩ := h S g a c g' hK hA hle (fun v hm => hv v (hvs hm)) hx
  exact ⟨hslots,ht.weaken hb,hV⟩

theorem fresh {f : ℕ → Gen β} (h : ∀ ret, Supplies K (ret::A) vs b (f ret) W) :
    Supplies K A vs b (getNextTempVar >>= f) W := by
  intro S g a c g' hK hA hle hv hx
  rw [Gen.bind_temp] at hx
  have hnew : g.curTempVar+1 ∉ A := by
    intro hm
    have := hle _ hm
    omega
  have hle' : ∀ t ∈ (g.curTempVar+1)::A, t ≤ g.curTempVar+1 := by
    intro t ht
    obtain rfl | ht := List.mem_cons.mp ht
    · exact Nat.le_refl _
    · exact (hle t ht).trans (Nat.le_succ _)
  obtain ⟨hslots,ht,hW⟩ := h (g.curTempVar+1) S { g with curTempVar := g.curTempVar+1 } a c g' hK
    (List.nodup_cons.mpr ⟨hnew,hA⟩) hle' hv hx
  exact ⟨hslots,ht.fresh,hW⟩

theorem label {f : ℕ → Gen β} (h : ∀ l, Supplies K A vs b (f l) W) :
    Supplies K A vs b (getNextTempLabel >>= f) W := by
  intro S g a c g' hK hA hle hv hx
  rw [Gen.bind_label] at hx
  exact h (g.curTempLabel+1) S { g with curTempLabel := g.curTempLabel+1 } a c g' hK hA hle hv hx

theorem name {type : Option MType} {f : VarType → Gen β} (h : ∀ n, Supplies K A vs b (f n) W) :
    Supplies K A vs b (typeName type >>= f) W := by
  cases type with
  | none =>
    intro S g a c g' _ _ _ _ hx
    cases hx
  | some type =>
    rw [Gen.bind_name]
    exact h type.name

theorem bind {B : List ℕ} (hx : Supplies K A vs b x V)
    (hf : ∀ a, Supplies (V a++K) B vs' b' (f a) W) :
    Supplies K (A++B) (vs++vs') (b && b') (x >>= f) W := by
  intro S g a c g' hK hAB hle hv h
  obtain ⟨a,c₁,g₁,_,c₂,_,h₁,h₂,heq⟩ := Gen.bind_ok h
  cases heq
  obtain ⟨hA,hB,hdisjoint⟩ := List.nodup_append'.mp hAB
  have hleA (t : ℕ) (ht : t ∈ A) := hle t (List.mem_append_left B ht)
  have hleB (t : ℕ) (ht : t ∈ B) := hle t (List.mem_append_right A ht)
  obtain ⟨hslots₁,ht₁,hV⟩ := hx S g a c₁ g₁ hK hA hleA
    (fun v hm => hv v (List.mem_append_left vs' hm)) h₁
  obtain ⟨hslots₂,ht₂,hW⟩ := hf a (defsOf c₁++S) g₁ _ c₂ g'
    (List.append_subset.mpr ⟨hV,List.subset_append_of_subset_right _ hK⟩) hB
    (fun t ht => (hleB t ht).trans ht₁.le)
    (fun v hm => hslots₁ ▸ (hv v (List.mem_append_right vs hm)).mono
      (List.subset_append_right _ S)) h₂
  refine ⟨hslots₂.trans hslots₁,ht₁.append ht₂ hleA hleB hdisjoint,fun t ht => ?_⟩
  have ht := hW ht
  rw [defsOf_append]
  simp only [List.mem_append] at ht ⊢
  tauto

/-- The numbers given out before are all used in the first part. -/
theorem andThen (hx : Supplies K A vs b x V) (hf : ∀ a, Supplies (V a++K) [] vs' b' (f a) W) :
    Supplies K A (vs++vs') (b && b') (x >>= f) W := by
  have h := hx.bind hf
  rwa [List.append_nil] at h

theorem write {c : List Item} (hd : DefinedFrom K c) (hs : Sealed c)
    (hA : b = true → (defsOf c).Perm A) (hk : b = true → ∀ x ∈ c, x.unknown = false) :
    Supplies K A vs b (llvmWrite c) fun _ => defsOf c := by
  intro S g a c' g' hK hnodup _ _ h
  cases h
  exact ⟨rfl,⟨hd.mono hK,hs,Nat.le_refl _,fun hb => (hA hb).nodup_iff.mpr hnodup,
    fun hb t ht => .inl ((hA hb).mem_iff.mp ht),hk⟩,List.subset_append_left _ S⟩

theorem line {x : Item} (hu : x.uses ⊆ K) (hl : x.label? = none) (hk : x.unknown = false) :
    Supplies K x.defs vs b (llvmWrite [x]) fun _ => x.defs := by
  have hdefs : defsOf [x] = x.defs := (defsOf_cons x []).trans (List.append_nil _)
  have h : Supplies K x.defs vs b (llvmWrite [x]) fun _ => defsOf [x] := by
    refine write ⟨hu,trivial⟩ ⟨fun y hy => ?_,.singleton x⟩ (fun _ => ?_) fun _ => ?_
    · obtain rfl : x = y := Option.some.inj hy
      exact hl
    · rw [hdefs]
    · exact fun y hy => List.mem_singleton.mp hy ▸ hk
  rwa [hdefs] at h

/-- The value is in the line that ends its code. -/
theorem value {x : Item} {ret : ℕ} (hx : x.defs = [ret]) (hu : x.uses ⊆ K) (hl : x.label? = none)
    (hk : x.unknown = false) :
    Supplies K [ret] vs b (llvmWrite [x] >>= fun _ => Pure.pure ret) fun r => [r] := by
  have hret (_ : Unit) : Supplies (x.defs++K) [] [] true (Pure.pure ret : Gen ℕ) fun r => [r] := by
    apply pure
    rw [hx]
    exact List.subset_append_left _ K
  have hline : Supplies K x.defs vs b (llvmWrite [x]) fun _ => x.defs := line hu hl hk
  have h := hline.andThen hret
  rwa [hx,List.append_nil,Bool.and_true] at h

theorem jump (l : ℕ) : Supplies K [] vs b (genLabel l) fun _ => [] := by
  have h : Supplies K [] vs b (genLabel l) fun _ => defsOf [.br l,.label l] := by
    refine write ⟨List.nil_subset K,List.nil_subset _,trivial⟩ ⟨fun y hy => ?_,?_⟩ ?_ ?_
    · obtain rfl : .br l = y := Option.some.inj hy
      rfl
    · exact .cons_cons (fun _ => rfl) (.singleton _)
    · exact fun _ => .nil
    · simp [Item.unknown]
  exact h

end Supplies
end Supplies

section Variables

mutual

/-- The variables whose numbers are read for an expression; of an element only its index is. -/
def TExp.variables : TExp → List (DecTag × Decl)
  | .bin _ _ e1 e2 => e1.variables++e2.variables
  | .var _ var => var.variables
  | .call _ parameters => parameters.variables
  | .not _ un => un.variables
  | .minus _ un => un.variables
  | .new _ _ => []
  | .string _ => []
  | .int _ => []
  | .float _ => []
  | .castIntToFloat un => un.variables

def TVar.variables : TVar → List (DecTag × Decl)
  | .id decTag decl => [(decTag,decl)]
  | .indexed _ e2 => e2.variables

def TExpList.variables : TExpList → List (DecTag × Decl)
  | .nil => []
  | .cons exp next => exp.variables++next.variables

end

mutual

/-- No comparison and no logical operation is used as a value, in an expression that is one. -/
def TExp.plainValue : TExp → Bool
  | .bin _ .ExpAdd e1 e2 => e1.plainValue && e2.plainValue
  | .bin _ .ExpSub e1 e2 => e1.plainValue && e2.plainValue
  | .bin _ .ExpMul e1 e2 => e1.plainValue && e2.plainValue
  | .bin _ .ExpDiv e1 e2 => e1.plainValue && e2.plainValue
  | .bin _ _ _ _ => false
  | .var _ _ => true
  | .call _ parameters => parameters.plainValues
  | .not _ _ => false
  | .minus _ un => un.plainValue
  | .new _ _ => true
  | .string _ => true
  | .int _ => true
  | .float _ => true
  | .castIntToFloat un => un.plainValue

/-- None is used as a value in a condition. -/
def TExp.plainCondition : TExp → Bool
  | .bin _ .ExpOr e1 e2 => e1.plainCondition && e2.plainCondition
  | .bin _ .ExpAnd e1 e2 => e1.plainCondition && e2.plainCondition
  | .bin _ _ e1 e2 => e1.plainValue && e2.plainValue
  | .call _ parameters => parameters.plainValues
  | .not _ un => un.plainCondition
  | _ => true

def TExpList.plainValues : TExpList → Bool
  | .nil => true
  | .cons exp next => exp.plainValue && next.plainValues

end

end Variables

section Values
variable {K : List ℕ} {vs vs1 vs2 : List (DecTag × Decl)} {b b1 b2 : Bool} {e1 e2 : Gen ℕ}
  {type type1 : Option MType}

namespace Supplies

theorem arith (h1 : ∀ K, Supplies K [] vs1 b1 e1 fun r => [r])
    (h2 : ∀ K, Supplies K [] vs2 b2 e2 fun r => [r]) (tag : BinExp) :
    Supplies K [] (vs1++vs2) (b1 && b2) (genArith tag type1 e1 e2) fun r => [r] := by
  refine ((h1 K).bind fun r1 => (h2 _).bind fun r2 => fresh fun ret => name fun n =>
    (value (b := true) rfl ?_ rfl rfl : Supplies _ _ [] true _ _)).weaken ?_ ?_
  · show [_,_] ⊆ _
    simp
  · simp
  · simp

/-- The record of a variable is read. -/
theorem slot {α : Type} {A : List ℕ} {v : DecTag × Decl} {f : Slot → Gen α} {V : α → List ℕ}
    (h : ∀ K s, (s.varNumber ∈ K ∨ (v.1 = .VarDec ∧ s.isGlobal = true)) →
      Supplies K A [] b (f s) V) : Supplies K A [v] b (getSlot v.2 >>= f) V := by
  intro S g a c g' _ hA hle hv hx
  rw [Gen.bind_slot] at hx
  exact h S (g.slots v.2) (hv v List.mem_cons_self) S g a c g' (fun _ ht => ht) hA hle
    (fun _ hm => by cases hm) hx

theorem expVar (var : TVar) : Supplies K [] var.variables b (genExpVar var) fun r => [r] := by
  cases var with
  | indexed e1 e2 => exact fresh fun _ => stop .wild
  | id tag decl =>
    refine fresh fun ret => ?_
    cases tag with
    | VarParam =>
      refine slot (v := (.VarParam,decl)) fun K s hs => pure ?_
      obtain hs | ⟨htag,-⟩ := hs
      · exact List.cons_subset.mpr ⟨hs,List.nil_subset K⟩
      · cases htag
    | VarDec =>
      refine slot (v := (.VarDec,decl)) fun K s hs => value rfl ?_ rfl rfl
      change (if s.isGlobal = true then [] else [s.varNumber]) ⊆ K
      split_ifs with hglobal
      · exact List.nil_subset K
      · exact List.cons_subset.mpr ⟨hs.resolve_right fun h => hglobal h.2,List.nil_subset K⟩

theorem cmdCall {args : Gen (List (VarType × ℕ))}
    (h : ∀ K, Supplies K [] vs b args fun args => args.map Prod.snd) (func : FuncHeader) :
    Supplies K [] vs b (genCmdCall func args) fun r => [r] := by
  refine fresh fun ret => ((h K).bind fun args => name fun n =>
    (value (b := true) rfl ?_ rfl rfl : Supplies _ _ [] true _ _)).weaken ?_ ?_
  · exact List.subset_append_left _ K
  · simp
  · simp

theorem minus (h : ∀ K, Supplies K [] vs b e1 fun r => [r]) :
    Supplies K [] vs b (genMinus type type1 e1) fun r => [r] := by
  refine ((h K).bind fun t => fresh fun ret => name fun n => name fun n1 =>
    (value (b := true) rfl ?_ rfl rfl : Supplies _ _ [] true _ _)).weaken ?_ ?_
  · show [_] ⊆ _
    simp
  · simp
  · simp

theorem new (type : MType) (size : TExp) :
    Supplies K [] vs b (genNew type size) fun r => [r] := by
  refine fresh fun ret => ?_
  cases size with
  | int l => exact value rfl (List.nil_subset K) rfl rfl
  | _ => exact stop .newNotConstant

theorem string (c : String) : Supplies K [] vs b (genString c) fun r => [r] := by
  refine fresh fun temp => fresh fun ret => ?_
  have hwrite : Supplies K [ret,temp] vs b (llvmWrite [.alloca temp .VarChar 0,
      .storeChar c.toList.head? temp,.load ret .VarChar false temp]) fun _ => [temp,ret] := by
    refine write ⟨List.nil_subset K,?_,?_,trivial⟩ ⟨?_,?_⟩ (fun _ => ?_) fun _ => ?_
    · simp [Item.uses,Item.defs]
    · simp [Item.uses,Item.defs]
    · simp [Item.label?]
    · simp [Item.label?]
    · exact .swap ret temp []
    · simp [Item.unknown]
  refine (hwrite.andThen fun _ => (pure ?_ : Supplies _ _ [] true _ fun r => [r])).weaken ?_ ?_
  · simp
  · simp
  · simp

theorem int (l : ℤ) : Supplies K [] vs b (genInt l) fun r => [r] :=
  fresh fun _ => value rfl (List.nil_subset K) rfl rfl

theorem float (d : BitVec 64) : Supplies K [] vs b (genFloat d) fun r => [r] :=
  fresh fun _ => value rfl (List.nil_subset K) rfl rfl

theorem cast (h : ∀ K, Supplies K [] vs b e1 fun r => [r]) :
    Supplies K [] vs b (genCast e1) fun r => [r] := by
  refine ((h K).bind fun t => fresh fun ret =>
    (value (b := true) rfl ?_ rfl rfl : Supplies _ _ [] true _ _)).weaken ?_ ?_
  · show [_] ⊆ _
    simp
  · simp
  · simp

/-- The numbers of two labels are taken for temporaries. -/
theorem truth {cond : ℕ → ℕ → Gen Unit}
    (h : ∀ K lt lf, Supplies K [] vs b (cond lt lf) fun _ => []) :
    Supplies K [] vs false (genTruth type cond) fun r => [r] := by
  intro S g r c g' hK hA _ hv hx
  obtain ⟨c₁,float,n,-,h₁,rfl,rfl⟩ := genTruth_ok hx
  obtain ⟨hslots,ht,-⟩ := h K (n+1) (n+2) S
    { g with curTempVar := g.curTempVar+1, curTempLabel := n+5 } _ c₁ g' hK hA
    (fun _ hm => by cases hm) hv h₁
  refine ⟨hslots,?_,?_⟩
  · refine ⟨ht.defined.append ?_,ht.sealed.append ⟨?_,?_⟩,?_,?_,?_,?_⟩
    · simp [DefinedFrom,Item.uses,Item.defs]
    · simp [Item.label?]
    · simp [Item.label?,Item.ends]
    · exact (Nat.le_succ _).trans ht.le
    · exact fun hb => by cases hb
    · exact fun hb => by cases hb
    · exact fun hb => by cases hb
  · simp [defsOf,Item.defs]

end Supplies
end Values

section Jumps
variable {K : List ℕ} {vs vs1 vs2 : List (DecTag × Decl)} {b b1 b2 : Bool} {v1 v2 : Gen ℕ}
  {e1 e2 : ℕ → ℕ → Gen Unit} {type type1 : Option MType}

namespace Supplies

/-- Another part begins at a label. -/
theorem next {α : Type} {x : Gen Unit} {y : Gen α} {V : α → List ℕ} (l : ℕ)
    (hx : Supplies K [] vs1 b1 x fun _ => []) (hy : Supplies K [] vs2 b2 y V) :
    Supplies K [] (vs1++vs2) (b1 && b2) (x >>= fun _ => genLabel l >>= fun _ => y) V := by
  have hjump : Supplies K [] [] true (genLabel l) fun _ => [] := jump l
  exact hx.bind fun _ => hjump.bind fun _ => hy

theorem condOr (h1 : ∀ K lt lf, Supplies K [] vs1 b1 (e1 lt lf) fun _ => [])
    (h2 : ∀ K lt lf, Supplies K [] vs2 b2 (e2 lt lf) fun _ => []) (lt lf : ℕ) :
    Supplies K [] (vs1++vs2) (b1 && b2) (genCondOr e1 e2 lt lf) fun _ => [] :=
  label fun nl => (h1 K lt nl).next nl (h2 K lt lf)

theorem condAnd (h1 : ∀ K lt lf, Supplies K [] vs1 b1 (e1 lt lf) fun _ => [])
    (h2 : ∀ K lt lf, Supplies K [] vs2 b2 (e2 lt lf) fun _ => []) (lt lf : ℕ) :
    Supplies K [] (vs1++vs2) (b1 && b2) (genCondAnd e1 e2 lt lf) fun _ => [] :=
  label fun nl => (h1 K nl lf).next nl (h2 K lt lf)

/-- A comparison and the jump on it. -/
theorem branch {x : Item} {ret lt lf : ℕ} (hx : x.defs = [ret]) (hu : x.uses ⊆ K)
    (hl : x.label? = none) (hk : x.unknown = false) :
    Supplies K [ret] vs b (llvmWrite [x,.condBr ret lt lf]) fun _ => [] := by
  have hdefs : defsOf [x,.condBr ret lt lf] = [ret] := by
    rw [defsOf_cons,hx]
    rfl
  have h : Supplies K [ret] vs b (llvmWrite [x,.condBr ret lt lf]) fun _ =>
      defsOf [x,.condBr ret lt lf] := by
    refine write ⟨hu,?_,trivial⟩ ⟨fun y hy => ?_,?_⟩ (fun _ => ?_) fun _ => ?_
    · rw [hx]
      exact List.subset_append_left _ K
    · obtain rfl : x = y := Option.some.inj hy
      exact hl
    · exact .cons_cons (fun hm => by cases hm) (.singleton _)
    · rw [hdefs]
    · exact List.forall_mem_cons.mpr ⟨hk,List.forall_mem_singleton.mpr rfl⟩
  intro S g a c g' hK hA hle hv hg
  obtain ⟨hslots,ht,-⟩ := h S g a c g' hK hA hle hv hg
  exact ⟨hslots,ht,List.nil_subset _⟩

theorem condComp (h1 : ∀ K, Supplies K [] vs1 b1 v1 fun r => [r])
    (h2 : ∀ K, Supplies K [] vs2 b2 v2 fun r => [r]) (opcode : Opcode) (lt lf : ℕ) :
    Supplies K [] (vs1++vs2) (b1 && b2) (genCondComp type1 v1 v2 opcode lt lf) fun _ => [] := by
  refine ((h1 K).bind fun r1 => (h2 _).bind fun r2 => fresh fun t => name fun n =>
    (branch (b := true) rfl ?_ rfl rfl : Supplies _ _ [] true _ _)).weaken ?_ ?_
  · show [_,_] ⊆ _
    simp
  · simp
  · simp

theorem condOrder (h1 : ∀ K, Supplies K [] vs1 b1 v1 fun r => [r])
    (h2 : ∀ K, Supplies K [] vs2 b2 v2 fun r => [r]) (float int : Opcode) (lt lf : ℕ) :
    Supplies K [] (vs1++vs2) (b1 && b2) (genCondOrder type type1 v1 v2 float int lt lf)
      fun _ => [] :=
  name fun _ => condComp h1 h2 _ lt lf

theorem condEqual (h1 : ∀ K, Supplies K [] vs1 b1 v1 fun r => [r])
    (h2 : ∀ K, Supplies K [] vs2 b2 v2 fun r => [r]) (lt lf : ℕ) :
    Supplies K [] (vs1++vs2) (b1 && b2) (genCondEqual type1 v1 v2 lt lf) fun _ => [] := by
  refine ((h1 K).bind fun r1 => (h2 _).bind fun r2 => fresh fun t => name fun n =>
    (branch (b := true) rfl ?_ rfl rfl : Supplies _ _ [] true _ _)).weaken ?_ ?_
  · show [_,_] ⊆ _
    simp
  · simp
  · simp

theorem condTest (h : ∀ K, Supplies K [] vs b v1 fun r => [r]) (zero : String) (lt lf : ℕ) :
    Supplies K [] vs b (genCondTest v1 type zero lt lf) fun _ => [] := by
  refine ((h K).bind fun r => fresh fun t => name fun n =>
    (branch (b := true) rfl ?_ rfl rfl : Supplies _ _ [] true _ _)).weaken ?_ ?_
  · show [_] ⊆ _
    simp
  · simp
  · simp

end Supplies
end Jumps

section Expressions

/-- What is generated for an expression, as a value and as a condition. -/
structure SuppliesGens (vs : List (DecTag × Decl)) (b b' : Bool) (G : Gens) : Prop where
  exp : ∀ K, Supplies K [] vs b G.exp fun r => [r]
  cond : ∀ K lt lf, Supplies K [] vs b' (G.cond lt lf) fun _ => []

theorem SuppliesGens.condBin {type : Option MType} {tag : BinExp} {e1 e2 : TExp}
    (h1 : SuppliesGens e1.variables e1.plainValue e1.plainCondition (gens e1))
    (h2 : SuppliesGens e2.variables e2.plainValue e2.plainCondition (gens e2)) (K : List ℕ)
    (lt lf : ℕ) : Supplies K [] (e1.variables++e2.variables)
      (TExp.bin type tag e1 e2).plainCondition
      (genCondBin type tag e1.type (gens e1) (gens e2) lt lf) fun _ => [] := by
  cases tag with
  | ExpOr => exact .condOr h1.cond h2.cond lt lf
  | ExpAnd => exact .condAnd h1.cond h2.cond lt lf
  | ExpLess => exact .condOrder h1.exp h2.exp _ _ lt lf
  | ExpLessEqual => exact .condOrder h1.exp h2.exp _ _ lt lf
  | ExpGreater => exact .condOrder h1.exp h2.exp _ _ lt lf
  | ExpGreaterEqual => exact .condOrder h1.exp h2.exp _ _ lt lf
  | ExpEqual => exact .condEqual h1.exp h2.exp lt lf
  | _ => exact .stop .invalidTag

theorem SuppliesGens.bin {type : Option MType} {tag : BinExp} {e1 e2 : TExp}
    (h1 : SuppliesGens e1.variables e1.plainValue e1.plainCondition (gens e1))
    (h2 : SuppliesGens e2.variables e2.plainValue e2.plainCondition (gens e2)) (K : List ℕ) :
    Supplies K [] (e1.variables++e2.variables) (TExp.bin type tag e1 e2).plainValue
      (genBin type tag e1.type (gens e1) (gens e2)) fun r => [r] := by
  have hcond : ∀ K lt lf, Supplies K [] (e1.variables++e2.variables)
      (TExp.bin type tag e1 e2).plainCondition
      (genCondBin type tag e1.type (gens e1) (gens e2) lt lf) fun _ => [] := h1.condBin h2
  cases tag with
  | ExpAdd => exact .arith h1.exp h2.exp _
  | ExpSub => exact .arith h1.exp h2.exp _
  | ExpMul => exact .arith h1.exp h2.exp _
  | ExpDiv => exact .arith h1.exp h2.exp _
  | _ => exact .truth hcond

mutual

theorem supplies_gens : (e : TExp) →
    SuppliesGens e.variables e.plainValue e.plainCondition (gens e)
  | .bin _ _ e1 e2 =>
    ⟨(supplies_gens e1).bin (supplies_gens e2),(supplies_gens e1).condBin (supplies_gens e2)⟩
  | .var _ var => ⟨fun _ => .expVar var,fun _ _ _ => .stop .invalidTag⟩
  | .call func parameters =>
    ⟨fun _ => .cmdCall (supplies_genArgs parameters) func,
      fun _ => .condTest (fun _ => .cmdCall (supplies_genArgs parameters) func) "0"⟩
  | .not _ un =>
    ⟨fun _ => .truth fun K lt lf => (supplies_gens un).cond K lf lt,
      fun K lt lf => (supplies_gens un).cond K lf lt⟩
  | .minus _ un => ⟨fun _ => .minus (supplies_gens un).exp,fun _ _ _ => .stop .invalidTag⟩
  | .new type exp => ⟨fun _ => .new type exp,fun _ _ _ => .stop .invalidTag⟩
  | .string c => ⟨fun _ => .string c,fun _ _ _ => .stop .invalidTag⟩
  | .int l => ⟨fun _ => .int l,fun _ => .condTest (fun _ => .int l) "0"⟩
  | .float d => ⟨fun _ => .float d,fun _ => .condTest (fun _ => .float d) "0.0"⟩
  | .castIntToFloat un => ⟨fun _ => .cast (supplies_gens un).exp,fun _ _ _ => .stop .invalidTag⟩

theorem supplies_genArgs : (args : TExpList) → ∀ K, Supplies K [] args.variables args.plainValues
    (genArgs args) fun args => args.map Prod.snd
  | .nil => fun K => .pure (List.nil_subset K)
  | .cons exp next => fun K => by
    refine (((supplies_gens exp).exp K).bind fun arg => .name fun name =>
      (supplies_genArgs next _).andThen fun args =>
        (Supplies.pure ?_ : Supplies _ [] [] true _ _)).weaken ?_ ?_
    · intro t ht
      obtain rfl | ht := List.mem_cons.mp ht
      · exact List.mem_append_right _ (List.mem_append_left _ (List.mem_singleton_self t))
      · exact List.mem_append_left _ ht
    · simp [TExpList.variables]
    · simp [TExpList.plainValues]

end

end Expressions

end PucRio.Monga
