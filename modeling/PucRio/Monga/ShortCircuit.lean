import PucRio.Lib.LabelledCode
import PucRio.Monga.Labels
import Mathlib.Data.Option.Basic

/-! The code of conditions over `int`: control goes where short-circuit evaluation goes, and makes the
same comparisons. -/
namespace PucRio.Monga

section Machine

/-- A comparison of two values, or of one with 0. -/
inductive Event
  | compare (tag : BinExp) (a b : BitVec 32)
  | test (a : BitVec 32)
  deriving DecidableEq, Repr

def truth (b : Bool) : BitVec 32 := if b then 1 else 0

def compares (tag : BinExp) (a b : BitVec 32) : Bool :=
  match tag with
  | .ExpLess => a.slt b
  | .ExpLessEqual => a.sle b
  | .ExpGreater => b.slt a
  | .ExpGreaterEqual => b.sle a
  | .ExpEqual => a == b
  | _ => false

/-- The comparison that `icmp` makes. -/
def Opcode.tag? : Opcode → Option BinExp
  | .slt => some .ExpLess
  | .sle => some .ExpLessEqual
  | .sgt => some .ExpGreater
  | .sge => some .ExpGreaterEqual
  | .eq => some .ExpEqual
  | _ => none

/-- What the code runs on: the arguments, by the temporaries of the parameters, which no instruction
defines again; how an `int` variable is read; and all that the code of conditions does not do. A call
may not come back. -/
structure Machine (M : Type) where
  args : ℕ → Option (BitVec 32)
  read : M → Bool → ℕ → BitVec 32
  effect : Item → (ℕ → BitVec 32) → M → Option ((ℕ → BitVec 32) × M)

structure MachineState (M : Type) where
  temps : ℕ → BitVec 32
  mem : M
  trace : List Event

variable {M : Type}

def MachineState.set (s : MachineState M) (t : ℕ) (v : BitVec 32) : MachineState M :=
  { s with temps := Function.update s.temps t v }

def MachineState.log (s : MachineState M) (e : Event) : MachineState M :=
  { s with trace := s.trace++[e] }

namespace Machine

def value (V : Machine M) (s : MachineState M) (t : ℕ) : BitVec 32 :=
  (V.args t).getD (s.temps t)

/-- An instruction. There is a label where control is sent to one. -/
def exec (V : Machine M) : Item → MachineState M → Option (Option ℕ × MachineState M)
  | .label _,s => some (none,s)
  | .br l,s => some (some l,s)
  | .condBr t lt lf,s => some (some (if V.value s t = 0 then lf else lt),s)
  | .ret _ _,_ => none
  | .cmp t true opcode .VarInt r1 r2,s => opcode.tag?.map fun tag =>
    (none,(s.set t (truth (compares tag (V.value s r1) (V.value s r2)))).log
      (.compare tag (V.value s r1) (V.value s r2)))
  | .test t true .VarInt r _,s =>
    some (none,(s.set t (truth (V.value s r == 0))).log (.test (V.value s r)))
  | .arith t false .ExpAdd e1 e2,s => some (none,s.set t (V.value s e1+V.value s e2))
  | .arith t false .ExpSub e1 e2,s => some (none,s.set t (V.value s e1-V.value s e2))
  | .arith t false .ExpMul e1 e2,s => some (none,s.set t (V.value s e1*V.value s e2))
  | .int t l,s => some (none,s.set t (BitVec.ofInt 32 l))
  | .load t .VarInt isGlobal varNumber,s => some (none,s.set t (V.read s.mem isGlobal varNumber))
  | x,s => (V.effect x (V.value s) s.mem).map fun r => (none,{ s with temps := r.1, mem := r.2 })

def code (V : Machine M) : LabelledCode Item (MachineState M) ℕ := ⟨Item.label?,V.exec⟩

end Machine
end Machine

section Source

/-- The value of a combination of constants and variables. -/
def intValue (ρ : DecTag → Decl → BitVec 32) : TExp → BitVec 32
  | .int l => BitVec.ofInt 32 l
  | .var _ (.id tag decl) => ρ tag decl
  | .bin _ .ExpAdd e1 e2 => intValue ρ e1+intValue ρ e2
  | .bin _ .ExpSub e1 e2 => intValue ρ e1-intValue ρ e2
  | .bin _ .ExpMul e1 e2 => intValue ρ e1*intValue ρ e2
  | _ => 0

/-- The value of a condition and the comparisons that are made for it, as in C: the second operand
of `&&` or `||` is evaluated where the first one does not settle the value. -/
def evaluate (ρ : DecTag → Decl → BitVec 32) : TExp → BitVec 32 × List Event
  | .int l => (BitVec.ofInt 32 l,[.test (BitVec.ofInt 32 l)])
  | .not _ un => (truth ((evaluate ρ un).1 == 0),(evaluate ρ un).2)
  | .bin _ .ExpOr e1 e2 =>
    if (evaluate ρ e1).1 = 0 then
      (truth ((evaluate ρ e2).1 != 0),(evaluate ρ e1).2++(evaluate ρ e2).2)
    else (1,(evaluate ρ e1).2)
  | .bin _ .ExpAnd e1 e2 =>
    if (evaluate ρ e1).1 = 0 then (0,(evaluate ρ e1).2)
    else (truth ((evaluate ρ e2).1 != 0),(evaluate ρ e1).2++(evaluate ρ e2).2)
  | .bin _ tag e1 e2 => (truth (compares tag (intValue ρ e1) (intValue ρ e2)),
      [.compare tag (intValue ρ e1) (intValue ρ e2)])
  | _ => (0,[])

section Evaluate
variable (ρ : DecTag → Decl → BitVec 32) (type : Option MType) (e1 e2 un : TExp)

theorem evaluate_not : evaluate ρ (.not type un) =
    (truth ((evaluate ρ un).1 == 0),(evaluate ρ un).2) := rfl

theorem evaluate_or : evaluate ρ (.bin type .ExpOr e1 e2) =
    if (evaluate ρ e1).1 = 0 then
      (truth ((evaluate ρ e2).1 != 0),(evaluate ρ e1).2++(evaluate ρ e2).2)
    else (1,(evaluate ρ e1).2) := rfl

theorem evaluate_and : evaluate ρ (.bin type .ExpAnd e1 e2) =
    if (evaluate ρ e1).1 = 0 then (0,(evaluate ρ e1).2)
    else (truth ((evaluate ρ e2).1 != 0),(evaluate ρ e1).2++(evaluate ρ e2).2) := rfl

end Evaluate

/-- Constants and variables of type `int`, combined by `+`, `-` and `*`. -/
inductive IntOperand : TExp → Prop
  | int (l : ℤ) : IntOperand (.int l)
  | var (tag : DecTag) (decl : Decl) : decl.type = ⟨.VarInt,0⟩ →
      IntOperand (.var ⟨.VarInt,0⟩ (.id tag decl))
  | bin {tag : BinExp} {e1 e2 : TExp} : tag = .ExpAdd ∨ tag = .ExpSub ∨ tag = .ExpMul →
      IntOperand e1 → IntOperand e2 → IntOperand (.bin (some ⟨.VarInt,0⟩) tag e1 e2)

inductive IntCond : TExp → Prop
  | int (l : ℤ) : IntCond (.int l)
  | comp {tag : BinExp} {e1 e2 : TExp} : tag = .ExpLess ∨ tag = .ExpLessEqual ∨
      tag = .ExpGreater ∨ tag = .ExpGreaterEqual ∨ tag = .ExpEqual → IntOperand e1 →
      IntOperand e2 → IntCond (.bin (some ⟨.VarInt,0⟩) tag e1 e2)
  | or (type : Option MType) {e1 e2 : TExp} : IntCond e1 → IntCond e2 →
      IntCond (.bin type .ExpOr e1 e2)
  | and (type : Option MType) {e1 e2 : TExp} : IntCond e1 → IntCond e2 →
      IntCond (.bin type .ExpAnd e1 e2)
  | not (type : Option MType) {un : TExp} : IntCond un → IntCond (.not type un)

/-- The variables of a condition, and the parameters among them. -/
def TExp.decls : TExp → List (DecTag × Decl)
  | .var _ (.id tag decl) => [(tag,decl)]
  | .bin _ _ e1 e2 => e1.decls++e2.decls
  | .not _ un => un.decls
  | _ => []

theorem IntOperand.type_eq {e : TExp} (h : IntOperand e) : e.type = some ⟨.VarInt,0⟩ := by
  cases h <;> rfl

end Source

section Operands
variable {M : Type} {V : Machine M} {s s' s'' : MachineState M} {n m r : ℕ}

/-- The values of the variables: those of the parameters are the arguments. -/
def Machine.valuation (V : Machine M) (slots : Decl → Slot) (mem : M) : DecTag → Decl → BitVec 32
  | .VarDec,decl => V.read mem (slots decl).isGlobal (slots decl).varNumber
  | .VarParam,decl => (V.args (slots decl).varNumber).getD 0

/-- Nothing has changed but temporaries behind `n`. -/
def Kept (n : ℕ) (s s' : MachineState M) : Prop :=
  s'.mem = s.mem ∧ ∀ t ≤ n, s'.temps t = s.temps t

theorem Kept.refl (n : ℕ) (s : MachineState M) : Kept n s s := ⟨rfl,fun _ _ => rfl⟩

theorem Kept.trans (h : Kept n s s') (h' : Kept m s' s'') (hn : n ≤ m) : Kept n s s'' :=
  ⟨h'.1.trans h.1,fun t ht => (h'.2 t (ht.trans hn)).trans (h.2 t ht)⟩

theorem Kept.set (s : MachineState M) {t : ℕ} (ht : n < t) (v : BitVec 32) :
    Kept n s (s.set t v) := by
  refine ⟨rfl,fun k hk => Function.update_of_ne ?_ ..⟩
  omega

theorem Kept.value (h : Kept n s s') (hr : r ≤ n ∨ (V.args r).isSome) :
    V.value s' r = V.value s r := by
  unfold Machine.value
  cases ha : V.args r with
  | some a => rfl
  | none =>
    obtain hr | hr := hr
    · exact h.2 r hr
    · rw [ha] at hr
      cases hr

theorem value_set (s : MachineState M) {t : ℕ} (ht : V.args t = none) (v : BitVec 32) :
    V.value (s.set t v) t = v := by
  rw [Machine.value,ht]
  exact Function.update_self ..

/-- The parameters have been numbered before, and those that are read are known. -/
structure Numbered (V : Machine M) (g : GenState) (l : List (DecTag × Decl)) : Prop where
  temps : ∀ n, g.curTempVar < n → V.args n = none
  params : ∀ decl, (.VarParam,decl) ∈ l → (V.args (g.slots decl).varNumber).isSome

theorem Numbered.of_le {g g' : GenState} {l l' : List (DecTag × Decl)} (h : Numbered V g l)
    (hg : g.curTempVar ≤ g'.curTempVar) (hs : ∀ x ∈ l', x ∈ l ∧ g'.slots x.2 = g.slots x.2) :
    Numbered V g' l' where
  temps n hn := h.temps n (hg.trans_lt hn)
  params decl hd := by
    obtain ⟨hl,hslot⟩ := hs _ hd
    rw [hslot]
    exact h.params decl hl

/-- The code of an operand `e` from `g` to `g'`, with its value in `r`. -/
structure OperandCode (V : Machine M) (e : TExp) (g : GenState) (r : ℕ) (c : List Item)
    (g' : GenState) : Prop where
  gen : genExp e g = .ok (r,c,g')
  label_eq : g'.curTempLabel = g.curTempLabel
  slots_eq : g'.slots = g.slots
  temp_le : g.curTempVar ≤ g'.curTempVar
  plain : ∀ x ∈ c, x.label? = none
  result : r ≤ g'.curTempVar ∨ (V.args r).isSome
  runs : ∀ s, ∃ s', V.code.Straight c s s' ∧ Kept g.curTempVar s s' ∧ s'.trace = s.trace ∧
    V.value s' r = intValue (V.valuation g.slots s.mem) e

theorem operand_int (l : ℤ) {g : GenState} (hN : Numbered V g (TExp.int l).decls) :
    ∃ r c g', OperandCode V (.int l) g r c g' := by
  refine ⟨g.curTempVar+1,[.int (g.curTempVar+1) l],{ g with curTempVar := g.curTempVar+1 },
    rfl,rfl,rfl,Nat.le_succ _,by simp [Item.label?],.inl (Nat.le_refl _),?_⟩
  intro s
  refine ⟨s.set (g.curTempVar+1) (BitVec.ofInt 32 l),.single rfl,.set s (Nat.lt_succ_self _) _,
    rfl,?_⟩
  exact value_set s (hN.temps _ (Nat.lt_succ_self _)) _

theorem operand_var {tag : DecTag} {decl : Decl} (hd : decl.type = ⟨.VarInt,0⟩) {g : GenState}
    (hN : Numbered V g (TExp.var ⟨.VarInt,0⟩ (.id tag decl)).decls) :
    ∃ r c g', OperandCode V (.var ⟨.VarInt,0⟩ (.id tag decl)) g r c g' := by
  cases tag with
  | VarParam =>
    have harg := hN.params decl List.mem_cons_self
    refine ⟨(g.slots decl).varNumber,[],{ g with curTempVar := g.curTempVar+1 },rfl,rfl,rfl,
      Nat.le_succ _,by simp,.inr harg,?_⟩
    intro s
    refine ⟨s,.nil s,.refl ..,rfl,?_⟩
    obtain ⟨a,ha⟩ := Option.isSome_iff_exists.mp harg
    show (V.args _).getD _ = (V.args _).getD _
    rw [ha]
    rfl
  | VarDec =>
    refine ⟨g.curTempVar+1,[.load (g.curTempVar+1) decl.type.name (g.slots decl).isGlobal
      (g.slots decl).varNumber],{ g with curTempVar := g.curTempVar+1 },rfl,rfl,rfl,Nat.le_succ _,
      by simp [Item.label?],.inl (Nat.le_refl _),?_⟩
    intro s
    rw [hd]
    refine ⟨s.set (g.curTempVar+1) (V.valuation g.slots s.mem .VarDec decl),.single rfl,
      .set s (Nat.lt_succ_self _) _,rfl,?_⟩
    exact value_set s (hN.temps _ (Nat.lt_succ_self _)) _

theorem operand_bin {tag : BinExp} (htag : tag = .ExpAdd ∨ tag = .ExpSub ∨ tag = .ExpMul)
    {e1 e2 : TExp} (he1 : IntOperand e1) {g g₁ g₂ : GenState} {r1 r2 : ℕ}
    {c₁ c₂ : List Item} (h1 : OperandCode V e1 g r1 c₁ g₁) (h2 : OperandCode V e2 g₁ r2 c₂ g₂)
    (hN : Numbered V g (TExp.bin (some ⟨.VarInt,0⟩) tag e1 e2).decls) :
    ∃ r c g', OperandCode V (.bin (some ⟨.VarInt,0⟩) tag e1 e2) g r c g' := by
  have hle := h1.temp_le.trans h2.temp_le
  have hgen : genExp (.bin (some ⟨.VarInt,0⟩) tag e1 e2) =
      genArith tag (some ⟨.VarInt,0⟩) (genExp e1) (genExp e2) := by
    rw [← he1.type_eq]
    obtain rfl | rfl | rfl := htag <;> rfl
  refine ⟨g₂.curTempVar+1,c₁++(c₂++[.arith (g₂.curTempVar+1) false tag r1 r2]),
    { g₂ with curTempVar := g₂.curTempVar+1 },?_,?_,?_,?_,?_,.inl (Nat.le_refl _),?_⟩
  · rw [hgen]
    exact Gen.bind_of_ok h1.gen (Gen.bind_of_ok h2.gen rfl)
  · exact h2.label_eq.trans h1.label_eq
  · exact h2.slots_eq.trans h1.slots_eq
  · exact hle.trans (Nat.le_succ _)
  · intro x hx
    obtain hx | hx := List.mem_append.mp hx
    · exact h1.plain x hx
    obtain hx | hx := List.mem_append.mp hx
    · exact h2.plain x hx
    · rw [List.mem_singleton.mp hx]
      rfl
  · intro s
    obtain ⟨s₁,hs₁,hk₁,ht₁,hv₁⟩ := h1.runs s
    obtain ⟨s₂,hs₂,hk₂,ht₂,hv₂⟩ := h2.runs s₁
    rw [← hk₂.value h1.result] at hv₁
    rw [h1.slots_eq,hk₁.1] at hv₂
    have hnew := hN.temps (g₂.curTempVar+1) (by omega)
    let v := intValue (V.valuation g.slots s.mem) (.bin (some ⟨.VarInt,0⟩) tag e1 e2)
    have hexec : V.exec (.arith (g₂.curTempVar+1) false tag r1 r2) s₂ =
        some (none,s₂.set (g₂.curTempVar+1) v) := by
      obtain rfl | rfl | rfl := htag
      all_goals
        simp only [v,Machine.exec,intValue,hv₁,hv₂]
    refine ⟨s₂.set (g₂.curTempVar+1) v,hs₁.append (hs₂.append (.single hexec)),?_,ht₂.trans ht₁,
      value_set s₂ hnew v⟩
    exact (hk₁.trans hk₂ h1.temp_le).trans (.set s₂ (Nat.lt_succ_self _) v) hle

/-- Every operand has code, which makes no comparison. -/
theorem operand_code {e : TExp} (he : IntOperand e) (g : GenState) (hN : Numbered V g e.decls) :
    ∃ r c g', OperandCode V e g r c g' := by
  induction he generalizing g with
  | int l => exact operand_int l hN
  | var tag decl hd => exact operand_var hd hN
  | @bin tag e1 e2 htag he1 he2 ih1 ih2 =>
    obtain ⟨r1,c₁,g₁,h1⟩ := ih1 g (hN.of_le (Nat.le_refl _)
      fun x hx => ⟨List.mem_append_left _ hx,rfl⟩)
    obtain ⟨r2,c₂,g₂,h2⟩ := ih2 g₁ (hN.of_le h1.temp_le
      fun x hx => ⟨List.mem_append_right _ hx,by rw [h1.slots_eq]⟩)
    exact operand_bin htag he1 h1 h2 hN

end Operands

section Conditions
variable {M : Type} {V : Machine M} {e e1 e2 : TExp} {lt lf nl : ℕ} {g g₁ g₂ g' : GenState}
  {c c₁ c₂ : List Item} {s t : MachineState M}

/-- Where control goes for a value. -/
def chosen (v : BitVec 32) (lt lf : ℕ) : ℕ := if v = 0 then lf else lt

/-- The code of a condition `e` from `g` to `g'`: control leaves it for one of two labels. -/
structure CondCode (V : Machine M) (e : TExp) (lt lf : ℕ) (g : GenState) (c : List Item)
    (g' : GenState) : Prop where
  gen : genCond e lt lf g = .ok ((),c,g')
  temp_le : g.curTempVar ≤ g'.curTempVar
  slots_eq : g'.slots = g.slots
  runs : lt ≤ g.curTempLabel → lf ≤ g.curTempLabel → ∀ s, ∃ s',
    Reaches (V.code.step c) (.inside 0,s)
      (.gone (chosen (evaluate (V.valuation g.slots s.mem) e).1 lt lf),s') ∧
    Kept g.curTempVar s s' ∧ s'.trace = s.trace++(evaluate (V.valuation g.slots s.mem) e).2

theorem fresh_genCond (h : genCond e lt lf g = .ok ((),c,g')) :
    Fresh g.curTempLabel g'.curTempLabel c {lt,lf} :=
  ((orderly_gens (D := ∅) e).cond {lt,lf} lt lf (.inl rfl) (.inr rfl) _ _ _ _ h).fresh

theorem chosen_truth (b : Bool) (lt lf : ℕ) : chosen (truth b) lt lf = if b then lt else lf := by
  cases b <;> rfl

theorem chosen_test (v : BitVec 32) (lt lf : ℕ) :
    chosen (truth (v == 0)) lf lt = chosen v lt lf := by
  rw [chosen_truth]
  simp only [chosen,beq_iff_eq]

theorem Kept.log (s : MachineState M) (n : ℕ) (e : Event) : Kept n s (s.log e) :=
  ⟨rfl,fun _ _ => rfl⟩

/-- A jump behind lines without labels. -/
theorem branch_runs {b : List Item} (h : V.code.Straight b s t) (hb : ∀ x ∈ b, x.label? = none)
    (r lt lf : ℕ) : Reaches (V.code.step (b++[.condBr r lt lf])) (.inside 0,s)
      (.gone (chosen (V.value t r) lt lf),t) := by
  apply h.gone rfl
  have hnil : V.code.labels (b++[.condBr r lt lf]) = [] := by
    apply List.filterMap_eq_nil_iff.mpr
    intro x hx
    obtain hx | hx := List.mem_append.mp hx
    · exact hb x hx
    · rw [List.mem_singleton.mp hx]
      rfl
  rw [hnil]
  exact List.not_mem_nil

theorem forall_plain_append {P : Item → Prop} {x : Item} (h : ∀ x ∈ c, P x) (hx : P x) :
    ∀ y ∈ c++[x], P y :=
  List.forall_mem_append.mpr ⟨h,List.forall_mem_singleton.mpr hx⟩

theorem cond_int (l : ℤ) (lt lf : ℕ) (hN : Numbered V g (TExp.int l).decls) :
    ∃ c g', CondCode V (.int l) lt lf g c g' := by
  obtain ⟨r,c,g₁,h⟩ := operand_int l hN
  have hle := h.temp_le.trans (Nat.le_succ g₁.curTempVar)
  refine ⟨c++[.test (g₁.curTempVar+1) true .VarInt r "0",.condBr (g₁.curTempVar+1) lf lt],
    { g₁ with curTempVar := g₁.curTempVar+1 },Gen.bind_of_ok h.gen rfl,hle,h.slots_eq,?_⟩
  intro _ _ s
  obtain ⟨s₁,hs₁,hk₁,ht₁,hv₁⟩ := h.runs s
  have hnew := hN.temps (g₁.curTempVar+1) (h.temp_le.trans_lt (Nat.lt_succ_self _))
  have hv : V.value s₁ r = BitVec.ofInt 32 l := hv₁
  let s₂ := (s₁.set (g₁.curTempVar+1) (truth (V.value s₁ r == 0))).log (.test (V.value s₁ r))
  have hs₂ : V.code.Straight (c++[.test (g₁.curTempVar+1) true .VarInt r "0"]) s s₂ :=
    hs₁.append (.single rfl)
  have hrun := branch_runs hs₂ (forall_plain_append h.plain rfl) (g₁.curTempVar+1) lf lt
  have hvalue : V.value s₂ (g₁.curTempVar+1) = truth (V.value s₁ r == 0) := value_set s₁ hnew _
  rw [hvalue,chosen_test,hv,List.append_assoc] at hrun
  refine ⟨s₂,hrun,?_,?_⟩
  · exact (hk₁.trans (.set s₁ (Nat.lt_succ_self _) _) h.temp_le).trans (.log ..) (Nat.le_refl _)
  · show s₁.trace++[.test (V.value s₁ r)] = _
    rw [ht₁,hv]
    rfl

/-- The comparisons are generated alike. -/
theorem genCond_comp {tag : BinExp} (htag : tag = .ExpLess ∨ tag = .ExpLessEqual ∨
    tag = .ExpGreater ∨ tag = .ExpGreaterEqual ∨ tag = .ExpEqual) (he1 : IntOperand e1)
    (e2 : TExp) (lt lf : ℕ) :
    ∃ opcode : Opcode, opcode.tag? = some tag ∧
      genCond (.bin (some ⟨.VarInt,0⟩) tag e1 e2) lt lf = (do
        let r1 ← genExp e1
        let r2 ← genExp e2
        let t ← getNextTempVar
        llvmWrite [.cmp t true opcode .VarInt r1 r2,.condBr t lt lf]) := by
  have hcomp (opcode : Opcode) : genCondComp e1.type (genExp e1) (genExp e2) opcode lt lf = (do
      let r1 ← genExp e1
      let r2 ← genExp e2
      let t ← getNextTempVar
      llvmWrite [.cmp t true opcode .VarInt r1 r2,.condBr t lt lf]) := by
    rw [he1.type_eq]
    simp only [genCondComp,Gen.bind_name]
    rfl
  have horder (float int : Opcode) : genCondOrder (some ⟨.VarInt,0⟩) e1.type (genExp e1)
      (genExp e2) float int lt lf = genCondComp e1.type (genExp e1) (genExp e2) int lt lf := by
    rw [genCondOrder,Gen.bind_name]
    rfl
  obtain rfl | rfl | rfl | rfl | rfl := htag
  · exact ⟨.slt,rfl,(horder .olt .slt).trans (hcomp .slt)⟩
  · exact ⟨.sle,rfl,(horder .ole .sle).trans (hcomp .sle)⟩
  · exact ⟨.sgt,rfl,(horder .ogt .sgt).trans (hcomp .sgt)⟩
  · exact ⟨.sge,rfl,(horder .oge .sge).trans (hcomp .sge)⟩
  · refine ⟨.eq,rfl,?_⟩
    show genCondEqual e1.type (genExp e1) (genExp e2) lt lf = _
    rw [he1.type_eq]
    simp only [genCondEqual,Gen.bind_name]
    rfl

theorem evaluate_comp {tag : BinExp} (htag : tag = .ExpLess ∨ tag = .ExpLessEqual ∨
    tag = .ExpGreater ∨ tag = .ExpGreaterEqual ∨ tag = .ExpEqual)
    (ρ : DecTag → Decl → BitVec 32) (type : Option MType) :
    evaluate ρ (.bin type tag e1 e2) = (truth (compares tag (intValue ρ e1) (intValue ρ e2)),
      [.compare tag (intValue ρ e1) (intValue ρ e2)]) := by
  obtain rfl | rfl | rfl | rfl | rfl := htag <;> rfl

theorem cond_comp {tag : BinExp} (htag : tag = .ExpLess ∨ tag = .ExpLessEqual ∨
    tag = .ExpGreater ∨ tag = .ExpGreaterEqual ∨ tag = .ExpEqual) (he1 : IntOperand e1)
    (he2 : IntOperand e2) (lt lf : ℕ)
    (hN : Numbered V g (TExp.bin (some ⟨.VarInt,0⟩) tag e1 e2).decls) :
    ∃ c g', CondCode V (.bin (some ⟨.VarInt,0⟩) tag e1 e2) lt lf g c g' := by
  obtain ⟨r1,c₁,g₁,h1⟩ := operand_code he1 g (hN.of_le (Nat.le_refl _)
    fun x hx => ⟨List.mem_append_left _ hx,rfl⟩)
  obtain ⟨r2,c₂,g₂,h2⟩ := operand_code he2 g₁ (hN.of_le h1.temp_le
    fun x hx => ⟨List.mem_append_right _ hx,by rw [h1.slots_eq]⟩)
  obtain ⟨opcode,hop,hgen⟩ := genCond_comp htag he1 e2 lt lf
  have hle := h1.temp_le.trans h2.temp_le
  refine ⟨c₁++(c₂++[.cmp (g₂.curTempVar+1) true opcode .VarInt r1 r2,
    .condBr (g₂.curTempVar+1) lt lf]),{ g₂ with curTempVar := g₂.curTempVar+1 },?_,?_,?_,?_⟩
  · rw [hgen]
    exact Gen.bind_of_ok h1.gen (Gen.bind_of_ok h2.gen rfl)
  · exact hle.trans (Nat.le_succ _)
  · exact h2.slots_eq.trans h1.slots_eq
  intro _ _ s
  obtain ⟨s₁,hs₁,hk₁,ht₁,hv₁⟩ := h1.runs s
  obtain ⟨s₂,hs₂,hk₂,ht₂,hv₂⟩ := h2.runs s₁
  rw [← hk₂.value h1.result] at hv₁
  rw [h1.slots_eq,hk₁.1] at hv₂
  have hnew := hN.temps (g₂.curTempVar+1) (hle.trans_lt (Nat.lt_succ_self _))
  let v := truth (compares tag (V.value s₂ r1) (V.value s₂ r2))
  let s₃ := (s₂.set (g₂.curTempVar+1) v).log (.compare tag (V.value s₂ r1) (V.value s₂ r2))
  have hexec : V.exec (.cmp (g₂.curTempVar+1) true opcode .VarInt r1 r2) s₂ = some (none,s₃) := by
    rw [Machine.exec,hop]
    rfl
  have hs₃ : V.code.Straight (c₁++c₂++[.cmp (g₂.curTempVar+1) true opcode .VarInt r1 r2]) s s₃ :=
    (hs₁.append hs₂).append (.single hexec)
  have hrun := branch_runs hs₃ (forall_plain_append
    (List.forall_mem_append.mpr ⟨h1.plain,h2.plain⟩) rfl) (g₂.curTempVar+1) lt lf
  have hvalue : V.value s₃ (g₂.curTempVar+1) = v := value_set s₂ hnew v
  rw [hvalue] at hrun
  rw [evaluate_comp htag,← hv₁,← hv₂]
  refine ⟨s₃,?_,?_,?_⟩
  · simpa only [List.append_assoc,List.cons_append,List.nil_append] using hrun
  · exact ((hk₁.trans hk₂ h1.temp_le).trans (.set s₂ (Nat.lt_succ_self _) v) hle).trans (.log ..)
      (Nat.le_refl _)
  · show s₂.trace++_ = _
    rw [ht₂,ht₁]

/-- Of two conditions with a label between them, the first one leaves both. -/
theorem joined_left {l : ℕ} (hc : (labelsOf (c₁++.br nl::.label nl::c₂)).Nodup)
    (hl : l ∉ labelsOf (c₁++.br nl::.label nl::c₂))
    (h : Reaches (V.code.step c₁) (.inside 0,s) (.gone l,t)) :
    Reaches (V.code.step (c₁++.br nl::.label nl::c₂)) (.inside 0,s) (.gone l,t) := by
  have hr := LabelledCode.reaches_left (I := V.code) hc h
  rwa [LabelledCode.goto_of_notMem hl] at hr

/-- The first one goes on to the second one. -/
theorem joined_right {l : ℕ} {u : MachineState M}
    (hc : (labelsOf (c₁++.br nl::.label nl::c₂)).Nodup)
    (hl : l ∉ labelsOf (c₁++.br nl::.label nl::c₂))
    (h1 : Reaches (V.code.step c₁) (.inside 0,s) (.gone nl,t))
    (h2 : Reaches (V.code.step c₂) (.inside 0,t) (.gone l,u)) :
    Reaches (V.code.step (c₁++.br nl::.label nl::c₂)) (.inside 0,s) (.gone l,u) := by
  have hsplit : c₁++.br nl::.label nl::c₂ = c₁++[.br nl]++.label nl::c₂ := by simp
  have hnl : nl ∉ labelsOf (c₁++[.br nl]) := by
    rw [hsplit,labelsOf_append] at hc
    intro hmem
    exact (List.nodup_append.mp hc).2.2 nl hmem nl List.mem_cons_self rfl
  have hgoto : V.code.goto (c₁++.br nl::.label nl::c₂) nl = .inside (c₁++[Item.br nl]).length := by
    rw [hsplit]
    exact LabelledCode.goto_append hnl rfl
  have hr1 := LabelledCode.reaches_left (I := V.code) hc h1
  rw [hgoto] at hr1
  have hget : (c₁++.br nl::.label nl::c₂)[(c₁++[Item.br nl]).length]? = some (.label nl) := by
    rw [hsplit]
    simp
  have hlabel : V.code.step (c₁++.br nl::.label nl::c₂) (.inside (c₁++[Item.br nl]).length,t) =
      some (.inside (c₁++[Item.br nl,Item.label nl]).length,t) := by
    rw [LabelledCode.step_fall hget rfl]
    simp
  have hright : c₁++.br nl::.label nl::c₂ = c₁++[.br nl,.label nl]++c₂ := by simp
  have hr2 := LabelledCode.reaches_right (I := V.code) (c₁++[.br nl,.label nl])
    (by rwa [← hright]) h2
  rw [← hright,LabelledCode.goto_of_notMem hl] at hr2
  exact hr1.trans (.head hlabel hr2)

theorem Fresh.notMem {n m l : ℕ} {E : Set ℕ} (h : Fresh n m c E) (hl : l ≤ n) : l ∉ labelsOf c :=
  fun hmem => absurd (h.bounds l hmem).1 (Nat.not_lt_of_le hl)

theorem chosen_ne (v : BitVec 32) (lt lf : ℕ) :
    chosen (truth (v != 0)) lt lf = chosen v lt lf := by
  rw [chosen_truth]
  by_cases hv : v = 0
  · simp [chosen,hv]
  · simp [chosen]

theorem chosen_le {n : ℕ} (v : BitVec 32) (hlt : lt ≤ n) (hlf : lf ≤ n) : chosen v lt lf ≤ n := by
  unfold chosen
  split_ifs
  · exact hlf
  · exact hlt

theorem cond_or (type : Option MType)
    (h1 : CondCode V e1 lt (g.curTempLabel+1) { g with curTempLabel := g.curTempLabel+1 } c₁ g₁)
    (h2 : CondCode V e2 lt lf g₁ c₂ g') : ∃ c, CondCode V (.bin type .ExpOr e1 e2) lt lf g c g' := by
  have hgen : genCond (.bin type .ExpOr e1 e2) lt lf g =
      .ok ((),c₁++.br (g.curTempLabel+1)::.label (g.curTempLabel+1)::c₂,g') := by
    show genCondOr (genCond e1) (genCond e2) lt lf g = _
    rw [genCondOr,Gen.bind_label]
    exact Gen.bind_of_ok h1.gen (Gen.bind_of_ok (c := [_,_]) rfl h2.gen)
  refine ⟨_,hgen,h1.temp_le.trans h2.temp_le,h2.slots_eq.trans h1.slots_eq,?_⟩
  intro hlt hlf s
  have hfresh := fresh_genCond hgen
  have hlabel : g.curTempLabel+1 ≤ g₁.curTempLabel := (fresh_genCond h1.gen).le
  obtain ⟨s₁,hr₁,hk₁,ht₁⟩ := h1.runs (hlt.trans (Nat.le_succ _)) (Nat.le_refl _) s
  obtain ⟨s₂,hr₂,hk₂,ht₂⟩ := h2.runs (by omega) (by omega) s₁
  rw [h1.slots_eq,hk₁.1] at hr₂ ht₂
  rw [evaluate_or]
  by_cases hv : (evaluate (V.valuation g.slots s.mem) e1).1 = 0
  · rw [if_pos hv]
    rw [chosen,if_pos hv] at hr₁
    refine ⟨s₂,?_,hk₁.trans hk₂ h1.temp_le,?_⟩
    · rw [chosen_ne]
      exact joined_right hfresh.nodup (hfresh.notMem (chosen_le _ hlt hlf)) hr₁ hr₂
    · rw [ht₂,ht₁,List.append_assoc]
  · rw [if_neg hv]
    rw [chosen,if_neg hv] at hr₁
    exact ⟨s₁,joined_left hfresh.nodup (hfresh.notMem hlt) hr₁,hk₁,ht₁⟩

theorem cond_and (type : Option MType)
    (h1 : CondCode V e1 (g.curTempLabel+1) lf { g with curTempLabel := g.curTempLabel+1 } c₁ g₁)
    (h2 : CondCode V e2 lt lf g₁ c₂ g') :
    ∃ c, CondCode V (.bin type .ExpAnd e1 e2) lt lf g c g' := by
  have hgen : genCond (.bin type .ExpAnd e1 e2) lt lf g =
      .ok ((),c₁++.br (g.curTempLabel+1)::.label (g.curTempLabel+1)::c₂,g') := by
    show genCondAnd (genCond e1) (genCond e2) lt lf g = _
    rw [genCondAnd,Gen.bind_label]
    exact Gen.bind_of_ok h1.gen (Gen.bind_of_ok (c := [_,_]) rfl h2.gen)
  refine ⟨_,hgen,h1.temp_le.trans h2.temp_le,h2.slots_eq.trans h1.slots_eq,?_⟩
  intro hlt hlf s
  have hfresh := fresh_genCond hgen
  have hlabel : g.curTempLabel+1 ≤ g₁.curTempLabel := (fresh_genCond h1.gen).le
  obtain ⟨s₁,hr₁,hk₁,ht₁⟩ := h1.runs (Nat.le_refl _) (hlf.trans (Nat.le_succ _)) s
  obtain ⟨s₂,hr₂,hk₂,ht₂⟩ := h2.runs (by omega) (by omega) s₁
  rw [h1.slots_eq,hk₁.1] at hr₂ ht₂
  rw [evaluate_and]
  by_cases hv : (evaluate (V.valuation g.slots s.mem) e1).1 = 0
  · rw [if_pos hv]
    rw [chosen,if_pos hv] at hr₁
    exact ⟨s₁,joined_left hfresh.nodup (hfresh.notMem hlf) hr₁,hk₁,ht₁⟩
  · rw [if_neg hv]
    rw [chosen,if_neg hv] at hr₁
    refine ⟨s₂,?_,hk₁.trans hk₂ h1.temp_le,?_⟩
    · rw [chosen_ne]
      exact joined_right hfresh.nodup (hfresh.notMem (chosen_le _ hlt hlf)) hr₁ hr₂
    · rw [ht₂,ht₁,List.append_assoc]

theorem cond_not (type : Option MType) (h : CondCode V e lf lt g c g') :
    CondCode V (.not type e) lt lf g c g' := by
  refine ⟨h.gen,h.temp_le,h.slots_eq,?_⟩
  intro hlt hlf s
  obtain ⟨s',hr,hk,ht⟩ := h.runs hlf hlt s
  refine ⟨s',?_,hk,ht⟩
  rw [evaluate_not,chosen_test]
  exact hr

/-- Every condition has code, which evaluates it. -/
theorem cond_code (he : IntCond e) (lt lf : ℕ) (g : GenState) (hN : Numbered V g e.decls) :
    ∃ c g', CondCode V e lt lf g c g' := by
  induction he generalizing g lt lf with
  | int l => exact cond_int l lt lf hN
  | comp htag he1 he2 => exact cond_comp htag he1 he2 lt lf hN
  | not type _ ih =>
    obtain ⟨c,g',h⟩ := ih lf lt g hN
    exact ⟨c,g',cond_not type h⟩
  | or type _ _ ih1 ih2 =>
    obtain ⟨c₁,g₁,h1⟩ := ih1 lt (g.curTempLabel+1) { g with curTempLabel := g.curTempLabel+1 }
      (hN.of_le (Nat.le_refl _) fun x hx => ⟨List.mem_append_left _ hx,rfl⟩)
    obtain ⟨c₂,g₂,h2⟩ := ih2 lt lf g₁ (hN.of_le h1.temp_le
      fun x hx => ⟨List.mem_append_right _ hx,by rw [h1.slots_eq]⟩)
    obtain ⟨c,h⟩ := cond_or type h1 h2
    exact ⟨c,g₂,h⟩
  | and type _ _ ih1 ih2 =>
    obtain ⟨c₁,g₁,h1⟩ := ih1 (g.curTempLabel+1) lf { g with curTempLabel := g.curTempLabel+1 }
      (hN.of_le (Nat.le_refl _) fun x hx => ⟨List.mem_append_left _ hx,rfl⟩)
    obtain ⟨c₂,g₂,h2⟩ := ih2 lt lf g₁ (hN.of_le h1.temp_le
      fun x hx => ⟨List.mem_append_right _ hx,by rw [h1.slots_eq]⟩)
    obtain ⟨c,h⟩ := cond_and type h1 h2
    exact ⟨c,g₂,h⟩

end Conditions
end PucRio.Monga
