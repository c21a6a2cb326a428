import PucRio.Monga.IntPrograms

/-! The code of a function over `int` does what the function means. Each command is run where its
code stands in that of the function, with the variables in scope in memory. -/
namespace PucRio.Monga
open LabelledCode

section Machine

/-- The `int` variables by their numbers, and how many have been allocated. -/
structure Memory where
  cell : Bool → ℕ → BitVec 32
  allocated : ℕ

def Memory.set (m : Memory) (isGlobal : Bool) (n : ℕ) (v : BitVec 32) : Memory :=
  { m with cell := Function.update m.cell isGlobal (Function.update (m.cell isGlobal) n v) }

/-- The machine of code over `int`; `init n` is in the memory that is allocated for the `n`-th time. -/
def intMachine (init : ℕ → BitVec 32) (args : ℕ → Option (BitVec 32)) : Machine Memory where
  args := args
  read m isGlobal n := m.cell isGlobal n
  effect
    | .alloca n .VarInt 0,value,m =>
      some (value,{ m.set false n (init m.allocated) with allocated := m.allocated+1 })
    | .store .VarInt false t (some .VarInt) (.temp n),value,m =>
      some (value,m.set false n (value t))
    | .store .VarInt false t (some .VarInt) (.global n),value,m =>
      some (value,m.set true n (value t))
    | _,_,_ => none

theorem cell_set_self (m : Memory) (isGlobal : Bool) (n : ℕ) (v : BitVec 32) :
    (m.set isGlobal n v).cell isGlobal n = v := by
  simp [Memory.set]

theorem cell_set_of_ne {m : Memory} {slot slot' : Slot} {v : BitVec 32} (h : slot' ≠ slot) :
    (m.set slot.isGlobal slot.varNumber v).cell slot'.isGlobal slot'.varNumber =
      m.cell slot'.isGlobal slot'.varNumber := by
  by_cases hglobal : slot'.isGlobal = slot.isGlobal
  · have hnumber : slot'.varNumber ≠ slot.varNumber := by
      intro hn
      cases slot
      cases slot'
      simp only at hglobal hn
      exact h (by rw [hglobal,hn])
    simp [Memory.set,hglobal,hnumber]
  · simp [Memory.set,hglobal]

end Machine

section Behaviour
variable {M : Type} {V : Machine M} {whole : List Item} {x y : Control ℕ × MachineState M}
  {pc pc' n k : ℕ} {G R R' : Store → M → Prop} {o : Option Outcome}

/-- What the code does from `x` on where the source has the outcome `o`: it comes to `pc`, or to a
`ret` with the value; and where there is no outcome yet it makes `n` steps. -/
def Machine.Behaves (V : Machine M) (whole : List Item) (G : Store → M → Prop)
    (x : Control ℕ × MachineState M) (pc : ℕ) (R : Store → M → Prop) (n : ℕ) :
    Option Outcome → Prop
  | some (.done σ) => ∃ s, Reaches (V.code.step whole) x (.inside pc,s) ∧ R σ s.mem
  | some (.returned σ v) => ∃ k t s, whole[k]? = some (.ret .VarInt t) ∧
      Reaches (V.code.step whole) x (.inside k,s) ∧ V.value s t = v ∧ G σ s.mem
  | none => ∃ y, runSteps (V.code.step whole) n x = some y

namespace Machine.Behaves

theorem head (h : Reaches (V.code.step whole) x y) (hy : V.Behaves whole G y pc R n o) :
    V.Behaves whole G x pc R n o := by
  match o,hy with
  | some (.done σ),hy =>
    obtain ⟨s,hs,hR⟩ := hy
    exact ⟨s,h.trans hs,hR⟩
  | some (.returned σ v),hy =>
    obtain ⟨k,t,s,hk,hs,hv⟩ := hy
    exact ⟨k,t,s,hk,h.trans hs,hv⟩
  | none,hy => exact h.exists_runSteps hy

/-- A step is one more where there is no outcome. -/
theorem step (h : V.code.step whole x = some y) (hy : V.Behaves whole G y pc R n o) :
    V.Behaves whole G x pc R (n+1) o := by
  match o,hy with
  | some (.done σ),hy => exact head (o := some (.done σ)) (.single h) hy
  | some (.returned σ v),hy => exact head (o := some (.returned σ v)) (.single h) hy
  | none,hy =>
    obtain ⟨z,hz⟩ := hy
    exact ⟨z,by rw [runSteps_succ h,hz]⟩

theorem mono (h : V.Behaves whole G x pc R n o) (hR : ∀ σ m, R σ m → R' σ m) (hk : k ≤ n) :
    V.Behaves whole G x pc R' k o := by
  match o,h with
  | some (.done σ),h =>
    obtain ⟨s,hs,hs'⟩ := h
    exact ⟨s,hs,hR _ _ hs'⟩
  | some (.returned σ v),h => exact h
  | none,h => exact exists_runSteps_of_le h hk

/-- What follows begins where a command is done. -/
theorem next {f : Store → Option Outcome} (h : V.Behaves whole G x pc R n o)
    (hf : ∀ σ s, R σ s.mem → V.Behaves whole G (.inside pc,s) pc' R' n (f σ)) :
    V.Behaves whole G x pc' R' n (o.bind (Outcome.next f)) := by
  match o,h with
  | some (.done σ),h =>
    obtain ⟨s,hs,hR⟩ := h
    exact head hs (hf σ s hR)
  | some (.returned σ v),h => exact h
  | none,h => exact h

/-- Control goes on from where a command is done. -/
theorem arrive (h : V.Behaves whole G x pc R n o)
    (hr : ∀ s, Reaches (V.code.step whole) (.inside pc,s) (.inside pc',s)) :
    V.Behaves whole G x pc' R n o := by
  match o,h with
  | some (.done σ),h =>
    obtain ⟨s,hs,hR⟩ := h
    exact ⟨s,hs.trans (hr s),hR⟩
  | some (.returned σ v),h => exact h
  | none,h => exact h

end Machine.Behaves

theorem reaches_label {l : ℕ} {c : List Item} (hat : StandsAt whole pc (.label l::c))
    (s : MachineState M) : Reaches (V.code.step whole) (.inside pc,s) (.inside (pc+1),s) :=
  .single (step_fall hat.getElem? rfl)

theorem reaches_br {l : ℕ} {c : List Item} (hat : StandsAt whole pc (.br l::c))
    (hl : V.code.goto whole l = .inside k) (s : MachineState M) :
    Reaches (V.code.step whole) (.inside pc,s) (.inside k,s) := by
  rw [← hl]
  exact .single (step_jump hat.getElem? rfl)

/-- A loop whose condition is evaluated in two places, `first` and `again`, in front of its body at
`w` and behind it. -/
theorem behaves_passes {holds : Store → Bool} {body : Store → Option Outcome} {first again w b : ℕ}
    {l : ℕ} {c : List Item} (hat : StandsAt whole w (.label l::c))
    (htest : ∀ pc, pc = first ∨ pc = again → ∀ σ s, R σ s.mem → ∃ s',
      Reaches (V.code.step whole) (.inside pc,s) (.inside (if holds σ then w else b),s') ∧
        R σ s'.mem)
    (hbody : ∀ σ s, R σ s.mem → V.Behaves whole G (.inside (w+1),s) again R n (body σ))
    {σ : Store} {s : MachineState M} (hk : k ≤ n) (hpc : pc = first ∨ pc = again)
    (hs : R σ s.mem) : V.Behaves whole G (.inside pc,s) b R k (passes holds body k σ) := by
  induction k generalizing pc σ s with
  | zero => exact ⟨_,rfl⟩
  | succ k ih =>
    obtain ⟨s',hr,hs'⟩ := htest pc hpc σ s hs
    apply Machine.Behaves.head hr
    rw [passes]
    cases hholds : holds σ with
    | true =>
      rw [if_pos rfl,if_pos rfl]
      apply Machine.Behaves.step (step_fall hat.getElem? rfl)
      apply ((hbody σ s' hs').mono (fun _ _ h => h) (Nat.le_of_succ_le hk)).next
      intro σ₁ s₁ hs₁
      exact ih (Nat.le_of_succ_le hk) (.inr rfl) hs₁
    | false =>
      rw [if_neg Bool.false_ne_true,if_neg Bool.false_ne_true]
      exact ⟨s',.refl ..,hs'⟩

end Behaviour

section Variables
variable {M : Type} {V : Machine M} {g g' : GenState} {live live' : Live} {slots slots' : Decl → Slot}
  {σ : Store} {m : M} {e : TExp}

/-- The variables in scope have places of their own, and the parameters are known. -/
structure Placed (args : ℕ → Option (BitVec 32)) (g : GenState) (live : Live) : Prop where
  temps : ∀ n, g.curTempVar < n → args n = none
  params : ∀ decl, (.VarParam,decl) ∈ live → (args (g.slots decl).varNumber).isSome
  le : ∀ decl, (.VarDec,decl) ∈ live → (g.slots decl).varNumber ≤ g.curTempVar
  apart : ∀ d d', (.VarDec,d) ∈ live → (.VarDec,d') ∈ live → g.slots d = g.slots d' → d = d'

/-- The generator goes on without changing the records of what is in scope. -/
structure Spares (live : Live) (g g' : GenState) : Prop where
  temp_le : g.curTempVar ≤ g'.curTempVar
  label_le : g.curTempLabel ≤ g'.curTempLabel
  slots : ∀ v ∈ live, g'.slots v.2 = g.slots v.2

theorem Spares.refl (live : Live) (g : GenState) : Spares live g g :=
  ⟨Nat.le_refl _,Nat.le_refl _,fun _ _ => rfl⟩

theorem Spares.trans {g₁ : GenState} (h : Spares live g g₁) (h' : Spares live g₁ g') :
    Spares live g g' :=
  ⟨h.temp_le.trans h'.temp_le,h.label_le.trans h'.label_le,
    fun v hv => (h'.slots v hv).trans (h.slots v hv)⟩

theorem Spares.subset (h : Spares live' g g') (hl : live ⊆ live') : Spares live g g' :=
  ⟨h.temp_le,h.label_le,fun v hv => h.slots v (hl hv)⟩

theorem spares_of_emits {E : Set ℕ} {D : Set Decl} {c : List Item} (h : Emits E D g c g')
    (hD : ∀ v ∈ live, v.2 ∉ D) : Spares live g g' :=
  ⟨h.temp_le,h.fresh.le,fun v hv => h.slots v.2 (hD v hv)⟩

theorem spares_genCmd {cmd : TCmd} {c : List Item} (hs : cmd.Scoped live)
    (h : genCmd cmd g = .ok ((),c,g')) : Spares live g g' :=
  spares_of_emits (orderly_genCmd (D := {d | d ∈ cmd.declared}) cmd (fun _ hd => hd) ∅ _ _ _ _ h)
    fun _ hv => TCmd.Scoped.notMem_declared cmd hs hv

theorem spares_genCond {lt lf : ℕ} {c : List Item} (h : genCond e lt lf g = .ok ((),c,g')) :
    Spares live g g' :=
  spares_of_emits ((orderly_gens (D := ∅) e).cond Set.univ lt lf trivial trivial _ _ _ _ h)
    fun _ _ => Set.notMem_empty _

theorem spares_genExp {r : ℕ} {c : List Item} (h : genExp e g = .ok (r,c,g')) :
    Spares live g g' :=
  spares_of_emits ((orderly_gens (D := ∅) e).exp ∅ _ _ _ _ h) fun _ _ => Set.notMem_empty _

theorem Placed.of_spares {args : ℕ → Option (BitVec 32)} (h : Placed args g live)
    (hs : Spares live g g') : Placed args g' live where
  temps n hn := h.temps n (hs.temp_le.trans_lt hn)
  params decl hd := by
    rw [hs.slots _ hd]
    exact h.params decl hd
  le decl hd := by
    rw [hs.slots _ hd]
    exact (h.le decl hd).trans hs.temp_le
  apart d d' hd hd' heq := by
    rw [hs.slots _ hd,hs.slots _ hd'] at heq
    exact h.apart d d' hd hd' heq

/-- The memory has the values of the `int` variables in scope. -/
structure Matches (V : Machine M) (slots : Decl → Slot) (live : Live) (σ : Store) (m : M) :
    Prop where
  value : ∀ v ∈ live, v.2.type = ⟨.VarInt,0⟩ → σ.value v.1 v.2 = V.valuation slots m v.1 v.2

theorem valuation_eq {v : DecTag × Decl} (h : slots' v.2 = slots v.2) :
    V.valuation slots' m v.1 v.2 = V.valuation slots m v.1 v.2 := by
  obtain ⟨tag,decl⟩ := v
  cases tag <;> simp only [Machine.valuation,h]

theorem Matches.congr (h : Matches V slots live σ m) (hs : ∀ v ∈ live, slots' v.2 = slots v.2) :
    Matches V slots' live σ m where
  value v hv htype := (h.value v hv htype).trans (valuation_eq (hs v hv)).symm

theorem Matches.subset (h : Matches V slots live' σ m) (hl : live ⊆ live') :
    Matches V slots live σ m where
  value v hv htype := h.value v (hl hv) htype

/-- The variables of an operand are over `int`. -/
theorem IntOperand.mem_decls (he : IntOperand e) : ∀ v ∈ e.decls, v ∈ e.variables ∧
    v.2.type = ⟨.VarInt,0⟩ := by
  induction he with
  | int l => exact List.forall_mem_nil _
  | var tag decl hd => exact List.forall_mem_singleton.mpr ⟨List.mem_cons_self,hd⟩
  | bin _ _ _ ih1 ih2 =>
    intro v hv
    obtain hv | hv := List.mem_append.mp hv
    · exact ⟨List.mem_append_left _ (ih1 v hv).1,(ih1 v hv).2⟩
    · exact ⟨List.mem_append_right _ (ih2 v hv).1,(ih2 v hv).2⟩

theorem IntCond.mem_decls (he : IntCond e) : ∀ v ∈ e.decls, v ∈ e.variables ∧
    v.2.type = ⟨.VarInt,0⟩ := by
  have happend {e1 e2 : TExp}
      (h1 : ∀ v ∈ e1.decls, v ∈ e1.variables ∧ v.2.type = ⟨.VarInt,0⟩)
      (h2 : ∀ v ∈ e2.decls, v ∈ e2.variables ∧ v.2.type = ⟨.VarInt,0⟩) :
      ∀ v ∈ e1.decls++e2.decls, v ∈ e1.variables++e2.variables ∧ v.2.type = ⟨.VarInt,0⟩ := by
    intro v hv
    obtain hv | hv := List.mem_append.mp hv
    · exact ⟨List.mem_append_left _ (h1 v hv).1,(h1 v hv).2⟩
    · exact ⟨List.mem_append_right _ (h2 v hv).1,(h2 v hv).2⟩
  induction he with
  | int l => exact List.forall_mem_nil _
  | comp _ he1 he2 => exact happend he1.mem_decls he2.mem_decls
  | or _ _ _ ih1 ih2 => exact happend ih1 ih2
  | and _ _ _ ih1 ih2 => exact happend ih1 ih2
  | not _ _ ih => exact ih

/-- What an expression reads is numbered. -/
theorem Placed.numbered (h : Placed V.args g live) {l : List (DecTag × Decl)} (hl : ∀ v ∈ l, v ∈ live) :
    Numbered V g l where
  temps := h.temps
  params decl hd := h.params decl (hl _ hd)

variable {whole c : List Item} {s : MachineState M} {pc lt lf : ℕ}

/-- The code of a condition sends control where the source goes on. -/
theorem reaches_cond (he : IntCond e) (hv : ∀ v ∈ e.variables, v ∈ live)
    (h : genCond e lt lf g = .ok ((),c,g')) (hp : Placed V.args g live) (hlt : lt ≤ g.curTempLabel)
    (hlf : lf ≤ g.curTempLabel) (hn : (labelsOf whole).Nodup) (hat : StandsAt whole pc c)
    (hm : Matches V g.slots live σ s.mem) : ∃ s',
    Reaches (V.code.step whole) (.inside pc,s)
      (V.code.goto whole (if e.holds σ then lt else lf),s') ∧ s'.mem = s.mem := by
  have hdecls := he.mem_decls
  obtain ⟨c',g₁,hC⟩ := cond_code he lt lf g (hp.numbered fun v hd => hv v (hdecls v hd).1)
  cases hC.gen.symm.trans h
  obtain ⟨s',hr,hk,-⟩ := hC.runs hlt hlf s
  have heval : evaluate (V.valuation g.slots s.mem) e = evaluate σ.value e :=
    evaluate_congr he fun v hd => (hm.value v (hv v (hdecls v hd).1) (hdecls v hd).2).symm
  rw [chosen_eq_ite,heval] at hr
  exact ⟨s',hat.gone (I := V.code) hn hr,hk.1⟩

/-- The code of an operand has its value. -/
theorem straight_operand (he : IntOperand e) (hv : ∀ v ∈ e.variables, v ∈ live) {r : ℕ}
    (h : genExp e g = .ok (r,c,g')) (hp : Placed V.args g live) (hm : Matches V g.slots live σ s.mem) :
    ∃ s', V.code.Straight c s s' ∧ s'.mem = s.mem ∧ V.value s' r = intValue σ.value e := by
  have hdecls := he.mem_decls
  obtain ⟨r',c',g₁,hC⟩ := operand_code he g (hp.numbered fun v hd => hv v (hdecls v hd).1)
  cases hC.gen.symm.trans h
  obtain ⟨s',hs,hk,-,hvalue⟩ := hC.runs s
  have heval : intValue (V.valuation g.slots s.mem) e = intValue σ.value e :=
    intValue_congr he fun v hd => (hm.value v (hv v (hdecls v hd).1) (hdecls v hd).2).symm
  exact ⟨s',hs,hk.1,hvalue.trans heval⟩

end Variables

section Commands
variable {init : ℕ → BitVec 32} {args : ℕ → Option (BitVec 32)} {whole c : List Item}
  {G : Store → Memory → Prop} {n pc : ℕ} {live : Live} {g g' : GenState} {σ : Store}
  {s : MachineState Memory} {slots : Decl → Slot} {m : Memory} {e : TExp}

/-- The variables in scope are in memory, and as many have been allocated as declared. -/
structure InMemory (init : ℕ → BitVec 32) (args : ℕ → Option (BitVec 32)) (slots : Decl → Slot)
    (live : Live) (σ : Store) (m : Memory) : Prop extends
    Matches (intMachine init args) slots live σ m where
  declared : σ.declared = m.allocated

theorem InMemory.congr {slots' : Decl → Slot} (h : InMemory init args slots live σ m)
    (hs : ∀ v ∈ live, slots' v.2 = slots v.2) : InMemory init args slots' live σ m :=
  ⟨h.toMatches.congr hs,h.declared⟩

theorem InMemory.subset {live' : Live} (h : InMemory init args slots live' σ m)
    (hl : live ⊆ live') : InMemory init args slots live σ m :=
  ⟨h.toMatches.subset hl,h.declared⟩

/-- A variable that is set has its own place. -/
theorem InMemory.set (h : InMemory init args g.slots live σ m)
    (hp : Placed args g live) {decl : Decl} (hd : (.VarDec,decl) ∈ live)
    (v : BitVec 32) : InMemory init args g.slots live (σ.set .VarDec decl v)
      (m.set (g.slots decl).isGlobal (g.slots decl).varNumber v) where
  value w hw htype := by
    by_cases heq : w = (.VarDec,decl)
    · rw [heq,Store.set_self]
      exact (cell_set_self m _ _ v).symm
    · rw [Store.set_of_ne heq,h.value w hw htype]
      obtain ⟨tag,d⟩ := w
      cases tag with
      | VarParam => rfl
      | VarDec =>
        refine (cell_set_of_ne fun hslot => ?_).symm
        exact heq (by rw [hp.apart d decl hw hd hslot])
  declared := h.declared

/-- The code of `x`, where it stands in the whole, does what `run` says. -/
def Does (init : ℕ → BitVec 32) (args : ℕ → Option (BitVec 32)) (whole : List Item)
    (G : Store → Memory → Prop) (n : ℕ) (live : Live) (x : Gen Unit)
    (run : Store → Option Outcome) : Prop :=
  ∀ g c g' pc σ s, x g = .ok ((),c,g') → Placed args g live →
    (∀ σ m, InMemory init args g.slots live σ m → G σ m) → StandsAt whole pc c →
    InMemory init args g.slots live σ s.mem →
    (intMachine init args).Behaves whole G (.inside pc,s) (pc+c.length)
      (InMemory init args g.slots live) n (run σ)

theorem genReturn_ok (he : IntOperand e) {u : Unit} (h : genReturn (some e) g = .ok (u,c,g')) :
    ∃ t c₁, genExp e g = .ok (t,c₁,g') ∧ c = c₁++[.ret .VarInt t] := by
  obtain ⟨t,c₁,g₁,_,_,_,h₁,h,heq⟩ := Gen.bind_ok h
  cases heq
  rw [he.type_eq,Gen.bind_name] at h
  cases h
  exact ⟨t,c₁,h₁,rfl⟩

theorem genCmdVar_ok (he : IntOperand e) {decl : Decl} (hd : decl.type = ⟨.VarInt,0⟩) {u : Unit}
    (h : genCmdVar (.id .VarDec decl) e g = .ok (u,c,g')) :
    ∃ t c₁, genExp e g = .ok (t,c₁,g') ∧ c = c₁++[.store .VarInt false t (some .VarInt)
      (if (g'.slots decl).isGlobal then .global (g'.slots decl).varNumber
        else .temp (g'.slots decl).varNumber)] := by
  obtain ⟨t,c₁,g₁,_,_,_,h₁,h,heq⟩ := Gen.bind_ok h
  cases heq
  obtain ⟨t',c₂,g₂,_,_,_,h₂,h,heq⟩ := Gen.bind_ok h
  cases heq
  have hnew : genNewPtr e t = pure t ∧ e.isNew = false := by
    cases he <;> exact ⟨rfl,rfl⟩
  rw [hnew.1] at h₂
  cases h₂
  obtain ⟨_,_,g₃,_,_,_,h₃,h,heq⟩ := Gen.bind_ok h
  cases heq
  cases h₃
  rw [he.type_eq,Gen.bind_name] at h
  cases h
  refine ⟨t,c₁,h₁,?_⟩
  rw [hnew.2,TVar.targetName,hd]
  rfl

theorem does_ret (he : IntOperand e) (hv : ∀ v ∈ e.variables, v ∈ live) :
    Does init args whole G n live (genCmd (.ret (some e)))
      fun σ => some (.returned σ (intValue σ.value e)) := by
  intro g c g' pc σ s h hp hG hat hm
  obtain ⟨t,c₁,h₁,rfl⟩ := genReturn_ok he h
  obtain ⟨s₁,hs₁,hmem,hvalue⟩ := straight_operand he hv h₁ hp hm.toMatches
  refine ⟨_,t,s₁,hat.right.getElem?,hat.left.straight hs₁,hvalue,?_⟩
  rw [hmem]
  exact hG σ s.mem hm

theorem does_assign (he : IntOperand e) (hv : ∀ v ∈ e.variables, v ∈ live) {decl : Decl}
    (hd : decl.type = ⟨.VarInt,0⟩) (hlive : (.VarDec,decl) ∈ live) :
    Does init args whole G n live (genCmd (.assign (.id .VarDec decl) e))
      fun σ => some (.done (σ.set .VarDec decl (intValue σ.value e))) := by
  intro g c g' pc σ s h hp _ hat hm
  obtain ⟨t,c₁,h₁,rfl⟩ := genCmdVar_ok he hd h
  obtain ⟨s₁,hs₁,hmem,hvalue⟩ := straight_operand he hv h₁ hp hm.toMatches
  have hslot : g'.slots decl = g.slots decl := (spares_genExp h₁).slots (.VarDec,decl) hlive
  have hexec : (intMachine init args).exec (.store .VarInt false t (some .VarInt)
      (if (g'.slots decl).isGlobal then .global (g'.slots decl).varNumber
        else .temp (g'.slots decl).varNumber)) s₁ =
      some (none,{ s₁ with
        temps := (intMachine init args).value s₁
        mem := s.mem.set (g.slots decl).isGlobal (g.slots decl).varNumber
          (intValue σ.value e) }) := by
    rw [hslot,← hmem,← hvalue]
    cases (g.slots decl).isGlobal <;> rfl
  refine ⟨_,hat.straight (hs₁.append (.single hexec)),?_⟩
  exact hm.set hp hlive _

/-- The code that is generated later does the same. -/
theorem Does.run {x : Gen Unit} {f : Store → Option Outcome} (hx : Does init args whole G n live x f)
    {g₁ : GenState} (hspares : Spares live g g₁) (hp : Placed args g live)
    (hG : ∀ σ m, InMemory init args g.slots live σ m → G σ m) (h : x g₁ = .ok ((),c,g'))
    (hat : StandsAt whole pc c) (hm : InMemory init args g.slots live σ s.mem) :
    (intMachine init args).Behaves whole G (.inside pc,s) (pc+c.length)
      (InMemory init args g.slots live) n (f σ) := by
  have hslots : ∀ v ∈ live, g.slots v.2 = g₁.slots v.2 := fun v hv => (hspares.slots v hv).symm
  apply (hx g₁ c g' pc σ s h (hp.of_spares hspares) (fun σ m h => hG σ m (h.congr hslots)) hat
    (hm.congr hspares.slots)).mono _ (Nat.le_refl n)
  exact fun σ m h => h.congr hslots

theorem Does.andThen {x y : Gen Unit} {f k : Store → Option Outcome}
    (hx : Does init args whole G n live x f) (hy : Does init args whole G n live y k)
    (hs : ∀ g c g', x g = .ok ((),c,g') → Spares live g g') :
    Does init args whole G n live (x >>= fun _ => y) fun σ => (f σ).bind (Outcome.next k) := by
  intro g c g' pc σ s h hp hG hat hm
  obtain ⟨_,c₁,g₁,_,c₂,g₂,h₁,h₂,heq⟩ := Gen.bind_ok h
  cases heq
  apply (hx g c₁ g₁ pc σ s h₁ hp hG hat.left hm).next
  intro σ₁ s₁ hm₁
  rw [List.length_append,← Nat.add_assoc]
  exact hy.run (hs g c₁ g₁ h₁) hp hG h₂ hat.right hm₁

end Commands

section Blocks
variable {init : ℕ → BitVec 32} {args : ℕ → Option (BitVec 32)}
  {whole c : List Item} {G : Store → Memory → Prop} {n : ℕ} {live : Live} {g g' : GenState}
  {σ : Store} {s : MachineState Memory} {m : Memory} {d : Decl}

/-- The generator, when it has given a number to a variable. -/
def GenState.withVar (g : GenState) (d : Decl) (isGlobal : Bool) : GenState :=
  { g with
    curTempVar := g.curTempVar+1
    slots := Function.update g.slots d ⟨g.curTempVar+1,isGlobal⟩ }

theorem Live.declare_cons (live : Live) (tag : DecTag) (d : Decl) (vars : List Decl) :
    (live.declare tag [d]).declare tag vars = live.declare tag (d::vars) := by
  ext v
  simp only [declare,Set.mem_ofPred_eq,List.mem_cons,List.not_mem_nil,or_false]
  tauto

theorem Live.declare_nil (live : Live) (tag : DecTag) : live.declare tag [] = live := by
  ext v
  simp [declare]

theorem Live.subset_declare (live : Live) (tag : DecTag) (vars : List Decl) :
    live ⊆ live.declare tag vars := fun _ hv => .inl hv

theorem Live.New.tail {tag : DecTag} {vars : List Decl} (h : live.New (d::vars)) :
    (live.declare tag [d]).New vars where
  nodup := (List.nodup_cons.mp h.nodup).2
  new d' hd' tag' hmem := by
    obtain hmem | ⟨-,hmem⟩ := hmem
    · exact h.new d' (List.mem_cons_of_mem d hd') tag' hmem
    · obtain rfl := List.mem_singleton.mp hmem
      exact (List.nodup_cons.mp h.nodup).1 hd'

theorem Live.New.ne {vars : List Decl} (h : live.New (d::vars)) {v : DecTag × Decl}
    (hv : v ∈ live) : v.2 ≠ d := by
  rintro rfl
  exact h.new v.2 List.mem_cons_self v.1 hv

theorem spares_withVar (h : ∀ v ∈ live, v.2 ≠ d) (isGlobal : Bool) :
    Spares live g (g.withVar d isGlobal) where
  temp_le := Nat.le_succ _
  label_le := Nat.le_refl _
  slots v hv := Function.update_of_ne (h v hv) ..

theorem Placed.declare (hp : Placed args g live) (h : ∀ v ∈ live, v.2 ≠ d) (isGlobal : Bool) :
    Placed args (g.withVar d isGlobal) (live.declare .VarDec [d]) := by
  have hold := hp.of_spares (spares_withVar h isGlobal)
  have hself : (g.withVar d isGlobal).slots d = ⟨g.curTempVar+1,isGlobal⟩ := Function.update_self ..
  have hapart {d' : Decl} (hd' : (.VarDec,d') ∈ live) :
      (g.withVar d isGlobal).slots d' ≠ (g.withVar d isGlobal).slots d := by
    intro heq
    have hle := hp.le d' hd'
    rw [hself,(spares_withVar h isGlobal).slots _ hd'] at heq
    rw [heq] at hle
    exact Nat.not_succ_le_self _ hle
  refine ⟨hold.temps,?_,?_,?_⟩
  · rintro decl (hd | ⟨htag,-⟩)
    · exact hold.params decl hd
    · cases htag
  · rintro decl (hd | ⟨-,hd⟩)
    · exact hold.le decl hd
    · obtain rfl := List.mem_singleton.mp hd
      rw [hself]
      exact Nat.le_refl _
  · rintro d₁ d₂ (h₁ | ⟨-,h₁⟩) (h₂ | ⟨-,h₂⟩) heq
    · exact hold.apart d₁ d₂ h₁ h₂ heq
    · obtain rfl := List.mem_singleton.mp h₂
      exact absurd heq (hapart h₁)
    · obtain rfl := List.mem_singleton.mp h₁
      exact absurd heq.symm (hapart h₂)
    · exact (List.mem_singleton.mp h₁).trans (List.mem_singleton.mp h₂).symm

/-- A variable that is allocated holds what is there. -/
theorem InMemory.declare (hm : InMemory init args g.slots live σ m)
    (hp : Placed args g live) (h : ∀ v ∈ live, v.2 ≠ d) :
    InMemory init args (g.withVar d false).slots (live.declare .VarDec [d]) (σ.declare d init)
      { m.set false (g.curTempVar+1) (init m.allocated) with allocated := m.allocated+1 } where
  value v hv htype := by
    obtain ⟨tag,d'⟩ := v
    obtain hv | ⟨rfl,hv⟩ := hv
    · have hne : (tag,d') ≠ (.VarDec,d) := fun heq => h _ hv (congrArg Prod.snd heq)
      have hslot : (g.withVar d false).slots d' = g.slots d' :=
        (spares_withVar h false).slots (tag,d') hv
      have hvalue : (σ.declare d init).value tag d' = σ.value tag d' := Store.set_of_ne hne
      rw [hvalue,hm.value _ hv htype,← valuation_eq (v := (tag,d')) hslot]
      cases tag with
      | VarParam => rfl
      | VarDec =>
        have hplace : (g.withVar d false).slots d' ≠ ⟨g.curTempVar+1,false⟩ := by
          intro hs
          have hle := hp.le d' hv
          rw [← hslot,hs] at hle
          exact Nat.not_succ_le_self _ hle
        exact (cell_set_of_ne hplace).symm
    · have hd : d' = d := List.mem_singleton.mp hv
      subst hd
      have hself : (g.withVar d' false).slots d' = ⟨g.curTempVar+1,false⟩ := Function.update_self ..
      have hvalue : (σ.declare d' init).value .VarDec d' = init σ.declared :=
        Store.set_self σ .VarDec d' _
      rw [hvalue,hm.declared]
      show _ = (m.set false (g.curTempVar+1) (init m.allocated)).cell
        ((g.withVar d' false).slots d').isGlobal ((g.withVar d' false).slots d').varNumber
      rw [hself]
      exact (cell_set_self m false _ _).symm
  declared := congrArg (·+1) hm.declared

theorem genDefVarList_cons_ok {isGlobal : Bool} {vars : List Decl} {u : Unit}
    (h : genDefVarList isGlobal (d::vars) g = .ok (u,c,g')) : ∃ c₂,
      genDefVarList isGlobal vars (g.withVar d isGlobal) = .ok ((),c₂,g') ∧
      c = (if isGlobal then .globalVar (g.curTempVar+1) d.type.name d.type.brackets
        else .alloca (g.curTempVar+1) d.type.name d.type.brackets)::c₂ := by
  obtain ⟨_,c₁,g₁,_,c₂,_,h₁,h₂,heq⟩ := Gen.bind_ok h
  cases heq
  cases h₁
  exact ⟨c₂,h₂,rfl⟩

/-- The code of declarations puts the variables in memory. -/
theorem straight_declare (vars : List Decl) : ∀ {live : Live} {g g' : GenState} {c : List Item}
    {σ : Store} {s : MachineState Memory}, genDefVarList false vars g = .ok ((),c,g') →
    live.New vars → (∀ d ∈ vars, d.type = ⟨.VarInt,0⟩) → Placed args g live →
    InMemory init args g.slots live σ s.mem → ∃ s', (intMachine init args).code.Straight c s s' ∧
      Placed args g' (live.declare .VarDec vars) ∧ Spares live g g' ∧
      InMemory init args g'.slots (live.declare .VarDec vars)
        (vars.foldl (fun σ d => σ.declare d init) σ) s'.mem := by
  induction vars with
  | nil =>
    intro live g g' c σ s h _ _ hp hm
    cases h
    rw [live.declare_nil]
    exact ⟨s,.nil s,hp,.refl live g,hm⟩
  | cons d vars ih =>
    intro live g g' c σ s h hnew htype hp hm
    obtain ⟨c₂,h₂,rfl⟩ := genDefVarList_cons_ok h
    rw [List.forall_mem_cons] at htype
    have hne : ∀ v ∈ live, v.2 ≠ d := fun v hv => hnew.ne hv
    let s₁ : MachineState Memory := { s with
      temps := (intMachine init args).value s
      mem := { s.mem.set false (g.curTempVar+1) (init s.mem.allocated) with
        allocated := s.mem.allocated+1 } }
    obtain ⟨s',hs,hp',hspares,hm'⟩ := ih (s := s₁) h₂ hnew.tail htype.2 (hp.declare hne false)
      (hm.declare hp hne)
    rw [live.declare_cons] at hp' hm'
    have hexec : (intMachine init args).exec
        (.alloca (g.curTempVar+1) d.type.name d.type.brackets) s = some (none,s₁) := by
      rw [htype.1]
      rfl
    exact ⟨s',.cons hexec hs,hp',
      (spares_withVar hne false).trans (hspares.subset (live.subset_declare .VarDec [d])),hm'⟩

theorem does_block {vars : List Decl} {x : Gen Unit} {run : Store → Option Outcome}
    (hnew : live.New vars) (htype : ∀ d ∈ vars, d.type = ⟨.VarInt,0⟩)
    (hx : Does init args whole G n (live.declare .VarDec vars) x run) :
    Does init args whole G n live (genDefVarList false vars >>= fun _ => x)
      fun σ => run (vars.foldl (fun σ d => σ.declare d init) σ) := by
  intro g c g' pc σ s h hp hG hat hm
  obtain ⟨_,c₁,g₁,_,c₂,g₂,h₁,h₂,heq⟩ := Gen.bind_ok h
  cases heq
  obtain ⟨s₁,hs,hp₁,hspares,hm₁⟩ := straight_declare vars h₁ hnew htype hp hm
  have houter (σ : Store) (m : Memory)
      (h : InMemory init args g₁.slots (live.declare .VarDec vars) σ m) :
      InMemory init args g.slots live σ m :=
    (h.subset (live.subset_declare .VarDec vars)).congr fun v hv => (hspares.slots v hv).symm
  apply Machine.Behaves.head (hat.left.straight hs)
  rw [List.length_append,← Nat.add_assoc]
  exact (hx g₁ c₂ g' _ _ s₁ h₂ hp₁ (fun σ m h => hG σ m (houter σ m h)) hat.right hm₁).mono houter
    (Nat.le_refl n)

end Blocks

section Control
variable {init : ℕ → BitVec 32} {args : ℕ → Option (BitVec 32)} {whole : List Item}
  {G : Store → Memory → Prop} {n : ℕ} {live : Live} {e : TExp} {cmd c1 c2 : TCmd}
  {f f1 f2 : Store → Option Outcome}

theorem Spares.labels (live : Live) (g : GenState) (k : ℕ) :
    Spares live g { g with curTempLabel := g.curTempLabel+k } :=
  ⟨Nat.le_refl _,Nat.le_add_right _ _,fun _ _ => rfl⟩

theorem does_if (hn : (labelsOf whole).Nodup) (he : IntCond e) (hv : ∀ v ∈ e.variables, v ∈ live)
    (hx : Does init args whole G n live (genCmd cmd) f) :
    Does init args whole G n live (genCmd (.ifThen e cmd))
      fun σ => if e.holds σ then f σ else some (.done σ) := by
  intro g c g' pc σ s h hp hG hat hm
  obtain ⟨k,c₁,g₁,body,rfl,h₁,h₂,rfl⟩ := genCmd_if_ok h
  have hlabels := Spares.labels live g 2
  obtain ⟨s₁,hs₁,hmem⟩ := reaches_cond he hv h₁ (hp.of_spares hlabels) (Nat.le_refl _)
    (Nat.le_succ _) hn hat.left hm.toMatches
  have hlt := hat.right.tail
  have hend := hlt.tail.right
  have hlf := hend.tail
  have hgoto := hlf.goto (I := (intMachine init args).code) rfl hn
  have hlen : pc+(c₁++Item.br (g.curTempLabel+2)::Item.label (g.curTempLabel+2)::
      (body++[Item.br (g.curTempLabel+1),Item.label (g.curTempLabel+1)])).length =
      pc+c₁.length+1+1+body.length+1+1 := by
    simp only [List.length_append,List.length_cons,List.length_nil]
    omega
  rw [hlen]
  cases hholds : e.holds σ with
  | true =>
    rw [hholds,if_pos rfl,hlt.goto (I := (intMachine init args).code) rfl hn] at hs₁
    dsimp only
    rw [hholds,if_pos rfl]
    rw [← hmem] at hm
    apply Machine.Behaves.head (hs₁.trans (reaches_label hlt s₁))
    apply (hx.run (hlabels.trans (spares_genCond h₁)) hp hG h₂ hlt.tail.left hm).arrive
    exact fun s => (reaches_br hend hgoto s).trans (reaches_label hlf s)
  | false =>
    rw [hholds,if_neg Bool.false_ne_true,hgoto] at hs₁
    dsimp only
    rw [hholds,if_neg Bool.false_ne_true]
    refine ⟨s₁,hs₁.trans (reaches_label hlf s₁),?_⟩
    rw [hmem]
    exact hm

theorem does_ifElse (hn : (labelsOf whole).Nodup) (he : IntCond e)
    (hv : ∀ v ∈ e.variables, v ∈ live) (hx1 : Does init args whole G n live (genCmd c1) f1)
    (hx2 : Does init args whole G n live (genCmd c2) f2) (hs : c1.Scoped live) :
    Does init args whole G n live (genCmd (.ifElse e c1 c2))
      fun σ => if e.holds σ then f1 σ else f2 σ := by
  intro g c g' pc σ s h hp hG hat hm
  obtain ⟨k,c₁,g₁,body1,g₂,body2,rfl,h₁,h₂,h₃,rfl⟩ := genCmd_ifElse_ok h
  have hlabels := Spares.labels live g 3
  have hspares := hlabels.trans (spares_genCond h₁)
  obtain ⟨s₁,hs₁,hmem⟩ := reaches_cond he hv h₁ (hp.of_spares hlabels) (Nat.add_le_add_left
    (Nat.le_add_left 1 2) _) (Nat.le_succ _) hn hat.left hm.toMatches
  have hlt := hat.right.tail
  have hbr := hlt.tail.right
  have hlf := hbr.tail.tail
  have hend := hlf.tail.right
  have hafter := hend.tail
  have hgoto := hafter.goto (I := (intMachine init args).code) rfl hn
  have hlen : pc+(c₁++Item.br (g.curTempLabel+1)::Item.label (g.curTempLabel+1)::(body1++
      Item.br (g.curTempLabel+3)::Item.br (g.curTempLabel+2)::Item.label (g.curTempLabel+2)::
      (body2++[Item.br (g.curTempLabel+3),Item.label (g.curTempLabel+3)]))).length =
      pc+c₁.length+1+1+body1.length+1+1+1+body2.length+1+1 := by
    simp only [List.length_append,List.length_cons,List.length_nil]
    omega
  rw [hlen]
  rw [← hmem] at hm
  cases hholds : e.holds σ with
  | true =>
    rw [hholds,if_pos rfl,hlt.goto (I := (intMachine init args).code) rfl hn] at hs₁
    dsimp only
    rw [hholds,if_pos rfl]
    apply Machine.Behaves.head (hs₁.trans (reaches_label hlt s₁))
    apply (hx1.run hspares hp hG h₂ hlt.tail.left hm).arrive
    exact fun s => (reaches_br hbr hgoto s).trans (reaches_label hafter s)
  | false =>
    rw [hholds,if_neg Bool.false_ne_true,hlf.goto (I := (intMachine init args).code) rfl hn] at hs₁
    dsimp only
    rw [hholds,if_neg Bool.false_ne_true]
    apply Machine.Behaves.head (hs₁.trans (reaches_label hlf s₁))
    apply (hx2.run (hspares.trans (spares_genCmd hs h₂)) hp hG h₃ hlf.tail.left hm).arrive
    exact fun s => (reaches_br hend hgoto s).trans (reaches_label hafter s)

theorem does_while (hn : (labelsOf whole).Nodup) (he : IntCond e)
    (hv : ∀ v ∈ e.variables, v ∈ live) (hx : Does init args whole G n live (genCmd cmd) f)
    (hs : cmd.Scoped live) :
    Does init args whole G n live (genCmd (.whileDo e cmd)) (passes e.holds f n) := by
  intro g c g' pc σ s h hp hG hat hm
  obtain ⟨k,c₁,g₁,body,g₂,c₂,rfl,h₁,h₂,h₃,rfl⟩ := genCmd_while_ok h
  have hlabels := Spares.labels live g 2
  have hcond : Spares live _ g₁ := spares_genCond h₁
  have hspares₁ := hlabels.trans hcond
  have hspares₂ := hspares₁.trans (spares_genCmd hs h₂)
  have hlt := hat.right.tail
  have hagain := hlt.tail.right
  have hlf := hagain.right.tail
  have hgoto (b : Bool) : (intMachine init args).code.goto whole
      (if b then g.curTempLabel+1 else g.curTempLabel+2) =
      .inside (if b then pc+c₁.length+1 else pc+c₁.length+1+1+body.length+c₂.length+1) := by
    cases b with
    | true => exact hlt.goto (I := (intMachine init args).code) rfl hn
    | false => exact hlf.goto (I := (intMachine init args).code) rfl hn
  have hlen : pc+(c₁++Item.br (g.curTempLabel+1)::Item.label (g.curTempLabel+1)::
      (body++(c₂++[Item.br (g.curTempLabel+2),Item.label (g.curTempLabel+2)]))).length =
      pc+c₁.length+1+1+body.length+c₂.length+1+1 := by
    simp only [List.length_append,List.length_cons,List.length_nil]
    omega
  rw [hlen]
  have hlabel : g.curTempLabel+2 ≤ g₂.curTempLabel := (hcond.trans (spares_genCmd hs h₂)).label_le
  have htest : ∀ pc', pc' = pc ∨ pc' = pc+c₁.length+1+1+body.length → ∀ σ s,
      InMemory init args g.slots live σ s.mem → ∃ s',
      Reaches ((intMachine init args).code.step whole) (.inside pc',s)
        (.inside (if e.holds σ then pc+c₁.length+1
          else pc+c₁.length+1+1+body.length+c₂.length+1),s') ∧
      InMemory init args g.slots live σ s'.mem := by
    intro pc' hpc' σ s hm
    rw [← hgoto]
    obtain rfl | rfl := hpc'
    · obtain ⟨s',hs',hmem⟩ := reaches_cond he hv h₁ (hp.of_spares hlabels) (Nat.le_succ _)
        (Nat.le_refl _) hn hat.left hm.toMatches
      exact ⟨s',hs',hmem ▸ hm⟩
    · obtain ⟨s',hs',hmem⟩ := reaches_cond he hv h₃ (hp.of_spares hspares₂) (by omega) (by omega) hn
        hagain.left (hm.toMatches.congr hspares₂.slots)
      exact ⟨s',hs',hmem ▸ hm⟩
  refine (behaves_passes hlt htest ?_ (Nat.le_refl n) (.inl rfl) hm).arrive (reaches_label hlf)
  exact fun σ s hm => hx.run hspares₁ hp hG h₂ hlt.tail.left hm

mutual

/-- The code of a command does what the command means. -/
theorem does_genCmd (init : ℕ → BitVec 32) (args : ℕ → Option (BitVec 32)) {whole : List Item}
    (hn : (labelsOf whole).Nodup) (G : Store → Memory → Prop) (n : ℕ) : (cmd : TCmd) →
    {live : Live} → cmd.IntOnly → cmd.Scoped live →
    Does init args whole G n live (genCmd cmd) (cmd.run init n)
  | .whileDo _ cmd,_,hi,hs =>
    does_while hn hi.1 hs.1 (does_genCmd init args hn G n cmd hi.2 hs.2) hs.2
  | .ifThen _ cmd,_,hi,hs => does_if hn hi.1 hs.1 (does_genCmd init args hn G n cmd hi.2 hs.2)
  | .ifElse _ c1 c2,_,hi,hs =>
    does_ifElse hn hi.1 hs.1 (does_genCmd init args hn G n c1 hi.2.1 hs.2.1)
      (does_genCmd init args hn G n c2 hi.2.2 hs.2.2) hs.2.1
  | .ret (some _),_,hi,hs => does_ret hi hs
  | .ret none,_,hi,_ => hi.elim
  | .call _ _,_,hi,_ => hi.elim
  | .block _ cmds,_,hi,hs =>
    does_block hs.1 hi.1 (does_genCmdList init args hn G n cmds hi.2 hs.2)
  | .assign (.id .VarDec _) _,_,hi,hs => does_assign hi.2 hs.1 hi.1 (hs.2 _ List.mem_cons_self)
  | .assign (.id .VarParam _) _,_,hi,_ => hi.elim
  | .assign (.indexed _ _) _,_,hi,_ => hi.elim

theorem does_genCmdList (init : ℕ → BitVec 32) (args : ℕ → Option (BitVec 32)) {whole : List Item}
    (hn : (labelsOf whole).Nodup) (G : Store → Memory → Prop) (n : ℕ) : (cmds : TCmdList) →
    {live : Live} → cmds.IntOnly → cmds.Scoped live →
    Does init args whole G n live (genCmdList cmds) (cmds.run init n)
  | .nil,_,_,_ => by
    intro g c g' pc σ s h _ _ _ hm
    cases h
    exact ⟨s,.refl ..,hm⟩
  | .cons cmd next,_,hi,hs =>
    (does_genCmd init args hn G n cmd hi.1 hs.1).andThen
      (does_genCmdList init args hn G n next hi.2 hs.2) fun _ _ _ h => spares_genCmd hs.1 h

end

end Control

section Entry
variable {init : ℕ → BitVec 32} {live : Live} {g g' : GenState} {c : List Item} {σ : Store}
  {slots : Decl → Slot} {m : Memory} {tag : DecTag} {d : Decl}

/-- The arguments of a call, by the temporaries of the parameters. -/
def arguments (params : List (VarType × ℕ)) (actual : List (BitVec 32)) (t : ℕ) :
    Option (BitVec 32) := ((params.map Prod.snd).zip actual).lookup t

theorem genParamList_slots (params : List Decl) : ∀ {g g' : GenState} {c : List Item}
    {list : List (VarType × ℕ)}, genParamList params g = .ok (list,c,g') → params.Nodup →
    List.Forall₂ (fun d p => g'.slots d = ⟨p.2,false⟩) params list ∧
      g.curTempLabel ≤ g'.curTempLabel ∧ ∀ d ∉ params, g'.slots d = g.slots d := by
  induction params with
  | nil =>
    intro g g' c list h _
    cases h
    exact ⟨.nil,Nat.le_refl _,fun _ _ => rfl⟩
  | cons param params ih =>
    intro g g' c list h hnodup
    obtain ⟨n,list',-,rfl,h'⟩ := genParamList_cons_ok h
    obtain ⟨hnew,hnodup⟩ := List.nodup_cons.mp hnodup
    obtain ⟨hall,hlabel,hold⟩ := ih h' hnodup
    refine ⟨.cons ?_ hall,hlabel,fun d hd => ?_⟩
    · rw [hold param hnew]
      exact Function.update_self ..
    · rw [List.mem_cons,not_or] at hd
      rw [hold d hd.2]
      exact Function.update_of_ne hd.1 ..

theorem Store.enter_of_notMem {params : List Decl} {actual : List (BitVec 32)}
    (h : ¬(tag = .VarParam ∧ d ∈ params)) : (σ.enter params actual).value tag d = σ.value tag d := by
  induction params generalizing σ actual with
  | nil => rfl
  | cons param params ih =>
    cases actual with
    | nil => rfl
    | cons v actual =>
      have htail : ¬(tag = .VarParam ∧ d ∈ params) :=
        fun hd => h ⟨hd.1,List.mem_cons_of_mem _ hd.2⟩
      have hne : (tag,d) ≠ (.VarParam,param) := by
        intro heq
        cases heq
        exact h ⟨rfl,List.mem_cons_self⟩
      exact (ih htail).trans (set_of_ne hne)

theorem Store.enter_declared {params : List Decl} {actual : List (BitVec 32)} :
    (σ.enter params actual).declared = σ.declared := by
  induction params generalizing σ actual with
  | nil => rfl
  | cons param params ih =>
    cases actual with
    | nil => rfl
    | cons v actual => exact ih

theorem number_mem {params : List Decl} {list : List (VarType × ℕ)}
    (hall : List.Forall₂ (fun d p => slots d = ⟨p.2,false⟩) params list) :
    ∀ d ∈ params, (slots d).varNumber ∈ list.map Prod.snd := by
  induction hall with
  | nil => exact List.forall_mem_nil _
  | @cons param p params list hp _ ih =>
    refine List.forall_mem_cons.mpr ⟨?_,fun d hd => List.mem_cons_of_mem _ (ih d hd)⟩
    rw [hp]
    exact List.mem_cons_self

/-- A parameter has its argument, in the source and in the code. -/
theorem arguments_eq {params : List Decl} {list : List (VarType × ℕ)}
    (hall : List.Forall₂ (fun d p => slots d = ⟨p.2,false⟩) params list) :
    ∀ {σ : Store} {actual : List (BitVec 32)}, params.Nodup → (list.map Prod.snd).Nodup →
      actual.length = list.length → ∀ d ∈ params,
        arguments list actual (slots d).varNumber = some ((σ.enter params actual).value .VarParam d) := by
  induction hall with
  | nil =>
    intro σ actual _ _ _ d hd
    cases hd
  | @cons param p params list hp hall ih =>
    intro σ actual hparams hlist hlength d hd
    cases actual with
    | nil => cases hlength
    | cons v actual =>
      obtain ⟨hnew,hparams⟩ := List.nodup_cons.mp hparams
      obtain ⟨hnumber,hlist⟩ := List.nodup_cons.mp hlist
      obtain rfl | hd := List.mem_cons.mp hd
      · have hvalue : ((σ.set .VarParam d v).enter params actual).value .VarParam d = v :=
          (Store.enter_of_notMem fun h => hnew h.2).trans (Store.set_self σ .VarParam d v)
        rw [hp,Store.enter,hvalue]
        simp [arguments]
      · have hne : (slots d).varNumber ≠ p.2 := by
          intro heq
          exact hnumber (heq ▸ number_mem hall d hd)
        have hih := ih (σ := σ.set .VarParam param v) hparams hlist (Nat.succ.inj hlength) d hd
        rw [Store.enter,← hih]
        simp only [arguments,List.map_cons,List.zip_cons_cons,List.lookup_cons,
          beq_false_of_ne hne]

end Entry

section Functions
variable {init : ℕ → BitVec 32} {args args' : ℕ → Option (BitVec 32)} {live : Live}
  {g g' : GenState} {c : List Item} {σ : Store} {slots : Decl → Slot} {m : Memory} {func : TFunc}

/-- The global variables are in memory whatever the arguments are. -/
theorem InMemory.withArgs (h : InMemory init args slots live σ m) (hl : ∀ v ∈ live, v.1 = .VarDec) :
    InMemory init args' slots live σ m where
  value v hv htype := by
    have hvalue := h.value v hv htype
    obtain ⟨tag,d⟩ := v
    obtain rfl : tag = .VarDec := hl _ hv
    exact hvalue
  declared := h.declared

/-- The places of the parameters, and of the global variables behind them. -/
theorem placed_params {params : List Decl} {list : List (VarType × ℕ)} {actual : List (BitVec 32)}
    (h : genParamList params g = .ok (list,[],g')) (hnew : live.New params)
    (hl : ∀ v ∈ live, v.1 = .VarDec) (hp : Placed (fun _ => none) g live)
    (hlength : actual.length = list.length) (hm : InMemory init (fun _ => none) g.slots live σ m) :
    Spares live g g' ∧
    Placed (arguments list actual) g' (live.declare .VarParam params) ∧
    InMemory init (arguments list actual) g'.slots (live.declare .VarParam params)
      (σ.enter params actual) m := by
  obtain ⟨hall,hlabel,hold⟩ := genParamList_slots params h hnew.nodup
  obtain ⟨-,hle,hnodup,hrange⟩ := genParamList_ok params h
  have hspares : Spares live g g' :=
    ⟨hle,hlabel,fun v hv => hold v.2 fun hd => hnew.new v.2 hd v.1 hv⟩
  have hargs := arguments_eq hall (σ := σ) hnew.nodup hnodup hlength
  have hglobal {d : Decl} (hd : (.VarDec,d) ∈ live.declare .VarParam params) : (.VarDec,d) ∈ live := by
    obtain hd | ⟨htag,-⟩ := hd
    · exact hd
    · cases htag
  have hold := hp.of_spares hspares
  refine ⟨hspares,⟨fun n hn => ?_,fun d hd => ?_,fun d hd => hold.le d (hglobal hd),
    fun d d' hd hd' => hold.apart d d' (hglobal hd) (hglobal hd')⟩,⟨⟨fun v hv htype => ?_⟩,?_⟩⟩
  · refine List.lookup_eq_none_iff.mpr fun q hq => ?_
    have hmem := (List.of_mem_zip (a := q.1) (b := q.2) hq).1
    have hne : n ≠ q.1 := by
      have := (hrange q.1 hmem).2
      omega
    simpa using hne
  · obtain hd | ⟨-,hd⟩ := hd
    · cases hl _ hd
    · show (arguments list actual (g'.slots d).varNumber).isSome
      rw [hargs d hd]
      rfl
  · obtain ⟨tag,d⟩ := v
    obtain hv | ⟨htag,hd⟩ := hv
    · obtain rfl : tag = .VarDec := hl _ hv
      have hvalue : (σ.enter params actual).value .VarDec d = σ.value .VarDec d :=
        Store.enter_of_notMem fun h => nomatch h.1
      have hslot : g'.slots d = g.slots d := hspares.slots (.VarDec,d) hv
      rw [hvalue,hm.value _ hv htype,← valuation_eq (v := (.VarDec,d)) hslot]
      rfl
    · obtain rfl : tag = .VarParam := htag
      show _ = (arguments list actual (g'.slots d).varNumber).getD 0
      rw [hargs d hd]
      rfl
  · rw [Store.enter_declared]
    exact hm.declared

/-- The labels of a function are different. -/
theorem nodup_genDefFunc {vars : List Decl} {cmds : TCmdList} {g₁ g₂ : GenState} {c₁ c₂ : List Item}
    (h₁ : genDefVarList false vars g = .ok ((),c₁,g₁))
    (h₂ : genCmdList cmds g₁ = .ok ((),c₂,g₂)) (name : VarType) (id : String)
    (params : List (VarType × ℕ)) :
    (labelsOf (.define name id params::(c₁++(c₂++[.close])))).Nodup := by
  have hvars := (Orderly.defVarList (D := Set.univ) ∅ false fun d _ => Set.mem_univ d) _ _ _ _ h₁
  have hcmds := (orderly_genCmdList (D := Set.univ) cmds (fun d _ => Set.mem_univ d) ∅) _ _ _ _ h₂
  have hnodup := (hvars.append hcmds).fresh.nodup
  have hlabels : labelsOf (.define name id params::(c₁++(c₂++[.close]))) = labelsOf (c₁++c₂) := by
    simp [labelsOf,Item.label?,List.filterMap_cons]
  rwa [hlabels]

theorem head_genDefFunc {type : DeclType} (htype : func.header.type = some type) {u : Unit}
    (h : genDefFunc func g = .ok (u,c,g')) :
    ∃ params body, c = .define type.name func.header.id params::body := by
  rw [genDefFunc,htype] at h
  obtain ⟨name,_,_,_,_,_,hname,h₁,heq⟩ := Gen.bind_ok h
  cases heq
  cases hname
  obtain ⟨params,c₀,g₁,_,_,_,hparams,h₂,heq⟩ := Gen.bind_ok h₁
  cases heq
  obtain ⟨rfl,-⟩ := genParamList_ok _ hparams
  obtain ⟨_,c₁,_,_,heq⟩ := Gen.write_ok h₂
  cases heq
  exact ⟨params,c₁,rfl⟩

/-- The code of a function does what the function means. -/
theorem behaves_genDefFunc (hi : func.IntOnly) (hs : func.Scoped live)
    (hl : ∀ v ∈ live, v.1 = .VarDec) (h : genDefFunc func g = .ok ((),c,g'))
    (hp : Placed (fun _ => none) g live) : ∃ params body,
    c = .define .VarInt func.header.id params::(body++[.close]) ∧
    params.length = func.params.length ∧ (labelsOf c).Nodup ∧
    ∀ (init : ℕ → BitVec 32) (actual : List (BitVec 32)) (σ : Store) (s : MachineState Memory)
      (n : ℕ), actual.length = params.length → InMemory init (fun _ => none) g.slots live σ s.mem →
      (intMachine init (arguments params actual)).Behaves c
        (InMemory init (fun _ => none) g.slots live) (.inside 1,s) (1+body.length)
        (InMemory init (fun _ => none) g.slots live) n (func.run init n actual σ) := by
  obtain ⟨name,params,g₁,c₁,g₂,c₂,hparams,hvars,hcmds,rfl⟩ := genDefFunc_ok h
  obtain ⟨_,_,hhead⟩ := head_genDefFunc hi.type h
  obtain rfl : name = .VarInt := by
    injection hhead with hhead
    injection hhead
  have hlen : params.length = func.params.length := by
    have hall := (genParamList_slots func.params hparams hs.params.nodup).1
    exact hall.length_eq.symm
  have hnodup := nodup_genDefFunc hvars hcmds .VarInt func.header.id params
  refine ⟨params,c₁++c₂,by simp,hlen,hnodup,fun init actual σ s n hlength hm => ?_⟩
  have hcode : StandsAt (.define .VarInt func.header.id params::(c₁++(c₂++[.close]))) 1
      (c₁++(c₂++[.close])) := ⟨[.define .VarInt func.header.id params],[],by simp,rfl⟩
  obtain ⟨hspares₁,hp₁,hm₁⟩ := placed_params hparams hs.params hl hp hlength hm
  obtain ⟨s₂,hrun,hp₂,hspares₂,hm₂⟩ := straight_declare func.vars (s := s) hvars hs.vars hi.vars hp₁ hm₁
  have hsub : live ⊆ (live.declare .VarParam func.params).declare .VarDec func.vars :=
    fun v hv => .inl (.inl hv)
  have hspares := hspares₁.trans (hspares₂.subset (live.subset_declare .VarParam func.params))
  have hG (σ : Store) (m : Memory) (h : InMemory init (arguments params actual) g₂.slots
      ((live.declare .VarParam func.params).declare .VarDec func.vars) σ m) :
      InMemory init (fun _ => none) g.slots live σ m :=
    ((h.subset hsub).congr fun v hv => (hspares.slots v hv).symm).withArgs hl
  apply Machine.Behaves.head (hcode.left.straight hrun)
  rw [List.length_append,← Nat.add_assoc]
  exact (does_genCmdList init (arguments params actual) hnodup _ n func.cmds hi.cmds hs.cmds g₂ c₂ g'
    _ _ s₂ hcmds hp₂ hG hcode.right.left hm₂).mono hG (Nat.le_refl n)

end Functions

section Runs
variable {M : Type} {V : Machine M} {whole body : List Item} {s s' : MachineState M} {pc t : ℕ}
  {v : BitVec 32} {R : Store → M → Prop} {run : ℕ → Option Outcome} {first : Item}

/-- Called in the state `s`, the code comes to a `ret` with the value `v`. -/
def Machine.Returns (V : Machine M) (whole : List Item) (s : MachineState M) (v : BitVec 32)
    (s' : MachineState M) : Prop :=
  ∃ pc t, whole[pc]? = some (.ret .VarInt t) ∧
    Reaches (V.code.step whole) (.inside 1,s) (.inside pc,s') ∧ V.value s' t = v

/-- Called in the state `s`, the code comes to its closing brace. -/
def Machine.Ends (V : Machine M) (whole : List Item) (s s' : MachineState M) : Prop :=
  Reaches (V.code.step whole) (.inside 1,s) (.inside (whole.length-1),s')

/-- Called in the state `s`, the code never stops. -/
def Machine.RunsForever (V : Machine M) (whole : List Item) (s : MachineState M) : Prop :=
  ∀ n, ∃ y, runSteps (V.code.step whole) n (.inside 1,s) = some y

/-- The code returns the values that the source returns, ends where the source ends and runs for ever
where the source does, and leaves what `R` says. -/
structure Machine.Implements (V : Machine M) (whole : List Item) (s : MachineState M)
    (R : Store → M → Prop) (run : ℕ → Option Outcome) : Prop where
  returns : ∀ n σ v, run n = some (.returned σ v) → ∃ s', V.Returns whole s v s' ∧ R σ s'.mem
  returned : ∀ v s', V.Returns whole s v s' → ∃ n σ, run n = some (.returned σ v) ∧ R σ s'.mem
  ends : ∀ n σ, run n = some (.done σ) → ∃ s', V.Ends whole s s' ∧ R σ s'.mem
  ended : ∀ s', V.Ends whole s s' → ∃ n σ, run n = some (.done σ) ∧ R σ s'.mem
  forever : V.RunsForever whole s ↔ ∀ n, run n = none

theorem step_ret (h : whole[pc]? = some (.ret .VarInt t)) : V.code.step whole (.inside pc,s) = none := by
  simp [LabelledCode.step,Machine.code,Machine.exec,h]

/-- Where code behaves as the source does for every number of passes, it implements it. -/
theorem implements_of_behaves (hc : whole = first::(body++[.close]))
    (hclose : ∀ s, V.exec .close s = none)
    (h : ∀ n, V.Behaves whole R (.inside 1,s) (1+body.length) R n (run n)) :
    V.Implements whole s R run := by
  have hlen : whole.length-1 = 1+body.length := by
    rw [hc,List.length_cons,List.length_append,List.length_singleton]
    omega
  have hget : whole[1+body.length]? = some .close := by
    rw [hc,Nat.add_comm,List.getElem?_cons_succ,List.getElem?_append_right (Nat.le_refl _),
      Nat.sub_self]
    rfl
  have hend (s : MachineState M) : V.code.step whole (.inside (1+body.length),s) = none := by
    simp [LabelledCode.step,Machine.code,hclose,hget]
  have hstops {x : Control ℕ × MachineState M} (hr : Reaches (V.code.step whole) (.inside 1,s) x)
      (hx : V.code.step whole x = none) : ∃ n o, run n = some o := by
    by_contra hnone
    refine hr.not_forever hx fun n => ?_
    have hn := h n
    cases hrun : run n with
    | none =>
      rw [hrun] at hn
      exact hn
    | some o => exact absurd ⟨n,o,hrun⟩ hnone
  refine ⟨fun n σ v hrun => ?_,fun v s' hret => ?_,fun n σ hrun => ?_,fun s' hs' => ?_,?_⟩
  · have hn := h n
    rw [hrun] at hn
    obtain ⟨k,t,s',hk,hs',hv,hR⟩ := hn
    exact ⟨s',⟨k,t,hk,hs',hv⟩,hR⟩
  · obtain ⟨k,t,hk,hs',rfl⟩ := hret
    obtain ⟨n,o,hrun⟩ := hstops hs' (step_ret hk)
    have hn := h n
    rw [hrun] at hn
    cases o with
    | done σ =>
      obtain ⟨s₁,hs₁,-⟩ := hn
      cases hs'.stop_unique (step_ret hk) hs₁ (hend s₁)
      cases hk.symm.trans hget
    | returned σ v =>
      obtain ⟨k',t',s₁,hk',hs₁,rfl,hR⟩ := hn
      cases hs'.stop_unique (step_ret hk) hs₁ (step_ret hk')
      cases hk.symm.trans hk'
      exact ⟨n,σ,hrun,hR⟩
  · have hn := h n
    rw [hrun] at hn
    obtain ⟨s',hs',hR⟩ := hn
    refine ⟨s',?_,hR⟩
    rw [Machine.Ends,hlen]
    exact hs'
  · rw [Machine.Ends,hlen] at hs'
    obtain ⟨n,o,hrun⟩ := hstops hs' (hend s')
    have hn := h n
    rw [hrun] at hn
    cases o with
    | done σ =>
      obtain ⟨s₁,hs₁,hR⟩ := hn
      cases hs'.stop_unique (hend s') hs₁ (hend s₁)
      exact ⟨n,σ,hrun,hR⟩
    | returned σ v =>
      obtain ⟨k',t',s₁,hk',hs₁,-⟩ := hn
      cases hs'.stop_unique (hend s') hs₁ (step_ret hk')
      cases hget.symm.trans hk'
  · constructor
    · intro hforever n
      have hn := h n
      cases hrun : run n with
      | none => rfl
      | some o =>
        rw [hrun] at hn
        cases o with
        | done σ =>
          obtain ⟨s₁,hs₁,-⟩ := hn
          exact absurd hforever (hs₁.not_forever (hend s₁))
        | returned σ v =>
          obtain ⟨k,t,s₁,hk,hs₁,-⟩ := hn
          exact absurd hforever (hs₁.not_forever (step_ret hk))
    · intro hnone n
      have hn := h n
      rw [hnone n] at hn
      exact hn

end Runs

section Programs
variable {init : ℕ → BitVec 32} {live : Live} {g g' : GenState} {c : List Item}

/-- The global variables of definitions. -/
def globalsOf : List TDefinition → List Decl
  | [] => []
  | .defvar vars::next => vars++globalsOf next
  | .deffunc _::next => globalsOf next

theorem Live.declare_append (live : Live) (tag : DecTag) (vars vars' : List Decl) :
    (live.declare tag vars).declare tag vars' = live.declare tag (vars++vars') := by
  ext v
  simp only [declare,Set.mem_ofPred_eq,List.mem_append]
  tauto

theorem placed_globals (vars : List Decl) : ∀ {live : Live} {g g' : GenState} {c : List Item},
    genDefVarList true vars g = .ok ((),c,g') → live.New vars →
    Placed (fun _ => none) g live → Placed (fun _ => none) g' (live.declare .VarDec vars) := by
  induction vars with
  | nil =>
    intro live g g' c h _ hp
    cases h
    rwa [live.declare_nil]
  | cons d vars ih =>
    intro live g g' c h hnew hp
    obtain ⟨c₂,h₂,rfl⟩ := genDefVarList_cons_ok h
    rw [← live.declare_cons]
    exact ih h₂ hnew.tail (hp.declare (fun v hv => hnew.ne hv) true)

/-- A function does not change the records of the global variables. -/
theorem spares_genDefFunc {func : TFunc} (hs : func.Scoped live)
    (h : genDefFunc func g = .ok ((),c,g')) : Spares live g g' := by
  obtain ⟨name,params,g₁,c₁,g₂,c₂,hparams,hvars,hcmds,rfl⟩ := genDefFunc_ok h
  obtain ⟨-,hlabel,hold⟩ := genParamList_slots func.params hparams hs.params.nodup
  obtain ⟨-,hle,-⟩ := genParamList_ok func.params hparams
  have hspares₁ : Spares live g g₁ :=
    ⟨hle,hlabel,fun v hv => hold v.2 fun hd => hs.params.new v.2 hd v.1 hv⟩
  have hspares₂ : Spares live g₁ g₂ := spares_of_emits
    ((Orderly.defVarList (D := {d | d ∈ func.vars}) ∅ false fun _ hd => hd) _ _ _ _ hvars)
    fun v hv hd => hs.vars.new v.2 hd v.1 (.inl hv)
  have hspares₃ : Spares live g₂ g' := spares_of_emits
    ((orderly_genCmdList (D := {d | d ∈ func.cmds.declared}) func.cmds (fun _ hd => hd) ∅)
      _ _ _ _ hcmds)
    fun v hv => TCmdList.Scoped.notMem_declared func.cmds hs.cmds (.inl (.inl hv))
  exact (hspares₁.trans hspares₂).trans hspares₃

/-- The global variables have places of their own when the generator comes to a function. -/
theorem placed_createLLVM (before : List TDefinition) {rest : List TDefinition} : ∀ {live : Live}
    {g g' : GenState} {c : List Item}, ScopedFrom live (before++rest) →
    createLLVM before g = .ok ((),c,g') →
    Placed (fun _ => none) g live →
    Placed (fun _ => none) g' (live.declare .VarDec (globalsOf before)) ∧
      ScopedFrom (live.declare .VarDec (globalsOf before)) rest := by
  induction before with
  | nil =>
    intro live g g' c hs h hp
    cases h
    rw [globalsOf,live.declare_nil]
    exact ⟨hp,hs⟩
  | cons definition before ih =>
    intro live g g' c hs h hp
    obtain ⟨_,c₁,g₁,_,c₂,g₂,h₁,h₂,heq⟩ := Gen.bind_ok h
    cases heq
    cases definition with
    | defvar vars =>
      rw [globalsOf,← live.declare_append]
      exact ih hs.2 h₂ (placed_globals vars h₁ hs.1 hp)
    | deffunc func =>
      rw [globalsOf]
      exact ih hs.2 h₂ (hp.of_spares (spares_genDefFunc hs.1 h₁))

/-- The memory has the values of the `int` variables among the global ones. -/
structure HasGlobals (slots : Decl → Slot) (globals : List Decl) (σ : Store) (m : Memory) :
    Prop where
  value : ∀ d ∈ globals, d.type = ⟨.VarInt,0⟩ →
    σ.value .VarDec d = m.cell (slots d).isGlobal (slots d).varNumber
  declared : σ.declared = m.allocated

theorem inMemory_globals_iff {slots : Decl → Slot} {globals : List Decl} {σ : Store} {m : Memory} :
    InMemory init (fun _ => none) slots (Live.declare ∅ .VarDec globals) σ m ↔
      HasGlobals slots globals σ m := by
  constructor
  · exact fun h => ⟨fun d hd htype => h.value (.VarDec,d) (.inr ⟨rfl,hd⟩) htype,h.declared⟩
  · intro h
    refine ⟨⟨?_⟩,h.declared⟩
    rintro ⟨tag,d⟩ (hv | ⟨htag,hd⟩) htype
    · cases hv
    · obtain rfl : tag = .VarDec := htag
      exact h.value d hd htype

/-- The code of a function over `int` in a checked program does what the function does, whatever
is in the memory that it allocates. -/
theorem int_function_implemented {tree : List Definition} {before behind : List TDefinition}
    {func : TFunc} (hcheck : typeCheck tree = .ok (before++.deffunc func::behind))
    (hint : func.IntOnly) {g₀ g g' : GenState} {c₀ c : List Item}
    (hbefore : (createLLVM before).run g₀ = .ok ((),c₀,g))
    (hfunc : (genDefFunc func).run g = .ok ((),c,g')) :
    ∃ params body, c = .define .VarInt func.header.id params::(body++[.close]) ∧
      params.length = func.params.length ∧
      ∀ (init : ℕ → BitVec 32) (actual : List (BitVec 32)) (σ : Store) (s : MachineState Memory),
        actual.length = params.length → HasGlobals g.slots (globalsOf before) σ s.mem →
        (intMachine init (arguments params actual)).Implements c s
          (HasGlobals g.slots (globalsOf before)) fun n => func.run init n actual σ := by
  have hscoped : ScopedFrom ∅ (before++.deffunc func::behind) := scoped_of_typeCheck hcheck
  have hp₀ : Placed (fun _ => none) g₀ ∅ := ⟨fun _ _ => rfl,fun _ hd => hd.elim,fun _ hd => hd.elim,
    fun _ _ hd => hd.elim⟩
  obtain ⟨hp,hs⟩ := placed_createLLVM before hscoped hbefore hp₀
  have hl : ∀ v ∈ Live.declare ∅ .VarDec (globalsOf before), v.1 = .VarDec := by
    rintro v (hv | ⟨htag,-⟩)
    · exact hv.elim
    · exact htag
  obtain ⟨params,body,hc,hlength,-,hbehaves⟩ := behaves_genDefFunc hint hs.1 hl hfunc hp
  refine ⟨params,body,hc,hlength,fun init actual σ s hactual hm => ?_⟩
  have hR : InMemory init (fun _ => none) g.slots (Live.declare ∅ .VarDec (globalsOf before)) =
      HasGlobals g.slots (globalsOf before) := by
    funext σ m
    exact propext inMemory_globals_iff
  refine implements_of_behaves hc (fun _ => rfl) fun n => ?_
  rw [← hR]
  exact hbehaves init actual σ s n hactual (inMemory_globals_iff.mpr hm)

/-- int t; int f(int n) { int i; i = 0; t = 0;
while (i < n) { int d; d = i*i; t = t+d; i = i+1; } return t; } -/
def squaresProgram : List Definition :=
  [.defvar [⟨⟨.VarInt,0⟩,"t"⟩],.deffunc ⟨⟨some ⟨.VarInt,0⟩,"f",[⟨⟨.VarInt,0⟩,"n"⟩]⟩,
    [⟨⟨.VarInt,0⟩,"i"⟩],
    .cons (.assign (.id "i") (.int 0))
    (.cons (.assign (.id "t") (.int 0))
    (.cons (.whileDo (.bin .ExpLess (.var (.id "i")) (.var (.id "n"))) (.block [⟨⟨.VarInt,0⟩,"d"⟩]
      (.cons (.assign (.id "d") (.bin .ExpMul (.var (.id "i")) (.var (.id "i"))))
      (.cons (.assign (.id "t") (.bin .ExpAdd (.var (.id "t")) (.var (.id "d"))))
      (.cons (.assign (.id "i") (.bin .ExpAdd (.var (.id "i")) (.int 1))) .nil)))))
    (.cons (.ret (some (.var (.id "t")))) .nil)))⟩]

def squaresVar (tag : DecTag) (id : String) (level : ℕ) : TExp :=
  .var intType (.id tag ⟨⟨.VarInt,0⟩,id,level⟩)

def squaresSet (id : String) (level : ℕ) (exp : TExp) : TCmd :=
  .assign (.id .VarDec ⟨⟨.VarInt,0⟩,id,level⟩) exp

def squaresFunction : TFunc :=
  ⟨⟨some ⟨.VarInt,0⟩,"f",[⟨⟨.VarInt,0⟩,"n"⟩]⟩,[⟨⟨.VarInt,0⟩,"n",2⟩],[⟨⟨.VarInt,0⟩,"i",3⟩],
    .cons (squaresSet "i" 3 (.int 0))
    (.cons (squaresSet "t" 0 (.int 0))
    (.cons (.whileDo (.bin intType .ExpLess (squaresVar .VarDec "i" 3) (squaresVar .VarParam "n" 2))
      (.block [⟨⟨.VarInt,0⟩,"d",4⟩]
      (.cons (squaresSet "d" 4
        (.bin intType .ExpMul (squaresVar .VarDec "i" 3) (squaresVar .VarDec "i" 3)))
      (.cons (squaresSet "t" 0
        (.bin intType .ExpAdd (squaresVar .VarDec "t" 0) (squaresVar .VarDec "d" 4)))
      (.cons (squaresSet "i" 3 (.bin intType .ExpAdd (squaresVar .VarDec "i" 3) (.int 1))) .nil)))))
    (.cons (.ret (some (squaresVar .VarDec "t" 0))) .nil)))⟩

theorem intOperand_squaresVar (tag : DecTag) (id : String) (level : ℕ) :
    IntOperand (squaresVar tag id level) := .var tag _ rfl

theorem intOnly_squares : squaresFunction.IntOnly where
  type := rfl
  vars := List.forall_mem_singleton.mpr rfl
  cmds := by
    have hvar := intOperand_squaresVar
    refine ⟨⟨rfl,.int 0⟩,⟨rfl,.int 0⟩,⟨.comp (.inl rfl) (hvar _ _ _) (hvar _ _ _),
      List.forall_mem_singleton.mpr rfl,?_⟩,hvar _ _ _,trivial⟩
    refine ⟨⟨rfl,.bin ?_ (hvar _ _ _) (hvar _ _ _)⟩,⟨rfl,.bin ?_ (hvar _ _ _) (hvar _ _ _)⟩,
      ⟨rfl,.bin ?_ (hvar _ _ _) (.int 1)⟩,trivial⟩
    · exact .inr (.inr rfl)
    · exact .inl rfl
    · exact .inl rfl

theorem int_function_implemented_squares : ∃ g c g' params s',
    (genDefFunc squaresFunction).run g = .ok ((),c,g') ∧
    (intMachine (fun _ => 7) (arguments params [4])).Returns c ⟨fun _ => 0,⟨fun _ _ => 0,0⟩,[]⟩ 14
      s' := by
  let vars : List TDefinition := [.defvar [⟨⟨.VarInt,0⟩,"t",0⟩]]
  have hcheck : typeCheck squaresProgram = .ok (vars++.deffunc squaresFunction::[]) := rfl
  obtain ⟨c₀,g,hbefore,c,g',hfunc,-⟩ : ∃ c₀ g, (createLLVM vars).run start = .ok ((),c₀,g) ∧
      ∃ c g', (genDefFunc squaresFunction).run g = .ok ((),c,g') ∧
        Prints [.deffunc squaresFunction] g squaresFunction c :=
    ⟨_,_,rfl,exists_prints (by decide +kernel)⟩
  obtain ⟨params,body,-,hlength,himplements⟩ :=
    int_function_implemented hcheck intOnly_squares hbefore hfunc
  have hactual : [(4 : BitVec 32)].length = params.length := hlength.symm
  obtain ⟨σ,hrun⟩ : ∃ σ, squaresFunction.run (fun _ => 7) 5 [4] ⟨fun _ _ => 0,0⟩ =
      some (.returned σ 14) := exists_returned (by decide +kernel)
  obtain ⟨s',hreturns,-⟩ := (himplements (fun _ => 7) [4] ⟨fun _ _ => 0,0⟩
    ⟨fun _ => 0,⟨fun _ _ => 0,0⟩,[]⟩ hactual ⟨fun _ _ _ => rfl,rfl⟩).returns 5 σ 14 hrun
  exact ⟨g,c,g',params,s',hfunc,hreturns⟩

end Programs
end PucRio.Monga
