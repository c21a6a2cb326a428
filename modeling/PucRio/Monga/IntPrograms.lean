import PucRio.Monga.WellFormed
import PucRio.Monga.WhileLoops

/-! What the commands over `int` mean, which have no calls and no arrays; and the scopes of a checked
program, in which a name stands for one variable. -/
namespace PucRio.Monga

section Meaning

/-- The values of the variables, and how many of them have been declared in blocks. -/
structure Store where
  value : DecTag → Decl → BitVec 32
  declared : ℕ

namespace Store
variable (σ : Store) (tag : DecTag) (decl : Decl) (v : BitVec 32)

def set : Store :=
  { σ with value := Function.update σ.value tag (Function.update (σ.value tag) decl v) }

/-- A variable holds at first what is in the memory that it gets, `init n` for the `n`-th one. -/
def declare (init : ℕ → BitVec 32) : Store :=
  { σ.set .VarDec decl (init σ.declared) with declared := σ.declared+1 }

/-- The parameters of a function are its arguments. -/
def enter (σ : Store) : List Decl → List (BitVec 32) → Store
  | param::params,v::args => (σ.set .VarParam param v).enter params args
  | _,_ => σ

theorem set_self : (σ.set tag decl v).value tag decl = v := by
  simp [set]

variable {σ tag decl v} {tag' : DecTag} {decl' : Decl}

theorem set_of_ne (h : (tag',decl') ≠ (tag,decl)) :
    (σ.set tag decl v).value tag' decl' = σ.value tag' decl' := by
  by_cases htag : tag' = tag
  · subst htag
    have hdecl : decl' ≠ decl := fun hd => h (hd ▸ rfl)
    simp [set,hdecl]
  · simp [set,htag]

end Store

/-- How a command ends: what stands behind it is next, or the function returns. -/
inductive Outcome
  | done (σ : Store)
  | returned (σ : Store) (v : BitVec 32)

def Outcome.value? : Outcome → Option (BitVec 32)
  | .done _ => none
  | .returned _ v => some v

theorem exists_returned {o : Option Outcome} {v : BitVec 32}
    (h : (o.map Outcome.value?) = some (some v)) : ∃ σ, o = some (.returned σ v) := by
  obtain ⟨o,rfl,ho⟩ := Option.map_eq_some_iff.mp h
  cases o with
  | done σ => cases ho
  | returned σ w =>
    cases ho
    exact ⟨σ,rfl⟩

def Outcome.next (k : Store → Option Outcome) : Outcome → Option Outcome
  | .done σ => k σ
  | .returned σ v => some (.returned σ v)

/-- A loop that ends before its condition is evaluated for the `n`-th time. -/
def passes (holds : Store → Bool) (body : Store → Option Outcome) : ℕ → Store → Option Outcome
  | 0,_ => none
  | n+1,σ =>
    if holds σ then (body σ).bind (Outcome.next (passes holds body n)) else some (.done σ)

def TExp.holds (e : TExp) (σ : Store) : Bool := (evaluate σ.value e).1 != 0

mutual

/-- The outcome of a command all of whose loops end before the `n`-th evaluation of their condition.
Commands that are not over `int` have none. -/
def TCmd.run (init : ℕ → BitVec 32) (n : ℕ) : TCmd → Store → Option Outcome
  | .whileDo e cmd,σ => passes e.holds (cmd.run init n) n σ
  | .ifThen e cmd,σ => if e.holds σ then cmd.run init n σ else some (.done σ)
  | .ifElse e c1 c2,σ => if e.holds σ then c1.run init n σ else c2.run init n σ
  | .ret (some exp),σ => some (.returned σ (intValue σ.value exp))
  | .ret none,_ => none
  | .call _ _,_ => none
  | .block vars cmds,σ => cmds.run init n (vars.foldl (fun σ d => σ.declare d init) σ)
  | .assign (.id tag decl) exp,σ => some (.done (σ.set tag decl (intValue σ.value exp)))
  | .assign (.indexed _ _) _,_ => none

def TCmdList.run (init : ℕ → BitVec 32) (n : ℕ) : TCmdList → Store → Option Outcome
  | .nil,σ => some (.done σ)
  | .cons cmd next,σ => (cmd.run init n σ).bind (Outcome.next (next.run init n))

end

def TFunc.run (init : ℕ → BitVec 32) (n : ℕ) (func : TFunc) (args : List (BitVec 32)) (σ : Store) :
    Option Outcome :=
  func.cmds.run init n (func.vars.foldl (fun σ d => σ.declare d init) (σ.enter func.params args))

mutual

/-- Commands over `int`. No parameter is assigned: the code would write to a field that is none. -/
def TCmd.IntOnly : TCmd → Prop
  | .whileDo e cmd => IntCond e ∧ cmd.IntOnly
  | .ifThen e cmd => IntCond e ∧ cmd.IntOnly
  | .ifElse e c1 c2 => IntCond e ∧ c1.IntOnly ∧ c2.IntOnly
  | .ret (some exp) => IntOperand exp
  | .ret none => False
  | .call _ _ => False
  | .block vars cmds => (∀ d ∈ vars, d.type = ⟨.VarInt,0⟩) ∧ cmds.IntOnly
  | .assign (.id .VarDec decl) exp => decl.type = ⟨.VarInt,0⟩ ∧ IntOperand exp
  | .assign (.id .VarParam _) _ => False
  | .assign (.indexed _ _) _ => False

def TCmdList.IntOnly : TCmdList → Prop
  | .nil => True
  | .cons cmd next => cmd.IntOnly ∧ next.IntOnly

end

structure TFunc.IntOnly (func : TFunc) : Prop where
  type : func.header.type = some ⟨.VarInt,0⟩
  vars : ∀ d ∈ func.vars, d.type = ⟨.VarInt,0⟩
  cmds : func.cmds.IntOnly

end Meaning

section Scopes

/-- The variables in scope. -/
abbrev Live := Set (DecTag × Decl)

/-- A declaration adds variables to those in scope. -/
def Live.declare (live : Live) (tag : DecTag) (vars : List Decl) : Live :=
  {v | v ∈ live ∨ v.1 = tag ∧ v.2 ∈ vars}

/-- New variables are different from each other and from those in scope. -/
structure Live.New (live : Live) (vars : List Decl) : Prop where
  nodup : vars.Nodup
  new : ∀ d ∈ vars, ∀ tag, (tag,d) ∉ live

mutual

/-- What is read and written is in scope. -/
def TCmd.Scoped : TCmd → Live → Prop
  | .whileDo e cmd,live => (∀ v ∈ e.variables, v ∈ live) ∧ cmd.Scoped live
  | .ifThen e cmd,live => (∀ v ∈ e.variables, v ∈ live) ∧ cmd.Scoped live
  | .ifElse e c1 c2,live => (∀ v ∈ e.variables, v ∈ live) ∧ c1.Scoped live ∧ c2.Scoped live
  | .ret none,_ => True
  | .ret (some exp),live => ∀ v ∈ exp.variables, v ∈ live
  | .call _ parameters,live => ∀ v ∈ parameters.variables, v ∈ live
  | .block vars cmds,live => live.New vars ∧ cmds.Scoped (live.declare .VarDec vars)
  | .assign var exp,live => (∀ v ∈ exp.variables, v ∈ live) ∧ ∀ v ∈ var.variables, v ∈ live

def TCmdList.Scoped : TCmdList → Live → Prop
  | .nil,_ => True
  | .cons cmd next,live => cmd.Scoped live ∧ next.Scoped live

end

variable {live : Live} {t : SymbolTable}

mutual

/-- What is in scope is not declared again. -/
theorem TCmd.Scoped.notMem_declared {v : DecTag × Decl} : (cmd : TCmd) → {live : Live} →
    cmd.Scoped live → v ∈ live → v.2 ∉ cmd.declared
  | .whileDo _ cmd,_,h,hv => TCmd.Scoped.notMem_declared cmd h.2 hv
  | .ifThen _ cmd,_,h,hv => TCmd.Scoped.notMem_declared cmd h.2 hv
  | .ifElse _ c1 c2,_,h,hv => by
    rw [TCmd.declared,List.mem_append,not_or]
    exact ⟨TCmd.Scoped.notMem_declared c1 h.2.1 hv,TCmd.Scoped.notMem_declared c2 h.2.2 hv⟩
  | .ret _,_,_,_ => List.not_mem_nil
  | .call _ _,_,_,_ => List.not_mem_nil
  | .block _ cmds,_,h,hv => by
    rw [TCmd.declared,List.mem_append,not_or]
    exact ⟨fun hd => h.1.new v.2 hd v.1 hv,TCmdList.Scoped.notMem_declared cmds h.2 (.inl hv)⟩
  | .assign _ _,_,_,_ => List.not_mem_nil

theorem TCmdList.Scoped.notMem_declared {v : DecTag × Decl} : (cmds : TCmdList) → {live : Live} →
    cmds.Scoped live → v ∈ live → v.2 ∉ cmds.declared
  | .nil,_,_,_ => List.not_mem_nil
  | .cons cmd next,_,h,hv => by
    rw [TCmdList.declared,List.mem_append,not_or]
    exact ⟨TCmd.Scoped.notMem_declared cmd h.1 hv,TCmdList.Scoped.notMem_declared next h.2 hv⟩

end

/-- The variables in scope of a symbol table. -/
def liveOf (t : SymbolTable) : Live := {v | v ∈ variablesOf t}

theorem Leveled.lt_of_mem_liveOf (ht : Leveled t) {v : DecTag × Decl} (hv : v ∈ liveOf t) :
    v.2.level < level t := level_of_mem_variablesOf ht hv

theorem liveOf_addDec {dec : Dec} {w : DecTag × Decl} (hdec : dec.variable? = some w) :
    liveOf (addDec t dec) = {v | v ∈ liveOf t ∨ v = w} := by
  ext v
  constructor
  · intro hv
    obtain ⟨dec',hmem,hdec'⟩ := mem_variablesOf.mp hv
    obtain hmem | rfl := mem_addDec.mp hmem
    · exact .inl (mem_variablesOf.mpr ⟨dec',hmem,hdec'⟩)
    · exact .inr (Option.some.inj (hdec'.symm.trans hdec))
  · rintro (hv | rfl)
    · exact variablesOf_subset t dec hv
    · exact mem_variablesOf.mpr ⟨dec,mem_addDec.mpr (.inr rfl),hdec⟩

theorem liveOf_addDecFunc (t : SymbolTable) (f : FuncHeader) :
    liveOf (addDecFunc t f) = liveOf t := by
  ext v
  constructor
  · intro hv
    obtain ⟨dec,hmem,hdec⟩ := mem_variablesOf.mp hv
    obtain hmem | rfl := mem_addDec.mp hmem
    · exact mem_variablesOf.mpr ⟨dec,hmem,hdec⟩
    · cases hdec
  · exact fun hv => variablesOf_subset t _ hv

/-- From one table to the other, these have been declared. -/
structure Declares (t t' : SymbolTable) (tag : DecTag) (decls : List Decl) : Prop where
  leveled : Leveled t'
  level_le : level t ≤ level t'
  above : ∀ d ∈ decls, level t ≤ d.level
  nodup : decls.Nodup
  live_eq : liveOf t' = (liveOf t).declare tag decls

namespace Declares
variable {t' : SymbolTable} {tag : DecTag} {decls : List Decl}

theorem nil (ht : Leveled t) (tag : DecTag) : Declares t t tag [] where
  leveled := ht
  level_le := Nat.le_refl _
  above := List.forall_mem_nil _
  nodup := List.nodup_nil
  live_eq := by
    ext v
    simp [Live.declare]

theorem cons {dec : Dec} {d : Decl} (hdec : dec.variable? = some (tag,d)) (hd : d.level = level t)
    (h : Declares (addDec t dec) t' tag decls) : Declares t t' tag (d::decls) where
  leveled := h.leveled
  level_le := by
    have := h.level_le
    rw [level_addDec] at this
    omega
  above := by
    rintro d' (_ | ⟨_,hd'⟩)
    · exact hd.ge
    · have := h.above d' hd'
      rw [level_addDec] at this
      omega
  nodup := by
    refine List.nodup_cons.mpr ⟨fun hmem => ?_,h.nodup⟩
    have := h.above d hmem
    rw [level_addDec] at this
    omega
  live_eq := by
    rw [h.live_eq,liveOf_addDec hdec]
    ext v
    simp only [Live.declare,Set.mem_ofPred_eq,List.mem_cons,Prod.ext_iff]
    tauto

theorem new (ht : Leveled t) (h : Declares t t' tag decls) : (liveOf t).New decls where
  nodup := h.nodup
  new d hd tag hmem := by
    have hlt := ht.lt_of_mem_liveOf hmem
    have hle := h.above d hd
    simp only at hlt
    omega

end Declares

theorem declares_checkDefVarList (vars : List DefVar) {t : SymbolTable} (ht : Leveled t) :
    Settles (checkDefVarList t vars) False fun r => Declares t r.1 .VarDec r.2 := by
  induction vars generalizing t with
  | nil => exact settles_pure (.nil ht .VarDec)
  | cons v vars ih =>
    refine (settles_checkSymbolRedefinition v.id).bind id fun _ _ => ?_
    refine (ih (ht.addDecVar v)).bind id fun r hr => settles_pure ?_
    have hdec : Dec.variable? (.v ⟨v.type,v.id,level t⟩) = some (.VarDec,_) := rfl
    exact .cons hdec rfl hr

theorem declares_checkParamList (params : List Param) {t : SymbolTable} (ht : Leveled t) :
    Settles (checkParamList t params) False fun r => Declares t r.1 .VarParam r.2 := by
  induction params generalizing t with
  | nil => exact settles_pure (.nil ht .VarParam)
  | cons param params ih =>
    refine (settles_checkSymbolRedefinition param.id).bind id fun _ _ => ?_
    refine (ih (ht.addParam param)).bind id fun r hr => settles_pure ?_
    have hdec : Dec.variable? (.p ⟨param.type,param.id,level t⟩) = some (.VarParam,_) := rfl
    exact .cons hdec rfl hr

mutual

theorem scoped_checkCmd (func : FuncHeader) {t : SymbolTable} (ht : Leveled t) : (cmd : Cmd) →
    Settles (checkCmd func t cmd) False fun tc => tc.Scoped (liveOf t)
  | .whileDo e cmd => by
    refine (settles_checkExp_variables t e).cond id (fun hp => hp.elim) _ fun te he => ?_
    exact (scoped_checkCmd func ht cmd).bind id fun tc hc => settles_pure ⟨fun v hv => he hv,hc⟩
  | .ifThen e cmd => by
    refine (settles_checkExp_variables t e).cond id (fun hp => hp.elim) _ fun te he => ?_
    exact (scoped_checkCmd func ht cmd).bind id fun tc hc => settles_pure ⟨fun v hv => he hv,hc⟩
  | .ifElse e c1 c2 => by
    refine (settles_checkExp_variables t e).cond id (fun hp => hp.elim) _ fun te he => ?_
    refine (scoped_checkCmd func ht c1).bind id fun tc1 h1 => ?_
    exact (scoped_checkCmd func ht c2).bind id fun tc2 h2 =>
      settles_pure ⟨fun v hv => he hv,h1,h2⟩
  | .ret none => settles_pure trivial
  | .ret (some exp) => by
    refine (settles_checkExp_variables t exp).bind id fun te h => ?_
    refine settles_checkReturn.bind id fun te' h' => ?_
    obtain ⟨rfl,-⟩ := h'
    exact settles_pure fun v hv => h hv
  | .call id exps =>
    (settles_checkCmdCall_variables (settles_checkExpList_variables t exps)).bind
      (fun hp => hp) fun _ hr => settles_pure fun _ hv => hr hv
  | .block vars cmds => by
    refine (declares_checkDefVarList vars ht.enterScope).bind id fun r hr => ?_
    refine (scoped_checkCmdList func hr.leveled cmds).bind id fun tcs hcs => settles_pure ?_
    have hnew : (liveOf (enterScope t)).New r.2 := hr.new ht.enterScope
    rw [hr.live_eq] at hcs
    exact ⟨hnew,hcs⟩
  | .assign v exp => by
    refine (settles_checkExp_variables t exp).bind id fun te h => ?_
    refine (settles_checkVar_variables t v).bind id fun r hr => ?_
    refine (settles_checkAssigned_variables r.1 te).bind id fun te' h' => settles_pure ?_
    exact ⟨fun v hv => (h' ▸ h) hv,fun v hv => hr hv⟩

theorem scoped_checkCmdList (func : FuncHeader) {t : SymbolTable} (ht : Leveled t) :
    (cmds : CmdList) →
    Settles (checkCmdList func t cmds) False fun tcs => tcs.Scoped (liveOf t)
  | .nil => settles_pure trivial
  | .cons cmd next => by
    refine (scoped_checkCmd func ht cmd).bind id fun tc hc => ?_
    exact (scoped_checkCmdList func ht next).bind id fun tcs hcs => settles_pure ⟨hc,hcs⟩

end

/-- The scopes of a function, behind the global variables. -/
structure TFunc.Scoped (globals : Live) (func : TFunc) : Prop where
  params : globals.New func.params
  vars : (globals.declare .VarParam func.params).New func.vars
  cmds : func.cmds.Scoped ((globals.declare .VarParam func.params).declare .VarDec func.vars)

theorem scoped_checkDefFunc (f : Func) (ht : Leveled t) :
    Settles (checkDefFunc t f) False fun r =>
      r.1 = addDecFunc t f.header ∧ r.2.Scoped (liveOf t) := by
  refine (settles_checkSymbolRedefinition f.header.id).bind id fun _ _ => ?_
  have hheader := (ht.addDecFunc f.header).enterScope
  refine (declares_checkParamList f.header.params hheader).bind id fun r hr => ?_
  refine (declares_checkDefVarList f.vars hr.leveled.enterScope).bind id fun r' hr' => ?_
  refine (scoped_checkCmdList f.header hr'.leveled f.cmds).bind id fun cmds hcmds => ?_
  refine settles_pure ⟨rfl,?_⟩
  have hglobals : liveOf (enterScope (addDecFunc t f.header)) = liveOf t :=
    liveOf_addDecFunc t f.header
  have hparams := hr.new hheader
  have hvars : (liveOf (enterScope r.1)).New r'.2 := hr'.new hr.leveled.enterScope
  have hinner : liveOf (enterScope r.1) = liveOf r.1 := rfl
  have hlive : liveOf r'.1 = (liveOf r.1).declare .VarDec r'.2 := hr'.live_eq
  rw [hlive,hr.live_eq,hglobals] at hcmds
  rw [hinner,hr.live_eq,hglobals] at hvars
  rw [hglobals] at hparams
  exact ⟨hparams,hvars,hcmds⟩

/-- The scopes of the definitions of a program. -/
def ScopedFrom : Live → List TDefinition → Prop
  | _,[] => True
  | globals,.defvar vars::next => globals.New vars ∧ ScopedFrom (globals.declare .VarDec vars) next
  | globals,.deffunc func::next => func.Scoped globals ∧ ScopedFrom globals next

theorem scoped_checkDefinitions (tree : List Definition) {t : SymbolTable} (ht : Leveled t) :
    Settles (checkDefinitions t tree) False fun ttree => ScopedFrom (liveOf t) ttree := by
  induction tree generalizing t with
  | nil => exact settles_pure trivial
  | cons definition tree ih =>
    have hfirst : Settles (checkDefinition t definition) False fun r => Leveled r.1 ∧
        ∀ ttree, ScopedFrom (liveOf r.1) ttree → ScopedFrom (liveOf t) (r.2::ttree) := by
      cases definition with
      | defvar vars =>
        refine (declares_checkDefVarList vars ht).bind id fun r hr => settles_pure ?_
        refine ⟨hr.leveled,fun ttree h => ⟨hr.new ht,?_⟩⟩
        rwa [hr.live_eq] at h
      | deffunc f =>
        refine (scoped_checkDefFunc f ht).bind id fun r hr => settles_pure ?_
        rw [hr.1]
        refine ⟨ht.addDecFunc f.header,fun ttree h => ⟨hr.2,?_⟩⟩
        rwa [liveOf_addDecFunc] at h
    refine hfirst.bind id fun r hr => ?_
    exact (ih hr.1).bind id fun ttree h => settles_pure (hr.2 ttree h)

/-- In a checked program a name stands for one variable. -/
theorem scoped_of_typeCheck {tree : List Definition} {ttree : List TDefinition}
    (h : typeCheck tree = .ok ttree) : ScopedFrom ∅ ttree := by
  have hcheck : Settles (typeCheck tree) False fun ttree => ScopedFrom (liveOf [[]]) ttree :=
    scoped_checkDefinitions tree .start
  have hlive : liveOf [[]] = ∅ := by
    ext v
    simp [liveOf,variablesOf]
  rw [h,hlive] at hcheck
  exact hcheck

end Scopes
end PucRio.Monga
