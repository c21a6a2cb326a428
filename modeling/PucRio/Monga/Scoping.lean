import PucRio.Monga.ShortCircuit
import PucRio.Monga.TypeChecking

/-! What a condition reads has been declared before it, and is never declared again in the command
behind it. -/
namespace PucRio.Monga

section Table
variable {t : SymbolTable} {dec dec' : Dec}

/-- A declaration is known by how many were in scope before it. -/
def Leveled (t : SymbolTable) : Prop :=
  ∀ dec ∈ t.flatten, ∀ d, dec = .v d ∨ dec = .p d → d.level < level t

theorem level_addDec (t : SymbolTable) (dec : Dec) : level (addDec t dec) = level t+1 := by
  cases t with
  | nil => rfl
  | cons current previous =>
    simp only [level,addDec,List.flatten_cons,List.length_append,List.length_singleton]
    omega

theorem mem_addDec : dec' ∈ (addDec t dec).flatten ↔ dec' ∈ t.flatten ∨ dec' = dec := by
  cases t with
  | nil => simp [addDec]
  | cons current previous =>
    simp only [addDec,List.flatten_cons,List.mem_append,List.mem_singleton]
    tauto

theorem Leveled.start : Leveled [[]] := by
  intro dec hdec
  cases hdec

theorem Leveled.enterScope (h : Leveled t) : Leveled (enterScope t) := h

theorem Leveled.addDec (h : Leveled t) (hd : ∀ d, dec = .v d ∨ dec = .p d → d.level = level t) :
    Leveled (addDec t dec) := by
  intro dec' hdec d heq
  rw [level_addDec]
  obtain hdec | rfl := mem_addDec.mp hdec
  · exact (h dec' hdec d heq).trans (Nat.lt_succ_self _)
  · rw [hd d heq]
    exact Nat.lt_succ_self _

theorem Leveled.addDecVar (h : Leveled t) (v : DefVar) : Leveled (addDecVar t v) := by
  apply h.addDec
  rintro d (heq | heq)
  · cases heq
    rfl
  · cases heq

theorem Leveled.addParam (h : Leveled t) (param : Param) : Leveled (addParam t param) := by
  apply h.addDec
  rintro d (heq | heq)
  · cases heq
  · cases heq
    rfl

theorem Leveled.addDecFunc (h : Leveled t) (f : FuncHeader) : Leveled (addDecFunc t f) := by
  apply h.addDec
  rintro d (heq | heq) <;> cases heq

theorem Leveled.find (h : Leveled t) {id : String} {d : Decl} (hf : find t id = some dec)
    (hd : dec = .v d ∨ dec = .p d) : d.level < level t :=
  h dec (List.mem_of_find?_eq_some hf) d hd

end Table

section Read
variable {t : SymbolTable} {e e' e1 e2 : TExp}

theorem decls_castIntToFloat (h : castIntToFloat e = .ok e') : e'.decls = [] := by
  obtain ⟨type,-,h⟩ := ok_of_bind h
  dsimp only at h
  split_ifs at h
  · cases h
  · cases h
    rfl

theorem decls_compare {type : Option MType} {tag : BinExp}
    (h : (if typeEquals e1.type e2.type = true then pure (TExp.bin type tag e1 e2)
      else stopWith .invalidArrayComparison) = .ok e') : e'.decls = e1.decls++e2.decls := by
  split_ifs at h
  · cases h
    rfl
  · cases h

/-- A cast hides what it reads. -/
theorem decls_checkBin {tag : BinExp} (h : checkBin tag e1 e2 = .ok e') :
    ∀ x ∈ e'.decls, x ∈ e1.decls ∨ x ∈ e2.decls := by
  obtain ⟨t1,-,h⟩ := ok_of_bind h
  obtain ⟨t2,-,h⟩ := ok_of_bind h
  dsimp only at h
  intro x hx
  split_ifs at h
  · rw [decls_compare h] at hx
    exact List.mem_append.mp hx
  · obtain ⟨cast,hc,h⟩ := ok_of_bind h
    rw [decls_compare h,decls_castIntToFloat hc,List.append_nil] at hx
    exact .inl hx
  · obtain ⟨cast,hc,h⟩ := ok_of_bind h
    rw [decls_compare h,decls_castIntToFloat hc,List.nil_append] at hx
    exact .inr hx
  · cases h

theorem level_of_checkVarId (ht : Leveled t) {id : String} {v : TVar} {type type' : MType}
    (h : checkVarId t id = .ok (v,type)) : ∀ x ∈ (TExp.var type' v).decls, x.2.level < level t := by
  unfold checkVarId at h
  split at h
  · cases h
  · next hf =>
    cases h
    intro x hx
    rw [List.mem_singleton.mp hx]
    exact ht.find hf (.inl rfl)
  · next hf =>
    cases h
    intro x hx
    rw [List.mem_singleton.mp hx]
    exact ht.find hf (.inr rfl)
  · cases h

/-- What a condition reads has been declared before. -/
theorem level_of_checkExp (ht : Leveled t) : (e : Exp) → ∀ e', checkExp t e = .ok e' →
    ∀ x ∈ e'.decls, x.2.level < level t
  | .bin tag e1 e2 => by
    intro e' h x hx
    obtain ⟨e1',h1,h⟩ := ok_of_bind h
    obtain ⟨e2',h2,h⟩ := ok_of_bind h
    obtain hx | hx := decls_checkBin h x hx
    · exact level_of_checkExp ht e1 e1' h1 x hx
    · exact level_of_checkExp ht e2 e2' h2 x hx
  | .not un => by
    intro e' h
    obtain ⟨un',hun,h⟩ := ok_of_bind h
    cases h
    exact level_of_checkExp ht un un' hun
  | .var (.id id) => by
    intro e' h
    obtain ⟨⟨v,type⟩,hv,h⟩ := ok_of_bind h
    cases h
    exact level_of_checkVarId ht hv
  | .var (.indexed e1 e2) => by
    intro e' h x hx
    obtain ⟨⟨v,type⟩,hv,h⟩ := ok_of_bind h
    cases h
    obtain ⟨e1',-,hv⟩ := ok_of_bind hv
    obtain ⟨e2',-,hv⟩ := ok_of_bind hv
    obtain ⟨type',-,hv⟩ := ok_of_bind hv
    cases hv
    cases hx
  | .call id parameters => by
    intro e' h x hx
    obtain ⟨r,-,h⟩ := ok_of_bind h
    cases h
    cases hx
  | .minus un => by
    intro e' h x hx
    obtain ⟨un',-,h⟩ := ok_of_bind h
    cases h
    cases hx
  | .new type exp => by
    intro e' h x hx
    obtain ⟨exp',-,h⟩ := ok_of_bind h
    cases h
    cases hx
  | .string c => by
    intro e' h x hx
    cases h
    cases hx
  | .int l => by
    intro e' h x hx
    cases h
    cases hx
  | .float d => by
    intro e' h x hx
    cases h
    cases hx

end Read

section Declared
variable {t t' : SymbolTable} {func : FuncHeader}

theorem checkDefVarList_levels (vars : List DefVar) : ∀ {t t' : SymbolTable} {decls : List Decl},
    checkDefVarList t vars = .ok (t',decls) → level t ≤ level t' ∧
      (Leveled t → Leveled t') ∧ ∀ d ∈ decls, level t ≤ d.level := by
  induction vars with
  | nil =>
    intro t t' decls h
    cases h
    exact ⟨Nat.le_refl _,id,fun d hd => by cases hd⟩
  | cons v vars ih =>
    intro t t' decls h
    obtain ⟨_,-,h⟩ := ok_of_bind h
    obtain ⟨⟨t₁,decls₁⟩,h₁,h⟩ := ok_of_bind h
    cases h
    obtain ⟨hle,hleveled,hdecls⟩ := ih h₁
    have hnext : level t ≤ level (addDecVar t v) := by
      rw [addDecVar,level_addDec]
      exact Nat.le_succ _
    refine ⟨hnext.trans hle,fun ht => hleveled (ht.addDecVar v),?_⟩
    intro d hd
    obtain rfl | hd := List.mem_cons.mp hd
    · exact Nat.le_refl _
    · exact hnext.trans (hdecls d hd)

theorem checkParamList_leveled (params : List Param) : ∀ {t t' : SymbolTable} {decls : List Decl},
    checkParamList t params = .ok (t',decls) → Leveled t → Leveled t' := by
  induction params with
  | nil =>
    intro t t' decls h
    cases h
    exact id
  | cons param params ih =>
    intro t t' decls h ht
    obtain ⟨_,-,h⟩ := ok_of_bind h
    obtain ⟨⟨t₁,decls₁⟩,h₁,h⟩ := ok_of_bind h
    cases h
    exact ih h₁ (ht.addParam param)

mutual

/-- What a command declares has not been declared before. -/
theorem level_of_checkCmd (func : FuncHeader) (t : SymbolTable) : (cmd : Cmd) →
    ∀ cmd', checkCmd func t cmd = .ok cmd' → ∀ d ∈ cmd'.declared, level t ≤ d.level
  | .whileDo e cmd => by
    intro cmd' h
    obtain ⟨e',-,h⟩ := ok_of_bind h
    obtain ⟨_,-,h⟩ := ok_of_bind h
    obtain ⟨c',hc,h⟩ := ok_of_bind h
    cases h
    exact level_of_checkCmd func t cmd c' hc
  | .ifThen e cmd => by
    intro cmd' h
    obtain ⟨e',-,h⟩ := ok_of_bind h
    obtain ⟨_,-,h⟩ := ok_of_bind h
    obtain ⟨c',hc,h⟩ := ok_of_bind h
    cases h
    exact level_of_checkCmd func t cmd c' hc
  | .ifElse e c1 c2 => by
    intro cmd' h d hd
    obtain ⟨e',-,h⟩ := ok_of_bind h
    obtain ⟨_,-,h⟩ := ok_of_bind h
    obtain ⟨c1',h1,h⟩ := ok_of_bind h
    obtain ⟨c2',h2,h⟩ := ok_of_bind h
    cases h
    obtain hd | hd := List.mem_append.mp hd
    · exact level_of_checkCmd func t c1 c1' h1 d hd
    · exact level_of_checkCmd func t c2 c2' h2 d hd
  | .ret none => by
    intro cmd' h d hd
    cases h
    cases hd
  | .ret (some exp) => by
    intro cmd' h d hd
    obtain ⟨exp',-,h⟩ := ok_of_bind h
    obtain ⟨_,-,h⟩ := ok_of_bind h
    cases h
    cases hd
  | .call id parameters => by
    intro cmd' h d hd
    obtain ⟨r,-,h⟩ := ok_of_bind h
    cases h
    cases hd
  | .block vars cmds => by
    intro cmd' h d hd
    obtain ⟨⟨t',decls⟩,hv,h⟩ := ok_of_bind h
    obtain ⟨cmds',hc,h⟩ := ok_of_bind h
    cases h
    obtain ⟨hle,-,hdecls⟩ := checkDefVarList_levels vars hv
    obtain hd | hd := List.mem_append.mp hd
    · exact hdecls d hd
    · exact hle.trans (level_of_checkCmdList func t' cmds cmds' hc d hd)
  | .assign var exp => by
    intro cmd' h d hd
    obtain ⟨exp',-,h⟩ := ok_of_bind h
    obtain ⟨⟨v,type⟩,-,h⟩ := ok_of_bind h
    obtain ⟨_,-,h⟩ := ok_of_bind h
    cases h
    cases hd

theorem level_of_checkCmdList (func : FuncHeader) (t : SymbolTable) : (cmds : CmdList) →
    ∀ cmds', checkCmdList func t cmds = .ok cmds' → ∀ d ∈ cmds'.declared, level t ≤ d.level
  | .nil => by
    intro cmds' h d hd
    cases h
    cases hd
  | .cons cmd next => by
    intro cmds' h d hd
    obtain ⟨cmd',hc,h⟩ := ok_of_bind h
    obtain ⟨next',hn,h⟩ := ok_of_bind h
    cases h
    obtain hd | hd := List.mem_append.mp hd
    · exact level_of_checkCmd func t cmd cmd' hc d hd
    · exact level_of_checkCmdList func t next next' hn d hd

end

end Declared

section Apart
variable {t t' : SymbolTable}

mutual

/-- What the condition of a loop reads is not declared in its body. -/
def TCmd.Apart : TCmd → Prop
  | .whileDo e cmd => (∀ x ∈ e.decls, x.2 ∉ cmd.declared) ∧ cmd.Apart
  | .ifThen _ cmd => cmd.Apart
  | .ifElse _ c1 c2 => c1.Apart ∧ c2.Apart
  | .ret _ => True
  | .call _ _ => True
  | .block _ cmds => cmds.Apart
  | .assign _ _ => True

def TCmdList.Apart : TCmdList → Prop
  | .nil => True
  | .cons cmd next => cmd.Apart ∧ next.Apart

end

mutual

theorem apart_of_checkCmd (func : FuncHeader) {t : SymbolTable} (ht : Leveled t) : (cmd : Cmd) →
    ∀ cmd', checkCmd func t cmd = .ok cmd' → cmd'.Apart
  | .whileDo e cmd => by
    intro cmd' h
    obtain ⟨e',he,h⟩ := ok_of_bind h
    obtain ⟨_,-,h⟩ := ok_of_bind h
    obtain ⟨c',hc,h⟩ := ok_of_bind h
    cases h
    refine ⟨fun x hx hmem => ?_,apart_of_checkCmd func ht cmd c' hc⟩
    have hread := level_of_checkExp ht e e' he x hx
    have hdeclared := level_of_checkCmd func t cmd c' hc x.2 hmem
    omega
  | .ifThen e cmd => by
    intro cmd' h
    obtain ⟨e',-,h⟩ := ok_of_bind h
    obtain ⟨_,-,h⟩ := ok_of_bind h
    obtain ⟨c',hc,h⟩ := ok_of_bind h
    cases h
    exact apart_of_checkCmd func ht cmd c' hc
  | .ifElse e c1 c2 => by
    intro cmd' h
    obtain ⟨e',-,h⟩ := ok_of_bind h
    obtain ⟨_,-,h⟩ := ok_of_bind h
    obtain ⟨c1',h1,h⟩ := ok_of_bind h
    obtain ⟨c2',h2,h⟩ := ok_of_bind h
    cases h
    exact ⟨apart_of_checkCmd func ht c1 c1' h1,apart_of_checkCmd func ht c2 c2' h2⟩
  | .ret none => by
    intro cmd' h
    cases h
    trivial
  | .ret (some exp) => by
    intro cmd' h
    obtain ⟨exp',-,h⟩ := ok_of_bind h
    obtain ⟨_,-,h⟩ := ok_of_bind h
    cases h
    trivial
  | .call id parameters => by
    intro cmd' h
    obtain ⟨r,-,h⟩ := ok_of_bind h
    cases h
    trivial
  | .block vars cmds => by
    intro cmd' h
    obtain ⟨⟨t',decls⟩,hv,h⟩ := ok_of_bind h
    obtain ⟨cmds',hc,h⟩ := ok_of_bind h
    cases h
    obtain ⟨-,hleveled,-⟩ := checkDefVarList_levels vars hv
    exact apart_of_checkCmdList func (hleveled ht.enterScope) cmds cmds' hc
  | .assign var exp => by
    intro cmd' h
    obtain ⟨exp',-,h⟩ := ok_of_bind h
    obtain ⟨⟨v,type⟩,-,h⟩ := ok_of_bind h
    obtain ⟨_,-,h⟩ := ok_of_bind h
    cases h
    trivial

theorem apart_of_checkCmdList (func : FuncHeader) {t : SymbolTable} (ht : Leveled t) :
    (cmds : CmdList) → ∀ cmds', checkCmdList func t cmds = .ok cmds' → cmds'.Apart
  | .nil => by
    intro cmds' h
    cases h
    trivial
  | .cons cmd next => by
    intro cmds' h
    obtain ⟨cmd',hc,h⟩ := ok_of_bind h
    obtain ⟨next',hn,h⟩ := ok_of_bind h
    cases h
    exact ⟨apart_of_checkCmd func ht cmd cmd' hc,apart_of_checkCmdList func ht next next' hn⟩

end

theorem apart_of_checkDefinition (ht : Leveled t) {definition : Definition}
    {definition' : TDefinition} (h : checkDefinition t definition = .ok (t',definition')) :
    Leveled t' ∧ ∀ f, definition' = .deffunc f → f.cmds.Apart := by
  cases definition with
  | defvar vars =>
    obtain ⟨⟨t₁,decls⟩,hv,h⟩ := ok_of_bind h
    cases h
    exact ⟨(checkDefVarList_levels vars hv).2.1 ht,fun f hf => by cases hf⟩
  | deffunc func =>
    obtain ⟨⟨t₁,f⟩,hf,h⟩ := ok_of_bind h
    cases h
    obtain ⟨_,-,hf⟩ := ok_of_bind hf
    obtain ⟨⟨inner,params⟩,hp,hf⟩ := ok_of_bind hf
    obtain ⟨⟨inner',vars⟩,hv,hf⟩ := ok_of_bind hf
    obtain ⟨cmds,hc,hf⟩ := ok_of_bind hf
    cases hf
    have hadd := ht.addDecFunc func.header
    have hinner := checkParamList_leveled _ hp hadd.enterScope
    have hinner' := (checkDefVarList_levels _ hv).2.1 hinner.enterScope
    refine ⟨hadd,?_⟩
    intro f heq
    cases heq
    exact apart_of_checkCmdList func.header hinner' func.cmds cmds hc

/-- No loop of a checked program declares again what its condition reads. -/
theorem apart_of_checkDefinitions (tree : List Definition) : ∀ {t : SymbolTable}
    {tree' : List TDefinition}, Leveled t → checkDefinitions t tree = .ok tree' →
      ∀ f, .deffunc f ∈ tree' → f.cmds.Apart := by
  induction tree with
  | nil =>
    intro t tree' _ h f hf
    cases h
    cases hf
  | cons definition next ih =>
    intro t tree' ht h f hf
    obtain ⟨⟨t',definition'⟩,hd,h⟩ := ok_of_bind h
    obtain ⟨next',hn,h⟩ := ok_of_bind h
    cases h
    obtain ⟨hleveled,hdef⟩ := apart_of_checkDefinition ht hd
    obtain hf | hf := List.mem_cons.mp hf
    · exact hdef f hf.symm
    · exact ih hleveled hn f hf

theorem apart_of_typeCheck {tree : List Definition} {tree' : List TDefinition}
    (h : typeCheck tree = .ok tree') {f : TFunc} (hf : .deffunc f ∈ tree') : f.cmds.Apart :=
  apart_of_checkDefinitions tree .start h f hf

end Apart
end PucRio.Monga
