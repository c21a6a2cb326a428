import PucRio.Monga.Soundness

/-! The forms of the trees that there is code for, and that the types read for it are there in those
that the type checker leaves. -/
namespace PucRio.Monga

section Forms

def TExp.isLiteral : TExp → Bool
  | .int _ => true
  | _ => false

mutual

/-- There is code for the value: no element of an array is read, no `void` function is called, new
arrays have literals for their sizes, and what is under a logical operation is a condition. -/
def TExp.hasValue : TExp → Bool
  | .bin _ .ExpOr e1 e2 => e1.hasJumps && e2.hasJumps
  | .bin _ .ExpAnd e1 e2 => e1.hasJumps && e2.hasJumps
  | .bin _ _ e1 e2 => e1.hasValue && e2.hasValue
  | .var _ (.id _ _) => true
  | .var _ (.indexed _ _) => false
  | .call func parameters => func.type.isSome && parameters.hasValues
  | .not _ un => un.hasJumps
  | .minus _ un => un.hasValue
  | .new _ exp => exp.isLiteral
  | .string _ => true
  | .int _ => true
  | .float _ => true
  | .castIntToFloat un => un.hasValue

/-- There is code for the condition: it is a comparison, a call or a number, or made of these by
logical operations. -/
def TExp.hasJumps : TExp → Bool
  | .bin _ .ExpOr e1 e2 => e1.hasJumps && e2.hasJumps
  | .bin _ .ExpAnd e1 e2 => e1.hasJumps && e2.hasJumps
  | .bin _ .ExpAdd _ _ => false
  | .bin _ .ExpSub _ _ => false
  | .bin _ .ExpMul _ _ => false
  | .bin _ .ExpDiv _ _ => false
  | .bin _ _ e1 e2 => e1.hasValue && e2.hasValue
  | .call func parameters => func.type.isSome && parameters.hasValues
  | .not _ un => un.hasJumps
  | .int _ => true
  | .float _ => true
  | .var _ _ => false
  | .minus _ _ => false
  | .new _ _ => false
  | .string _ => false
  | .castIntToFloat _ => false

def TExpList.hasValues : TExpList → Bool
  | .nil => true
  | .cons exp next => exp.hasValue && next.hasValues

end

/-- The index of the variable has a value, an `int` or an array of such. -/
def TVar.hasPlace : TVar → Bool
  | .id _ _ => true
  | .indexed _ e2 => e2.hasValue && e2.type.map MType.name == some .VarInt

mutual

/-- There is code for the command: a `return` has a value. -/
def TCmd.hasCode : TCmd → Bool
  | .whileDo e cmd => e.hasJumps && cmd.hasCode
  | .ifThen e cmd => e.hasJumps && cmd.hasCode
  | .ifElse e c1 c2 => e.hasJumps && c1.hasCode && c2.hasCode
  | .ret none => false
  | .ret (some exp) => exp.hasValue
  | .call func parameters => func.type.isSome && parameters.hasValues
  | .block _ cmds => cmds.hasCode
  | .assign var exp => exp.hasValue && var.hasPlace

def TCmdList.hasCode : TCmdList → Bool
  | .nil => true
  | .cons cmd next => cmd.hasCode && next.hasCode

end

/-- The function is not `void`. -/
def TFunc.hasCode (func : TFunc) : Bool := func.header.type.isSome && func.cmds.hasCode

def TDefinition.hasCode : TDefinition → Bool
  | .defvar _ => true
  | .deffunc func => func.hasCode

end Forms

section Typed

mutual

/-- The types that are read are there, but for those of calls. -/
def TExp.Typed : TExp → Prop
  | .bin type _ e1 e2 => e1.Typed ∧ e2.Typed ∧ type ≠ none ∧ e1.type ≠ none
  | .var _ var => var.Typed
  | .call _ parameters => parameters.Typed
  | .not type un => un.Typed ∧ type = un.type
  | .minus type un => un.Typed ∧ type = un.type
  | .new _ _ => True
  | .string _ => True
  | .int _ => True
  | .float _ => True
  | .castIntToFloat un => un.Typed

def TVar.Typed : TVar → Prop
  | .id _ _ => True
  | .indexed _ e2 => e2.Typed

def TExpList.Typed : TExpList → Prop
  | .nil => True
  | .cons exp next => exp.Typed ∧ exp.type ≠ none ∧ next.Typed

end

mutual

def TCmd.Typed : TCmd → Prop
  | .whileDo e cmd => e.Typed ∧ cmd.Typed
  | .ifThen e cmd => e.Typed ∧ cmd.Typed
  | .ifElse e c1 c2 => e.Typed ∧ c1.Typed ∧ c2.Typed
  | .ret none => True
  | .ret (some exp) => exp.Typed
  | .call _ parameters => parameters.Typed
  | .block _ cmds => cmds.Typed
  | .assign var exp => var.Typed ∧ exp.Typed ∧ exp.type ≠ none

def TCmdList.Typed : TCmdList → Prop
  | .nil => True
  | .cons cmd next => cmd.Typed ∧ next.Typed

end

def TDefinition.Typed : TDefinition → Prop
  | .defvar _ => True
  | .deffunc func => func.cmds.Typed

mutual

/-- What has a value or jumps has a type. -/
theorem TExp.Typed.type_of_hasValue : (e : TExp) → e.Typed → e.hasValue = true →
    e.type.isSome = true
  | .bin _ _ _ _,h,_ => Option.isSome_iff_ne_none.mpr h.2.2.1
  | .var _ _,_,_ => rfl
  | .call _ _,_,hv => by
    rw [TExp.hasValue,Bool.and_eq_true] at hv
    rw [TExp.type,Option.isSome_map]
    exact hv.1
  | .not type un,h,hv => by
    rw [TExp.type,h.2]
    exact TExp.Typed.type_of_hasJumps un h.1 hv
  | .minus type un,h,hv => by
    rw [TExp.type,h.2]
    exact TExp.Typed.type_of_hasValue un h.1 hv
  | .new _ _,_,_ => rfl
  | .string _,_,_ => rfl
  | .int _,_,_ => rfl
  | .float _,_,_ => rfl
  | .castIntToFloat _,_,_ => rfl

theorem TExp.Typed.type_of_hasJumps : (e : TExp) → e.Typed → e.hasJumps = true →
    e.type.isSome = true
  | .bin _ _ _ _,h,_ => Option.isSome_iff_ne_none.mpr h.2.2.1
  | .var _ _,_,hv => by cases hv
  | .call _ _,_,hv => by
    rw [TExp.hasJumps,Bool.and_eq_true] at hv
    rw [TExp.type,Option.isSome_map]
    exact hv.1
  | .not type un,h,hv => by
    rw [TExp.type,h.2]
    exact TExp.Typed.type_of_hasJumps un h.1 hv
  | .minus _ _,_,hv => by cases hv
  | .new _ _,_,_ => rfl
  | .string _,_,_ => rfl
  | .int _,_,_ => rfl
  | .float _,_,_ => rfl
  | .castIntToFloat _,_,_ => rfl

end

end Typed

section Checked
variable {e e1 e2 : TExp} {t : SymbolTable}

theorem typed_castIntToFloat (h : e.Typed) :
    Settles (castIntToFloat e) False fun c => c.Typed ∧ c.type ≠ none := by
  refine (settles_castIntToFloat fun hp => hp.elim).mono id fun c hc => ?_
  obtain ⟨rfl,-⟩ := hc
  exact ⟨h,Option.some_ne_none _⟩

theorem typed_compare {type : Option MType} {tag : BinExp} (h1 : e1.Typed) (h2 : e2.Typed)
    (htype : type ≠ none) (he1 : e1.type ≠ none) :
    Settles (if typeEquals e1.type e2.type = true then pure (TExp.bin type tag e1 e2)
      else stopWith .invalidArrayComparison) False TExp.Typed := by
  split_ifs
  · exact settles_pure ⟨h1,h2,htype,he1⟩
  · exact settles_stopWith

theorem typed_checkBin (tag : BinExp) (h1 : e1.Typed) (h2 : e2.Typed) :
    Settles (checkBin tag e1 e2) False TExp.Typed := by
  unfold checkBin
  refine (settles_deref fun hp => hp.elim).bind id fun t1 ht1 => ?_
  refine (settles_deref fun hp => hp.elim).bind id fun t2 ht2 => ?_
  have hne1 : e1.type ≠ none := ht1 ▸ Option.some_ne_none t1
  have hne2 : e2.type ≠ none := ht2 ▸ Option.some_ne_none t2
  dsimp only
  split_ifs
  · exact typed_compare h1 h2 hne1 hne1
  · refine (typed_castIntToFloat h2).bind id fun c hc => ?_
    exact typed_compare h1 hc.1 hne1 hne1
  · refine (typed_castIntToFloat h1).bind id fun c hc => ?_
    exact typed_compare hc.1 h2 hne2 hc.2
  · exact settles_stopWith

theorem ne_none_of_typeEquals {t1 : Option MType} {t2 : MType}
    (h : typeEquals t1 (some t2) = true) : t1 ≠ none := by
  rintro rfl
  cases h

theorem typed_checkArgument (id : String) (param : Param) (h : e.Typed) :
    Settles (checkArgument id param e) False fun e' => e'.Typed ∧ e'.type ≠ none := by
  unfold checkArgument
  split_ifs with heq
  · exact settles_pure ⟨h,ne_none_of_typeEquals heq⟩
  · refine (settles_deref fun hp => hp.elim).bind (fun hp => hp) fun τ _ => ?_
    split_ifs
    · exact typed_castIntToFloat h
    · exact settles_stopWith

/-- The arguments have been checked one by one. -/
def TExpList.EachTyped : TExpList → Prop
  | .nil => True
  | .cons exp next => exp.Typed ∧ next.EachTyped

theorem typed_checkSignature (id : String) : (exps : TExpList) → (params : List Param) →
    exps.EachTyped → Settles (checkSignature id exps params) False TExpList.Typed
  | .nil,[],_ => settles_pure trivial
  | .nil,_::_,_ => settles_stopWith
  | .cons _ _,[],_ => settles_stopWith
  | .cons exp next,param::params,h => by
    refine (typed_checkArgument id param h.1).bind (fun hp => hp) fun exp' hexp => ?_
    refine (typed_checkSignature id next params h.2).bind (fun hp => hp) fun next' hnext => ?_
    exact settles_pure ⟨hexp.1,hexp.2,hnext⟩

theorem typed_checkCmdCall {id : String} {checked : Except Stop TExpList}
    (h : Settles checked False TExpList.EachTyped) :
    Settles (checkCmdCall t id checked) False fun r => r.2.Typed := by
  unfold checkCmdCall
  split
  · exact settles_stopWith
  · rename_i func _
    refine h.bind (fun hp => hp) fun exps hexps => ?_
    refine (typed_checkSignature id exps func.params hexps).bind (fun hp => hp) fun exps' h' => ?_
    exact settles_pure h'
  · exact settles_stopWith

theorem typed_checkVarId (id : String) :
    Settles (checkVarId t id) False fun r => r.1.Typed := by
  unfold checkVarId
  split
  · exact settles_stopWith
  · exact settles_pure trivial
  · exact settles_pure trivial
  · exact settles_stopWith

theorem typed_checkAssigned {var : TVar} (h : e.Typed) :
    Settles (checkAssigned var e) False fun e' => e'.Typed ∧ e'.type ≠ none := by
  cases var with
  | id tag decl =>
    refine (settles_deref fun hp => hp.elim).bind (fun hp => hp) fun τ hτ => ?_
    have hcast : Settles (castAssigned decl τ e) False fun e' => e'.Typed ∧ e'.type ≠ none := by
      unfold castAssigned
      split_ifs
      · exact typed_castIntToFloat h
      · exact settles_pure ⟨h,hτ ▸ Option.some_ne_none τ⟩
    refine hcast.bind (fun hp => hp) fun e' he' => ?_
    split_ifs
    · exact settles_pure he'
    · exact settles_stopWith
  | indexed a i =>
    refine (settles_deref fun hp => hp.elim).bind (fun hp => hp) fun t1 _ => ?_
    refine (settles_deref fun hp => hp.elim).bind (fun hp => hp) fun τ hτ => ?_
    split_ifs
    · exact settles_pure ⟨h,hτ ▸ Option.some_ne_none τ⟩
    · exact settles_stopWith

mutual

theorem typed_checkExp (t : SymbolTable) : (e : Exp) → Settles (checkExp t e) False TExp.Typed
  | .bin tag e1 e2 => by
    refine (typed_checkExp t e1).bind id fun te1 h1 => ?_
    refine (typed_checkExp t e2).bind id fun te2 h2 => ?_
    exact typed_checkBin tag h1 h2
  | .var v => (typed_checkVar t v).bind id fun _ hr => settles_pure hr
  | .call id parameters =>
    (typed_checkCmdCall (typed_checkExpList t parameters)).bind (fun hp => hp) fun _ hr =>
      settles_pure hr
  | .not un => (typed_checkExp t un).bind id fun _ h => settles_pure ⟨h,rfl⟩
  | .minus un => (typed_checkExp t un).bind id fun _ h => settles_pure ⟨h,rfl⟩
  | .new type exp => (typed_checkExp t exp).bind id fun _ _ => settles_pure trivial
  | .string _ => settles_pure trivial
  | .int _ => settles_pure trivial
  | .float _ => settles_pure trivial

theorem typed_checkVar (t : SymbolTable) : (v : Var) →
    Settles (checkVar t v) False fun r => r.1.Typed
  | .id id => typed_checkVarId id
  | .indexed e1 e2 => by
    refine (typed_checkExp t e1).bind id fun te1 _ => ?_
    refine (typed_checkExp t e2).bind id fun te2 h2 => ?_
    exact (settles_deref fun hp => hp.elim).bind id fun _ _ => settles_pure h2

theorem typed_checkExpList (t : SymbolTable) : (exps : ExpList) →
    Settles (checkExpList t exps) False TExpList.EachTyped
  | .nil => settles_pure trivial
  | .cons exp next => by
    refine (typed_checkExp t exp).bind id fun texp h1 => ?_
    refine (typed_checkExpList t next).bind id fun tnext h2 => ?_
    exact settles_pure ⟨h1,h2⟩

end

end Checked

section CheckedCommands
variable {t : SymbolTable}

mutual

theorem typed_checkCmd (func : FuncHeader) (t : SymbolTable) : (c : Cmd) →
    Settles (checkCmd func t c) False TCmd.Typed
  | .whileDo e cmd => by
    refine (typed_checkExp t e).cond id (fun hp => hp.elim) _ fun te h => ?_
    exact (typed_checkCmd func t cmd).bind id fun tc hc => settles_pure ⟨h,hc⟩
  | .ifThen e cmd => by
    refine (typed_checkExp t e).cond id (fun hp => hp.elim) _ fun te h => ?_
    exact (typed_checkCmd func t cmd).bind id fun tc hc => settles_pure ⟨h,hc⟩
  | .ifElse e c1 c2 => by
    refine (typed_checkExp t e).cond id (fun hp => hp.elim) _ fun te h => ?_
    refine (typed_checkCmd func t c1).bind id fun tc1 h1 => ?_
    exact (typed_checkCmd func t c2).bind id fun tc2 h2 => settles_pure ⟨h,h1,h2⟩
  | .ret none => settles_pure trivial
  | .ret (some exp) => by
    refine (typed_checkExp t exp).bind id fun te h => ?_
    refine settles_checkReturn.bind id fun te' h' => ?_
    obtain ⟨rfl,-⟩ := h'
    exact settles_pure h
  | .call id exps =>
    (typed_checkCmdCall (typed_checkExpList t exps)).bind (fun hp => hp) fun _ hr => settles_pure hr
  | .block vars cmds => by
    refine (settles_checkDefVarList vars).bind id fun r _ => ?_
    exact (typed_checkCmdList func r.1 cmds).bind id fun tcs hcs => settles_pure hcs
  | .assign v exp => by
    refine (typed_checkExp t exp).bind id fun te h => ?_
    refine (typed_checkVar t v).bind id fun r hr => ?_
    exact (typed_checkAssigned h).bind id fun te' h' => settles_pure ⟨hr,h'⟩

theorem typed_checkCmdList (func : FuncHeader) (t : SymbolTable) : (cs : CmdList) →
    Settles (checkCmdList func t cs) False TCmdList.Typed
  | .nil => settles_pure trivial
  | .cons cmd next => by
    refine (typed_checkCmd func t cmd).bind id fun tc hc => ?_
    exact (typed_checkCmdList func t next).bind id fun tcs hcs => settles_pure ⟨hc,hcs⟩

end

theorem typed_checkDefinition (definition : Definition) :
    Settles (checkDefinition t definition) False fun r => r.2.Typed := by
  cases definition with
  | defvar vars => exact (settles_checkDefVarList vars).bind id fun _ _ => settles_pure trivial
  | deffunc func =>
    have hfunc : Settles (checkDefFunc t func) False fun r => TDefinition.Typed (.deffunc r.2) := by
      refine (settles_checkSymbolRedefinition func.header.id).bind id fun _ _ => ?_
      refine (settles_checkParamList func.header.params).bind id fun r _ => ?_
      refine (settles_checkDefVarList func.vars).bind id fun r _ => ?_
      exact (typed_checkCmdList func.header r.1 func.cmds).bind id fun cmds hcmds =>
        settles_pure hcmds
    exact hfunc.bind id fun _ hr => settles_pure hr

theorem typed_checkDefinitions (tree : List Definition) :
    Settles (checkDefinitions t tree) False fun ttree =>
      ∀ definition ∈ ttree, definition.Typed := by
  induction tree generalizing t with
  | nil => exact settles_pure (List.forall_mem_nil _)
  | cons definition tree ih =>
    refine (typed_checkDefinition definition).bind id fun r hr => ?_
    exact ih.bind id fun ttree htree => settles_pure (List.forall_mem_cons.mpr ⟨hr,htree⟩)

theorem typed_of_typeCheck {tree : List Definition} {ttree : List TDefinition}
    (h : typeCheck tree = .ok ttree) : ∀ definition ∈ ttree, definition.Typed := by
  have hcheck : Settles (typeCheck tree) False fun ttree =>
      ∀ definition ∈ ttree, definition.Typed :=
    typed_checkDefinitions tree
  rw [h] at hcheck
  exact hcheck

end CheckedCommands

end PucRio.Monga
