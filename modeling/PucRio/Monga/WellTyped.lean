import PucRio.Monga.TypeChecking

/-! Well-typed trees, and the programs that a checker without a hole would have to refuse. -/
namespace PucRio.Monga

section Checked

/-- There is a type, and it is no less than a value. -/
def Carried (type : Option MType) : Prop := ∃ τ, type = some τ ∧ 0 ≤ τ.brackets

/-- Arguments and parameters agree in number and type. -/
def Agree : TExpList → List Param → Prop
  | .nil,[] => True
  | .cons exp next,param::params =>
    typeEquals exp.type (some param.type.toType) = true ∧ Agree next params
  | _,_ => False

/-- The type of what the variable is assigned. -/
def TVar.type : TVar → Option MType
  | .id _ decl => some decl.type.toType
  | .indexed e1 _ => e1.type.map fun τ => ⟨τ.name,τ.brackets-1⟩

mutual

def TExp.WellTyped : TExp → Prop
  | .bin type _ e1 e2 => e1.WellTyped ∧ e2.WellTyped ∧ Carried type ∧ e1.type = e2.type
  | .var type var => var.WellTyped ∧ Carried (some type)
  | .call func parameters => parameters.WellTyped ∧ Agree parameters func.params ∧
    Carried (func.type.map DeclType.toType)
  | .not type un => un.WellTyped ∧ Carried type
  | .minus type un => un.WellTyped ∧ Carried type
  | .new type exp => exp.WellTyped ∧ Carried (some type)
  | .string _ => True
  | .int _ => True
  | .float _ => True
  | .castIntToFloat un => un.WellTyped ∧ un.type = some ⟨.VarInt,0⟩

def TVar.WellTyped : TVar → Prop
  | .id _ _ => True
  | .indexed e1 e2 => e1.WellTyped ∧ e2.WellTyped ∧ (∃ τ, e1.type = some τ ∧ 1 ≤ τ.brackets) ∧
    e2.type = some ⟨.VarInt,0⟩

def TExpList.WellTyped : TExpList → Prop
  | .nil => True
  | .cons exp next => exp.WellTyped ∧ next.WellTyped

end

mutual

def TCmd.WellTyped (func : FuncHeader) : TCmd → Prop
  | .whileDo e cmd => e.WellTyped ∧ cmd.WellTyped func
  | .ifThen e cmd => e.WellTyped ∧ cmd.WellTyped func
  | .ifElse e c1 c2 => e.WellTyped ∧ c1.WellTyped func ∧ c2.WellTyped func
  | .ret none => func.type = none
  | .ret (some exp) => exp.WellTyped ∧
    typeEquals exp.type (func.type.map DeclType.toType) = true
  | .call func parameters => parameters.WellTyped ∧ Agree parameters func.params
  | .block _ cmds => cmds.WellTyped func
  | .assign var exp => var.WellTyped ∧ exp.WellTyped ∧ typeEquals var.type exp.type = true

def TCmdList.WellTyped (func : FuncHeader) : TCmdList → Prop
  | .nil => True
  | .cons cmd next => cmd.WellTyped func ∧ next.WellTyped func

end

def TDefinition.WellTyped : TDefinition → Prop
  | .defvar _ => True
  | .deffunc func => func.cmds.WellTyped func.header

theorem TExp.WellTyped.carried {e : TExp} (h : e.WellTyped) : Carried e.type := by
  cases e with
  | bin => exact h.2.2.1
  | var => exact h.2
  | call => exact h.2.2
  | not => exact h.2
  | minus => exact h.2
  | new => exact h.2
  | string => exact ⟨_,rfl,Int.le_refl 0⟩
  | int => exact ⟨_,rfl,Int.le_refl 0⟩
  | float => exact ⟨_,rfl,Int.le_refl 0⟩
  | castIntToFloat => exact ⟨_,rfl,Int.le_refl 0⟩

theorem carried_toType (t : DeclType) : Carried (some t.toType) :=
  ⟨_,rfl,Int.natCast_nonneg t.brackets⟩

theorem carried_read (t : DeclType) : Carried (some t.read) := by
  unfold DeclType.read
  split_ifs
  · exact ⟨_,rfl,Int.natCast_nonneg t.brackets⟩
  · exact carried_toType t

end Checked

section Parsed

/-- The type of two operands, one of which may be cast. -/
def binType (t1 t2 : MType) : MType := if t1.name = .VarInt ∧ t2.name = .VarFloat then t2 else t1

def calledType (t : SymbolTable) (id : String) : Option MType :=
  match find t id with
  | some (.f func) => func.type.map DeclType.toType
  | _ => none

mutual

/-- The type that the declarations give an expression; none for the call of a `void` function. -/
def Exp.typeIn (t : SymbolTable) : Exp → Option MType
  | .bin _ e1 e2 => (e1.typeIn t).bind fun t1 => (e2.typeIn t).map (binType t1)
  | .var var => var.typeIn t
  | .call id _ => calledType t id
  | .not un => un.typeIn t
  | .minus un => un.typeIn t
  | .new type _ => some ⟨type.name,type.brackets+1⟩
  | .string _ => some ⟨.VarChar,0⟩
  | .int _ => some ⟨.VarInt,0⟩
  | .float _ => some ⟨.VarFloat,0⟩

def Var.typeIn (t : SymbolTable) : Var → Option MType
  | .id id => match find t id with
    | some (.v decl) => some decl.type.read
    | some (.p decl) => some decl.type.read
    | _ => none
  | .indexed e1 _ => (e1.typeIn t).map fun τ => ⟨τ.name,τ.brackets-1⟩

end

def declareVars (t : SymbolTable) (vars : List DefVar) : SymbolTable := vars.foldl addDecVar t

def declareParams (t : SymbolTable) (params : List Param) : SymbolTable := params.foldl addParam t

mutual

/-- No call of a `void` function is used as a value, and only arrays are indexed, with an `int`. -/
def Exp.proper (t : SymbolTable) : Exp → Bool
  | .bin _ e1 e2 => e1.proper t && e2.proper t
  | .var var => var.proper t
  | .call id parameters => parameters.proper t && match find t id with
    | some (.f func) => func.type.isSome
    | _ => true
  | .not un => un.proper t
  | .minus un => un.proper t
  | .new _ exp => exp.proper t
  | .string _ => true
  | .int _ => true
  | .float _ => true

def Var.proper (t : SymbolTable) : Var → Bool
  | .id _ => true
  | .indexed e1 e2 => e1.proper t && e2.proper t &&
    (e1.typeIn t).all (fun τ => decide (1 ≤ τ.brackets)) && (e2.typeIn t).all MType.isInt

def ExpList.proper (t : SymbolTable) : ExpList → Bool
  | .nil => true
  | .cons exp next => exp.proper t && next.proper t

end

mutual

/-- Besides, a `return` without a value is in a `void` function. A command may call one. -/
def Cmd.proper (func : FuncHeader) (t : SymbolTable) : Cmd → Bool
  | .whileDo e cmd => e.proper t && cmd.proper func t
  | .ifThen e cmd => e.proper t && cmd.proper func t
  | .ifElse e c1 c2 => e.proper t && c1.proper func t && c2.proper func t
  | .ret none => func.type.isNone
  | .ret (some exp) => exp.proper t
  | .call _ parameters => parameters.proper t
  | .block vars cmds => cmds.proper func (declareVars (enterScope t) vars)
  | .assign var exp => exp.proper t && var.proper t

def CmdList.proper (func : FuncHeader) (t : SymbolTable) : CmdList → Bool
  | .nil => true
  | .cons cmd next => cmd.proper func t && next.proper func t

end

def Func.proper (t : SymbolTable) (f : Func) : Bool :=
  f.cmds.proper f.header (declareVars (enterScope
    (declareParams (enterScope (addDecFunc t f.header)) f.header.params)) f.vars)

def declare (t : SymbolTable) : Definition → SymbolTable
  | .defvar vars => declareVars t vars
  | .deffunc func => addDecFunc t func.header

def Definition.proper (t : SymbolTable) : Definition → Bool
  | .defvar _ => true
  | .deffunc func => func.proper t

def properFrom (t : SymbolTable) : List Definition → Bool
  | [] => true
  | definition::next => definition.proper t && properFrom (declare t definition) next

/-- The condition on a program. -/
def proper (tree : List Definition) : Bool := properFrom [[]] tree

end Parsed
end PucRio.Monga
