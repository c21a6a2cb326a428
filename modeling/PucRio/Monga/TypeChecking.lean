import PucRio.Monga.Ast

/-! The symbol table and the type checker. Checking stops where the source prints a message and exits,
or reads a field of a type that is `NULL`. -/
namespace PucRio.Monga

section SymbolTable

inductive Dec
  | v (defvar : Decl)
  | p (param : Decl)
  | f (func : FuncHeader)
  deriving DecidableEq, Repr

def Dec.id : Dec → String
  | .v defvar => defvar.id
  | .p param => param.id
  | .f func => func.id

/-- The scopes, the innermost one first, and each in the order of its declarations. -/
abbrev SymbolTable := List (List Dec)

def findCurrentScope (t : SymbolTable) (id : String) : Option Dec :=
  (t.headD []).find? fun dec => dec.id = id

def find (t : SymbolTable) (id : String) : Option Dec := t.flatten.find? fun dec => dec.id = id

def enterScope (t : SymbolTable) : SymbolTable := []::t

/-- How many declarations are in scope. -/
def level (t : SymbolTable) : ℕ := t.flatten.length

/-- A declaration goes to the end of the current scope. -/
def addDec (t : SymbolTable) (dec : Dec) : SymbolTable :=
  match t with
  | [] => [[dec]]
  | current::previous => (current++[dec])::previous

def addDecVar (t : SymbolTable) (v : DefVar) : SymbolTable := addDec t (.v ⟨v.type,v.id,level t⟩)

def addParam (t : SymbolTable) (param : Param) : SymbolTable :=
  addDec t (.p ⟨param.type,param.id,level t⟩)

def addDecFunc (t : SymbolTable) (f : FuncHeader) : SymbolTable := addDec t (.f f)

end SymbolTable

/-- The messages of the checker. -/
inductive Diagnostic
  | alreadyDefined (id : String)
  | invalidExpression
  | invalidArrayComparison
  | invalidCast
  | undefinedFunction (id : String)
  | nonFunction (id : String)
  | incompatibleCall (id : String)
  | undefinedSymbol (id : String)
  | invalidAssignment (id : String)
  | incompatibleAssignment (id : String)
  | incompatibleIndexedAssignment
  | invalidReturn (id : String)
  | whileNotNumerical
  | ifNotNumerical
  deriving DecidableEq, Repr

inductive Stop
  | diagnostic (d : Diagnostic)
  | null
  deriving DecidableEq, Repr

def stopWith {α : Type} (d : Diagnostic) : Except Stop α := .error (.diagnostic d)

/-- The fields of a type are read. -/
def deref : Option MType → Except Stop MType
  | none => .error .null
  | some type => .ok type

/-- An `int` is as good as a `char`. -/
def typeEquals : Option MType → Option MType → Bool
  | none,none => true
  | some t1,some t2 => (t1.name == t2.name || (t1.name == .VarInt && t2.name == .VarChar) ||
      (t1.name == .VarChar && t2.name == .VarInt)) && t1.brackets == t2.brackets
  | _,_ => false

def isExpNumerical (e : TExp) : Except Stop Bool := do
  let type ← deref e.type
  return (type.name == .VarFloat || type.name == .VarInt) && type.brackets == 0

def castIntToFloat (e : TExp) : Except Stop TExp := do
  let type ← deref e.type
  if type.name ≠ .VarInt ∨ 0 < type.brackets then stopWith .invalidCast
  return .castIntToFloat e

def MType.isInt (t : MType) : Bool := t.name == .VarInt && t.brackets == 0

def DeclType.isFloat (t : DeclType) : Bool := t.name == .VarFloat && t.brackets == 0

/-- The type that a variable is read with. -/
def DeclType.read (t : DeclType) : MType :=
  if t.name = .VarChar then ⟨.VarInt,t.brackets⟩ else t.toType

/-- Both operands have been checked; one of them may be cast. -/
def checkBin (tag : BinExp) (e1 e2 : TExp) : Except Stop TExp := do
  let t1 ← deref e1.type
  let t2 ← deref e2.type
  let (e1,e2,type) ←
    if t1.name = t2.name then pure (e1,e2,e1.type)
    else if t1.name = .VarFloat ∧ t2.name = .VarInt then do
      let cast ← castIntToFloat e2
      pure (e1,cast,e1.type)
    else if t1.name = .VarInt ∧ t2.name = .VarFloat then do
      let cast ← castIntToFloat e1
      pure (cast,e2,e2.type)
    else stopWith .invalidExpression
  if typeEquals e1.type e2.type then return .bin type tag e1 e2
  else stopWith .invalidArrayComparison

/-- An argument as the function called gets it. -/
def checkArgument (id : String) (param : Param) (exp : TExp) : Except Stop TExp :=
  if typeEquals exp.type (some param.type.toType) then return exp
  else do
    let type ← deref exp.type
    if type.isInt && param.type.isFloat then castIntToFloat exp
    else stopWith (.incompatibleCall id)

/-- The arguments of a call against the parameters of the function. -/
def checkSignature (id : String) : TExpList → List Param → Except Stop TExpList
  | .nil,[] => pure .nil
  | .cons exp next,param::params => do
    let exp ← checkArgument id param exp
    let next ← checkSignature id next params
    return .cons exp next
  | _,_ => stopWith (.incompatibleCall id)

/-- The arguments are checked when the function has been found. -/
def checkCmdCall (t : SymbolTable) (id : String) (parameters : Except Stop TExpList) :
    Except Stop (FuncHeader × TExpList) :=
  match find t id with
  | none => stopWith (.undefinedFunction id)
  | some (.f func) => do
    let parameters ← parameters
    let parameters ← checkSignature id parameters func.params
    return (func,parameters)
  | some _ => stopWith (.nonFunction id)

def checkVarId (t : SymbolTable) (id : String) : Except Stop (TVar × MType) :=
  match find t id with
  | none => stopWith (.undefinedSymbol id)
  | some (.v decl) => return (.id .VarDec decl,decl.type.read)
  | some (.p decl) => return (.id .VarParam decl,decl.type.read)
  | some (.f _) => stopWith (.invalidAssignment id)

/-- The array and the index have been checked. -/
def checkVarIndexed (e1 e2 : TExp) : Except Stop (TVar × MType) := do
  let type ← deref e1.type
  return (.indexed e1 e2,⟨type.name,type.brackets-1⟩)

/-- The expression of the type is cast for the variable where it has to be. -/
def castAssigned (decl : Decl) (type : MType) (exp : TExp) : Except Stop TExp :=
  if type.isInt && decl.type.isFloat then castIntToFloat exp else return exp

/-- What `checkVar` does beside that with the expression that the variable is assigned. -/
def checkAssigned : TVar → TExp → Except Stop TExp
  | .id _ decl,exp => do
    let type ← deref exp.type
    let exp ← castAssigned decl type exp
    if typeEquals (some decl.type.toType) exp.type then return exp
    else stopWith (.incompatibleAssignment decl.id)
  | .indexed e1 _,exp => do
    let t1 ← deref e1.type
    let type ← deref exp.type
    if t1.name = type.name ∧ t1.brackets-1 = type.brackets then return exp
    else stopWith .incompatibleIndexedAssignment

mutual

def checkExp (t : SymbolTable) : Exp → Except Stop TExp
  | .bin tag e1 e2 => do
    let e1 ← checkExp t e1
    let e2 ← checkExp t e2
    checkBin tag e1 e2
  | .var var => do
    let (var,type) ← checkVar t var
    return .var type var
  | .call id parameters => do
    let (func,parameters) ← checkCmdCall t id (checkExpList t parameters)
    return .call func parameters
  | .not un => do
    let un ← checkExp t un
    return .not un.type un
  | .minus un => do
    let un ← checkExp t un
    return .minus un.type un
  | .new type exp => do
    let exp ← checkExp t exp
    return .new ⟨type.name,type.brackets+1⟩ exp
  | .string c => return .string c
  | .int l => return .int l
  | .float d => return .float d

def checkExpList (t : SymbolTable) : ExpList → Except Stop TExpList
  | .nil => return .nil
  | .cons exp next => do
    let exp ← checkExp t exp
    let next ← checkExpList t next
    return .cons exp next

def checkVar (t : SymbolTable) : Var → Except Stop (TVar × MType)
  | .id id => checkVarId t id
  | .indexed e1 e2 => do
    let e1 ← checkExp t e1
    let e2 ← checkExp t e2
    checkVarIndexed e1 e2

end

/-- Only a name that is new in the current scope can be declared. -/
def checkSymbolRedefinition (t : SymbolTable) (id : String) : Except Stop Unit :=
  if (findCurrentScope t id).isSome then stopWith (.alreadyDefined id) else return ()

def checkDefVarList (t : SymbolTable) : List DefVar → Except Stop (SymbolTable × List Decl)
  | [] => return (t,[])
  | v::vars => do
    checkSymbolRedefinition t v.id
    let (t',decls) ← checkDefVarList (addDecVar t v) vars
    return (t',⟨v.type,v.id,level t⟩::decls)

def checkParamList (t : SymbolTable) : List Param → Except Stop (SymbolTable × List Decl)
  | [] => return (t,[])
  | param::params => do
    checkSymbolRedefinition t param.id
    let (t',decls) ← checkParamList (addParam t param) params
    return (t',⟨param.type,param.id,level t⟩::decls)

def checkReturn (func : FuncHeader) (exp : TExp) : Except Stop TExp :=
  if typeEquals exp.type (func.type.map DeclType.toType) then return exp
  else stopWith (.invalidReturn func.id)

/-- The condition of a command has been checked. -/
def checkCond (e : TExp) (d : Diagnostic) : Except Stop Unit := do
  let numerical ← isExpNumerical e
  if numerical then return () else stopWith d

mutual

/-- A command in the function with this header. -/
def checkCmd (func : FuncHeader) (t : SymbolTable) : Cmd → Except Stop TCmd
  | .whileDo e cmd => do
    let e ← checkExp t e
    checkCond e .whileNotNumerical
    let cmd ← checkCmd func t cmd
    return .whileDo e cmd
  | .ifThen e cmd => do
    let e ← checkExp t e
    checkCond e .ifNotNumerical
    let cmd ← checkCmd func t cmd
    return .ifThen e cmd
  | .ifElse e c1 c2 => do
    let e ← checkExp t e
    checkCond e .ifNotNumerical
    let c1 ← checkCmd func t c1
    let c2 ← checkCmd func t c2
    return .ifElse e c1 c2
  | .ret none => return .ret none
  | .ret (some exp) => do
    let exp ← checkExp t exp
    let exp ← checkReturn func exp
    return .ret (some exp)
  | .call id parameters => do
    let (func,parameters) ← checkCmdCall t id (checkExpList t parameters)
    return .call func parameters
  | .block vars cmds => do
    let (t,decls) ← checkDefVarList (enterScope t) vars
    let cmds ← checkCmdList func t cmds
    return .block decls cmds
  | .assign var exp => do
    let exp ← checkExp t exp
    let (var,_) ← checkVar t var
    let exp ← checkAssigned var exp
    return .assign var exp

def checkCmdList (func : FuncHeader) (t : SymbolTable) : CmdList → Except Stop TCmdList
  | .nil => return .nil
  | .cons cmd next => do
    let cmd ← checkCmd func t cmd
    let next ← checkCmdList func t next
    return .cons cmd next

end

/-- The function is declared before its block is checked. -/
def checkDefFunc (t : SymbolTable) (f : Func) : Except Stop (SymbolTable × TFunc) := do
  checkSymbolRedefinition t f.header.id
  let t := addDecFunc t f.header
  let (inner,params) ← checkParamList (enterScope t) f.header.params
  let (inner,vars) ← checkDefVarList (enterScope inner) f.vars
  let cmds ← checkCmdList f.header inner f.cmds
  return (t,⟨f.header,params,vars,cmds⟩)

def checkDefinition (t : SymbolTable) : Definition → Except Stop (SymbolTable × TDefinition)
  | .defvar vars => do
    let (t,decls) ← checkDefVarList t vars
    return (t,.defvar decls)
  | .deffunc func => do
    let (t,func) ← checkDefFunc t func
    return (t,.deffunc func)

def checkDefinitions (t : SymbolTable) : List Definition → Except Stop (List TDefinition)
  | [] => return []
  | definition::next => do
    let (t,definition) ← checkDefinition t definition
    let next ← checkDefinitions t next
    return definition::next

def typeCheck (tree : List Definition) : Except Stop (List TDefinition) := checkDefinitions [[]] tree

end PucRio.Monga
