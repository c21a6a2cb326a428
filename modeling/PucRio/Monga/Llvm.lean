import PucRio.Monga.Ast
import Mathlib.Logic.Function.Basic

/-! The code generator: what it prints for a checked tree, line by line, with the counters of the
temporaries and of the labels. It stops where the source prints a message and exits, and where it
reads a field through `NULL` or through a pointer to a record of another kind. Indentation is left
out. -/
namespace PucRio.Monga

section Items

/-- The opcodes of the comparisons. -/
inductive Opcode
  | slt
  | sle
  | sgt
  | sge
  | eq
  | olt
  | ole
  | ogt
  | oge
  | oeq
  deriving DecidableEq, Repr

/-- Where a value is stored: at `%tN`, at `@tN`, or at a number that is no field of the record that
it is read from. -/
inductive Place
  | temp (n : ℕ)
  | global (n : ℕ)
  | garbage
  deriving DecidableEq, Repr

/-- What is printed. -/
inductive Item
  /-- `lN:` -/
  | label (l : ℕ)
  /-- `br label %lN` -/
  | br (l : ℕ)
  /-- `br i1 %t, label %lt, label %lf` -/
  | condBr (t lt lf : ℕ)
  /-- `ret T %t` -/
  | ret (type : VarType) (t : ℕ)
  /-- `%t = icmp slt T %r1, %r2`, or with `f` -/
  | cmp (t : ℕ) (int : Bool) (opcode : Opcode) (type : VarType) (r1 r2 : ℕ)
  /-- `%t = icmp eq T %r, 0`, or with `f` and `oeq` -/
  | test (t : ℕ) (int : Bool) (type : VarType) (r : ℕ) (zero : String)
  /-- `%t = add i32 %e1, %e2`, or `fadd float` -/
  | arith (t : ℕ) (float : Bool) (tag : BinExp) (e1 e2 : ℕ)
  /-- `%t = mul T %r, -1`, or `fmul` and `-1.0` -/
  | minus (t : ℕ) (int : Bool) (type : VarType) (r : ℕ)
  /-- `%t = load T* %tN`, or `@tN` -/
  | load (t : ℕ) (type : VarType) (isGlobal : Bool) (varNumber : ℕ)
  /-- `%t = add i32 0, l` -/
  | int (t : ℕ) (l : ℤ)
  /-- `%t = fadd float 0.0, 0x…` -/
  | float (t : ℕ) (d : BitVec 64)
  /-- `%t = add i32 0, 1`, or `fadd float 0.0, 1.0`, and the same for 0 -/
  | truth (t : ℕ) (float : Bool) (value : Bool)
  /-- `%t = phi T [%t1,%l1], [%t2,%l2]` -/
  | phi (t : ℕ) (float : Bool) (t1 l1 t2 l2 : ℕ)
  /-- `%t = alloca T***` -/
  | alloca (t : ℕ) (type : VarType) (brackets : ℕ)
  /-- `%t = alloca [N x T]` -/
  | allocaArray (t : ℕ) (size : ℤ) (type : VarType)
  /-- `%t = getelementptr inbounds [N x T]* %array, i32 0, i32 %position` -/
  | getelementptr (t : ℕ) (size : ℤ) (type : VarType) (array position : ℕ)
  /-- `store i8 c, i8* %t` -/
  | storeChar (c : Option Char) (t : ℕ)
  /-- `%t = sitofp i32 %r to float` -/
  | sitofp (t r : ℕ)
  /-- `%t = call T @id(…)` -/
  | call (t : ℕ) (type : VarType) (id : String) (args : List (VarType × ℕ))
  /-- `store T %t, T* %tN`, with another star each for an array -/
  | store (type : VarType) (array : Bool) (t : ℕ) (target : Option VarType) (place : Place)
  /-- `@tN = common global T*** 0` -/
  | globalVar (n : ℕ) (type : VarType) (brackets : ℕ)
  /-- `define T @id(…) #0 {` -/
  | define (type : VarType) (id : String) (params : List (VarType × ℕ))
  /-- `}` -/
  | close
  deriving DecidableEq, Repr

end Items

section Monad

inductive GenStop
  | invalidTag
  | newNotConstant
  | indexNotInt
  | null
  | wild
  deriving DecidableEq, Repr

/-- What the generator writes into the record of a variable or a parameter. -/
structure Slot where
  varNumber : ℕ
  isGlobal : Bool
  deriving DecidableEq, Repr

structure GenState where
  curTempVar : ℕ
  curTempLabel : ℕ
  slots : Decl → Slot

/-- A part of the generator, with what it prints. -/
def Gen (α : Type) : Type := GenState → Except GenStop (α × List Item × GenState)

namespace Gen
variable {α β : Type}

def run (x : Gen α) (g : GenState) : Except GenStop (α × List Item × GenState) := x g

instance : Monad Gen where
  pure a := fun g => .ok (a,[],g)
  bind x f := fun g => do
    let (a,c,g) ← x g
    let (b,c',g) ← f a g
    return (b,c++c',g)

def stop (e : GenStop) : Gen α := fun _ => .error e

end Gen

def getNextTempVar : Gen ℕ := fun g =>
  .ok (g.curTempVar+1,[],{ g with curTempVar := g.curTempVar+1 })

def getNextTempLabel : Gen ℕ := fun g =>
  .ok (g.curTempLabel+1,[],{ g with curTempLabel := g.curTempLabel+1 })

def llvmWrite (c : List Item) : Gen Unit := fun g => .ok ((),c,g)

def getSlot (decl : Decl) : Gen Slot := fun g => .ok (g.slots decl,[],g)

def setSlot (decl : Decl) (slot : Slot) : Gen Unit := fun g =>
  .ok ((),[],{ g with slots := Function.update g.slots decl slot })

/-- The jump ends a block that may have ended before. -/
def genLabel (label : ℕ) : Gen Unit := llvmWrite [.br label,.label label]

/-- The name of a type is read. -/
def typeName : Option MType → Gen VarType
  | none => .stop .null
  | some type => return type.name

end Monad

section Expressions

/-- What is generated for an expression: its value, or a jump to one of two labels. -/
structure Gens where
  exp : Gen ℕ
  cond : ℕ → ℕ → Gen Unit

def genArith (tag : BinExp) (type1 : Option MType) (e1 e2 : Gen ℕ) : Gen ℕ := do
  let e1 ← e1
  let e2 ← e2
  let ret ← getNextTempVar
  let name ← typeName type1
  llvmWrite [.arith ret (name = .VarFloat) tag e1 e2]
  return ret

/-- The value of a comparison or of a logical operation. Two of the temporaries have numbers of
labels. -/
def genTruth (type : Option MType) (cond : ℕ → ℕ → Gen Unit) : Gen ℕ := do
  let lt ← getNextTempLabel
  let lf ← getNextTempLabel
  let lAfter ← getNextTempLabel
  let ret ← getNextTempVar
  let temp1 ← getNextTempLabel
  let temp2 ← getNextTempLabel
  let name ← typeName type
  let float : Bool := name = .VarFloat
  cond lt lf
  genLabel lt
  llvmWrite [.truth temp1 float true,.br lAfter]
  genLabel lf
  llvmWrite [.truth temp2 float false]
  genLabel lAfter
  llvmWrite [.phi ret float temp1 lt temp2 lf]
  return ret

/-- A variable of an array is read as a declaration, through the pointer to its index. -/
def genExpVar (var : TVar) : Gen ℕ := do
  let ret ← getNextTempVar
  match var with
  | .indexed _ _ => .stop .wild
  | .id .VarParam decl => do
    let slot ← getSlot decl
    return slot.varNumber
  | .id .VarDec decl => do
    let slot ← getSlot decl
    llvmWrite [.load ret decl.type.name slot.isGlobal slot.varNumber]
    return ret

/-- The temporary of the result comes before those of the arguments. -/
def genCmdCall (func : FuncHeader) (args : Gen (List (VarType × ℕ))) : Gen ℕ := do
  let ret ← getNextTempVar
  let args ← args
  let name ← typeName (func.type.map DeclType.toType)
  llvmWrite [.call ret name func.id args]
  return ret

def genMinus (type type1 : Option MType) (un : Gen ℕ) : Gen ℕ := do
  let t ← un
  let ret ← getNextTempVar
  let name ← typeName type
  let name1 ← typeName type1
  llvmWrite [.minus ret (name = .VarInt) name1 t]
  return ret

def genNew (type : MType) (size : TExp) : Gen ℕ := do
  let ret ← getNextTempVar
  match size with
  | .int l => do
    llvmWrite [.allocaArray ret l type.name]
    return ret
  | _ => .stop .newNotConstant

def genString (c : String) : Gen ℕ := do
  let temp ← getNextTempVar
  let ret ← getNextTempVar
  llvmWrite [.alloca temp .VarChar 0,.storeChar c.toList.head? temp,.load ret .VarChar false temp]
  return ret

def genInt (l : ℤ) : Gen ℕ := do
  let ret ← getNextTempVar
  llvmWrite [.int ret l]
  return ret

def genFloat (d : BitVec 64) : Gen ℕ := do
  let ret ← getNextTempVar
  llvmWrite [.float ret d]
  return ret

def genCast (un : Gen ℕ) : Gen ℕ := do
  let temp ← un
  let ret ← getNextTempVar
  llvmWrite [.sitofp ret temp]
  return ret

def genCondOr (e1 e2 : ℕ → ℕ → Gen Unit) (lt lf : ℕ) : Gen Unit := do
  let nl ← getNextTempLabel
  e1 lt nl
  genLabel nl
  e2 lt lf

def genCondAnd (e1 e2 : ℕ → ℕ → Gen Unit) (lt lf : ℕ) : Gen Unit := do
  let nl ← getNextTempLabel
  e1 nl lf
  genLabel nl
  e2 lt lf

/-- A comparison of values of type `type1`. -/
def genCondComp (type1 : Option MType) (e1 e2 : Gen ℕ) (opcode : Opcode) (lt lf : ℕ) :
    Gen Unit := do
  let r1 ← e1
  let r2 ← e2
  let t ← getNextTempVar
  let name ← typeName type1
  llvmWrite [.cmp t (name = .VarInt) opcode name r1 r2,.condBr t lt lf]

/-- The opcode is chosen by the type of the comparison. -/
def genCondOrder (type type1 : Option MType) (e1 e2 : Gen ℕ) (float int : Opcode) (lt lf : ℕ) :
    Gen Unit := do
  let name ← typeName type
  genCondComp type1 e1 e2 (if name = .VarFloat then float else int) lt lf

/-- The opcode is chosen by the type of the operands. -/
def genCondEqual (type1 : Option MType) (e1 e2 : Gen ℕ) (lt lf : ℕ) : Gen Unit := do
  let r1 ← e1
  let r2 ← e2
  let t ← getNextTempVar
  let name ← typeName type1
  llvmWrite [.cmp t (name = .VarInt) (if name = .VarInt then .eq else .oeq) name r1 r2,
    .condBr t lt lf]

/-- A value is compared with 0: it is true where it is not. The result of a call comes with the type
of the call. -/
def genCondTest (value : Gen ℕ) (type : Option MType) (zero : String) (lt lf : ℕ) :
    Gen Unit := do
  let result ← value
  let ret ← getNextTempVar
  let name ← typeName type
  llvmWrite [.test ret (name = .VarInt) name result zero,.condBr ret lf lt]

def genCondBin (type : Option MType) (tag : BinExp) (type1 : Option MType) (e1 e2 : Gens)
    (lt lf : ℕ) : Gen Unit :=
  match tag with
  | .ExpOr => genCondOr e1.cond e2.cond lt lf
  | .ExpAnd => genCondAnd e1.cond e2.cond lt lf
  | .ExpLess => genCondOrder type type1 e1.exp e2.exp .olt .slt lt lf
  | .ExpLessEqual => genCondOrder type type1 e1.exp e2.exp .ole .sle lt lf
  | .ExpGreater => genCondOrder type type1 e1.exp e2.exp .ogt .sgt lt lf
  | .ExpGreaterEqual => genCondOrder type type1 e1.exp e2.exp .oge .sge lt lf
  | .ExpEqual => genCondEqual type1 e1.exp e2.exp lt lf
  | .ExpAdd => .stop .invalidTag
  | .ExpSub => .stop .invalidTag
  | .ExpMul => .stop .invalidTag
  | .ExpDiv => .stop .invalidTag

def genBin (type : Option MType) (tag : BinExp) (type1 : Option MType) (e1 e2 : Gens) : Gen ℕ :=
  match tag with
  | .ExpAdd => genArith .ExpAdd type1 e1.exp e2.exp
  | .ExpSub => genArith .ExpSub type1 e1.exp e2.exp
  | .ExpMul => genArith .ExpMul type1 e1.exp e2.exp
  | .ExpDiv => genArith .ExpDiv type1 e1.exp e2.exp
  | tag => genTruth type (genCondBin type tag type1 e1 e2)

mutual

/-- `genExp` and `genCond` at once: the value of a comparison is generated from its jumps. -/
def gens : TExp → Gens
  | .bin type tag e1 e2 =>
    ⟨genBin type tag e1.type (gens e1) (gens e2),genCondBin type tag e1.type (gens e1) (gens e2)⟩
  | .var _ var => ⟨genExpVar var,fun _ _ => .stop .invalidTag⟩
  | .call func parameters =>
    ⟨genCmdCall func (genArgs parameters),
      genCondTest (genCmdCall func (genArgs parameters)) (func.type.map DeclType.toType) "0"⟩
  | .not type un =>
    ⟨genTruth type fun lt lf => (gens un).cond lf lt,fun lt lf => (gens un).cond lf lt⟩
  | .minus type un => ⟨genMinus type un.type (gens un).exp,fun _ _ => .stop .invalidTag⟩
  | .new type exp => ⟨genNew type exp,fun _ _ => .stop .invalidTag⟩
  | .string c => ⟨genString c,fun _ _ => .stop .invalidTag⟩
  | .int l => ⟨genInt l,genCondTest (genInt l) (some ⟨.VarInt,0⟩) "0"⟩
  | .float d => ⟨genFloat d,genCondTest (genFloat d) (some ⟨.VarFloat,0⟩) "0.0"⟩
  | .castIntToFloat un => ⟨genCast (gens un).exp,fun _ _ => .stop .invalidTag⟩

/-- The arguments of a call, each with its type. -/
def genArgs : TExpList → Gen (List (VarType × ℕ))
  | .nil => return []
  | .cons exp next => do
    let arg ← (gens exp).exp
    let name ← typeName exp.type
    let args ← genArgs next
    return (name,arg)::args

end

def genExp (e : TExp) : Gen ℕ := (gens e).exp

def genCond (e : TExp) (lt lf : ℕ) : Gen Unit := (gens e).cond lt lf

end Expressions

section Commands

/-- The variable that is assigned. `isGlobal` and `varNumber` of a parameter are other bytes of its
record, the first of them its number, and of an indexed variable they are bytes of its index. -/
def genVar : TVar → Gen Place
  | .id .VarDec decl => do
    let slot ← getSlot decl
    return if slot.isGlobal then .global slot.varNumber else .temp slot.varNumber
  | .id .VarParam _ => return .garbage
  | .indexed _ _ => return .garbage

def genArrPtr (array : ℕ) (type : Option MType) (arraySize : ℤ) (position : ℕ) : Gen ℕ := do
  let ret ← getNextTempVar
  let name ← typeName type
  llvmWrite [.getelementptr ret arraySize name array position]
  return ret

/-- The address of a new array; any other value as it is. -/
def genNewPtr (exp : TExp) (expNameId : ℕ) : Gen ℕ :=
  match exp with
  | .new type (.int l) => do
    let position0 ← getNextTempVar
    llvmWrite [.int position0 0]
    genArrPtr expNameId (some type) l position0
  | _ => return expNameId

def TExp.isNew : TExp → Bool
  | .new _ _ => true
  | _ => false

/-- The index of the variable is generated, and not used. -/
def genIndex : TVar → Gen Unit
  | .id _ _ => return ()
  | .indexed _ e2 => do
    let _ ← genExp e2
    let name ← typeName e2.type
    if name ≠ .VarInt then .stop .indexNotInt

/-- The type that is printed for the variable. -/
def TVar.targetName : TVar → Option VarType
  | .id _ decl => some decl.type.name
  | .indexed _ _ => none

def genCmdVar (var : TVar) (exp : TExp) : Gen Unit := do
  let expNameId ← genExp exp
  let expNameId ← genNewPtr exp expNameId
  genIndex var
  let name ← typeName exp.type
  let place ← genVar var
  llvmWrite [.store name exp.isNew expNameId var.targetName place]

/-- The type of no expression is read. -/
def genReturn : Option TExp → Gen Unit
  | none => .stop .null
  | some exp => do
    let temp ← genExp exp
    let name ← typeName exp.type
    llvmWrite [.ret name temp]

def genDefVar (isGlobal : Bool) (defvar : Decl) : Gen Unit := do
  let varNumber ← getNextTempVar
  setSlot defvar ⟨varNumber,isGlobal⟩
  llvmWrite [if isGlobal then .globalVar varNumber defvar.type.name defvar.type.brackets
    else .alloca varNumber defvar.type.name defvar.type.brackets]

def genDefVarList (isGlobal : Bool) : List Decl → Gen Unit
  | [] => return ()
  | defvar::next => do
    genDefVar isGlobal defvar
    genDefVarList isGlobal next

mutual

def genCmd : TCmd → Gen Unit
  | .whileDo e cmd => do
    let lWhile ← getNextTempLabel
    let lBreak ← getNextTempLabel
    genCond e lWhile lBreak
    genLabel lWhile
    genCmd cmd
    genCond e lWhile lBreak
    genLabel lBreak
  | .ifThen e cmd => do
    let lf ← getNextTempLabel
    let lt ← getNextTempLabel
    genCond e lt lf
    genLabel lt
    genCmd cmd
    genLabel lf
  | .ifElse e c1 c2 => do
    let lt ← getNextTempLabel
    let lf ← getNextTempLabel
    let lAfterElse ← getNextTempLabel
    genCond e lt lf
    genLabel lt
    genCmd c1
    llvmWrite [.br lAfterElse]
    genLabel lf
    genCmd c2
    genLabel lAfterElse
  | .ret returnExp => genReturn returnExp
  | .call func parameters => do
    let _ ← genCmdCall func (genArgs parameters)
  | .block vars cmds => do
    genDefVarList false vars
    genCmdList cmds
  | .assign var exp => genCmdVar var exp

def genCmdList : TCmdList → Gen Unit
  | .nil => return ()
  | .cons cmd next => do
    genCmd cmd
    genCmdList next

end

/-- A parameter has a number when it is printed. -/
def genParam (param : Decl) : Gen (VarType × ℕ) := do
  let varNumber ← getNextTempVar
  setSlot param ⟨varNumber,false⟩
  return (param.type.name,varNumber)

def genParamList : List Decl → Gen (List (VarType × ℕ))
  | [] => return []
  | param::params => do
    let arg ← genParam param
    let args ← genParamList params
    return arg::args

def genDefFunc (func : TFunc) : Gen Unit := do
  let name ← typeName (func.header.type.map DeclType.toType)
  let params ← genParamList func.params
  llvmWrite [.define name func.header.id params]
  genDefVarList false func.vars
  genCmdList func.cmds
  llvmWrite [.close]

def genDefinition : TDefinition → Gen Unit
  | .defvar vars => genDefVarList true vars
  | .deffunc func => genDefFunc func

/-- What is in the records before they are written does not matter. -/
def createLLVM : List TDefinition → Gen Unit
  | [] => return ()
  | definition::next => do
    genDefinition definition
    createLLVM next

end Commands
end PucRio.Monga
