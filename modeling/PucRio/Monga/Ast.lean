import Mathlib.Algebra.Order.Ring.Int

/-! The syntax trees of Monga: those that the grammar builds, and those that the type checker leaves,
in which every expression has a type, casts stand where they are needed, and a variable is its
declaration. Lines are left out. -/
namespace PucRio.Monga

inductive VarType
  | VarFloat
  | VarInt
  | VarChar
  deriving DecidableEq, Repr

/-- A type as an expression has it. An array type is as many `[]` behind the name. -/
structure MType where
  name : VarType
  brackets : ℤ
  deriving DecidableEq, Repr

/-- A type as it is declared. -/
structure DeclType where
  name : VarType
  brackets : ℕ
  deriving DecidableEq, Repr

def DeclType.toType (t : DeclType) : MType := ⟨t.name,t.brackets⟩

/-- The tags of the expressions with two operands. -/
inductive BinExp
  | ExpAdd
  | ExpSub
  | ExpMul
  | ExpDiv
  | ExpEqual
  | ExpLess
  | ExpGreater
  | ExpLessEqual
  | ExpGreaterEqual
  | ExpOr
  | ExpAnd
  deriving DecidableEq, Repr

structure DefVar where
  type : DeclType
  id : String
  deriving DecidableEq, Repr

structure Param where
  type : DeclType
  id : String
  deriving DecidableEq, Repr

section Parsed

/-! A literal of `float` is kept as the bits of its `double`. -/

mutual

inductive Exp
  | bin (tag : BinExp) (e1 e2 : Exp)
  | var (var : Var)
  | call (id : String) (parameters : ExpList)
  | not (un : Exp)
  | minus (un : Exp)
  | new (type : DeclType) (exp : Exp)
  | string (c : String)
  | int (l : ℤ)
  | float (d : BitVec 64)

inductive Var
  | id (id : String)
  | indexed (e1 e2 : Exp)

inductive ExpList
  | nil
  | cons (exp : Exp) (next : ExpList)

end

mutual

/-- The commands, with the basic ones among them. -/
inductive Cmd
  | whileDo (e : Exp) (cmd : Cmd)
  | ifThen (e : Exp) (cmd : Cmd)
  | ifElse (e : Exp) (c1 c2 : Cmd)
  | ret (returnExp : Option Exp)
  | call (id : String) (parameters : ExpList)
  | block (vars : List DefVar) (cmds : CmdList)
  | assign (var : Var) (exp : Exp)

inductive CmdList
  | nil
  | cons (cmd : Cmd) (next : CmdList)

end

/-- What a call reads of a function. There is no type where it is `void`. -/
structure FuncHeader where
  type : Option DeclType
  id : String
  params : List Param
  deriving DecidableEq, Repr

structure Func where
  header : FuncHeader
  vars : List DefVar
  cmds : CmdList

inductive Definition
  | defvar (vars : List DefVar)
  | deffunc (func : Func)

end Parsed

section Checked

/-- A declaration. Of the records that the source points to, only those in scope are followed, so
one is known by how many others are in scope where it stands. -/
structure Decl where
  type : DeclType
  id : String
  level : ℕ
  deriving DecidableEq, Repr

inductive DecTag
  | VarDec
  | VarParam
  deriving DecidableEq, Repr

mutual

/-- There is no type where the expression is a call of a `void` function. -/
inductive TExp
  | bin (type : Option MType) (tag : BinExp) (e1 e2 : TExp)
  | var (type : MType) (var : TVar)
  | call (func : FuncHeader) (parameters : TExpList)
  | not (type : Option MType) (un : TExp)
  | minus (type : Option MType) (un : TExp)
  | new (type : MType) (exp : TExp)
  | string (c : String)
  | int (l : ℤ)
  | float (d : BitVec 64)
  | castIntToFloat (un : TExp)

inductive TVar
  | id (decTag : DecTag) (decl : Decl)
  | indexed (e1 e2 : TExp)

inductive TExpList
  | nil
  | cons (exp : TExp) (next : TExpList)

end

def TExp.type : TExp → Option MType
  | .bin type .. => type
  | .var type _ => some type
  | .call func _ => func.type.map DeclType.toType
  | .not type _ => type
  | .minus type _ => type
  | .new type _ => some type
  | .string _ => some ⟨.VarChar,0⟩
  | .int _ => some ⟨.VarInt,0⟩
  | .float _ => some ⟨.VarFloat,0⟩
  | .castIntToFloat _ => some ⟨.VarFloat,0⟩

mutual

inductive TCmd
  | whileDo (e : TExp) (cmd : TCmd)
  | ifThen (e : TExp) (cmd : TCmd)
  | ifElse (e : TExp) (c1 c2 : TCmd)
  | ret (returnExp : Option TExp)
  | call (func : FuncHeader) (parameters : TExpList)
  | block (vars : List Decl) (cmds : TCmdList)
  | assign (var : TVar) (exp : TExp)

inductive TCmdList
  | nil
  | cons (cmd : TCmd) (next : TCmdList)

end

structure TFunc where
  header : FuncHeader
  params : List Decl
  vars : List Decl
  cmds : TCmdList

inductive TDefinition
  | defvar (vars : List Decl)
  | deffunc (func : TFunc)

end Checked
end PucRio.Monga
