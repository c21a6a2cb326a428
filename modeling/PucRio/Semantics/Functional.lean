import PucRio.Semantics.Memory
import Mathlib.Algebra.Order.Ring.Int

/-! The two functional languages of the course. A function value is its closure, and what a thunk
stands for is the expression with the environment. Numbers are computed when they are asked for, so
that an operation without a value makes a number that is missing, not a program that ends. -/
namespace PucRio.Semantics

/-- What the operations on numbers give, if not an exception. -/
structure Arith where
  add : ℤ → ℤ → Option ℤ
  sub : ℤ → ℤ → Option ℤ
  mul : ℤ → ℤ → Option ℤ
  div : ℤ → ℤ → Option ℤ

namespace Arith

/-- `Integer`. -/
def integer : Arith where
  add i j := some (i+j)
  sub i j := some (i-j)
  mul i j := some (i*j)
  div := Semantics.div

/-- The value that an `Int` keeps. -/
def wrapInt (i : ℤ) : ℤ := i.bmod (2^64)

/-- `Int`, whose `div` refuses the quotient that is out of range. -/
def int : Arith where
  add i j := some (wrapInt (i+j))
  sub i j := some (wrapInt (i-j))
  mul i j := some (wrapInt (i*j))
  div i j := if i = -2^63 ∧ j = -1 then none else Semantics.div i j

def inInt (i : ℤ) : Option ℤ := if -2^63 ≤ i ∧ i < 2^63 then some i else none

/-- Where no value is out of the range of an `Int`. -/
def checked : Arith where
  add i j := inInt (i+j)
  sub i j := inInt (i-j)
  mul i j := inInt (i*j)
  div i j := (Semantics.div i j).bind inInt

end Arith

/-- An operation on numbers that may be missing. -/
def onNumbers (op : ℤ → ℤ → Option ℤ) (i j : Option ℤ) : Option ℤ := i.bind fun i => j.bind (op i)

namespace Early

inductive Exp
  | expK (i : Int64)
  | expVar (v : Var)
  | expAdd (e₁ e₂ : Exp)
  | expSub (e₁ e₂ : Exp)
  | expMul (e₁ e₂ : Exp)
  | expDiv (e₁ e₂ : Exp)
  | expIf (e₁ e₂ e₃ : Exp)
  | expApp (e₁ e₂ : Exp)
  | expLambda (v : Var) (e : Exp)
  | expLet (v v' : Var) (e' e : Exp)

mutual

inductive Value
  | valInt (i : Option ℤ)
  | valFunc (v : Var) (e : Exp) (env : Env)

/-- `bindRec v v' e' env` is the environment of the `letrec`, which its closure has too. -/
inductive Env
  | emptyEnv
  | bind (var : Var) (val : Value) (env : Env)
  | bindRec (v v' : Var) (e' : Exp) (env : Env)

end

abbrev Result := String

/-- A continuation; it need not end. -/
abbrev K := Value → Option Result

/-- The environment, asked for a variable. -/
def Env.value : Env → Var → K → Option Result
  | .emptyEnv,v,_ => some ("undefined variable "++v)
  | .bind var val env,v,k => if var = v then k val else env.value v k
  | .bindRec var v' e' env,v,k =>
    if var = v then k (.valFunc v' e' (.bindRec var v' e' env)) else env.value v k

def up2 (op : Value → Value → K → Option Result) (c₁ c₂ : K → Option Result) (k : K) :
    Option Result :=
  c₁ fun v₁ => c₂ fun v₂ => op v₁ v₂ k

def arith (op : ℤ → ℤ → Option ℤ) : Value → Value → K → Option Result
  | .valInt i₁,.valInt i₂,k => k (.valInt (onNumbers op i₁ i₂))
  | _,_,_ => some "binary operation over non-int value"

def binOp (op : ℤ → ℤ → Option ℤ) : (K → Option Result) → (K → Option Result) → K → Option Result :=
  up2 (arith op)

/-- `evalExp` of the source, each of whose recursive calls has one unit less of fuel, those that a
continuation makes too. To ask for a missing number ends the program without a result. -/
def evalExp (a : Arith) : ℕ → Exp → Env → K → Option Result
  | 0,_,_,_ => none
  | _+1,.expK i,_,k => k (.valInt (some i.toInt))
  | _+1,.expVar v,env,k => env.value v k
  | n+1,.expAdd e₁ e₂,env,k => binOp a.add (evalExp a n e₁ env) (evalExp a n e₂ env) k
  | n+1,.expSub e₁ e₂,env,k => binOp a.sub (evalExp a n e₁ env) (evalExp a n e₂ env) k
  | n+1,.expMul e₁ e₂,env,k => binOp a.mul (evalExp a n e₁ env) (evalExp a n e₂ env) k
  | n+1,.expDiv e₁ e₂,env,k => binOp a.div (evalExp a n e₁ env) (evalExp a n e₂ env) k
  | n+1,.expIf e₁ e₂ e₃,env,k => evalExp a n e₁ env fun
    | .valInt none => none
    | .valInt (some i) => if i = 0 then evalExp a n e₃ env k else evalExp a n e₂ env k
    | .valFunc .. => some "invalid value for 'if'"
  | n+1,.expApp e₁ e₂,env,k =>
    up2 (fun
      | .valFunc v e env',v₂,k => evalExp a n e (.bind v v₂ env') k
      | .valInt _,_,_ => some "attempt to call a non-function value")
      (evalExp a n e₁ env) (evalExp a n e₂ env) k
  | _+1,.expLambda v e,env,k => k (.valFunc v e env)
  | n+1,.expLet v v' e' e,env,k => evalExp a n e (.bindRec v v' e' env) k

/-- The `k` of `main`. -/
def k : K
  | .valInt i => i.map toString
  | .valFunc .. => some "function"

/-- The program for `e` has the result `r`, which `main` prints in quotes. -/
def HasResult (a : Arith) (e : Exp) (r : Result) : Prop :=
  Yields (fun n => evalExp a n e .emptyEnv k) r

/-- `4!` of the source, which is `5!`. -/
def fat4 : Exp :=
  .expLet "f" "x" (.expIf (.expVar "x")
      (.expMul (.expVar "x") (.expApp (.expVar "f") (.expSub (.expVar "x") (.expK 1)))) (.expK 1))
    (.expApp (.expVar "f") (.expK 5))

end Early

namespace Simple

inductive Exp
  | expK (i : ℤ)
  | expVar (v : Var)
  | expAdd (e₁ e₂ : Exp)
  | expSub (e₁ e₂ : Exp)
  | expMul (e₁ e₂ : Exp)
  | expDiv (e₁ e₂ : Exp)
  | expIf (e₁ e₂ e₃ : Exp)
  | expApp (e₁ e₂ : Exp)
  | expLambda (v : Var) (e : Exp)
  | expLet (v : Var) (e₁ e₂ : Exp)

/-- A variable is bound to an expression in its environment, by `bindRec` in the one it makes. -/
inductive Env
  | emptyEnv
  | bind (var : Var) (e : Exp) (env' env : Env)
  | bindRec (var : Var) (e : Exp) (env : Env)

inductive Value
  | valInt (i : Option ℤ)
  | valFunc (v : Var) (e : Exp) (env : Env)
  | valError (s : String)

/-- What a variable is bound to. -/
def Env.thunk : Env → Var → Option (Exp × Env)
  | .emptyEnv,_ => none
  | .bind var e env' env,v => if var = v then some (e,env') else env.thunk v
  | .bindRec var e env,v => if var = v then some (e,.bindRec var e env) else env.thunk v

/-- `isTrue` of the source, which only numbers match. -/
def isTrue : Value → Option Bool
  | .valInt i => i.map (· != 0)
  | _ => none

/-- The second operand is evaluated if the first one is a number. -/
def binOp (op : ℤ → ℤ → Option ℤ) (v₁ : Value) (c₂ : Option Value) : Option Value :=
  match v₁ with
  | .valInt i₁ => c₂.map fun
    | .valInt i₂ => .valInt (onNumbers op i₁ i₂)
    | _ => .valError "binary operand is not a number"
  | _ => some (.valError "binary operand is not a number")

/-- `evalExp` of the source, each of whose recursive calls has one unit less of fuel. -/
def evalExp (a : Arith) : ℕ → Exp → Env → Option Value
  | 0,_,_ => none
  | _+1,.expK i,_ => some (.valInt (some i))
  | n+1,.expVar v,env =>
    match env.thunk v with
    | none => some (.valError ("undefined variable "++v))
    | some (e,env') => evalExp a n e env'
  | n+1,.expAdd e₁ e₂,env => (evalExp a n e₁ env).bind (binOp a.add · (evalExp a n e₂ env))
  | n+1,.expSub e₁ e₂,env => (evalExp a n e₁ env).bind (binOp a.sub · (evalExp a n e₂ env))
  | n+1,.expMul e₁ e₂,env => (evalExp a n e₁ env).bind (binOp a.mul · (evalExp a n e₂ env))
  | n+1,.expDiv e₁ e₂,env => (evalExp a n e₁ env).bind (binOp a.div · (evalExp a n e₂ env))
  | n+1,.expIf e₁ e₂ e₃,env =>
    ((evalExp a n e₁ env).bind isTrue).bind fun b =>
      if b then evalExp a n e₂ env else evalExp a n e₃ env
  | n+1,.expApp e₁ e₂,env => (evalExp a n e₁ env).bind fun
    | .valFunc v e env' => evalExp a n e (.bind v e₂ env env')
    | _ => some (.valError "calling a non-function value")
  | _+1,.expLambda v e,env => some (.valFunc v e env)
  | n+1,.expLet v e₁ e₂,env => evalExp a n e₂ (.bindRec v e₁ env)

/-- What `main` prints of a value. -/
def printed : Value → Option String
  | .valInt i => i.map toString
  | .valFunc .. => some "function".quote
  | .valError s => some ("error: "++s).quote

/-- The program that evaluates `e` and prints its value prints `r`. -/
def Prints (a : Arith) (e : Exp) (r : String) : Prop :=
  Yields (fun n => (evalExp a n e .emptyEnv).bind printed) r

theorem evalExp_keptBy_succ (a : Arith) (n : ℕ) (e : Exp) (env : Env) :
    KeptBy (evalExp a n e env) (evalExp a (n+1) e env) := by
  induction n generalizing e env with
  | zero => exact KeptBy.none _
  | succ n ih =>
    have hbin (op : ℤ → ℤ → Option ℤ) (e₂ : Exp) (v₁ : Value) :
        KeptBy (binOp op v₁ (evalExp a n e₂ env)) (binOp op v₁ (evalExp a (n+1) e₂ env)) := by
      cases v₁ with
      | valInt i₁ =>
        intro w hw
        obtain ⟨v,hv,hw⟩ := Option.map_eq_some_iff.mp hw
        rw [binOp,ih e₂ env v hv,Option.map_some,hw]
      | valFunc v e env => exact KeptBy.refl _
      | valError s => exact KeptBy.refl _
    cases e with
    | expK i => exact KeptBy.refl _
    | expVar v =>
      rw [evalExp,evalExp]
      cases env.thunk v with
      | none => exact KeptBy.refl _
      | some x => exact ih x.1 x.2
    | expAdd e₁ e₂ => exact (ih e₁ env).bind (hbin a.add e₂)
    | expSub e₁ e₂ => exact (ih e₁ env).bind (hbin a.sub e₂)
    | expMul e₁ e₂ => exact (ih e₁ env).bind (hbin a.mul e₂)
    | expDiv e₁ e₂ => exact (ih e₁ env).bind (hbin a.div e₂)
    | expIf e₁ e₂ e₃ =>
      exact ((ih e₁ env).bind fun _ => KeptBy.refl _).bind fun _ => KeptBy.ite (ih e₂ env) (ih e₃ env)
    | expApp e₁ e₂ =>
      refine (ih e₁ env).bind fun v => ?_
      cases v with
      | valFunc v e env' => exact ih e _
      | valInt i => exact KeptBy.refl _
      | valError s => exact KeptBy.refl _
    | expLambda v e => exact KeptBy.refl _
    | expLet v e₁ e₂ => exact ih e₂ _

end Simple
end PucRio.Semantics
