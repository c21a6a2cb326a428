import PucRio.Semantics.Functional

/-! A number that the language with continuations gives is printed by the lazy one too: its operands
are evaluated later or never, and by then they have the same values. -/
namespace PucRio.Semantics

/-- `b` has the values that `a` has. -/
structure Arith.Le (a b : Arith) : Prop where
  add : ∀ i j x, a.add i j = some x → b.add i j = some x
  sub : ∀ i j x, a.sub i j = some x → b.sub i j = some x
  mul : ∀ i j x, a.mul i j = some x → b.mul i j = some x
  div : ∀ i j x, a.div i j = some x → b.div i j = some x

namespace Arith

theorem inInt_eq_some {i x : ℤ} (h : inInt i = some x) : i = x ∧ -2^63 ≤ i ∧ i < 2^63 := by
  unfold inInt at h
  split_ifs at h with hi
  exact ⟨Option.some.inj h,hi⟩

theorem checked_le_integer : checked.Le integer where
  add i j x h := congrArg some (inInt_eq_some h).1
  sub i j x h := congrArg some (inInt_eq_some h).1
  mul i j x h := congrArg some (inInt_eq_some h).1
  div i j x h := by
    obtain ⟨y,hy,h⟩ := Option.bind_eq_some_iff.mp h
    rw [← (inInt_eq_some h).1]
    exact hy

theorem wrapInt_of_inInt {i x : ℤ} (h : inInt i = some x) : some (wrapInt i) = some x := by
  obtain ⟨rfl,hlow,hhigh⟩ := inInt_eq_some h
  rw [wrapInt,Int.bmod_def]
  congr 1
  omega

theorem checked_le_int : checked.Le int where
  add i j x h := wrapInt_of_inInt h
  sub i j x h := wrapInt_of_inInt h
  mul i j x h := wrapInt_of_inInt h
  div i j x h := by
    obtain ⟨y,hy,h⟩ := Option.bind_eq_some_iff.mp h
    obtain ⟨rfl,-,hhigh⟩ := inInt_eq_some h
    have hnot : ¬(i = -2^63 ∧ j = -1) := by
      rintro ⟨rfl,rfl⟩
      have hdiv : Semantics.div (-2^63) (-1) = some (2^63) := by decide +kernel
      obtain rfl := Option.some.inj (hdiv.symm.trans hy)
      exact lt_irrefl _ hhigh
    show (if i = -2^63 ∧ j = -1 then none else Semantics.div i j) = some y
    rw [if_neg hnot]
    exact hy

end Arith

/-- A number that the first has, the second has too. -/
def NumberLe (i j : Option ℤ) : Prop := ∀ x, i = some x → j = some x

theorem NumberLe.onNumbers {op op' : ℤ → ℤ → Option ℤ} (hop : ∀ i j x, op i j = some x → op' i j = some x)
    {i j i' j' : Option ℤ} (hi : NumberLe i i') (hj : NumberLe j j') :
    NumberLe (onNumbers op i j) (onNumbers op' i' j') := by
  intro x hx
  obtain ⟨y,hy,hx⟩ := Option.bind_eq_some_iff.mp hx
  obtain ⟨z,hz,hx⟩ := Option.bind_eq_some_iff.mp hx
  rw [hi y hy,hj z hz]
  exact hop y z x hx

namespace Early

/-- What an expression comes to before its continuation: a value or the message of an error. -/
abbrev Outcome := Except String Value

def resume (k : K) : Outcome → Option Result
  | .ok v => k v
  | .error s => some s

/-- First the one, and then, if it has a value, the other. -/
def andThen (x : Option Outcome) (f : Value → Option Outcome) : Option Outcome :=
  x.bind fun
    | .ok v => f v
    | .error s => some (.error s)

theorem andThen_resume (x : Option Outcome) (f : Value → Option Outcome) (k : K) :
    (andThen x f).bind (resume k) = x.bind (resume fun v => (f v).bind (resume k)) := by
  rcases x with _ | (s | v) <;> rfl

def Env.find : Env → Var → Outcome
  | .emptyEnv,v => .error ("undefined variable "++v)
  | .bind var val env,v => if var = v then .ok val else env.find v
  | .bindRec var v' e' env,v =>
    if var = v then .ok (.valFunc v' e' (.bindRec var v' e' env)) else env.find v

def operate (op : ℤ → ℤ → Option ℤ) : Value → Value → Outcome
  | .valInt i₁,.valInt i₂ => .ok (.valInt (onNumbers op i₁ i₂))
  | _,_ => .error "binary operation over non-int value"

def both (c₁ c₂ : Option Outcome) (f : Value → Value → Option Outcome) : Option Outcome :=
  andThen c₁ fun v₁ => andThen c₂ (f v₁)

/-- The evaluation without its continuation. -/
def outcome (a : Arith) : ℕ → Exp → Env → Option Outcome
  | 0,_,_ => none
  | _+1,.expK i,_ => some (.ok (.valInt (some i.toInt)))
  | _+1,.expVar v,env => some (env.find v)
  | n+1,.expAdd e₁ e₂,env =>
    both (outcome a n e₁ env) (outcome a n e₂ env) fun v₁ v₂ => some (operate a.add v₁ v₂)
  | n+1,.expSub e₁ e₂,env =>
    both (outcome a n e₁ env) (outcome a n e₂ env) fun v₁ v₂ => some (operate a.sub v₁ v₂)
  | n+1,.expMul e₁ e₂,env =>
    both (outcome a n e₁ env) (outcome a n e₂ env) fun v₁ v₂ => some (operate a.mul v₁ v₂)
  | n+1,.expDiv e₁ e₂,env =>
    both (outcome a n e₁ env) (outcome a n e₂ env) fun v₁ v₂ => some (operate a.div v₁ v₂)
  | n+1,.expIf e₁ e₂ e₃,env => andThen (outcome a n e₁ env) fun
    | .valInt none => none
    | .valInt (some i) => if i = 0 then outcome a n e₃ env else outcome a n e₂ env
    | .valFunc .. => some (.error "invalid value for 'if'")
  | n+1,.expApp e₁ e₂,env => both (outcome a n e₁ env) (outcome a n e₂ env) fun
    | .valFunc v e env',v₂ => outcome a n e (.bind v v₂ env')
    | .valInt _,_ => some (.error "attempt to call a non-function value")
  | _+1,.expLambda v e,env => some (.ok (.valFunc v e env))
  | n+1,.expLet v v' e' e,env => outcome a n e (.bindRec v v' e' env)

/-- An environment is made of shorter ones. -/
@[elab_as_elim]
theorem Env.induct {motive : Env → Prop} (emptyEnv : motive .emptyEnv)
    (bind : ∀ var val env, motive env → motive (.bind var val env))
    (bindRec : ∀ var v' e' env, motive env → motive (.bindRec var v' e' env)) :
    ∀ env, motive env
  | .emptyEnv => emptyEnv
  | .bind var val env => bind var val env (Env.induct emptyEnv bind bindRec env)
  | .bindRec var v' e' env => bindRec var v' e' env (Env.induct emptyEnv bind bindRec env)

theorem value_eq (env : Env) (v : Var) (k : K) : env.value v k = resume k (env.find v) := by
  induction env using Env.induct with
  | emptyEnv => rfl
  | bind var val env ih =>
    rw [Env.value,Env.find,ih,apply_ite (resume k)]
    rfl
  | bindRec var v' e' env ih =>
    rw [Env.value,Env.find,ih,apply_ite (resume k)]
    rfl

theorem binOp_eq {op : ℤ → ℤ → Option ℤ} {c₁ c₂ : K → Option Result} {x₁ x₂ : Option Outcome}
    (h₁ : ∀ k, c₁ k = x₁.bind (resume k)) (h₂ : ∀ k, c₂ k = x₂.bind (resume k)) (k : K) :
    binOp op c₁ c₂ k = (both x₁ x₂ fun v₁ v₂ => some (operate op v₁ v₂)).bind (resume k) := by
  rw [binOp,up2,h₁,both,andThen_resume]
  congr 2
  funext v₁
  rw [h₂,andThen_resume]
  congr 2
  funext v₂
  cases v₁ <;> cases v₂ <;> rfl

/-- With the same fuel, the evaluation is that without a continuation and then the continuation. -/
theorem evalExp_eq (a : Arith) (n : ℕ) (e : Exp) (env : Env) (k : K) :
    evalExp a n e env k = (outcome a n e env).bind (resume k) := by
  induction n generalizing e env k with
  | zero => rfl
  | succ n ih =>
    cases e with
    | expK i => rfl
    | expVar v => exact value_eq env v k
    | expAdd e₁ e₂ => exact binOp_eq (ih e₁ env) (ih e₂ env) k
    | expSub e₁ e₂ => exact binOp_eq (ih e₁ env) (ih e₂ env) k
    | expMul e₁ e₂ => exact binOp_eq (ih e₁ env) (ih e₂ env) k
    | expDiv e₁ e₂ => exact binOp_eq (ih e₁ env) (ih e₂ env) k
    | expIf e₁ e₂ e₃ =>
      rw [evalExp,ih,outcome,andThen_resume]
      congr 2
      funext v
      cases v with
      | valInt i =>
        cases i with
        | none => rfl
        | some i =>
          show (if i = 0 then _ else _) = _
          rw [ih,ih,← apply_ite (Option.bind · (resume k))]
      | valFunc v e env => rfl
    | expApp e₁ e₂ =>
      rw [evalExp,up2,ih,outcome,both,andThen_resume]
      congr 2
      funext v₁
      rw [ih,andThen_resume]
      congr 2
      funext v₂
      cases v₁ with
      | valInt i => rfl
      | valFunc v e env' => exact ih e _ k
    | expLambda v e => rfl
    | expLet v v' e' e => exact ih e _ k

theorem andThen_ok {x : Option Outcome} {f : Value → Option Outcome} {v : Value}
    (h : andThen x f = some (.ok v)) : ∃ u, x = some (.ok u) ∧ f u = some (.ok v) := by
  rcases x with _ | (s | u)
  · cases h
  · cases h
  · exact ⟨u,rfl,h⟩

theorem both_ok {x₁ x₂ : Option Outcome} {f : Value → Value → Option Outcome} {v : Value}
    (h : both x₁ x₂ f = some (.ok v)) :
    ∃ v₁ v₂, x₁ = some (.ok v₁) ∧ x₂ = some (.ok v₂) ∧ f v₁ v₂ = some (.ok v) := by
  obtain ⟨v₁,h₁,h⟩ := andThen_ok h
  obtain ⟨v₂,h₂,h⟩ := andThen_ok h
  exact ⟨v₁,v₂,h₁,h₂,h⟩

theorem operate_ok {op : ℤ → ℤ → Option ℤ} {v₁ v₂ v : Value} (h : operate op v₁ v₂ = .ok v) :
    ∃ i₁ i₂, v₁ = .valInt i₁ ∧ v₂ = .valInt i₂ ∧ v = .valInt (onNumbers op i₁ i₂) := by
  cases v₁ with
  | valInt i₁ =>
    cases v₂ with
    | valInt i₂ => exact ⟨i₁,i₂,rfl,rfl,(Except.ok.inj h).symm⟩
    | valFunc v e env => cases h
  | valFunc v e env => cases h

mutual

/-- The values of two arithmetics of which the second has the numbers that the first has. -/
inductive ValueLe : Value → Value → Prop
  | valInt {i j : Option ℤ} (h : NumberLe i j) : ValueLe (.valInt i) (.valInt j)
  | valFunc {env env' : Env} (v : Var) (e : Exp) (h : EnvLe env env') :
      ValueLe (.valFunc v e env) (.valFunc v e env')

inductive EnvLe : Env → Env → Prop
  | emptyEnv : EnvLe .emptyEnv .emptyEnv
  | bind {val val' : Value} {env env' : Env} (var : Var) (hval : ValueLe val val')
      (h : EnvLe env env') : EnvLe (.bind var val env) (.bind var val' env')
  | bindRec {env env' : Env} (v v' : Var) (e : Exp) (h : EnvLe env env') :
      EnvLe (.bindRec v v' e env) (.bindRec v v' e env')

end

theorem EnvLe.find {env env' : Env} (h : EnvLe env env') {v : Var} {val : Value}
    (hv : env.find v = .ok val) : ∃ val', env'.find v = .ok val' ∧ ValueLe val val' := by
  induction env using Env.induct generalizing env' with
  | emptyEnv => cases hv
  | bind var val env ih =>
    cases h with
    | bind _ hval h =>
      rw [Env.find] at hv ⊢
      split_ifs at hv ⊢ with hvar
      · obtain rfl := Except.ok.inj hv
        exact ⟨_,rfl,hval⟩
      · exact ih h hv
  | bindRec var v' e env ih =>
    cases h with
    | bindRec _ _ _ h =>
      rw [Env.find] at hv ⊢
      split_ifs at hv ⊢ with hvar
      · obtain rfl := Except.ok.inj hv
        exact ⟨_,rfl,.valFunc _ _ (.bindRec _ _ _ h)⟩
      · exact ih h hv

theorem both_le {op op' : ℤ → ℤ → Option ℤ} (hop : ∀ i j x, op i j = some x → op' i j = some x)
    {x₁ x₂ y₁ y₂ : Option Outcome} {v : Value}
    (h₁ : ∀ v, x₁ = some (.ok v) → ∃ v', y₁ = some (.ok v') ∧ ValueLe v v')
    (h₂ : ∀ v, x₂ = some (.ok v) → ∃ v', y₂ = some (.ok v') ∧ ValueLe v v')
    (h : (both x₁ x₂ fun v₁ v₂ => some (operate op v₁ v₂)) = some (.ok v)) :
    ∃ v', (both y₁ y₂ fun v₁ v₂ => some (operate op' v₁ v₂)) = some (.ok v') ∧ ValueLe v v' := by
  obtain ⟨v₁,v₂,hv₁,hv₂,h⟩ := both_ok h
  obtain ⟨i₁,i₂,rfl,rfl,rfl⟩ := operate_ok (Option.some.inj h)
  obtain ⟨_,rfl,hle₁⟩ := h₁ _ hv₁
  obtain ⟨_,rfl,hle₂⟩ := h₂ _ hv₂
  cases hle₁ with
  | valInt hi =>
    cases hle₂ with
    | valInt hj => exact ⟨_,rfl,.valInt (hi.onNumbers hop hj)⟩

/-- A value in the one arithmetic is there in the other, with the same fuel. -/
theorem outcome_le {a b : Arith} (hab : a.Le b) (n : ℕ) {e : Exp} {env env' : Env} {v : Value}
    (henv : EnvLe env env') (h : outcome a n e env = some (.ok v)) :
    ∃ v', outcome b n e env' = some (.ok v') ∧ ValueLe v v' := by
  induction n generalizing e env env' v with
  | zero => cases h
  | succ n ih =>
    cases e with
    | expK i =>
      obtain rfl := Except.ok.inj (Option.some.inj h)
      exact ⟨_,rfl,.valInt fun _ => id⟩
    | expVar v =>
      obtain ⟨val,hval,hle⟩ := henv.find (Option.some.inj h)
      exact ⟨val,congrArg some hval,hle⟩
    | expAdd e₁ e₂ => exact both_le hab.add (fun _ => ih henv) (fun _ => ih henv) h
    | expSub e₁ e₂ => exact both_le hab.sub (fun _ => ih henv) (fun _ => ih henv) h
    | expMul e₁ e₂ => exact both_le hab.mul (fun _ => ih henv) (fun _ => ih henv) h
    | expDiv e₁ e₂ => exact both_le hab.div (fun _ => ih henv) (fun _ => ih henv) h
    | expIf e₁ e₂ e₃ =>
      obtain ⟨v₁,h₁,h⟩ := andThen_ok h
      obtain ⟨w₁,hw₁,hle⟩ := ih henv h₁
      rw [outcome,hw₁]
      cases hle with
      | valFunc => cases h
      | @valInt i j hij =>
        cases i with
        | none => cases h
        | some i =>
          obtain rfl := (hij i rfl).symm
          change (if i = 0 then outcome a n e₃ env else outcome a n e₂ env) = _ at h
          show ∃ v', (if i = 0 then outcome b n e₃ env' else outcome b n e₂ env') = _ ∧ _
          split_ifs at h ⊢
          · exact ih henv h
          · exact ih henv h
    | expApp e₁ e₂ =>
      obtain ⟨v₁,v₂,h₁,h₂,h⟩ := both_ok h
      obtain ⟨w₁,hw₁,hle₁⟩ := ih henv h₁
      obtain ⟨w₂,hw₂,hle₂⟩ := ih henv h₂
      rw [outcome,hw₁,hw₂]
      cases hle₁ with
      | valInt => cases h
      | valFunc v e henv' => exact ih (.bind v hle₂ henv') h
    | expLambda v e =>
      obtain rfl := Except.ok.inj (Option.some.inj h)
      exact ⟨_,rfl,.valFunc v e henv⟩
    | expLet v v' e' e => exact ih (.bindRec v v' e' henv) h

end Early

namespace Simple

/-- In its environment the expression has the value. -/
def Evaluates (a : Arith) (e : Exp) (env : Env) (v : Value) : Prop :=
  Yields (fun n => evalExp a n e env) v

variable {a : Arith} {e e₁ e₂ e₃ : Exp} {env env₁ env₂ : Env} {v w w₁ w₂ : Value}

theorem Evaluates.of_le {m n : ℕ} (h : evalExp a m e env = some v) (hmn : m ≤ n) :
    evalExp a n e env = some v :=
  keptBy_of_le (f := fun n => evalExp a n e env) (fun n => evalExp_keptBy_succ a n e env) hmn v h

/-- One fuel is enough for both. -/
theorem Evaluates.common (h₁ : Evaluates a e₁ env₁ w₁) (h₂ : Evaluates a e₂ env₂ w₂) :
    ∃ n, evalExp a n e₁ env₁ = some w₁ ∧ evalExp a n e₂ env₂ = some w₂ := by
  obtain ⟨m,hm⟩ := h₁
  obtain ⟨n,hn⟩ := h₂
  exact ⟨max m n,of_le hm (le_max_left m n),of_le hn (le_max_right m n)⟩

theorem Evaluates.variable {name : Var} (hthunk : env.thunk name = some (e,env₁))
    (h : Evaluates a e env₁ v) : Evaluates a (.expVar name) env v := by
  obtain ⟨n,hn⟩ := h
  refine ⟨n+1,?_⟩
  show evalExp a (n+1) (.expVar name) env = some v
  rw [evalExp,hthunk]
  exact hn

/-- Two numbers are operated on. -/
theorem binOp_evaluates {op : ℤ → ℤ → Option ℤ} {i j : Option ℤ} {n : ℕ}
    (h₁ : evalExp a n e₁ env = some (.valInt i)) (h₂ : evalExp a n e₂ env = some (.valInt j)) :
    (evalExp a n e₁ env).bind (binOp op · (evalExp a n e₂ env)) =
      some (.valInt (onNumbers op i j)) := by
  rw [h₁,h₂]
  rfl

theorem Evaluates.branch {i : ℤ} (h : Evaluates a e₁ env (.valInt (some i)))
    (hbranch : Evaluates a (if i = 0 then e₃ else e₂) env v) :
    Evaluates a (.expIf e₁ e₂ e₃) env v := by
  obtain ⟨n,h,hbranch⟩ := h.common hbranch
  refine ⟨n+1,?_⟩
  show evalExp a (n+1) (.expIf e₁ e₂ e₃) env = some v
  rw [evalExp,h]
  show (if (i != 0) = true then _ else _) = _
  by_cases hi : i = 0
  · rw [if_pos hi] at hbranch
    rw [if_neg (by simpa using hi)]
    exact hbranch
  · rw [if_neg hi] at hbranch
    rw [if_pos (by simpa using hi)]
    exact hbranch

theorem Evaluates.call {name : Var} (h : Evaluates a e₁ env (.valFunc name e env₁))
    (hbody : Evaluates a e (.bind name e₂ env env₁) v) : Evaluates a (.expApp e₁ e₂) env v := by
  obtain ⟨n,h,hbody⟩ := h.common hbody
  refine ⟨n+1,?_⟩
  show evalExp a (n+1) (.expApp e₁ e₂) env = some v
  rw [evalExp,h]
  exact hbody

end Simple

/-- The same expression of the other language. -/
def Early.Exp.toSimple : Early.Exp → Simple.Exp
  | .expK i => .expK i.toInt
  | .expVar v => .expVar v
  | .expAdd e₁ e₂ => .expAdd e₁.toSimple e₂.toSimple
  | .expSub e₁ e₂ => .expSub e₁.toSimple e₂.toSimple
  | .expMul e₁ e₂ => .expMul e₁.toSimple e₂.toSimple
  | .expDiv e₁ e₂ => .expDiv e₁.toSimple e₂.toSimple
  | .expIf e₁ e₂ e₃ => .expIf e₁.toSimple e₂.toSimple e₃.toSimple
  | .expApp e₁ e₂ => .expApp e₁.toSimple e₂.toSimple
  | .expLambda v e => .expLambda v e.toSimple
  | .expLet v v' e' e => .expLet v (.expLambda v' e'.toSimple) e.toSimple

mutual

/-- The values of the two languages that stand for each other. -/
inductive Denotes (b : Arith) : Early.Value → Simple.Value → Prop
  | valInt {i j : Option ℤ} (h : NumberLe i j) : Denotes b (.valInt i) (.valInt j)
  | valFunc {env : Early.Env} {env' : Simple.Env} (v : Var) (e : Early.Exp) (h : Follows b env env') :
      Denotes b (.valFunc v e env) (.valFunc v e.toSimple env')

/-- A variable of the lazy language is bound to an expression that would have the value. -/
inductive Follows (b : Arith) : Early.Env → Simple.Env → Prop
  | emptyEnv : Follows b .emptyEnv .emptyEnv
  | bind {val : Early.Value} {w : Simple.Value} {e : Simple.Exp} {env : Early.Env}
      {env' env₁ : Simple.Env} (var : Var) (hval : Denotes b val w)
      (heval : Simple.Evaluates b e env₁ w) (h : Follows b env env') :
      Follows b (.bind var val env) (.bind var e env₁ env')
  | bindRec {env : Early.Env} {env' : Simple.Env} (v v' : Var) (e' : Early.Exp)
      (h : Follows b env env') :
      Follows b (.bindRec v v' e' env) (.bindRec v (.expLambda v' e'.toSimple) env')

end

variable {a b : Arith}

theorem Follows.thunk {env : Early.Env} {env' : Simple.Env} (h : Follows b env env') {v : Var}
    {val : Early.Value} (hv : env.find v = .ok val) :
    ∃ e env₁ w, env'.thunk v = some (e,env₁) ∧ Simple.Evaluates b e env₁ w ∧ Denotes b val w := by
  induction env using Early.Env.induct generalizing env' with
  | emptyEnv => cases hv
  | bind var val env ih =>
    cases h with
    | bind _ hval heval h =>
      rw [Early.Env.find] at hv
      rw [Simple.Env.thunk]
      split_ifs at hv ⊢ with hvar
      · obtain rfl := Except.ok.inj hv
        exact ⟨_,_,_,rfl,heval,hval⟩
      · exact ih h hv
  | bindRec var v' e' env ih =>
    cases h with
    | bindRec _ _ _ h =>
      rw [Early.Env.find] at hv
      rw [Simple.Env.thunk]
      split_ifs at hv ⊢ with hvar
      · obtain rfl := Except.ok.inj hv
        exact ⟨_,_,_,rfl,⟨1,rfl⟩,.valFunc _ _ (.bindRec _ _ _ h)⟩
      · exact ih h hv

/-- Both operands have been evaluated to numbers. -/
theorem both_denotes {op op' : ℤ → ℤ → Option ℤ} (hop : ∀ i j x, op i j = some x → op' i j = some x)
    {x₁ x₂ : Option Early.Outcome} {e₁ e₂ : Simple.Exp} {env : Simple.Env} {v : Early.Value}
    (h₁ : ∀ v, x₁ = some (.ok v) → ∃ w, Simple.Evaluates b e₁ env w ∧ Denotes b v w)
    (h₂ : ∀ v, x₂ = some (.ok v) → ∃ w, Simple.Evaluates b e₂ env w ∧ Denotes b v w)
    (h : (Early.both x₁ x₂ fun v₁ v₂ => some (Early.operate op v₁ v₂)) = some (.ok v)) :
    ∃ n w, (Simple.evalExp b n e₁ env).bind (Simple.binOp op' · (Simple.evalExp b n e₂ env)) =
      some w ∧ Denotes b v w := by
  obtain ⟨v₁,v₂,hv₁,hv₂,h⟩ := Early.both_ok h
  obtain ⟨i₁,i₂,rfl,rfl,rfl⟩ := Early.operate_ok (Option.some.inj h)
  obtain ⟨_,hw₁,hd₁⟩ := h₁ _ hv₁
  obtain ⟨_,hw₂,hd₂⟩ := h₂ _ hv₂
  cases hd₁ with
  | valInt hi =>
    cases hd₂ with
    | valInt hj =>
      obtain ⟨n,hn₁,hn₂⟩ := hw₁.common hw₂
      exact ⟨n,_,Simple.binOp_evaluates hn₁ hn₂,.valInt (hi.onNumbers hop hj)⟩

/-- A value of the language that evaluates operands first is one of the lazy language. -/
theorem evaluates_of_outcome (hab : a.Le b) (n : ℕ) {e : Early.Exp} {env : Early.Env}
    {env' : Simple.Env} {v : Early.Value} (henv : Follows b env env')
    (h : Early.outcome a n e env = some (.ok v)) :
    ∃ w, Simple.Evaluates b e.toSimple env' w ∧ Denotes b v w := by
  induction n generalizing e env env' v with
  | zero => cases h
  | succ n ih =>
    cases e with
    | expK i =>
      obtain rfl := Except.ok.inj (Option.some.inj h)
      exact ⟨_,⟨1,rfl⟩,.valInt fun _ => id⟩
    | expVar v =>
      obtain ⟨e,env₁,w,hthunk,heval,hd⟩ := henv.thunk (Option.some.inj h)
      exact ⟨w,.variable hthunk heval,hd⟩
    | expAdd e₁ e₂ =>
      obtain ⟨m,w,hw,hd⟩ := both_denotes hab.add (fun _ => ih henv) (fun _ => ih henv) h
      exact ⟨w,⟨m+1,hw⟩,hd⟩
    | expSub e₁ e₂ =>
      obtain ⟨m,w,hw,hd⟩ := both_denotes hab.sub (fun _ => ih henv) (fun _ => ih henv) h
      exact ⟨w,⟨m+1,hw⟩,hd⟩
    | expMul e₁ e₂ =>
      obtain ⟨m,w,hw,hd⟩ := both_denotes hab.mul (fun _ => ih henv) (fun _ => ih henv) h
      exact ⟨w,⟨m+1,hw⟩,hd⟩
    | expDiv e₁ e₂ =>
      obtain ⟨m,w,hw,hd⟩ := both_denotes hab.div (fun _ => ih henv) (fun _ => ih henv) h
      exact ⟨w,⟨m+1,hw⟩,hd⟩
    | expIf e₁ e₂ e₃ =>
      obtain ⟨v₁,h₁,h⟩ := Early.andThen_ok h
      obtain ⟨w₁,hw₁,hd⟩ := ih henv h₁
      cases hd with
      | valFunc => cases h
      | @valInt i j hij =>
        cases i with
        | none => cases h
        | some i =>
          obtain rfl := (hij i rfl).symm
          change (if i = 0 then Early.outcome a n e₃ env else Early.outcome a n e₂ env) = _ at h
          by_cases hi : i = 0
          · rw [if_pos hi] at h
            obtain ⟨w,hw,hd⟩ := ih henv h
            exact ⟨w,.branch hw₁ (by rwa [if_pos hi]),hd⟩
          · rw [if_neg hi] at h
            obtain ⟨w,hw,hd⟩ := ih henv h
            exact ⟨w,.branch hw₁ (by rwa [if_neg hi]),hd⟩
    | expApp e₁ e₂ =>
      obtain ⟨v₁,v₂,h₁,h₂,h⟩ := Early.both_ok h
      obtain ⟨w₁,hw₁,hd₁⟩ := ih henv h₁
      obtain ⟨w₂,hw₂,hd₂⟩ := ih henv h₂
      cases hd₁ with
      | valInt => cases h
      | valFunc v e henv' =>
        obtain ⟨w,hw,hd⟩ := ih (.bind v hd₂ hw₂ henv') h
        exact ⟨w,.call hw₁ hw,hd⟩
    | expLambda v e =>
      obtain rfl := Except.ok.inj (Option.some.inj h)
      exact ⟨_,⟨1,rfl⟩,.valFunc v e henv⟩
    | expLet v v' e' e =>
      obtain ⟨w,⟨m,hw⟩,hd⟩ := ih (.bindRec v v' e' henv) h
      exact ⟨w,⟨m+1,hw⟩,hd⟩

/-- Nothing that is printed of a number begins like this. -/
def Wordy (s : String) : Prop := ∃ c rest, s.toList = c::rest ∧ c ≠ '-' ∧ c.isDigit = false

theorem not_wordy_toString (i : ℤ) : ¬Wordy (toString i) := by
  rintro ⟨c,rest,htext,hminus,hdigit⟩
  cases i with
  | ofNat m =>
    have hchars : (toString (Int.ofNat m)).toList = Nat.toDigits 10 m := String.toList_ofList
    have hmem : c ∈ Nat.toDigits 10 m := by
      rw [← hchars,htext]
      exact List.mem_cons_self
    rw [Nat.isDigit_of_mem_toDigits (by decide) (by decide) hmem] at hdigit
    cases hdigit
  | negSucc m =>
    have hchars : (toString (Int.negSucc m)).toList = '-'::Nat.toDigits 10 (m+1) := by
      show ("-"++String.ofList (Nat.toDigits 10 (m+1))).toList = _
      rw [String.toList_append,String.toList_ofList (l := Nat.toDigits 10 (m+1))]
      rfl
    rw [hchars] at htext
    exact hminus (List.cons.inj htext).1.symm

namespace Early

theorem Env.wordy_find {env : Env} {v : Var} {s : String} (h : env.find v = .error s) :
    Wordy s := by
  induction env using Env.induct with
  | emptyEnv =>
    obtain rfl := Except.error.inj h
    exact ⟨'u',_,String.toList_append ..,by decide,by decide⟩
  | bind var val env ih =>
    rw [Env.find] at h
    split_ifs at h
    exact ih h
  | bindRec var v' e' env ih =>
    rw [Env.find] at h
    split_ifs at h
    exact ih h

theorem andThen_wordy {x : Option Outcome} {f : Value → Option Outcome}
    (hx : ∀ s, x = some (.error s) → Wordy s) (hf : ∀ v s, f v = some (.error s) → Wordy s)
    {s : String} (h : andThen x f = some (.error s)) : Wordy s := by
  rcases x with _ | (s' | u)
  · cases h
  · obtain rfl := Except.error.inj (Option.some.inj h)
    exact hx _ rfl
  · exact hf u s h

theorem operate_wordy {op : ℤ → ℤ → Option ℤ} {v₁ v₂ : Value} {s : String}
    (h : some (operate op v₁ v₂) = some (.error s)) : Wordy s := by
  have herror : operate op v₁ v₂ = .error "binary operation over non-int value" := by
    cases v₁ <;> cases v₂ <;> first | rfl | cases h
  rw [herror] at h
  obtain rfl := Except.error.inj (Option.some.inj h)
  exact ⟨'b',_,rfl,by decide,by decide⟩

/-- No message of an error looks like a number. -/
theorem outcome_wordy {a : Arith} (n : ℕ) {e : Exp} {env : Env} {s : String}
    (h : outcome a n e env = some (.error s)) : Wordy s := by
  induction n generalizing e env s with
  | zero => cases h
  | succ n ih =>
    cases e with
    | expK i => cases h
    | expVar v => exact Env.wordy_find (Option.some.inj h)
    | expAdd e₁ e₂ =>
      exact andThen_wordy (fun _ => ih) (fun _ _ => andThen_wordy (fun _ => ih) fun _ _ => operate_wordy) h
    | expSub e₁ e₂ =>
      exact andThen_wordy (fun _ => ih) (fun _ _ => andThen_wordy (fun _ => ih) fun _ _ => operate_wordy) h
    | expMul e₁ e₂ =>
      exact andThen_wordy (fun _ => ih) (fun _ _ => andThen_wordy (fun _ => ih) fun _ _ => operate_wordy) h
    | expDiv e₁ e₂ =>
      exact andThen_wordy (fun _ => ih) (fun _ _ => andThen_wordy (fun _ => ih) fun _ _ => operate_wordy) h
    | expIf e₁ e₂ e₃ =>
      refine andThen_wordy (fun _ => ih) ?_ h
      intro v s h
      cases v with
      | valInt i =>
        cases i with
        | none => cases h
        | some i =>
          change (if i = 0 then _ else _) = _ at h
          split_ifs at h
          · exact ih h
          · exact ih h
      | valFunc v e env =>
        obtain rfl := Except.error.inj (Option.some.inj h)
        exact ⟨'i',_,rfl,by decide,by decide⟩
    | expApp e₁ e₂ =>
      refine andThen_wordy (fun _ => ih) (fun v₁ _ => andThen_wordy (fun _ => ih) ?_) h
      intro v₂ s h
      cases v₁ with
      | valInt i =>
        obtain rfl := Except.error.inj (Option.some.inj h)
        exact ⟨'a',_,rfl,by decide,by decide⟩
      | valFunc v e env' => exact ih h
    | expLambda v e => cases h
    | expLet v v' e' e => exact ih h

/-- A program whose result is a number has evaluated to it. -/
theorem HasResult.outcome {a : Arith} {e : Exp} {i : ℤ} (h : HasResult a e (toString i)) :
    ∃ n j, Early.outcome a n e .emptyEnv = some (.ok (.valInt (some j))) ∧
      toString j = toString i := by
  obtain ⟨n,h⟩ := h
  change evalExp a n e .emptyEnv k = _ at h
  rw [evalExp_eq] at h
  obtain ⟨o,ho,hk⟩ := Option.bind_eq_some_iff.mp h
  cases o with
  | error s =>
    obtain rfl : s = toString i := Option.some.inj hk
    exact absurd (outcome_wordy n ho) (not_wordy_toString i)
  | ok v =>
    cases v with
    | valInt j =>
      obtain ⟨j,rfl,hj⟩ := Option.map_eq_some_iff.mp hk
      exact ⟨n,j,ho,hj⟩
    | valFunc v e env =>
      have htext : "function" = toString i := Option.some.inj hk
      have hword : Wordy "function" := ⟨'f',_,rfl,by decide,by decide⟩
      exact absurd (htext ▸ hword) (not_wordy_toString i)

end Early

/-- A number that comes out with no value out of range on the way comes out with the `Int` of the one
language and with the `Integer` of the other. -/
theorem prints_of_hasResult {e : Early.Exp} {i : ℤ} (h : Early.HasResult .checked e (toString i)) :
    Early.HasResult .int e (toString i) ∧ Simple.Prints .integer e.toSimple (toString i) := by
  obtain ⟨n,j,hn,hj⟩ := h.outcome
  constructor
  · obtain ⟨v,hv,hle⟩ := Early.outcome_le Arith.checked_le_int n .emptyEnv hn
    cases hle with
    | valInt hnumber =>
      refine ⟨n,?_⟩
      show Early.evalExp .int n e .emptyEnv Early.k = some (toString i)
      rw [Early.evalExp_eq,hv,hnumber j rfl,← hj]
      rfl
  · obtain ⟨w,⟨m,hm⟩,hd⟩ := evaluates_of_outcome Arith.checked_le_integer n .emptyEnv hn
    cases hd with
    | valInt hnumber =>
      refine ⟨m,?_⟩
      show (Simple.evalExp .integer m e.toSimple .emptyEnv).bind Simple.printed = some (toString i)
      change Simple.evalExp .integer m e.toSimple .emptyEnv = _ at hm
      rw [hm,hnumber j rfl,← hj]
      rfl

theorem prints_of_hasResult_fat4 : Early.HasResult .int Early.fat4 (toString 120) ∧
    Simple.Prints .integer Early.fat4.toSimple (toString 120) :=
  prints_of_hasResult (i := 120) ⟨40,by decide +kernel⟩

end PucRio.Semantics
