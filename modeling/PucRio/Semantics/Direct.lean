import PucRio.Semantics.Memory

/-! The imperative language with its direct semantics: a command takes a memory to the memory it
leaves. It is lazy: what has run without end is missed only by those who ask for what it has left,
and an assignment leaves a value of its variable whatever has been before it. -/
namespace PucRio.Semantics.Direct

abbrev Value := ℤ

inductive Exp
  | expK (i : ℤ)
  | expVar (v : Var)
  | expAdd (e₁ e₂ : Exp)
  | expSub (e₁ e₂ : Exp)
  | expMul (e₁ e₂ : Exp)
  | expDiv (e₁ e₂ : Exp)
  | expNeg (e : Exp)

def evalExp : Exp → Mem Value → Option Value
  | .expK i,_ => some i
  | .expVar v,m => m v
  | .expAdd e₁ e₂,m => do return (← evalExp e₁ m) + (← evalExp e₂ m)
  | .expSub e₁ e₂,m => do return (← evalExp e₁ m) - (← evalExp e₂ m)
  | .expMul e₁ e₂,m => do return (← evalExp e₁ m) * (← evalExp e₂ m)
  | .expDiv e₁ e₂,m => do div (← evalExp e₁ m) (← evalExp e₂ m)
  | .expNeg e,m => do return -(← evalExp e m)

inductive Cmd
  | cmdAsg (v : Var) (e : Exp)
  | cmdIf (e : Exp) (ct ce : Cmd)
  | cmdSeq (cs : List Cmd)
  | cmdRepeatUntil (rc : Cmd) («until» : ℤ)
  | cmdWhile (e : Exp) (c : Cmd)
  | cmdSkip

/-- `if isTrue i then mt else me`, of which nothing is known without `i`. -/
def ifTrue (i : Option Value) (mt me : Mem Value) : Mem Value :=
  match i with
  | none => noMem
  | some i => if isTrue i then mt else me

/-- `evalCmd` of the source, each of whose recursive calls has one unit less of fuel: the values
that can be found with it. The local `w` of a loop is the value of the loop itself. -/
def evalCmd : ℕ → Cmd → Mem Value → Mem Value
  | 0,_,_ => noMem
  | _+1,.cmdSkip,m => m
  | _+1,.cmdSeq [],m => m
  | n+1,.cmdSeq (c::cs),m => evalCmd n (.cmdSeq cs) (evalCmd n c m)
  | n+1,.cmdRepeatUntil rc u,m =>
    if u = 0 then m
    else if u = 1 then evalCmd n rc m
    else evalCmd n (.cmdSeq [rc,.cmdRepeatUntil rc (u-1)]) m
  | n+1,.cmdIf e ct ce,m => ifTrue (evalExp e m) (evalCmd n ct m) (evalCmd n ce m)
  | _+1,.cmdAsg v e,m => update v (evalExp e m) m
  | n+1,.cmdWhile e c,m => ifTrue (evalExp e m) (evalCmd n (.cmdWhile e c) (evalCmd n c m)) m

/-- The memory that `c` makes of `m`: a value is in it if it is found with some fuel. -/
def Makes (c : Cmd) (m m' : Mem Value) : Prop :=
  ∀ v i, m' v = some i ↔ Yields (fun n => evalCmd n c m v) i

/-- `x = 2; repeat x = x * 2` eight times. -/
def cmd1 : Cmd :=
  .cmdSeq [.cmdAsg "x" (.expK 2),
    .cmdRepeatUntil (.cmdAsg "x" (.expMul (.expVar "x") (.expK 2))) 8]

section Fuel
variable {m m' : Mem Value}

theorem evalExp_keptBy (e : Exp) (h : MemLe m m') : KeptBy (evalExp e m) (evalExp e m') := by
  induction e with
  | expK i => exact KeptBy.refl _
  | expVar v => exact h v
  | expAdd e₁ e₂ ih₁ ih₂ => exact ih₁.bind fun _ => ih₂.bind fun _ => KeptBy.refl _
  | expSub e₁ e₂ ih₁ ih₂ => exact ih₁.bind fun _ => ih₂.bind fun _ => KeptBy.refl _
  | expMul e₁ e₂ ih₁ ih₂ => exact ih₁.bind fun _ => ih₂.bind fun _ => KeptBy.refl _
  | expDiv e₁ e₂ ih₁ ih₂ => exact ih₁.bind fun _ => ih₂.bind fun _ => KeptBy.refl _
  | expNeg e ih => exact ih.bind fun _ => KeptBy.refl _

theorem ifTrue_le {i i' : Option Value} {mt mt' me me' : Mem Value} (hi : KeptBy i i')
    (ht : MemLe mt mt') (he : MemLe me me') : MemLe (ifTrue i mt me) (ifTrue i' mt' me') := by
  cases i with
  | none => exact MemLe.noMem _
  | some i =>
    rw [hi i rfl]
    show MemLe (if isTrue i then mt else me) (if isTrue i then mt' else me')
    split_ifs
    · exact ht
    · exact he

/-- More fuel, and a memory that has more, find the same values. -/
theorem evalCmd_le (n : ℕ) (c : Cmd) (h : MemLe m m') :
    MemLe (evalCmd n c m) (evalCmd (n+1) c m') := by
  induction n generalizing c m m' with
  | zero => exact MemLe.noMem _
  | succ n ih =>
    cases c with
    | cmdSkip => exact h
    | cmdAsg v e => exact h.update v (evalExp_keptBy e h)
    | cmdSeq cs =>
      cases cs with
      | nil => exact h
      | cons c cs => exact ih _ (ih c h)
    | cmdRepeatUntil rc u =>
      rw [evalCmd,evalCmd]
      split_ifs
      · exact h
      · exact ih rc h
      · exact ih _ h
    | cmdIf e ct ce => exact ifTrue_le (evalExp_keptBy e h) (ih ct h) (ih ce h)
    | cmdWhile e c => exact ifTrue_le (evalExp_keptBy e h) (ih _ (ih c h)) h

theorem evalCmd_keptBy_of_le (c : Cmd) (m : Mem Value) (v : Var) {n k : ℕ} (h : n ≤ k) :
    KeptBy (evalCmd n c m v) (evalCmd k c m v) :=
  keptBy_of_le (fun n => evalCmd_le n c (MemLe.refl m) v) h

/-- Every command makes a memory, which may be one without values. -/
theorem exists_makes (c : Cmd) (m : Mem Value) : ∃ m', Makes c m m' :=
  Classical.skolem.mp fun v => exists_eq_some_iff_yields fun n => evalCmd_le n c (MemLe.refl m) v

/-- And it makes no other one. -/
theorem Makes.unique {c : Cmd} {m₁ m₂ : Mem Value} (h₁ : Makes c m m₁) (h₂ : Makes c m m₂) :
    m₁ = m₂ := by
  funext v
  apply Option.ext
  intro i
  rw [h₁ v i,h₂ v i]

end Fuel

mutual

/-- The variables that a command may assign to. -/
def Cmd.assigned : Cmd → List Var
  | .cmdAsg v _ => [v]
  | .cmdIf _ ct ce => ct.assigned++ce.assigned
  | .cmdSeq cs => cmdsAssigned cs
  | .cmdRepeatUntil rc _ => rc.assigned
  | .cmdWhile _ c => c.assigned
  | .cmdSkip => []

def cmdsAssigned : List Cmd → List Var
  | [] => []
  | c::cs => c.assigned++cmdsAssigned cs

end

end PucRio.Semantics.Direct
