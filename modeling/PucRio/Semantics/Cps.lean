import PucRio.Semantics.Memory

/-! The imperative language with its continuation semantics: a command runs in a memory, with a
continuation for its normal end and one for `break`, and has the result of the program. Here too
only those values are computed that somebody asks for.

Without continuations, a direct semantics says for a command whether it has ended or been broken off.
What a loop does with a body that has been broken off is a parameter, and the continuation semantics is
the one where a `break` leaves all loops. -/
namespace PucRio.Semantics.Cps

/-- The values of the program; the definitions are those for any numbers. -/
abbrev Value := Int64

inductive Exp (V : Type)
  | expK (i : V)
  | expVar (v : Var)
  | expAdd (e₁ e₂ : Exp V)
  | expSub (e₁ e₂ : Exp V)
  | expMul (e₁ e₂ : Exp V)
  | expDiv (e₁ e₂ : Exp V)
  | expAnd (e₁ e₂ : Exp V)
  | expOr (e₁ e₂ : Exp V)
  | expNot (e : Exp V)
  | expNeg (e : Exp V)

inductive Cmd (V : Type)
  | cmdAss (v : Var) (e : Exp V)
  | cmdIf (e : Exp V) (ct ce : Cmd V)
  | cmdComp (cs : List (Cmd V))
  | cmdRepeatUntil (rc : Cmd V) («until» : ℤ)
  | cmdWhile (e : Exp V) (c : Cmd V)
  | cmdSkip
  | cmdBreak

/-- A continuation; it need not end. -/
abbrev K (V : Type) (R : Type*) := Mem V → Option R

section Continuation
variable {V : Type} [Number V] {R : Type*}

def bool2Int (b : Bool) : V := if b then Number.one else Number.zero

def evalExp : Exp V → Mem V → Option V
  | .expK i,_ => some i
  | .expVar v,m => m v
  | .expAdd e₁ e₂,m => do return Number.add (← evalExp e₁ m) (← evalExp e₂ m)
  | .expSub e₁ e₂,m => do return Number.sub (← evalExp e₁ m) (← evalExp e₂ m)
  | .expMul e₁ e₂,m => do return Number.mul (← evalExp e₁ m) (← evalExp e₂ m)
  | .expDiv e₁ e₂,m => do Number.div (← evalExp e₁ m) (← evalExp e₂ m)
  -- `&&` and `||` do not evaluate an operand they do not need.
  | .expAnd e₁ e₂,m => do
    if isTrue (← evalExp e₁ m) then return bool2Int (isTrue (← evalExp e₂ m))
    else return bool2Int false
  | .expOr e₁ e₂,m => do
    if isTrue (← evalExp e₁ m) then return bool2Int true
    else return bool2Int (isTrue (← evalExp e₂ m))
  | .expNot e,m => do return bool2Int (!isTrue (← evalExp e m))
  | .expNeg e,m => do return Number.neg (← evalExp e m)

/-- `evalCmd` of the source, each of whose recursive calls has one unit less of fuel, those that
a continuation makes too. The local `k'` of a loop is the value of the loop itself. -/
def evalCmd : ℕ → Cmd V → K V R → K V R → Mem V → Option R
  | 0,_,_,_,_ => none
  | _+1,.cmdSkip,k,_,m => k m
  | _+1,.cmdComp [],k,_,m => k m
  | n+1,.cmdComp (c::cs),k,kBreak,m =>
    evalCmd n c (evalCmd n (.cmdComp cs) k kBreak) kBreak m
  | n+1,.cmdRepeatUntil rc u,k,kBreak,m =>
    if u = 0 then k m
    else if u = 1 then evalCmd n rc k kBreak m
    else evalCmd n (.cmdComp [rc,.cmdRepeatUntil rc (u-1)]) k kBreak m
  | n+1,.cmdIf e ct ce,k,kBreak,m =>
    (evalExp e m).bind fun i =>
      if isTrue i then evalCmd n ct k kBreak m else evalCmd n ce k kBreak m
  | _+1,.cmdAss v e,k,_,m => k (update v (evalExp e m) m)
  | n+1,.cmdWhile e c,k,kBreak,m =>
    (evalExp e m).bind fun i =>
      if isTrue i then evalCmd n c (evalCmd n (.cmdWhile e c) k kBreak) kBreak m else k m
  | _+1,.cmdBreak,_,kBreak,m => kBreak m

def emptyMem : Mem V := fun _ => some Number.zero

def ik [ToString V] : K V String := fun m => (m "x").map toString

def kbreak : K V String := fun _ => some ("break".quote)

/-- Run in `m` with these continuations, `c` has the result `r`. -/
def Results (c : Cmd V) (k kBreak : K V R) (m : Mem V) (r : R) : Prop :=
  Yields (fun n => evalCmd n c k kBreak m) r

end Continuation

variable {V : Type}

inductive Outcome (V : Type)
  | normal (m : Mem V)
  | broken (m : Mem V)

/-- Go on from the outcome. -/
def Outcome.elim {α : Type*} (k kBreak : Mem V → α) : Outcome V → α
  | .normal m => k m
  | .broken m => kBreak m

theorem KeptBy.elim {R : Type*} {x y x' y' : K V R} {o : Outcome V} (h : ∀ m, KeptBy (x m) (y m))
    (h' : ∀ m, KeptBy (x' m) (y' m)) : KeptBy (o.elim x x') (o.elim y y') := by
  cases o with
  | normal m => exact h m
  | broken m => exact h' m

variable [Number V]

/-- The outcome of a command; that of a loop whose body has been broken off is `left`. -/
def exec (left : K V (Outcome V)) : ℕ → Cmd V → K V (Outcome V)
  | 0,_,_ => none
  | _+1,.cmdSkip,m => some (.normal m)
  | _+1,.cmdComp [],m => some (.normal m)
  | n+1,.cmdComp (c::cs),m =>
    (exec left n c m).bind (·.elim (exec left n (.cmdComp cs)) (some ∘ .broken))
  | n+1,.cmdRepeatUntil rc u,m =>
    if u = 0 then some (.normal m)
    else if u = 1 then exec left n rc m
    else exec left n (.cmdComp [rc,.cmdRepeatUntil rc (u-1)]) m
  | n+1,.cmdIf e ct ce,m =>
    (evalExp e m).bind fun i => if isTrue i then exec left n ct m else exec left n ce m
  | _+1,.cmdAss v e,m => some (.normal (update v (evalExp e m) m))
  | n+1,.cmdWhile e c,m =>
    (evalExp e m).bind fun i =>
      if isTrue i then (exec left n c m).bind (·.elim (exec left n (.cmdWhile e c)) left)
      else some (.normal m)
  | _+1,.cmdBreak,m => some (.broken m)

section Equations
variable (left : K V (Outcome V)) (n : ℕ) (c : Cmd V) (e : Exp V) (m : Mem V)

theorem exec_comp_cons (cs : List (Cmd V)) : exec left (n+1) (.cmdComp (c::cs)) m =
    (exec left n c m).bind (·.elim (exec left n (.cmdComp cs)) (some ∘ .broken)) := rfl

theorem exec_repeatUntil (u : ℤ) : exec left (n+1) (.cmdRepeatUntil c u) m =
    if u = 0 then some (.normal m)
    else if u = 1 then exec left n c m
    else exec left n (.cmdComp [c,.cmdRepeatUntil c (u-1)]) m := rfl

theorem exec_if (ct ce : Cmd V) : exec left (n+1) (.cmdIf e ct ce) m =
    (evalExp e m).bind fun i => if isTrue i then exec left n ct m else exec left n ce m := rfl

theorem exec_while : exec left (n+1) (.cmdWhile e c) m =
    (evalExp e m).bind fun i =>
      if isTrue i then (exec left n c m).bind (·.elim (exec left n (.cmdWhile e c)) left)
      else some (.normal m) := rfl

end Equations

/-- With enough fuel the command has the outcome. -/
def Ends (left : K V (Outcome V)) (c : Cmd V) (m : Mem V) (o : Outcome V) : Prop :=
  Yields (fun n => exec left n c m) o

section Fuel
variable {left : K V (Outcome V)}

/-- More fuel keeps an outcome, and so does a loop that does more with a broken body. -/
theorem exec_keptBy {left' : K V (Outcome V)} (h : ∀ m, KeptBy (left m) (left' m)) (n k : ℕ)
    (c : Cmd V) (m : Mem V) : KeptBy (exec left n c m) (exec left' (n+k) c m) := by
  induction n generalizing c m with
  | zero => exact KeptBy.none _
  | succ n ih =>
    rw [Nat.add_right_comm]
    cases c with
    | cmdSkip => exact KeptBy.refl _
    | cmdBreak => exact KeptBy.refl _
    | cmdAss v e => exact KeptBy.refl _
    | cmdComp cs =>
      cases cs with
      | nil => exact KeptBy.refl _
      | cons c cs => exact (ih c m).bind fun _ => KeptBy.elim (ih _) fun _ => KeptBy.refl _
    | cmdRepeatUntil rc u => exact KeptBy.ite (KeptBy.refl _) (KeptBy.ite (ih _ m) (ih _ m))
    | cmdIf e ct ce => exact (KeptBy.refl _).bind fun _ => KeptBy.ite (ih ct m) (ih ce m)
    | cmdWhile e c =>
      exact (KeptBy.refl _).bind fun _ => KeptBy.ite
        ((ih c m).bind fun _ => KeptBy.elim (ih _) h) (KeptBy.refl _)

theorem exec_keptBy_succ (left : K V (Outcome V)) (n : ℕ) (c : Cmd V) (m : Mem V) :
    KeptBy (exec left n c m) (exec left (n+1) c m) :=
  exec_keptBy (fun _ => KeptBy.refl _) n 1 c m

theorem exec_keptBy_of_le (left : K V (Outcome V)) (c : Cmd V) (m : Mem V) {n k : ℕ} (h : n ≤ k) :
    KeptBy (exec left n c m) (exec left k c m) :=
  keptBy_of_le (exec_keptBy_succ left · c m) h

theorem Ends.unique {c : Cmd V} {m : Mem V} {o o' : Outcome V} (h : Ends left c m o)
    (h' : Ends left c m o') : o = o' :=
  Yields.unique (exec_keptBy_succ left · c m) h h'

end Fuel

section Rules
variable {left : K V (Outcome V)} {c : Cmd V} {cs : List (Cmd V)} {e : Exp V} {i : V}
  {m m₁ : Mem V} {o : Outcome V}

theorem Ends.intro {n : ℕ} (h : exec left n c m = some o) : Ends left c m o := ⟨n,h⟩

theorem Ends.exists_exec (h : Ends left c m o) : ∃ n, exec left n c m = some o := h

/-- Two outcomes with the same fuel. -/
theorem Ends.both {c' : Cmd V} {o' : Outcome V} (h : Ends left c m o) (h' : Ends left c' m₁ o') :
    ∃ n, exec left n c m = some o ∧ exec left n c' m₁ = some o' := by
  obtain ⟨n,hn⟩ := h
  obtain ⟨n',hn'⟩ := h'
  exact ⟨max n n',exec_keptBy_of_le left c m (Nat.le_max_left n n') o hn,
    exec_keptBy_of_le left c' m₁ (Nat.le_max_right n n') o' hn'⟩

theorem Ends.seq (h : Ends left c m (.normal m₁)) (hs : Ends left (.cmdComp cs) m₁ o) :
    Ends left (.cmdComp (c::cs)) m o := by
  obtain ⟨n,hn,hs⟩ := h.both hs
  apply Ends.intro (n := n+1)
  rw [exec_comp_cons,hn]
  exact hs

theorem Ends.seq_broken (h : Ends left c m (.broken m₁)) :
    Ends left (.cmdComp (c::cs)) m (.broken m₁) := by
  obtain ⟨n,hn⟩ := h.exists_exec
  apply Ends.intro (n := n+1)
  rw [exec_comp_cons,hn]
  rfl

theorem Ends.once (h : Ends left c m o) : Ends left (.cmdRepeatUntil c 1) m o := by
  obtain ⟨n,hn⟩ := h.exists_exec
  exact ⟨n+1,hn⟩

theorem Ends.again {u : ℤ} (h0 : u ≠ 0) (h1 : u ≠ 1)
    (h : Ends left (.cmdComp [c,.cmdRepeatUntil c (u-1)]) m o) :
    Ends left (.cmdRepeatUntil c u) m o := by
  obtain ⟨n,hn⟩ := h.exists_exec
  apply Ends.intro (n := n+1)
  rw [exec_repeatUntil,if_neg h0,if_neg h1]
  exact hn

theorem Ends.branch {ct ce : Cmd V} (he : evalExp e m = some i)
    (h : Ends left (if isTrue i then ct else ce) m o) : Ends left (.cmdIf e ct ce) m o := by
  obtain ⟨n,hn⟩ := h.exists_exec
  apply Ends.intro (n := n+1)
  rw [exec_if,he,Option.bind_some]
  split_ifs at hn ⊢ <;> exact hn

theorem Ends.loop (he : evalExp e m = some i) (hi : isTrue i = true)
    (h : Ends left c m (.normal m₁)) (hw : Ends left (.cmdWhile e c) m₁ o) :
    Ends left (.cmdWhile e c) m o := by
  obtain ⟨n,hn,hw⟩ := h.both hw
  apply Ends.intro (n := n+1)
  rw [exec_while,he,Option.bind_some,if_pos hi,hn]
  exact hw

theorem Ends.loop_broken (he : evalExp e m = some i) (hi : isTrue i = true)
    (h : Ends left c m (.broken m₁)) (hleft : left m₁ = some o) :
    Ends left (.cmdWhile e c) m o := by
  obtain ⟨n,hn⟩ := h.exists_exec
  apply Ends.intro (n := n+1)
  rw [exec_while,he,Option.bind_some,if_pos hi,hn]
  exact hleft

theorem Ends.loop_end (he : evalExp e m = some i) (hi : isTrue i = false) :
    Ends left (.cmdWhile e c) m (.normal m) := by
  apply Ends.intro (n := 1)
  rw [exec_while,he,Option.bind_some,hi]
  rfl

end Rules

/-- A `break` leaves all loops. -/
abbrev LeavesAll : Cmd V → Mem V → Outcome V → Prop := Ends (some ∘ .broken)

section Continuations
variable {R : Type*} {c : Cmd V} {m : Mem V}

/-- With the same fuel, running with continuations is the direct semantics in which a `break`
leaves all loops, and then the continuation of its outcome. -/
theorem evalCmd_eq (n : ℕ) (c : Cmd V) (k kBreak : K V R) (m : Mem V) :
    evalCmd n c k kBreak m = (exec (some ∘ .broken) n c m).bind (·.elim k kBreak) := by
  induction n generalizing c k m with
  | zero => rfl
  | succ n ih =>
    -- what the induction says of a command whose continuation is again a command
    have hseq (c c' : Cmd V) (k : K V R) (m : Mem V) :
        evalCmd n c (evalCmd n c' k kBreak) kBreak m =
          ((exec (some ∘ .broken) n c m).bind
            (·.elim (exec (some ∘ .broken) n c') (some ∘ .broken))).bind (·.elim k kBreak) := by
      rw [ih,Option.bind_assoc]
      congr 1
      funext o
      cases o with
      | normal m₁ => exact ih c' k m₁
      | broken m₁ => rfl
    cases c with
    | cmdSkip => rfl
    | cmdBreak => rfl
    | cmdAss v e => rfl
    | cmdComp cs =>
      cases cs with
      | nil => rfl
      | cons c cs => exact hseq c (.cmdComp cs) k m
    | cmdRepeatUntil rc u =>
      rw [evalCmd,exec_repeatUntil,ih,ih]
      split_ifs <;> rfl
    | cmdIf e ct ce =>
      rw [evalCmd,exec_if,Option.bind_assoc]
      congr 1
      funext i
      split_ifs
      · exact ih ct k m
      · exact ih ce k m
    | cmdWhile e c =>
      rw [evalCmd,exec_while,Option.bind_assoc]
      congr 1
      funext i
      split_ifs
      · exact hseq c (.cmdWhile e c) k m
      · rfl

theorem results_iff {k kBreak : K V R} {r : R} :
    Results c k kBreak m r ↔ ∃ o, LeavesAll c m o ∧ o.elim k kBreak = some r := by
  constructor
  · rintro ⟨n,hn⟩
    obtain ⟨o,ho,hk⟩ := Option.bind_eq_some_iff.mp ((evalCmd_eq n c k kBreak m).symm.trans hn)
    exact ⟨o,⟨n,ho⟩,hk⟩
  · rintro ⟨o,⟨n,ho⟩,hk⟩
    exact ⟨n,(evalCmd_eq n c k kBreak m).trans (Option.bind_eq_some_iff.mpr ⟨o,ho,hk⟩)⟩

/-- Where the command has an outcome, its result is that of the continuation there. -/
theorem LeavesAll.results_iff {o : Outcome V} (h : LeavesAll c m o) (k kBreak : K V R) (r : R) :
    Results c k kBreak m r ↔ o.elim k kBreak = some r := by
  rw [Cps.results_iff]
  constructor
  · rintro ⟨o',h',hk⟩
    rw [h.unique h']
    exact hk
  · intro hk
    exact ⟨o,h,hk⟩

end Continuations
end PucRio.Semantics.Cps
