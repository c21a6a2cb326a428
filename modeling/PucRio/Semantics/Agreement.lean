import PucRio.Semantics.Direct
import PucRio.Semantics.Cps
import Mathlib.Data.Finset.Basic
import Mathlib.Data.Fintype.EquivFin

/-! The two semantics agree on the commands they share, with the values of both taken as unbounded
integers: a command hands the memory that it makes in the direct semantics to its normal
continuation. This needs an end of its loops, for which the direct semantics does not always wait;
whoever is given the value of a variable that nothing is assigned to knows that they have ended. -/
namespace PucRio.Semantics
open Cps
variable {R : Type*}

/-- The same expression of the other language. -/
def Direct.Exp.toCps : Direct.Exp → Cps.Exp ℤ
  | .expK i => .expK i
  | .expVar v => .expVar v
  | .expAdd e₁ e₂ => .expAdd e₁.toCps e₂.toCps
  | .expSub e₁ e₂ => .expSub e₁.toCps e₂.toCps
  | .expMul e₁ e₂ => .expMul e₁.toCps e₂.toCps
  | .expDiv e₁ e₂ => .expDiv e₁.toCps e₂.toCps
  | .expNeg e => .expNeg e.toCps

mutual

/-- The same command of the other language; its image is the fragment without `break`. -/
def Direct.Cmd.toCps : Direct.Cmd → Cps.Cmd ℤ
  | .cmdAsg v e => .cmdAss v e.toCps
  | .cmdIf e ct ce => .cmdIf e.toCps ct.toCps ce.toCps
  | .cmdSeq cs => .cmdComp (Direct.cmdsToCps cs)
  | .cmdRepeatUntil rc u => .cmdRepeatUntil rc.toCps u
  | .cmdWhile e c => .cmdWhile e.toCps c.toCps
  | .cmdSkip => .cmdSkip

def Direct.cmdsToCps : List Direct.Cmd → List (Cps.Cmd ℤ)
  | [] => []
  | c::cs => c.toCps::Direct.cmdsToCps cs

end

theorem evalExp_toCps (e : Direct.Exp) (m : Mem ℤ) :
    Cps.evalExp e.toCps m = Direct.evalExp e m := by
  induction e with
  | expK i => rfl
  | expVar v => rfl
  | expAdd e₁ e₂ ih₁ ih₂ =>
    rw [Direct.Exp.toCps,Cps.evalExp,Direct.evalExp,ih₁,ih₂]
    rfl
  | expSub e₁ e₂ ih₁ ih₂ =>
    rw [Direct.Exp.toCps,Cps.evalExp,Direct.evalExp,ih₁,ih₂]
    rfl
  | expMul e₁ e₂ ih₁ ih₂ =>
    rw [Direct.Exp.toCps,Cps.evalExp,Direct.evalExp,ih₁,ih₂]
    rfl
  | expDiv e₁ e₂ ih₁ ih₂ =>
    rw [Direct.Exp.toCps,Cps.evalExp,Direct.evalExp,ih₁,ih₂]
    rfl
  | expNeg e ih =>
    rw [Direct.Exp.toCps,Cps.evalExp,Direct.evalExp,ih]
    rfl

/-- How the outcome `x` and the memory `m'` that is made of `m` go together: there is an end in
`m'`, or none, and then only variables that are assigned to have values in it. -/
def Agrees (x : Option (Outcome ℤ)) (assigned : List Var) (m m' : Mem ℤ) : Prop :=
  (x = some (.normal m') ∧ ∀ v ∉ assigned, m' v = m v) ∨ x = none ∧ ∀ v ∉ assigned, m' v = none

namespace Agrees
variable {x y : Option (Outcome ℤ)} {l l' : List Var} {m m₁ m₂ : Mem ℤ}

theorem never (l : List Var) (m : Mem ℤ) : Agrees none l m noMem := .inr ⟨rfl,fun _ _ => rfl⟩

theorem here (l : List Var) (m : Mem ℤ) : Agrees (some (.normal m)) l m m :=
  .inl ⟨rfl,fun _ _ => rfl⟩

theorem mono (h : Agrees x l m m₁) (hl : l ⊆ l') : Agrees x l' m m₁ :=
  h.imp (fun h => ⟨h.1,fun v hv => h.2 v fun hmem => hv (hl hmem)⟩)
    fun h => ⟨h.1,fun v hv => h.2 v fun hmem => hv (hl hmem)⟩

/-- One command after another. If the first one does not end, the other one adds values only of
variables that it assigns to. -/
theorem seq {f : Mem ℤ → Option (Outcome ℤ)} (h : Agrees x l m m₁) (hf : Agrees (f m₁) l' m₁ m₂)
    (g : Mem ℤ → Option (Outcome ℤ)) : Agrees (x.bind (·.elim f g)) (l++l') m m₂ := by
  obtain ⟨rfl,hm₁⟩ | ⟨rfl,hnone⟩ := h
  · refine hf.imp (fun h => ⟨h.1,fun v hv => ?_⟩) fun h => ⟨h.1,fun v hv => ?_⟩
    · obtain ⟨hl,hl'⟩ := not_or.mp (mt List.mem_append.mpr hv)
      rw [h.2 v hl',hm₁ v hl]
    · exact h.2 v fun hmem => hv (List.mem_append_right l hmem)
  · refine .inr ⟨rfl,fun v hv => ?_⟩
    obtain ⟨hl,hl'⟩ := not_or.mp (mt List.mem_append.mpr hv)
    obtain ⟨-,hm₂⟩ | ⟨-,hm₂⟩ := hf
    · rw [hm₂ v hl',hnone v hl]
    · exact hm₂ v hl'

theorem ifTrue {i : Option ℤ} (ht : Agrees x l m m₁) (he : Agrees y l m m₂) :
    Agrees (i.bind fun i => if isTrue i then x else y) l m (Direct.ifTrue i m₁ m₂) := by
  cases i with
  | none => exact never l m
  | some i =>
    rw [Option.bind_some,Direct.ifTrue]
    split_ifs
    · exact ht
    · exact he

end Agrees

/-- With the same fuel, a command without `break` ends in the memory that it makes, or it does not
end, and no other variables than those it assigns to have values. -/
theorem exec_toCps (left : K ℤ (Outcome ℤ)) (n : ℕ) (c : Direct.Cmd) (m : Mem ℤ) :
    Agrees (exec left n c.toCps m) c.assigned m (Direct.evalCmd n c m) := by
  induction n generalizing c m with
  | zero => exact .never ..
  | succ n ih =>
    cases c with
    | cmdSkip => exact .here ..
    | cmdAsg v e =>
      rw [Direct.Cmd.toCps,exec,evalExp_toCps]
      exact .inl ⟨rfl,fun w hw => update_of_ne (List.ne_of_not_mem_cons hw) ..⟩
    | cmdIf e ct ce =>
      rw [Direct.Cmd.toCps,exec_if,evalExp_toCps]
      exact .ifTrue ((ih ct m).mono (List.subset_append_left ..))
        ((ih ce m).mono (List.subset_append_right ..))
    | cmdSeq cs =>
      cases cs with
      | nil => exact .here ..
      | cons c cs => exact (ih c m).seq (ih (.cmdSeq cs) _) _
    | cmdRepeatUntil rc u =>
      rw [Direct.Cmd.toCps,exec_repeatUntil,Direct.evalCmd]
      split_ifs
      · exact .here ..
      · exact ih rc m
      · refine (ih (.cmdSeq [rc,.cmdRepeatUntil rc (u-1)]) m).mono ?_
        simp [Direct.Cmd.assigned,Direct.cmdsAssigned]
    | cmdWhile e c =>
      rw [Direct.Cmd.toCps,exec_while,evalExp_toCps]
      refine .ifTrue (((ih c m).seq (ih (.cmdWhile e c) _) _).mono ?_) (.here ..)
      simp [Direct.Cmd.assigned]

section Agreement
variable {c : Direct.Cmd} {m m' : Mem ℤ} {v : Var}

/-- A command that ends has made the memory in which it ends. -/
theorem makes_of_ends {left : K ℤ (Outcome ℤ)} {o : Outcome ℤ} (h : Ends left c.toCps m o) :
    ∃ m', o = .normal m' ∧ Direct.Makes c m m' ∧ ∀ v ∉ c.assigned, m' v = m v := by
  obtain ⟨n,hn⟩ := h.exists_exec
  have hlater (k : ℕ) (hk : n ≤ k) :
      o = .normal (Direct.evalCmd k c m) ∧ ∀ v ∉ c.assigned, Direct.evalCmd k c m v = m v := by
    have hk := exec_keptBy_of_le left c.toCps m hk o hn
    obtain ⟨hsome,hkept⟩ | ⟨hnone,-⟩ := exec_toCps left k c m
    · exact ⟨Option.some.inj (hk.symm.trans hsome),hkept⟩
    · cases hk.symm.trans hnone
  obtain ⟨ho,hkept⟩ := hlater n le_rfl
  refine ⟨Direct.evalCmd n c m,ho,fun v i => ⟨fun hi => ⟨n,hi⟩,?_⟩,hkept⟩
  rintro ⟨k,hi⟩
  rw [Outcome.normal.inj (ho.symm.trans (hlater (max n k) (Nat.le_max_left n k)).1)]
  exact Direct.evalCmd_keptBy_of_le c m v (Nat.le_max_right n k) i hi

/-- Where a variable that nothing is assigned to has a value, the command has ended. -/
theorem leavesAll_of_value (h : Direct.Makes c m m') (hv : v ∉ c.assigned) (hvalue : m' v ≠ none) :
    LeavesAll c.toCps m (.normal m') := by
  obtain ⟨i,hi⟩ := Option.ne_none_iff_exists'.mp hvalue
  obtain ⟨n,hn⟩ := (h v i).mp hi
  obtain ⟨hsome,-⟩ | ⟨-,hnone⟩ := exec_toCps (some ∘ .broken) n c m
  · obtain ⟨m₁,ho,hm₁,-⟩ := makes_of_ends (Ends.intro hsome)
    rw [← hm₁.unique h,← ho]
    exact .intro hsome
  · cases hn.symm.trans (hnone v hv)

theorem exists_not_assigned (c : Direct.Cmd) : ∃ v, v ∉ c.assigned := by
  obtain ⟨v,hv⟩ := Infinite.exists_notMem_finset c.assigned.toFinset
  exact ⟨v,mt List.mem_toFinset.mpr hv⟩

/-- From a total memory, the result is that of the normal continuation, whatever this is, exactly
where a variable that nothing is assigned to has a value in the end. -/
theorem results_toCps_iff_value (hm : ∀ v, m v ≠ none) (h : Direct.Makes c m m') :
    (∀ (k kBreak : K ℤ (Mem ℤ)) (r : Mem ℤ), Results c.toCps k kBreak m r ↔ k m' = some r) ↔
      ∃ v ∉ c.assigned, m' v ≠ none := by
  constructor
  · intro hall
    obtain ⟨o,ho,hsome⟩ := Cps.results_iff.mp ((hall some (fun _ => none) m').mpr rfl)
    obtain ⟨m₁,rfl,-,hkept⟩ := makes_of_ends ho
    obtain rfl : m₁ = m' := Option.some.inj hsome
    obtain ⟨v,hv⟩ := exists_not_assigned c
    exact ⟨v,hv,fun hnone => hm v ((hkept v hv).symm.trans hnone)⟩
  · rintro ⟨v,hv,hvalue⟩ k kBreak r
    exact (leavesAll_of_value h hv hvalue).results_iff k kBreak r

/-- Where the memory that the direct semantics makes is total, running with continuations is running
the normal continuation in it, whatever the two continuations are. -/
theorem results_toCps_of_total (h : Direct.Makes c m m') (htotal : ∀ v, m' v ≠ none)
    (k kBreak : K ℤ R) (r : R) : Results c.toCps k kBreak m r ↔ k m' = some r := by
  obtain ⟨v,hv⟩ := exists_not_assigned c
  exact (leavesAll_of_value h hv (htotal v)).results_iff k kBreak r

theorem results_toCps_of_total_cmd1 : ∃ m' : Mem ℤ, m' "x" = some 512 ∧
    ∀ r, Results Direct.cmd1.toCps ik kbreak emptyMem r ↔ ik m' = some r := by
  obtain ⟨o,ho⟩ := Option.isSome_iff_exists.mp (show (exec (some ∘ .broken) 40 Direct.cmd1.toCps
    (emptyMem (V := ℤ))).isSome = true by decide +kernel)
  obtain ⟨m',-,hmakes,hkept⟩ := makes_of_ends (.intro ho)
  have hx : m' "x" = some 512 := (hmakes "x" 512).mpr ⟨40,by decide +kernel⟩
  refine ⟨m',hx,results_toCps_of_total hmakes (fun v => ?_) ik kbreak⟩
  by_cases hv : v = "x"
  · rw [hv,hx]
    exact Option.some_ne_none _
  · rw [hkept v (by simpa [Direct.cmd1,Direct.Cmd.assigned,Direct.cmdsAssigned] using hv)]
    exact Option.some_ne_none _

/-- `while 1 do skip; x = 5` -/
def afterLoop : Direct.Cmd :=
  .cmdSeq [.cmdWhile (.expK 1) .cmdSkip,.cmdAsg "x" (.expK 5)]

theorem evalCmd_loop (n : ℕ) (m : Mem ℤ) :
    Direct.evalCmd n (.cmdWhile (.expK 1) .cmdSkip) m = noMem := by
  induction n generalizing m with
  | zero => rfl
  | succ n ih => exact ih _

theorem makes_afterLoop (m : Mem ℤ) : Direct.Makes afterLoop m (update "x" (some 5) noMem) := by
  have hrun (n : ℕ) : Direct.evalCmd (n+1) afterLoop m =
      Direct.evalCmd n (.cmdSeq [.cmdAsg "x" (.expK 5)]) noMem := by
    rw [afterLoop,Direct.evalCmd,evalCmd_loop]
  intro v i
  constructor
  · exact fun hi => ⟨3,(congrFun (hrun 2) v).trans hi⟩
  · rintro ⟨n,hi⟩
    obtain _ | _ | _ | n := n
    · cases hi
    · cases hi
    · cases hi
    · exact (congrFun (hrun (n+2)) v).symm.trans hi

/-- Behind a loop without end the direct semantics has a value of `x` to print. With continuations
there is no result. -/
theorem not_results_toCps_afterLoop : ∃ m m', (∀ v, m v ≠ none) ∧ Direct.Makes afterLoop m m' ∧
    ik m' = some "5" ∧ ∀ r, ¬ Results afterLoop.toCps ik kbreak m r := by
  refine ⟨emptyMem,_,fun _ => Option.some_ne_none _,makes_afterLoop emptyMem,by decide +kernel,?_⟩
  intro r hr
  obtain ⟨o,ho,-⟩ := Cps.results_iff.mp hr
  obtain ⟨m',-,hmakes,hkept⟩ := makes_of_ends ho
  have hy := congrFun (hmakes.unique (makes_afterLoop emptyMem)) "y"
  rw [hkept "y" (by decide)] at hy
  exact Option.some_ne_none _ hy

end Agreement
end PucRio.Semantics
