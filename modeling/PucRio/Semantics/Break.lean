import PucRio.Semantics.Cps

/-! What `break` should do: leave the innermost loop. The body of a loop runs with the break
continuation from outside of the loop, so that a `break` leaves all loops; where this makes no
difference. -/
namespace PucRio.Semantics.Cps
variable {V : Type} [Number V]

/-- A `break` leaves the innermost loop: the next command is the one behind it. -/
abbrev Leaves : Cmd V → Mem V → Outcome V → Prop := Ends (some ∘ .normal)

/-- No `break` is executed in a loop. -/
abbrev Quiet : Cmd V → Mem V → Outcome V → Prop := Ends fun _ => none

/-- The first `break` that is executed in a loop, and the memory at it. -/
inductive FirstBreak : Cmd V → Mem V → Mem V → Prop
  | head {c : Cmd V} {cs : List (Cmd V)} {m m' : Mem V} (h : FirstBreak c m m') :
    FirstBreak (.cmdComp (c::cs)) m m'
  | tail {c : Cmd V} {cs : List (Cmd V)} {m m₁ m' : Mem V} (hc : Quiet c m (.normal m₁))
    (h : FirstBreak (.cmdComp cs) m₁ m') : FirstBreak (.cmdComp (c::cs)) m m'
  | once {rc : Cmd V} {m m' : Mem V} (h : FirstBreak rc m m') :
    FirstBreak (.cmdRepeatUntil rc 1) m m'
  | again {rc : Cmd V} {u : ℤ} {m m' : Mem V} (h0 : u ≠ 0) (h1 : u ≠ 1)
    (h : FirstBreak (.cmdComp [rc,.cmdRepeatUntil rc (u-1)]) m m') :
    FirstBreak (.cmdRepeatUntil rc u) m m'
  | branch {e : Exp V} {i : V} {ct ce : Cmd V} {m m' : Mem V} (he : evalExp e m = some i)
    (h : FirstBreak (if isTrue i then ct else ce) m m') : FirstBreak (.cmdIf e ct ce) m m'
  | here {e : Exp V} {i : V} {c : Cmd V} {m m' : Mem V} (he : evalExp e m = some i)
    (hi : isTrue i = true) (hc : Quiet c m (.broken m')) : FirstBreak (.cmdWhile e c) m m'
  | inner {e : Exp V} {i : V} {c : Cmd V} {m m' : Mem V} (he : evalExp e m = some i)
    (hi : isTrue i = true) (h : FirstBreak c m m') : FirstBreak (.cmdWhile e c) m m'
  | later {e : Exp V} {i : V} {c : Cmd V} {m m₁ m' : Mem V} (he : evalExp e m = some i)
    (hi : isTrue i = true) (hc : Quiet c m (.normal m₁)) (h : FirstBreak (.cmdWhile e c) m₁ m') :
    FirstBreak (.cmdWhile e c) m m'

/-- Whatever follows the command, a `break` leaves the innermost loop. -/
def LeavesInnermost (c : Cmd V) (m : Mem V) : Prop :=
  ∀ (R : Type) (k kBreak : K V R) (r : R),
    Results c k kBreak m r ↔ ∃ o, Leaves c m o ∧ o.elim k kBreak = some r

section Main
variable {left : K V (Outcome V)} {c : Cmd V} {m m' : Mem V} {o : Outcome V}

/-- Where no `break` is executed in a loop it makes no difference what that does. -/
theorem Quiet.ends (h : Quiet c m o) : Ends left c m o :=
  Exists.imp (fun n => exec_keptBy (fun _ => KeptBy.none _) n 0 c m o) h

/-- A command that ends has executed no `break` in a loop, or there is a first one. -/
theorem quiet_or_firstBreak (h : Ends left c m o) : Quiet c m o ∨ ∃ m', FirstBreak c m m' := by
  obtain ⟨n,hn⟩ := h.exists_exec
  clear h
  induction n generalizing c m o with
  | zero => cases hn
  | succ n ih =>
    cases c with
    | cmdSkip => exact .inl ⟨1,hn⟩
    | cmdBreak => exact .inl ⟨1,hn⟩
    | cmdAss v e => exact .inl ⟨1,hn⟩
    | cmdComp cs =>
      cases cs with
      | nil => exact .inl ⟨1,hn⟩
      | cons c cs =>
        rw [exec_comp_cons] at hn
        obtain ⟨o₁,hc,hrest⟩ := Option.bind_eq_some_iff.mp hn
        obtain hquiet | ⟨m',hfirst⟩ := ih hc
        · cases o₁ with
          | normal m₁ =>
            obtain hrest | ⟨m',hfirst⟩ := ih hrest
            · exact .inl (hquiet.seq hrest)
            · exact .inr ⟨m',.tail hquiet hfirst⟩
          | broken m₁ =>
            obtain rfl := Option.some.inj hrest
            exact .inl hquiet.seq_broken
        · exact .inr ⟨m',.head hfirst⟩
    | cmdRepeatUntil rc u =>
      rw [exec_repeatUntil] at hn
      split_ifs at hn with h0 h1
      · refine .inl (.intro (n := 1) ?_)
        rw [exec_repeatUntil,if_pos h0]
        exact hn
      · subst h1
        obtain hquiet | ⟨m',hfirst⟩ := ih hn
        · exact .inl hquiet.once
        · exact .inr ⟨m',.once hfirst⟩
      · obtain hquiet | ⟨m',hfirst⟩ := ih hn
        · exact .inl (hquiet.again h0 h1)
        · exact .inr ⟨m',.again h0 h1 hfirst⟩
    | cmdIf e ct ce =>
      rw [exec_if] at hn
      obtain ⟨i,he,hrun⟩ := Option.bind_eq_some_iff.mp hn
      rw [← apply_ite (exec left n · m)] at hrun
      obtain hquiet | ⟨m',hfirst⟩ := ih hrun
      · exact .inl (.branch he hquiet)
      · exact .inr ⟨m',.branch he hfirst⟩
    | cmdWhile e c =>
      rw [exec_while] at hn
      obtain ⟨i,he,hrun⟩ := Option.bind_eq_some_iff.mp hn
      split_ifs at hrun with hi
      · obtain ⟨o₁,hc,hrest⟩ := Option.bind_eq_some_iff.mp hrun
        obtain hquiet | ⟨m',hfirst⟩ := ih hc
        · cases o₁ with
          | normal m₁ =>
            obtain hrest | ⟨m',hfirst⟩ := ih hrest
            · exact .inl (.loop he hi hquiet hrest)
            · exact .inr ⟨m',.later he hi hquiet hfirst⟩
          | broken m₁ => exact .inr ⟨m₁,.here he hi hquiet⟩
        · exact .inr ⟨m',.inner he hi hfirst⟩
      · obtain rfl := Option.some.inj hrun
        exact .inl (.loop_end he ((Bool.not_eq_true _).mp hi))

/-- Where a `break` leaves all loops the first one that is executed in a loop ends the command. -/
theorem FirstBreak.leavesAll (h : FirstBreak c m m') : LeavesAll c m (.broken m') := by
  induction h with
  | head _ ih => exact ih.seq_broken
  | tail hc _ ih => exact (Quiet.ends hc).seq ih
  | once _ ih => exact ih.once
  | again h0 h1 _ ih => exact ih.again h0 h1
  | branch he _ ih => exact .branch he ih
  | here he hi hc => exact .loop_broken he hi (Quiet.ends hc) rfl
  | inner he hi _ ih => exact .loop_broken he hi ih rfl
  | later he hi hc _ ih => exact .loop he hi (Quiet.ends hc) ih

/-- That `break` leaves the innermost loop makes no difference. -/
theorem leavesInnermost_iff_forall :
    LeavesInnermost c m ↔ ∀ o, LeavesAll c m o ↔ Leaves c m o := by
  constructor
  · intro h o
    have hiff := h (Outcome V) (some ∘ .normal) (some ∘ .broken) o
    have helim (o' : Outcome V) : o'.elim (some ∘ .normal) (some ∘ .broken) = some o' := by
      cases o' <;> rfl
    simp only [results_iff,helim,Option.some_inj,exists_eq_right] at hiff
    exact hiff
  · intro h R k kBreak r
    rw [results_iff]
    exact exists_congr fun o => and_congr_left fun _ => h o

/-- A `break` leaves just the innermost loop exactly where none is executed in a loop, or where
after the first one the command would be broken off in the same memory anyway. -/
theorem leavesInnermost_iff :
    LeavesInnermost c m ↔ ∀ m', FirstBreak c m m' → Leaves c m (.broken m') := by
  rw [leavesInnermost_iff_forall]
  constructor
  · intro h m' hfirst
    exact (h _).mp hfirst.leavesAll
  · intro h o
    constructor
    · intro hall
      obtain hquiet | ⟨m',hfirst⟩ := quiet_or_firstBreak hall
      · exact Quiet.ends hquiet
      · rw [hall.unique hfirst.leavesAll]
        exact h m' hfirst
    · intro hleaves
      obtain hquiet | ⟨m',hfirst⟩ := quiet_or_firstBreak hleaves
      · exact Quiet.ends hquiet
      · rw [hleaves.unique (h m' hfirst)]
        exact hfirst.leavesAll

/-- `while 1 do break`: what follows the loop is skipped. -/
theorem not_leavesInnermost_while :
    Results (V := Value) (.cmdWhile (.expK 1) .cmdBreak) ik kbreak emptyMem "break".quote ∧
      ¬ LeavesInnermost (V := Value) (.cmdWhile (.expK 1) .cmdBreak) emptyMem := by
  refine ⟨⟨2,rfl⟩,fun h => ?_⟩
  obtain ⟨o,⟨n,hn⟩,ho⟩ := (h ℕ (fun _ => some 0) (fun _ => some 1) 1).mp ⟨2,rfl⟩
  replace hn : exec (V := Value) (some ∘ .normal) n (.cmdWhile (.expK 1) .cmdBreak) emptyMem =
    some o := hn
  obtain _ | _ | n := n
  · cases hn
  · cases hn
  · obtain rfl : .normal emptyMem = o := Option.some.inj hn
    cases ho

end Main

end PucRio.Semantics.Cps
