import PucRio.Monga.ShortCircuit

/-! The blocks of a loop run its body as often as the loop does. -/
namespace PucRio.Monga
open LabelledCode

section Source
variable {σ : Type}

/-- A loop that evaluates its condition in `t` when its body has run `n` times. Evaluating it leaves
behind a state. -/
inductive SourceLoop (holds : σ → Prop) (after : ℕ → σ → σ) (body : σ → σ → Prop) (s : σ) :
    ℕ → σ → Prop
  | start : SourceLoop holds after body s 0 s
  | again {n : ℕ} {t u : σ} : SourceLoop holds after body s n t → holds t → body (after n t) u →
      SourceLoop holds after body s (n+1) u

end Source

section Code
variable {M : Type} {V : Machine M} {c c₁ body c₂ : List Item} {w b l pc : ℕ} {x : Item}
  {s t u : MachineState M}

/-- Control runs through code that stands alone. -/
def Machine.RunsThrough (V : Machine M) (body : List Item) (s t : MachineState M) : Prop :=
  Reaches (V.code.step body) (.inside 0,s) (.inside body.length,t)

/-- The blocks of a loop. -/
def loopCode (c₁ body c₂ : List Item) (w b : ℕ) : List Item :=
  c₁++.br w::.label w::(body++(c₂++[.br b,.label b]))

theorem loopCode_middle : loopCode c₁ body c₂ w b =
    c₁++[.br w,.label w]++body++(c₂++[.br b,.label b]) := by
  simp [loopCode]

theorem loopCode_last : loopCode c₁ body c₂ w b =
    c₁++[.br w,.label w]++body++c₂++[.br b,.label b] := by
  simp [loopCode]

theorem length_loopCode : (loopCode c₁ body c₂ w b).length =
    c₁.length+2+body.length+c₂.length+2 := by
  simp only [loopCode,List.length_append,List.length_cons,List.length_nil]
  omega

theorem getElem?_enter : (loopCode c₁ body c₂ w b)[c₁.length+1]? = some (.label w) := by
  simp [loopCode]

theorem getElem?_leave :
    (loopCode c₁ body c₂ w b)[c₁.length+2+body.length+c₂.length+1]? = some (.label b) := by
  have hlen : (c₁++[Item.br w,Item.label w]++body++c₂++[Item.br b]).length =
      c₁.length+2+body.length+c₂.length+1 := by
    simp only [List.length_append,List.length_cons,List.length_nil]
  rw [loopCode_last,← hlen]
  have hsplit : c₁++[Item.br w,Item.label w]++body++c₂++[Item.br b,Item.label b] =
      (c₁++[Item.br w,Item.label w]++body++c₂++[Item.br b])++[Item.label b] := by
    simp
  rw [hsplit,List.getElem?_append_right (Nat.le_refl _),Nat.sub_self]
  rfl

theorem notMem_before {pre post : List Item}
    (h : (labelsOf (pre++.label l::post)).Nodup) : l ∉ labelsOf pre := by
  rw [labelsOf_append] at h
  intro hmem
  exact (List.nodup_append.mp h).2.2 l hmem l List.mem_cons_self rfl

theorem goto_enter (h : (labelsOf (loopCode c₁ body c₂ w b)).Nodup) :
    V.code.goto (loopCode c₁ body c₂ w b) w = .inside (c₁.length+1) := by
  have hsplit : loopCode c₁ body c₂ w b =
      (c₁++[.br w])++.label w::(body++(c₂++[.br b,.label b])) := by simp [loopCode]
  rw [hsplit] at h ⊢
  rw [goto_append (I := V.code) (notMem_before h) rfl,List.length_append,List.length_singleton]

theorem goto_leave (h : (labelsOf (loopCode c₁ body c₂ w b)).Nodup) :
    V.code.goto (loopCode c₁ body c₂ w b) b =
      .inside (c₁.length+2+body.length+c₂.length+1) := by
  have hsplit : loopCode c₁ body c₂ w b =
      (c₁++[.br w,.label w]++body++c₂++[.br b])++.label b::[] := by simp [loopCode]
  rw [hsplit] at h ⊢
  rw [goto_append (I := V.code) (notMem_before h) rfl]
  simp only [List.length_append,List.length_cons,List.length_nil]

/-- An instruction sends control to one of its targets. -/
theorem exec_target (h : V.exec x s = some (some l,t)) : l ∈ x.targets := by
  unfold Machine.exec at h
  split at h
  · cases h
  · cases h
    exact List.mem_cons_self
  · cases h
    split_ifs
    · exact List.mem_cons_of_mem _ List.mem_cons_self
    · exact List.mem_cons_self
  · cases h
  all_goals simp at h

/-- Alone, code whose jumps go to its own labels is left at its end only. -/
theorem step_ne_gone (hc : ∀ x ∈ c, ∀ l ∈ x.targets, l ∈ labelsOf c) :
    V.code.step c (.inside pc,s) ≠ some (.gone l,t) := by
  intro h
  obtain ⟨x,hx,h⟩ := Option.bind_eq_some_iff.mp h
  obtain ⟨⟨j,u⟩,he,h⟩ := Option.map_eq_some_iff.mp h
  cases j with
  | none => cases h
  | some l' =>
    obtain ⟨hgoto,-⟩ := Prod.mk.inj h
    obtain ⟨k,-,hk⟩ := goto_of_mem (I := V.code)
      (hc x (List.mem_of_getElem? hx) l' (exec_target he))
    cases hk.symm.trans hgoto

end Code

section Loop
variable {M : Type} {V : Machine M} {c₁ body c₂ : List Item} {w b : ℕ}
  {holds : MachineState M → Bool} {after : ℕ → MachineState M → MachineState M}
  {s t : MachineState M} {n m : ℕ}

/-- The conditions of a loop are evaluated, and its body keeps to itself. -/
structure Loop (V : Machine M) (c₁ body c₂ : List Item) (w b : ℕ)
    (holds : MachineState M → Bool) (after : ℕ → MachineState M → MachineState M) : Prop where
  nodup : (labelsOf (loopCode c₁ body c₂ w b)).Nodup
  closed : ∀ x ∈ body, ∀ l ∈ x.targets, l ∈ labelsOf body
  first : ∀ s, Reaches (V.code.step c₁) (.inside 0,s)
    (.gone (if holds s then w else b),after 0 s)
  next : ∀ n s, Reaches (V.code.step c₂) (.inside 0,s)
    (.gone (if holds s then w else b),after (n+1) s)

/-- The body starts when the label in front of it is passed. -/
def starts (pc : ℕ) (x : Control ℕ × MachineState M) : Bool := x.1 = .inside pc

theorem starts_eq_false {k pc : ℕ} (h : k ≠ pc) : starts pc (.inside k,s) = false :=
  decide_eq_false fun heq => h (Control.inside.inj heq)

/-- Where the condition starts that is evaluated after `n` runs of the body. -/
def testAt (c₁ body : List Item) : ℕ → ℕ
  | 0 => 0
  | _+1 => c₁.length+2+body.length

/-- Control goes to the body or out of the loop. -/
theorem Loop.test_run (h : Loop V c₁ body c₂ w b holds after) (n m : ℕ) (t : MachineState M) :
    Reaches (counting (V.code.step (loopCode c₁ body c₂ w b)) (starts (c₁.length+1)))
      ((.inside (testAt c₁ body n),t),m)
      ((.inside (if holds t then c₁.length+1 else c₁.length+2+body.length+c₂.length+1),
        after n t),m) := by
  have hgoto : V.code.goto (loopCode c₁ body c₂ w b) (if holds t then w else b) =
      .inside (if holds t then c₁.length+1 else c₁.length+2+body.length+c₂.length+1) := by
    split_ifs
    · exact goto_enter h.nodup
    · exact goto_leave h.nodup
  rw [← hgoto]
  cases n with
  | zero =>
    have hr := reaches_within (I := V.code) (b := c₁) (p := starts (c₁.length+1)) [] h.nodup
      (fun k hk s => starts_eq_false (by simp; omega)) (h.first t) m
    exact hr
  | succ n =>
    have hnodup := h.nodup
    rw [loopCode_last] at hnodup ⊢
    have hr := reaches_within (I := V.code) (p := starts (c₁.length+1)) _ hnodup
      (fun k hk s => starts_eq_false (by simp; omega)) (h.next n t) m
    have hlen : (c₁++[Item.br w,Item.label w]++body).length = c₁.length+2+body.length := by
      simp
      omega
    rw [hlen] at hr
    exact hr

theorem Loop.body_run (h : Loop V c₁ body c₂ w b holds after) (hb : V.RunsThrough body s t)
    (n m : ℕ) : Reaches (counting (V.code.step (loopCode c₁ body c₂ w b)) (starts (c₁.length+1)))
      ((.inside (c₁.length+1),s),m) ((.inside (testAt c₁ body (n+1)),t),m+1) := by
  have hstep : V.code.step (loopCode c₁ body c₂ w b) (.inside (c₁.length+1),s) =
      some (.inside (c₁.length+2),s) := step_fall getElem?_enter rfl
  have hcount := counting_of_step (p := starts (c₁.length+1)) hstep m
  have hstarts : starts (c₁.length+1) (.inside (c₁.length+1),s) = true := decide_eq_true rfl
  rw [if_pos hstarts] at hcount
  apply Reaches.head hcount
  have hnodup := h.nodup
  rw [loopCode_middle] at hnodup ⊢
  have hr := reaches_within (I := V.code) (p := starts (c₁.length+1)) _ hnodup
    (fun k hk s => starts_eq_false (by simp; omega)) hb (m+1)
  have hlen : (c₁++[Item.br w,Item.label w]).length = c₁.length+2 := by simp
  rw [hlen] at hr
  exact hr

/-- The code follows the loop. -/
theorem Loop.follows (h : Loop V c₁ body c₂ w b holds after)
    (hl : SourceLoop (fun t => holds t = true) after (V.RunsThrough body) s n t) :
    Reaches (counting (V.code.step (loopCode c₁ body c₂ w b)) (starts (c₁.length+1))) ((.inside 0,s),0)
      ((.inside (testAt c₁ body n),t),n) := by
  induction hl with
  | start => exact .refl ..
  | @again n t u _ ht hb ih =>
    have htest := h.test_run n n t
    rw [if_pos ht] at htest
    exact (ih.trans htest).trans (h.body_run hb n n)

/-- Where control is in a loop, and what has happened up to there. -/
inductive Passes (V : Machine M) (c₁ body c₂ : List Item) (holds : MachineState M → Bool)
    (after : ℕ → MachineState M → MachineState M) (s : MachineState M) :
    Control ℕ → MachineState M → ℕ → Prop
  | first {k : ℕ} {t : MachineState M} : k < c₁.length →
      Reaches (V.code.step c₁) (.inside 0,s) (.inside k,t) →
      Passes V c₁ body c₂ holds after s (.inside k) t 0
  | enter {n : ℕ} {r : MachineState M} :
      SourceLoop (fun t => holds t = true) after (V.RunsThrough body) s n r → holds r = true →
      Passes V c₁ body c₂ holds after s (.inside (c₁.length+1)) (after n r) n
  | body {n k : ℕ} {r t : MachineState M} : k < body.length →
      SourceLoop (fun t => holds t = true) after (V.RunsThrough body) s n r → holds r = true →
      Reaches (V.code.step body) (.inside 0,after n r) (.inside k,t) →
      Passes V c₁ body c₂ holds after s (.inside (c₁.length+2+k)) t (n+1)
  | next {n k : ℕ} {r t : MachineState M} : k < c₂.length →
      SourceLoop (fun t => holds t = true) after (V.RunsThrough body) s (n+1) r →
      Reaches (V.code.step c₂) (.inside 0,r) (.inside k,t) →
      Passes V c₁ body c₂ holds after s (.inside (c₁.length+2+body.length+k)) t (n+1)
  | leave {n j : ℕ} {r : MachineState M} : j < 2 →
      SourceLoop (fun t => holds t = true) after (V.RunsThrough body) s n r → holds r = false →
      Passes V c₁ body c₂ holds after s
        (.inside (c₁.length+2+body.length+c₂.length+1+j)) (after n r) n

/-- Code that is left for a label is left nowhere else. -/
theorem step_before_gone {c : List Item} {l k : ℕ} {r r' u : MachineState M} {z : Control ℕ}
    (hgone : Reaches (V.code.step c) (.inside 0,r) (.gone l,r'))
    (hr : Reaches (V.code.step c) (.inside 0,r) (.inside k,t))
    (hz : V.code.step c (.inside k,t) = some (z,u)) :
    (∃ k' < c.length, z = .inside k' ∧
      Reaches (V.code.step c) (.inside 0,r) (.inside k',u)) ∨ z = .gone l ∧ u = r' := by
  have hu := hr.trans (.single hz)
  cases z with
  | inside k' =>
    obtain hlt | rfl := (step_inside_le hz).lt_or_eq
    · exact .inl ⟨k',hlt,rfl,hu⟩
    · cases hgone.stop_unique rfl hu step_end
  | gone l' =>
    cases hgone.stop_unique rfl hu rfl
    exact .inr ⟨rfl,rfl⟩

theorem length_pos_of_gone {c : List Item} {l : ℕ}
    (h : Reaches (V.code.step c) (.inside 0,s) (.gone l,t)) : 0 < c.length := by
  cases c with
  | nil => cases h.stop_unique rfl (.refl ..) (step_end (a := []))
  | cons x c => exact Nat.succ_pos _

theorem counting_cases {σ : Type} {step : σ → Option σ} {p : σ → Bool} {x y : σ}
    (h : counting step p (x,n) = some (y,m)) :
    step x = some y ∧ m = if p x then n+1 else n := by
  obtain ⟨z,hz,heq⟩ := Option.map_eq_some_iff.mp h
  cases heq
  exact ⟨hz,rfl⟩

/-- Control in the body, or at its end. -/
theorem Loop.arrive (h : Loop V c₁ body c₂ w b holds after) {k : ℕ} {r : MachineState M}
    (hk : k ≤ body.length)
    (hl : SourceLoop (fun t => holds t = true) after (V.RunsThrough body) s n r)
    (hr : holds r = true)
    (hrun : Reaches (V.code.step body) (.inside 0,after n r) (.inside k,t)) :
    Passes V c₁ body c₂ holds after s (.inside (c₁.length+2+k)) t (n+1) := by
  obtain hk | rfl := hk.lt_or_eq
  · exact .body hk hl hr hrun
  · exact .next (length_pos_of_gone (h.next 0 s)) (.again hl hr hrun) (.refl ..)

/-- Control leaves a condition. -/
theorem Loop.decide (h : Loop V c₁ body c₂ w b holds after) {r : MachineState M}
    (hl : SourceLoop (fun t => holds t = true) after (V.RunsThrough body) s n r) :
    Passes V c₁ body c₂ holds after s
      (V.code.goto (loopCode c₁ body c₂ w b) (if holds r then w else b)) (after n r) n := by
  cases hr : holds r with
  | true =>
    rw [if_pos rfl,goto_enter h.nodup]
    exact .enter hl hr
  | false =>
    rw [if_neg Bool.false_ne_true,goto_leave h.nodup]
    exact .leave (j := 0) (Nat.succ_pos 1) hl hr

theorem Loop.passes_step (h : Loop V c₁ body c₂ w b holds after) {x y : Control ℕ}
    {u : MachineState M} (hx : Passes V c₁ body c₂ holds after s x t n)
    (hcount : counting (V.code.step (loopCode c₁ body c₂ w b)) (starts (c₁.length+1)) ((x,t),n) =
      some ((y,u),m)) : Passes V c₁ body c₂ holds after s y u m := by
  obtain ⟨hs,rfl⟩ := counting_cases hcount
  have hnodup := h.nodup
  cases hx with
  | @first k _ hk hrun =>
    rw [starts_eq_false (by omega),if_neg Bool.false_ne_true]
    rw [← Nat.zero_add k] at hs
    obtain ⟨z,hz,rfl⟩ := exists_step_within (I := V.code) [] h.nodup hk hs
    obtain ⟨k',hk',rfl,hrun'⟩ | ⟨rfl,rfl⟩ := step_before_gone (h.first s) hrun hz
    · rw [shift,List.length_nil,Nat.zero_add]
      exact .first hk' hrun'
    · exact h.decide .start
  | @enter _ r hl hr =>
    have hstarts : starts (c₁.length+1) (.inside (c₁.length+1),after n r) = true := decide_eq_true rfl
    rw [if_pos hstarts]
    rw [step_fall (I := V.code) getElem?_enter rfl] at hs
    cases hs
    exact h.arrive (k := 0) (Nat.zero_le _) hl hr (.refl ..)
  | @body n k r _ hk hl hr hrun =>
    rw [starts_eq_false (by omega),if_neg Bool.false_ne_true]
    have hlen : (c₁++[Item.br w,Item.label w]).length = c₁.length+2 := by simp
    rw [loopCode_middle] at hnodup hs
    rw [← hlen] at hs
    obtain ⟨z,hz,rfl⟩ := exists_step_within (I := V.code) _ hnodup hk hs
    cases z with
    | gone l => exact absurd hz (step_ne_gone h.closed)
    | inside k' =>
      rw [shift,hlen]
      exact h.arrive (step_inside_le hz) hl hr (hrun.trans (.single hz))
  | @next n k r _ hk hl hrun =>
    rw [starts_eq_false (by omega),if_neg Bool.false_ne_true]
    have hlen : (c₁++[Item.br w,Item.label w]++body).length = c₁.length+2+body.length := by
      simp
      omega
    rw [loopCode_last] at hnodup hs
    rw [← hlen] at hs
    obtain ⟨z,hz,rfl⟩ := exists_step_within (I := V.code) _ hnodup hk hs
    obtain ⟨k',hk',rfl,hrun'⟩ | ⟨rfl,rfl⟩ := step_before_gone (h.next n r) hrun hz
    · rw [shift,hlen]
      exact .next hk' hl hrun'
    · rw [shift,← loopCode_last]
      exact h.decide hl
  | @leave _ j r hj hl hr =>
    rw [starts_eq_false (by omega),if_neg Bool.false_ne_true]
    obtain rfl | rfl : j = 0 ∨ j = 1 := by omega
    · rw [Nat.add_zero,step_fall (I := V.code) getElem?_leave rfl] at hs
      cases hs
      exact .leave (j := 1) (Nat.lt_succ_self 1) hl hr
    · rw [show c₁.length+2+body.length+c₂.length+1+1 = (loopCode c₁ body c₂ w b).length from
        length_loopCode.symm,step_end] at hs
      cases hs

theorem Loop.passes (h : Loop V c₁ body c₂ w b holds after) {x : Control ℕ}
    (hr : Reaches (counting (V.code.step (loopCode c₁ body c₂ w b)) (starts (c₁.length+1)))
      ((.inside 0,s),0) ((x,t),n)) : Passes V c₁ body c₂ holds after s x t n := by
  apply hr.invariant (I := fun y => Passes V c₁ body c₂ holds after s y.1.1 y.1.2 y.2)
  · exact .first (length_pos_of_gone (h.first s)) (.refl ..)
  · rintro ⟨⟨x,t⟩,n⟩ ⟨⟨y,u⟩,m⟩ hx hs
    exact h.passes_step hx hs

/-- The body starts again when the loop starts it again. -/
theorem Loop.starts_iff (h : Loop V c₁ body c₂ w b holds after) (s t : MachineState M) (n : ℕ) :
    Reaches (counting (V.code.step (loopCode c₁ body c₂ w b)) (starts (c₁.length+1))) ((.inside 0,s),0)
      ((.inside (c₁.length+1),t),n) ↔
    ∃ r, SourceLoop (fun t => holds t = true) after (V.RunsThrough body) s n r ∧
      holds r = true ∧ t = after n r := by
  constructor
  · intro hrun
    have hp := h.passes hrun
    generalize hx : Control.inside (Λ := ℕ) (c₁.length+1) = x at hp
    cases hp with
    | enter hl hr => exact ⟨_,hl,hr,rfl⟩
    | first hk =>
      have := Control.inside.inj hx
      omega
    | body hk =>
      have := Control.inside.inj hx
      omega
    | next hk =>
      have := Control.inside.inj hx
      omega
    | leave hj =>
      have := Control.inside.inj hx
      omega
  · rintro ⟨r,hl,hr,rfl⟩
    have htest := h.test_run n n r
    rw [if_pos hr] at htest
    exact (h.follows hl).trans htest

/-- The code ends when the loop ends, after as many runs of the body. -/
theorem Loop.ends_iff (h : Loop V c₁ body c₂ w b holds after) (s t : MachineState M) (n : ℕ) :
    Reaches (counting (V.code.step (loopCode c₁ body c₂ w b)) (starts (c₁.length+1))) ((.inside 0,s),0)
      ((.inside (loopCode c₁ body c₂ w b).length,t),n) ↔
    ∃ r, SourceLoop (fun t => holds t = true) after (V.RunsThrough body) s n r ∧
      holds r = false ∧ t = after n r := by
  rw [length_loopCode]
  constructor
  · intro hrun
    have hp := h.passes hrun
    generalize hx : Control.inside (Λ := ℕ) (c₁.length+2+body.length+c₂.length+2) = x at hp
    cases hp with
    | leave hj hl hr => exact ⟨_,hl,hr,rfl⟩
    | first hk =>
      have := Control.inside.inj hx
      omega
    | body hk =>
      have := Control.inside.inj hx
      omega
    | next hk =>
      have := Control.inside.inj hx
      omega
    | enter =>
      have := Control.inside.inj hx
      omega
  · rintro ⟨r,hl,hr,rfl⟩
    have htest := h.test_run n n r
    rw [hr,if_neg Bool.false_ne_true] at htest
    refine (h.follows hl).trans (htest.trans (.single ?_))
    have hstep : V.code.step (loopCode c₁ body c₂ w b)
        (.inside (c₁.length+2+body.length+c₂.length+1),after n r) =
        some (.inside (c₁.length+2+body.length+c₂.length+2),after n r) :=
      step_fall getElem?_leave rfl
    have hcount := counting_of_step (p := starts (c₁.length+1)) hstep n
    rwa [starts_eq_false (by omega),if_neg Bool.false_ne_true] at hcount

end Loop

section Conditions
variable {M : Type} {V : Machine M} {e : TExp} {ρ ρ' : DecTag → Decl → BitVec 32}

theorem intValue_congr (he : IntOperand e) (h : ∀ x ∈ e.decls, ρ x.1 x.2 = ρ' x.1 x.2) :
    intValue ρ e = intValue ρ' e := by
  induction he with
  | int l => rfl
  | var tag decl _ => exact h (tag,decl) List.mem_cons_self
  | @bin tag e1 e2 htag _ _ ih1 ih2 =>
    have h1 := ih1 fun x hx => h x (List.mem_append_left _ hx)
    have h2 := ih2 fun x hx => h x (List.mem_append_right _ hx)
    obtain rfl | rfl | rfl := htag
    all_goals simp only [intValue,h1,h2]

/-- Only the variables of a condition count. -/
theorem evaluate_congr (he : IntCond e) (h : ∀ x ∈ e.decls, ρ x.1 x.2 = ρ' x.1 x.2) :
    evaluate ρ e = evaluate ρ' e := by
  induction he with
  | int l => rfl
  | comp htag he1 he2 =>
    rw [evaluate_comp htag,evaluate_comp htag,
      intValue_congr he1 fun x hx => h x (List.mem_append_left _ hx),
      intValue_congr he2 fun x hx => h x (List.mem_append_right _ hx)]
  | or type _ _ ih1 ih2 =>
    rw [evaluate_or,evaluate_or,ih1 fun x hx => h x (List.mem_append_left _ hx),
      ih2 fun x hx => h x (List.mem_append_right _ hx)]
  | and type _ _ ih1 ih2 =>
    rw [evaluate_and,evaluate_and,ih1 fun x hx => h x (List.mem_append_left _ hx),
      ih2 fun x hx => h x (List.mem_append_right _ hx)]
  | not type _ ih => rw [evaluate_not,evaluate_not,ih h]

/-- Where the records of its variables are the same, a condition has the same value. -/
theorem valuation_congr {slots slots' : Decl → Slot} (he : IntCond e)
    (h : ∀ x ∈ e.decls, slots' x.2 = slots x.2) (mem : M) :
    evaluate (V.valuation slots' mem) e = evaluate (V.valuation slots mem) e := by
  apply evaluate_congr he
  rintro ⟨tag,decl⟩ hx
  cases tag <;> simp only [Machine.valuation,h _ hx]

theorem Kept.of_le {n m : ℕ} {s s' : MachineState M} (h : Kept m s s') (hn : n ≤ m) :
    Kept n s s' :=
  ⟨h.1,fun t ht => h.2 t (ht.trans hn)⟩

/-- The value of a condition is not 0. -/
def Machine.nonzero (V : Machine M) (g : GenState) (e : TExp) (s : MachineState M) : Bool :=
  (evaluate (V.valuation g.slots s.mem) e).1 != 0

/-- What evaluating a condition does: it makes comparisons, and changes new temporaries only. -/
def Machine.Evaluates (V : Machine M) (g : GenState) (e : TExp) (s s' : MachineState M) : Prop :=
  Kept g.curTempVar s s' ∧ s'.trace = s.trace++(evaluate (V.valuation g.slots s.mem) e).2

theorem chosen_eq_ite (v : BitVec 32) (lt lf : ℕ) :
    chosen v lt lf = if (v != 0) = true then lt else lf := by
  unfold chosen
  by_cases hv : v = 0
  · simp [hv]
  · simp

/-- The code of a loop, with what its conditions leave behind. -/
theorem exists_loop (he : IntCond e) {cmd : TCmd} (hd : ∀ x ∈ e.decls, x.2 ∉ cmd.declared)
    {g g' : GenState} (hN : Numbered V g e.decls) {u : Unit} {c : List Item}
    (h : genCmd (.whileDo e cmd) g = .ok (u,c,g')) : ∃ c₁ body c₂ w b after,
      c = loopCode c₁ body c₂ w b ∧ (∃ g₁ g₂, genCmd cmd g₁ = .ok ((),body,g₂)) ∧
      (∀ n s, V.Evaluates g e s (after n s)) ∧
      Loop V c₁ body c₂ w b (V.nonzero g e) after := by
  obtain ⟨n,c₁,g₁,body,g₂,c₂,rfl,h₁,h₂,h₃,rfl⟩ := genCmd_while_ok h
  have hdeclared : ∀ d ∈ cmd.declared, d ∈ {d | d ∈ cmd.declared} := fun _ hd => hd
  have hbody := orderly_genCmd cmd hdeclared ∅ _ _ _ _ h₂
  have hcond₁ := (orderly_gens (D := ∅) e).cond Set.univ _ _ trivial trivial _ _ _ _ h₁
  have hlabel : g.curTempLabel+2 ≤ g₁.curTempLabel := hcond₁.fresh.le
  have hslots : ∀ x ∈ e.decls, g₂.slots x.2 = g.slots x.2 :=
    fun x hx => (hbody.slots x.2 (hd x hx)).trans (hcond₁.slots x.2 (Set.notMem_empty _))
  have hle : g.curTempVar ≤ g₂.curTempVar := hcond₁.temp_le.trans hbody.temp_le
  obtain ⟨c,g₃,hC₁⟩ := cond_code he (g.curTempLabel+1) (g.curTempLabel+2)
    { g with curTempLabel := g.curTempLabel+2 } (hN.of_le (Nat.le_refl _) fun x hx => ⟨hx,rfl⟩)
  cases hC₁.gen.symm.trans h₁
  obtain ⟨c,g₄,hC₂⟩ := cond_code he (g.curTempLabel+1) (g.curTempLabel+2) g₂
    (hN.of_le hle fun x hx => ⟨hx,hslots x hx⟩)
  cases hC₂.gen.symm.trans h₃
  choose after₁ hafter₁ using hC₁.runs (Nat.le_succ _) (Nat.le_refl _)
  choose after₂ hafter₂ using hC₂.runs ((Nat.le_succ _).trans (hlabel.trans hbody.fresh.le))
    (hlabel.trans hbody.fresh.le)
  have hv (s : MachineState M) : evaluate (V.valuation g₂.slots s.mem) e =
      evaluate (V.valuation g.slots s.mem) e := valuation_congr he hslots s.mem
  refine ⟨c₁,body,c₂,_,_,fun n => n.rec after₁ fun _ _ => after₂,rfl,⟨g₁,g₂,h₂⟩,?_,?_⟩
  · rintro (_ | n) s
    · exact (hafter₁ s).2
    · have hs := (hafter₂ s).2
      rw [hv] at hs
      exact ⟨hs.1.of_le hle,hs.2⟩
  · refine ⟨?_,?_,?_,?_⟩
    · exact (orderly_genCmd (.whileDo e cmd) hdeclared ∅ _ _ _ _ h).fresh.nodup
    · intro x hx l hl
      exact (hbody.fresh.targets x hx l hl).resolve_right (Set.notMem_empty l)
    · intro s
      have hs := (hafter₁ s).1
      rw [chosen_eq_ite] at hs
      exact hs
    · intro n s
      have hs := (hafter₂ s).1
      rw [chosen_eq_ite,hv] at hs
      exact hs

/-- Wherever the code of a condition stands, control goes through it to the one label where the value
is not 0, and to the other one where it is, after the comparisons that are made in C. -/
def Machine.Decides (V : Machine M) (g : GenState) (e : TExp) (c : List Item) (lt lf : ℕ) : Prop :=
  ∀ pre post, (labelsOf (pre++c++post)).Nodup → ∀ s, ∃ s',
    Reaches (V.code.step (pre++c++post)) (.inside pre.length,s)
      (V.code.goto (pre++c++post) (if V.nonzero g e s then lt else lf),s') ∧
    V.Evaluates g e s s'

/-- The body of a loop starts as often as in the source, in the same states, and the code ends when
the loop does. -/
def Machine.Follows (V : Machine M) (g : GenState) (e : TExp) (cmd : TCmd) (c : List Item) : Prop :=
  ∃ pre w body post after, c = pre++.label w::(body++post) ∧
    (∃ g₁ g₂, genCmd cmd g₁ = .ok ((),body,g₂)) ∧ (∀ n s, V.Evaluates g e s (after n s)) ∧
    ∀ s t n,
      (Reaches (counting (V.code.step c) (starts pre.length)) ((.inside 0,s),0)
        ((.inside pre.length,t),n) ↔
        ∃ r, SourceLoop (fun t => V.nonzero g e t = true) after (V.RunsThrough body) s n r ∧
          V.nonzero g e r = true ∧ t = after n r) ∧
      (Reaches (counting (V.code.step c) (starts pre.length)) ((.inside 0,s),0)
        ((.inside c.length,t),n) ↔
        ∃ r, SourceLoop (fun t => V.nonzero g e t = true) after (V.RunsThrough body) s n r ∧
          V.nonzero g e r = false ∧ t = after n r)

/-- The code of a condition goes where C goes, with the same comparisons on the way, and the code of
a `while` is a loop over such a condition. -/
theorem condition_and_loop (V : Machine M) {e : TExp} (he : IntCond e) (g : GenState)
    (hN : Numbered V g e.decls) :
    (∀ lt lf, lt ≤ g.curTempLabel → lf ≤ g.curTempLabel → ∃ c g',
      genCond e lt lf g = .ok ((),c,g') ∧ (labelsOf c).Nodup ∧ V.Decides g e c lt lf) ∧
    ∀ cmd c g', (∀ x ∈ e.decls, x.2 ∉ cmd.declared) →
      genCmd (.whileDo e cmd) g = .ok ((),c,g') → (labelsOf c).Nodup ∧ V.Follows g e cmd c := by
  constructor
  · intro lt lf hlt hlf
    obtain ⟨c,g',hC⟩ := cond_code he lt lf g hN
    refine ⟨c,g',hC.gen,(fresh_genCond hC.gen).nodup,?_⟩
    intro pre post hnodup s
    obtain ⟨s',hr,hs'⟩ := hC.runs hlt hlf s
    rw [chosen_eq_ite] at hr
    have hw := reaches_within (I := V.code) (p := fun _ => false) pre hnodup (fun _ _ _ => rfl) hr 0
    exact ⟨s',hw.of_counting,hs'⟩
  · intro cmd c g' hd h
    obtain ⟨c₁,body,c₂,w,b,after,rfl,hgen,hafter,hloop⟩ := exists_loop he hd hN h
    refine ⟨hloop.nodup,c₁++[.br w],w,body,c₂++[.br b,.label b],after,by simp [loopCode],hgen,
      hafter,?_⟩
    intro s t n
    rw [List.length_append,List.length_singleton]
    exact ⟨hloop.starts_iff s t n,hloop.ends_iff s t n⟩

/-! `while (x < 3 && !0) x = x+1`, on a machine whose memory is `x`. -/

def counter : Machine (BitVec 32) where
  args _ := none
  read x _ _ := x
  effect
    | .store _ _ t _ _,value,_ => some (value,value t)
    | _,_,_ => none

def counterVar : TVar := .id .VarDec ⟨⟨.VarInt,0⟩,"x",0⟩

def counterCond : TExp := .bin (some ⟨.VarInt,0⟩) .ExpAnd
  (.bin (some ⟨.VarInt,0⟩) .ExpLess (.var ⟨.VarInt,0⟩ counterVar) (.int 3))
  (.not (some ⟨.VarInt,0⟩) (.int 0))

def counterCmd : TCmd := .assign counterVar
  (.bin (some ⟨.VarInt,0⟩) .ExpAdd (.var ⟨.VarInt,0⟩ counterVar) (.int 1))

def counterStart : GenState := ⟨1,2,fun _ => ⟨1,false⟩⟩

theorem intCond_counterCond : IntCond counterCond :=
  .and _ (.comp (.inl rfl) (.var _ _ rfl) (.int 3)) (.not _ (.int 0))

theorem numbered_counterStart : Numbered counter counterStart counterCond.decls where
  temps _ _ := rfl
  params decl hd := by
    cases hd with
    | tail _ hd => cases hd

theorem condition_and_loop_counter : (∃ c g', genCond counterCond 1 2 counterStart = .ok ((),c,g') ∧
      (labelsOf c).Nodup ∧ counter.Decides counterStart counterCond c 1 2) ∧
    ∃ c g', genCmd (.whileDo counterCond counterCmd) counterStart = .ok ((),c,g') ∧
      (labelsOf c).Nodup ∧ counter.Follows counterStart counterCond counterCmd c :=
  ⟨(condition_and_loop counter intCond_counterCond counterStart numbered_counterStart).1 1 2
      (Nat.le_succ 1) (Nat.le_refl 2),
    _,_,rfl,
    (condition_and_loop counter intCond_counterCond counterStart numbered_counterStart).2 counterCmd
      _ _ (fun _ _ => List.not_mem_nil) rfl⟩

end Conditions
end PucRio.Monga
