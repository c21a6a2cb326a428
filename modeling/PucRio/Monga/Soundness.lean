import PucRio.Monga.WellTyped

/-! The type checker is sound for the proper programs, and for no others that it does not refuse. One
lemma for each of its functions says what it leaves and when it reads a `NULL` type. -/
namespace PucRio.Monga

/-- The check ends with a message, or with a result that is as it should be; it does not read a
`NULL` type where `p` holds. -/
def Settles {α : Type} (r : Except Stop α) (p : Prop) (Q : α → Prop) : Prop :=
  match r with
  | .ok a => Q a
  | .error (.diagnostic _) => True
  | .error .null => ¬p

section Settles
variable {α β : Type} {x : Except Stop α} {f : α → Except Stop β} {p q : Prop} {Q : α → Prop}
  {R : β → Prop}

theorem settles_stopWith {d : Diagnostic} : Settles (stopWith d : Except Stop α) p Q := trivial

theorem settles_pure {a : α} (h : Q a) : Settles (pure a) p Q := h

theorem Settles.bind (hx : Settles x p Q) (hq : q → p) (hf : ∀ a, Q a → Settles (f a) q R) :
    Settles (x >>= f) q R := by
  cases x with
  | ok a => exact hf a hx
  | error stop =>
    cases stop with
    | diagnostic d => exact trivial
    | null => exact mt hq hx

theorem Settles.mono {Q' : α → Prop} (h : Settles x p Q) (hq : q → p) (hQ : ∀ a, Q a → Q' a) :
    Settles x q Q' := by
  cases x with
  | ok a => exact hQ a h
  | error stop =>
    cases stop with
    | diagnostic d => exact trivial
    | null => exact mt hq h

/-- A type is read that is there where `p` holds. -/
theorem settles_deref {type : Option MType} (h : p → type ≠ none) :
    Settles (deref type) p fun τ => type = some τ := by
  cases type with
  | none => exact fun hp => h hp rfl
  | some τ => rfl

end Settles

section Expressions
variable {e e1 e2 : TExp}

theorem Carried.ne_none {type : Option MType} (h : Carried type) : type ≠ none := by
  obtain ⟨τ,rfl,-⟩ := h
  exact Option.some_ne_none τ

theorem settles_castIntToFloat {p : Prop} (h : p → e.type ≠ none) :
    Settles (castIntToFloat e) p fun c => c = .castIntToFloat e ∧
      ∃ τ, e.type = some τ ∧ τ.name = .VarInt ∧ τ.brackets ≤ 0 := by
  refine (settles_deref h).bind id fun τ hτ => ?_
  split_ifs with hbad
  · exact settles_stopWith
  · rw [not_or,not_not,not_lt] at hbad
    exact settles_pure ⟨rfl,τ,hτ,hbad⟩

/-- A cast is as well typed as what is cast. -/
theorem wellTyped_cast {τ : MType} (hτ : e.type = some τ) (hname : τ.name = .VarInt)
    (hbrackets : τ.brackets ≤ 0) : (TExp.castIntToFloat e).WellTyped ↔ e.WellTyped := by
  constructor
  · exact And.left
  · intro h
    obtain ⟨σ,hσ,hpos⟩ := h.carried
    obtain rfl := Option.some.inj (hτ.symm.trans hσ)
    have hzero : τ = ⟨.VarInt,0⟩ := by
      cases τ
      simp only [MType.mk.injEq]
      exact ⟨hname,by simp only at hbrackets hpos; omega⟩
    exact ⟨h,hτ.trans (congrArg some hzero)⟩

theorem eq_of_typeEquals {t1 t2 : MType} (hname : t1.name = t2.name)
    (h : typeEquals (some t1) (some t2) = true) : t1 = t2 := by
  cases t1
  cases t2
  simp only [typeEquals,Bool.and_eq_true,beq_iff_eq] at h
  simp only at hname h
  rw [hname,h.2]

/-- The comparison of two operands of the same name of type, one of which may be a cast. -/
theorem settles_compare {type : Option MType} {tag : BinExp} {τ σ : MType} {q1 q2 : Prop}
    (h1 : e1.WellTyped ↔ q1) (h2 : e2.WellTyped ↔ q2) (hτ : e1.type = some τ)
    (hσ : e2.type = some σ) (hname : τ.name = σ.name) (htype : type = some τ ∨ type = some σ) :
    Settles (if typeEquals e1.type e2.type = true then pure (TExp.bin type tag e1 e2)
      else stopWith .invalidArrayComparison) (q1 ∧ q2) fun te =>
        te.type = type ∧ (te.WellTyped ↔ q1 ∧ q2) := by
  split_ifs with h
  · rw [hτ,hσ] at h
    obtain rfl := eq_of_typeEquals hname h
    rw [or_self] at htype
    refine settles_pure ⟨rfl,fun hw => ⟨h1.mp hw.1,h2.mp hw.2.1⟩,fun hq => ?_⟩
    have hw1 := h1.mpr hq.1
    refine ⟨hw1,h2.mpr hq.2,?_,hτ.trans hσ.symm⟩
    rw [htype,← hτ]
    exact hw1.carried
  · exact settles_stopWith

theorem settles_checkBin (tag : BinExp) {q1 q2 : Prop} (h1 : e1.WellTyped ↔ q1)
    (h2 : e2.WellTyped ↔ q2) : Settles (checkBin tag e1 e2) (q1 ∧ q2) fun te =>
      te.type = (e1.type.bind fun t1 => e2.type.map (binType t1)) ∧
        (te.WellTyped ↔ q1 ∧ q2) := by
  have hne1 (hq : q1 ∧ q2) : e1.type ≠ none := (h1.mpr hq.1).carried.ne_none
  have hne2 (hq : q1 ∧ q2) : e2.type ≠ none := (h2.mpr hq.2).carried.ne_none
  unfold checkBin
  refine (settles_deref hne1).bind id fun t1 ht1 => ?_
  refine (settles_deref hne2).bind id fun t2 ht2 => ?_
  have htype : (e1.type.bind fun t1 => e2.type.map (binType t1)) = some (binType t1 t2) := by
    rw [ht1,ht2]
    rfl
  rw [htype]
  dsimp only
  split_ifs with hsame hfloat hint
  · have hbin : binType t1 t2 = t1 := if_neg fun h => by
      rw [h.1,h.2] at hsame
      cases hsame
    rw [hbin,← ht1]
    exact settles_compare h1 h2 ht1 ht2 hsame (.inl ht1)
  · have hbin : binType t1 t2 = t1 := if_neg fun h => by
      rw [h.1] at hfloat
      cases hfloat.1
    rw [hbin,← ht1]
    refine (settles_castIntToFloat hne2).bind id fun c hc => ?_
    obtain ⟨rfl,σ,hσ,hname,hbrackets⟩ := hc
    exact settles_compare h1 ((wellTyped_cast hσ hname hbrackets).trans h2) ht1 rfl hfloat.1
      (.inl ht1)
  · rw [show binType t1 t2 = t2 from if_pos hint,← ht2]
    refine (settles_castIntToFloat hne1).bind id fun c hc => ?_
    obtain ⟨rfl,σ,hσ,hname,hbrackets⟩ := hc
    exact settles_compare ((wellTyped_cast hσ hname hbrackets).trans h1) h2 rfl ht2 hint.2.symm
      (.inr ht2)
  · exact settles_stopWith

theorem typeEquals_self (τ : MType) : typeEquals (some τ) (some τ) = true := by
  simp [typeEquals]

theorem toType_of_isFloat {t : DeclType} (h : t.isFloat = true) : t.toType = ⟨.VarFloat,0⟩ := by
  simp only [DeclType.isFloat,Bool.and_eq_true,beq_iff_eq] at h
  simp only [DeclType.toType,h.1,h.2,Nat.cast_zero]

theorem brackets_of_isInt {τ : MType} (h : τ.isInt = true) : τ.name = .VarInt ∧ τ.brackets = 0 := by
  simpa only [MType.isInt,Bool.and_eq_true,beq_iff_eq] using h

/-- What is passed or assigned to a `float` may be cast. -/
theorem settles_castFor {p : Prop} (hne : p → e.type ≠ none) :
    Settles (castIntToFloat e) p fun c =>
      c.type = some ⟨.VarFloat,0⟩ ∧ (c.WellTyped ↔ e.WellTyped) := by
  refine (settles_castIntToFloat hne).mono id fun c hc => ?_
  obtain ⟨rfl,τ,hτ,hname,hbrackets⟩ := hc
  exact ⟨rfl,wellTyped_cast hτ hname hbrackets⟩

theorem settles_checkArgument (name : String) (param : Param) :
    Settles (checkArgument name param e) e.WellTyped fun e' =>
      typeEquals e'.type (some param.type.toType) = true ∧ (e'.WellTyped ↔ e.WellTyped) := by
  have hne (hw : e.WellTyped) : e.type ≠ none := hw.carried.ne_none
  unfold checkArgument
  split_ifs with heq
  · exact settles_pure ⟨heq,Iff.rfl⟩
  · refine (settles_deref hne).bind id fun τ hτ => ?_
    split_ifs with hcast
    · refine (settles_castFor hne).mono id fun c hc => ⟨?_,hc.2⟩
      rw [hc.1,toType_of_isFloat ((Bool.and_eq_true _ _).mp hcast).2]
      exact typeEquals_self _
    · exact settles_stopWith

theorem settles_checkSignature (id : String) : (exps : TExpList) → (params : List Param) →
    Settles (checkSignature id exps params) exps.WellTyped fun exps' =>
      Agree exps' params ∧ (exps'.WellTyped ↔ exps.WellTyped)
  | .nil,[] => settles_pure ⟨trivial,Iff.rfl⟩
  | .nil,_::_ => settles_stopWith
  | .cons _ _,[] => settles_stopWith
  | .cons exp next,param::params => by
    refine (settles_checkArgument id param).bind And.left fun exp' hexp => ?_
    refine (settles_checkSignature id next params).bind And.right fun next' hnext => ?_
    exact settles_pure ⟨⟨hexp.1,hnext.1⟩,and_congr hexp.2 hnext.2⟩

theorem settles_castAssigned (decl : Decl) {τ : MType} {p : Prop} (hne : p → e.type ≠ none) :
    Settles (castAssigned decl τ e) p fun e' => e'.WellTyped ↔ e.WellTyped := by
  unfold castAssigned
  split_ifs
  · exact (settles_castFor hne).mono id fun _ hc => hc.2
  · exact settles_pure Iff.rfl

theorem settles_checkAssigned {var : TVar} (hvar : var.WellTyped → var.type ≠ none) :
    Settles (checkAssigned var e) (var.WellTyped ∧ e.WellTyped) fun e' =>
      typeEquals var.type e'.type = true ∧ (e'.WellTyped ↔ e.WellTyped) := by
  have hne (hw : var.WellTyped ∧ e.WellTyped) : e.type ≠ none := hw.2.carried.ne_none
  cases var with
  | id tag decl =>
    refine (settles_deref hne).bind id fun τ hτ => ?_
    refine (settles_castAssigned decl hne).bind id fun e' he' => ?_
    split_ifs with heq
    · exact settles_pure ⟨heq,he'⟩
    · exact settles_stopWith
  | indexed e1 e2 =>
    have hne1 (hw : TVar.WellTyped (.indexed e1 e2) ∧ e.WellTyped) : e1.type ≠ none :=
      hw.1.1.carried.ne_none
    refine (settles_deref hne1).bind id fun t1 ht1 => ?_
    refine (settles_deref hne).bind id fun τ hτ => ?_
    split_ifs with heq
    · refine settles_pure ⟨?_,Iff.rfl⟩
      have hsame : (⟨t1.name,t1.brackets-1⟩ : MType) = τ := by
        cases τ
        rw [MType.mk.injEq]
        exact heq
      rw [hτ,TVar.type,ht1,Option.map_some,hsame]
      exact typeEquals_self _
    · exact settles_stopWith

theorem settles_checkCmdCall {t : SymbolTable} {name : String} {checked : Except Stop TExpList}
    {p : Prop} (h : Settles checked p fun exps => exps.WellTyped ↔ p) :
    Settles (checkCmdCall t name checked) p fun r =>
      find t name = some (.f r.1) ∧ Agree r.2 r.1.params ∧ (r.2.WellTyped ↔ p) := by
  unfold checkCmdCall
  split
  · exact settles_stopWith
  · rename_i func hfind
    refine h.bind id fun exps hexps => ?_
    refine ((settles_checkSignature name exps func.params).mono hexps.mpr fun _ hr => hr).bind id
      fun exps' hexps' => ?_
    exact settles_pure ⟨hfind,hexps'.1,hexps'.2.trans hexps⟩
  · exact settles_stopWith

theorem settles_checkVarId (t : SymbolTable) (name : String) :
    Settles (checkVarId t name) True fun r =>
      some r.2 = (Var.id name).typeIn t ∧ r.1.WellTyped ∧ Carried (some r.2) := by
  unfold checkVarId
  split
  · exact settles_stopWith
  · rename_i decl hfind
    refine settles_pure ⟨?_,trivial,carried_read _⟩
    rw [Var.typeIn,hfind]
  · rename_i decl hfind
    refine settles_pure ⟨?_,trivial,carried_read _⟩
    rw [Var.typeIn,hfind]
  · exact settles_stopWith

theorem eq_int_of_isInt {τ : MType} (h : τ.isInt = true) : τ = ⟨.VarInt,0⟩ := by
  obtain ⟨hname,hbrackets⟩ := brackets_of_isInt h
  cases τ
  rw [MType.mk.injEq]
  exact ⟨hname,hbrackets⟩

/-- Only arrays are indexed, and only by an `int`, as far as the types say. -/
theorem wellTyped_indexed {q1 q2 : Prop} (h1 : e1.WellTyped ↔ q1) (h2 : e2.WellTyped ↔ q2) :
    (TVar.indexed e1 e2).WellTyped ↔ (q1 ∧ q2) ∧
      e1.type.all (fun τ => decide (1 ≤ τ.brackets)) = true ∧ e2.type.all MType.isInt = true := by
  constructor
  · rintro ⟨hw1,hw2,⟨τ,hτ,hpos⟩,hint⟩
    rw [hτ,hint]
    exact ⟨⟨h1.mp hw1,h2.mp hw2⟩,decide_eq_true hpos,rfl⟩
  · rintro ⟨⟨hq1,hq2⟩,hall,hint⟩
    have hw1 := h1.mpr hq1
    have hw2 := h2.mpr hq2
    obtain ⟨τ,hτ,-⟩ := hw1.carried
    obtain ⟨σ,hσ,-⟩ := hw2.carried
    rw [hτ] at hall
    rw [hσ] at hint
    exact ⟨hw1,hw2,⟨τ,hτ,of_decide_eq_true hall⟩,hσ.trans (congrArg some (eq_int_of_isInt hint))⟩

theorem settles_checkVarIndexed {p : Prop} (hw : (TVar.indexed e1 e2).WellTyped ↔ p)
    (hne : p → e1.type ≠ none) : Settles (checkVarIndexed e1 e2) p fun r =>
      some r.2 = (e1.type.map fun τ => ⟨τ.name,τ.brackets-1⟩) ∧ (r.1.WellTyped ↔ p) ∧
        (p → Carried (some r.2)) := by
  refine (settles_deref hne).bind id fun τ hτ => settles_pure ⟨?_,hw,fun hp => ?_⟩
  · rw [hτ]
    rfl
  · obtain ⟨σ,hσ,hpos⟩ := (hw.mpr hp).2.2.1
    obtain rfl := Option.some.inj (hτ.symm.trans hσ)
    exact ⟨_,rfl,Int.sub_nonneg_of_le hpos⟩

mutual

theorem settles_checkExp (t : SymbolTable) : (e : Exp) →
    Settles (checkExp t e) (e.proper t = true) fun te =>
      te.type = e.typeIn t ∧ (te.WellTyped ↔ e.proper t = true)
  | .bin tag e1 e2 => by
    rw [Exp.proper,Bool.and_eq_true]
    refine (settles_checkExp t e1).bind And.left fun te1 h1 => ?_
    refine (settles_checkExp t e2).bind And.right fun te2 h2 => ?_
    refine (settles_checkBin tag h1.2 h2.2).mono id fun te hte => ⟨?_,hte.2⟩
    rw [hte.1,h1.1,h2.1,Exp.typeIn]
  | .var v => by
    refine (settles_checkVar t v).bind id fun r hr => settles_pure ⟨hr.1,?_⟩
    exact ⟨fun hw => hr.2.1.mp hw.1,fun hp => ⟨hr.2.1.mpr hp,hr.2.2 hp⟩⟩
  | .call name exps => by
    rw [Exp.proper,Bool.and_eq_true]
    refine (settles_checkCmdCall (settles_checkExpList t exps)).bind And.left fun r hr => ?_
    obtain ⟨func,exps'⟩ := r
    obtain ⟨hfind,hagree,hw⟩ := hr
    dsimp only at hfind hagree hw
    rw [hfind]
    refine settles_pure ⟨?_,?_⟩
    · rw [Exp.typeIn,calledType,hfind]
      rfl
    · constructor
      · rintro ⟨hw',-,hcarried⟩
        refine ⟨hw.mp hw',?_⟩
        have hne := hcarried.ne_none
        rw [Ne,Option.map_eq_none_iff] at hne
        exact Option.isSome_iff_ne_none.mpr hne
      · rintro ⟨hp,hsome⟩
        obtain ⟨type,htype⟩ := Option.isSome_iff_exists.mp hsome
        refine ⟨hw.mpr hp,hagree,?_⟩
        rw [htype]
        exact carried_toType type
  | .not un => by
    refine (settles_checkExp t un).bind id fun te h => settles_pure ⟨h.1,?_⟩
    exact ⟨fun hw => h.2.mp hw.1,fun hp => ⟨h.2.mpr hp,(h.2.mpr hp).carried⟩⟩
  | .minus un => by
    refine (settles_checkExp t un).bind id fun te h => settles_pure ⟨h.1,?_⟩
    exact ⟨fun hw => h.2.mp hw.1,fun hp => ⟨h.2.mpr hp,(h.2.mpr hp).carried⟩⟩
  | .new type exp => by
    refine (settles_checkExp t exp).bind id fun te h => settles_pure ⟨rfl,?_⟩
    refine ⟨fun hw => h.2.mp hw.1,fun hp => ⟨h.2.mpr hp,_,rfl,?_⟩⟩
    exact Int.add_nonneg (Int.natCast_nonneg _) Int.one_nonneg
  | .string _ => settles_pure ⟨rfl,fun _ => rfl,fun _ => trivial⟩
  | .int _ => settles_pure ⟨rfl,fun _ => rfl,fun _ => trivial⟩
  | .float _ => settles_pure ⟨rfl,fun _ => rfl,fun _ => trivial⟩

theorem settles_checkVar (t : SymbolTable) : (v : Var) →
    Settles (checkVar t v) (v.proper t = true) fun r =>
      some r.2 = v.typeIn t ∧ (r.1.WellTyped ↔ v.proper t = true) ∧
        (v.proper t = true → Carried (some r.2))
  | .id name => (settles_checkVarId t name).mono (fun _ => trivial) fun _ hr =>
    ⟨hr.1,⟨fun _ => rfl,fun _ => hr.2.1⟩,fun _ => hr.2.2⟩
  | .indexed e1 e2 => by
    rw [Var.proper,Bool.and_eq_true,Bool.and_eq_true,Bool.and_eq_true,and_assoc]
    refine (settles_checkExp t e1).bind (fun hp => hp.1.1) fun te1 h1 => ?_
    refine (settles_checkExp t e2).bind (fun hp => hp.1.2) fun te2 h2 => ?_
    rw [← h1.1,← h2.1]
    refine (settles_checkVarIndexed (wellTyped_indexed h1.2 h2.2) fun hp =>
      (h1.2.mpr hp.1.1).carried.ne_none).mono id fun r hr => ⟨?_,hr.2⟩
    rw [hr.1,Var.typeIn,h1.1]

theorem settles_checkExpList (t : SymbolTable) : (exps : ExpList) →
    Settles (checkExpList t exps) (exps.proper t = true) fun exps' =>
      exps'.WellTyped ↔ exps.proper t = true
  | .nil => settles_pure ⟨fun _ => rfl,fun _ => trivial⟩
  | .cons exp next => by
    rw [ExpList.proper,Bool.and_eq_true]
    refine (settles_checkExp t exp).bind And.left fun te h => ?_
    refine (settles_checkExpList t next).bind And.right fun next' hnext => ?_
    exact settles_pure (and_congr h.2 hnext)

end

end Expressions

section Commands
variable {t : SymbolTable}

theorem settles_checkSymbolRedefinition (name : String) {p : Prop} :
    Settles (checkSymbolRedefinition t name) p fun _ => True := by
  unfold checkSymbolRedefinition
  split_ifs
  · exact settles_stopWith
  · exact settles_pure trivial

theorem settles_checkDefVarList {p : Prop} (vars : List DefVar) :
    Settles (checkDefVarList t vars) p fun r => r.1 = declareVars t vars := by
  induction vars generalizing t with
  | nil => exact settles_pure rfl
  | cons v vars ih =>
    refine (settles_checkSymbolRedefinition v.id).bind id fun _ _ => ?_
    exact ih.bind id fun r hr => settles_pure hr

theorem settles_checkParamList {p : Prop} (params : List Param) :
    Settles (checkParamList t params) p fun r => r.1 = declareParams t params := by
  induction params generalizing t with
  | nil => exact settles_pure rfl
  | cons param params ih =>
    refine (settles_checkSymbolRedefinition param.id).bind id fun _ _ => ?_
    exact ih.bind id fun r hr => settles_pure hr

/-- The condition of a command. -/
theorem Settles.cond {e : Exp} {p q : Prop} {Q : TExp → Prop} {R : TCmd → Prop}
    (h : Settles (checkExp t e) q Q) (hq : p → q) (hne : p → ∀ te, Q te → te.type ≠ none)
    (d : Diagnostic) {f : TExp → Except Stop TCmd} (hf : ∀ te, Q te → Settles (f te) p R) :
    Settles (checkExp t e >>= fun te => checkCond te d >>= fun _ => f te) p R := by
  refine h.bind hq fun te hte => ?_
  refine Settles.bind (p := p) (Q := fun _ => True) ?_ id fun _ _ => hf te hte
  unfold checkCond isExpNumerical
  refine Settles.bind (p := p) (Q := fun _ => True) ?_ id fun numerical _ => ?_
  · exact (settles_deref fun hp => hne hp te hte).bind id fun _ _ => settles_pure trivial
  · split_ifs
    · exact settles_pure trivial
    · exact settles_stopWith

theorem settles_cond (e : Exp) (d : Diagnostic) {p : Prop} (hp : p → e.proper t = true)
    {f : TExp → Except Stop TCmd} {R : TCmd → Prop}
    (hf : ∀ te, (te.WellTyped ↔ e.proper t = true) → Settles (f te) p R) :
    Settles (checkExp t e >>= fun te => checkCond te d >>= fun _ => f te) p R :=
  (settles_checkExp t e).cond hp (fun h _ hte => (hte.2.mpr (hp h)).carried.ne_none) d
    fun te hte => hf te hte.2

theorem settles_checkReturn {func : FuncHeader} {e : TExp} {p : Prop} :
    Settles (checkReturn func e) p fun e' => e' = e ∧
      typeEquals e.type (func.type.map DeclType.toType) = true := by
  unfold checkReturn
  split_ifs with h
  · exact settles_pure ⟨rfl,h⟩
  · exact settles_stopWith

/-- The variable of a proper assignment has a type. -/
theorem TVar.WellTyped.type_ne_none {v : TVar} (h : v.WellTyped) : v.type ≠ none := by
  cases v with
  | id tag decl => exact Option.some_ne_none _
  | indexed e1 e2 =>
    obtain ⟨τ,hτ,-⟩ := h.2.2.1
    rw [TVar.type,hτ]
    exact Option.some_ne_none _

mutual

theorem settles_checkCmd (func : FuncHeader) (t : SymbolTable) : (c : Cmd) →
    Settles (checkCmd func t c) (c.proper func t = true) fun tc =>
      tc.WellTyped func ↔ c.proper func t = true
  | .whileDo e cmd => by
    rw [Cmd.proper,Bool.and_eq_true]
    refine settles_cond e _ And.left fun te h => ?_
    refine (settles_checkCmd func t cmd).bind And.right fun tc hc => ?_
    exact settles_pure (and_congr h hc)
  | .ifThen e cmd => by
    rw [Cmd.proper,Bool.and_eq_true]
    refine settles_cond e _ And.left fun te h => ?_
    refine (settles_checkCmd func t cmd).bind And.right fun tc hc => ?_
    exact settles_pure (and_congr h hc)
  | .ifElse e c1 c2 => by
    rw [Cmd.proper,Bool.and_eq_true,Bool.and_eq_true,and_assoc]
    refine settles_cond e _ And.left fun te h => ?_
    refine (settles_checkCmd func t c1).bind (fun hp => hp.2.1) fun tc1 h1 => ?_
    refine (settles_checkCmd func t c2).bind (fun hp => hp.2.2) fun tc2 h2 => ?_
    exact settles_pure (and_congr h (and_congr h1 h2))
  | .ret none => settles_pure Option.isNone_iff_eq_none.symm
  | .ret (some exp) => by
    refine (settles_checkExp t exp).bind id fun te h => ?_
    refine settles_checkReturn.bind id fun te' h' => ?_
    obtain ⟨rfl,heq⟩ := h'
    exact settles_pure ⟨fun hw => h.2.mp hw.1,fun hp => ⟨h.2.mpr hp,heq⟩⟩
  | .call name exps => by
    refine (settles_checkCmdCall (settles_checkExpList t exps)).bind id fun r hr => ?_
    exact settles_pure ⟨fun hw => hr.2.2.mp hw.1,fun hp => ⟨hr.2.2.mpr hp,hr.2.1⟩⟩
  | .block vars cmds => by
    refine (settles_checkDefVarList vars).bind id fun r hr => ?_
    obtain ⟨inner,decls⟩ := r
    dsimp only at hr
    rw [hr]
    exact (settles_checkCmdList func _ cmds).bind id fun tcs hcs => settles_pure hcs
  | .assign v exp => by
    rw [Cmd.proper,Bool.and_eq_true]
    refine (settles_checkExp t exp).bind And.left fun te h => ?_
    refine (settles_checkVar t v).bind And.right fun r hr => ?_
    refine ((settles_checkAssigned TVar.WellTyped.type_ne_none).mono (fun hp =>
      ⟨hr.2.1.mpr hp.2,h.2.mpr hp.1⟩) fun _ hx => hx).bind id fun te' h' => ?_
    refine settles_pure ⟨fun hw => ⟨h.2.mp (h'.2.mp hw.2.1),hr.2.1.mp hw.1⟩,fun hp => ?_⟩
    exact ⟨hr.2.1.mpr hp.2,h'.2.mpr (h.2.mpr hp.1),h'.1⟩

theorem settles_checkCmdList (func : FuncHeader) (t : SymbolTable) : (cs : CmdList) →
    Settles (checkCmdList func t cs) (cs.proper func t = true) fun tcs =>
      tcs.WellTyped func ↔ cs.proper func t = true
  | .nil => settles_pure ⟨fun _ => rfl,fun _ => trivial⟩
  | .cons cmd next => by
    rw [CmdList.proper,Bool.and_eq_true]
    refine (settles_checkCmd func t cmd).bind And.left fun tc hc => ?_
    refine (settles_checkCmdList func t next).bind And.right fun tcs hcs => ?_
    exact settles_pure (and_congr hc hcs)

end

theorem settles_checkDefFunc (f : Func) : Settles (checkDefFunc t f) (f.proper t = true) fun r =>
    r.1 = addDecFunc t f.header ∧ (TDefinition.WellTyped (.deffunc r.2) ↔ f.proper t = true) := by
  refine (settles_checkSymbolRedefinition f.header.id).bind id fun _ _ => ?_
  refine (settles_checkParamList f.header.params).bind id fun r hr => ?_
  obtain ⟨inner,params⟩ := r
  dsimp only at hr
  subst hr
  refine (settles_checkDefVarList f.vars).bind id fun r hr => ?_
  obtain ⟨inner,vars⟩ := r
  dsimp only at hr
  subst hr
  exact (settles_checkCmdList f.header _ f.cmds).bind id fun cmds hcmds => settles_pure ⟨rfl,hcmds⟩

theorem settles_checkDefinition (definition : Definition) :
    Settles (checkDefinition t definition) (definition.proper t = true) fun r =>
      r.1 = declare t definition ∧ (r.2.WellTyped ↔ definition.proper t = true) := by
  cases definition with
  | defvar vars =>
    refine (settles_checkDefVarList vars).bind id fun r hr => ?_
    exact settles_pure ⟨hr,fun _ => rfl,fun _ => trivial⟩
  | deffunc func => exact (settles_checkDefFunc func).bind id fun r hr => settles_pure hr

theorem settles_checkDefinitions (tree : List Definition) :
    Settles (checkDefinitions t tree) (properFrom t tree = true) fun ttree =>
      (∀ definition ∈ ttree, definition.WellTyped) ↔ properFrom t tree = true := by
  induction tree generalizing t with
  | nil => exact settles_pure ⟨fun _ => rfl,fun _ => List.forall_mem_nil _⟩
  | cons definition tree ih =>
    rw [properFrom,Bool.and_eq_true]
    refine (settles_checkDefinition definition).bind And.left fun r hr => ?_
    obtain ⟨t',definition'⟩ := r
    dsimp only at hr
    rw [hr.1]
    refine ih.bind And.right fun ttree htree => settles_pure ?_
    rw [List.forall_mem_cons]
    exact and_congr hr.2 htree

end Commands

/-- The claim on a program: a message, or a well-typed tree. -/
def Sound (tree : List Definition) : Prop :=
  Settles (typeCheck tree) True fun ttree => ∀ definition ∈ ttree, definition.WellTyped

/-- Every proper program is checked soundly, and so is no other, unless the checker refuses it. -/
theorem sound_iff_proper (tree : List Definition) :
    (proper tree = true → Sound tree) ∧
      ((∀ d, typeCheck tree ≠ .error (.diagnostic d)) → (Sound tree ↔ proper tree = true)) := by
  have hcheck : Settles (typeCheck tree) (proper tree = true) fun ttree =>
      (∀ definition ∈ ttree, definition.WellTyped) ↔ proper tree = true :=
    settles_checkDefinitions tree
  have hsound (hp : proper tree = true) : Sound tree :=
    hcheck.mono (fun _ => hp) fun _ h => h.mpr hp
  refine ⟨hsound,fun hd => ⟨fun hs => ?_,hsound⟩⟩
  unfold Sound at hs
  generalize typeCheck tree = r at hcheck hs hd
  cases r with
  | ok ttree => exact hcheck.mp hs
  | error stop =>
    cases stop with
    | diagnostic d => exact (hd d rfl).elim
    | null => exact (hs trivial).elim

/-- `float f(float x, int a[]) { return x + a[1]; }` and a function that calls it with an `int`. -/
def castsProgram : List Definition :=
  [.deffunc ⟨⟨some ⟨.VarFloat,0⟩,"f",[⟨⟨.VarFloat,0⟩,"x"⟩,⟨⟨.VarInt,1⟩,"a"⟩]⟩,[],
    .cons (.ret (some (.bin .ExpAdd (.var (.id "x"))
      (.var (.indexed (.var (.id "a")) (.int 1)))))) .nil⟩,
  .deffunc ⟨⟨none,"main",[]⟩,[⟨⟨.VarInt,1⟩,"a"⟩,⟨⟨.VarFloat,0⟩,"y"⟩],
    .cons (.assign (.id "a") (.new ⟨.VarInt,0⟩ (.int 2)))
    (.cons (.assign (.indexed (.var (.id "a")) (.int 1)) (.int 5))
    (.cons (.assign (.id "y") (.call "f" (.cons (.int 3) (.cons (.var (.id "a")) .nil))))
    (.cons (.ret none) .nil)))⟩]

theorem sound_castsProgram : Sound castsProgram := (sound_iff_proper castsProgram).1 (by decide)

/-- `void g() {}` and `int main() { return g() + 1; }`. -/
def voidOperand : List Definition :=
  [.deffunc ⟨⟨none,"g",[]⟩,[],.nil⟩,
  .deffunc ⟨⟨some ⟨.VarInt,0⟩,"main",[]⟩,[],
    .cons (.ret (some (.bin .ExpAdd (.call "g" .nil) (.int 1)))) .nil⟩]

/-- The name of the type that `g()` has not got is read. -/
theorem not_sound_voidOperand : ¬Sound voidOperand := by
  have hnull : typeCheck voidOperand = .error .null := rfl
  unfold Sound
  rw [hnull]
  exact fun h => h trivial

end PucRio.Monga
