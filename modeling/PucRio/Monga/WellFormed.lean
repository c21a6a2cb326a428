import PucRio.Monga.Coverage
import PucRio.Monga.Scoping
import PucRio.Monga.Temporaries

/-! Which of the functions that are generated are well formed. -/
namespace PucRio.Monga

section Scope
variable {t : SymbolTable} {e e1 e2 : TExp}

def Dec.variable? : Dec → Option (DecTag × Decl)
  | .v decl => some (.VarDec,decl)
  | .p decl => some (.VarParam,decl)
  | .f _ => none

/-- The variables in scope. -/
def variablesOf (t : SymbolTable) : List (DecTag × Decl) := t.flatten.filterMap Dec.variable?

theorem mem_variablesOf {v : DecTag × Decl} :
    v ∈ variablesOf t ↔ ∃ dec ∈ t.flatten, dec.variable? = some v := List.mem_filterMap

theorem variablesOf_subset (t : SymbolTable) (dec : Dec) :
    variablesOf t ⊆ variablesOf (addDec t dec) := by
  intro v hv
  obtain ⟨dec',hmem,hdec⟩ := mem_variablesOf.mp hv
  exact mem_variablesOf.mpr ⟨dec',mem_addDec.mpr (.inl hmem),hdec⟩

theorem settles_cast_variables (e : TExp) :
    Settles (castIntToFloat e) False fun c => c.variables = e.variables := by
  refine (settles_castIntToFloat fun hp => hp.elim).mono id fun c hc => ?_
  obtain ⟨rfl,-⟩ := hc
  rfl

theorem settles_compare_variables (type : Option MType) (tag : BinExp) (e1 e2 : TExp) :
    Settles (if typeEquals e1.type e2.type = true then pure (TExp.bin type tag e1 e2)
      else stopWith .invalidArrayComparison) False fun te =>
        te.variables = e1.variables++e2.variables := by
  split_ifs
  · exact settles_pure rfl
  · exact settles_stopWith

theorem settles_checkBin_variables (tag : BinExp) (e1 e2 : TExp) :
    Settles (checkBin tag e1 e2) False fun te => te.variables = e1.variables++e2.variables := by
  unfold checkBin
  refine (settles_deref fun hp => hp.elim).bind id fun t1 _ => ?_
  refine (settles_deref fun hp => hp.elim).bind id fun t2 _ => ?_
  dsimp only
  split_ifs
  · exact settles_compare_variables _ tag e1 e2
  · refine (settles_cast_variables e2).bind id fun c hc => ?_
    rw [← hc]
    exact settles_compare_variables _ tag e1 c
  · refine (settles_cast_variables e1).bind id fun c hc => ?_
    rw [← hc]
    exact settles_compare_variables _ tag c e2
  · exact settles_stopWith

theorem settles_checkArgument_variables (id : String) (param : Param) (e : TExp) :
    Settles (checkArgument id param e) False fun e' => e'.variables = e.variables := by
  unfold checkArgument
  split_ifs
  · exact settles_pure rfl
  · refine (settles_deref fun hp => hp.elim).bind (fun hp => hp) fun τ _ => ?_
    split_ifs
    · exact settles_cast_variables e
    · exact settles_stopWith

theorem settles_checkSignature_variables (id : String) : (exps : TExpList) →
    (params : List Param) →
    Settles (checkSignature id exps params) False fun exps' => exps'.variables = exps.variables
  | .nil,[] => settles_pure rfl
  | .nil,_::_ => settles_stopWith
  | .cons _ _,[] => settles_stopWith
  | .cons exp next,param::params => by
    refine (settles_checkArgument_variables id param exp).bind (fun hp => hp) fun exp' hexp => ?_
    refine (settles_checkSignature_variables id next params).bind (fun hp => hp) fun next' hn => ?_
    refine settles_pure ?_
    rw [TExpList.variables,hexp,hn]
    rfl

theorem settles_checkCmdCall_variables {id : String} {checked : Except Stop TExpList}
    (h : Settles checked False fun exps => exps.variables ⊆ variablesOf t) :
    Settles (checkCmdCall t id checked) False fun r => r.2.variables ⊆ variablesOf t := by
  unfold checkCmdCall
  split
  · exact settles_stopWith
  · rename_i func _
    refine h.bind (fun hp => hp) fun exps hexps => ?_
    refine (settles_checkSignature_variables id exps func.params).bind (fun hp => hp) fun _ h' => ?_
    exact settles_pure (h' ▸ hexps)
  · exact settles_stopWith

theorem settles_checkVarId_variables (t : SymbolTable) (id : String) :
    Settles (checkVarId t id) False fun r => r.1.variables ⊆ variablesOf t := by
  unfold checkVarId
  split
  · exact settles_stopWith
  · next hfind =>
    refine settles_pure (List.cons_subset.mpr ⟨?_,List.nil_subset _⟩)
    exact mem_variablesOf.mpr ⟨_,List.mem_of_find?_eq_some hfind,rfl⟩
  · next hfind =>
    refine settles_pure (List.cons_subset.mpr ⟨?_,List.nil_subset _⟩)
    exact mem_variablesOf.mpr ⟨_,List.mem_of_find?_eq_some hfind,rfl⟩
  · exact settles_stopWith

theorem settles_checkAssigned_variables (var : TVar) (e : TExp) :
    Settles (checkAssigned var e) False fun e' => e'.variables = e.variables := by
  cases var with
  | id tag decl =>
    refine (settles_deref fun hp => hp.elim).bind (fun hp => hp) fun τ _ => ?_
    have hcast : Settles (castAssigned decl τ e) False fun e' => e'.variables = e.variables := by
      unfold castAssigned
      split_ifs
      · exact settles_cast_variables e
      · exact settles_pure rfl
    refine hcast.bind (fun hp => hp) fun e' he' => ?_
    split_ifs
    · exact settles_pure he'
    · exact settles_stopWith
  | indexed a i =>
    refine (settles_deref fun hp => hp.elim).bind (fun hp => hp) fun t1 _ => ?_
    refine (settles_deref fun hp => hp.elim).bind (fun hp => hp) fun τ _ => ?_
    split_ifs
    · exact settles_pure rfl
    · exact settles_stopWith

mutual

/-- What an expression reads is in scope. -/
theorem settles_checkExp_variables (t : SymbolTable) : (e : Exp) →
    Settles (checkExp t e) False fun te => te.variables ⊆ variablesOf t
  | .bin tag e1 e2 => by
    refine (settles_checkExp_variables t e1).bind id fun te1 h1 => ?_
    refine (settles_checkExp_variables t e2).bind id fun te2 h2 => ?_
    refine (settles_checkBin_variables tag te1 te2).mono id fun te h => ?_
    rw [h]
    exact List.append_subset.mpr ⟨h1,h2⟩
  | .var v => (settles_checkVar_variables t v).bind id fun _ hr => settles_pure hr
  | .call id parameters =>
    (settles_checkCmdCall_variables (settles_checkExpList_variables t parameters)).bind
      (fun hp => hp) fun _ hr => settles_pure hr
  | .not un => (settles_checkExp_variables t un).bind id fun _ h => settles_pure h
  | .minus un => (settles_checkExp_variables t un).bind id fun _ h => settles_pure h
  | .new type exp =>
    (settles_checkExp_variables t exp).bind id fun _ _ => settles_pure (List.nil_subset _)
  | .string _ => settles_pure (List.nil_subset _)
  | .int _ => settles_pure (List.nil_subset _)
  | .float _ => settles_pure (List.nil_subset _)

theorem settles_checkVar_variables (t : SymbolTable) : (v : Var) →
    Settles (checkVar t v) False fun r => r.1.variables ⊆ variablesOf t
  | .id id => settles_checkVarId_variables t id
  | .indexed e1 e2 => by
    refine (settles_checkExp_variables t e1).bind id fun te1 _ => ?_
    refine (settles_checkExp_variables t e2).bind id fun te2 h2 => ?_
    exact (settles_deref fun hp => hp.elim).bind id fun _ _ => settles_pure h2

theorem settles_checkExpList_variables (t : SymbolTable) : (exps : ExpList) →
    Settles (checkExpList t exps) False fun exps' => exps'.variables ⊆ variablesOf t
  | .nil => settles_pure (List.nil_subset _)
  | .cons exp next => by
    refine (settles_checkExp_variables t exp).bind id fun texp h1 => ?_
    refine (settles_checkExpList_variables t next).bind id fun tnext h2 => ?_
    exact settles_pure (List.append_subset.mpr ⟨h1,h2⟩)

end

end Scope

section Commands
variable {K : List ℕ} {vs : List (DecTag × Decl)} {b : Bool}

namespace Supplies

theorem arrPtr {array position : ℕ} (harray : array ∈ K) (hposition : position ∈ K)
    (type : Option MType) (size : ℤ) :
    Supplies K [] vs b (genArrPtr array type size position) fun r => [r] :=
  fresh fun _ => name fun _ => value rfl (List.cons_subset.mpr
    ⟨harray,List.cons_subset.mpr ⟨hposition,List.nil_subset K⟩⟩) rfl rfl

theorem newPtr (exp : TExp) {t : ℕ} (ht : t ∈ K) :
    Supplies K [] vs b (genNewPtr exp t) fun r => [r] := by
  cases exp with
  | new type size =>
    cases size with
    | int l =>
      refine fresh fun position0 => ?_
      have hline : Supplies K [position0] [] true (llvmWrite [.int position0 0])
          fun _ => [position0] := line (x := .int position0 0) (List.nil_subset K) rfl rfl
      exact hline.andThen fun _ => (arrPtr (List.mem_append_right _ ht)
        (List.mem_append_left _ (List.mem_singleton_self _)) _ _ : Supplies _ [] vs b _ _)
    | _ => exact pure (List.cons_subset.mpr ⟨ht,List.nil_subset K⟩)
  | _ => exact pure (List.cons_subset.mpr ⟨ht,List.nil_subset K⟩)

theorem index (e1 e2 : TExp) :
    Supplies K [] e2.variables false (genIndex (.indexed e1 e2)) fun _ => [] := by
  have hname (t : ℕ) : Supplies ([t]++K) [] [] false (typeName e2.type >>= fun name =>
      if name ≠ .VarInt then .stop .indexNotInt else Pure.pure ()) fun _ => [] := by
    refine name fun n => ?_
    split
    · exact stop .indexNotInt
    · exact pure (List.nil_subset _)
  refine (((supplies_gens e2).exp K).bind hname).weaken ?_ ?_
  · simp
  · simp

theorem store {t : ℕ} {place : Place} (ht : t ∈ K) (hp : place.uses ⊆ K) (type : VarType)
    (array : Bool) {target : Option VarType} (hb : b = true → target ≠ none) :
    Supplies K [] vs b (llvmWrite [.store type array t target place]) fun _ => [] := by
  refine write ⟨List.cons_subset.mpr ⟨ht,hp⟩,trivial⟩ ⟨fun y hy => ?_,.singleton _⟩
    (fun _ => .nil) fun h => ?_
  · obtain rfl : .store type array t target place = y := Option.some.inj hy
    rfl
  · cases target with
    | none => exact (hb h rfl).elim
    | some target => exact List.forall_mem_singleton.mpr rfl

theorem var (v : TVar) : Supplies K [] v.variables b (genVar v) Place.uses := by
  cases v with
  | indexed e1 e2 => exact pure (List.nil_subset K)
  | id tag decl =>
    cases tag with
    | VarParam => exact pure (List.nil_subset K)
    | VarDec =>
      refine slot (v := (.VarDec,decl)) fun K s hs => pure ?_
      split_ifs with hglobal
      · exact List.nil_subset K
      · exact List.cons_subset.mpr ⟨hs.resolve_right fun h => hglobal h.2,List.nil_subset K⟩

/-- The number of a variable is known, that of an element is not. -/
theorem cmdVar (v : TVar) (exp : TExp) : Supplies K [] (exp.variables++v.variables)
    (exp.plainValue && v.targetName.isSome) (genCmdVar v exp) fun _ => [] := by
  have hstore (t t' : ℕ) (u : Unit) : Supplies ([]++([t']++([t]++K))) [] v.variables
      v.targetName.isSome (typeName exp.type >>= fun name => genVar v >>= fun place =>
        llvmWrite [.store name exp.isNew t' v.targetName place]) fun _ => [] := by
    refine name fun n => ((var (b := true) v).bind fun place =>
      (store ?_ ?_ n exp.isNew ?_ : Supplies _ [] [] v.targetName.isSome _ _)).weaken ?_ ?_
    · simp
    · exact List.subset_append_left _ _
    · exact fun h => Option.isSome_iff_ne_none.mp h
    · simp
    · simp
  have hindex (K : List ℕ) : Supplies K [] v.variables v.targetName.isSome (genIndex v)
      fun _ => [] := by
    cases v with
    | id tag decl => exact pure (List.nil_subset K)
    | indexed e1 e2 => exact index e1 e2
  have hptr (t : ℕ) : Supplies ([t]++K) [] [] true (genNewPtr exp t) fun r => [r] :=
    newPtr exp (List.mem_append_left _ (List.mem_singleton_self t))
  refine (((supplies_gens exp).exp K).bind fun t => (hptr t).bind fun t' =>
    (hindex _).bind fun u => hstore t t' u).weaken ?_ ?_
  · simp
  · simp

theorem ret (exp : TExp) : Supplies K [] exp.variables exp.plainValue (genReturn (some exp))
    fun _ => [] := by
  refine (((supplies_gens exp).exp K).bind fun t => name fun n =>
    (line (x := .ret n t) ?_ rfl rfl : Supplies _ _ [] true _ _)).weaken ?_ ?_
  · exact List.subset_append_left _ K
  · simp
  · simp

theorem call (func : FuncHeader) (parameters : TExpList) :
    Supplies K [] parameters.variables parameters.plainValues (genCmd (.call func parameters))
      fun _ => [] := by
  have hcall : Supplies K [] parameters.variables parameters.plainValues
      (genCmdCall func (genArgs parameters)) fun r => [r] :=
    cmdCall (supplies_genArgs parameters) func
  refine (hcall.bind fun _ => (pure (List.nil_subset _) : Supplies _ [] [] true _ _)).weaken ?_ ?_
  · simp
  · simp

end Supplies
end Commands

section Keeps
variable {α β : Type} {t t' t'' : SymbolTable} {b b' : Bool} {x : Gen α} {f : α → Gen β}
  {slots : Decl → Slot} {S S' : List ℕ}

/-- The variables in scope can be read. -/
def Ready (t : SymbolTable) (slots : Decl → Slot) (S : List ℕ) : Prop :=
  ∀ v ∈ variablesOf t, Known slots S v

theorem Ready.mono (hS : S ⊆ S') (h : Ready t slots S) : Ready t slots S' :=
  fun v hv => (h v hv).mono hS

theorem level_of_mem_variablesOf (ht : Leveled t) {v : DecTag × Decl} (hv : v ∈ variablesOf t) :
    v.2.level < level t := by
  obtain ⟨dec,hmem,hdec⟩ := mem_variablesOf.mp hv
  cases dec with
  | v decl =>
    cases hdec
    exact ht _ hmem decl (.inl rfl)
  | p decl =>
    cases hdec
    exact ht _ hmem decl (.inr rfl)
  | f func => cases hdec

theorem Ready.of_slots {slots' : Decl → Slot} (ht : Leveled t) (h : Ready t slots S)
    (hs : ∀ d : Decl, d.level < level t → slots' d = slots d) : Ready t slots' S := by
  intro v hv
  rw [Known,hs v.2 (level_of_mem_variablesOf ht hv)]
  exact h v hv

/-- A declaration writes to no record of another one in scope. -/
theorem Ready.declare (ht : Leveled t) (h : Ready t slots S) (hS : S ⊆ S') (dec : Dec)
    {v : DecTag × Decl} (hdec : dec.variable? = some v) (hv : v.2.level = level t) (s : Slot)
    (hs : s.varNumber ∈ S' ∨ (v.1 = .VarDec ∧ s.isGlobal = true)) :
    Ready (addDec t dec) (Function.update slots v.2 s) S' := by
  intro v' hv'
  obtain ⟨dec',hmem,hdec'⟩ := mem_variablesOf.mp hv'
  obtain hmem | rfl := mem_addDec.mp hmem
  · have hold : v' ∈ variablesOf t := mem_variablesOf.mpr ⟨dec',hmem,hdec'⟩
    have hlevel := level_of_mem_variablesOf ht hold
    have hne : v'.2 ≠ v.2 := by
      intro heq
      rw [heq] at hlevel
      omega
    have hknown := (h v' hold).mono hS
    rw [Known,Function.update_of_ne hne]
    exact hknown
  · obtain rfl := Option.some.inj (hdec.symm.trans hdec')
    rw [Known,Function.update_self]
    exact hs

/-- A part of a function that declares what is in `t'` beside what is in `t`. -/
def Keeps (t t' : SymbolTable) (b : Bool) (x : Gen α) : Prop :=
  ∀ S g a c g', Ready t g.slots S → x g = .ok (a,c,g') →
    (∀ d : Decl, d.level < level t → g'.slots d = g.slots d) ∧
      Temps S [] b g.curTempVar c g'.curTempVar ∧ Ready t' g'.slots (defsOf c++S)

namespace Keeps

theorem stop (e : GenStop) : Keeps t t' b (.stop e : Gen α) := by
  intro S g a c g' _ hx
  cases hx

theorem pure (a : α) : Keeps t t b (pure a : Gen α) := by
  intro S g a' c g' hready hx
  cases hx
  exact ⟨fun _ _ => rfl,.nil S [] b (Nat.le_refl _),hready⟩

theorem weaken (h : Keeps t t' b x) (hb : b' = true → b = true) : Keeps t t' b' x := by
  intro S g a c g' hready hx
  obtain ⟨hslots,ht,hready'⟩ := h S g a c g' hready hx
  exact ⟨hslots,ht.weaken hb,hready'⟩

theorem bind (ht : level t ≤ level t') (hx : Keeps t t' b x) (hf : ∀ a, Keeps t' t'' b' (f a)) :
    Keeps t t'' (b && b') (x >>= f) := by
  intro S g a c g' hready h
  obtain ⟨a,c₁,g₁,_,c₂,_,h₁,h₂,heq⟩ := Gen.bind_ok h
  cases heq
  obtain ⟨hslots₁,ht₁,hready₁⟩ := hx S g a c₁ g₁ hready h₁
  obtain ⟨hslots₂,ht₂,hready₂⟩ := hf a (defsOf c₁++S) g₁ _ c₂ g' hready₁ h₂
  refine ⟨fun d hd => (hslots₂ d (hd.trans_le ht)).trans (hslots₁ d hd),
    ht₁.concat ht₂,hready₂.mono fun n hn => ?_⟩
  rw [defsOf_append]
  simp only [List.mem_append] at hn ⊢
  tauto

theorem label {f : ℕ → Gen β} (h : ∀ l, Keeps t t' b (f l)) :
    Keeps t t' b (getNextTempLabel >>= f) := by
  intro S g a c g' hready hx
  rw [Gen.bind_label] at hx
  exact h (g.curTempLabel+1) S { g with curTempLabel := g.curTempLabel+1 } a c g' hready hx

/-- What is declared in a block is not seen behind it. -/
theorem leave (ht : variablesOf t ⊆ variablesOf t') (h : Keeps t t' b x) : Keeps t t b x := by
  intro S g a c g' hready hx
  obtain ⟨hslots,htemps,hready'⟩ := h S g a c g' hready hx
  exact ⟨hslots,htemps,fun v hv => hready' v (ht hv)⟩

theorem of_supplies {vs : List (DecTag × Decl)} {V : α → List ℕ} (hvs : vs ⊆ variablesOf t)
    (h : Supplies [] [] vs b x V) : Keeps t t b x := by
  intro S g a c g' hready hx
  obtain ⟨hslots,ht,-⟩ := h S g a c g' (List.nil_subset S) List.nodup_nil (List.forall_mem_nil _)
    (fun v hv => hready v (hvs hv)) hx
  refine ⟨fun d _ => congrFun hslots d,ht,?_⟩
  rw [hslots]
  exact hready.mono (List.subset_append_right _ S)

theorem jump (l : ℕ) : Keeps t t true (genLabel l) :=
  of_supplies (List.nil_subset _) (Supplies.jump l)

theorem defVar (ht : Leveled t) (v : DefVar) :
    Keeps t (addDecVar t v) true (genDefVar false ⟨v.type,v.id,level t⟩) := by
  intro S g a c g' hready hx
  cases hx
  refine ⟨fun d hd => Function.update_of_ne ?_ ..,?_,?_⟩
  · rintro rfl
    exact Nat.lt_irrefl _ hd
  · refine ⟨⟨List.nil_subset S,trivial⟩,⟨?_,.singleton _⟩,Nat.le_succ _,fun _ => ?_,fun _ => ?_,
      fun _ => ?_⟩
    · simp [Item.label?]
    · simp [defsOf,Item.defs]
    · simp [defsOf,Item.defs]
    · simp [Item.unknown]
  · exact hready.declare ht (List.subset_append_right _ S) (.v ⟨v.type,v.id,level t⟩) rfl rfl
      ⟨g.curTempVar+1,false⟩ (.inl List.mem_cons_self)

end Keeps

/-- The declarations of a block are seen in the commands behind them. -/
theorem keeps_defVarList (vars : List DefVar) {t : SymbolTable} (ht : Leveled t) :
    Settles (checkDefVarList t vars) False fun r => Leveled r.1 ∧ level t ≤ level r.1 ∧
      variablesOf t ⊆ variablesOf r.1 ∧ Keeps t r.1 true (genDefVarList false r.2) := by
  induction vars generalizing t with
  | nil => exact settles_pure ⟨ht,Nat.le_refl _,List.Subset.refl _,.pure ()⟩
  | cons v vars ih =>
    refine (settles_checkSymbolRedefinition v.id).bind id fun _ _ => ?_
    refine (ih (ht.addDecVar v)).bind id fun r hr => settles_pure ?_
    obtain ⟨hleveled,hle,hsub,hkeeps⟩ := hr
    have hnext : level t ≤ level (addDecVar t v) := by
      rw [addDecVar,level_addDec]
      exact Nat.le_succ _
    exact ⟨hleveled,hnext.trans hle,List.Subset.trans (variablesOf_subset t _) hsub,
      (Keeps.defVar ht v).bind hnext fun _ => hkeeps⟩

mutual

/-- No comparison and no logical operation is used as a value, and no element of an array is
assigned. -/
def TCmd.plain : TCmd → Bool
  | .whileDo e cmd => e.plainCondition && cmd.plain
  | .ifThen e cmd => e.plainCondition && cmd.plain
  | .ifElse e c1 c2 => e.plainCondition && c1.plain && c2.plain
  | .ret none => true
  | .ret (some exp) => exp.plainValue
  | .call _ parameters => parameters.plainValues
  | .block _ cmds => cmds.plain
  | .assign var exp => exp.plainValue && var.targetName.isSome

def TCmdList.plain : TCmdList → Bool
  | .nil => true
  | .cons cmd next => cmd.plain && next.plain

end

theorem keeps_genCond {e : TExp} (he : e.variables ⊆ variablesOf t) (lt lf : ℕ) :
    Keeps t t e.plainCondition (genCond e lt lf) :=
  .of_supplies he ((supplies_gens e).cond [] lt lf)

theorem keeps_while {e : TExp} {cmd : TCmd} (he : e.variables ⊆ variablesOf t)
    (h : Keeps t t cmd.plain (genCmd cmd)) :
    Keeps t t (TCmd.whileDo e cmd).plain (genCmd (.whileDo e cmd)) := by
  have hle : level t ≤ level t := Nat.le_refl _
  refine (Keeps.label fun lWhile => Keeps.label fun lBreak =>
    (keeps_genCond he lWhile lBreak).bind hle fun _ => (Keeps.jump lWhile).bind hle fun _ =>
    h.bind hle fun _ => (keeps_genCond he lWhile lBreak).bind hle fun _ =>
    Keeps.jump lBreak).weaken ?_
  simp only [TCmd.plain,Bool.and_eq_true]
  tauto

theorem keeps_if {e : TExp} {cmd : TCmd} (he : e.variables ⊆ variablesOf t)
    (h : Keeps t t cmd.plain (genCmd cmd)) :
    Keeps t t (TCmd.ifThen e cmd).plain (genCmd (.ifThen e cmd)) := by
  have hle : level t ≤ level t := Nat.le_refl _
  refine (Keeps.label fun lf => Keeps.label fun lt => (keeps_genCond he lt lf).bind hle fun _ =>
    (Keeps.jump lt).bind hle fun _ => h.bind hle fun _ => Keeps.jump lf).weaken ?_
  simp only [TCmd.plain,Bool.and_eq_true]
  tauto

theorem keeps_ifElse {e : TExp} {c1 c2 : TCmd} (he : e.variables ⊆ variablesOf t)
    (h1 : Keeps t t c1.plain (genCmd c1)) (h2 : Keeps t t c2.plain (genCmd c2)) :
    Keeps t t (TCmd.ifElse e c1 c2).plain (genCmd (.ifElse e c1 c2)) := by
  have hle : level t ≤ level t := Nat.le_refl _
  have hbr (l : ℕ) : Keeps t t true (llvmWrite [.br l]) :=
    .of_supplies (List.nil_subset _) (Supplies.line (x := .br l) (List.nil_subset []) rfl rfl)
  refine (Keeps.label fun lt => Keeps.label fun lf => Keeps.label fun lAfterElse =>
    (keeps_genCond he lt lf).bind hle fun _ => (Keeps.jump lt).bind hle fun _ =>
    h1.bind hle fun _ => (hbr lAfterElse).bind hle fun _ => (Keeps.jump lf).bind hle fun _ =>
    h2.bind hle fun _ => Keeps.jump lAfterElse).weaken ?_
  simp only [TCmd.plain,Bool.and_eq_true]
  tauto

mutual

theorem keeps_genCmd (func : FuncHeader) {t : SymbolTable} (ht : Leveled t) : (cmd : Cmd) →
    Settles (checkCmd func t cmd) False fun tc => Keeps t t tc.plain (genCmd tc)
  | .whileDo e cmd => by
    refine (settles_checkExp_variables t e).cond id (fun hp => hp.elim) _ fun te he => ?_
    exact (keeps_genCmd func ht cmd).bind id fun tc hc => settles_pure (keeps_while he hc)
  | .ifThen e cmd => by
    refine (settles_checkExp_variables t e).cond id (fun hp => hp.elim) _ fun te he => ?_
    exact (keeps_genCmd func ht cmd).bind id fun tc hc => settles_pure (keeps_if he hc)
  | .ifElse e c1 c2 => by
    refine (settles_checkExp_variables t e).cond id (fun hp => hp.elim) _ fun te he => ?_
    refine (keeps_genCmd func ht c1).bind id fun tc1 h1 => ?_
    exact (keeps_genCmd func ht c2).bind id fun tc2 h2 => settles_pure (keeps_ifElse he h1 h2)
  | .ret none => settles_pure (.stop .null)
  | .ret (some exp) => by
    refine (settles_checkExp_variables t exp).bind id fun te h => ?_
    refine settles_checkReturn.bind id fun te' h' => ?_
    obtain ⟨rfl,-⟩ := h'
    exact settles_pure (.of_supplies h (.ret _))
  | .call id exps =>
    (settles_checkCmdCall_variables (settles_checkExpList_variables t exps)).bind
      (fun hp => hp) fun r hr => settles_pure (.of_supplies hr (.call r.1 r.2))
  | .block vars cmds => by
    refine (keeps_defVarList vars ht.enterScope).bind id fun r hr => ?_
    obtain ⟨hleveled,hle,hsub,hkeeps⟩ := hr
    refine (keeps_genCmdList func hleveled cmds).bind id fun tcs hcs => settles_pure ?_
    exact (hkeeps.bind hle fun _ => hcs).leave hsub
  | .assign v exp => by
    refine (settles_checkExp_variables t exp).bind id fun te h => ?_
    refine (settles_checkVar_variables t v).bind id fun r hr => ?_
    refine (settles_checkAssigned_variables r.1 te).bind id fun te' h' => settles_pure ?_
    exact .of_supplies (List.append_subset.mpr ⟨h' ▸ h,hr⟩) (.cmdVar r.1 te')

theorem keeps_genCmdList (func : FuncHeader) {t : SymbolTable} (ht : Leveled t) :
    (cmds : CmdList) →
    Settles (checkCmdList func t cmds) False fun tcs => Keeps t t tcs.plain (genCmdList tcs)
  | .nil => settles_pure (.pure ())
  | .cons cmd next => by
    refine (keeps_genCmd func ht cmd).bind id fun tc hc => ?_
    refine (keeps_genCmdList func ht next).bind id fun tcs hcs => settles_pure ?_
    exact hc.bind (Nat.le_refl _) fun _ => hcs

end

end Keeps

section Last
variable {α β : Type} {x : Gen α} {f : α → Gen β} {r r' : Option Bool} {b : Bool}

mutual

/-- Whether the last line of a command ends a block; empty blocks have no lines. -/
def TCmd.last : TCmd → Option Bool
  | .whileDo _ _ => some false
  | .ifThen _ _ => some false
  | .ifElse _ _ _ => some false
  | .ret _ => some true
  | .call _ _ => some false
  | .block vars cmds => cmds.last.or (if vars = [] then none else some false)
  | .assign _ _ => some false

def TCmdList.last : TCmdList → Option Bool
  | .nil => none
  | .cons cmd next => next.last.or cmd.last

end

/-- The last line is a `return`. -/
def TFunc.returns (func : TFunc) : Bool := func.cmds.last == some true

def lastEnds (c : List Item) : Option Bool := c.getLast?.map Item.ends

theorem lastEnds_append (c c' : List Item) : lastEnds (c++c') = (lastEnds c').or (lastEnds c) := by
  rw [lastEnds,List.getLast?_append,Option.map_or]
  rfl

theorem lastEnds_concat (c : List Item) (x : Item) : lastEnds (c++[x]) = some x.ends := by
  rw [lastEnds_append]
  rfl

/-- What is generated ends so, whatever the counters and the records are. -/
def EndsIn (x : Gen α) (r : Option Bool) : Prop := ∀ g a c g', x g = .ok (a,c,g') → lastEnds c = r

namespace EndsIn

theorem pure (a : α) : EndsIn (pure a : Gen α) none := by
  intro g a' c g' h
  cases h
  rfl

theorem stop (e : GenStop) : EndsIn (.stop e : Gen α) r := by
  intro g a c g' h
  cases h

theorem line (x : Item) : EndsIn (llvmWrite [x]) (some x.ends) := by
  intro g a c g' h
  cases h
  rfl

theorem jump (l : ℕ) : EndsIn (genLabel l) (some false) := by
  intro g a c g' h
  cases h
  rfl

theorem bind (hx : EndsIn x r) (hf : ∀ a, EndsIn (f a) r') : EndsIn (x >>= f) (r'.or r) := by
  intro g a c g' h
  obtain ⟨a₁,c₁,g₁,_,c₂,_,h₁,h₂,heq⟩ := Gen.bind_ok h
  cases heq
  rw [lastEnds_append,hx _ _ _ _ h₁,hf _ _ _ _ _ h₂]

/-- What stands in front of the last line does not matter. -/
theorem behind (hf : ∀ a, EndsIn (f a) (some b)) : EndsIn (x >>= f) (some b) := by
  intro g a c g' h
  obtain ⟨a₁,c₁,g₁,_,c₂,_,-,h₂,heq⟩ := Gen.bind_ok h
  cases heq
  rw [lastEnds_append,hf _ _ _ _ _ h₂]
  rfl

theorem cmdCall (func : FuncHeader) (args : Gen (List (VarType × ℕ))) :
    EndsIn (genCmdCall func args) (some false) :=
  behind fun ret => behind fun _ => behind fun _ => (line _).bind fun _ => pure ret

theorem cmdVar (var : TVar) (exp : TExp) : EndsIn (genCmdVar var exp) (some false) :=
  behind fun _ => behind fun _ => behind fun _ => behind fun _ => behind fun _ => line _

theorem ret (exp : TExp) : EndsIn (genReturn (some exp)) (some true) :=
  behind fun _ => behind fun _ => line _

theorem defVarList (vars : List Decl) :
    EndsIn (genDefVarList false vars) (if vars = [] then none else some false) := by
  induction vars with
  | nil => exact pure ()
  | cons defvar vars ih =>
    have hvar : EndsIn (genDefVar false defvar) (some false) :=
      behind fun _ => behind fun _ => line _
    have h := hvar.bind fun _ => ih
    split_ifs at h with hnil <;> exact h

end EndsIn

mutual

theorem endsIn_genCmd : (cmd : TCmd) → EndsIn (genCmd cmd) cmd.last
  | .whileDo _ _ => .behind fun _ => .behind fun lBreak => .behind fun _ => .behind fun _ =>
    .behind fun _ => .behind fun _ => .jump lBreak
  | .ifThen _ _ => .behind fun lf => .behind fun _ => .behind fun _ => .behind fun _ =>
    .behind fun _ => .jump lf
  | .ifElse _ _ _ => .behind fun _ => .behind fun _ => .behind fun lAfterElse =>
    .behind fun _ => .behind fun _ => .behind fun _ => .behind fun _ => .behind fun _ =>
    .behind fun _ => .jump lAfterElse
  | .ret none => .stop .null
  | .ret (some exp) => .ret exp
  | .call func parameters => (EndsIn.cmdCall func (genArgs parameters)).bind fun _ => .pure ()
  | .block vars cmds => (EndsIn.defVarList vars).bind fun _ => endsIn_genCmdList cmds
  | .assign var exp => .cmdVar var exp

theorem endsIn_genCmdList : (cmds : TCmdList) → EndsIn (genCmdList cmds) cmds.last
  | .nil => .pure ()
  | .cons cmd next => (endsIn_genCmd cmd).bind fun _ => endsIn_genCmdList next

end

end Last

section Functions
variable {g g' : GenState} {c : List Item}

/-- What is used has been defined before, a label that is jumped to stands once, and each block that
a label follows has its end. -/
structure InOrder (c : List Item) : Prop where
  defined : DefinedFrom [] c
  labels : ∀ x ∈ c, ∀ l ∈ x.targets, (labelsOf c).count l = 1
  sealed : c.IsChain fun x y => y.label?.isSome = true → x.ends = true

/-- The line in front of the closing brace ends a block. -/
def Closed (c : List Item) : Prop := ∃ c₀ x, c = c₀++[x,.close] ∧ x.ends = true

/-- Each temporary is defined once, too, and no number that is printed comes from elsewhere. -/
structure WellFormed (c : List Item) : Prop extends InOrder c where
  once : (defsOf c).Nodup
  known : ∀ x ∈ c, x.unknown = false
  closed : Closed c

theorem genParamList_cons_ok {param : Decl} {params : List Decl} {args : List (VarType × ℕ)}
    (h : genParamList (param::params) g = .ok (args,c,g')) : ∃ n args', n = g.curTempVar+1 ∧
      args = (param.type.name,n)::args' ∧ genParamList params
        { g with curTempVar := n, slots := Function.update g.slots param ⟨n,false⟩ } =
          .ok (args',c,g') := by
  obtain ⟨arg,c₁,g₁,_,_,_,h₁,h,heq⟩ := Gen.bind_ok h
  cases heq
  obtain ⟨args',c₂,g₂,_,_,_,h₂,h₃,heq⟩ := Gen.bind_ok h
  cases heq
  cases h₃
  cases h₁
  refine ⟨_,args',rfl,rfl,?_⟩
  simpa only [List.append_nil,List.nil_append] using h₂

theorem genParamList_ok (params : List Decl) : ∀ {g g' : GenState} {c : List Item}
    {args : List (VarType × ℕ)}, genParamList params g = .ok (args,c,g') → c = [] ∧
      g.curTempVar ≤ g'.curTempVar ∧ (args.map Prod.snd).Nodup ∧
      ∀ n ∈ args.map Prod.snd, g.curTempVar < n ∧ n ≤ g'.curTempVar := by
  induction params with
  | nil =>
    intro g g' c args h
    cases h
    exact ⟨rfl,Nat.le_refl _,List.nodup_nil,List.forall_mem_nil _⟩
  | cons param params ih =>
    intro g g' c args h
    obtain ⟨n,args',hn,rfl,hargs⟩ := genParamList_cons_ok h
    obtain ⟨rfl,hle,hnodup,hrange⟩ := ih hargs
    have hlt : g.curTempVar < n := hn ▸ Nat.lt_succ_self _
    refine ⟨rfl,hlt.le.trans hle,List.nodup_cons.mpr ⟨fun hm => ?_,hnodup⟩,?_⟩
    · exact Nat.lt_irrefl _ (hrange _ hm).1
    · refine List.forall_mem_cons.mpr ⟨⟨hlt,hle⟩,fun n' hn' => ?_⟩
      exact ⟨hlt.trans (hrange n' hn').1,(hrange n' hn').2⟩

/-- The parameters are in scope when their numbers have been given out. -/
theorem ready_genParamList (params : List Param) {t : SymbolTable} (ht : Leveled t) :
    Settles (checkParamList t params) False fun r => Leveled r.1 ∧ level t ≤ level r.1 ∧
      ∀ S g args c g', Ready t g.slots S → genParamList r.2 g = .ok (args,c,g') →
        (∀ d : Decl, d.level < level t → g'.slots d = g.slots d) ∧
          Ready r.1 g'.slots (args.map Prod.snd++S) := by
  induction params generalizing t with
  | nil =>
    refine settles_pure ⟨ht,Nat.le_refl _,fun S g args c g' hready h => ?_⟩
    cases h
    exact ⟨fun _ _ => rfl,hready⟩
  | cons param params ih =>
    refine (settles_checkSymbolRedefinition param.id).bind id fun _ _ => ?_
    refine (ih (ht.addParam param)).bind id fun r hr => settles_pure ?_
    obtain ⟨hleveled,hle,hparams⟩ := hr
    have hnext : level t ≤ level (addParam t param) := by
      rw [addParam,level_addDec]
      exact Nat.le_succ _
    refine ⟨hleveled,hnext.trans hle,fun S g args c g' hready h => ?_⟩
    obtain ⟨n,args',-,rfl,hargs⟩ := genParamList_cons_ok h
    have hdeclared : Ready (addParam t param)
        (Function.update g.slots ⟨param.type,param.id,level t⟩ ⟨n,false⟩) (n::S) :=
      hready.declare ht (List.subset_cons_self n S) (.p ⟨param.type,param.id,level t⟩) rfl rfl
        ⟨n,false⟩ (.inl List.mem_cons_self)
    obtain ⟨hslots,hready'⟩ := hparams (n::S) { g with curTempVar := n, slots := _ } args' c g'
      hdeclared hargs
    refine ⟨fun d hd => ?_,hready'.mono fun n' hn' => ?_⟩
    · rw [hslots d (hd.trans_le hnext)]
      refine Function.update_of_ne ?_ ..
      rintro rfl
      exact Nat.lt_irrefl _ hd
    · simp only [List.mem_append,List.mem_cons,List.map_cons] at hn' ⊢
      tauto

theorem genDefFunc_ok {func : TFunc} {u : Unit} (h : genDefFunc func g = .ok (u,c,g')) :
    ∃ name params g₁ c₁ g₂ c₂, genParamList func.params g = .ok (params,[],g₁) ∧
      genDefVarList false func.vars g₁ = .ok ((),c₁,g₂) ∧
      genCmdList func.cmds g₂ = .ok ((),c₂,g') ∧
      c = .define name func.header.id params::(c₁++(c₂++[.close])) := by
  rw [genDefFunc] at h
  obtain ⟨name,_,_,_,_,_,hname,h,heq⟩ := Gen.bind_ok h
  cases heq
  obtain ⟨params,c₀,g₁,_,_,_,hparams,h,heq⟩ := Gen.bind_ok h
  cases heq
  obtain ⟨_,_,_,h,heq⟩ := Gen.write_ok h
  cases heq
  obtain ⟨_,c₁,g₂,_,_,_,hvars,h,heq⟩ := Gen.bind_ok h
  cases heq
  obtain ⟨_,c₂,g₃,_,_,_,hcmds,h,heq⟩ := Gen.bind_ok h
  cases heq
  cases h
  obtain ⟨rfl,-⟩ := genParamList_ok _ hparams
  cases hheader : func.header.type with
  | none =>
    rw [hheader] at hname
    cases hname
  | some type =>
    rw [hheader] at hname
    cases hname
    exact ⟨_,params,g₁,c₁,g₂,c₂,hparams,hvars,hcmds,rfl⟩

theorem Temps.header {S : List ℕ} {n m : ℕ} (hle : n ≤ m) (name : VarType) (id : String)
    {params : List (VarType × ℕ)} (hnodup : (params.map Prod.snd).Nodup)
    (hrange : ∀ t ∈ params.map Prod.snd, n < t ∧ t ≤ m) :
    Temps S [] true n [.define name id params] m where
  defined := ⟨List.nil_subset S,trivial⟩
  sealed := ⟨by simp [Item.label?],.singleton _⟩
  le := hle
  nodup _ := by rwa [defsOf_cons,defsOf,List.flatMap_nil,List.append_nil]
  range _ t ht := by
    rw [defsOf_cons,defsOf,List.flatMap_nil,List.append_nil] at ht
    exact .inr (hrange t ht)
  known _ := by simp [Item.unknown]

theorem Temps.close (S : List ℕ) (n : ℕ) : Temps S [] true n [.close] n where
  defined := ⟨List.nil_subset S,trivial⟩
  sealed := ⟨by simp [Item.label?],.singleton _⟩
  le := Nat.le_refl n
  nodup _ := List.nodup_nil
  range _ _ ht := by cases ht
  known _ := by simp [Item.unknown]

/-- The temporaries of a function, its parameters first. -/
theorem temps_genDefFunc (f : Func) {t : SymbolTable} (ht : Leveled t) :
    Settles (checkDefFunc t f) False fun r => r.1 = addDecFunc t f.header ∧
      Keeps r.1 r.1 r.2.cmds.plain (genDefFunc r.2) := by
  refine (settles_checkSymbolRedefinition f.header.id).bind id fun _ _ => ?_
  have hheader := ht.addDecFunc f.header
  refine (ready_genParamList f.header.params hheader.enterScope).bind id fun r hr => ?_
  obtain ⟨hleveled,hle,hparams⟩ := hr
  refine (keeps_defVarList f.vars hleveled.enterScope).bind id fun r' hr' => ?_
  obtain ⟨hleveled',hle',-,hvars⟩ := hr'
  refine (keeps_genCmdList f.header hleveled' f.cmds).bind id fun cmds hcmds => ?_
  refine settles_pure ⟨rfl,fun S g u c g' hready h => ?_⟩
  obtain ⟨name,params,g₁,c₁,g₂,c₂,h₁,h₂,h₃,rfl⟩ := genDefFunc_ok h
  obtain ⟨-,hlt,hnodup,hrange⟩ := genParamList_ok _ h₁
  obtain ⟨hslots₁,hready₁⟩ := hparams S g params [] g₁ hready h₁
  obtain ⟨hslots₂,ht₂,hready₂⟩ := hvars _ g₁ () c₁ g₂ hready₁ h₂
  obtain ⟨hslots₃,ht₃,-⟩ := hcmds _ g₂ () c₂ g' hready₂ h₃
  have hdefs : defsOf [.define name f.header.id params] = params.map Prod.snd :=
    (defsOf_cons _ []).trans (List.append_nil _)
  have hhead : Temps S [] true g.curTempVar [.define name f.header.id params] g₁.curTempVar :=
    .header hlt name f.header.id hnodup hrange
  rw [← hdefs] at ht₂ ht₃
  have htemps := hhead.concat (ht₂.concat (ht₃.concat (.close _ g'.curTempVar)))
  have hslots (d : Decl) (hd : d.level < level (addDecFunc t f.header)) :
      g'.slots d = g.slots d :=
    ((hslots₃ d (hd.trans_le (hle.trans hle'))).trans (hslots₂ d (hd.trans_le hle))).trans
      (hslots₁ d hd)
  refine ⟨hslots,htemps.weaken ?_,(hready.of_slots hheader hslots).mono
    (List.subset_append_right _ S)⟩
  simp

theorem closed_iff (c : List Item) :
    Closed (c++[.close]) ↔ lastEnds c = some true := by
  constructor
  · rintro ⟨c₀,x,heq,hx⟩
    have hc : c = c₀++[x] := List.append_cancel_right (heq.trans (List.append_assoc c₀ [x] _).symm)
    rw [hc,lastEnds_concat,hx]
  · intro h
    obtain ⟨x,hlast,hx⟩ := Option.map_eq_some_iff.mp h
    obtain ⟨c₀,rfl⟩ := List.getLast?_eq_some_iff.mp hlast
    exact ⟨c₀,x,List.append_assoc ..,hx⟩

theorem closed_genDefFunc {func : TFunc} {u : Unit} (h : genDefFunc func g = .ok (u,c,g')) :
    Closed c ↔ func.returns = true := by
  obtain ⟨name,params,g₁,c₁,g₂,c₂,-,h₂,h₃,rfl⟩ := genDefFunc_ok h
  have hvars := EndsIn.defVarList func.vars _ _ _ _ h₂
  have hcmds := endsIn_genCmdList func.cmds _ _ _ _ h₃
  rw [← List.append_assoc,← List.cons_append,closed_iff,← List.singleton_append,lastEnds_append,
    lastEnds_append,hvars,hcmds,TFunc.returns,beq_iff_eq]
  cases func.cmds.last with
  | some b => rfl
  | none =>
    split_ifs <;> simp [lastEnds,Item.ends]

theorem labels_genDefFunc {func : TFunc} {u : Unit} (h : genDefFunc func g = .ok (u,c,g')) :
    ∀ x ∈ c, ∀ l ∈ x.targets, (labelsOf c).count l = 1 := by
  have hparam (param : Decl) : Orderly ∅ Set.univ (genParam param) :=
    (Orderly.nextTempVar ∅).bind fun _ => (Orderly.setSlot ∅ (Set.mem_univ _) _).bind fun _ =>
      .pure ∅ _
  have hparams (params : List Decl) : Orderly ∅ Set.univ (genParamList params) := by
    induction params with
    | nil => exact .pure ∅ []
    | cons param params ih => exact (hparam param).bind fun _ => ih.bind fun _ => .pure ∅ _
  have hfunc : Orderly ∅ Set.univ (genDefFunc func) :=
    (Orderly.name ∅ _).bind fun _ => (hparams _).bind fun _ =>
      (Orderly.write (by simp [Item.label?]) (by simp [Item.targets])).bind fun _ =>
      (Orderly.defVarList ∅ false fun _ _ => Set.mem_univ _).bind fun _ =>
      (orderly_genCmdList func.cmds (fun _ _ => Set.mem_univ _) ∅).bind fun _ =>
      Orderly.write (by simp [Item.label?]) (by simp [Item.targets])
  have hfresh := (hfunc _ _ _ _ h).fresh
  intro x hx l hl
  exact List.count_eq_one_of_mem hfresh.nodup
    ((hfresh.targets x hx l hl).resolve_right (Set.notMem_empty l))

/-- The generator comes to the function `func`, and prints the lines `c` for it. -/
def Prints (ttree : List TDefinition) (g : GenState) (func : TFunc) (c : List Item) : Prop :=
  ∃ before behind c₀ g₁ g₂, ttree = before++.deffunc func::behind ∧
    (createLLVM before).run g = .ok ((),c₀,g₁) ∧ (genDefFunc func).run g₁ = .ok ((),c,g₂)

theorem Prints.cases {definition : TDefinition} {ttree : List TDefinition} {func : TFunc}
    (h : Prints (definition::ttree) g func c) :
    (∃ g', definition = .deffunc func ∧ genDefFunc func g = .ok ((),c,g')) ∨
      ∃ c₀ g₁, genDefinition definition g = .ok ((),c₀,g₁) ∧ Prints ttree g₁ func c := by
  obtain ⟨before,behind,c₀,g₁,g₂,heq,hbefore,hfunc⟩ := h
  cases before with
  | nil =>
    cases heq
    cases hbefore
    exact .inl ⟨g₂,rfl,hfunc⟩
  | cons first before =>
    cases heq
    obtain ⟨_,c₁,g₃,_,c₂,g₄,h₁,h₂,heq⟩ := Gen.bind_ok hbefore
    cases heq
    exact .inr ⟨c₁,g₃,h₁,before,behind,c₂,_,g₂,rfl,h₂,hfunc⟩

/-- What is said of a function that is printed. -/
structure Printed (func : TFunc) (c : List Item) : Prop where
  inOrder : InOrder c
  closed_iff : Closed c ↔ func.returns = true
  wellFormed : func.cmds.plain = true → func.returns = true → WellFormed c

theorem printed_genDefFunc {t : SymbolTable} {func : TFunc} {u : Unit} (hready : Ready t g.slots [])
    (hfunc : Keeps t t func.cmds.plain (genDefFunc func))
    (h : genDefFunc func g = .ok (u,c,g')) : Printed func c := by
  obtain ⟨-,htemps,-⟩ := hfunc [] g u c g' hready h
  have hclosed := closed_genDefFunc h
  have horder : InOrder c := ⟨htemps.defined,labels_genDefFunc h,htemps.sealed.2⟩
  exact ⟨horder,hclosed,fun hplain hreturns =>
    ⟨horder,htemps.nodup hplain,htemps.known hplain,hclosed.mpr hreturns⟩⟩

theorem ready_genDefVarList (vars : List DefVar) {t : SymbolTable} (ht : Leveled t) :
    Settles (checkDefVarList t vars) False fun r => Leveled r.1 ∧
      ∀ g u c g', Ready t g.slots [] → genDefVarList true r.2 g = .ok (u,c,g') →
        Ready r.1 g'.slots [] := by
  induction vars generalizing t with
  | nil =>
    refine settles_pure ⟨ht,fun g u c g' hready h => ?_⟩
    cases h
    exact hready
  | cons v vars ih =>
    refine (settles_checkSymbolRedefinition v.id).bind id fun _ _ => ?_
    refine (ih (ht.addDecVar v)).bind id fun r hr => settles_pure ⟨hr.1,fun g u c g' hready h => ?_⟩
    obtain ⟨_,c₁,g₁,_,c₂,_,h₁,h₂,heq⟩ := Gen.bind_ok h
    cases heq
    cases h₁
    refine hr.2 _ () c₂ g' ?_ h₂
    exact hready.declare ht (List.nil_subset []) (.v ⟨v.type,v.id,level t⟩) rfl rfl
      ⟨g.curTempVar+1,true⟩ (.inr ⟨rfl,rfl⟩)

theorem Ready.addDecFunc {t : SymbolTable} {slots : Decl → Slot} {S : List ℕ}
    (h : Ready t slots S) (f : FuncHeader) : Ready (addDecFunc t f) slots S := by
  intro v hv
  obtain ⟨dec,hmem,hdec⟩ := mem_variablesOf.mp hv
  obtain hmem | rfl := mem_addDec.mp hmem
  · exact h v (mem_variablesOf.mpr ⟨dec,hmem,hdec⟩)
  · cases hdec

/-- The global variables in scope can still be read behind a definition. -/
theorem printed_of_checkDefinition (definition : Definition) {t : SymbolTable} (ht : Leveled t) :
    Settles (checkDefinition t definition) False fun r => Leveled r.1 ∧
      ∀ g u c g', Ready t g.slots [] → genDefinition r.2 g = .ok (u,c,g') →
        Ready r.1 g'.slots [] ∧ ∀ func, r.2 = .deffunc func → Printed func c := by
  cases definition with
  | defvar vars =>
    refine (ready_genDefVarList vars ht).bind id fun r hr => settles_pure ⟨hr.1,?_⟩
    intro g u c g' hready h
    refine ⟨hr.2 g u c g' hready h,fun func heq => ?_⟩
    cases heq
  | deffunc f =>
    refine (temps_genDefFunc f ht).bind id fun r hr => settles_pure ?_
    obtain ⟨inner,func⟩ := r
    obtain ⟨rfl,hfunc⟩ := hr
    have hheader := ht.addDecFunc f.header
    refine ⟨hheader,fun g u c g' hready h => ?_⟩
    have hready := hready.addDecFunc f.header
    refine ⟨hready.of_slots hheader (hfunc [] g u c g' hready h).1,fun func heq => ?_⟩
    cases heq
    exact printed_genDefFunc hready hfunc h

theorem printed_of_checkDefinitions (tree : List Definition) {t : SymbolTable} (ht : Leveled t) :
    Settles (checkDefinitions t tree) False fun ttree => ∀ g func c, Ready t g.slots [] →
      Prints ttree g func c → Printed func c := by
  induction tree generalizing t with
  | nil =>
    refine settles_pure fun g func c _ h => ?_
    obtain ⟨before,behind,_,_,_,heq,-⟩ := h
    cases before <;> cases heq
  | cons definition tree ih =>
    refine (printed_of_checkDefinition definition ht).bind id fun r hr => ?_
    refine (ih hr.1).bind id fun ttree httree => settles_pure fun g func c hready h => ?_
    obtain ⟨g',heq,hfunc⟩ | ⟨c₀,g₁,hfirst,hnext⟩ := h.cases
    · have hgen : genDefinition r.2 g = .ok ((),c,g') := heq ▸ hfunc
      exact (hr.2 g () c g' hready hgen).2 func heq
    · exact httree g₁ func c (hr.2 g () c₀ g₁ hready hfirst).1 hnext

/-- What is printed for a function of a checked program is well formed where its commands are plain
and it returns; its last block is closed exactly where it returns; and it is always in order. -/
theorem wellFormed_of_prints {tree : List Definition} {ttree : List TDefinition}
    (h : typeCheck tree = .ok ttree) {g : GenState} {func : TFunc} {c : List Item}
    (hc : Prints ttree g func c) :
    (func.cmds.plain = true ∧ func.returns = true → WellFormed c) ∧
      (Closed c ↔ func.returns = true) ∧ InOrder c := by
  have hcheck : Settles (typeCheck tree) False fun ttree => ∀ g func c, Ready [[]] g.slots [] →
      Prints ttree g func c → Printed func c := printed_of_checkDefinitions tree .start
  rw [h] at hcheck
  have hprinted : Printed func c := hcheck g func c (List.forall_mem_nil _) hc
  exact ⟨fun hp => hprinted.wellFormed hp.1 hp.2,hprinted.closed_iff,hprinted.inOrder⟩

end Functions

section Programs

theorem exists_prints {func : TFunc} {g : GenState}
    (h : ((genDefFunc func).run g).isOk = true) : ∃ c g',
      genDefFunc func g = .ok ((),c,g') ∧ Prints [.deffunc func] g func c := by
  cases hfunc : (genDefFunc func).run g with
  | error e =>
    rw [hfunc] at h
    cases h
  | ok r => exact ⟨r.2.1,r.2.2,hfunc,[],[],[],g,r.2.2,rfl,rfl,hfunc⟩

def intType : MType := ⟨.VarInt,0⟩

/-- The variable `a`, behind the function. -/
def firstVar : Decl := ⟨⟨.VarInt,0⟩,"a",1⟩

/-- int f() { int a; a = 0; while (a < 10) a = f(); return a; } -/
def plainProgram : List Definition :=
  [.deffunc ⟨⟨some ⟨.VarInt,0⟩,"f",[]⟩,[⟨⟨.VarInt,0⟩,"a"⟩],
    .cons (.assign (.id "a") (.int 0))
    (.cons (.whileDo (.bin .ExpLess (.var (.id "a")) (.int 10))
      (.assign (.id "a") (.call "f" .nil)))
    (.cons (.ret (some (.var (.id "a")))) .nil))⟩]

def plainFunction : TFunc :=
  ⟨⟨some ⟨.VarInt,0⟩,"f",[]⟩,[],[firstVar],
    .cons (.assign (.id .VarDec firstVar) (.int 0))
    (.cons (.whileDo (.bin intType .ExpLess (.var intType (.id .VarDec firstVar)) (.int 10))
      (.assign (.id .VarDec firstVar) (.call ⟨some ⟨.VarInt,0⟩,"f",[]⟩ .nil)))
    (.cons (.ret (some (.var intType (.id .VarDec firstVar)))) .nil))⟩

theorem wellFormed_of_prints_plain : ∃ ttree func c, typeCheck plainProgram = .ok ttree ∧
    Prints ttree start func c ∧ WellFormed c := by
  have h : typeCheck plainProgram = .ok [.deffunc plainFunction] := rfl
  obtain ⟨c,_,-,hc⟩ : ∃ c g', genDefFunc plainFunction start = .ok ((),c,g') ∧
      Prints [.deffunc plainFunction] start plainFunction c := exists_prints (by decide +kernel)
  exact ⟨_,_,c,h,hc,(wellFormed_of_prints h hc).1 ⟨rfl,rfl⟩⟩

/-- int f() { int a; a = 1 < 2; return a; } -/
def truthProgram : List Definition :=
  [.deffunc ⟨⟨some ⟨.VarInt,0⟩,"f",[]⟩,[⟨⟨.VarInt,0⟩,"a"⟩],
    .cons (.assign (.id "a") (.bin .ExpLess (.int 1) (.int 2)))
    (.cons (.ret (some (.var (.id "a")))) .nil)⟩]

def truthFunction : TFunc :=
  ⟨⟨some ⟨.VarInt,0⟩,"f",[]⟩,[],[firstVar],
    .cons (.assign (.id .VarDec firstVar) (.bin intType .ExpLess (.int 1) (.int 2)))
    (.cons (.ret (some (.var intType (.id .VarDec firstVar)))) .nil)⟩

/-- int f() { int a; a = 1; } -/
def openProgram : List Definition :=
  [.deffunc ⟨⟨some ⟨.VarInt,0⟩,"f",[]⟩,[⟨⟨.VarInt,0⟩,"a"⟩],
    .cons (.assign (.id "a") (.int 1)) .nil⟩]

def openFunction : TFunc :=
  ⟨⟨some ⟨.VarInt,0⟩,"f",[]⟩,[],[firstVar],.cons (.assign (.id .VarDec firstVar) (.int 1)) .nil⟩

/-- The numbers 4 and 5 are given out twice; and a function ends without a `return`. -/
theorem not_wellFormed_accepted :
    (∃ ttree func c, typeCheck truthProgram = .ok ttree ∧ Prints ttree start func c ∧
      ¬(defsOf c).Nodup) ∧
    ∃ ttree func c, typeCheck openProgram = .ok ttree ∧ Prints ttree start func c ∧ ¬Closed c := by
  constructor
  · have hdefs : ((genDefFunc truthFunction).run start).toOption.map (fun r => defsOf r.2.1) =
        some [1,3,4,5,4,5,2,6] := by decide +kernel
    obtain ⟨c,g',hfunc,hc⟩ : ∃ c g', genDefFunc truthFunction start = .ok ((),c,g') ∧
        Prints [.deffunc truthFunction] start truthFunction c := exists_prints (by decide +kernel)
    refine ⟨_,_,c,(rfl : typeCheck truthProgram = .ok [.deffunc truthFunction]),hc,?_⟩
    rw [Gen.run,hfunc] at hdefs
    have hc : defsOf c = [1,3,4,5,4,5,2,6] := Option.some.inj hdefs
    rw [hc]
    decide
  · obtain ⟨c,g',hfunc,hc⟩ : ∃ c g', genDefFunc openFunction start = .ok ((),c,g') ∧
        Prints [.deffunc openFunction] start openFunction c := exists_prints (by decide +kernel)
    refine ⟨_,_,c,(rfl : typeCheck openProgram = .ok [.deffunc openFunction]),hc,?_⟩
    rw [closed_genDefFunc hfunc]
    decide

end Programs
end PucRio.Monga
