import PucRio.Monga.Forms
import PucRio.Monga.Llvm
import PucRio.Lib.PartialRun

/-! The code generator comes to its end just for the trees that there is code for. -/
namespace PucRio.Monga

section Completes
variable {α β : Type} {x : Gen α} {f : α → Gen β} {b b' : Bool}

/-- The part runs to its end just if `b` is true. -/
def Completes (x : Gen α) (b : Bool) : Prop := ∀ g, (x g).isOk = b

namespace Completes

theorem congr (h : Completes x b) (hb : b = b') : Completes x b' := hb ▸ h

theorem pure (a : α) : Completes (pure a : Gen α) true := fun _ => rfl

theorem stop (e : GenStop) : Completes (.stop e : Gen α) false := fun _ => rfl

theorem nextTempVar : Completes getNextTempVar true := fun _ => rfl

theorem nextTempLabel : Completes getNextTempLabel true := fun _ => rfl

theorem write (c : List Item) : Completes (llvmWrite c) true := fun _ => rfl

theorem slot (decl : Decl) : Completes (getSlot decl) true := fun _ => rfl

theorem setSlot (decl : Decl) (s : Slot) : Completes (setSlot decl s) true := fun _ => rfl

theorem name (type : Option MType) : Completes (typeName type) type.isSome := by
  cases type with
  | none => exact stop .null
  | some type => exact pure type.name

theorem bind (hx : Completes x b) (hf : ∀ a, Completes (f a) b') :
    Completes (x >>= f) (b && b') := by
  intro g
  have hxg := hx g
  change (x g >>= fun r => f r.1 r.2.2 >>= fun r' =>
    Except.ok (r'.1,r.2.1++r'.2.1,r'.2.2)).isOk = _
  cases h : x g with
  | error e =>
    rw [h] at hxg
    rw [← hxg]
    rfl
  | ok r =>
    rw [h] at hxg
    have hfr := hf r.1 r.2.2
    rw [← hxg,except_ok_bind]
    cases h' : f r.1 r.2.2 with
    | error e =>
      rw [h'] at hfr
      rw [← hfr]
      rfl
    | ok r' =>
      rw [h'] at hfr
      rw [← hfr]
      rfl

end Completes
end Completes

section Values
variable {e1 e2 : Gen ℕ} {b1 b2 b : Bool} {type type1 : Option MType}

namespace Completes

theorem arith (h1 : Completes e1 b1) (h2 : Completes e2 b2) (htype : type1.isSome = true)
    (tag : BinExp) : Completes (genArith tag type1 e1 e2) (b1 && b2) := by
  refine congr (h1.bind fun _ => h2.bind fun _ => nextTempVar.bind fun ret =>
    (name type1).bind fun _ => (write _).bind fun _ => pure ret) ?_
  rw [htype]
  simp

theorem truth {cond : ℕ → ℕ → Gen Unit} (h : ∀ lt lf, Completes (cond lt lf) b)
    (htype : b = true → type.isSome = true) : Completes (genTruth type cond) b := by
  refine congr (nextTempLabel.bind fun lt => nextTempLabel.bind fun lf =>
    nextTempLabel.bind fun _ => nextTempVar.bind fun ret => nextTempLabel.bind fun _ =>
    nextTempLabel.bind fun _ => (name type).bind fun _ => (h lt lf).bind fun _ =>
    (write _).bind fun _ => (write _).bind fun _ => (write _).bind fun _ => (write _).bind fun _ =>
    (write _).bind fun _ => (write _).bind fun _ => pure ret) ?_
  cases b with
  | false => simp
  | true => simp [htype rfl]

theorem expVar (type : MType) (var : TVar) :
    Completes (genExpVar var) (TExp.var type var).hasValue := by
  cases var with
  | id decTag decl =>
    cases decTag with
    | VarDec =>
      exact nextTempVar.bind fun ret => (slot decl).bind fun _ => (write _).bind fun _ => pure ret
    | VarParam => exact nextTempVar.bind fun _ => (slot decl).bind fun s => pure s.varNumber
  | indexed e1 e2 => exact nextTempVar.bind fun _ => stop .wild

theorem cmdCall {args : Gen (List (VarType × ℕ))} (h : Completes args b) (func : FuncHeader) :
    Completes (genCmdCall func args) (func.type.isSome && b) := by
  refine congr (nextTempVar.bind fun ret => h.bind fun _ =>
    (name (func.type.map DeclType.toType)).bind fun _ => (write _).bind fun _ => pure ret) ?_
  rw [Option.isSome_map]
  simp [Bool.and_comm]

theorem minus (h : Completes e1 b) (htype : b = true → type.isSome = true)
    (htype1 : b = true → type1.isSome = true) : Completes (genMinus type type1 e1) b := by
  refine congr (h.bind fun _ => nextTempVar.bind fun ret => (name type).bind fun _ =>
    (name type1).bind fun _ => (write _).bind fun _ => pure ret) ?_
  cases b with
  | false => simp
  | true => simp [htype rfl,htype1 rfl]

theorem new (type : MType) (size : TExp) : Completes (genNew type size) size.isLiteral := by
  cases size with
  | int l => exact nextTempVar.bind fun ret => (write _).bind fun _ => pure ret
  | _ => exact nextTempVar.bind fun _ => stop .newNotConstant

theorem string (c : String) : Completes (genString c) true :=
  nextTempVar.bind fun _ => nextTempVar.bind fun ret => (write _).bind fun _ => pure ret

theorem int (l : ℤ) : Completes (genInt l) true :=
  nextTempVar.bind fun ret => (write _).bind fun _ => pure ret

theorem float (d : BitVec 64) : Completes (genFloat d) true :=
  nextTempVar.bind fun ret => (write _).bind fun _ => pure ret

theorem cast (h : Completes e1 b) : Completes (genCast e1) b := by
  refine congr (h.bind fun _ => nextTempVar.bind fun ret => (write _).bind fun _ => pure ret) ?_
  simp

end Completes
end Values

section Jumps
variable {e1 e2 : ℕ → ℕ → Gen Unit} {v1 v2 : Gen ℕ} {b1 b2 : Bool} {type type1 : Option MType}

namespace Completes

theorem condOr (h1 : ∀ lt lf, Completes (e1 lt lf) b1) (h2 : ∀ lt lf, Completes (e2 lt lf) b2)
    (lt lf : ℕ) : Completes (genCondOr e1 e2 lt lf) (b1 && b2) := by
  refine congr (nextTempLabel.bind fun nl => (h1 lt nl).bind fun _ => (write _).bind fun _ =>
    h2 lt lf) ?_
  simp

theorem condAnd (h1 : ∀ lt lf, Completes (e1 lt lf) b1) (h2 : ∀ lt lf, Completes (e2 lt lf) b2)
    (lt lf : ℕ) : Completes (genCondAnd e1 e2 lt lf) (b1 && b2) := by
  refine congr (nextTempLabel.bind fun nl => (h1 nl lf).bind fun _ => (write _).bind fun _ =>
    h2 lt lf) ?_
  simp

theorem condComp (h1 : Completes v1 b1) (h2 : Completes v2 b2) (htype : type1.isSome = true)
    (opcode : Opcode) (lt lf : ℕ) :
    Completes (genCondComp type1 v1 v2 opcode lt lf) (b1 && b2) := by
  refine congr (h1.bind fun _ => h2.bind fun _ => nextTempVar.bind fun _ =>
    (name type1).bind fun _ => write _) ?_
  rw [htype]
  simp

theorem condOrder (h1 : Completes v1 b1) (h2 : Completes v2 b2) (htype : type.isSome = true)
    (htype1 : type1.isSome = true) (float int : Opcode) (lt lf : ℕ) :
    Completes (genCondOrder type type1 v1 v2 float int lt lf) (b1 && b2) := by
  refine congr ((name type).bind fun _ => condComp h1 h2 htype1 _ lt lf) ?_
  rw [htype,Bool.true_and]

theorem condEqual (h1 : Completes v1 b1) (h2 : Completes v2 b2) (htype : type1.isSome = true)
    (lt lf : ℕ) : Completes (genCondEqual type1 v1 v2 lt lf) (b1 && b2) := by
  refine congr (h1.bind fun _ => h2.bind fun _ => nextTempVar.bind fun _ =>
    (name type1).bind fun _ => write _) ?_
  rw [htype]
  simp

theorem condTest (h : Completes v1 b1) (htype : b1 = true → type.isSome = true) (zero : String)
    (lt lf : ℕ) : Completes (genCondTest v1 type zero lt lf) b1 := by
  refine congr (h.bind fun _ => nextTempVar.bind fun _ => (name type).bind fun _ => write _) ?_
  cases b1 with
  | false => simp
  | true => simp [htype rfl]

end Completes
end Jumps

section Expressions

theorem completes_genCondBin {type : Option MType} {tag : BinExp} {e1 e2 : TExp}
    (h1 : Completes (gens e1).exp e1.hasValue ∧
      ∀ lt lf, Completes ((gens e1).cond lt lf) e1.hasJumps)
    (h2 : Completes (gens e2).exp e2.hasValue ∧
      ∀ lt lf, Completes ((gens e2).cond lt lf) e2.hasJumps)
    (htype : type.isSome = true) (htype1 : e1.type.isSome = true) (lt lf : ℕ) :
    Completes (genCondBin type tag e1.type (gens e1) (gens e2) lt lf)
      (TExp.bin type tag e1 e2).hasJumps := by
  cases tag with
  | ExpOr => exact .condOr h1.2 h2.2 lt lf
  | ExpAnd => exact .condAnd h1.2 h2.2 lt lf
  | ExpLess => exact .condOrder h1.1 h2.1 htype htype1 _ _ lt lf
  | ExpLessEqual => exact .condOrder h1.1 h2.1 htype htype1 _ _ lt lf
  | ExpGreater => exact .condOrder h1.1 h2.1 htype htype1 _ _ lt lf
  | ExpGreaterEqual => exact .condOrder h1.1 h2.1 htype htype1 _ _ lt lf
  | ExpEqual => exact .condEqual h1.1 h2.1 htype1 lt lf
  | _ => exact .stop .invalidTag

theorem completes_genBin {type : Option MType} {tag : BinExp} {e1 e2 : TExp}
    (h1 : Completes (gens e1).exp e1.hasValue ∧
      ∀ lt lf, Completes ((gens e1).cond lt lf) e1.hasJumps)
    (h2 : Completes (gens e2).exp e2.hasValue ∧
      ∀ lt lf, Completes ((gens e2).cond lt lf) e2.hasJumps)
    (htype : type.isSome = true) (htype1 : e1.type.isSome = true) :
    Completes (genBin type tag e1.type (gens e1) (gens e2)) (TExp.bin type tag e1 e2).hasValue := by
  have hcond : ∀ lt lf, Completes (genCondBin type tag e1.type (gens e1) (gens e2) lt lf)
      (TExp.bin type tag e1 e2).hasJumps := completes_genCondBin h1 h2 htype htype1
  cases tag with
  | ExpAdd => exact .arith h1.1 h2.1 htype1 _
  | ExpSub => exact .arith h1.1 h2.1 htype1 _
  | ExpMul => exact .arith h1.1 h2.1 htype1 _
  | ExpDiv => exact .arith h1.1 h2.1 htype1 _
  | _ => exact .truth hcond fun _ => htype

mutual

theorem completes_gens : (e : TExp) → e.Typed → Completes (gens e).exp e.hasValue ∧
    ∀ lt lf, Completes ((gens e).cond lt lf) e.hasJumps
  | .bin type tag e1 e2,h => by
    have h1 := completes_gens e1 h.1
    have h2 := completes_gens e2 h.2.1
    have htype := Option.isSome_iff_ne_none.mpr h.2.2.1
    have htype1 := Option.isSome_iff_ne_none.mpr h.2.2.2
    exact ⟨completes_genBin h1 h2 htype htype1,completes_genCondBin h1 h2 htype htype1⟩
  | .var type var,_ => ⟨.expVar type var,fun _ _ => .stop .invalidTag⟩
  | .call func parameters,h => by
    have hcall := (completes_genArgs parameters h).cmdCall func
    refine ⟨hcall,.condTest hcall (fun hb => ?_) "0"⟩
    rw [Option.isSome_map]
    exact ((Bool.and_eq_true _ _).mp hb).1
  | .not type un,h => by
    have hun := completes_gens un h.1
    refine ⟨.truth (fun lt lf => hun.2 lf lt) fun hb => ?_,fun lt lf => hun.2 lf lt⟩
    rw [h.2]
    exact TExp.Typed.type_of_hasJumps un h.1 hb
  | .minus type un,h => by
    have htype (hb : un.hasValue = true) := TExp.Typed.type_of_hasValue un h.1 hb
    refine ⟨(completes_gens un h.1).1.minus ?_ htype,fun _ _ => .stop .invalidTag⟩
    rw [h.2]
    exact htype
  | .new type exp,_ => ⟨.new type exp,fun _ _ => .stop .invalidTag⟩
  | .string c,_ => ⟨.string c,fun _ _ => .stop .invalidTag⟩
  | .int l,_ => ⟨.int l,.condTest (.int l) (fun _ => rfl) "0"⟩
  | .float d,_ => ⟨.float d,.condTest (.float d) (fun _ => rfl) "0.0"⟩
  | .castIntToFloat un,h => ⟨(completes_gens un h).1.cast,fun _ _ => .stop .invalidTag⟩

theorem completes_genArgs : (args : TExpList) → args.Typed →
    Completes (genArgs args) args.hasValues
  | .nil,_ => .pure []
  | .cons exp next,h => by
    refine ((completes_gens exp h.1).1.bind fun arg => (Completes.name exp.type).bind fun name =>
      (completes_genArgs next h.2.2).bind fun args => .pure ((name,arg)::args)).congr ?_
    rw [Option.isSome_iff_ne_none.mpr h.2.1,TExpList.hasValues]
    simp

end

theorem completes_genExp {e : TExp} (h : e.Typed) : Completes (genExp e) e.hasValue :=
  (completes_gens e h).1

theorem completes_genCond {e : TExp} (h : e.Typed) (lt lf : ℕ) :
    Completes (genCond e lt lf) e.hasJumps := (completes_gens e h).2 lt lf

end Expressions

section Commands

namespace Completes

theorem newPtr (exp : TExp) (t : ℕ) : Completes (genNewPtr exp t) true := by
  cases exp with
  | new type size =>
    cases size with
    | int l =>
      exact nextTempVar.bind fun _ => (write _).bind fun _ => nextTempVar.bind fun ret =>
        (name (some type)).bind fun _ => (write _).bind fun _ => pure ret
    | _ => exact pure t
  | _ => exact pure t

theorem nameInt (type : Option MType) :
    Completes (typeName type >>= fun name => if name ≠ .VarInt then .stop .indexNotInt
      else Pure.pure ()) (type.map MType.name == some .VarInt) := by
  cases type with
  | none => exact fun _ => rfl
  | some type =>
    obtain ⟨name,brackets⟩ := type
    cases name <;> exact fun _ => rfl

theorem index {var : TVar} (h : var.Typed) : Completes (genIndex var) var.hasPlace := by
  cases var with
  | id decTag decl => exact pure ()
  | indexed e1 e2 => exact (completes_genExp h).bind fun _ => nameInt e2.type

theorem var (v : TVar) : Completes (genVar v) true := by
  cases v with
  | id decTag decl =>
    cases decTag with
    | VarDec => exact (slot decl).bind fun _ => pure _
    | VarParam => exact pure Place.garbage
  | indexed e1 e2 => exact pure Place.garbage

theorem cmdVar {v : TVar} {exp : TExp} (hv : v.Typed) (h : exp.Typed) (htype : exp.type ≠ none) :
    Completes (genCmdVar v exp) (exp.hasValue && v.hasPlace) := by
  refine congr ((completes_genExp h).bind fun t => (newPtr exp t).bind fun _ =>
    (index hv).bind fun _ => (name exp.type).bind fun _ => (var v).bind fun _ => write _) ?_
  rw [Option.isSome_iff_ne_none.mpr htype]
  simp

theorem ret {exp : TExp} (h : exp.Typed) : Completes (genReturn (some exp)) exp.hasValue := by
  refine congr ((completes_genExp h).bind fun _ => (name exp.type).bind fun _ => write _) ?_
  cases hv : exp.hasValue with
  | false => rfl
  | true =>
    rw [TExp.Typed.type_of_hasValue exp h hv]
    rfl

theorem defVarList (isGlobal : Bool) (vars : List Decl) :
    Completes (genDefVarList isGlobal vars) true := by
  induction vars with
  | nil => exact pure ()
  | cons defvar vars ih =>
    have hvar : Completes (genDefVar isGlobal defvar) true :=
      nextTempVar.bind fun _ => (setSlot _ _).bind fun _ => write _
    exact hvar.bind fun _ => ih

theorem paramList (params : List Decl) : Completes (genParamList params) true := by
  induction params with
  | nil => exact pure []
  | cons param params ih =>
    have hparam : Completes (genParam param) true :=
      nextTempVar.bind fun _ => (setSlot _ _).bind fun _ => pure _
    exact hparam.bind fun _ => ih.bind fun _ => pure _

end Completes

mutual

theorem completes_genCmd : (cmd : TCmd) → cmd.Typed → Completes (genCmd cmd) cmd.hasCode
  | .whileDo e cmd,h => by
    refine (Completes.nextTempLabel.bind fun lWhile => Completes.nextTempLabel.bind fun lBreak =>
      (completes_genCond h.1 lWhile lBreak).bind fun _ => (Completes.write _).bind fun _ =>
      (completes_genCmd cmd h.2).bind fun _ => (completes_genCond h.1 lWhile lBreak).bind fun _ =>
        Completes.write _).congr ?_
    rw [TCmd.hasCode]
    cases e.hasJumps <;> simp
  | .ifThen e cmd,h => by
    refine (Completes.nextTempLabel.bind fun lf => Completes.nextTempLabel.bind fun lt =>
      (completes_genCond h.1 lt lf).bind fun _ => (Completes.write _).bind fun _ =>
      (completes_genCmd cmd h.2).bind fun _ => Completes.write _).congr ?_
    rw [TCmd.hasCode]
    simp
  | .ifElse e c1 c2,h => by
    refine (Completes.nextTempLabel.bind fun lt => Completes.nextTempLabel.bind fun lf =>
      Completes.nextTempLabel.bind fun _ => (completes_genCond h.1 lt lf).bind fun _ =>
      (Completes.write _).bind fun _ => (completes_genCmd c1 h.2.1).bind fun _ =>
      (Completes.write _).bind fun _ => (Completes.write _).bind fun _ =>
      (completes_genCmd c2 h.2.2).bind fun _ => Completes.write _).congr ?_
    rw [TCmd.hasCode]
    simp [Bool.and_assoc]
  | .ret none,_ => .stop .null
  | .ret (some exp),h => .ret h
  | .call func parameters,h =>
    ((completes_genArgs parameters h).cmdCall func |>.bind fun _ => .pure ()).congr
      (Bool.and_true _)
  | .block vars cmds,h =>
    (Completes.defVarList false vars).bind fun _ => completes_genCmdList cmds h
  | .assign _ _,h => .cmdVar h.1 h.2.1 h.2.2

theorem completes_genCmdList : (cmds : TCmdList) → cmds.Typed →
    Completes (genCmdList cmds) cmds.hasCode
  | .nil,_ => .pure ()
  | .cons cmd next,h => (completes_genCmd cmd h.1).bind fun _ => completes_genCmdList next h.2

end

theorem completes_genDefinition {definition : TDefinition} (h : definition.Typed) :
    Completes (genDefinition definition) definition.hasCode := by
  cases definition with
  | defvar vars => exact .defVarList true vars
  | deffunc func =>
    refine ((Completes.name (func.header.type.map DeclType.toType)).bind fun _ =>
      (Completes.paramList func.params).bind fun _ => (Completes.write _).bind fun _ =>
      (Completes.defVarList false func.vars).bind fun _ => (completes_genCmdList func.cmds h).bind
        fun _ => Completes.write _).congr ?_
    rw [Option.isSome_map,TDefinition.hasCode,TFunc.hasCode]
    simp

theorem completes_createLLVM {ttree : List TDefinition}
    (h : ∀ definition ∈ ttree, definition.Typed) :
    Completes (createLLVM ttree) (ttree.all TDefinition.hasCode) := by
  induction ttree with
  | nil => exact .pure ()
  | cons definition ttree ih =>
    obtain ⟨hd,ht⟩ := List.forall_mem_cons.mp h
    exact (completes_genDefinition hd).bind fun _ => ih ht

end Commands

/-- For a checked program the generator comes to its end just if it has code for everything in
it. -/
theorem completes_iff_hasCode {tree : List Definition} {ttree : List TDefinition}
    (h : typeCheck tree = .ok ttree) (g : GenState) :
    (∃ c g', (createLLVM ttree).run g = .ok ((),c,g')) ↔
      ∀ definition ∈ ttree, definition.hasCode = true := by
  have hcode := completes_createLLVM (typed_of_typeCheck h) g
  rw [← List.all_eq_true,← hcode]
  change (∃ c g', createLLVM ttree g = _) ↔ _
  constructor
  · rintro ⟨c,g',hg⟩
    rw [hg]
    rfl
  · intro hok
    cases hg : createLLVM ttree g with
    | error e =>
      rw [hg] at hok
      cases hok
    | ok r => exact ⟨r.2.1,r.2.2,rfl⟩

section Programs

/-- int f(int a) { while (a < 10 && !0) a = f(a)+1; return a; } -/
def loopProgram : List Definition :=
  [.deffunc ⟨⟨some ⟨.VarInt,0⟩,"f",[⟨⟨.VarInt,0⟩,"a"⟩]⟩,[],
    .cons (.whileDo (.bin .ExpAnd (.bin .ExpLess (.var (.id "a")) (.int 10)) (.not (.int 0)))
      (.assign (.id "a") (.bin .ExpAdd (.call "f" (.cons (.var (.id "a")) .nil)) (.int 1))))
    (.cons (.ret (some (.var (.id "a")))) .nil)⟩]

/-- Nothing has been generated. -/
def start : GenState := ⟨0,0,fun _ => ⟨0,false⟩⟩

theorem completes_iff_hasCode_loop : ∃ ttree, typeCheck loopProgram = .ok ttree ∧
    ∃ c g', (createLLVM ttree).run start = .ok ((),c,g') := by
  have h : typeCheck loopProgram = .ok _ := rfl
  exact ⟨_,h,(completes_iff_hasCode h start).mpr (by decide)⟩

/-- int f(int a) { if (a) return 1; return 0; } -/
def variableCondition : List Definition :=
  [.deffunc ⟨⟨some ⟨.VarInt,0⟩,"f",[⟨⟨.VarInt,0⟩,"a"⟩]⟩,[],
    .cons (.ifThen (.var (.id "a")) (.ret (some (.int 1)))) (.cons (.ret (some (.int 0))) .nil)⟩]

/-- int f() { return; } -/
def emptyReturn : List Definition :=
  [.deffunc ⟨⟨some ⟨.VarInt,0⟩,"f",[]⟩,[],.cons (.ret none) .nil⟩]

/-- void f() { } -/
def voidFunction : List Definition := [.deffunc ⟨⟨none,"f",[]⟩,[],.nil⟩]

theorem not_completes_accepted :
    (∃ ttree, typeCheck variableCondition = .ok ttree ∧
      (createLLVM ttree).run start = .error .invalidTag) ∧
    (∃ ttree, typeCheck emptyReturn = .ok ttree ∧
      (createLLVM ttree).run start = .error .null) ∧
    ∃ ttree, typeCheck voidFunction = .ok ttree ∧
      (createLLVM ttree).run start = .error .null :=
  ⟨⟨_,rfl,rfl⟩,⟨_,rfl,rfl⟩,⟨_,rfl,rfl⟩⟩

end Programs
end PucRio.Monga
