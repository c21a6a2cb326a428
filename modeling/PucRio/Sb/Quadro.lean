import PucRio.Sb.Limites
import PucRio.Sb.Simulation

/-! The memory operands of the code, and which indices in the source address the variables. -/
namespace PucRio.Sb
open Ia32 Config

/-- The operand for a variable. -/
def operando (type : Char) (var : ℤ) : Reg × Word := (.ebp,(deslocamento type var).signExtend 32)

/-- A local variable or a parameter of the frame. -/
def NoQuadro (x : Reg × Word) : Prop := ∃ v : Var, x = (.ebp,v.disp.signExtend 32)

/-- The variables of a line, with the constants left out. -/
def Instrucao.variaveis : Instrucao → List (Char × ℤ)
  | .assign x =>
    [(x.vartype1,x.var1),(x.vartype2,x.var2),(x.vartype0,x.var0)].filter (·.1 ≠ '$')
  | .while type var => [(type,var)]
  | .fim => []

/-- The index leads to a variable: the displacement is cut down to a byte, so that indices are
taken modulo 64. -/
def IndiceBom : Char × ℤ → Prop
  | (type,var) => if type = 'p' then var % 64 ≤ 4 ∨ 52 ≤ var % 64 ∧ var % 64 ≤ 61
    else var % 64 ≤ 9 ∨ 57 ≤ var % 64 ∧ var % 64 ≤ 61

section Operands
variable {e e' : Estado} {i : Instrucao} {m : List Byte} {ops : List (Reg × Word)} {jes : List ℕ}

/-- Code with its memory operands and the places of its `je`. -/
inductive Montado : List Byte → List (Reg × Word) → List ℕ → Prop
  | nil : Montado [] [] []
  | instr {m : List Byte} {ops : List (Reg × Word)} {jes : List ℕ} (h : Montado m ops jes)
      {bs : List Byte} {i : Instr} (hi : Encodes bs i) : Montado (m ++ bs) (ops ++ i.memory) jes
  | je {m : List Byte} {ops : List (Reg × Word)} {jes : List ℕ} (h : Montado m ops jes) (w : Word) :
      Montado (m ++ ([0x0f,0x84] ++ le32 w)) ops (m.length::jes)

theorem Montado.le_length (h : Montado m ops jes) : ∀ n ∈ jes, n+6 ≤ m.length := by
  induction h with
  | nil =>
    intro n hn
    cases hn
  | instr _ _ ih =>
    intro n hn
    rw [List.length_append]
    exact (ih n hn).trans (Nat.le_add_right _ _)
  | je _ w ih =>
    intro n hn
    rw [List.length_append]
    obtain rfl | hn := List.mem_cons.mp hn
    · exact le_rfl
    · exact (ih n hn).trans (Nat.le_add_right _ _)

theorem sobrescreve_left {m bs post : List Byte} {n : ℕ} (h : n+bs.length ≤ m.length) :
    sobrescreve (m ++ post) n bs = sobrescreve m n bs ++ post := by
  rw [sobrescreve,sobrescreve,List.take_append_of_le_length (by omega),
    List.drop_append_of_le_length h,List.append_assoc,List.append_assoc,List.append_assoc]

theorem length_sobrescreve {m bs : List Byte} {n : ℕ} (h : n+bs.length ≤ m.length) :
    (sobrescreve m n bs).length = m.length := by
  simp only [sobrescreve,List.length_append,List.length_take,List.length_drop]
  omega

/-- Another displacement in a `je` leaves the operands alone. -/
theorem Montado.sobrescreve (h : Montado m ops jes) (w : Word) :
    ∀ n ∈ jes, Montado (Sb.sobrescreve m (n+2) (le32 w)) ops jes := by
  have hw : (le32 w).length = 4 := rfl
  induction h with
  | nil =>
    intro n hn
    cases hn
  | @instr m ops jes h bs i hi ih =>
    intro n hn
    have := h.le_length n hn
    rw [sobrescreve_left (by omega)]
    exact (ih n hn).instr hi
  | @je m ops jes h w' ih =>
    intro n hn
    obtain rfl | hn := List.mem_cons.mp hn
    · have hpatch := sobrescreve_append (m ++ [0x0f,0x84]) (le32 w') (le32 w) [] rfl
      simp only [List.append_nil,List.length_append,List.append_assoc] at hpatch
      change Sb.sobrescreve _ (m.length+2) _ = _ at hpatch
      rw [hpatch]
      exact h.je w
    · have hlen := h.le_length n hn
      have hkeep : (Sb.sobrescreve m (n+2) (le32 w)).length = m.length :=
        length_sobrescreve (by omega)
      rw [sobrescreve_left (by omega),← hkeep]
      exact (ih n hn).je w'

/-- The code falls into instructions with these operands. -/
theorem Montado.disassembles (h : Montado m ops jes) {rest : List Byte} {is : List Instr}
    (hrest : Disassembles rest is) :
    ∃ is', Disassembles (m ++ rest) (is' ++ is) ∧ is'.flatMap Instr.memory = ops := by
  induction h generalizing rest is with
  | nil => exact ⟨[],hrest,rfl⟩
  | @instr m ops jes h bs i hi ih =>
    obtain ⟨is',hd,hops⟩ := ih (hi.disassembles hrest)
    refine ⟨is' ++ [i],?_,?_⟩
    · rw [List.append_assoc,List.append_assoc]
      exact hd
    · rw [List.flatMap_append,hops,List.flatMap_singleton]
  | @je m ops jes h w ih =>
    have hje : Encodes ([0x0f,0x84] ++ le32 w) (.je w) := fun rest => decode_je w
    obtain ⟨is',hd,hops⟩ := ih (hje.disassembles hrest)
    refine ⟨is' ++ [.je w],?_,?_⟩
    · rw [List.append_assoc m,List.append_assoc is']
      exact hd
    · rw [List.flatMap_append,hops,List.flatMap_singleton]
      exact List.append_nil ops

/-! The instructions that the functions of the source write. -/

theorem encodes_load_ecx (d : Byte) :
    Encodes [0x8b,0x4d,d] (.mov (.reg .ecx) (.mem .ebp (d.signExtend 32))) := by
  intro rest
  simp [decode,modRM,rm,regField,Reg.ofBits]

theorem encodes_load_edx (d : Byte) :
    Encodes [0x8b,0x55,d] (.mov (.reg .edx) (.mem .ebp (d.signExtend 32))) := by
  intro rest
  simp [decode,modRM,rm,regField,Reg.ofBits]

theorem encodes_imm_ecx (w : Word) : Encodes (0xb9::le32 w) (.movImm .ecx w) := by
  intro rest
  simp [decode,imm32_le32,rm,Reg.ofBits]
  rfl

theorem encodes_imm_edx (w : Word) : Encodes (0xba::le32 w) (.movImm .edx w) := by
  intro rest
  simp [decode,imm32_le32,rm,Reg.ofBits]
  rfl

theorem encodes_store (d : Byte) :
    Encodes [0x89,0x55,d] (.mov (.mem .ebp (d.signExtend 32)) (.reg .edx)) :=
  fun _ => decode_store d

theorem encodes_cmp (d : Byte) :
    Encodes [0x83,0x7d,d,0x00] (.cmpImm (.mem .ebp (d.signExtend 32)) 0) :=
  fun _ => decode_cmp d

theorem encodes_jmp (w : Word) : Encodes (0xe9::le32 w) (.jmp w) :=
  fun _ => decode_jmp w

theorem encodes_movlMemToReg {linhas : ℕ} {type reg : Char} {var : ℤ} {mov : List Byte}
    (h : movlMemToReg linhas type var reg = .ok mov) :
    ∃ i, Encodes mov i ∧ i.memory = if type = '$' then [] else [operando type var] := by
  rw [movlMemToReg] at h
  by_cases ht : type = 'p' ∨ type = 'v'
  · have hne : type ≠ '$' := by
      obtain rfl | rfl := ht <;> decide
    rw [if_pos ht] at h
    cases h
    rw [if_neg hne]
    split_ifs
    · exact ⟨_,encodes_load_ecx _,rfl⟩
    · exact ⟨_,encodes_load_edx _,rfl⟩
  · rw [if_neg ht] at h
    by_cases hc : type = '$'
    · rw [if_pos hc] at h
      cases h
      rw [if_pos hc]
      split_ifs
      · exact ⟨_,encodes_imm_ecx _,rfl⟩
      · exact ⟨_,encodes_imm_edx _,rfl⟩
    · rw [if_neg hc] at h
      cases h

theorem encodes_opEcxEdx {linhas : ℕ} {op : Char} {ins : List Byte}
    (h : opEcxEdx linhas op = .ok ins) : ∃ i, Encodes ins i ∧ i.memory = [] := by
  rw [opEcxEdx] at h
  split_ifs at h
  · cases h
    exact ⟨_,fun rest => Op.decode_code .add,rfl⟩
  · cases h
    exact ⟨_,fun rest => Op.decode_code .sub,rfl⟩
  · cases h
    exact ⟨_,fun rest => Op.decode_code .mul,rfl⟩

/-- The operands of these lines. -/
def operandos (lidas : List Instrucao) : List (Reg × Word) :=
  (lidas.flatMap Instrucao.variaveis).map fun y => operando y.1 y.2

theorem operandos_append (lidas : List Instrucao) (i : Instrucao) :
    operandos (lidas ++ [i]) = operandos lidas ++ i.variaveis.map fun y => operando y.1 y.2 := by
  rw [operandos,List.flatMap_append,List.map_append,List.flatMap_singleton]
  rfl

/-- The code written so far is that of valid lines, and behind the `cmpl` of an open loop stands
its `je`. -/
structure Encaixa (e : Estado) (lidas : List Instrucao) : Prop where
  valida : ∀ i ∈ lidas, i.Valida
  montado : ∃ jes, Montado e.mcodes (operandos lidas) jes ∧ ∀ a ∈ e.enderecoCmplWhiles, a+4 ∈ jes

namespace Encaixa
variable {lidas : List Instrucao}

theorem of_eq (h : Encaixa e lidas) (hm : e'.mcodes = e.mcodes)
    (ha : e'.enderecoCmplWhiles = e.enderecoCmplWhiles) : Encaixa e' lidas := by
  refine ⟨h.valida,?_⟩
  rw [hm,ha]
  exact h.montado

theorem executa (h : Encaixa e lidas) (he : e.executa i = .ok e') :
    Encaixa e' (lidas ++ [i]) := by
  obtain ⟨jes,hm,hjes⟩ := h.montado
  have hvalida (hi : i.Valida) : ∀ i' ∈ lidas ++ [i], i'.Valida := by
    intro i' hi'
    obtain hi' | hi' := List.mem_append.mp hi'
    · exact h.valida i' hi'
    · rw [List.mem_singleton.mp hi']
      exact hi
  cases i with
  | assign x =>
    obtain ⟨func,hf,rfl⟩ := executa_assign he
    obtain ⟨hv,mov1,mov2,ins,h1,h2,hi,rfl⟩ := assign_ok_iff.mp hf
    obtain ⟨i1,hi1,hops1⟩ := encodes_movlMemToReg h1
    obtain ⟨i2,hi2,hops2⟩ := encodes_movlMemToReg h2
    obtain ⟨i3,hi3,hops3⟩ := encodes_opEcxEdx hi
    have hm' := (((hm.instr hi1).instr hi2).instr hi3).instr
      (encodes_store (deslocamento x.vartype0 x.var0))
    refine ⟨hvalida hv,jes,?_,hjes⟩
    have hops : operandos (lidas ++ [.assign x]) = operandos lidas ++ i1.memory ++ i2.memory ++
        i3.memory ++ [operando x.vartype0 x.var0] := by
      rw [operandos_append,hops1,hops2,hops3,Instrucao.variaveis]
      have h0 := hv.1.ne_cifra
      by_cases hc1 : x.vartype1 = '$' <;> by_cases hc2 : x.vartype2 = '$' <;>
        simp [hc1,hc2,h0]
    rw [hops]
    simp only [List.append_assoc] at hm' ⊢
    exact hm'
  | «while» type var =>
    obtain ⟨hv,rfl⟩ := executa_while he
    have hm' := (hm.instr (encodes_cmp (deslocamento type var))).je 0xffffffff
    refine ⟨hvalida hv,(e.mcodes ++ [0x83,0x7d,deslocamento type var,0x00]).length::jes,?_,?_⟩
    · rw [operandos_append]
      rw [List.append_assoc] at hm'
      exact hm'
    · intro a ha
      obtain rfl | ha := List.mem_cons.mp ha
      · rw [List.length_append]
        exact List.mem_cons_self
      · exact List.mem_cons_of_mem _ (hjes a ha)
  | fim =>
    obtain ⟨a,as,hst,rfl⟩ := executa_fim he
    have ha := hjes a (hst ▸ List.mem_cons_self)
    have hm' := (hm.sobrescreve (BitVec.ofInt 32 ((e.mcodes.length+4 : ℤ)-(a+9))) _ ha).instr
      (encodes_jmp (BitVec.ofInt 32 ((a : ℤ)-(e.mcodes.length+5))))
    refine ⟨hvalida trivial,jes,?_,fun b hb => hjes b (hst ▸ List.mem_cons_of_mem a hb)⟩
    rw [operandos_append]
    exact hm'

end Encaixa

theorem montado_prologo : Montado prologo [] [] := by
  have hpush : Encodes [0x55] (.push .ebp) := fun rest => by simp [decode,rm,Reg.ofBits]
  have hmov : Encodes [0x89,0xe5] (.mov (.reg .ebp) (.reg .esp)) := fun rest => by
    simp [decode,modRM,rm,regField,Reg.ofBits]
  have hsub : Encodes [0x83,0xec,0x28] (.subImm (.reg .esp) 0x28) := fun rest => by
    simp [decode,modRM,rm,regField,Reg.ofBits,imm8]
  exact ((Montado.nil.instr hpush).instr hmov).instr hsub

/-- The instructions of the epilogue. -/
def instrFinalizacao : List Instr :=
  [.mov (.reg .eax) (.mem .ebp ((0xfc : Byte).signExtend 32)),.mov (.reg .esp) (.reg .ebp),
    .pop .ebp,.ret]

theorem disassembles_finalizacao : Disassembles finalizacao instrFinalizacao := by
  refine .cons (n := 3) ?_ (.cons (n := 2) ?_ (.cons (n := 1) ?_ (.cons (n := 1) ?_ .nil)))
  · rfl
  · rfl
  · rfl
  · rfl

end Operands

section Indices
variable {type : Char} {var : ℤ}

theorem ofInt_eq_iff {a b : ℤ} : BitVec.ofInt 8 a = BitVec.ofInt 8 b ↔ a % 256 = b % 256 := by
  rw [← BitVec.toNat_inj,BitVec.toNat_ofInt,BitVec.toNat_ofInt]
  omega

theorem signExtend_inj {a b : Byte} : a.signExtend 32 = b.signExtend 32 ↔ a = b := by
  constructor
  · intro h
    have := congrArg BitVec.toInt h
    rw [BitVec.toInt_signExtend_of_le (by decide),BitVec.toInt_signExtend_of_le (by decide)] at this
    exact BitVec.toInt_inj.mp this
  · rintro rfl
    rfl

/-- An operand that is written for a variable of a valid line leads to a variable of the frame if
and only if its index does, modulo 64. -/
theorem noQuadro_operando_iff (h : type = 'p' ∨ type = 'v') :
    NoQuadro (operando type var) ↔ IndiceBom (type,var) := by
  have hvar : NoQuadro (operando type var) ↔ (∃ k : Fin 10, deslocamento type var =
      deslocamento 'v' (k.val : ℤ)) ∨ ∃ k : Fin 5, deslocamento type var =
      deslocamento 'p' (k.val : ℤ) := by
    constructor
    · rintro ⟨x,hx⟩
      have hd := signExtend_inj.mp (Prod.mk.inj hx).2
      cases x with
      | v k => exact .inl ⟨k,hd⟩
      | p k => exact .inr ⟨k,hd⟩
    · rintro (⟨k,hk⟩ | ⟨k,hk⟩)
      · exact ⟨.v k,by rw [operando,hk]; rfl⟩
      · exact ⟨.p k,by rw [operando,hk]; rfl⟩
  rw [hvar]
  obtain rfl | rfl := h
  · simp only [deslocamento,IndiceBom,if_true,ofInt_eq_iff,Char.reduceEq,if_false]
    constructor
    · rintro (⟨k,hk⟩ | ⟨k,hk⟩)
      · omega
      · omega
    · rintro (hk | hk)
      · exact .inr ⟨⟨(var % 64).toNat,by omega⟩,by dsimp only; omega⟩
      · exact .inl ⟨⟨(61-var % 64).toNat,by omega⟩,by dsimp only; omega⟩
  · simp only [deslocamento,IndiceBom,if_true,ofInt_eq_iff,Char.reduceEq,if_false]
    constructor
    · rintro (⟨k,hk⟩ | ⟨k,hk⟩)
      · omega
      · omega
    · rintro (hk | hk)
      · exact .inl ⟨⟨(var % 64).toNat,by omega⟩,by dsimp only; omega⟩
      · exact .inr ⟨⟨(61-var % 64).toNat,by omega⟩,by dsimp only; omega⟩

theorem Instrucao.Valida.type_cases {i : Instrucao} (h : i.Valida) :
    ∀ y ∈ i.variaveis, y.1 = 'p' ∨ y.1 = 'v' := by
  intro y hy
  have hvarc {type : Char} {var : ℤ} (hv : VarcValida type var) (hne : type ≠ '$') :
      type = 'p' ∨ type = 'v' := (hv.resolve_right hne).cases_type
  cases i with
  | assign x =>
    simp only [variaveis,List.mem_filter,List.mem_cons,List.not_mem_nil,or_false,
      decide_eq_true_eq] at hy
    obtain ⟨rfl | rfl | rfl,hne⟩ := hy
    · exact hvarc h.2.1 hne
    · exact hvarc h.2.2.1 hne
    · exact h.1.cases_type
  | «while» type var =>
    obtain rfl := List.mem_singleton.mp hy
    exact VarValida.cases_type h
  | fim => cases hy

end Indices

/-- Where the run stands, the code fits the lines written. -/
def Encaixado : Config → List Instrucao → Prop
  | .inicio _ _,lidas => lidas = []
  | .laco _ e _,lidas => Encaixa e lidas
  | .instrucao _ _ e _,lidas => Encaixa e lidas
  | .comentario _ e _,lidas => Encaixa e lidas
  | .fim r,lidas => ∀ code, r = .ok code → ∃ e, Encaixa e lidas ∧ code = e.mcodes ++ finalizacao

section Runs
variable {beyond : Bool → List Char → Int32} {c c' : Config} {lidas : List Instrucao}

theorem Encaixado.step (h : Encaixado c lidas) (hs : c.step beyond = some c') :
    Encaixado c' (lidas ++ c.escrita ()) := by
  cases c with
  | inicio cs x =>
    cases hs
    obtain rfl : lidas = [] := h
    refine ⟨?_,[],montado_prologo,?_⟩
    · intro i hi
      cases hi
    · intro a ha
      cases ha
  | laco cs e x =>
    rw [show lidas ++ escrita (laco cs e x) () = lidas from List.append_nil lidas]
    cases cabeca_of_step hs with
    | termina =>
      intro code hcode
      rw [Estado.finaliza] at hcode
      split_ifs at hcode
      cases hcode
      exact ⟨e,h,rfl⟩
    | erro p =>
      intro code hcode
      cases hcode
    | turno _ _ _ ht =>
      cases ht with
      | linha i x' _ => exact h
      | comentario _ _ => exact Encaixa.of_eq h rfl rfl
      | branco linhas => exact Encaixa.of_eq h rfl rfl
      | erro p =>
        intro code hcode
        cases hcode
  | instrucao i cs e x =>
    rw [Config.step,Option.some_inj] at hs
    subst hs
    cases he : e.executa i with
    | ok e' =>
      rw [Config.escrita,he]
      exact Encaixa.executa h he
    | error p =>
      intro code hcode
      cases hcode
  | comentario cs e x =>
    rw [Config.step,Option.some_inj] at hs
    subst hs
    rw [show lidas ++ escrita (comentario cs e x) () = lidas from List.append_nil lidas]
    split_ifs
    · exact Encaixa.of_eq h rfl rfl
    · exact Encaixa.of_eq h rfl rfl
  | fim r => cases hs

theorem Encaixado.reachable {x : Variaveis} {f : List Char} {s : Config × List Instrucao}
    (h : (leituraEscrita beyond x f).Reachable s) : Encaixado s.1 s.2 := by
  refine h.invariant (I := fun s : Config × List Instrucao => Encaixado s.1 s.2) ?_ ?_
  · exact rfl
  rintro s a t hc - hs
  obtain ⟨hs,ht⟩ := TransitionSystem.recorded_step hs
  rw [ht]
  exact hc.step hs

/-- The instructions of the code of an accepted program, and what they address. -/
theorem exists_disassembles {x : Variaveis} {f : List Char} {code : List Byte}
    (h : (leituraEscrita beyond x f).Reachable (.fim (.ok code),lidas)) :
    (∀ i ∈ lidas, i.Valida) ∧ ∃ is, Disassembles code is ∧
      is.flatMap Instr.memory = operandos lidas ++ [operando 'v' 0] := by
  obtain ⟨e,he,rfl⟩ := Encaixado.reachable h code rfl
  obtain ⟨jes,hm,-⟩ := he.montado
  obtain ⟨is,hd,hops⟩ := hm.disassembles disassembles_finalizacao
  refine ⟨he.valida,_,hd,?_⟩
  rw [List.flatMap_append,hops]
  rfl

end Runs

/-- The code of an accepted program falls into instructions, whose memory operands are all
variables of the frame if and only if all indices in its lines lead to variables. -/
theorem noQuadro_iff (beyond : Bool → List Char → Int32) (x : Variaveis) (f : List Char)
    {code : List Byte} {lidas : List Instrucao}
    (h : (leituraEscrita beyond x f).Reachable (.fim (.ok code),lidas)) :
    ∃ is, Disassembles code is ∧ ((∀ o ∈ is.flatMap Instr.memory, NoQuadro o) ↔
      ∀ y ∈ lidas.flatMap Instrucao.variaveis, IndiceBom y) := by
  obtain ⟨hvalida,is,hd,hops⟩ := exists_disassembles h
  refine ⟨is,hd,?_⟩
  have hend : ∀ o ∈ [operando 'v' 0], NoQuadro o := by
    intro o ho
    rw [List.mem_singleton.mp ho]
    exact ⟨.v 0,rfl⟩
  rw [hops,List.forall_mem_append,and_iff_left hend,operandos,List.forall_mem_map]
  refine forall₂_congr fun y hy => ?_
  obtain ⟨i,hi,hy⟩ := List.mem_flatMap.mp hy
  exact noQuadro_operando_iff ((hvalida i hi).type_cases y hy)

/-- The code where there is one. -/
def Config.codigo : Config → Option (List Byte)
  | .fim r => r.toOption
  | _ => none

theorem codigo_isSome {c : Config} (h : c.codigo.isSome = true) :
    ∃ code, c = .fim (.ok code) := by
  cases c with
  | fim r =>
    cases r with
    | ok code => exact ⟨code,rfl⟩
    | error p => cases h
  | _ => cases h

theorem noQuadro_sum : ∃ code lidas, (leituraEscrita (fun _ _ => 0) ⟨' ',0,' ',0,' ',' ',0⟩
      ['v','0','=','p','4','+','v','9','\n','r','e','t']).Reachable (.fim (.ok code),lidas) ∧
    ∃ is, Disassembles code is ∧ ∀ o ∈ is.flatMap Instr.memory, NoQuadro o := by
  obtain ⟨⟨c,lidas⟩,hs,hp⟩ := TransitionSystem.exists_reachable_of_exec
    (T := leituraEscrita (fun _ _ => 0) ⟨' ',0,' ',0,' ',' ',0⟩
      ['v','0','=','p','4','+','v','9','\n','r','e','t'])
    (l := List.replicate 5 ())
    (p := fun s => s.1.codigo.isSome &&
      decide (s.2.flatMap Instrucao.variaveis = [('p',4),('v',9),('v',0)])) (by decide +kernel)
  rw [Bool.and_eq_true,decide_eq_true_iff] at hp
  obtain ⟨hc,hl⟩ := hp
  obtain ⟨code,rfl⟩ := codigo_isSome hc
  obtain ⟨is,hd,hiff⟩ := noQuadro_iff _ _ _ hs
  refine ⟨code,lidas,hs,is,hd,hiff.mpr fun y hy => ?_⟩
  dsimp only at hl
  rw [hl] at hy
  simp only [List.mem_cons,List.not_mem_nil,or_false] at hy
  obtain rfl | rfl | rfl := hy <;> simp [IndiceBom]

/-- `v-1` is where the caller's `%ebp` is kept. -/
theorem not_noQuadro_negative : ¬ ∀ beyond x f code lidas,
    (leituraEscrita beyond x f).Reachable (.fim (.ok code),lidas) →
    ∃ is, Disassembles code is ∧ ∀ o ∈ is.flatMap Instr.memory, NoQuadro o := by
  intro hall
  obtain ⟨⟨c,lidas⟩,hs,hp⟩ := TransitionSystem.exists_reachable_of_exec
    (T := leituraEscrita (fun _ _ => 0) ⟨' ',0,' ',0,' ',' ',0⟩
      ['v','-','1','=','$','1','+','$','1','\n','r','e','t'])
    (l := List.replicate 5 ())
    (p := fun s => s.1.codigo.isSome &&
      decide (s.2.flatMap Instrucao.variaveis = [('v',-1)])) (by decide +kernel)
  rw [Bool.and_eq_true,decide_eq_true_iff] at hp
  obtain ⟨hc,hl⟩ := hp
  obtain ⟨code,rfl⟩ := codigo_isSome hc
  obtain ⟨is,hd,hall⟩ := hall _ _ _ _ _ hs
  obtain ⟨-,is',hd',hops⟩ := exists_disassembles hs
  obtain rfl := hd.unique hd'
  have hmem : operando 'v' (-1) ∈ is.flatMap Instr.memory := by
    rw [hops,operandos]
    dsimp only at hl
    rw [hl]
    exact List.mem_append_left _ (List.mem_singleton.mpr rfl)
  have hbom := (noQuadro_operando_iff (.inr rfl)).mp (hall _ hmem)
  simp [IndiceBom] at hbom

end PucRio.Sb
