import PucRio.Lib.PartialRun
import PucRio.Sb.Terminacao

/-! The accesses to the buffer of 800 bytes and to the table of 25 addresses, and which programs
keep them inside. -/
namespace PucRio.Sb
open Config

/-- An index into `mcodes` or into `enderecoCmplWhiles`. -/
inductive Acesso
  | mcodes (i : ℕ)
  | enderecoCmplWhiles (i : ℕ)
  deriving DecidableEq

def Acesso.Dentro : Acesso → Prop
  | .mcodes i => i < 50*16
  | .enderecoCmplWhiles i => i < 25

/-- `memcpy` of `n` bytes to `&mcodes[i]`. -/
def copia (i n : ℕ) : List Acesso := (List.range' i n).map .mcodes

/-- The accesses of a line, up to where it ends in an error. The table is written before the
variable of the `while` is tested. -/
def Estado.acessos (e : Estado) : Instrucao → List Acesso
  | .assign x =>
    match assign e.linhas x.vartype0 x.var0 x.vartype1 x.var1 x.vartype2 x.var2 x.op with
    | .ok func => copia e.mcodes.length func.length
    | .error _ => []
  | .while vartype0 var0 => .enderecoCmplWhiles e.enderecoCmplWhiles.length ::
    match whileFunc e.linhas vartype0 var0 with
    | .ok func => copia e.mcodes.length func.length
    | .error _ => []
  | .fim =>
    match e.enderecoCmplWhiles with
    | [] => []
    | enderecoCmplWhile::enderecos => .enderecoCmplWhiles enderecos.length ::
      (copia (enderecoCmplWhile+6) 4 ++ copia e.mcodes.length 5)

/-- The accesses of the next step. -/
def Config.acessos : Config → List Acesso
  | .inicio _ _ => copia 0 prologo.length
  | .laco cs e _ =>
    if cs.head?.all (fun c => c == 'r' || decide (50 < e.linhas)) = true ∧ e.finaliza.isOk = true then
      copia e.mcodes.length finalizacao.length
    else []
  | .instrucao i _ e _ => e.acessos i
  | .comentario _ _ _ => []
  | .fim _ => []

/-! What a line must be like for its code to be written, and how long its code is. -/

/-- A variable that `testaVar` accepts. -/
def VarValida (type : Char) (var : ℤ) : Prop := type = 'p' ∧ var ≤ 4 ∨ type = 'v' ∧ var ≤ 9

def VarcValida (type : Char) (var : ℤ) : Prop := VarValida type var ∨ type = '$'

def Instrucao.Valida : Instrucao → Prop
  | .assign x => VarValida x.vartype0 x.var0 ∧ VarcValida x.vartype1 x.var1 ∧
    VarcValida x.vartype2 x.var2 ∧ (x.op = '+' ∨ x.op = '-' ∨ x.op = '*')
  | .while vartype0 var0 => VarValida vartype0 var0
  | .fim => True

def tamanhoVarc (type : Char) : ℕ := if type = '$' then 5 else 3

def Instrucao.tamanho : Instrucao → ℕ
  | .assign x => tamanhoVarc x.vartype1+tamanhoVarc x.vartype2+(if x.op = '*' then 3 else 2)+3
  | .while _ _ => 10
  | .fim => 5

/-- The bytes of the code of these lines, the prologue included. -/
def bytes (lidas : List Instrucao) : ℕ := prologo.length+(lidas.map Instrucao.tamanho).sum

def Instrucao.ehWhile : Instrucao → Bool
  | .while _ _ => true
  | _ => false

def Instrucao.ehFim : Instrucao → Bool
  | .fim => true
  | _ => false

/-- The loops that these lines leave open. -/
def abertos (lidas : List Instrucao) : ℕ :=
  lidas.countP Instrucao.ehWhile-lidas.countP Instrucao.ehFim

/-- The line that comes next fits behind the lines before it. -/
def Instrucao.Cabe (i : Instrucao) (lidas : List Instrucao) : Prop :=
  match i with
  | .assign _ => i.Valida → bytes lidas+i.tamanho ≤ 50*16
  | .while _ _ => abertos lidas < 25 ∧ (i.Valida → bytes lidas+i.tamanho ≤ 50*16)
  | .fim => 0 < abertos lidas → abertos lidas ≤ 25 ∧ bytes lidas+i.tamanho ≤ 50*16

/-- What is to be written next fits: a line, or the end of a program whose loops are closed. -/
def Config.Cabe : Config → List Instrucao → Prop
  | .laco cs e _,lidas => (∀ c ∈ cs.head?, c = 'r' ∨ 50 < e.linhas) → abertos lidas = 0 →
    e.linhas ≤ 50 → bytes lidas+finalizacao.length ≤ 50*16
  | .instrucao i _ _ _,lidas => i.Cabe lidas
  | _,_ => True

/-- The line that a step writes. -/
def Config.escrita : Config → Unit → List Instrucao
  | .instrucao i _ e _,_ => if (e.executa i).isOk then [i] else []
  | _,_ => []

/-- The run with the lines written so far. -/
def leituraEscrita (beyond : Bool → List Char → Int32) (x : Variaveis) (f : List Char) :
    TransitionSystem (Config × List Instrucao) Unit :=
  (leitura beyond x f).recorded Config.escrita

section Lines
variable {e e' : Estado} {i : Instrucao}

theorem testaVar_iff {linhas : ℕ} {type : Char} {var : ℤ} :
    testaVar linhas type var = .ok () ↔ VarcValida type var := by
  rw [testaVar,VarcValida,VarValida]
  split_ifs with hp hp4 hv hv9 hc
  · simp only [false_iff]
    rintro ((⟨-,h⟩ | ⟨h,-⟩) | h)
    · omega
    · rw [hp] at h
      exact absurd h (by decide)
    · rw [hp] at h
      exact absurd h (by decide)
  · exact iff_of_true rfl (.inl (.inl ⟨hp,by omega⟩))
  · simp only [false_iff]
    rintro ((⟨h,-⟩ | ⟨-,h⟩) | h)
    · exact hp h
    · omega
    · rw [hv] at h
      exact absurd h (by decide)
  · exact iff_of_true rfl (.inl (.inr ⟨hv,by omega⟩))
  · simp only [false_iff]
    rintro ((⟨h,-⟩ | ⟨h,-⟩) | h)
    · exact hp h
    · exact hv h
    · exact hc h
  · exact iff_of_true rfl (.inr (not_not.mp hc))

theorem VarValida.ne_cifra {type : Char} {var : ℤ} (h : VarValida type var) : type ≠ '$' := by
  obtain ⟨rfl,-⟩ | ⟨rfl,-⟩ := h
  · decide
  · decide

theorem VarValida.cases_type {type : Char} {var : ℤ} (h : VarValida type var) :
    type = 'p' ∨ type = 'v' := by
  obtain ⟨h,-⟩ | ⟨h,-⟩ := h
  · exact .inl h
  · exact .inr h

/-- The move of a valid operand is written. -/
theorem movlMemToReg_valida (linhas : ℕ) {type : Char} {var : ℤ} (h : VarcValida type var)
    (reg : Char) : ∃ mov, movlMemToReg linhas type var reg = .ok mov ∧
      mov.length = tamanhoVarc type := by
  rw [movlMemToReg]
  obtain hv | rfl := h
  · rw [if_pos hv.cases_type,tamanhoVarc,if_neg hv.ne_cifra]
    exact ⟨_,rfl,rfl⟩
  · exact ⟨_,rfl,rfl⟩

theorem opEcxEdx_valida (linhas : ℕ) {op : Char} (h : op = '+' ∨ op = '-' ∨ op = '*') :
    ∃ ins, opEcxEdx linhas op = .ok ins ∧ ins.length = if op = '*' then 3 else 2 := by
  obtain rfl | rfl | rfl := h
  · exact ⟨_,rfl,rfl⟩
  · exact ⟨_,rfl,rfl⟩
  · exact ⟨_,rfl,rfl⟩

theorem opEcxEdx_ok {linhas : ℕ} {op : Char} {ins : List Byte} (h : opEcxEdx linhas op = .ok ins) :
    op = '+' ∨ op = '-' ∨ op = '*' := by
  rw [opEcxEdx] at h
  split_ifs at h with h1 h2 h3
  · exact .inl h1
  · exact .inr (.inl h2)
  · exact .inr (.inr h3)

/-- The code of an assignment that is valid, and only then. -/
theorem assign_ok_iff {linhas : ℕ} {x : Variaveis} {func : List Byte} :
    assign linhas x.vartype0 x.var0 x.vartype1 x.var1 x.vartype2 x.var2 x.op = .ok func ↔
      (Instrucao.assign x).Valida ∧ ∃ mov1 mov2 ins,
        movlMemToReg linhas x.vartype1 x.var1 (if x.op = '-' then 'd' else 'c') = .ok mov1 ∧
        movlMemToReg linhas x.vartype2 x.var2 (if x.op = '-' then 'c' else 'd') = .ok mov2 ∧
        opEcxEdx linhas x.op = .ok ins ∧
        func = mov1 ++ mov2 ++ ins ++ movlFromReg x.vartype0 x.var0 := by
  constructor
  · intro h
    obtain ⟨_,h0,h⟩ := ok_of_bind h
    obtain ⟨_,h1,h⟩ := ok_of_bind h
    obtain ⟨_,h2,h⟩ := ok_of_bind h
    have hc : x.vartype0 ≠ '$' := by
      intro hc
      rw [if_pos hc] at h
      cases h
    rw [if_neg hc] at h
    obtain ⟨mov1,hm1,h⟩ := ok_of_bind h
    obtain ⟨mov2,hm2,h⟩ := ok_of_bind h
    obtain ⟨ins,hi,h⟩ := ok_of_bind h
    refine ⟨⟨(testaVar_iff.mp h0).resolve_right hc,testaVar_iff.mp h1,testaVar_iff.mp h2,
      opEcxEdx_ok hi⟩,mov1,mov2,ins,hm1,hm2,hi,?_⟩
    cases h
    rfl
  · rintro ⟨⟨h0,h1,h2,-⟩,mov1,mov2,ins,hm1,hm2,hi,rfl⟩
    simp only [assign,testaVar_iff.mpr (Or.inl h0 : VarcValida _ _),testaVar_iff.mpr h1,
      testaVar_iff.mpr h2,h0.ne_cifra,hm1,hm2,hi,if_false]
    rfl

theorem assign_valida (linhas : ℕ) {x : Variaveis} (h : (Instrucao.assign x).Valida) :
    ∃ func, assign linhas x.vartype0 x.var0 x.vartype1 x.var1 x.vartype2 x.var2 x.op =
      .ok func ∧ func.length = (Instrucao.assign x).tamanho := by
  obtain ⟨mov1,hm1,hl1⟩ := movlMemToReg_valida linhas h.2.1 (if x.op = '-' then 'd' else 'c')
  obtain ⟨mov2,hm2,hl2⟩ := movlMemToReg_valida linhas h.2.2.1 (if x.op = '-' then 'c' else 'd')
  obtain ⟨ins,hi,hli⟩ := opEcxEdx_valida linhas h.2.2.2
  refine ⟨_,assign_ok_iff.mpr ⟨h,mov1,mov2,ins,hm1,hm2,hi,rfl⟩,?_⟩
  simp only [List.length_append,hl1,hl2,hli,Instrucao.tamanho]
  rfl

theorem whileFunc_valida (linhas : ℕ) {type : Char} {var : ℤ} (h : VarValida type var) :
    whileFunc linhas type var =
      .ok [0x83,0x7d,deslocamento type var,0x00,0x0f,0x84,0xff,0xff,0xff,0xff] := by
  simp only [whileFunc,testaVar_iff.mpr (Or.inl h : VarcValida _ _),h.cases_type,if_true]
  rfl

theorem whileFunc_ok {linhas : ℕ} {type : Char} {var : ℤ} {func : List Byte}
    (h : whileFunc linhas type var = .ok func) : VarValida type var := by
  obtain ⟨_,hv,h⟩ := ok_of_bind h
  obtain hv | rfl := testaVar_iff.mp hv
  · exact hv
  · cases h

theorem executa_assign {x : Variaveis} (h : e.executa (.assign x) = .ok e') : ∃ func,
    assign e.linhas x.vartype0 x.var0 x.vartype1 x.var1 x.vartype2 x.var2 x.op = .ok func ∧
      e' = { e with mcodes := e.mcodes ++ func } := by
  rw [Estado.executa] at h
  cases ha : assign e.linhas x.vartype0 x.var0 x.vartype1 x.var1 x.vartype2 x.var2 x.op with
  | error p =>
    rw [ha] at h
    cases h
  | ok func =>
    rw [ha] at h
    cases h
    exact ⟨func,rfl,rfl⟩

theorem executa_while {type : Char} {var : ℤ} (h : e.executa (.while type var) = .ok e') :
    VarValida type var ∧ e' = { e with
      mcodes := e.mcodes ++
        [0x83,0x7d,deslocamento type var,0x00,0x0f,0x84,0xff,0xff,0xff,0xff]
      enderecoCmplWhiles := e.mcodes.length::e.enderecoCmplWhiles } := by
  rw [Estado.executa] at h
  cases hw : whileFunc e.linhas type var with
  | error p =>
    rw [hw] at h
    cases h
  | ok func =>
    have hv := whileFunc_ok hw
    rw [whileFunc_valida e.linhas hv] at h
    cases h
    exact ⟨hv,rfl⟩

theorem executa_fim (h : e.executa .fim = .ok e') : ∃ a as, e.enderecoCmplWhiles = a::as ∧
    e' = { e with mcodes := endFunc e.mcodes e.mcodes.length a, enderecoCmplWhiles := as } := by
  rw [Estado.executa] at h
  cases hst : e.enderecoCmplWhiles with
  | nil =>
    simp only [hst] at h
    cases h
  | cons a as =>
    simp only [hst] at h
    cases h
    exact ⟨a,as,rfl,rfl⟩

theorem length_endFunc {m : List Byte} {a : ℕ} (h : a+10 ≤ m.length) :
    (endFunc m m.length a).length = m.length+5 := by
  simp [endFunc,sobrescreve,le32]
  omega

/-- The sizes of buffer and table are those of the lines written. -/
structure Conta (e : Estado) (lidas : List Instrucao) : Prop where
  bytes : e.mcodes.length = bytes lidas
  abertos : e.enderecoCmplWhiles.length+lidas.countP Instrucao.ehFim =
    lidas.countP Instrucao.ehWhile
  enderecos : ∀ a ∈ e.enderecoCmplWhiles, a+10 ≤ e.mcodes.length

namespace Conta
variable {lidas : List Instrucao}

theorem length_eq (h : Conta e lidas) : e.enderecoCmplWhiles.length = Sb.abertos lidas := by
  have := h.abertos
  rw [Sb.abertos]
  omega

/-- It does not depend on the other variables. -/
theorem of_eq (h : Conta e lidas) (hm : e'.mcodes = e.mcodes)
    (ha : e'.enderecoCmplWhiles = e.enderecoCmplWhiles) : Conta e' lidas := by
  refine ⟨?_,?_,?_⟩
  · rw [hm]
    exact h.bytes
  · rw [ha]
    exact h.abertos
  · rw [hm,ha]
    exact h.enderecos

theorem bytes_append (i : Instrucao) :
    Sb.bytes (lidas ++ [i]) = Sb.bytes lidas+i.tamanho := by
  simp only [Sb.bytes,List.map_append,List.map_singleton,List.sum_append,List.sum_singleton]
  omega

theorem executa {i : Instrucao} (h : Conta e lidas) (he : e.executa i = .ok e') :
    Conta e' (lidas ++ [i]) := by
  have hbytes := h.bytes
  have habertos := h.abertos
  cases i with
  | assign x =>
    obtain ⟨func,hf,rfl⟩ := executa_assign he
    obtain ⟨func',hf',hl⟩ := assign_valida e.linhas (assign_ok_iff.mp hf).1
    obtain rfl : func = func' := by
      rw [hf] at hf'
      exact Except.ok.inj hf'
    refine ⟨?_,?_,fun a ha => ?_⟩
    · rw [bytes_append,List.length_append,hl,hbytes]
    · simpa [List.countP_append,Instrucao.ehFim,Instrucao.ehWhile] using habertos
    · rw [List.length_append]
      exact (h.enderecos a ha).trans (Nat.le_add_right _ _)
  | «while» type var =>
    obtain ⟨hv,rfl⟩ := executa_while he
    refine ⟨?_,?_,fun a ha => ?_⟩
    · rw [bytes_append,List.length_append,hbytes]
      rfl
    · simp only [List.countP_append,List.countP_singleton,Instrucao.ehFim,Instrucao.ehWhile,
        List.length_cons]
      simp
      omega
    · rw [List.length_append]
      obtain rfl | ha := List.mem_cons.mp ha
      · exact le_rfl
      · exact (h.enderecos a ha).trans (Nat.le_add_right _ _)
  | fim =>
    obtain ⟨a,as,hst,rfl⟩ := executa_fim he
    have hlen := length_endFunc (h.enderecos a (hst ▸ List.mem_cons_self))
    rw [hst] at habertos
    refine ⟨?_,?_,fun b hb => ?_⟩
    · rw [bytes_append,hlen,hbytes]
      rfl
    · simp only [List.countP_append,List.countP_singleton,Instrucao.ehFim,Instrucao.ehWhile,
        List.length_cons] at habertos ⊢
      simp
      omega
    · have := h.enderecos b (hst ▸ List.mem_cons_of_mem a hb)
      dsimp only
      omega

end Conta

theorem dentro_copia {i n : ℕ} (hn : 0 < n) :
    (∀ a ∈ copia i n, a.Dentro) ↔ i+n ≤ 50*16 := by
  simp only [copia,List.forall_mem_map,List.mem_range'_1,Acesso.Dentro]
  constructor
  · intro h
    have := h (i+n-1) ⟨by omega,by omega⟩
    omega
  · rintro h j ⟨-,hj⟩
    omega

theorem Instrucao.tamanho_pos (i : Instrucao) : 0 < i.tamanho := by
  cases i <;> exact Nat.zero_lt_succ _

/-- The accesses of a line are inside if and only if it fits. -/
theorem Conta.acessos_iff {lidas : List Instrucao} (h : Conta e lidas) (i : Instrucao) :
    (∀ a ∈ e.acessos i, a.Dentro) ↔ i.Cabe lidas := by
  have hbytes := h.bytes
  have hab := h.length_eq
  cases i with
  | assign x =>
    rw [Estado.acessos,Instrucao.Cabe]
    by_cases hv : (Instrucao.assign x).Valida
    · obtain ⟨func,hf,hl⟩ := assign_valida e.linhas hv
      have hpos := (Instrucao.assign x).tamanho_pos
      simp only [hf,hv,true_imp_iff]
      rw [dentro_copia (by omega),hl,hbytes]
    · cases hf : assign e.linhas x.vartype0 x.var0 x.vartype1 x.var1 x.vartype2 x.var2 x.op with
      | ok func => exact absurd (assign_ok_iff.mp hf).1 hv
      | error p => simp [hv]
  | «while» type var =>
    rw [Estado.acessos,Instrucao.Cabe,List.forall_mem_cons,hab]
    refine and_congr Iff.rfl ?_
    by_cases hv : VarValida type var
    · have hvalida : (Instrucao.while type var).Valida := hv
      simp only [whileFunc_valida e.linhas hv,hvalida,true_imp_iff]
      refine (dentro_copia (Nat.zero_lt_succ _)).trans ?_
      rw [hbytes]
      exact Iff.rfl
    · have hvalida : ¬ (Instrucao.while type var).Valida := hv
      cases hw : whileFunc e.linhas type var with
      | ok func => exact absurd (whileFunc_ok hw) hv
      | error p => simp [hvalida]
  | fim =>
    rw [Estado.acessos,Instrucao.Cabe]
    cases hst : e.enderecoCmplWhiles with
    | nil =>
      rw [hst] at hab
      simp [← hab]
    | cons a as =>
      have ha := h.enderecos a (hst ▸ List.mem_cons_self)
      rw [hst,List.length_cons] at hab
      dsimp only
      rw [List.forall_mem_cons,List.forall_mem_append,dentro_copia (by decide),
        dentro_copia (by decide),Acesso.Dentro,← hab,hbytes,Instrucao.tamanho]
      omega

theorem finaliza_isOk : e.finaliza.isOk = true ↔ e.enderecoCmplWhiles = [] ∧ e.linhas ≤ 50 := by
  rw [Estado.finaliza]
  split_ifs with hw hl
  · simp [Except.isOk,Except.toBool,hw]
  · simp [Except.isOk,Except.toBool,hl]
  · simpa [Except.isOk,Except.toBool] using ⟨not_not.mp hw,by omega⟩

/-- Where the run stands, the lines written account for buffer and table. -/
def Contado : Config → List Instrucao → Prop
  | .inicio _ _,lidas => lidas = []
  | .laco _ e _,lidas => Conta e lidas
  | .instrucao _ _ e _,lidas => Conta e lidas
  | .comentario _ e _,lidas => Conta e lidas
  | .fim _,_ => True

theorem Contado.acessos_iff {c : Config} {lidas : List Instrucao} (h : Contado c lidas) :
    (∀ a ∈ c.acessos, a.Dentro) ↔ c.Cabe lidas := by
  cases c with
  | inicio cs x => exact iff_of_true ((dentro_copia (by decide)).mpr (by decide)) trivial
  | laco cs e x =>
    have hab := Conta.length_eq h
    have hbytes := Conta.bytes h
    have hall : cs.head?.all (fun c => c == 'r' || decide (50 < e.linhas)) = true ↔
        ∀ c ∈ cs.head?, c = 'r' ∨ 50 < e.linhas := by
      rw [Option.all_eq_true]
      simp only [Bool.or_eq_true,beq_iff_eq,decide_eq_true_eq]
      rfl
    rw [Config.acessos,Config.Cabe]
    by_cases hr : ∀ c ∈ cs.head?, c = 'r' ∨ 50 < e.linhas
    · by_cases hok : e.finaliza.isOk = true
      · rw [if_pos ⟨hall.mpr hr,hok⟩,dentro_copia (by decide),hbytes]
        obtain ⟨hst,hl⟩ := finaliza_isOk.mp hok
        rw [hst] at hab
        exact ⟨fun h _ _ _ => h,fun h => h hr hab.symm hl⟩
      · rw [if_neg fun h => hok h.2]
        refine iff_of_true (List.forall_mem_nil _) fun _ h0 hl => absurd ?_ hok
        exact finaliza_isOk.mpr ⟨List.length_eq_zero_iff.mp (hab.trans h0),hl⟩
    · rw [if_neg fun h => hr (hall.mp h.1)]
      exact iff_of_true (List.forall_mem_nil _) fun h => absurd h hr
  | instrucao i cs e x => exact Conta.acessos_iff h i
  | comentario cs e x => exact iff_of_true (List.forall_mem_nil _) trivial
  | fim r => exact iff_of_true (List.forall_mem_nil _) trivial

theorem Contado.step {beyond : Bool → List Char → Int32} {c c' : Config}
    {lidas : List Instrucao} (h : Contado c lidas) (hs : c.step beyond = some c') :
    Contado c' (lidas ++ c.escrita ()) := by
  cases c with
  | inicio cs x =>
    cases hs
    obtain rfl : lidas = [] := h
    exact ⟨rfl,rfl,fun a ha => by cases ha⟩
  | laco cs e x =>
    rw [show lidas ++ escrita (laco cs e x) () = lidas from List.append_nil lidas]
    cases cabeca_of_step hs with
    | termina => trivial
    | erro p => trivial
    | turno _ _ _ ht =>
      cases ht with
      | linha i x' _ => exact h
      | comentario _ _ => exact Conta.of_eq h rfl rfl
      | branco linhas => exact Conta.of_eq h rfl rfl
      | erro p => trivial
  | instrucao i cs e x =>
    rw [Config.step,Option.some_inj] at hs
    subst hs
    cases he : e.executa i with
    | ok e' =>
      rw [Config.escrita,he]
      exact Conta.executa h he
    | error p => trivial
  | comentario cs e x =>
    rw [Config.step,Option.some_inj] at hs
    subst hs
    rw [show lidas ++ escrita (comentario cs e x) () = lidas from List.append_nil lidas]
    split_ifs
    · exact Conta.of_eq h rfl rfl
    · exact Conta.of_eq h rfl rfl
  | fim r => cases hs

theorem Contado.reachable {beyond : Bool → List Char → Int32} {x : Variaveis} {f : List Char}
    {s : Config × List Instrucao} (h : (leituraEscrita beyond x f).Reachable s) :
    Contado s.1 s.2 := by
  refine h.invariant (I := fun s : Config × List Instrucao => Contado s.1 s.2) ?_ ?_
  · exact rfl
  rintro s a t hc - hs
  obtain ⟨hs,ht⟩ := TransitionSystem.recorded_step hs
  rw [ht]
  exact hc.step hs

end Lines

/-- On every file, all accesses are inside buffer and table if and only if every line fits when it
is written, and at the end the epilogue. -/
theorem dentro_iff (beyond : Bool → List Char → Int32) (x : Variaveis) (f : List Char) :
    (∀ c lidas, (leituraEscrita beyond x f).Reachable (c,lidas) → ∀ a ∈ c.acessos, a.Dentro) ↔
      ∀ c lidas, (leituraEscrita beyond x f).Reachable (c,lidas) → c.Cabe lidas := by
  refine forall_congr' fun c => forall_congr' fun lidas => forall_congr' fun h => ?_
  exact (Contado.reachable h).acessos_iff

/-- A multiplication of two constants. -/
def linhaCheia : List Char := ['v','0','=','$','1','*','$','1','\n']

def instrucaoCheia : Instrucao := .assign ⟨'v',0,'$',1,'*','$',1⟩

/-- One on every line that the program may have. -/
def textoCheio : List Char := (List.replicate 50 linhaCheia).flatten

section Cheio
variable {beyond : Bool → List Char → Int32} {cs f : List Char} {e e' : Estado} {x : Variaveis}
  {c c' : Config} {lidas : List Instrucao}

theorem step_linhaCheia (hlinhas : e.linhas ≤ 50) (hbytes : e.mcodes.length < 50*16) :
    Config.step beyond (.laco (linhaCheia++cs) e x) =
      some (.instrucao instrucaoCheia ('\n'::cs) e ⟨'v',0,'$',1,'*','$',1⟩) := by
  have hc : ¬('v' = 'r' ∨ 50 < e.linhas) := by simp [hlinhas]
  have hlida : leAssign (['0','=','$','1','*','$','1','\n']++cs) =
      some ((0,'$',1,'*','$',1),'\n'::cs) := rfl
  show some (if 'v' = 'r' ∨ 50 < e.linhas then _ else if 50*16 ≤ e.mcodes.length then _ else
    turno beyond (['0','=','$','1','*','$','1','\n']++cs) e { x with vartype0 := 'v' }) = _
  rw [if_neg hc,if_neg (Nat.not_le.mpr hbytes),turno,if_pos (.inl rfl),scan_assign hlida]
  rfl

/-- The end of a line. -/
theorem step_newline (hlinhas : e.linhas ≤ 50) (hbytes : e.mcodes.length < 50*16) :
    Config.step beyond (.laco ('\n'::cs) e x) =
      some (.laco cs { e with linhas := e.linhas+1 } { x with vartype0 := '\n' }) := by
  have hc : ¬('\n' = 'r' ∨ 50 < e.linhas) := by simp [hlinhas]
  show some (if '\n' = 'r' ∨ 50 < e.linhas then _ else if 50*16 ≤ e.mcodes.length then _ else _) = _
  rw [if_neg hc,if_neg (Nat.not_le.mpr hbytes)]
  rfl

theorem assign_cheia : ∃ func : List Byte, func.length = 16 ∧
    ∀ linhas, assign linhas 'v' 0 '$' 1 '$' 1 '*' = .ok func :=
  ⟨_,rfl,fun _ => rfl⟩

theorem reachable_step (h : (leituraEscrita beyond x f).Reachable (c,lidas))
    (hs : c.step beyond = some c') :
    (leituraEscrita beyond x f).Reachable (c',lidas++c.escrita ()) := by
  refine TransitionSystem.ReachableUnder.step (a := ()) h trivial ?_
  show ((c.step beyond).map fun t => (t,lidas++c.escrita ())) = _
  rw [hs]
  rfl

theorem step_executa {i : Instrucao} (h : e.executa i = .ok e') :
    Config.step beyond (.instrucao i cs e x) = some (.laco cs e' x) := by
  rw [Config.step,h]

/-- Up to the last line each one has been written. -/
theorem exists_reachable_cheias (beyond : Bool → List Char → Int32) (x : Variaveis) {n : ℕ}
    (hn : n < 50) : ∃ e x' lidas,
    (leituraEscrita beyond x textoCheio).Reachable
      (.laco (List.replicate (50-n) linhaCheia).flatten e x',lidas) ∧
    e.linhas = n+1 ∧ e.mcodes.length = prologo.length+16*n := by
  induction n with
  | zero =>
    exact ⟨⟨prologo,[],1,' '⟩,x,_,reachable_step TransitionSystem.ReachableUnder.init rfl,rfl,rfl⟩
  | succ n ih =>
    obtain ⟨func,hfunc,hassign⟩ := assign_cheia
    obtain ⟨e,x',lidas,hreach,hlinhas,hbytes⟩ := ih (Nat.lt_of_succ_lt hn)
    have hprologo : prologo.length = 6 := rfl
    have hrest : 50-n = 50-(n+1)+1 := by omega
    rw [hrest,List.replicate_succ,List.flatten_cons] at hreach
    have hread := reachable_step hreach (step_linhaCheia (by omega) (by omega))
    have hexecuta : e.executa instrucaoCheia = .ok { e with mcodes := e.mcodes++func } := by
      rw [instrucaoCheia,Estado.executa.eq_def]
      dsimp only
      rw [hassign]
      rfl
    have hwritten := reachable_step hread (step_executa hexecuta)
    have hlength : (e.mcodes++func).length = prologo.length+16*(n+1) := by
      rw [List.length_append,hfunc,hbytes]
      omega
    refine ⟨_,_,_,reachable_step hwritten (step_newline ?_ ?_),?_,hlength⟩
    · show e.linhas ≤ 50
      omega
    · show (e.mcodes++func).length < 50*16
      omega
    · show e.linhas+1 = n+1+1
      omega

end Cheio

/-- The fiftieth line writes behind the buffer. -/
theorem not_dentro_full : ¬ ∀ beyond x f c lidas,
    (leituraEscrita beyond x f).Reachable (c,lidas) → ∀ a ∈ c.acessos, a.Dentro := by
  intro hall
  obtain ⟨e,x,lidas,hreach,hlinhas,hbytes⟩ :=
    exists_reachable_cheias (fun _ _ => 0) ⟨' ',0,' ',0,' ',' ',0⟩ (show 49 < 50 by decide)
  obtain ⟨func,hfunc,hassign⟩ := assign_cheia
  have hbytes : e.mcodes.length = 790 := hbytes
  have hstep : Config.step (fun _ _ => 0) (.laco (linhaCheia++[]) e x) = _ :=
    step_linhaCheia (by omega) (by omega)
  have hread := reachable_step hreach hstep
  have hlast : Acesso.mcodes 805 ∈ e.acessos instrucaoCheia := by
    rw [instrucaoCheia,Estado.acessos.eq_def]
    dsimp only
    rw [hassign,hbytes]
    dsimp only
    rw [hfunc]
    exact List.mem_map.mpr ⟨805,List.mem_range'_1.mpr (by omega),rfl⟩
  exact absurd (hall _ _ _ _ _ hread _ hlast) (by simp [Acesso.Dentro])

end PucRio.Sb
