import PucRio.Lib.Memory32
import PucRio.Sb.Geracod
import Mathlib.Logic.Function.Basic

/-! The language SB, with assignments over local variables and parameters and nested loops, and the
code of a block, put together from the code of its parts: the stack of open loops and the patching of
`geracod` come to the same. -/
namespace PucRio.Sb

inductive Var
  | v (i : Fin 10)
  | p (i : Fin 5)
  deriving DecidableEq, Repr

/-- What stands on the right of an assignment; constants are written `$c`. -/
inductive Varc
  | var (x : Var)
  | const (c : Word)
  deriving DecidableEq, Repr

inductive Op
  | add | sub | mul
  deriving DecidableEq, Repr

/-- What one line of a program says; `fim` is `end`. -/
inductive Linha
  | assign (varc0 : Var) (varc1 : Varc) (op : Op) (varc2 : Varc)
  | while (x : Var)
  | fim
  deriving DecidableEq, Repr

/-- The statements up to the `end` of a loop or the `ret` of the program. -/
inductive Block
  | nil
  | assign (varc0 : Var) (varc1 : Varc) (op : Op) (varc2 : Varc) (next : Block)
  | while (x : Var) (body next : Block)
  deriving DecidableEq, Repr

def Block.linhas : Block → List Linha
  | .nil => []
  | .assign d x op y next => .assign d x op y::next.linhas
  | .while x body next => .while x::(body.linhas ++ .fim::next.linhas)

/-- How many loops are open at once. -/
def Block.depth : Block → ℕ
  | .nil => 0
  | .assign _ _ _ _ next => next.depth
  | .while _ body next => max (body.depth+1) next.depth

abbrev Env := Var → Word

def Varc.eval (e : Env) : Varc → Word
  | .var x => e x
  | .const c => c

def Op.eval : Op → Word → Word → Word
  | .add,a,b => a+b
  | .sub,a,b => a-b
  | .mul,a,b => a*b

/-- The source meaning: from the first values of the variables a block ends with the second. A loop
goes round as long as its variable is not zero. -/
inductive Exec : Block → Env → Env → Prop
  | nil {e : Env} : Exec .nil e e
  | assign {e e' : Env} {d : Var} {x y : Varc} {op : Op} {next : Block}
      (h : Exec next (Function.update e d (op.eval (x.eval e) (y.eval e))) e') :
      Exec (.assign d x op y next) e e'
  | exit {e e' : Env} {x : Var} {body next : Block} (hx : e x = 0) (h : Exec next e e') :
      Exec (.while x body next) e e'
  | loop {e e₁ e' : Env} {x : Var} {body next : Block} (hx : e x ≠ 0) (hbody : Exec body e e₁)
      (h : Exec (.while x body next) e₁ e') : Exec (.while x body next) e e'

namespace Var

def letter : Var → Char
  | v _ => 'v'
  | p _ => 'p'

def number : Var → ℤ
  | v i => i.val
  | p i => i.val

/-- The displacement from `%ebp`. -/
def disp (x : Var) : Byte := deslocamento x.letter x.number

theorem letter_cases (x : Var) : x.letter = 'p' ∨ x.letter = 'v' := by
  cases x
  · exact .inr rfl
  · exact .inl rfl

end Var

namespace Varc

def letter : Varc → Char
  | var x => x.letter
  | const _ => '$'

def number : Varc → ℤ
  | var x => x.number
  | const c => c.toInt

def loadEcx : Varc → List Byte
  | var x => [0x8b,0x4d,x.disp]
  | const c => 0xb9::le32 c

def loadEdx : Varc → List Byte
  | var x => [0x8b,0x55,x.disp]
  | const c => 0xba::le32 c

def size : Varc → ℕ
  | var _ => 3
  | const _ => 5

end Varc

namespace Op

def char : Op → Char
  | add => '+'
  | sub => '-'
  | mul => '*'

def code : Op → List Byte
  | add => [0x01,0xca]
  | sub => [0x29,0xca]
  | mul => [0x0f,0xaf,0xd1]

def size : Op → ℕ
  | add | sub => 2
  | mul => 3

end Op

def loadCode (op : Op) (x y : Varc) : List Byte :=
  if op = .sub then x.loadEdx ++ y.loadEcx else x.loadEcx ++ y.loadEdx

def assignCode (d : Var) (x : Varc) (op : Op) (y : Varc) : List Byte :=
  loadCode op x y ++ op.code ++ [0x89,0x55,d.disp]

def whileCode (x : Var) (rel : List Byte) : List Byte :=
  [0x83,0x7d,x.disp,0x00,0x0f,0x84] ++ rel

/-- The bytes of the code. -/
def Block.size : Block → ℕ
  | .nil => 0
  | .assign _ x op y next => x.size+y.size+op.size+3+next.size
  | .while _ body next => 10+body.size+5+next.size

def Block.code : Block → List Byte
  | .nil => []
  | .assign d x op y next => assignCode d x op y ++ next.code
  | .while x body next =>
    whileCode x (le32 (BitVec.ofNat 32 (body.size+5))) ++ body.code ++
      0xe9::le32 (BitVec.ofInt 32 (-(body.size+15))) ++ next.code

theorem Varc.length_loadEcx (x : Varc) : x.loadEcx.length = x.size := by
  cases x <;> rfl

theorem Varc.length_loadEdx (x : Varc) : x.loadEdx.length = x.size := by
  cases x <;> rfl

theorem Op.length_code (op : Op) : op.code.length = op.size := by
  cases op <;> rfl

theorem length_loadCode (op : Op) (x y : Varc) : (loadCode op x y).length = x.size+y.size := by
  unfold loadCode
  split_ifs <;> simp [Varc.length_loadEcx,Varc.length_loadEdx]

theorem length_assignCode (d : Var) (x : Varc) (op : Op) (y : Varc) :
    (assignCode d x op y).length = x.size+y.size+op.size+3 := by
  simp [assignCode,length_loadCode,Op.length_code,Nat.add_assoc]

theorem length_code (b : Block) : b.code.length = b.size := by
  induction b with
  | nil => rfl
  | assign d x op y next ih => simp [Block.code,Block.size,length_assignCode,ih]
  | «while» x body next ihb ihn =>
    simp [Block.code,Block.size,whileCode,le32,ihb,ihn]
    omega

/-! The functions of the source on what an SB program can hold. -/

theorem testaVar_var (linhas : ℕ) (x : Var) : testaVar linhas x.letter x.number = .ok () := by
  cases x with
  | v i =>
    have : ¬(i.val : ℤ) > 9 := by omega
    simp [testaVar,Var.letter,Var.number,this]
  | p i =>
    have : ¬(i.val : ℤ) > 4 := by omega
    simp [testaVar,Var.letter,Var.number,this]

theorem testaVar_varc (linhas : ℕ) (x : Varc) : testaVar linhas x.letter x.number = .ok () := by
  cases x with
  | var x => exact testaVar_var linhas x
  | const c => rfl

theorem movlMemToReg_ecx (linhas : ℕ) (x : Varc) :
    movlMemToReg linhas x.letter x.number 'c' = .ok x.loadEcx := by
  cases x with
  | var x => simp [movlMemToReg,Varc.letter,Varc.number,Varc.loadEcx,Var.disp,x.letter_cases]
  | const c => simp [movlMemToReg,Varc.letter,Varc.number,Varc.loadEcx]

theorem movlMemToReg_edx (linhas : ℕ) (x : Varc) :
    movlMemToReg linhas x.letter x.number 'd' = .ok x.loadEdx := by
  cases x with
  | var x => simp [movlMemToReg,Varc.letter,Varc.number,Varc.loadEdx,Var.disp,x.letter_cases]
  | const c => simp [movlMemToReg,Varc.letter,Varc.number,Varc.loadEdx]

theorem assign_eq (linhas : ℕ) (d : Var) (x : Varc) (op : Op) (y : Varc) :
    assign linhas d.letter d.number x.letter x.number y.letter y.number op.char =
      .ok (assignCode d x op y) := by
  have hd : d.letter ≠ '$' := by cases d <;> simp [Var.letter]
  cases op <;>
    simp [assign,testaVar_var,testaVar_varc,hd,Op.char,movlMemToReg_ecx,movlMemToReg_edx,opEcxEdx,
      assignCode,loadCode,Op.code,movlFromReg,Var.disp] <;> rfl

theorem whileFunc_eq (linhas : ℕ) (x : Var) :
    whileFunc linhas x.letter x.number = .ok (whileCode x [0xff,0xff,0xff,0xff]) := by
  simp [whileFunc,testaVar_var,x.letter_cases,whileCode,Var.disp]

/-- What `geracod` does on a line that it has read. -/
def Estado.gera (e : Estado) : Linha → Except Parada Estado
  | .assign d x op y =>
    e.linhaAssign d.letter (d.number,x.letter,x.number,op.char,y.letter,y.number)
  | .while x => e.linhaWhile (x.letter,x.number)
  | .fim => e.linhaEnd

/-- The bytes so far and the addresses of the open loops, after one more line; none where the
buffer or the table is too small. -/
def passo : List Byte × List ℕ → Linha → Option (List Byte × List ℕ)
  | (m,st),.assign d x op y =>
    let func := assignCode d x op y
    if m.length+func.length ≤ 50*16 then some (m ++ func,st) else none
  | (m,st),.while x =>
    if st.length < 25 ∧ m.length+10 ≤ 50*16 then
      some (m ++ whileCode x [0xff,0xff,0xff,0xff],m.length::st)
    else none
  | (_,[]),.fim => none
  | (m,a::st),.fim => if m.length+5 ≤ 50*16 then some (endFunc m m.length a,st) else none

theorem gera_eq {e : Estado} {l : Linha} {m : List Byte} {st : List ℕ}
    (h : passo (e.mcodes,e.enderecoCmplWhiles) l = some (m,st)) :
    e.gera l = .ok { e with mcodes := m, enderecoCmplWhiles := st } := by
  cases l with
  | assign d x op y =>
    simp only [passo] at h
    split_ifs at h with hfit
    obtain ⟨rfl,rfl⟩ := Prod.mk.inj (Option.some.inj h)
    rw [Estado.gera,Estado.linhaAssign,assign_eq]
    exact if_pos hfit
  | «while» x =>
    simp only [passo] at h
    split_ifs at h with hfit
    obtain ⟨rfl,rfl⟩ := Prod.mk.inj (Option.some.inj h)
    have hescreve : e.escreve (whileCode x [0xff,0xff,0xff,0xff]) =
        .ok { e with mcodes := e.mcodes ++ whileCode x [0xff,0xff,0xff,0xff] } := if_pos hfit.2
    rw [Estado.gera,Estado.linhaWhile,whileFunc_eq,if_neg (by omega)]
    show (e.escreve (whileCode x [0xff,0xff,0xff,0xff]) >>= fun e' => pure { e' with
      enderecoCmplWhiles := e.mcodes.length::e.enderecoCmplWhiles }) = _
    rw [hescreve]
    rfl
  | fim =>
    cases hst : e.enderecoCmplWhiles with
    | nil => simp [passo,hst] at h
    | cons a as =>
      simp only [passo,hst] at h
      split_ifs at h with hfit
      obtain ⟨rfl,rfl⟩ := Prod.mk.inj (Option.some.inj h)
      simp [Estado.gera,Estado.linhaEnd,hst,hfit]

/-- Patching what stands before the rest. -/
theorem sobrescreve_append (m old new rest : List Byte) (h : old.length = new.length) :
    sobrescreve (m ++ old ++ rest) m.length new = m ++ new ++ rest := by
  simp [sobrescreve,List.drop_append,← h]

/-- At the `end` of a loop both displacements are known. -/
theorem endFunc_while (m : List Byte) (x : Var) {body : List Byte} {k : ℕ} (hk : body.length = k) :
    endFunc (m ++ whileCode x [0xff,0xff,0xff,0xff] ++ body)
        (m ++ whileCode x [0xff,0xff,0xff,0xff] ++ body).length m.length =
      m ++ whileCode x (le32 (BitVec.ofNat 32 (k+5))) ++ body ++
        0xe9::le32 (BitVec.ofInt 32 (-(k+15))) := by
  have hlen : (m ++ whileCode x [0xff,0xff,0xff,0xff] ++ body).length = m.length+10+k := by
    simp [whileCode,hk]
    omega
  have hje : BitVec.ofInt 32 (((m.length+10+k : ℕ)+4 : ℤ)-(m.length+9)) =
      BitVec.ofNat 32 (k+5) := by
    rw [← BitVec.ofInt_natCast]
    congr 1
    omega
  have hjmp : BitVec.ofInt 32 ((m.length : ℤ)-((m.length+10+k : ℕ)+5)) =
      BitVec.ofInt 32 (-(k+15)) := by
    congr 1
    omega
  have hpatch := sobrescreve_append (m ++ [0x83,0x7d,x.disp,0x00,0x0f,0x84])
    [0xff,0xff,0xff,0xff] (le32 (BitVec.ofNat 32 (k+5))) body rfl
  rw [endFunc,hlen,hje,hjmp]
  simp only [whileCode,List.append_assoc,List.cons_append,List.nil_append,List.length_append,
    List.length_cons,List.length_nil] at hpatch ⊢
  rw [hpatch]
  simp only [List.append_assoc,List.cons_append]

theorem passo_length_le {m m' : List Byte} {st st' : List ℕ} {l : Linha}
    (h : passo (m,st) l = some (m',st')) : m.length ≤ m'.length := by
  cases l with
  | assign d x op y =>
    simp only [passo] at h
    split_ifs at h
    obtain ⟨rfl,-⟩ := Prod.mk.inj (Option.some.inj h)
    simp
  | «while» x =>
    simp only [passo] at h
    split_ifs at h
    obtain ⟨rfl,-⟩ := Prod.mk.inj (Option.some.inj h)
    simp
  | fim =>
    cases st with
    | nil => cases h
    | cons a st =>
      simp only [passo] at h
      split_ifs at h
      obtain ⟨rfl,-⟩ := Prod.mk.inj (Option.some.inj h)
      simp [endFunc,sobrescreve]
      omega

theorem foldlM_passo_length_le {ls : List Linha} {m m' : List Byte} {st st' : List ℕ}
    (h : ls.foldlM passo (m,st) = some (m',st')) : m.length ≤ m'.length := by
  induction ls generalizing m st with
  | nil =>
    obtain ⟨rfl,-⟩ := Prod.mk.inj (Option.some.inj h)
    exact le_rfl
  | cons l ls ih =>
    rw [List.foldlM_cons] at h
    obtain ⟨⟨m₁,st₁⟩,h₁,h₂⟩ := Option.bind_eq_some_iff.mp h
    exact (passo_length_le h₁).trans (ih h₂)

/-- A block appends its code and leaves the table of open loops as it was. -/
theorem foldlM_linhas (b : Block) (ls : List Linha) (m : List Byte) (st : List ℕ)
    (hfit : m.length+b.size ≤ 50*16) (hdepth : st.length+b.depth ≤ 25) :
    (b.linhas ++ ls).foldlM passo (m,st) = ls.foldlM passo (m ++ b.code,st) := by
  induction b generalizing ls m st with
  | nil => simp [Block.linhas,Block.code]
  | assign d x op y next ih =>
    simp only [Block.size,Block.depth] at hfit hdepth
    have hlen := length_assignCode d x op y
    have hstep : passo (m,st) (.assign d x op y) = some (m ++ assignCode d x op y,st) := by
      simp only [passo]
      rw [if_pos (by omega)]
    simp only [Block.linhas,List.cons_append,List.foldlM_cons,hstep,Option.bind_eq_bind,
      Option.bind_some,Block.code]
    rw [ih ls _ _ (by simp; omega) hdepth,List.append_assoc]
  | «while» x body next ihb ihn =>
    simp only [Block.size,Block.depth] at hfit hdepth
    have hstep : passo (m,st) (.while x) =
        some (m ++ whileCode x [0xff,0xff,0xff,0xff],m.length::st) := by
      simp only [passo]
      rw [if_pos (by omega)]
    have hend : passo (m ++ whileCode x [0xff,0xff,0xff,0xff] ++ body.code,m.length::st) .fim =
        some (m ++ whileCode x (le32 (BitVec.ofNat 32 (body.size+5))) ++ body.code ++
          0xe9::le32 (BitVec.ofInt 32 (-(body.size+15))),st) := by
      simp only [passo,endFunc_while m x (length_code body)]
      rw [if_pos (by simp [whileCode,length_code]; omega)]
    simp only [Block.linhas,List.cons_append,List.append_assoc,List.foldlM_cons,hstep,
      Option.bind_eq_bind,Option.bind_some]
    rw [ihb _ _ _ (by simp [whileCode]; omega) (by simp; omega),List.foldlM_cons,hend,
      Option.bind_eq_bind,Option.bind_some,ihn ls _ _ (by simp [whileCode,le32,length_code]; omega)
        (by omega)]
    simp [Block.code,List.append_assoc]

end PucRio.Sb
