import PucRio.Lib.Memory32
import PucRio.Lib.PartialRun
import Mathlib.Logic.Function.Basic

/-! The IA-32 instructions that a simple code generator writes: moves, arithmetic and comparison
between registers, constants and memory with a byte of displacement, the stack, and relative
jumps. The code is not in the memory that it works on, and `eip` counts from its first byte. -/
namespace PucRio.Ia32

inductive Reg
  | eax | ecx | edx | ebx | esp | ebp | esi | edi
  deriving DecidableEq, Repr

def Reg.ofBits (b : BitVec 3) : Reg :=
  match b.toNat with
  | 0 => eax | 1 => ecx | 2 => edx | 3 => ebx | 4 => esp | 5 => ebp | 6 => esi | _ => edi

inductive Operand
  | reg (r : Reg)
  | mem (base : Reg) (disp : Word)
  deriving DecidableEq, Repr

inductive Instr
  | push (r : Reg)
  | pop (r : Reg)
  | mov (dst src : Operand)
  | movImm (dst : Reg) (imm : Word)
  | add (dst : Operand) (src : Reg)
  | sub (dst : Operand) (src : Reg)
  | subImm (dst : Operand) (imm : Word)
  | cmpImm (dst : Operand) (imm : Word)
  | imul (dst : Reg) (src : Operand)
  | je (rel : Word)
  | jmp (rel : Word)
  | ret
  deriving DecidableEq, Repr

def rm (b : Byte) : Reg := .ofBits (b.extractLsb' 0 3)

/-- The `reg` field of a ModRM byte, also the end of some opcodes. -/
def regField (b : Byte) : BitVec 3 := b.extractLsb' 3 3

/-- What a ModRM byte addresses and how many bytes it takes; `mod` is 1 or 3 and there is no SIB
byte. -/
def modRM : List Byte → Option (Operand × ℕ)
  | [] => none
  | b::bs =>
    match (b.extractLsb' 6 2).toNat with
    | 3 => some (.reg (rm b),1)
    | 1 => if rm b = .esp then none else
        bs.head?.map fun disp => (.mem (rm b) (disp.signExtend 32),2)
    | _ => none

def imm8 (bs : List Byte) : Option Word := bs.head?.map (·.signExtend 32)

def imm32 : List Byte → Option Word
  | b₀::b₁::b₂::b₃::_ => some (ofLe32 b₀ b₁ b₂ b₃)
  | _ => none

/-- The first instruction and its length. -/
def decode : List Byte → Option (Instr × ℕ)
  | [] => none
  | op::bs =>
    if op = 0x0f then
      match bs with
      | [] => none
      | op₂::bs =>
        if op₂ = 0x84 then (imm32 bs).map fun rel => (.je rel,6)
        else if op₂ = 0xaf then
          (modRM bs).map fun (src,n) => (.imul (.ofBits (regField (bs.headD 0))) src,n+2)
        else none
    else if op = 0x01 then
      (modRM bs).map fun (dst,n) => (.add dst (.ofBits (regField (bs.headD 0))),n+1)
    else if op = 0x29 then
      (modRM bs).map fun (dst,n) => (.sub dst (.ofBits (regField (bs.headD 0))),n+1)
    else if op = 0x89 then
      (modRM bs).map fun (dst,n) => (.mov dst (.reg (.ofBits (regField (bs.headD 0)))),n+1)
    else if op = 0x8b then
      (modRM bs).map fun (src,n) => (.mov (.reg (.ofBits (regField (bs.headD 0)))) src,n+1)
    else if op = 0x83 then
      (modRM bs).bind fun (dst,n) => (imm8 (bs.drop n)).bind fun imm =>
        match (regField (bs.headD 0)).toNat with
        | 5 => some (.subImm dst imm,n+2)
        | 7 => some (.cmpImm dst imm,n+2)
        | _ => none
    else if op.extractLsb' 3 5 = 0x0a then some (.push (rm op),1)
    else if op.extractLsb' 3 5 = 0x0b then some (.pop (rm op),1)
    else if op.extractLsb' 3 5 = 0x17 then (imm32 bs).map fun imm => (.movImm (rm op) imm,5)
    else if op = 0xe9 then (imm32 bs).map fun rel => (.jmp rel,5)
    else if op = 0xc3 then some (.ret,1)
    else none

/-- The memory operands, by base register and displacement. -/
def Operand.memory : Operand → List (Reg × Word)
  | .reg _ => []
  | .mem base disp => [(base,disp)]

def Instr.memory : Instr → List (Reg × Word)
  | .mov dst src => dst.memory ++ src.memory
  | .add dst _ => dst.memory
  | .sub dst _ => dst.memory
  | .subImm dst _ => dst.memory
  | .cmpImm dst _ => dst.memory
  | .imul _ src => src.memory
  | .push _ | .pop _ | .movImm _ _ | .je _ | .jmp _ | .ret => []

/-- The code is these instructions, one behind the other. -/
inductive Disassembles : List Byte → List Instr → Prop
  | nil : Disassembles [] []
  | cons {bs : List Byte} {i : Instr} {n : ℕ} {is : List Instr} (h : decode bs = some (i,n))
      (hrest : Disassembles (bs.drop n) is) : Disassembles bs (i::is)

/-- The bytes are the instruction, whatever follows. -/
def Encodes (bs : List Byte) (i : Instr) : Prop :=
  ∀ rest, decode (bs ++ rest) = some (i,bs.length)

theorem Encodes.disassembles {bs rest : List Byte} {i : Instr} {is : List Instr}
    (h : Encodes bs i) (hrest : Disassembles rest is) : Disassembles (bs ++ rest) (i::is) :=
  .cons (h rest) (by rwa [List.drop_left])

theorem Disassembles.unique {bs : List Byte} {is is' : List Instr} (h : Disassembles bs is)
    (h' : Disassembles bs is') : is = is' := by
  induction h generalizing is' with
  | nil =>
    cases h' with
    | nil => rfl
    | cons h' _ => cases h'
  | cons h _ ih =>
    cases h' with
    | nil => cases h
    | cons h' hrest' =>
      obtain ⟨rfl,rfl⟩ := Prod.mk.inj (Option.some.inj (h.symm.trans h'))
      rw [ih hrest']

/-- `returned` is where `ret` has gone to: the code runs until it returns to its caller. -/
structure State where
  eip : Word
  regs : Reg → Word
  zf : Bool
  mem : Memory
  returned : Option Word := none

namespace State

def set (s : State) (r : Reg) (w : Word) : State := { s with regs := Function.update s.regs r w }

def address (s : State) (base : Reg) (disp : Word) : Word := s.regs base+disp

def read (s : State) : Operand → Word
  | .reg r => s.regs r
  | .mem base disp => read32 s.mem (s.address base disp)

def write (s : State) (w : Word) : Operand → State
  | .reg r => s.set r w
  | .mem base disp => { s with mem := write32 s.mem (s.address base disp) w }

/-- The result of an arithmetic instruction, with the flag that `je` reads. -/
def result (s : State) (dst : Operand) (w : Word) : State := { s.write w dst with zf := w == 0 }

/-- One instruction, `eip` standing behind it. `imul` leaves the zero flag undefined; here it keeps
its value, which no jump after it reads. -/
def exec (s : State) : Instr → State
  | .push r => { s with mem := write32 s.mem (s.regs .esp-4) (s.regs r) }.set .esp (s.regs .esp-4)
  | .pop r => (s.set .esp (s.regs .esp+4)).set r (read32 s.mem (s.regs .esp))
  | .mov dst src => s.write (s.read src) dst
  | .movImm dst imm => s.set dst imm
  | .add dst src => s.result dst (s.read dst+s.regs src)
  | .sub dst src => s.result dst (s.read dst-s.regs src)
  | .subImm dst imm => s.result dst (s.read dst-imm)
  | .cmpImm dst imm => { s with zf := s.read dst-imm == 0 }
  | .imul dst src => s.set dst (s.regs dst*s.read src)
  | .je rel => if s.zf then { s with eip := s.eip+rel } else s
  | .jmp rel => { s with eip := s.eip+rel }
  | .ret => { s.set .esp (s.regs .esp+4) with returned := some (read32 s.mem (s.regs .esp)) }

/-- One step of the code; none after it has returned, or where it is no instruction. -/
def step (code : List Byte) (s : State) : Option State :=
  if s.returned.isSome then none else
    (decode (code.drop s.eip.toNat)).map fun (ins,n) => { s with eip := s.eip+n }.exec ins

end State

/-- Byte `n` of the code begins these bytes. -/
def CodeAt (code : List Byte) (n : ℕ) (bytes : List Byte) : Prop :=
  ∃ rest, code.drop n = bytes ++ rest

theorem CodeAt.left {code a b : List Byte} {n : ℕ} (h : CodeAt code n (a ++ b)) :
    CodeAt code n a := by
  obtain ⟨rest,h⟩ := h
  exact ⟨b ++ rest,by rw [h,List.append_assoc]⟩

theorem CodeAt.right {code a b : List Byte} {n : ℕ} (h : CodeAt code n (a ++ b)) :
    CodeAt code (n+a.length) b := by
  obtain ⟨rest,h⟩ := h
  exact ⟨rest,by rw [← List.drop_drop,h,List.append_assoc,List.drop_left]⟩

/-- Before the bytes of an instruction the machine executes it. -/
theorem State.step_of_codeAt {code bytes : List Byte} {n k : ℕ} {s : State} {ins : Instr}
    (hcode : CodeAt code n bytes) (hlen : code.length < 2^32) (heip : s.eip = BitVec.ofNat 32 n)
    (hret : s.returned = none) (hd : ∀ rest, decode (bytes ++ rest) = some (ins,k)) :
    State.step code s = some ({ s with eip := BitVec.ofNat 32 (n+k) }.exec ins) := by
  obtain ⟨rest,hrest⟩ := hcode
  have hn : n < 2^32 := by
    by_contra hn
    have hnil : code.drop n = [] := List.drop_eq_nil_of_le (by omega)
    have := hd rest
    rw [← hrest,hnil] at this
    cases this
  have hfetch : code.drop s.eip.toNat = bytes ++ rest := by
    rw [heip,BitVec.toNat_ofNat,Nat.mod_eq_of_lt hn,hrest]
  rw [State.step,hret,hfetch,hd,BitVec.ofNat_add,← heip]
  rfl

/-- The code runs from `s` until it returns, in the state `t`. -/
def Returns (code : List Byte) (s t : State) : Prop :=
  ∃ n, runSteps (State.step code) n s = some t ∧ t.returned.isSome = true

end PucRio.Ia32
