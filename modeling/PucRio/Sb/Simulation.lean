import PucRio.Lib.Ia32
import PucRio.Sb.Code

/-! The code of a block on the machine: the variables are the slots of the frame that `%ebp` points
to, and a run of the code follows the source. -/
namespace PucRio.Sb
open Ia32

variable {code bytes post : List Byte} {s t : State} {e : Env} {base saved ret : Word} {n : ℕ}

/-- The machine stands before byte `n` of the code, with the values `e` in the frame at `base`. The
words at `base` and above it are the caller's `%ebp` and the address to return to. -/
structure Running (base saved ret : Word) (n : ℕ) (e : Env) (s : State) : Prop where
  eip : s.eip = BitVec.ofNat 32 n
  returned : s.returned = none
  ebp : s.regs .ebp = base
  slots : ∀ x : Var, read32 s.mem (base+x.disp.signExtend 32) = e x
  saved : read32 s.mem base = saved
  ret : read32 s.mem (base+4) = ret

/-- The frame is the same for other registers, another flag and another place in the code. -/
theorem Running.move {m : ℕ} (h : Running base saved ret n e s)
    (heip : t.eip = BitVec.ofNat 32 m) (hret : t.returned = none)
    (hebp : t.regs .ebp = s.regs .ebp) (hmem : t.mem = s.mem) : Running base saved ret m e t where
  eip := heip
  returned := hret
  ebp := hebp.trans h.ebp
  slots x := hmem ▸ h.slots x
  saved := hmem ▸ h.saved
  ret := hmem ▸ h.ret

theorem Running.read_var (h : Running base saved ret n e s) (x : Var) :
    s.read (.mem .ebp (x.disp.signExtend 32)) = e x := by
  rw [State.read,State.address,h.ebp,h.slots]

theorem imm32_le32 (w : Word) : imm32 (le32 w ++ post) = some w := by
  simp [imm32,le32,ofLe32_byteAt]

namespace Varc

/-- The instruction that loads the value into a register. -/
def loadInstr (r : Reg) : Varc → Instr
  | var x => .mov (.reg r) (.mem .ebp (x.disp.signExtend 32))
  | const c => .movImm r c

theorem decode_loadEcx (x : Varc) :
    decode (x.loadEcx ++ post) = some (x.loadInstr .ecx,x.size) := by
  cases x with
  | var x => simp [loadEcx,decode,modRM,rm,regField,Reg.ofBits,loadInstr,size]
  | const c => simp [loadEcx,decode,imm32_le32,rm,Reg.ofBits,loadInstr,size]

theorem decode_loadEdx (x : Varc) :
    decode (x.loadEdx ++ post) = some (x.loadInstr .edx,x.size) := by
  cases x with
  | var x => simp [loadEdx,decode,modRM,rm,regField,Reg.ofBits,loadInstr,size]
  | const c => simp [loadEdx,decode,imm32_le32,rm,Reg.ofBits,loadInstr,size]

end Varc

namespace Op

def instr : Op → Instr
  | add => .add (.reg .edx) .ecx
  | sub => .sub (.reg .edx) .ecx
  | mul => .imul .edx (.reg .ecx)

theorem decode_code (op : Op) : decode (op.code ++ post) = some (op.instr,op.size) := by
  cases op <;> simp [code,decode,modRM,rm,regField,Reg.ofBits,instr,size]

end Op

theorem decode_store (d : Byte) :
    decode ([0x89,0x55,d] ++ post) = some (.mov (.mem .ebp (d.signExtend 32)) (.reg .edx),3) := by
  simp [decode,modRM,rm,regField,Reg.ofBits]

theorem decode_cmp (d : Byte) :
    decode ([0x83,0x7d,d,0x00] ++ post) = some (.cmpImm (.mem .ebp (d.signExtend 32)) 0,4) := by
  simp [decode,modRM,rm,regField,Reg.ofBits,imm8]

theorem decode_je (rel : Word) : decode ([0x0f,0x84] ++ le32 rel ++ post) = some (.je rel,6) := by
  simp [decode,imm32_le32]

theorem decode_jmp (rel : Word) : decode (0xe9::le32 rel ++ post) = some (.jmp rel,5) := by
  simp [decode,imm32_le32]

/-! The slots of the frame lie apart from each other and from the two words above them. -/

theorem Var.apart {x y : Var} (h : x ≠ y) :
    Apart (x.disp.signExtend 32) (y.disp.signExtend 32) := by
  have hvv : ∀ i j : Fin 10, i ≠ j →
      Apart ((v i).disp.signExtend 32) ((v j).disp.signExtend 32) := by decide +kernel
  have hvp : ∀ (i : Fin 10) (j : Fin 5),
      Apart ((v i).disp.signExtend 32) ((p j).disp.signExtend 32) := by decide +kernel
  have hpv : ∀ (i : Fin 5) (j : Fin 10),
      Apart ((p i).disp.signExtend 32) ((v j).disp.signExtend 32) := by decide +kernel
  have hpp : ∀ i j : Fin 5, i ≠ j →
      Apart ((p i).disp.signExtend 32) ((p j).disp.signExtend 32) := by decide +kernel
  cases x with
  | v i => cases y with
    | v j => exact hvv i j fun hij => h (hij ▸ rfl)
    | p j => exact hvp i j
  | p i => cases y with
    | v j => exact hpv i j
    | p j => exact hpp i j fun hij => h (hij ▸ rfl)

theorem Var.apart_saved (x : Var) :
    Apart (x.disp.signExtend 32) 0 ∧ Apart (x.disp.signExtend 32) 4 := by
  have hv : ∀ i : Fin 10, Apart ((v i).disp.signExtend 32) 0 ∧
      Apart ((v i).disp.signExtend 32) 4 := by decide +kernel
  have hp : ∀ i : Fin 5, Apart ((p i).disp.signExtend 32) 0 ∧
      Apart ((p i).disp.signExtend 32) 4 := by decide +kernel
  cases x with
  | v i => exact hv i
  | p i => exact hp i

theorem ofNat_back (n k : ℕ) :
    BitVec.ofNat 32 (n+10+k+5)+BitVec.ofInt 32 (-(k+15)) = BitVec.ofNat 32 n := by
  rw [← BitVec.ofInt_natCast,← BitVec.ofInt_natCast,← BitVec.ofInt_add]
  congr 1
  omega

/-- Where the parts of a loop stand. -/
theorem codeAt_while {x : Var} {body next : Block}
    (hcode : CodeAt code n (Block.while x body next).code) :
    CodeAt code n (whileCode x (le32 (BitVec.ofNat 32 (body.size+5)))) ∧
      CodeAt code (n+10) body.code ∧
      CodeAt code (n+10+body.size) (0xe9::le32 (BitVec.ofInt 32 (-(body.size+15)))) ∧
      CodeAt code (n+10+body.size+5) next.code := by
  have hlen : (whileCode x (le32 (BitVec.ofNat 32 (body.size+5)))).length = 10 := rfl
  have hjmp := hcode.left.right
  have hnext := hcode.right
  simp only [List.length_append,length_code,hlen,← Nat.add_assoc] at hjmp hnext
  exact ⟨hcode.left.left.left,hcode.left.left.right,hjmp,hnext⟩

/-! One instruction each. -/
section
variable (hlen : code.length < 2^32)
include hlen

theorem Running.load {r : Reg} {x : Varc} (hr : r ≠ .ebp) (hcode : CodeAt code n bytes)
    (hd : ∀ post, decode (bytes ++ post) = some (x.loadInstr r,x.size))
    (h : Running base saved ret n e s) :
    ∃ t, State.step code s = some t ∧ Running base saved ret (n+x.size) e t ∧
      t.regs = Function.update s.regs r (x.eval e) := by
  refine ⟨_,State.step_of_codeAt hcode hlen h.eip h.returned hd,?_⟩
  have hval : ({ s with eip := BitVec.ofNat 32 (n+x.size) }.exec (x.loadInstr r)) =
      { s with eip := BitVec.ofNat 32 (n+x.size) }.set r (x.eval e) := by
    cases x with
    | var x =>
      have hread := (h.move (t := { s with eip := BitVec.ofNat 32 (n+3) }) rfl h.returned
        rfl rfl).read_var x
      exact congrArg (State.set { s with eip := BitVec.ofNat 32 (n+3) } r) hread
    | const c => rfl
  rw [hval]
  exact ⟨h.move rfl h.returned (Function.update_of_ne hr.symm _ _) rfl,rfl⟩

/-- Both operands, in the registers that the operation wants them in. -/
theorem Running.loads {op : Op} {x y : Varc} (hcode : CodeAt code n (loadCode op x y))
    (h : Running base saved ret n e s) :
    ∃ t, runSteps (State.step code) 2 s = some t ∧
      Running base saved ret (n+(x.size+y.size)) e t ∧
      t.regs .edx = (if op = .sub then x.eval e else y.eval e) ∧
      t.regs .ecx = (if op = .sub then y.eval e else x.eval e) := by
  unfold loadCode at hcode
  split_ifs at hcode ⊢ with hop
  · obtain ⟨t,ht,hrun,hregs⟩ := h.load hlen (r := .edx) (by decide) hcode.left
      (fun _ => x.decode_loadEdx)
    have hcode' := hcode.right
    rw [x.length_loadEdx] at hcode'
    obtain ⟨u,hu,hrun',hregs'⟩ := hrun.load hlen (r := .ecx) (by decide) hcode'
      (fun _ => y.decode_loadEcx)
    exact ⟨u,by rw [runSteps_succ ht,runSteps_one hu],by rwa [← Nat.add_assoc],
      by simp [hregs',hregs],by simp [hregs']⟩
  · obtain ⟨t,ht,hrun,hregs⟩ := h.load hlen (r := .ecx) (by decide) hcode.left
      (fun _ => x.decode_loadEcx)
    have hcode' := hcode.right
    rw [x.length_loadEcx] at hcode'
    obtain ⟨u,hu,hrun',hregs'⟩ := hrun.load hlen (r := .edx) (by decide) hcode'
      (fun _ => y.decode_loadEdx)
    exact ⟨u,by rw [runSteps_succ ht,runSteps_one hu],by rwa [← Nat.add_assoc],
      by simp [hregs'],by simp [hregs',hregs]⟩

/-- The operation leaves its result in `%edx`. -/
theorem Running.op {op : Op} (hcode : CodeAt code n op.code) (h : Running base saved ret n e s) :
    ∃ t, State.step code s = some t ∧ Running base saved ret (n+op.size) e t ∧
      t.regs .edx = op.eval (if op = .sub then s.regs .edx else s.regs .ecx)
        (if op = .sub then s.regs .ecx else s.regs .edx) := by
  refine ⟨_,State.step_of_codeAt hcode hlen h.eip h.returned fun _ => op.decode_code,?_⟩
  cases op with
  | add => exact ⟨h.move rfl h.returned rfl rfl,BitVec.add_comm _ _⟩
  | sub => exact ⟨h.move rfl h.returned rfl rfl,rfl⟩
  | mul => exact ⟨h.move rfl h.returned rfl rfl,BitVec.mul_comm _ _⟩

theorem Running.store {d : Var} (hcode : CodeAt code n [0x89,0x55,d.disp])
    (h : Running base saved ret n e s) :
    ∃ t, State.step code s = some t ∧
      Running base saved ret (n+3) (Function.update e d (s.regs .edx)) t := by
  refine ⟨_,State.step_of_codeAt hcode hlen h.eip h.returned fun _ => decode_store d.disp,
    rfl,h.returned,h.ebp,?_,?_,?_⟩
  · intro x
    show read32 (write32 s.mem (s.regs .ebp+d.disp.signExtend 32) (s.regs .edx)) _ = _
    rw [h.ebp]
    by_cases hx : x = d
    · subst hx
      rw [read32_write32_self,Function.update_self]
    · rw [read32_write32_apart ((Var.apart (Ne.symm hx)).add base),h.slots,
        Function.update_of_ne hx]
  · show read32 (write32 s.mem (s.regs .ebp+d.disp.signExtend 32) (s.regs .edx)) base = saved
    have := d.apart_saved.1.add base
    rw [show base+0 = base from BitVec.add_zero base] at this
    rw [h.ebp,read32_write32_apart this,h.saved]
  · show read32 (write32 s.mem (s.regs .ebp+d.disp.signExtend 32) (s.regs .edx)) (base+4) = ret
    rw [h.ebp,read32_write32_apart (d.apart_saved.2.add base),h.ret]

/-- The four instructions of an assignment. -/
theorem Running.assign {d : Var} {x y : Varc} {op : Op}
    (hcode : CodeAt code n (assignCode d x op y)) (h : Running base saved ret n e s) :
    ∃ t, runSteps (State.step code) 4 s = some t ∧
      Running base saved ret (n+(assignCode d x op y).length)
        (Function.update e d (op.eval (x.eval e) (y.eval e))) t := by
  have hload := hcode.left.left
  have hop := hcode.left.right
  have hstore := hcode.right
  rw [length_loadCode] at hop
  rw [List.length_append,length_loadCode,op.length_code,← Nat.add_assoc] at hstore
  obtain ⟨t₁,h₁,hrun₁,hedx,hecx⟩ := h.loads hlen hload
  obtain ⟨t₂,h₂,hrun₂,hres⟩ := hrun₁.op hlen hop
  obtain ⟨t₃,h₃,hrun₃⟩ := hrun₂.store hlen hstore
  refine ⟨t₃,by rw [runSteps_add (n := 2) h₁,runSteps_succ h₂,runSteps_one h₃],?_⟩
  have hval : t₂.regs .edx = op.eval (x.eval e) (y.eval e) := by
    rw [hres,hedx,hecx]
    split_ifs <;> rfl
  rw [← hval,length_assignCode]
  simpa only [Nat.add_assoc] using hrun₃

/-- The test of a loop: to the `end` when the variable is zero, else into the body. -/
theorem Running.test {x : Var} {k : ℕ}
    (hcode : CodeAt code n (whileCode x (le32 (BitVec.ofNat 32 k))))
    (h : Running base saved ret n e s) :
    ∃ t, runSteps (State.step code) 2 s = some t ∧
      Running base saved ret (if e x = 0 then n+10+k else n+10) e t := by
  have hcode' : CodeAt code n ([0x83,0x7d,x.disp,0x00] ++
      ([0x0f,0x84] ++ le32 (BitVec.ofNat 32 k))) := hcode
  set t : State := { s with
    eip := BitVec.ofNat 32 (n+4), zf := s.read (.mem .ebp (x.disp.signExtend 32))-0 == 0 }
  have hstep : State.step code s = some t :=
    State.step_of_codeAt hcode'.left hlen h.eip h.returned fun _ => decode_cmp x.disp
  have ht : Running base saved ret (n+4) e t := h.move rfl h.returned rfl rfl
  have hstep' := State.step_of_codeAt hcode'.right hlen ht.eip ht.returned
    fun _ => decode_je (BitVec.ofNat 32 k)
  refine ⟨_,by rw [runSteps_succ hstep,runSteps_one hstep'],?_⟩
  have hzf : t.zf = decide (e x = 0) := by
    simp only [t,h.read_var]
    rw [show e x-0 = e x from BitVec.sub_zero _]
    rfl
  by_cases hx : e x = 0
  · simp only [State.exec,hzf,hx,decide_true,if_true]
    exact ht.move (BitVec.ofNat_add _ _).symm ht.returned rfl rfl
  · simp only [State.exec,hzf,hx,decide_false,if_false]
    exact ht.move rfl ht.returned rfl rfl

theorem Running.jmp {rel : Word} {m : ℕ} (hcode : CodeAt code n (0xe9::le32 rel))
    (hrel : BitVec.ofNat 32 (n+5)+rel = BitVec.ofNat 32 m) (h : Running base saved ret n e s) :
    ∃ t, State.step code s = some t ∧ Running base saved ret m e t :=
  ⟨_,State.step_of_codeAt hcode hlen h.eip h.returned fun _ => decode_jmp rel,
    h.move hrel h.returned rfl rfl⟩

/-- The machine follows the source to the end of the block. -/
theorem Running.exec {b : Block} {e' : Env} (hb : Exec b e e') (hcode : CodeAt code n b.code)
    (h : Running base saved ret n e s) :
    ∃ k t, runSteps (State.step code) k s = some t ∧
      Running base saved ret (n+b.size) e' t := by
  induction hb generalizing n s with
  | nil => exact ⟨0,s,rfl,h⟩
  | assign hnext ih =>
    obtain ⟨t,ht,hrun⟩ := h.assign hlen hcode.left
    obtain ⟨k,u,hu,hrun'⟩ := ih hcode.right hrun
    refine ⟨4+k,u,by rw [runSteps_add ht,hu],?_⟩
    rw [length_assignCode] at hrun'
    simpa only [Block.size,Nat.add_assoc] using hrun'
  | exit hx hnext ih =>
    obtain ⟨htest,-,-,hnextCode⟩ := codeAt_while hcode
    obtain ⟨t,ht,hrun⟩ := h.test hlen htest
    rw [if_pos hx,← Nat.add_assoc] at hrun
    obtain ⟨k,u,hu,hrun'⟩ := ih hnextCode hrun
    refine ⟨2+k,u,by rw [runSteps_add ht,hu],?_⟩
    simpa only [Block.size,Nat.add_assoc] using hrun'
  | loop hx hbody hnext ihb ihn =>
    obtain ⟨htest,hbodyCode,hjmp,-⟩ := codeAt_while hcode
    obtain ⟨t₁,h₁,hrun₁⟩ := h.test hlen htest
    rw [if_neg hx] at hrun₁
    obtain ⟨k₂,t₂,h₂,hrun₂⟩ := ihb hbodyCode hrun₁
    obtain ⟨t₃,h₃,hrun₃⟩ := hrun₂.jmp hlen hjmp (ofNat_back _ _)
    obtain ⟨k₄,t₄,h₄,hrun₄⟩ := ihn hcode hrun₃
    exact ⟨2+(k₂+(k₄+1)),t₄,by rw [runSteps_add h₁,runSteps_add h₂,runSteps_succ h₃,h₄],hrun₄⟩

/-- A run that returns has left the block behind, and the source ends there too. By induction on
the steps that are left: each loop of the source takes some. -/
theorem Running.exec_of_returns {k : ℕ} {b : Block} (hcode : CodeAt code n b.code)
    (h : Running base saved ret n e s) (hs : runSteps (State.step code) k s = some t)
    (ht : t.returned.isSome = true) :
    ∃ e' j u, Exec b e e' ∧ runSteps (State.step code) j s = some u ∧
      Running base saved ret (n+b.size) e' u := by
  have hstop : State.step code t = none := by rw [State.step,if_pos ht]
  induction k using Nat.strong_induction_on generalizing b n e s with
  | _ k ih =>
    cases b with
    | nil => exact ⟨e,0,s,.nil,rfl,h⟩
    | assign d x op y next =>
      obtain ⟨t₁,h₁,hrun₁⟩ := h.assign hlen hcode.left
      obtain ⟨k₁,rfl,hk₁⟩ := runSteps_suffix h₁ hs hstop
      obtain ⟨e',j,u,hexec,hu,hrun⟩ := ih k₁ (by omega) hcode.right hrun₁ hk₁
      rw [length_assignCode] at hrun
      refine ⟨e',4+j,u,.assign hexec,by rw [runSteps_add h₁,hu],?_⟩
      simpa only [Block.size,Nat.add_assoc] using hrun
    | «while» x body next =>
      obtain ⟨htest,hbodyCode,hjmp,hnextCode⟩ := codeAt_while hcode
      obtain ⟨t₁,h₁,hrun₁⟩ := h.test hlen htest
      obtain ⟨k₁,rfl,hk₁⟩ := runSteps_suffix h₁ hs hstop
      by_cases hx : e x = 0
      · rw [if_pos hx,← Nat.add_assoc] at hrun₁
        obtain ⟨e',j,u,hexec,hu,hrun⟩ := ih k₁ (by omega) hnextCode hrun₁ hk₁
        refine ⟨e',2+j,u,.exit hx hexec,by rw [runSteps_add h₁,hu],?_⟩
        simpa only [Block.size,Nat.add_assoc] using hrun
      · rw [if_neg hx] at hrun₁
        obtain ⟨e₁,j₂,t₂,hbody,h₂,hrun₂⟩ := ih k₁ (by omega) hbodyCode hrun₁ hk₁
        obtain ⟨k₂,rfl,hk₂⟩ := runSteps_suffix h₂ hk₁ hstop
        obtain ⟨t₃,h₃,hrun₃⟩ := hrun₂.jmp hlen hjmp (ofNat_back _ _)
        obtain ⟨k₃,rfl,hk₃⟩ := runSteps_suffix (runSteps_one h₃) hk₂ hstop
        obtain ⟨e',j₄,u,hexec,h₄,hrun₄⟩ := ih k₃ (by omega) hcode hrun₃ hk₃
        exact ⟨e',2+(j₂+(j₄+1)),u,.loop hx hbody hexec,
          by rw [runSteps_add h₁,runSteps_add h₂,runSteps_succ h₃,h₄],hrun₄⟩

end

end PucRio.Sb
