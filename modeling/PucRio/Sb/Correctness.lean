import PucRio.Sb.Layout
import PucRio.Sb.Simulation

/-! The code of a program returns what the source gives, and does not return where the source does
not end. -/
namespace PucRio.Sb
open Ia32

variable {code : List Byte} {s t : State} {e : Env} {base saved ret : Word} {n : ℕ}

/-- The variables on entry: the parameters lie above the return address that `%esp` points to, and
a local variable holds what its slot in the frame happens to hold. -/
def entryEnv (s : State) : Env
  | .p i => read32 s.mem (s.regs .esp+BitVec.ofNat 32 (4+4*i))
  | .v i => read32 s.mem (s.regs .esp-BitVec.ofNat 32 (8+4*i))

/-- The source ends from `e` with `r` in `v0`. -/
def Gives (b : Block) (e : Env) (r : Word) : Prop := ∃ e', Exec b e e' ∧ e' (.v 0) = r

/-- The machine is back at the caller of `s`. -/
structure BackAtCaller (s t : State) : Prop where
  returned : t.returned = some (read32 s.mem (s.regs .esp))
  esp : t.regs .esp = s.regs .esp+4
  ebp : t.regs .ebp = s.regs .ebp

theorem slot_entry (s : State) (x : Var) :
    read32 s.mem (s.regs .esp-4+x.disp.signExtend 32) = entryEnv s x := by
  have hp : ∀ i : Fin 5, (Var.p i).disp.signExtend 32 = BitVec.ofNat 32 (8+4*i) := by
    decide +kernel
  have hv : ∀ i : Fin 10, (Var.v i).disp.signExtend 32 = -BitVec.ofNat 32 (4+4*i) := by
    decide +kernel
  cases x with
  | p i =>
    rw [hp,entryEnv]
    congr 1
    bv_omega
  | v i =>
    rw [hv,entryEnv]
    congr 1
    bv_omega

/-- The prologue sets up the frame. -/
theorem running_prologo (hlen : code.length < 2^32) (hcode : CodeAt code 0 prologo)
    (heip : s.eip = 0) (hret : s.returned = none) :
    ∃ t, runSteps (State.step code) 3 s = some t ∧
      Running (s.regs .esp-4) (s.regs .ebp) (read32 s.mem (s.regs .esp)) prologo.length
        (entryEnv s) t := by
  have hcode' : CodeAt code 0 ([0x55] ++ ([0x89,0xe5] ++ [0x83,0xec,0x28])) := hcode
  set s₁ : State := { s with eip := BitVec.ofNat 32 1 }.exec (.push .ebp) with hs₁
  set s₂ : State := { s₁ with eip := BitVec.ofNat 32 3 }.exec (.mov (.reg .ebp) (.reg .esp)) with hs₂
  set s₃ : State := { s₂ with eip := BitVec.ofNat 32 6 }.exec (.subImm (.reg .esp) 0x28) with hs₃
  have h₁ : State.step code s = some s₁ := State.step_of_codeAt hcode'.left hlen heip hret
    fun rest => show decode ([0x55] ++ rest) = some (.push .ebp,1) by simp [decode,rm,Reg.ofBits]
  have h₂ : State.step code s₁ = some s₂ :=
    State.step_of_codeAt (s := s₁) hcode'.right.left hlen rfl hret fun rest => show
      decode ([0x89,0xe5] ++ rest) = some (.mov (.reg .ebp) (.reg .esp),2) by
        simp [decode,modRM,rm,regField,Reg.ofBits]
  have h₃ : State.step code s₂ = some s₃ :=
    State.step_of_codeAt (s := s₂) hcode'.right.right hlen rfl hret fun rest => show
      decode ([0x83,0xec,0x28] ++ rest) = some (.subImm (.reg .esp) 0x28,3) by
        simp [decode,modRM,rm,regField,Reg.ofBits,imm8]
  have hmem : s₃.mem = write32 s.mem (s.regs .esp-4) (s.regs .ebp) := rfl
  have hself : s.regs .esp-4+0 = s.regs .esp-4 := BitVec.add_zero _
  refine ⟨s₃,by rw [runSteps_succ h₁,runSteps_succ h₂,runSteps_one h₃],rfl,hret,rfl,?_,?_,?_⟩
  · intro x
    have := x.apart_saved.1.symm.add (s.regs .esp-4)
    rw [hself] at this
    rw [hmem,read32_write32_apart this,slot_entry]
  · rw [hmem,read32_write32_self]
  · have : Apart (s.regs .esp-4+0) (s.regs .esp-4+4) := Apart.add (by decide) _
    rw [hself] at this
    rw [hmem,read32_write32_apart this,show s.regs .esp-4+4 = s.regs .esp by bv_omega]

/-- The epilogue returns `v0`. -/
theorem Running.finalizacao (hlen : code.length < 2^32) (hcode : CodeAt code n finalizacao)
    (h : Running base saved ret n e s) :
    ∃ t, runSteps (State.step code) 4 s = some t ∧ t.returned = some ret ∧
      t.regs .eax = e (.v 0) ∧ t.regs .esp = base+8 ∧ t.regs .ebp = saved := by
  have hcode' : CodeAt code n
    ([0x8b,0x45,(Var.v 0).disp] ++ ([0x89,0xec] ++ ([0x5d] ++ [0xc3]))) := hcode
  set s₁ : State := { s with eip := BitVec.ofNat 32 (n+3) }.exec
    (.mov (.reg .eax) (.mem .ebp ((Var.v 0).disp.signExtend 32))) with hs₁
  set s₂ : State := { s₁ with eip := BitVec.ofNat 32 (n+5) }.exec (.mov (.reg .esp) (.reg .ebp))
    with hs₂
  set s₃ : State := { s₂ with eip := BitVec.ofNat 32 (n+6) }.exec (.pop .ebp) with hs₃
  set s₄ : State := { s₃ with eip := BitVec.ofNat 32 (n+7) }.exec .ret with hs₄
  have h₁ : State.step code s = some s₁ :=
    State.step_of_codeAt hcode'.left hlen h.eip h.returned fun rest => show
      decode ([0x8b,0x45,(Var.v 0).disp] ++ rest) = some (.mov (.reg .eax) (.mem .ebp _),3) by
        simp [decode,modRM,rm,regField,Reg.ofBits]
  have h₂ : State.step code s₁ = some s₂ :=
    State.step_of_codeAt (s := s₁) (k := 2) hcode'.right.left hlen rfl h.returned fun rest => show
      decode ([0x89,0xec] ++ rest) = some (.mov (.reg .esp) (.reg .ebp),2) by
        simp [decode,modRM,rm,regField,Reg.ofBits]
  have h₃ : State.step code s₂ = some s₃ :=
    State.step_of_codeAt (s := s₂) (k := 1) hcode'.right.right.left hlen rfl h.returned fun rest => show
      decode ([0x5d] ++ rest) = some (.pop .ebp,1) by simp [decode,rm,Reg.ofBits]
  have h₄ : State.step code s₃ = some s₄ :=
    State.step_of_codeAt (s := s₃) (k := 1) hcode'.right.right.right hlen rfl h.returned fun rest => show
      decode ([0xc3] ++ rest) = some (.ret,1) by simp [decode]
  have hesp : s₂.regs .esp = base := h.ebp
  have hmem : s₃.mem = s.mem := rfl
  refine ⟨s₄,by rw [runSteps_succ h₁,runSteps_succ h₂,runSteps_succ h₃,runSteps_one h₄],
    ?_,?_,?_,?_⟩
  · show some (read32 s.mem (s₂.regs .esp+4)) = some ret
    rw [hesp,h.ret]
  · show State.read _ (.mem .ebp ((Var.v 0).disp.signExtend 32)) = e (.v 0)
    exact h.read_var (.v 0)
  · show s₂.regs .esp+4+4 = base+8
    rw [hesp]
    bv_omega
  · show read32 s.mem (s₂.regs .esp) = saved
    rw [hesp,h.saved]

/-- For every text of a program that fits, `geracod` writes code that returns exactly when the
source ends, with the same `v0`, from any parameters and any contents of the local variables. -/
theorem geracod_correct {f : List Char} {b : Block} (hf : Layout n f b.linhas) (hn : n < 50)
    (hfit : prologo.length+b.size+finalizacao.length ≤ 50*16) (hdepth : b.depth ≤ 25) :
    ∃ code, geracod f = .ok code ∧ ∀ s : State, s.eip = 0 → s.returned = none →
      (∀ r, Gives b (entryEnv s) r ↔ ∃ t, Returns code s t ∧ t.regs .eax = r) ∧
      ∀ t, Returns code s t → BackAtCaller s t := by
  refine ⟨_,geracod_layout hf hn hfit hdepth,fun s heip hret => ?_⟩
  set code := prologo ++ b.code ++ finalizacao with hcode
  have hlen : code.length < 2^32 := by
    simp only [hcode,List.length_append,length_code]
    omega
  have hwhole : CodeAt code 0 (prologo ++ b.code ++ finalizacao) := ⟨[],by simp [hcode]⟩
  have hblock := hwhole.left.right
  have hend := hwhole.right
  rw [List.length_append,length_code,Nat.zero_add] at hend
  rw [Nat.zero_add] at hblock
  obtain ⟨t₀,h₀,hrun₀⟩ := running_prologo hlen hwhole.left.left heip hret
  -- from the end of the block the code returns
  have hreturn : ∀ {e' k u}, runSteps (State.step code) k t₀ = some u →
      Running (s.regs .esp-4) (s.regs .ebp) (read32 s.mem (s.regs .esp))
        (prologo.length+b.size) e' u →
      ∃ t, Returns code s t ∧ t.regs .eax = e' (.v 0) ∧ BackAtCaller s t := by
    intro e' k u hu hrun
    obtain ⟨t,ht,hret',heax,hesp,hebp⟩ := hrun.finalizacao hlen hend
    refine ⟨t,⟨3+(k+4),?_,by simp [hret']⟩,heax,hret',?_,hebp⟩
    · rw [runSteps_add h₀,runSteps_add hu,ht]
    · rw [hesp]
      bv_omega
  have hstop : ∀ {t : State}, t.returned.isSome = true → State.step code t = none := by
    intro t ht
    rw [State.step,if_pos ht]
  have hunique : ∀ {t t' : State}, Returns code s t → Returns code s t' → t = t' := by
    rintro t t' ⟨m,h,ht⟩ ⟨m',h',ht'⟩
    exact runSteps_stop_unique h (hstop ht) h' (hstop ht')
  -- and when it returns, the source has ended
  have hends : ∀ {t}, Returns code s t → ∃ e', Exec b (entryEnv s) e' ∧
      t.regs .eax = e' (.v 0) ∧ BackAtCaller s t := by
    rintro t ⟨n,hs,ht⟩
    obtain ⟨k,-,hk⟩ := runSteps_suffix h₀ hs (hstop ht)
    obtain ⟨e',j,u,hexec,hu,hrun⟩ := hrun₀.exec_of_returns hlen hblock hk ht
    obtain ⟨t',ht',heax,hback⟩ := hreturn hu hrun
    obtain rfl := hunique ⟨n,hs,ht⟩ ht'
    exact ⟨e',hexec,heax,hback⟩
  refine ⟨fun r => ⟨?_,?_⟩,fun t ht => ?_⟩
  · rintro ⟨e',hexec,rfl⟩
    obtain ⟨k,u,hu,hrun⟩ := hrun₀.exec hlen hexec hblock
    obtain ⟨t,ht,heax,-⟩ := hreturn hu hrun
    exact ⟨t,ht,heax⟩
  · rintro ⟨t,ht,rfl⟩
    obtain ⟨e',hexec,heax,-⟩ := hends ht
    exact ⟨e',hexec,heax.symm⟩
  · obtain ⟨-,-,-,hback⟩ := hends ht
    exact hback

/-- Multiplies `f` by the factorial of `n`. -/
def fatorial (f n : Var) : Block :=
  .while n (.assign f (.var f) .mul (.var n) (.assign n (.var n) .sub (.const 1) .nil)) .nil

def textoFatorial : List Char :=
  ['w','h','i','l','e',' ','p','0','\n'] ++
  ['v','0',' ','=',' ','v','0',' ','*',' ','p','0','\n'] ++
  ['p','0',' ','=',' ','p','0',' ','-',' ','$','1','\n'] ++
  ['e','n','d','\n','r','e','t','\n']

theorem layout_fatorial : Layout 4 textoFatorial (fatorial (.v 0) (.p 0)).linhas := by
  have h0 : Scanf.Numeral ['0'] 0 :=
    Scanf.numeral_digit (by decide) (by decide)
  have h1 : Scanf.Numeral ['1'] 1 :=
    Scanf.numeral_digit (by decide) (by decide)
  have hw : Blanks [' '] := by simp [Blanks]
  exact .while (x := .p 0) h0 hw <| .newline <|
    .assign .mul (d := .v 0) (x := .var (.v 0)) (y := .var (.p 0)) h0 h0 h0 hw hw hw hw <|
    .newline <|
    .assign .sub (d := .p 0) (x := .var (.p 0)) (y := .const 1) h0 h0 h1 hw hw hw hw <|
    .newline <| .fim <| .newline .ret

theorem geracod_correct_fatorial :
    ∃ code, geracod textoFatorial = .ok code ∧ ∀ s : State, s.eip = 0 → s.returned = none →
      (∀ r, Gives (fatorial (.v 0) (.p 0)) (entryEnv s) r ↔ ∃ t, Returns code s t ∧ t.regs .eax = r) ∧
      ∀ t, Returns code s t → BackAtCaller s t :=
  geracod_correct layout_fatorial (by decide) (by decide) (by decide)

end PucRio.Sb
