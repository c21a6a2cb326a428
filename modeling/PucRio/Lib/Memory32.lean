import Mathlib.Algebra.Order.Ring.Nat
import Mathlib.Data.BitVec

/-! 32-bit words in a memory of bytes, the lowest byte first. -/
namespace PucRio

abbrev Byte := BitVec 8
abbrev Word := BitVec 32
abbrev Memory := Word → Byte

/-- The byte at position `k` of a word. -/
def byteAt (w : Word) (k : ℕ) : Byte := w.extractLsb' (8*k) 8

def le32 (w : Word) : List Byte := [byteAt w 0,byteAt w 1,byteAt w 2,byteAt w 3]

def ofLe32 (b₀ b₁ b₂ b₃ : Byte) : Word := b₃ ++ b₂ ++ b₁ ++ b₀

def read32 (m : Memory) (a : Word) : Word := ofLe32 (m a) (m (a+1)) (m (a+2)) (m (a+3))

def write32 (m : Memory) (a w : Word) : Memory := fun x =>
  if (x-a).toNat < 4 then byteAt w (x-a).toNat else m x

theorem ofLe32_byteAt (w : Word) :
    ofLe32 (byteAt w 0) (byteAt w 1) (byteAt w 2) (byteAt w 3) = w := by
  apply BitVec.eq_of_getLsbD_eq
  intro i hi
  simp only [ofLe32,byteAt,BitVec.getLsbD_append,BitVec.getLsbD_extractLsb']
  by_cases h₁ : i < 8
  · simp [h₁]
  · by_cases h₂ : i-8 < 8
    · simp [h₁,h₂,show 8+(i-8) = i by omega]
    · by_cases h₃ : i-8-8 < 8
      · simp [h₁,h₂,h₃,show 16+(i-8-8) = i by omega]
      · simp [h₁,h₂,h₃,show 24+(i-8-8-8) = i by omega,show i-8-8-8 < 8 by omega]

/-- Two words that do not overlap, also where addresses wrap around. -/
def Apart (a b : Word) : Prop := 4 ≤ (b-a).toNat ∧ (b-a).toNat+4 ≤ 2^32

instance (a b : Word) : Decidable (Apart a b) := inferInstanceAs (Decidable (_ ∧ _))

theorem Apart.symm {a b : Word} (h : Apart a b) : Apart b a := by
  obtain ⟨h₁,h₂⟩ := h
  rw [BitVec.toNat_sub] at h₁ h₂
  rw [Apart,BitVec.toNat_sub]
  omega

theorem Apart.add {a b : Word} (h : Apart a b) (base : Word) : Apart (base+a) (base+b) := by
  have : base+b-(base+a) = b-a := by bv_omega
  rwa [Apart,this]

theorem read32_write32_self (m : Memory) (a w : Word) : read32 (write32 m a w) a = w := by
  have h : ∀ k : Word, k.toNat < 4 → write32 m a w (a+k) = byteAt w k.toNat := by
    intro k hk
    have : a+k-a = k := by bv_omega
    rw [write32,this,if_pos hk]
  have h₀ := h 0 (by decide)
  rw [show (0 : Word) = 0#32 from rfl,BitVec.add_zero] at h₀
  rw [read32,h₀,h 1 (by decide),h 2 (by decide),h 3 (by decide)]
  exact ofLe32_byteAt w

theorem read32_write32_apart {a b : Word} (h : Apart a b) (m : Memory) (w : Word) :
    read32 (write32 m a w) b = read32 m b := by
  have hout : ∀ k : Word, k.toNat < 4 → write32 m a w (b+k) = m (b+k) := by
    intro k hk
    have hk' : b+k-a = (b-a)+k := by bv_omega
    have : ((b-a)+k).toNat = (b-a).toNat+k.toNat := by
      rw [BitVec.toNat_add,Nat.mod_eq_of_lt]
      have := h.2
      omega
    rw [write32,hk',this,if_neg (by have := h.1; omega)]
  have h₀ := hout 0 (by decide)
  rw [show (0 : Word) = 0#32 from rfl,BitVec.add_zero] at h₀
  rw [read32,read32,h₀,hout 1 (by decide),hout 2 (by decide),hout 3 (by decide)]

end PucRio
