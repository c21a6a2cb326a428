import PucRio.Lib.PartialRun
import Mathlib.Data.Int.Notation

/-! What the imperative languages share. The values of a memory are computed when they are asked
for: one that is missing is an exception, or a computation without end, for those who ask for it. -/
namespace PucRio.Semantics

abbrev Var := String

/-- `div` on `Integer`, which rounds down and has no value at zero. -/
def div (i j : ℤ) : Option ℤ := if j = 0 then none else some (i.fdiv j)

/-- The numbers of a language, `Integer` or `Int`. -/
class Number (V : Type) where
  zero : V
  one : V
  add : V → V → V
  sub : V → V → V
  mul : V → V → V
  div : V → V → Option V
  neg : V → V
  decEq : DecidableEq V

instance : Number ℤ where
  zero := 0
  one := 1
  add i j := i+j
  sub i j := i-j
  mul i j := i*j
  div := div
  neg i := -i
  decEq := inferInstance

/-- `Int` wraps around, and its `div` refuses the quotient that is out of range. -/
instance : Number Int64 where
  zero := 0
  one := 1
  add i j := i+j
  sub i j := i-j
  mul i j := i*j
  div i j :=
    if j = 0 ∨ (i = Int64.minValue ∧ j = -1) then none else some (.ofInt (i.toInt.fdiv j.toInt))
  neg i := -i
  decEq := inferInstance

variable {V : Type}

abbrev Mem (V : Type) := Var → Option V

def isTrue [Number V] (i : V) : Bool :=
  haveI := Number.decEq (V := V)
  i != Number.zero

def update (var : Var) (val : Option V) (m : Mem V) : Mem V :=
  fun v => if v = var then val else m v

/-- The memory that a run without end leaves. -/
def noMem : Mem V := fun _ => none

theorem update_same (var : Var) (val : Option V) (m : Mem V) : update var val m var = val :=
  if_pos rfl

theorem update_of_ne {var v : Var} (h : v ≠ var) (val : Option V) (m : Mem V) :
    update var val m v = m v :=
  if_neg h

/-- What a variable has in one memory it has in the other. -/
def MemLe (m m' : Mem V) : Prop := ∀ v, KeptBy (m v) (m' v)

namespace MemLe
variable {m m' : Mem V}

theorem refl (m : Mem V) : MemLe m m := fun _ => KeptBy.refl _

theorem noMem (m : Mem V) : MemLe noMem m := fun _ => KeptBy.none _

theorem update {val val' : Option V} (var : Var) (hval : KeptBy val val') (h : MemLe m m') :
    MemLe (update var val m) (Semantics.update var val' m') := by
  intro v
  by_cases hv : v = var
  · subst hv
    rw [update_same,update_same]
    exact hval
  · rw [update_of_ne hv,update_of_ne hv]
    exact h v

end MemLe
end PucRio.Semantics
