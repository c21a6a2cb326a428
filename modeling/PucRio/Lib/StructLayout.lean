import Mathlib.Order.Lattice
import Mathlib.Algebra.Order.Ring.Nat
import Mathlib.Data.List.Nodup

/-! The layout of a C struct: each field at the next multiple of its alignment, and the whole
padded to a multiple of the largest one. -/
namespace PucRio

/-- The least multiple of `a` from `n` on. -/
def alignUp (n a : ℕ) : ℕ := (n+a-1)/a*a

/-- The sizes and alignments of the kinds of fields. -/
structure FieldSizes (κ : Type*) where
  size : κ → ℕ
  align : κ → ℕ
  align_pos : ∀ t, 0 < align t

theorem alignUp_of_mod_eq_zero {n a : ℕ} (ha : 0 < a) (h : n%a = 0) : alignUp n a = n := by
  obtain ⟨q,rfl⟩ := Nat.dvd_of_mod_eq_zero h
  have hq : (a*q+a-1)/a = q := by
    rw [Nat.add_sub_assoc ha,Nat.mul_add_div ha,Nat.div_eq_of_lt (Nat.sub_lt ha Nat.one_pos),
      Nat.add_zero]
  rw [alignUp,hq,Nat.mul_comm]

theorem alignUp_succ {n a : ℕ} (ha : 0 < a) (h : n%a ≠ 0) : alignUp (n+1) a = alignUp n a := by
  have hn := Nat.div_add_mod n a
  have hlt := Nat.mod_lt n ha
  have h₁ : (n+a-1)/a = n/a+1 := by
    rw [Nat.div_eq_of_lt_le]
    · rw [Nat.add_mul,Nat.mul_comm]
      omega
    · rw [Nat.add_mul,Nat.add_mul,Nat.mul_comm]
      omega
  have h₂ : (n+1+a-1)/a = n/a+1 := by
    rw [Nat.add_right_comm,Nat.add_sub_cancel,Nat.add_div_right _ ha]
  rw [alignUp,alignUp,h₁,h₂]

theorem le_alignUp {a : ℕ} (ha : 0 < a) (n : ℕ) : n ≤ alignUp n a := by
  have h := Nat.lt_div_mul_add ha (a := n+a-1)
  rw [alignUp]
  omega

namespace FieldSizes
variable {κ : Type*} (S : FieldSizes κ)

/-- Where each field begins, the first one not before `pos`. -/
def offsets : ℕ → List κ → List ℕ
  | _,[] => []
  | pos,t::l => alignUp pos (S.align t)::offsets (alignUp pos (S.align t)+S.size t) l

/-- Where the last field ends. -/
def fieldsEnd : ℕ → List κ → ℕ
  | pos,[] => pos
  | pos,t::l => fieldsEnd (alignUp pos (S.align t)+S.size t) l

def maxAlign (l : List κ) : ℕ := (l.map S.align).foldr max 1

def sizeOf (l : List κ) : ℕ := alignUp (S.fieldsEnd 0 l) (S.maxAlign l)

/-- The bytes of the fields, field by field. -/
def cells (pos : ℕ) (l : List κ) : List ℕ :=
  ((S.offsets pos l).zip l).flatMap fun x => List.range' x.1 (S.size x.2)

variable {S}

theorem cells_cons (pos : ℕ) (t : κ) (l : List κ) : S.cells pos (t::l) =
    List.range' (alignUp pos (S.align t)) (S.size t) ++
      S.cells (alignUp pos (S.align t)+S.size t) l := rfl

theorem le_fieldsEnd (pos : ℕ) (l : List κ) : pos ≤ S.fieldsEnd pos l := by
  induction l generalizing pos with
  | nil => exact le_rfl
  | cons t l ih =>
    have halign := le_alignUp (S.align_pos t) pos
    exact (halign.trans (Nat.le_add_right _ _)).trans (ih _)

/-- The fields lie between the first position and their end. -/
theorem mem_cells {pos a : ℕ} {l : List κ} (h : a ∈ S.cells pos l) :
    pos ≤ a ∧ a < S.fieldsEnd pos l := by
  induction l generalizing pos with
  | nil => cases h
  | cons t l ih =>
    have halign := le_alignUp (S.align_pos t) pos
    rw [cells_cons,List.mem_append,List.mem_range'_1] at h
    rw [fieldsEnd]
    have hend := le_fieldsEnd (S := S) (alignUp pos (S.align t)+S.size t) l
    obtain h | h := h
    · omega
    · have := ih h
      omega

/-- A field ends where the last one does, or before. -/
theorem offset_add_size_le {pos : ℕ} {l : List κ} {x : ℕ × κ} (h : x ∈ (S.offsets pos l).zip l) :
    x.1+S.size x.2 ≤ S.fieldsEnd pos l := by
  induction l generalizing pos with
  | nil => cases h
  | cons t l ih =>
    rw [offsets,List.zip_cons_cons,List.mem_cons] at h
    obtain rfl | h := h
    · exact le_fieldsEnd ..
    · exact ih h

/-- The fields lie one behind the other. -/
theorem cells_pairwise (pos : ℕ) (l : List κ) : (S.cells pos l).Pairwise (· < ·) := by
  induction l generalizing pos with
  | nil => exact .nil
  | cons t l ih =>
    rw [cells_cons,List.pairwise_append]
    refine ⟨List.pairwise_lt_range',ih _,fun a ha b hb => ?_⟩
    rw [List.mem_range'_1] at ha
    have := (mem_cells hb).1
    omega

theorem cells_nodup (pos : ℕ) (l : List κ) : (S.cells pos l).Nodup :=
  (cells_pairwise pos l).imp fun h => h.ne

theorem maxAlign_pos (l : List κ) : 0 < S.maxAlign l := by
  rw [maxAlign]
  induction l with
  | nil => exact Nat.one_pos
  | cons t l ih => exact Nat.lt_of_lt_of_le ih (le_max_right _ _)

theorem fieldsEnd_le_sizeOf (l : List κ) : S.fieldsEnd 0 l ≤ S.sizeOf l :=
  le_alignUp (maxAlign_pos l) _

theorem lt_sizeOf_of_mem_cells {a : ℕ} {l : List κ} (h : a ∈ S.cells 0 l) : a < S.sizeOf l :=
  (mem_cells h).2.trans_le (fieldsEnd_le_sizeOf l)

theorem sizeOf_nil : S.sizeOf [] = 0 :=
  alignUp_of_mod_eq_zero (maxAlign_pos []) (Nat.zero_mod _)

/-- The first field begins where the struct does. -/
theorem zero_mem_cells {t : κ} (ht : 0 < S.size t) (l : List κ) : 0 ∈ S.cells 0 (t::l) := by
  rw [cells_cons,alignUp_of_mod_eq_zero (S.align_pos t) (Nat.zero_mod _),List.mem_append,
    List.mem_range'_1]
  exact .inl ⟨le_rfl,by omega⟩

variable (S) in
/-- The bytes of the fields of `n` structs, one struct behind the other. -/
def arrayCells (n : ℕ) (l : List κ) : List ℕ :=
  (List.range n).flatMap fun i => (S.cells 0 l).map fun a => i*S.sizeOf l+a

theorem mem_arrayCells {n a : ℕ} {l : List κ} : a ∈ S.arrayCells n l ↔
    ∃ i < n, ∃ b ∈ S.cells 0 l, a = i*S.sizeOf l+b := by
  rw [arrayCells,List.mem_flatMap]
  simp only [List.mem_range,List.mem_map,eq_comm]

theorem lt_of_mem_arrayCells {n a : ℕ} {l : List κ} (h : a ∈ S.arrayCells n l) :
    a < n*S.sizeOf l := by
  obtain ⟨i,hi,b,hb,rfl⟩ := mem_arrayCells.mp h
  calc i*S.sizeOf l+b < i*S.sizeOf l+S.sizeOf l :=
        Nat.add_lt_add_left (lt_sizeOf_of_mem_cells hb) _
    _ = (i+1)*S.sizeOf l := (Nat.succ_mul _ _).symm
    _ ≤ n*S.sizeOf l := Nat.mul_le_mul_right _ hi

/-- What lies in one struct lies in no other. -/
theorem arrayCells_nodup (n : ℕ) (l : List κ) : (S.arrayCells n l).Nodup := by
  rw [arrayCells,List.nodup_flatMap]
  constructor
  · intro i _
    exact (cells_nodup 0 l).map fun a b h => Nat.add_left_cancel h
  · refine List.nodup_range.imp fun {i j} hij => ?_
    intro a hi hj
    obtain ⟨b,hb,rfl⟩ := List.mem_map.mp hi
    obtain ⟨c,hc,h⟩ := List.mem_map.mp hj
    have hdiv {k d : ℕ} (hd : d ∈ S.cells 0 l) : (k*S.sizeOf l+d)/S.sizeOf l = k := by
      have hlt := lt_sizeOf_of_mem_cells hd
      rw [Nat.mul_comm,Nat.mul_add_div (by omega),Nat.div_eq_of_lt hlt,Nat.add_zero]
    apply hij
    calc i = (i*S.sizeOf l+b)/S.sizeOf l := (hdiv hb).symm
      _ = (j*S.sizeOf l+c)/S.sizeOf l := by rw [h]
      _ = j := hdiv hc

end FieldSizes
end PucRio
