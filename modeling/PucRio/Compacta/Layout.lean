import PucRio.Lib.StructLayout
import PucRio.Compacta.Compacta

/-! The kinds of fields, and what `compacta` writes in terms of the C layout of the structs. -/
namespace PucRio.Compacta

inductive Tipo
  | char
  | short
  | int
  deriving DecidableEq, Repr

namespace Tipo

def letra : Tipo → Char
  | char => 'c'
  | short => 's'
  | int => 'i'

def tam : Tipo → ℕ
  | char => 1
  | short => 2
  | int => 4

def codigo : Tipo → BitVec 2
  | char => 1
  | short => 2
  | int => 3

theorem tam_pos (t : Tipo) : 0 < t.tam := by
  cases t <;> decide

end Tipo

/-- IA-32: each kind is aligned at its size. -/
def ia32 : FieldSizes Tipo := ⟨Tipo.tam,Tipo.tam,Tipo.tam_pos⟩

/-- The string of the kinds, with any memory behind it. -/
def camposDe (tipos : List Tipo) (resto : ℕ → Char) : Campos where
  texto := tipos.map Tipo.letra
  nul_notMem := by
    rw [List.mem_map]
    rintro ⟨t,-,ht⟩
    cases t <;> exact absurd ht (by decide)
  resto := resto

/-- The bytes of the field of kind `t` at `offset`, in the order of `ord`. -/
def bytesDoCampo (valor : ℤ → Byte) (ord : Char) (offset : ℤ) (t : Tipo) : List Byte :=
  if ord = 'L' then (List.range t.tam).map fun j : ℕ => valor (offset+j)
  else (List.range t.tam).reverse.map fun j : ℕ => valor (offset+j)

/-- The bytes of each field of one struct. -/
def bytesDosCampos (valor : ℤ → Byte) (ord : Char) (tipos : List Tipo) : List (List Byte) :=
  ((ia32.offsets 0 tipos).zip tipos).map fun x => bytesDoCampo valor ord x.1 x.2

theorem succ_mod_cases {a : ℕ} (ha : 0 < a) (n : ℕ) :
    (n+1)%a = 0 ∨ (n+1)%a = n%a+1 := by
  have hn := Nat.div_add_mod n a
  have hlt := Nat.mod_lt n ha
  by_cases hend : n%a+1 = a
  · left
    rw [← hn,Nat.add_assoc,hend,Nat.mul_add_mod,Nat.mod_self]
  · right
    have hsucc : n+1 = a*(n/a)+(n%a+1) := by omega
    rw [hsucc,Nat.mul_add_mod,Nat.mod_eq_of_lt (by omega)]

section Inteiros
variable {a : ℕ}

/-- The test of the loop, on what an `int` keeps of `n`. -/
theorem tmod_wrap32_eq_zero_iff (hdvd : (a : ℤ) ∣ 2^32) (n : ℕ) :
    (wrap32 n).tmod a = 0 ↔ n%a = 0 := by
  rw [← Int.dvd_iff_tmod_eq_zero,dvd_wrap32_iff hdvd,Int.natCast_dvd_natCast,
    Nat.dvd_iff_mod_eq_zero]

theorem pularPadding_eq_of_le {k n : ℕ} (ha : 0 < a) (hdvd : (a : ℤ) ∣ 2^32)
    (h : n%a = 0 ∨ a ≤ n%a+k) : pularPadding a k (wrap32 n) = wrap32 (alignUp n a) := by
  induction k generalizing n with
  | zero =>
    have hlt := Nat.mod_lt n ha
    rw [pularPadding,alignUp_of_mod_eq_zero ha (by omega)]
  | succ k ih =>
    by_cases hmod : n%a = 0
    · rw [pularPadding,if_neg (not_not.mpr ((tmod_wrap32_eq_zero_iff hdvd n).mpr hmod)),
        alignUp_of_mod_eq_zero ha hmod]
    · have hsucc := succ_mod_cases ha n
      have hwrap : wrap32 (wrap32 n+1) = wrap32 (n+1 : ℕ) := wrap32_add n 1
      rw [pularPadding,if_pos (mt (tmod_wrap32_eq_zero_iff hdvd n).mp hmod),hwrap,ih (by omega),
        alignUp_succ ha hmod]

theorem pularPadding_eq (ha : 0 < a) (hdvd : (a : ℤ) ∣ 2^32) (n : ℕ) :
    pularPadding a a (wrap32 n) = wrap32 (alignUp n a) :=
  pularPadding_eq_of_le ha hdvd (by omega)

end Inteiros

/-- The addresses of a value of `tam` bytes in the order of `ord`. -/
def enderecosValor (ord : Char) (tam : ℕ) (memcounter : ℤ) : List ℤ :=
  if ord = 'L' then (List.range tam).map fun j : ℕ => memcounter+j
  else (List.range tam).reverse.map fun j : ℕ => memcounter+j

/-- The addresses that each round of the loop of `compacta_processaStruct` reads, from the address
of the struct on. -/
def enderecosLidos (ord : Char) : List Char → ℤ → List (List ℤ)
  | [],_ => []
  | c::campos,memcounter =>
    match c with
    | 'c' => [memcounter]::enderecosLidos ord campos (wrap32 (memcounter+1))
    | 's' =>
      let memcounter := pularPadding 2 2 memcounter
      enderecosValor ord 2 memcounter::enderecosLidos ord campos (wrap32 (memcounter+2))
    | 'i' =>
      let memcounter := pularPadding 4 4 memcounter
      enderecosValor ord 4 memcounter::enderecosLidos ord campos (wrap32 (memcounter+4))
    | _ => []::enderecosLidos ord campos memcounter

section Reads
variable (valor : ℤ → Byte) (ord : Char)

theorem escreveValor_lidos (tam : ℕ) (memcounter : ℤ) :
    escreveValor valor ord tam memcounter = (enderecosValor ord tam memcounter).map valor := by
  rw [escreveValor,enderecosValor]
  split_ifs <;> rw [List.map_map] <;> rfl

/-- What is written of a struct is what stands at the addresses read. -/
theorem compacta_processaStruct_lidos (campos : List Char) (memcounter : ℤ) :
    compacta_processaStruct valor ord campos memcounter =
      (enderecosLidos ord campos memcounter).flatten.map valor := by
  induction campos generalizing memcounter with
  | nil => rfl
  | cons c campos ih =>
    rw [compacta_processaStruct.eq_def]
    dsimp only
    split
    · rw [enderecosLidos,ih,List.flatten_cons,List.map_append]
      rfl
    · rw [enderecosLidos,ih,List.flatten_cons,List.map_append,escreveValor_lidos]
    · rw [enderecosLidos,ih,List.flatten_cons,List.map_append,escreveValor_lidos]
    · rw [enderecosLidos,ih]
      · rfl
      all_goals assumption

end Reads

/-- The addresses of the field of kind `x.2` at `x.1`. -/
def enderecosDoCampo (ord : Char) (x : ℕ × Tipo) : List ℤ := enderecosValor ord x.2.tam x.1

section Lidos
variable (ord : Char)

/-- The loop over the fields reads them where the layout has them, as far as an `int` tells the
places apart. -/
theorem enderecosLidos_wrap32 (tipos : List Tipo) (memcounter : ℕ) :
    enderecosLidos ord (tipos.map Tipo.letra) (wrap32 memcounter) =
      ((ia32.offsets memcounter tipos).zip tipos).map
        fun x => enderecosValor ord x.2.tam (wrap32 x.1) := by
  induction tipos generalizing memcounter with
  | nil => rfl
  | cons t tipos ih =>
    cases t with
    | char =>
      have halign : alignUp memcounter 1 = memcounter :=
        alignUp_of_mod_eq_zero Nat.one_pos (Nat.mod_one _)
      have hbyte : enderecosValor ord 1 (wrap32 memcounter) = [wrap32 memcounter] := by
        rw [enderecosValor]
        split_ifs <;> simp
      have hnext : wrap32 (wrap32 memcounter+1) = wrap32 (memcounter+1 : ℕ) := wrap32_add ..
      show [wrap32 memcounter]::enderecosLidos ord _ (wrap32 (wrap32 memcounter+1)) =
        enderecosValor ord 1 (wrap32 (alignUp memcounter 1 : ℕ))::
          ((ia32.offsets (alignUp memcounter 1+1) tipos).zip tipos).map _
      rw [hnext,ih,halign,hbyte]
    | short =>
      have hnext : wrap32 (wrap32 (alignUp memcounter 2)+2) = wrap32 (alignUp memcounter 2+2 : ℕ) :=
        wrap32_add ..
      show enderecosValor ord 2 (pularPadding 2 2 (wrap32 memcounter))::
        enderecosLidos ord _ (wrap32 (pularPadding 2 2 (wrap32 memcounter)+2)) = _
      rw [pularPadding_eq Nat.two_pos (by decide),hnext,ih]
      rfl
    | int =>
      have hnext : wrap32 (wrap32 (alignUp memcounter 4)+4) = wrap32 (alignUp memcounter 4+4 : ℕ) :=
        wrap32_add ..
      show enderecosValor ord 4 (pularPadding 4 4 (wrap32 memcounter))::
        enderecosLidos ord _ (wrap32 (pularPadding 4 4 (wrap32 memcounter)+4)) = _
      rw [pularPadding_eq (by omega) (by decide),hnext,ih]
      rfl

/-- In a struct that an `int` measures the places are those of the layout. -/
theorem enderecosLidos_eq {tipos : List Tipo} (h : ia32.fieldsEnd 0 tipos < 2^31) :
    enderecosLidos ord (tipos.map Tipo.letra) 0 =
      ((ia32.offsets 0 tipos).zip tipos).map (enderecosDoCampo ord) := by
  have hplaces := enderecosLidos_wrap32 ord tipos 0
  rw [show wrap32 (0 : ℕ) = 0 from rfl] at hplaces
  rw [hplaces]
  apply List.map_congr_left
  intro x hx
  have hend := FieldSizes.offset_add_size_le hx
  rw [enderecosDoCampo,wrap32_natCast (by omega)]

end Lidos

/-- What is written of a struct that an `int` measures. -/
theorem compacta_processaStruct_flatten (valor : ℤ → Byte) (ord : Char) {tipos : List Tipo}
    (h : ia32.fieldsEnd 0 tipos < 2^31) :
    compacta_processaStruct valor ord (tipos.map Tipo.letra) 0 =
      (bytesDosCampos valor ord tipos).flatten := by
  rw [compacta_processaStruct_lidos,enderecosLidos_eq ord h,bytesDosCampos,List.map_flatten,
    List.map_map]
  congr 2
  funext x
  exact (escreveValor_lidos valor ord x.2.tam x.1).symm

theorem fieldsEnd_le (pos : ℕ) (tipos : List Tipo) :
    ia32.fieldsEnd pos tipos ≤ pos+7*tipos.length := by
  induction tipos generalizing pos with
  | nil => exact le_rfl
  | cons t tipos ih =>
    have hnext : alignUp pos t.tam+t.tam ≤ pos+7 := by
      unfold alignUp
      cases t <;> simp only [Tipo.tam] <;> omega
    rw [List.length_cons]
    exact (ih _).trans (by change alignUp pos t.tam+t.tam+_ ≤ _; omega)

theorem maxAlign_le (tipos : List Tipo) : ia32.maxAlign tipos ≤ 4 := by
  induction tipos with
  | nil => decide
  | cons t tipos ih => exact max_le (by cases t <;> decide) ih

theorem sizeOf_le (tipos : List Tipo) : ia32.sizeOf tipos ≤ 7*tipos.length+3 := by
  have hend := fieldsEnd_le 0 tipos
  have halign := maxAlign_le tipos
  have hsize := Nat.div_mul_le_self (ia32.fieldsEnd 0 tipos+ia32.maxAlign tipos-1)
    (ia32.maxAlign tipos)
  change ia32.sizeOf tipos ≤ _ at hsize
  omega

end PucRio.Compacta
