import PucRio.Compacta.RoundTrip

/-! The addresses that `compacta` reads, against the layout of the structs in the caller's array. -/
namespace PucRio.Compacta

/-- All addresses that `compacta` reads, in their order, as distances from the array. -/
def lidos (nstructs : ℤ) (campos : Campos) (ord : Char) : List ℤ :=
  (List.range nstructs.toNat).flatMap fun i : ℕ =>
    (enderecosLidos ord campos.texto 0).flatten.map
      fun a => wrap32 (i*(cabecalho campos).tamanho)+a

/-- The structs in the file are what stands at the addresses read. -/
theorem structs_lidos (ord : Char) (nstructs : ℤ) (valores : ℤ → Byte) (campos : Campos) :
    ((List.range nstructs.toNat).flatMap fun i : ℕ => compacta_processaStruct
        (fun k => valores (wrap32 (i*(cabecalho campos).tamanho)+k)) ord campos.texto 0) =
      (lidos nstructs campos ord).map valores := by
  rw [lidos,List.map_flatMap]
  congr 1
  funext i
  rw [compacta_processaStruct_lidos,List.map_map]
  rfl

theorem compacta_lidos (ord : Char) (nstructs : ℤ) (valores : ℤ → Byte) (campos : Campos) :
    ∃ inicio, (compacta nstructs valores campos ord).1 =
      inicio ++ (lidos nstructs campos ord).map valores := by
  rw [← structs_lidos]
  exact ⟨_::_::_,rfl⟩

/-- For fields followed by zero bytes, `compacta` follows the layout. -/
structure SegueLayout (tipos : List Tipo) (ord : Char) (nstructs : ℤ) : Prop where
  /-- What is written of the structs is what stands at the addresses read. -/
  escrito : ∀ valores, ∃ inicio, (compacta nstructs valores (camposDe tipos fun _ => NUL) ord).1 =
    inicio ++ (lidos nstructs (camposDe tipos fun _ => NUL) ord).map valores
  tamanho : (cabecalho (camposDe tipos fun _ => NUL)).tamanho = ia32.sizeOf tipos
  campos : enderecosLidos ord (camposDe tipos fun _ => NUL).texto 0 =
    ((ia32.offsets 0 tipos).zip tipos).map (enderecosDoCampo ord)
  dentro : ∀ a ∈ lidos nstructs (camposDe tipos fun _ => NUL) ord,
    0 ≤ a ∧ a < nstructs.toNat*ia32.sizeOf tipos
  umaVez : (lidos nstructs (camposDe tipos fun _ => NUL) ord).Nodup
  /-- The bytes read are those of the fields. -/
  todos : ∀ a, a ∈ lidos nstructs (camposDe tipos fun _ => NUL) ord ↔
    ∃ i < nstructs.toNat, ∃ x ∈ (ia32.offsets 0 tipos).zip tipos, ∃ j < x.2.tam,
      a = i*ia32.sizeOf tipos+(x.1+j : ℕ)

section Layout
variable {tipos : List Tipo} {ord : Char} {nstructs : ℤ}

theorem enderecosDoCampo_perm (ord : Char) (x : ℕ × Tipo) :
    (enderecosDoCampo ord x).Perm ((List.range' x.1 x.2.tam).map Nat.cast) := by
  have hrange : (List.range x.2.tam).map (fun j : ℕ => (x.1 : ℤ)+j) =
      (List.range' x.1 x.2.tam).map Nat.cast := by
    rw [← Nat.add_zero x.1,← List.map_add_range',← List.range_eq_range',List.map_map]
    simp
  rw [enderecosDoCampo,enderecosValor,← hrange]
  split_ifs
  · exact .refl _
  · exact (List.reverse_perm _).map _

/-- The bytes read of a struct are those of its fields. -/
theorem enderecosLidos_perm (ord : Char) (h : ia32.fieldsEnd 0 tipos < 2^31) :
    (enderecosLidos ord (tipos.map Tipo.letra) 0).flatten.Perm
      ((ia32.cells 0 tipos).map Nat.cast) := by
  rw [enderecosLidos_eq ord h,← List.flatMap_def,FieldSizes.cells,List.map_flatMap]
  exact List.Perm.flatMap_left _ fun x _ => enderecosDoCampo_perm ord x

theorem tamanho_of_lt (h : ia32.sizeOf tipos < 2^31) :
    (cabecalho (camposDe tipos fun _ => NUL)).tamanho = ia32.sizeOf tipos := by
  rw [tamanho_cabecalho (limpo_of_nul tipos),wrap32_natCast h]

/-- Where an `int` can count the bytes in front of the last struct, those read are those of the
fields of all structs. -/
theorem lidos_perm (hsize : ia32.sizeOf tipos < 2^31)
    (hbytes : (nstructs-1)*ia32.sizeOf tipos < 2^31) :
    (lidos nstructs (camposDe tipos fun _ => NUL) ord).Perm
      ((ia32.arrayCells nstructs.toNat tipos).map Nat.cast) := by
  rw [lidos,tamanho_of_lt hsize,FieldSizes.arrayCells,List.map_flatMap]
  apply List.Perm.flatMap_left
  intro i hi
  have hplace : (i*ia32.sizeOf tipos : ℤ) ≤ (nstructs-1)*ia32.sizeOf tipos := by
    have hi := List.mem_range.mp hi
    exact Int.mul_le_mul_of_nonneg_right (by omega) (Int.natCast_nonneg _)
  have hwrap : wrap32 (i*ia32.sizeOf tipos) = i*ia32.sizeOf tipos := by
    rw [← Nat.cast_mul] at hplace ⊢
    exact wrap32_natCast (by omega)
  have hfields := (enderecosLidos_perm ord
    ((FieldSizes.fieldsEnd_le_sizeOf tipos).trans_lt hsize)).map
      fun a => wrap32 (i*ia32.sizeOf tipos)+a
  refine hfields.trans (.of_eq ?_)
  rw [List.map_map,List.map_map,hwrap]
  apply List.map_congr_left
  intro a _
  show (i*ia32.sizeOf tipos+a : ℤ) = (i*ia32.sizeOf tipos+a : ℕ)
  push_cast
  rfl

theorem segueLayout_of_lt (hsize : ia32.sizeOf tipos < 2^31)
    (hbytes : (nstructs-1)*ia32.sizeOf tipos < 2^31) : SegueLayout tipos ord nstructs where
  escrito valores := compacta_lidos ord nstructs valores _
  tamanho := tamanho_of_lt hsize
  campos := enderecosLidos_eq ord ((FieldSizes.fieldsEnd_le_sizeOf tipos).trans_lt hsize)
  dentro a ha := by
    obtain ⟨b,hb,rfl⟩ := List.mem_map.mp ((lidos_perm hsize hbytes).mem_iff.mp ha)
    have hlt := FieldSizes.lt_of_mem_arrayCells hb
    rw [← Nat.cast_mul]
    omega
  umaVez := (lidos_perm hsize hbytes).nodup_iff.mpr
    ((FieldSizes.arrayCells_nodup _ _).map Nat.cast_injective)
  todos a := by
    rw [(lidos_perm hsize hbytes).mem_iff,List.mem_map]
    simp only [FieldSizes.mem_arrayCells,FieldSizes.cells,List.mem_flatMap,List.mem_range',
      Nat.one_mul]
    constructor
    · rintro ⟨_,⟨i,hi,_,⟨x,hx,j,hj,rfl⟩,rfl⟩,rfl⟩
      exact ⟨i,hi,x,hx,j,hj,by rw [Nat.cast_add,Nat.cast_mul]⟩
    · rintro ⟨i,hi,x,hx,j,hj,rfl⟩
      exact ⟨_,⟨i,hi,_,⟨x,hx,j,hj,rfl⟩,rfl⟩,by rw [Nat.cast_add,Nat.cast_mul]⟩

/-- The first struct whose place an `int` does not hold. -/
theorem exists_place {size n : ℕ} (hsize : size < 2^31) (h : 2^31 ≤ (n-1)*size) :
    ∃ i < n, 2^31 ≤ i*size ∧ i*size < 2^32 := by
  have hpos : 0 < size := Nat.pos_of_ne_zero fun h₀ => by simp [h₀] at h
  have hle := Nat.div_mul_le_self (2^31+size-1) size
  refine ⟨(2^31+size-1)/size,?_,le_alignUp hpos (2^31),by omega⟩
  by_contra hlt
  have hmul := Nat.mul_le_mul_right size (Nat.le_of_not_lt hlt)
  have hn : n*size = (n-1)*size+size := by
    rw [← Nat.succ_mul]
    congr 1
    rcases n with _ | n
    · simp at h
    · rfl
  omega

/-- A struct whose place wraps around is read in front of the array. -/
theorem exists_neg_mem_lidos (ord : Char) (hsize : ia32.sizeOf tipos < 2^31)
    (h : 2^31 ≤ (nstructs-1)*ia32.sizeOf tipos) :
    ∃ a ∈ lidos nstructs (camposDe tipos fun _ => NUL) ord, a < 0 := by
  cases tipos with
  | nil =>
    rw [FieldSizes.sizeOf_nil] at h
    omega
  | cons t tipos =>
    have hn : 0 < nstructs := by
      by_contra hn
      have hle := Int.mul_nonpos_of_nonpos_of_nonneg (by omega : nstructs-1 ≤ 0)
        (Int.natCast_nonneg (ia32.sizeOf (t::tipos)))
      omega
    obtain ⟨n,rfl⟩ := Int.eq_ofNat_of_zero_le hn.le
    obtain ⟨i,hi,hle,hlt⟩ := exists_place (n := n) hsize (by
      rw [← Int.ofNat_le]
      push_cast [Nat.cast_sub (Int.ofNat_lt.mp hn)]
      exact h)
    have hzero : (0 : ℤ) ∈ (enderecosLidos ord ((t::tipos).map Tipo.letra) 0).flatten :=
      (enderecosLidos_perm ord ((FieldSizes.fieldsEnd_le_sizeOf _).trans_lt hsize)).mem_iff.mpr
        (List.mem_map.mpr ⟨0,FieldSizes.zero_mem_cells t.tam_pos tipos,rfl⟩)
    refine ⟨_,List.mem_flatMap.mpr ⟨i,List.mem_range.mpr hi,List.mem_map.mpr ⟨0,hzero,rfl⟩⟩,?_⟩
    rw [tamanho_of_lt hsize,Int.add_zero,← Nat.cast_mul]
    exact wrap32_neg (by omega) (by omega)

/-- `compacta` follows the layout exactly when an `int` can count the bytes of a struct and those
in front of the last one. -/
theorem segueLayout_iff (tipos : List Tipo) (ord : Char) (nstructs : ℤ) :
    SegueLayout tipos ord nstructs ↔
      ia32.sizeOf tipos < 2^31 ∧ (nstructs-1)*ia32.sizeOf tipos < 2^31 := by
  constructor
  · intro h
    have hsize : ia32.sizeOf tipos < 2^31 := by
      have hwrap := wrap32_lt (ia32.sizeOf tipos)
      rw [← tamanho_cabecalho (limpo_of_nul tipos),h.tamanho] at hwrap
      omega
    refine ⟨hsize,?_⟩
    by_contra hbytes
    obtain ⟨a,ha,hneg⟩ := exists_neg_mem_lidos ord hsize (Int.not_lt.mp hbytes)
    have := (h.dentro a ha).1
    omega
  · rintro ⟨hsize,hbytes⟩
    exact segueLayout_of_lt hsize hbytes

/-- Of 2^29+1 structs of an `int` each, the last one is read 2^31 bytes in front of the array. -/
theorem not_segueLayout_int : ¬∀ (tipos : List Tipo) (ord : Char) (nstructs : ℤ),
    nstructs < 2^31 → SegueLayout tipos ord nstructs := by
  intro h
  have hint := h [.int] 'L' (2^29+1) (by decide)
  have hread : (-2^31 : ℤ) ∈ lidos (2^29+1) (camposDe [.int] fun _ => NUL) 'L' :=
    List.mem_flatMap.mpr ⟨2^29,List.mem_range.mpr (by decide),
      List.mem_map.mpr ⟨0,by decide,by decide⟩⟩
  exact absurd (hint.dentro _ hread).1 (by decide)

end Layout

end PucRio.Compacta
