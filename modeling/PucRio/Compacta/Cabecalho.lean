import PucRio.Compacta.Layout

/-! The header: four kinds to a byte, the size of the structs that the same loop finds, and how
`mostra` takes the kinds apart again. -/
namespace PucRio.Compacta

/-- The two bits of a field; none for another character. -/
def codigoDe (c : Char) : BitVec 2 :=
  match c with
  | 'c' => 1
  | 's' => 2
  | 'i' => 3
  | _ => 0

/-- A byte of four kinds, the first one on top. -/
def junta (a b c d : BitVec 2) : Byte := a++b++c++d

@[simp] theorem codigoDe_letra (t : Tipo) : codigoDe t.letra = t.codigo := by
  cases t <;> rfl

theorem codigo_ne_zero (t : Tipo) : t.codigo ≠ 0 := by
  cases t <;> decide

theorem codigoDe_eq_zero_iff (c : Char) : codigoDe c = 0 ↔ c ≠ 'c' ∧ c ≠ 's' ∧ c ≠ 'i' := by
  unfold codigoDe
  split <;> simp_all

section Bits

theorem junta_eq (a b c d : BitVec 2) :
    (((0 ||| a.setWidth 8 <<< (2*3)) ||| b.setWidth 8 <<< (2*2)) ||| c.setWidth 8 <<< (2*1)) |||
      d.setWidth 8 <<< (2*0) = junta a b c d := by
  revert a b c d
  decide +kernel

theorem toNat_junta (a b c d : BitVec 2) :
    (junta a b c d).toNat = 64*a.toNat+16*b.toNat+4*c.toNat+d.toNat := by
  simp only [junta,BitVec.toNat_append]
  rw [← Nat.shiftLeft_add_eq_or_of_lt d.isLt,← Nat.shiftLeft_add_eq_or_of_lt c.isLt,
    ← Nat.shiftLeft_add_eq_or_of_lt b.isLt]
  simp only [Nat.shiftLeft_eq]
  omega

theorem junta_shiftLeft (a b c d : BitVec 2) : junta a b c d <<< 2 = junta b c d 0 := by
  apply BitVec.eq_of_toNat_eq
  rw [BitVec.toNat_shiftLeft,Nat.shiftLeft_eq,toNat_junta,toNat_junta]
  have := a.isLt
  have := b.isLt
  have := c.isLt
  have := d.isLt
  simp only [BitVec.ofNat_eq_ofNat,BitVec.toNat_ofNat]
  omega

theorem junta_sshiftRight (a b c d : BitVec 2) :
    (junta a b c d).sshiftRight 6 &&& 0x03 = a.setWidth 8 := by
  revert a b c d
  decide +kernel

theorem junta_eq_zero_iff (a b c d : BitVec 2) :
    junta a b c d = 0 ↔ a = 0 ∧ b = 0 ∧ c = 0 ∧ d = 0 := by
  simp only [← BitVec.toNat_inj,toNat_junta,BitVec.ofNat_eq_ofNat,BitVec.toNat_ofNat]
  omega

end Bits

theorem processaTipo_byteatual (c : Char) (j : ℕ) (h : Cabecalho) :
    (processaTipo c j h).byteatual = h.byteatual ||| (codigoDe c).setWidth 8 <<< (2*j) := by
  unfold processaTipo codigoDe
  split
  · rfl
  · rfl
  · rfl
  · simp

/-- What a field does to the size and the flags. -/
def medidaDe (c : Char) (m : ℕ × Bool × Bool) : ℕ × Bool × Bool :=
  match c with
  | 'c' => (m.1+1,m.2)
  | 's' => (alignUp m.1 2+2,true,m.2.2)
  | 'i' => (alignUp m.1 4+4,m.2.1,true)
  | _ => m

/-- The variables hold this size and these flags, of the size what an `int` keeps. -/
structure Cabecalho.Mede (h : Cabecalho) (m : ℕ × Bool × Bool) : Prop where
  tamstruct : h.tamstruct = wrap32 m.1
  hasS : h.hasS = m.2.1
  hasI : h.hasI = m.2.2

theorem mede_inicio (byteatual : Byte) : Cabecalho.Mede ⟨byteatual,0,false,false⟩ (0,false,false) :=
  ⟨rfl,rfl,rfl⟩

theorem Cabecalho.Mede.processaTipo {h : Cabecalho} {m : ℕ × Bool × Bool} (hm : h.Mede m) (c : Char)
    (j : ℕ) : (processaTipo c j h).Mede (medidaDe c m) := by
  obtain ⟨htam,hS,hI⟩ := hm
  unfold Compacta.processaTipo medidaDe
  split
  · refine ⟨?_,hS,hI⟩
    show wrap32 (h.tamstruct+1) = wrap32 (m.1+1 : ℕ)
    rw [htam,wrap32_add,Nat.cast_succ]
  · refine ⟨?_,rfl,hI⟩
    show wrap32 (pularPadding 2 2 h.tamstruct+2) = wrap32 (alignUp m.1 2+2 : ℕ)
    rw [htam,pularPadding_eq Nat.two_pos (by decide),wrap32_add,Nat.cast_add,Nat.cast_ofNat]
  · refine ⟨?_,hS,rfl⟩
    show wrap32 (pularPadding 4 4 h.tamstruct+4) = wrap32 (alignUp m.1 4+4 : ℕ)
    rw [htam,pularPadding_eq (by omega) (by decide),wrap32_add,Nat.cast_add,Nat.cast_ofNat]
  · refine ⟨?_,?_,?_⟩ <;> simp_all

/-- The kind at position `p`, in the string or behind it. -/
def Campos.codigo (campos : Campos) (p : ℕ) : BitVec 2 := codigoDe (campos.get p)

/-- The byte of the kinds from `p` on. -/
def Campos.byteDe (campos : Campos) (p : ℕ) : Byte :=
  junta (campos.codigo p) (campos.codigo (p+1)) (campos.codigo (p+2)) (campos.codigo (p+3))

theorem processaGrupo_byteatual (campos : Campos) (i : ℕ) (h : Cabecalho) :
    (processaGrupo campos i h).byteatual = campos.byteDe i := by
  rw [Campos.byteDe,← junta_eq]
  simp only [processaGrupo,List.foldl_cons,List.foldl_nil,processaTipo_byteatual]
  rfl

theorem Cabecalho.Mede.processaGrupo {h : Cabecalho} {m : ℕ × Bool × Bool} (hm : h.Mede m)
    (campos : Campos) (i : ℕ) : (processaGrupo campos i h).Mede
      (((List.range 4).map fun k => campos.get (i+k)).foldl (fun m c => medidaDe c m) m) := by
  have hclear : Cabecalho.Mede { h with byteatual := 0 } m := ⟨hm.tamstruct,hm.hasS,hm.hasI⟩
  exact (((hclear.processaTipo _ _).processaTipo _ _).processaTipo _ _).processaTipo _ _

theorem processaTipos_bytes (campos : Campos) (k i : ℕ) (h : Cabecalho) :
    (processaTipos campos k i h).1 = (List.range k).map fun q => campos.byteDe (i+4*q) := by
  induction k generalizing i h with
  | zero => rfl
  | succ k ih =>
    have hbytes : (processaTipos campos (k+1) i h).1 =
        (processaGrupo campos i h).byteatual::
          (processaTipos campos k (i+4) (processaGrupo campos i h)).1 := rfl
    rw [hbytes,processaGrupo_byteatual,ih,List.range_succ_eq_map,List.map_cons,List.map_map]
    congr 1
    apply List.map_congr_left
    intro q _
    show campos.byteDe (i+4+4*q) = campos.byteDe (i+4*(q+1))
    congr 1
    omega

theorem Cabecalho.Mede.processaTipos {h : Cabecalho} {m : ℕ × Bool × Bool} (hm : h.Mede m)
    (campos : Campos) (k i : ℕ) : (processaTipos campos k i h).2.Mede
      (((List.range (4*k)).map fun k => campos.get (i+k)).foldl (fun m c => medidaDe c m) m) := by
  induction k generalizing i h m with
  | zero => exact hm
  | succ k ih =>
    have hnext := ih (hm.processaGrupo campos i) (i+4)
    have hfour : 4*(k+1) = 4+4*k := by omega
    have hrest : (List.range (4*k)).map (fun k => campos.get (i+4+k)) =
        ((List.range (4*k)).map (4+·)).map fun k => campos.get (i+k) := by
      rw [List.map_map]
      apply List.map_congr_left
      intro q _
      show campos.get (i+4+q) = campos.get (i+(4+q))
      rw [Nat.add_assoc]
    rw [hrest,← List.foldl_append,← List.map_append,← List.range_add,← hfour] at hnext
    exact hnext

/-- Nothing but the string is taken for fields by the loop, which goes by fours. -/
def Campos.Limpo (campos : Campos) : Prop :=
  ∀ p, campos.strlen < p → p < 4*((campos.strlen+3)/4) →
    campos.get p ≠ 'c' ∧ campos.get p ≠ 's' ∧ campos.get p ≠ 'i'

theorem get_of_lt {campos : Campos} {p : ℕ} (h : p < campos.texto.length) :
    campos.get p = campos.texto[p] := by
  rw [Campos.get,List.getElem?_append_left h,List.getElem?_eq_getElem h]
  rfl

theorem get_strlen (campos : Campos) : campos.get campos.strlen = NUL := by
  rw [Campos.get,Campos.strlen,List.getElem?_append_right (Nat.le_refl _),Nat.sub_self]
  rfl

theorem medidaDe_of_codigo_eq_zero {c : Char} (h : codigoDe c = 0) (m : ℕ × Bool × Bool) :
    medidaDe c m = m := by
  obtain ⟨hc,hs,hi⟩ := (codigoDe_eq_zero_iff c).mp h
  unfold medidaDe
  split <;> first | rfl | contradiction

theorem foldl_medidaDe_eq_self {l : List Char} (h : ∀ c ∈ l, codigoDe c = 0)
    (m : ℕ × Bool × Bool) : l.foldl (fun m c => medidaDe c m) m = m := by
  induction l with
  | nil => rfl
  | cons c l ih =>
    rw [List.foldl_cons,medidaDe_of_codigo_eq_zero (h c List.mem_cons_self),
      ih fun c hc => h c (List.mem_cons_of_mem _ hc)]

theorem foldl_medidaDe_letra (tipos : List Tipo) (pos : ℕ) (hasS hasI : Bool) :
    (tipos.map Tipo.letra).foldl (fun m c => medidaDe c m) (pos,hasS,hasI) =
      (ia32.fieldsEnd pos tipos,hasS || tipos.contains .short,hasI || tipos.contains .int) := by
  induction tipos generalizing pos hasS hasI with
  | nil => simp [FieldSizes.fieldsEnd]
  | cons t tipos ih =>
    rw [List.map_cons,List.foldl_cons]
    cases t with
    | char =>
      have halign : alignUp pos 1 = pos := alignUp_of_mod_eq_zero Nat.one_pos (Nat.mod_one _)
      show (tipos.map Tipo.letra).foldl _ (pos+1,hasS,hasI) = _
      rw [ih,List.contains_cons,List.contains_cons]
      show _ = (ia32.fieldsEnd (alignUp pos 1+1) tipos,_,_)
      rw [halign]
      rfl
    | short =>
      show (tipos.map Tipo.letra).foldl _ (alignUp pos 2+2,true,hasI) = _
      rw [ih,List.contains_cons,List.contains_cons]
      cases hasS <;> rfl
    | int =>
      show (tipos.map Tipo.letra).foldl _ (alignUp pos 4+4,hasS,true) = _
      rw [ih,List.contains_cons,List.contains_cons]
      cases hasI <;> rfl

theorem maxAlign_eq (tipos : List Tipo) : ia32.maxAlign tipos =
    if tipos.contains .int then 4 else if tipos.contains .short then 2 else 1 := by
  induction tipos with
  | nil => rfl
  | cons t tipos ih =>
    show max t.tam (ia32.maxAlign tipos) = _
    rw [ih,List.contains_cons,List.contains_cons]
    cases t <;> cases tipos.contains .int <;> cases tipos.contains .short <;> decide

theorem Cabecalho.Mede.tamanho {h : Cabecalho} {m : ℕ × Bool × Bool} (hm : h.Mede m) :
    h.tamanho = wrap32 (alignUp m.1 (if m.2.2 then 4 else if m.2.1 then 2 else 1)) := by
  have hpad : ∀ a : ℕ, 0 < a → (a : ℤ) ∣ 2^32 → (if h.tamstruct.tmod a != 0
      then pularPadding a a h.tamstruct else h.tamstruct) = wrap32 (alignUp m.1 a) := by
    intro a ha hdvd
    rw [hm.tamstruct]
    split_ifs with hmod
    · exact pularPadding_eq ha hdvd _
    · rw [alignUp_of_mod_eq_zero ha ((tmod_wrap32_eq_zero_iff hdvd _).mp (by simpa using hmod))]
  unfold Cabecalho.tamanho
  rw [hm.hasS,hm.hasI]
  rcases m.2.2 with _ | _ <;> rcases m.2.1 with _ | _
  · have halign : alignUp m.1 1 = m.1 := alignUp_of_mod_eq_zero Nat.one_pos (Nat.mod_one _)
    show h.tamstruct = wrap32 (alignUp m.1 1)
    rw [hm.tamstruct,halign]
  · exact hpad 2 Nat.two_pos (by decide)
  · exact hpad 4 (by omega) (by decide)
  · -- A multiple of four is even: the second test finds nothing to do.
    have heven : h.tamstruct.tmod 4 = 0 → h.tamstruct.tmod 2 = 0 := by
      rw [← Int.dvd_iff_tmod_eq_zero,← Int.dvd_iff_tmod_eq_zero]
      omega
    refine Eq.trans ?_ (hpad 4 (by omega) (by decide))
    by_cases h4 : h.tamstruct.tmod 4 = 0
    · simp [h4,heven h4]
    · simp [h4]

/-- What the header loop makes of the string. -/
def cabecalho (campos : Campos) : Cabecalho :=
  (processaTipos campos ((campos.strlen+3)/4) 0 ⟨0,0,false,false⟩).2

/-- With nothing behind the string that looks like a field, the size of a struct is what an `int`
keeps of that of the layout. -/
theorem tamanho_cabecalho {tipos : List Tipo} {resto : ℕ → Char}
    (hlimpo : (camposDe tipos resto).Limpo) :
    (cabecalho (camposDe tipos resto)).tamanho = wrap32 (ia32.sizeOf tipos) := by
  have hlen : (camposDe tipos resto).strlen = tipos.length := List.length_map _
  obtain ⟨n,hn⟩ : ∃ n, 4*(((camposDe tipos resto).strlen+3)/4) = tipos.length+n :=
    ⟨4*((tipos.length+3)/4)-tipos.length,by omega⟩
  have hmede := (mede_inicio 0).processaTipos (camposDe tipos resto)
    (((camposDe tipos resto).strlen+3)/4) 0
  have hinside : (List.range tipos.length).map (fun k => (camposDe tipos resto).get (0+k)) =
      tipos.map Tipo.letra := by
    apply List.ext_getElem
    · simp
    · intro p hp hp'
      rw [List.getElem_map,List.getElem_range,Nat.zero_add,get_of_lt hp']
      rfl
  have hbehind : ∀ c ∈ (List.range n).map ((fun k => (camposDe tipos resto).get (0+k)) ∘
      fun k => tipos.length+k), codigoDe c = 0 := by
    intro c hc
    obtain ⟨k,hk,rfl⟩ := List.mem_map.mp hc
    show codigoDe ((camposDe tipos resto).get (0+(tipos.length+k))) = 0
    rw [Nat.zero_add,codigoDe_eq_zero_iff]
    cases k with
    | zero =>
      rw [Nat.add_zero,← hlen,get_strlen]
      decide
    | succ k =>
      have hk := List.mem_range.mp hk
      exact hlimpo _ (by omega) (by omega)
  rw [hn,List.range_add,List.map_append,List.map_map,List.foldl_append,hinside,
    foldl_medidaDe_eq_self hbehind,foldl_medidaDe_letra,Bool.false_or,Bool.false_or] at hmede
  rw [cabecalho,hmede.tamanho,← maxAlign_eq,FieldSizes.sizeOf]

section Leitura
variable {campos : Campos}

/-- `tipovar` when the first `n` kinds are known. -/
def Campos.tipovar (campos : Campos) (n : ℕ) : List (Option Byte) :=
  (List.range campos.strlen).map fun p =>
    if p < n then some ((campos.codigo p).setWidth 8) else none

theorem tipovar_zero (campos : Campos) : campos.tipovar 0 = List.replicate campos.strlen none := by
  apply List.ext_getElem
  · simp [Campos.tipovar]
  · intro p _ _
    simp [Campos.tipovar]

theorem length_tipovar (campos : Campos) (n : ℕ) : (campos.tipovar n).length = campos.strlen := by
  simp [Campos.tipovar]

theorem set_tipovar (campos : Campos) (n : ℕ) :
    (campos.tipovar n).set n (some ((campos.codigo n).setWidth 8)) = campos.tipovar (n+1) := by
  apply List.ext_getElem
  · simp [Campos.tipovar]
  · intro p _ _
    rw [List.getElem_set]
    simp only [Campos.tipovar,List.getElem_map,List.getElem_range]
    grind

/-- One kind is taken off the top of `leitor`. -/
theorem separaTipos_succ {k n : ℕ} {b c d : BitVec 2} (hn : n < campos.strlen)
    (hcodigo : campos.codigo n ≠ 0) :
    separaTipos (k+1) n (junta (campos.codigo n) b c d) (campos.tipovar n) =
      separaTipos k (n+1) (junta b c d 0) (campos.tipovar (n+1)) := by
  have hjunta : junta (campos.codigo n) b c d ≠ 0 :=
    fun h => hcodigo ((junta_eq_zero_iff _ _ _ _).mp h).1
  rw [separaTipos,if_neg hjunta,length_tipovar,if_pos hn,junta_shiftLeft,junta_sshiftRight,
    set_tipovar]

theorem separaTipos_full {n : ℕ} (hn : n+4 ≤ campos.strlen)
    (hcodigo : ∀ p < campos.strlen, campos.codigo p ≠ 0) :
    separaTipos 4 n (campos.byteDe n) (campos.tipovar n) = .ok (campos.tipovar (n+4),0) := by
  rw [Campos.byteDe,separaTipos_succ (by omega) (hcodigo n (by omega)),
    separaTipos_succ (by omega) (hcodigo (n+1) (by omega)),
    separaTipos_succ (by omega) (hcodigo (n+2) (by omega)),
    separaTipos_succ (by omega) (hcodigo (n+3) (by omega))]
  rfl

theorem codigo_strlen (campos : Campos) : campos.codigo campos.strlen = 0 := by
  rw [Campos.codigo,get_strlen]
  decide

/-- Nothing that looks like a field stands between the end of the string and `limite`. -/
def Campos.LimpoAte (campos : Campos) (limite : ℕ) : Prop :=
  ∀ p, campos.strlen < p → p < limite → campos.codigo p = 0

theorem limpo_iff (campos : Campos) :
    campos.Limpo ↔ campos.LimpoAte (4*((campos.strlen+3)/4)) := by
  apply forall_congr'
  intro p
  rw [Campos.codigo,codigoDe_eq_zero_iff]

/-- When the kinds are all known, what is left of `leitor` must be empty. -/
theorem separaTipos_end {k n limite : ℕ} {leitor : Byte} (hn : campos.strlen = n)
    (hiff : campos.LimpoAte limite ↔ leitor = 0) :
    (campos.LimpoAte limite → separaTipos (k+1) n leitor (campos.tipovar n) =
      .ok (campos.tipovar campos.strlen,0)) ∧
    (¬campos.LimpoAte limite → separaTipos (k+1) n leitor (campos.tipovar n) =
      .error .foraDoVetor) := by
  subst hn
  constructor
  · intro h
    rw [separaTipos,if_pos (hiff.mp h),hiff.mp h]
  · intro h
    have hlt : ¬campos.strlen < (campos.tipovar campos.strlen).length := by
      rw [length_tipovar]
      exact Nat.lt_irrefl _
    rw [separaTipos,if_neg (mt hiff.mpr h),if_neg hlt]

/-- In the last byte the string ends; a field behind it is written outside of the vector. -/
theorem separaTipos_last {n : ℕ} (hn : n < campos.strlen) (hlen : campos.strlen < n+4)
    (hcodigo : ∀ p < campos.strlen, campos.codigo p ≠ 0) :
    (campos.LimpoAte (n+4) → separaTipos 4 n (campos.byteDe n) (campos.tipovar n) =
      .ok (campos.tipovar campos.strlen,0)) ∧
    (¬campos.LimpoAte (n+4) → separaTipos 4 n (campos.byteDe n) (campos.tipovar n) =
      .error .foraDoVetor) := by
  have hnul := codigo_strlen campos
  rw [Campos.byteDe,separaTipos_succ hn (hcodigo n hn)]
  -- One, two or three fields are in the byte.
  obtain h | h | h : campos.strlen = n+1 ∨ campos.strlen = n+2 ∨ campos.strlen = n+3 := by omega
  · apply separaTipos_end h
    rw [junta_eq_zero_iff]
    rw [h] at hnul
    constructor
    · intro hl
      exact ⟨hnul,hl (n+2) (by omega) (by omega),hl (n+3) (by omega) (by omega),rfl⟩
    · rintro ⟨-,h₂,h₃,-⟩ p hp hp'
      obtain rfl | rfl : p = n+2 ∨ p = n+3 := by omega
      · exact h₂
      · exact h₃
  · rw [separaTipos_succ (by omega) (hcodigo (n+1) (by omega))]
    apply separaTipos_end h
    rw [junta_eq_zero_iff]
    rw [h] at hnul
    constructor
    · intro hl
      exact ⟨hnul,hl (n+3) (by omega) (by omega),rfl,rfl⟩
    · rintro ⟨-,h₃,-,-⟩ p hp hp'
      obtain rfl : p = n+3 := by omega
      exact h₃
  · rw [separaTipos_succ (by omega) (hcodigo (n+1) (by omega)),
      separaTipos_succ (by omega) (hcodigo (n+2) (by omega))]
    apply separaTipos_end h
    rw [junta_eq_zero_iff]
    rw [h] at hnul
    constructor
    · intro _
      exact ⟨hnul,rfl,rfl,rfl⟩
    · intro _ p hp hp'
      omega

/-- `mostra` gets the kinds back, unless something behind the string looks like a field. -/
theorem leTipos_eq {k i limite : ℕ} {leitor : Byte} {arquivo : List Byte}
    (hcodigo : ∀ p < campos.strlen, campos.codigo p ≠ 0) (hi : i ≤ campos.strlen)
    (hk : i+4*k = limite) (hle : campos.strlen ≤ limite) (hlt : limite < campos.strlen+4) :
    (campos.LimpoAte limite → ∃ leitor', leTipos k i leitor
      (((List.range k).map fun q => campos.byteDe (i+4*q))++arquivo) (campos.tipovar i) =
        .ok (campos.tipovar campos.strlen,leitor',arquivo)) ∧
    (¬campos.LimpoAte limite → leTipos k i leitor
      (((List.range k).map fun q => campos.byteDe (i+4*q))++arquivo) (campos.tipovar i) =
        .error .foraDoVetor) := by
  induction k generalizing i leitor with
  | zero =>
    obtain rfl : i = campos.strlen := by omega
    refine ⟨fun _ => ⟨leitor,rfl⟩,fun h => absurd ?_ h⟩
    intro p hp hp'
    omega
  | succ k ih =>
    have hbytes : ((List.range (k+1)).map fun q => campos.byteDe (i+4*q))++arquivo =
        campos.byteDe i::(((List.range k).map fun q => campos.byteDe (i+4+4*q))++arquivo) := by
      rw [List.range_succ_eq_map,List.map_cons,List.map_map,List.cons_append]
      congr 2
      apply List.map_congr_left
      intro q _
      show campos.byteDe (i+4*(q+1)) = campos.byteDe (i+4+4*q)
      congr 1
      omega
    have hstep : ∀ r, leTipos (k+1) i leitor (campos.byteDe i::r) (campos.tipovar i) =
        separaTipos 4 i (campos.byteDe i) (campos.tipovar i) >>= fun x =>
          leTipos k (i+4) x.2 r x.1 := fun _ => rfl
    rw [hbytes,hstep]
    by_cases hfull : i+4 ≤ campos.strlen
    · rw [separaTipos_full hfull hcodigo]
      exact ih hfull (by omega)
    · obtain rfl : k = 0 := by omega
      obtain rfl : limite = i+4 := by omega
      obtain ⟨hok,herror⟩ := separaTipos_last (n := i) (by omega) (by omega) hcodigo
      constructor
      · intro h
        rw [hok h]
        exact ⟨0,rfl⟩
      · intro h
        rw [herror h]
        rfl

end Leitura
end PucRio.Compacta
