import PucRio.Compacta.Cabecalho

/-! `mostra` after `compacta`: the report shows the structs as they were, field by field, for up
to 127 of them, if nothing behind the string of fields is taken for a field. -/
namespace PucRio.Compacta

/-- A byte as two digits. -/
def textoDoByte (b : Byte) : List Char :=
  [Nat.digitChar (b.toNat/16),Nat.digitChar (b.toNat%16),' ']

def textoDoCampo (bytes : List Byte) : List Char := bytes.flatMap textoDoByte++['\n']

/-- The memory of struct number `i`. -/
def structDe (valores : ℤ → Byte) (tipos : List Tipo) (i : ℕ) : ℤ → Byte :=
  fun k => valores (i*ia32.sizeOf tipos+k)

/-- What is to be reported of one struct. -/
def textoDoStruct (valores : ℤ → Byte) (tipos : List Tipo) (ord : Char) (i : ℕ) : List Char :=
  separador++(bytesDosCampos (structDe valores tipos i) ord tipos).flatMap textoDoCampo

/-- What is to be reported: the order, the number of structs, and each field of each of them. -/
def relatorio (nstructs : ℕ) (valores : ℤ → Byte) (tipos : List Tipo) (ord : Char) : List Char :=
  (if ord = 'L' then "little\n".toList else "big\n".toList)++decimal nstructs++
    '\n'::(List.range nstructs).flatMap (textoDoStruct valores tipos ord)++separador

theorem mostraByte_eq (b : Byte) : mostraByte b = textoDoByte b := by
  revert b
  decide +kernel

theorem mostraBytes_append (bytes : List Byte) (leitor : Byte) (arquivo : List Byte) :
    ∃ leitor', mostraBytes bytes.length leitor (bytes++arquivo) =
      (bytes.flatMap textoDoByte,leitor',arquivo) := by
  induction bytes generalizing leitor with
  | nil => exact ⟨leitor,rfl⟩
  | cons b bytes ih =>
    obtain ⟨leitor',h⟩ := ih b
    refine ⟨leitor',?_⟩
    rw [List.length_cons,List.cons_append,mostraBytes]
    simp only [leChar,h,mostraByte_eq,List.flatMap_cons]

theorem length_bytesDoCampo (valor : ℤ → Byte) (ord : Char) (offset : ℤ) (t : Tipo) :
    (bytesDoCampo valor ord offset t).length = t.tam := by
  unfold bytesDoCampo
  split_ifs <;> simp

theorem nbytes_codigo (t : Tipo) : nbytes (t.codigo.setWidth 8) = t.tam := by
  cases t <;> decide

theorem mostraCampos_append (valor : ℤ → Byte) (ord : Char) (l : List (ℕ × Tipo)) (leitor : Byte)
    (arquivo : List Byte) :
    ∃ leitor', mostraCampos (l.map fun x => some (x.2.codigo.setWidth 8)) leitor
      ((l.map fun x => bytesDoCampo valor ord x.1 x.2).flatten++arquivo) =
        .ok ((l.map fun x => bytesDoCampo valor ord x.1 x.2).flatMap textoDoCampo,leitor',
          arquivo) := by
  induction l generalizing leitor with
  | nil => exact ⟨leitor,rfl⟩
  | cons x l ih =>
    obtain ⟨leitor₁,h₁⟩ := mostraBytes_append (bytesDoCampo valor ord x.1 x.2) leitor
      ((l.map fun x => bytesDoCampo valor ord x.1 x.2).flatten++arquivo)
    obtain ⟨leitor₂,h₂⟩ := ih leitor₁
    refine ⟨leitor₂,?_⟩
    rw [length_bytesDoCampo] at h₁
    rw [List.map_cons,List.map_cons,List.flatten_cons,List.append_assoc,mostraCampos,nbytes_codigo,
      h₁]
    simp only [h₂]
    rw [List.flatMap_cons,textoDoCampo,List.append_assoc]
    rfl

theorem mostraStructs_append {tipovar : List (Option Byte)} {bytes : ℕ → List Byte}
    {texto : ℕ → List Char} (l : List ℕ) (leitor : Byte) (arquivo : List Byte)
    (h : ∀ i leitor arquivo, ∃ leitor', mostraCampos tipovar leitor (bytes i++arquivo) =
      .ok (texto i,leitor',arquivo)) :
    mostraStructs tipovar l.length leitor (l.flatMap bytes++arquivo) =
      .ok (l.flatMap fun i => separador++texto i,arquivo) := by
  induction l generalizing leitor with
  | nil => rfl
  | cons i l ih =>
    obtain ⟨leitor',hi⟩ := h i leitor (l.flatMap bytes++arquivo)
    rw [List.length_cons,List.flatMap_cons,List.append_assoc,mostraStructs,hi]
    show (mostraStructs tipovar l.length leitor' _ >>= _) = _
    rw [ih leitor']
    rfl

theorem length_offsets (tipos : List Tipo) (pos : ℕ) :
    (ia32.offsets pos tipos).length = tipos.length := by
  induction tipos generalizing pos with
  | nil => rfl
  | cons t tipos ih => rw [FieldSizes.offsets,List.length_cons,List.length_cons,ih]

section Header

theorem toInt_ofInt_of_le {n : ℕ} (h : n ≤ 127) : (BitVec.ofInt 8 n).toInt = n := by
  rw [BitVec.toInt_ofInt,Int.bmod_def]
  omega

theorem toInt_ofInt_of_gt {n : ℕ} (h : 127 < n) (h' : n ≤ 255) :
    (BitVec.ofInt 8 n).toInt = n-256 := by
  rw [BitVec.toInt_ofInt,Int.bmod_def]
  omega

/-- The second byte, for up to 127 fields. -/
theorem segundoByte {n : ℕ} (h : n ≤ 127) (ord : Char) :
    let leitor := if ord = 'L' then BitVec.ofNat 8 n ||| 0x80 else BitVec.ofNat 8 n
    (leitor.sshiftRight 7 ≠ 0 ↔ ord = 'L') ∧ (leitor &&& 0x7f).toNat = n := by
  have hbyte : ∀ b : Byte, b.toNat ≤ 127 → (b ||| 0x80).sshiftRight 7 ≠ 0 ∧
      b.sshiftRight 7 = 0 ∧ ((b ||| 0x80) &&& 0x7f).toNat = b.toNat ∧
      (b &&& 0x7f).toNat = b.toNat := by
    decide +kernel
  have hn : (BitVec.ofNat 8 n).toNat = n := by
    rw [BitVec.toNat_ofNat]
    omega
  obtain ⟨h₁,h₂,h₃,h₄⟩ := hbyte (BitVec.ofNat 8 n) (by omega)
  split_ifs with hord
  · exact ⟨⟨fun _ => hord,fun _ => h₁⟩,h₃.trans hn⟩
  · exact ⟨⟨fun h => absurd h₂ h,fun h => absurd h hord⟩,h₄.trans hn⟩

end Header

section RoundTrip
variable {nstructs : ℕ} {valores : ℤ → Byte} {tipos : List Tipo} {resto : ℕ → Char} {ord : Char}

theorem strlen_camposDe (tipos : List Tipo) (resto : ℕ → Char) :
    (camposDe tipos resto).strlen = tipos.length :=
  List.length_map _

theorem codigo_camposDe {p : ℕ} (h : p < tipos.length) :
    (camposDe tipos resto).codigo p = tipos[p].codigo := by
  have hp : p < (camposDe tipos resto).texto.length := by
    rw [camposDe,List.length_map]
    exact h
  rw [Campos.codigo,get_of_lt hp,← codigoDe_letra]
  congr 1
  exact List.getElem_map _

theorem tipovar_camposDe (tipos : List Tipo) (resto : ℕ → Char) :
    (camposDe tipos resto).tipovar (camposDe tipos resto).strlen =
      ((ia32.offsets 0 tipos).zip tipos).map fun x => some (x.2.codigo.setWidth 8) := by
  have hsnd : ((ia32.offsets 0 tipos).zip tipos).map Prod.snd = tipos :=
    List.map_snd_zip (length_offsets tipos 0).ge
  have htipos : (((ia32.offsets 0 tipos).zip tipos).map fun x => some (x.2.codigo.setWidth 8)) =
      tipos.map fun t => some (t.codigo.setWidth 8) := by
    conv_rhs => rw [← hsnd,List.map_map]
    rfl
  rw [htipos,Campos.tipovar,strlen_camposDe]
  apply List.ext_getElem
  · simp
  · intro p hp _
    have hp' : p < tipos.length := by simpa using hp
    rw [List.getElem_map,List.getElem_map,List.getElem_range,if_pos hp',codigo_camposDe hp']

/-- The kinds of the header, read back. -/
theorem leTipos_processaTipos (tipos : List Tipo) (resto : ℕ → Char) (leitor : Byte)
    (arquivo : List Byte) (h : Cabecalho) :
    ((camposDe tipos resto).Limpo → ∃ leitor', leTipos ((tipos.length+3)/4) 0 leitor
      ((processaTipos (camposDe tipos resto) ((tipos.length+3)/4) 0 h).1++arquivo)
      (List.replicate tipos.length none) =
        .ok (((ia32.offsets 0 tipos).zip tipos).map fun x => some (x.2.codigo.setWidth 8),leitor',
          arquivo)) ∧
    (¬(camposDe tipos resto).Limpo → leTipos ((tipos.length+3)/4) 0 leitor
      ((processaTipos (camposDe tipos resto) ((tipos.length+3)/4) 0 h).1++arquivo)
      (List.replicate tipos.length none) = .error .foraDoVetor) := by
  have hcodigo : ∀ p < (camposDe tipos resto).strlen, (camposDe tipos resto).codigo p ≠ 0 := by
    intro p hp
    rw [strlen_camposDe] at hp
    rw [codigo_camposDe hp]
    exact codigo_ne_zero _
  have hlen := strlen_camposDe tipos resto
  rw [limpo_iff,hlen,processaTipos_bytes,← hlen,← tipovar_zero,← tipovar_camposDe tipos resto]
  exact leTipos_eq hcodigo (Nat.zero_le _) (Nat.zero_add _) (by omega) (by omega)

/-- The structs of the file, read back. -/
theorem mostraStructs_compacta (valores : ℤ → Byte) {tipos : List Tipo}
    (htam : ia32.fieldsEnd 0 tipos < 2^31) (ord : Char) (n : ℕ) (leitor : Byte) :
    mostraStructs (((ia32.offsets 0 tipos).zip tipos).map fun x => some (x.2.codigo.setWidth 8)) n
      leitor ((List.range n).flatMap fun i =>
        compacta_processaStruct (structDe valores tipos i) ord (tipos.map Tipo.letra) 0) =
      .ok ((List.range n).flatMap (textoDoStruct valores tipos ord),[]) := by
  have h := mostraStructs_append (List.range n) leitor [] fun i leitor arquivo =>
    mostraCampos_append (structDe valores tipos i) ord ((ia32.offsets 0 tipos).zip tipos) leitor
      arquivo
  rw [List.length_range,List.append_nil] at h
  simp only [compacta_processaStruct_flatten _ ord htam]
  exact h

theorem mostra_cons (b₀ b₁ : Byte) (arquivo : List Byte) :
    mostra (b₀::b₁::arquivo) =
      leTipos (((b₁ &&& 0x7f).toNat+3)/4) 0 b₁ arquivo
          (List.replicate (b₁ &&& 0x7f).toNat none) >>= fun x =>
        mostraStructs x.1 b₀.toInt.toNat x.2.1 x.2.2 >>= fun y =>
          .ok ((if b₁.sshiftRight 7 ≠ 0 then "little\n".toList else "big\n".toList)++
            decimal b₀.toInt++ '\n' :: y.1++separador,y.2) := rfl

/-- The structs in the file of `compacta`. -/
def corpo (nstructs : ℕ) (valores : ℤ → Byte) (campos : Campos) (ord : Char) : List Byte :=
  (List.range nstructs).flatMap fun i : ℕ => compacta_processaStruct
    (fun k => valores (wrap32 (i*(cabecalho campos).tamanho)+k)) ord campos.texto 0

/-- The file of `compacta`, part by part. -/
theorem mostra_compacta (nstructs : ℕ) (valores : ℤ → Byte) {tipos : List Tipo}
    (resto : ℕ → Char) (ord : Char) (htipos : tipos.length ≤ 127) :
    ∃ b₁ : Byte, mostra (compacta nstructs valores (camposDe tipos resto) ord).1 =
      leTipos ((tipos.length+3)/4) 0 b₁
          ((processaTipos (camposDe tipos resto) ((tipos.length+3)/4) 0 ⟨0,0,false,false⟩).1++
            corpo nstructs valores (camposDe tipos resto) ord)
          (List.replicate tipos.length none) >>= fun x =>
        mostraStructs x.1 (BitVec.ofInt 8 nstructs).toInt.toNat x.2.1 x.2.2 >>= fun y =>
          .ok ((if ord = 'L' then "little\n".toList else "big\n".toList)++
            decimal (BitVec.ofInt 8 nstructs).toInt++ '\n' :: y.1++separador,y.2) := by
  obtain ⟨hord,hn⟩ := segundoByte htipos ord
  refine ⟨if ord = 'L' then BitVec.ofNat 8 tipos.length ||| 0x80 else BitVec.ofNat 8 tipos.length,
    ?_⟩
  unfold compacta
  rw [strlen_camposDe,Int.toNat_natCast]
  refine (mostra_cons _ _ _).trans ?_
  rw [hn,corpo,cabecalho,strlen_camposDe]
  simp only [hord]
  rfl

/-- Where an `int` can count the bytes, each struct is read at its place. -/
theorem corpo_eq {nstructs : ℕ} {tipos : List Tipo} {resto : ℕ → Char}
    (hlimpo : (camposDe tipos resto).Limpo) (hsize : ia32.sizeOf tipos < 2^31)
    (hbytes : ∀ i < nstructs, i*ia32.sizeOf tipos < 2^31) (valores : ℤ → Byte) (ord : Char) :
    corpo nstructs valores (camposDe tipos resto) ord = (List.range nstructs).flatMap fun i =>
      compacta_processaStruct (structDe valores tipos i) ord (tipos.map Tipo.letra) 0 := by
  rw [corpo,tamanho_cabecalho hlimpo,wrap32_natCast hsize]
  apply List.flatMap_congr
  intro i hi
  have hplace : wrap32 (i*ia32.sizeOf tipos) = i*ia32.sizeOf tipos := by
    rw [← Nat.cast_mul,wrap32_natCast (hbytes i (List.mem_range.mp hi))]
  rw [hplace]
  rfl

/-- A number that is printed with a sign is not one without. -/
theorem decimal_ne {n : ℕ} (h : n ≤ 255) (texto texto' : List Char) :
    decimal (n-256)++texto ≠ decimal n++texto' := by
  have hdigit : ∀ n < 256, (Nat.toDigits 10 n).head?.any (· != '-') := by
    decide +kernel
  obtain ⟨c,hc,hne⟩ := (Option.any_eq_true _ _).mp (hdigit n (by omega))
  obtain ⟨l,hl⟩ := List.head?_eq_some_iff.mp hc
  rw [decimal,decimal,if_pos (by omega),if_neg (by omega),Int.natAbs_natCast,hl]
  intro heq
  have hhead := (List.cons.inj heq).1
  simp [← hhead] at hne

/-- What `mostra` reports is right, and it reads the whole file, exactly when there are up to 127
structs and nothing behind the string of fields is taken for a field. -/
theorem mostra_compacta_eq_relatorio_iff (valores : ℤ → Byte) (resto : ℕ → Char) (ord : Char)
    (hnstructs : nstructs ≤ 255) (htipos : tipos.length ≤ 127) :
    mostra (compacta nstructs valores (camposDe tipos resto) ord).1 =
        .ok (relatorio nstructs valores tipos ord,[]) ↔
      nstructs ≤ 127 ∧ (camposDe tipos resto).Limpo := by
  obtain ⟨b₁,hmostra⟩ := mostra_compacta nstructs valores resto ord htipos
  obtain ⟨hlimpo,hsujo⟩ := leTipos_processaTipos tipos resto b₁
    (corpo nstructs valores (camposDe tipos resto) ord) ⟨0,0,false,false⟩
  have hsize := sizeOf_le tipos
  have hbytes (i : ℕ) (hi : i < nstructs) : i*ia32.sizeOf tipos < 2^31 := by
    have hmul : i*ia32.sizeOf tipos ≤ 255*892 := Nat.mul_le_mul (by omega) (by omega)
    omega
  rw [hmostra]
  by_cases h : (camposDe tipos resto).Limpo
  · obtain ⟨leitor,hok⟩ := hlimpo h
    rw [hok,corpo_eq h (by omega) hbytes]
    show (mostraStructs _ _ leitor _ >>= _) = _ ↔ _
    by_cases hn : nstructs ≤ 127
    · refine iff_of_true ?_ ⟨hn,h⟩
      rw [toInt_ofInt_of_le hn,Int.toNat_natCast]
      show (mostraStructs _ nstructs leitor ((List.range nstructs).flatMap fun i =>
        compacta_processaStruct (structDe valores tipos i) ord (tipos.map Tipo.letra) 0) >>= _) = _
      rw [mostraStructs_compacta valores
        ((FieldSizes.fieldsEnd_le_sizeOf tipos).trans_lt (by omega))]
      rfl
    · refine iff_of_false ?_ fun hc => hn hc.1
      -- The number of structs is negative as a `char`.
      have hzero : ((nstructs : ℤ)-256).toNat = 0 := by omega
      rw [toInt_ofInt_of_gt (by omega) hnstructs,hzero]
      intro hc
      have htexto := congrArg Prod.fst (Except.ok.inj hc)
      rw [relatorio] at htexto
      simp only [List.append_assoc] at htexto
      exact decimal_ne hnstructs _ _ (List.append_cancel_left htexto)
  · refine iff_of_false ?_ fun hc => h hc.2
    rw [hsujo h]
    exact fun hc => nomatch hc

theorem limpo_of_nul (tipos : List Tipo) : (camposDe tipos fun _ => NUL).Limpo := by
  intro p hp _
  have hget : (camposDe tipos fun _ => NUL).get p = NUL := by
    rw [Campos.get,List.getElem?_eq_none]
    · rfl
    · rw [List.length_append]
      exact hp
  rw [hget]
  decide

theorem mostra_compacta_eq_relatorio_three :
    mostra (compacta 3 (BitVec.ofInt 8) (camposDe [.char,.int,.short,.char,.char] fun _ => NUL)
        'B').1 =
      .ok (relatorio 3 (BitVec.ofInt 8) [.char,.int,.short,.char,.char] 'B',[]) :=
  (mostra_compacta_eq_relatorio_iff _ _ _ (by decide) (by decide)).mpr ⟨by decide,limpo_of_nul _⟩

/-- A file of 200 structs is reported as one of -56. -/
theorem mostra_compacta_ne_relatorio : ¬∀ (nstructs : ℕ) (valores : ℤ → Byte) (tipos : List Tipo)
    (resto : ℕ → Char) (ord : Char), nstructs ≤ 255 → tipos.length ≤ 127 → ord = 'L' ∨ ord = 'B' →
    mostra (compacta nstructs valores (camposDe tipos resto) ord).1 =
      .ok (relatorio nstructs valores tipos ord,[]) := by
  intro h
  have h200 := h 200 (BitVec.ofInt 8) [.char] (fun _ => NUL) 'L' (by decide) (by decide) (.inl rfl)
  exact absurd h200 (by decide +kernel)

end RoundTrip

end PucRio.Compacta
