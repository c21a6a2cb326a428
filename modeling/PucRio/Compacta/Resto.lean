import PucRio.Compacta.Leituras

/-! What `compacta` makes of the memory behind the end of `campos`: the header loop goes by fours, and
up to three characters behind the string are taken for kinds too. -/
namespace PucRio.Compacta

theorem junta_head {a b c d a' b' c' d' : BitVec 2} (h : junta a b c d = junta a' b' c' d') :
    a = a' ∧ junta b c d 0 = junta b' c' d' 0 := by
  constructor
  · have htop := congrArg (fun leitor : Byte => leitor.sshiftRight 6 &&& 0x03) h
    rw [junta_sshiftRight,junta_sshiftRight] at htop
    simpa using congrArg (BitVec.setWidth 2) htop
  · rw [← junta_shiftLeft a,h,junta_shiftLeft]

theorem medidaDe_congr {c c' : Char} (h : codigoDe c = codigoDe c') (m : ℕ × Bool × Bool) :
    medidaDe c m = medidaDe c' m := by
  unfold codigoDe at h
  unfold medidaDe
  split at h <;> split at h <;> simp_all

section Resto
variable {campos campos' : Campos}

/-- The two memories hold the same kinds at the positions below `limite`. -/
def MesmosTipos (campos campos' : Campos) (limite : ℕ) : Prop :=
  ∀ p, p < limite → campos.codigo p = campos'.codigo p

theorem byteDe_inj {p : ℕ} (h : campos.byteDe p = campos'.byteDe p) :
    ∀ r, r < 4 → campos.codigo (p+r) = campos'.codigo (p+r) := by
  obtain ⟨h0,h⟩ := junta_head h
  obtain ⟨h1,h⟩ := junta_head h
  obtain ⟨h2,h⟩ := junta_head h
  obtain ⟨h3,-⟩ := junta_head h
  intro r hr
  obtain rfl | rfl | rfl | rfl : r = 0 ∨ r = 1 ∨ r = 2 ∨ r = 3 := by omega
  · exact h0
  · exact h1
  · exact h2
  · exact h3

/-- The bytes of the kinds tell all kinds that the loop goes over. -/
theorem processaTipos_bytes_iff (k : ℕ) (h : Cabecalho) :
    (processaTipos campos k 0 h).1 = (processaTipos campos' k 0 h).1 ↔
      MesmosTipos campos campos' (4*k) := by
  simp only [processaTipos_bytes,Nat.zero_add]
  constructor
  · intro heq p hp
    have hbyte := List.map_inj_left.mp heq (p/4) (List.mem_range.mpr (by omega))
    rw [← Nat.div_add_mod p 4]
    exact byteDe_inj hbyte (p%4) (Nat.mod_lt _ (by omega))
  · intro hm
    apply List.map_congr_left
    intro q hq
    have hlt := List.mem_range.mp hq
    rw [Campos.byteDe,Campos.byteDe,hm _ (by omega),hm _ (by omega),hm _ (by omega),hm _ (by omega)]

/-- The same kinds make the same size. -/
theorem tamanho_congr {k : ℕ} (hm : MesmosTipos campos campos' (4*k)) :
    (processaTipos campos k 0 ⟨0,0,false,false⟩).2.tamanho =
      (processaTipos campos' k 0 ⟨0,0,false,false⟩).2.tamanho := by
  have hmedida : ((List.range (4*k)).map fun p => campos.get (0+p)).foldl
      (fun m c => medidaDe c m) (0,false,false) =
        ((List.range (4*k)).map fun p => campos'.get (0+p)).foldl
          (fun m c => medidaDe c m) (0,false,false) := by
    simp only [Nat.zero_add,List.foldl_map]
    apply List.foldl_ext
    intro m p hp
    exact medidaDe_congr (hm p (List.mem_range.mp hp)) m
  rw [((mede_inicio 0).processaTipos campos k 0).tamanho,
    ((mede_inicio 0).processaTipos campos' k 0).tamanho,hmedida]

/-- Up to the end of the string the memories agree. -/
theorem mesmosTipos_iff (htexto : campos.texto = campos'.texto) (limite : ℕ) :
    MesmosTipos campos campos' limite ↔
      ∀ p, campos.strlen < p → p < limite → campos.codigo p = campos'.codigo p := by
  constructor
  · exact fun h p _ hp => h p hp
  · intro h p hp
    by_cases hlt : campos.strlen < p
    · exact h p hlt hp
    · have hin : p < (campos.texto++[NUL]).length := by
        rw [List.length_append,List.length_singleton]
        exact Nat.lt_succ_of_le (Nat.le_of_not_lt hlt)
      rw [Campos.codigo,Campos.codigo,Campos.get,Campos.get,← htexto,List.getElem?_eq_getElem hin]
      rfl

/-- Behind the same string, what differs in kind up to the next multiple of four shows in the file,
and nothing else does. -/
theorem compacta_eq_iff (htexto : campos.texto = campos'.texto) (nstructs : ℤ) (valores : ℤ → Byte)
    (ord : Char) :
    compacta nstructs valores campos ord = compacta nstructs valores campos' ord ↔
      ∀ p, campos.strlen < p → p < 4*((campos.strlen+3)/4) →
        codigoDe (campos.get p) = codigoDe (campos'.get p) := by
  have hlen : campos'.strlen = campos.strlen := by rw [Campos.strlen,← htexto,Campos.strlen]
  rw [show (∀ p, campos.strlen < p → p < 4*((campos.strlen+3)/4) →
      codigoDe (campos.get p) = codigoDe (campos'.get p)) ↔ _ from (mesmosTipos_iff htexto _).symm,
    ← processaTipos_bytes_iff _ ⟨0,0,false,false⟩]
  unfold compacta
  dsimp only
  rw [hlen,← htexto,Prod.mk.injEq,List.cons_append,List.cons_append,List.cons_append,List.cons_append,
    List.cons.injEq,List.cons.injEq]
  constructor
  · rintro ⟨⟨-,-,h⟩,-⟩
    refine (List.append_inj h ?_).1
    rw [processaTipos_bytes,processaTipos_bytes,List.length_map,List.length_map]
  · intro h
    have hm := (processaTipos_bytes_iff _ _).mp h
    rw [h,tamanho_congr hm]
    exact ⟨⟨rfl,rfl,rfl⟩,rfl⟩

/-- A `char` field, behind its end the characters given. -/
def umChar (resto : List Char) : Campos := camposDe [.char] fun i => resto.getD i NUL

theorem compacta_eq_iff_umChar : compacta 1 (fun _ => 65) (umChar ['x']) 'L' =
    compacta 1 (fun _ => 65) (umChar []) 'L' ↔
      ∀ p, 1 < p → p < 4 → codigoDe ((umChar ['x']).get p) = codigoDe ((umChar []).get p) :=
  compacta_eq_iff (show (umChar ['x']).texto = (umChar []).texto from rfl) 1 _ 'L'

/-- An `i` behind the end is one more kind in the header. -/
theorem compacta_ne_umChar : ¬ ∀ (nstructs : ℤ) (valores : ℤ → Byte) (campos campos' : Campos)
    (ord : Char), campos.texto = campos'.texto →
      compacta nstructs valores campos ord = compacta nstructs valores campos' ord := by
  intro hall
  have h := congrArg (fun r => r.1.getD 2 0) (hall 1 (fun _ => 65) (umChar ['i']) (umChar []) 'L' rfl)
  revert h
  decide

end Resto
end PucRio.Compacta
