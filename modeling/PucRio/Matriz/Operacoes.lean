import PucRio.Matriz.Adicionar
import PucRio.Matriz.Remover

/-! What each operation does to the shape of a matrix, on either axis. Nothing is said of adding to a
matrix that was emptied, whose length of a line is lost. -/
namespace PucRio.Matriz

section Eixos
variable {x : Eixo} {h h' : Memoria} {m m' : Cabeca} {g g' : ℤ × ℤ → Endereco} {p : ℤ × ℤ}

def Eixo.outro : Eixo → Eixo
  | linha => coluna
  | coluna => linha

theorem num_outro : x.outro.num m = x.comp m := by cases x <;> rfl

theorem comp_outro : x.outro.comp m = x.num m := by cases x <;> rfl

theorem aponta_outro {a : Endereco} {d : Coord} :
    h.aponta x.outro a d = h.aponta x a d.transposta := by
  cases x
  · rfl
  · exact congrArg (h.no a).pEntrada (coord_coord .coluna d).symm

theorem desl_transposta (d : Coord) : desl d.transposta = (desl d).swap := by cases d <;> rfl

theorem swap_mem_Retangulo :
    p.swap ∈ Retangulo (x.num m) (x.comp m) ↔ p ∈ Retangulo (x.outro.num m) (x.outro.comp m) := by
  rw [num_outro,comp_outro,mem_Retangulo,mem_Retangulo,Prod.fst_swap,Prod.snd_swap]
  tauto

/-- A grid along one axis is one along the other, with the cells turned over. -/
theorem Grade.outro (hg : Grade x h m g) : Grade x.outro h m (g ∘ Prod.swap) := by
  refine ⟨?_,fun p hp => hg.vivos _ (swap_mem_Retangulo.mpr hp),?_⟩
  · have hl := hg.ligada.reindex (AddEquiv.prodComm : ℤ × ℤ ≃+ ℤ × ℤ) desl_transposta
    have hset : Set.preimage (AddEquiv.prodComm : ℤ × ℤ ≃+ ℤ × ℤ) (Retangulo (x.num m) (x.comp m)) =
        Retangulo (x.outro.num m) (x.outro.comp m) := by
      ext p
      exact swap_mem_Retangulo
    have hap : h.aponta x.outro = fun a d => h.aponta x a d.transposta := by
      funext a d
      exact aponta_outro
    rw [hap,← hset]
    exact hl
  · obtain ⟨hm,hnum,hcomp⟩ | ⟨p,hp,hm⟩ := hg.corr
    · exact .inl ⟨hm,num_outro.trans hcomp,comp_outro.trans hnum⟩
    · refine .inr ⟨p.swap,swap_mem_Retangulo.mp ?_,?_⟩
      · rwa [Prod.swap_swap]
      · rw [hm,Function.comp_apply,Prod.swap_swap]

theorem Preserva.outro (hp : Preserva x h m g h' m' g') :
    Preserva x.outro h m (g ∘ Prod.swap) h' m' (g' ∘ Prod.swap) := by
  intro b hb hout
  obtain ⟨hvivo,hno,hnew⟩ := hp b hb fun p hp heq => by
    refine hout p.swap (swap_mem_Retangulo.mp ?_) ?_
    · rwa [Prod.swap_swap]
    · rw [Function.comp_apply,Prod.swap_swap,heq]
  exact ⟨hvivo,hno,fun p hp => hnew p.swap (swap_mem_Retangulo.mpr hp)⟩

theorem Preserva.trans {h'' : Memoria} {m'' : Cabeca} {g'' : ℤ × ℤ → Endereco}
    (hp : Preserva x h m g h' m' g') (hp' : Preserva x h' m' g' h'' m'' g'') :
    Preserva x h m g h'' m'' g'' := by
  intro b hb hout
  obtain ⟨hvivo,hno,hnew⟩ := hp b hb hout
  obtain ⟨hvivo',hno',hnew'⟩ := hp' b hvivo hnew
  exact ⟨hvivo',hno'.trans hno,hnew'⟩

/-- Only the current node is another one. -/
theorem Preserva.refl {q : Ponteiro} : Preserva x h m g h { m with pElemCorr := q } g := by
  intro b hb hout
  rw [num_corr,comp_corr]
  exact ⟨hb,rfl,hout⟩

end Eixos

section Uma
variable {A : Alocador} {x : Eixo} {h : Memoria} {m : Cabeca} {g : ℤ × ℤ → Endereco}

theorem Grade.exists_corr (hg : Grade x h m g) (hm : m.pElemCorr ≠ none) :
    ∃ p ∈ Retangulo (x.num m) (x.comp m), m.pElemCorr = some (g p) :=
  hg.corr.resolve_left fun hv => hm hv.1

theorem Grade.pronta (hg : Grade x h m g) (hm : m.pElemCorr ≠ none) : Pronta x h m g := by
  obtain ⟨p,hp,hcorr⟩ := hg.exists_corr hm
  have hpr := mem_Retangulo.mp hp
  exact ⟨hg.ligada,hg.vivos,by omega,.inr ⟨p,hp,hcorr⟩⟩

theorem Grade.adicionar (hg : Grade .linha h m g) (hm : m.pElemCorr ≠ none) (x : Eixo) :
    ∃ h' m' g', adicionar A x h m = .ok (h',m') ∧ Grade .linha h' m' g' ∧
      Preserva .linha h m g h' m' g' := by
  cases x with
  | linha =>
    obtain ⟨h',m',g',hok,-,-,hg',hp⟩ := adicionar_ok (A := A) (hg.pronta hm)
    exact ⟨h',m',g',hok,hg',hp⟩
  | coluna =>
    obtain ⟨h',m',g',hok,-,-,hg',hp⟩ := adicionar_ok (A := A) (hg.outro.pronta hm)
    exact ⟨h',m',_,hok,hg'.outro,hp.outro⟩

theorem Grade.remover (hg : Grade .linha h m g) (x : Eixo) :
    ∃ h' m' r g', remover x h m = .ok (h',m',r) ∧ Grade .linha h' m' g' ∧
      Preserva .linha h m g h' m' g' := by
  by_cases hm : m.pElemCorr = none
  · exact ⟨h,m,_,g,remover_vazia hm,hg,Preserva.refl⟩
  · cases x with
    | linha =>
      obtain ⟨p,hp,hcorr⟩ := hg.exists_corr hm
      obtain ⟨h',m',hok,hg',hpre⟩ := remover_ok hg hp hcorr
      exact ⟨h',m',_,g,hok,hg',hpre⟩
    | coluna =>
      obtain ⟨p,hp,hcorr⟩ := hg.outro.exists_corr hm
      obtain ⟨h',m',hok,hg',hpre⟩ := remover_ok hg.outro hp hcorr
      exact ⟨h',m',_,_,hok,hg'.outro,hpre.outro⟩

/-- Only the current node changes, to another one of the grid. -/
theorem Grade.move (hg : Grade x h m g) {q : ℤ × ℤ} (hq : q ∈ Retangulo (x.num m) (x.comp m)) :
    Grade x h { m with pElemCorr := some (g q) } g := by
  refine ⟨?_,?_,.inr ⟨q,?_,rfl⟩⟩
  · rw [num_corr,comp_corr]
    exact hg.ligada
  · rw [num_corr,comp_corr]
    exact hg.vivos
  · rwa [num_corr,comp_corr]

theorem Grade.irPara (hg : Grade .linha h m g) (d : Coord) :
    ∃ m' r, MAT_IrPara h m d = .ok (m',r) ∧ Grade .linha h m' g ∧
      Preserva .linha h m g h m' g := by
  by_cases hm : m.pElemCorr = none
  · exact ⟨m,_,if_pos hm,hg,Preserva.refl⟩
  · obtain ⟨p,hp,hcorr⟩ := hg.exists_corr hm
    have hle : h.le m.pElemCorr d = .ok (h.aponta .linha (g p) d) := by
      rw [hcorr]
      exact le_some (x := .linha) (d := d) (hg.vivos p hp)
    have hir : MAT_IrPara h m d = (do
        let q ← Except.ok (h.aponta .linha (g p) d)
        if q = none then .ok (m,.CoordenadaInexistente)
        else .ok ({ m with pElemCorr := q },.OK)) := by
      rw [MAT_IrPara,if_neg hm,hle]
    rw [hir,ok_bind]
    cases hq : h.aponta .linha (g p) d with
    | none => exact ⟨m,_,rfl,hg,Preserva.refl⟩
    | some a =>
      obtain ⟨hin,rfl⟩ := hg.ligada.mem_of_some hp hq
      exact ⟨_,_,rfl,hg.move hin,Preserva.refl⟩

theorem Pronta.criarLinhas (hp : Pronta .linha h m g) (n : ℕ) :
    ∃ h' m' g', criarLinhas A n h m = .ok (h',m') ∧ Pronta .linha h' m' g' ∧
      m'.numLinhas = m.numLinhas+n ∧ Preserva .linha h m g h' m' g' := by
  induction n generalizing h m g with
  | zero => exact ⟨h,m,g,rfl,hp,by omega,Preserva.refl⟩
  | succ n ih =>
    obtain ⟨h₁,m₁,g₁,hok,hnum,hcomp,hg₁,hpre₁⟩ := adicionar_ok (A := A) hp
    have hp₁ : Pronta .linha h₁ m₁ g₁ := by
      refine ⟨hg₁.ligada,hg₁.vivos,hcomp ▸ hp.comp,.inr (hg₁.corr.resolve_left ?_)⟩
      rintro ⟨-,-,h0⟩
      have hcomp1 := hp.comp
      omega
    obtain ⟨h',m',g',hoks,hp',hnum',hpre'⟩ := ih hp₁
    refine ⟨h',m',g',?_,hp',?_,hpre₁.trans hpre'⟩
    · rw [Matriz.criarLinhas,MAT_AdicionarLinha,hok,ok_bind]
      exact hoks
    · change m₁.numLinhas = m.numLinhas+1 at hnum
      omega

theorem criarMatriz_ok (h : Memoria) (pMatriz : Option Cabeca) {NumeroLinhas NumeroColunas : ℤ}
    (hl : 0 < NumeroLinhas) (hc : 0 < NumeroColunas) :
    ∃ h' m' g', MAT_CriarMatriz A h pMatriz NumeroLinhas NumeroColunas = .ok (h',some m',.OK) ∧
      Grade .linha h' m' g' ∧ ∀ b, h.Vivo b →
        h'.Vivo b ∧ h'.no b = h.no b ∧ ∀ p ∈ Retangulo m'.numLinhas m'.numColunas, g' p ≠ b := by
  have hvazio {n : ℤ} : Retangulo 0 n = ∅ := by
    ext p
    rw [mem_Retangulo]
    exact ⟨fun hp => absurd hp.2.1 (not_lt.mpr hp.1),fun hp => hp.elim⟩
  have hp₀ : Pronta .linha h ⟨none,0,NumeroColunas⟩ fun _ => 0 := by
    refine ⟨?_,?_,hc,.inl ⟨rfl,rfl⟩⟩
    · change Linked desl _ _ (Retangulo 0 NumeroColunas)
      rw [hvazio]
      exact .empty _ _
    · intro p hp
      exact absurd hp.2.1 (not_lt.mpr hp.1)
  obtain ⟨h',m,g,hok,hp,hnum,hpre⟩ := hp₀.criarLinhas (A := A) NumeroLinhas.toNat
  have hpos : 0 < m.numLinhas := by
    change m.numLinhas = 0+_ at hnum
    omega
  obtain ⟨-,h0⟩ | ⟨p,hpr,hm⟩ := hp.corr
  · exact absurd h0 hpos.ne'
  · obtain ⟨hq,hN⟩ := avanca_eq hp.ligada hp.vivos hpr hm (d := .Norte) (by decide)
    obtain ⟨hr,hO⟩ := avanca_eq (m := { m with pElemCorr := some (g (0,p.2)) }) hp.ligada hp.vivos hq
      rfl (d := .Oeste) (by decide)
    have hg : Grade .linha h' m g := ⟨hp.ligada,hp.vivos,.inr ⟨p,hpr,hm⟩⟩
    refine ⟨h',_,g,?_,hg.move hr,fun b hb => hpre b hb ?_⟩
    · rw [MAT_CriarMatriz,if_neg (by omega),hok,ok_bind]
      change (AvancaPrimeiraLinha h' m >>= fun m => AvancaPrimeiraColuna h' m >>= _) = _
      rw [AvancaPrimeiraLinha,AvancaPrimeiraColuna]
      change (avanca (Eixo.linha.coord .Norte) h' m >>= fun m =>
        avanca (Eixo.linha.coord .Oeste) h' m >>= _) = _
      rw [hN,ok_bind]
      change (avanca (Eixo.linha.coord .Oeste) h' { m with pElemCorr := some (g (0,p.2)) } >>= _) = _
      rw [hO,ok_bind]
    · intro q hq
      exact absurd hq.2.1 (not_lt.mpr hq.1)

end Uma

end PucRio.Matriz
