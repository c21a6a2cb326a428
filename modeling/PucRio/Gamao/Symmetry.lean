import PucRio.Gamao.MoveAvailability

/-! The game in a mirror: the colours exchanged and house `n` at `25-n`. What the rules say of white
is coded apart from what they say of black. -/
namespace PucRio.Gamao
open PCA_tpCorPeca

theorem oponente_injective : Function.Injective PCA_tpCorPeca.oponente := by
  intro c c' h
  rw [← c.oponente_oponente,h,c'.oponente_oponente]

@[simp] theorem numero_rev (i : Fin 24) : numero i.rev = 25-numero i := by
  have := i.isLt
  rw [numero,numero,Fin.val_rev]
  omega

/-- A typed number: the houses are mirrored, all other numbers stay. -/
def espelharNumero (n : ℤ) : ℤ := if 1 ≤ n ∧ n ≤ 24 then 25-n else n

theorem espelharNumero_numero (i : Fin 24) : espelharNumero (numero i) = numero i.rev := by
  rw [espelharNumero,if_pos ⟨one_le_numero i,numero_le i⟩,numero_rev]

def TAB_tpTabuleiro.espelhado (t : TAB_tpTabuleiro) : TAB_tpTabuleiro :=
  ⟨fun i => (t.Pecas i.rev).map PCA_tpCorPeca.oponente⟩

def PCF_tpPecasFinalizadas.espelhadas (p : PCF_tpPecasFinalizadas) : PCF_tpPecasFinalizadas :=
  ⟨p.listaPecasPretas.map PCA_tpCorPeca.oponente,p.listaPecasBrancas.map PCA_tpCorPeca.oponente⟩

/-- The same game with the colours exchanged. -/
def JGO_tpJogo.espelhado (j : JGO_tpJogo) : JGO_tpJogo :=
  { j with
    pTabuleiro := j.pTabuleiro.espelhado
    pPecasCapturadas := j.pPecasCapturadas.map PCA_tpCorPeca.oponente
    pPecasFinalizadas := j.pPecasFinalizadas.espelhadas
    JogadorAtual := j.JogadorAtual.oponente }

def Volta.espelhada (v : Volta) : Volta := { v with pJogo := v.pJogo.espelhado }

section Counts
variable (t : TAB_tpTabuleiro) (j : JGO_tpJogo) (c : PCA_tpCorPeca) (i : Fin 24)

theorem pecas_espelhado : t.espelhado.pecas c.oponente i = t.pecas c i.rev :=
  Multiset.count_map_eq_count' _ _ oponente_injective c

theorem ContarPecas_espelhado (n : ℤ) :
    (TAB_ContarPecas t.espelhado n c.oponente).2 = (TAB_ContarPecas t (25-n) c).2 := by
  cases hn : ObtemCasa n with
  | none =>
    have hn' : ObtemCasa (25-n) = none := by
      rw [ObtemCasa_eq_none] at hn ⊢
      omega
    simp only [TAB_ContarPecas,hn,hn']
  | some i =>
    obtain rfl := ObtemCasa_eq_some.mp hn
    rw [← numero_rev,TAB_ContarPecas_numero,TAB_ContarPecas_numero,pecas_espelhado]

@[simp] theorem proprias_espelhado : j.espelhado.proprias i = j.proprias i.rev :=
  pecas_espelhado j.pTabuleiro j.JogadorAtual i

@[simp] theorem opostas_espelhado : j.espelhado.opostas i = j.opostas i.rev :=
  pecas_espelhado j.pTabuleiro j.JogadorAtual.oponente i

@[simp] theorem naBarra_espelhado : j.espelhado.naBarra = j.naBarra :=
  Multiset.count_map_eq_count' _ _ oponente_injective j.JogadorAtual

theorem finalizadas_espelhado : PCF_ContarPecas j.espelhado.pPecasFinalizadas c.oponente =
    PCF_ContarPecas j.pPecasFinalizadas c := by
  cases c <;> exact Multiset.card_map _ _

end Counts

section Searches
variable (j : JGO_tpJogo) (d : tpExibicaoDados)

/-- The houses of one home are those of the other in the mirror. -/
theorem sum_casas_espelhadas (f : ℤ → ℕ) :
    ((casas 19 24).map fun n => f (25-n)).sum = ((casas 1 6).map f).sum ∧
      ((casas 1 6).map fun n => f (25-n)).sum = ((casas 19 24).map f).sum := by
  have h1 : casas 1 6 = [1,2,3,4,5,6] := by decide
  have h2 : casas 19 24 = [19,20,21,22,23,24] := by decide
  rw [h1,h2]
  simp only [List.map_cons,List.map_nil,List.sum_cons,List.sum_nil,Int.reduceSub]
  omega

/-- The right to finish pieces is the same for both colours. -/
theorem podeFinalizar_espelhado :
    JogadorAtualPodeFinalizarPecas j.espelhado = JogadorAtualPodeFinalizarPecas j := by
  have hb : BAR_ContarPecas j.espelhado.pPecasCapturadas j.espelhado.JogadorAtual =
      BAR_ContarPecas j.pPecasCapturadas j.JogadorAtual := naBarra_espelhado j
  have hf : PCF_ContarPecas j.espelhado.pPecasFinalizadas j.espelhado.JogadorAtual =
      PCF_ContarPecas j.pPecasFinalizadas j.JogadorAtual := finalizadas_espelhado j j.JogadorAtual
  have hc (n : ℤ) : (TAB_ContarPecas j.espelhado.pTabuleiro n j.espelhado.JogadorAtual).2 =
      (TAB_ContarPecas j.pTabuleiro (25-n) j.JogadorAtual).2 :=
    ContarPecas_espelhado j.pTabuleiro j.JogadorAtual n
  obtain ⟨h1,h2⟩ := sum_casas_espelhadas fun n =>
    (TAB_ContarPecas j.pTabuleiro n j.JogadorAtual).2
  rw [JogadorAtualPodeFinalizarPecas,JogadorAtualPodeFinalizarPecas]
  simp only [hb,hf,hc]
  rw [show j.espelhado.JogadorAtual = j.JogadorAtual.oponente from rfl]
  cases hcor : j.JogadorAtual with
  | PCA_PecaBranca =>
    rw [hcor] at h1
    simp only [PCA_tpCorPeca.oponente,reduceCtorEq,if_false,if_true,h1]
  | PCA_PecaPreta =>
    rw [hcor] at h2
    simp only [PCA_tpCorPeca.oponente,reduceCtorEq,if_false,if_true,h2]

variable {j d}

theorem Aberta_espelhado {n : ℤ} : Aberta j.espelhado n ↔ Aberta j (25-n) := by
  constructor
  · rintro ⟨i,rfl,hi⟩
    exact ⟨i.rev,by rw [numero_rev],by rwa [opostas_espelhado] at hi⟩
  · rintro ⟨i,hn,hi⟩
    refine ⟨i.rev,by rw [numero_rev]; omega,?_⟩
    rwa [opostas_espelhado,Fin.rev_rev]

theorem avanco_oponente (c : PCA_tpCorPeca) (n v : ℤ) :
    25-avanco c.oponente (25-n) v = avanco c n v := by
  cases c <;> simp only [PCA_tpCorPeca.oponente,avanco] <;> omega

/-- What is asked of a house and its pieces, read in the mirror. -/
theorem exists_espelhado {P : Fin 24 → Prop} : (∃ i : Fin 24, P i.rev) ↔ ∃ i, P i := by
  constructor
  · rintro ⟨i,hi⟩
    exact ⟨i.rev,hi⟩
  · rintro ⟨i,hi⟩
    exact ⟨i.rev,by rwa [Fin.rev_rev]⟩

theorem MovimentoAberto_espelhado : MovimentoAberto j.espelhado d ↔ MovimentoAberto j d := by
  rw [MovimentoAberto,MovimentoAberto,← exists_espelhado]
  simp only [proprias_espelhado,Fin.rev_rev,numero_rev,Aberta_espelhado]
  simp only [JGO_tpJogo.espelhado,avanco_oponente]

/-- The house opposite to the one with the number of a die left is open. -/
def CasaOpostaAberta (j : JGO_tpJogo) (d : tpExibicaoDados) : Prop :=
  ∃ k, 0 < d k ∧ d k ≤ 6 ∧ Aberta j (25-d k)

theorem CasaDoDadoAberta_espelhado : CasaDoDadoAberta j.espelhado d ↔ CasaOpostaAberta j d := by
  simp only [CasaDoDadoAberta,CasaOpostaAberta,Aberta_espelhado]

/-- A piece stands at most twice a die left from its end. -/
def PecaADoisDados (j : JGO_tpJogo) (d : tpExibicaoDados) : Prop :=
  ∃ i k, 0 < j.proprias i ∧ 0 < d k ∧ distancia j.JogadorAtual (numero i) ≤ 2*d k

/-- A die is left, and a piece stands at most seven houses from its end. -/
def PecaASeteCasas (j : JGO_tpJogo) (d : tpExibicaoDados) : Prop :=
  ∃ i k, 0 < j.proprias i ∧ 0 < d k ∧ distancia j.JogadorAtual (numero i) ≤ 7

theorem RetiradaNaFaixa_branca (hc : j.JogadorAtual = PCA_PecaBranca) :
    (RetiradaNaFaixa j d ↔ PecaADoisDados j d) ∧
      (RetiradaNaFaixa j.espelhado d ↔ PecaASeteCasas j d) := by
  have hc' : j.espelhado.JogadorAtual = PCA_PecaPreta := by
    rw [JGO_tpJogo.espelhado,hc,PCA_tpCorPeca.oponente]
  constructor
  · simp only [RetiradaNaFaixa,PecaADoisDados,hc,distancia,forall_const,reduceCtorEq,false_implies,
      and_true]
  · rw [RetiradaNaFaixa,PecaASeteCasas,← exists_espelhado]
    simp only [hc,hc',distancia,proprias_espelhado,Fin.rev_rev,numero_rev,forall_const,
      reduceCtorEq,false_implies,true_and]
    refine exists_congr fun i => exists_congr fun k => and_congr_right fun _ =>
      and_congr_right fun _ => ?_
    omega

theorem RetiradaNaFaixa_preta (hc : j.JogadorAtual = PCA_PecaPreta) :
    (RetiradaNaFaixa j d ↔ PecaASeteCasas j d) ∧
      (RetiradaNaFaixa j.espelhado d ↔ PecaADoisDados j d) := by
  have hc' : j.espelhado.JogadorAtual = PCA_PecaBranca := by
    rw [JGO_tpJogo.espelhado,hc,PCA_tpCorPeca.oponente]
  constructor
  · simp only [RetiradaNaFaixa,PecaASeteCasas,hc,distancia,forall_const,reduceCtorEq,false_implies,
      true_and]
    refine exists_congr fun i => exists_congr fun k => and_congr_right fun _ =>
      and_congr_right fun _ => ?_
    omega
  · rw [RetiradaNaFaixa,PecaADoisDados,← exists_espelhado]
    simp only [hc,hc',distancia,proprias_espelhado,Fin.rev_rev,numero_rev,forall_const,
      reduceCtorEq,false_implies,and_true]

/-- The two tests for pieces to be finished answer alike just if each finds one. -/
theorem RetiradaNaFaixa_espelhado : (RetiradaNaFaixa j.espelhado d ↔ RetiradaNaFaixa j d) ↔
    (PecaADoisDados j d ↔ PecaASeteCasas j d) := by
  cases hc : j.JogadorAtual with
  | PCA_PecaBranca =>
    obtain ⟨h,h'⟩ := RetiradaNaFaixa_branca (d := d) hc
    rw [h,h']
    exact iff_comm
  | PCA_PecaPreta =>
    obtain ⟨h,h'⟩ := RetiradaNaFaixa_preta (d := d) hc
    rw [h,h']

/-- The search answers the same in the mirror just if what it asks of the entries and of the pieces
to be finished is the same on both sides, or makes no difference. -/
theorem JogadasDisponiveis_espelhado :
    JogadasDisponiveis j.espelhado d = JogadasDisponiveis j d ↔
      (0 < j.naBarra → MovimentoAberto j d → (CasaDoDadoAberta j d ↔ CasaOpostaAberta j d)) ∧
      (JogadorAtualPodeFinalizarPecas j = true →
        MovimentoAberto j d ∨ (PecaADoisDados j d ↔ PecaASeteCasas j d)) := by
  rw [Bool.eq_iff_iff,JogadasDisponiveis_iff,JogadasDisponiveis_iff,naBarra_espelhado,
    podeFinalizar_espelhado,CasaDoDadoAberta_espelhado,MovimentoAberto_espelhado,
    ← RetiradaNaFaixa_espelhado]
  by_cases hp : JogadorAtualPodeFinalizarPecas j = true
  · have hb : ¬ 0 < j.naBarra := by
      have := podeFinalizar_naBarra hp
      omega
    simp only [hb,hp,false_implies,true_and,forall_const]
    by_cases hm : MovimentoAberto j d <;> simp [hm]
  · simp only [hp,Bool.false_eq_true,false_and,false_or,false_implies,and_true]
    by_cases hb : 0 < j.naBarra
    · by_cases hm : MovimentoAberto j d
      · simp only [hb,hm,forall_const,and_true]
        exact iff_comm
      · simp [hm]
    · simp [hb]

end Searches

section Effects
variable (t : TAB_tpTabuleiro) (j : JGO_tpJogo) (c : PCA_tpCorPeca) (i k : Fin 24)

/-- One house changed, in the mirror. -/
theorem update_espelhado (x : Multiset PCA_tpCorPeca) :
    (⟨Function.update t.Pecas i x⟩ : TAB_tpTabuleiro).espelhado =
      ⟨Function.update t.espelhado.Pecas i.rev (x.map PCA_tpCorPeca.oponente)⟩ := by
  apply TAB_tpTabuleiro.ext
  funext k
  by_cases h : k = i.rev
  · subst h
    simp only [TAB_tpTabuleiro.espelhado,Fin.rev_rev,Function.update_self]
  · have h' : k.rev ≠ i := fun hk => h (by rw [← hk,Fin.rev_rev])
    simp only [TAB_tpTabuleiro.espelhado,Function.update_of_ne h,Function.update_of_ne h']

theorem inserida_espelhado :
    (t.inserida c i).espelhado = t.espelhado.inserida c.oponente i.rev := by
  rw [TAB_tpTabuleiro.inserida,update_espelhado,Multiset.map_cons,TAB_tpTabuleiro.inserida]
  simp only [TAB_tpTabuleiro.espelhado,Fin.rev_rev]

theorem removida_espelhado :
    (t.removida c i).espelhado = t.espelhado.removida c.oponente i.rev := by
  rw [TAB_tpTabuleiro.removida,update_espelhado,Multiset.map_erase _ oponente_injective,
    TAB_tpTabuleiro.removida]
  simp only [TAB_tpTabuleiro.espelhado,Fin.rev_rev]

theorem comCaptura_espelhado : (j.comCaptura k).espelhado = j.espelhado.comCaptura k.rev := by
  rw [JGO_tpJogo.comCaptura,JGO_tpJogo.comCaptura,opostas_espelhado,Fin.rev_rev]
  split_ifs
  · apply JGO_tpJogo.ext <;> try rfl
    · exact removida_espelhado _ _ _
    · exact Multiset.map_cons _ _ _
  · rfl

theorem reentrada_espelhado : (j.reentrada k).espelhado = j.espelhado.reentrada k.rev := by
  apply JGO_tpJogo.ext <;> try rfl
  · exact inserida_espelhado _ _ _
  · exact Multiset.map_erase _ oponente_injective _ _

theorem finalizada_espelhado : (j.finalizada i).espelhado = j.espelhado.finalizada i.rev := by
  apply JGO_tpJogo.ext <;> try rfl
  · exact removida_espelhado _ _ _
  · change (PCF_InserirPeca j.pPecasFinalizadas j.JogadorAtual).espelhadas =
      PCF_InserirPeca j.pPecasFinalizadas.espelhadas j.JogadorAtual.oponente
    cases j.JogadorAtual <;>
      simp [PCF_tpPecasFinalizadas.espelhadas,PCF_InserirPeca,PCA_tpCorPeca.oponente]

theorem movida_espelhado : (j.movida i k).espelhado = j.espelhado.movida i.rev k.rev := by
  apply JGO_tpJogo.ext <;> try rfl
  change ((j.pTabuleiro.removida j.JogadorAtual i).inserida j.JogadorAtual k).espelhado = _
  rw [inserida_espelhado,removida_espelhado]
  rfl

end Effects

section Executor
variable {j : JGO_tpJogo} {d : tpExibicaoDados} {i k : Fin 24}

theorem map_espelhado_eq_some {a : Option JGO_tpJogo} {x : JGO_tpJogo} :
    a.map JGO_tpJogo.espelhado = some x ↔ ∃ j', a = some j' ∧ x = j'.espelhado := by
  rw [Option.map_eq_some_iff]
  exact exists_congr fun j' => and_congr_right fun _ => eq_comm

theorem acaoReentrada_espelhado (hb : 0 < j.naBarra) :
    acaoReentrada j.espelhado (numero k.rev) =
      (acaoReentrada j (numero k)).map JGO_tpJogo.espelhado := by
  apply Option.ext
  intro x
  have hb' : 0 < j.espelhado.naBarra := by rwa [naBarra_espelhado]
  rw [map_espelhado_eq_some,acaoReentrada_iff hb',opostas_espelhado,Fin.rev_rev]
  simp only [acaoReentrada_iff hb,and_assoc,exists_and_left,exists_eq_left]
  rw [reentrada_espelhado,comCaptura_espelhado]

theorem acaoRetirada_espelhado : acaoRetirada j.espelhado (numero i.rev) =
    (acaoRetirada j (numero i)).map JGO_tpJogo.espelhado := by
  apply Option.ext
  intro x
  rw [map_espelhado_eq_some]
  simp only [acaoRetirada_iff,numero_inj,exists_eq_left',proprias_espelhado,Fin.rev_rev,and_assoc,
    exists_and_left,exists_eq_left]
  rw [finalizada_espelhado]

theorem acaoMovimento_espelhado : acaoMovimento j.espelhado (numero i.rev) (numero k.rev) =
    (acaoMovimento j (numero i) (numero k)).map JGO_tpJogo.espelhado := by
  apply Option.ext
  intro x
  rw [map_espelhado_eq_some]
  simp only [acaoMovimento_iff,numero_inj,exists_eq_left',proprias_espelhado,opostas_espelhado,
    Fin.rev_rev,and_assoc,exists_and_left,exists_eq_left]
  rw [comCaptura_espelhado,movida_espelhado]

theorem serveReentrada_espelhado (n v : ℤ) :
    serveReentrada j.espelhado (espelharNumero n) v = serveReentrada j n v := by
  rw [Bool.eq_iff_iff,serveReentrada_iff,serveReentrada_iff]
  refine and_congr_right fun h0 => and_congr_right fun h6 => ?_
  change espelharNumero n = casaEntrada j.JogadorAtual.oponente v ↔ _
  rw [espelharNumero]
  cases j.JogadorAtual with
  | PCA_PecaBranca =>
    simp only [PCA_tpCorPeca.oponente,casaEntrada]
    split_ifs <;> omega
  | PCA_PecaPreta =>
    simp only [PCA_tpCorPeca.oponente,casaEntrada]
    split_ifs <;> omega

theorem serveMovimento_espelhado (v : ℤ) :
    serveMovimento j.espelhado (numero i.rev) (numero k.rev) v =
      serveMovimento j (numero i) (numero k) v := by
  rw [Bool.eq_iff_iff,serveMovimento_iff,serveMovimento_iff,numero_rev,numero_rev]
  refine and_congr_right fun h0 => ?_
  change _ = avanco j.JogadorAtual.oponente _ _ ↔ _
  rw [← avanco_oponente j.JogadorAtual]
  omega

theorem distancia_oponente (c : PCA_tpCorPeca) (n : ℤ) :
    distancia c.oponente (25-n) = distancia c n := by
  cases c with
  | PCA_PecaBranca =>
    simp only [PCA_tpCorPeca.oponente,distancia]
    omega
  | PCA_PecaPreta => rfl

theorem percorrerDados_none (serve : ℤ → Bool) :
    percorrerDados j d serve none = ⟨j,d,false,none⟩ := by
  rw [percorrerDados]
  cases Fin.find? fun k => serve (d k) <;> rfl

/-- The same dice serve, and the move is the mirrored one where there is one. -/
theorem percorrerDados_espelhado {serve serve' : ℤ → Bool} {acao acao' : Option JGO_tpJogo}
    (hs : ∀ v, serve' v = serve v)
    (ha : ∀ v, serve v = true → acao' = acao.map JGO_tpJogo.espelhado) :
    percorrerDados j.espelhado d serve' acao' = (percorrerDados j d serve acao).espelhada := by
  obtain rfl : serve' = serve := funext hs
  rw [percorrerDados,percorrerDados]
  cases hf : Fin.find? fun k => serve' (d k) with
  | none => rfl
  | some k =>
    rw [ha (d k) (Fin.find?_eq_some_iff.mp hf).1]
    cases acao <;> rfl

/-- Two tests, the second of which takes all that the first takes, first succeed at the same slot
just if every slot that only the second takes comes after one that the first takes. -/
theorem find_eq_find_iff {p q : Fin 4 → Bool} (hpq : ∀ k, p k = true → q k = true) :
    Fin.find? q = Fin.find? p ↔
      ∀ k, q k = true → p k = false → ∃ k' < k, p k' = true := by
  constructor
  · intro h k hq hp
    cases hf : Fin.find? q with
    | none => simp [Fin.find?_eq_none_iff.mp hf k] at hq
    | some k' =>
      obtain ⟨-,hmin⟩ := Fin.find?_eq_some_iff.mp hf
      obtain ⟨hp',-⟩ := Fin.find?_eq_some_iff.mp (h ▸ hf)
      rcases lt_trichotomy k' k with hk | rfl | hk
      · exact ⟨k',hk,hp'⟩
      · simp [hp'] at hp
      · simp [hmin k hk] at hq
  · intro h
    cases hf : Fin.find? q with
    | none =>
      refine (Fin.find?_eq_none_iff.mpr fun k => ?_).symm
      cases hp : p k with
      | false => rfl
      | true => exact absurd (hpq k hp) (by simp [Fin.find?_eq_none_iff.mp hf k])
    | some k' =>
      obtain ⟨hq,hmin⟩ := Fin.find?_eq_some_iff.mp hf
      have hbefore (k : Fin 4) (hk : k < k') : p k = false := by
        cases hp : p k with
        | false => rfl
        | true => exact absurd (hpq k hp) (by simp [hmin k hk])
      refine (Fin.find?_eq_some_iff.mpr ⟨?_,hbefore⟩).symm
      by_contra hp
      obtain ⟨k,hk,hpk⟩ := h k' hq (Bool.eq_false_of_not_eq_true hp)
      simp [hbefore k hk] at hpk

/-- Which die was played shows in the dice that are left. -/
theorem find_eq_of_ExibicaoDados {j' x x' : JGO_tpJogo} {serve serve' : ℤ → Bool}
    (hs : ∀ v, serve v = true → 0 < v) (hs' : ∀ v, serve' v = true → 0 < v)
    (h : (percorrerDados j' d serve' (some x')).ExibicaoDados =
      (percorrerDados j d serve (some x)).ExibicaoDados) :
    (Fin.find? fun k => serve' (d k)) = Fin.find? fun k => serve (d k) := by
  have hzero {k k' : Fin 4} (hk : 0 < d k) (hu : Function.update d k 0 k =
      Function.update d k' 0 k) : k = k' := by
    by_contra hne
    rw [Function.update_self,Function.update_of_ne hne] at hu
    omega
  rw [percorrerDados,percorrerDados] at h
  cases hf' : Fin.find? fun k => serve' (d k) with
  | none =>
    cases hf : Fin.find? fun k => serve (d k) with
    | none => rfl
    | some k =>
      simp only [hf,hf'] at h
      have hk := hs _ (Fin.find?_eq_some_iff.mp hf).1
      have h0 := congrFun h k
      rw [Function.update_self] at h0
      omega
  | some k' =>
    have hk' := hs' _ (Fin.find?_eq_some_iff.mp hf').1
    cases hf : Fin.find? fun k => serve (d k) with
    | none =>
      simp only [hf,hf'] at h
      have h0 := congrFun h k'
      rw [Function.update_self] at h0
      omega
    | some k =>
      simp only [hf,hf'] at h
      rw [hzero hk' (congrFun h k')]

/-- Where a piece can be finished, the executor takes the same die in the mirror just if no die one
short of the way left comes before all that are long enough. -/
theorem retirada_espelhado (hi : 0 < j.proprias i) :
    percorrerDados j.espelhado d (serveRetirada j.espelhado (numero i.rev))
        (acaoRetirada j.espelhado (numero i.rev)) =
      (percorrerDados j d (serveRetirada j (numero i)) (acaoRetirada j (numero i))).espelhada ↔
    (distancia j.JogadorAtual (numero i) ≤ 6 → ∀ k, 0 < d k →
      d k = distancia j.JogadorAtual (numero i)-1 →
      ∃ k' < k, distancia j.JogadorAtual (numero i) ≤ d k') := by
  have hlow := one_le_numero i
  have hhigh := numero_le i
  have hacao : acaoRetirada j (numero i) = some (j.finalizada i) :=
    acaoRetirada_iff.mpr ⟨i,rfl,hi,rfl⟩
  have hiff : percorrerDados j.espelhado d (serveRetirada j.espelhado (numero i.rev))
        (acaoRetirada j.espelhado (numero i.rev)) =
      (percorrerDados j d (serveRetirada j (numero i)) (acaoRetirada j (numero i))).espelhada ↔
      (Fin.find? fun k => serveRetirada j.espelhado (numero i.rev) (d k)) =
        Fin.find? fun k => serveRetirada j (numero i) (d k) := by
    rw [acaoRetirada_espelhado,hacao,Option.map_some]
    constructor
    · intro h
      have hd : (percorrerDados j.espelhado d (serveRetirada j.espelhado (numero i.rev))
          (some (j.finalizada i).espelhado)).ExibicaoDados = (percorrerDados j d
          (serveRetirada j (numero i)) (some (j.finalizada i))).ExibicaoDados :=
        by rw [h]; rfl
      exact find_eq_of_ExibicaoDados (fun v hv => (serveRetirada_iff.mp hv).1)
        (fun v hv => (serveRetirada_iff.mp hv).1) hd
    · intro h
      rw [percorrerDados,percorrerDados,h]
      cases Fin.find? fun k => serveRetirada j (numero i) (d k) <;> rfl
  have hserve (v : ℤ) : serveRetirada j.espelhado (numero i.rev) v = true ↔ 0 < v ∧
      distancia j.JogadorAtual (numero i) ≤ 6 ∧
        alcance j.JogadorAtual.oponente (25-numero i) ≤ v := by
    rw [serveRetirada_iff,numero_rev]
    change _ ∧ distancia j.JogadorAtual.oponente _ ≤ 6 ∧ _ ↔ _
    rw [distancia_oponente]
    rfl
  have hserve' (v : ℤ) : serveRetirada j (numero i) v = true ↔ 0 < v ∧
      distancia j.JogadorAtual (numero i) ≤ 6 ∧ alcance j.JogadorAtual (numero i) ≤ v :=
    serveRetirada_iff
  rw [hiff]
  cases hc : j.JogadorAtual with
  | PCA_PecaBranca =>
    simp only [hc,PCA_tpCorPeca.oponente,distancia,alcance] at hserve hserve' ⊢
    rw [find_eq_find_iff fun k hk => by rw [hserve'] at hk; rw [hserve]; omega]
    simp only [Bool.eq_false_iff,ne_eq,hserve,hserve']
    constructor
    · intro h h6 k h0 hk
      obtain ⟨k',hlt,-,-,hk'⟩ := h k ⟨h0,h6,by omega⟩ (by omega)
      exact ⟨k',hlt,hk'⟩
    · intro h k hk hn
      obtain ⟨k',hlt,hk'⟩ := h hk.2.1 k hk.1 (by omega)
      exact ⟨k',hlt,by omega,hk.2.1,hk'⟩
  | PCA_PecaPreta =>
    simp only [hc,PCA_tpCorPeca.oponente,distancia,alcance] at hserve hserve' ⊢
    rw [eq_comm,find_eq_find_iff fun k hk => by rw [hserve] at hk; rw [hserve']; omega]
    simp only [Bool.eq_false_iff,ne_eq,hserve,hserve']
    constructor
    · intro h h6 k h0 hk
      obtain ⟨k',hlt,-,-,hk'⟩ := h k ⟨h0,h6,by omega⟩ (by omega)
      exact ⟨k',hlt,hk'⟩
    · intro h k hk hn
      obtain ⟨k',hlt,hk'⟩ := h hk.2.1 k hk.1 (by omega)
      exact ⟨k',hlt,by omega,hk.2.1,hk'⟩

theorem acaoMovimento_fora {n m : ℤ} (h : ObtemCasa n = none) : acaoMovimento j n m = none := by
  cases hm : ObtemCasa m with
  | none => simp [acaoMovimento,TAB_MoverPeca,TAB_ContarPecas,hm]
  | some k =>
    obtain rfl := ObtemCasa_eq_some.mp hm
    cases ha : acaoMovimento j n (numero k) with
    | none => rfl
    | some j' =>
      obtain ⟨-,i,rfl,-⟩ := acaoMovimento_iff.mp ha
      rw [ObtemCasa_numero] at h
      cases h

theorem acaoRetirada_fora {n : ℤ} (h : ObtemCasa n = none) : acaoRetirada j n = none := by
  simp only [acaoRetirada,TAB_RemoverPeca,h]

theorem reentrada_passe_espelhado (hb : 0 < j.naBarra) (n : ℤ) :
    percorrerDados j.espelhado d (serveReentrada j.espelhado (espelharNumero n))
        (acaoReentrada j.espelhado (espelharNumero n)) =
      (percorrerDados j d (serveReentrada j n) (acaoReentrada j n)).espelhada := by
  refine percorrerDados_espelhado (serveReentrada_espelhado n) fun v hv => ?_
  obtain ⟨h0,h6,rfl⟩ := serveReentrada_iff.mp hv
  obtain ⟨k,hk⟩ := exists_casaEntrada h0 h6 j.JogadorAtual
  rw [hk,espelharNumero_numero,acaoReentrada_espelhado hb]

/-- A choice of houses in the mirror. -/
theorem jogar_espelhado (n m : ℤ) (h0 : 0 ≤ n) (h24 : n ≤ 24) (h0' : 0 ≤ m) (h24' : m ≤ 24) :
    jogar j.espelhado d (espelharNumero n) (espelharNumero m) = (jogar j d n m).espelhada ↔
      (m = 0 → JogadorAtualPodeFinalizarPecas j = true → ∀ i, n = numero i → 0 < j.proprias i →
        distancia j.JogadorAtual n ≤ 6 → ∀ k, 0 < d k → d k = distancia j.JogadorAtual n-1 →
        ∃ k' < k, distancia j.JogadorAtual n ≤ d k') := by
  have hn : n = 0 ∨ ∃ i, n = numero i := by
    rcases eq_or_lt_of_le h0 with h | h
    · exact .inl h.symm
    · exact .inr (exists_numero (by omega) h24)
  rw [jogar,jogar,podeFinalizar_espelhado]
  rcases eq_or_lt_of_le h0' with hm | hm
  · obtain rfl := hm
    rw [show espelharNumero 0 = 0 from rfl]
    by_cases hp : JogadorAtualPodeFinalizarPecas j = true
    · simp only [hp,if_true,Bool.true_eq_false,and_false,if_false,forall_const]
      rcases hn with rfl | ⟨i,rfl⟩
      · rw [show espelharNumero 0 = 0 from rfl,acaoRetirada_fora rfl,acaoRetirada_fora rfl,
          percorrerDados_none,percorrerDados_none]
        refine iff_of_true rfl fun i hi => ?_
        have := one_le_numero i
        omega
      · rw [espelharNumero_numero]
        by_cases hi : 0 < j.proprias i
        · rw [retirada_espelhado hi]
          constructor
          · rintro h i' hi' -
            obtain rfl := numero_inj.mp hi'
            exact h
          · intro h
            exact h i rfl hi
        · have hacao : acaoRetirada j (numero i) = none := by
            cases ha : acaoRetirada j (numero i) with
            | none => rfl
            | some j' =>
              obtain ⟨i',hi',hpos,-⟩ := acaoRetirada_iff.mp ha
              obtain rfl := numero_inj.mp hi'
              exact absurd hpos hi
          rw [acaoRetirada_espelhado,hacao,Option.map_none,percorrerDados_none,
            percorrerDados_none]
          refine iff_of_true rfl fun i' hi' hpos => ?_
          obtain rfl := numero_inj.mp hi'
          exact absurd hpos hi
    · simp [hp,Volta.espelhada]
  · obtain ⟨k,rfl⟩ := exists_numero (by omega) h24'
    have hk : numero k ≠ 0 := by omega
    have hk' : numero k.rev ≠ 0 := by
      have := one_le_numero k.rev
      omega
    rw [espelharNumero_numero]
    simp only [hk,hk',false_and,if_false,false_implies,iff_true]
    rcases hn with rfl | ⟨i,rfl⟩
    · rw [show espelharNumero 0 = 0 from rfl,acaoMovimento_fora rfl,acaoMovimento_fora rfl,
        percorrerDados_none,percorrerDados_none]
      rfl
    · rw [espelharNumero_numero]
      exact percorrerDados_espelhado serveMovimento_espelhado fun _ _ => acaoMovimento_espelhado

end Executor

theorem LeCasa_espelhada (n : ℤ) :
    (LeCasa (.numero n) = .erro ∧ LeCasa (.numero (espelharNumero n)) = .erro) ∨
    (0 ≤ n ∧ n ≤ 24 ∧ LeCasa (.numero n) = .numero n ∧
      LeCasa (.numero (espelharNumero n)) = .numero (espelharNumero n)) := by
  by_cases hn : n < 0 ∨ 24 < n
  · have he : espelharNumero n = n := by
      rw [espelharNumero,if_neg (by omega)]
    rw [he,LeCasa,if_pos hn]
    exact .inl ⟨rfl,rfl⟩
  · have he : ¬ (espelharNumero n < 0 ∨ 24 < espelharNumero n) := by
      rw [espelharNumero]
      split_ifs <;> omega
    rw [LeCasa,LeCasa,if_neg hn,if_neg he]
    exact .inr ⟨by omega,by omega,rfl,rfl⟩

/-- Where the mirrored game answers like the game: the entries of the dice left and the houses
opposite to them are alike, or no move on the board is open; with all pieces at home some move on
the board is open, or there is a piece at most twice a die away just if a piece and a die are left;
and if a piece is to be finished, no die one short of its way comes before all that are long
enough. -/
structure EspelhoConfere (j : JGO_tpJogo) (d : tpExibicaoDados) (n m : ℤ) : Prop where
  barra : 0 < j.naBarra → MovimentoAberto j d → (CasaDoDadoAberta j d ↔ CasaOpostaAberta j d)
  retirada : JogadorAtualPodeFinalizarPecas j = true →
    MovimentoAberto j d ∨ (PecaADoisDados j d ↔ PecaASeteCasas j d)
  dado : m = 0 → JogadorAtualPodeFinalizarPecas j = true → ∀ i, n = numero i → 0 < j.proprias i →
    distancia j.JogadorAtual n ≤ 6 → ∀ k, 0 < d k → d k = distancia j.JogadorAtual n-1 →
    ∃ k' < k, distancia j.JogadorAtual n ≤ d k'

/-- The pass of ProcessarJogada in the mirror. -/
theorem volta_espelhada (j : JGO_tpJogo) (d : tpExibicaoDados) (lixo : PCA_tpCorPeca) (n m : ℤ) :
    volta j.espelhado d lixo (.numero (espelharNumero n)) (.numero (espelharNumero m)) =
        (volta j d lixo (.numero n) (.numero m)).espelhada ↔
      (m = 0 → JogadorAtualPodeFinalizarPecas j = true → ∀ i, n = numero i → 0 < j.proprias i →
        distancia j.JogadorAtual n ≤ 6 → ∀ k, 0 < d k → d k = distancia j.JogadorAtual n-1 →
        ∃ k' < k, distancia j.JogadorAtual n ≤ d k') := by
  have hbar : BAR_ContarPecas j.espelhado.pPecasCapturadas j.espelhado.JogadorAtual =
      BAR_ContarPecas j.pPecasCapturadas j.JogadorAtual := naBarra_espelhado j
  rw [volta,volta]
  simp only [hbar]
  by_cases hb : 0 < j.naBarra
  · have hb' : BAR_ContarPecas j.pPecasCapturadas j.JogadorAtual > 0 := hb
    rw [if_pos hb',if_pos hb']
    have hp (hp : JogadorAtualPodeFinalizarPecas j = true) : False := by
      have := podeFinalizar_naBarra hp
      omega
    refine iff_of_true ?_ fun _ h => (hp h).elim
    rcases LeCasa_espelhada n with ⟨h,h'⟩ | ⟨-,-,h,h'⟩
    · rw [h,h']
      rfl
    · rw [h,h']
      exact reentrada_passe_espelhado hb n
  · have hb' : ¬ BAR_ContarPecas j.pPecasCapturadas j.JogadorAtual > 0 := hb
    rw [if_neg hb',if_neg hb']
    rcases LeCasa_espelhada n with ⟨h,h'⟩ | ⟨h0,h24,h,h'⟩
    · rw [h,h']
      refine iff_of_true rfl fun _ _ i hi => ?_
      subst hi
      rw [LeCasa_numero] at h
      cases h
    · rw [h,h']
      rcases LeCasa_espelhada m with ⟨hm,hm'⟩ | ⟨h0',h24',hm,hm'⟩
      · rw [hm,hm']
        refine iff_of_true rfl fun h0 => ?_
        subst h0
        cases hm
      · rw [hm,hm']
        exact jogar_espelhado n m h0 h24 h0' h24'

/-- The searches, the right to finish pieces and a move are symmetric exactly under these
conditions. -/
theorem mirrored_iff (j : JGO_tpJogo) (ExibicaoDados : tpExibicaoDados) (lixo : PCA_tpCorPeca)
    (origem destino : ℤ) :
    (JogadasDisponiveis j.espelhado ExibicaoDados = JogadasDisponiveis j ExibicaoDados ∧
      JogadorAtualPodeFinalizarPecas j.espelhado = JogadorAtualPodeFinalizarPecas j ∧
      volta j.espelhado ExibicaoDados lixo (.numero (espelharNumero origem))
          (.numero (espelharNumero destino)) =
        (volta j ExibicaoDados lixo (.numero origem) (.numero destino)).espelhada) ↔
      EspelhoConfere j ExibicaoDados origem destino := by
  rw [JogadasDisponiveis_espelhado,volta_espelhada]
  constructor
  · rintro ⟨⟨hbarra,hretirada⟩,-,hdado⟩
    exact ⟨hbarra,hretirada,hdado⟩
  · intro h
    exact ⟨⟨h.barra,h.retirada⟩,podeFinalizar_espelhado j,h.dado⟩

/-- White on the bar with a 6 to play: house 6 is free of black, house 19 is closed. -/
theorem not_mirrored_six : ¬ ∀ pJogo lixo s, (partida pJogo lixo).Reachable s →
    s.lugar = .rodada → ∀ ExibicaoDados lixo' origem destino,
      JogadasDisponiveis s.pJogo.espelhado ExibicaoDados =
        JogadasDisponiveis s.pJogo ExibicaoDados ∧
      JogadorAtualPodeFinalizarPecas s.pJogo.espelhado = JogadorAtualPodeFinalizarPecas s.pJogo ∧
      volta s.pJogo.espelhado ExibicaoDados lixo' (.numero (espelharNumero origem))
          (.numero (espelharNumero destino)) =
        (volta s.pJogo ExibicaoDados lixo' (.numero origem) (.numero destino)).espelhada := by
  intro hall
  obtain ⟨s,hs,hp⟩ := TransitionSystem.exists_reachable_of_exec
    (T := partida jogoNovo PCA_PecaBranca) (l := lancesComCaptura)
    (p := fun s => decide (s.lugar = .rodada) && JogadasDisponiveis s.pJogo s.ExibicaoDados &&
      !JogadasDisponiveis s.pJogo.espelhado s.ExibicaoDados) (by decide +kernel)
  simp only [Bool.and_eq_true,decide_eq_true_eq,Bool.not_eq_true'] at hp
  obtain ⟨⟨hl,hd⟩,he⟩ := hp
  have h := (hall jogoNovo PCA_PecaBranca s hs hl s.ExibicaoDados PCA_PecaBranca 19 0).1
  rw [hd,he] at h
  cases h

end PucRio.Gamao
