import PucRio.Gamao.PieceConservation

/-! The searches for a move against what the executor accepts. The search for a way back from the
bar looks at the house with the number of the die, which for white is the mirror image of the house
that the executor enters, and a player who can come back must also have a move on the board. Where
pieces may be finished the search takes any black piece, and any white piece at most twice a die
away. -/
namespace PucRio.Gamao
open PCA_tpCorPeca

variable {j : JGO_tpJogo} {d : tpExibicaoDados}

instance (n : ℤ) : Decidable (Aberta j n) :=
  inferInstanceAs (Decidable (∃ i, n = numero i ∧ j.opostas i ≤ 1))

instance : Decidable (EntradaAberta j d) :=
  inferInstanceAs
    (Decidable (∃ k, 0 < d k ∧ d k ≤ 6 ∧ Aberta j (casaEntrada j.JogadorAtual (d k))))

theorem LeCasa_numero (i : Fin 24) : LeCasa (.numero (numero i)) = .numero (numero i) := by
  have := one_le_numero i
  have := numero_le i
  rw [LeCasa,if_neg (by omega)]

theorem LeCasa_zero : LeCasa (.numero 0) = .numero 0 := rfl

theorem comando_JogadaTerminou (lixo : PCA_tpCorPeca) (e : Entrada) :
    (comando j d lixo e).JogadaTerminou = false := by
  cases e <;> rfl

/-- The moves of the executor with pieces on the bar. -/
theorem reentrada_executada_iff (hb : 0 < j.naBarra) {n : ℤ} :
    (percorrerDados j d (serveReentrada j n) (acaoReentrada j n)).JogadaTerminou = true ↔
      Aberta j n ∧ ∃ k, 0 < d k ∧ d k ≤ 6 ∧ n = casaEntrada j.JogadorAtual (d k) := by
  rw [percorrerDados_iff]
  simp only [serveReentrada_iff]
  refine and_congr_left fun ⟨k,h0,h6,hn⟩ => ?_
  obtain ⟨i,hi⟩ := exists_casaEntrada h0 h6 j.JogadorAtual
  rw [hn,hi]
  simp only [acaoReentrada_iff hb,exists_and_left,exists_eq,and_true,Aberta,numero_inj,
    exists_eq_left']

/-- The moves of the executor on the board. -/
theorem jogar_executada_iff {n m : ℤ} : (jogar j d n m).JogadaTerminou = true ↔
    (m = 0 ∧ JogadorAtualPodeFinalizarPecas j = true ∧
      ∃ i k, n = numero i ∧ 0 < j.proprias i ∧ 0 < d k ∧ distancia j.JogadorAtual n ≤ 6 ∧
        alcance j.JogadorAtual n ≤ d k) ∨
    (m ≠ 0 ∧ Aberta j m ∧
      ∃ i k, n = numero i ∧ 0 < j.proprias i ∧ 0 < d k ∧ m = avanco j.JogadorAtual n (d k)) := by
  rw [jogar]
  by_cases hm : m = 0
  · simp only [hm,true_and,ne_eq,not_true_eq_false,false_and,or_false]
    cases hp : JogadorAtualPodeFinalizarPecas j with
    | false => simp
    | true =>
      rw [if_neg (by simp),if_true,percorrerDados_iff]
      simp only [serveRetirada_iff,acaoRetirada_iff,true_and]
      constructor
      · rintro ⟨⟨j',i,hn,hi,-⟩,k,hk⟩
        exact ⟨i,k,hn,hi,hk⟩
      · rintro ⟨i,k,hn,hi,hk⟩
        exact ⟨⟨_,i,hn,hi,rfl⟩,k,hk⟩
  · simp only [hm,false_and,if_false,ne_eq,not_false_eq_true,true_and,false_or]
    rw [percorrerDados_iff]
    simp only [serveMovimento_iff]
    constructor
    · rintro ⟨⟨j',hj⟩,k,hk⟩
      cases hc : ObtemCasa m with
      | none => simp [acaoMovimento,TAB_MoverPeca,TAB_ContarPecas,hc] at hj
      | some k' =>
        obtain rfl := ObtemCasa_eq_some.mp hc
        obtain ⟨ho,i,hn,hi,-⟩ := acaoMovimento_iff.mp hj
        exact ⟨⟨k',rfl,ho⟩,i,k,hn,hi,hk⟩
    · rintro ⟨⟨k',rfl,ho⟩,i,k,hn,hi,hk⟩
      exact ⟨⟨_,acaoMovimento_iff.mpr ⟨ho,i,hn,hi,rfl⟩⟩,k,hk⟩

/-- There is something to type that a pass carries out. -/
theorem executa_iff (lixo : PCA_tpCorPeca) :
    (∃ linha linha', (volta j d lixo linha linha').JogadaTerminou = true) ↔
      if 0 < j.naBarra then EntradaAberta j d
      else JogadorAtualPodeFinalizarPecas j = true ∧ RetiradaAoAlcance j d ∨
        MovimentoAberto j d := by
  by_cases hb : 0 < j.naBarra
  · have hb' : BAR_ContarPecas j.pPecasCapturadas j.JogadorAtual > 0 := hb
    simp only [volta,hb,hb',if_true]
    constructor
    · rintro ⟨linha,linha',h⟩
      cases hl : LeCasa linha with
      | numero n =>
        simp only [hl] at h
        obtain ⟨ha,k,h0,h6,rfl⟩ := (reentrada_executada_iff hb).mp h
        exact ⟨k,h0,h6,ha⟩
      | _ => simp [hl,comando_JogadaTerminou] at h
    · rintro ⟨k,h0,h6,i,hi,ho⟩
      refine ⟨.numero (numero i),.erro,?_⟩
      rw [LeCasa_numero]
      exact (reentrada_executada_iff hb).mpr ⟨⟨i,rfl,ho⟩,k,h0,h6,hi.symm⟩
  · have hb' : ¬ BAR_ContarPecas j.pPecasCapturadas j.JogadorAtual > 0 := hb
    simp only [volta,hb,hb',if_false]
    constructor
    · rintro ⟨linha,linha',h⟩
      cases hl : LeCasa linha with
      | numero n =>
        cases hl' : LeCasa linha' with
        | numero m =>
          simp only [hl,hl'] at h
          rcases jogar_executada_iff.mp h with ⟨-,hp,i,k,rfl,hi,hk⟩ | ⟨-,ha,i,k,rfl,hi,hk,rfl⟩
          · exact .inl ⟨hp,i,k,hi,hk⟩
          · exact .inr ⟨i,k,hi,hk,ha⟩
        | _ => simp [hl,hl',comando_JogadaTerminou] at h
      | _ => simp [hl,comando_JogadaTerminou] at h
    · rintro (⟨hp,i,k,hi,hk⟩ | ⟨i,k,hi,hk,i',hi',ho⟩)
      · refine ⟨.numero (numero i),.numero 0,?_⟩
        rw [LeCasa_numero,LeCasa_zero]
        exact jogar_executada_iff.mpr (.inl ⟨rfl,hp,i,k,rfl,hi,hk⟩)
      · refine ⟨.numero (numero i),.numero (numero i'),?_⟩
        rw [LeCasa_numero,LeCasa_numero]
        have := one_le_numero i'
        exact jogar_executada_iff.mpr
          (.inr ⟨by omega,⟨i',rfl,ho⟩,i,k,rfl,hi,hk,hi'.symm⟩)

/-- What the executor may finish the search finds. -/
theorem RetiradaAoAlcance.naFaixa (h : RetiradaAoAlcance j d) : RetiradaNaFaixa j d := by
  obtain ⟨i,k,hi,hk,hd,ha⟩ := h
  refine ⟨i,k,hi,hk,fun hc => ?_,fun hc => ?_⟩
  · rw [hc,alcance] at ha
    omega
  · rw [hc,distancia] at hd
    omega

/-- Where the searches and the executor agree: with pieces on the bar, some die opens an entry just
if a house with the number of a die is open and a move on the board is open as well; with all pieces
at home, a piece that the search takes to be finished can be finished by the executor, or else a
move on the board is open. -/
structure BuscaConfere (j : JGO_tpJogo) (d : tpExibicaoDados) : Prop where
  barra : 0 < j.naBarra → (EntradaAberta j d ↔ CasaDoDadoAberta j d ∧ MovimentoAberto j d)
  retirada : j.naBarra = 0 → JogadorAtualPodeFinalizarPecas j = true → RetiradaNaFaixa j d →
    RetiradaAoAlcance j d ∨ MovimentoAberto j d

theorem podeFinalizar_naBarra (h : JogadorAtualPodeFinalizarPecas j = true) : j.naBarra = 0 := by
  by_contra hb
  have hb' : BAR_ContarPecas j.pPecasCapturadas j.JogadorAtual > 0 := Nat.pos_of_ne_zero hb
  simp [JogadorAtualPodeFinalizarPecas,hb'] at h

/-- The searches announce a move just if the executor would take one, exactly where they agree. -/
theorem available_iff (j : JGO_tpJogo) (ExibicaoDados : tpExibicaoDados) (lixo : PCA_tpCorPeca) :
    (JogadasDisponiveis j ExibicaoDados = true ↔
      ∃ linha linha', (volta j ExibicaoDados lixo linha linha').JogadaTerminou = true) ↔
    BuscaConfere j ExibicaoDados := by
  rw [executa_iff,JogadasDisponiveis_iff]
  by_cases hb : 0 < j.naBarra
  · have hp : ¬ JogadorAtualPodeFinalizarPecas j = true := fun hp => by
      have := podeFinalizar_naBarra hp
      omega
    simp only [hb,hp,if_true,forall_const,Bool.false_eq_true,false_and,false_or]
    constructor
    · intro h
      exact ⟨fun _ => h.symm,fun h0 => absurd h0 (by omega)⟩
    · intro h
      exact (h.barra hb).symm
  · have hb0 : j.naBarra = 0 := by omega
    simp only [hb,if_false,false_implies,true_and]
    constructor
    · intro h
      refine ⟨fun h0 => absurd h0 hb,fun _ hp hr => ?_⟩
      exact (h.mp (.inl ⟨hp,hr⟩)).imp_left And.right
    · intro h
      constructor
      · rintro (⟨hp,hr⟩ | hm)
        · exact (h.retirada hb0 hp hr).imp_left fun ha => ⟨hp,ha⟩
        · exact .inr hm
      · rintro (⟨hp,ha⟩ | hm)
        · exact .inl ⟨hp,ha.naFaixa⟩
        · exact .inr hm

/-- White is asked for ever for a house to come back to: house 6 has no black piece, but the house
to enter with a 6 is house 19, which is closed. -/
theorem not_available_six : ¬ ∀ pJogo lixo s, (partida pJogo lixo).Reachable s →
    s.lugar = .rodada → ∀ ExibicaoDados lixo', JogadasDisponiveis s.pJogo ExibicaoDados = true ↔
      ∃ linha linha', (volta s.pJogo ExibicaoDados lixo' linha linha').JogadaTerminou = true := by
  intro hall
  obtain ⟨s,hs,hp⟩ := TransitionSystem.exists_reachable_of_exec
    (T := partida jogoNovo PCA_PecaBranca) (l := lancesComCaptura)
    (p := fun s => decide (s.lugar = .rodada) && JogadasDisponiveis s.pJogo s.ExibicaoDados &&
      decide (0 < s.pJogo.naBarra) && !decide (EntradaAberta s.pJogo s.ExibicaoDados))
    (by decide +kernel)
  simp only [Bool.and_eq_true,decide_eq_true_eq,Bool.not_eq_true',decide_eq_false_iff_not] at hp
  obtain ⟨⟨⟨hl,hd⟩,hb⟩,he⟩ := hp
  have hx := (hall jogoNovo PCA_PecaBranca s hs hl s.ExibicaoDados PCA_PecaBranca).mp hd
  rw [executa_iff,if_pos hb] at hx
  exact he hx

end PucRio.Gamao
