import PucRio.Escalonador.Urgencia

/-! Where the scheduler looks into the list, and when an iteration ends with the most urgent process
of the list it chose from. -/
namespace PucRio.Escalonador.Prioridade

/-- A process of the list that is continued. -/
def Continuado (s : Estado) (i : ℕ) : Prop :=
  (s.PIDList i).pid ≠ -1 ∧ s.processos (s.PIDList i).pid = some .continuado

/-- There is at most one. -/
def UmContinuado (s : Estado) : Prop := ∀ i j, Continuado s i → Continuado s j → i = j

/-- After an iteration the process of `idxProcessoExecutando` is the most urgent one of the list,
and it has been continued. -/
def ExecutaMaisUrgente (NUMPROCESSOS : ℕ) (lista : ℕ → Slot) (x : Estado × Historia) : Prop :=
  x.2.rodada = true → ∃ i, MaisUrgente NUMPROCESSOS lista i ∧ x.1.idxProcessoExecutando = (i : ℕ) ∧
    (x.1.PIDList i).pid = (lista i).pid ∧
    (x.1.processos (lista i).pid = some .continuado ∨
      x.1.processos (lista i).pid = some .terminado)

/-- The list from which the iteration chose, with the priorities that the processes were given. -/
def Historia.listaDada (h : Historia) : ℕ → Slot :=
  fun i => ⟨(h.lista i).pid,h.dadas (h.lista i).pid⟩

/-- What the scheduler is for. -/
structure Correto (NUMPROCESSOS : ℕ) (x : Estado × Historia) : Prop where
  acessos : ∀ a ∈ x.2.acessos, 0 ≤ a ∧ a < NUMPROCESSOS
  umContinuado : UmContinuado x.1
  maisUrgente : ExecutaMaisUrgente NUMPROCESSOS x.2.listaDada x

/-- A process runs wherever the list is read at `idxProcessoExecutando` without a check. -/
def SemIndice (x : Estado × Historia) (a : Acao) : Prop :=
  a = .proxima → x.1.linha = .comparaDeNovo → x.1.idxProcessoExecutando ≠ -1

/-- What is read there otherwise is not the PID of the process chosen. -/
def MemoriaDiferente (antes : ℤ) (x : Estado × Historia) (a : Acao) : Prop :=
  a = .proxima → x.1.linha = .comparaDeNovo → x.1.idxProcessoExecutando = -1 →
    antes ≠ pidEm antes x.1.PIDList x.1.processoAExecutar

/-- No process with a priority gets the slot that is being freed. -/
def SemCorrida (NUMPROCESSOS : ℕ) (x : Estado × Historia) (a : Acao) : Prop :=
  ∀ pid prioridade, a = .adicionarProcesso pid prioridade → x.1.linha = .livraPrioridade →
    livre NUMPROCESSOS x.1.PIDList = some x.1.idxProcessoExecutando.toNat → prioridade = -1

section Step
variable {N : ℕ} {antes : ℤ} {x y : Estado × Historia} {a : Acao}

theorem escalonador_step (h : (escalonador N antes).step x a = some y) :
    step N antes x.1 a = some y.1 ∧ y.2 = x.2.registra N antes x.1 a := by
  obtain ⟨t,ht,rfl⟩ := Option.map_eq_some_iff.mp h
  exact ⟨ht,rfl⟩

theorem Valido.init : Valido N (escalonador N antes).init.1 := by
  refine ⟨⟨?_,?_,?_⟩,rodando_none ?_,le_rfl,?_,?_⟩
  · exact fun i hi => absurd rfl hi
  · exact fun i hi => absurd rfl hi
  · exact fun i j hi => absurd rfl hi
  · intro p hp
    cases hp
  · change (-1 : ℤ) < N
    omega
  · exact fun hne => absurd rfl hne

theorem valido (h : (escalonador N antes).Reachable x) : Valido N x.1 :=
  h.invariant (I := fun x => Valido N x.1) Valido.init fun _ _ _ hI _ ht =>
    hI.step (escalonador_step ht).1

theorem Valido.umContinuado {s : Estado} (h : Valido N s) : UmContinuado s := by
  intro i j hi hj
  obtain ⟨k,hk,hik⟩ := h.rodando.continuado _ hi.2
  obtain ⟨m,hm,hjm⟩ := h.rodando.continuado _ hj.2
  obtain rfl : k = m := Option.some.inj (hk.symm.trans hm)
  have hnone := colhido_of_atual hk
  apply h.tabela.distinto i j hi.1 (hik.symm.trans hjm) <;> rw [hnone]
  · exact (Option.some_ne_none i).symm
  · exact (Option.some_ne_none j).symm

/-- Only the comparison that is made again looks in front of the list. -/
theorem Valido.acessos {s : Estado} {c : ℤ} (h : Valido N s) (hc : c ∈ acessos N s) : c < N ∧
    (0 ≤ c ∨ (c = -1 ∧ s.linha = .comparaDeNovo ∧ s.idxProcessoExecutando = -1)) := by
  obtain ⟨PIDList,idx,proc,linha,processos⟩ := s
  obtain ⟨ht,-,hi⟩ := h
  have hidx {P : Prop} (he : Executando N PIDList idx) (hne : idx ≠ -1) (hc : c ∈ [idx]) :
      c < N ∧ (0 ≤ c ∨ P) := by
    obtain rfl := List.mem_singleton.mp hc
    exact ⟨he.lt,.inl (he.nonneg hne)⟩
  have hproc {P : Prop} (he : Escolhido PIDList proc) (hc : c ∈ [proc]) : c < N ∧ (0 ≤ c ∨ P) := by
    obtain rfl := List.mem_singleton.mp hc
    have hlt : c.toNat < N := ht.listado _ he.2
    have hge := he.1
    exact ⟨by omega,.inl hge⟩
  cases linha with
  | obtem => exact (mem_acessosObtem hc).symm.imp_right .inl
  | espera =>
    dsimp only [Prioridade.acessos] at hc
    split_ifs at hc with hne
    · exact hidx hi.1 hne hc
    · cases hc
  | compara =>
    dsimp only [Prioridade.acessos] at hc
    split_ifs at hc with hne
    · obtain rfl | hc := List.mem_cons.mp hc
      · exact hidx hi.1 hne List.mem_cons_self
      · exact hproc hi.2 hc
    · cases hc
  | terminou => exact hidx hi.1 hi.2 hc
  | livraPID => exact hidx hi.1 hi.2 hc
  | livraPrioridade =>
    obtain rfl := List.mem_singleton.mp hc
    exact ⟨hi.2,.inl hi.1⟩
  | interrompe => exact hidx hi.1 hi.2.2.1 hc
  | interrompido => exact hidx hi.1 hi.2.2.1 hc
  | comparaDeNovo =>
    obtain rfl | hc := List.mem_cons.mp hc
    · by_cases hne : c = -1
      · exact ⟨hi.1.lt,.inr ⟨hne,rfl,hne⟩⟩
      · exact hidx hi.1 hne List.mem_cons_self
    · exact hproc hi.2 hc
  | continua => exact hproc hi.2 hc
  | continuado => exact hproc hi.2 hc
  | testa => cases hc
  | livraIdx => cases hc
  | executa => cases hc

theorem acessos_ge (h : (escalonador N antes).Reachable x) :
    ∀ c ∈ x.2.acessos, -1 ≤ c ∧ c < N := by
  have hinv := h.invariant
    (I := fun x : Estado × Historia => Valido N x.1 ∧ ∀ c ∈ x.2.acessos, -1 ≤ c ∧ c < N)
    ⟨Valido.init,fun c hc => absurd hc List.not_mem_nil⟩ ?_
  · exact hinv.2
  · intro x a y hI _ hy
    obtain ⟨t,hist⟩ := y
    obtain ⟨hstep,rfl⟩ := escalonador_step hy
    refine ⟨hI.1.step hstep,fun c hc => ?_⟩
    obtain ⟨pid,prioridade,rfl,-⟩ | ⟨pid,rfl,-⟩ | ⟨rfl,-⟩ := step_cases hstep
    · obtain hc | hc := List.mem_append.mp hc
      · exact hI.2 c hc
      · have := mem_acessosAdicionar hc
        omega
    · exact hI.2 c hc
    · obtain hc | hc := List.mem_append.mp hc
      · exact hI.2 c hc
      · have := hI.1.acessos hc
        omega

end Step

section Choice
variable {N : ℕ} {antes pid prioridade : ℤ} {s : Estado} {lista : ℕ → Slot}

/-- The statements from the choice to the end of the iteration. -/
def Linha.escolheu : Linha → Bool
  | .obtem => false
  | .terminou => false
  | .livraPID => false
  | .livraPrioridade => false
  | .livraIdx => false
  | _ => true

/-- The choice is the most urgent process of the list it was made from, and still in its slot. -/
def Escolheu (NUMPROCESSOS : ℕ) (lista : ℕ → Slot) (s : Estado) : Prop :=
  s.linha.escolheu = true → s.processoAExecutar ≠ -1 →
    MaisUrgente NUMPROCESSOS lista s.processoAExecutar.toNat ∧
      (s.PIDList s.processoAExecutar.toNat).pid = (lista s.processoAExecutar.toNat).pid

theorem adicionarProcesso_linha : (adicionarProcesso N pid prioridade s).linha = s.linha := by
  unfold adicionarProcesso
  cases livre N s.PIDList <;> rfl

theorem adicionarProcesso_processoAExecutar :
    (adicionarProcesso N pid prioridade s).processoAExecutar = s.processoAExecutar := by
  unfold adicionarProcesso
  cases livre N s.PIDList <;> rfl

theorem estende_adicionarProcesso :
    Estende s.PIDList (adicionarProcesso N pid prioridade s).PIDList := by
  unfold adicionarProcesso
  cases hlivre : livre N s.PIDList with
  | none => exact fun _ _ => rfl
  | some i => exact estende_update (livre_eq_some hlivre).2 ⟨pid,prioridade⟩

theorem Escolheu.adiciona (h : Escolheu N lista s) :
    Escolheu N lista (adicionarProcesso N pid prioridade s) := by
  unfold Escolheu
  rw [adicionarProcesso_linha,adicionarProcesso_processoAExecutar]
  intro hlinha hne
  obtain ⟨hmin,hpid⟩ := h hlinha hne
  refine ⟨hmin,?_⟩
  rw [estende_adicionarProcesso]
  · exact hpid
  · rw [hpid]
    exact hmin.2.1

theorem Escolheu.obtem (hlinha : s.linha = .obtem) :
    Escolheu N s.PIDList (proxima N antes s) := by
  obtain ⟨PIDList,idx,proc,linha,processos⟩ := s
  obtain rfl : linha = .obtem := hlinha
  intro _ hne
  obtain ⟨hnone,-⟩ | ⟨i,hmenor,hmin⟩ := menorProcesso_spec PIDList N
  · exact absurd hnone hne
  · change MaisUrgente N PIDList (menorProcesso PIDList N).toNat ∧ _
    rw [hmenor]
    exact ⟨hmin,rfl⟩

/-- Until the iteration ends, the list and the choice stay. -/
theorem proxima_escolheu (hlinha : s.linha ≠ .obtem)
    (h : (proxima N antes s).linha.escolheu = true) : s.linha.escolheu = true ∧
      (proxima N antes s).PIDList = s.PIDList ∧
      (proxima N antes s).processoAExecutar = s.processoAExecutar := by
  obtain ⟨PIDList,idx,proc,linha,processos⟩ := s
  cases linha with
  | obtem => exact absurd rfl hlinha
  | terminou => cases h
  | livraPID => cases h
  | livraPrioridade => cases h
  | livraIdx => cases h
  | espera =>
    dsimp only [proxima]
    split_ifs <;> exact ⟨rfl,rfl,rfl⟩
  | _ => exact ⟨rfl,rfl,rfl⟩

theorem Escolheu.proxima (h : Escolheu N lista s) :
    Escolheu N (if s.linha = .obtem then s.PIDList else lista) (proxima N antes s) := by
  by_cases hlinha : s.linha = .obtem
  · rw [if_pos hlinha]
    exact Escolheu.obtem hlinha
  · rw [if_neg hlinha]
    intro hdepois hne
    obtain ⟨hantes,hlista,hproc⟩ := proxima_escolheu hlinha hdepois
    rw [hproc] at hne ⊢
    rw [hlista]
    exact h hantes hne

theorem Escolheu.step {x y : Estado × Historia} {a : Acao} (h : Escolheu N x.2.lista x.1)
    (hy : (escalonador N antes).step x a = some y) : Escolheu N y.2.lista y.1 := by
  obtain ⟨t,hist⟩ := y
  obtain ⟨hstep,rfl⟩ := escalonador_step hy
  obtain ⟨pid,prioridade,rfl,-,-,rfl⟩ | ⟨pid,rfl,rfl⟩ | ⟨rfl,rfl⟩ := step_cases hstep
  · exact h.adiciona
  · exact h
  · exact h.proxima

end Choice

section Round
variable {N : ℕ} {antes : ℤ} {s : Estado} {x y : Estado × Historia} {a : Acao}

/-- At the end of an iteration the process chosen is the one of `idxProcessoExecutando`. -/
theorem Valido.fimDaRodada (h : Valido N s) (hfim : fimDaRodada antes s = true)
    (hmem : s.linha = .comparaDeNovo → s.idxProcessoExecutando = -1 →
      antes ≠ pidEm antes s.PIDList s.processoAExecutar) :
    s.linha.escolheu = true ∧ 0 ≤ s.processoAExecutar ∧
      (Prioridade.proxima N antes s).linha = .obtem ∧
      (Prioridade.proxima N antes s).idxProcessoExecutando = s.processoAExecutar ∧
      (Prioridade.proxima N antes s).PIDList = s.PIDList := by
  obtain ⟨PIDList,idx,proc,linha,processos⟩ := s
  obtain ⟨ht,-,hi⟩ := h
  obtain hlinha | ⟨hlinha,heq⟩ := of_decide_eq_true hfim
  · obtain rfl : linha = .executa := hlinha
    exact ⟨rfl,hi.2.1,rfl,rfl,rfl⟩
  · obtain rfl : linha = .comparaDeNovo := hlinha
    obtain ⟨he,hc⟩ := hi
    dsimp only at he hc heq hmem ht
    have hne : idx ≠ -1 := by
      rintro rfl
      exact hmem rfl rfl heq
    -- processes with one PID are in one slot
    have hslot : idx.toNat = proc.toNat := by
      rw [pidEm_of_nonneg (he.nonneg hne),pidEm_of_nonneg hc.1] at heq
      exact ht.distinto _ _ (he.ocupado hne) heq (Option.some_ne_none _).symm
        (Option.some_ne_none _).symm
    have hidx : idx = proc := by
      have := he.nonneg hne
      have : 0 ≤ proc := hc.1
      omega
    dsimp only [Prioridade.proxima]
    rw [if_neg (not_not.mpr heq)]
    exact ⟨rfl,hc.1,rfl,hidx,rfl⟩

theorem Valido.executa {i : ℕ} (h : Valido N s) (hlinha : s.linha = .obtem)
    (hi : s.idxProcessoExecutando = (i : ℕ)) :
    s.processos (s.PIDList i).pid = some .continuado ∨
      s.processos (s.PIDList i).pid = some .terminado := by
  have hatual : atual s = some i := by
    obtain ⟨PIDList,idx,proc,linha,processos⟩ := s
    obtain rfl : linha = .obtem := hlinha
    obtain rfl : idx = (i : ℕ) := hi
    dsimp only [atual]
    rw [if_neg (by omega),Int.toNat_natCast]
  have hativo := (h.rodando.ativo i hatual).2
  have hvivo := h.vivo hatual
  cases hp : s.processos (s.PIDList i).pid with
  | none => exact absurd hp hvivo
  | some p =>
    cases p with
    | parado => exact absurd hp hativo
    | continuado => exact .inl rfl
    | terminado => exact .inr rfl

theorem ExecutaMaisUrgente.step (hv : Valido N x.1) (he : Escolheu N x.2.lista x.1)
    (hg : MemoriaDiferente antes x a) (h : (escalonador N antes).step x a = some y) :
    ExecutaMaisUrgente N y.2.lista y := by
  obtain ⟨t,hist⟩ := y
  obtain ⟨hstep,rfl⟩ := escalonador_step h
  have hvt := hv.step hstep
  obtain ⟨pid,prioridade,rfl,-⟩ | ⟨pid,rfl,-⟩ | ⟨rfl,rfl⟩ := step_cases hstep
  · intro hrodada
    cases hrodada
  · intro hrodada
    cases hrodada
  · intro hfim
    obtain ⟨hlinha,hge,hobtem,hidx,hlista⟩ := hv.fimDaRodada hfim (hg rfl)
    obtain ⟨i,hi⟩ := Int.eq_ofNat_of_zero_le hge
    obtain ⟨hmin,hpid⟩ := he hlinha (by omega)
    rw [hi] at hidx
    rw [hi,Int.toNat_natCast] at hmin hpid
    have hdepois : (x.2.registra N antes x.1 .proxima).lista = x.2.lista := by
      refine if_neg fun heq => ?_
      rw [heq] at hlinha
      cases hlinha
    have hexecuta := hvt.executa hobtem hidx
    dsimp only at hexecuta ⊢
    rw [hlista,hpid] at hexecuta
    rw [hdepois,hlista]
    exact ⟨i,hmin,hidx,hpid,hexecuta⟩

/-- Without a process that runs it is not. -/
theorem not_executaMaisUrgente_step (hg : ¬MemoriaDiferente antes x a)
    (h : (escalonador N antes).step x a = some y) : ¬ExecutaMaisUrgente N y.2.lista y := by
  obtain ⟨⟨PIDList,idx,proc,linha,processos⟩,hist⟩ := x
  obtain ⟨t,hist'⟩ := y
  obtain ⟨hstep,rfl⟩ := escalonador_step h
  unfold MemoriaDiferente at hg
  push Not at hg
  obtain ⟨rfl,hlinha,hidx,heq⟩ := hg
  obtain rfl : linha = .comparaDeNovo := hlinha
  obtain rfl : idx = -1 := hidx
  obtain rfl := Option.some.inj hstep
  intro hexecuta
  have heq : pidEm antes PIDList (-1) = pidEm antes PIDList proc := heq
  obtain ⟨i,-,hi,-⟩ := hexecuta (decide_eq_true (.inr ⟨rfl,heq⟩))
  have hi : (proxima N antes ⟨PIDList,-1,proc,.comparaDeNovo,processos⟩).idxProcessoExecutando =
    (i : ℕ) := hi
  have hi : (-1 : ℤ) = (i : ℕ) := hi
  omega

structure Invariante (N : ℕ) (x : Estado × Historia) : Prop where
  valido : Valido N x.1
  escolheu : Escolheu N x.2.lista x.1
  maisUrgente : ExecutaMaisUrgente N x.2.lista x

theorem Invariante.init : Invariante N (escalonador N antes).init :=
  ⟨Valido.init,fun hlinha => (by cases hlinha),fun hrodada => (by cases hrodada)⟩

theorem Invariante.step (h : Invariante N x) (hg : MemoriaDiferente antes x a)
    (hy : (escalonador N antes).step x a = some y) : Invariante N y :=
  ⟨h.valido.step (escalonador_step hy).1,h.escolheu.step hy,
    ExecutaMaisUrgente.step h.valido h.escolheu hg hy⟩

theorem executaMaisUrgente (h : (escalonador N antes).ReachableUnder (MemoriaDiferente antes) x) :
    ExecutaMaisUrgente N x.2.lista x :=
  (h.invariant Invariante.init fun _ _ _ hI hg hy => hI.step hg hy).maisUrgente

end Round

section Given
variable {N : ℕ} {antes pid prioridade : ℤ} {x y : Estado × Historia} {a : Acao}

/-- The priorities in the list are those the processes were given; the slot that is being freed may
already have a new process, which is to keep the priority written there. -/
structure Dadas (x : Estado × Historia) : Prop where
  tabela : ∀ j, (x.1.PIDList j).pid ≠ -1 → colhido x.1 ≠ some j →
    (x.1.PIDList j).prioridade = x.2.prioridades (x.1.PIDList j).pid
  livrando : x.1.linha = .livraPrioridade →
    (x.1.PIDList x.1.idxProcessoExecutando.toNat).pid ≠ -1 →
      x.2.prioridades (x.1.PIDList x.1.idxProcessoExecutando.toNat).pid = -1
  escolha : ∀ j, (x.2.lista j).pid ≠ -1 →
    (x.2.lista j).prioridade = x.2.dadas (x.2.lista j).pid

theorem adicionarProcesso_slot (s : Estado) (j : ℕ) :
    (livre N s.PIDList = some j ∧
      (adicionarProcesso N pid prioridade s).PIDList j = ⟨pid,prioridade⟩) ∨
    (adicionarProcesso N pid prioridade s).PIDList j = s.PIDList j := by
  unfold adicionarProcesso
  cases livre N s.PIDList with
  | none => exact .inr rfl
  | some i =>
    by_cases hj : j = i
    · rw [hj]
      exact .inl ⟨rfl,Function.update_self i _ s.PIDList⟩
    · exact .inr (Function.update_of_ne hj _ s.PIDList)

theorem adicionarProcesso_idxProcessoExecutando (s : Estado) :
    (adicionarProcesso N pid prioridade s).idxProcessoExecutando = s.idxProcessoExecutando := by
  unfold adicionarProcesso
  cases livre N s.PIDList <;> rfl

theorem adicionarProcesso_colhido (s : Estado) :
    colhido (adicionarProcesso N pid prioridade s) = colhido s := by
  unfold adicionarProcesso
  cases livre N s.PIDList <;> rfl

theorem Dadas.adiciona (h : Dadas x) (hv : Valido N x.1) (hnew : x.1.processos pid = none)
    (hg : SemCorrida N x (.adicionarProcesso pid prioridade)) :
    Dadas (adicionarProcesso N pid prioridade x.1,
      x.2.registra N antes x.1 (.adicionarProcesso pid prioridade)) := by
  -- the processes of the list keep what they were given
  have hkeep {j : ℕ} (hj : (x.1.PIDList j).pid ≠ -1) (hc : colhido x.1 ≠ some j) :
      Function.update x.2.prioridades pid prioridade (x.1.PIDList j).pid =
        x.2.prioridades (x.1.PIDList j).pid := by
    refine Function.update_of_ne ?_ _ _
    rintro rfl
    exact hv.tabela.vivo j hj hc hnew
  refine ⟨fun j => ?_,?_,h.escolha⟩
  · dsimp only [Historia.registra]
    rw [adicionarProcesso_colhido]
    obtain ⟨-,hslot⟩ | hslot := adicionarProcesso_slot x.1 j <;> rw [hslot] <;> intro hj hc
    · rw [Function.update_self]
    · rw [hkeep hj hc]
      exact h.tabela j hj hc
  · dsimp only [Historia.registra]
    rw [adicionarProcesso_linha,adicionarProcesso_idxProcessoExecutando]
    intro hlinha
    obtain ⟨hlivre,hslot⟩ | hslot :=
      adicionarProcesso_slot x.1 x.1.idxProcessoExecutando.toNat <;> rw [hslot] <;> intro hj
    · rw [Function.update_self]
      exact hg pid prioridade rfl hlinha hlivre
    · rw [hkeep hj]
      · exact h.livrando hlinha hj
      · unfold colhido
        rw [hlinha]
        exact (Option.some_ne_none _).symm

theorem Dadas.proxima (h : Dadas x) :
    Dadas (proxima N antes x.1,x.2.registra N antes x.1 .proxima) := by
  obtain ⟨⟨PIDList,idx,proc,linha,processos⟩,hist⟩ := x
  obtain ⟨ht,hl,he⟩ := h
  have hnone {j : ℕ} : (none : Option ℕ) ≠ some j := (Option.some_ne_none j).symm
  cases linha with
  | obtem => exact ⟨ht,fun heq => (by cases heq),fun j hj => ht j hj hnone⟩
  | testa =>
    dsimp only [Prioridade.proxima]
    split_ifs <;> exact ⟨ht,fun heq => (by cases heq),he⟩
  | espera =>
    dsimp only [Prioridade.proxima]
    split_ifs
    · exact ⟨fun j hj _ => ht j hj hnone,fun heq => (by cases heq),he⟩
    · exact ⟨ht,fun heq => (by cases heq),he⟩
  | livraPID =>
    dsimp only [Prioridade.proxima]
    refine ⟨fun j hj _ => ?_,fun _ hj => ?_,he⟩
    · dsimp only at hj ⊢
      by_cases hji : j = idx.toNat
      · rw [hji,Function.update_self] at hj
        exact absurd rfl hj
      · rw [Function.update_of_ne hji] at hj ⊢
        exact ht j hj fun heq => hji (Option.some.inj heq).symm
    · dsimp only at hj
      rw [Function.update_self] at hj
      exact absurd rfl hj
  | livraPrioridade =>
    dsimp only [Prioridade.proxima]
    refine ⟨fun j hj _ => ?_,fun heq => (by cases heq),he⟩
    dsimp only at hj ⊢
    rw [pid_livraPrioridade] at hj ⊢
    by_cases hji : j = idx.toNat
    · rw [hji] at hj ⊢
      rw [Function.update_self]
      exact (hl rfl hj).symm
    · rw [Function.update_of_ne hji]
      exact ht j hj hnone
  | compara =>
    dsimp only [Prioridade.proxima]
    split_ifs <;> exact ⟨ht,fun heq => (by cases heq),he⟩
  | comparaDeNovo =>
    dsimp only [Prioridade.proxima]
    split_ifs <;> exact ⟨ht,fun heq => (by cases heq),he⟩
  | _ => exact ⟨ht,fun heq => (by cases heq),he⟩

theorem Dadas.step (h : Dadas x) (hv : Valido N x.1) (hg : SemCorrida N x a)
    (hstep : (escalonador N antes).step x a = some y) : Dadas y := by
  obtain ⟨t,hist⟩ := y
  obtain ⟨hstep,rfl⟩ := escalonador_step hstep
  obtain ⟨pid,prioridade,rfl,-,hnew,rfl⟩ | ⟨pid,rfl,rfl⟩ | ⟨rfl,rfl⟩ := step_cases hstep
  · exact h.adiciona hv hnew hg
  · exact ⟨h.tabela,h.livrando,h.escolha⟩
  · exact h.proxima

theorem dadas (h : (escalonador N antes).ReachableUnder (SemCorrida N) x) : Dadas x := by
  have hinv := h.invariant (I := fun x => Valido N x.1 ∧ Dadas x) ⟨Valido.init,?_⟩ ?_
  · exact hinv.2
  · exact ⟨fun j hj => absurd rfl hj,fun heq => (by cases heq),fun j hj => absurd rfl hj⟩
  · intro s a t hI hg ht
    exact ⟨hI.1.step (escalonador_step ht).1,hI.2.step hI.1 hg ht⟩

theorem MaisUrgente.congr {lista lista' : ℕ → Slot} {i : ℕ}
    (hpid : ∀ j, (lista' j).pid = (lista j).pid)
    (hprioridade : ∀ j, (lista j).pid ≠ -1 → (lista' j).prioridade = (lista j).prioridade)
    (h : MaisUrgente N lista i) : MaisUrgente N lista' i := by
  obtain ⟨hi,hlive,hmin⟩ := h
  refine ⟨hi,(hpid i).symm ▸ hlive,fun j hj hj' => ?_⟩
  rw [hpid] at hj'
  rw [hprioridade i hlive,hprioridade j hj']
  exact hmin j hj hj'

theorem Dadas.executaMaisUrgente (h : Dadas x) (he : ExecutaMaisUrgente N x.2.lista x) :
    ExecutaMaisUrgente N x.2.listaDada x := by
  intro hrodada
  obtain ⟨i,hmin,hi⟩ := he hrodada
  refine ⟨i,?_,hi⟩
  apply MaisUrgente.congr _ _ hmin
  · exact fun _ => rfl
  · exact fun j hj => (h.escolha j hj).symm

end Given

section Idle
variable {N : ℕ} {antes : ℤ} {x y : Estado × Historia} {a : Acao}

/-- Before the first process is continued. -/
structure Ociosa (N : ℕ) (x : Estado × Historia) : Prop where
  valido : Valido N x.1
  acessos : ∀ a ∈ x.2.acessos, 0 ≤ a ∧ a < N
  rodada : x.2.rodada = false
  idx : x.1.idxProcessoExecutando = -1
  linha : x.1.linha = .obtem ∨ x.1.linha = .testa ∨ x.1.linha = .espera ∨ x.1.linha = .compara ∨
    x.1.linha = .comparaDeNovo

theorem Ociosa.correto (h : Ociosa N x) : Correto N x := by
  refine ⟨h.acessos,h.valido.umContinuado,fun hrodada => ?_⟩
  rw [h.rodada] at hrodada
  cases hrodada

theorem Ociosa.init : Ociosa N (escalonador N antes).init :=
  ⟨Valido.init,fun _ ha => absurd ha List.not_mem_nil,rfl,rfl,.inl rfl⟩

theorem Ociosa.acessos_proxima (h : Ociosa N x) (hg : SemIndice x .proxima) :
    ∀ a ∈ x.2.acessos++Prioridade.acessos N x.1, 0 ≤ a ∧ a < N := by
  intro a ha
  obtain ha | ha := List.mem_append.mp ha
  · exact h.acessos a ha
  · obtain ⟨hlt,hge | ⟨-,hlinha,hidx⟩⟩ := h.valido.acessos ha
    · exact ⟨hge,hlt⟩
    · exact absurd hidx (hg rfl hlinha)

theorem Ociosa.step (h : Ociosa N x) (hg : SemIndice x a)
    (hy : (escalonador N antes).step x a = some y) : Ociosa N y := by
  obtain ⟨t,hist⟩ := y
  obtain ⟨hstep,rfl⟩ := escalonador_step hy
  have hvt := h.valido.step hstep
  obtain ⟨pid,prioridade,rfl,-,-,rfl⟩ | ⟨pid,rfl,rfl⟩ | ⟨rfl,rfl⟩ := step_cases hstep
  · refine ⟨hvt,fun a ha => ?_,rfl,?_,?_⟩
    · obtain ha | ha := List.mem_append.mp ha
      · exact h.acessos a ha
      · exact mem_acessosAdicionar ha
    · exact (adicionarProcesso_idxProcessoExecutando x.1).trans h.idx
    · dsimp only
      rw [adicionarProcesso_linha]
      exact h.linha
  · exact ⟨hvt,h.acessos,rfl,h.idx,h.linha⟩
  · have hacessos := h.acessos_proxima hg
    obtain ⟨⟨PIDList,idx,proc,linha,processos⟩,hist⟩ := x
    obtain rfl : idx = -1 := h.idx
    obtain hlinha | hlinha | hlinha | hlinha | hlinha := h.linha
    · obtain rfl : linha = .obtem := hlinha
      exact ⟨hvt,hacessos,rfl,rfl,.inr (.inl rfl)⟩
    · obtain rfl : linha = .testa := hlinha
      refine ⟨hvt,hacessos,rfl,rfl,?_⟩
      dsimp only [proxima]
      split_ifs
      · exact .inl rfl
      · exact .inr (.inr (.inl rfl))
    · obtain rfl : linha = .espera := hlinha
      refine ⟨hvt,hacessos,rfl,?_,?_⟩ <;> dsimp only [proxima] <;> rw [if_neg fun h => h.1 rfl]
      exact .inr (.inr (.inr (.inl rfl)))
    · obtain rfl : linha = .compara := hlinha
      refine ⟨hvt,hacessos,rfl,rfl,?_⟩
      dsimp only [proxima]
      rw [if_neg fun h => h.1 rfl]
      exact .inr (.inr (.inr (.inr rfl)))
    · exact absurd rfl (hg rfl hlinha)

/-- The comparison reads `PIDList[-1][0]`. -/
theorem not_correto_step (hg : ¬SemIndice x a) (h : (escalonador N antes).step x a = some y) :
    ¬Correto N y := by
  obtain ⟨⟨PIDList,idx,proc,linha,processos⟩,hist⟩ := x
  obtain ⟨t,hist'⟩ := y
  obtain ⟨-,rfl⟩ := escalonador_step h
  unfold SemIndice at hg
  push Not at hg
  obtain ⟨rfl,hlinha,hidx⟩ := hg
  obtain rfl : linha = .comparaDeNovo := hlinha
  obtain rfl : idx = -1 := hidx
  intro hc
  have := (hc.acessos (-1) (List.mem_append_right _ List.mem_cons_self)).1
  omega

/-- A run is as it should be exactly when nothing is ever read in front of the list, and then no
process is continued. In every run at most one is continued and only the index -1 is wrong; the most
urgent process of the list is the one that runs exactly when what is read in front of the list is
never its PID, and it is so by the priorities given to the processes where none gets the slot that is
being freed. -/
theorem correto_iff_semIndice {l : List Acao} {u : Estado × Historia}
    (h : (escalonador N antes).exec (escalonador N antes).init l = some u) :
    ((∀ k x, (escalonador N antes).exec (escalonador N antes).init (l.take k) = some x →
        Correto N x) ↔
      ∀ k a x, l[k]? = some a →
        (escalonador N antes).exec (escalonador N antes).init (l.take k) = some x → SemIndice x a) ∧
    (∀ x, (escalonador N antes).Reachable x →
      UmContinuado x.1 ∧ ∀ a ∈ x.2.acessos, -1 ≤ a ∧ a < N) ∧
    ((∀ k x, (escalonador N antes).exec (escalonador N antes).init (l.take k) = some x →
        ExecutaMaisUrgente N x.2.lista x) ↔
      ∀ k a x, l[k]? = some a →
        (escalonador N antes).exec (escalonador N antes).init (l.take k) = some x →
          MemoriaDiferente antes x a) ∧
    ∀ x, (escalonador N antes).ReachableUnder
      (fun x a => MemoriaDiferente antes x a ∧ SemCorrida N x a) x →
        ExecutaMaisUrgente N x.2.listaDada x := by
  refine ⟨?_,fun x hx => ⟨(valido hx).umContinuado,?_⟩,?_,fun x hx => ?_⟩
  · apply TransitionSystem.exec_take_iff_of_exec (fun _ hI => hI.correto) _ _ Ociosa.init h
    · exact fun _ _ _ hI hg hy => hI.step hg hy
    · exact fun _ _ _ _ hg hy => not_correto_step hg hy
  · exact acessos_ge hx
  · apply TransitionSystem.exec_take_iff_of_exec (fun _ hI => hI.maisUrgente) _ _ Invariante.init h
    · exact fun _ _ _ hI hg hy => hI.step hg hy
    · exact fun _ _ _ _ hg hy => not_executaMaisUrgente_step hg hy
  · apply Dadas.executaMaisUrgente
    · exact dadas (hx.mono fun _ _ hg => hg.2)
    · exact executaMaisUrgente (hx.mono fun _ _ hg => hg.1)

end Idle

section Runs

instance (antes : ℤ) (x : Estado × Historia) (a : Acao) : Decidable (MemoriaDiferente antes x a) :=
  inferInstanceAs (Decidable (_ → _ → _ → _ ≠ _))

/-- The first process is added and chosen. -/
def primeiro : List Acao := .adicionarProcesso 100 5::List.replicate 4 .proxima

theorem correto_iff_semIndice_primeiro :
    (∃ u, (escalonador 1024 100).exec (escalonador 1024 100).init primeiro = some u) ∧
    ∀ k x, (escalonador 1024 100).exec (escalonador 1024 100).init (primeiro.take k) = some x →
      Correto 1024 x := by
  have hsome : ((escalonador 1024 100).exec (escalonador 1024 100).init primeiro).isSome = true :=
    by decide +kernel
  obtain ⟨u,hu⟩ := Option.isSome_iff_exists.mp hsome
  refine ⟨⟨u,hu⟩,(correto_iff_semIndice hu).1.mpr ?_⟩
  intro k a x ha hx _ hlinha
  have hk : k < 5 := (List.getElem?_eq_some_iff.mp ha).1
  have hantes : ∀ k < 5, (((escalonador 1024 100).exec (escalonador 1024 100).init
      (primeiro.take k)).all fun x => x.1.linha ≠ .comparaDeNovo) = true := by
    decide +kernel
  have hx' := hantes k hk
  rw [hx] at hx'
  exact absurd hlinha (of_decide_eq_true hx')

/-- A process ends; while its slot is being freed another one gets it, then a more urgent one
comes. -/
def corrida : List Acao :=
  .adicionarProcesso 1 5::List.replicate 8 .proxima++.termina 1::List.replicate 5 .proxima++
    .adicionarProcesso 2 7::List.replicate 2 .proxima++
    .adicionarProcesso 3 3::List.replicate 8 .proxima

/-- Then the first index read is -1, what is read there may be the PID chosen, and a process may run
with the priority that was written when its slot was freed. -/
theorem not_correto_primeiro : ¬(∀ x, (escalonador 1024 100).Reachable x → Correto 1024 x) ∧
    ¬(∀ x, (escalonador 1024 100).Reachable x → ExecutaMaisUrgente 1024 x.2.lista x) ∧
    ¬∀ x, (escalonador 2 0).ReachableUnder (MemoriaDiferente 0) x →
      ExecutaMaisUrgente 2 x.2.listaDada x := by
  obtain ⟨x,hx,hp⟩ := TransitionSystem.exists_reachable_of_exec (T := escalonador 1024 100)
    (l := primeiro) (p := fun x => x.1.linha = .comparaDeNovo ∧ x.1.idxProcessoExecutando = -1 ∧
      pidEm 100 x.1.PIDList x.1.processoAExecutar = 100) (by decide +kernel)
  obtain ⟨hlinha,hidx,hpid⟩ := of_decide_eq_true hp
  have hy : (escalonador 1024 100).step x .proxima = some (_,_) := rfl
  refine ⟨fun h => ?_,fun h => ?_,fun h => ?_⟩
  · exact not_correto_step (fun hg => hg rfl hlinha hidx) hy
      (h _ (TransitionSystem.ReachableUnder.step hx trivial hy))
  · exact not_executaMaisUrgente_step (fun hg => hg rfl hlinha hidx hpid.symm) hy
      (h _ (TransitionSystem.ReachableUnder.step hx trivial hy))
  · obtain ⟨y,hy,hp⟩ := TransitionSystem.exists_reachableUnder_of_execUnder (T := escalonador 2 0)
      (G := MemoriaDiferente 0) (l := corrida) (p := fun y => y.2.rodada = true ∧
        y.1.idxProcessoExecutando = 0 ∧ (y.2.listaDada 1).pid ≠ -1 ∧
        (y.2.listaDada 1).prioridade < (y.2.listaDada 0).prioridade) (by decide +kernel)
    obtain ⟨hrodada,hidx,hlive,hlt⟩ := of_decide_eq_true hp
    obtain ⟨i,hmin,hi,-⟩ := h y hy hrodada
    obtain rfl : i = 0 := by omega
    have := hmin.2.2 1 (by omega) hlive
    omega

end Runs

end PucRio.Escalonador.Prioridade
