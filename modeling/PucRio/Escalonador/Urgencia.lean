import PucRio.Escalonador.Prioridade

/-! Which process runs. At each statement at most one process may be continued: the one in the slot of
the process that runs, or, from its `SIGCONT` on, the one chosen. -/
namespace PucRio.Escalonador.Prioridade

/-- The process with the smallest value, in the lowest slot of these, among the first `n`. -/
def MaisUrgente (n : ℕ) (lista : ℕ → Slot) (i : ℕ) : Prop :=
  i < n ∧ (lista i).pid ≠ -1 ∧ ∀ j < n, (lista j).pid ≠ -1 →
    (lista i).prioridade < (lista j).prioridade ∨
      ((lista i).prioridade = (lista j).prioridade ∧ i ≤ j)

section Choice
variable {PIDList : ℕ → Slot} {n i : ℕ} {a : ℤ}

theorem menorProcesso_spec (PIDList : ℕ → Slot) (n : ℕ) :
    (menorProcesso PIDList n = -1 ∧ ∀ j < n, (PIDList j).pid = -1) ∨
      ∃ i, menorProcesso PIDList n = (i : ℕ) ∧ MaisUrgente n PIDList i := by
  induction n with
  | zero => exact .inl ⟨rfl,fun j hj => absurd hj (Nat.not_lt_zero j)⟩
  | succ n ih =>
    rw [menorProcesso]
    by_cases hlive : (PIDList n).pid ≠ -1
    · rw [if_pos hlive]
      right
      obtain ⟨hnone,hfree⟩ | ⟨i,hi,hlt,hi',hmin⟩ := ih
      · rw [if_pos (.inl hnone)]
        refine ⟨n,rfl,Nat.lt_succ_self n,hlive,fun j hj hj' => ?_⟩
        obtain rfl : j = n := by
          by_contra hne
          exact hj' (hfree j (by omega))
        exact .inr ⟨rfl,le_rfl⟩
      · rw [hi,Int.toNat_natCast]
        by_cases hless : (PIDList n).prioridade < (PIDList i).prioridade
        · rw [if_pos (.inr hless)]
          refine ⟨n,rfl,Nat.lt_succ_self n,hlive,fun j hj hj' => ?_⟩
          by_cases hjn : j = n
          · subst hjn
            exact .inr ⟨rfl,le_rfl⟩
          · have := hmin j (by omega) hj'
            omega
        · rw [if_neg (by omega)]
          refine ⟨i,rfl,by omega,hi',fun j hj hj' => ?_⟩
          by_cases hjn : j = n
          · subst hjn
            omega
          · exact hmin j (by omega) hj'
    · rw [if_neg hlive]
      have hfree := not_not.mp hlive
      obtain ⟨hnone,hall⟩ | ⟨i,hi,hlt,hi',hmin⟩ := ih
      · refine .inl ⟨hnone,fun j hj => ?_⟩
        by_cases hjn : j = n
        · rw [hjn]
          exact hfree
        · exact hall j (by omega)
      · refine .inr ⟨i,hi,by omega,hi',fun j hj hj' => ?_⟩
        by_cases hjn : j = n
        · subst hjn
          exact absurd hfree hj'
        · exact hmin j (by omega) hj'

theorem mem_acessosObtem (h : a ∈ acessosObtem PIDList n) : 0 ≤ a ∧ a < n := by
  induction n with
  | zero => cases h
  | succ n ih =>
    rw [acessosObtem] at h
    rcases List.mem_append.mp h with h | h
    · have := ih h
      omega
    · split_ifs at h with hmenor
      · obtain ⟨hnone,-⟩ | ⟨i,hi,hlt,-⟩ := menorProcesso_spec PIDList n
        · exact absurd hnone hmenor.2
        · rw [hi] at h
          simp only [List.mem_cons,List.not_mem_nil,or_false] at h
          omega
      · obtain rfl := List.mem_singleton.mp h
        omega

theorem livre_eq_some (h : livre n PIDList = some i) : i < n ∧ (PIDList i).pid = -1 := by
  refine ⟨List.mem_range.mp (List.mem_of_find?_eq_some h),?_⟩
  simpa using List.find?_some h

theorem mem_acessosAdicionar (h : a ∈ acessosAdicionar n PIDList) : 0 ≤ a ∧ a < n := by
  obtain ⟨i,hi,rfl⟩ := List.mem_map.mp h
  rw [List.mem_range] at hi
  cases hlivre : livre n PIDList with
  | none =>
    rw [hlivre] at hi
    simp only [Option.elim_none] at hi
    omega
  | some k =>
    rw [hlivre] at hi
    simp only [Option.elim_some] at hi
    have := (livre_eq_some hlivre).1
    omega

end Choice

/-- The slot of the process that has been waited for and is still in the list. -/
def colhido (s : Estado) : Option ℕ :=
  match s.linha with
  | .terminou => some s.idxProcessoExecutando.toNat
  | .livraPID => some s.idxProcessoExecutando.toNat
  | _ => none

/-- The slot of the process that may be running. -/
def atual (s : Estado) : Option ℕ :=
  let executando :=
    if s.idxProcessoExecutando = -1 then none else some s.idxProcessoExecutando.toNat
  match s.linha with
  | .obtem => executando
  | .testa => executando
  | .espera => executando
  | .compara => executando
  | .interrompe => executando
  | .comparaDeNovo => executando.filter fun i =>
    (s.PIDList i).pid = (s.PIDList s.processoAExecutar.toNat).pid
  | .continuado => some s.processoAExecutar.toNat
  | .executa => some s.processoAExecutar.toNat
  | _ => none

/-- The processes in the list are different children; but for one that has been waited for. -/
structure Tabela (NUMPROCESSOS : ℕ) (PIDList : ℕ → Slot) (processos : ℤ → Option Processo)
    (colhido : Option ℕ) : Prop where
  listado : ∀ i, (PIDList i).pid ≠ -1 → i < NUMPROCESSOS
  vivo : ∀ i, (PIDList i).pid ≠ -1 → colhido ≠ some i → processos (PIDList i).pid ≠ none
  distinto : ∀ i j, (PIDList i).pid ≠ -1 → (PIDList i).pid = (PIDList j).pid → colhido ≠ some i →
    colhido ≠ some j → i = j

/-- All but one are stopped or have ended; this one is not stopped. -/
structure Rodando (PIDList : ℕ → Slot) (processos : ℤ → Option Processo) (atual : Option ℕ) :
    Prop where
  continuado : ∀ p, processos p = some .continuado → ∃ i, atual = some i ∧ (PIDList i).pid = p
  ativo : ∀ i, atual = some i → (PIDList i).pid ≠ -1 ∧ processos (PIDList i).pid ≠ some .parado

/-- The index of the process that runs. -/
structure Executando (NUMPROCESSOS : ℕ) (PIDList : ℕ → Slot) (idx : ℤ) : Prop where
  ge : -1 ≤ idx
  lt : idx < NUMPROCESSOS
  ocupado : idx ≠ -1 → (PIDList idx.toNat).pid ≠ -1

/-- The index of the process chosen. -/
def Escolhido (PIDList : ℕ → Slot) (c : ℤ) : Prop := 0 ≤ c ∧ (PIDList c.toNat).pid ≠ -1

/-- What the indices are at each statement. -/
def Indices (NUMPROCESSOS : ℕ) (s : Estado) : Prop :=
  let executando := Executando NUMPROCESSOS s.PIDList s.idxProcessoExecutando
  let escolhido := Escolhido s.PIDList s.processoAExecutar
  match s.linha with
  | .obtem => executando
  | .testa => executando ∧ (s.processoAExecutar ≠ -1 → escolhido)
  | .terminou => executando ∧ s.idxProcessoExecutando ≠ -1
  | .livraPID => executando ∧ s.idxProcessoExecutando ≠ -1
  | .livraPrioridade => 0 ≤ s.idxProcessoExecutando ∧ s.idxProcessoExecutando < NUMPROCESSOS
  | .livraIdx => 0 ≤ s.idxProcessoExecutando ∧ s.idxProcessoExecutando < NUMPROCESSOS
  | .interrompe => executando ∧ escolhido ∧ s.idxProcessoExecutando ≠ -1 ∧
    (s.PIDList s.idxProcessoExecutando.toNat).pid ≠ (s.PIDList s.processoAExecutar.toNat).pid
  | .interrompido => executando ∧ escolhido ∧ s.idxProcessoExecutando ≠ -1 ∧
    (s.PIDList s.idxProcessoExecutando.toNat).pid ≠ (s.PIDList s.processoAExecutar.toNat).pid
  | _ => executando ∧ escolhido

structure Valido (NUMPROCESSOS : ℕ) (s : Estado) : Prop where
  tabela : Tabela NUMPROCESSOS s.PIDList s.processos (colhido s)
  rodando : Rodando s.PIDList s.processos (atual s)
  indices : Indices NUMPROCESSOS s

section Handler
variable {N i : ℕ} {PIDList PIDList' : ℕ → Slot} {processos processos' : ℤ → Option Processo}
  {c a : Option ℕ} {idx pid prioridade : ℤ} {s : Estado}

theorem Tabela.adiciona (h : Tabela N PIDList processos c) (hi : i < N) (hpid : 0 < pid)
    (hnew : processos pid = none) :
    Tabela N (Function.update PIDList i ⟨pid,prioridade⟩)
      (Function.update processos pid (some .parado)) c := by
  have hself : Function.update PIDList i ⟨pid,prioridade⟩ i = ⟨pid,prioridade⟩ :=
    Function.update_self i _ PIDList
  have hslot {j : ℕ} (hj : j ≠ i) : Function.update PIDList i ⟨pid,prioridade⟩ j = PIDList j :=
    Function.update_of_ne hj _ PIDList
  -- a child that is there already has another PID
  have hne {j : ℕ} (hj : (PIDList j).pid ≠ -1) (hc : c ≠ some j) : (PIDList j).pid ≠ pid := by
    rintro rfl
    exact h.vivo j hj hc hnew
  refine ⟨fun j hj => ?_,fun j hj hc => ?_,fun j k hj hjk hcj hck => ?_⟩
  · by_cases hji : j = i
    · exact hji ▸ hi
    · rw [hslot hji] at hj
      exact h.listado j hj
  · by_cases hji : j = i
    · rw [hji,hself,Function.update_self]
      exact Option.some_ne_none _
    · rw [hslot hji] at hj ⊢
      rw [Function.update_of_ne (hne hj hc)]
      exact h.vivo j hj hc
  · by_cases hji : j = i <;> by_cases hki : k = i
    · exact hji.trans hki.symm
    · rw [hji,hself,hslot hki] at hjk
      have hk : (PIDList k).pid ≠ -1 := by
        rw [← hjk]
        exact (by omega : pid ≠ -1)
      exact absurd hjk.symm (hne hk hck)
    · rw [hslot hji] at hj hjk
      rw [hki,hself] at hjk
      exact absurd hjk (hne hj hcj)
    · rw [hslot hji] at hj hjk
      rw [hslot hki] at hjk
      exact h.distinto j k hj hjk hcj hck

theorem Rodando.adiciona (h : Rodando PIDList processos a) (hi : (PIDList i).pid = -1)
    (hnew : processos pid = none) (hvivo : ∀ j, a = some j → processos (PIDList j).pid ≠ none) :
    Rodando (Function.update PIDList i ⟨pid,prioridade⟩)
      (Function.update processos pid (some .parado)) a := by
  have hslot {j : ℕ} (hj : a = some j) :
      Function.update PIDList i ⟨pid,prioridade⟩ j = PIDList j := by
    refine Function.update_of_ne ?_ _ _
    rintro rfl
    exact (h.ativo j hj).1 hi
  refine ⟨fun p hp => ?_,fun j hj => ?_⟩
  · by_cases hpp : p = pid
    · rw [hpp,Function.update_self] at hp
      cases hp
    · rw [Function.update_of_ne hpp] at hp
      obtain ⟨j,hj,hjp⟩ := h.continuado p hp
      exact ⟨j,hj,by rw [hslot hj,hjp]⟩
  · rw [hslot hj]
    refine ⟨(h.ativo j hj).1,?_⟩
    rw [Function.update_of_ne]
    · exact (h.ativo j hj).2
    · rintro rfl
      exact hvivo j hj hnew

/-- The slots that are not free are as they were. -/
def Estende (PIDList PIDList' : ℕ → Slot) : Prop :=
  ∀ i, (PIDList i).pid ≠ -1 → PIDList' i = PIDList i

theorem estende_update (hi : (PIDList i).pid = -1) (slot : Slot) :
    Estende PIDList (Function.update PIDList i slot) := by
  intro j hj
  refine Function.update_of_ne ?_ _ _
  rintro rfl
  exact hj hi

theorem Executando.estende (he : Estende PIDList PIDList') (h : Executando N PIDList idx) :
    Executando N PIDList' idx := by
  refine ⟨h.ge,h.lt,fun hidx => ?_⟩
  rw [he _ (h.ocupado hidx)]
  exact h.ocupado hidx

theorem Escolhido.estende (he : Estende PIDList PIDList') (h : Escolhido PIDList idx) :
    Escolhido PIDList' idx := by
  refine ⟨h.1,?_⟩
  rw [he _ h.2]
  exact h.2

theorem Indices.estende (he : Estende s.PIDList PIDList') (h : Indices N s) :
    Indices N { s with PIDList := PIDList', processos := processos' } := by
  obtain ⟨PIDList,idx,proc,linha,processos⟩ := s
  cases linha with
  | obtem => exact Executando.estende he h
  | testa => exact ⟨h.1.estende he,fun hne => (h.2 hne).estende he⟩
  | terminou => exact ⟨h.1.estende he,h.2⟩
  | livraPID => exact ⟨h.1.estende he,h.2⟩
  | livraPrioridade => exact h
  | livraIdx => exact h
  | interrompe =>
    obtain ⟨hidx,hc,hne,hpids⟩ := h
    refine ⟨hidx.estende he,hc.estende he,hne,?_⟩
    dsimp only at he hidx hc hpids ⊢
    rwa [he _ (hidx.ocupado hne),he _ hc.2]
  | interrompido =>
    obtain ⟨hidx,hc,hne,hpids⟩ := h
    refine ⟨hidx.estende he,hc.estende he,hne,?_⟩
    dsimp only at he hidx hc hpids ⊢
    rwa [he _ (hidx.ocupado hne),he _ hc.2]
  | espera => exact ⟨h.1.estende he,h.2.estende he⟩
  | compara => exact ⟨h.1.estende he,h.2.estende he⟩
  | comparaDeNovo => exact ⟨h.1.estende he,h.2.estende he⟩
  | continua => exact ⟨h.1.estende he,h.2.estende he⟩
  | continuado => exact ⟨h.1.estende he,h.2.estende he⟩
  | executa => exact ⟨h.1.estende he,h.2.estende he⟩

theorem atual_estende (he : Estende s.PIDList PIDList') (h : Indices N s) :
    atual { s with PIDList := PIDList', processos := processos' } = atual s := by
  obtain ⟨PIDList,idx,proc,linha,processos⟩ := s
  cases linha with
  | comparaDeNovo =>
    obtain ⟨hidx,hc⟩ := h
    dsimp only [atual] at he hidx hc ⊢
    by_cases hne : idx = -1
    · rw [if_pos hne]
      rfl
    · rw [if_neg hne]
      simp only [Option.filter_some,he _ (hidx.ocupado hne),he _ hc.2]
  | _ => rfl

theorem colhido_of_atual (h : atual s = some i) : colhido s = none := by
  obtain ⟨PIDList,idx,proc,linha,processos⟩ := s
  cases linha with
  | terminou => cases h
  | livraPID => cases h
  | _ => rfl

theorem Valido.vivo (h : Valido N s) (hi : atual s = some i) :
    s.processos (s.PIDList i).pid ≠ none := by
  apply h.tabela.vivo i (h.rodando.ativo i hi).1
  rw [colhido_of_atual hi]
  exact (Option.some_ne_none i).symm

theorem Valido.adiciona (h : Valido N s) (hpid : 0 < pid) (hnew : s.processos pid = none) :
    Valido N (adicionarProcesso N pid prioridade s) := by
  unfold adicionarProcesso
  cases hlivre : livre N s.PIDList with
  | none => exact h
  | some i =>
    obtain ⟨hi,hfree⟩ := livre_eq_some hlivre
    have he := estende_update hfree ⟨pid,prioridade⟩
    refine ⟨h.tabela.adiciona hi hpid hnew,?_,h.indices.estende he⟩
    have hatual : atual { s with
        PIDList := Function.update s.PIDList i ⟨pid,prioridade⟩
        processos := Function.update s.processos pid (some .parado) } = atual s :=
      atual_estende he h.indices
    rw [Option.elim_some,hatual]
    exact h.rodando.adiciona hfree hnew fun j hj => h.vivo hj

theorem Tabela.mono (h : Tabela N PIDList processos c)
    (hp : ∀ p, processos p ≠ none → processos' p ≠ none) : Tabela N PIDList processos' c :=
  ⟨h.listado,fun i hi hc => hp _ (h.vivo i hi hc),h.distinto⟩

theorem Tabela.termina (h : Tabela N PIDList processos c) (pid : ℤ) :
    Tabela N PIDList (Function.update processos pid (some .terminado)) c := by
  refine h.mono fun p hp => ?_
  by_cases hpp : p = pid
  · rw [hpp,Function.update_self]
    exact Option.some_ne_none _
  · rwa [Function.update_of_ne hpp]

theorem Rodando.termina (h : Rodando PIDList processos a) (pid : ℤ) :
    Rodando PIDList (Function.update processos pid (some .terminado)) a := by
  refine ⟨fun p hp => ?_,fun i hi => ⟨(h.ativo i hi).1,?_⟩⟩
  · by_cases hpp : p = pid
    · rw [hpp,Function.update_self] at hp
      cases hp
    · rw [Function.update_of_ne hpp] at hp
      exact h.continuado p hp
  · by_cases hpp : (PIDList i).pid = pid
    · rw [hpp,Function.update_self]
      intro heq
      cases heq
    · rw [Function.update_of_ne hpp]
      exact (h.ativo i hi).2

theorem Valido.termina (h : Valido N s) (pid : ℤ) :
    Valido N { s with processos := Function.update s.processos pid (some .terminado) } :=
  ⟨h.tabela.termina pid,h.rodando.termina pid,h.indices.estende fun _ _ => rfl⟩

end Handler

section Loop
variable {N i : ℕ} {PIDList PIDList' : ℕ → Slot} {processos processos' : ℤ → Option Processo}
  {a : Option ℕ} {idx c antes p : ℤ} {s : Estado}

theorem pidEm_of_nonneg (h : 0 ≤ c) : pidEm antes PIDList c = (PIDList c.toNat).pid :=
  if_neg (not_lt.mpr h)

theorem Executando.nonneg (h : Executando N PIDList idx) (hne : idx ≠ -1) : 0 ≤ idx := by
  have := h.ge
  omega

theorem kill_self {sinal : Processo → Processo} :
    kill p sinal processos p = (processos p).map sinal := if_pos (.inr rfl)

theorem kill_of_ne {pid : ℤ} {sinal : Processo → Processo} (hpid : pid ≠ -1) (hp : p ≠ pid) :
    kill pid sinal processos p = processos p := if_neg (by tauto)

theorem kill_ne_none {pid : ℤ} {sinal : Processo → Processo} (h : processos p ≠ none) :
    kill pid sinal processos p ≠ none := by
  unfold kill
  split_ifs
  · simpa using h
  · exact h

theorem Tabela.colhe (h : Tabela N PIDList processos none) (i : ℕ) :
    Tabela N PIDList (Function.update processos (PIDList i).pid none) (some i) := by
  refine ⟨h.listado,fun j hj hji => ?_,fun j k hj hjk _ _ => ?_⟩
  · rw [Function.update_of_ne]
    · exact h.vivo j hj (Option.some_ne_none j).symm
    · intro heq
      have hji' := h.distinto j i hj heq (Option.some_ne_none j).symm (Option.some_ne_none i).symm
      exact hji (congrArg some hji'.symm)
  · exact h.distinto j k hj hjk (Option.some_ne_none j).symm (Option.some_ne_none k).symm

theorem Tabela.livra (h : Tabela N PIDList processos (some i)) :
    Tabela N (Function.update PIDList i { PIDList i with pid := -1 }) processos none := by
  have hlive {j : ℕ} (hj : (Function.update PIDList i { PIDList i with pid := -1 } j).pid ≠ -1) :
      j ≠ i := by
    rintro rfl
    exact hj (by rw [Function.update_self])
  have hslot {j : ℕ} (hj : j ≠ i) :
      Function.update PIDList i { PIDList i with pid := -1 } j = PIDList j :=
    Function.update_of_ne hj _ PIDList
  have hsome {j : ℕ} (hj : j ≠ i) : some i ≠ some j := fun heq => hj (Option.some.inj heq).symm
  refine ⟨fun j hj => ?_,fun j hj _ => ?_,fun j k hj hjk _ _ => ?_⟩
  · have hji := hlive hj
    rw [hslot hji] at hj
    exact h.listado j hj
  · have hji := hlive hj
    rw [hslot hji] at hj ⊢
    exact h.vivo j hj (hsome hji)
  · have hji := hlive hj
    have hki := hlive (hjk ▸ hj)
    rw [hslot hji] at hj hjk
    rw [hslot hki] at hjk
    exact h.distinto j k hj hjk (hsome hji) (hsome hki)

theorem Tabela.congr {o : Option ℕ} (h : Tabela N PIDList processos o)
    (hpid : ∀ j, (PIDList' j).pid = (PIDList j).pid) : Tabela N PIDList' processos o := by
  refine ⟨fun j hj => ?_,fun j hj => ?_,fun j k hj hjk => ?_⟩
  · rw [hpid] at hj
    exact h.listado j hj
  · rw [hpid] at hj ⊢
    exact h.vivo j hj
  · rw [hpid] at hj hjk
    rw [hpid] at hjk
    exact h.distinto j k hj hjk

theorem pid_livraPrioridade (i j : ℕ) :
    (Function.update PIDList i { PIDList i with prioridade := -1 } j).pid = (PIDList j).pid := by
  by_cases hj : j = i
  · rw [hj,Function.update_self]
  · rw [Function.update_of_ne hj]

/-- Nothing runs. -/
theorem rodando_none (h : ∀ p, processos p ≠ some .continuado) : Rodando PIDList processos none :=
  ⟨fun p hp => absurd hp (h p),fun _ hi => by cases hi⟩

theorem Rodando.not_continuado (h : Rodando PIDList processos none) (p : ℤ) :
    processos p ≠ some .continuado := by
  intro hp
  obtain ⟨i,hi,-⟩ := h.continuado p hp
  cases hi

theorem Rodando.eq (h : Rodando PIDList processos (some i)) (hp : processos p = some .continuado) :
    p = (PIDList i).pid := by
  obtain ⟨j,hj,rfl⟩ := h.continuado p hp
  rw [Option.some.inj hj]

theorem Rodando.colhe (h : Rodando PIDList processos (some i)) :
    Rodando PIDList (Function.update processos (PIDList i).pid none) none := by
  refine rodando_none fun p hp => ?_
  by_cases hpi : p = (PIDList i).pid
  · rw [hpi,Function.update_self] at hp
    cases hp
  · rw [Function.update_of_ne hpi] at hp
    exact hpi (h.eq hp)

theorem Rodando.interrompe (h : Rodando PIDList processos (some i)) :
    Rodando PIDList (kill (PIDList i).pid SIGSTOP processos) none := by
  refine rodando_none fun p hp => ?_
  by_cases hpi : p = (PIDList i).pid
  · rw [hpi,kill_self] at hp
    obtain ⟨q,-,hq⟩ := Option.map_eq_some_iff.mp hp
    cases q <;> cases hq
  · rw [kill_of_ne (h.ativo i rfl).1 hpi] at hp
    exact hpi (h.eq hp)

theorem Rodando.continua (h : Rodando PIDList processos none)
    (hi : (PIDList i).pid ≠ -1) :
    Rodando PIDList (kill (PIDList i).pid SIGCONT processos) (some i) := by
  refine ⟨fun p hp => ⟨i,rfl,?_⟩,fun j hj => ?_⟩
  · by_contra hpi
    rw [kill_of_ne hi (Ne.symm hpi)] at hp
    exact h.not_continuado p hp
  · obtain rfl := Option.some.inj hj
    refine ⟨hi,fun hp => ?_⟩
    rw [kill_self] at hp
    obtain ⟨q,-,hq⟩ := Option.map_eq_some_iff.mp hp
    cases q <;> cases hq

/-- At `comparaDeNovo` nothing runs but the process chosen. -/
theorem atual_comparaDeNovo (hlinha : s.linha = .comparaDeNovo) : atual s =
    if s.idxProcessoExecutando ≠ -1 ∧ (s.PIDList s.idxProcessoExecutando.toNat).pid =
      (s.PIDList s.processoAExecutar.toNat).pid then some s.idxProcessoExecutando.toNat
    else none := by
  obtain ⟨PIDList,idx,proc,linha,processos⟩ := s
  obtain rfl : linha = .comparaDeNovo := hlinha
  dsimp only [atual]
  by_cases hidx : idx = -1
  · rw [if_pos hidx,if_neg (fun h => h.1 hidx)]
    rfl
  · rw [if_neg hidx,Option.filter_some]
    simp [hidx]

theorem Valido.proxima (h : Valido N s) : Valido N (proxima N antes s) := by
  obtain ⟨PIDList,idx,proc,linha,processos⟩ := s
  obtain ⟨ht,hr,hi⟩ := h
  have hidx (he : Executando N PIDList idx) (hne : idx ≠ -1) :
      pidEm antes PIDList idx = (PIDList idx.toNat).pid := pidEm_of_nonneg (he.nonneg hne)
  have hproc (hc : Escolhido PIDList proc) : pidEm antes PIDList proc = (PIDList proc.toNat).pid :=
    pidEm_of_nonneg hc.1
  cases linha with
  | obtem =>
    refine ⟨ht,hr,hi,fun hne => ?_⟩
    obtain ⟨hnone,-⟩ | ⟨i,hmenor,-,hlive,-⟩ := menorProcesso_spec PIDList N
    · exact absurd hnone hne
    · change Escolhido PIDList (menorProcesso PIDList N)
      rw [hmenor]
      exact ⟨Int.natCast_nonneg i,hlive⟩
  | testa =>
    dsimp only [Prioridade.proxima]
    by_cases hnone : proc = -1
    · rw [if_pos hnone]
      exact ⟨ht,hr,hi.1⟩
    · rw [if_neg hnone]
      exact ⟨ht,hr,hi.1,hi.2 hnone⟩
  | espera =>
    dsimp only [Prioridade.proxima]
    by_cases hended : idx ≠ -1 ∧ waitpid processos (pidEm antes PIDList idx) = true
    · rw [if_pos hended,hidx hi.1 hended.1]
      have hr : Rodando PIDList processos (some idx.toNat) := by
        dsimp only [atual] at hr
        rwa [if_neg hended.1] at hr
      exact ⟨ht.colhe _,hr.colhe,hi.1,hended.1⟩
    · rw [if_neg hended]
      exact ⟨ht,hr,hi⟩
  | terminou => exact ⟨ht,hr,hi⟩
  | livraPID =>
    exact ⟨ht.livra,rodando_none hr.not_continuado,hi.1.nonneg hi.2,hi.1.lt⟩
  | livraPrioridade =>
    exact ⟨ht.congr (pid_livraPrioridade idx.toNat),rodando_none hr.not_continuado,hi⟩
  | livraIdx =>
    refine ⟨ht,rodando_none hr.not_continuado,le_rfl,?_,fun hne => absurd rfl hne⟩
    have : (0 : ℤ) ≤ idx := hi.1
    have : idx < N := hi.2
    change (-1 : ℤ) < N
    omega
  | compara =>
    obtain ⟨he,hc⟩ := hi
    dsimp only [Prioridade.proxima]
    by_cases hdiff : idx ≠ -1 ∧ pidEm antes PIDList idx ≠ pidEm antes PIDList proc
    · rw [if_pos hdiff]
      refine ⟨ht,hr,he,hc,hdiff.1,?_⟩
      rw [← hidx he hdiff.1,← hproc hc]
      exact hdiff.2
    · rw [if_neg hdiff]
      refine ⟨ht,?_,he,hc⟩
      rw [atual_comparaDeNovo rfl]
      by_cases hne : idx = -1
      · rw [if_neg fun h => h.1 hne]
        dsimp only [atual] at hr
        rwa [if_pos hne] at hr
      · have heq := not_not.mp fun heq => hdiff ⟨hne,heq⟩
        rw [hidx he hne,hproc hc] at heq
        rw [if_pos ⟨hne,heq⟩]
        dsimp only [atual] at hr
        rwa [if_neg hne] at hr
  | interrompe =>
    obtain ⟨he,hc,hne,hpids⟩ := hi
    dsimp only [Prioridade.proxima]
    rw [hidx he hne]
    have hr : Rodando PIDList processos (some idx.toNat) := by
      dsimp only [atual] at hr
      rwa [if_neg hne] at hr
    exact ⟨ht.mono fun _ => kill_ne_none,hr.interrompe,he,hc,hne,hpids⟩
  | interrompido =>
    obtain ⟨he,hc,hne,hpids⟩ := hi
    refine ⟨ht,?_,he,hc⟩
    rw [atual_comparaDeNovo rfl]
    change Rodando PIDList processos (if _ ∧ _ then _ else _)
    rw [if_neg fun h => hpids h.2]
    exact hr
  | comparaDeNovo =>
    obtain ⟨he,hc⟩ := hi
    rw [atual_comparaDeNovo rfl] at hr
    dsimp only [Prioridade.proxima] at hr ⊢
    by_cases hdiff : pidEm antes PIDList idx ≠ pidEm antes PIDList proc
    · rw [if_pos hdiff]
      refine ⟨ht,?_,he,hc⟩
      rw [if_neg] at hr
      · exact hr
      · rintro ⟨hne,heq⟩
        rw [hidx he hne,hproc hc] at hdiff
        exact hdiff heq
    · rw [if_neg hdiff]
      refine ⟨ht,?_,he⟩
      dsimp only [atual]
      by_cases hne : idx = -1
      · rw [if_neg fun h => h.1 hne] at hr
        rwa [if_pos hne]
      · have heq := not_not.mp hdiff
        rw [hidx he hne,hproc hc] at heq
        rw [if_pos ⟨hne,heq⟩] at hr
        rwa [if_neg hne]
  | continua =>
    obtain ⟨he,hc⟩ := hi
    dsimp only [Prioridade.proxima]
    rw [hproc hc]
    exact ⟨ht.mono fun _ => kill_ne_none,hr.continua hc.2,he,hc⟩
  | continuado => exact ⟨ht,hr,hi⟩
  | executa =>
    obtain ⟨he,hge,hlive⟩ := hi
    have hge : 0 ≤ proc := hge
    have hlt : proc.toNat < N := ht.listado _ hlive
    have hne : proc ≠ -1 := by omega
    refine ⟨ht,?_,?_,?_,fun _ => hlive⟩
    · dsimp only [Prioridade.proxima,atual]
      rwa [if_neg hne]
    · change -1 ≤ proc
      omega
    · change proc < N
      omega

/-- What one step can do. -/
theorem step_cases {t : Estado} {b : Acao} (h : step N antes s b = some t) :
    (∃ pid prioridade, b = .adicionarProcesso pid prioridade ∧ 0 < pid ∧ s.processos pid = none ∧
      t = adicionarProcesso N pid prioridade s) ∨
    (∃ pid, b = .termina pid ∧
      t = { s with processos := Function.update s.processos pid (some .terminado) }) ∨
    (b = .proxima ∧ t = proxima N antes s) := by
  cases b with
  | adicionarProcesso pid prioridade =>
    rw [step] at h
    split_ifs at h with hfork
    exact .inl ⟨pid,prioridade,rfl,hfork.1,hfork.2,(Option.some.inj h).symm⟩
  | termina pid =>
    rw [step] at h
    split_ifs at h
    exact .inr (.inl ⟨pid,rfl,(Option.some.inj h).symm⟩)
  | proxima => exact .inr (.inr ⟨rfl,(Option.some.inj h).symm⟩)

theorem Valido.step {t : Estado} {b : Acao} (h : Valido N s)
    (hstep : Prioridade.step N antes s b = some t) : Valido N t := by
  obtain ⟨pid,prioridade,-,hpid,hnew,rfl⟩ | ⟨pid,-,rfl⟩ | ⟨-,rfl⟩ := step_cases hstep
  · exact h.adiciona hpid hnew
  · exact h.termina pid
  · exact h.proxima

end Loop

end PucRio.Escalonador.Prioridade
