import Mathlib.Algebra.BigOperators.Fin
import Mathlib.Algebra.Order.BigOperators.Group.Finset
import Mathlib.Algebra.Order.Ring.Int
import Mathlib.Data.Multiset.Count

/-! The containers of the pieces: the board (TABULEIRO), the bar (PECASCAPTURADAS) and the finished
pieces (PECASFINALIZADAS). A piece is its colour. Every search of a LISTA starts at its first
element, so its cursor only decides in which order pieces stand, and a list of pieces is the
multiset of them. Board and lists exist and memory suffices. -/
namespace PucRio.Gamao

inductive PCA_tpCorPeca
  | PCA_PecaBranca
  | PCA_PecaPreta
  deriving DecidableEq

open PCA_tpCorPeca

def PCA_tpCorPeca.oponente : PCA_tpCorPeca → PCA_tpCorPeca
  | PCA_PecaBranca => PCA_PecaPreta
  | PCA_PecaPreta => PCA_PecaBranca

@[simp] theorem PCA_tpCorPeca.oponente_oponente (c : PCA_tpCorPeca) : c.oponente.oponente = c := by
  cases c <;> rfl

theorem PCA_tpCorPeca.oponente_ne (c : PCA_tpCorPeca) : c.oponente ≠ c := by
  cases c <;> decide

theorem PCA_tpCorPeca.eq_or_eq_oponente (c c' : PCA_tpCorPeca) : c' = c ∨ c' = c.oponente := by
  cases c <;> cases c' <;> simp [oponente]

inductive TAB_tpCondRet
  | TAB_CondRetOK
  | TAB_CondRetCasaNaoExiste
  | TAB_CondRetPecaNaoExiste
  deriving DecidableEq

open TAB_tpCondRet

/-- The 24 houses of the board, house `n` at `n-1`. -/
@[ext] structure TAB_tpTabuleiro where
  Pecas : Fin 24 → Multiset PCA_tpCorPeca

def TAB_CriarTabuleiro : TAB_tpTabuleiro := ⟨fun _ => 0⟩

def ObtemCasa (NumeroCasa : ℤ) : Option (Fin 24) :=
  if h : 1 ≤ NumeroCasa ∧ NumeroCasa ≤ 24 then some ⟨(NumeroCasa-1).toNat,by omega⟩ else none

/-- The number of a house. -/
def numero (i : Fin 24) : ℤ := i.val+1

theorem ObtemCasa_eq_some {n : ℤ} {i : Fin 24} : ObtemCasa n = some i ↔ n = numero i := by
  have hi := i.isLt
  rw [ObtemCasa,numero]
  split_ifs with h
  · rw [Option.some_inj,Fin.ext_iff]
    constructor <;> intro hn <;> simp only at * <;> omega
  · simp only [false_iff]
    omega

@[simp] theorem ObtemCasa_numero (i : Fin 24) : ObtemCasa (numero i) = some i :=
  ObtemCasa_eq_some.mpr rfl

theorem ObtemCasa_eq_none {n : ℤ} : ObtemCasa n = none ↔ n < 1 ∨ 24 < n := by
  rw [ObtemCasa]
  split_ifs with h
  · simp only [false_iff]
    omega
  · simp only [true_iff]
    omega

theorem one_le_numero (i : Fin 24) : 1 ≤ numero i := by
  rw [numero]
  omega

theorem numero_le (i : Fin 24) : numero i ≤ 24 := by
  have := i.isLt
  rw [numero]
  omega

theorem exists_numero {n : ℤ} (h : 1 ≤ n) (h' : n ≤ 24) : ∃ i, n = numero i :=
  ⟨⟨(n-1).toNat,by omega⟩,by simp only [numero]; omega⟩

theorem numero_inj {i k : Fin 24} : numero i = numero k ↔ i = k := by
  rw [numero,numero,Fin.ext_iff]
  omega

def TAB_InserirPeca (pTabuleiro : TAB_tpTabuleiro) (pPeca : PCA_tpCorPeca) (NumeroCasa : ℤ) :
    Except TAB_tpCondRet TAB_tpTabuleiro :=
  match ObtemCasa NumeroCasa with
  | none => .error TAB_CondRetCasaNaoExiste
  | some pCasa =>
    .ok ⟨Function.update pTabuleiro.Pecas pCasa (pPeca ::ₘ pTabuleiro.Pecas pCasa)⟩

/-- The piece found and the board without it. -/
def TAB_RemoverPeca (pTabuleiro : TAB_tpTabuleiro) (CorPeca : PCA_tpCorPeca) (NumeroCasa : ℤ) :
    Except TAB_tpCondRet (PCA_tpCorPeca × TAB_tpTabuleiro) :=
  match ObtemCasa NumeroCasa with
  | none => .error TAB_CondRetCasaNaoExiste
  | some pCasa =>
    if CorPeca ∈ pTabuleiro.Pecas pCasa then
      .ok (CorPeca,⟨Function.update pTabuleiro.Pecas pCasa
        ((pTabuleiro.Pecas pCasa).erase CorPeca)⟩)
    else .error TAB_CondRetPecaNaoExiste

def TAB_MoverPeca (pTabuleiro : TAB_tpTabuleiro) (CorPeca : PCA_tpCorPeca)
    (NumeroCasaOrigem NumeroCasaDestino : ℤ) : Except TAB_tpCondRet TAB_tpTabuleiro :=
  match ObtemCasa NumeroCasaDestino with
  | none => .error TAB_CondRetCasaNaoExiste
  | some _ => do
    let (pPecaTemp,pTabuleiro) ← TAB_RemoverPeca pTabuleiro CorPeca NumeroCasaOrigem
    TAB_InserirPeca pTabuleiro pPecaTemp NumeroCasaDestino

/-- The code returned and the count, which is set to 0 first. -/
def TAB_ContarPecas (pTabuleiro : TAB_tpTabuleiro) (NumeroCasa : ℤ) (CorPeca : PCA_tpCorPeca) :
    TAB_tpCondRet × ℕ :=
  match ObtemCasa NumeroCasa with
  | none => (TAB_CondRetCasaNaoExiste,0)
  | some pCasa =>
    if pTabuleiro.Pecas pCasa = 0 then (TAB_CondRetPecaNaoExiste,0)
    else (TAB_CondRetOK,(pTabuleiro.Pecas pCasa).count CorPeca)

namespace TAB_tpTabuleiro
variable (t : TAB_tpTabuleiro) (c c' : PCA_tpCorPeca) (i k : Fin 24)

/-- The pieces of a colour on a house. -/
def pecas : ℕ := (t.Pecas i).count c

/-- The pieces of a colour on the board. -/
def total : ℕ := ∑ i, t.pecas c i

def inserida : TAB_tpTabuleiro := ⟨Function.update t.Pecas i (c ::ₘ t.Pecas i)⟩

def removida : TAB_tpTabuleiro := ⟨Function.update t.Pecas i ((t.Pecas i).erase c)⟩

variable {t c c' i k}

theorem pecas_eq_zero_of_empty (h : t.Pecas i = 0) : t.pecas c i = 0 := by
  rw [pecas,h,Multiset.count_zero]

theorem mem_Pecas_iff : c ∈ t.Pecas i ↔ 0 < t.pecas c i := Multiset.count_pos.symm

variable (t c c' i k)

theorem pecas_inserida :
    (t.inserida c i).pecas c' k = t.pecas c' k+if c' = c ∧ k = i then 1 else 0 := by
  rw [pecas,inserida,pecas]
  by_cases hk : k = i
  · subst hk
    simp only [Function.update_self,Multiset.count_cons,and_true]
  · simp only [Function.update_of_ne hk,hk,and_false,if_false,add_zero]

theorem pecas_removida :
    (t.removida c i).pecas c' k = t.pecas c' k-if c' = c ∧ k = i then 1 else 0 := by
  rw [pecas,removida,pecas]
  by_cases hk : k = i
  · subst hk
    by_cases hc : c' = c
    · subst hc
      simp only [Function.update_self,Multiset.count_erase_self,true_and,if_true]
    · simp only [Function.update_self,Multiset.count_erase_of_ne hc,hc,false_and,if_false,
        Nat.sub_zero]
  · simp only [Function.update_of_ne hk,hk,and_false,if_false,Nat.sub_zero]

theorem total_inserida : (t.inserida c i).total c' = t.total c'+if c' = c then 1 else 0 := by
  have hsum : ∑ k, (if c' = c ∧ k = i then 1 else 0) = if c' = c then 1 else 0 := by
    by_cases hc : c' = c <;> simp [hc]
  rw [total,total,← hsum,← Finset.sum_add_distrib]
  exact Finset.sum_congr rfl fun k _ => pecas_inserida t c c' i k

variable {t c i}

theorem inserida_removida (h : 0 < t.pecas c i) : (t.removida c i).inserida c i = t := by
  apply TAB_tpTabuleiro.ext
  funext k
  simp only [inserida,removida,Function.update_self,Function.update_idem,
    Multiset.cons_erase (mem_Pecas_iff.mpr h),Function.update_eq_self]

theorem total_removida (h : 0 < t.pecas c i) :
    (t.removida c i).total c'+(if c' = c then 1 else 0) = t.total c' := by
  rw [← total_inserida,inserida_removida h]

theorem pecas_le_total : t.pecas c i ≤ t.total c :=
  Finset.single_le_sum (f := t.pecas c) (fun _ _ => Nat.zero_le _) (Finset.mem_univ i)

end TAB_tpTabuleiro

section Operations
variable (t : TAB_tpTabuleiro) (c : PCA_tpCorPeca) (i : Fin 24) {n m : ℤ}

@[simp] theorem TAB_InserirPeca_numero :
    TAB_InserirPeca t c (numero i) = .ok (t.inserida c i) := by
  simp only [TAB_InserirPeca,ObtemCasa_numero,TAB_tpTabuleiro.inserida]

theorem TAB_RemoverPeca_numero : TAB_RemoverPeca t c (numero i) =
    if 0 < t.pecas c i then .ok (c,t.removida c i) else .error TAB_CondRetPecaNaoExiste := by
  simp only [TAB_RemoverPeca,ObtemCasa_numero,TAB_tpTabuleiro.removida,
    TAB_tpTabuleiro.mem_Pecas_iff]

variable {t c}

theorem TAB_RemoverPeca_eq_ok {r : PCA_tpCorPeca × TAB_tpTabuleiro} :
    TAB_RemoverPeca t c n = .ok r ↔ ∃ i, n = numero i ∧ 0 < t.pecas c i ∧ r = (c,t.removida c i) := by
  constructor
  · intro h
    cases hn : ObtemCasa n with
    | none => simp [TAB_RemoverPeca,hn] at h
    | some i =>
      obtain rfl := ObtemCasa_eq_some.mp hn
      rw [TAB_RemoverPeca_numero] at h
      split_ifs at h with hi
      exact ⟨i,rfl,hi,(Except.ok.inj h).symm⟩
  · rintro ⟨i,rfl,hi,rfl⟩
    rw [TAB_RemoverPeca_numero,if_pos hi]

/-- A piece moves from house to house, or nothing happens. -/
theorem TAB_MoverPeca_eq_ok {t' : TAB_tpTabuleiro} : TAB_MoverPeca t c n m = .ok t' ↔
    ∃ i k, n = numero i ∧ m = numero k ∧ 0 < t.pecas c i ∧ t' = (t.removida c i).inserida c k := by
  constructor
  · intro h
    cases hm : ObtemCasa m with
    | none => simp [TAB_MoverPeca,hm] at h
    | some k =>
      obtain rfl := ObtemCasa_eq_some.mp hm
      simp only [TAB_MoverPeca,hm] at h
      cases hr : TAB_RemoverPeca t c n with
      | error e => simp [hr,bind,Except.bind] at h
      | ok r =>
        obtain ⟨i,rfl,hi,rfl⟩ := TAB_RemoverPeca_eq_ok.mp hr
        simp only [hr,bind,Except.bind,TAB_InserirPeca_numero,Except.ok.injEq] at h
        exact ⟨i,k,rfl,rfl,hi,h.symm⟩
  · rintro ⟨i,k,rfl,rfl,hi,rfl⟩
    simp only [TAB_MoverPeca,ObtemCasa_numero,TAB_RemoverPeca_numero,if_pos hi,bind,Except.bind,
      TAB_InserirPeca_numero]

variable (t c)

theorem TAB_ContarPecas_numero : (TAB_ContarPecas t (numero i) c).2 = t.pecas c i := by
  simp only [TAB_ContarPecas,ObtemCasa_numero]
  split_ifs with h
  · exact (TAB_tpTabuleiro.pecas_eq_zero_of_empty h).symm
  · rfl

variable {t c}

/-- The answer that the searches take for a house to move to: it exists and holds at most one piece
of the colour. -/
theorem TAB_ContarPecas_livre : ((TAB_ContarPecas t n c).1 = TAB_CondRetOK ∧
      (TAB_ContarPecas t n c).2 ≤ 1 ∨ (TAB_ContarPecas t n c).1 = TAB_CondRetPecaNaoExiste) ↔
    ∃ i, n = numero i ∧ t.pecas c i ≤ 1 := by
  cases hn : ObtemCasa n with
  | none =>
    have hout := ObtemCasa_eq_none.mp hn
    simp only [TAB_ContarPecas,hn,reduceCtorEq,false_and,or_self,false_iff]
    rintro ⟨i,rfl,-⟩
    have := one_le_numero i
    have := numero_le i
    omega
  | some i =>
    obtain rfl := ObtemCasa_eq_some.mp hn
    have hcount := TAB_ContarPecas_numero t c i
    simp only [numero_inj,exists_eq_left',← hcount]
    simp only [TAB_ContarPecas,hn]
    split_ifs with h <;> simp

end Operations

/-- The bar: one list for both colours. -/
abbrev BAR_tpPecasCapturadas := Multiset PCA_tpCorPeca

def BAR_InserirPeca (pPecasCapturadas : BAR_tpPecasCapturadas) (pPeca : PCA_tpCorPeca) :
    BAR_tpPecasCapturadas :=
  pPeca ::ₘ pPecasCapturadas

def BAR_RemoverPeca (pPecasCapturadas : BAR_tpPecasCapturadas) (CorPeca : PCA_tpCorPeca) :
    Option (PCA_tpCorPeca × BAR_tpPecasCapturadas) :=
  if CorPeca ∈ pPecasCapturadas then some (CorPeca,pPecasCapturadas.erase CorPeca) else none

def BAR_ContarPecas (pPecasCapturadas : BAR_tpPecasCapturadas) (CorPeca : PCA_tpCorPeca) : ℕ :=
  pPecasCapturadas.count CorPeca

/-- The finished pieces, in a list for each colour. -/
@[ext] structure PCF_tpPecasFinalizadas where
  listaPecasBrancas : Multiset PCA_tpCorPeca
  listaPecasPretas : Multiset PCA_tpCorPeca

def PCF_CriarListaPecasFinalizadas : PCF_tpPecasFinalizadas := ⟨0,0⟩

def PCF_InserirPeca (pPecasFinalizadas : PCF_tpPecasFinalizadas) :
    PCA_tpCorPeca → PCF_tpPecasFinalizadas
  | PCA_PecaBranca => { pPecasFinalizadas with
      listaPecasBrancas := PCA_PecaBranca ::ₘ pPecasFinalizadas.listaPecasBrancas }
  | PCA_PecaPreta => { pPecasFinalizadas with
      listaPecasPretas := PCA_PecaPreta ::ₘ pPecasFinalizadas.listaPecasPretas }

/-- The length of the list of the colour. -/
def PCF_ContarPecas (pPecasFinalizadas : PCF_tpPecasFinalizadas) : PCA_tpCorPeca → ℕ
  | PCA_PecaBranca => pPecasFinalizadas.listaPecasBrancas.card
  | PCA_PecaPreta => pPecasFinalizadas.listaPecasPretas.card

theorem PCF_ContarPecas_inserir (p : PCF_tpPecasFinalizadas) (c c' : PCA_tpCorPeca) :
    PCF_ContarPecas (PCF_InserirPeca p c) c' = PCF_ContarPecas p c'+if c' = c then 1 else 0 := by
  cases c <;> cases c' <;> simp [PCF_ContarPecas,PCF_InserirPeca]

theorem BAR_ContarPecas_inserir (b : BAR_tpPecasCapturadas) (c c' : PCA_tpCorPeca) :
    BAR_ContarPecas (BAR_InserirPeca b c) c' = BAR_ContarPecas b c'+if c' = c then 1 else 0 :=
  Multiset.count_cons c' c b

theorem BAR_ContarPecas_erase {b : BAR_tpPecasCapturadas} {c : PCA_tpCorPeca}
    (h : 0 < BAR_ContarPecas b c) (c' : PCA_tpCorPeca) :
    BAR_ContarPecas (Multiset.erase b c) c'+(if c' = c then 1 else 0) = BAR_ContarPecas b c' := by
  have hb : BAR_InserirPeca (Multiset.erase b c) c = b :=
    Multiset.cons_erase (Multiset.count_pos.mp h)
  rw [← BAR_ContarPecas_inserir,hb]

end PucRio.Gamao
