import PucRio.Gamao.Partida

/-! What the searches for a move find and what the executor carries out, for both colours at once:
white moves towards house 1, black towards house 24. -/
namespace PucRio.Gamao
open PCA_tpCorPeca TAB_tpCondRet

theorem oponente_eq (c : PCA_tpCorPeca) :
    (if c = PCA_PecaBranca then PCA_PecaPreta else PCA_PecaBranca) = c.oponente := by
  cases c <;> rfl

theorem oponente_eq' (c : PCA_tpCorPeca) :
    (if c = PCA_PecaPreta then PCA_PecaBranca else PCA_PecaPreta) = c.oponente := by
  cases c <;> rfl

/-- Where a die brings a piece from the bar. -/
def casaEntrada : PCA_tpCorPeca → ℤ → ℤ
  | PCA_PecaBranca,v => 25-v
  | PCA_PecaPreta,v => v

/-- Where a die brings a piece of a house. -/
def avanco : PCA_tpCorPeca → ℤ → ℤ → ℤ
  | PCA_PecaBranca,n,v => n-v
  | PCA_PecaPreta,n,v => n+v

/-- How far a house is from the end of the way. -/
def distancia : PCA_tpCorPeca → ℤ → ℤ
  | PCA_PecaBranca,n => n
  | PCA_PecaPreta,n => 25-n

/-- What the executor compares with a die to finish a piece. -/
def alcance : PCA_tpCorPeca → ℤ → ℤ
  | PCA_PecaBranca,n => n
  | PCA_PecaPreta,n => 24-n

section Predicates
variable (j : JGO_tpJogo) (d : tpExibicaoDados)

/-- The pieces of the player to move on a house. -/
def JGO_tpJogo.proprias (i : Fin 24) : ℕ := j.pTabuleiro.pecas j.JogadorAtual i

/-- The pieces of the other player. -/
def JGO_tpJogo.opostas (i : Fin 24) : ℕ := j.pTabuleiro.pecas j.JogadorAtual.oponente i

/-- The pieces of the player to move on the bar. -/
def JGO_tpJogo.naBarra : ℕ := BAR_ContarPecas j.pPecasCapturadas j.JogadorAtual

/-- A house to which the player to move may go. -/
def Aberta (n : ℤ) : Prop := ∃ i, n = numero i ∧ j.opostas i ≤ 1

/-- A die left moves some piece to an open house. -/
def MovimentoAberto : Prop :=
  ∃ i k, 0 < j.proprias i ∧ 0 < d k ∧ Aberta j (avanco j.JogadorAtual (numero i) (d k))

/-- A die left brings a piece from the bar to an open house. -/
def EntradaAberta : Prop :=
  ∃ k, 0 < d k ∧ d k ≤ 6 ∧ Aberta j (casaEntrada j.JogadorAtual (d k))

/-- The house with the number of a die left is open. -/
def CasaDoDadoAberta : Prop := ∃ k, 0 < d k ∧ d k ≤ 6 ∧ Aberta j (d k)

/-- A die left finishes a piece, as the executor counts. -/
def RetiradaAoAlcance : Prop := ∃ i k, 0 < j.proprias i ∧ 0 < d k ∧
  distancia j.JogadorAtual (numero i) ≤ 6 ∧ alcance j.JogadorAtual (numero i) ≤ d k

/-- A piece stands where the search takes a die left to finish it. -/
def RetiradaNaFaixa : Prop := ∃ i k, 0 < j.proprias i ∧ 0 < d k ∧
  (j.JogadorAtual = PCA_PecaBranca → numero i ≤ 2*d k) ∧
  (j.JogadorAtual = PCA_PecaPreta → 18 ≤ numero i)

end Predicates

section Searches
variable {j : JGO_tpJogo} {d : tpExibicaoDados}

theorem mem_casas {a b n : ℤ} : n ∈ casas a b ↔ a ≤ n ∧ n ≤ b := by
  simp only [casas,List.mem_map,List.mem_range]
  constructor
  · rintro ⟨k,hk,rfl⟩
    omega
  · rintro ⟨ha,hb⟩
    exact ⟨(n-a).toNat,by omega,by omega⟩

theorem any_casas {p : ℤ → Bool} : (casas 1 24).any p = true ↔ ∃ i, p (numero i) = true := by
  simp only [List.any_eq_true,mem_casas]
  constructor
  · rintro ⟨n,⟨h1,h2⟩,hp⟩
    obtain ⟨i,rfl⟩ := exists_numero h1 h2
    exact ⟨i,hp⟩
  · rintro ⟨i,hp⟩
    exact ⟨_,⟨one_le_numero i,numero_le i⟩,hp⟩

theorem any_dados {p : Fin 4 → Bool} : (List.finRange 4).any p = true ↔ ∃ k, p k = true := by
  simp only [List.any_eq_true,List.mem_finRange,true_and]

theorem casaLivre_iff {n : ℤ} :
    casaLivre j.pTabuleiro j.JogadorAtual.oponente n = true ↔ Aberta j n := by
  rw [casaLivre,Bool.or_eq_true,Bool.and_eq_true,decide_eq_true_iff,decide_eq_true_iff,
    decide_eq_true_iff,TAB_ContarPecas_livre]
  rfl

theorem JogadasReentradaDisponiveis_iff :
    JogadasReentradaDisponiveis j d = true ↔ CasaDoDadoAberta j d := by
  rw [JogadasReentradaDisponiveis]
  simp only [oponente_eq,List.any_eq_true,mem_casas,List.mem_finRange,true_and]
  constructor
  · rintro ⟨n,hn,k,hk⟩
    by_cases h0 : d k ≤ 0
    · simp [h0] at hk
    · by_cases hv : (if j.JogadorAtual = PCA_PecaBranca then 24-n+1 else n) = d k
      · rw [if_neg h0,if_pos hv,hv] at hk
        refine ⟨k,by omega,?_,casaLivre_iff.mp hk⟩
        split_ifs at hn hv <;> omega
      · simp [hv] at hk
  · rintro ⟨k,h0,h6,hk⟩
    refine ⟨if j.JogadorAtual = PCA_PecaBranca then 25-d k else d k,?_,k,?_⟩
    · split_ifs <;> omega
    · have hv : (if j.JogadorAtual = PCA_PecaBranca then
          24-(if j.JogadorAtual = PCA_PecaBranca then 25-d k else d k)+1
          else if j.JogadorAtual = PCA_PecaBranca then 25-d k else d k) = d k := by
        split_ifs <;> omega
      rw [if_neg (by omega),if_pos hv,hv]
      exact casaLivre_iff.mpr hk

/-- One house and one die of the search. -/
theorem jogadaDisponivel_iff {p : Bool} {i : Fin 24} {v : ℤ} :
    jogadaDisponivel j p (numero i) v = true ↔ 0 < v ∧
      (p = true ∧ (j.JogadorAtual = PCA_PecaBranca → numero i ≤ 2*v) ∧
          (j.JogadorAtual = PCA_PecaPreta → 18 ≤ numero i) ∨
        Aberta j (avanco j.JogadorAtual (numero i) v)) := by
  rw [jogadaDisponivel]
  simp only [oponente_eq]
  by_cases hv : v ≤ 0
  · simp [hv]
  · have hv0 : 0 < v := by omega
    simp only [hv,hv0,if_false,true_and]
    by_cases hc : j.JogadorAtual = PCA_PecaBranca
    · rw [if_pos hc,Bool.if_true_left,Bool.or_eq_true,casaLivre_iff,decide_eq_true_iff]
      simp only [hc,avanco,reduceCtorEq,forall_const,false_implies,and_true]
      refine or_congr_left (and_congr_right fun _ => ?_)
      omega
    · have hc' : j.JogadorAtual = PCA_PecaPreta := by
        cases h : j.JogadorAtual
        · exact absurd h hc
        · rfl
      rw [if_neg hc,Bool.if_true_left,Bool.or_eq_true,casaLivre_iff,decide_eq_true_iff]
      simp only [hc',avanco,reduceCtorEq,forall_const,false_implies,true_and]
      refine or_congr_left (and_congr_right fun _ => ?_)
      omega

theorem JogadasDisponiveis_iff : JogadasDisponiveis j d = true ↔
    (0 < j.naBarra → CasaDoDadoAberta j d) ∧
      (JogadorAtualPodeFinalizarPecas j = true ∧ RetiradaNaFaixa j d ∨ MovimentoAberto j d) := by
  have hsearch : (∃ i k, 0 < j.proprias i ∧ 0 < d k ∧
      (JogadorAtualPodeFinalizarPecas j = true ∧
        (j.JogadorAtual = PCA_PecaBranca → numero i ≤ 2*d k) ∧
        (j.JogadorAtual = PCA_PecaPreta → 18 ≤ numero i) ∨
        Aberta j (avanco j.JogadorAtual (numero i) (d k)))) ↔
      JogadorAtualPodeFinalizarPecas j = true ∧ RetiradaNaFaixa j d ∨ MovimentoAberto j d := by
    constructor
    · rintro ⟨i,k,hi,hk,⟨hp,hr⟩ | ha⟩
      · exact .inl ⟨hp,i,k,hi,hk,hr⟩
      · exact .inr ⟨i,k,hi,hk,ha⟩
    · rintro (⟨hp,i,k,hi,hk,hr⟩ | ⟨i,k,hi,hk,ha⟩)
      · exact ⟨i,k,hi,hk,.inl ⟨hp,hr⟩⟩
      · exact ⟨i,k,hi,hk,.inr ha⟩
  rw [← hsearch,JogadasDisponiveis]
  simp only
  rw [Bool.if_false_left,Bool.and_eq_true,any_casas]
  refine and_congr ?_ (exists_congr fun i => ?_)
  · rw [← JogadasReentradaDisponiveis_iff,Bool.not_eq_true',decide_eq_false_iff_not,not_and,
      Bool.not_eq_false]
    rfl
  · rw [TAB_ContarPecas_numero,Bool.if_false_left,Bool.and_eq_true,any_dados,Bool.not_eq_true',
      decide_eq_false_iff_not,← ne_eq,← Nat.pos_iff_ne_zero]
    simp only [← exists_and_left,jogadaDisponivel_iff]
    rfl

end Searches

namespace JGO_tpJogo
variable (j : JGO_tpJogo) (i k : Fin 24)

/-- The single piece of the opponent on a house captured. -/
def comCaptura : JGO_tpJogo :=
  if j.opostas k = 1 then { j with
    pTabuleiro := j.pTabuleiro.removida j.JogadorAtual.oponente k
    pPecasCapturadas := BAR_InserirPeca j.pPecasCapturadas j.JogadorAtual.oponente }
  else j

/-- A piece brought from the bar. -/
def reentrada : JGO_tpJogo := { j with
  pTabuleiro := j.pTabuleiro.inserida j.JogadorAtual k
  pPecasCapturadas := Multiset.erase j.pPecasCapturadas j.JogadorAtual }

def finalizada : JGO_tpJogo := { j with
  pTabuleiro := j.pTabuleiro.removida j.JogadorAtual i
  pPecasFinalizadas := PCF_InserirPeca j.pPecasFinalizadas j.JogadorAtual }

def movida : JGO_tpJogo := { j with
  pTabuleiro := (j.pTabuleiro.removida j.JogadorAtual i).inserida j.JogadorAtual k }

variable {j i k}

theorem capturar_eq (h : 0 < j.opostas k) : capturar j j.JogadorAtual.oponente (numero k) =
    { j with
      pTabuleiro := j.pTabuleiro.removida j.JogadorAtual.oponente k
      pPecasCapturadas := BAR_InserirPeca j.pPecasCapturadas j.JogadorAtual.oponente } := by
  have h' : 0 < j.pTabuleiro.pecas j.JogadorAtual.oponente k := h
  simp only [capturar,TAB_RemoverPeca_numero,if_pos h']

theorem comCaptura_eq : j.comCaptura k =
    if j.opostas k = 1 then capturar j j.JogadorAtual.oponente (numero k) else j := by
  rw [comCaptura]
  refine if_ctx_congr Iff.rfl (fun h => ?_) fun _ => rfl
  rw [capturar_eq (by omega)]

@[simp] theorem comCaptura_JogadorAtual : (j.comCaptura k).JogadorAtual = j.JogadorAtual := by
  rw [comCaptura]
  split_ifs <;> rfl

theorem comCaptura_naBarra : (j.comCaptura k).naBarra = j.naBarra := by
  rw [naBarra,comCaptura_JogadorAtual,naBarra,comCaptura]
  split_ifs
  · rw [BAR_ContarPecas_inserir,if_neg j.JogadorAtual.oponente_ne.symm,add_zero]
  · rfl

theorem reentrar_eq (h : 0 < j.naBarra) : reentrar j (numero k) = j.reentrada k := by
  have h' : j.JogadorAtual ∈ j.pPecasCapturadas := Multiset.count_pos.mp h
  simp only [reentrar,BAR_RemoverPeca,if_pos h',TAB_InserirPeca_numero]
  rfl

theorem opostas_movida : (j.movida i k).opostas k = j.opostas k := by
  rw [opostas,opostas,movida]
  dsimp only
  rw [TAB_tpTabuleiro.pecas_inserida,TAB_tpTabuleiro.pecas_removida,
    if_neg fun h => j.JogadorAtual.oponente_ne h.1,
    if_neg fun h => j.JogadorAtual.oponente_ne h.1,Nat.sub_zero,add_zero]

end JGO_tpJogo

section Executor
variable {j : JGO_tpJogo} {d : tpExibicaoDados} {v n m : ℤ}

/-- The loop over the dice executes a move just if some die serves and the action goes through. -/
theorem percorrerDados_iff {serve : ℤ → Bool} {acao : Option JGO_tpJogo} :
    (percorrerDados j d serve acao).JogadaTerminou = true ↔
      (∃ j', acao = some j') ∧ ∃ k, serve (d k) = true := by
  rw [percorrerDados]
  cases hf : Fin.find? fun k => serve (d k) with
  | none =>
    rw [Fin.find?_eq_none_iff] at hf
    simp [hf]
  | some k =>
    have hk := (Fin.find?_eq_some_iff.mp hf).1
    cases acao with
    | none => simp
    | some j' => simpa using ⟨k,hk⟩

theorem percorrerDados_pJogo (j : JGO_tpJogo) (d : tpExibicaoDados) (serve : ℤ → Bool)
    (acao : Option JGO_tpJogo) :
    (percorrerDados j d serve acao).pJogo = j ∨
      ∃ k j', serve (d k) = true ∧ acao = some j' ∧ (percorrerDados j d serve acao).pJogo = j' := by
  rw [percorrerDados]
  cases hf : Fin.find? fun k => serve (d k) with
  | none => exact .inl rfl
  | some k =>
    have hk := (Fin.find?_eq_some_iff.mp hf).1
    cases acao with
    | none => exact .inl rfl
    | some j' => exact .inr ⟨k,j',hk,rfl,rfl⟩

theorem serveReentrada_iff :
    serveReentrada j n v = true ↔ 0 < v ∧ v ≤ 6 ∧ n = casaEntrada j.JogadorAtual v := by
  rw [serveReentrada,decide_eq_true_iff]
  cases j.JogadorAtual <;> simp only [casaEntrada,reduceCtorEq,false_and,true_and,or_false,false_or]
    <;> omega

theorem serveRetirada_iff : serveRetirada j n v = true ↔
    0 < v ∧ distancia j.JogadorAtual n ≤ 6 ∧ alcance j.JogadorAtual n ≤ v := by
  rw [serveRetirada,decide_eq_true_iff]
  cases j.JogadorAtual <;>
    simp only [distancia,alcance,reduceCtorEq,false_and,true_and,or_false,false_or] <;> omega

theorem serveMovimento_iff : serveMovimento j n m v = true ↔
    0 < v ∧ m = avanco j.JogadorAtual n v := by
  rw [serveMovimento,decide_eq_true_iff]
  cases j.JogadorAtual <;> simp only [avanco,reduceCtorEq,false_and,true_and,or_false,false_or]
    <;> omega

theorem acaoReentrada_iff (hb : 0 < j.naBarra) {k : Fin 24} {j' : JGO_tpJogo} :
    acaoReentrada j (numero k) = some j' ↔
      j.opostas k ≤ 1 ∧ j' = (j.comCaptura k).reentrada k := by
  rw [acaoReentrada]
  simp only [oponente_eq',TAB_ContarPecas_numero]
  rw [show j.pTabuleiro.pecas j.JogadorAtual.oponente k = j.opostas k from rfl,
    ← JGO_tpJogo.comCaptura_eq,JGO_tpJogo.reentrar_eq (by rwa [JGO_tpJogo.comCaptura_naBarra])]
  split_ifs with h
  · simp only [false_iff,not_and]
    omega
  · rw [Option.some_inj,and_iff_right (by omega),eq_comm]

theorem acaoRetirada_iff {j' : JGO_tpJogo} : acaoRetirada j n = some j' ↔
    ∃ i, n = numero i ∧ 0 < j.proprias i ∧ j' = j.finalizada i := by
  rw [acaoRetirada]
  cases hr : TAB_RemoverPeca j.pTabuleiro j.JogadorAtual n with
  | error e =>
    simp only [reduceCtorEq,false_iff]
    rintro ⟨i,rfl,hi,-⟩
    rw [TAB_RemoverPeca_eq_ok.mpr ⟨i,rfl,hi,rfl⟩] at hr
    cases hr
  | ok r =>
    obtain ⟨i,rfl,hi,rfl⟩ := TAB_RemoverPeca_eq_ok.mp hr
    simp only [Option.some_inj,numero_inj,exists_eq_left']
    exact eq_comm.trans (and_iff_right hi).symm

theorem acaoMovimento_iff {k : Fin 24} {j' : JGO_tpJogo} :
    acaoMovimento j n (numero k) = some j' ↔ j.opostas k ≤ 1 ∧
      ∃ i, n = numero i ∧ 0 < j.proprias i ∧ j' = (j.movida i k).comCaptura k := by
  rw [acaoMovimento]
  simp only [oponente_eq',TAB_ContarPecas_numero]
  rw [show j.pTabuleiro.pecas j.JogadorAtual.oponente k = j.opostas k from rfl]
  by_cases h : j.opostas k > 1
  · simp only [h,if_true,reduceCtorEq,false_iff,not_and]
    omega
  · rw [if_neg h,and_iff_right (by omega)]
    cases hr : TAB_MoverPeca j.pTabuleiro j.JogadorAtual n (numero k) with
    | error e =>
      simp only [reduceCtorEq,false_iff]
      rintro ⟨i,rfl,hi,-⟩
      rw [TAB_MoverPeca_eq_ok.mpr ⟨i,k,rfl,rfl,hi,rfl⟩] at hr
      cases hr
    | ok t =>
      obtain ⟨i,k',rfl,hk,hi,rfl⟩ := TAB_MoverPeca_eq_ok.mp hr
      obtain rfl := numero_inj.mp hk
      simp only [Option.some_inj,numero_inj,exists_eq_left']
      rw [JGO_tpJogo.comCaptura_eq,JGO_tpJogo.opostas_movida]
      exact eq_comm.trans (and_iff_right hi).symm

theorem exists_casaEntrada (hv : 0 < v) (h6 : v ≤ 6) (c : PCA_tpCorPeca) :
    ∃ k, casaEntrada c v = numero k := by
  cases c
  · exact exists_numero (by rw [casaEntrada]; omega) (by rw [casaEntrada]; omega)
  · exact exists_numero (by rw [casaEntrada]; omega) (by rw [casaEntrada]; omega)

/-- The moves that a pass can carry out. -/
inductive Executada (j : JGO_tpJogo) : JGO_tpJogo → Prop
  | reentrada {k : Fin 24} (hb : 0 < j.naBarra) (hk : j.opostas k ≤ 1) :
      Executada j ((j.comCaptura k).reentrada k)
  | finalizada {i : Fin 24} (hi : 0 < j.proprias i) : Executada j (j.finalizada i)
  | movida {i k : Fin 24} (hi : 0 < j.proprias i) (hk : j.opostas k ≤ 1) :
      Executada j ((j.movida i k).comCaptura k)

/-- The command that a pass carries out in place of a move. -/
def comandoLido (pJogo : JGO_tpJogo) (linha linha' : Entrada) : Option Entrada :=
  match LeCasa linha with
  | .numero _ =>
    if BAR_ContarPecas pJogo.pPecasCapturadas pJogo.JogadorAtual > 0 then none
    else
      match LeCasa linha' with
      | .numero _ => none
      | e => some e
  | e => some e

theorem volta_comando {lixo : PCA_tpCorPeca} {linha linha' e : Entrada}
    (h : comandoLido j linha linha' = some e) :
    volta j d lixo linha linha' = comando j d lixo e := by
  rw [comandoLido] at h
  rw [volta]
  cases hl : LeCasa linha with
  | numero n =>
    simp only [hl,Option.ite_none_left_eq_some] at h
    obtain ⟨hb,h⟩ := h
    dsimp only
    rw [if_neg hb]
    cases hl' : LeCasa linha' with
    | numero m => simp [hl'] at h
    | _ =>
      simp only [hl',Option.some_inj] at h
      subst h
      rfl
  | _ =>
    simp only [hl,Option.some_inj] at h
    subst h
    exact ite_self _

/-- A pass without a command goes back to its loop, with a move carried out or not. -/
theorem volta_jogada (lixo : PCA_tpCorPeca) {linha linha' : Entrada}
    (h : comandoLido j linha linha' = none) :
    (volta j d lixo linha linha').retorno = none ∧
      ((volta j d lixo linha linha').pJogo = j ∨
        Executada j (volta j d lixo linha linha').pJogo) := by
  have hpercorrer (serve : ℤ → Bool) (acao : Option JGO_tpJogo) :
      (percorrerDados j d serve acao).retorno = none := by
    rw [percorrerDados]
    cases Fin.find? fun k => serve (d k) with
    | none => rfl
    | some k => cases acao <;> rfl
  rw [comandoLido] at h
  rw [volta]
  cases hl : LeCasa linha with
  | numero n =>
    simp only [hl,ite_eq_left_iff] at h
    dsimp only
    split_ifs with hb
    · refine ⟨hpercorrer _ _,?_⟩
      rcases percorrerDados_pJogo j d (serveReentrada j n)
        (acaoReentrada j n) with h | ⟨k,j',hk,hj,h⟩
      · exact .inl h
      · obtain ⟨h0,h6,rfl⟩ := serveReentrada_iff.mp hk
        obtain ⟨i,hi⟩ := exists_casaEntrada h0 h6 j.JogadorAtual
        rw [hi] at hj h ⊢
        obtain ⟨ho,rfl⟩ := (acaoReentrada_iff hb).mp hj
        exact .inr (h ▸ .reentrada hb ho)
    · cases hl' : LeCasa linha' with
      | numero m =>
        dsimp only
        rw [jogar]
        split_ifs with h0 hm
        · exact ⟨rfl,.inl rfl⟩
        · refine ⟨hpercorrer _ _,?_⟩
          rcases percorrerDados_pJogo j d (serveRetirada j n)
            (acaoRetirada j n) with h | ⟨k,j',hk,hj,h⟩
          · exact .inl h
          · obtain ⟨i,rfl,hi,rfl⟩ := acaoRetirada_iff.mp hj
            exact .inr (h ▸ .finalizada hi)
        · refine ⟨hpercorrer _ _,?_⟩
          rcases percorrerDados_pJogo j d (serveMovimento j n m)
            (acaoMovimento j n m) with h | ⟨k,j',hk,hj,h⟩
          · exact .inl h
          · cases hc : ObtemCasa m with
            | none => simp [acaoMovimento,TAB_MoverPeca,TAB_ContarPecas,hc] at hj
            | some k =>
              obtain rfl := ObtemCasa_eq_some.mp hc
              obtain ⟨ho,i,rfl,hi,rfl⟩ := acaoMovimento_iff.mp hj
              exact .inr (h ▸ .movida hi ho)
      | _ => simp [hl',hb] at h
  | _ => simp [hl] at h

/-- What a pass does to the game: nothing, an answer to an offer to double, or a move. -/
theorem volta_pJogo (lixo : PCA_tpCorPeca) (linha linha' : Entrada) :
    (volta j d lixo linha linha').pJogo = j ∨
      (∃ aceita, (volta j d lixo linha linha').pJogo = DobrarPartida j lixo aceita) ∨
      Executada j (volta j d lixo linha linha').pJogo := by
  cases hc : comandoLido j linha linha' with
  | none =>
    rcases (volta_jogada lixo hc).2 with h | h
    · exact .inl h
    · exact .inr (.inr h)
  | some e =>
    rw [volta_comando hc]
    cases e with
    | dobrar aceita => exact .inr (.inl ⟨aceita,rfl⟩)
    | _ => exact .inl rfl

end Executor

end PucRio.Gamao
