import PucRio.Gamao.PieceConservation
import PucRio.Lib.Printf
import Mathlib.Data.Fin.VecNotation
import Mathlib.Tactic.Positivity

/-! The file of a saved match: SalvarJogo writes it, RecuperarJogo reads it. -/
namespace PucRio.Gamao
open PCA_tpCorPeca

def codigo (c : PCA_tpCorPeca) : ℤ := if c = PCA_PecaBranca then 0 else 1

def corDoCodigo (n : ℤ) : PCA_tpCorPeca := if n = 0 then PCA_PecaBranca else PCA_PecaPreta

theorem corDoCodigo_codigo (c : PCA_tpCorPeca) : corDoCodigo (codigo c) = c := by
  cases c <;> rfl

/-- The numbers of the file before those of the houses. -/
def numerosSalvos (pJogo : JGO_tpJogo) (ExibicaoDados : tpExibicaoDados) (lixo : PCA_tpCorPeca) :
    List (ℤ × Char) :=
  let CorJogadorDadoPontos := (DPT_ObterJogadorDobraPartida pJogo.pDadoPontos).getD lixo
  [(codigo pJogo.JogadorAtual,'\n'),(codigo CorJogadorDadoPontos,'\n'),
    (pJogo.pDadoPontos.Pontuacao,'\n')] ++
  (List.ofFn ExibicaoDados).zip [' ',' ',' ','\n'] ++
  [(pJogo.PontuacaoAcumuladaJogadorPecasBrancas.toInt,' '),
    (pJogo.PontuacaoAcumuladaJogadorPecasPretas.toInt,'\n')]

/-- The pieces of a house, white and black. -/
def contagens (pTabuleiro : TAB_tpTabuleiro) (ContadorCasa : ℤ) : ℤ × ℤ :=
  ((TAB_ContarPecas pTabuleiro ContadorCasa PCA_PecaBranca).2,
    (TAB_ContarPecas pTabuleiro ContadorCasa PCA_PecaPreta).2)

def linhaDaCasa (x : ℤ × ℤ) : List (ℤ × Char) := [(x.1,' '),(x.2,'\n')]

/-- What SalvarJogo writes. Where nobody owns the cube, the colour written is what the variable
held. -/
def SalvarJogo (pJogo : JGO_tpJogo) (ExibicaoDados : tpExibicaoDados) (lixo : PCA_tpCorPeca) :
    List Char :=
  pJogo.NomeJogadorPecasBrancas ++ '\n'::(pJogo.NomeJogadorPecasPretas ++ '\n'::
    Printf.ints (numerosSalvos pJogo ExibicaoDados lixo ++
      ((casas 1 24).map (contagens pJogo.pTabuleiro)).flatMap linhaDaCasa))

/-- What the first `fscanf` of RecuperarJogo assigns. -/
structure Cabecalho where
  NomeJogadorPecasBrancas : List Char
  NomeJogadorPecasPretas : List Char
  CodigoJogadorAtual : ℤ
  CodigoJogadorDadoPontos : ℤ
  PontuacaoAtual : ℤ
  ExibicaoDados : tpExibicaoDados
  PontuacaoAcumuladaJogadorPecasBrancas : ℤ
  PontuacaoAcumuladaJogadorPecasPretas : ℤ

def tabOuLinha (c : Char) : Bool := c = '\t' || c = '\n'

/-- The blanks of the format skip all blanks of the text, those in front of the second name as
well. No result where a variable stays unassigned. -/
def lerCabecalho (arquivo : List Char) : Option (Cabecalho × List Char) := do
  let (brancas,arquivo) ← Scanf.charsNot tabOuLinha arquivo
  let (pretas,arquivo) ← Scanf.charsNot tabOuLinha (Scanf.skipSpace arquivo)
  let (atual,arquivo) ← Scanf.intBlank (Scanf.skipSpace arquivo)
  let (dono,arquivo) ← Scanf.intBlank arquivo
  let (pontuacao,arquivo) ← Scanf.intBlank arquivo
  let (dado0,arquivo) ← Scanf.intBlank arquivo
  let (dado1,arquivo) ← Scanf.intBlank arquivo
  let (dado2,arquivo) ← Scanf.intBlank arquivo
  let (dado3,arquivo) ← Scanf.intBlank arquivo
  let (acumuladaBrancas,arquivo) ← Scanf.intBlank arquivo
  let (acumuladaPretas,arquivo) ← Scanf.intBlank arquivo
  some (⟨brancas,pretas,atual,dono,pontuacao,![dado0,dado1,dado2,dado3],acumuladaBrancas,
    acumuladaPretas⟩,arquivo)

/-- The counts read for so many houses. Where a number is missing the variable keeps the value it
had at the house before. -/
def lerCasas : ℕ → ℤ × ℤ → List Char → List (ℤ × ℤ)
  | 0,_,_ => []
  | n+1,antes,arquivo =>
    match Scanf.intBlank arquivo with
    | none => antes::lerCasas n antes arquivo
    | some (brancas,arquivo) =>
      match Scanf.intBlank arquivo with
      | none => (brancas,antes.2)::lerCasas n (brancas,antes.2) arquivo
      | some (pretas,arquivo) => (brancas,pretas)::lerCasas n (brancas,pretas) arquivo

/-- New pieces, as many as read for each house. -/
def montarTabuleiro (lidas : List (ℤ × ℤ)) : TAB_tpTabuleiro :=
  ((casas 1 24).zip lidas).foldl (fun t x => inserirPecas
    (inserirPecas t PCA_PecaBranca x.1 x.2.1.toNat) PCA_PecaPreta x.1 x.2.2.toNat)
    TAB_CriarTabuleiro

/-- The cube doubled as long as it shows less than the file says. After 32 doublings it shows 0 and
the loop never ends. -/
def dobrarAte (PontuacaoAtual : ℤ) (cor : PCA_tpCorPeca) : ℕ → DPT_tpDadoPontos →
    Option DPT_tpDadoPontos
  | 0,_ => none
  | n+1,pDadoPontos =>
    if pDadoPontos.Pontuacao < PontuacaoAtual then
      dobrarAte PontuacaoAtual cor n
        ((DPT_DobrarPontuacaoPartida pDadoPontos cor).getD pDadoPontos)
    else some pDadoPontos

def recuperarDadoPontos (lixo : PCA_tpCorPeca) (CodigoJogadorDadoPontos PontuacaoAtual : ℤ) :
    Option DPT_tpDadoPontos :=
  let pDadoPontos := DPT_CriarDadoPontos lixo
  if PontuacaoAtual > 1 then
    let cor := corDoCodigo CodigoJogadorDadoPontos
    dobrarAte PontuacaoAtual cor 33 (DPT_AtualizarJogadorDobra pDadoPontos cor)
  else some pDadoPontos

/-- The match rebuilt before it goes on, in memory that held `memoria` and `antes`. -/
def RecuperarJogo (memoria : JGO_tpJogo) (lixo : PCA_tpCorPeca) (antes : ℤ × ℤ)
    (arquivo : List Char) : Option (JGO_tpJogo × tpExibicaoDados) := do
  let (cabecalho,arquivo) ← lerCabecalho arquivo
  let pJogo := { memoria with
    PontuacaoAcumuladaJogadorPecasBrancas :=
      Int32.ofInt cabecalho.PontuacaoAcumuladaJogadorPecasBrancas
    PontuacaoAcumuladaJogadorPecasPretas :=
      Int32.ofInt cabecalho.PontuacaoAcumuladaJogadorPecasPretas
    NomeJogadorPecasBrancas := cabecalho.NomeJogadorPecasBrancas
    NomeJogadorPecasPretas := cabecalho.NomeJogadorPecasPretas
    JogadorAtual := corDoCodigo cabecalho.CodigoJogadorAtual }
  let pDadoPontos ← recuperarDadoPontos lixo cabecalho.CodigoJogadorDadoPontos
    cabecalho.PontuacaoAtual
  some ({ CriarEstruturasPartida pJogo lixo with
    pDadoPontos := pDadoPontos
    pTabuleiro := montarTabuleiro (lerCasas 24 antes arquivo) },cabecalho.ExibicaoDados)

section Houses
variable (t : TAB_tpTabuleiro) (c c' : PCA_tpCorPeca) (i : Fin 24)

theorem pecas_inserirPecas (n : ℤ) (k : ℕ) : (inserirPecas t c n k).pecas c' i =
    t.pecas c' i+if c' = c ∧ n = numero i then k else 0 := by
  induction k with
  | zero => simp [inserirPecas]
  | succ k ih =>
    cases hn : ObtemCasa n with
    | none =>
      have hi : n ≠ numero i := fun h => by
        rw [h,ObtemCasa_numero] at hn
        cases hn
      simp only [inserirPecas,TAB_InserirPeca,hn]
      rw [ih]
      simp only [hi,and_false,if_false]
    | some i' =>
      obtain rfl := ObtemCasa_eq_some.mp hn
      simp only [inserirPecas,TAB_InserirPeca_numero]
      rw [TAB_tpTabuleiro.pecas_inserida,ih]
      simp only [numero_inj,@eq_comm _ i' i]
      split_ifs <;> omega

/-- What was read for a house, by colour. -/
def lida (x : ℤ × ℤ) : PCA_tpCorPeca → ℕ
  | PCA_PecaBranca => x.1.toNat
  | PCA_PecaPreta => x.2.toNat

theorem pecas_foldl (l : List (ℤ × ℤ × ℤ)) : (l.foldl (fun t x => inserirPecas
      (inserirPecas t PCA_PecaBranca x.1 x.2.1.toNat) PCA_PecaPreta x.1 x.2.2.toNat) t).pecas c i =
    t.pecas c i+(l.map fun x => if x.1 = numero i then lida x.2 c else 0).sum := by
  induction l generalizing t with
  | nil => rfl
  | cons x l ih =>
    rw [List.foldl_cons,ih,pecas_inserirPecas,pecas_inserirPecas,List.map_cons,List.sum_cons]
    cases c <;> simp only [reduceCtorEq,false_and,true_and,if_false,add_zero,lida,add_assoc]

theorem casas_eq_ofFn : casas 1 24 = List.ofFn numero := by decide

theorem zip_ofFn {α β : Type*} {n : ℕ} (f : Fin n → α) (g : Fin n → β) :
    (List.ofFn f).zip (List.ofFn g) = List.ofFn fun k => (f k,g k) := by
  apply List.ext_getElem
  · simp
  · intro k _ _
    simp

/-- The board built is what was read. -/
theorem pecas_montarTabuleiro (f : Fin 24 → ℤ × ℤ) :
    (montarTabuleiro (List.ofFn f)).pecas c i = lida (f i) c := by
  rw [montarTabuleiro,pecas_foldl,casas_eq_ofFn,zip_ofFn,List.map_ofFn,List.sum_ofFn]
  simp only [Function.comp_apply,numero_inj,Finset.sum_ite_eq',Finset.mem_univ,if_true]
  exact Nat.zero_add _

theorem lida_contagens : lida (contagens t (numero i)) c = t.pecas c i := by
  cases c <;> simp [lida,contagens,TAB_ContarPecas_numero]

end Houses

section Reading

/-- The numbers in pairs; where one is missing the old one stands. -/
def pares : ℕ → ℤ × ℤ → List ℤ → List (ℤ × ℤ)
  | 0,_,_ => []
  | n+1,antes,[] => antes::pares n antes []
  | n+1,antes,[x] => (x,antes.2)::pares n (x,antes.2) []
  | n+1,_,x::y::l => (x,y)::pares n (x,y) l

theorem lerCasas_ints {l : List (ℤ × Char)} (h : Printf.Blanks l) (n : ℕ) (antes : ℤ × ℤ) :
    lerCasas n antes (Printf.ints l) = pares n antes (l.map Prod.fst) := by
  induction n generalizing l antes with
  | zero => rfl
  | succ n ih =>
    cases l with
    | nil =>
      have hnil := ih h antes
      rw [lerCasas,Printf.intBlank_nil]
      exact congrArg (antes::·) hnil
    | cons x l =>
      cases l with
      | nil =>
        have hnil := ih h.tail (x.1,antes.2)
        simp only [lerCasas,Printf.intBlank_ints h,Printf.intBlank_nil]
        exact congrArg ((x.1,antes.2)::·) hnil
      | cons y l =>
        simp only [lerCasas,Printf.intBlank_ints h,Printf.intBlank_ints h.tail]
        rw [ih h.tail.tail]
        rfl

/-- Houses written one after the other are read as they were. -/
theorem pares_linhas (l : List (ℤ × ℤ)) (antes : ℤ × ℤ) :
    pares l.length antes ((l.flatMap linhaDaCasa).map Prod.fst) = l := by
  induction l generalizing antes with
  | nil => rfl
  | cons x l ih => exact congrArg (x::·) (ih x)

/-- With the first number gone a house is read as its black pieces and the next one's white. -/
theorem pares_deslocadas (l : List (ℤ × ℤ)) (y : ℤ) (antes : ℤ × ℤ) :
    pares (l.length+1) antes (y::(l.flatMap linhaDaCasa).map Prod.fst) =
      (y::l.map Prod.snd).zip (l.map Prod.fst ++ [((antes.2::l.map Prod.fst).getLast
        (List.cons_ne_nil _ _))]) := by
  induction l generalizing y antes with
  | nil => rfl
  | cons x l ih => exact congrArg ((y,x.1)::·) (ih x.2 (y,x.1))

theorem bind_of_eq_some {α β : Type} {x : Option α} {y : α} {f : α → Option β} (h : x = some y) :
    x.bind f = f y := by
  rw [h,Option.bind_some]

theorem lerCabecalho_eq {brancas pretas blank : List Char} {a b p d0 d1 d2 d3 e f : ℤ × Char}
    {l : List (ℤ × Char)} (hb : brancas ≠ []) (hb' : ∀ c ∈ brancas, tabOuLinha c = false)
    (hblank : ∀ c ∈ blank, Scanf.isspace c = true) (hp : pretas ≠ [])
    (hp' : ∀ c ∈ pretas, tabOuLinha c = false)
    (hhead : ∀ c ∈ pretas.head?, Scanf.isspace c = false)
    (hl : Printf.Blanks ([a,b,p,d0,d1,d2,d3,e,f] ++ l)) :
    lerCabecalho (brancas ++ '\n'::(blank ++ (pretas ++ '\n'::
        Printf.ints ([a,b,p,d0,d1,d2,d3,e,f] ++ l)))) =
      some (⟨brancas,pretas,a.1,b.1,p.1,![d0.1,d1.1,d2.1,d3.1],e.1,f.1⟩,Printf.ints l) := by
  have hstop : tabOuLinha '\n' = true := rfl
  have hbrancas := Scanf.charsNot_append hb hb' hstop
    (blank ++ (pretas ++ '\n'::Printf.ints ([a,b,p,d0,d1,d2,d3,e,f] ++ l)))
  have hskip : Scanf.skipSpace ('\n'::(blank ++ (pretas ++ '\n'::
      Printf.ints ([a,b,p,d0,d1,d2,d3,e,f] ++ l)))) =
      pretas ++ '\n'::Printf.ints ([a,b,p,d0,d1,d2,d3,e,f] ++ l) := by
    have hall : ∀ c ∈ '\n'::blank, Scanf.isspace c = true := by
      intro c hc
      rcases List.mem_cons.mp hc with rfl | hc
      · rfl
      · exact hblank c hc
    rw [← List.cons_append]
    refine Scanf.skipSpace_append hall fun c hc => hhead c ?_
    rwa [List.head?_append_of_ne_nil _ hp] at hc
  have hpretas := Scanf.charsNot_append hp hp' hstop
    (Printf.ints ([a,b,p,d0,d1,d2,d3,e,f] ++ l))
  have hline : ∀ c ∈ ['\n'], Scanf.isspace c = true := by
    simp [Scanf.isspace]
  have hints := Printf.skipSpace_ints hline ([a,b,p,d0,d1,d2,d3,e,f] ++ l)
  simp only [List.cons_append,List.nil_append] at hbrancas hskip hpretas hints hl ⊢
  refine (bind_of_eq_some hbrancas).trans ?_
  refine (bind_of_eq_some ((congrArg _ hskip).trans hpretas)).trans ?_
  refine (bind_of_eq_some ((congrArg _ hints).trans (Printf.intBlank_ints hl))).trans ?_
  refine (bind_of_eq_some (Printf.intBlank_ints hl.tail)).trans ?_
  refine (bind_of_eq_some (Printf.intBlank_ints hl.tail.tail)).trans ?_
  refine (bind_of_eq_some (Printf.intBlank_ints hl.tail.tail.tail)).trans ?_
  refine (bind_of_eq_some (Printf.intBlank_ints hl.tail.tail.tail.tail)).trans ?_
  refine (bind_of_eq_some (Printf.intBlank_ints hl.tail.tail.tail.tail.tail)).trans ?_
  refine (bind_of_eq_some (Printf.intBlank_ints hl.tail.tail.tail.tail.tail.tail)).trans ?_
  refine (bind_of_eq_some (Printf.intBlank_ints hl.tail.tail.tail.tail.tail.tail.tail)).trans ?_
  exact bind_of_eq_some (Printf.intBlank_ints hl.tail.tail.tail.tail.tail.tail.tail.tail)

end Reading

section Cube
variable {p : ℤ} {c : PCA_tpCorPeca} {lixo : PCA_tpCorPeca}

/-- What a cube can show: a power of two, or what is left of one that does not fit. -/
def Dobrado (p : ℤ) : Prop := (∃ k ≤ 30, p = 2^k) ∨ p = -2^31 ∨ p = 0

theorem wrap32_dobro {k : ℕ} (hk : k < 30) : wrap32 ((2 : ℤ)^k*2) = 2^(k+1) := by
  have hle : (2 : ℤ)^(k+1) ≤ 2^30 := pow_le_pow_right₀ (by decide) hk
  have hpos : (0 : ℤ) < 2^(k+1) := by positivity
  rw [← pow_succ,wrap32_of_lt (by omega) (by omega)]

theorem Dobrado.dobro (h : Dobrado p) : Dobrado (wrap32 (p*2)) ∧ wrap32 (p*2) ≠ 1 := by
  rcases h with ⟨k,hk,rfl⟩ | rfl | rfl
  · rcases Nat.lt_or_ge k 30 with hk | hk'
    · rw [wrap32_dobro hk]
      have hpos : (0 : ℤ) < 2^k := by positivity
      refine ⟨.inl ⟨k+1,hk,rfl⟩,?_⟩
      rw [pow_succ]
      omega
    · obtain rfl : k = 30 := by omega
      exact ⟨.inr (.inl (by decide)),by decide⟩
  · exact ⟨.inr (.inr (by decide)),by decide⟩
  · exact ⟨.inr (.inr (by decide)),by decide⟩

theorem Dobrado.range (h : Dobrado p) : -2^31 ≤ p ∧ p < 2^31 := by
  rcases h with ⟨k,hk,rfl⟩ | rfl | rfl
  · have hle : (2 : ℤ)^k ≤ 2^30 := pow_le_pow_right₀ (by decide) hk
    have hpos : (0 : ℤ) < 2^k := by positivity
    omega
  · decide
  · decide

/-- The loop stops at the value that it is to reach. -/
theorem dobrarAte_pow {k m n : ℕ} (hk : k+m ≤ 30) (hn : m < n) :
    dobrarAte (2^(k+m)) c n ⟨2^k,c⟩ = some ⟨2^(k+m),c⟩ := by
  induction m generalizing k n with
  | zero =>
    obtain ⟨n,rfl⟩ := Nat.exists_eq_succ_of_ne_zero (Nat.pos_iff_ne_zero.mp hn)
    rw [dobrarAte,if_neg (by simp)]
    rfl
  | succ m ih =>
    obtain ⟨n,rfl⟩ := Nat.exists_eq_succ_of_ne_zero (show n ≠ 0 by omega)
    have hlt : (2 : ℤ)^k < 2^(k+(m+1)) := pow_lt_pow_right₀ (by decide) (by omega)
    have hstep : DPT_DobrarPontuacaoPartida ⟨2^k,c⟩ c = some ⟨2^(k+1),c⟩ := by
      rw [DPT_DobrarPontuacaoPartida,if_neg (fun h => h rfl),wrap32_dobro (by omega)]
    have hadd : k+(m+1) = k+1+m := by omega
    rw [dobrarAte,if_pos hlt,hstep,Option.getD_some,hadd]
    exact ih (by omega) (by omega)

/-- Whatever value it is to reach, it stops at a power of two or not at all. -/
theorem dobrarAte_dobrado {n : ℕ} {q : ℤ} {d r : DPT_tpDadoPontos} (hd : Dobrado d.Pontuacao)
    (h : dobrarAte q c n d = some r) : Dobrado r.Pontuacao := by
  induction n generalizing d with
  | zero => cases h
  | succ n ih =>
    rw [dobrarAte] at h
    split_ifs at h
    · refine ih ?_ h
      rw [DPT_DobrarPontuacaoPartida]
      split_ifs
      · exact hd
      · exact hd.dobro.1
    · cases h
      exact hd

theorem dobrado_one : Dobrado 1 := .inl ⟨0,by omega,rfl⟩

theorem recuperarDadoPontos_dobrado {n q : ℤ} {r : DPT_tpDadoPontos}
    (h : recuperarDadoPontos lixo n q = some r) : Dobrado r.Pontuacao := by
  rw [recuperarDadoPontos] at h
  dsimp only at h
  split_ifs at h
  · exact dobrarAte_dobrado dobrado_one h
  · cases h
    exact dobrado_one

/-- A cube that shows a power of two is rebuilt; any other one shows 1. -/
theorem recuperarDadoPontos_of_dobrado (lixo c : PCA_tpCorPeca) (h : Dobrado p) : ∃ r,
    recuperarDadoPontos lixo (codigo c) p = some r ∧ (0 < p → r.Pontuacao = p) ∧
      (p ≤ 1 → r.Pontuacao = 1) ∧ (1 < p → r.CorPeca = c) := by
  by_cases hp : 1 < p
  · rcases h with ⟨k,hk,rfl⟩ | rfl | rfl
    · have hk0 := dobrarAte_pow (c := c) (k := 0) (m := k) (n := 33) (by omega) (by omega)
      rw [Nat.zero_add] at hk0
      refine ⟨⟨2^k,c⟩,?_,fun _ => rfl,fun h => by omega,fun _ => rfl⟩
      rw [recuperarDadoPontos,if_pos hp,corDoCodigo_codigo]
      exact hk0
    · omega
    · omega
  · refine ⟨DPT_CriarDadoPontos lixo,?_,fun h => ?_,fun _ => rfl,fun h => absurd h hp⟩
    · rw [recuperarDadoPontos,if_neg hp]
    · change 1 = p
      omega

end Cube

end PucRio.Gamao
