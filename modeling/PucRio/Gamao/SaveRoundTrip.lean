import PucRio.Gamao.SavedMatch
import Mathlib.Data.List.TakeWhile
import Mathlib.Tactic.FinCases

/-! What of a match survives its file. The bar, the finished pieces and whether the match has been
doubled before are not written. -/
namespace PucRio.Gamao
open PCA_tpCorPeca

/-- The two games are the same for their players. -/
structure MesmaPartida (j j' : JGO_tpJogo) : Prop where
  casas (c : PCA_tpCorPeca) (i : Fin 24) : j'.pTabuleiro.pecas c i = j.pTabuleiro.pecas c i
  barra (c : PCA_tpCorPeca) :
    BAR_ContarPecas j'.pPecasCapturadas c = BAR_ContarPecas j.pPecasCapturadas c
  finalizadas (c : PCA_tpCorPeca) :
    PCF_ContarPecas j'.pPecasFinalizadas c = PCF_ContarPecas j.pPecasFinalizadas c
  vez : j'.JogadorAtual = j.JogadorAtual
  acumuladas : j'.PontuacaoAcumuladaJogadorPecasBrancas = j.PontuacaoAcumuladaJogadorPecasBrancas ∧
    j'.PontuacaoAcumuladaJogadorPecasPretas = j.PontuacaoAcumuladaJogadorPecasPretas
  pontuacao : j'.pDadoPontos.Pontuacao = j.pDadoPontos.Pontuacao
  dono : DPT_ObterJogadorDobraPartida j'.pDadoPontos = DPT_ObterJogadorDobraPartida j.pDadoPontos
  dobra (lixo lixo' : PCA_tpCorPeca) : podeDobrar j' lixo' = podeDobrar j lixo

/-- A name that fits its array, without the characters that the reader stops at. -/
structure NomeInteiro (nome : List Char) : Prop where
  ne_nil : nome ≠ []
  length_lt : nome.length < 80
  inteiro : ∀ c ∈ nome, tabOuLinha c = false

/-- Nothing but blanks. -/
def EmBranco (nome : List Char) : Prop := ∀ c ∈ nome, Scanf.isspace c = true

/-- What holds in every match, resumed ones as well. -/
structure Salvavel (j : JGO_tpJogo) (d : tpExibicaoDados) : Prop where
  brancas : NomeInteiro j.NomeJogadorPecasBrancas
  pretas : NomeInteiro j.NomeJogadorPecasPretas
  soma (c : PCA_tpCorPeca) : j.soma c ≤ 360
  conservada : EmBranco j.NomeJogadorPecasPretas → Conservada j
  dados (k : Fin 4) : -2^31 ≤ d k ∧ d k < 2^31
  dobrado : Dobrado j.pDadoPontos.Pontuacao
  primeira : j.PrimeiraDobraPartidaRealizada = true → j.pDadoPontos.Pontuacao ≠ 1

/-- The matches that a file keeps: nothing on the bar, nothing finished, a cube that did not
overflow, a name of black that is read as a name, and a player to move who may double. -/
structure Fiel (j : JGO_tpJogo) : Prop where
  barra (c : PCA_tpCorPeca) : BAR_ContarPecas j.pPecasCapturadas c = 0
  finalizadas (c : PCA_tpCorPeca) : PCF_ContarPecas j.pPecasFinalizadas c = 0
  pontuacao : 0 < j.pDadoPontos.Pontuacao
  nome : ¬ EmBranco j.NomeJogadorPecasPretas
  dobra : j.PrimeiraDobraPartidaRealizada = true →
    DPT_ObterJogadorDobraPartida j.pDadoPontos = some j.JogadorAtual

section File
variable {j : JGO_tpJogo} {d : tpExibicaoDados}

theorem exists_vec4 {α : Type*} (f : Fin 4 → α) : ∃ a b c e, f = ![a,b,c,e] :=
  ⟨f ⟨0,by decide⟩,f ⟨1,by decide⟩,f ⟨2,by decide⟩,f ⟨3,by decide⟩,by
    funext k
    fin_cases k <;> rfl⟩

theorem codigo_range (c : PCA_tpCorPeca) : -2^31 ≤ codigo c ∧ codigo c < 2^31 := by
  cases c <;> decide

theorem toInt_range (x : Int32) : -2^31 ≤ x.toInt ∧ x.toInt < 2^31 :=
  ⟨x.le_toInt,x.toInt_lt⟩

theorem pecas_range (h : ∀ c, j.soma c ≤ 360) (c : PCA_tpCorPeca) (i : Fin 24) :
    j.pTabuleiro.pecas c i ≤ 360 := by
  have hle := TAB_tpTabuleiro.pecas_le_total (t := j.pTabuleiro) (c := c) (i := i)
  have hs := h c
  rw [JGO_tpJogo.soma] at hs
  omega

theorem blanks_casas (h : ∀ c, j.soma c ≤ 360) :
    Printf.Blanks (((casas 1 24).map (contagens j.pTabuleiro)).flatMap linhaDaCasa) := by
  intro x hx
  simp only [List.mem_flatMap,List.mem_map,mem_casas,linhaDaCasa,contagens,List.mem_cons,
    List.not_mem_nil,or_false] at hx
  obtain ⟨y,⟨n,⟨h1,h24⟩,rfl⟩,hx⟩ := hx
  obtain ⟨i,rfl⟩ := exists_numero h1 h24
  rw [TAB_ContarPecas_numero,TAB_ContarPecas_numero] at hx
  have hb := pecas_range h PCA_PecaBranca i
  have hp := pecas_range h PCA_PecaPreta i
  rcases hx with rfl | rfl
  · exact ⟨by dsimp only; omega,by dsimp only; omega,rfl⟩
  · exact ⟨by dsimp only; omega,by dsimp only; omega,rfl⟩

/-- The owner's colour as it is written. -/
def donoSalvo (j : JGO_tpJogo) (lixo : PCA_tpCorPeca) : PCA_tpCorPeca :=
  (DPT_ObterJogadorDobraPartida j.pDadoPontos).getD lixo

theorem numerosSalvos_eq (a b c e : ℤ) (lixo : PCA_tpCorPeca) :
    numerosSalvos j ![a,b,c,e] lixo = [(codigo j.JogadorAtual,'\n'),
      (codigo (donoSalvo j lixo),'\n'),(j.pDadoPontos.Pontuacao,'\n'),(a,' '),(b,' '),(c,' '),
      (e,'\n'),(j.PontuacaoAcumuladaJogadorPecasBrancas.toInt,' '),
      (j.PontuacaoAcumuladaJogadorPecasPretas.toInt,'\n')] := rfl

/-- Every number of the file fits an `int`. -/
theorem Salvavel.blanks (h : Salvavel j d) (lixo : PCA_tpCorPeca) :
    Printf.Blanks (numerosSalvos j d lixo ++
      ((casas 1 24).map (contagens j.pTabuleiro)).flatMap linhaDaCasa) := by
  intro x hx
  rcases List.mem_append.mp hx with hx | hx
  · obtain ⟨a,b,c,e,rfl⟩ := exists_vec4 d
    have hd := h.dados
    rw [numerosSalvos_eq] at hx
    simp only [List.mem_cons,List.not_mem_nil,or_false] at hx
    rcases hx with rfl | rfl | rfl | rfl | rfl | rfl | rfl | rfl | rfl
    · exact ⟨(codigo_range _).1,(codigo_range _).2,rfl⟩
    · exact ⟨(codigo_range _).1,(codigo_range _).2,rfl⟩
    · exact ⟨h.dobrado.range.1,h.dobrado.range.2,rfl⟩
    · exact ⟨(hd 0).1,(hd 0).2,rfl⟩
    · exact ⟨(hd 1).1,(hd 1).2,rfl⟩
    · exact ⟨(hd 2).1,(hd 2).2,rfl⟩
    · exact ⟨(hd 3).1,(hd 3).2,rfl⟩
    · exact ⟨(toInt_range _).1,(toInt_range _).2,rfl⟩
    · exact ⟨(toInt_range _).1,(toInt_range _).2,rfl⟩
  · exact blanks_casas h.soma x hx

theorem ofFn_snoc {α : Type*} {n : ℕ} (f : Fin n → α) (x : α) :
    List.ofFn (Fin.snoc (α := fun _ => α) f x) = List.ofFn f ++ [x] := by
  rw [List.ofFn_succ_last,Fin.snoc_last]
  simp only [Fin.snoc_castSucc]

/-- The houses of the file with its first number taken for another one: where white's pieces are to
be, black's are written, and where black's are to be, white's of another house. -/
theorem exists_deslocadas {n : ℕ} (f : Fin (n+2) → ℤ × ℤ) (antes : ℤ × ℤ) :
    ∃ g : Fin (n+2) → ℤ × ℤ,
      pares (n+2) antes (((List.ofFn f).flatMap linhaDaCasa).map Prod.fst).tail = List.ofFn g ∧
        ∀ i, (g i).1 = (f i).2 ∧ ∃ k, (g i).2 = (f k).1 := by
  have hpares := pares_deslocadas (List.ofFn fun i : Fin (n+1) => f i.succ) (f 0).2 antes
  rw [List.length_ofFn] at hpares
  have hbrancas : (f 0).2::(List.ofFn fun i : Fin (n+1) => f i.succ).map Prod.snd =
      List.ofFn fun i => (f i).2 := by
    rw [List.map_ofFn,List.ofFn_succ (f := fun i => (f i).2)]
    rfl
  have htail : (((List.ofFn f).flatMap linhaDaCasa).map Prod.fst).tail =
      (f 0).2::((List.ofFn fun i : Fin (n+1) => f i.succ).flatMap linhaDaCasa).map Prod.fst := by
    rw [List.ofFn_succ]
    rfl
  obtain ⟨k,hk⟩ : ∃ k, (antes.2::(List.ofFn fun i : Fin (n+1) => f i.succ).map Prod.fst).getLast
      (List.cons_ne_nil _ _) = (f k).1 := by
    refine ⟨Fin.last (n+1),?_⟩
    rw [List.getLast_cons (by simp),List.getLast_map,List.getLast_ofFn]
    rfl
  have hpretas : (List.ofFn fun i : Fin (n+1) => f i.succ).map Prod.fst ++ [(f k).1] =
      List.ofFn (Fin.snoc (α := fun _ => ℤ) (fun i : Fin (n+1) => (f i.succ).1) (f k).1) := by
    rw [List.map_ofFn,ofFn_snoc]
    rfl
  rw [htail,hpares,hk,hbrancas,hpretas,zip_ofFn]
  refine ⟨_,rfl,fun i => ⟨rfl,?_⟩⟩
  dsimp only
  induction i using Fin.lastCases with
  | last => exact ⟨k,by rw [Fin.snoc_last]⟩
  | cast i => exact ⟨i.succ,by rw [Fin.snoc_castSucc]⟩

theorem casas_contagens (t : TAB_tpTabuleiro) :
    (casas 1 24).map (contagens t) = List.ofFn fun i => contagens t (numero i) := by
  rw [casas_eq_ofFn,List.map_ofFn]
  rfl

/-- The name of black without the blanks in front. -/
theorem aparado {nome : List Char} (h : NomeInteiro nome) (hb : ¬ EmBranco nome) :
    NomeInteiro (Scanf.skipSpace nome) ∧
      ∀ c ∈ (Scanf.skipSpace nome).head?, Scanf.isspace c = false := by
  refine ⟨⟨?_,?_,?_⟩,?_⟩
  · rw [Scanf.skipSpace,ne_eq,List.dropWhile_eq_nil_iff]
    exact hb
  · exact lt_of_le_of_lt (List.dropWhile_sublist _).length_le h.length_lt
  · intro c hc
    exact h.inteiro c ((List.dropWhile_sublist _).subset hc)
  · intro c hc
    have hhead := List.head?_dropWhile_not Scanf.isspace nome
    rw [Scanf.skipSpace] at hc
    rw [hc] at hhead
    simpa using hhead

/-- A file with a name for black is read as it was written. -/
theorem lerCabecalho_salvo (h : Salvavel j d) (hb : ¬ EmBranco j.NomeJogadorPecasPretas)
    (lixo : PCA_tpCorPeca) : lerCabecalho (SalvarJogo j d lixo) =
      some (⟨j.NomeJogadorPecasBrancas,Scanf.skipSpace j.NomeJogadorPecasPretas,
        codigo j.JogadorAtual,codigo (donoSalvo j lixo),j.pDadoPontos.Pontuacao,d,
        j.PontuacaoAcumuladaJogadorPecasBrancas.toInt,
        j.PontuacaoAcumuladaJogadorPecasPretas.toInt⟩,
        Printf.ints (((casas 1 24).map (contagens j.pTabuleiro)).flatMap linhaDaCasa)) := by
  have hblanks := h.blanks lixo
  obtain ⟨hnome,hhead⟩ := aparado h.pretas hb
  obtain ⟨a,b,c,e,rfl⟩ := exists_vec4 d
  rw [numerosSalvos_eq] at hblanks
  have hblank : ∀ c ∈ j.NomeJogadorPecasPretas.takeWhile Scanf.isspace, Scanf.isspace c = true :=
    fun c hc => List.mem_takeWhile_imp hc
  have hlido := lerCabecalho_eq h.brancas.ne_nil h.brancas.inteiro hblank hnome.ne_nil
    hnome.inteiro hhead hblanks
  rwa [← List.append_assoc (List.takeWhile _ _),Scanf.skipSpace,
    List.takeWhile_append_dropWhile,← numerosSalvos_eq] at hlido

theorem tabOuLinha_of_mem_int {n : ℤ} {c : Char} (h : c ∈ Printf.int n) :
    tabOuLinha c = false := by
  have hspace := Printf.isspace_of_mem_int h
  rw [tabOuLinha]
  by_contra hc
  simp only [Bool.not_eq_false,Bool.or_eq_true,decide_eq_true_eq] at hc
  rcases hc with rfl | rfl
  · cases hspace
  · cases hspace

/-- Where the name of black is blank, the first number is read for it. -/
theorem lerCabecalho_branco (h : Salvavel j d) (hb : EmBranco j.NomeJogadorPecasPretas)
    (lixo : PCA_tpCorPeca) : lerCabecalho (SalvarJogo j d lixo) =
      some (⟨j.NomeJogadorPecasBrancas,Printf.int (codigo j.JogadorAtual),
        codigo (donoSalvo j lixo),j.pDadoPontos.Pontuacao,d ⟨0,by decide⟩,
        ![d ⟨1,by decide⟩,d ⟨2,by decide⟩,d ⟨3,by decide⟩,
          j.PontuacaoAcumuladaJogadorPecasBrancas.toInt],
        j.PontuacaoAcumuladaJogadorPecasPretas.toInt,
        (contagens j.pTabuleiro 1).1⟩,
        Printf.ints (((casas 1 24).map (contagens j.pTabuleiro)).flatMap linhaDaCasa).tail) := by
  have hblanks := h.blanks lixo
  obtain ⟨a,b,c,e,rfl⟩ := exists_vec4 d
  rw [numerosSalvos_eq] at hblanks
  have hblank : ∀ c ∈ j.NomeJogadorPecasPretas ++ ['\n'], Scanf.isspace c = true := by
    intro c hc
    rcases List.mem_append.mp hc with hc | hc
    · exact hb c hc
    · obtain rfl := List.mem_singleton.mp hc
      rfl
  have hcasas : ((casas 1 24).map (contagens j.pTabuleiro)).flatMap linhaDaCasa =
      ((contagens j.pTabuleiro 1).1,' ')::
        (((casas 1 24).map (contagens j.pTabuleiro)).flatMap linhaDaCasa).tail := rfl
  rw [hcasas] at hblanks
  have hlido := lerCabecalho_eq h.brancas.ne_nil h.brancas.inteiro hblank
    (Printf.int_ne_nil (codigo j.JogadorAtual)) (fun c hc => tabOuLinha_of_mem_int hc)
    (fun c hc => Printf.isspace_of_mem_int (List.mem_of_mem_head? hc))
    (l := (((casas 1 24).map (contagens j.pTabuleiro)).flatMap linhaDaCasa).tail) hblanks.tail
  rw [SalvarJogo,numerosSalvos_eq,hcasas,List.cons_append,Printf.ints_cons]
  rwa [List.append_assoc] at hlido

/-- The game rebuilt from what was read. -/
def recuperado (memoria : JGO_tpJogo) (c : Cabecalho) (pDadoPontos : DPT_tpDadoPontos)
    (lidas : List (ℤ × ℤ)) : JGO_tpJogo where
  pTabuleiro := montarTabuleiro lidas
  pDadoPontos := pDadoPontos
  pPecasCapturadas := 0
  pPecasFinalizadas := PCF_CriarListaPecasFinalizadas
  JogadorAtual := corDoCodigo c.CodigoJogadorAtual
  NomeJogadorPecasBrancas := c.NomeJogadorPecasBrancas
  PontuacaoAcumuladaJogadorPecasBrancas := Int32.ofInt c.PontuacaoAcumuladaJogadorPecasBrancas
  PontuacaoAcumuladaJogadorPecasPretas := Int32.ofInt c.PontuacaoAcumuladaJogadorPecasPretas
  NomeJogadorPecasPretas := c.NomeJogadorPecasPretas
  PrimeiraDobraPartidaRealizada := false
  PartidaTerminouDobra := memoria.PartidaTerminouDobra

theorem RecuperarJogo_eq {memoria : JGO_tpJogo} {lixo : PCA_tpCorPeca} {antes : ℤ × ℤ}
    {arquivo resto : List Char} {c : Cabecalho} (h : lerCabecalho arquivo = some (c,resto)) :
    RecuperarJogo memoria lixo antes arquivo =
      (recuperarDadoPontos lixo c.CodigoJogadorDadoPontos c.PontuacaoAtual).map fun p =>
        (recuperado memoria c p (lerCasas 24 antes resto),c.ExibicaoDados) := by
  rw [RecuperarJogo,h]
  simp only [bind,Option.bind_some]
  cases recuperarDadoPontos lixo c.CodigoJogadorDadoPontos c.PontuacaoAtual with
  | none => rfl
  | some p => rfl

/-- The game resumed from a file with a name for black. -/
def retomado (memoria j : JGO_tpJogo) (pDadoPontos : DPT_tpDadoPontos) : JGO_tpJogo :=
  { j with
    pTabuleiro := montarTabuleiro (List.ofFn fun i => contagens j.pTabuleiro (numero i))
    pDadoPontos := pDadoPontos
    pPecasCapturadas := 0
    pPecasFinalizadas := PCF_CriarListaPecasFinalizadas
    NomeJogadorPecasPretas := Scanf.skipSpace j.NomeJogadorPecasPretas
    PrimeiraDobraPartidaRealizada := false
    PartidaTerminouDobra := memoria.PartidaTerminouDobra }

theorem pecas_retomado (memoria j : JGO_tpJogo) (p : DPT_tpDadoPontos) (c : PCA_tpCorPeca)
    (i : Fin 24) : (retomado memoria j p).pTabuleiro.pecas c i = j.pTabuleiro.pecas c i := by
  rw [retomado]
  dsimp only
  rw [pecas_montarTabuleiro,lida_contagens]

theorem RecuperarJogo_salvo (h : Salvavel j d) (hb : ¬ EmBranco j.NomeJogadorPecasPretas)
    (memoria : JGO_tpJogo) (lixo lixo' : PCA_tpCorPeca) (antes : ℤ × ℤ) :
    RecuperarJogo memoria lixo' antes (SalvarJogo j d lixo) =
      (recuperarDadoPontos lixo' (codigo (donoSalvo j lixo)) j.pDadoPontos.Pontuacao).map fun p =>
        (retomado memoria j p,d) := by
  have hpares := pares_linhas (List.ofFn fun i => contagens j.pTabuleiro (numero i)) antes
  rw [List.length_ofFn] at hpares
  rw [RecuperarJogo_eq (lerCabecalho_salvo h hb lixo),lerCasas_ints (blanks_casas h.soma),
    casas_contagens,hpares]
  simp only [recuperado,corDoCodigo_codigo,Int32.ofInt_toInt]
  rfl

/-- Which matches a file with a name for black keeps. -/
theorem mesmaPartida_retomado_iff (h : Salvavel j d) (hb : ¬ EmBranco j.NomeJogadorPecasPretas)
    {memoria : JGO_tpJogo} {lixo lixo' : PCA_tpCorPeca} {p : DPT_tpDadoPontos}
    (hp : recuperarDadoPontos lixo' (codigo (donoSalvo j lixo)) j.pDadoPontos.Pontuacao = some p) :
    MesmaPartida j (retomado memoria j p) ↔ Fiel j := by
  obtain ⟨r,hr,hpos,hone,hdono⟩ :=
    recuperarDadoPontos_of_dobrado lixo' (donoSalvo j lixo) h.dobrado
  obtain rfl : p = r := Option.some_inj.mp (hp.symm.trans hr)
  have hzero (c : PCA_tpCorPeca) : PCF_ContarPecas PCF_CriarListaPecasFinalizadas c = 0 := by
    cases c <;> rfl
  constructor
  · intro hm
    have hpont : 0 < j.pDadoPontos.Pontuacao := by
      by_contra hle
      have h1 := hone (by omega)
      have hsame : p.Pontuacao = j.pDadoPontos.Pontuacao := hm.pontuacao
      omega
    refine ⟨fun c => (hm.barra c).symm,fun c => (hm.finalizadas c).symm.trans (hzero c),hpont,hb,
      fun hflag => ?_⟩
    have hdobra := hm.dobra lixo lixo'
    have h1 := h.primeira hflag
    rw [DPT_ObterJogadorDobraPartida,if_neg h1]
    simp only [podeDobrar,retomado,hflag,DPT_ObterJogadorDobraPartida,if_neg h1,Option.getD_some,
      Bool.false_and,Bool.true_and,Bool.not_false] at hdobra
    simpa using hdobra.symm
  · intro hf
    have hsame := hpos hf.pontuacao
    refine ⟨pecas_retomado memoria j p,fun c => (hf.barra c).symm,
      fun c => (hzero c).trans (hf.finalizadas c).symm,rfl,⟨rfl,rfl⟩,hsame,?_,fun l l' => ?_⟩
    · simp only [retomado,DPT_ObterJogadorDobraPartida,hsame]
      split_ifs with h1
      · rfl
      · have hcor := hdono (by have := hf.pontuacao; omega)
        rw [hcor,donoSalvo,DPT_ObterJogadorDobraPartida,if_neg h1,Option.getD_some]
    · have hflag : podeDobrar j l = true := by
        rw [podeDobrar]
        cases hc : j.PrimeiraDobraPartidaRealizada with
        | false => rfl
        | true => simp [hf.dobra hc]
      rw [hflag]
      rfl

/-- What is read where the name of black is blank. -/
def cabecalhoBranco (j : JGO_tpJogo) (d : tpExibicaoDados) (lixo : PCA_tpCorPeca) : Cabecalho where
  NomeJogadorPecasBrancas := j.NomeJogadorPecasBrancas
  NomeJogadorPecasPretas := Printf.int (codigo j.JogadorAtual)
  CodigoJogadorAtual := codigo (donoSalvo j lixo)
  CodigoJogadorDadoPontos := j.pDadoPontos.Pontuacao
  PontuacaoAtual := d ⟨0,by decide⟩
  ExibicaoDados := ![d ⟨1,by decide⟩,d ⟨2,by decide⟩,d ⟨3,by decide⟩,
    j.PontuacaoAcumuladaJogadorPecasBrancas.toInt]
  PontuacaoAcumuladaJogadorPecasBrancas := j.PontuacaoAcumuladaJogadorPecasPretas.toInt
  PontuacaoAcumuladaJogadorPecasPretas := (contagens j.pTabuleiro 1).1

theorem RecuperarJogo_branco (h : Salvavel j d) (hb : EmBranco j.NomeJogadorPecasPretas)
    (memoria : JGO_tpJogo) (lixo lixo' : PCA_tpCorPeca) (antes : ℤ × ℤ) :
    ∃ g : Fin 24 → ℤ × ℤ, RecuperarJogo memoria lixo' antes (SalvarJogo j d lixo) =
      (recuperarDadoPontos lixo' j.pDadoPontos.Pontuacao (d ⟨0,by decide⟩)).map (fun p =>
        (recuperado memoria (cabecalhoBranco j d lixo) p (List.ofFn g),
          (cabecalhoBranco j d lixo).ExibicaoDados)) ∧
      ∀ i, (g i).1 = (contagens j.pTabuleiro (numero i)).2 ∧
        ∃ k, (g i).2 = (contagens j.pTabuleiro (numero k)).1 := by
  obtain ⟨g,hg,hmem⟩ := exists_deslocadas (fun i => contagens j.pTabuleiro (numero i)) antes
  have hblanks : Printf.Blanks
      (((casas 1 24).map (contagens j.pTabuleiro)).flatMap linhaDaCasa).tail :=
    fun x hx => blanks_casas h.soma x (List.mem_of_mem_tail hx)
  refine ⟨g,?_,hmem⟩
  rw [RecuperarJogo_eq (lerCabecalho_branco h hb lixo),lerCasas_ints hblanks,List.map_tail,
    casas_contagens,hg]
  rfl

/-- With a blank name the colours are confused. -/
theorem not_mesmaPartida_branco (h : Salvavel j d) (hb : EmBranco j.NomeJogadorPecasPretas)
    {memoria j' : JGO_tpJogo} {d' : tpExibicaoDados} {lixo lixo' : PCA_tpCorPeca} {antes : ℤ × ℤ}
    (hr : RecuperarJogo memoria lixo' antes (SalvarJogo j d lixo) = some (j',d')) :
    ¬ MesmaPartida j j' := by
  intro hm
  obtain ⟨g,hg,hmem⟩ := RecuperarJogo_branco h hb memoria lixo lixo' antes
  rw [hr] at hg
  obtain ⟨p,-,hp⟩ := Option.map_eq_some_iff.mp hg.symm
  obtain ⟨rfl,-⟩ := Prod.mk.inj hp
  have hc := h.conservada hb
  have hsame (i : Fin 24) : j.pTabuleiro.pecas PCA_PecaPreta i =
      j.pTabuleiro.pecas PCA_PecaBranca i := by
    rw [← hm.casas PCA_PecaBranca i,recuperado]
    dsimp only
    rw [pecas_montarTabuleiro,lida,(hmem i).1]
    exact (lida_contagens j.pTabuleiro PCA_PecaPreta i).symm
  have hzero (i : Fin 24) : j.pTabuleiro.pecas PCA_PecaBranca i = 0 := by
    rcases hc.semMistura PCA_PecaBranca i with h0 | h0
    · exact h0
    · rw [← hsame i]
      exact h0
  have hsoma := hc.soma PCA_PecaBranca
  have hbarra : BAR_ContarPecas j.pPecasCapturadas PCA_PecaBranca = 0 :=
    (hm.barra PCA_PecaBranca).symm
  have hfim : PCF_ContarPecas j.pPecasFinalizadas PCA_PecaBranca = 0 :=
    (hm.finalizadas PCA_PecaBranca).symm
  have htotal : j.pTabuleiro.total PCA_PecaBranca = 0 :=
    Finset.sum_eq_zero fun i _ => hzero i
  rw [JGO_tpJogo.soma,htotal,hbarra,hfim] at hsoma
  cases hsoma

/-- What is read from the file of a match is that match just if nothing was left out of it. -/
theorem Salvavel.recuperado_iff (h : Salvavel j d) (memoria : JGO_tpJogo)
    (lixo lixo' : PCA_tpCorPeca) (antes : ℤ × ℤ) :
    (∃ j', RecuperarJogo memoria lixo' antes (SalvarJogo j d lixo) = some (j',d) ∧
      MesmaPartida j j') ↔ Fiel j := by
  by_cases hb : EmBranco j.NomeJogadorPecasPretas
  · constructor
    · rintro ⟨j',hr,hm⟩
      exact absurd hm (not_mesmaPartida_branco h hb hr)
    · intro hf
      exact absurd hb hf.nome
  · obtain ⟨p,hp,-⟩ :=
      recuperarDadoPontos_of_dobrado lixo' (donoSalvo j lixo) h.dobrado
    have hm : MesmaPartida j (retomado memoria j p) ↔ Fiel j := mesmaPartida_retomado_iff h hb hp
    rw [RecuperarJogo_salvo h hb,hp,← hm]
    simp

end File

end PucRio.Gamao
