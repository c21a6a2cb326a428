import PucRio.Gamao.Tabuleiro
import PucRio.Lib.CInt
import Mathlib.Data.Fin.Tuple.Basic

/-! A match of backgammon (JOGO): what a player may do and what one input does to the board. -/
namespace PucRio.Gamao
open PCA_tpCorPeca TAB_tpCondRet

/-- The doubling cube (DADOPONTOS). A new cube has the colour that its memory held. -/
@[ext] structure DPT_tpDadoPontos where
  Pontuacao : ℤ
  CorPeca : PCA_tpCorPeca
  deriving DecidableEq

def DPT_CriarDadoPontos (lixo : PCA_tpCorPeca) : DPT_tpDadoPontos := ⟨1,lixo⟩

def DPT_AtualizarJogadorDobra (pDadoPontos : DPT_tpDadoPontos) (CorPeca : PCA_tpCorPeca) :
    DPT_tpDadoPontos :=
  { pDadoPontos with CorPeca := CorPeca }

/-- The cube doubled, unless it is not the player's. -/
def DPT_DobrarPontuacaoPartida (pDadoPontos : DPT_tpDadoPontos) (CorPeca : PCA_tpCorPeca) :
    Option DPT_tpDadoPontos :=
  if pDadoPontos.CorPeca ≠ CorPeca then none
  else some { pDadoPontos with Pontuacao := wrap32 (pDadoPontos.Pontuacao*2) }

/-- Nobody while the cube shows 1. -/
def DPT_ObterJogadorDobraPartida (pDadoPontos : DPT_tpDadoPontos) : Option PCA_tpCorPeca :=
  if pDadoPontos.Pontuacao = 1 then none else some pDadoPontos.CorPeca

@[ext] structure JGO_tpJogo where
  pTabuleiro : TAB_tpTabuleiro
  pDadoPontos : DPT_tpDadoPontos
  pPecasCapturadas : BAR_tpPecasCapturadas
  pPecasFinalizadas : PCF_tpPecasFinalizadas
  JogadorAtual : PCA_tpCorPeca
  NomeJogadorPecasBrancas : List Char
  PontuacaoAcumuladaJogadorPecasBrancas : Int32
  PontuacaoAcumuladaJogadorPecasPretas : Int32
  NomeJogadorPecasPretas : List Char
  PrimeiraDobraPartidaRealizada : Bool
  PartidaTerminouDobra : Bool

/-- The values of the dice still to be played: 0 once played, −1 in the slots that are not used. -/
abbrev tpExibicaoDados := Fin 4 → ℤ

def PartidaTerminou (pJogo : JGO_tpJogo) : Bool :=
  PCF_ContarPecas pJogo.pPecasFinalizadas PCA_PecaBranca = 15 ||
    PCF_ContarPecas pJogo.pPecasFinalizadas PCA_PecaPreta = 15

/-- The numbers from `CasaInicial` to `CasaFinal`. -/
def casas (CasaInicial CasaFinal : ℤ) : List ℤ :=
  (List.range (CasaFinal+1-CasaInicial).toNat).map fun n : ℕ => CasaInicial+(n : ℤ)

/-- The test that both searches make of a house: it exists and the opponent has at most one piece
there. -/
def casaLivre (pTabuleiro : TAB_tpTabuleiro) (CorOponente : PCA_tpCorPeca)
    (ValorCasaMovimento : ℤ) : Bool :=
  let (CondicaoRetornoTabuleiro,QuantidadePecasTemp) :=
    TAB_ContarPecas pTabuleiro ValorCasaMovimento CorOponente
  CondicaoRetornoTabuleiro = TAB_CondRetOK && decide (QuantidadePecasTemp ≤ 1) ||
    CondicaoRetornoTabuleiro = TAB_CondRetPecaNaoExiste

def JogadasReentradaDisponiveis (pJogo : JGO_tpJogo) (ExibicaoDados : tpExibicaoDados) : Bool :=
  let CorOponente := if pJogo.JogadorAtual = PCA_PecaBranca then PCA_PecaPreta else PCA_PecaBranca
  let CasaInicial : ℤ := if pJogo.JogadorAtual = PCA_PecaBranca then 19 else 1
  let CasaFinal : ℤ := if pJogo.JogadorAtual = PCA_PecaBranca then 24 else 6
  (casas CasaInicial CasaFinal).any fun ContadorCasa =>
    let ValorCasaMovimento :=
      if pJogo.JogadorAtual = PCA_PecaBranca then 24-ContadorCasa+1 else ContadorCasa
    (List.finRange 4).any fun ContadorDado =>
      let ValorDado := ExibicaoDados ContadorDado
      if ValorDado ≤ 0 then false
      else if ValorCasaMovimento = ValorDado then
        casaLivre pJogo.pTabuleiro CorOponente ValorCasaMovimento
      else false

def JogadorAtualPodeFinalizarPecas (pJogo : JGO_tpJogo) : Bool :=
  let ContagemPecasCapturadas := BAR_ContarPecas pJogo.pPecasCapturadas pJogo.JogadorAtual
  let ContagemPecasFinalizadas := PCF_ContarPecas pJogo.pPecasFinalizadas pJogo.JogadorAtual
  if ContagemPecasCapturadas > 0 then false
  else
    let NumeroCasaInicial : ℤ := if pJogo.JogadorAtual = PCA_PecaBranca then 1 else 19
    let NumeroCasaFinal : ℤ := if pJogo.JogadorAtual = PCA_PecaBranca then 6 else 24
    let VetorCasas := (casas NumeroCasaInicial NumeroCasaFinal).map fun ContadorCasa =>
      (TAB_ContarPecas pJogo.pTabuleiro ContadorCasa pJogo.JogadorAtual).2
    VetorCasas.sum+ContagemPecasFinalizadas = 15

/-- The body of the loops of JogadasDisponiveis. -/
def jogadaDisponivel (pJogo : JGO_tpJogo) (JogadorPodeFinalizarPecas : Bool)
    (ContadorCasa ValorDado : ℤ) : Bool :=
  let CorOponente := if pJogo.JogadorAtual = PCA_PecaBranca then PCA_PecaPreta else PCA_PecaBranca
  if ValorDado ≤ 0 then false
  else if pJogo.JogadorAtual = PCA_PecaBranca then
    let ValorCasaMovimento := ContadorCasa-ValorDado
    if JogadorPodeFinalizarPecas = true ∧ ValorCasaMovimento ≤ ValorDado then true
    else casaLivre pJogo.pTabuleiro CorOponente ValorCasaMovimento
  else
    let ValorCasaMovimento := ContadorCasa+ValorDado
    if JogadorPodeFinalizarPecas = true ∧ ValorCasaMovimento ≥ 18+ValorDado then true
    else casaLivre pJogo.pTabuleiro CorOponente ValorCasaMovimento

/-- With pieces on the bar and a way to bring one back the board is searched as well. -/
def JogadasDisponiveis (pJogo : JGO_tpJogo) (ExibicaoDados : tpExibicaoDados) : Bool :=
  let JogadorPodeFinalizarPecas := JogadorAtualPodeFinalizarPecas pJogo
  let ContagemPecasCapturadasTemp := BAR_ContarPecas pJogo.pPecasCapturadas pJogo.JogadorAtual
  if ContagemPecasCapturadasTemp > 0 ∧ JogadasReentradaDisponiveis pJogo ExibicaoDados = false then
    false
  else
    (casas 1 24).any fun ContadorCasa =>
      let QuantidadePecasTemp :=
        (TAB_ContarPecas pJogo.pTabuleiro ContadorCasa pJogo.JogadorAtual).2
      if QuantidadePecasTemp = 0 then false
      else (List.finRange 4).any fun ContadorDado =>
        jogadaDisponivel pJogo JogadorPodeFinalizarPecas ContadorCasa (ExibicaoDados ContadorDado)

/-- What LeNumeroInteiro makes of a line typed by the player: a number or a word. The answers to
the question that a command asks come with it. -/
inductive Entrada
  | numero (n : ℤ)
  | sair (confirma : Bool)
  | salvar
  | dobrar (aceita : Bool)
  | erro

/-- What LeCasa makes of it: only the houses 1 to 24 and 0 are numbers. -/
def LeCasa : Entrada → Entrada
  | .numero n => if n < 0 ∨ 24 < n then .erro else .numero n
  | e => e

/-- Whether the player to move may offer to double, as DobrarPartida tests it. The colour read is
what the cube's owner is, or whatever the variable held where nobody owns the cube. -/
def podeDobrar (pJogo : JGO_tpJogo) (lixo : PCA_tpCorPeca) : Bool :=
  let JogadorDadoPontosAtual := (DPT_ObterJogadorDobraPartida pJogo.pDadoPontos).getD lixo
  !(pJogo.PrimeiraDobraPartidaRealizada && JogadorDadoPontosAtual ≠ pJogo.JogadorAtual)

def DobrarPartida (pJogo : JGO_tpJogo) (lixo : PCA_tpCorPeca) (aceita : Bool) : JGO_tpJogo :=
  let JogadorAtual := pJogo.JogadorAtual
  let JogadorOponente := if JogadorAtual = PCA_PecaBranca then PCA_PecaPreta else PCA_PecaBranca
  if podeDobrar pJogo lixo then
    if aceita then
      let pDadoPontos := if pJogo.PrimeiraDobraPartidaRealizada then pJogo.pDadoPontos
        else DPT_AtualizarJogadorDobra pJogo.pDadoPontos JogadorAtual
      match DPT_DobrarPontuacaoPartida pDadoPontos JogadorAtual with
      | some pDadoPontos => { pJogo with
          pDadoPontos := DPT_AtualizarJogadorDobra pDadoPontos JogadorOponente
          PrimeiraDobraPartidaRealizada := true }
      | none => { pJogo with pDadoPontos := pDadoPontos }
    else { pJogo with PartidaTerminouDobra := true }
  else pJogo

/-- How a pass through the loop of ProcessarJogada ends: the loop is tested again, with
`JogadaTerminou` set or not, or the function returns. -/
structure Volta where
  pJogo : JGO_tpJogo
  ExibicaoDados : tpExibicaoDados
  JogadaTerminou : Bool
  retorno : Option Bool

/-- What follows a command typed in place of a house. -/
def comando (pJogo : JGO_tpJogo) (ExibicaoDados : tpExibicaoDados) (lixo : PCA_tpCorPeca) :
    Entrada → Volta
  | .numero _ => ⟨pJogo,ExibicaoDados,false,none⟩
  | .salvar => ⟨pJogo,ExibicaoDados,false,some true⟩
  | .dobrar aceita => ⟨DobrarPartida pJogo lixo aceita,ExibicaoDados,false,some true⟩
  | .sair confirma => ⟨pJogo,ExibicaoDados,false,some !confirma⟩
  | .erro => ⟨pJogo,ExibicaoDados,false,some true⟩

/-- The single piece of the opponent on a house goes to the bar. -/
def capturar (pJogo : JGO_tpJogo) (PecaOponente : PCA_tpCorPeca) (NumeroCasaDestino : ℤ) :
    JGO_tpJogo :=
  match TAB_RemoverPeca pJogo.pTabuleiro PecaOponente NumeroCasaDestino with
  | .ok (pPecaTemp,pTabuleiro) => { pJogo with
      pTabuleiro := pTabuleiro
      pPecasCapturadas := BAR_InserirPeca pJogo.pPecasCapturadas pPecaTemp }
  | .error _ => pJogo

/-- A piece comes back from the bar. -/
def reentrar (pJogo : JGO_tpJogo) (NumeroCasaDestino : ℤ) : JGO_tpJogo :=
  match BAR_RemoverPeca pJogo.pPecasCapturadas pJogo.JogadorAtual with
  | some (pPecaTemp,pPecasCapturadas) =>
    let pJogo := { pJogo with pPecasCapturadas := pPecasCapturadas }
    match TAB_InserirPeca pJogo.pTabuleiro pPecaTemp NumeroCasaDestino with
    | .ok pTabuleiro => { pJogo with pTabuleiro := pTabuleiro }
    | .error _ => pJogo
  | none => pJogo

/-- The loops over the dice slots: the body acts at the first die that serves and breaks there. A
die whose move was executed becomes 0. -/
def percorrerDados (pJogo : JGO_tpJogo) (ExibicaoDados : tpExibicaoDados) (serve : ℤ → Bool)
    (acao : Option JGO_tpJogo) : Volta :=
  match Fin.find? fun ContadorDados => serve (ExibicaoDados ContadorDados) with
  | some ContadorDados =>
    match acao with
    | some pJogo => ⟨pJogo,Function.update ExibicaoDados ContadorDados 0,true,none⟩
    | none => ⟨pJogo,ExibicaoDados,false,none⟩
  | none => ⟨pJogo,ExibicaoDados,false,none⟩

def serveReentrada (pJogo : JGO_tpJogo) (NumeroCasaDestino : ℤ) (dado : ℤ) : Bool :=
  dado > 0 ∧ (pJogo.JogadorAtual = PCA_PecaPreta ∧ NumeroCasaDestino < 7 ∧
      NumeroCasaDestino = dado ∨
    pJogo.JogadorAtual = PCA_PecaBranca ∧ NumeroCasaDestino > 18 ∧ 24-NumeroCasaDestino+1 = dado)

/-- A piece comes back from the bar, unless the house is closed. -/
def acaoReentrada (pJogo : JGO_tpJogo) (NumeroCasaDestino : ℤ) : Option JGO_tpJogo :=
  let PecaOponente := if pJogo.JogadorAtual = PCA_PecaPreta then PCA_PecaBranca else PCA_PecaPreta
  let ContagemPecasTemp := (TAB_ContarPecas pJogo.pTabuleiro NumeroCasaDestino PecaOponente).2
  if ContagemPecasTemp > 1 then none
  else
    let pJogo := if ContagemPecasTemp = 1 then capturar pJogo PecaOponente NumeroCasaDestino
      else pJogo
    some (reentrar pJogo NumeroCasaDestino)

def serveRetirada (pJogo : JGO_tpJogo) (NumeroCasaOrigem : ℤ) (dado : ℤ) : Bool :=
  dado > 0 ∧ (pJogo.JogadorAtual = PCA_PecaPreta ∧ NumeroCasaOrigem > 18 ∧
      24-NumeroCasaOrigem ≤ dado ∨
    pJogo.JogadorAtual = PCA_PecaBranca ∧ NumeroCasaOrigem < 7 ∧ NumeroCasaOrigem ≤ dado)

/-- A piece leaves the board. -/
def acaoRetirada (pJogo : JGO_tpJogo) (NumeroCasaOrigem : ℤ) : Option JGO_tpJogo :=
  match TAB_RemoverPeca pJogo.pTabuleiro pJogo.JogadorAtual NumeroCasaOrigem with
  | .error _ => none
  | .ok (pPecaTemp,pTabuleiro) => some { pJogo with
      pTabuleiro := pTabuleiro
      pPecasFinalizadas := PCF_InserirPeca pJogo.pPecasFinalizadas pPecaTemp }

def serveMovimento (pJogo : JGO_tpJogo) (NumeroCasaOrigem NumeroCasaDestino : ℤ) (dado : ℤ) :
    Bool :=
  dado > 0 ∧ (pJogo.JogadorAtual = PCA_PecaPreta ∧ NumeroCasaDestino-NumeroCasaOrigem = dado ∨
    pJogo.JogadorAtual = PCA_PecaBranca ∧ NumeroCasaOrigem-NumeroCasaDestino = dado)

/-- A piece moves on the board. What it captures leaves its house after it has arrived. -/
def acaoMovimento (pJogo : JGO_tpJogo) (NumeroCasaOrigem NumeroCasaDestino : ℤ) :
    Option JGO_tpJogo :=
  let PecaOponente := if pJogo.JogadorAtual = PCA_PecaPreta then PCA_PecaBranca else PCA_PecaPreta
  let ContagemPecasTemp := (TAB_ContarPecas pJogo.pTabuleiro NumeroCasaDestino PecaOponente).2
  if ContagemPecasTemp > 1 then none
  else
    match TAB_MoverPeca pJogo.pTabuleiro pJogo.JogadorAtual NumeroCasaOrigem NumeroCasaDestino with
    | .error _ => none
    | .ok pTabuleiro =>
      let pJogo := { pJogo with pTabuleiro := pTabuleiro }
      some (if ContagemPecasTemp = 1 then capturar pJogo PecaOponente NumeroCasaDestino
        else pJogo)

/-- The choice of a house of origin and of destination; 0 for the destination finishes a piece, and
without the right to do so the loop over the dice breaks at once. -/
def jogar (pJogo : JGO_tpJogo) (ExibicaoDados : tpExibicaoDados)
    (NumeroCasaOrigem NumeroCasaDestino : ℤ) : Volta :=
  let JogadorPodeFinalizarPecas := JogadorAtualPodeFinalizarPecas pJogo
  if NumeroCasaDestino = 0 ∧ JogadorPodeFinalizarPecas = false then
    ⟨pJogo,ExibicaoDados,false,none⟩
  else if NumeroCasaDestino = 0 then
    percorrerDados pJogo ExibicaoDados (serveRetirada pJogo NumeroCasaOrigem)
      (acaoRetirada pJogo NumeroCasaOrigem)
  else
    percorrerDados pJogo ExibicaoDados (serveMovimento pJogo NumeroCasaOrigem NumeroCasaDestino)
      (acaoMovimento pJogo NumeroCasaOrigem NumeroCasaDestino)

/-- One pass through the loop of ProcessarJogada. The second line is read after a house of
origin. -/
def volta (pJogo : JGO_tpJogo) (ExibicaoDados : tpExibicaoDados) (lixo : PCA_tpCorPeca)
    (linha linha' : Entrada) : Volta :=
  let ContagemPecasCapturadasTemp := BAR_ContarPecas pJogo.pPecasCapturadas pJogo.JogadorAtual
  if ContagemPecasCapturadasTemp > 0 then
    match LeCasa linha with
    | .numero NumeroCasaDestino => percorrerDados pJogo ExibicaoDados
        (serveReentrada pJogo NumeroCasaDestino) (acaoReentrada pJogo NumeroCasaDestino)
    | e => comando pJogo ExibicaoDados lixo e
  else
    match LeCasa linha with
    | .numero NumeroCasaOrigem =>
      match LeCasa linha' with
      | .numero NumeroCasaDestino => jogar pJogo ExibicaoDados NumeroCasaOrigem NumeroCasaDestino
      | e => comando pJogo ExibicaoDados lixo e
    | e => comando pJogo ExibicaoDados lixo e

end PucRio.Gamao
