import Mathlib.Algebra.Order.Ring.Int
import Mathlib.Data.Finset.Insert
import Mathlib.Data.Finset.Erase
import Mathlib.Data.Finset.Card
import Mathlib.Logic.Function.Basic
import PucRio.Lib.TransitionSystem

/-! The matrices of linked nodes, of which there may be any number. The value of a node is left out;
requests for memory succeed. -/
namespace PucRio.Matriz

inductive Coord
  | Norte
  | Nordeste
  | Leste
  | Sudeste
  | Sul
  | Sudoeste
  | Oeste
  | Noroeste
  deriving DecidableEq, Repr

inductive CondRet
  | OK
  | ErroEstrutura
  | MatrizNaoExiste
  | MatrizVazia
  | CoordenadaInexistente
  deriving DecidableEq, Repr

abbrev Endereco := ℕ

/-- A pointer; `none` is `NULL`. -/
abbrev Ponteiro := Option Endereco

/-- The eight pointers of a node. -/
structure No where
  pEntrada : Coord → Ponteiro

/-- The nodes that are allocated, the contents of each address and how often memory was asked for. -/
structure Memoria where
  vivos : Finset Endereco
  no : Endereco → No
  pedidos : ℕ

/-- What `malloc` returns: an address that is not in use. -/
structure Alocador where
  aloca : ℕ → Finset Endereco → Endereco
  livre : ∀ n s, aloca n s ∉ s

/-- The head of a matrix. -/
structure Cabeca where
  pElemCorr : Ponteiro
  numLinhas : ℤ
  numColunas : ℤ
  deriving DecidableEq, Repr

/-- A pointer that does not lead to a node was followed, or a loop does not end. -/
inductive Falha
  | indefinido
  | semFim
  deriving DecidableEq, Repr

namespace Memoria

/-- The address that is read or written. -/
def alvo (h : Memoria) (p : Ponteiro) : Except Falha Endereco :=
  p.elim (.error .indefinido) fun a => if a ∈ h.vivos then .ok a else .error .indefinido

def le (h : Memoria) (p : Ponteiro) (d : Coord) : Except Falha Ponteiro := do
  let a ← h.alvo p
  .ok ((h.no a).pEntrada d)

/-- `p->d₁->d₂…` -/
def segue (h : Memoria) : Ponteiro → List Coord → Except Falha Ponteiro
  | p,[] => .ok p
  | p,d::ds => do
    let q ← h.le p d
    h.segue q ds

def poe (h : Memoria) (a : Endereco) (d : Coord) (q : Ponteiro) : Memoria :=
  { h with no := Function.update h.no a ⟨Function.update (h.no a).pEntrada d q⟩ }

/-- `p->d = q` -/
def grava (h : Memoria) (p : Ponteiro) (d : Coord) (q : Ponteiro) : Except Falha Memoria := do
  let a ← h.alvo p
  .ok (h.poe a d q)

def CriarNo (A : Alocador) (h : Memoria) : Memoria × Endereco :=
  let a := A.aloca h.pedidos h.vivos
  (⟨insert a h.vivos,Function.update h.no a ⟨fun _ => none⟩,h.pedidos+1⟩,a)

def ExcluirNoMatriz (h : Memoria) (p : Ponteiro) : Except Falha Memoria := do
  let a ← h.alvo p
  .ok { h with vivos := h.vivos.erase a }

end Memoria

section Avanca

/-- Go in one direction until there is no node, at most as often as there are nodes. -/
def andar (d : Coord) (h : Memoria) : ℕ → Ponteiro → Except Falha Ponteiro
  | 0,_ => .error .semFim
  | n+1,p => do
    let q ← h.le p d
    if q = none then .ok p else andar d h n q

def avanca (d : Coord) (h : Memoria) (m : Cabeca) : Except Falha Cabeca :=
  if m.pElemCorr = none then .ok m else do
    let p ← andar d h h.vivos.card m.pElemCorr
    .ok { m with pElemCorr := p }

def AvancaPrimeiraLinha : Memoria → Cabeca → Except Falha Cabeca := avanca .Norte

def AvancaPrimeiraColuna : Memoria → Cabeca → Except Falha Cabeca := avanca .Oeste

def AvancaUltimaLinha : Memoria → Cabeca → Except Falha Cabeca := avanca .Sul

def AvancaUltimaColuna : Memoria → Cabeca → Except Falha Cabeca := avanca .Leste

end Avanca

/-! The functions for columns are those for lines with the compass turned over. -/

inductive Eixo
  | linha
  | coluna
  deriving DecidableEq, Repr

/-- The direction on the other side of the diagonal from northwest to southeast. -/
def Coord.transposta : Coord → Coord
  | Norte => Oeste
  | Nordeste => Sudoeste
  | Leste => Sul
  | Sudeste => Sudeste
  | Sul => Leste
  | Sudoeste => Nordeste
  | Oeste => Norte
  | Noroeste => Noroeste

namespace Eixo

def coord : Eixo → Coord → Coord
  | linha,d => d
  | coluna,d => d.transposta

/-- How many there are. -/
def num : Eixo → Cabeca → ℤ
  | linha,m => m.numLinhas
  | coluna,m => m.numColunas

/-- How long each is. -/
def comp : Eixo → Cabeca → ℤ
  | linha,m => m.numColunas
  | coluna,m => m.numLinhas

def muda (m : Cabeca) (num comp : ℤ) : Eixo → Cabeca
  | linha => { m with numLinhas := num, numColunas := comp }
  | coluna => { m with numColunas := num, numLinhas := comp }

end Eixo

section Adicionar
variable (A : Alocador) (x : Eixo)

/-- Where the first node of the new line is put. -/
def inicio (h : Memoria) (m : Cabeca) : Except Falha (Memoria × Cabeca × Ponteiro) := do
  let c := h.CriarNo A
  let h := c.1
  let pElemInicio := some c.2
  let (h,m) ← if m.pElemCorr ≠ none then do
      let h ← h.grava pElemInicio (x.coord .Norte) m.pElemCorr
      let h ← h.grava m.pElemCorr (x.coord .Sul) pElemInicio
      .ok (h,m)
    else .ok (h,{ m with pElemCorr := pElemInicio })
  let norte ← h.le pElemInicio (x.coord .Norte)
  if norte ≠ none then do
    let nordeste ← h.segue pElemInicio [x.coord .Norte,x.coord .Leste]
    if nordeste ≠ none then do
      let p ← h.segue pElemInicio [x.coord .Norte,x.coord .Leste]
      let h ← h.grava p (x.coord .Sudoeste) pElemInicio
      let p ← h.segue pElemInicio [x.coord .Norte,x.coord .Leste]
      let h ← h.grava pElemInicio (x.coord .Nordeste) p
      .ok (h,m,pElemInicio)
    else .ok (h,m,pElemInicio)
  else .ok (h,m,pElemInicio)

/-- One round of the loop, which puts a node beside the one before. -/
def proximo (h : Memoria) (pElemAnterior : Ponteiro) : Except Falha (Memoria × Ponteiro) := do
  let c := h.CriarNo A
  let h := c.1
  let pNoCriado := some c.2
  let h ← h.grava pNoCriado (x.coord .Oeste) pElemAnterior
  let norte ← h.le pElemAnterior (x.coord .Norte)
  let h ← if norte ≠ none then do
      let p ← h.segue pElemAnterior [x.coord .Norte,x.coord .Leste]
      let h ← h.grava p (x.coord .Sul) pNoCriado
      let p ← h.segue pElemAnterior [x.coord .Norte,x.coord .Leste]
      let h ← h.grava pNoCriado (x.coord .Norte) p
      let p ← h.segue pElemAnterior [x.coord .Norte]
      let h ← h.grava p (x.coord .Sudeste) pNoCriado
      let p ← h.segue pElemAnterior [x.coord .Norte]
      let h ← h.grava pNoCriado (x.coord .Noroeste) p
      let nordeste ← h.segue pElemAnterior [x.coord .Norte,x.coord .Leste,x.coord .Leste]
      if nordeste ≠ none then do
        let p ← h.segue pElemAnterior [x.coord .Norte,x.coord .Leste,x.coord .Leste]
        let h ← h.grava p (x.coord .Sudoeste) pNoCriado
        let p ← h.segue pElemAnterior [x.coord .Norte,x.coord .Leste,x.coord .Leste]
        h.grava pNoCriado (x.coord .Nordeste) p
      else .ok h
    else .ok h
  let h ← h.grava pElemAnterior (x.coord .Leste) pNoCriado
  let p ← h.le pElemAnterior (x.coord .Leste)
  .ok (h,p)

def proximos : ℕ → Memoria → Ponteiro → Except Falha Memoria
  | 0,h,_ => .ok h
  | n+1,h,pElemAnterior => do
    let r ← proximo A x h pElemAnterior
    proximos n r.1 r.2

def adicionar (h : Memoria) (m : Cabeca) : Except Falha (Memoria × Cabeca) := do
  let m ← avanca (x.coord .Oeste) h m
  let m ← avanca (x.coord .Sul) h m
  let (h,m,pElemAnterior) ← inicio A x h m
  let h ← proximos A x (x.comp m-1).toNat h pElemAnterior
  .ok (h,x.muda m (x.num m+1) (x.comp m))

def MAT_AdicionarLinha : Memoria → Cabeca → Except Falha (Memoria × Cabeca) := adicionar A .linha

def MAT_AdicionarColuna : Memoria → Cabeca → Except Falha (Memoria × Cabeca) := adicionar A .coluna

end Adicionar

section Remover
variable (x : Eixo)

/-- One round of the loop that deletes the last line. -/
def anteriorSemNo (h : Memoria) (pElemCorr : Ponteiro) : Except Falha (Memoria × Ponteiro) := do
  let norte ← h.le pElemCorr (x.coord .Norte)
  let h ← if norte ≠ none then do
      let p ← h.le pElemCorr (x.coord .Norte)
      let h ← h.grava p (x.coord .Sul) none
      let p ← h.le pElemCorr (x.coord .Norte)
      let h ← h.grava p (x.coord .Sudoeste) none
      let p ← h.le pElemCorr (x.coord .Norte)
      h.grava p (x.coord .Sudeste) none
    else .ok h
  let pElemCorr ← h.le pElemCorr (x.coord .Oeste)
  let p ← h.le pElemCorr (x.coord .Leste)
  let h ← h.ExcluirNoMatriz p
  .ok (h,pElemCorr)

/-- The loop runs at most as often as there are nodes. -/
def anterioresSemNo : ℕ → Memoria → Ponteiro → Except Falha (Memoria × Ponteiro)
  | 0,_,_ => .error .semFim
  | n+1,h,pElemCorr => do
    let oeste ← h.le pElemCorr (x.coord .Oeste)
    if oeste ≠ none then do
      let r ← anteriorSemNo x h pElemCorr
      anterioresSemNo n r.1 r.2
    else .ok (h,pElemCorr)

/-- The first node of the line, after which the current node is the one above. -/
def primeiroSemNo (h : Memoria) (pElemCorr : Ponteiro) : Except Falha (Memoria × Ponteiro) := do
  let norte ← h.le pElemCorr (x.coord .Norte)
  if norte ≠ none then do
    let p ← h.le pElemCorr (x.coord .Norte)
    let h ← h.grava p (x.coord .Sudoeste) none
    let p ← h.le pElemCorr (x.coord .Norte)
    let h ← h.grava p (x.coord .Sudeste) none
    let pElemCorr ← h.le pElemCorr (x.coord .Norte)
    let p ← h.le pElemCorr (x.coord .Sul)
    let h ← h.ExcluirNoMatriz p
    let h ← h.grava pElemCorr (x.coord .Sul) none
    .ok (h,pElemCorr)
  else do
    let h ← h.ExcluirNoMatriz pElemCorr
    .ok (h,none)

def remover (h : Memoria) (m : Cabeca) : Except Falha (Memoria × Cabeca × CondRet) :=
  if m.pElemCorr = none then .ok (h,m,.MatrizVazia) else do
    let m ← AvancaUltimaColuna h m
    let m ← AvancaUltimaLinha h m
    let r ← anterioresSemNo x h.vivos.card h m.pElemCorr
    let r ← primeiroSemNo x r.1 r.2
    let num := x.num m-1
    let comp := if num = 0 then 0 else x.comp m
    .ok (r.1,x.muda { m with pElemCorr := r.2 } num comp,.OK)

def MAT_RemoverLinha : Memoria → Cabeca → Except Falha (Memoria × Cabeca × CondRet) :=
  remover .linha

def MAT_RemoverColuna : Memoria → Cabeca → Except Falha (Memoria × Cabeca × CondRet) :=
  remover .coluna

end Remover

def MAT_IrPara (h : Memoria) (m : Cabeca) (Coordenada : Coord) :
    Except Falha (Cabeca × CondRet) :=
  if m.pElemCorr = none then .ok (m,.MatrizVazia) else do
    let p ← h.le m.pElemCorr Coordenada
    if p = none then .ok (m,.CoordenadaInexistente) else .ok ({ m with pElemCorr := p },.OK)

section Criar
variable (A : Alocador)

def criarLinhas : ℕ → Memoria → Cabeca → Except Falha (Memoria × Cabeca)
  | 0,h,m => .ok (h,m)
  | n+1,h,m => do
    let r ← MAT_AdicionarLinha A h m
    criarLinhas n r.1 r.2

/-- The head of the matrix stays what it was where the sizes are no sizes. -/
def MAT_CriarMatriz (h : Memoria) (pMatriz : Option Cabeca) (NumeroLinhas NumeroColunas : ℤ) :
    Except Falha (Memoria × Option Cabeca × CondRet) :=
  if NumeroLinhas ≤ 0 ∨ NumeroColunas ≤ 0 then .ok (h,pMatriz,.ErroEstrutura) else do
    let r ← criarLinhas A NumeroLinhas.toNat h ⟨none,0,NumeroColunas⟩
    let m ← AvancaPrimeiraLinha r.1 r.2
    let m ← AvancaPrimeiraColuna r.1 m
    .ok (r.1,some m,.OK)

end Criar

inductive Acao
  | criarMatriz (NumeroLinhas NumeroColunas : ℤ)
  | adicionarLinha
  | adicionarColuna
  | removerLinha
  | removerColuna
  | irPara (Coordenada : Coord)
  deriving DecidableEq, Repr

section Executa
variable (A : Alocador)

/-- The pointer to the head is `NULL` before a matrix was made. -/
def comMatriz (h : Memoria) (pMatriz : Option Cabeca)
    (f : Cabeca → Except Falha (Memoria × Option Cabeca × CondRet)) :
    Except Falha (Memoria × Option Cabeca × CondRet) :=
  pMatriz.elim (.ok (h,none,.MatrizNaoExiste)) f

def executa (h : Memoria) (pMatriz : Option Cabeca) :
    Acao → Except Falha (Memoria × Option Cabeca × CondRet)
  | .criarMatriz l c => MAT_CriarMatriz A h pMatriz l c
  | .adicionarLinha => comMatriz h pMatriz fun m => do
    let r ← MAT_AdicionarLinha A h m
    .ok (r.1,some r.2,.OK)
  | .adicionarColuna => comMatriz h pMatriz fun m => do
    let r ← MAT_AdicionarColuna A h m
    .ok (r.1,some r.2,.OK)
  | .removerLinha => comMatriz h pMatriz fun m => do
    let r ← MAT_RemoverLinha h m
    .ok (r.1,some r.2.1,r.2.2)
  | .removerColuna => comMatriz h pMatriz fun m => do
    let r ← MAT_RemoverColuna h m
    .ok (r.1,some r.2.1,r.2.2)
  | .irPara d => comMatriz h pMatriz fun m => do
    let r ← MAT_IrPara h m d
    .ok (h,some r.1,r.2)

/-- The memory, and the matrices by the names of their variables. -/
structure Estado (ι : Type*) where
  mem : Memoria
  matrizes : ι → Option Cabeca

def Estado.troca {ι : Type*} [DecidableEq ι] (s : Estado ι) (v : ι) (h : Memoria)
    (pMatriz : Option Cabeca) : Estado ι :=
  ⟨h,Function.update s.matrizes v pMatriz⟩

/-- Calls of the operations on any number of matrices in one memory. -/
def modulo (ι : Type*) [DecidableEq ι] : TransitionSystem (Estado ι) (ι × Acao) where
  init := ⟨⟨∅,fun _ => ⟨fun _ => none⟩,0⟩,fun _ => none⟩
  step s a := (executa A s.mem (s.matrizes a.1) a.2).toOption.map fun r => s.troca a.1 r.1 r.2.1

end Executa

end PucRio.Matriz
