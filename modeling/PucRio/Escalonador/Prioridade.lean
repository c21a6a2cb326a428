import PucRio.Lib.TransitionSystem
import Mathlib.Algebra.Order.Ring.Int
import Mathlib.Logic.Function.Basic

/-! The priority scheduler, statement by statement. The signal that adds a process can come between
any two statements of the loop, and a process that has been continued can end at any time. -/
namespace PucRio.Escalonador.Prioridade

/-- `PIDList[i][0]`, which is -1 where the slot is free, and `PIDList[i][1]`. -/
structure Slot where
  pid : ℤ
  prioridade : ℤ
  deriving DecidableEq, Repr

/-- What the system keeps of a child until it is waited for. -/
inductive Processo
  | parado
  | continuado
  | terminado
  deriving DecidableEq, Repr

/-- The statement of the loop that is next. Those that only write to the log go with the one
before. -/
inductive Linha
  | obtem
  | testa
  | espera
  | terminou
  | livraPID
  | livraPrioridade
  | livraIdx
  | compara
  | interrompe
  | interrompido
  | comparaDeNovo
  | continua
  | continuado
  | executa
  deriving DecidableEq, Repr

structure Estado where
  PIDList : ℕ → Slot
  idxProcessoExecutando : ℤ
  processoAExecutar : ℤ
  linha : Linha
  processos : ℤ → Option Processo

inductive Acao
  | adicionarProcesso (pid prioridade : ℤ)
  | termina (pid : ℤ)
  | proxima
  deriving DecidableEq, Repr

/-- The loop of `obtemProcessoAExecutar` over the first slots. -/
def menorProcesso (PIDList : ℕ → Slot) : ℕ → ℤ
  | 0 => -1
  | i+1 =>
    let menor := menorProcesso PIDList i
    if (PIDList i).pid ≠ -1 then
      if menor = -1 ∨ (PIDList i).prioridade < (PIDList menor.toNat).prioridade then i else menor
    else menor

/-- The slots it looks at. -/
def acessosObtem (PIDList : ℕ → Slot) : ℕ → List ℤ
  | 0 => []
  | i+1 =>
    let menor := menorProcesso PIDList i
    acessosObtem PIDList i++(i : ℤ)::
      if (PIDList i).pid ≠ -1 ∧ menor ≠ -1 then [(i : ℤ),menor] else []

/-- `PIDList[i][0]`; what stands before the list is read at the index -1. -/
def pidEm (antes : ℤ) (PIDList : ℕ → Slot) (i : ℤ) : ℤ :=
  if i < 0 then antes else (PIDList i.toNat).pid

section Handler
variable (NUMPROCESSOS : ℕ)

/-- The first free slot. -/
def livre (PIDList : ℕ → Slot) : Option ℕ :=
  (List.range NUMPROCESSOS).find? fun i => (PIDList i).pid = -1

/-- The new process stops itself; without a free slot there is none. -/
def adicionarProcesso (pid prioridade : ℤ) (s : Estado) : Estado :=
  (livre NUMPROCESSOS s.PIDList).elim s fun i => { s with
    PIDList := Function.update s.PIDList i ⟨pid,prioridade⟩
    processos := Function.update s.processos pid (some .parado) }

def acessosAdicionar (PIDList : ℕ → Slot) : List ℤ :=
  (List.range ((livre NUMPROCESSOS PIDList).elim NUMPROCESSOS (·+1))).map (↑)

end Handler

section System

def SIGSTOP : Processo → Processo
  | .continuado => .parado
  | p => p

def SIGCONT : Processo → Processo
  | .parado => .continuado
  | p => p

/-- The signal goes to the process, and to all of them with the PID -1. -/
def kill (pid : ℤ) (sinal : Processo → Processo) (processos : ℤ → Option Processo) :
    ℤ → Option Processo :=
  fun p => if pid = -1 ∨ p = pid then (processos p).map sinal else processos p

/-- Whether `waitpid` with `WNOHANG` is not 0: there is no such child, or it has ended. -/
def waitpid (processos : ℤ → Option Processo) (pid : ℤ) : Bool :=
  processos pid = none ∨ processos pid = some .terminado

end System

section Loop
variable (NUMPROCESSOS : ℕ) (antes : ℤ)

/-- The next statement. -/
def proxima (s : Estado) : Estado :=
  let executando := pidEm antes s.PIDList s.idxProcessoExecutando
  let aExecutar := pidEm antes s.PIDList s.processoAExecutar
  let i := s.idxProcessoExecutando.toNat
  match s.linha with
  | .obtem =>
    { s with processoAExecutar := menorProcesso s.PIDList NUMPROCESSOS, linha := .testa }
  | .testa => { s with linha := if s.processoAExecutar = -1 then .obtem else .espera }
  | .espera =>
    if s.idxProcessoExecutando ≠ -1 ∧ waitpid s.processos executando = true then
      { s with processos := Function.update s.processos executando none, linha := .terminou }
    else { s with linha := .compara }
  | .terminou => { s with linha := .livraPID }
  | .livraPID =>
    { s with
      PIDList := Function.update s.PIDList i { s.PIDList i with pid := -1 }
      linha := .livraPrioridade }
  | .livraPrioridade =>
    { s with
      PIDList := Function.update s.PIDList i { s.PIDList i with prioridade := -1 }
      linha := .livraIdx }
  | .livraIdx => { s with idxProcessoExecutando := -1, linha := .obtem }
  | .compara =>
    { s with linha :=
        if s.idxProcessoExecutando ≠ -1 ∧ executando ≠ aExecutar then .interrompe
        else .comparaDeNovo }
  | .interrompe =>
    { s with processos := kill executando SIGSTOP s.processos, linha := .interrompido }
  | .interrompido => { s with linha := .comparaDeNovo }
  | .comparaDeNovo => { s with linha := if executando ≠ aExecutar then .continua else .obtem }
  | .continua => { s with processos := kill aExecutar SIGCONT s.processos, linha := .continuado }
  | .continuado => { s with linha := .executa }
  | .executa => { s with idxProcessoExecutando := s.processoAExecutar, linha := .obtem }

/-- Where the next statement looks into the list. -/
def acessos (s : Estado) : List ℤ :=
  match s.linha with
  | .obtem => acessosObtem s.PIDList NUMPROCESSOS
  | .espera => if s.idxProcessoExecutando ≠ -1 then [s.idxProcessoExecutando] else []
  | .compara =>
    if s.idxProcessoExecutando ≠ -1 then [s.idxProcessoExecutando,s.processoAExecutar] else []
  | .terminou => [s.idxProcessoExecutando]
  | .livraPID => [s.idxProcessoExecutando]
  | .livraPrioridade => [s.idxProcessoExecutando]
  | .interrompe => [s.idxProcessoExecutando]
  | .interrompido => [s.idxProcessoExecutando]
  | .comparaDeNovo => [s.idxProcessoExecutando,s.processoAExecutar]
  | .continua => [s.processoAExecutar]
  | .continuado => [s.processoAExecutar]
  | .testa => []
  | .livraIdx => []
  | .executa => []

/-- `fork` gives a PID that no child has. -/
def step (s : Estado) : Acao → Option Estado
  | .adicionarProcesso pid prioridade =>
    if 0 < pid ∧ s.processos pid = none then
      some (adicionarProcesso NUMPROCESSOS pid prioridade s)
    else none
  | .termina pid =>
    if s.processos pid = some .continuado then
      some { s with processos := Function.update s.processos pid (some .terminado) }
    else none
  | .proxima => some (proxima NUMPROCESSOS antes s)

/-- What has happened: where the list was looked into, the priorities with which the processes were
added, the list and these priorities when the iteration chose, and whether the last statement has
ended an iteration that found a process and none that had ended. -/
structure Historia where
  acessos : List ℤ
  prioridades : ℤ → ℤ
  lista : ℕ → Slot
  dadas : ℤ → ℤ
  rodada : Bool

/-- The end of an iteration, not by `continue`. -/
def fimDaRodada (s : Estado) : Bool :=
  s.linha = .executa ∨ (s.linha = .comparaDeNovo ∧
    pidEm antes s.PIDList s.idxProcessoExecutando = pidEm antes s.PIDList s.processoAExecutar)

def Historia.registra (h : Historia) (s : Estado) : Acao → Historia
  | .adicionarProcesso pid prioridade =>
    { h with
      acessos := h.acessos++acessosAdicionar NUMPROCESSOS s.PIDList
      prioridades := Function.update h.prioridades pid prioridade
      rodada := false }
  | .termina _ => { h with rodada := false }
  | .proxima =>
    { h with
      acessos := h.acessos++Prioridade.acessos NUMPROCESSOS s
      lista := if s.linha = .obtem then s.PIDList else h.lista
      dadas := if s.linha = .obtem then h.prioridades else h.dadas
      rodada := fimDaRodada antes s }

/-- The scheduler with its history. -/
def escalonador : TransitionSystem (Estado × Historia) Acao where
  init := (⟨fun _ => ⟨-1,-1⟩,-1,-1,.obtem,fun _ => none⟩,
    ⟨[],fun _ => -1,fun _ => ⟨-1,-1⟩,fun _ => -1,false⟩)
  step x a := (step NUMPROCESSOS antes x.1 a).map fun t =>
    (t,x.2.registra NUMPROCESSOS antes x.1 a)

end Loop

end PucRio.Escalonador.Prioridade
