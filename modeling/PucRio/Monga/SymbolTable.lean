import PucRio.Lib.LinkedList
import PucRio.Monga.TypeChecking

/-! The symbol table on the heap: a linked list of scopes, each of which has a linked list of
declarations that is never empty. The cell of a scope without declarations is of type `n`. -/
namespace PucRio.Monga.Scopes

section Memory

/-- What memory is requested for. The type and the value of a declaration go together, and there is
none of the type `n`. -/
inductive Cell
  | decList (next : Option ℕ) (dec : Option Dec)
  | symbolTable (current previous : Option ℕ)

def Cell.decs : Cell → Option (Option Dec × Option ℕ)
  | .decList next dec => some (dec,next)
  | .symbolTable .. => none

def Cell.tables : Cell → Option (Option ℕ × Option ℕ)
  | .decList .. => none
  | .symbolTable current previous => some (current,previous)

abbrev Memory := Heap Cell

def create_symbolTable (A : Allocator) (h : Memory) : Except HeapStop (ℕ × Memory) := do
  let (table,h) ← h.malloc A (.symbolTable none none)
  let (current,h) ← h.malloc A (.decList none none)
  let h ← h.store (some table) (.symbolTable (some current) none)
  return (table,h)

/-- The functions that add differ in the type of the declaration only. -/
def addDec (A : Allocator) (h : Memory) (p : Option ℕ) (dec : Dec) : Except HeapStop Memory := do
  let (current,_) ← h.node Cell.tables p
  let (val,next) ← h.node Cell.decs current
  if val.isNone then h.store current (.decList next (some dec))
  else do
    let temp ← h.last Cell.decs h.live.card current
    let (new,h) ← h.malloc A (.decList none (some dec))
    let (val,_) ← h.node Cell.decs temp
    h.store temp (.decList (some new) val)

def addDecVar (A : Allocator) (h : Memory) (p : Option ℕ) (v : Decl) : Except HeapStop Memory :=
  addDec A h p (.v v)

def addParam (A : Allocator) (h : Memory) (p : Option ℕ) (param : Decl) :
    Except HeapStop Memory := addDec A h p (.p param)

def addDecFunc (A : Allocator) (h : Memory) (p : Option ℕ) (f : FuncHeader) :
    Except HeapStop Memory := addDec A h p (.f f)

/-- The first declaration of a list with a name, `n` being the end of the list. -/
def findDec (h : Memory) (id : String) : ℕ → Option ℕ → Except HeapStop (Option ℕ)
  | _,none => .ok none
  | 0,some _ => .error .endless
  | n+1,some a => do
    let (val,next) ← h.node Cell.decs (some a)
    match val with
    | none => return none
    | some dec => if dec.id = id then return some a else findDec h id n next

def findFrom (h : Memory) (id : String) : ℕ → Option ℕ → Except HeapStop (Option ℕ)
  | _,none => .ok none
  | 0,some _ => .error .endless
  | n+1,some a => do
    let (current,previous) ← h.node Cell.tables (some a)
    let dec ← findDec h id h.live.card current
    if dec.isSome then return dec else findFrom h id n previous

/-- A loop over more cells than there are does not end. -/
def find (h : Memory) (p : Option ℕ) (id : String) : Except HeapStop (Option ℕ) :=
  findFrom h id h.live.card p

def findCurrentScope (h : Memory) (p : Option ℕ) (id : String) : Except HeapStop (Option ℕ) := do
  let (current,_) ← h.node Cell.tables p
  findDec h id h.live.card current

def enterScope (A : Allocator) (h : Memory) (p : Option ℕ) :
    Except HeapStop (Memory × Option ℕ) := do
  let (new,h) ← create_symbolTable A h
  let (current,_) ← h.node Cell.tables (some new)
  let h ← h.store (some new) (.symbolTable current p)
  return (h,some new)

def leaveScope (h : Memory) (p : Option ℕ) : Except HeapStop (Memory × Option ℕ) := do
  let (current,previous) ← h.node Cell.tables p
  let h ← h.freeAll Cell.decs h.live.card current
  let h ← h.free p
  return (h,previous)

end Memory

section Runs

structure State where
  mem : Memory
  table : Option ℕ

inductive Command
  | enterScope
  | leaveScope
  | addDecVar (v : Decl)
  | addParam (param : Decl)
  | addDecFunc (f : FuncHeader)
  deriving DecidableEq, Repr

/-- What a command declares. -/
def Command.dec : Command → Option Dec
  | .enterScope => none
  | .leaveScope => none
  | .addDecVar v => some (.v v)
  | .addParam param => some (.p param)
  | .addDecFunc f => some (.f f)

def step (A : Allocator) (s : State) : Command → Except HeapStop State
  | .enterScope => do
    let (mem,table) ← enterScope A s.mem s.table
    return ⟨mem,table⟩
  | .leaveScope => do
    let (mem,table) ← leaveScope s.mem s.table
    return ⟨mem,table⟩
  | .addDecVar v => do
    let mem ← addDecVar A s.mem s.table v
    return { s with mem := mem }
  | .addParam param => do
    let mem ← addParam A s.mem s.table param
    return { s with mem := mem }
  | .addDecFunc f => do
    let mem ← addDecFunc A s.mem s.table f
    return { s with mem := mem }

/-- Checking starts with one scope. -/
def start (A : Allocator) : Except HeapStop State := do
  let (table,mem) ← create_symbolTable A ⟨∅,fun _ => .decList none none,0⟩
  return ⟨mem,some table⟩

def runFrom (A : Allocator) : State → List Command → Except HeapStop State
  | s,[] => .ok s
  | s,c::l => do
    let s ← step A s c
    runFrom A s l

def run (A : Allocator) (l : List Command) : Except HeapStop State := do
  let s ← start A
  runFrom A s l

/-- How many scopes are left open, if each that is left has been entered. -/
def depth : ℕ → List Command → Option ℕ
  | n,[] => some n
  | n,.enterScope::l => depth (n+1) l
  | 0,.leaveScope::_ => none
  | n+1,.leaveScope::l => depth n l
  | n,_::l => depth n l

/-- A name is declared where the current scope does not have it. -/
def NewNames (A : Allocator) (l : List Command) : Prop :=
  ∀ l₁ c l₂ dec s, l = l₁++c::l₂ → c.dec = some dec → run A l₁ = .ok s →
    findCurrentScope s.mem s.table dec.id = .ok none

/-- The same table on the same heap. -/
def State.Same (s s' : State) : Prop := s.table = s'.table ∧ s.mem.Same s'.mem

end Runs

section Stack

/-- A stack of maps, the innermost scope first. -/
abbrev Stack := List (String → Option Dec)

def Stack.declare (S : Stack) (dec : Dec) : Stack :=
  S.modifyHead fun m => Function.update m dec.id (some dec)

def Stack.perform (S : Stack) : Command → Stack
  | .enterScope => (fun _ => none)::S
  | .leaveScope => S.tail
  | .addDecVar v => S.declare (.v v)
  | .addParam param => S.declare (.p param)
  | .addDecFunc f => S.declare (.f f)

/-- What the commands leave on a stack with one scope. -/
def declared (l : List Command) : Stack := l.foldl Stack.perform [fun _ => none]

/-- The declaration in the innermost scope that has one. -/
def Stack.find (S : Stack) (id : String) : Option Dec := S.findSome? fun m => m id

def Stack.current (S : Stack) (id : String) : Option Dec := S.head?.bind fun m => m id

/-- A pointer to a declaration, or `NULL`. -/
inductive Shows (h : Memory) : Option ℕ → Option Dec → Prop
  | null : Shows h none none
  | dec {a : ℕ} {next : Option ℕ} {d : Dec} : a ∈ h.live →
      h.cell a = .decList next (some d) → Shows h (some a) (some d)

end Stack
end PucRio.Monga.Scopes
