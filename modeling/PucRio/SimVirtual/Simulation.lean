import PucRio.Lib.CInt
import Mathlib.Data.BitVec
import Mathlib.Tactic.SplitIfs

/-! The page simulator: its page table, the three replacement algorithms, and what an access does.
The linked list of nodes is the list of their `current` pointers. -/
namespace PucRio.SimVirtual

/-- Why the simulator does not go on. -/
inductive Stop
  | pageSize
  | physicalMemorySize
  | invalidStructure
  | nullPointer
  | nruFailure
  | outOfFuel
  deriving DecidableEq, Repr

inductive PageReplacementAlgorithm
  | PR_NRU
  | PR_LRU
  | PR_SEC
  deriving DecidableEq, Repr

def REFERENCED_PAGE : BitVec 8 := 0x01
def MODIFIED_PAGE : BitVec 8 := 0x10

structure PTE where
  address : BitVec 32
  lastAccessTime : ℤ
  status : BitVec 8
  rBit : BitVec 8
  deriving DecidableEq, Repr

abbrev PageTable := List (Option PTE)

structure SimulationInfo where
  pageSize : ℕ
  pageFaults : ℤ
  pageWrites : ℤ
  time : ℤ
  prAlgo : PageReplacementAlgorithm
  maxPages : ℕ
  deriving DecidableEq, Repr

structure State where
  info : SimulationInfo
  pageTableList : PageTable
  lastFlagResetTime : ℤ
  deriving DecidableEq, Repr

/-- One line of the trace. `random` is what `rand` gives, should the access ask for it. -/
structure Access where
  address : BitVec 32
  rw : Char
  random : ℕ

def getNeededBits (value : ℕ) : ℕ := if value/2 = 0 then 0 else getNeededBits (value/2)+1

/-- A new table has one node, and no entry. -/
def createTableList : PageTable := [none]

/-- The configured simulator. -/
def start (prAlgo : PageReplacementAlgorithm) (pageSize maxPages : ℕ) : State where
  info := ⟨pageSize,0,0,0,prAlgo,maxPages⟩
  pageTableList := createTableList
  lastFlagResetTime := -1

def simulation_configure (prAlgo : PageReplacementAlgorithm)
    (pageSizeKB physicalMemorySizeKB : ℤ) : Except Stop State :=
  if pageSizeKB < 8 ∨ pageSizeKB > 32 then .error .pageSize
  else if physicalMemorySizeKB < 128 ∨ physicalMemorySizeKB > 16*1024 then
    .error .physicalMemorySize
  else .ok (start prAlgo pageSizeKB.toNat (physicalMemorySizeKB/pageSizeKB).toNat)

/-- The scan for the earliest entry: from node `i`, with `node` and `time` the earliest so far. -/
def earliestNode (pageTableList : PageTable) : ℕ → ℕ → ℕ → ℤ → Except Stop ℕ
  | 0,_,node,_ => .ok node
  | k+1,i,node,time =>
    match pageTableList[i]? with
    | none => .error .nullPointer
    | some none => .error .invalidStructure
    | some (some e) =>
      if e.lastAccessTime < time then earliestNode pageTableList k (i+1) i e.lastAccessTime
      else earliestNode pageTableList k (i+1) node time

def algo_lru (info : SimulationInfo) (tempPTE : PTE) (pageTableList : PageTable) :
    Except Stop PageTable := do
  let node ← earliestNode pageTableList info.maxPages 0 0 info.time
  .ok (pageTableList.set node (some tempPTE))

/-- Its call of itself has one unit less of fuel. -/
def algo_sec (info : SimulationInfo) (tempPTE : PTE) : ℕ → PageTable → Except Stop PageTable
  | 0,_ => .error .outOfFuel
  | fuel+1,pageTableList => do
    let node ← earliestNode pageTableList info.maxPages 0 0 info.time
    match pageTableList[node]? with
    | some (some e) =>
      if e.rBit = 0x01 then
        algo_sec info tempPTE fuel
          (pageTableList.set node (some { e with rBit := 0x0, lastAccessTime := info.time }))
      else .ok (pageTableList.set node (some tempPTE))
    | _ => .error .nullPointer

/-- The status of each of the first `k` entries, from node `i`. -/
def statuses (pageTableList : PageTable) : ℕ → ℕ → Except Stop (List (BitVec 8))
  | 0,_ => .ok []
  | k+1,i =>
    match pageTableList[i]? with
    | none => .error .nullPointer
    | some none => .error .invalidStructure
    | some (some e) => do return e.status::(← statuses pageTableList k (i+1))

/-- The category to remove from, and how many entries it has. -/
def chosenStatus (found : List (BitVec 8)) : Option (BitVec 8 × ℕ) :=
  [0,MODIFIED_PAGE,REFERENCED_PAGE,REFERENCED_PAGE ||| MODIFIED_PAGE].findSome? fun status =>
    if 0 < found.count status then some (status,found.count status) else none

/-- The node of the entry with the given status that `randomIndex` of them precede. -/
def nodeOfStatus (status : BitVec 8) (randomIndex : ℕ) : ℕ → ℕ → List (BitVec 8) → Option ℕ
  | _,_,[] => none
  | i,foundStatusCounter,s::l =>
    if s = status then
      if randomIndex = foundStatusCounter then some i
      else nodeOfStatus status randomIndex (i+1) (foundStatusCounter+1) l
    else nodeOfStatus status randomIndex (i+1) foundStatusCounter l

def algo_nru (info : SimulationInfo) (random : ℕ) (tempPTE : PTE) (pageTableList : PageTable) :
    Except Stop PageTable := do
  let found ← statuses pageTableList info.maxPages 0
  match chosenStatus found with
  | none => .error .nruFailure
  | some (status,count) =>
    match nodeOfStatus status (random%count) 0 0 found with
    | none => .error .nruFailure
    | some node => .ok (pageTableList.set node (some tempPTE))

def pageFault_add (info : SimulationInfo) : SimulationInfo :=
  { info with pageFaults := wrap32 (info.pageFaults+1) }

def pageFault_replace (info : SimulationInfo) (random : ℕ) (pageTableEntry : PTE)
    (pageTableList : PageTable) : Except Stop (SimulationInfo × PageTable) := do
  let info := { info with pageFaults := wrap32 (info.pageFaults+1) }
  let pageTableList ← match info.prAlgo with
    | .PR_LRU => algo_lru info pageTableEntry pageTableList
    | .PR_NRU => algo_nru info random pageTableEntry pageTableList
    | .PR_SEC => algo_sec info pageTableEntry (info.maxPages+1) pageTableList
  .ok (info,pageTableList)

/-- A new entry; it counts as a write when it is made for one. -/
def createPTE (info : SimulationInfo) (startingAddress : BitVec 32) (rw : Char) :
    PTE × SimulationInfo :=
  if rw = 'W' then
    (⟨startingAddress,info.time,MODIFIED_PAGE,0x01⟩,
      { info with pageWrites := wrap32 (info.pageWrites+1) })
  else (⟨startingAddress,info.time,0,0x01⟩,info)

def accessMemory (info : SimulationInfo) (pageTableEntry : PTE) (rw : Char) : PTE :=
  { pageTableEntry with
    lastAccessTime := info.time
    status := if rw = 'W' then REFERENCED_PAGE ||| MODIFIED_PAGE else REFERENCED_PAGE }

/-- The first `k` nodes with an entry have their flags cleared, up to one without. -/
def resetFlags : ℕ → PageTable → PageTable
  | k+1,some e::l => some { e with status := 0 }::resetFlags k l
  | _,l => l

/-- The loop of an access, which visits `k` more nodes: what it leaves of the table, and whether
it returned from the access. A node is added behind the last one. -/
def searchTable (info : SimulationInfo) (bits : ℕ) (pageIndex : BitVec 32) (rw : Char) :
    ℕ → PageTable → PageTable × SimulationInfo × Bool
  | 0,l => (l,info,false)
  | _+1,[] => ([],info,false)
  | _+1,none::l =>
    let (newPTE,info) := createPTE info (pageIndex <<< bits) rw
    (some newPTE::l,pageFault_add info,true)
  | k+1,some e::l =>
    if e.address >>> bits = pageIndex then (some (accessMemory info e rw)::l,info,true)
    else
      let (l,info,returned) :=
        searchTable info bits pageIndex rw k (if l = [] then [none] else l)
      (some e::l,info,returned)

/-- Whether a fault in a full table clears the flags first. -/
def resetDue (info : SimulationInfo) (lastFlagResetTime : ℤ) : Bool :=
  (lastFlagResetTime == -1 && info.time > wrap32 (info.maxPages*1024)) ||
    (lastFlagResetTime > 0 &&
      wrap32 (info.time-lastFlagResetTime) > wrap32 (info.maxPages*1024))

def simulation_simulateMemoryAccess (access : Access) (s : State) : Except Stop State := do
  let bits := getNeededBits (s.info.pageSize*1024)
  let pageIndex := access.address >>> bits
  let info := { s.info with time := wrap32 (s.info.time+1) }
  let (pageTableList,info,returned) :=
    searchTable info bits pageIndex access.rw info.maxPages s.pageTableList
  if returned then .ok { s with info := info, pageTableList := pageTableList }
  else
    let pageTableList :=
      if resetDue info s.lastFlagResetTime then resetFlags info.maxPages pageTableList
      else pageTableList
    let (newPTE,info) := createPTE info (pageIndex <<< bits) access.rw
    let (info,pageTableList) ← pageFault_replace info access.random newPTE pageTableList
    .ok { s with info := info, pageTableList := pageTableList }

/-- The accesses of a trace one after the other, by `runSimulator`. -/
def simulate (s : State) (trace : List Access) : Except Stop State :=
  trace.foldlM (fun s access => simulation_simulateMemoryAccess access s) s

end PucRio.SimVirtual
