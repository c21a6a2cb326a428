import PucRio.Lib.LockedRounds
import PucRio.Lib.TransitionSystem
import Mathlib.Data.Finset.Card
import Mathlib.Data.Int.Order.Basic
import Mathlib.Logic.Function.Basic

/-! The `MSSNode`s and the messages between them, which arrive in any order or never. A node has its
fields, its message handlers and the callbacks of its phases; a handler returns the fields and the
messages it leaves, or `none` where it throws. The mobile hosts act at any time: one of them starts
the consensus at a node, or proposes its value to the node that it has moved to. -/
namespace PucRio.Consensus
variable {N M : ℕ}

/-- What is fixed before the run: the ids of the `N` nodes in `allMSSNodes`, the initial values of
the `M` mobile hosts, and `alpha`. -/
structure Config (N M : ℕ) where
  getID : Fin N → ℕ
  initialValue : Fin M → String
  alpha : ℤ

structure LogEntry (N : ℕ) where
  mssNode : Fin N
  roundR : ℕ
  v : Finset String
  ts : ℕ
  deriving DecidableEq

inductive Message (N M : ℕ)
  | init2
  | estimate (mssNode : Fin N) (roundR : ℕ) (newV : Finset String) (p : Finset (Fin M)) (ts : ℕ)
  | newEstimate (mssNode : Fin N) (roundR : ℕ) (v : Finset String) (p : Finset (Fin M))
      (endCollect : Bool)
  | positiveAck (mssNode : Fin N) (round : ℕ)
  | negativeAck (mssNode : Fin N) (round : ℕ)
  | decided (decidedValue : Finset String)
  deriving DecidableEq

/-- The maps of the source hold what `setupRound` puts at a round before the round is read, so a
round that is not set up reads as that. `calling` is set between `setRoundPhase` and the call of
`onPhaseChanged` that it makes. -/
structure MSSNode (N M : ℕ) where
  suspectedMSSs : Finset (Fin N) := ∅
  roundR : ℕ := 0
  roundPhase : ℕ := 0
  phaseEnteredCallback : Bool := false
  calling : Bool := false
  decidedState : Bool := false
  ts : ℕ := 0
  p : Finset (Fin M) := ∅
  newV : Finset String := ∅
  v : Finset String := ∅
  log : ℕ → List (LogEntry N) := fun _ => []
  nbPositiveAck : ℕ → ℕ := fun _ => 0
  nbNegativeAck : ℕ → ℕ := fun _ => 0
  endCollect : Bool := false
  coordinatorMSS : Option (Fin N) := none

abbrev Sent (N M : ℕ) := List (Fin N × Message N M)

def findCoordinator (c : Config N M) (roundR : ℕ) : Option (Fin N) :=
  (List.finRange N).find? (fun mssNode => c.getID mssNode = roundR%N+1)

/-- One message to every node of `allMSSNodes` except `i`. -/
def toOthers (i : Fin N) (m : Message N M) : Sent N M :=
  ((List.finRange N).filter (· ≠ i)).map (·,m)

theorem eq_of_mem_toOthers {i : Fin N} {m : Message N M} {x : Fin N × Message N M}
    (h : x ∈ toOthers i m) : x.2 = m := by
  obtain ⟨j,-,rfl⟩ := List.mem_map.mp h
  rfl

namespace MSSNode

def setRoundPhase (n : MSSNode N M) (phase : ℕ) : MSSNode N M :=
  { n with roundPhase := phase, phaseEnteredCallback := false, calling := true }

/-- `p.addAll`, `newV.addAll` and the test against `alpha` after them. -/
def collect (c : Config N M) (n : MSSNode N M) (p : Finset (Fin M)) (newV : Finset String) :
    MSSNode N M :=
  { n with
    p := n.p ∪ p
    newV := n.newV ∪ newV
    endCollect := n.endCollect || decide (c.alpha ≤ (n.p ∪ p).card) }

/-- (4) Upon receipt of `INIT_1` or `INIT_2`. -/
def handleInit (i : Fin N) (n : MSSNode N M) : MSSNode N M × Sent N M :=
  if n.roundPhase = 0 then (n.setRoundPhase 1,toOthers i .init2) else (n,[])

/-- (5) Upon receipt of `PROPOSE`. -/
def handlePropose (c : Config N M) (i : Fin N) (n : MSSNode N M) (mh : Fin M) :
    Option (MSSNode N M × Sent N M) :=
  if n.endCollect then some (n,[]) else
    let n' := n.collect c {mh} {c.initialValue mh}
    if 1 < n.roundPhase then
      n.coordinatorMSS.map fun coordinator =>
        (n',[(coordinator,.estimate i n'.roundR n'.newV n'.p n'.ts)])
    else some (n',[])

/-- (6) Upon receipt of `DECIDE`: sent to each other node, and broadcast to all of them again. -/
def handleDecide (i : Fin N) (n : MSSNode N M) (decidedValue : Finset String) :
    MSSNode N M × Sent N M :=
  if n.decidedState then (n,[]) else
    ({ n with decidedState := true, v := decidedValue }.setRoundPhase 0,
      toOthers i (.decided decidedValue) ++ toOthers i (.decided decidedValue))

/-- Of the entries of one node with one `ts`, the log keeps those with the most values. -/
def updateLog (logEntries : List (LogEntry N)) (e : LogEntry N) : List (LogEntry N) :=
  let same (e' : LogEntry N) : Bool := e'.mssNode = e.mssNode && e'.ts = e.ts
  let maxVsize := (((logEntries ++ [e]).filter same).map (·.v.card)).foldr max e.v.card
  (logEntries ++ [e]).filter fun e' => !(same e' && e'.v.card < maxVsize)

/-- (7) Upon receipt of `ESTIMATE`. -/
def handleEstimate (c : Config N M) (n : MSSNode N M) (mssNode : Fin N) (roundR : ℕ)
    (newV : Finset String) (p : Finset (Fin M)) (ts : ℕ) : MSSNode N M :=
  let n' := { n with
    log := Function.update n.log roundR (updateLog (n.log roundR) ⟨mssNode,roundR,newV,ts⟩) }
  if n'.endCollect then n' else n'.collect c p newV

/-- (8) Upon receipt of `PA`. -/
def handlePositiveAck (n : MSSNode N M) (round : ℕ) : MSSNode N M :=
  { n with nbPositiveAck := Function.update n.nbPositiveAck round (n.nbPositiveAck round+1) }

/-- (9) Upon receipt of `NA`. -/
def handleNegativeAck (n : MSSNode N M) (round : ℕ) : MSSNode N M :=
  { n with nbNegativeAck := Function.update n.nbNegativeAck round (n.nbNegativeAck round+1) }

/-- `send` over an edge; no edge leads from a node to itself. -/
def send (i d : Fin N) (m : Message N M) : Sent N M := if d = i then [] else [(d,m)]

/-- (12) Upon receipt of `NEW_EST`. -/
def handleNewEstimate (c : Config N M) (i : Fin N) (n : MSSNode N M) (mssNode : Fin N) (roundR : ℕ)
    (v : Finset String) (p : Finset (Fin M)) (endCollect : Bool) : MSSNode N M × Sent N M :=
  let phase := if i = mssNode then 4 else 1
  if n.roundPhase = 3 then
    if endCollect then
      ({ n with v := v, ts := roundR, endCollect := true }.setRoundPhase phase,
        send i mssNode (.positiveAck i roundR))
    else ((n.collect c p v).setRoundPhase phase,send i mssNode (.negativeAck i roundR))
  else (n,[])

/-- (10) Upon Phase = 1. Without a coordinator the source dereferences null. -/
def phase1Callback (c : Config N M) (i : Fin N) (n : MSSNode N M) :
    Option (MSSNode N M × Sent N M) :=
  let roundR := n.roundR+1
  (findCoordinator c roundR).map fun coordinator =>
    let v := if n.ts = 0 then n.newV else n.v
    ({ n with roundR := roundR, coordinatorMSS := some coordinator, v := v }.setRoundPhase
        (if i = coordinator then 2 else 3),
      [(coordinator,.estimate i roundR v n.p n.ts)])

/-- The highest `ts` among the entries. -/
def tmax (logEntries : List (LogEntry N)) : ℕ := (logEntries.map LogEntry.ts).foldr max 0

/-- What the loop over the log selects: the set of an entry with the highest `ts`. Which one, when
there are several, is up to the order of the `HashSet`; `k` is its position in the log. -/
def selectV (logEntries : List (LogEntry N)) (k : ℕ) (newV : Finset String) :
    Option (Finset String) :=
  if 0 < tmax logEntries then
    (logEntries[k]?.filter (·.ts = tmax logEntries)).map LogEntry.v
  else some newV

/-- (11) Upon Phase = 2 and a majority in the log. -/
def phase2CallbackWhenReceivedMajority (i : Fin N) (n : MSSNode N M) (k : ℕ) :
    Option (MSSNode N M × Sent N M) :=
  (selectV (n.log n.roundR) k n.newV).map fun v =>
    let newEst := .newEstimate i n.roundR v n.p n.endCollect
    ({ n with v := v }.setRoundPhase 3,(i,newEst)::toOthers i newEst)

/-- (13) Upon Phase = 3 and a suspected coordinator. -/
def phase3CallbackWhenSuspectedCoordinator (i : Fin N) (n : MSSNode N M) (coordinator : Fin N) :
    MSSNode N M × Sent N M :=
  (n.setRoundPhase 1,[(coordinator,.negativeAck i n.roundR)])

/-- (14) Upon Phase = 4 and acknowledgements from a majority. -/
def phase4Callback (i : Fin N) (n : MSSNode N M) : MSSNode N M × Sent N M :=
  if N < 2*n.nbPositiveAck n.roundR then
    ({ n with decidedState := true }.setRoundPhase 0,toOthers i (.decided n.v))
  else (n.setRoundPhase 1,[])

def called (n : MSSNode N M) : MSSNode N M := { n with calling := false }

def enterCallback (n : MSSNode N M) : MSSNode N M := { n.called with phaseEnteredCallback := true }

/-- The callback whose condition holds, once in each phase. -/
def onPhaseChanged (c : Config N M) (i : Fin N) (n : MSSNode N M) (k : ℕ) :
    Option (MSSNode N M × Sent N M) :=
  if n.phaseEnteredCallback then some (n.called,[])
  else if n.roundPhase = 1 then n.enterCallback.phase1Callback c i
  else if n.roundPhase = 2 ∧ N < 2*(n.log n.roundR).length then
    n.enterCallback.phase2CallbackWhenReceivedMajority i k
  else if n.roundPhase = 3 then
    match n.coordinatorMSS with
    | some coordinator =>
      if coordinator ∈ n.suspectedMSSs then
        some (n.enterCallback.phase3CallbackWhenSuspectedCoordinator i coordinator)
      else some (n.called,[])
    | none => some (n.called,[])
  else if n.roundPhase = 4 ∧ N < 2*(n.nbPositiveAck n.roundR+n.nbNegativeAck n.roundR) then
    some (n.enterCallback.phase4Callback i)
  else some (n.called,[])

/-- One turn of the loop over the inbox. -/
def handleMessage (c : Config N M) (i : Fin N) (n : MSSNode N M) :
    Message N M → MSSNode N M × Sent N M
  | .init2 => n.handleInit i
  | .estimate mssNode roundR newV p ts => (n.handleEstimate c mssNode roundR newV p ts,[])
  | .newEstimate mssNode roundR v p endCollect =>
    n.handleNewEstimate c i mssNode roundR v p endCollect
  | .positiveAck _ round => (n.handlePositiveAck round,[])
  | .negativeAck _ round => (n.handleNegativeAck round,[])
  | .decided decidedValue => n.handleDecide i decidedValue

section
variable {c : Config N M} {n : MSSNode N M} {mssNode : Fin N} {roundR ts : ℕ} {newV : Finset String}
  {p : Finset (Fin M)}

theorem mem_updateLog {logEntries : List (LogEntry N)} {e e' : LogEntry N}
    (h : e' ∈ updateLog logEntries e) : e' ∈ logEntries ∨ e' = e := by
  simpa using List.mem_of_mem_filter h

@[simp] theorem handleEstimate_roundR :
    (n.handleEstimate c mssNode roundR newV p ts).roundR = n.roundR := by
  unfold handleEstimate
  dsimp only
  split_ifs <;> rfl

@[simp] theorem handleEstimate_nbPositiveAck :
    (n.handleEstimate c mssNode roundR newV p ts).nbPositiveAck = n.nbPositiveAck := by
  unfold handleEstimate
  dsimp only
  split_ifs <;> rfl

/-- The log gains the entry of the message and nothing else. -/
theorem mem_log_handleEstimate {t : ℕ} {e : LogEntry N}
    (h : e ∈ (n.handleEstimate c mssNode roundR newV p ts).log t) :
    e ∈ n.log t ∨ t = roundR ∧ e = ⟨mssNode,roundR,newV,ts⟩ := by
  have hlog : (n.handleEstimate c mssNode roundR newV p ts).log =
      Function.update n.log roundR (updateLog (n.log roundR) ⟨mssNode,roundR,newV,ts⟩) := by
    unfold handleEstimate
    dsimp only
    split_ifs <;> rfl
  rw [hlog] at h
  by_cases ht : t = roundR
  · subst ht
    rw [Function.update_self] at h
    exact (mem_updateLog h).imp id fun he => ⟨rfl,he⟩
  · exact .inl (by simpa [ht] using h)

/-- Which callback `onPhaseChanged` runs. -/
theorem onPhaseChanged_cases {i : Fin N} {k : ℕ} {r : MSSNode N M × Sent N M}
    (h : n.onPhaseChanged c i k = some r) :
    r = (n.called,[]) ∨
    n.roundPhase = 1 ∧ n.enterCallback.phase1Callback c i = some r ∨
    n.phaseEnteredCallback = false ∧ n.roundPhase = 2 ∧ N < 2*(n.log n.roundR).length ∧
      n.enterCallback.phase2CallbackWhenReceivedMajority i k = some r ∨
    (n.roundPhase = 3 ∧
      ∃ coordinator, r = n.enterCallback.phase3CallbackWhenSuspectedCoordinator i coordinator) ∨
    n.roundPhase = 4 ∧ r = n.enterCallback.phase4Callback i := by
  unfold onPhaseChanged at h
  split_ifs at h with h₀ h₁ h₂ h₃ h₄
  · exact .inl (Option.some.inj h).symm
  · exact .inr (.inl ⟨h₁,h⟩)
  · exact .inr (.inr (.inl ⟨by simpa using h₀,h₂.1,h₂.2,h⟩))
  · cases hc : n.coordinatorMSS with
    | none =>
      simp only [hc] at h
      exact .inl (Option.some.inj h).symm
    | some coordinator =>
      simp only [hc] at h
      split_ifs at h
      · exact .inr (.inr (.inr (.inl ⟨h₃,coordinator,(Option.some.inj h).symm⟩)))
      · exact .inl (Option.some.inj h).symm
  · exact .inr (.inr (.inr (.inr ⟨h₄.1,(Option.some.inj h).symm⟩)))
  · exact .inl (Option.some.inj h).symm

end

end MSSNode

/-- Every message in flight stands beside its destination. -/
structure Network (N M : ℕ) where
  nodes : Fin N → MSSNode N M
  inFlight : Sent N M

inductive Action (N M : ℕ)
  /-- `INIT_1` of a mobile host arrives at `i`. -/
  | startConsensus (i : Fin N)
  /-- `PROPOSE` of the mobile host `mh` arrives at `i`. -/
  | propose (i : Fin N) (mh : Fin M)
  | suspect (i : Fin N) (suspectedMSSs : Finset (Fin N))
  | deliver (k : ℕ)
  /-- `onPhaseChanged` runs at `i`, after `setRoundPhase` or at the end of `handleMessages`. -/
  | onPhaseChanged (i : Fin N) (k : ℕ)
  deriving DecidableEq

namespace Network

def init (N M : ℕ) : Network N M := ⟨fun _ => {},[]⟩

/-- A handler of node `i` has run: the fields and the messages it leaves. -/
def commit (s : Network N M) (i : Fin N) (r : MSSNode N M × Sent N M) : Network N M where
  nodes := Function.update s.nodes i r.1
  inFlight := s.inFlight ++ r.2

def take (s : Network N M) (k : ℕ) : Network N M := { s with inFlight := s.inFlight.eraseIdx k }

def step (c : Config N M) (s : Network N M) : Action N M → Option (Network N M)
  | .startConsensus i =>
    let n := s.nodes i
    if n.calling then none else some (s.commit i (n.handleInit i))
  | .propose i mh =>
    let n := s.nodes i
    if n.calling then none else (n.handlePropose c i mh).map (s.commit i)
  | .suspect i suspectedMSSs =>
    some (s.commit i ({ s.nodes i with suspectedMSSs := suspectedMSSs },[]))
  | .deliver k =>
    match s.inFlight[k]? with
    | some (i,m) =>
      let n := s.nodes i
      if n.calling then none else some ((s.take k).commit i (n.handleMessage c i m))
    | none => none
  | .onPhaseChanged i k => ((s.nodes i).onPhaseChanged c i k).map (s.commit i)

@[simp] theorem commit_nodes (s : Network N M) (i : Fin N) (r : MSSNode N M × Sent N M) :
    (s.commit i r).nodes = Function.update s.nodes i r.1 := rfl

@[simp] theorem commit_inFlight (s : Network N M) (i : Fin N) (r : MSSNode N M × Sent N M) :
    (s.commit i r).inFlight = s.inFlight ++ r.2 := rfl

@[simp] theorem take_inFlight (s : Network N M) (k : ℕ) :
    (s.take k).inFlight = s.inFlight.eraseIdx k := rfl

@[simp] theorem take_nodes (s : Network N M) (k : ℕ) : (s.take k).nodes = s.nodes := rfl

end Network

def consensus (c : Config N M) : TransitionSystem (Network N M) (Action N M) where
  init := .init N M
  step := Network.step c

/-- The nodes that the entries came from. -/
def senders (logEntries : List (LogEntry N)) : Finset (Fin N) :=
  (logEntries.map LogEntry.mssNode).toFinset

/-- The message may be handled: a decided node starts no new consensus, and a `NEW_EST` with its
values collected is handled in its own round. -/
def Message.KeepsRound (n : MSSNode N M) : Message N M → Prop
  | .init2 => n.decidedState = false
  | .newEstimate _ roundR _ _ endCollect => endCollect = true → n.roundPhase = 3 → roundR = n.roundR
  | _ => True

instance (n : MSSNode N M) : (m : Message N M) → Decidable (m.KeepsRound n)
  | .init2 => inferInstanceAs (Decidable (_ = _))
  | .newEstimate .. => inferInstanceAs (Decidable (_ → _ → _))
  | .estimate .. | .positiveAck .. | .negativeAck .. | .decided .. =>
    inferInstanceAs (Decidable True)

/-- A node that has decided starts no new consensus, every `NEW_EST` is handled in its own round,
and what phase 2 counts as a majority in the log comes from a majority of nodes. -/
def KeepsRounds (s : Network N M) : Action N M → Prop
  | .startConsensus i => (s.nodes i).decidedState = false
  | .deliver k => ∀ m ∈ s.inFlight[k]?, m.2.KeepsRound (s.nodes m.1)
  | .onPhaseChanged i _ =>
    let n := s.nodes i
    n.phaseEnteredCallback = false → n.roundPhase = 2 → N < 2*(n.log n.roundR).length →
      Majority (senders (n.log n.roundR))
  | _ => True

instance (s : Network N M) : (a : Action N M) → Decidable (KeepsRounds s a)
  | .startConsensus i => inferInstanceAs (Decidable ((s.nodes i).decidedState = false))
  | .deliver k => inferInstanceAs (Decidable (∀ m ∈ s.inFlight[k]?, m.2.KeepsRound (s.nodes m.1)))
  | .onPhaseChanged .. => inferInstanceAs (Decidable (_ → _ → _ → _ < _))
  | .propose .. | .suspect .. => inferInstanceAs (Decidable True)

end PucRio.Consensus
