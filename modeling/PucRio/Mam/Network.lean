import PucRio.Lib.TransitionSystem
import Mathlib.Algebra.Order.Ring.Int
import Mathlib.Data.List.FinRange
import Mathlib.Logic.Function.Basic

/-! The nodes of a mesh and the packets on their way. A node's step on a packet or a timer ends the
simulation where an assertion fails or an error is thrown: `none`. Statistics are left out. A packet
of the mesh reaches each node in range at any time or never; packets from outside, a sink's say, come
at any time. With a FOUND_MOBILE_SINK comes what a proof asks of it: the hops values of its wave,
from the first one on. -/
namespace PucRio.Mam
variable {A K : Type}

/-- Ticks of the simulation's clock in a millisecond. -/
def SIMTIME_MS : ℕ := 1000000000

/-- Keys with the time they expire, the last used first. -/
abbrev LruCache (K : Type) := List (K × ℕ)

namespace LruCache
variable [DecidableEq K]

def max_size : ℕ := 100

def put (cache : LruCache K) (key : K) (expiry : ℕ) : LruCache K :=
  let cache := (key,expiry)::cache.filter (·.1 ≠ key)
  if max_size < cache.length then cache.dropLast else cache

def exists_ (cache : LruCache K) (key : K) (time : ℕ) : Bool :=
  (cache.find? (·.1 = key)).any (time < ·.2)

end LruCache

/-- The packets by their names; `other` is any name that no handler asks for. -/
inductive Name
  | FOUND_MOBILE_SINK
  | DISCONNECTED_MOBILE_SINK
  | MAMCDISCOVERY
  | DATA_SEND
  | FRIEND_REQUEST
  | FRIEND_OFFER
  | FRIEND_POLL
  | FRIEND_UPDATE
  | other
  deriving DecidableEq, Repr

/-- `packetUuid` is empty where it is `none`. -/
structure BMeshPacket (K : Type) where
  name : Name
  hops : ℤ := 127
  packetUuid : Option K := none
  sequence : ℤ := -1
  deriving DecidableEq, Repr

/-- A packet and where it goes: `none` is the broadcast address. -/
structure Sent (A K : Type) where
  dest : Option A
  packet : BMeshPacket K
  deriving DecidableEq, Repr

inductive SelfMsgKinds
  | START
  | SEND_MY_DATA
  deriving DecidableEq, Repr

/-- A queue of a low power node holds dummies only, so it is their number. -/
structure MamNodeApp (A K : Type) where
  relayNode : Bool
  mamRelay : Bool
  friendNode : Bool
  lowPowerNode : Bool
  delta : ℕ := 0
  selfMsg : Option (SelfMsgKinds × ℕ) := some (.START,0)
  pollTimer : Option ℕ := none
  mobileSink : Option A := none
  sinkHops : ℤ := 0
  sinkBestRouteExpiry : ℕ := 0
  lastFoundSinkSent : ℕ := 0
  lastSensorDataSent : ℕ := 0
  scheduledSendData : Bool := false
  dataSendCache : LruCache (Option K) := []
  dataSendSequence : ℤ := 0
  connectedFriendNode : Option A := none
  friendshipEstablished : Bool := false
  lowPowerNodes : List (A × ℕ) := []

def pollIntervalMs : ℕ := 1700

/-- What an address or a message is called in a cache, and what the loopback address is. -/
structure Addresses (A K : Type) where
  /-- `md5("FOUND_MOBILE_SINK_" + src.str())` -/
  foundKey : A → K
  isLoopback : A → Bool

namespace MamNodeApp
variable [DecidableEq A] [DecidableEq K] (I : Addresses A K)

/-- What a handler leaves: the node and what it has sent, or nothing where the simulation ends. -/
abbrev Result (A K : Type) := Option (MamNodeApp A K × List (Sent A K))

def sendSimpleMessage (msg : Name) (dest : Option A) (hops : ℤ) : Option (List (Sent A K)) :=
  if hops < 0 then none else some [⟨dest,{ name := msg, hops := hops }⟩]

def broadcastSimpleMessage (msg : Name) (hops : ℤ) : Option (List (Sent A K)) :=
  sendSimpleMessage msg none hops

def sendMyDataToSink (simTime : ℕ) (node : MamNodeApp A K) : MamNodeApp A K :=
  if node.scheduledSendData then node
  else if node.mobileSink.isSome ∨ node.mamRelay = false then
    { node with
      scheduledSendData := true
      selfMsg := some (.SEND_MY_DATA,
        max (node.lastSensorDataSent+100*SIMTIME_MS) (simTime+1*SIMTIME_MS)) }
  else node

/-- `itr->second.push(dummy)` for every low power node. -/
def pushDummies (node : MamNodeApp A K) : MamNodeApp A K :=
  { node with lowPowerNodes := node.lowPowerNodes.map fun q => (q.1,q.2+1) }

/-- The route to the sink that the custom relay keeps. -/
def setRoute (simTime : ℕ) (src : A) (hops : ℤ) (node : MamNodeApp A K) : MamNodeApp A K :=
  if node.mamRelay ∧ (node.mobileSink = none ∨ node.sinkBestRouteExpiry < simTime ∨
      node.sinkHops < hops) then
    { node with
      mobileSink := some src
      sinkHops := hops
      sinkBestRouteExpiry := simTime+node.delta*SIMTIME_MS }
  else node

/-- The relay at the end of `processFoundMobileSink`. -/
def relayFound (simTime : ℕ) (src : A) (hops : ℤ) (node : MamNodeApp A K) : Result A K :=
  if node.relayNode then
    if node.mamRelay then
      if node.lastFoundSinkSent/SIMTIME_MS+100 < simTime/SIMTIME_MS then
        (broadcastSimpleMessage .FOUND_MOBILE_SINK 127).map
          ({ node with lastFoundSinkSent := simTime },·)
      else some (node,[])
    else
      let ms := simTime/SIMTIME_MS
      if 0 < hops ∧ node.dataSendCache.exists_ (some (I.foundKey src)) ms = false then
        -- `hops--` hands on the value that `hops` had
        (broadcastSimpleMessage .FOUND_MOBILE_SINK hops).map
          ({ node with dataSendCache := node.dataSendCache.put (some (I.foundKey src)) (ms+1000) },·)
      else some (node,[])
  else some (node,[])

def processFoundMobileSink (simTime : ℕ) (src : A) (hops : ℤ) (node : MamNodeApp A K) :
    Result A K :=
  let node := (node.setRoute simTime src hops).sendMyDataToSink simTime
  if node.lowPowerNodes.isEmpty then node.relayFound I simTime src hops
  else if node.friendNode then node.pushDummies.relayFound I simTime src hops
  else none

def processDisconnected (src : A) (node : MamNodeApp A K) : Result A K :=
  let node := if node.mobileSink = some src then { node with mobileSink := none } else node
  (if node.relayNode then broadcastSimpleMessage .DISCONNECTED_MOBILE_SINK 127 else some []).map
    (node.pushDummies,·)

def processDiscovery (simTime : ℕ) (src : A) (node : MamNodeApp A K) : Result A K :=
  let node := { node with
    mobileSink := some src, sinkHops := 128, sinkBestRouteExpiry := simTime+20000*SIMTIME_MS }
  (if node.relayNode then broadcastSimpleMessage .FOUND_MOBILE_SINK 127 else some []).map
    (node.pushDummies,·)

def processDataSend (simTime : ℕ) (src : A) (bmeshData : BMeshPacket K) (node : MamNodeApp A K) :
    Result A K :=
  if node.relayNode = false then some (node,[])
  else if node.mamRelay ∧ node.mobileSink = none then
    (sendSimpleMessage .DISCONNECTED_MOBILE_SINK (some src) 127).map (node,·)
  else
    let key := bmeshData.packetUuid
    let ms := simTime/SIMTIME_MS
    if node.dataSendCache.exists_ key ms then some (node,[])
    else some ({ node with dataSendCache := node.dataSendCache.put key (ms+1000) },
      [⟨if node.mamRelay then node.mobileSink else none,{ bmeshData with name := .DATA_SEND }⟩])

def sendFriendRequest (node : MamNodeApp A K) : Option (List (Sent A K)) :=
  if node.lowPowerNode ∧ node.friendNode = false then
    some [⟨none,{ name := .FRIEND_REQUEST }⟩]
  else none

def sendFriendEstablishedInternalMessage (node : MamNodeApp A K) : Option (List (Sent A K)) :=
  if node.lowPowerNode ∧ node.friendNode = false then some [⟨none,{ name := .other }⟩] else none

def sendFriendPoll (node : MamNodeApp A K) : Option (List (Sent A K)) :=
  if node.lowPowerNode ∧ node.friendNode = false ∧ node.connectedFriendNode.isSome then
    some [⟨node.connectedFriendNode,{ name := .FRIEND_POLL }⟩]
  else none

def processFriendRequest (src : A) (node : MamNodeApp A K) : Result A K :=
  (if node.friendNode then sendSimpleMessage .FRIEND_OFFER (some src) 127 else some []).map (node,·)

def processFriendOffer (src : A) (node : MamNodeApp A K) : Result A K :=
  if node.lowPowerNode = false then none
  else if node.connectedFriendNode = none then
    let node := { node with connectedFriendNode := some src }
    node.sendFriendPoll.map (node,·)
  else some (node,[])

/-- `auto q` is a copy of the queue: what is popped stays in the table. -/
def processFriendPoll (src : A) (node : MamNodeApp A K) : Result A K :=
  if node.friendNode = false then none
  else
    match node.lowPowerNodes.find? (·.1 = src) with
    | none =>
      (sendSimpleMessage .FRIEND_UPDATE (some src) 1).map
        ({ node with lowPowerNodes := (src,0)::node.lowPowerNodes },·)
    | some q =>
      if q.2 = 0 then some (node,[])
      else (sendSimpleMessage .FRIEND_UPDATE (some src) 1).map (node,·)

def processFriendUpdate (simTime : ℕ) (src : A) (node : MamNodeApp A K) : Result A K :=
  if node.lowPowerNode ∧ node.connectedFriendNode = some src then
    if node.friendshipEstablished = false then
      let node := { node with
        friendshipEstablished := true
        pollTimer := some ((simTime+pollIntervalMs*SIMTIME_MS)/SIMTIME_MS*SIMTIME_MS) }
      node.sendFriendEstablishedInternalMessage.bind fun sent =>
        node.sendFriendPoll.map fun poll => (node,sent++poll)
    else node.processFoundMobileSink I simTime src 20
  else none

/-- `handleMessageWhenUp` for a packet. -/
def handleMessage (simTime : ℕ) (src : A) (packet : BMeshPacket K) (node : MamNodeApp A K) :
    Result A K :=
  if I.isLoopback src then some (node,[])
  else
    match packet.name with
    | .FOUND_MOBILE_SINK => node.processFoundMobileSink I simTime src packet.hops
    | .DISCONNECTED_MOBILE_SINK => node.processDisconnected src
    | .MAMCDISCOVERY => node.processDiscovery simTime src
    | .DATA_SEND => node.processDataSend simTime src packet
    | .FRIEND_REQUEST => node.processFriendRequest src
    | .FRIEND_OFFER => node.processFriendOffer src
    | .FRIEND_POLL => node.processFriendPoll src
    | .FRIEND_UPDATE => node.processFriendUpdate I simTime src
    | .other => some (node,[])

def processStart (node : MamNodeApp A K) : Result A K :=
  let node := { node with selfMsg := none }
  if node.lowPowerNode then
    if node.connectedFriendNode = none then node.sendFriendRequest.map (node,·) else none
  else some (node,[])

def processSendMyData (simTime : ℕ) (uuid : K) (node : MamNodeApp A K) : Result A K :=
  let node := { node with selfMsg := none, scheduledSendData := false }
  if node.mamRelay = false ∨ node.mobileSink.isSome then
    let node := { node with dataSendSequence := node.dataSendSequence+1 }
    some ({ node with lastSensorDataSent := simTime },
      [⟨if node.mamRelay then node.mobileSink else none,
        { name := .DATA_SEND, packetUuid := some uuid, sequence := node.dataSendSequence }⟩])
  else some (node,[])

/-- `handleMessageWhenUp` for the self message that is due; `uuid` is what is drawn for it. -/
def handleSelfMsg (simTime : ℕ) (uuid : K) (node : MamNodeApp A K) : Result A K :=
  match node.selfMsg with
  | none => none
  | some (kind,due) =>
    if due ≤ simTime then
      match kind with
      | .START => node.processStart
      | .SEND_MY_DATA => node.processSendMyData simTime uuid
    else none

/-- `handleMessageWhenUp` for the poll timer. -/
def handlePollTimer (simTime : ℕ) (node : MamNodeApp A K) : Result A K :=
  match node.pollTimer with
  | none => none
  | some due =>
    if due ≤ simTime then
      node.sendFriendPoll.map
        ({ node with
          pollTimer := some ((simTime+pollIntervalMs*SIMTIME_MS)/SIMTIME_MS*SIMTIME_MS) },·)
    else none

end MamNodeApp

variable {n : ℕ}

/-- A packet on its way to one node. -/
structure Copy (n : ℕ) (A K : Type) where
  src : A
  dest : Fin n
  packet : BMeshPacket K
  wave : List ℤ

/-- The addresses of the nodes, and who hears whose broadcasts. -/
structure Topology (n : ℕ) (A : Type) where
  addr : Fin n → A
  range : Fin n → List (Fin n)

/-- `waves` has every FOUND_MOBILE_SINK that was sent, as its wave up to it. -/
structure Mesh (n : ℕ) (A K : Type) where
  nodes : Fin n → MamNodeApp A K
  simTime : ℕ := 0
  inFlight : List (Copy n A K) := []
  waves : List (List ℤ) := []

inductive Action (n : ℕ) (A K : Type)
  /-- A packet from outside, on its way to a node. -/
  | inject (src : A) (dest : Fin n) (packet : BMeshPacket K)
  | deliver (k : ℕ)
  | lose (k : ℕ)
  | selfMsg (i : Fin n) (uuid : K)
  | pollTimer (i : Fin n)
  | tick (d : ℕ)

/-- The hops values of the FOUND_MOBILE_SINK messages among what is sent. -/
def found (sent : List (Sent A K)) : List ℤ :=
  (sent.filter (·.packet.name = .FOUND_MOBILE_SINK)).map (·.packet.hops)

/-- A wave with one message more, if it is one of a wave. -/
def extend (wave : List ℤ) (packet : BMeshPacket K) : List ℤ :=
  if packet.name = .FOUND_MOBILE_SINK then wave++[packet.hops] else []

namespace Topology
variable [DecidableEq A] (N : Topology n A)

def receivers (i : Fin n) : Option A → List (Fin n)
  | none => N.range i
  | some a => (List.finRange n).filter (N.addr · = a)

def copies (i : Fin n) (wave : List ℤ) (m : Sent A K) : List (Copy n A K) :=
  (N.receivers i m.dest).map (⟨N.addr i,·,m.packet,extend wave m.packet⟩)

end Topology

namespace Mesh
variable [DecidableEq A] [DecidableEq K] (I : Addresses A K) (N : Topology n A)

/-- Node `i` has acted on a message of the wave. -/
def acted (s : Mesh n A K) (i : Fin n) (wave : List ℤ) (node : MamNodeApp A K)
    (sent : List (Sent A K)) : Mesh n A K :=
  { s with
    nodes := Function.update s.nodes i node
    inFlight := s.inFlight++sent.flatMap (N.copies i wave)
    waves := s.waves++(found sent).map (wave++[·]) }

def step (s : Mesh n A K) : Action n A K → Option (Mesh n A K)
  | .inject src dest packet =>
    if packet.hops < 0 then none
    else some { s with
      inFlight := s.inFlight++[⟨src,dest,packet,extend [] packet⟩]
      waves := s.waves++if packet.name = .FOUND_MOBILE_SINK then [[packet.hops]] else [] }
  | .deliver k => s.inFlight[k]?.bind fun c =>
    ((s.nodes c.dest).handleMessage I s.simTime c.src c.packet).map fun r =>
      { s with inFlight := s.inFlight.eraseIdx k }.acted N c.dest c.wave r.1 r.2
  | .lose k => some { s with inFlight := s.inFlight.eraseIdx k }
  | .selfMsg i uuid =>
    ((s.nodes i).handleSelfMsg s.simTime uuid).map fun r => s.acted N i [] r.1 r.2
  | .pollTimer i => ((s.nodes i).handlePollTimer s.simTime).map fun r => s.acted N i [] r.1 r.2
  | .tick d => some { s with simTime := s.simTime+d }

end Mesh

/-- The mesh with its nodes as they are set up. -/
def mesh [DecidableEq A] [DecidableEq K] (I : Addresses A K) (N : Topology n A)
    (nodes : Fin n → MamNodeApp A K) : TransitionSystem (Mesh n A K) (Action n A K) where
  init := { nodes := nodes }
  step := Mesh.step I N

/-- What a wave is to be: every relay carries less than what came, nothing is relayed at zero, and
there are no more relays than the first value says. -/
structure Bounded (wave : List ℤ) : Prop where
  decreases : wave.IsChain (· > ·)
  drops : ∀ hops ∈ wave.dropLast, 0 < hops
  length : (wave.length : ℤ) ≤ wave.headD 0+1

section Relays
variable [DecidableEq K] (I : Addresses A K)

/-- The relay test of `processFoundMobileSink`, for a message that is not one's own. -/
def MamNodeApp.willRelay (simTime : ℕ) (src : A) (hops : ℤ) (node : MamNodeApp A K) : Bool :=
  !I.isLoopback src && node.relayNode && decide (0 < hops) &&
    !node.dataSendCache.exists_ (some (I.foundKey src)) (simTime/SIMTIME_MS)

/-- The step delivers a FOUND_MOBILE_SINK to a node that relays it. -/
def Mesh.relays (s : Mesh n A K) : Action n A K → Bool
  | .deliver k => s.inFlight[k]?.any fun c => decide (c.packet.name = .FOUND_MOBILE_SINK) &&
    (s.nodes c.dest).willRelay I s.simTime c.src c.packet.hops
  | _ => false

end Relays

end PucRio.Mam
