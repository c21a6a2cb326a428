import PucRio.Lib.Routes
import PucRio.Lib.TransitionSystem

/-! A node does something with an agent, a query or a response that arrives, and publishes messages.
A table by event names is a function, a field that is `nil` is `none`, and `random` stands for what
`math.random` returns. A message reaches a subscriber of its topic at any time, any number of times
or never, whether it is meant for it or not; a node skips those that it has seen lately. -/
namespace PucRio.RumorRouting
variable {ν ε : Type*}

def AGENT_TTL : ℕ := 8

def QUERY_TTL : ℤ := 8

structure AgentData (ν ε : Type*) where
  events : ε → Option (Route ν) := fun _ => none
  numHops : ℕ := 0
  visited : List ν := []

structure QueryData (ν ε : Type*) where
  q : ε
  ttl : Option ℤ := none
  visited : Option (List ν) := none

/-- `idx` counts from one, and `dest` is the field `to`. -/
structure ResponseData (ν ε : Type*) where
  finalNode : ν
  event : ε
  track : List ν
  visited : List ν
  idx : ℕ
  dest : ν
  ttl : ℤ

inductive Message (ν ε : Type*)
  | heartbeat
  | agent (dest : ν) (agentData : AgentData ν ε)
  | query (dest : Option ν) (queryData : QueryData ν ε)
  | queryResponse (data : ResponseData ν ε)

def Message.isAgent : Message ν ε → Bool
  | .agent .. => true
  | _ => false

/-- Every message has its own `data.id`. Only those of the keyboard are passed on with the old one. -/
inductive MessageId
  /-- The message published as number `i`. -/
  | published (i : ℕ)
  | controle (k : ℕ)
  deriving DecidableEq

structure Node (ν ε : Type*) where
  events : ε → Option (Route ν) := fun _ => none
  neighbors : List ν := []
  recentlySeenMessageIds : List MessageId := []

section Lru
variable {κ : Type*} [DecidableEq κ] {keys keys' : List κ} {key k : κ} {maxSize : ℕ}

/-- `get` of lru.lua. A cache is the list of its keys, the newest first; a key that is found becomes
the newest. -/
def lruGet (keys : List κ) (key : κ) : Option (List κ) :=
  if key ∈ keys then some (key::keys.erase key) else none

/-- `set` of lru.lua: the oldest keys make room. -/
def lruSet (maxSize : ℕ) (keys : List κ) (key : κ) : List κ :=
  key::(keys.erase key).take (maxSize-1)

theorem mem_of_lruGet (h : lruGet keys key = some keys') (hk : k ∈ keys') : k ∈ keys := by
  unfold lruGet at h
  split_ifs at h with hkey
  cases h
  obtain rfl | hk := List.mem_cons.mp hk
  · exact hkey
  · exact List.mem_of_mem_erase hk

theorem mem_of_lruSet (hk : k ∈ lruSet maxSize keys key) : k = key ∨ k ∈ keys :=
  (List.mem_cons.mp hk).imp_right fun hk => List.mem_of_mem_erase (List.mem_of_mem_take hk)

end Lru

/-- `ttl` is that of the data as it is handed over; nothing is published below zero. -/
def publish (ttl : Option ℤ) (message : ℤ → Message ν ε) : List (Message ν ε) :=
  match ttl with
  | none => [message 10]
  | some ttl => if ttl-1 < 0 then [] else [message (ttl-1)]

/-- Nothing is published without a destination. -/
def forward (destination : Option ν) (ttl : Option ℤ) (message : ν → ℤ → Message ν ε) :
    List (Message ν ε) :=
  match destination with
  | none => []
  | some destination => publish ttl (message destination)

theorem exists_of_publish {ttl : Option ℤ} {message : ℤ → Message ν ε} {m : Message ν ε}
    (hm : m ∈ publish ttl message) : ∃ t, m = message t := by
  unfold publish at hm
  split at hm
  · exact ⟨_,List.mem_singleton.mp hm⟩
  · split at hm
    · cases hm
    · exact ⟨_,List.mem_singleton.mp hm⟩

theorem exists_of_forward {destination : Option ν} {ttl : Option ℤ}
    {message : ν → ℤ → Message ν ε} {m : Message ν ε}
    (hm : m ∈ forward destination ttl message) : ∃ v t, m = message v t := by
  cases destination with
  | none => cases hm
  | some v => exact ⟨v,exists_of_publish hm⟩

section Tables
variable {topicName source : ν} {node : Node ν ε} {agentData : AgentData ν ε} {k : ε} {r : Route ν}

/-- The agent's table, one hop on. -/
def AgentData.advanced (agentData : AgentData ν ε) (k : ε) : Option (Route ν) :=
  (agentData.events k).map fun e => { e with distance := e.distance+1 }

/-- The node's table after the first loop of `processAgent`. -/
def Node.learn (node : Node ν ε) (agentData : AgentData ν ε) (source : ν) (k : ε) :
    Option (Route ν) :=
  match agentData.advanced k,node.events k with
  | none,own => own
  | some e,none => some ⟨e.distance,some source⟩
  | some e,some own =>
    if own.distance < 0 ∨ e.distance < own.distance then some ⟨e.distance,some source⟩ else some own

/-- The agent's table after the second loop of `processAgent`. -/
def Node.teach (node : Node ν ε) (agentData : AgentData ν ε) (topicName : ν) (k : ε) :
    Option (Route ν) :=
  match node.events k,agentData.advanced k with
  | none,carried => carried
  | some e,none => some ⟨e.distance+1,some topicName⟩
  | some e,some carried =>
    if e.distance < carried.distance then some ⟨e.distance+1,some topicName⟩ else some carried

/-- At each event the node keeps its entry, or takes a nearer one from the agent. -/
theorem Node.learn_cases (node : Node ν ε) (agentData : AgentData ν ε) (source : ν) (k : ε) :
    node.learn agentData source k = node.events k ∨ ∃ e, agentData.events k = some e ∧
      (∀ own, node.events k = some own → own.distance < 0 ∨ e.distance+1 < own.distance) ∧
      node.learn agentData source k = some ⟨e.distance+1,some source⟩ := by
  unfold Node.learn AgentData.advanced
  cases ha : agentData.events k with
  | none => exact .inl rfl
  | some e =>
    cases hn : node.events k with
    | none =>
      refine .inr ⟨e,rfl,fun own ho => ?_,rfl⟩
      cases ho
    | some own =>
      simp only [Option.map_some]
      split_ifs with h
      · refine .inr ⟨e,rfl,fun _ ho => ?_,rfl⟩
        cases ho
        exact h
      · exact .inl rfl

theorem Node.exists_learn {e : Route ν} (hnode : ∀ own, node.events k = some own → 0 ≤ own.distance)
    (ha : agentData.advanced k = some e) :
    ∃ own, node.learn agentData source k = some own ∧ own.distance ≤ e.distance := by
  unfold Node.learn
  rw [ha]
  cases hn : node.events k with
  | none => exact ⟨_,rfl,Int.le_refl _⟩
  | some own =>
    have := hnode own hn
    simp only
    split_ifs with h
    · exact ⟨_,rfl,Int.le_refl _⟩
    · exact ⟨own,rfl,by omega⟩

/-- What the agent carries away is no nearer than what the node knows. -/
theorem Node.exists_of_teach (hle : ∀ e, agentData.advanced k = some e →
      ∃ own, node.events k = some own ∧ own.distance ≤ e.distance)
    (h : node.teach agentData topicName k = some r) :
    ∃ own, node.events k = some own ∧ own.distance ≤ r.distance := by
  cases hn : node.events k with
  | none =>
    simp only [Node.teach,hn] at h
    obtain ⟨own,ho,-⟩ := hle r h
    rw [hn] at ho
    cases ho
  | some own =>
    refine ⟨own,rfl,?_⟩
    cases ha : agentData.advanced k with
    | none =>
      simp only [Node.teach,hn,ha,Option.some.injEq] at h
      subst h
      exact (Int.lt_add_one_iff.mpr le_rfl).le
    | some e =>
      obtain ⟨own',ho,hoe⟩ := hle e ha
      rw [hn] at ho
      cases ho
      simp only [Node.teach,hn,ha] at h
      split_ifs at h with hlt
      · cases h
        exact (Int.lt_add_one_iff.mpr le_rfl).le
      · cases h
        exact hoe

end Tables

section Seen
variable {node : Node ν ε} {id : MessageId}
  {process : Node ν ε → Node ν ε × List (Message ν ε)}

def Node.remember (node : Node ν ε) (ids : List MessageId) : Node ν ε :=
  { node with recentlySeenMessageIds := ids }

/-- What `processMessageQueue` does with one message: only those not seen lately are processed. -/
def processMessageQueue (node : Node ν ε) (id : MessageId)
    (process : Node ν ε → Node ν ε × List (Message ν ε)) : Node ν ε × List (Message ν ε) :=
  match lruGet node.recentlySeenMessageIds id with
  | some ids => (node.remember ids,[])
  | none => process (node.remember (lruSet 1000 node.recentlySeenMessageIds id))

/-- The message is skipped or processed, and of the ids seen only its own may be new. -/
theorem processMessageQueue_cases (node : Node ν ε) (id : MessageId)
    (process : Node ν ε → Node ν ε × List (Message ν ε)) :
    ∃ ids, (∀ i ∈ ids, i = id ∨ i ∈ node.recentlySeenMessageIds) ∧
      (processMessageQueue node id process = (node.remember ids,[]) ∨
        processMessageQueue node id process = process (node.remember ids)) := by
  unfold processMessageQueue
  cases h : lruGet node.recentlySeenMessageIds id with
  | some ids => exact ⟨ids,fun i hi => .inr (mem_of_lruGet h hi),.inl rfl⟩
  | none => exact ⟨_,fun i hi => mem_of_lruSet hi,.inr rfl⟩

theorem processMessageQueue_unseen (h : id ∉ node.recentlySeenMessageIds) :
    processMessageQueue node id process =
      process (node.remember (lruSet 1000 node.recentlySeenMessageIds id)) := by
  rw [processMessageQueue,lruGet,if_neg h]

end Seen

section Handlers
variable [DecidableEq ν]

/-- A member of `visited` is not entered twice. -/
def visit (topicName : ν) (visited : List ν) : List ν :=
  if topicName ∈ visited then visited else visited ++ [topicName]

def pickDestination (neighbors avoidList : List ν) (random : ℕ) : Option ν :=
  let unvisited := if avoidList.isEmpty then [] else neighbors.filter (· ∉ avoidList)
  let possibleDestinations := if unvisited.isEmpty then neighbors else unvisited
  possibleDestinations[random%possibleDestinations.length]?

def processAgent (topicName : ν) (node : Node ν ε) (agentData : AgentData ν ε) (source : ν)
    (overheard : Bool) (random : ℕ) : Node ν ε × List (Message ν ε) :=
  let visited := visit topicName agentData.visited
  let numHops := agentData.numHops+1
  let node := { node with events := node.learn agentData source }
  let events := node.teach agentData topicName
  (node,
    if numHops < AGENT_TTL ∧ overheard = false then
      forward (pickDestination node.neighbors visited random) none fun destination _ =>
        .agent destination ⟨events,numHops,visited⟩
    else [])

def handleValidQuery (topicName : ν) (q : ε) (visited : List ν) (source : ν) :
    List (Message ν ε) :=
  publish none fun ttl => .queryResponse ⟨topicName,q,visited,[],visited.length,source,ttl⟩

/-- The nodes visited, this one included; a new query starts with the node that asks. -/
def QueryData.entered (queryData : QueryData ν ε) (topicName source : ν) : List ν :=
  match queryData.visited with
  | none => [source,topicName]
  | some visited => visit topicName visited

def processQuery (topicName : ν) (node : Node ν ε) (queryData : QueryData ν ε) (source : ν)
    (random : ℕ) : List (Message ν ε) :=
  let ttl := queryData.ttl.getD QUERY_TTL-1
  let visited := queryData.entered topicName source
  let queryData := { queryData with ttl := some ttl, visited := some visited }
  let search := forward (pickDestination node.neighbors visited random) (some (ttl+1))
    fun destination _ => .query (some destination) queryData
  match node.events queryData.q with
  | none => search
  | some e =>
    if e.distance = 0 then handleValidQuery topicName queryData.q visited source
    else if 0 < e.distance then publish (some (ttl+1)) fun _ => .query e.direction queryData
    else search

/-- `bestIdx` is the first place on the track, up to `idx`, with a neighbor. -/
def processQueryResponse (topicName : ν) (node : Node ν ε) (data : ResponseData ν ε)
    (random : ℕ) : List (Message ν ε) :=
  if data.track.head? = some topicName then [] else
    let visited := visit topicName data.visited
    let bestIdx := match (data.track.take data.idx).findIdx? (· ∈ node.neighbors) with
      | none => data.idx
      | some i => i+1
    if bestIdx = data.idx then
      forward (pickDestination node.neighbors visited random) (some data.ttl) fun destination ttl =>
        .queryResponse { data with visited := visited, dest := destination, ttl := ttl }
    else forward data.track[bestIdx-1]? (some data.ttl) fun destination ttl =>
      .queryResponse { data with visited := visited, idx := bestIdx, dest := destination, ttl := ttl }

def processMessage (topicName : ν) (node : Node ν ε) (topic : ν) (random : ℕ) :
    Message ν ε → Node ν ε × List (Message ν ε)
  | .heartbeat => ({ node with neighbors := visit topic node.neighbors },[])
  | .agent dest agentData =>
    processAgent topicName node agentData topic (decide (dest ≠ topicName)) random
  | .query dest queryData =>
    (node,if dest = some topicName then processQuery topicName node queryData topic random else [])
  | .queryResponse data =>
    (node,if data.dest = topicName then processQueryResponse topicName node data random else [])

/-- The buttons `Evento 1` and `Evento 2`. -/
def evento [DecidableEq ε] (topicName : ν) (node : Node ν ε) (k : ε) (random : ℕ) :
    Node ν ε × List (Message ν ε) :=
  let node := { node with events := Function.update node.events k (some ⟨0,none⟩) }
  processAgent topicName node {} topicName false random

/-- The buttons `Consulta 1` and `Consulta 2`. -/
def consulta (node : Node ν ε) (k : ε) (random : ℕ) : List (Message ν ε) :=
  publish none fun _ => .query (pickDestination node.neighbors [] random) { q := k }

@[simp] theorem processMessage_recentlySeenMessageIds (topicName : ν) (node : Node ν ε) (topic : ν)
    (random : ℕ) (m : Message ν ε) : (processMessage topicName node topic random
      m).1.recentlySeenMessageIds = node.recentlySeenMessageIds := by
  cases m <;> rfl

section Agent
variable {topicName source : ν} {node : Node ν ε} {agentData : AgentData ν ε} {overheard : Bool}
  {random : ℕ}

@[simp] theorem processAgent_events (topicName : ν) (node : Node ν ε) (agentData : AgentData ν ε)
    (source : ν) (overheard : Bool) (random : ℕ) :
    (processAgent topicName node agentData source overheard random).1.events =
      node.learn agentData source := rfl

/-- An agent that is sent on has the table that it has been taught. -/
theorem events_of_sent {m : Message ν ε}
    (hm : m ∈ (processAgent topicName node agentData source overheard random).2) :
    ∃ dest sent, m = .agent dest sent ∧ sent.events =
      Node.teach { node with events := node.learn agentData source } agentData topicName := by
  unfold processAgent at hm
  dsimp only at hm
  split at hm
  · obtain ⟨dest,ttl,rfl⟩ := exists_of_forward hm
    exact ⟨dest,_,rfl,rfl⟩
  · cases hm

theorem distance_le_of_sent {dest : ν} {sent : AgentData ν ε} {k : ε} {e : Route ν}
    (hnode : ∀ own, node.events k = some own → 0 ≤ own.distance)
    (hm : .agent dest sent ∈ (processAgent topicName node agentData source overheard random).2)
    (he : sent.events k = some e) :
    ∃ own, (processAgent topicName node agentData source overheard random).1.events k = some own ∧
      own.distance ≤ e.distance := by
  obtain ⟨dest',sent',heq,hevents⟩ := events_of_sent hm
  cases heq
  rw [hevents] at he
  exact Node.exists_of_teach (fun e ha => Node.exists_learn hnode ha) he

section Query
variable {queryData : QueryData ν ε} {e : Route ν}

theorem processQuery_home (he : node.events queryData.q = some e) (h0 : e.distance = 0) :
    processQuery topicName node queryData source random =
      handleValidQuery topicName queryData.q (queryData.entered topicName source) source := by
  simp only [processQuery,he,if_pos h0]

theorem processQuery_onward (he : node.events queryData.q = some e) (hpos : 0 < e.distance)
    (httl : 0 < queryData.ttl.getD QUERY_TTL) :
    processQuery topicName node queryData source random = [.query e.direction { queryData with
      ttl := some (queryData.ttl.getD QUERY_TTL-1)
      visited := some (queryData.entered topicName source) }] := by
  have hlive : ¬ queryData.ttl.getD QUERY_TTL-1+1-1 < 0 := by omega
  simp only [processQuery,he,if_neg hpos.ne',if_pos hpos,publish,if_neg hlive]

end Query

theorem isAgent_processQuery {queryData : QueryData ν ε} {m : Message ν ε}
    (hm : m ∈ processQuery topicName node queryData source random) : m.isAgent = false := by
  unfold processQuery handleValidQuery at hm
  dsimp only at hm
  split at hm
  · obtain ⟨-,-,rfl⟩ := exists_of_forward hm
    rfl
  · split at hm
    · obtain ⟨-,rfl⟩ := exists_of_publish hm
      rfl
    · split at hm
      · obtain ⟨-,rfl⟩ := exists_of_publish hm
        rfl
      · obtain ⟨-,-,rfl⟩ := exists_of_forward hm
        rfl

theorem isAgent_processQueryResponse {data : ResponseData ν ε} {m : Message ν ε}
    (hm : m ∈ processQueryResponse topicName node data random) : m.isAgent = false := by
  unfold processQueryResponse at hm
  dsimp only at hm
  split_ifs at hm
  · cases hm
  · obtain ⟨-,-,rfl⟩ := exists_of_forward hm
    rfl
  · obtain ⟨-,-,rfl⟩ := exists_of_forward hm
    rfl

end Agent
end Handlers

/-- Who subscribes to whose topic: nobody to its own. -/
structure Topology (ν : Type*) where
  subscribes : ν → ν → Bool
  irrefl : ∀ x, subscribes x x = false

/-- The topics around a row and a column that `love.load` subscribes to. -/
def possibleNeighbors (row column : ℕ) : List (ℕ × ℕ) :=
  (if 1 ≤ row then [(row-1,column),(row-1,column+1)] else []) ++
    (if 1 ≤ column then [(row,column-1),(row+1,column-1)] else []) ++
    (if 1 ≤ row ∧ 1 ≤ column then [(row-1,column-1)] else []) ++
    [(row+1,column),(row,column+1),(row+1,column+1)]

theorem not_mem_possibleNeighbors (row column : ℕ) :
    (row,column) ∉ possibleNeighbors row column := by
  unfold possibleNeighbors
  intro h
  simp only [List.mem_append] at h
  rcases h with ((h | h) | h) | h
  · split_ifs at h
    · simp at h
      omega
    · simp at h
  · split_ifs at h
    · simp at h
      omega
    · simp at h
  · split_ifs at h
    · simp at h
      omega
    · simp at h
  · simp at h

/-- The repository's nodes, by row and column. -/
def grid : Topology (ℕ × ℕ) where
  subscribes x y := y ∈ possibleNeighbors x.1 x.2
  irrefl x := decide_eq_false (not_mem_possibleNeighbors x.1 x.2)

structure Network (ν ε : Type*) where
  nodes : ν → Node ν ε
  published : List (ν × Message ν ε)

inductive Action (ν ε : Type*)
  | evento (x : ν) (k : ε) (random : ℕ)
  | consulta (x : ν) (k : ε) (random : ℕ)
  | heartbeat (x : ν)
  /-- A message of the keyboard reaches `x`. -/
  | controle (x : ν) (k : ℕ)
  /-- The message published as number `i` reaches `x`. -/
  | receive (x : ν) (i random : ℕ)

namespace Network
variable [DecidableEq ν]

/-- Node `x` has acted: what it keeps and what it publishes. -/
def commit (s : Network ν ε) (x : ν) (r : Node ν ε × List (Message ν ε)) : Network ν ε where
  nodes := Function.update s.nodes x r.1
  published := s.published ++ r.2.map (x,·)

def step [DecidableEq ε] (topology : Topology ν) (s : Network ν ε) :
    Action ν ε → Option (Network ν ε)
  | .evento x k random => some (s.commit x (RumorRouting.evento x (s.nodes x) k random))
  | .consulta x k random =>
    some (s.commit x (s.nodes x,RumorRouting.consulta (s.nodes x) k random))
  | .heartbeat x => some (s.commit x (s.nodes x,publish none fun _ => .heartbeat))
  | .controle x k =>
    some (s.commit x (processMessageQueue (s.nodes x) (.controle k) fun node => (node,[])))
  | .receive x i random =>
    match s.published[i]? with
    | some (topic,m) =>
      if topology.subscribes x topic then
        some (s.commit x (processMessageQueue (s.nodes x) (.published i) fun node =>
          processMessage x node topic random m))
      else none
    | none => none

/-- The routes to one event. -/
def table (s : Network ν ε) (k : ε) (x : ν) : Option (Route ν) := (s.nodes x).events k

/-- The agents that anybody has published offer their distances. -/
def Offers (s : Network ν ε) (k : ε) (y : ν) (d : ℤ) : Prop :=
  ∃ dest agentData r, (y,.agent dest agentData) ∈ s.published ∧ agentData.events k = some r ∧
    r.distance = d

theorem table_commit (s : Network ν ε) (x : ν) (r : Node ν ε × List (Message ν ε)) (k : ε) :
    (s.commit x r).table k = Function.update (s.table k) x (r.1.events k) := by
  funext y
  unfold table commit
  by_cases h : y = x
  · subst h
    simp
  · simp [h]

theorem offers_commit {s : Network ν ε} {x y : ν} {r : Node ν ε × List (Message ν ε)} {k : ε}
    {d : ℤ} (h : (s.commit x r).Offers k y d) : s.Offers k y d ∨
      y = x ∧ ∃ dest agentData e, .agent dest agentData ∈ r.2 ∧ agentData.events k = some e ∧
        e.distance = d := by
  obtain ⟨dest,agentData,e,hm,he,hd⟩ := h
  rcases List.mem_append.mp hm with hm | hm
  · exact .inl ⟨dest,agentData,e,hm,he,hd⟩
  · obtain ⟨m,hm,heq⟩ := List.mem_map.mp hm
    cases heq
    exact .inr ⟨rfl,dest,agentData,e,hm,he,hd⟩

end Network

def rumorRouting [DecidableEq ν] [DecidableEq ε] (topology : Topology ν) :
    TransitionSystem (Network ν ε) (Action ν ε) where
  init := ⟨fun _ => {},[]⟩
  step := Network.step topology

section Runs
variable [DecidableEq ν] [DecidableEq ε] {topology : Topology ν} {s t : Network ν ε} {x : ν}

/-- A message of the keyboard only leaves its id. -/
theorem Network.controle_cases {k : ℕ}
    (h : (rumorRouting topology).step s (.controle x k) = some t) :
    ∃ ids, (∀ i, .published i ∈ ids → .published i ∈ (s.nodes x).recentlySeenMessageIds) ∧
      t = s.commit x ((s.nodes x).remember ids,[]) := by
  cases h
  obtain ⟨ids,hids,heq⟩ := processMessageQueue_cases (s.nodes x) (.controle k)
    fun node : Node ν ε => (node,[])
  refine ⟨ids,fun i hi => (hids _ hi).resolve_left (fun h => nomatch h),?_⟩
  obtain heq | heq := heq <;> rw [heq]

theorem Network.receive_cases {i random : ℕ}
    (h : (rumorRouting topology).step s (.receive x i random) = some t) :
    ∃ topic m ids, s.published[i]? = some (topic,m) ∧ topology.subscribes x topic = true ∧
      (∀ j ∈ ids, j = .published i ∨ j ∈ (s.nodes x).recentlySeenMessageIds) ∧
      (t = s.commit x ((s.nodes x).remember ids,[]) ∨
        t = s.commit x (processMessage x ((s.nodes x).remember ids) topic random m)) := by
  cases hi : s.published[i]? with
  | none => simp [rumorRouting,Network.step,hi] at h
  | some p =>
    obtain ⟨topic,m⟩ := p
    simp only [rumorRouting,Network.step,hi,Option.ite_none_right_eq_some,Option.some.injEq] at h
    obtain ⟨hsub,rfl⟩ := h
    obtain ⟨ids,hids,heq⟩ := processMessageQueue_cases (s.nodes x) (.published i)
      fun node => processMessage x node topic random m
    refine ⟨topic,m,ids,rfl,hsub,hids,?_⟩
    obtain heq | heq := heq <;> rw [heq]
    · exact .inl rfl
    · exact .inr rfl

end Runs
end PucRio.RumorRouting
