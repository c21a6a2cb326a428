import PucRio.Lib.TransitionSystem
import PucRio.Mam.Network
import Mathlib.Data.List.Basic

/-! What a friend node keeps for its low power nodes, with the notifications in each queue told apart
by number. A poll is answered with the first of them, which stays in the queue. -/
namespace PucRio.Mam
variable {A K : Type}

inductive QueueOp (A : Type)
  | push
  | poll (src : A)
  | nothing

/-- The answer to a poll of a friend whose queue is not empty: the notification at its front, and the
length of the queue before and after. -/
structure Answer (A : Type) where
  friend : A
  notification : ℕ
  before : ℕ
  after : ℕ
  deriving DecidableEq, Repr

/-- `queued` numbers the notifications; all friends are told of each. -/
structure Friend (A K : Type) where
  node : MamNodeApp A K
  queues : List (A × List ℕ) := []
  queued : ℕ := 0
  answered : List (Answer A) := []

inductive Event (A K : Type)
  | message (simTime : ℕ) (src : A) (packet : BMeshPacket K)
  | selfMsg (simTime : ℕ) (uuid : K)
  | pollTimer (simTime : ℕ)

section Queues
variable [DecidableEq A]

/-- What the handler of a packet does to the queues. -/
def MamNodeApp.queueOp (I : Addresses A K) (src : A) (packet : BMeshPacket K)
    (node : MamNodeApp A K) : QueueOp A :=
  if I.isLoopback src then .nothing
  else
    match packet.name with
    | .FOUND_MOBILE_SINK => .push
    | .DISCONNECTED_MOBILE_SINK => .push
    | .MAMCDISCOVERY => .push
    | .FRIEND_UPDATE => if node.friendshipEstablished then .push else .nothing
    | .FRIEND_POLL => .poll src
    | _ => .nothing

/-- The first poll of a friend makes its queue. A later one pops its copy of the queue. -/
def QueueOp.queues (op : QueueOp A) (queued : ℕ) (queues : List (A × List ℕ)) :
    List (A × List ℕ) :=
  match op with
  | .push => queues.map fun q => (q.1,q.2++[queued])
  | .poll src => (queues.find? (·.1 = src)).elim ((src,[])::queues) fun _ => queues
  | .nothing => queues

def QueueOp.queued (op : QueueOp A) (queued : ℕ) : ℕ :=
  match op with
  | .push => queued+1
  | _ => queued

/-- The notification that a poll is answered with. -/
def QueueOp.front (op : QueueOp A) (queues : List (A × List ℕ)) : Option (A × ℕ) :=
  match op with
  | .poll src => (queues.find? (·.1 = src)).bind fun q => q.2.head?.map (src,·)
  | _ => none

def MamNodeApp.queueLength (node : MamNodeApp A K) (friend : A) : ℕ :=
  (node.lowPowerNodes.find? (·.1 = friend)).elim 0 (·.2)

/-- After an operation that leaves the given node. -/
def Friend.after (s : Friend A K) (op : QueueOp A) (node : MamNodeApp A K) : Friend A K where
  node := node
  queues := op.queues s.queued s.queues
  queued := op.queued s.queued
  answered := s.answered++(op.front s.queues).elim [] fun front =>
    [⟨front.1,front.2,s.node.queueLength front.1,node.queueLength front.1⟩]

/-- A node with no friends yet, and whatever comes. -/
def friendQueues [DecidableEq K] (I : Addresses A K) (node : MamNodeApp A K) :
    TransitionSystem (Friend A K) (Event A K) where
  init := { node := { node with lowPowerNodes := [] } }
  step s
    | .message simTime src packet => (s.node.handleMessage I simTime src packet).map fun r =>
      s.after (s.node.queueOp I src packet) r.1
    | .selfMsg simTime uuid => (s.node.handleSelfMsg simTime uuid).map fun r => s.after .nothing r.1
    | .pollTimer simTime => (s.node.handlePollTimer simTime).map fun r => s.after .nothing r.1

/-- No notification is sent to a friend twice, those for one friend come in their order, and each
answer has made the queue shorter by one. -/
structure Drains (s : Friend A K) : Prop where
  once : (s.answered.map fun r => (r.friend,r.notification)).Nodup
  inOrder : ∀ friend, ((s.answered.filter (·.friend = friend)).map (·.notification)).Pairwise (· < ·)
  shorter : ∀ r ∈ s.answered, r.after+1 = r.before

/-- No poll finds a notification in the queue. -/
def NothingQueued (I : Addresses A K) (s : Friend A K) : Event A K → Prop
  | .message _ src packet => packet.name = .FRIEND_POLL → I.isLoopback src = false →
      s.node.queueLength src = 0
  | _ => True

end Queues

section Handlers
variable {node : MamNodeApp A K} {l : List (A × ℕ)}

/-- The queues that a handler leaves have the given lengths. -/
def Leaves (l : List (A × ℕ)) (r : MamNodeApp.Result A K) : Prop :=
  ∀ node' sent, r = some (node',sent) → node'.lowPowerNodes = l

theorem Leaves.none : Leaves l (none : MamNodeApp.Result A K) := by
  intro _ _ h
  cases h

theorem Leaves.some {sent : List (Sent A K)} (h : node.lowPowerNodes = l) :
    Leaves l (some (node,sent)) := by
  intro _ _ hr
  obtain ⟨rfl,-⟩ := Prod.mk.inj (Option.some.inj hr)
  exact h

theorem Leaves.map {sent : Option (List (Sent A K))} (h : node.lowPowerNodes = l) :
    Leaves l (sent.map (node,·)) := by
  cases sent with
  | none => exact .none
  | some sent => exact .some h

theorem Leaves.ite {p : Prop} [Decidable p] {r r' : MamNodeApp.Result A K} (h : Leaves l r)
    (h' : Leaves l r') : Leaves l (if p then r else r') := by
  split_ifs
  · exact h
  · exact h'

variable {simTime : ℕ} {src : A} {hops : ℤ}

@[simp] theorem lowPowerNodes_sendMyDataToSink :
    (node.sendMyDataToSink simTime).lowPowerNodes = node.lowPowerNodes := by
  unfold MamNodeApp.sendMyDataToSink
  split_ifs <;> rfl

@[simp] theorem lowPowerNodes_setRoute :
    (node.setRoute simTime src hops).lowPowerNodes = node.lowPowerNodes := by
  unfold MamNodeApp.setRoute
  split_ifs <;> rfl

theorem leaves_processDiscovery :
    Leaves node.pushDummies.lowPowerNodes (node.processDiscovery simTime src) := by
  unfold MamNodeApp.processDiscovery
  exact .map rfl

theorem leaves_processDisconnected [DecidableEq A] :
    Leaves node.pushDummies.lowPowerNodes (node.processDisconnected src) := by
  unfold MamNodeApp.processDisconnected
  refine .map ?_
  split_ifs <;> rfl

theorem leaves_processFriendOffer : Leaves node.lowPowerNodes (node.processFriendOffer src) := by
  unfold MamNodeApp.processFriendOffer
  exact .ite .none (.ite (.map rfl) (.some rfl))

theorem leaves_handleSelfMsg {uuid : K} :
    Leaves node.lowPowerNodes (node.handleSelfMsg simTime uuid) := by
  unfold MamNodeApp.handleSelfMsg
  split
  · exact .none
  · refine .ite ?_ .none
    split
    · unfold MamNodeApp.processStart
      exact .ite (.ite (.map rfl) .none) (.some rfl)
    · unfold MamNodeApp.processSendMyData
      exact .ite (.some rfl) (.some rfl)

theorem leaves_handlePollTimer : Leaves node.lowPowerNodes (node.handlePollTimer simTime) := by
  unfold MamNodeApp.handlePollTimer
  split
  · exact .none
  · exact .ite (.map rfl) .none

variable [DecidableEq K] {I : Addresses A K}

theorem leaves_processDataSend {packet : BMeshPacket K} :
    Leaves node.lowPowerNodes (node.processDataSend simTime src packet) := by
  unfold MamNodeApp.processDataSend
  exact .ite (.some rfl) (.ite (.map rfl) (.ite (.some rfl) (.some rfl)))

theorem leaves_relayFound (h : node.lowPowerNodes = l) :
    Leaves l (node.relayFound I simTime src hops) := by
  unfold MamNodeApp.relayFound
  exact .ite (.ite (.ite (.map h) (.some h)) (.ite (.map h) (.some h))) (.some h)

theorem leaves_processFoundMobileSink : Leaves node.pushDummies.lowPowerNodes
    (node.processFoundMobileSink I simTime src hops) := by
  unfold MamNodeApp.processFoundMobileSink
  dsimp only
  split_ifs with hempty hfriend
  · refine leaves_relayFound ?_
    rw [lowPowerNodes_sendMyDataToSink,lowPowerNodes_setRoute] at hempty ⊢
    rw [MamNodeApp.pushDummies,List.isEmpty_iff.mp hempty]
    rfl
  · refine leaves_relayFound ?_
    simp [MamNodeApp.pushDummies]
  · exact .none

variable [DecidableEq A]

theorem leaves_processFriendUpdate : Leaves
    (if node.friendshipEstablished then node.pushDummies.lowPowerNodes else node.lowPowerNodes)
    (node.processFriendUpdate I simTime src) := by
  unfold MamNodeApp.processFriendUpdate
  refine .ite ?_ .none
  cases node.friendshipEstablished with
  | true => exact leaves_processFoundMobileSink
  | false =>
    intro node' sent h
    obtain ⟨est,-,hpoll⟩ := Option.bind_eq_some_iff.mp h
    obtain ⟨poll,-,heq⟩ := Option.map_eq_some_iff.mp hpoll
    obtain ⟨rfl,-⟩ := Prod.mk.inj heq
    rfl

end Handlers

section Lengths
variable {node : MamNodeApp A K} {queues : List (A × List ℕ)} {queued : ℕ} {src : A}

/-- The queues as the node has them. -/
def lengths (queues : List (A × List ℕ)) : List (A × ℕ) := queues.map fun q => (q.1,q.2.length)

theorem lengths_push (h : node.lowPowerNodes = lengths queues) :
    node.pushDummies.lowPowerNodes = lengths (queues.map fun q => (q.1,q.2++[queued])) := by
  simp [MamNodeApp.pushDummies,h,lengths]

variable [DecidableEq A]

theorem find?_lengths : (lengths queues).find? (·.1 = src) =
    (queues.find? (·.1 = src)).map fun q => (q.1,q.2.length) := by
  rw [lengths,List.find?_map]
  rfl

theorem leaves_processFriendPoll (h : node.lowPowerNodes = lengths queues) :
    Leaves (lengths ((QueueOp.poll src).queues queued queues)) (node.processFriendPoll src) := by
  unfold MamNodeApp.processFriendPoll
  refine .ite .none ?_
  rw [h,find?_lengths,QueueOp.queues]
  cases queues.find? (·.1 = src) with
  | none => exact .map rfl
  | some q => exact .ite (.some h) (.map h)

theorem leaves_handleMessage [DecidableEq K] {I : Addresses A K} {simTime : ℕ}
    {packet : BMeshPacket K} (h : node.lowPowerNodes = lengths queues) :
    Leaves (lengths ((node.queueOp I src packet).queues queued queues))
      (node.handleMessage I simTime src packet) := by
  unfold MamNodeApp.queueOp MamNodeApp.handleMessage
  by_cases hloop : I.isLoopback src = true
  · rw [if_pos hloop,if_pos hloop]
    exact .some h
  · rw [if_neg hloop,if_neg hloop]
    cases packet.name with
    | FOUND_MOBILE_SINK => exact lengths_push h ▸ leaves_processFoundMobileSink
    | DISCONNECTED_MOBILE_SINK => exact lengths_push h ▸ leaves_processDisconnected
    | MAMCDISCOVERY => exact lengths_push h ▸ leaves_processDiscovery
    | DATA_SEND => exact h ▸ leaves_processDataSend
    | FRIEND_REQUEST => exact .map h
    | FRIEND_OFFER => exact h ▸ leaves_processFriendOffer
    | FRIEND_POLL => exact leaves_processFriendPoll h
    | FRIEND_UPDATE =>
      have hupdate : Leaves (if node.friendshipEstablished then node.pushDummies.lowPowerNodes
          else node.lowPowerNodes) (node.processFriendUpdate I simTime src) :=
        leaves_processFriendUpdate
      dsimp only
      split_ifs at hupdate ⊢
      · exact lengths_push h ▸ hupdate
      · exact h ▸ hupdate
    | other => exact .some h

end Lengths

section Runs
variable {I : Addresses A K} {node : MamNodeApp A K} {queues : List (A × List ℕ)} {src : A}

theorem queueOp_of_poll {packet : BMeshPacket K} (hname : packet.name = .FRIEND_POLL)
    (hloop : I.isLoopback src = false) : node.queueOp I src packet = .poll src := by
  unfold MamNodeApp.queueOp
  rw [hloop,hname]
  rfl

variable [DecidableEq A]

/-- Nothing else that a node gets is a poll. -/
theorem front_queueOp {packet : BMeshPacket K}
    (h : ¬ (packet.name = .FRIEND_POLL ∧ I.isLoopback src = false)) :
    (node.queueOp I src packet).front queues = none := by
  unfold MamNodeApp.queueOp
  cases hloop : I.isLoopback src with
  | true => rfl
  | false =>
    cases hname : packet.name with
    | FRIEND_POLL => exact absurd ⟨hname,hloop⟩ h
    | FRIEND_UPDATE => cases node.friendshipEstablished <;> rfl
    | _ => rfl

/-- A friend has something in its queue or there is nothing to answer with. -/
theorem front_poll (src : A) (h : node.lowPowerNodes = lengths queues) :
    (node.queueLength src = 0 ∧ (QueueOp.poll src).front queues = none) ∨
      (node.queueLength src ≠ 0 ∧ ∃ k, (QueueOp.poll src).front queues = some (src,k)) := by
  rw [MamNodeApp.queueLength,h,find?_lengths,QueueOp.front]
  cases queues.find? (·.1 = src) with
  | none => exact .inl ⟨rfl,rfl⟩
  | some q =>
    obtain ⟨a,l⟩ := q
    cases l with
    | nil => exact .inl ⟨rfl,rfl⟩
    | cons k l => exact .inr ⟨Nat.succ_ne_zero _,k,rfl⟩

theorem processFriendPoll_eq {r : MamNodeApp A K × List (Sent A K)}
    (h : node.processFriendPoll src = some r) (hlength : node.queueLength src ≠ 0) :
    r.1 = node := by
  unfold MamNodeApp.processFriendPoll at h
  rw [MamNodeApp.queueLength] at hlength
  split_ifs at h
  split at h
  · rename_i hnone
    rw [hnone] at hlength
    exact absurd rfl hlength
  · split_ifs at h
    · exact congrArg Prod.fst (Option.some.inj h).symm
    · obtain ⟨sent,-,rfl⟩ := Option.map_eq_some_iff.mp h
      rfl

/-- The queues are as the node has them, and nothing has been sent from them. -/
structure Undelivered (s : Friend A K) : Prop where
  lengths_eq : s.node.lowPowerNodes = lengths s.queues
  answered : s.answered = []

theorem Undelivered.drains {s : Friend A K} (h : Undelivered s) : Drains s := by
  constructor
  · rw [h.answered]
    exact List.nodup_nil
  · intro friend
    rw [h.answered]
    exact List.Pairwise.nil
  · rw [h.answered]
    exact fun _ hr => absurd hr List.not_mem_nil

/-- An operation that answers no poll. -/
theorem Undelivered.after {s : Friend A K} (h : Undelivered s) {op : QueueOp A}
    (hlengths : node.lowPowerNodes = lengths (op.queues s.queued s.queues))
    (hfront : op.front s.queues = none) : Undelivered (s.after op node) := by
  refine ⟨hlengths,?_⟩
  rw [Friend.after,h.answered,hfront]
  rfl

variable [DecidableEq K]

theorem Undelivered.step {start : MamNodeApp A K} {s t : Friend A K} {e : Event A K}
    (h : Undelivered s) (hquiet : NothingQueued I s e)
    (ht : (friendQueues I start).step s e = some t) : Undelivered t := by
  cases e with
  | message simTime src packet =>
    obtain ⟨r,hr,rfl⟩ := Option.map_eq_some_iff.mp ht
    refine h.after (leaves_handleMessage h.lengths_eq r.1 r.2 hr) ?_
    by_cases hpoll : packet.name = .FRIEND_POLL ∧ I.isLoopback src = false
    · rw [queueOp_of_poll hpoll.1 hpoll.2]
      obtain ⟨-,hfront⟩ | ⟨hne,-⟩ := front_poll src h.lengths_eq
      · exact hfront
      · exact absurd (hquiet hpoll.1 hpoll.2) hne
    · exact front_queueOp hpoll
  | selfMsg simTime uuid =>
    obtain ⟨r,hr,rfl⟩ := Option.map_eq_some_iff.mp ht
    exact h.after ((leaves_handleSelfMsg r.1 r.2 hr).trans h.lengths_eq) rfl
  | pollTimer simTime =>
    obtain ⟨r,hr,rfl⟩ := Option.map_eq_some_iff.mp ht
    exact h.after ((leaves_handlePollTimer r.1 r.2 hr).trans h.lengths_eq) rfl

/-- An answer leaves the queue as long as it was. -/
theorem Undelivered.not_drains {start : MamNodeApp A K} {s t : Friend A K} {e : Event A K}
    (h : Undelivered s) (hpoll : ¬ NothingQueued I s e)
    (ht : (friendQueues I start).step s e = some t) : ¬ Drains t := by
  cases e with
  | message simTime src packet =>
    obtain ⟨r,hr,rfl⟩ := Option.map_eq_some_iff.mp ht
    obtain ⟨hname,hpoll⟩ := Classical.not_imp.mp hpoll
    obtain ⟨hloop,hne⟩ := Classical.not_imp.mp hpoll
    have hnode : r.1 = s.node := by
      refine processFriendPoll_eq ?_ hne
      rw [← hr]
      unfold MamNodeApp.handleMessage
      rw [hloop,hname]
      rfl
    obtain ⟨hzero,-⟩ | ⟨-,k,hfront⟩ := front_poll src h.lengths_eq
    · exact absurd hzero hne
    · intro hdrains
      have hshorter := hdrains.shorter ⟨src,k,s.node.queueLength src,r.1.queueLength src⟩ (by
        rw [Friend.after,queueOp_of_poll hname hloop,hfront,h.answered]
        exact List.mem_singleton_self _)
      rw [hnode] at hshorter
      exact absurd hshorter (Nat.succ_ne_self _)
  | selfMsg simTime uuid => exact absurd trivial hpoll
  | pollTimer simTime => exact absurd trivial hpoll

/-- The queues drain along a run exactly as long as no poll of a friend finds a notification in its
queue. -/
theorem drains_iff {start : MamNodeApp A K} {l : List (Event A K)} {u : Friend A K}
    (h : (friendQueues I start).exec (friendQueues I start).init l = some u) :
    (∀ k t, (friendQueues I start).exec (friendQueues I start).init (l.take k) = some t → Drains t) ↔
      ∀ k e t, l[k]? = some e →
        (friendQueues I start).exec (friendQueues I start).init (l.take k) = some t →
        NothingQueued I t e :=
  TransitionSystem.exec_take_iff_of_exec (I := Undelivered) (fun _ hs => hs.drains)
    (fun _ _ _ hs hg ht => hs.step hg ht) (fun _ _ _ hs hg ht => hs.not_drains hg ht)
    ⟨rfl,rfl⟩ h

end Runs

section Examples

/-- Addresses by number; 0 is the loopback. -/
def numbered : Addresses ℕ ℕ := ⟨id,(· == 0)⟩

def friendOnly : MamNodeApp ℕ ℕ :=
  { relayNode := false, mamRelay := true, friendNode := true, lowPowerNode := false }

/-- A friend is told twice of a sink, and never polls for it. -/
theorem drains_iff_unpolled :
    (∀ k t, (friendQueues numbered friendOnly).exec (friendQueues numbered friendOnly).init
        ([.message 0 7 { name := .FRIEND_POLL },.message 0 8 { name := .MAMCDISCOVERY },
          .message 0 8 { name := .MAMCDISCOVERY }].take k) = some t → Drains t) ↔
      ∀ k e t, [.message 0 7 { name := .FRIEND_POLL },.message 0 8 { name := .MAMCDISCOVERY },
          .message 0 8 { name := .MAMCDISCOVERY }][k]? = some e →
        (friendQueues numbered friendOnly).exec (friendQueues numbered friendOnly).init
          ([.message 0 7 { name := .FRIEND_POLL },.message 0 8 { name := .MAMCDISCOVERY },
            .message 0 8 { name := .MAMCDISCOVERY }].take k) = some t →
        NothingQueued numbered t e :=
  drains_iff (u := _) rfl

/-- A friend is told of a sink and polls twice: it gets the same notification again, and the queue is
as long as before. -/
theorem not_drains_polled : ∃ x, (friendQueues numbered friendOnly).Reachable x ∧
    x.answered = [⟨7,0,1,1⟩,⟨7,0,1,1⟩] ∧ ¬ Drains x := by
  obtain ⟨x,hx,ha⟩ := TransitionSystem.exists_reachable_of_exec
    (T := friendQueues numbered friendOnly)
    (l := [.message 0 7 { name := .FRIEND_POLL },.message 0 8 { name := .MAMCDISCOVERY },
      .message 0 7 { name := .FRIEND_POLL },.message 0 7 { name := .FRIEND_POLL }])
    (p := fun x => x.answered = [⟨7,0,1,1⟩,⟨7,0,1,1⟩]) (by decide)
  replace ha := of_decide_eq_true ha
  refine ⟨x,hx,ha,fun h => ?_⟩
  have := h.once
  rw [ha] at this
  exact absurd this (by decide)

end Examples

end PucRio.Mam
