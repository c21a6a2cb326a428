import Mathlib.Data.Fintype.Basic
import Mathlib.Tactic.SplitIfs

/-! The handlers of `server.lua` as functions on the Lua globals of one server. A handler returns
the new globals and the RPC requests it sends, each with its destination port. Deadlines are not
part of the state: when a timer fires is up to the run. What handling one task can do to a server
is said once: leave its vote alone, step down, grant a vote, or count one. -/
namespace PucRio.Raft

/-- The strings that the global `state` takes. -/
inductive Role
  | follower
  | candidate
  | leader
  deriving DecidableEq, Repr

/-- The table sent by both reply paths; `none` is an absent field, which Lua reads as `nil`. -/
structure Response where
  term : ℕ
  voteGranted : Option Bool := none
  success : Option Bool := none
  deriving DecidableEq, Repr

/-- An entry of `taskQueue`: the handler's name with its decoded argument. -/
inductive Task (n : ℕ)
  | appendEntries (term : ℕ) (leaderId : Fin n)
  | replyAppendEntries (data : Response)
  | requestVote (term : ℕ) (candidateId : Fin n)
  | replyRequestVote (voteReply : Response)
  deriving DecidableEq, Repr

/-- The term of the message. -/
def Task.term {n : ℕ} : Task n → ℕ
  | .appendEntries term _ => term
  | .replyAppendEntries data => data.term
  | .requestVote term _ => term
  | .replyRequestVote voteReply => voteReply.term

/-- Tasks that carry neither a request for a vote nor a vote. -/
def Task.neutral {n : ℕ} : Task n → Bool
  | .requestVote _ _ => false
  | .replyRequestVote voteReply => voteReply.voteGranted ≠ some true
  | _ => true

/-- The globals of one server. `halted` holds once the main loop is gone, through `os.exit` or a
Lua error inside its coroutine. -/
structure Server (n : ℕ) where
  currentTerm : ℕ := 0
  initialized : Bool := false
  stopped : Bool := true
  votedFor : Option (Fin n) := none
  votes : ℕ := 0
  state : Role := .candidate
  halted : Bool := false
  taskQueue : List (Task n) := []
  toProcess : List (Task n) := []
  deriving Repr

abbrev Sent (n : ℕ) := List (Fin n × Task n)

/-- `math.ceil((#networkPorts + 1) / 2)`. -/
def majorityMinimum (n : ℕ) : ℕ := (n+1+1)/2

theorem lt_two_mul_majorityMinimum (n : ℕ) : n < 2*majorityMinimum n := by
  unfold majorityMinimum; omega

variable {n : ℕ}

/-- The ports that `pairs(others)` enumerates on the server at port `me`. -/
def others (me : Fin n) : List (Fin n) := (List.finRange n).filter (· ≠ me)

theorem mem_others {me p : Fin n} : p ∈ others me ↔ p ≠ me := by simp [others]

theorem nodup_others (me : Fin n) : (others me).Nodup := (List.nodup_finRange n).filter _

/-- `others[dest]` is `nil` on the server itself, and indexing `nil` ends the loop's coroutine. -/
def sendTo (me : Fin n) (s : Server n) (dest : Fin n) (task : Task n) : Server n × Sent n :=
  if dest = me then ({ s with halted := true },[]) else (s,[(dest,task)])

/-- Setting an election timeout as a leader is fatal. -/
def setElectionTimeout (s : Server n) : Server n :=
  if s.state ≠ .candidate ∧ s.state ≠ .follower then { s with halted := true } else s

def startElection (me : Fin n) (s : Server n) : Server n × Sent n :=
  let s := setElectionTimeout { s with
    state := .candidate
    votes := 0
    currentTerm := s.currentTerm+1
    votedFor := some me }
  (s,(others me).map (·,.requestVote s.currentTerm me))

def convertToFollower (s : Server n) : Server n :=
  setElectionTimeout { s with votedFor := none, votes := 0, state := .follower }

/-- `electionDue` and `heartbeatDue` say whether the clock is past the two deadlines. -/
def processTimers (me : Fin n) (electionDue heartbeatDue : Bool) (s : Server n) :
    Server n × Sent n :=
  let (s,election) := if (s.state = .candidate ∨ s.state = .follower) ∧ electionDue then
    startElection me s else (s,[])
  let heartbeats := if s.state = .leader ∧ heartbeatDue then
    (others me).map (·,.appendEntries s.currentTerm me) else []
  (s,election ++ heartbeats)

def processAppendEntries (me : Fin n) (s : Server n) (term : ℕ) (leaderId : Fin n) :
    Server n × Sent n :=
  if term < s.currentTerm then
    sendTo me s leaderId (.replyRequestVote { term := s.currentTerm, success := some false })
  else
    let s := if term > s.currentTerm then convertToFollower { s with currentTerm := term }
      else if s.state = .candidate then convertToFollower s
      else setElectionTimeout s
    -- `os.exit` in the heartbeat of a second leader leaves no time for the reply
    if s.halted then (s,[]) else
      sendTo me s leaderId (.replyRequestVote { term := s.currentTerm, success := some true })

def processReplyAppendEntries (s : Server n) (data : Response) : Server n × Sent n :=
  if data.term < s.currentTerm then (s,[])
  else if data.term > s.currentTerm then
    (convertToFollower { s with currentTerm := data.term },[])
  else (s,[])

/-- The grant is decided after the three-way comparison of terms, in all three of its cases. -/
def processRequestVote (me : Fin n) (s : Server n) (term : ℕ) (candidateId : Fin n) :
    Server n × Sent n :=
  let s := if term > s.currentTerm then convertToFollower { s with currentTerm := term } else s
  if s.votedFor = none ∨ s.votedFor = some candidateId then
    sendTo me { s with votedFor := some candidateId } candidateId
      (.replyRequestVote { term := s.currentTerm, voteGranted := some true })
  else
    sendTo me s candidateId
      (.replyRequestVote { term := s.currentTerm, voteGranted := some false })

def processReplyRequestVote (s : Server n) (voteReply : Response) : Server n × Sent n :=
  if voteReply.term < s.currentTerm then (s,[])
  else if s.state ≠ .candidate then (s,[])
  else if voteReply.term > s.currentTerm then
    (convertToFollower { s with currentTerm := voteReply.term },[])
  else
    let s := if voteReply.voteGranted = some true then { s with votes := s.votes+1 } else s
    if s.votes ≥ majorityMinimum n then ({ s with state := .leader },[]) else (s,[])

/-- The loop takes over the queue; while stopped it skips what it took. -/
def takeBatch (s : Server n) : Server n :=
  { s with toProcess := if s.stopped then [] else s.taskQueue, taskQueue := [] }

/-- The dispatch on `task.type` in the main loop. -/
def processTask (me : Fin n) (s : Server n) : Task n → Server n × Sent n
  | .appendEntries term leaderId => processAppendEntries me s term leaderId
  | .replyAppendEntries data => processReplyAppendEntries s data
  | .requestVote term candidateId => processRequestVote me s term candidateId
  | .replyRequestVote voteReply => processReplyRequestVote s voteReply

/-- Equal in what the handlers decide by: the queues and the switches of the loop may differ. -/
structure Server.SameVote (s s' : Server n) : Prop where
  currentTerm : s'.currentTerm = s.currentTerm
  votedFor : s'.votedFor = s.votedFor
  votes : s'.votes = s.votes
  state : s'.state = s.state

theorem Server.SameVote.rfl {s : Server n} : s.SameVote s := ⟨Eq.refl _,Eq.refl _,Eq.refl _,Eq.refl _⟩

theorem Server.SameVote.trans {s s' s'' : Server n} (h : s.SameVote s') (h' : s'.SameVote s'') :
    s.SameVote s'' :=
  ⟨h'.1.trans h.1,h'.2.trans h.2,h'.3.trans h.3,h'.4.trans h.4⟩

def Server.SameQueues (s s' : Server n) : Prop :=
  s'.toProcess = s.toProcess ∧ s'.taskQueue = s.taskQueue

/-- `convertToFollower`, in a new term or in the term of an election. -/
structure Server.StepsDown (s s' : Server n) : Prop where
  term : s.currentTerm < s'.currentTerm ∨ s'.currentTerm = s.currentTerm ∧ s.state = .candidate
  votedFor : s'.votedFor = none
  votes : s'.votes = 0
  state : s'.state = .follower

theorem Server.StepsDown.trans_same {s s' s'' : Server n} (h : s.StepsDown s')
    (h' : s'.SameVote s'') : s.StepsDown s'' :=
  ⟨by rw [h'.currentTerm]; exact h.term,h'.votedFor.trans h.votedFor,h'.votes.trans h.votes,
    h'.state.trans h.state⟩

/-- A candidate adds `k` votes and may find that they are a majority. -/
structure Server.Tallies (s s' : Server n) (k : ℕ) : Prop where
  candidate : s.state = .candidate
  currentTerm : s'.currentTerm = s.currentTerm
  votedFor : s'.votedFor = s.votedFor
  votes : s'.votes = s.votes+k
  state : s'.state = .candidate ∨ s'.state = .leader ∧ majorityMinimum n ≤ s'.votes

/-- A request of term `t` gets the vote of `s` for the candidate `k`. -/
structure Server.GrantsTo (s s' : Server n) (t : ℕ) (k : Fin n) : Prop where
  free : s.currentTerm < t ∨ s.votedFor = none ∨ s.votedFor = some k
  votedFor : s'.votedFor = some k
  newTerm : s.currentTerm < t → s'.currentTerm = t ∧ s'.votes = 0 ∧ s'.state = .follower
  oldTerm : t ≤ s.currentTerm →
    s'.currentTerm = s.currentTerm ∧ s'.votes = s.votes ∧ s'.state = s.state

theorem Server.GrantsTo.trans_same {s s' s'' : Server n} {t : ℕ} {k : Fin n}
    (h : s.GrantsTo s' t k) (h' : s'.SameVote s'') : s.GrantsTo s'' t k where
  free := h.free
  votedFor := h'.votedFor.trans h.votedFor
  newTerm ht := by rw [h'.currentTerm,h'.votes,h'.state]; exact h.newTerm ht
  oldTerm ht := by rw [h'.currentTerm,h'.votes,h'.state]; exact h.oldTerm ht

/-- What handling one task can do to a server and send. -/
inductive Handles (s : Server n) : Task n → Server n × Sent n → Prop
  | quiet {task r} (same : s.SameVote r.1) (neutral : ∀ m ∈ r.2, m.2.neutral) : Handles s task r
  | stepDown {task r} (down : s.StepsDown r.1) (neutral : ∀ m ∈ r.2, m.2.neutral) :
      Handles s task r
  | grant {t k r} (grants : s.GrantsTo r.1 t k)
      (sent : r.2 = [] ∨ r.2 = [(k,.replyRequestVote
        { term := r.1.currentTerm, voteGranted := some true })]) :
      Handles s (.requestVote t k) r
  | tally {v r} (term : v.term = s.currentTerm)
      (tallies : s.Tallies r.1 (if v.voteGranted = some true then 1 else 0)) (sent : r.2 = []) :
      Handles s (.replyRequestVote v) r

theorem sendTo_sent (me : Fin n) (s : Server n) (dest : Fin n) (task : Task n) :
    (sendTo me s dest task).2 = [] ∨ (sendTo me s dest task).2 = [(dest,task)] := by
  unfold sendTo
  split_ifs
  · exact .inl rfl
  · exact .inr rfl

theorem sendTo_sameVote (me : Fin n) (s : Server n) (dest : Fin n) (task : Task n) :
    s.SameVote (sendTo me s dest task).1 := by
  unfold sendTo
  split_ifs <;> exact ⟨rfl,rfl,rfl,rfl⟩

theorem sendTo_sameQueues (me : Fin n) (s : Server n) (dest : Fin n) (task : Task n) :
    s.SameQueues (sendTo me s dest task).1 := by
  unfold sendTo
  split_ifs <;> exact ⟨rfl,rfl⟩

theorem sendTo_neutral {me dest : Fin n} {s : Server n} {task : Task n} (h : task.neutral) :
    ∀ m ∈ (sendTo me s dest task).2, m.2.neutral := by
  rcases sendTo_sent me s dest task with he | he <;> simp [he,h]

theorem setElectionTimeout_sameVote (s : Server n) : s.SameVote (setElectionTimeout s) := by
  unfold setElectionTimeout
  split_ifs <;> exact ⟨rfl,rfl,rfl,rfl⟩

theorem setElectionTimeout_sameQueues (s : Server n) : s.SameQueues (setElectionTimeout s) := by
  unfold setElectionTimeout
  split_ifs <;> exact ⟨rfl,rfl⟩

theorem convertToFollower_eq (s : Server n) :
    convertToFollower s = { s with votedFor := none, votes := 0, state := .follower } := by
  simp [convertToFollower,setElectionTimeout]

theorem processAppendEntries_handles (me : Fin n) (s : Server n) (term : ℕ) (leaderId : Fin n) :
    Handles s (.appendEntries term leaderId) (processAppendEntries me s term leaderId) := by
  unfold processAppendEntries
  by_cases hlt : term < s.currentTerm
  · rw [if_pos hlt]; exact .quiet (sendTo_sameVote _ _ _ _) (sendTo_neutral rfl)
  · rw [if_neg hlt]
    extract_lets s'
    have hs' : s.SameVote s' ∨ s.StepsDown s' := by
      by_cases hgt : term > s.currentTerm
      · right
        simp only [s',if_pos hgt,convertToFollower_eq]
        exact ⟨.inl hgt,rfl,rfl,rfl⟩
      · by_cases hc : s.state = .candidate
        · right
          simp only [s',if_neg hgt,if_pos hc,convertToFollower_eq]
          exact ⟨.inr ⟨rfl,hc⟩,rfl,rfl,rfl⟩
        · left
          simpa only [s',if_neg hgt,if_neg hc] using setElectionTimeout_sameVote s
    split_ifs
    · rcases hs' with h | h
      · exact .quiet h (by simp)
      · exact .stepDown h (by simp)
    · rcases hs' with h | h
      · exact .quiet (h.trans (sendTo_sameVote _ _ _ _)) (sendTo_neutral rfl)
      · exact .stepDown (h.trans_same (sendTo_sameVote _ _ _ _)) (sendTo_neutral rfl)

theorem processReplyAppendEntries_handles (s : Server n) (data : Response) :
    Handles s (.replyAppendEntries data) (processReplyAppendEntries s data) := by
  unfold processReplyAppendEntries
  split_ifs with hlt hgt
  · exact .quiet .rfl (by simp)
  · rw [convertToFollower_eq]
    exact .stepDown ⟨.inl hgt,rfl,rfl,rfl⟩ (by simp)
  · exact .quiet .rfl (by simp)

theorem processRequestVote_handles (me : Fin n) (s : Server n) (term : ℕ) (candidateId : Fin n) :
    Handles s (.requestVote term candidateId) (processRequestVote me s term candidateId) := by
  unfold processRequestVote
  by_cases hgt : term > s.currentTerm
  · simp only [if_pos hgt,convertToFollower_eq,true_or,if_true]
    have hv := sendTo_sameVote me { s with
      currentTerm := term, votedFor := some candidateId, votes := 0, state := .follower }
      candidateId (.replyRequestVote { term := term, voteGranted := some true })
    refine .grant (Server.GrantsTo.trans_same ⟨.inl hgt,rfl,fun _ => ⟨rfl,rfl,rfl⟩,?_⟩ hv) ?_
    · intro hle; omega
    · rw [hv.currentTerm]; exact sendTo_sent _ _ _ _
  · simp only [if_neg hgt]
    split_ifs with hfree
    · have hv := sendTo_sameVote me { s with votedFor := some candidateId } candidateId
        (.replyRequestVote { term := s.currentTerm, voteGranted := some true })
      have hg : Server.GrantsTo s { s with votedFor := some candidateId } term candidateId :=
        ⟨.inr hfree,rfl,fun hlt => absurd hlt hgt,fun _ => ⟨rfl,rfl,rfl⟩⟩
      refine .grant (hg.trans_same hv) ?_
      rw [hv.currentTerm]; exact sendTo_sent _ _ _ _
    · exact .quiet (sendTo_sameVote _ _ _ _) (sendTo_neutral rfl)

theorem processReplyRequestVote_handles (s : Server n) (voteReply : Response) :
    Handles s (.replyRequestVote voteReply) (processReplyRequestVote s voteReply) := by
  unfold processReplyRequestVote
  by_cases hlt : voteReply.term < s.currentTerm
  · rw [if_pos hlt]; exact .quiet .rfl (by simp)
  by_cases hc : s.state ≠ .candidate
  · rw [if_neg hlt,if_pos hc]; exact .quiet .rfl (by simp)
  by_cases hgt : voteReply.term > s.currentTerm
  · rw [if_neg hlt,if_neg hc,if_pos hgt,convertToFollower_eq]
    exact .stepDown ⟨.inl hgt,rfl,rfl,rfl⟩ (by simp)
  have hterm : voteReply.term = s.currentTerm := by omega
  have hcand : s.state = .candidate := not_not.mp hc
  rw [if_neg hlt,if_neg hc,if_neg hgt]
  by_cases hv : voteReply.voteGranted = some true
  · simp only [if_pos hv]
    split_ifs with hm
    · exact .tally hterm ⟨hcand,rfl,rfl,by simp [hv],.inr ⟨rfl,hm⟩⟩ rfl
    · exact .tally hterm ⟨hcand,rfl,rfl,by simp [hv],.inl hcand⟩ rfl
  · simp only [if_neg hv]
    split_ifs with hm
    · exact .tally hterm ⟨hcand,rfl,rfl,by simp [hv],.inr ⟨rfl,hm⟩⟩ rfl
    · exact .tally hterm ⟨hcand,rfl,rfl,by simp [hv],.inl hcand⟩ rfl

/-- The inversion of the dispatch: every later proof splits on `Handles`, not on the code. -/
theorem processTask_handles (me : Fin n) (s : Server n) (task : Task n) :
    Handles s task (processTask me s task) := by
  cases task with
  | appendEntries term leaderId => exact processAppendEntries_handles me s term leaderId
  | replyAppendEntries data => exact processReplyAppendEntries_handles s data
  | requestVote term candidateId => exact processRequestVote_handles me s term candidateId
  | replyRequestVote voteReply => exact processReplyRequestVote_handles s voteReply

theorem Server.SameQueues.trans {s s' s'' : Server n} (h : s.SameQueues s')
    (h' : s'.SameQueues s'') : s.SameQueues s'' := ⟨h'.1.trans h.1,h'.2.trans h.2⟩

theorem processTask_sameQueues (me : Fin n) (s : Server n) (task : Task n) :
    s.SameQueues (processTask me s task).1 := by
  cases task with
  | appendEntries term leaderId =>
    simp only [processTask,processAppendEntries,convertToFollower_eq]
    split_ifs <;> first
      | exact sendTo_sameQueues _ _ _ _
      | exact setElectionTimeout_sameQueues s
      | exact (setElectionTimeout_sameQueues s).trans (sendTo_sameQueues _ _ _ _)
      | exact ⟨rfl,rfl⟩
  | replyAppendEntries data =>
    simp only [processTask,processReplyAppendEntries,convertToFollower_eq]
    split_ifs <;> exact ⟨rfl,rfl⟩
  | requestVote term candidateId =>
    simp only [processTask,processRequestVote,convertToFollower_eq]
    split_ifs <;> exact sendTo_sameQueues _ _ _ _
  | replyRequestVote voteReply =>
    simp only [processTask,processReplyRequestVote,convertToFollower_eq]
    split_ifs <;> exact ⟨rfl,rfl⟩

/-- The timers either start an election or send nothing that bears on a vote. -/
theorem processTimers_cases (me : Fin n) (e b : Bool) (s : Server n) :
    s.SameQueues (processTimers me e b s).1 ∧
    (¬((s.state = .candidate ∨ s.state = .follower) ∧ e) ∧ s.SameVote (processTimers me e b s).1 ∧
        (∀ m ∈ (processTimers me e b s).2, m.2.neutral) ∨
      ((s.state = .candidate ∨ s.state = .follower) ∧ e) ∧
      (processTimers me e b s).1.currentTerm = s.currentTerm+1 ∧
      (processTimers me e b s).1.votedFor = some me ∧ (processTimers me e b s).1.votes = 0 ∧
      (processTimers me e b s).1.state = .candidate ∧
      (processTimers me e b s).2 = (others me).map (·,.requestVote (s.currentTerm+1) me)) := by
  unfold processTimers
  by_cases he : (s.state = .candidate ∨ s.state = .follower) ∧ e
  · simp [he,startElection,setElectionTimeout,Server.SameQueues]
  · simp only [if_neg he]
    refine ⟨⟨rfl,rfl⟩,.inl ⟨he,.rfl,?_⟩⟩
    split_ifs <;> simp [Task.neutral]

end PucRio.Raft
