import PucRio.Lib.Mailbox
import PucRio.Lib.TransitionSystem
import PucRio.Raft.Handlers

/-! The servers of one `ports.txt` and the RPC requests between them. A request is delivered to
its destination's `taskQueue` at any later time, in any order, or never; a task of the batch that
the main loop took is handled in any order too. -/
namespace PucRio.Raft
variable {n : ℕ}

structure Cluster (n : ℕ) where
  servers : Fin n → Server n
  inFlight : Fin n → List (Task n)

inductive Action (n : ℕ)
  /-- `processTimers` at the top of the loop, with the two clock tests it makes. -/
  | timers (i : Fin n) (electionDue heartbeatDue : Bool)
  /-- The loop takes over the whole `taskQueue`, or skips it while stopped. -/
  | takeBatch (i : Fin n)
  | process (i : Fin n) (k : ℕ)
  /-- The RPC server of `i` receives the `k`-th request on its way to `i`. -/
  | deliver (i : Fin n) (k : ℕ)
  | drop (i : Fin n) (k : ℕ)
  | initializeNode (i : Fin n)
  | resumeNode (i : Fin n)
  | stopNode (i : Fin n)
  deriving DecidableEq, Repr

/-- The requests of `sent` that go to `d`, behind those already on their way. -/
def post (inFlight : Fin n → List (Task n)) (sent : Sent n) (d : Fin n) : List (Task n) :=
  inFlight d ++ addressedTo sent d

namespace Cluster

def setServer (c : Cluster n) (i : Fin n) (s : Server n) : Cluster n :=
  { c with servers := Function.update c.servers i s }

/-- A handler of server `i` has run: its new globals and the requests it sent. -/
def commit (c : Cluster n) (i : Fin n) (r : Server n × Sent n) : Cluster n where
  servers := Function.update c.servers i r.1
  inFlight := post c.inFlight r.2

def removeInFlight (c : Cluster n) (i : Fin n) (k : ℕ) : Cluster n :=
  { c with inFlight := Function.update c.inFlight i ((c.inFlight i).eraseIdx k) }

/-- The main loop of `i` runs and is not in the middle of a batch. -/
def AtLoopTop (s : Server n) : Prop := s.initialized = true ∧ s.halted = false ∧ s.toProcess = []

instance (s : Server n) : Decidable (AtLoopTop s) := inferInstanceAs (Decidable (_ ∧ _ ∧ _))

def init (n : ℕ) : Cluster n := ⟨fun _ => {},fun _ => []⟩

def step (c : Cluster n) : Action n → Option (Cluster n)
  | .timers i electionDue heartbeatDue =>
    let s := c.servers i
    if AtLoopTop s ∧ s.stopped = false then
      some (c.commit i (processTimers i electionDue heartbeatDue s)) else none
  | .takeBatch i =>
    let s := c.servers i
    if AtLoopTop s then some (c.setServer i (takeBatch s)) else none
  | .process i k =>
    let s := c.servers i
    if s.halted then none else
      s.toProcess[k]?.map fun task =>
        c.commit i (processTask i { s with toProcess := s.toProcess.eraseIdx k } task)
  | .deliver i k =>
    (c.inFlight i)[k]?.map fun task =>
      let s := c.servers i
      (c.removeInFlight i k).setServer i { s with taskQueue := s.taskQueue ++ [task] }
  | .drop i k => some (c.removeInFlight i k)
  | .initializeNode i =>
    let s := c.servers i
    some (if s.initialized then c else
      c.setServer i { s with initialized := true, stopped := false })
  | .resumeNode i => some (c.setServer i { c.servers i with stopped := false })
  | .stopNode i => some (c.setServer i { c.servers i with stopped := true })

end Cluster

/-- The clusters of `n` servers, from the start of all their processes. -/
def raft (n : ℕ) : TransitionSystem (Cluster n) (Action n) where
  init := .init n
  step := Cluster.step

/-- Every task that server `d` may still handle, wherever it waits. -/
def Cluster.pending (c : Cluster n) (d : Fin n) : List (Task n) :=
  (c.servers d).toProcess ++ (c.servers d).taskQueue ++ c.inFlight d

/-- No server's vote changes, and no request for a vote and no vote appears. -/
structure Cluster.Shuffles (c c' : Cluster n) : Prop where
  vote : ∀ s, (c.servers s).SameVote (c'.servers s)
  pending : ∀ d p, (∀ task : Task n, task.neutral → p task = false) →
    (c'.pending d).countP p ≤ (c.pending d).countP p

/-- A vote that a server cast: its own at the start of an election, or one it sent in a reply. The
term is that of the reply; `request` is that of the request that it answers. -/
structure Vote (n : ℕ) where
  voter : Fin n
  term : ℕ
  candidate : Fin n
  request : ℕ
  deriving DecidableEq, Repr

/-- The votes among the replies that `i` sends to a request of that term. -/
def grantsOf (i : Fin n) (request : ℕ) (sent : Sent n) : List (Vote n) :=
  sent.filterMap fun m =>
    match m.2 with
    | .replyRequestVote voteReply =>
      if voteReply.voteGranted = some true then some ⟨i,voteReply.term,m.1,request⟩ else none
    | _ => none

/-- The votes that a step casts. -/
def Cluster.votesCast (c : Cluster n) : Action n → List (Vote n)
  | .timers i electionDue _ =>
    if ((c.servers i).state = .candidate ∨ (c.servers i).state = .follower) ∧ electionDue then
      [⟨i,(c.servers i).currentTerm+1,i,(c.servers i).currentTerm+1⟩] else []
  | .process i k =>
    match (c.servers i).toProcess[k]? with
    | some task => grantsOf i task.term (processTask i
        { c.servers i with toProcess := (c.servers i).toProcess.eraseIdx k } task).2
    | none => []
  | _ => []

theorem grantsOf_neutral {i : Fin n} {request : ℕ} {sent : Sent n}
    (h : ∀ m ∈ sent, m.2.neutral) : grantsOf i request sent = [] := by
  apply List.filterMap_eq_nil_iff.mpr
  intro m hm
  have hneutral := h m hm
  cases htask : m.2 <;> simp_all [Task.neutral]

namespace Cluster

@[simp] theorem setServer_servers (c : Cluster n) (i : Fin n) (s : Server n) :
    (c.setServer i s).servers = Function.update c.servers i s := rfl

@[simp] theorem commit_servers (c : Cluster n) (i : Fin n) (r : Server n × Sent n) :
    (c.commit i r).servers = Function.update c.servers i r.1 := rfl

@[simp] theorem removeInFlight_servers (c : Cluster n) (i : Fin n) (k : ℕ) :
    (c.removeInFlight i k).servers = c.servers := rfl

theorem commit_setServer (c : Cluster n) (i : Fin n) (s : Server n) (r : Server n × Sent n) :
    (c.setServer i s).commit i r = c.commit i r := by
  simp [commit,setServer]

/-- What is pending after a handler: what was, and what it sent. -/
theorem countP_pending_commit (c : Cluster n) (i : Fin n) (r : Server n × Sent n)
    (hq : (c.servers i).SameQueues r.1) (d : Fin n) (p : Task n → Bool) :
    ((c.commit i r).pending d).countP p =
      (c.pending d).countP p + r.2.countP (fun m => m.1 = d ∧ p m.2) := by
  have hqueues : ((c.commit i r).servers d).toProcess = (c.servers d).toProcess ∧
      ((c.commit i r).servers d).taskQueue = (c.servers d).taskQueue := by
    by_cases hd : d = i
    · subst hd; simpa [Server.SameQueues] using hq
    · simp [hd]
  simp only [pending,hqueues.1,hqueues.2,List.countP_append]
  simp only [commit,post,List.countP_append,countP_addressedTo]
  omega

theorem shuffles_setServer (c : Cluster n) (i : Fin n) (s : Server n)
    (hv : (c.servers i).SameVote s)
    (hp : ∀ p, (s.toProcess ++ s.taskQueue).countP p ≤
      ((c.servers i).toProcess ++ (c.servers i).taskQueue).countP p) :
    c.Shuffles (c.setServer i s) where
  vote j := by
    by_cases h : j = i
    · subst h; simpa using hv
    · simpa [h] using Server.SameVote.rfl
  pending d p _ := by
    by_cases h : d = i
    · subst h
      have := hp p
      simp only [Cluster.pending,setServer,Function.update_self,List.countP_append] at this ⊢
      omega
    · simp [Cluster.pending,setServer,h]

theorem shuffles_commit (c : Cluster n) (i : Fin n) (r : Server n × Sent n)
    (hq : (c.servers i).SameQueues r.1) (hv : (c.servers i).SameVote r.1)
    (hn : ∀ m ∈ r.2, m.2.neutral) : c.Shuffles (c.commit i r) where
  vote j := by
    by_cases h : j = i
    · subst h; simpa using hv
    · simpa [h] using Server.SameVote.rfl
  pending d p hp := by
    rw [countP_pending_commit c i r hq]
    have : r.2.countP (fun m => m.1 = d ∧ p m.2) = 0 :=
      List.countP_eq_zero.mpr fun m hm => by simp [hp _ (hn m hm)]
    omega

theorem shuffles_deliver {c : Cluster n} {i : Fin n} {k : ℕ} {task : Task n}
    (h : (c.inFlight i)[k]? = some task) :
    c.Shuffles ((c.removeInFlight i k).setServer i
      { c.servers i with taskQueue := (c.servers i).taskQueue ++ [task] }) where
  vote j := by
    by_cases hj : j = i
    · subst hj
      simp only [setServer_servers,Function.update_self]
      exact ⟨rfl,rfl,rfl,rfl⟩
    · simpa [hj] using Server.SameVote.rfl
  pending d p _ := by
    by_cases hd : d = i
    · subst hd
      have := countP_eraseIdx_add h p
      simp only [Cluster.pending,setServer,removeInFlight,Function.update_self,
        List.countP_append,List.countP_singleton]
      omega
    · simp [Cluster.pending,setServer,removeInFlight,hd]

theorem shuffles_removeInFlight (c : Cluster n) (i : Fin n) (k : ℕ) :
    c.Shuffles (c.removeInFlight i k) where
  vote s := Server.SameVote.rfl (s := c.servers s)
  pending d p _ := by
    by_cases hd : d = i
    · subst hd
      have := countP_eraseIdx_le (c.inFlight d) k p
      simp only [Cluster.pending,removeInFlight,Function.update_self,List.countP_append]
      omega
    · simp [Cluster.pending,removeInFlight,hd]

/-- The cluster after server `i` has taken the `k`-th task of its batch and before it handles it. -/
def consume (c : Cluster n) (i : Fin n) (k : ℕ) : Cluster n :=
  c.setServer i { c.servers i with toProcess := (c.servers i).toProcess.eraseIdx k }

theorem shuffles_consume (c : Cluster n) (i : Fin n) (k : ℕ) : c.Shuffles (c.consume i k) :=
  shuffles_setServer _ _ _ ⟨rfl,rfl,rfl,rfl⟩ fun p => by
    have := countP_eraseIdx_le (c.servers i).toProcess k p
    simp only [List.countP_append]
    omega

theorem countP_pending_consume {c : Cluster n} {i : Fin n} {k : ℕ} {task : Task n}
    (h : (c.servers i).toProcess[k]? = some task) (p : Task n → Bool) :
    ((c.consume i k).pending i).countP p + (if p task then 1 else 0) =
      (c.pending i).countP p := by
  have := countP_eraseIdx_add h p
  simp only [consume,Cluster.pending,setServer,Function.update_self,List.countP_append]
  omega

/-- An election timer has fired at `i`: what `startElection` leaves and sends. -/
structure StartsElection (c : Cluster n) (i : Fin n) (r : Server n × Sent n) : Prop where
  currentTerm : r.1.currentTerm = (c.servers i).currentTerm+1
  votedFor : r.1.votedFor = some i
  votes : r.1.votes = 0
  state : r.1.state = .candidate
  sent : r.2 = (others i).map (·,.requestVote ((c.servers i).currentTerm+1) i)

/-- What a step can do: move or lose tasks, start an election, or let one server handle one task
of its batch; and which votes it casts. -/
theorem step_cases {c c' : Cluster n} {a : Action n} (h : c.step a = some c') :
    (c.Shuffles c' ∧ c.votesCast a = []) ∨
    (∃ i r, c.StartsElection i r ∧ (c.servers i).SameQueues r.1 ∧ c' = c.commit i r ∧
      c.votesCast a = [⟨i,(c.servers i).currentTerm+1,i,(c.servers i).currentTerm+1⟩]) ∨
    (∃ i k task r, a = .process i k ∧ (c.servers i).toProcess[k]? = some task ∧
      r = processTask i ((c.consume i k).servers i) task ∧
      ((c.consume i k).servers i).SameQueues r.1 ∧ c' = (c.consume i k).commit i r ∧
      c.votesCast a = grantsOf i task.term r.2) := by
  cases a with
  | timers i e b =>
    simp only [step] at h
    split_ifs at h
    obtain rfl := Option.some.inj h
    obtain ⟨hq,⟨he,hv,hn⟩ | ⟨he,h₁,h₂,h₃,h₄,h₅⟩⟩ := processTimers_cases i e b (c.servers i)
    · exact .inl ⟨shuffles_commit c i _ hq hv hn,if_neg he⟩
    · exact .inr (.inl ⟨i,_,⟨h₁,h₂,h₃,h₄,h₅⟩,hq,rfl,if_pos he⟩)
  | takeBatch i =>
    simp only [step] at h
    split_ifs at h with ht
    obtain rfl := Option.some.inj h
    refine .inl ⟨shuffles_setServer _ _ _ ⟨rfl,rfl,rfl,rfl⟩ fun p => ?_,rfl⟩
    unfold takeBatch
    split_ifs <;> simp
  | process i k =>
    simp only [step] at h
    split_ifs at h
    obtain ⟨task,ht,rfl⟩ := Option.map_eq_some_iff.mp h
    have hserver : (c.consume i k).servers i =
        { c.servers i with toProcess := (c.servers i).toProcess.eraseIdx k } := by
      simp [consume]
    refine .inr (.inr ⟨i,k,task,_,rfl,ht,rfl,processTask_sameQueues i _ task,?_,?_⟩)
    · rw [consume,commit_setServer,← consume,hserver]
    · rw [votesCast,ht,hserver]
  | deliver i k =>
    obtain ⟨task,ht,rfl⟩ := Option.map_eq_some_iff.mp h
    exact .inl ⟨shuffles_deliver ht,rfl⟩
  | drop i k =>
    obtain rfl := Option.some.inj h
    exact .inl ⟨shuffles_removeInFlight c i k,rfl⟩
  | initializeNode i =>
    obtain rfl := Option.some.inj h
    split_ifs
    · exact .inl ⟨⟨fun _ => Server.SameVote.rfl,fun _ _ _ => le_rfl⟩,rfl⟩
    · exact .inl ⟨shuffles_setServer _ _ _ ⟨rfl,rfl,rfl,rfl⟩ fun _ => le_rfl,rfl⟩
  | resumeNode i =>
    obtain rfl := Option.some.inj h
    exact .inl ⟨shuffles_setServer _ _ _ ⟨rfl,rfl,rfl,rfl⟩ fun _ => le_rfl,rfl⟩
  | stopNode i =>
    obtain rfl := Option.some.inj h
    exact .inl ⟨shuffles_setServer _ _ _ ⟨rfl,rfl,rfl,rfl⟩ fun _ => le_rfl,rfl⟩

end Cluster
end PucRio.Raft
