import PucRio.Raft.ElectionSafety
import PucRio.Raft.Terms

/-! The votes that the servers cast, over a run. A server keeps to its vote for a term as long as
no heartbeat of that term finds it a candidate, which clears its vote without a new term. -/
namespace PucRio.Raft
variable {n : ℕ}

/-- The clusters of `n` servers, with all votes cast so far. -/
def raftVotes (n : ℕ) : TransitionSystem (Cluster n × List (Vote n)) (Action n) :=
  (raft n).recorded Cluster.votesCast

/-- No server votes for two candidates in one term, and none grants a request of a past term. -/
def OneVotePerTerm (votes : List (Vote n)) : Prop :=
  (∀ v ∈ votes, ∀ w ∈ votes, v.voter = w.voter → v.term = w.term → v.candidate = w.candidate) ∧
    ∀ v ∈ votes, v.term ≤ v.request

instance (votes : List (Vote n)) : Decidable (OneVotePerTerm votes) :=
  inferInstanceAs (Decidable ((∀ v ∈ votes, ∀ w ∈ votes, _ → _ → _) ∧ ∀ v ∈ votes, _))

/-- No candidate handles a heartbeat of its own term. -/
def KeepsVote (c : Cluster n) : Action n → Bool
  | .process i k =>
    match (c.servers i).toProcess[k]? with
    | some (.appendEntries term _) =>
      !((c.servers i).state == .candidate && term == (c.servers i).currentTerm)
    | _ => true
  | _ => true

/-- A candidate becomes a follower of its own term through a heartbeat only. -/
theorem appendEntries_of_follower {me : Fin n} {s : Server n} {task : Task n}
    (hcand : s.state = .candidate) (hfollower : (processTask me s task).1.state = .follower)
    (hterm : (processTask me s task).1.currentTerm = s.currentTerm) :
    ∃ leaderId, task = .appendEntries s.currentTerm leaderId := by
  have hle : task.term ≤ s.currentTerm := by
    by_contra hlt
    have hboth := (processTask_higher_iff me (Nat.lt_of_not_le hlt)).mpr
      fun hreply => hreply.2 hcand
    exact hlt (hboth.1.symm.trans hterm).le
  cases task with
  | appendEntries term leaderId =>
    have hterm' : term ≤ s.currentTerm := hle
    rcases hterm'.lt_or_eq with hlt | heq
    · rw [processTask,processAppendEntries,if_pos hlt,(sendTo_sameVote _ _ _ _).state,hcand]
        at hfollower
      contradiction
    · exact ⟨leaderId,by rw [heq]⟩
  | replyAppendEntries data =>
    have hsame : processReplyAppendEntries s data = (s,[]) := by
      unfold processReplyAppendEntries
      rw [if_neg (show ¬data.term > s.currentTerm from hle.not_gt),ite_self]
    rw [processTask,hsame,hcand] at hfollower
    contradiction
  | requestVote term candidateId =>
    have hgt : ¬term > s.currentTerm := hle.not_gt
    simp only [processTask,processRequestVote,if_neg hgt] at hfollower
    split_ifs at hfollower <;>
    · rw [(sendTo_sameVote _ _ _ _).state] at hfollower
      exact absurd (hcand.symm.trans hfollower) (by decide)
  | replyRequestVote voteReply =>
    have hgt : ¬voteReply.term > s.currentTerm := hle.not_gt
    simp only [processTask,processReplyRequestVote,hcand,if_neg hgt] at hfollower
    split_ifs at hfollower <;> simp_all

/-- The votes are those of the servers: in a server's present term they are the one it holds. -/
structure CastInv (c : Cluster n) (votes : List (Vote n)) : Prop where
  term_le : ∀ v ∈ votes, v.term ≤ (c.servers v.voter).currentTerm
  held : ∀ v ∈ votes, v.term = (c.servers v.voter).currentTerm →
    (c.servers v.voter).votedFor = some v.candidate
  once : OneVotePerTerm votes

theorem castInv_init (n : ℕ) : CastInv (Cluster.init n) [] where
  term_le := by simp
  held := by simp
  once := by simp [OneVotePerTerm]

variable {c c' : Cluster n} {votes : List (Vote n)} {i : Fin n} {r : Server n × Sent n}

theorem CastInv.same (h : CastInv c votes) (hs : ∀ j, (c.servers j).SameVote (c'.servers j)) :
    CastInv c' votes where
  term_le v hv := by
    rw [(hs _).currentTerm]
    exact h.term_le v hv
  held v hv := by
    rw [(hs _).currentTerm,(hs _).votedFor]
    exact h.held v hv
  once := h.once

/-- Server `i` keeps its term and its vote. -/
theorem CastInv.commit_same (h : CastInv c votes)
    (hterm : r.1.currentTerm = (c.servers i).currentTerm)
    (hfor : r.1.votedFor = (c.servers i).votedFor) : CastInv (c.commit i r) votes where
  term_le v hv := by
    have hle := h.term_le v hv
    rw [Cluster.commit_servers,Function.update_apply]
    split_ifs with hvoter
    · rw [hterm,← hvoter]
      exact hle
    · exact hle
  held v hv := by
    have hheld := h.held v hv
    rw [Cluster.commit_servers,Function.update_apply]
    split_ifs with hvoter
    · rw [hterm,hfor,← hvoter]
      exact hheld
    · exact hheld
  once := h.once

/-- Server `i` goes to a new term. -/
theorem CastInv.newTerm (h : CastInv c votes)
    (hterm : (c.servers i).currentTerm < r.1.currentTerm) : CastInv (c.commit i r) votes where
  term_le v hv := by
    have hle := h.term_le v hv
    rw [Cluster.commit_servers,Function.update_apply]
    split_ifs with hvoter
    · rw [hvoter] at hle
      omega
    · exact hle
  held v hv := by
    have hle := h.term_le v hv
    rw [Cluster.commit_servers,Function.update_apply]
    split_ifs with hvoter
    · rw [hvoter] at hle
      omega
    · exact h.held v hv
  once := h.once

/-- Server `i` votes in its present term, as it has before or for the first time. -/
theorem CastInv.cast (h : CastInv c votes) {v : Vote n} (hterm : v.term = (c.servers v.voter).currentTerm)
    (hfor : (c.servers v.voter).votedFor = some v.candidate) (hrequest : v.term ≤ v.request) :
    CastInv c (votes++[v]) where
  term_le w hw := by
    rcases List.mem_append.mp hw with hw | hw
    · exact h.term_le w hw
    · rw [List.mem_singleton.mp hw]
      exact hterm.le
  held w hw hwterm := by
    rcases List.mem_append.mp hw with hw | hw
    · exact h.held w hw hwterm
    · rw [List.mem_singleton.mp hw]
      exact hfor
  once := by
    have hold : ∀ w ∈ votes, w.voter = v.voter → w.term = v.term → w.candidate = v.candidate := by
      intro w hw hvoter hwterm
      have hheld := h.held w hw (by rw [hwterm,hvoter,hterm])
      rw [hvoter,hfor] at hheld
      exact (Option.some.inj hheld).symm
    constructor
    · intro w hw w' hw' hvoter hterm'
      rcases List.mem_append.mp hw with hw₁ | hw₁ <;> rcases List.mem_append.mp hw' with hw₂ | hw₂
      · exact h.once.1 w hw₁ w' hw₂ hvoter hterm'
      · rw [List.mem_singleton.mp hw₂] at hvoter hterm' ⊢
        exact hold w hw₁ hvoter hterm'
      · rw [List.mem_singleton.mp hw₁] at hvoter hterm' ⊢
        exact (hold w' hw₂ hvoter.symm hterm'.symm).symm
      · rw [List.mem_singleton.mp hw₁,List.mem_singleton.mp hw₂]
    · intro w hw
      rcases List.mem_append.mp hw with hw | hw
      · exact h.once.2 w hw
      · rw [List.mem_singleton.mp hw]
        exact hrequest

/-- Server `i` gives away the vote of its present term, if it still has it. -/
theorem CastInv.setVote (h : CastInv c votes) {k : Fin n}
    (hterm : r.1.currentTerm = (c.servers i).currentTerm) (hfor : r.1.votedFor = some k)
    (hfree : (c.servers i).votedFor = none ∨ (c.servers i).votedFor = some k) :
    CastInv (c.commit i r) votes where
  term_le v hv := by
    have hle := h.term_le v hv
    rw [Cluster.commit_servers,Function.update_apply]
    split_ifs with hvoter
    · rw [hterm,← hvoter]
      exact hle
    · exact hle
  held v hv := by
    have hheld := h.held v hv
    rw [Cluster.commit_servers,Function.update_apply]
    split_ifs with hvoter
    · rw [hvoter] at hheld
      rw [hterm,hfor]
      intro hvterm
      rcases hfree with hnone | hk
      · exact absurd (hnone.symm.trans (hheld hvterm)) (Option.some_ne_none _).symm
      · exact hk.symm.trans (hheld hvterm)
    · exact hheld
  once := h.once

/-- Server `i` grants a request that is not of a past term. -/
theorem CastInv.grant (h : CastInv c votes) {t : ℕ} {k : Fin n}
    (hgr : (c.servers i).GrantsTo r.1 t k) (hle : (c.servers i).currentTerm ≤ t)
    (hsent : r.2 = [] ∨ r.2 = [(k,.replyRequestVote
      { term := r.1.currentTerm, voteGranted := some true })]) :
    CastInv (c.commit i r) (votes++grantsOf i t r.2) := by
  have hcommit : r.1.currentTerm = t ∧ CastInv (c.commit i r) votes := by
    rcases hle.lt_or_eq with hlt | heq
    · have hterm := (hgr.newTerm hlt).1
      exact ⟨hterm,h.newTerm (by rw [hterm]; exact hlt)⟩
    · have hterm := (hgr.oldTerm heq.ge).1
      refine ⟨hterm.trans heq,h.setVote hterm hgr.votedFor ?_⟩
      exact hgr.free.resolve_left heq.not_lt
  obtain ⟨hterm,hinv⟩ := hcommit
  rcases hsent with hsent | hsent
  · rw [hsent]
    exact (List.append_nil votes).symm ▸ hinv
  · have hvotes : grantsOf i t r.2 = [⟨i,r.1.currentTerm,k,t⟩] := by
      rw [hsent]
      rfl
    rw [hvotes]
    apply hinv.cast
    · simp
    · simpa using hgr.votedFor
    · exact hterm.le

/-- A step that grants no stale request and clears no vote keeps every server to its vote. -/
theorem CastInv.step {a : Action n} (h : CastInv c votes) (hstale : NoStaleGrant c a)
    (hkeeps : KeepsVote c a) (hs : c.step a = some c') : CastInv c' (votes++c.votesCast a) := by
  rcases Cluster.step_cases hs with ⟨hsh,hvotes⟩ | ⟨i,r,he,-,rfl,hvotes⟩ |
    ⟨i,k,task,r,rfl,htask,hr,-,rfl,hvotes⟩
  · rw [hvotes,List.append_nil]
    exact h.same hsh.vote
  · rw [hvotes]
    have hnew := h.newTerm (i := i) (r := r) (by rw [he.currentTerm]; exact Nat.lt_succ_self _)
    apply hnew.cast
    · simp [he.currentTerm]
    · simp [he.votedFor]
    · exact le_refl _
  · have hsame := (c.shuffles_consume i k).vote i
    have hc := h.same (c.shuffles_consume i k).vote
    simp only [NoStaleGrant,htask] at hstale
    simp only [KeepsVote,htask] at hkeeps
    rw [hvotes]
    have hh := hr ▸ processTask_handles i ((c.consume i k).servers i) task
    cases hh with
    | quiet same neutral =>
      rw [grantsOf_neutral neutral,List.append_nil]
      exact hc.commit_same same.currentTerm same.votedFor
    | stepDown down neutral =>
      rw [grantsOf_neutral neutral,List.append_nil]
      rcases down.term with hlt | ⟨hterm,hcand⟩
      · exact hc.newTerm hlt
      · obtain ⟨leaderId,rfl⟩ := appendEntries_of_follower hcand (hr ▸ down.state) (hr ▸ hterm)
        rw [hsame.state] at hcand
        simp [hcand,hsame.currentTerm] at hkeeps
    | @grant t cand r grants sent =>
      refine hc.grant grants ?_ sent
      by_contra hlt
      rw [hsame.currentTerm] at hlt
      obtain ⟨h₁,h₂⟩ := hstale (Nat.lt_of_not_le hlt)
      rcases grants.free with hf | hf | hf
      · rw [hsame.currentTerm] at hf
        exact hlt hf.le
      · exact h₁ (hsame.votedFor ▸ hf)
      · exact h₂ (hsame.votedFor ▸ hf)
    | tally _ tallies sent =>
      rw [sent]
      exact (List.append_nil votes).symm ▸ hc.commit_same tallies.currentTerm tallies.votedFor

/-- In every run in which no stale request is granted and no candidate handles a heartbeat of its
own term, at any number of servers, a server votes once in a term. -/
theorem oneVotePerTerm_of_keepsVote (n : ℕ) (s : Cluster n × List (Vote n))
    (h : (raftVotes n).ReachableUnder (fun s a => NoStaleGrant s.1 a ∧ KeepsVote s.1 a) s) :
    OneVotePerTerm s.2 := by
  have hinv : CastInv s.1 s.2 := by
    refine h.invariant (I := fun s => CastInv s.1 s.2) (castInv_init n) ?_
    intro s a t hs hguard hstep
    obtain ⟨hc,hvotes⟩ := TransitionSystem.recorded_step hstep
    rw [hvotes]
    exact hs.step hguard.1 hguard.2 hc
  exact hinv.once

/-- Server 0 of five gets the votes of 1, 2 and 3 in term 1. -/
theorem oneVotePerTerm_of_keepsVote_five : ∃ s : Cluster 5 × List (Vote 5),
    s.2 = [⟨0,1,0,1⟩,⟨1,1,0,1⟩,⟨2,1,0,1⟩,⟨3,1,0,1⟩] ∧ OneVotePerTerm s.2 := by
  obtain ⟨s,hs,hp⟩ := TransitionSystem.exists_reachableUnder_of_execUnder (T := raftVotes 5)
    (G := fun s a => NoStaleGrant s.1 a ∧ KeepsVote s.1 a)
    (p := fun s => s.2 = [⟨0,1,0,1⟩,⟨1,1,0,1⟩,⟨2,1,0,1⟩,⟨3,1,0,1⟩])
    (l := [.initializeNode 0,.initializeNode 1,.initializeNode 2,.initializeNode 3,
      .timers 0 true false,.deliver 1 0,.deliver 2 0,.deliver 3 0,.takeBatch 1,.takeBatch 2,
      .takeBatch 3,.process 1 0,.process 2 0,.process 3 0]) (by decide)
  exact ⟨s,of_decide_eq_true hp,oneVotePerTerm_of_keepsVote 5 s hs⟩

/-- Server 4 has voted for itself in term 1 when the heartbeat of server 0, the leader of that
term, clears its vote; the request of server 0, which comes late, gets it. -/
theorem not_oneVotePerTerm_five : ¬∀ s, (raftVotes 5).Reachable s → OneVotePerTerm s.2 := by
  intro h
  obtain ⟨s,hs,hp⟩ := TransitionSystem.exists_reachable_of_exec (T := raftVotes 5)
    (p := fun s => ¬OneVotePerTerm s.2)
    (l := [.initializeNode 0,.initializeNode 1,.initializeNode 2,.initializeNode 3,
      .initializeNode 4,.timers 0 true false,.timers 4 true false,.deliver 1 0,.deliver 2 0,
      .deliver 3 0,.takeBatch 1,.takeBatch 2,.takeBatch 3,.process 1 0,.process 2 0,.process 3 0,
      .deliver 0 1,.deliver 0 1,.deliver 0 1,.takeBatch 0,.process 0 0,.process 0 0,.process 0 0,
      .timers 0 false true,.deliver 4 1,.takeBatch 4,.process 4 0,.deliver 4 0,.takeBatch 4,
      .process 4 0]) (by decide)
  exact of_decide_eq_true hp (h s hs)

end PucRio.Raft
