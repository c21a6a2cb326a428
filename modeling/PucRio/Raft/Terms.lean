import PucRio.Raft.Cluster

/-! Terms. No run lowers the term of a server, and a message of a higher term makes every server a
follower of that term, but for the handler that both kinds of replies come to: it returns before
it compares the terms, unless the server is a candidate. -/
namespace PucRio.Raft
variable {n : ℕ}

/-- A reply to a request for a vote, or to a heartbeat, comes to a server that is no candidate. -/
def ReplyOutsideElection (s : Server n) (task : Task n) : Prop :=
  (∃ voteReply, task = .replyRequestVote voteReply) ∧ s.state ≠ .candidate

theorem currentTerm_le_of_handles {s : Server n} {task : Task n} {r : Server n × Sent n}
    (h : Handles s task r) : s.currentTerm ≤ r.1.currentTerm := by
  cases h with
  | quiet same _ => exact same.currentTerm.ge
  | stepDown down _ => rcases down.term with hlt | ⟨heq,-⟩ <;> omega
  | @grant t k r grants _ =>
    rcases Nat.lt_or_ge s.currentTerm t with hlt | hge
    · rw [(grants.newTerm hlt).1]
      exact hlt.le
    · exact (grants.oldTerm hge).1.ge
  | tally _ tallies _ => exact tallies.currentTerm.ge

theorem currentTerm_le_step {c c' : Cluster n} {a : Action n} (h : c.step a = some c')
    (i : Fin n) : (c.servers i).currentTerm ≤ (c'.servers i).currentTerm := by
  have hcommit : ∀ (c : Cluster n) (j : Fin n) (r : Server n × Sent n),
      (c.servers j).currentTerm ≤ r.1.currentTerm →
      (c.servers i).currentTerm ≤ ((c.commit j r).servers i).currentTerm := by
    intro c j r hle
    rw [Cluster.commit_servers,Function.update_apply]
    split_ifs with hij
    · rw [hij]
      exact hle
    · exact le_refl _
  rcases Cluster.step_cases h with ⟨hs,-⟩ | ⟨j,r,he,-,rfl,-⟩ | ⟨j,k,task,r,-,-,rfl,-,rfl,-⟩
  · exact (hs.vote i).currentTerm.ge
  · apply hcommit
    rw [he.currentTerm]
    exact Nat.le_succ _
  · have hsame := ((c.shuffles_consume j k).vote i).currentTerm
    rw [← hsame]
    apply hcommit
    exact currentTerm_le_of_handles (processTask_handles j _ task)

theorem currentTerm_le_run {c c' : Cluster n} (h : (raft n).Run c c') (i : Fin n) :
    (c.servers i).currentTerm ≤ (c'.servers i).currentTerm :=
  h.invariant (I := fun d => (c.servers i).currentTerm ≤ (d.servers i).currentTerm) (le_refl _)
    fun _ _ _ hle _ hs => hle.trans (currentTerm_le_step hs i)

theorem follower_of_sendTo (me : Fin n) {s : Server n} {term : ℕ} (hterm : s.currentTerm = term)
    (hstate : s.state = .follower) (dest : Fin n) (task : Task n) :
    (sendTo me s dest task).1.currentTerm = term ∧ (sendTo me s dest task).1.state = .follower := by
  have hsame := sendTo_sameVote me s dest task
  exact ⟨hsame.currentTerm.trans hterm,hsame.state.trans hstate⟩

/-- What a server does with a message of a higher term. -/
theorem processTask_higher_iff (me : Fin n) {s : Server n} {task : Task n}
    (h : s.currentTerm < task.term) :
    ((processTask me s task).1.currentTerm = task.term ∧
        (processTask me s task).1.state = .follower) ↔ ¬ReplyOutsideElection s task := by
  cases task with
  | appendEntries term leaderId =>
    have hterm : s.currentTerm < term := h
    refine iff_of_true ?_ (by simp [ReplyOutsideElection])
    simp only [processTask,processAppendEntries,if_neg hterm.not_gt,if_pos hterm,
      convertToFollower_eq]
    split_ifs
    · exact ⟨rfl,rfl⟩
    · exact follower_of_sendTo me rfl rfl _ _
  | replyAppendEntries data =>
    have hterm : s.currentTerm < data.term := h
    refine iff_of_true ?_ (by simp [ReplyOutsideElection])
    rw [processTask,processReplyAppendEntries,if_neg hterm.not_gt,if_pos hterm,convertToFollower_eq]
    exact ⟨rfl,rfl⟩
  | requestVote term candidateId =>
    have hterm : s.currentTerm < term := h
    refine iff_of_true ?_ (by simp [ReplyOutsideElection])
    simp only [processTask,processRequestVote,if_pos hterm,convertToFollower_eq,true_or,if_true]
    exact follower_of_sendTo me rfl rfl _ _
  | replyRequestVote voteReply =>
    have hterm : s.currentTerm < voteReply.term := h
    rw [processTask,processReplyRequestVote,if_neg hterm.not_gt]
    by_cases hstate : s.state ≠ .candidate
    · refine iff_of_false ?_ (not_not.mpr ⟨⟨voteReply,rfl⟩,hstate⟩)
      rw [if_pos hstate]
      exact fun hboth => hterm.ne hboth.1
    · refine iff_of_true ?_ fun hreply => hstate hreply.2
      rw [if_neg hstate,if_pos hterm,convertToFollower_eq]
      exact ⟨rfl,rfl⟩

/-- Over every run terms only grow, and a server that handles a message of a higher term becomes
a follower of that term exactly when it is not a reply that comes outside of an election. -/
theorem higherTerm_iff (n : ℕ) :
    (∀ c c', (raft n).Reachable c → (raft n).Run c c' →
      ∀ i, (c.servers i).currentTerm ≤ (c'.servers i).currentTerm) ∧
    ∀ c c' i k task, (raft n).Reachable c → c.step (.process i k) = some c' →
      (c.servers i).toProcess[k]? = some task → (c.servers i).currentTerm < task.term →
      ((c'.servers i).currentTerm = task.term ∧ (c'.servers i).state = .follower ↔
        ¬ReplyOutsideElection (c.servers i) task) := by
  refine ⟨fun _ _ _ hrun i => currentTerm_le_run hrun i,?_⟩
  intro c c' i k task _ hstep htask hterm
  simp only [Cluster.step] at hstep
  split_ifs at hstep
  obtain ⟨task',htask',rfl⟩ := Option.map_eq_some_iff.mp hstep
  obtain rfl := Option.some.inj (htask'.symm.trans htask)
  rw [Cluster.commit_servers,Function.update_self]
  exact processTask_higher_iff i (s := { c.servers i with
    toProcess := (c.servers i).toProcess.eraseIdx k }) hterm

/-- Server 0 leads term 1 of five servers when the request for a vote of term 2 comes. -/
theorem higherTerm_iff_five : ∃ c c' : Cluster 5, (c.servers 0).state = .leader ∧
    c.step (.process 0 0) = some c' ∧ (c'.servers 0).currentTerm = 2 ∧
    (c'.servers 0).state = .follower := by
  obtain ⟨c,hc,hp⟩ := TransitionSystem.exists_reachable_of_exec (T := raft 5)
    (p := fun c => (c.servers 0).state = .leader ∧ (c.servers 0).currentTerm = 1 ∧
      (c.servers 0).toProcess = [.requestVote 2 4] ∧ (c.step (.process 0 0)).isSome)
    (l := [.initializeNode 0,.initializeNode 1,.initializeNode 2,.initializeNode 3,
      .initializeNode 4,.timers 0 true false,.deliver 1 0,.deliver 2 0,.deliver 3 0,.takeBatch 1,
      .takeBatch 2,.takeBatch 3,.process 1 0,.process 2 0,.process 3 0,.deliver 0 0,.deliver 0 0,
      .deliver 0 0,.takeBatch 0,.process 0 0,.process 0 0,.process 0 0,.timers 4 true false,
      .timers 4 true false,.deliver 0 1,.takeBatch 0]) (by decide)
  obtain ⟨hleader,hterm,htasks,hsome⟩ := of_decide_eq_true hp
  obtain ⟨c',hc'⟩ := Option.isSome_iff_exists.mp hsome
  have htask : (c.servers 0).toProcess[0]? = some (.requestVote 2 4) := by rw [htasks]; rfl
  have hlt : (c.servers 0).currentTerm < Task.term (.requestVote 2 4 : Task 5) := by
    rw [hterm]
    decide
  refine ⟨c,c',hleader,hc',((higherTerm_iff 5).2 c c' 0 0 _ hc hc' htask hlt).mpr ?_⟩
  rintro ⟨⟨voteReply,hreply⟩,-⟩
  exact nomatch hreply

/-- Server 0 leads term 1 when server 4 has started term 2, and its heartbeat comes back with the
higher term. -/
theorem not_higherTerm_five : ¬∀ c c' i k task, (raft 5).Reachable c →
    c.step (.process i k) = some c' → (c.servers i).toProcess[k]? = some task →
    (c.servers i).currentTerm < task.term →
    (c'.servers i).currentTerm = task.term ∧ (c'.servers i).state = .follower := by
  intro h
  obtain ⟨c,hc,hp⟩ := TransitionSystem.exists_reachable_of_exec (T := raft 5)
    (p := fun c => (c.servers 0).state = .leader ∧ (c.servers 0).currentTerm = 1 ∧
      (c.servers 0).toProcess = [.replyRequestVote { term := 2, success := some false }] ∧
      (c.step (.process 0 0)).any fun c' => (c'.servers 0).state = .leader)
    (l := [.initializeNode 0,.initializeNode 1,.initializeNode 2,.initializeNode 3,
      .initializeNode 4,.timers 0 true false,.deliver 1 0,.deliver 2 0,.deliver 3 0,.takeBatch 1,
      .takeBatch 2,.takeBatch 3,.process 1 0,.process 2 0,.process 3 0,.deliver 0 0,.deliver 0 0,
      .deliver 0 0,.takeBatch 0,.process 0 0,.process 0 0,.process 0 0,.timers 4 true false,
      .timers 4 true false,.timers 0 false true,.deliver 4 1,.takeBatch 4,.process 4 0,
      .deliver 0 2,.takeBatch 0]) (by decide)
  obtain ⟨hleader,hterm,htasks,hany⟩ := of_decide_eq_true hp
  obtain ⟨c',hc',hleader'⟩ := (Option.any_eq_true _ _).mp hany
  have htask : (c.servers 0).toProcess[0]? =
      some (.replyRequestVote { term := 2, success := some false }) := by rw [htasks]; rfl
  have hlt : (c.servers 0).currentTerm <
      Task.term (.replyRequestVote { term := 2, success := some false } : Task 5) := by
    rw [hterm]
    decide
  have hfollower := (h c c' 0 0 _ hc hc' htask hlt).2
  rw [of_decide_eq_true hleader'] at hfollower
  contradiction

end PucRio.Raft
