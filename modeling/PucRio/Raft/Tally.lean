import PucRio.Raft.Votes

/-! The tally of a candidate. It starts at zero, though the candidate votes for itself, and adds
up bare replies: it is one short of the servers that voted, at least. -/
namespace PucRio.Raft
variable {n : ℕ}

/-- The servers that cast their vote of term `t` for `k`. -/
def votersOf (votes : List (Vote n)) (t : ℕ) (k : Fin n) : Finset (Fin n) :=
  Finset.univ.filter fun s => ∃ v ∈ votes, v.voter = s ∧ v.term = t ∧ v.candidate = k

/-- What `k` compares with the majority is the number of servers that voted for it. -/
def TallyExact (s : Cluster n × List (Vote n)) (k : Fin n) : Prop :=
  (s.1.servers k).votes = (votersOf s.2 (s.1.servers k).currentTerm k).card

instance (s : Cluster n × List (Vote n)) (k : Fin n) : Decidable (TallyExact s k) :=
  inferInstanceAs (Decidable (_ = _))

theorem mem_votersOf {votes : List (Vote n)} {t : ℕ} {k s : Fin n} :
    s ∈ votersOf votes t k ↔ ∃ v ∈ votes, v.voter = s ∧ v.term = t ∧ v.candidate = k := by
  simp [votersOf]

theorem votersOf_subset_append (votes votes' : List (Vote n)) (t : ℕ) (k : Fin n) :
    votersOf votes t k ⊆ votersOf (votes++votes') t k := by
  intro s hs
  obtain ⟨v,hv,h⟩ := mem_votersOf.mp hs
  exact mem_votersOf.mpr ⟨v,List.mem_append_left _ hv,h⟩

/-- The votes for others are a history in the sense of `VoteInv`, and whoever stands in an
election has voted for itself. -/
structure TallyInv (c : Cluster n) (votes : List (Vote n)) : Prop where
  history : ∃ g, VoteInv c g ∧ ∀ s t k, g s t = some k → s ≠ k ∧ s ∈ votersOf votes t k
  own : ∀ k, (c.servers k).state ≠ .follower →
    (c.servers k).currentTerm = 0 ∨ k ∈ votersOf votes (c.servers k).currentTerm k
  term_pos : ∀ v ∈ votes, 1 ≤ v.term

theorem tallyInv_init (n : ℕ) : TallyInv (Cluster.init n) [] where
  history := ⟨_,voteInv_init,by simp⟩
  own _ _ := .inl rfl
  term_pos := by simp

/-- A server that is no follower after a task was none before, in the same term. -/
theorem stands_of_handles {s : Server n} {task : Task n} {r : Server n × Sent n}
    (h : Handles s task r) (hstate : r.1.state ≠ .follower) :
    s.state ≠ .follower ∧ r.1.currentTerm = s.currentTerm := by
  cases h with
  | quiet same _ => exact ⟨same.state ▸ hstate,same.currentTerm⟩
  | stepDown down _ => exact absurd down.state hstate
  | @grant t k r grants _ =>
    rcases Nat.lt_or_ge s.currentTerm t with hlt | hge
    · exact absurd (grants.newTerm hlt).2.2 hstate
    · exact ⟨(grants.oldTerm hge).2.2 ▸ hstate,(grants.oldTerm hge).1⟩
  | tally _ tallies _ =>
    refine ⟨?_,tallies.currentTerm⟩
    rw [tallies.candidate]
    decide

variable {c c' : Cluster n} {votes : List (Vote n)} {a : Action n}

theorem TallyInv.own_step (h : TallyInv c votes) (hs : c.step a = some c') (k : Fin n)
    (hstate : (c'.servers k).state ≠ .follower) : (c'.servers k).currentTerm = 0 ∨
      k ∈ votersOf (votes++c.votesCast a) (c'.servers k).currentTerm k := by
  have hold : ∀ {s : Server n}, (c.servers k).state ≠ .follower →
      s.currentTerm = (c.servers k).currentTerm → s.currentTerm = 0 ∨
        k ∈ votersOf (votes++c.votesCast a) s.currentTerm k := by
    intro s hstate hterm
    rw [hterm]
    exact (h.own k hstate).imp_right fun hk => votersOf_subset_append _ _ _ _ hk
  rcases Cluster.step_cases hs with ⟨hsh,-⟩ | ⟨i,r,he,-,rfl,hvotes⟩ |
    ⟨i,j,task,r,rfl,-,rfl,-,rfl,-⟩
  · exact hold ((hsh.vote k).state ▸ hstate) (hsh.vote k).currentTerm
  · by_cases hk : k = i
    · subst hk
      rw [Cluster.commit_servers,Function.update_self,he.currentTerm,hvotes]
      exact .inr (mem_votersOf.mpr ⟨_,List.mem_append_right _ (List.mem_singleton_self _),rfl,rfl,rfl⟩)
    · rw [Cluster.commit_servers,Function.update_of_ne hk] at hstate ⊢
      exact hold hstate rfl
  · have hsame := (c.shuffles_consume i j).vote k
    by_cases hk : k = i
    · subst hk
      rw [Cluster.commit_servers,Function.update_self] at hstate ⊢
      obtain ⟨hbefore,hterm⟩ := stands_of_handles (processTask_handles k _ task) hstate
      exact hold (hsame.state ▸ hbefore) (hterm.trans hsame.currentTerm)
    · rw [Cluster.commit_servers,Function.update_of_ne hk] at hstate ⊢
      exact hold (hsame.state ▸ hstate) hsame.currentTerm

/-- All votes are cast in a term that an election has begun. -/
theorem TallyInv.term_pos_step (h : TallyInv c votes) (hs : c.step a = some c') :
    ∀ v ∈ c.votesCast a, 1 ≤ v.term := by
  obtain ⟨g,hg,-⟩ := h.history
  rcases Cluster.step_cases hs with ⟨-,hvotes⟩ | ⟨i,r,-,-,-,hvotes⟩ |
    ⟨i,k,task,r,-,htask,hr,-,-,hvotes⟩
  · simp [hvotes]
  · simp [hvotes]
  · rw [hvotes]
    have hh := hr ▸ processTask_handles i ((c.consume i k).servers i) task
    cases hh with
    | quiet _ neutral => simp [grantsOf_neutral neutral]
    | stepDown _ neutral => simp [grantsOf_neutral neutral]
    | @grant t cand r grants sent =>
      have hmem : .requestVote t cand ∈ c.pending i := by
        simp only [Cluster.pending,List.mem_append]
        exact .inl (.inl (List.mem_of_getElem? htask))
      have hpos := (hg.request i t cand hmem).1
      have hterm : 1 ≤ r.1.currentTerm := by
        rcases Nat.lt_or_ge ((c.consume i k).servers i).currentTerm t with hlt | hge
        · rw [(grants.newTerm hlt).1]
          exact hpos
        · rw [(grants.oldTerm hge).1]
          exact hpos.trans hge
      rcases sent with hsent | hsent
      · simp [hsent,grantsOf]
      · simpa [hsent,grantsOf] using hterm
    | tally _ _ sent => simp [sent,grantsOf]

theorem TallyInv.step (h : TallyInv c votes) (hguard : NoStaleGrant c a)
    (hs : c.step a = some c') : TallyInv c' (votes++c.votesCast a) where
  history := by
    obtain ⟨g,hg,hvoters⟩ := h.history
    obtain ⟨g',hg',hnew⟩ := hg.step hguard hs
    refine ⟨g',hg',?_⟩
    intro s t k hk
    rcases hnew s t k hk with hold | ⟨hne,v,hv,hvote⟩
    · obtain ⟨hne,hmem⟩ := hvoters s t k hold
      exact ⟨hne,votersOf_subset_append _ _ _ _ hmem⟩
    · exact ⟨hne,mem_votersOf.mpr ⟨v,List.mem_append_right _ hv,hvote⟩⟩
  own := h.own_step hs
  term_pos v hv := by
    rcases List.mem_append.mp hv with hv | hv
    · exact h.term_pos v hv
    · exact h.term_pos_step hs v hv

/-- A candidate that has begun an election has counted fewer votes than it has. -/
theorem TallyInv.votes_lt (h : TallyInv c votes) {k : Fin n}
    (hcand : (c.servers k).state = .candidate) (hterm : (c.servers k).currentTerm ≠ 0) :
    (c.servers k).votes < (votersOf votes (c.servers k).currentTerm k).card := by
  obtain ⟨g,hg,hvoters⟩ := h.history
  have hown := (h.own k (by rw [hcand]; decide)).resolve_left hterm
  have htally := hg.tally k (c.servers k).currentTerm
  rw [if_pos rfl] at htally
  have hsubset : voters g (c.servers k).currentTerm k ⊆
      (votersOf votes (c.servers k).currentTerm k).erase k := by
    intro s hs
    obtain ⟨hne,hmem⟩ := hvoters s _ k (mem_voters.mp hs)
    exact Finset.mem_erase.mpr ⟨hne,hmem⟩
  have hcard := Finset.card_le_card hsubset
  have herase := Finset.card_erase_add_one hown
  omega

/-- Before its first election a candidate has no votes, and counts none. -/
theorem TallyInv.tallyExact (h : TallyInv c votes) {k : Fin n}
    (hterm : (c.servers k).currentTerm = 0) : TallyExact (c,votes) k := by
  obtain ⟨g,hg,hvoters⟩ := h.history
  have hempty : votersOf votes 0 k = ∅ := by
    apply Finset.eq_empty_of_forall_notMem
    intro s hs
    obtain ⟨v,hv,-,hvterm,-⟩ := mem_votersOf.mp hs
    have hpos := h.term_pos v hv
    omega
  have hnone : voters g 0 k = ∅ := by
    apply Finset.eq_empty_of_forall_notMem
    intro s hs
    have hmem := (hvoters s 0 k (mem_voters.mp hs)).2
    rw [hempty] at hmem
    exact absurd hmem (Finset.notMem_empty s)
  have htally := hg.tally k 0
  rw [hnone,if_pos hterm,Finset.card_empty] at htally
  have hvotes : (c.servers k).votes = 0 := by omega
  show (c.servers k).votes = (votersOf votes (c.servers k).currentTerm k).card
  rw [hterm,hempty,hvotes,Finset.card_empty]

/-- In every run that grants no stale request, a candidate's count is exact only before it has
begun an election. -/
theorem tallyExact_iff (n : ℕ) (s : Cluster n × List (Vote n))
    (h : (raftVotes n).ReachableUnder (fun s a => NoStaleGrant s.1 a) s) (k : Fin n)
    (hcand : (s.1.servers k).state = .candidate) :
    TallyExact s k ↔ (s.1.servers k).currentTerm = 0 := by
  have hinv : TallyInv s.1 s.2 := by
    refine h.invariant (I := fun s => TallyInv s.1 s.2) (tallyInv_init n) ?_
    intro s a t hs hguard hstep
    obtain ⟨hc,hvotes⟩ := TransitionSystem.recorded_step hstep
    rw [hvotes]
    exact hs.step hguard hc
  constructor
  · intro hexact
    by_contra hterm
    exact (hinv.votes_lt hcand hterm).ne hexact
  · exact hinv.tallyExact

/-- Server 0 of five has started an election, and nobody has answered yet. -/
theorem tallyExact_iff_five : ∃ s : Cluster 5 × List (Vote 5),
    (s.1.servers 0).state = .candidate ∧ ¬TallyExact s 0 ∧ TallyExact s 1 := by
  obtain ⟨s,hs,hp⟩ := TransitionSystem.exists_reachableUnder_of_execUnder (T := raftVotes 5)
    (G := fun s a => NoStaleGrant s.1 a)
    (p := fun s => (s.1.servers 0).state = .candidate ∧ (s.1.servers 0).currentTerm = 1 ∧
      (s.1.servers 1).state = .candidate ∧ (s.1.servers 1).currentTerm = 0)
    (l := [.initializeNode 0,.timers 0 true false]) (by decide)
  obtain ⟨hcand₀,hterm₀,hcand₁,hterm₁⟩ := of_decide_eq_true hp
  refine ⟨s,hcand₀,?_,(tallyExact_iff 5 s hs 1 hcand₁).mpr hterm₁⟩
  rw [tallyExact_iff 5 s hs 0 hcand₀,hterm₀]
  decide

/-- Servers 1 and 2 have voted for server 0, which has voted for itself and handled both replies:
three of five, and it counts two and stays a candidate. -/
theorem not_tallyExact_five : ¬∀ s, (raftVotes 5).Reachable s →
    ∀ k, (s.1.servers k).state = .candidate → TallyExact s k := by
  intro h
  obtain ⟨s,hs,hp⟩ := TransitionSystem.exists_reachable_of_exec (T := raftVotes 5)
    (p := fun s => (s.1.servers 0).state = .candidate ∧ (s.1.servers 0).votes = 2 ∧
      (votersOf s.2 1 0).card = majorityMinimum 5 ∧ ¬TallyExact s 0)
    (l := [.initializeNode 0,.initializeNode 1,.initializeNode 2,.timers 0 true false,.deliver 1 0,
      .deliver 2 0,.takeBatch 1,.takeBatch 2,.process 1 0,.process 2 0,.deliver 0 0,.deliver 0 0,
      .takeBatch 0,.process 0 0,.process 0 0]) (by decide)
  obtain ⟨hcand,-,-,hnot⟩ := of_decide_eq_true hp
  exact hnot (h s hs 0 hcand)

end PucRio.Raft
