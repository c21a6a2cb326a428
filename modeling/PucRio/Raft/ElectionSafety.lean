import PucRio.Raft.Cluster
import Mathlib.Data.Fintype.Card
import Mathlib.Tactic.Linarith

/-! Election safety. A stale request for a vote is granted in the voter's present term, so one
server can be counted several times by one candidate; as long as that does not happen, the votes
of a term are bounded by the servers that cast them and two leaders of one term cannot be. -/
namespace PucRio.Raft
variable {n : ℕ}

/-- No two servers lead in the same term. -/
def ElectionSafe (c : Cluster n) : Prop :=
  ∀ i j, (c.servers i).state = .leader → (c.servers j).state = .leader →
    (c.servers i).currentTerm = (c.servers j).currentTerm → i = j

instance (c : Cluster n) : Decidable (ElectionSafe c) :=
  inferInstanceAs (Decidable (∀ _ _, _ → _ → _ → _))

/-- A request for a vote is handled only if it is not from a past term, or if the vote of the
present term is already with another server. -/
def NoStaleGrant (c : Cluster n) : Action n → Prop
  | .process i k =>
    match (c.servers i).toProcess[k]? with
    | some (.requestVote term candidateId) =>
      term < (c.servers i).currentTerm →
        (c.servers i).votedFor ≠ none ∧ (c.servers i).votedFor ≠ some candidateId
    | _ => True
  | _ => True

instance (c : Cluster n) (a : Action n) : Decidable (NoStaleGrant c a) := by
  unfold NoStaleGrant
  split
  · split <;> infer_instance
  · infer_instance

/-- A reply that a candidate of term `t` counts. -/
def Task.grants (t : ℕ) : Task n → Bool
  | .replyRequestVote voteReply => voteReply.term = t ∧ voteReply.voteGranted = some true
  | _ => false

/-- The servers that granted `k` their vote of term `t`, according to the history `g`. -/
def voters (g : Fin n → ℕ → Option (Fin n)) (t : ℕ) (k : Fin n) : Finset (Fin n) :=
  Finset.univ.filter (fun s => g s t = some k)

@[simp] theorem mem_voters {g : Fin n → ℕ → Option (Fin n)} {t : ℕ} {k s : Fin n} :
    s ∈ voters g t k ↔ g s t = some k := by simp [voters]

/-- The votes cast so far are a map `g` from voter and term; a candidate's votes, counted and on
their way, are at most its voters. -/
structure VoteInv (c : Cluster n) (g : Fin n → ℕ → Option (Fin n)) : Prop where
  granted_le : ∀ s t k, g s t = some k →
    t ≤ (c.servers s).currentTerm ∧ t ≤ (c.servers k).currentTerm
  granted_held : ∀ s k, g s (c.servers s).currentTerm = some k →
    (c.servers s).votedFor = some k ∧ (c.servers s).state = .follower
  self_vote : ∀ s, (c.servers s).state ≠ .follower →
    (c.servers s).currentTerm = 0 ∨ (c.servers s).votedFor = some s
  request : ∀ d t k, .requestVote t k ∈ c.pending d →
    1 ≤ t ∧ t ≤ (c.servers k).currentTerm ∧ k ≠ d
  request_once : ∀ d t k, (c.pending d).countP (· = .requestVote t k) +
    (if g d t = some k then 1 else 0) ≤ 1
  tally : ∀ k t, (c.pending k).countP (Task.grants t) +
    (if (c.servers k).currentTerm = t then (c.servers k).votes else 0) ≤ (voters g t k).card
  leader : ∀ k, (c.servers k).state = .leader → majorityMinimum n ≤ (c.servers k).votes

theorem voteInv_init : VoteInv (Cluster.init n) (fun _ _ => none) where
  granted_le := by simp
  granted_held := by simp
  self_vote s _ := .inl rfl
  request := by simp [Cluster.init,Cluster.pending]
  request_once := by simp [Cluster.init,Cluster.pending]
  tally k t := by
    have hv : ∀ k : Fin n, ((Cluster.init n).servers k).votes = 0 := fun _ => rfl
    simp only [hv,ite_self,Nat.add_zero]
    simp [Cluster.init,Cluster.pending]
  leader := by simp [Cluster.init]

theorem neutral_not_request (t : ℕ) (k : Fin n) (task : Task n) (h : task.neutral) :
    decide (task = .requestVote t k) = false := by
  cases task <;> simp_all [Task.neutral]

theorem neutral_not_grants (t : ℕ) (task : Task n) (h : task.neutral) :
    task.grants t = false := by
  cases task <;> simp_all [Task.neutral,Task.grants]

theorem mem_pending_iff (c : Cluster n) (d : Fin n) (task : Task n) :
    task ∈ c.pending d ↔ 0 < (c.pending d).countP (· = task) := by
  simp [List.countP_pos_iff]

theorem mem_pending_of_shuffles {c c' : Cluster n} (h : c.Shuffles c') {d : Fin n} {t : ℕ}
    {k : Fin n} (hm : .requestVote t k ∈ c'.pending d) : .requestVote t k ∈ c.pending d := by
  rw [mem_pending_iff] at hm ⊢
  exact hm.trans_le (h.pending d _ (neutral_not_request t k))

theorem VoteInv.shuffles {c c' : Cluster n} {g : Fin n → ℕ → Option (Fin n)} (h : VoteInv c g)
    (hs : c.Shuffles c') : VoteInv c' g where
  granted_le s t k hg := by
    rw [(hs.vote s).currentTerm,(hs.vote k).currentTerm]
    exact h.granted_le s t k hg
  granted_held s k hg := by
    rw [(hs.vote s).currentTerm] at hg
    rw [(hs.vote s).votedFor,(hs.vote s).state]
    exact h.granted_held s k hg
  self_vote s hf := by
    rw [(hs.vote s).state] at hf
    rw [(hs.vote s).currentTerm,(hs.vote s).votedFor]
    exact h.self_vote s hf
  request d t k hm := by
    rw [(hs.vote k).currentTerm]
    exact h.request d t k (mem_pending_of_shuffles hs hm)
  request_once d t k := by
    have := hs.pending d _ (neutral_not_request t k)
    have := h.request_once d t k
    omega
  tally k t := by
    have := hs.pending k _ (neutral_not_grants t)
    have := h.tally k t
    rw [(hs.vote k).currentTerm,(hs.vote k).votes]
    omega
  leader k hl := by
    rw [(hs.vote k).state] at hl
    rw [(hs.vote k).votes]
    exact h.leader k hl

/-- Two leaders of a term would share a voter, who voted once. -/
theorem VoteInv.electionSafe {c : Cluster n} {g : Fin n → ℕ → Option (Fin n)}
    (h : VoteInv c g) : ElectionSafe c := by
  intro i j hi hj ht
  by_contra hij
  have hvi := h.tally i (c.servers i).currentTerm
  have hvj := h.tally j (c.servers i).currentTerm
  rw [if_pos rfl] at hvi
  rw [if_pos ht.symm] at hvj
  have hdisj : Disjoint (voters g (c.servers i).currentTerm i)
      (voters g (c.servers i).currentTerm j) := by
    rw [Finset.disjoint_left]
    intro s hs hs'
    exact hij (Option.some.inj ((mem_voters.mp hs).symm.trans (mem_voters.mp hs')))
  have hcard := Finset.card_le_univ (voters g (c.servers i).currentTerm i ∪
    voters g (c.servers i).currentTerm j)
  rw [Finset.card_union_of_disjoint hdisj,Fintype.card_fin] at hcard
  have := h.leader i hi
  have := h.leader j hj
  have := lt_two_mul_majorityMinimum n
  omega

section Commit
variable {c : Cluster n} {g : Fin n → ℕ → Option (Fin n)} {i : Fin n} {r : Server n × Sent n}

theorem countP_commit_neutral (hq : (c.servers i).SameQueues r.1) (hn : ∀ m ∈ r.2, m.2.neutral)
    (d : Fin n) (p : Task n → Bool) (hp : ∀ task : Task n, task.neutral → p task = false) :
    ((c.commit i r).pending d).countP p = (c.pending d).countP p := by
  rw [Cluster.countP_pending_commit c i r hq,Nat.add_eq_left,List.countP_eq_zero]
  intro m hm
  simp [hp _ (hn m hm)]

theorem currentTerm_le_commit (hle : (c.servers i).currentTerm ≤ r.1.currentTerm) (s : Fin n) :
    (c.servers s).currentTerm ≤ ((c.commit i r).servers s).currentTerm := by
  by_cases h : s = i
  · subst h; simpa using hle
  · simp [h]

theorem VoteInv.stepDown (h : VoteInv c g) (hq : (c.servers i).SameQueues r.1)
    (hd : (c.servers i).StepsDown r.1) (hn : ∀ m ∈ r.2, m.2.neutral) :
    VoteInv (c.commit i r) g := by
  have hterm := currentTerm_le_commit (c := c) (i := i) (r := r) (by rcases hd.term with h | h <;> omega)
  have hcount := countP_commit_neutral hq hn
  constructor
  · intro s t k hg
    have := h.granted_le s t k hg
    exact ⟨this.1.trans (hterm s),this.2.trans (hterm k)⟩
  · intro s k hg
    by_cases hs : s = i
    · subst hs
      simp only [Cluster.commit_servers,Function.update_self] at hg
      rcases hd.term with hlt | ⟨heq,hc⟩
      · have := (h.granted_le s _ k hg).1
        omega
      · rw [heq] at hg
        have := (h.granted_held s k hg).2
        rw [hc] at this
        contradiction
    · simp only [Cluster.commit_servers,Function.update_of_ne hs] at hg ⊢
      exact h.granted_held s k hg
  · intro s hf
    by_cases hs : s = i
    · subst hs; simp [hd.state] at hf
    · simp only [Cluster.commit_servers,Function.update_of_ne hs] at hf ⊢
      exact h.self_vote s hf
  · intro d t k hm
    rw [mem_pending_iff,hcount d _ (neutral_not_request t k),← mem_pending_iff] at hm
    obtain ⟨h₁,h₂,h₃⟩ := h.request d t k hm
    exact ⟨h₁,h₂.trans (hterm k),h₃⟩
  · intro d t k
    rw [hcount d _ (neutral_not_request t k)]
    exact h.request_once d t k
  · intro k t
    rw [hcount k _ (neutral_not_grants t)]
    have := h.tally k t
    by_cases hk : k = i
    · subst hk
      simp only [Cluster.commit_servers,Function.update_self,hd.votes,ite_self]
      omega
    · simpa only [Cluster.commit_servers,Function.update_of_ne hk] using this
  · intro k hl
    by_cases hk : k = i
    · subst hk; simp [hd.state] at hl
    · simp only [Cluster.commit_servers,Function.update_of_ne hk] at hl ⊢
      exact h.leader k hl

theorem VoteInv.startElection (h : VoteInv c g) (hq : (c.servers i).SameQueues r.1)
    (he : c.StartsElection i r) : VoteInv (c.commit i r) g := by
  have hterm := currentTerm_le_commit (c := c) (i := i) (r := r) (by rw [he.currentTerm]; omega)
  have hcount (d : Fin n) (p : Task n → Bool) : ((c.commit i r).pending d).countP p =
      (c.pending d).countP p +
        if d ≠ i ∧ p (.requestVote ((c.servers i).currentTerm+1) i) then 1 else 0 := by
    rw [Cluster.countP_pending_commit c i r hq,← countP_addressedTo,he.sent,
      addressedTo_map_const (nodup_others i)]
    by_cases hd : d = i <;> simp [mem_others,hd,List.countP_singleton]
  have hvotes (k : Fin n) (t : ℕ) : (if ((c.commit i r).servers k).currentTerm = t then
      ((c.commit i r).servers k).votes else 0) ≤
      if (c.servers k).currentTerm = t then (c.servers k).votes else 0 := by
    by_cases hk : k = i
    · subst hk; simp [he.votes]
    · simp [hk]
  constructor
  · intro s t k hg
    have := h.granted_le s t k hg
    exact ⟨this.1.trans (hterm s),this.2.trans (hterm k)⟩
  · intro s k hg
    by_cases hs : s = i
    · subst hs
      simp only [Cluster.commit_servers,Function.update_self,he.currentTerm] at hg
      have := (h.granted_le s _ k hg).1
      omega
    · simp only [Cluster.commit_servers,Function.update_of_ne hs] at hg ⊢
      exact h.granted_held s k hg
  · intro s hf
    by_cases hs : s = i
    · subst hs; simp [he.votedFor]
    · simp only [Cluster.commit_servers,Function.update_of_ne hs] at hf ⊢
      exact h.self_vote s hf
  · intro d t k hm
    rw [mem_pending_iff,hcount] at hm
    by_cases hold : 0 < (c.pending d).countP (· = .requestVote t k)
    · obtain ⟨h₁,h₂,h₃⟩ := h.request d t k ((mem_pending_iff ..).mpr hold)
      exact ⟨h₁,h₂.trans (hterm k),h₃⟩
    · split_ifs at hm with hnew
      · obtain ⟨hd,hnew⟩ := hnew
        obtain ⟨rfl,rfl⟩ : (c.servers i).currentTerm+1 = t ∧ i = k := by simpa using hnew
        exact ⟨by omega,by simp [he.currentTerm],Ne.symm hd⟩
      · omega
  · intro d t k
    rw [hcount]
    have hold := h.request_once d t k
    split_ifs at hold ⊢ with hnew hg hg
    · -- a grant in the new term, or a request of it, would be ahead of the candidate's old term
      obtain ⟨-,hnew⟩ := hnew
      obtain ⟨rfl,rfl⟩ : (c.servers i).currentTerm+1 = t ∧ i = k := by simpa using hnew
      have := (h.granted_le _ _ _ hg).2
      omega
    · obtain ⟨-,hnew⟩ := hnew
      obtain ⟨rfl,rfl⟩ : (c.servers i).currentTerm+1 = t ∧ i = k := by simpa using hnew
      have hz : (c.pending d).countP
          (· = .requestVote ((c.servers i).currentTerm+1) i) = 0 := by
        by_contra hpos
        have := (h.request d _ _ ((mem_pending_iff ..).mpr (Nat.pos_of_ne_zero hpos))).2.1
        omega
      omega
    · omega
    · omega
  · intro k t
    rw [hcount,if_neg (by simp [Task.grants])]
    have := h.tally k t
    have := hvotes k t
    omega
  · intro k hl
    by_cases hk : k = i
    · subst hk; simp [he.state] at hl
    · simp only [Cluster.commit_servers,Function.update_of_ne hk] at hl ⊢
      exact h.leader k hl

/-- The history after `i` votes for `k` in term `t`. -/
def recordVote (g : Fin n → ℕ → Option (Fin n)) (i : Fin n) (t : ℕ) (k : Fin n) :
    Fin n → ℕ → Option (Fin n) :=
  fun s u => if s = i ∧ u = t then some k else g s u

theorem voters_subset_recordVote {t : ℕ} {k : Fin n} (hg : g i t = none) (u : ℕ) (x : Fin n) :
    voters g u x ⊆ voters (recordVote g i t k) u x := by
  intro s hs
  rw [mem_voters] at hs ⊢
  by_cases h : s = i ∧ u = t
  · obtain ⟨rfl,rfl⟩ := h
    rw [hg] at hs
    contradiction
  · rwa [recordVote,if_neg h]

theorem card_voters_recordVote {t : ℕ} {k : Fin n} (hg : g i t = none) :
    (voters g t k).card+1 ≤ (voters (recordVote g i t k) t k).card := by
  have hi : i ∉ voters g t k := by simp [hg]
  rw [← Finset.card_insert_of_notMem hi]
  refine Finset.card_le_card (Finset.insert_subset ?_ (voters_subset_recordVote hg t k))
  simp [recordVote]

/-- A vote granted in the request's own term is the first one that the server casts there. -/
theorem VoteInv.no_vote_yet (h : VoteInv c g) {s' : Server n} {t : ℕ} {k : Fin n}
    (hgr : (c.servers i).GrantsTo s' t k) (hle : (c.servers i).currentTerm ≤ t)
    (hnew : g i t ≠ some k) : g i t = none := by
  by_contra hsome
  obtain ⟨k',hk'⟩ := Option.ne_none_iff_exists'.mp hsome
  have heq : t = (c.servers i).currentTerm := le_antisymm (h.granted_le i t k' hk').1 hle
  have hheld := (h.granted_held i k' (heq ▸ hk')).1
  rcases hgr.free with hlt | hnone | hk
  · omega
  · rw [hheld] at hnone; contradiction
  · rw [hheld] at hk
    exact hnew (hk'.trans hk)

theorem VoteInv.grant (h : VoteInv c g) (hq : (c.servers i).SameQueues r.1) {t : ℕ} {k : Fin n}
    (hgr : (c.servers i).GrantsTo r.1 t k)
    (hsent : r.2 = [] ∨ r.2 = [(k,.replyRequestVote
      { term := r.1.currentTerm, voteGranted := some true })])
    (hle : (c.servers i).currentTerm ≤ t) (hpos : 1 ≤ t) (hk : t ≤ (c.servers k).currentTerm)
    (hki : k ≠ i) (hzero : (c.pending i).countP (· = .requestVote t k) = 0)
    (hnew : g i t ≠ some k) : VoteInv (c.commit i r) (recordVote g i t k) := by
  have hnone := h.no_vote_yet hgr hle hnew
  have hterm' : r.1.currentTerm = t := by
    rcases hle.lt_or_eq with hlt | heq
    · exact (hgr.newTerm hlt).1
    · rw [(hgr.oldTerm heq.ge).1,heq]
  have hfollower : r.1.state = .follower := by
    rcases hle.lt_or_eq with hlt | heq
    · exact (hgr.newTerm hlt).2.2
    · rw [(hgr.oldTerm heq.ge).2.2]
      by_contra hf
      -- a candidate or a leader of the term has its vote with itself
      rcases h.self_vote i hf with hz | hself
      · omega
      · rcases hgr.free with hlt | hno | hyes
        · omega
        · rw [hself] at hno; contradiction
        · exact hki (Option.some.inj (hyes.symm.trans hself))
  have hterm := currentTerm_le_commit (c := c) (i := i) (r := r) (by omega)
  have hrequest (d : Fin n) (u : ℕ) (x : Fin n) :
      ((c.commit i r).pending d).countP (· = .requestVote u x) =
        (c.pending d).countP (· = .requestVote u x) := by
    rw [Cluster.countP_pending_commit c i r hq]
    rcases hsent with he | he <;> simp [he]
  have hgrants (d : Fin n) (u : ℕ) : ((c.commit i r).pending d).countP (Task.grants u) ≤
      (c.pending d).countP (Task.grants u) + if d = k ∧ u = t then 1 else 0 := by
    rw [Cluster.countP_pending_commit c i r hq]
    rcases hsent with he | he
    · simp [he]
    · by_cases hd : k = d <;> by_cases hu : t = u <;>
        simp [he,hd,hu,hterm',Task.grants,eq_comm (a := d),eq_comm (a := u)]
  have hvotes (x : Fin n) (u : ℕ) : (if ((c.commit i r).servers x).currentTerm = u then
      ((c.commit i r).servers x).votes else 0) ≤
      if (c.servers x).currentTerm = u then (c.servers x).votes else 0 := by
    by_cases hx : x = i
    · subst hx
      simp only [Cluster.commit_servers,Function.update_self]
      rcases hle.lt_or_eq with hlt | heq
      · simp [(hgr.newTerm hlt).2.1]
      · simp [hgr.oldTerm heq.ge]
    · simp [hx]
  constructor
  · intro s u x hg
    simp only [recordVote] at hg
    split_ifs at hg with hsu
    · obtain ⟨rfl,rfl⟩ := hsu
      obtain rfl := Option.some.inj hg
      exact ⟨by simp [hterm'],hk.trans (hterm _)⟩
    · have := h.granted_le s u x hg
      exact ⟨this.1.trans (hterm s),this.2.trans (hterm x)⟩
  · intro s x hg
    by_cases hs : s = i
    · subst hs
      simp only [Cluster.commit_servers,Function.update_self,hterm',recordVote,and_self,
        if_true] at hg ⊢
      exact ⟨hg ▸ hgr.votedFor,hfollower⟩
    · simp only [Cluster.commit_servers,Function.update_of_ne hs,recordVote,hs,false_and,
        if_false] at hg ⊢
      exact h.granted_held s x hg
  · intro s hf
    by_cases hs : s = i
    · subst hs; simp [hfollower] at hf
    · simp only [Cluster.commit_servers,Function.update_of_ne hs] at hf ⊢
      exact h.self_vote s hf
  · intro d u x hm
    rw [mem_pending_iff,hrequest,← mem_pending_iff] at hm
    obtain ⟨h₁,h₂,h₃⟩ := h.request d u x hm
    exact ⟨h₁,h₂.trans (hterm x),h₃⟩
  · intro d u x
    rw [hrequest]
    have hold := h.request_once d u x
    by_cases hdu : d = i ∧ u = t
    · obtain ⟨rfl,rfl⟩ := hdu
      by_cases hx : x = k
      · subst hx; simp [hzero,recordVote]
      · have hne : ¬ recordVote g d u k d u = some x := by simp [recordVote,Ne.symm hx]
        rw [if_neg hne]
        omega
    · simpa only [recordVote,if_neg hdu] using hold
  · intro x u
    have hold := h.tally x u
    have hv := hvotes x u
    have hg := hgrants x u
    split_ifs at hg with hxu
    · obtain ⟨rfl,rfl⟩ := hxu
      have := card_voters_recordVote (k := x) hnone
      omega
    · have := Finset.card_le_card (voters_subset_recordVote (k := k) hnone u x)
      omega
  · intro x hl
    by_cases hx : x = i
    · subst hx; simp [hfollower] at hl
    · simp only [Cluster.commit_servers,Function.update_of_ne hx] at hl ⊢
      exact h.leader x hl

theorem VoteInv.countVote (h : VoteInv c g) (hq : (c.servers i).SameQueues r.1) {m : ℕ}
    (ht : (c.servers i).Tallies r.1 m) (hsent : r.2 = [])
    (hslack : (c.pending i).countP (Task.grants (c.servers i).currentTerm) +
      (c.servers i).votes + m ≤ (voters g (c.servers i).currentTerm i).card) :
    VoteInv (c.commit i r) g := by
  have hterm (s : Fin n) : ((c.commit i r).servers s).currentTerm =
      (c.servers s).currentTerm := by
    by_cases hs : s = i
    · subst hs; simp [ht.currentTerm]
    · simp [hs]
  have hcount := countP_commit_neutral (c := c) (r := r) hq (by simp [hsent])
  constructor
  · intro s t k hg
    rw [hterm,hterm]
    exact h.granted_le s t k hg
  · intro s k hg
    rw [hterm] at hg
    have hheld := h.granted_held s k hg
    by_cases hs : s = i
    · subst hs
      rw [ht.candidate] at hheld
      exact absurd hheld.2 (by decide)
    · simpa only [Cluster.commit_servers,Function.update_of_ne hs] using hheld
  · intro s hf
    rw [hterm]
    by_cases hs : s = i
    · subst hs
      simpa [ht.votedFor] using h.self_vote s (by simp [ht.candidate])
    · simp only [Cluster.commit_servers,Function.update_of_ne hs] at hf ⊢
      exact h.self_vote s hf
  · intro d t k hm
    rw [mem_pending_iff,hcount d _ (neutral_not_request t k),← mem_pending_iff] at hm
    rw [hterm]
    exact h.request d t k hm
  · intro d t k
    rw [hcount d _ (neutral_not_request t k)]
    exact h.request_once d t k
  · intro k t
    rw [hcount k _ (neutral_not_grants t),hterm]
    have := h.tally k t
    by_cases hk : k = i
    · subst hk
      simp only [Cluster.commit_servers,Function.update_self,ht.votes]
      split_ifs at this ⊢ with he
      · subst he; omega
      · omega
    · simpa only [Cluster.commit_servers,Function.update_of_ne hk] using this
  · intro k hl
    by_cases hk : k = i
    · subst hk
      simp only [Cluster.commit_servers,Function.update_self] at hl ⊢
      rcases ht.state with hc | ⟨-,hm⟩
      · rw [hc] at hl; contradiction
      · exact hm
    · simp only [Cluster.commit_servers,Function.update_of_ne hk] at hl ⊢
      exact h.leader k hl

end Commit

theorem processRequestVote_sent_ne_nil {me k : Fin n} (s : Server n) (t : ℕ) (hk : k ≠ me) :
    (processRequestVote me s t k).2 ≠ [] := by
  have hsend : ∀ (s : Server n) (task : Task n), (sendTo me s k task).2 ≠ [] := by
    intro s task
    rw [sendTo,if_neg hk]
    exact List.cons_ne_nil _ _
  simp only [processRequestVote]
  split_ifs <;> exact hsend _ _

/-- A step that grants no stale request keeps the votes of every term accounted for: what the
history has more is what the step casts for another server. -/
theorem VoteInv.step {c c' : Cluster n} {a : Action n} {g : Fin n → ℕ → Option (Fin n)}
    (h : VoteInv c g) (hguard : NoStaleGrant c a) (hs : c.step a = some c') :
    ∃ g', VoteInv c' g' ∧ ∀ s t k, g' s t = some k → g s t = some k ∨
      s ≠ k ∧ ∃ v ∈ c.votesCast a, v.voter = s ∧ v.term = t ∧ v.candidate = k := by
  rcases Cluster.step_cases hs with ⟨hsh,-⟩ | ⟨i,r,he,hq,rfl,-⟩ |
    ⟨i,k,task,r,rfl,htask,hr,hq,rfl,hvotes⟩
  · exact ⟨g,h.shuffles hsh,fun _ _ _ => .inl⟩
  · exact ⟨g,h.startElection hq he,fun _ _ _ => .inl⟩
  · have hc := h.shuffles (c.shuffles_consume i k)
    have hsame := (c.shuffles_consume i k).vote i
    have hcount := Cluster.countP_pending_consume htask
    simp only [NoStaleGrant,htask] at hguard
    have hh := hr ▸ processTask_handles i ((c.consume i k).servers i) task
    cases hh with
    | quiet same neutral =>
      exact ⟨g,hc.shuffles (Cluster.shuffles_commit _ i r hq same neutral),fun _ _ _ => .inl⟩
    | stepDown down neutral => exact ⟨g,hc.stepDown hq down neutral,fun _ _ _ => .inl⟩
    | @grant t cand r grants sent =>
      have hmem : .requestVote t cand ∈ c.pending i := by
        simp only [Cluster.pending,List.mem_append]
        exact .inl (.inl (List.mem_of_getElem? htask))
      obtain ⟨hpos,hknown,hne⟩ := h.request i t cand hmem
      have honce := h.request_once i t cand
      have := hcount (· = .requestVote t cand)
      simp only [decide_true,if_true] at this
      have hle : (c.servers i).currentTerm ≤ t := by
        by_contra hlt
        obtain ⟨h₁,h₂⟩ := hguard (by omega)
        rcases grants.free with hf | hf | hf
        · rw [hsame.currentTerm] at hf; omega
        · exact h₁ (hsame.votedFor ▸ hf)
        · exact h₂ (hsame.votedFor ▸ hf)
      have hreply := sent.resolve_left
        (hr ▸ processRequestVote_sent_ne_nil ((c.consume i k).servers i) t hne)
      have hterm : r.1.currentTerm = t := by
        rcases hle.lt_or_eq with hlt | heq
        · exact (grants.newTerm (by rw [hsame.currentTerm]; exact hlt)).1
        · rw [(grants.oldTerm (by rw [hsame.currentTerm]; exact heq.ge)).1,hsame.currentTerm,heq]
      refine ⟨_,hc.grant hq grants sent (hsame.currentTerm ▸ hle) hpos ?_ hne (by omega) ?_,?_⟩
      · rw [((c.shuffles_consume i k).vote cand).currentTerm]; exact hknown
      · intro hg; rw [if_pos hg] at honce; omega
      · intro s u x hg
        simp only [recordVote] at hg
        split_ifs at hg with hsu
        · obtain ⟨rfl,rfl⟩ := hsu
          obtain rfl := Option.some.inj hg
          refine .inr ⟨hne.symm,⟨s,r.1.currentTerm,cand,u⟩,?_,rfl,hterm,rfl⟩
          rw [hvotes,hreply]
          exact List.mem_singleton_self _
        · exact .inl hg
    | @tally v r term tallies sent =>
      refine ⟨g,hc.countVote hq tallies sent ?_,fun _ _ _ => .inl⟩
      have hold := h.tally i (c.servers i).currentTerm
      have := hcount (Task.grants (c.servers i).currentTerm)
      rw [hsame.currentTerm] at term
      rw [if_pos rfl] at hold
      simp only [Task.grants,term,true_and,decide_eq_true_eq] at this
      rw [hsame.currentTerm,hsame.votes]
      omega

/-- In every run that grants no stale request, at any number of servers, at most one server
leads in a term. -/
theorem electionSafe_of_noStaleGrant (n : ℕ) (c : Cluster n)
    (h : (raft n).ReachableUnder NoStaleGrant c) : ElectionSafe c := by
  obtain ⟨g,hg⟩ : ∃ g, VoteInv c g :=
    h.invariant (I := fun c => ∃ g, VoteInv c g) ⟨_,voteInv_init⟩
      fun _ _ _ ⟨_,hg⟩ hguard hs => (hg.step hguard hs).imp fun _ hg' => hg'.1
  exact hg.electionSafe

/-- Server 0 leads term 1 of a cluster of five with the votes of 1, 2 and 3. -/
theorem electionSafe_of_noStaleGrant_five :
    ∃ c : Cluster 5, (c.servers 0).state = .leader ∧ ElectionSafe c := by
  obtain ⟨c,hc,hl⟩ := TransitionSystem.exists_reachableUnder_of_execUnder (T := raft 5)
    (G := NoStaleGrant) (p := fun c => (c.servers 0).state = .leader)
    (l := [.initializeNode 0,.initializeNode 1,.initializeNode 2,.initializeNode 3,
      .timers 0 true false,.deliver 1 0,.deliver 2 0,.deliver 3 0,.takeBatch 1,.takeBatch 2,
      .takeBatch 3,.process 1 0,.process 2 0,.process 3 0,.deliver 0 0,.deliver 0 0,
      .deliver 0 0,.takeBatch 0,.process 0 0,.process 0 0,.process 0 0]) (by decide)
  exact ⟨c,of_decide_eq_true hl,electionSafe_of_noStaleGrant 5 c hc⟩

/-- The five ports of `ports.txt`: servers 0 and 1 time out three times, and their requests of
term 3 arrive at servers 2 and 3 before those of terms 1 and 2. -/
def overtakenRequests : List (Action 5) :=
  [.initializeNode 0,.initializeNode 1,.initializeNode 2,.initializeNode 3,
    .timers 0 true false,.timers 0 true false,.timers 0 true false,
    .timers 1 true false,.timers 1 true false,.timers 1 true false,
    .deliver 2 2,.deliver 2 0,.deliver 2 0,.takeBatch 2,.process 2 0,.process 2 0,.process 2 0,
    .deliver 3 5,.deliver 3 3,.deliver 3 3,.takeBatch 3,.process 3 0,.process 3 0,.process 3 0,
    .deliver 0 3,.deliver 0 3,.deliver 0 3,.takeBatch 0,.process 0 0,.process 0 0,.process 0 0,
    .deliver 1 3,.deliver 1 3,.deliver 1 3,.takeBatch 1,.process 1 0,.process 1 0,.process 1 0]

/-- Server 2 votes three times for server 0 in term 3, server 3 three times for server 1, and
both candidates count three votes. -/
theorem not_electionSafe_five : ¬ ∀ c, (raft 5).Reachable c → ElectionSafe c := by
  intro h
  obtain ⟨c,hc,hn⟩ := TransitionSystem.exists_reachable_of_exec (T := raft 5)
    (l := overtakenRequests) (p := fun c => ¬ ElectionSafe c) (by decide)
  exact of_decide_eq_true hn (h c hc)

end PucRio.Raft
