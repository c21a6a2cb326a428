import PucRio.Consensus.Network

/-! Whose estimates a coordinator has counted when it leaves phase 2. It counts the entries of its log,
and an entry of the same node stays beside a new one when it has as many values, or another `ts`. -/
namespace PucRio.Consensus
variable {N M : ℕ}

/-- The log keeps one of two estimates of a node: they have one `ts`, and one has more values. -/
def Message.Replaces (n : MSSNode N M) : Message N M → Prop
  | .estimate mssNode roundR newV _ ts =>
    ∀ e ∈ n.log roundR, e.mssNode = mssNode → e.ts = ts ∧ e.v.card ≠ newV.card
  | _ => True

instance (n : MSSNode N M) : (m : Message N M) → Decidable (m.Replaces n)
  | .estimate .. => inferInstanceAs (Decidable (∀ e ∈ n.log _, _ → _ ∧ _))
  | .init2 | .newEstimate .. | .positiveAck .. | .negativeAck .. | .decided .. =>
    inferInstanceAs (Decidable True)

/-- The log that a handled estimate finds keeps one estimate of its node. -/
def Replaces (s : Network N M) : Action N M → Prop
  | .deliver k => ∀ m ∈ s.inFlight[k]?, m.2.Replaces (s.nodes m.1)
  | _ => True

instance (s : Network N M) : (a : Action N M) → Decidable (Replaces s a)
  | .deliver k => inferInstanceAs (Decidable (∀ m ∈ s.inFlight[k]?, m.2.Replaces (s.nodes m.1)))
  | .startConsensus .. | .propose .. | .suspect .. | .onPhaseChanged .. =>
    inferInstanceAs (Decidable True)

/-- The log of a round has estimates of that round, each of another node. -/
structure OnePerNode (r : ℕ) (logEntries : List (LogEntry N)) : Prop where
  roundR_eq : ∀ e ∈ logEntries, e.roundR = r
  nodup : (logEntries.map LogEntry.mssNode).Nodup

theorem le_foldr_max {l : List ℕ} {a b : ℕ} (h : a ∈ l ∨ a = b) : a ≤ l.foldr max b := by
  induction l with
  | nil => exact (h.resolve_left List.not_mem_nil).le
  | cons c l ih =>
    rw [List.foldr_cons]
    rcases h with h | rfl
    · rcases List.mem_cons.mp h with rfl | h
      · exact le_max_left _ _
      · exact (ih (.inl h)).trans (le_max_right _ _)
    · exact (ih (.inr rfl)).trans (le_max_right _ _)

theorem OnePerNode.updateLog {r : ℕ} {logEntries : List (LogEntry N)} {e : LogEntry N}
    (h : OnePerNode r logEntries) (hr : e.roundR = r)
    (he : ∀ e' ∈ logEntries, e'.mssNode = e.mssNode → e'.ts = e.ts ∧ e'.v.card ≠ e.v.card) :
    OnePerNode r (MSSNode.updateLog logEntries e) where
  roundR_eq e' he' := by
    rcases MSSNode.mem_updateLog he' with he' | rfl
    · exact h.roundR_eq e' he'
    · exact hr
  nodup := by
    unfold MSSNode.updateLog
    dsimp only
    generalize hmax : List.foldr max e.v.card _ = maxVsize
    have hold : ∀ e' ∈ logEntries, e'.mssNode = e.mssNode → e'.ts = e.ts → e'.v.card ≤ maxVsize := by
      intro e' he' hnode hts
      rw [← hmax]
      apply le_foldr_max
      left
      refine List.mem_map_of_mem (List.mem_filter.mpr ⟨List.mem_append_left _ he',?_⟩)
      simp [hnode,hts]
    have hnew : e.v.card ≤ maxVsize := hmax ▸ le_foldr_max (.inr rfl)
    rw [List.Nodup,List.pairwise_map,List.pairwise_filter,List.pairwise_append]
    refine ⟨?_,List.pairwise_singleton _ _,?_⟩
    · exact (List.pairwise_map.mp h.nodup).imp fun hne _ _ => hne
    · intro e' he' e'' he'' hkept' hkept hnode
      obtain rfl := List.mem_singleton.mp he''
      obtain ⟨hts,hcard⟩ := he e' he' hnode
      have hle := hold e' he' hnode hts
      simp [hnode,hts] at hkept' hkept
      omega

namespace MSSNode
variable {c : Config N M} {i : Fin N} {n : MSSNode N M}

theorem log_handleEstimate {j : Fin N} {r ts : ℕ} {v : Finset String} {p : Finset (Fin M)} :
    (n.handleEstimate c j r v p ts).log =
      Function.update n.log r (updateLog (n.log r) ⟨j,r,v,ts⟩) := by
  unfold handleEstimate
  dsimp only
  split_ifs <;> rfl

/-- Only an estimate is logged. -/
theorem log_handleMessage {m : Message N M}
    (hm : ∀ j r v p ts, m ≠ .estimate j r v p ts) : (n.handleMessage c i m).1.log = n.log := by
  cases m with
  | estimate j r v p ts => exact absurd rfl (hm j r v p ts)
  | init2 =>
    unfold handleMessage handleInit
    split_ifs <;> rfl
  | newEstimate j r v p e =>
    unfold handleMessage handleNewEstimate
    dsimp only
    split_ifs <;> rfl
  | positiveAck j r => rfl
  | negativeAck j r => rfl
  | decided v =>
    unfold handleMessage handleDecide
    split_ifs <;> rfl

theorem log_handlePropose {mh : Fin M} {r : MSSNode N M × Sent N M}
    (h : n.handlePropose c i mh = some r) : r.1.log = n.log := by
  unfold handlePropose at h
  dsimp only at h
  split_ifs at h
  · exact Option.some.inj h ▸ rfl
  · obtain ⟨_,-,rfl⟩ := Option.map_eq_some_iff.mp h
    rfl
  · exact Option.some.inj h ▸ rfl

theorem log_onPhaseChanged {k : ℕ} {r : MSSNode N M × Sent N M}
    (h : n.onPhaseChanged c i k = some r) : r.1.log = n.log := by
  obtain rfl | ⟨-,hr⟩ | ⟨-,-,-,hr⟩ | ⟨-,coordinator,rfl⟩ | ⟨-,rfl⟩ := onPhaseChanged_cases h
  · rfl
  · obtain ⟨_,-,rfl⟩ := Option.map_eq_some_iff.mp hr
    rfl
  · obtain ⟨_,-,rfl⟩ := Option.map_eq_some_iff.mp hr
    rfl
  · rfl
  · unfold phase4Callback
    split_ifs <;> rfl

/-- No message leads from phase 2 to phase 3. -/
theorem roundPhase_handleMessage {m : Message N M} (h : n.roundPhase = 2) :
    (n.handleMessage c i m).1.roundPhase ≠ 3 := by
  have hne : n.roundPhase ≠ 3 := by omega
  cases m with
  | init2 =>
    unfold handleMessage handleInit
    rw [if_neg (by omega)]
    exact hne
  | estimate j r v p ts =>
    unfold handleMessage handleEstimate
    dsimp only
    split_ifs <;> exact hne
  | newEstimate j r v p e =>
    unfold handleMessage handleNewEstimate
    dsimp only
    rw [if_neg hne]
    exact hne
  | positiveAck j r => exact hne
  | negativeAck j r => exact hne
  | decided v =>
    unfold handleMessage handleDecide
    split_ifs
    · exact hne
    · exact Nat.zero_ne_add_one 2

theorem roundPhase_handlePropose {mh : Fin M} {r : MSSNode N M × Sent N M}
    (h : n.handlePropose c i mh = some r) : r.1.roundPhase = n.roundPhase := by
  unfold handlePropose at h
  dsimp only at h
  split_ifs at h
  · exact Option.some.inj h ▸ rfl
  · obtain ⟨_,-,rfl⟩ := Option.map_eq_some_iff.mp h
    rfl
  · exact Option.some.inj h ▸ rfl

end MSSNode

/-- Every log has one estimate of each node at most. -/
def Distinct (s : Network N M) : Prop := ∀ i r, OnePerNode r ((s.nodes i).log r)

namespace Distinct
variable {c : Config N M} {s s' : Network N M} {i : Fin N} {k : ℕ}

theorem commit (h : Distinct s) {t : Network N M} (ht : t.nodes = s.nodes)
    {r : MSSNode N M × Sent N M} (hr : ∀ u, OnePerNode u (r.1.log u)) : Distinct (t.commit i r) := by
  intro j u
  rw [Network.commit_nodes,ht]
  by_cases hj : j = i
  · subst hj
    rw [Function.update_self]
    exact hr u
  · rw [Function.update_of_ne hj]
    exact h j u

theorem handleMessage (h : Distinct s) {m : Message N M} (hm : m.Replaces (s.nodes i)) (u : ℕ) :
    OnePerNode u (((s.nodes i).handleMessage c i m).1.log u) := by
  cases m with
  | estimate j r v p ts =>
    show OnePerNode u (((s.nodes i).handleEstimate c j r v p ts).log u)
    rw [MSSNode.log_handleEstimate]
    by_cases hu : u = r
    · subst hu
      rw [Function.update_self]
      exact (h i u).updateLog rfl hm
    · rw [Function.update_of_ne hu]
      exact h i u
  | init2 | newEstimate | positiveAck | negativeAck | decided =>
    rw [MSSNode.log_handleMessage (by simp)]
    exact h i u

theorem step {a : Action N M} (h : Distinct s) (hg : Replaces s a) (hs : s.step c a = some s') :
    Distinct s' := by
  cases a with
  | startConsensus i =>
    simp only [Network.step] at hs
    split_ifs at hs
    obtain rfl := Option.some.inj hs
    refine h.commit rfl fun u => ?_
    have hlog := MSSNode.log_handleMessage (c := c) (i := i) (n := s.nodes i) (m := .init2) (by simp)
    exact hlog ▸ h i u
  | propose i mh =>
    simp only [Network.step] at hs
    split_ifs at hs
    obtain ⟨r,hr,rfl⟩ := Option.map_eq_some_iff.mp hs
    exact h.commit rfl fun u => MSSNode.log_handlePropose hr ▸ h i u
  | suspect i suspectedMSSs =>
    obtain rfl := Option.some.inj hs
    exact h.commit rfl fun u => h i u
  | deliver k =>
    simp only [Network.step] at hs
    split at hs
    next i m hk =>
      split_ifs at hs
      obtain rfl := Option.some.inj hs
      exact h.commit rfl (h.handleMessage (hg (i,m) hk))
    next => cases hs
  | onPhaseChanged i k =>
    obtain ⟨r,hr,rfl⟩ := Option.map_eq_some_iff.mp hs
    exact h.commit rfl fun u => MSSNode.log_onPhaseChanged hr ▸ h i u

end Distinct

/-- The log of the round has estimates of that round from a majority of the nodes. -/
def Quorum (n : MSSNode N M) : Prop :=
  (∀ e ∈ n.log n.roundR, e.roundR = n.roundR) ∧ Majority (senders (n.log n.roundR))

/-- From phase 2 to phase 3 leads the callback only, when the log is longer than half of the nodes. -/
theorem length_of_leaves {c : Config N M} {s s' : Network N M} {a : Action N M} {i : Fin N}
    (hs : s.step c a = some s') (h₂ : (s.nodes i).roundPhase = 2)
    (h₃ : (s'.nodes i).roundPhase = 3) : N < 2*((s.nodes i).log (s.nodes i).roundR).length := by
  -- the step is one of node `i`, and it is no message
  have hcommit {j : Fin N} {t : Network N M} {r : MSSNode N M × Sent N M}
      (ht : t.nodes = s.nodes) (hr : (s.nodes j).roundPhase = 2 → r.1.roundPhase ≠ 3) :
      s' = t.commit j r → N < 2*((s.nodes i).log (s.nodes i).roundR).length := by
    rintro rfl
    rw [Network.commit_nodes,ht] at h₃
    by_cases hij : i = j
    · subst hij
      rw [Function.update_self] at h₃
      exact absurd h₃ (hr h₂)
    · rw [Function.update_of_ne hij] at h₃
      omega
  cases a with
  | startConsensus j =>
    simp only [Network.step] at hs
    split_ifs at hs
    exact hcommit rfl (MSSNode.roundPhase_handleMessage (m := .init2) (c := c))
      (Option.some.inj hs).symm
  | propose j mh =>
    simp only [Network.step] at hs
    split_ifs at hs
    obtain ⟨r,hr,rfl⟩ := Option.map_eq_some_iff.mp hs
    exact hcommit rfl (fun h => by rw [MSSNode.roundPhase_handlePropose hr]; omega) rfl
  | suspect j suspectedMSSs =>
    exact hcommit rfl (fun h h₃ => absurd (h.symm.trans h₃) (by decide)) (Option.some.inj hs).symm
  | deliver k =>
    simp only [Network.step] at hs
    split at hs
    next j m hk =>
      split_ifs at hs
      exact hcommit (Network.take_nodes s k) MSSNode.roundPhase_handleMessage
        (Option.some.inj hs).symm
    next => cases hs
  | onPhaseChanged j k =>
    obtain ⟨r,hr,rfl⟩ := Option.map_eq_some_iff.mp hs
    obtain rfl | ⟨hp,-⟩ | ⟨-,-,hlen,-⟩ | ⟨hp,-⟩ | ⟨hp,-⟩ := MSSNode.onPhaseChanged_cases hr
    · exact hcommit rfl (fun h h₃ => absurd (h.symm.trans h₃) (by decide)) rfl
    · exact hcommit rfl (fun h => absurd (h.symm.trans hp) (by decide)) rfl
    · by_cases hij : i = j
      · exact hij ▸ hlen
      · rw [Network.commit_nodes,Function.update_of_ne hij] at h₃
        omega
    · exact hcommit rfl (fun h => absurd (h.symm.trans hp) (by decide)) rfl
    · exact hcommit rfl (fun h => absurd (h.symm.trans hp) (by decide)) rfl

/-- As long as the log keeps one of two estimates of a node, a coordinator that leaves phase 2 has
estimates of a majority. -/
theorem quorum_of_replaces (c : Config N M) {s s' : Network N M} {a : Action N M} {i : Fin N}
    (h : (consensus c).ReachableUnder Replaces s) (hs : (consensus c).step s a = some s')
    (h₂ : (s.nodes i).roundPhase = 2) (h₃ : (s'.nodes i).roundPhase = 3) : Quorum (s.nodes i) := by
  have hdistinct : Distinct s := by
    refine h.invariant (fun i r => ⟨?_,?_⟩) fun _ _ _ h hg hs => h.step hg hs
    · exact fun _ he => absurd he List.not_mem_nil
    · exact List.nodup_nil
  obtain ⟨hround,hnodup⟩ := hdistinct i (s.nodes i).roundR
  refine ⟨hround,?_⟩
  rw [Majority,Fintype.card_fin,senders,List.toFinset_card_of_nodup hnodup,List.length_map]
  exact length_of_leaves hs h₂ h₃

/-- Three nodes with the ids 1 to 3 and two mobile hosts; the values of both are wanted. -/
def three : Config 3 2 := ⟨fun i => i+1,fun mh => if mh.val = 0 then "a" else "b",2⟩

/-- Node 1, the coordinator of round 1, has the estimates of nodes 1 and 0. -/
theorem quorum_of_replaces_three : ∃ s s', (consensus three).ReachableUnder Replaces s ∧
    (consensus three).step s (.onPhaseChanged 1 0) = some s' ∧ Quorum (s.nodes 1) := by
  obtain ⟨s,hs,hp⟩ := TransitionSystem.exists_reachableUnder_of_execUnder (T := consensus three)
    (G := Replaces)
    (l := [.propose 1 0,.startConsensus 1,.onPhaseChanged 1 0,.onPhaseChanged 1 0,
      -- `INIT_2` arrives at node 0, and then both estimates at node 1
      .deliver 0,.onPhaseChanged 0 0,.onPhaseChanged 0 0,.deliver 1,.deliver 3])
    (p := fun s => decide ((s.nodes 1).roundPhase = 2) &&
      (((consensus three).step s (.onPhaseChanged 1 0)).any fun (t : Network 3 2) =>
        decide ((t.nodes 1).roundPhase = 3)))
    (by decide +kernel)
  rw [Bool.and_eq_true,decide_eq_true_eq,Option.any_eq_true] at hp
  obtain ⟨h₂,s',hs',h₃⟩ := hp
  exact ⟨s,s',hs,hs',quorum_of_replaces three hs hs' h₂ (of_decide_eq_true h₃)⟩

/-- The mobile host proposes its value, and again when it is asked to: both estimates of node 1 are
counted, and no other. -/
theorem not_quorum_repeated : ∃ s s', (consensus three).Reachable s ∧
    (consensus three).step s (.onPhaseChanged 1 0) = some s' ∧ (s.nodes 1).roundPhase = 2 ∧
      (s'.nodes 1).roundPhase = 3 ∧ ¬Quorum (s.nodes 1) := by
  obtain ⟨s,hs,hp⟩ := TransitionSystem.exists_reachable_of_exec (T := consensus three)
    (l := [.propose 1 0,.startConsensus 1,.onPhaseChanged 1 0,.onPhaseChanged 1 0,.propose 1 0,
      .deliver 2,.deliver 2])
    (p := fun s => decide ((s.nodes 1).roundPhase = 2 ∧
        ¬3 < 2*(senders ((s.nodes 1).log (s.nodes 1).roundR)).card) &&
      (((consensus three).step s (.onPhaseChanged 1 0)).any fun (t : Network 3 2) =>
        decide ((t.nodes 1).roundPhase = 3)))
    (by decide +kernel)
  rw [Bool.and_eq_true,decide_eq_true_eq,Option.any_eq_true] at hp
  obtain ⟨⟨h₂,hnot⟩,s',hs',h₃⟩ := hp
  refine ⟨s,s',hs,hs',h₂,of_decide_eq_true h₃,fun h => hnot ?_⟩
  have hmajority := h.2
  rw [Majority,Fintype.card_fin] at hmajority
  exact hmajority

end PucRio.Consensus
