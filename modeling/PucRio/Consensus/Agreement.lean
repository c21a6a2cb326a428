import PucRio.Consensus.Invariant

/-! Agreement of the nodes that have decided, in every run that keeps the rounds. -/
namespace PucRio.Consensus
variable {N M : ℕ} {c : Config N M}

theorem exists_inv {s : Network N M} (h : (consensus c).ReachableUnder KeepsRounds s) :
    ∃ L, s.Inv c L := by
  refine h.invariant (I := fun s => ∃ L, s.Inv c L) ⟨_,Network.inv_init⟩ ?_
  intro s a s' ⟨L,hL⟩ hkeep hs
  exact hL.step hkeep hs

/-- Node `i` has decided on `v` and is in no phase of a later round. -/
def Settled (v : Finset String) (n : MSSNode N M) : Prop :=
  n.decidedState = true ∧ n.roundPhase = 0 ∧ n.v = v

namespace Settled
variable {v : Finset String} {n : MSSNode N M} {i : Fin N}

theorem handlePropose {r : MSSNode N M × Sent N M} {mh : Fin M} (h : Settled v n)
    (hr : n.handlePropose c i mh = some r) : Settled v r.1 := by
  unfold MSSNode.handlePropose at hr
  split_ifs at hr
  · obtain rfl := Option.some.inj hr
    exact h
  · obtain ⟨_,-,rfl⟩ := Option.map_eq_some_iff.mp hr
    exact h
  · obtain rfl := Option.some.inj hr
    exact h

theorem handleEstimate {j : Fin N} {t ts : ℕ} {w : Finset String} {p : Finset (Fin M)}
    (h : Settled v n) : Settled v (n.handleEstimate c j t w p ts) := by
  unfold MSSNode.handleEstimate
  dsimp only
  split_ifs <;> exact h

theorem handleMessage {m : Message N M} (h : Settled v n) (hkeep : m.KeepsRound n) :
    Settled v (n.handleMessage c i m).1 := by
  obtain ⟨hd,hp,hv⟩ := h
  cases m with
  | init2 => simp [Message.KeepsRound,hd] at hkeep
  | estimate => exact handleEstimate ⟨hd,hp,hv⟩
  | newEstimate =>
    have hp' : n.roundPhase ≠ 3 := by simp [hp]
    simpa [MSSNode.handleMessage,MSSNode.handleNewEstimate,hp'] using ⟨hd,hp,hv⟩
  | positiveAck => exact ⟨hd,hp,hv⟩
  | negativeAck => exact ⟨hd,hp,hv⟩
  | decided => simpa [MSSNode.handleMessage,MSSNode.handleDecide,hd] using ⟨hd,hp,hv⟩

theorem onPhaseChanged {r : MSSNode N M × Sent N M} {k : ℕ} (h : Settled v n)
    (hr : n.onPhaseChanged c i k = some r) : Settled v r.1 := by
  have hp := h.2.1
  obtain rfl | ⟨hp',-⟩ | ⟨-,hp',-⟩ | ⟨hp',-⟩ | ⟨hp',-⟩ := MSSNode.onPhaseChanged_cases hr
  · exact h
  all_goals simp [hp] at hp'

/-- What a node has decided on stays what it was. -/
theorem step {s s' : Network N M} {a : Action N M} (h : Settled v (s.nodes i))
    (hkeep : KeepsRounds s a) (hs : s.step c a = some s') : Settled v (s'.nodes i) := by
  have hcommit : ∀ {j : Fin N} {t : Network N M} {r : MSSNode N M × Sent N M},
      t.nodes = s.nodes → (Settled v (s.nodes j) → Settled v r.1) →
      Settled v ((t.commit j r).nodes i) := by
    intro j t r ht hr
    by_cases hij : i = j
    · subst hij; simpa using hr h
    · simpa [hij,ht] using h
  cases a with
  | startConsensus j =>
    simp only [Network.step] at hs
    split_ifs at hs
    obtain rfl := Option.some.inj hs
    exact hcommit rfl fun hj => absurd hj.1 (by simpa [KeepsRounds] using hkeep)
  | propose j mh =>
    simp only [Network.step] at hs
    split_ifs at hs
    obtain ⟨r,hr,rfl⟩ := Option.map_eq_some_iff.mp hs
    exact hcommit rfl fun hj => hj.handlePropose hr
  | suspect j suspectedMSSs =>
    obtain rfl := Option.some.inj hs
    exact hcommit rfl fun hj => hj
  | deliver k =>
    simp only [Network.step] at hs
    split at hs
    next j m hk =>
      split_ifs at hs
      obtain rfl := Option.some.inj hs
      exact hcommit rfl fun hj => hj.handleMessage (hkeep (j,m) hk)
    next => cases hs
  | onPhaseChanged j k =>
    obtain ⟨r,hr,rfl⟩ := Option.map_eq_some_iff.mp hs
    exact hcommit rfl fun hj => hj.onPhaseChanged hr

end Settled

/-- Any two nodes that have decided hold equal sets. -/
def Agreement (s : Network N M) : Prop :=
  ∀ i j, (s.nodes i).decidedState = true → (s.nodes j).decidedState = true →
    (s.nodes i).v = (s.nodes j).v

/-- From `s` to `t`, a node that has decided has not changed its set. -/
def Stable (s t : Network N M) : Prop :=
  ∀ i, (s.nodes i).decidedState = true →
    (t.nodes i).decidedState = true ∧ (t.nodes i).v = (s.nodes i).v

/-- As long as the rounds are kept, the nodes that have decided agree, for good. -/
theorem agreement_and_stable_of_keepsRounds (c : Config N M) {s t : Network N M}
    (hs : (consensus c).ReachableUnder KeepsRounds s)
    (ht : (consensus c).GuardedRun KeepsRounds s t) : Agreement s ∧ Stable s t := by
  obtain ⟨L,h⟩ := exists_inv hs
  constructor
  · intro i j hi hj
    exact h.locked.chosen_unique ((h.node i).decided hi).2 ((h.node j).decided hj).2
  · intro i hi
    have hsettled : Settled (s.nodes i).v (s.nodes i) := ⟨hi,((h.node i).decided hi).1,rfl⟩
    have := ht.invariant hsettled fun _ _ _ h hkeep hs => Settled.step h hkeep hs
    exact ⟨this.1,this.2.2⟩

/-- Five nodes with the ids 1 to 5 and one mobile host, whose value is enough. -/
def five : Config 5 1 := ⟨fun i => i+1,fun _ => "a",1⟩

/-- `b` collects the value of the mobile host, starts the consensus, and `a`, `d` and `e` take part
in its round. It has decided when its `DECIDE` arrives at `f`, which took no part. -/
def decideWithout (f a b d e : Fin N) (mh : Fin M) : List (Action N M) :=
  [.propose b mh,.startConsensus b,.onPhaseChanged b 0,.onPhaseChanged b 0,
    -- `INIT_2` arrives at `a`, `d` and `e`, and each sends its estimate to `b`
    .deliver 0,.onPhaseChanged a 0,.onPhaseChanged a 0,
    .deliver 0,.onPhaseChanged d 0,.onPhaseChanged d 0,
    .deliver 0,.onPhaseChanged e 0,.onPhaseChanged e 0,
    -- the estimates of `b`, `a` and `d` arrive at `b`, and it sends `NEW_EST`
    .deliver 1,.deliver 5,.deliver 9,.onPhaseChanged b 0,.onPhaseChanged b 0,
    .deliver 14,.onPhaseChanged b 0,
    .deliver 14,.onPhaseChanged a 0,.onPhaseChanged a 0,
    .deliver 14,.onPhaseChanged d 0,.onPhaseChanged d 0,
    .deliver 14,.onPhaseChanged e 0,.onPhaseChanged e 0,
    -- three positive acknowledgements
    .deliver 15,.deliver 16,.deliver 17,.onPhaseChanged b 0,.onPhaseChanged b 0,
    .deliver 21,.onPhaseChanged f 0]

theorem agreement_and_stable_of_keepsRounds_five :
    ∃ s, (consensus five).ReachableUnder KeepsRounds s ∧
      (s.nodes 1).decidedState = true ∧ (s.nodes 4).decidedState = true ∧
      (Agreement s ∧ Stable s s) := by
  obtain ⟨s,hs,hd⟩ := TransitionSystem.exists_reachableUnder_of_execUnder (T := consensus five)
    (G := KeepsRounds) (l := decideWithout 4 0 1 2 3 0)
    (p := fun s => (s.nodes 1).decidedState && (s.nodes 4).decidedState) (by decide +kernel)
  rw [Bool.and_eq_true] at hd
  exact ⟨s,hs,hd.1,hd.2,agreement_and_stable_of_keepsRounds five hs Relation.ReflTransGen.refl⟩

/-- An `INIT_2` that arrives at node 4 after the decision makes it take its own values again. -/
theorem not_agreement_five : ∃ s, (consensus five).Reachable s ∧ ¬Agreement s := by
  obtain ⟨s,hs,h⟩ := TransitionSystem.exists_reachable_of_exec (T := consensus five)
    (l := decideWithout 4 0 1 2 3 0++[.deliver 4,.onPhaseChanged 4 0])
    (p := fun s => (s.nodes 1).decidedState && (s.nodes 4).decidedState &&
      decide ((s.nodes 1).v ≠ (s.nodes 4).v)) (by decide +kernel)
  simp only [Bool.and_eq_true,decide_eq_true_eq] at h
  exact ⟨s,hs,fun ha => h.2 (ha 1 4 h.1.1 h.1.2)⟩

end PucRio.Consensus
