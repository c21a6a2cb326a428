import PucRio.Consensus.Network

/-! What each handler of a node keeps, while the rounds are kept: beside the state stands which
estimate each round proposed and which nodes accepted it. -/
namespace PucRio.Consensus
variable {N M : ℕ} {c : Config N M}

abbrev Rounds (N : ℕ) := LockedRounds (Fin N) (Finset String)

/-- What an `ESTIMATE` of node `i` for round `r` says: `i` has left the earlier rounds, `ts` is not
before any of them that it accepted, and the values are those of a round from `ts` on. -/
structure EstimateInv (L : Rounds N) (round : Fin N → ℕ) (i : Fin N) (r : ℕ) (v : Finset String)
    (ts : ℕ) : Prop where
  left : r ≤ round i
  accepted : ∀ r' < r, i ∈ L.accepted r' → r' ≤ ts
  source : 0 < ts → ∃ r', ts ≤ r' ∧ r' < r ∧ L.est r' = some v

def Message.Inv (c : Config N M) (L : Rounds N) (round : Fin N → ℕ) : Message N M → Prop
  | .estimate i r v _ ts => EstimateInv L round i r v ts
  | .newEstimate i r v _ _ => findCoordinator c r = some i ∧ L.est r = some v
  | .decided v => L.Chosen v
  | _ => True

def Message.isPositiveAck (r : ℕ) : Message N M → Bool
  | .positiveAck _ r' => r' = r
  | _ => false

/-- Positive acknowledgements of round `r` that `i` has counted or is to receive. -/
structure AckInv (c : Config N M) (L : Rounds N) (i : Fin N) (r count : ℕ) : Prop where
  coordinator : 0 < count → findCoordinator c r = some i
  count_le : count ≤ (L.accepted r).card

structure MSSNode.Inv (c : Config N M) (L : Rounds N) (i : Fin N) (n : MSSNode N M) : Prop where
  accepted : ∀ r, i ∈ L.accepted r → r ≤ n.roundR ∧ r ≤ n.ts
  fresh : n.roundPhase = 2 ∨ n.roundPhase = 3 → i ∉ L.accepted n.roundR
  held : n.decidedState = false → 0 < n.ts →
    ∃ r, n.ts ≤ r ∧ r ≤ n.roundR ∧ L.est r = some n.v
  collecting : n.endCollect = false → n.ts = 0
  asking : n.roundPhase = 2 →
    0 < n.roundR ∧ findCoordinator c n.roundR = some i ∧ L.est n.roundR = none
  proposing : n.roundPhase = 3 ∨ n.roundPhase = 4 → findCoordinator c n.roundR = some i →
    ∀ v, L.est n.roundR = some v → n.v = v
  proposed : ∀ r v, findCoordinator c r = some i → L.est r = some v → r ≤ n.roundR
  decided : n.decidedState = true → n.roundPhase = 0 ∧ L.Chosen n.v

/-- What node `i` may add to the rounds. -/
abbrev Rounds.Extends (c : Config N M) (round : Fin N → ℕ) (i : Fin N) (L L' : Rounds N) : Prop :=
  LockedRounds.Extends L L' round (fun r => findCoordinator c r = some i) i

section Extends
variable {L L' : Rounds N} {round round' : Fin N → ℕ} {i : Fin N}

theorem EstimateInv.extends {j : Fin N} {r ts : ℕ} {v : Finset String}
    (h : EstimateInv L round j r v ts) (hx : Rounds.Extends c round i L L')
    (hr : ∀ k, round k ≤ round' k) : EstimateInv L' round' j r v ts where
  left := h.left.trans (hr j)
  accepted r' hlt hj := by
    obtain hj | ⟨rfl,rfl⟩ := hx.accepted_new r' j hj
    · exact h.accepted r' hlt hj
    · -- `j` has left the rounds before `r`
      have := h.left
      omega
  source hts := by
    obtain ⟨r',h₁,h₂,h₃⟩ := h.source hts
    exact ⟨r',h₁,h₂,hx.est r' v h₃⟩

theorem Message.Inv.extends {m : Message N M} (h : m.Inv c L round)
    (hx : Rounds.Extends c round i L L') (hr : ∀ k, round k ≤ round' k) : m.Inv c L' round' := by
  cases m with
  | estimate => exact EstimateInv.extends h hx hr
  | newEstimate => exact ⟨h.1,hx.est _ _ h.2⟩
  | decided => exact LockedRounds.Chosen.mono h hx
  | init2 | positiveAck | negativeAck => trivial

theorem AckInv.mono {r count count' : ℕ} (h : AckInv c L i r count) (hcount : count' ≤ count) :
    AckInv c L i r count' :=
  ⟨fun hpos => h.coordinator (by omega),hcount.trans h.count_le⟩

theorem AckInv.extends {j : Fin N} {r count : ℕ} (h : AckInv c L j r count)
    (hx : Rounds.Extends c round i L L') : AckInv c L' j r count :=
  ⟨h.coordinator,h.count_le.trans (Finset.card_le_card (hx.accepted r))⟩

/-- What another node adds to the rounds does not concern node `j`. -/
theorem MSSNode.Inv.extends {j : Fin N} {n : MSSNode N M} (h : n.Inv c L j)
    (hx : Rounds.Extends c round i L L') (hj : j ≠ i) : n.Inv c L' j := by
  have hest : ∀ {r v}, findCoordinator c r = some j → L'.est r = some v → L.est r = some v := by
    intro r v hc hv
    refine (hx.est_new r v hv).resolve_right fun hi => hj ?_
    exact Option.some.inj (hc.symm.trans hi)
  have hacc : ∀ {r}, j ∈ L'.accepted r → j ∈ L.accepted r := by
    intro r hr
    exact (hx.accepted_new r j hr).resolve_right fun h => hj h.1
  constructor
  · exact fun r hr => h.accepted r (hacc hr)
  · exact fun hp hr => h.fresh hp (hacc hr)
  · intro hd hts
    obtain ⟨r,h₁,h₂,h₃⟩ := h.held hd hts
    exact ⟨r,h₁,h₂,hx.est r _ h₃⟩
  · exact h.collecting
  · intro hp
    obtain ⟨hpos,hc,hnone⟩ := h.asking hp
    refine ⟨hpos,hc,Option.eq_none_iff_forall_ne_some.mpr fun v hv => ?_⟩
    simp [hest hc hv] at hnone
  · exact fun hp hc v hv => h.proposing hp hc v (hest hc hv)
  · exact fun r v hc hv => h.proposed r v hc (hest hc hv)
  · exact fun hd => ⟨(h.decided hd).1,(h.decided hd).2.mono hx⟩

end Extends

namespace MSSNode
variable {L : Rounds N} {i : Fin N} {n : MSSNode N M}

/-- Only these fields and the growth of `endCollect` matter. -/
theorem Inv.congr {n' : MSSNode N M} (h : n.Inv c L i) (hround : n'.roundR = n.roundR)
    (hphase : n'.roundPhase = n.roundPhase) (hdec : n'.decidedState = n.decidedState)
    (hts : n'.ts = n.ts) (hv : n'.v = n.v) (hend : n.endCollect = true → n'.endCollect = true) :
    n'.Inv c L i := by
  constructor
  case collecting =>
    intro he
    rw [hts]
    exact h.collecting (by cases hn : n.endCollect <;> simp_all)
  all_goals simp only [hround,hphase,hdec,hts,hv]
  · exact h.accepted
  · exact h.fresh
  · exact h.held
  · exact h.asking
  · exact h.proposing
  · exact h.proposed
  · exact h.decided

theorem Inv.collect (h : n.Inv c L i) (p : Finset (Fin M)) (newV : Finset String) :
    (n.collect c p newV).Inv c L i :=
  h.congr rfl rfl rfl rfl rfl fun he => by simp [MSSNode.collect,he]

theorem Inv.handleEstimate {j : Fin N} {r ts : ℕ} {v : Finset String} {p : Finset (Fin M)}
    (h : n.Inv c L i) : (n.handleEstimate c j r v p ts).Inv c L i := by
  unfold MSSNode.handleEstimate
  have hlog : ({ n with log := Function.update n.log r (updateLog (n.log r) ⟨j,r,v,ts⟩) } :
      MSSNode N M).Inv c L i := h.congr rfl rfl rfl rfl rfl id
  dsimp only
  split_ifs
  · exact hlog
  · exact hlog.collect p v

/-- A node that has not decided may start the next round at any time. -/
theorem Inv.enterPhase1 (h : n.Inv c L i) (hd : n.decidedState = false) :
    (n.setRoundPhase 1).Inv c L i where
  accepted := h.accepted
  fresh hp := by simp [setRoundPhase] at hp
  held := h.held
  collecting := h.collecting
  asking hp := by simp [setRoundPhase] at hp
  proposing hp := by simp [setRoundPhase] at hp
  proposed := h.proposed
  decided hd' := by simp [setRoundPhase,hd] at hd'

theorem Inv.not_decided (h : n.Inv c L i) (hp : n.roundPhase ≠ 0) : n.decidedState = false :=
  Bool.eq_false_iff.mpr fun hd => hp (h.decided hd).1

/-- The values a node decides on are chosen. -/
theorem Inv.decide (h : n.Inv c L i) {v : Finset String} (hv : L.Chosen v) :
    ({ n with decidedState := true, v := v }.setRoundPhase 0).Inv c L i where
  accepted := h.accepted
  fresh hp := by simp [setRoundPhase] at hp
  held hd := by simp [setRoundPhase] at hd
  collecting := h.collecting
  asking hp := by simp [setRoundPhase] at hp
  proposing hp := by simp [setRoundPhase] at hp
  proposed := h.proposed
  decided _ := ⟨rfl,hv⟩

/-- A node that waits for the coordinator accepts the estimate of its round. -/
theorem Inv.accept (h : n.Inv c L i) (hp : n.roundPhase = 3) {v : Finset String}
    (hv : L.est n.roundR = some v) {phase : ℕ} (hphase : phase = 4 ∨ phase = 1) :
    ({ n with v := v, ts := n.roundR, endCollect := true }.setRoundPhase phase).Inv c
      (L.accept i n.roundR) i where
  accepted r hr := by
    obtain ⟨rfl,-⟩ | hr := LockedRounds.mem_accept hr
    · exact ⟨le_rfl,le_rfl⟩
    · exact ⟨(h.accepted r hr).1,(h.accepted r hr).1⟩
  fresh hp' := by obtain rfl | rfl := hphase <;> simp [setRoundPhase] at hp'
  held _ _ := ⟨n.roundR,le_rfl,le_rfl,hv⟩
  collecting he := by simp [setRoundPhase] at he
  asking hp' := by obtain rfl | rfl := hphase <;> simp [setRoundPhase] at hp'
  proposing _ _ w hw := Option.some.inj (hv.symm.trans hw)
  proposed := h.proposed
  decided hd := by simp [setRoundPhase,h.not_decided (by simp [hp])] at hd

theorem Inv.enterPhase4 (h : n.Inv c L i) (hp : n.roundPhase = 3) :
    (n.setRoundPhase 4).Inv c L i where
  accepted := h.accepted
  fresh hp' := by simp [setRoundPhase] at hp'
  held := h.held
  collecting := h.collecting
  asking hp' := by simp [setRoundPhase] at hp'
  proposing _ := h.proposing (.inl hp)
  proposed := h.proposed
  decided hd := by simp [setRoundPhase,h.not_decided (by simp [hp])] at hd

/-- The next round: its coordinator asks, the others wait for the coordinator. -/
theorem Inv.nextRound (h : n.Inv c L i) (hp : n.roundPhase = 1) {coordinator : Fin N}
    (hc : findCoordinator c (n.roundR+1) = some coordinator) :
    ({ n with
        roundR := n.roundR+1
        coordinatorMSS := some coordinator
        v := if n.ts = 0 then n.newV else n.v
      }.setRoundPhase (if i = coordinator then 2 else 3)).Inv c L i where
  accepted r hr := ⟨(h.accepted r hr).1.trans (Nat.le_succ _),(h.accepted r hr).2⟩
  fresh _ hr := Nat.not_succ_le_self _ (h.accepted _ hr).1
  held hd hts := by
    obtain ⟨r,h₁,h₂,h₃⟩ := h.held hd hts
    refine ⟨r,h₁,h₂.trans (Nat.le_succ _),?_⟩
    have : n.ts ≠ 0 := hts.ne'
    simpa [setRoundPhase,this] using h₃
  collecting := h.collecting
  asking hp' := by
    have hi : i = coordinator := by
      by_contra hi
      simp [setRoundPhase,hi] at hp'
    subst hi
    refine ⟨Nat.succ_pos _,hc,Option.eq_none_iff_forall_ne_some.mpr fun v hv => ?_⟩
    exact Nat.not_succ_le_self _ (h.proposed _ v hc hv)
  proposing hp' hc' := by
    -- the coordinator itself is in phase 2
    obtain rfl : coordinator = i := Option.some.inj (hc.symm.trans hc')
    simp [setRoundPhase] at hp'
  proposed r v hr hv := (h.proposed r v hr hv).trans (Nat.le_succ _)
  decided hd := by simp [setRoundPhase,h.not_decided (by simp [hp])] at hd

theorem Inv.estimate_nextRound (h : n.Inv c L i) (hp : n.roundPhase = 1) {round : Fin N → ℕ}
    (hround : round i = n.roundR+1) :
    EstimateInv L round i (n.roundR+1) (if n.ts = 0 then n.newV else n.v) n.ts where
  left := hround.ge
  accepted r _ hr := (h.accepted r hr).2
  source hts := by
    obtain ⟨r,h₁,h₂,h₃⟩ := h.held (h.not_decided (by simp [hp])) hts
    exact ⟨r,h₁,by omega,by rw [if_neg (by omega),h₃]⟩

/-- A coordinator proposes an estimate and waits for it like the others. -/
theorem Inv.propose (h : n.Inv c L i) (hp : n.roundPhase = 2) (v : Finset String)
    (q : Finset (Fin N)) (b : ℕ) :
    ({ n with v := v }.setRoundPhase 3).Inv c (L.propose n.roundR v q b) i := by
  have hd := h.not_decided (by simp [hp])
  have hself : (L.propose n.roundR v q b).est n.roundR = some v := by simp [LockedRounds.propose]
  constructor
  · exact h.accepted
  · exact fun _ => h.fresh (.inl hp)
  · intro _ hts
    obtain ⟨r,h₁,h₂,-⟩ := h.held hd hts
    exact ⟨n.roundR,h₁.trans h₂,le_rfl,hself⟩
  · exact h.collecting
  · intro hp'
    simp [setRoundPhase] at hp'
  · exact fun _ _ w hw => Option.some.inj (hself.symm.trans hw)
  · intro r w hr hw
    obtain ⟨rfl,-⟩ | ⟨-,hw⟩ := LockedRounds.propose_cases hw
    · exact le_rfl
    · exact h.proposed r w hr hw
  · intro hd'
    simp [setRoundPhase,hd] at hd'

end MSSNode

section selectV
variable {logEntries : List (LogEntry N)} {e : LogEntry N}

theorem le_tmax (he : e ∈ logEntries) : e.ts ≤ MSSNode.tmax logEntries := by
  induction logEntries with
  | nil => simp at he
  | cons x l ih =>
    obtain rfl | he := List.mem_cons.mp he
    · exact le_max_left _ _
    · exact (ih he).trans (le_max_right _ _)

/-- The values selected are those of an entry with the highest `ts`, unless that is zero. -/
theorem exists_of_selectV {k : ℕ} {newV v : Finset String}
    (h : MSSNode.selectV logEntries k newV = some v) (hpos : 0 < MSSNode.tmax logEntries) :
    ∃ e ∈ logEntries, e.ts = MSSNode.tmax logEntries ∧ e.v = v := by
  rw [MSSNode.selectV,if_pos hpos] at h
  obtain ⟨e,he,rfl⟩ := Option.map_eq_some_iff.mp h
  obtain ⟨hk,hts⟩ := Option.filter_eq_some_iff.mp he
  exact ⟨e,List.mem_of_getElem? hk,by simpa using hts,rfl⟩

theorem mem_senders {i : Fin N} : i ∈ senders logEntries ↔ ∃ e ∈ logEntries, e.mssNode = i := by
  simp [senders]

end selectV
end PucRio.Consensus
