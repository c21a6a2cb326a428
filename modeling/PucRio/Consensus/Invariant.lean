import PucRio.Consensus.Handlers
import PucRio.Lib.Mailbox

/-! The invariant of a run that keeps the rounds, one lemma for each handler. -/
namespace PucRio.Consensus
variable {N M : ℕ} {c : Config N M}

namespace Network
variable {s : Network N M} {L L' : Rounds N} {i : Fin N} {k : ℕ}

def round (s : Network N M) (i : Fin N) : ℕ := (s.nodes i).roundR

/-- Positive acknowledgements of round `r` that `i` has counted or is to receive. -/
def ackCount (s : Network N M) (i : Fin N) (r : ℕ) : ℕ :=
  (s.nodes i).nbPositiveAck r+s.inFlight.countP (fun m => m.1 = i && m.2.isPositiveAck r)

structure Inv (c : Config N M) (L : Rounds N) (s : Network N M) : Prop where
  locked : L.Locked s.round
  node : ∀ i, (s.nodes i).Inv c L i
  log : ∀ i r, ∀ e ∈ (s.nodes i).log r, EstimateInv L s.round e.mssNode r e.v e.ts
  inFlight : ∀ m ∈ s.inFlight, m.2.Inv c L s.round
  acks : ∀ i r, AckInv c L i r (s.ackCount i r)

theorem inv_init : (init N M).Inv c .empty where
  locked := LockedRounds.locked_empty _
  node i := by constructor <;> simp [init,LockedRounds.empty]
  log i r e he := by simp [init] at he
  inFlight m hm := by simp [init] at hm
  acks i r := by constructor <;> simp [ackCount,init]

/-- A message that is taken out is one less to come. -/
theorem Inv.take (h : s.Inv c L) (k : ℕ) : (s.take k).Inv c L where
  locked := h.locked
  node := h.node
  log := h.log
  inFlight m hm := h.inFlight m (List.mem_of_mem_eraseIdx hm)
  acks i r := (h.acks i r).mono
    (Nat.add_le_add_left (countP_eraseIdx_le _ _ _) _)

theorem round_le_commit {r : MSSNode N M × Sent N M} (hround : s.round i ≤ r.1.roundR) (j : Fin N) :
    s.round j ≤ (s.commit i r).round j := by
  by_cases hj : j = i
  · subst hj; simpa [round] using hround
  · simp [round,hj]

theorem round_commit_self (r : MSSNode N M × Sent N M) : (s.commit i r).round i = r.1.roundR := by
  simp [round]

/-- What node `i` leaves and sends keeps the invariant, the other nodes being as they were. -/
theorem Inv.commit {r : MSSNode N M × Sent N M} (h : s.Inv c L)
    (hx : Rounds.Extends c s.round i L L') (hround : s.round i ≤ r.1.roundR)
    (hlocked : L'.Locked (s.commit i r).round) (hnode : r.1.Inv c L' i)
    (hlog : ∀ t, ∀ e ∈ r.1.log t, e ∈ (s.nodes i).log t ∨
      EstimateInv L' (s.commit i r).round e.mssNode t e.v e.ts)
    (hsent : ∀ m ∈ r.2, m.2.Inv c L' (s.commit i r).round)
    (hacks : ∀ j t, AckInv c L' j t ((s.commit i r).ackCount j t)) :
    (s.commit i r).Inv c L' where
  locked := hlocked
  node j := by
    by_cases hj : j = i
    · subst hj; simpa using hnode
    · simpa [hj] using (h.node j).extends hx hj
  log j t e he := by
    have hold : ∀ j, e ∈ (s.nodes j).log t →
        EstimateInv L' (s.commit i r).round e.mssNode t e.v e.ts :=
      fun j he => (h.log j t e he).extends hx (round_le_commit hround)
    by_cases hj : j = i
    · subst hj
      exact (hlog t e (by simpa using he)).elim (hold j) id
    · exact hold j (by simpa [hj] using he)
  inFlight m hm := by
    obtain hm | hm := List.mem_append.mp hm
    · exact (h.inFlight m hm).extends hx (round_le_commit hround)
    · exact hsent m hm
  acks := hacks

/-- A message that is taken out is no longer to come. -/
theorem ackCount_take {m : Message N M} (hk : s.inFlight[k]? = some (i,m)) (j : Fin N) (t : ℕ) :
    (s.take k).ackCount j t + (if i = j ∧ m.isPositiveAck t then 1 else 0) = s.ackCount j t := by
  have := countP_eraseIdx_add hk (fun m => m.1 = j && m.2.isPositiveAck t)
  simp only [Bool.and_eq_true,decide_eq_true_eq] at this
  simp only [ackCount,take_nodes,take_inFlight]
  omega

/-- The handler counts and sends no positive acknowledgement. -/
structure Quiet (n : MSSNode N M) (r : MSSNode N M × Sent N M) : Prop where
  nbPositiveAck : r.1.nbPositiveAck = n.nbPositiveAck
  sent : ∀ m ∈ r.2, ∀ t, m.2.isPositiveAck t = false

theorem Quiet.ackCount_commit {r : MSSNode N M × Sent N M} (h : Quiet (s.nodes i) r) (j : Fin N)
    (t : ℕ) : (s.commit i r).ackCount j t = s.ackCount j t := by
  have hnode : ((s.commit i r).nodes j).nbPositiveAck t = (s.nodes j).nbPositiveAck t := by
    by_cases hj : j = i
    · subst hj; simp [h.nbPositiveAck]
    · simp [hj]
  have hsent : r.2.countP (fun m => m.1 = j && m.2.isPositiveAck t) = 0 :=
    List.countP_eq_zero.mpr fun m hm => by simp [h.sent m hm t]
  rw [ackCount,hnode]
  simp [ackCount,List.countP_append,hsent]

/-- A quiet handler that leaves the rounds and the log alone. -/
theorem Inv.commit_quiet {r : MSSNode N M × Sent N M} (h : s.Inv c L) (hq : Quiet (s.nodes i) r)
    (hround : s.round i ≤ r.1.roundR) (hlog : r.1.log = (s.nodes i).log)
    (hnode : r.1.Inv c L i) (hsent : ∀ m ∈ r.2, m.2.Inv c L (s.commit i r).round) :
    (s.commit i r).Inv c L :=
  h.commit LockedRounds.Extends.refl hround (h.locked.mono (round_le_commit hround)) hnode
    (fun t e he => .inl (by simpa [hlog] using he)) hsent
    fun j t => hq.ackCount_commit j t ▸ h.acks j t

theorem Inv.commit_nothing (h : s.Inv c L) {n : MSSNode N M} (hn : n.Inv c L i)
    (hround : n.roundR = s.round i) (hlog : n.log = (s.nodes i).log)
    (hacks : n.nbPositiveAck = (s.nodes i).nbPositiveAck) : (s.commit i (n,[])).Inv c L :=
  h.commit_quiet ⟨hacks,by simp⟩ hround.ge hlog hn (by simp)

theorem Inv.handleInit (h : s.Inv c L) (hd : (s.nodes i).decidedState = false) :
    (s.commit i ((s.nodes i).handleInit i)).Inv c L := by
  unfold MSSNode.handleInit
  split_ifs with hp
  · refine h.commit_quiet ⟨rfl,?_⟩ le_rfl rfl ((h.node i).enterPhase1 hd) ?_
    · intro m hm t
      rw [eq_of_mem_toOthers hm]; rfl
    · intro m hm
      rw [eq_of_mem_toOthers hm]; trivial
  · exact h.commit_nothing (h.node i) rfl rfl rfl

theorem Inv.handlePropose {r : MSSNode N M × Sent N M} {mh : Fin M} (h : s.Inv c L)
    (hr : (s.nodes i).handlePropose c i mh = some r) : (s.commit i r).Inv c L := by
  unfold MSSNode.handlePropose at hr
  have hcollect := (h.node i).collect {mh} {c.initialValue mh}
  split_ifs at hr with he hp
  · obtain rfl := Option.some.inj hr
    exact h.commit_nothing (h.node i) rfl rfl rfl
  · obtain ⟨coordinator,-,rfl⟩ := Option.map_eq_some_iff.mp hr
    refine h.commit_quiet ⟨rfl,by simp [Message.isPositiveAck]⟩ le_rfl rfl hcollect ?_
    intro m hm
    obtain rfl := List.mem_singleton.mp hm
    -- a node that still collects has accepted nothing
    have hts : (s.nodes i).ts = 0 := (h.node i).collecting (by simpa using he)
    exact ⟨by rw [round_commit_self],fun t _ ht => ((h.node i).accepted t ht).2,
      fun hpos => absurd hts hpos.ne'⟩
  · obtain rfl := Option.some.inj hr
    exact h.commit_nothing hcollect rfl rfl rfl

theorem Inv.handleDecide (h : s.Inv c L) {v : Finset String} (hv : L.Chosen v) :
    (s.commit i ((s.nodes i).handleDecide i v)).Inv c L := by
  unfold MSSNode.handleDecide
  split_ifs with hd
  · exact h.commit_nothing (h.node i) rfl rfl rfl
  · refine h.commit_quiet ⟨rfl,?_⟩ le_rfl rfl ((h.node i).decide hv) ?_
    · intro m hm t
      rw [(List.mem_append.mp hm).elim eq_of_mem_toOthers eq_of_mem_toOthers]; rfl
    · intro m hm
      rw [(List.mem_append.mp hm).elim eq_of_mem_toOthers eq_of_mem_toOthers]; exact hv

theorem Inv.handleEstimate (h : s.Inv c L) {j : Fin N} {t ts : ℕ} {v : Finset String}
    {p : Finset (Fin M)} (he : EstimateInv L s.round j t v ts) :
    (s.commit i ((s.nodes i).handleEstimate c j t v p ts,[])).Inv c L := by
  have hround : ((s.nodes i).handleEstimate c j t v p ts).roundR = s.round i :=
    MSSNode.handleEstimate_roundR ..
  have hquiet : Quiet (s.nodes i) ((s.nodes i).handleEstimate c j t v p ts,[]) :=
    ⟨MSSNode.handleEstimate_nbPositiveAck ..,by simp⟩
  refine h.commit LockedRounds.Extends.refl hround.ge (h.locked.mono (round_le_commit hround.ge))
    (h.node i).handleEstimate ?_ (by simp) fun j t => hquiet.ackCount_commit j t ▸ h.acks j t
  intro t' e hmem
  obtain hmem | ⟨rfl,rfl⟩ := MSSNode.mem_log_handleEstimate hmem
  · exact .inl hmem
  · exact .inr (he.extends (i := i) (c := c) LockedRounds.Extends.refl (round_le_commit hround.ge))

/-- A positive acknowledgement that arrives is counted. -/
theorem Inv.handlePositiveAck (h : s.Inv c L) {j : Fin N} {t : ℕ}
    (hk : s.inFlight[k]? = some (i,.positiveAck j t)) :
    ((s.take k).commit i ((s.nodes i).handlePositiveAck t,[])).Inv c L := by
  refine (h.take k).commit LockedRounds.Extends.refl le_rfl
    (h.locked.mono (round_le_commit (s := s.take k) le_rfl)) ((h.node i).congr rfl rfl rfl rfl rfl id)
    (fun t' e he => .inl he) (by simp) fun d t' => ?_
  refine (h.acks d t').mono ?_
  have htake := ackCount_take hk d t'
  by_cases hd : d = i
  · subst hd
    by_cases ht : t' = t
    · subst ht
      simp [ackCount,MSSNode.handlePositiveAck,Message.isPositiveAck] at htake ⊢
      omega
    · simp [ackCount,MSSNode.handlePositiveAck,ht] at htake ⊢
      omega
  · simp [ackCount,hd] at htake ⊢
    omega

theorem Inv.handleNegativeAck (h : s.Inv c L) (t : ℕ) :
    (s.commit i ((s.nodes i).handleNegativeAck t,[])).Inv c L :=
  h.commit_nothing ((h.node i).congr rfl rfl rfl rfl rfl id) rfl rfl rfl

theorem ackCount_send (n : MSSNode N M) (j : Fin N) (m : Message N M) (d : Fin N) (t : ℕ)
    (hn : n.nbPositiveAck = (s.nodes i).nbPositiveAck) :
    (s.commit i (n,MSSNode.send i j m)).ackCount d t ≤
      s.ackCount d t+(if d = j ∧ m.isPositiveAck t then 1 else 0) := by
  have hnode : ((s.commit i (n,MSSNode.send i j m)).nodes d).nbPositiveAck =
      (s.nodes d).nbPositiveAck := by
    by_cases hd : d = i
    · subst hd; simpa using hn
    · simp [hd]
  have hsent : (MSSNode.send i j m).countP (fun m => m.1 = d && m.2.isPositiveAck t) ≤
      if d = j ∧ m.isPositiveAck t then 1 else 0 := by
    unfold MSSNode.send
    split_ifs <;> simp_all
  simp only [ackCount,hnode,commit_inFlight,List.countP_append]
  omega

theorem mem_send {i j : Fin N} {m : Message N M} {x : Fin N × Message N M}
    (h : x ∈ MSSNode.send i j m) : x.2 = m := by
  unfold MSSNode.send at h
  split_ifs at h <;> simp_all

/-- Node `i` accepts the estimate of the round it is in and tells the coordinator. -/
theorem Inv.accept (h : s.Inv c L) {j : Fin N} {v : Finset String}
    (hp : (s.nodes i).roundPhase = 3) (hc : findCoordinator c (s.round i) = some j)
    (hv : L.est (s.round i) = some v) {phase : ℕ} (hphase : phase = 4 ∨ phase = 1) :
    (s.commit i
      ({ s.nodes i with v := v, ts := s.round i, endCollect := true }.setRoundPhase phase,
        MSSNode.send i j (.positiveAck i (s.round i)))).Inv c (L.accept i (s.round i)) := by
  have hfresh := (h.node i).fresh (.inr hp)
  have hx : Rounds.Extends c s.round i L (L.accept i (s.round i)) := LockedRounds.extends_accept i
  refine h.commit hx le_rfl ?_ ((h.node i).accept hp hv hphase) (fun t e he => .inl he) ?_ ?_
  · exact (h.locked.accept (by simp [hv])).mono (round_le_commit le_rfl)
  · intro m hm
    rw [mem_send hm]; trivial
  · intro d t
    have hcount := ackCount_send (s := s) (i := i)
      ({ s.nodes i with v := v, ts := s.round i, endCollect := true }.setRoundPhase phase)
      j (.positiveAck i (s.round i)) d t rfl
    by_cases hdt : d = j ∧ t = s.round i
    · obtain ⟨rfl,rfl⟩ := hdt
      refine ⟨fun _ => hc,hcount.trans ?_⟩
      have := (h.acks d (s.round i)).count_le
      have hcard : ((L.accept i (s.round i)).accepted (s.round i)).card =
          (L.accepted (s.round i)).card+1 := by
        simp only [LockedRounds.accept,Function.update_self]
        exact Finset.card_insert_of_notMem hfresh
      simp only [hcard,Message.isPositiveAck]
      split_ifs <;> omega
    · refine ((h.acks d t).mono ?_).extends hx
      refine hcount.trans ?_
      have : ¬(d = j ∧ Message.isPositiveAck t (.positiveAck i (s.round i) : Message N M)) := by
        simpa [Message.isPositiveAck,eq_comm] using hdt
      rw [if_neg this]
      exact le_rfl

/-- A `NEW_EST` of the round that the node is in, and any that collects values only. -/
theorem Inv.handleNewEstimate (h : s.Inv c L) {j : Fin N} {t : ℕ} {v : Finset String}
    {p : Finset (Fin M)} {e : Bool} (hest : findCoordinator c t = some j ∧ L.est t = some v)
    (hkeep : e = true → (s.nodes i).roundPhase = 3 → t = s.round i) :
    ∃ L', (s.commit i ((s.nodes i).handleNewEstimate c i j t v p e)).Inv c L' := by
  unfold MSSNode.handleNewEstimate
  by_cases hp : (s.nodes i).roundPhase = 3
  · rw [if_pos hp]
    have hphase : (if i = j then 4 else 1) = 4 ∨ (if i = j then 4 else 1) = 1 := by
      split_ifs <;> simp
    cases e with
    | true =>
      obtain rfl := hkeep rfl hp
      exact ⟨_,h.accept hp hest.1 hest.2 hphase⟩
    | false =>
      have hcollect := (h.node i).collect p v
      refine ⟨L,h.commit_quiet ⟨rfl,?_⟩ le_rfl rfl ?_ ?_⟩
      · intro m hm t
        rw [mem_send hm]; rfl
      · obtain hphase | hphase := hphase
        · rw [hphase]; exact hcollect.enterPhase4 hp
        · rw [hphase]; exact hcollect.enterPhase1 ((h.node i).not_decided (by simp [hp]))
      · intro m hm
        rw [mem_send hm]; trivial
  · rw [if_neg hp]
    exact ⟨L,h.commit_nothing (h.node i) rfl rfl rfl⟩

theorem Inv.phase1Callback {r : MSSNode N M × Sent N M} (h : s.Inv c L)
    (hp : (s.nodes i).roundPhase = 1) (hr : (s.nodes i).phase1Callback c i = some r) :
    (s.commit i r).Inv c L := by
  obtain ⟨coordinator,hc,rfl⟩ := Option.map_eq_some_iff.mp hr
  refine h.commit_quiet ⟨rfl,by simp [Message.isPositiveAck]⟩ (Nat.le_succ _) rfl
    ((h.node i).nextRound hp hc) ?_
  intro m hm
  obtain rfl := List.mem_singleton.mp hm
  exact (h.node i).estimate_nextRound hp (by rw [round_commit_self]; rfl)

/-- The coordinator has asked a majority and proposes the estimate of the best answer. -/
theorem Inv.phase2Callback {r : MSSNode N M × Sent N M} (h : s.Inv c L)
    (hp : (s.nodes i).roundPhase = 2)
    (hm : Majority (senders ((s.nodes i).log (s.round i))))
    (hr : (s.nodes i).phase2CallbackWhenReceivedMajority i k = some r) :
    ∃ L', (s.commit i r).Inv c L' := by
  obtain ⟨v,hv,rfl⟩ := Option.map_eq_some_iff.mp hr
  set logEntries := (s.nodes i).log (s.round i)
  obtain ⟨hpos,hc,hnone⟩ := (h.node i).asking hp
  have hx : Rounds.Extends c s.round i L
      (L.propose (s.round i) v (senders logEntries) (MSSNode.tmax logEntries)) :=
    LockedRounds.extends_propose hnone hc
  have hentry : ∀ e ∈ logEntries, EstimateInv L s.round e.mssNode (s.round i) e.v e.ts :=
    h.log i (s.round i)
  have hlocked : (L.propose (s.round i) v (senders logEntries) (MSSNode.tmax logEntries)).Locked
      s.round := by
    refine h.locked.propose hpos hnone hm ?_ ?_ ?_
    · intro j hj
      obtain ⟨e,he,rfl⟩ := mem_senders.mp hj
      exact (hentry e he).left
    · intro j hj t ht hacc
      obtain ⟨e,he,rfl⟩ := mem_senders.mp hj
      exact ((hentry e he).accepted t ht hacc).trans (le_tmax he)
    · intro hpos
      obtain ⟨e,he,hts,rfl⟩ := exists_of_selectV hv hpos
      exact hts ▸ (hentry e he).source (hts ▸ hpos)
  have hq : Quiet (s.nodes i) ({ s.nodes i with v := v }.setRoundPhase 3,
      (i,.newEstimate i (s.round i) v (s.nodes i).p (s.nodes i).endCollect)::
        toOthers i (.newEstimate i (s.round i) v (s.nodes i).p (s.nodes i).endCollect)) := by
    refine ⟨rfl,fun m hm t => ?_⟩
    obtain rfl | hm := List.mem_cons.mp hm
    · rfl
    · rw [eq_of_mem_toOthers hm]; rfl
  refine ⟨_,h.commit hx le_rfl (hlocked.mono (round_le_commit le_rfl)) ((h.node i).propose hp v _ _)
    (fun t e he => .inl he) ?_ fun d t => (hq.ackCount_commit d t ▸ h.acks d t).extends hx⟩
  have hself : (L.propose (s.round i) v (senders logEntries) (MSSNode.tmax logEntries)).est
      (s.round i) = some v := by simp [LockedRounds.propose]
  intro m hm
  obtain rfl | hm := List.mem_cons.mp hm
  · exact ⟨hc,hself⟩
  · rw [eq_of_mem_toOthers hm]; exact ⟨hc,hself⟩

theorem Inv.phase3Callback (h : s.Inv c L) (hp : (s.nodes i).roundPhase = 3)
    (coordinator : Fin N) :
    (s.commit i ((s.nodes i).phase3CallbackWhenSuspectedCoordinator i coordinator)).Inv c L := by
  refine h.commit_quiet ⟨rfl,?_⟩ le_rfl rfl
    ((h.node i).enterPhase1 ((h.node i).not_decided (by simp [hp]))) ?_
  all_goals
    intro m hm
    obtain rfl := List.mem_singleton.mp hm
  · exact fun _ => rfl
  · trivial

/-- A majority has accepted, and what it has accepted is what the coordinator holds. -/
theorem Inv.chosen_of_majority (h : s.Inv c L) (hp : (s.nodes i).roundPhase = 4)
    (hm : N < 2*(s.nodes i).nbPositiveAck (s.nodes i).roundR) : L.Chosen (s.nodes i).v := by
  set t := (s.nodes i).roundR
  have hacks := h.acks i t
  have hle : (s.nodes i).nbPositiveAck t ≤ s.ackCount i t := Nat.le_add_right _ _
  have hcount := hacks.count_le
  obtain ⟨j,hj⟩ : (L.accepted t).Nonempty := Finset.card_pos.mp (by omega)
  obtain ⟨v,hv⟩ := Option.ne_none_iff_exists'.mp (h.locked.accepted t j hj)
  have hcoordinator : findCoordinator c t = some i := hacks.coordinator (by omega)
  obtain rfl := (h.node i).proposing (.inr hp) hcoordinator v hv
  refine ⟨t,hv,?_⟩
  rw [Majority,Fintype.card_fin]
  omega

theorem Inv.phase4Callback (h : s.Inv c L) (hp : (s.nodes i).roundPhase = 4) :
    (s.commit i ((s.nodes i).phase4Callback i)).Inv c L := by
  unfold MSSNode.phase4Callback
  split_ifs with hm
  · have hchosen := h.chosen_of_majority hp hm
    refine h.commit_quiet ⟨rfl,?_⟩ le_rfl rfl ((h.node i).decide hchosen) ?_
    · intro m hm t
      rw [eq_of_mem_toOthers hm]; rfl
    · intro m hm
      rw [eq_of_mem_toOthers hm]; exact hchosen
  · exact h.commit_nothing ((h.node i).enterPhase1 ((h.node i).not_decided (by simp [hp])))
      rfl rfl rfl

/-- Node `i` has entered its callback, which has done nothing so far. -/
def enterCallback (s : Network N M) (i : Fin N) : Network N M :=
  s.commit i ((s.nodes i).enterCallback,[])

@[simp] theorem enterCallback_nodes :
    (s.enterCallback i).nodes i = (s.nodes i).enterCallback := by
  simp [enterCallback]

theorem enterCallback_commit (r : MSSNode N M × Sent N M) :
    (s.enterCallback i).commit i r = s.commit i r := by
  simp [enterCallback,commit]

theorem Inv.enterCallback (h : s.Inv c L) (i : Fin N) : (s.enterCallback i).Inv c L :=
  h.commit_nothing ((h.node i).congr rfl rfl rfl rfl rfl id) rfl rfl rfl

theorem Inv.onPhaseChanged {r : MSSNode N M × Sent N M} (h : s.Inv c L)
    (hkeep : KeepsRounds s (.onPhaseChanged i k : Action N M))
    (hr : (s.nodes i).onPhaseChanged c i k = some r) : ∃ L', (s.commit i r).Inv c L' := by
  have h' := h.enterCallback i
  obtain rfl | ⟨hp,hr⟩ | ⟨he,hp,hlen,hr⟩ | ⟨hp,coordinator,rfl⟩ | ⟨hp,rfl⟩ :=
    MSSNode.onPhaseChanged_cases hr
  · exact ⟨L,h.commit_nothing ((h.node i).congr rfl rfl rfl rfl rfl id) rfl rfl rfl⟩
  all_goals rw [← enterCallback_commit]
  · exact ⟨L,h'.phase1Callback (by rwa [enterCallback_nodes]) (by rwa [enterCallback_nodes])⟩
  · refine h'.phase2Callback (k := k) (by rwa [enterCallback_nodes]) ?_ (by rwa [enterCallback_nodes])
    rw [round,enterCallback_nodes]
    exact hkeep he hp hlen
  · rw [← enterCallback_nodes]
    exact ⟨L,h'.phase3Callback (by rwa [enterCallback_nodes]) coordinator⟩
  · rw [← enterCallback_nodes]
    exact ⟨L,h'.phase4Callback (by rwa [enterCallback_nodes])⟩

theorem Inv.handleMessage {m : Message N M} (h : s.Inv c L) (hk : s.inFlight[k]? = some (i,m))
    (hkeep : m.KeepsRound (s.nodes i)) :
    ∃ L', ((s.take k).commit i ((s.nodes i).handleMessage c i m)).Inv c L' := by
  have hm := h.inFlight _ (List.mem_of_getElem? hk)
  have ht := h.take k
  cases m with
  | init2 => exact ⟨L,ht.handleInit hkeep⟩
  | estimate j t v p ts => exact ⟨L,ht.handleEstimate hm⟩
  | newEstimate j t v p e => exact ht.handleNewEstimate hm hkeep
  | positiveAck j t => exact ⟨L,h.handlePositiveAck hk⟩
  | negativeAck j t => exact ⟨L,ht.handleNegativeAck t⟩
  | decided v => exact ⟨L,ht.handleDecide hm⟩

/-- Every step that keeps the rounds keeps the invariant, the rounds growing with it. -/
theorem Inv.step {s' : Network N M} {a : Action N M} (h : s.Inv c L) (hkeep : KeepsRounds s a)
    (hs : s.step c a = some s') : ∃ L', s'.Inv c L' := by
  cases a with
  | startConsensus i =>
    simp only [Network.step] at hs
    split_ifs at hs
    obtain rfl := Option.some.inj hs
    exact ⟨L,h.handleInit hkeep⟩
  | propose i mh =>
    simp only [Network.step] at hs
    split_ifs at hs
    obtain ⟨r,hr,rfl⟩ := Option.map_eq_some_iff.mp hs
    exact ⟨L,h.handlePropose hr⟩
  | suspect i suspectedMSSs =>
    obtain rfl := Option.some.inj hs
    exact ⟨L,h.commit_nothing ((h.node i).congr rfl rfl rfl rfl rfl id) rfl rfl rfl⟩
  | deliver k =>
    simp only [Network.step] at hs
    split at hs
    next i m hk =>
      split_ifs at hs
      obtain rfl := Option.some.inj hs
      exact h.handleMessage hk (hkeep (i,m) hk)
    next => cases hs
  | onPhaseChanged i k =>
    obtain ⟨r,hr,rfl⟩ := Option.map_eq_some_iff.mp hs
    exact h.onPhaseChanged hkeep hr

end Network

end PucRio.Consensus
