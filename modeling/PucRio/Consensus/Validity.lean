import PucRio.Consensus.MobileHosts

/-! Validity: the values that go round are values that have been proposed. -/
namespace PucRio.Consensus
variable {N M : ℕ}

/-- The values that a message carries. -/
def Message.values : Message N M → Finset String
  | .estimate _ _ newV _ _ => newV
  | .newEstimate _ _ v _ _ => v
  | .decided decidedValue => decidedValue
  | .init2 | .positiveAck .. | .negativeAck .. => ∅

section Node
variable {P Q : String → Prop} {c : Config N M} {i : Fin N} {n : MSSNode N M}

/-- `P` is true of every value that the node holds. -/
structure MSSNode.Valid (P : String → Prop) (n : MSSNode N M) : Prop where
  newV : ∀ value ∈ n.newV, P value
  v : ∀ value ∈ n.v, P value
  log : ∀ r, ∀ e ∈ n.log r, ∀ value ∈ e.v, P value

def Message.Valid (P : String → Prop) (m : Message N M) : Prop := ∀ value ∈ m.values, P value

/-- What a handler of the node leaves. -/
def Left (P : String → Prop) (r : MSSNode N M × Sent N M) : Prop :=
  r.1.Valid P ∧ ∀ m ∈ r.2, m.2.Valid P

theorem MSSNode.Valid.mono (h : n.Valid P) (hPQ : ∀ value, P value → Q value) : n.Valid Q where
  newV value hvalue := hPQ value (h.newV value hvalue)
  v value hvalue := hPQ value (h.v value hvalue)
  log r e he value hvalue := hPQ value (h.log r e he value hvalue)

namespace MSSNode.Valid
variable (h : n.Valid P)
include h

theorem congr {n' : MSSNode N M} (hnewV : n'.newV = n.newV) (hv : n'.v = n.v)
    (hlog : n'.log = n.log) : n'.Valid P where
  newV := hnewV ▸ h.newV
  v := hv ▸ h.v
  log := hlog ▸ h.log

theorem with_v {v : Finset String} (hv : ∀ value ∈ v, P value) : ({ n with v := v }).Valid P where
  newV := h.newV
  v := hv
  log := h.log

theorem collect {newV : Finset String} (hnewV : ∀ value ∈ newV, P value) (p : Finset (Fin M)) :
    (n.collect c p newV).Valid P where
  newV value hvalue := (Finset.mem_union.mp hvalue).elim (h.newV value) (hnewV value)
  v := h.v
  log := h.log

theorem handleInit : Left P (n.handleInit i) := by
  unfold MSSNode.handleInit
  split_ifs
  · refine ⟨h.congr rfl rfl rfl,fun m hm => ?_⟩
    rw [eq_of_mem_toOthers hm]
    exact fun _ hvalue => absurd hvalue (Finset.notMem_empty _)
  · exact ⟨h,fun _ hm => absurd hm List.not_mem_nil⟩

theorem handlePropose {mh : Fin M} {r : MSSNode N M × Sent N M} (hmh : P (c.initialValue mh))
    (hr : n.handlePropose c i mh = some r) : Left P r := by
  have hcollect : (n.collect c {mh} {c.initialValue mh}).Valid P :=
    h.collect (fun value hvalue => Finset.mem_singleton.mp hvalue ▸ hmh) {mh}
  unfold MSSNode.handlePropose at hr
  dsimp only at hr
  split_ifs at hr
  · obtain rfl := Option.some.inj hr
    exact ⟨h,fun _ hm => absurd hm List.not_mem_nil⟩
  · obtain ⟨_,-,rfl⟩ := Option.map_eq_some_iff.mp hr
    exact ⟨hcollect,List.forall_mem_singleton.mpr hcollect.newV⟩
  · obtain rfl := Option.some.inj hr
    exact ⟨hcollect,fun _ hm => absurd hm List.not_mem_nil⟩

theorem handleEstimate {j : Fin N} {r ts : ℕ} {v : Finset String} {p : Finset (Fin M)}
    (hv : ∀ value ∈ v, P value) : (n.handleEstimate c j r v p ts).Valid P := by
  refine ⟨?_,?_,fun t e he => ?_⟩
  · unfold MSSNode.handleEstimate
    dsimp only
    split_ifs
    · exact h.newV
    · exact (h.collect (c := c) hv p).newV
  · unfold MSSNode.handleEstimate
    dsimp only
    split_ifs <;> exact h.v
  · obtain he | ⟨-,rfl⟩ := mem_log_handleEstimate he
    · exact h.log t e he
    · exact hv

theorem handleNewEstimate {j : Fin N} {r : ℕ} {v : Finset String} {p : Finset (Fin M)} {e : Bool}
    (hv : ∀ value ∈ v, P value) : Left P (n.handleNewEstimate c i j r v p e) := by
  have hsend {m : Message N M} (hm : m.Valid P) : ∀ x ∈ send i j m, x.2.Valid P := by
    unfold send
    split_ifs
    · exact fun _ hx => absurd hx List.not_mem_nil
    · exact List.forall_mem_singleton.mpr hm
  unfold MSSNode.handleNewEstimate
  dsimp only
  generalize (if i = j then 4 else 1) = phase
  split_ifs
  · exact ⟨(h.with_v hv).congr rfl rfl rfl,hsend fun _ hvalue => absurd hvalue (Finset.notMem_empty _)⟩
  · exact ⟨(h.collect (c := c) hv p).congr rfl rfl rfl,
      hsend fun _ hvalue => absurd hvalue (Finset.notMem_empty _)⟩
  · exact ⟨h,fun _ hm => absurd hm List.not_mem_nil⟩

theorem handleDecide {v : Finset String} (hv : ∀ value ∈ v, P value) :
    Left P (n.handleDecide i v) := by
  unfold MSSNode.handleDecide
  split_ifs
  · exact ⟨h,fun _ hm => absurd hm List.not_mem_nil⟩
  · refine ⟨(h.with_v hv).congr rfl rfl rfl,fun m hm => ?_⟩
    have heq : m.2 = .decided v := (List.mem_append.mp hm).elim eq_of_mem_toOthers eq_of_mem_toOthers
    rw [heq]
    exact hv

theorem handleMessage {m : Message N M} (hm : m.Valid P) : Left P (n.handleMessage c i m) := by
  cases m with
  | init2 => exact h.handleInit
  | estimate => exact ⟨h.handleEstimate hm,fun _ hm => absurd hm List.not_mem_nil⟩
  | newEstimate => exact h.handleNewEstimate hm
  | positiveAck => exact ⟨h.congr rfl rfl rfl,fun _ hm => absurd hm List.not_mem_nil⟩
  | negativeAck => exact ⟨h.congr rfl rfl rfl,fun _ hm => absurd hm List.not_mem_nil⟩
  | decided => exact h.handleDecide hm

theorem selectV {r k : ℕ} {v : Finset String} (hv : selectV (n.log r) k n.newV = some v) :
    ∀ value ∈ v, P value := by
  unfold MSSNode.selectV at hv
  split_ifs at hv
  · obtain ⟨e,he,rfl⟩ := Option.map_eq_some_iff.mp hv
    exact h.log r e (List.mem_of_getElem? (Option.filter_eq_some_iff.mp he).1)
  · exact Option.some.inj hv ▸ h.newV

theorem phase1Callback {r : MSSNode N M × Sent N M} (hr : n.phase1Callback c i = some r) :
    Left P r := by
  obtain ⟨coordinator,-,rfl⟩ := Option.map_eq_some_iff.mp hr
  have hv : ∀ value ∈ (if n.ts = 0 then n.newV else n.v), P value := by
    split_ifs
    · exact h.newV
    · exact h.v
  exact ⟨(h.with_v hv).congr rfl rfl rfl,List.forall_mem_singleton.mpr hv⟩

theorem phase2Callback {k : ℕ} {r : MSSNode N M × Sent N M}
    (hr : n.phase2CallbackWhenReceivedMajority i k = some r) : Left P r := by
  obtain ⟨v,hselect,rfl⟩ := Option.map_eq_some_iff.mp hr
  have hv := h.selectV hselect
  refine ⟨(h.with_v hv).congr rfl rfl rfl,List.forall_mem_cons.mpr ⟨hv,fun m hm => ?_⟩⟩
  rw [eq_of_mem_toOthers hm]
  exact hv

theorem phase4Callback : Left P (n.phase4Callback i) := by
  unfold MSSNode.phase4Callback
  split_ifs
  · refine ⟨h.congr rfl rfl rfl,fun m hm => ?_⟩
    rw [eq_of_mem_toOthers hm]
    exact h.v
  · exact ⟨h.congr rfl rfl rfl,fun _ hm => absurd hm List.not_mem_nil⟩

theorem onPhaseChanged {k : ℕ} {r : MSSNode N M × Sent N M}
    (hr : n.onPhaseChanged c i k = some r) : Left P r := by
  have hentered : n.enterCallback.Valid P := h.congr rfl rfl rfl
  obtain rfl | ⟨-,hr⟩ | ⟨-,-,-,hr⟩ | ⟨-,coordinator,rfl⟩ | ⟨-,rfl⟩ := onPhaseChanged_cases hr
  · exact ⟨h.congr rfl rfl rfl,fun _ hm => absurd hm List.not_mem_nil⟩
  · exact hentered.phase1Callback hr
  · exact hentered.phase2Callback hr
  · refine ⟨hentered.congr rfl rfl rfl,List.forall_mem_singleton.mpr ?_⟩
    exact fun _ hvalue => absurd hvalue (Finset.notMem_empty _)
  · exact hentered.phase4Callback

end MSSNode.Valid
end Node

/-- `P` is true of every value that a node holds or that is in flight. -/
structure Network.Valid (P : String → Prop) (s : Network N M) : Prop where
  nodes : ∀ i, (s.nodes i).Valid P
  inFlight : ∀ m ∈ s.inFlight, m.2.Valid P

namespace Network.Valid
variable {P Q : String → Prop} {c : Config N M} {s s' : Network N M}

theorem mono (h : s.Valid P) (hPQ : ∀ value, P value → Q value) : s.Valid Q where
  nodes i := (h.nodes i).mono hPQ
  inFlight m hm value hvalue := hPQ value (h.inFlight m hm value hvalue)

theorem commit (h : s.Valid P) {i : Fin N} {r : MSSNode N M × Sent N M} (hr : Left P r) :
    (s.commit i r).Valid P where
  nodes j := by
    rw [commit_nodes]
    by_cases hj : j = i
    · subst hj
      rw [Function.update_self]
      exact hr.1
    · rw [Function.update_of_ne hj]
      exact h.nodes j
  inFlight := List.forall_mem_append.mpr ⟨h.inFlight,hr.2⟩

theorem take (h : s.Valid P) (k : ℕ) : (s.take k).Valid P where
  nodes := h.nodes
  inFlight m hm := h.inFlight m (List.mem_of_mem_eraseIdx hm)

/-- A step adds no value but that of a `PROPOSE`. -/
theorem step {a : Action N M} (h : s.Valid P)
    (hpropose : ∀ i mh, a = .propose i mh → P (c.initialValue mh)) (hs : s.step c a = some s') :
    s'.Valid P := by
  cases a with
  | startConsensus i =>
    simp only [Network.step] at hs
    split_ifs at hs
    exact Option.some.inj hs ▸ h.commit (h.nodes i).handleInit
  | propose i mh =>
    simp only [Network.step] at hs
    split_ifs at hs
    obtain ⟨r,hr,rfl⟩ := Option.map_eq_some_iff.mp hs
    exact h.commit ((h.nodes i).handlePropose (hpropose i mh rfl) hr)
  | suspect i suspectedMSSs =>
    refine Option.some.inj hs ▸ h.commit ⟨(h.nodes i).congr rfl rfl rfl,?_⟩
    exact fun _ hm => absurd hm List.not_mem_nil
  | deliver k =>
    simp only [Network.step] at hs
    split at hs
    next i m hk =>
      split_ifs at hs
      refine Option.some.inj hs ▸ (h.take k).commit ((h.nodes i).handleMessage ?_)
      exact h.inFlight _ (List.mem_of_getElem? hk)
    next => cases hs
  | onPhaseChanged i k =>
    obtain ⟨r,hr,rfl⟩ := Option.map_eq_some_iff.mp hs
    exact h.commit ((h.nodes i).onPhaseChanged hr)

end Network.Valid

/-- The value is that of a host that has sent its `PROPOSE`. -/
def Proposed (c : Config N M) (sent : List (Fin N × Request M)) (value : String) : Prop :=
  ∃ i mh, (i,.propose mh) ∈ sent ∧ c.initialValue mh = value

/-- In every run, each value in a `newV`, a `v`, a log or a message is the initial value of a host that
has sent its `PROPOSE`. -/
theorem valid_of_reachable (c : Config N M) {x : MobileNetwork N M × List (Fin N × Request M)}
    (h : (mobile c).Reachable x) : x.1.network.Valid (Proposed c x.2) := by
  have hinit : (Network.init N M).Valid (Proposed c []) := by
    refine ⟨fun i => ⟨?_,?_,?_⟩,fun _ hm => absurd hm List.not_mem_nil⟩
    · exact fun _ hvalue => absurd hvalue (Finset.notMem_empty _)
    · exact fun _ hvalue => absurd hvalue (Finset.notMem_empty _)
    · exact fun _ _ he => absurd he List.not_mem_nil
  suffices hboth : x.1.network.Valid (Proposed c x.2) ∧ ∀ r ∈ x.1.requests, r ∈ x.2 from hboth.1
  refine TransitionSystem.GuardedRun.invariant (I := fun y =>
    y.1.network.Valid (Proposed c y.2) ∧ ∀ r ∈ y.1.requests, r ∈ y.2) h
    ⟨hinit,fun _ hr => absurd hr List.not_mem_nil⟩ ?_
  intro y a z hy _ hstep
  obtain ⟨hvalid,hrequests⟩ := hy
  obtain ⟨hstep,hsent⟩ := TransitionSystem.recorded_step hstep
  have hmono : ∀ value, Proposed c y.2 value → Proposed c z.2 value := by
    intro value hvalue
    obtain ⟨i,mh,hmem,hvalue⟩ := hvalue
    exact ⟨i,mh,hsent ▸ List.mem_append_left _ hmem,hvalue⟩
  obtain ⟨hnetwork,hreq⟩ | ⟨hsends,hreq,b,hb,hstep⟩ := MobileNetwork.step_cases hstep
  · rw [hnetwork,hreq,hsent]
    refine ⟨hsent ▸ hvalid.mono hmono,List.forall_mem_append.mpr ⟨?_,?_⟩⟩
    · exact fun r hr => List.mem_append_left _ (hrequests r hr)
    · exact fun r hr => List.mem_append_right _ hr
  · refine ⟨(hvalid.mono hmono).step ?_ hstep,fun r hr => ?_⟩
    · rintro i mh rfl
      have hmem := hrequests _ (MobileNetwork.mem_requests_of_action hb)
      exact ⟨i,mh,hsent ▸ List.mem_append_left _ hmem,rfl⟩
    · rw [hsent]
      exact List.mem_append_left _ (hrequests r (hreq r hr))

/-- Two nodes with the ids 1 and 2, and one mobile host. -/
def two : Config 2 1 := ⟨fun i => i+1,fun _ => "a",1⟩

/-- The value of the mobile host goes to node 1, the coordinator of round 1, and from there to
node 0. -/
theorem valid_of_reachable_two : ∃ x, (mobile two).Reachable x ∧
    (x.1.network.nodes 0).v = {"a"} ∧ x.1.network.Valid (Proposed two x.2) := by
  obtain ⟨x,hx,hp⟩ := TransitionSystem.exists_reachable_of_exec (T := mobile two)
    (l := [.setConnectedMSS 0 (some 1),.arrive 0,.startConsensus 0,.arrive 0,
      .onPhaseChanged 1 0,.onPhaseChanged 1 0,
      -- `INIT_2` arrives at node 0, and then both estimates at node 1
      .deliver 0,.onPhaseChanged 0 0,.onPhaseChanged 0 0,.deliver 0,.deliver 1,
      -- the `NEW_EST` of node 1 arrives at node 0
      .onPhaseChanged 1 0,.onPhaseChanged 1 0,.deliver 2])
    (p := fun x => (x.1.network.nodes 0).v = {"a"}) (by decide +kernel)
  rw [decide_eq_true_eq] at hp
  exact ⟨x,hx,hp,valid_of_reachable two hx⟩

end PucRio.Consensus
