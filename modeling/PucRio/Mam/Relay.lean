import PucRio.Mam.Network
import Mathlib.Data.List.Chain

/-! The waves of FOUND_MOBILE_SINK. A relay sends the hops value that it was given, so a run keeps
its waves bounded as long as nothing is relayed. -/
namespace PucRio.Mam
variable {A K : Type} {n : ℕ}

section Handlers
variable {node : MamNodeApp A K}

theorem found_append (l l' : List (Sent A K)) : found (l++l') = found l++found l' := by
  simp [found]

/-- A handler leaves the relay mode as it is and starts waves from values that are not negative. -/
def Sound (node : MamNodeApp A K) (r : MamNodeApp.Result A K) : Prop :=
  ∀ node' sent, r = some (node',sent) → node'.mamRelay = node.mamRelay ∧ ∀ v ∈ found sent, 0 ≤ v

theorem Sound.none : Sound node none := by
  intro _ _ h
  cases h

theorem Sound.quiet {node' : MamNodeApp A K} {sent : List (Sent A K)}
    (hmode : node'.mamRelay = node.mamRelay) (hsent : found sent = []) :
    Sound node (some (node',sent)) := by
  intro _ _ h
  obtain ⟨rfl,rfl⟩ := Prod.mk.inj (Option.some.inj h)
  refine ⟨hmode,fun v hv => ?_⟩
  rw [hsent] at hv
  cases hv

theorem Sound.send {node' : MamNodeApp A K} {msg : Name} {dest : Option A} {hops : ℤ}
    (hmode : node'.mamRelay = node.mamRelay) :
    Sound node ((MamNodeApp.sendSimpleMessage msg dest hops).map (node',·)) := by
  intro node'' sent h
  obtain ⟨l,hl,he⟩ := Option.map_eq_some_iff.mp h
  obtain ⟨rfl,rfl⟩ := Prod.mk.inj he
  unfold MamNodeApp.sendSimpleMessage at hl
  split_ifs at hl with hhops
  obtain rfl := Option.some.inj hl
  refine ⟨hmode,fun v hv => ?_⟩
  obtain ⟨m,hm,rfl⟩ := List.mem_map.mp hv
  obtain rfl := List.mem_singleton.mp (List.mem_of_mem_filter hm)
  exact not_lt.mp hhops

theorem Sound.ite {p : Prop} [Decidable p] {r r' : MamNodeApp.Result A K} (h : Sound node r)
    (h' : Sound node r') : Sound node (if p then r else r') := by
  split_ifs
  · exact h
  · exact h'

theorem Sound.sendOr {p : Prop} [Decidable p] {node' : MamNodeApp A K} {msg : Name}
    {dest : Option A} {hops : ℤ} (hmode : node'.mamRelay = node.mamRelay) :
    Sound node ((if p then MamNodeApp.sendSimpleMessage msg dest hops else some []).map
      (node',·)) := by
  split_ifs
  · exact .send hmode
  · exact .quiet hmode rfl

theorem Sound.map {node' : MamNodeApp A K} {sent : Option (List (Sent A K))}
    (hmode : node'.mamRelay = node.mamRelay) (hsent : ∀ l, sent = some l → found l = []) :
    Sound node (sent.map (node',·)) := by
  cases sent with
  | none => exact .none
  | some l => exact .quiet hmode (hsent l rfl)

theorem found_sendFriendPoll {l : List (Sent A K)} (h : node.sendFriendPoll = some l) :
    found l = [] := by
  unfold MamNodeApp.sendFriendPoll at h
  split_ifs at h
  obtain rfl := Option.some.inj h
  rfl

theorem found_sendFriendRequest {l : List (Sent A K)} (h : node.sendFriendRequest = some l) :
    found l = [] := by
  unfold MamNodeApp.sendFriendRequest at h
  split_ifs at h
  obtain rfl := Option.some.inj h
  rfl

theorem found_sendFriendEstablished {l : List (Sent A K)}
    (h : node.sendFriendEstablishedInternalMessage = some l) : found l = [] := by
  unfold MamNodeApp.sendFriendEstablishedInternalMessage at h
  split_ifs at h
  obtain rfl := Option.some.inj h
  rfl

variable [DecidableEq A] [DecidableEq K] {I : Addresses A K} {simTime : ℕ} {src : A} {hops : ℤ}

omit [DecidableEq A] [DecidableEq K] in
theorem setRoute_of_mesh (hmesh : node.mamRelay = false) : node.setRoute simTime src hops = node := by
  rw [MamNodeApp.setRoute,if_neg]
  rintro ⟨hmam,_⟩
  rw [hmesh] at hmam
  cases hmam

omit [DecidableEq A] in
/-- In the mesh's own mode the node relays once, and with the value it was given. -/
theorem relayFound_of_mesh (hmesh : node.mamRelay = false) {node' : MamNodeApp A K}
    {sent : List (Sent A K)} (h : node.relayFound I simTime src hops = some (node',sent)) :
    node'.mamRelay = false ∧ found sent = if node.relayNode = true ∧ 0 < hops ∧
      node.dataSendCache.exists_ (some (I.foundKey src)) (simTime/SIMTIME_MS) = false
      then [hops] else [] := by
  unfold MamNodeApp.relayFound at h
  by_cases hrelay : node.relayNode = true
  · rw [if_pos hrelay,if_neg (by simp [hmesh])] at h
    by_cases hfirst : 0 < hops ∧ node.dataSendCache.exists_ (some (I.foundKey src))
        (simTime/SIMTIME_MS) = false
    · rw [if_pos hfirst] at h
      rw [if_pos ⟨hrelay,hfirst⟩]
      obtain ⟨l,hl,he⟩ := Option.map_eq_some_iff.mp h
      obtain ⟨rfl,rfl⟩ := Prod.mk.inj he
      unfold MamNodeApp.broadcastSimpleMessage MamNodeApp.sendSimpleMessage at hl
      rw [if_neg (not_lt.mpr hfirst.1.le)] at hl
      obtain rfl := Option.some.inj hl
      exact ⟨hmesh,rfl⟩
    · rw [if_neg hfirst] at h
      rw [if_neg fun hall => hfirst hall.2]
      obtain ⟨rfl,rfl⟩ := Prod.mk.inj (Option.some.inj h)
      exact ⟨hmesh,rfl⟩
  · rw [if_neg hrelay] at h
    rw [if_neg fun hall => hrelay hall.1]
    obtain ⟨rfl,rfl⟩ := Prod.mk.inj (Option.some.inj h)
    exact ⟨hmesh,rfl⟩

omit [DecidableEq A] [DecidableEq K] in
variable (node simTime) in
theorem sendMyDataToSink_same : (node.sendMyDataToSink simTime).mamRelay = node.mamRelay ∧
    (node.sendMyDataToSink simTime).relayNode = node.relayNode ∧
    (node.sendMyDataToSink simTime).dataSendCache = node.dataSendCache := by
  unfold MamNodeApp.sendMyDataToSink
  split_ifs <;> exact ⟨rfl,rfl,rfl⟩

omit [DecidableEq A] in
theorem processFoundMobileSink_of_mesh (hmesh : node.mamRelay = false) {node' : MamNodeApp A K}
    {sent : List (Sent A K)}
    (h : node.processFoundMobileSink I simTime src hops = some (node',sent)) :
    node'.mamRelay = false ∧ found sent = if node.relayNode = true ∧ 0 < hops ∧
      node.dataSendCache.exists_ (some (I.foundKey src)) (simTime/SIMTIME_MS) = false
      then [hops] else [] := by
  unfold MamNodeApp.processFoundMobileSink at h
  rw [setRoute_of_mesh hmesh] at h
  obtain ⟨hmode,hrelay,hcache⟩ := sendMyDataToSink_same node simTime
  rw [← hrelay,← hcache]
  dsimp only at h
  split_ifs at h
  · exact relayFound_of_mesh (hmode.trans hmesh) h
  · have hpushed : (node.sendMyDataToSink simTime).pushDummies.mamRelay = false :=
      hmode.trans hmesh
    exact relayFound_of_mesh hpushed h

variable (src) in
omit [DecidableEq K] in
theorem sound_processDisconnected : Sound node (node.processDisconnected src) := by
  unfold MamNodeApp.processDisconnected
  apply Sound.sendOr
  change (if _ then _ else node).mamRelay = _
  split_ifs <;> rfl

omit [DecidableEq A] [DecidableEq K] in
theorem sound_processDiscovery : Sound node (node.processDiscovery simTime src) :=
  Sound.sendOr rfl

variable (src) in
omit [DecidableEq A] in
theorem sound_processDataSend (packet : BMeshPacket K) :
    Sound node (node.processDataSend simTime src packet) :=
  .ite (.quiet rfl rfl) (.ite (.send rfl) (.ite (.quiet rfl rfl) (.quiet rfl rfl)))

omit [DecidableEq A] [DecidableEq K] in
theorem sound_processFriendRequest : Sound node (node.processFriendRequest src) := Sound.sendOr rfl

omit [DecidableEq A] [DecidableEq K] in
theorem sound_processFriendOffer : Sound node (node.processFriendOffer src) :=
  .ite .none (.ite (.map rfl fun _ => found_sendFriendPoll) (.quiet rfl rfl))

omit [DecidableEq K] in
theorem sound_processFriendPoll : Sound node (node.processFriendPoll src) := by
  unfold MamNodeApp.processFriendPoll
  apply Sound.ite .none
  cases node.lowPowerNodes.find? (·.1 = src) with
  | none => exact .send rfl
  | some q => exact .ite (.quiet rfl rfl) (.send rfl)

theorem sound_processFriendUpdate (hmesh : node.mamRelay = false) :
    Sound node (node.processFriendUpdate I simTime src) := by
  unfold MamNodeApp.processFriendUpdate
  apply Sound.ite _ .none
  apply Sound.ite
  · intro node' sent h
    obtain ⟨l,hl,h⟩ := Option.bind_eq_some_iff.mp h
    obtain ⟨l',hl',he⟩ := Option.map_eq_some_iff.mp h
    obtain ⟨rfl,rfl⟩ := Prod.mk.inj he
    refine ⟨rfl,fun v hv => ?_⟩
    rw [found_append,found_sendFriendEstablished hl,found_sendFriendPoll hl'] at hv
    cases hv
  · intro node' sent h
    obtain ⟨hmode,hfound⟩ := processFoundMobileSink_of_mesh hmesh h
    refine ⟨hmode.trans hmesh.symm,fun v hv => ?_⟩
    rw [hfound] at hv
    split_ifs at hv
    · rw [List.mem_singleton.mp hv]
      decide
    · cases hv

/-- What a packet makes a node send of a wave: for a FOUND_MOBILE_SINK the value that came with it,
where the node relays. -/
theorem handleMessage_of_mesh (hmesh : node.mamRelay = false) {packet : BMeshPacket K}
    {node' : MamNodeApp A K} {sent : List (Sent A K)}
    (h : node.handleMessage I simTime src packet = some (node',sent)) :
    node'.mamRelay = false ∧ (∀ v ∈ found sent, 0 ≤ v) ∧ (packet.name = .FOUND_MOBILE_SINK →
      found sent = if node.willRelay I simTime src packet.hops = true then [packet.hops] else []) := by
  unfold MamNodeApp.handleMessage at h
  by_cases hloop : I.isLoopback src = true
  · rw [if_pos hloop] at h
    obtain ⟨rfl,rfl⟩ := Prod.mk.inj (Option.some.inj h)
    refine ⟨hmesh,fun v hv => (by cases hv),fun _ => ?_⟩
    rw [if_neg (by simp [MamNodeApp.willRelay,hloop])]
    rfl
  · rw [if_neg hloop] at h
    have hsound (r : MamNodeApp.Result A K) (hr : Sound node r) (hsome : r = some (node',sent))
        (hname : packet.name ≠ .FOUND_MOBILE_SINK) : node'.mamRelay = false ∧
        (∀ v ∈ found sent, 0 ≤ v) ∧ (packet.name = .FOUND_MOBILE_SINK → found sent =
          if node.willRelay I simTime src packet.hops = true then [packet.hops] else []) :=
      ⟨(hr node' sent hsome).1.trans hmesh,(hr node' sent hsome).2,fun hf => absurd hf hname⟩
    cases hname : packet.name with
    | FOUND_MOBILE_SINK =>
      rw [hname] at h
      obtain ⟨hmode,hfound⟩ := processFoundMobileSink_of_mesh hmesh h
      have hwill : node.willRelay I simTime src packet.hops = true ↔ node.relayNode = true ∧
          0 < packet.hops ∧ node.dataSendCache.exists_ (some (I.foundKey src))
            (simTime/SIMTIME_MS) = false := by
        simp [MamNodeApp.willRelay,hloop,and_assoc]
      refine ⟨hmode,fun v hv => ?_,fun _ => ?_⟩
      · rw [hfound] at hv
        split_ifs at hv with hpos
        · rw [List.mem_singleton.mp hv]
          exact hpos.2.1.le
        · cases hv
      · rw [hfound]
        exact if_congr hwill.symm rfl rfl
    | DISCONNECTED_MOBILE_SINK =>
      rw [hname] at h
      exact hname ▸ hsound _ (sound_processDisconnected src) h (by simp [hname])
    | MAMCDISCOVERY =>
      rw [hname] at h
      exact hname ▸ hsound _ sound_processDiscovery h (by simp [hname])
    | DATA_SEND =>
      rw [hname] at h
      exact hname ▸ hsound _ (sound_processDataSend src packet) h (by simp [hname])
    | FRIEND_REQUEST =>
      rw [hname] at h
      exact hname ▸ hsound _ sound_processFriendRequest h (by simp [hname])
    | FRIEND_OFFER =>
      rw [hname] at h
      exact hname ▸ hsound _ sound_processFriendOffer h (by simp [hname])
    | FRIEND_POLL =>
      rw [hname] at h
      exact hname ▸ hsound _ sound_processFriendPoll h (by simp [hname])
    | FRIEND_UPDATE =>
      rw [hname] at h
      exact hname ▸ hsound _ (sound_processFriendUpdate hmesh) h (by simp [hname])
    | other =>
      rw [hname] at h
      exact hname ▸ hsound _ (.quiet rfl rfl) h (by simp [hname])

omit [DecidableEq A] [DecidableEq K] in
theorem sound_handleSelfMsg (uuid : K) : Sound node (node.handleSelfMsg simTime uuid) := by
  unfold MamNodeApp.handleSelfMsg
  cases node.selfMsg with
  | none => exact .none
  | some timer =>
    apply Sound.ite _ .none
    cases timer.1 with
    | START =>
      refine .ite (.ite (.map rfl fun _ => found_sendFriendRequest) .none) (.quiet rfl rfl)
    | SEND_MY_DATA => exact .ite (.quiet rfl rfl) (.quiet rfl rfl)

omit [DecidableEq A] [DecidableEq K] in
theorem sound_handlePollTimer : Sound node (node.handlePollTimer simTime) := by
  unfold MamNodeApp.handlePollTimer
  cases node.pollTimer with
  | none => exact .none
  | some due => exact .ite (.map rfl fun _ => found_sendFriendPoll) .none

end Handlers

theorem Bounded.singleton {v : ℤ} (hv : 0 ≤ v) : Bounded [v] where
  decreases := List.IsChain.singleton v
  drops _ h := by cases h
  length := by simpa using hv

theorem not_bounded_repeat (l : List ℤ) (v : ℤ) : ¬ Bounded (l++[v]++[v]) := by
  intro h
  have hchain := h.decreases
  rw [List.append_assoc,List.singleton_append,List.isChain_append_cons_cons] at hchain
  exact lt_irrefl v hchain.2.1

/-- What is on its way carries its wave, of which it is the last value. -/
structure Waves (s : Mesh n A K) : Prop where
  mode : ∀ i, (s.nodes i).mamRelay = false
  last : ∀ c ∈ s.inFlight, c.packet.name = .FOUND_MOBILE_SINK → ∃ l, c.wave = l++[c.packet.hops]
  none : ∀ c ∈ s.inFlight, c.packet.name ≠ .FOUND_MOBILE_SINK → c.wave = []

theorem extend_last (wave : List ℤ) {packet : BMeshPacket K}
    (h : packet.name = .FOUND_MOBILE_SINK) : ∃ l, extend wave packet = l++[packet.hops] :=
  ⟨wave,if_pos h⟩

theorem extend_none (wave : List ℤ) {packet : BMeshPacket K}
    (h : packet.name ≠ .FOUND_MOBILE_SINK) : extend wave packet = [] := if_neg h

section Step
variable [DecidableEq A] [DecidableEq K] {I : Addresses A K} {N : Topology n A}
  {s t : Mesh n A K}

omit [DecidableEq K] in
theorem Waves.acted (h : Waves s) {i : Fin n} {wave : List ℤ} {node : MamNodeApp A K}
    {sent : List (Sent A K)} (hmode : node.mamRelay = false) :
    Waves (s.acted N i wave node sent) := by
  have hcopy (c : Copy n A K) (hc : c ∈ sent.flatMap (N.copies i wave)) :
      c.wave = extend wave c.packet := by
    obtain ⟨m,_,hm⟩ := List.mem_flatMap.mp hc
    obtain ⟨j,_,rfl⟩ := List.mem_map.mp hm
    rfl
  constructor
  · intro j
    by_cases hj : j = i
    · subst hj
      change (Function.update s.nodes j node j).mamRelay = false
      rw [Function.update_self]
      exact hmode
    · change (Function.update s.nodes i node j).mamRelay = false
      rw [Function.update_of_ne hj]
      exact h.mode j
  · intro c hc hname
    rcases List.mem_append.mp hc with hc | hc
    · exact h.last c hc hname
    · rw [hcopy c hc]
      exact extend_last wave hname
  · intro c hc hname
    rcases List.mem_append.mp hc with hc | hc
    · exact h.none c hc hname
    · rw [hcopy c hc]
      exact extend_none wave hname

omit [DecidableEq A] [DecidableEq K] in
theorem Waves.eraseIdx (h : Waves s) (k : ℕ) :
    Waves { s with inFlight := s.inFlight.eraseIdx k } where
  mode := h.mode
  last c hc := h.last c (List.mem_of_mem_eraseIdx hc)
  none c hc := h.none c (List.mem_of_mem_eraseIdx hc)

/-- What a step adds to the waves is bounded, unless the step is a relay. -/
structure Grown (waves : List (List ℤ)) (t : Mesh n A K) (relay : Bool) : Prop where
  kept : Waves t
  new : ∃ new, t.waves = waves++new ∧ ((∀ w ∈ new, Bounded w) ↔ relay = false)

omit [DecidableEq K] in
/-- A node has acted on something that is no FOUND_MOBILE_SINK. -/
theorem Waves.starts (h : Waves s) {i : Fin n} {node : MamNodeApp A K} {sent : List (Sent A K)}
    (hmode : node.mamRelay = false) (hfound : ∀ v ∈ found sent, 0 ≤ v) :
    Grown s.waves (s.acted N i [] node sent) false := by
  refine ⟨h.acted hmode,_,rfl,iff_of_true (fun w hw => ?_) rfl⟩
  obtain ⟨v,hv,rfl⟩ := List.mem_map.mp hw
  exact .singleton (hfound v hv)

theorem Waves.step (h : Waves s) {a : Action n A K} (hs : Mesh.step I N s a = some t) :
    Grown s.waves t (s.relays I a) := by
  cases a with
  | inject src dest packet =>
    simp only [Mesh.step] at hs
    by_cases hhops : packet.hops < 0
    · rw [if_pos hhops] at hs
      cases hs
    rw [if_neg hhops] at hs
    obtain rfl := Option.some.inj hs
    refine ⟨⟨h.mode,fun c hc hname => ?_,fun c hc hname => ?_⟩,_,rfl,iff_of_true (fun w hw => ?_) rfl⟩
    · rcases List.mem_append.mp hc with hc | hc
      · exact h.last c hc hname
      · obtain rfl := List.mem_singleton.mp hc
        exact extend_last [] hname
    · rcases List.mem_append.mp hc with hc | hc
      · exact h.none c hc hname
      · obtain rfl := List.mem_singleton.mp hc
        exact extend_none [] hname
    · split_ifs at hw
      · rw [List.mem_singleton.mp hw]
        exact .singleton (not_lt.mp hhops)
      · cases hw
  | deliver k =>
    obtain ⟨c,hc,hs⟩ := Option.bind_eq_some_iff.mp hs
    obtain ⟨⟨node,sent⟩,hr,rfl⟩ := Option.map_eq_some_iff.mp hs
    have hmem := List.mem_of_getElem? hc
    obtain ⟨hmode,hpos,hfound⟩ := handleMessage_of_mesh (h.mode c.dest) hr
    have hrelays : s.relays I (.deliver k) = (decide (c.packet.name = .FOUND_MOBILE_SINK) &&
        (s.nodes c.dest).willRelay I s.simTime c.src c.packet.hops) := by
      simp only [Mesh.relays,hc,Option.any_some]
    by_cases hname : c.packet.name = .FOUND_MOBILE_SINK
    · obtain ⟨l,hl⟩ := h.last c hmem hname
      refine ⟨(h.eraseIdx k).acted hmode,_,rfl,?_⟩
      rw [hfound hname,hrelays,hl]
      by_cases hwill : (s.nodes c.dest).willRelay I s.simTime c.src c.packet.hops = true
      · rw [if_pos hwill]
        refine iff_of_false (fun hb => not_bounded_repeat l c.packet.hops (hb _ ?_)) ?_
        · exact List.mem_singleton_self _
        · simp [hname,hwill]
      · rw [if_neg hwill]
        exact iff_of_true (fun w hw => by cases hw) (by simp [hwill])
    · rw [h.none c hmem hname,hrelays]
      simp only [hname,decide_false,Bool.false_and]
      exact (h.eraseIdx k).starts hmode hpos
  | lose k =>
    obtain rfl := Option.some.inj hs
    exact ⟨h.eraseIdx k,[],(List.append_nil _).symm,iff_of_true (fun w hw => by cases hw) rfl⟩
  | selfMsg i uuid =>
    obtain ⟨⟨node,sent⟩,hr,rfl⟩ := Option.map_eq_some_iff.mp hs
    obtain ⟨hmode,hpos⟩ := sound_handleSelfMsg uuid node sent hr
    exact h.starts (hmode.trans (h.mode i)) hpos
  | pollTimer i =>
    obtain ⟨⟨node,sent⟩,hr,rfl⟩ := Option.map_eq_some_iff.mp hs
    obtain ⟨hmode,hpos⟩ := sound_handlePollTimer node sent hr
    exact h.starts (hmode.trans (h.mode i)) hpos
  | tick d =>
    obtain rfl := Option.some.inj hs
    exact ⟨⟨h.mode,h.last,h.none⟩,[],(List.append_nil _).symm,
      iff_of_true (fun w hw => by cases hw) rfl⟩

/-- The waves of a run from here on are bounded just when they were so far and no step relays. -/
theorem Waves.bounded_iff (h : Waves s) {nodes : Fin n → MamNodeApp A K}
    {l : List (Action n A K)} (hexec : (mesh I N nodes).exec s l = some t) :
    (∀ w ∈ t.waves, Bounded w) ↔ (∀ w ∈ s.waves, Bounded w) ∧
      (mesh I N nodes).execUnder (fun s a => s.relays I a = false) s l = some t := by
  induction l generalizing s with
  | nil =>
    obtain rfl : s = t := by simpa [TransitionSystem.exec] using hexec
    simp [TransitionSystem.execUnder]
  | cons a l ih =>
    obtain ⟨u,hu,ht⟩ := Option.bind_eq_some_iff.mp hexec
    obtain ⟨hwaves,new,hnew,hbounded⟩ := h.step hu
    have hsplit : (∀ w ∈ u.waves, Bounded w) ↔
        (∀ w ∈ s.waves, Bounded w) ∧ s.relays I a = false := by
      rw [hnew,List.forall_mem_append,hbounded]
    rw [ih hwaves ht,hsplit,TransitionSystem.execUnder]
    by_cases hrelays : s.relays I a = false
    · rw [if_pos hrelays,hu,Option.bind_some]
      simp only [hrelays,and_true]
    · rw [if_neg hrelays]
      simp [hrelays]

end Step

/-- In any mesh, the waves of a run are bounded just when none of its steps relays a message. -/
theorem waves_bounded_iff [DecidableEq A] [DecidableEq K] (I : Addresses A K) (N : Topology n A)
    (nodes : Fin n → MamNodeApp A K) (hmesh : ∀ i, (nodes i).mamRelay = false)
    (l : List (Action n A K)) (s : Mesh n A K)
    (h : (mesh I N nodes).exec (mesh I N nodes).init l = some s) :
    (∀ w ∈ s.waves, Bounded w) ↔ (mesh I N nodes).execUnder
      (fun s a => s.relays I a = false) (mesh I N nodes).init l = some s := by
  have hinit : Waves (mesh I N nodes).init := by
    refine ⟨hmesh,fun c hc => ?_,fun c hc => ?_⟩
    · cases hc
    · cases hc
  rw [hinit.bounded_iff h]
  exact and_iff_right fun w hw => by cases hw

/-- Four relay nodes in a row. -/
def row : Topology 4 ℕ where
  addr i := i.val
  range i := (List.finRange 4).filter fun j => i.val+1 = j.val ∨ j.val+1 = i.val

def rowAddresses : Addresses ℕ ℕ where
  foundKey src := src
  isLoopback _ := false

def relayNode : MamNodeApp ℕ ℕ where
  relayNode := true
  mamRelay := false
  friendNode := false
  lowPowerNode := false

/-- A message with no hops left is dropped by the first node, and its wave is bounded. -/
theorem waves_bounded_iff_dropped : ∃ s, (mesh rowAddresses row fun _ => relayNode).Reachable s ∧
    s.waves = [[0]] ∧ s.inFlight.length = 0 ∧ ∀ w ∈ s.waves, Bounded w := by
  obtain ⟨s,hs,hw⟩ := (Option.any_eq_true _ _).mp (show (TransitionSystem.execUnder
    (mesh rowAddresses row fun _ => relayNode) (fun s a => s.relays rowAddresses a = false)
    (mesh rowAddresses row fun _ => relayNode).init
    [.inject 9 0 { name := .FOUND_MOBILE_SINK, hops := 0 },.deliver 0]).any
      (fun s => s.waves = [[0]] && s.inFlight.length = 0) = true by decide +kernel)
  simp only [Bool.and_eq_true,decide_eq_true_eq] at hw
  have hexec := TransitionSystem.exec_of_execUnder hs
  exact ⟨s,TransitionSystem.run_of_exec hexec,hw.1,hw.2,
    (waves_bounded_iff rowAddresses row (fun _ => relayNode) (fun _ => rfl) _ s hexec).mpr hs⟩

/-- One hop is asked for and the message travels on from node to node, with one hop left each time. -/
theorem not_bounded_row : ∃ s, (mesh rowAddresses row fun _ => relayNode).Reachable s ∧
    [1,1,1,1] ∈ s.waves ∧ ¬ ∀ w ∈ s.waves, Bounded w := by
  obtain ⟨s,hs,hw⟩ := TransitionSystem.exists_reachable_of_exec
    (T := mesh rowAddresses row fun _ => relayNode)
    (l := [.inject 9 0 { name := .FOUND_MOBILE_SINK, hops := 1 },.deliver 0,.deliver 0,.deliver 1])
    (p := fun s => decide ([1,1,1,1] ∈ s.waves)) (by decide +kernel)
  rw [decide_eq_true_eq] at hw
  exact ⟨s,hs,hw,fun h => not_bounded_repeat [1,1] 1 (h _ hw)⟩

end PucRio.Mam
