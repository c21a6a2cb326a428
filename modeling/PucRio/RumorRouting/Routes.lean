import PucRio.RumorRouting.Network

/-! Every direction leads nearer to the event. The agents on their way are the offers of the routes
to each event, and each action is a step of these routes. -/
namespace PucRio.RumorRouting
variable {ν ε : Type*} [DecidableEq ν]

/-- The tables and the agents, event by event. -/
def Routed (s : Network ν ε) : Prop := ∀ k, Routing (s.table k) (s.Offers k)

section Steps
variable {s : Network ν ε} {x : ν} {r : Node ν ε × List (Message ν ε)}

/-- What a node does keeps the routes where at each event its entry stays, is at home, or is an offer
one step longer, and where it sends on only agents that are no nearer than itself. -/
theorem Routed.commit (h : Routed s)
    (hevents : ∀ k, r.1.events k = (s.nodes x).events k ∨ r.1.events k = some ⟨0,none⟩ ∨
      ∃ y d, s.Offers k y d ∧ y ≠ x ∧
        (∀ own, (s.nodes x).events k = some own → d+1 < own.distance) ∧
        r.1.events k = some ⟨d+1,some y⟩)
    (hsent : ∀ dest sent k e, .agent dest sent ∈ r.2 → sent.events k = some e →
      ∃ own, r.1.events k = some own ∧ own.distance ≤ e.distance) : Routed (s.commit x r) := by
  intro k
  rw [Network.table_commit]
  have htable : Routing (Function.update (s.table k) x (r.1.events k)) (s.Offers k) := by
    rcases hevents k with hk | hk | ⟨y,d,hd,hne,hlt,hk⟩
    · rw [hk,show (s.nodes x).events k = s.table k x from rfl,Function.update_eq_self]
      exact h k
    · rw [hk]
      exact (h k).originate x
    · rw [hk]
      exact (h k).adopt hd hne hlt
  refine htable.offer fun y d hd => ?_
  rcases Network.offers_commit hd with hd | ⟨rfl,dest,sent,e,hm,he,rfl⟩
  · exact .inl hd
  · rw [Function.update_self]
    exact .inr (hsent dest sent k e hm he)

/-- A node that keeps its table and sends no agent changes no route. -/
theorem Routed.commit_of_not_agent (h : Routed s) (hevents : r.1.events = (s.nodes x).events)
    (hsent : ∀ m ∈ r.2, m.isAgent = false) : Routed (s.commit x r) := by
  refine h.commit (fun k => .inl (congrFun hevents k)) fun dest sent k e hm _ => ?_
  cases hsent _ hm

theorem Routed.evento [DecidableEq ε] (h : Routed s) (x : ν) (k : ε) (random : ℕ) :
    Routed (s.commit x (evento x (s.nodes x) k random)) := by
  have hevents : (RumorRouting.evento x (s.nodes x) k random).1.events =
      Function.update (s.nodes x).events k (some ⟨0,none⟩) := rfl
  refine h.commit (fun k' => ?_) fun dest sent k' e hm he => ?_
  · rw [hevents]
    by_cases hk : k' = k
    · subst hk
      exact .inr (.inl (Function.update_self ..))
    · exact .inl (Function.update_of_ne hk ..)
  · refine distance_le_of_sent (fun own ho => ?_) hm he
    by_cases hk : k' = k
    · subst hk
      simp only [Function.update_self] at ho
      cases ho
      exact le_rfl
    · simp only [Function.update_of_ne hk] at ho
      exact (h k').nonneg x own ho

theorem Routed.processAgent (h : Routed s) {topic dest : ν} {agentData : AgentData ν ε}
    (hm : (topic,.agent dest agentData) ∈ s.published) (hne : topic ≠ x) (ids : List MessageId)
    (overheard : Bool) (random : ℕ) : Routed (s.commit x
      (processAgent x ((s.nodes x).remember ids) agentData topic overheard random)) := by
  have hpos (k : ε) (own : Route ν) (ho : (s.nodes x).events k = some own) : 0 ≤ own.distance :=
    (h k).nonneg x own ho
  refine h.commit (fun k => ?_) fun dest sent k e hs he => distance_le_of_sent (hpos k) hs he
  rw [processAgent_events]
  rcases ((s.nodes x).remember ids).learn_cases agentData topic k with hk | ⟨e,he,hlt,hk⟩
  · exact .inl hk
  · refine .inr (.inr ⟨topic,e.distance,⟨dest,agentData,e,hm,he,rfl⟩,hne,fun own ho => ?_,hk⟩)
    have := hpos k own ho
    have := hlt own ho
    omega

/-- Every action keeps the routes. -/
theorem Routed.step [DecidableEq ε] {topology : Topology ν} (h : Routed s) {a : Action ν ε}
    {t : Network ν ε} (hs : (rumorRouting topology).step s a = some t) : Routed t := by
  cases a with
  | evento x k random =>
    cases hs
    exact h.evento x k random
  | consulta x k random =>
    cases hs
    refine h.commit_of_not_agent rfl fun m hm => ?_
    obtain rfl := List.mem_singleton.mp hm
    rfl
  | heartbeat x =>
    cases hs
    refine h.commit_of_not_agent rfl fun m hm => ?_
    obtain rfl := List.mem_singleton.mp hm
    rfl
  | controle x k =>
    obtain ⟨ids,-,rfl⟩ := Network.controle_cases hs
    exact h.commit_of_not_agent rfl fun m hm => nomatch hm
  | receive x i random =>
    obtain ⟨topic,m,ids,hi,hsub,-,rfl | rfl⟩ := Network.receive_cases hs
    · exact h.commit_of_not_agent rfl fun m hm => nomatch hm
    · have hne : topic ≠ x := by
        rintro rfl
        rw [topology.irrefl] at hsub
        cases hsub
      cases m with
      | heartbeat => exact h.commit_of_not_agent rfl fun m hm => nomatch hm
      | agent dest agentData => exact h.processAgent (List.mem_of_getElem? hi) hne ids _ random
      | query dest queryData =>
        refine h.commit_of_not_agent rfl fun m hm => ?_
        simp only [processMessage] at hm
        split at hm
        · exact isAgent_processQuery hm
        · cases hm
      | queryResponse data =>
        refine h.commit_of_not_agent rfl fun m hm => ?_
        simp only [processMessage] at hm
        split at hm
        · exact isAgent_processQueryResponse hm
        · cases hm

end Steps

section Runs
variable [DecidableEq ε] {topology : Topology ν} {s : Network ν ε}

theorem routed_of_reachable (hs : (rumorRouting topology).Reachable s) : Routed s :=
  hs.invariant (fun _ => .empty fun _ _ ⟨_,_,_,hm,_⟩ => nomatch hm) fun _ _ _ h _ hstep =>
    h.step hstep

/-- Directions lead nearer, to a node at distance zero in the end. -/
structure LoopFree (s : Network ν ε) : Prop where
  nearer : ∀ x k r, (s.nodes x).events k = some r → 0 < r.distance →
    ∃ y r', r.direction = some y ∧ y ≠ x ∧ (s.nodes y).events k = some r' ∧ r'.distance < r.distance
  arrives : ∀ x k r, (s.nodes x).events k = some r →
    ∃ (j : ℕ) (y : ν) (r' : Route ν), j ≤ r.distance ∧ follow (s.table k) j x = some y ∧
      (s.nodes y).events k = some r' ∧ r'.distance = 0

/-- There are no routing loops, whatever nodes there are and whoever hears whom. -/
theorem loopFree_of_reachable (topology : Topology ν) (s : Network ν ε)
    (hs : (rumorRouting topology).Reachable s) : LoopFree s where
  nearer _ k _ hx hpos := (routed_of_reachable hs k).onward _ _ hx hpos
  arrives _ k _ hx := (routed_of_reachable hs k).exists_follow hx

/-- An event at a corner of the grid, its agent heard by two neighbors, one of which it is meant for
and sends it on. -/
def rumorAtCorner : List (Action (ℕ × ℕ) ℕ) :=
  [.heartbeat (0,1),.receive (0,0) 0 0,.heartbeat (1,1),.receive (0,1) 1 0,.evento (0,0) 1 0,
    .receive (1,0) 2 0,.receive (0,1) 2 0,.receive (1,1) 3 0]

theorem loopFree_of_reachable_corner : ∃ s : Network (ℕ × ℕ) ℕ,
    (((s.nodes (1,1)).events 1).map Route.distance = some 3 ∧
      ((s.nodes (1,0)).events 1).map Route.distance = some 2) ∧ LoopFree s := by
  obtain ⟨s,hs,hp⟩ := TransitionSystem.exists_reachable_of_exec (T := rumorRouting grid)
    (l := rumorAtCorner) (p := fun s => ((s.nodes (1,1)).events 1).map Route.distance = some 3 &&
      ((s.nodes (1,0)).events 1).map Route.distance = some 2) (by decide +kernel)
  simp only [Bool.and_eq_true,decide_eq_true_eq] at hp
  exact ⟨s,hp,loopFree_of_reachable grid s hs⟩

end Runs
end PucRio.RumorRouting
