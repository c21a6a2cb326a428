import PucRio.RumorRouting.Routes
import Mathlib.Data.Fintype.Prod
import Mathlib.Data.List.ProdSigma

/-! What becomes of a query. Whatever gets lost on its way, an answer names a node with the event, and
was asked for. Where nothing gets lost and the nodes know their neighbors, a query that comes upon a
route is answered, and the answer comes back over the nodes that the query has visited. -/
namespace PucRio.RumorRouting
variable {ν ε : Type*}

section Track
variable {topology : Topology ν} {l : List ν} {x y : ν}

/-- The nodes that a query has visited. Each one after the first subscribes to one before it. -/
inductive Track (topology : Topology ν) : List ν → Prop
  | start (x : ν) : Track topology [x]
  | snoc {l : List ν} {x y : ν} : Track topology l → y ∈ l → topology.subscribes x y = true →
      Track topology (l++[x])

namespace Track

theorem ne_nil (h : Track topology l) : l ≠ [] := by
  cases h <;> simp

/-- A node that is not the first on a track subscribes to one before it. -/
theorem earlier (h : Track topology l) {i : ℕ} (hx : l[i]? = some x) (hi : 0 < i) :
    ∃ j < i, ∃ y, l[j]? = some y ∧ topology.subscribes x y = true := by
  induction h with
  | start z =>
    rw [List.getElem?_eq_none (by rw [List.length_singleton]; omega)] at hx
    cases hx
  | @snoc l z y h hy hsub ih =>
    by_cases hlt : i < l.length
    · rw [List.getElem?_append_left hlt] at hx
      obtain ⟨j,hj,w,hw,hsub'⟩ := ih hx
      exact ⟨j,hj,w,by rwa [List.getElem?_append_left (hj.trans hlt)],hsub'⟩
    · have hil : i = l.length := by
        have := (List.getElem?_eq_some_iff.mp hx).1
        rw [List.length_append,List.length_singleton] at this
        omega
      subst hil
      rw [List.getElem?_concat_length] at hx
      cases hx
      obtain ⟨j,hj,rfl⟩ := List.getElem_of_mem hy
      exact ⟨j,hj,_,by rw [List.getElem?_append_left hj,List.getElem?_eq_getElem hj],hsub⟩

end Track

variable [DecidableEq ν]

theorem Track.visit (h : Track topology l) (hy : y ∈ l) (hsub : topology.subscribes x y = true) :
    Track topology (visit x l) := by
  unfold RumorRouting.visit
  split_ifs
  · exact h
  · exact h.snoc hy hsub

theorem head?_visit (hl : l ≠ []) : (visit x l).head? = l.head? := by
  unfold visit
  split_ifs
  · rfl
  · cases l with
    | nil => exact absurd rfl hl
    | cons y l => rfl

theorem mem_visit : x ∈ visit x l := by
  unfold visit
  split_ifs with h
  · exact h
  · simp

theorem subset_visit : l ⊆ visit x l := by
  unfold visit
  split_ifs
  · exact List.Subset.refl l
  · exact List.subset_append_left ..

theorem length_visit : (visit x l).length ≤ l.length+1 := by
  unfold visit
  split_ifs <;> simp

end Track

section Grid

theorem mem_possibleNeighbors {row column r c : ℕ} : (r,c) ∈ possibleNeighbors row column ↔
    (r,c) ≠ (row,column) ∧ (r ≤ row+1 ∧ row ≤ r+1) ∧ c ≤ column+1 ∧ column ≤ c+1 := by
  unfold possibleNeighbors
  simp only [List.mem_append,List.mem_cons,List.not_mem_nil,or_false,Prod.mk.injEq,ne_eq]
  constructor
  · rintro (((h | h) | h) | h)
    · split_ifs at h
      · simp only [List.mem_cons,Prod.mk.injEq,List.not_mem_nil,or_false] at h
        omega
      · cases h
    · split_ifs at h
      · simp only [List.mem_cons,Prod.mk.injEq,List.not_mem_nil,or_false] at h
        omega
      · cases h
    · split_ifs at h
      · simp only [List.mem_cons,Prod.mk.injEq,List.not_mem_nil,or_false] at h
        omega
      · cases h
    · omega
  · intro h
    split_ifs <;> simp only [List.mem_cons,Prod.mk.injEq,List.not_mem_nil,or_false,false_or] <;> omega

/-- The nodes of a grid that run. -/
def gridOf (rows columns : ℕ) : Topology (Fin rows × Fin columns) where
  subscribes x y := grid.subscribes (x.1.val,x.2.val) (y.1.val,y.2.val)
  irrefl x := grid.irrefl (x.1.val,x.2.val)

theorem gridOf_symm (rows columns : ℕ) (x y : Fin rows × Fin columns)
    (h : (gridOf rows columns).subscribes x y = true) :
    (gridOf rows columns).subscribes y x = true := by
  obtain ⟨hne,hrow,hcolumn⟩ := mem_possibleNeighbors.mp (of_decide_eq_true h)
  exact decide_eq_true (mem_possibleNeighbors.mpr ⟨Ne.symm hne,⟨hrow.2,hrow.1⟩,hcolumn.2,hcolumn.1⟩)

/-- Every node publishes a heartbeat, and it reaches all neighbors. -/
def heartbeats (rows columns : ℕ) : List (Action (Fin rows × Fin columns) ℕ) :=
  let nodes := List.finRange rows ×ˢ List.finRange columns
  nodes.map .heartbeat++nodes.zipIdx.flatMap fun y =>
    (nodes.filter fun x => (gridOf rows columns).subscribes x y.1).map fun x => .receive x y.2 0

end Grid

section Answers
variable [DecidableEq ν] {topology : Topology ν} {s : Network ν ε} {x y : ν} {k : ε} {l : List ν}
  {queryData : QueryData ν ε} {data : ResponseData ν ε} {r : Node ν ε × List (Message ν ε)}

/-- A button of `x` has been clicked. -/
def Network.Asks (s : Network ν ε) (x : ν) (k : ε) : Prop :=
  ∃ dest, (x,.query dest { q := k }) ∈ s.published

structure Visited (topology : Topology ν) (s : Network ν ε) (k : ε) (l : List ν) : Prop where
  track : Track topology l
  asked : ∃ x, l.head? = some x ∧ s.Asks x k

/-- A query as `y` has published it: as it was asked, or with hops left. -/
inductive Underway (topology : Topology ν) (s : Network ν ε) (y : ν) : QueryData ν ε → Prop
  | asked {k : ε} : s.Asks y k → Underway topology s y { q := k }
  | sent {k : ε} {l : List ν} {ttl : ℤ} : Visited topology s k l → y ∈ l → 0 ≤ ttl →
      l.length+ttl ≤ QUERY_TTL+1 → Underway topology s y ⟨k,some ttl,some l⟩

/-- A node with the event, which somebody has asked for. -/
structure Answer (topology : Topology ν) (s : Network ν ε) (data : ResponseData ν ε) : Prop where
  found : ∃ e, (s.nodes data.finalNode).events data.event = some e ∧ e.distance = 0
  final : data.finalNode ∈ data.track
  visited : Visited topology s data.event data.track
  length : data.track.length ≤ QUERY_TTL+2

/-- What is published about queries, and whom a node knows. -/
structure Truthful (topology : Topology ν) (s : Network ν ε) : Prop where
  query : ∀ y dest queryData, (y,.query dest queryData) ∈ s.published →
    Underway topology s y queryData
  response : ∀ y data, (y,.queryResponse data) ∈ s.published → Answer topology s data
  neighbors : ∀ x y, y ∈ (s.nodes x).neighbors → topology.subscribes x y = true
  directions : ∀ x k e y, (s.nodes x).events k = some e → e.direction = some y →
    topology.subscribes x y = true

/-- The node `x` is entered in what the query has visited. -/
theorem Underway.entered (h : Underway topology s y queryData)
    (hsub : topology.subscribes x y = true) :
    Visited topology s queryData.q (queryData.entered x y) ∧ y ∈ queryData.entered x y ∧
      x ∈ queryData.entered x y ∧
      (queryData.entered x y).length+(queryData.ttl.getD QUERY_TTL-1) ≤ QUERY_TTL+1 ∧
      0 ≤ queryData.ttl.getD QUERY_TTL := by
  cases h with
  | @asked k h =>
    refine ⟨⟨(Track.start y).snoc (List.mem_singleton_self y) hsub,y,rfl,h⟩,?_,?_,?_,?_⟩
    · exact List.mem_cons_self
    · exact List.mem_cons_of_mem _ List.mem_cons_self
    · exact le_rfl
    · change (0 : ℤ) ≤ 8
      decide
  | @sent k l ttl h hy hnonneg hle =>
    obtain ⟨a,ha,hasks⟩ := h.asked
    have hlength : (visit x l).length ≤ l.length+1 := length_visit
    refine ⟨⟨h.track.visit hy hsub,a,?_,hasks⟩,subset_visit hy,mem_visit,?_,hnonneg⟩
    · exact (head?_visit h.track.ne_nil).trans ha
    · change ((visit x l).length : ℤ)+(ttl-1) ≤ _
      omega

/-- A query is sent on with one hop less, or answered where the event happened. -/
theorem processQuery_cases {node : Node ν ε} {random : ℕ} {m : Message ν ε}
    (hm : m ∈ processQuery x node queryData y random) :
    (0 ≤ queryData.ttl.getD QUERY_TTL-1 ∧ ∃ dest, m = .query dest { queryData with
      ttl := some (queryData.ttl.getD QUERY_TTL-1)
      visited := some (queryData.entered x y) }) ∨
    (∃ e, node.events queryData.q = some e ∧ e.distance = 0) ∧
      m = .queryResponse ⟨x,queryData.q,queryData.entered x y,[],
        (queryData.entered x y).length,y,10⟩ := by
  have hpublish {ttl : ℤ} {message : ℤ → Message ν ε} (h : m ∈ publish (some (ttl+1)) message) :
      0 ≤ ttl ∧ m = message ttl := by
    unfold publish at h
    dsimp only at h
    rw [Int.add_sub_cancel] at h
    split_ifs at h with hneg
    · cases h
    · exact ⟨not_lt.mp hneg,List.mem_singleton.mp h⟩
  have hforward {destination : Option ν} {ttl : ℤ} {message : ν → ℤ → Message ν ε}
      (h : m ∈ forward destination (some (ttl+1)) message) :
      0 ≤ ttl ∧ ∃ dest, m = message dest ttl := by
    cases destination with
    | none => cases h
    | some dest => exact (hpublish h).imp_right fun h => ⟨dest,h⟩
  unfold processQuery at hm
  dsimp only at hm
  split at hm
  · obtain ⟨hle,dest,rfl⟩ := hforward hm
    exact .inl ⟨hle,some dest,rfl⟩
  · rename_i e he
    split_ifs at hm with h0 hpos
    · exact .inr ⟨⟨e,he,h0⟩,List.mem_singleton.mp hm⟩
    · obtain ⟨hle,rfl⟩ := hpublish hm
      exact .inl ⟨hle,e.direction,rfl⟩
    · obtain ⟨hle,dest,rfl⟩ := hforward hm
      exact .inl ⟨hle,some dest,rfl⟩

/-- A response that is sent on says the same. -/
theorem processQueryResponse_cases {node : Node ν ε} {random : ℕ} {m : Message ν ε}
    (hm : m ∈ processQueryResponse x node data random) : ∃ visited idx dest ttl,
      m = .queryResponse { data with visited := visited, idx := idx, dest := dest, ttl := ttl } := by
  unfold processQueryResponse at hm
  dsimp only at hm
  split_ifs at hm
  · cases hm
  · obtain ⟨dest,ttl,rfl⟩ := exists_of_forward hm
    exact ⟨_,data.idx,dest,ttl,rfl⟩
  · obtain ⟨dest,ttl,rfl⟩ := exists_of_forward hm
    exact ⟨_,_,dest,ttl,rfl⟩

theorem commit_nodes_self : (s.commit x r).nodes x = r.1 := Function.update_self ..

theorem commit_nodes_of_ne (h : y ≠ x) : (s.commit x r).nodes y = s.nodes y :=
  Function.update_of_ne h ..

section Commit
variable (x) (r)

theorem Network.Asks.commit (h : s.Asks y k) : (s.commit x r).Asks y k :=
  h.imp fun _ hm => List.mem_append_left _ hm

theorem Visited.commit (h : Visited topology s k l) : Visited topology (s.commit x r) k l :=
  ⟨h.track,h.asked.imp fun _ ha => ha.imp_right (·.commit x r)⟩

theorem Underway.commit (h : Underway topology s y queryData) :
    Underway topology (s.commit x r) y queryData := by
  cases h with
  | asked h => exact .asked (h.commit x r)
  | sent h hy hnonneg hle => exact .sent (h.commit x r) hy hnonneg hle

end Commit

/-- What a node does keeps this where it forgets no event of its own. -/
theorem Truthful.commit (h : Truthful topology s)
    (hhome : ∀ k e, (s.nodes x).events k = some e → e.distance = 0 →
      ∃ e', r.1.events k = some e' ∧ e'.distance = 0)
    (hdirections : ∀ k e y, r.1.events k = some e → e.direction = some y →
      topology.subscribes x y = true)
    (hneighbors : ∀ y ∈ r.1.neighbors, topology.subscribes x y = true)
    (hquery : ∀ dest queryData, .query dest queryData ∈ r.2 →
      Underway topology (s.commit x r) x queryData)
    (hresponse : ∀ data, .queryResponse data ∈ r.2 → Answer topology (s.commit x r) data) :
    Truthful topology (s.commit x r) := by
  have hfound (z : ν) (k : ε) (h : ∃ e, (s.nodes z).events k = some e ∧ e.distance = 0) :
      ∃ e, ((s.commit x r).nodes z).events k = some e ∧ e.distance = 0 := by
    obtain ⟨e,he,h0⟩ := h
    by_cases hz : z = x
    · subst hz
      obtain ⟨e',he',h0'⟩ := hhome k e he h0
      exact ⟨e',by rw [commit_nodes_self]; exact he',h0'⟩
    · exact ⟨e,by rw [commit_nodes_of_ne hz]; exact he,h0⟩
  constructor
  · intro y dest queryData hm
    obtain hm | hm := List.mem_append.mp hm
    · exact (h.query y dest queryData hm).commit x r
    · obtain ⟨m,hm,heq⟩ := List.mem_map.mp hm
      cases heq
      exact hquery dest queryData hm
  · intro y data hm
    obtain hm | hm := List.mem_append.mp hm
    · have ha := h.response y data hm
      exact ⟨hfound _ _ ha.found,ha.final,ha.visited.commit x r,ha.length⟩
    · obtain ⟨m,hm,heq⟩ := List.mem_map.mp hm
      cases heq
      exact hresponse data hm
  · intro z y hy
    by_cases hz : z = x
    · subst hz
      rw [commit_nodes_self] at hy
      exact hneighbors y hy
    · rw [commit_nodes_of_ne hz] at hy
      exact h.neighbors z y hy
  · intro z k e y he hd
    by_cases hz : z = x
    · subst hz
      rw [commit_nodes_self] at he
      exact hdirections k e y he hd
    · rw [commit_nodes_of_ne hz] at he
      exact h.directions z k e y he hd

/-- The agents that a node sends on do not speak of queries. -/
theorem Truthful.commit_agents (h : Truthful topology s)
    (hhome : ∀ k e, (s.nodes x).events k = some e → e.distance = 0 →
      ∃ e', r.1.events k = some e' ∧ e'.distance = 0)
    (hdirections : ∀ k e y, r.1.events k = some e → e.direction = some y →
      topology.subscribes x y = true)
    (hneighbors : ∀ y ∈ r.1.neighbors, topology.subscribes x y = true)
    (hsent : ∀ m ∈ r.2, m = .heartbeat ∨ m.isAgent = true) : Truthful topology (s.commit x r) := by
  refine h.commit hhome hdirections hneighbors ?_ ?_
  · intro dest queryData hm
    obtain hm | hm := hsent _ hm <;> cases hm
  · intro data hm
    obtain hm | hm := hsent _ hm <;> cases hm

end Answers

section Runs
variable [DecidableEq ν] [DecidableEq ε] {topology : Topology ν} {s t : Network ν ε}

theorem Truthful.step (h : Truthful topology s) (hr : Routed s) {a : Action ν ε}
    (hs : (rumorRouting topology).step s a = some t) : Truthful topology t := by
  have hkeep {x : ν} (k : ε) (e : Route ν) (he : (s.nodes x).events k = some e)
      (h0 : e.distance = 0) : ∃ e', (s.nodes x).events k = some e' ∧ e'.distance = 0 := ⟨e,he,h0⟩
  cases a with
  | evento x k random =>
    cases hs
    refine h.commit_agents ?_ ?_ (h.neighbors x) ?_
    · intro k' e he h0
      by_cases hk : k' = k
      · subst hk
        exact ⟨⟨0,none⟩,Function.update_self ..,rfl⟩
      · exact ⟨e,(Function.update_of_ne hk ..).trans he,h0⟩
    · intro k' e y he hd
      by_cases hk : k' = k
      · subst hk
        cases (Function.update_self ..).symm.trans he
        cases hd
      · exact h.directions x k' e y ((Function.update_of_ne hk ..).symm.trans he) hd
    · intro m hm
      obtain ⟨dest,sent,rfl,-⟩ := events_of_sent hm
      exact .inr rfl
  | consulta x k random =>
    cases hs
    refine h.commit hkeep (h.directions x) (h.neighbors x) ?_ ?_
    · intro dest queryData hm
      cases List.mem_singleton.mp hm
      exact .asked ⟨_,List.mem_append_right _ List.mem_cons_self⟩
    · intro data hm
      cases List.mem_singleton.mp hm
  | heartbeat x =>
    cases hs
    refine h.commit_agents hkeep (h.directions x) (h.neighbors x) ?_
    intro m hm
    exact .inl (List.mem_singleton.mp hm)
  | controle x k =>
    obtain ⟨ids,-,rfl⟩ := Network.controle_cases hs
    exact h.commit_agents hkeep (h.directions x) (h.neighbors x) (fun _ hm => nomatch hm)
  | receive x i random =>
    obtain ⟨topic,m,ids,hi,hsub,-,rfl | rfl⟩ := Network.receive_cases hs
    · exact h.commit_agents hkeep (h.directions x) (h.neighbors x) (fun _ hm => nomatch hm)
    · have hm := List.mem_of_getElem? hi
      cases m with
      | heartbeat =>
        refine h.commit_agents hkeep (h.directions x) ?_ (fun _ hm => by cases hm)
        intro y hy
        change y ∈ visit topic (s.nodes x).neighbors at hy
        unfold visit at hy
        split_ifs at hy
        · exact h.neighbors x y hy
        · obtain hy | hy := List.mem_append.mp hy
          · exact h.neighbors x y hy
          · exact List.mem_singleton.mp hy ▸ hsub
      | agent dest agentData =>
        refine h.commit_agents ?_ ?_ (h.neighbors x) ?_
        · intro k e he h0
          obtain hk | ⟨e',he',hlt,hk⟩ :=
            ((s.nodes x).remember ids).learn_cases agentData topic k
          · exact ⟨e,hk.trans he,h0⟩
          · -- an offer is never below zero, and no agent improves on it
            obtain ⟨own,hown,hle⟩ := (hr k).offered topic e'.distance ⟨dest,agentData,e',hm,he',rfl⟩
            have hnonneg := (hr k).nonneg topic own hown
            have hless := hlt e he
            omega
        · intro k e y he hd
          obtain hk | ⟨e',-,-,hk⟩ := ((s.nodes x).remember ids).learn_cases agentData topic k
          · exact h.directions x k e y (hk.symm.trans he) hd
          · cases hk.symm.trans he
            cases hd
            exact hsub
        · intro m hm
          obtain ⟨dest,sent,rfl,-⟩ := events_of_sent hm
          exact .inr rfl
      | query dest queryData =>
        obtain ⟨hvisited,hy,hx,hlength,hnonneg⟩ := (h.query topic dest queryData hm).entered hsub
        have hsent {m : Message ν ε} (hm : m ∈ (processMessage x ((s.nodes x).remember ids) topic
            random (.query dest queryData)).2) :
            m ∈ processQuery x ((s.nodes x).remember ids) queryData topic random := by
          unfold processMessage at hm
          dsimp only at hm
          split_ifs at hm
          · exact hm
          · cases hm
        refine h.commit hkeep (h.directions x) (h.neighbors x) ?_ ?_
        · intro dest' queryData' hm'
          obtain ⟨hle,dest'',heq⟩ | ⟨-,heq⟩ := processQuery_cases (hsent hm')
          · cases heq
            exact .sent (hvisited.commit x _) hx hle hlength
          · cases heq
        · intro data hm'
          obtain ⟨-,dest',heq⟩ | ⟨hfound,heq⟩ := processQuery_cases (hsent hm')
          · cases heq
          · cases heq
            refine ⟨?_,hx,hvisited.commit x _,by dsimp only; omega⟩
            rw [commit_nodes_self]
            exact hfound
      | queryResponse data =>
        have ha := h.response topic data hm
        have hsent {m : Message ν ε} (hm : m ∈ (processMessage x ((s.nodes x).remember ids) topic
            random (.queryResponse data)).2) :
            m ∈ processQueryResponse x ((s.nodes x).remember ids) data random := by
          unfold processMessage at hm
          dsimp only at hm
          split_ifs at hm
          · exact hm
          · cases hm
        refine h.commit hkeep (h.directions x) (h.neighbors x) ?_ ?_
        · intro dest' queryData' hm'
          obtain ⟨visited,idx,dest,ttl,heq⟩ := processQueryResponse_cases (hsent hm')
          cases heq
        · intro data' hm'
          obtain ⟨visited,idx,dest,ttl,heq⟩ := processQueryResponse_cases (hsent hm')
          cases heq
          refine ⟨?_,ha.final,ha.visited.commit x _,ha.length⟩
          obtain hf | hf := eq_or_ne data.finalNode x
          · rw [hf,commit_nodes_self]
            exact hf ▸ ha.found
          · rw [commit_nodes_of_ne hf]
            exact ha.found

theorem truthful_of_reachable (hs : (rumorRouting topology).Reachable s) : Truthful topology s := by
  refine (hs.invariant (I := fun s => Truthful topology s ∧ Routed s) ⟨?_,?_⟩ ?_).1
  · constructor
    · intro y dest queryData hm
      cases hm
    · intro y data hm
      cases hm
    · intro x y hy
      cases hy
    · intro x k e y he
      cases he
  · exact routed_of_reachable TransitionSystem.ReachableUnder.init
  · intro s a t h _ hstep
    exact ⟨h.1.step h.2 hstep,h.2.step hstep⟩

/-- Every answer is true, whatever is lost, comes twice or comes late. -/
theorem answer_of_reachable (topology : Topology ν) (s : Network ν ε)
    (hs : (rumorRouting topology).Reachable s) {y : ν} {data : ResponseData ν ε}
    (hm : (y,.queryResponse data) ∈ s.published) : Answer topology s data :=
  (truthful_of_reachable hs).response y data hm

/-- The event happens at one corner of the grid, and the opposite corner asks for it. -/
theorem answer_of_reachable_corner : ∃ (s : Network (Fin 2 × Fin 3) ℕ) (y : Fin 2 × Fin 3)
    (data : ResponseData (Fin 2 × Fin 3) ℕ), (y,.queryResponse data) ∈ s.published ∧
      data.finalNode = (0,0) ∧ Answer (gridOf 2 3) s data := by
  obtain ⟨s,hs,hp⟩ := TransitionSystem.exists_reachable_of_exec (T := rumorRouting (gridOf 2 3))
    (l := heartbeats 2 3++[.evento (0,0) 1 0,.receive (0,1) 6 0,.receive (0,2) 7 0,
      .consulta (1,2) 1 1,.receive (0,2) 9 0,.receive (0,1) 10 0,.receive (0,0) 11 0])
    (p := fun s => s.published.any fun m => match m.2 with
      | .queryResponse data => data.finalNode = (0,0)
      | _ => false) (by decide +kernel)
  obtain ⟨⟨y,m⟩,hm,hfinal⟩ := List.any_eq_true.mp hp
  cases m with
  | queryResponse data =>
    exact ⟨s,y,data,hm,of_decide_eq_true hfinal,answer_of_reachable (gridOf 2 3) s hs hm⟩
  | heartbeat => cases hfinal
  | agent dest agentData => cases hfinal
  | query dest queryData => cases hfinal

end Runs

section Returns
variable {topology : Topology ν} {s t : Network ν ε} {x y : ν} {n : ℕ}

/-- Every node has the same events and neighbors in both. -/
structure Network.SameTables (s t : Network ν ε) : Prop where
  events : ∀ x, (t.nodes x).events = (s.nodes x).events
  neighbors : ∀ x, (t.nodes x).neighbors = (s.nodes x).neighbors

theorem Network.SameTables.refl (s : Network ν ε) : s.SameTables s := ⟨fun _ => rfl,fun _ => rfl⟩

theorem Network.SameTables.trans {u : Network ν ε} (h : s.SameTables t) (h' : t.SameTables u) :
    s.SameTables u :=
  ⟨fun x => (h'.events x).trans (h.events x),fun x => (h'.neighbors x).trans (h.neighbors x)⟩

/-- A message that `y` has published and `x` has not seen lately. -/
def Network.Unseen (s : Network ν ε) (x y : ν) (m : Message ν ε) : Prop :=
  ∃ i, s.published[i]? = some (y,m) ∧ .published i ∉ (s.nodes x).recentlySeenMessageIds

theorem Network.Unseen.mem {m : Message ν ε} (h : s.Unseen x y m) : (y,m) ∈ s.published := by
  obtain ⟨i,hi,-⟩ := h
  exact List.mem_of_getElem? hi

variable [DecidableEq ν]

theorem sameTables_commit (s : Network ν ε) (x : ν) (ids : List MessageId)
    (sent : List (Message ν ε)) : s.SameTables (s.commit x ((s.nodes x).remember ids,sent)) := by
  constructor
  · intro y
    obtain rfl | hy := eq_or_ne y x
    · rw [commit_nodes_self]
      rfl
    · rw [commit_nodes_of_ne hy]
  · intro y
    obtain rfl | hy := eq_or_ne y x
    · rw [commit_nodes_self]
      rfl
    · rw [commit_nodes_of_ne hy]

/-- What has been seen has been published. -/
def Recorded (s : Network ν ε) : Prop :=
  ∀ x i, .published i ∈ (s.nodes x).recentlySeenMessageIds → i < s.published.length

section Recorded
variable {r : Node ν ε × List (Message ν ε)}

theorem length_le_commit : s.published.length ≤ (s.commit x r).published.length := by
  rw [Network.commit,List.length_append]
  exact Nat.le_add_right ..

theorem Recorded.commit (h : Recorded s)
    (hids : ∀ i, .published i ∈ r.1.recentlySeenMessageIds → i < s.published.length) :
    Recorded (s.commit x r) := by
  intro y i hi
  refine lt_of_lt_of_le ?_ length_le_commit
  obtain rfl | hy := eq_or_ne y x
  · rw [commit_nodes_self] at hi
    exact hids i hi
  · rw [commit_nodes_of_ne hy] at hi
    exact h y i hi

/-- What has just been published has not been seen by anybody. -/
theorem Recorded.unseen_commit (h : Recorded s) {node : Node ν ε} {m : Message ν ε}
    (hids : ∀ i, .published i ∈ node.recentlySeenMessageIds → i < s.published.length) (z : ν) :
    (s.commit x (node,[m])).Unseen z x m := by
  refine ⟨s.published.length,List.getElem?_concat_length,?_⟩
  intro hi
  obtain rfl | hz := eq_or_ne z x
  · rw [commit_nodes_self] at hi
    exact Nat.lt_irrefl _ (hids _ hi)
  · rw [commit_nodes_of_ne hz] at hi
    exact Nat.lt_irrefl _ (h z _ hi)

variable [DecidableEq ε]

theorem Recorded.step (h : Recorded s) {a : Action ν ε}
    (hs : (rumorRouting topology).step s a = some t) : Recorded t := by
  cases a with
  | evento x k random =>
    cases hs
    exact h.commit (h x)
  | consulta x k random =>
    cases hs
    exact h.commit (h x)
  | heartbeat x =>
    cases hs
    exact h.commit (h x)
  | controle x k =>
    obtain ⟨ids,hids,rfl⟩ := Network.controle_cases hs
    exact h.commit fun i hi => h x i (hids i hi)
  | receive x i random =>
    obtain ⟨topic,m,ids,hi,-,hids,hcase⟩ := Network.receive_cases hs
    have hlt (j : ℕ) (hj : .published j ∈ ids) : j < s.published.length := by
      obtain heq | hj := hids _ hj
      · cases heq
        exact (List.getElem?_eq_some_iff.mp hi).1
      · exact h x j hj
    obtain rfl | rfl := hcase
    · exact h.commit hlt
    · refine h.commit fun j hj => hlt j ?_
      rwa [processMessage_recentlySeenMessageIds] at hj

theorem recorded_of_reachable (hs : (rumorRouting topology).Reachable s) : Recorded s :=
  hs.invariant (fun _ _ hi => nomatch hi) fun _ _ _ h _ hstep => h.step hstep

end Recorded

/-- Where a neighbor stands on the track before the index, the response goes on to one there. -/
theorem processQueryResponse_onward (node : Node ν ε) {data : ResponseData ν ε} {j : ℕ}
    (hhead : data.track.head? ≠ some x) (hj : j+1 < data.idx) (hy : data.track[j]? = some y)
    (hmem : y ∈ node.neighbors) (httl : 1 ≤ data.ttl) : ∃ i z, i ≤ j ∧ data.track[i]? = some z ∧
      z ∈ node.neighbors ∧ ∀ random, processQueryResponse x node data random =
        [.queryResponse { data with
          visited := visit x data.visited, idx := i+1, dest := z, ttl := data.ttl-1 }] := by
  obtain ⟨hjl,rfl⟩ := List.getElem?_eq_some_iff.mp hy
  have hjt : j < (data.track.take data.idx).length := by
    rw [List.length_take]
    omega
  cases hf : (data.track.take data.idx).findIdx? (· ∈ node.neighbors) with
  | none =>
    have hnone := List.findIdx?_eq_none_iff.mp hf data.track[j]
      (List.mem_take_iff_getElem.mpr ⟨j,by omega,rfl⟩)
    rw [decide_eq_false_iff_not] at hnone
    exact absurd hmem hnone
  | some i =>
    obtain ⟨hi,hneighbor,hfirst⟩ := List.findIdx?_eq_some_iff_getElem.mp hf
    have hij : i ≤ j := by
      by_contra hlt
      have hnot := hfirst j (by omega)
      rw [List.getElem_take] at hnot
      exact hnot (decide_eq_true hmem)
    have hil : i < data.track.length := by omega
    rw [List.getElem_take,decide_eq_true_eq] at hneighbor
    refine ⟨i,data.track[i],hij,List.getElem?_eq_getElem hil,hneighbor,?_⟩
    intro random
    have hne : i+1 ≠ data.idx := by omega
    have hlive : ¬ data.ttl-1 < 0 := by omega
    simp only [processQueryResponse,hf,if_neg hhead,if_neg hne,Nat.add_sub_cancel,
      List.getElem?_eq_getElem hil,forward,publish,if_neg hlive]

variable [DecidableEq ε]

/-- So many messages are received, one after another, whatever `math.random` returns. -/
def Delivers (topology : Topology ν) (s t : Network ν ε) (n : ℕ) : Prop :=
  ∃ l : List (ν × ℕ), l.length ≤ n ∧ ∀ random,
    (rumorRouting topology).exec s (l.map fun p => .receive p.1 p.2 random) = some t

namespace Delivers

theorem refl : Delivers topology s s n := ⟨[],Nat.zero_le n,fun _ => rfl⟩

theorem mono {k : ℕ} (h : Delivers topology s t n) (hle : n ≤ k) : Delivers topology s t k :=
  h.imp fun _ hl => hl.imp_left fun hn => hn.trans hle

theorem trans {u : Network ν ε} {k : ℕ} (h : Delivers topology s t n) (h' : Delivers topology t u k) :
    Delivers topology s u (n+k) := by
  obtain ⟨l,hl,hrun⟩ := h
  obtain ⟨l',hl',hrun'⟩ := h'
  refine ⟨l++l',by rw [List.length_append]; omega,?_⟩
  intro random
  rw [List.map_append,TransitionSystem.exec_append,hrun random,Option.bind_some]
  exact hrun' random

/-- A message that leaves the tables of its receiver alone, and what it answers. -/
theorem receive (hs : (rumorRouting topology).Reachable s) {m sent : Message ν ε}
    (hm : s.Unseen x y m) (hsub : topology.subscribes x y = true)
    (hr : ∀ random ids, processMessage x ((s.nodes x).remember ids) y random m =
      ((s.nodes x).remember ids,[sent])) :
    ∃ t, Delivers topology s t 1 ∧ s.SameTables t ∧ ∀ z, t.Unseen z x sent := by
  obtain ⟨i,hi,hids⟩ := hm
  have hrecorded := recorded_of_reachable hs
  refine ⟨s.commit x ((s.nodes x).remember
      (lruSet 1000 (s.nodes x).recentlySeenMessageIds (.published i)),[sent]),
    ⟨[(x,i)],le_rfl,?_⟩,sameTables_commit ..,hrecorded.unseen_commit ?_⟩
  · intro random
    change ((rumorRouting topology).step s (.receive x i random)).bind _ = _
    have hstep : (rumorRouting topology).step s (.receive x i random) = some (s.commit x
        ((s.nodes x).remember (lruSet 1000 (s.nodes x).recentlySeenMessageIds (.published i)),
          [sent])) := by
      simp only [rumorRouting,Network.step,hi,hsub,if_true,processMessageQueue_unseen hids,hr]
    rw [hstep]
    rfl
  · intro j hj
    obtain heq | hj := mem_of_lruSet hj
    · cases heq
      exact (List.getElem?_eq_some_iff.mp hi).1
    · exact hrecorded x j hj

theorem reachable (h : Delivers topology s t n) (hs : (rumorRouting topology).Reachable s) :
    (rumorRouting topology).Reachable t := by
  obtain ⟨l,-,hrun⟩ := h
  exact Relation.ReflTransGen.trans hs (TransitionSystem.run_of_exec (hrun 0))

end Delivers

section Complete
variable (hsymm : ∀ x y, topology.subscribes x y = true → topology.subscribes y x = true)
include hsymm

/-- A response comes back to the first node on its track. -/
theorem response_returns (hs : (rumorRouting topology).Reachable s) {data : ResponseData ν ε}
    (hneighbors : ∀ x y, y ∈ (s.nodes x).neighbors ↔ topology.subscribes x y = true)
    (htrack : Track topology data.track) (hm : s.Unseen data.dest y (.queryResponse data))
    (hsub : topology.subscribes data.dest y = true) {p : ℕ}
    (hp : data.track[p]? = some data.dest) (hlt : p < data.idx) (httl : data.idx ≤ data.ttl+1) :
    ∃ t, Delivers topology s t data.idx ∧ s.SameTables t ∧ ∃ z data',
      t.Unseen data'.dest z (.queryResponse data') ∧ topology.subscribes data'.dest z = true ∧
      data'.track.head? = some data'.dest ∧ data'.track = data.track ∧
      data'.event = data.event := by
  induction hn : data.idx using Nat.strong_induction_on generalizing s data y p with
  | _ n ih =>
    by_cases hhead : data.track.head? = some data.dest
    · exact ⟨s,.refl,.refl s,y,data,hm,hsub,hhead,rfl,rfl⟩
    · have hpos : 0 < p := by
        by_contra h0
        obtain rfl : p = 0 := by omega
        exact hhead (List.head?_eq_getElem? ▸ hp)
      obtain ⟨j,hj,w,hw,hsubw⟩ := htrack.earlier hp hpos
      obtain ⟨i,v,hij,hv,hmemv,hsent⟩ := processQueryResponse_onward
        (s.nodes data.dest) hhead (by omega) hw ((hneighbors _ _).mpr hsubw) (by omega)
      obtain ⟨u,hreceive,hsame,hunseen⟩ := Delivers.receive hs hm hsub (fun random ids => by
        rw [processMessage,if_pos rfl]
        exact congrArg (Prod.mk _) (hsent random))
      have hback : topology.subscribes v data.dest = true :=
        hsymm _ _ ((hneighbors _ _).mp hmemv)
      obtain ⟨t,hrun,hsame',z,data',hm',hsub',hhead',htrack',hevent'⟩ := @ih (i+1) (by omega)
        u data.dest (hreceive.reachable hs) { data with
          visited := visit data.dest data.visited, idx := i+1, dest := v, ttl := data.ttl-1 }
        (by simpa only [hsame.neighbors] using hneighbors) htrack (hunseen v) hback i
        hv (Nat.lt_succ_self i) (show ((i+1 : ℕ) : ℤ) ≤ data.ttl-1+1 by omega) rfl
      exact ⟨t,(hreceive.trans hrun).mono (by omega),hsame.trans hsame',z,data',hm',hsub',hhead',
        htrack',hevent'⟩

/-- A query that comes upon a route is answered where the event happened. -/
theorem query_answered (hs : (rumorRouting topology).Reachable s) {queryData : QueryData ν ε}
    (hm : s.Unseen x y (.query (some x) queryData)) (hsub : topology.subscribes x y = true)
    {e : Route ν} (he : (s.nodes x).events queryData.q = some e)
    (hle : e.distance ≤ queryData.ttl.getD QUERY_TTL) (hn : e.distance ≤ n) :
    ∃ t, Delivers topology s t (n+1) ∧ s.SameTables t ∧ ∃ z data,
      t.Unseen data.dest z (.queryResponse data) ∧ topology.subscribes data.dest z = true ∧
      data.dest ∈ data.track ∧ data.idx = data.track.length ∧ data.ttl = 10 ∧
      data.event = queryData.q ∧ data.track.head? = (queryData.entered x y).head? := by
  have hhome {s : Network ν ε} {x y : ν} {queryData : QueryData ν ε} {e : Route ν}
      (hs : (rumorRouting topology).Reachable s)
      (hm : s.Unseen x y (.query (some x) queryData)) (hsub : topology.subscribes x y = true)
      (he : (s.nodes x).events queryData.q = some e) (h0 : e.distance = 0) (n : ℕ) :
      ∃ t, Delivers topology s t (n+1) ∧ s.SameTables t ∧ ∃ z data,
        t.Unseen data.dest z (.queryResponse data) ∧ topology.subscribes data.dest z = true ∧
        data.dest ∈ data.track ∧ data.idx = data.track.length ∧ data.ttl = 10 ∧
        data.event = queryData.q ∧ data.track.head? = (queryData.entered x y).head? := by
    obtain ⟨-,hy,-,-,-⟩ := ((truthful_of_reachable hs).query y _ _ hm.mem).entered hsub
    obtain ⟨t,hrun,hsame,hunseen⟩ := Delivers.receive hs hm hsub (fun random ids => by
      have hids : ((s.nodes x).remember ids).events queryData.q = some e := he
      rw [processMessage,if_pos rfl,processQuery_home hids h0]
      rfl)
    exact ⟨t,hrun.mono (by omega),hsame,x,_,hunseen y,hsymm x y hsub,hy,rfl,rfl,rfl,rfl⟩
  induction n generalizing s x y queryData e with
  | zero =>
    have hnonneg := (routed_of_reachable hs queryData.q).nonneg x e he
    exact hhome hs hm hsub he (by omega) 0
  | succ n ih =>
    by_cases h0 : e.distance = 0
    · exact hhome hs hm hsub he h0 (n+1)
    · have hnonneg := (routed_of_reachable hs queryData.q).nonneg x e he
      have hpos : 0 < e.distance := by omega
      have htrue := truthful_of_reachable hs
      obtain ⟨hvisited,-,-,-,-⟩ := (htrue.query y _ _ hm.mem).entered hsub
      obtain ⟨z,e',hd,-,hz,hlt⟩ := (routed_of_reachable hs queryData.q).onward x e he hpos
      obtain ⟨u,hreceive,hsame,hunseen⟩ := Delivers.receive hs hm hsub (fun random ids => by
        have hids : ((s.nodes x).remember ids).events queryData.q = some e := he
        rw [processMessage,if_pos rfl,processQuery_onward hids hpos (by omega),hd])
      obtain ⟨t,hrun,hsame',w,data,hm',hsub',hdest,hidx,httl,hevent,hhead⟩ := ih (e := e')
        (hreceive.reachable hs) (hunseen z) (hsymm x z (htrue.directions x _ e z he hd))
        (by rw [hsame.events]; exact hz)
        (show e'.distance ≤ queryData.ttl.getD QUERY_TTL-1 by omega) (by omega)
      exact ⟨t,(hreceive.trans hrun).mono (by omega),hsame.trans hsame',w,data,hm',hsub',hdest,hidx,
        httl,hevent,hhead.trans (head?_visit hvisited.track.ne_nil)⟩

/-- Once all heartbeats have come, a query that reaches a node with a route that is not too long for
it, and that this node has not seen lately, comes back as an answer to the node that has asked,
whatever `math.random` returns. -/
theorem query_comes_back (hs : (rumorRouting topology).Reachable s)
    (hneighbors : ∀ x y, topology.subscribes x y = true → y ∈ (s.nodes x).neighbors)
    {queryData : QueryData ν ε} (hm : s.Unseen x y (.query (some x) queryData))
    (hsub : topology.subscribes x y = true) {e : Route ν}
    (he : (s.nodes x).events queryData.q = some e)
    (hle : e.distance ≤ queryData.ttl.getD QUERY_TTL) :
    ∃ t, Delivers topology s t (2*QUERY_TTL.toNat+3) ∧ s.SameTables t ∧ ∃ z data,
      t.Unseen data.dest z (.queryResponse data) ∧ topology.subscribes data.dest z = true ∧
      (queryData.entered x y).head? = some data.dest ∧ data.track.head? = some data.dest ∧
      data.event = queryData.q ∧ Answer topology t data := by
  have htrue := truthful_of_reachable hs
  have hleft : queryData.ttl.getD QUERY_TTL ≤ QUERY_TTL := by
    cases htrue.query y _ _ hm.mem with
    | asked h => exact le_rfl
    | @sent k l ttl h hy hnonneg hlength =>
      have hpos := List.length_pos_iff.mpr h.track.ne_nil
      change ttl ≤ QUERY_TTL
      omega
  have hnonneg := (routed_of_reachable hs queryData.q).nonneg x e he
  obtain ⟨t,hrun,hsame,z,data,hm',hsub',hdest,hidx,httl,hevent,hhead⟩ :=
    query_answered hsymm hs hm hsub he hle (Int.self_le_toNat e.distance)
  have hreach := hrun.reachable hs
  have hanswer := answer_of_reachable topology t hreach hm'.mem
  obtain ⟨p,hp⟩ := List.getElem?_of_mem hdest
  have hlt := (List.getElem?_eq_some_iff.mp hp).1
  have hlength := hanswer.length
  have hQ : QUERY_TTL = 8 := rfl
  have hknown (x y : ν) : y ∈ (t.nodes x).neighbors ↔ topology.subscribes x y = true := by
    rw [hsame.neighbors]
    exact ⟨htrue.neighbors x y,hneighbors x y⟩
  obtain ⟨u,hrun',hsame',w,data',hm'',hsub'',hhead',htrack,hevent'⟩ := response_returns hsymm hreach
    hknown hanswer.visited.track hm' hsub' hp (by omega) (by omega)
  refine ⟨u,(hrun.trans hrun').mono (by omega),hsame.trans hsame',w,data',hm'',hsub'',?_,hhead',
    hevent'.trans hevent,answer_of_reachable topology u (hrun'.reachable hreach) hm''.mem⟩
  rw [← hhead,← htrack,hhead']

end Complete

theorem query_comes_back_corner : ∃ s t : Network (Fin 2 × Fin 3) ℕ,
    s.Unseen (0,2) (1,2) (.query (some (0,2)) { q := 1 }) ∧
    Delivers (gridOf 2 3) s t (2*QUERY_TTL.toNat+3) ∧ s.SameTables t ∧ ∃ z data,
      t.Unseen data.dest z (.queryResponse data) ∧ (gridOf 2 3).subscribes data.dest z = true ∧
      some (1,2) = some data.dest ∧ data.track.head? = some data.dest ∧ data.event = 1 ∧
      Answer (gridOf 2 3) t data := by
  obtain ⟨s,hs,hp⟩ := TransitionSystem.exists_reachable_of_exec (T := rumorRouting (gridOf 2 3))
    (l := heartbeats 2 3++[.evento (0,0) 1 0,.receive (0,1) 6 0,.receive (0,2) 7 0])
    (p := fun s => (pickDestination (s.nodes (1,2)).neighbors [] 1 = some (0,2) &&
      (s.nodes (0,2)).events 1 = some ⟨3,some (0,1)⟩) &&
      decide (∀ x y, (gridOf 2 3).subscribes x y = true → y ∈ (s.nodes x).neighbors))
    (by decide +kernel)
  simp only [Bool.and_eq_true,decide_eq_true_eq] at hp
  obtain ⟨⟨hpick,hroute⟩,hneighbors⟩ := hp
  have hsent : consulta (s.nodes (1,2)) 1 1 = [.query (some (0,2)) { q := 1 }] := by
    rw [consulta,hpick]
    rfl
  have hrecorded := recorded_of_reachable hs
  have hm : (s.commit (1,2) (s.nodes (1,2),[.query (some (0,2)) { q := 1 }])).Unseen (0,2) (1,2)
      (.query (some (0,2)) { q := 1 }) := hrecorded.unseen_commit (hrecorded (1,2)) (0,2)
  have hsame := sameTables_commit s (1,2) (s.nodes (1,2)).recentlySeenMessageIds
    [.query (some (0,2)) { q := 1 }]
  obtain ⟨t,h⟩ := query_comes_back (gridOf_symm 2 3)
    (TransitionSystem.ReachableUnder.step (a := .consulta (1,2) 1 1) hs trivial
      (congrArg (fun l => some (s.commit (1,2) (s.nodes (1,2),l))) hsent))
    (fun x y h => by
      have hknown := hneighbors x y h
      rw [← hsame.neighbors] at hknown
      exact hknown) hm (by decide)
    ((congrFun (hsame.events (0,2)) 1).trans hroute) (by decide)
  exact ⟨_,t,hm,h⟩

end Returns
end PucRio.RumorRouting
