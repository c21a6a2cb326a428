import Mathlib.Data.Finset.Max
import Mathlib.Data.List.Chain
import Mathlib.Order.Interval.Finset.Nat
import PucRio.Pathfinding.Expansion

/-! What the search returns: null where there is no way to the end, and a cheapest one where there
is. -/
namespace PucRio.Pathfinding
open PucRio.BestFirst PucRio.Predecessors

namespace GameMap

/-- From the start to the end, step by step. -/
structure IsRoute (map : GameMap) (l : List (ℕ × ℕ)) : Prop where
  first : l.head? = some (map.last Cells.START.asChar)
  last : l.getLast? = some (map.last Cells.END.asChar)
  steps : l.IsChain map.Step

/-- What it costs to enter all cells of a route but the first. -/
def routeCost (map : GameMap) (attack : ℕ → ℚ) (strategy : Strategy) (l : List (ℕ × ℕ)) : ℚ :=
  (l.tail.map (map.cellCost attack strategy)).sum

variable {map : GameMap} {attack : ℕ → ℚ} {strategy : Strategy} {l : List (ℕ × ℕ)} {p q : ℕ × ℕ}
  {c : ℚ}

theorem walk_of_isChain (hp : Walk map.Step (map.cellCost attack strategy) q p c)
    (h : (p::l).IsChain map.Step) : Walk map.Step (map.cellCost attack strategy) q
      ((p::l).getLast (List.cons_ne_nil p l)) (c+(l.map (map.cellCost attack strategy)).sum) := by
  induction l generalizing p c with
  | nil =>
    rw [List.map_nil,List.sum_nil,add_zero]
    exact hp
  | cons r l ih =>
    rw [List.isChain_cons_cons] at h
    rw [List.getLast_cons (List.cons_ne_nil r l),List.map_cons,List.sum_cons,← add_assoc]
    exact ih (hp.step h.1) h.2

/-- A route is a walk to the end. -/
theorem IsRoute.walk (h : map.IsRoute l) : Walk map.Step (map.cellCost attack strategy)
    (map.last Cells.START.asChar) (map.last Cells.END.asChar)
    (map.routeCost attack strategy l) := by
  obtain ⟨hfirst,hlast,hsteps⟩ := h
  cases l with
  | nil => cases hfirst
  | cons p l =>
    obtain rfl := Option.some.inj hfirst
    rw [List.getLast?_eq_some_getLast (List.cons_ne_nil _ l)] at hlast
    have hwalk : Walk map.Step (map.cellCost attack strategy) (map.last Cells.START.asChar) _ _ :=
      walk_of_isChain .start hsteps
    rw [Option.some.inj hlast,zero_add] at hwalk
    exact hwalk

/-- There are only so many cells. -/
theorem length_le_of_inside (hnodup : l.Nodup) (h : ∀ p ∈ l, map.Inside p) :
    l.length ≤ map.nRows*map.nColumns := by
  have hsub : l.toFinset ⊆ Finset.Icc 1 map.nColumns ×ˢ Finset.Icc 1 map.nRows := by
    intro p hp
    obtain ⟨hcolumn,hrow⟩ := h p (List.mem_toFinset.mp hp)
    exact Finset.mem_product.mpr ⟨Finset.mem_Icc.mpr hcolumn,Finset.mem_Icc.mpr hrow⟩
  calc l.length = l.toFinset.card := (List.toFinset_card_of_nodup hnodup).symm
    _ ≤ (Finset.Icc 1 map.nColumns ×ˢ Finset.Icc 1 map.nRows).card := Finset.card_le_card hsub
    _ = map.nRows*map.nColumns := by
      rw [Finset.card_product,Nat.card_Icc,Nat.card_Icc,Nat.mul_comm]
      rfl

end GameMap

variable {map : GameMap} {attack : ℕ → ℚ} {strategy : Strategy} {warPlaneList : List WarPlaneInfo}
  {s t : Search ℚ} {cur v : Node} {l : List Node} {i : ℕ}

/-- Between two nodes that are taken from the queue. -/
structure Ready (map : GameMap) (attack : ℕ → ℚ) (strategy : Strategy) (s : Search ℚ) : Prop where
  explored : ∃ at', Explored map attack strategy s at' ∅
  opened : map.last Cells.START.asChar ∈ positions s.visited ∨
    ∀ u ∈ s.queue, u.pos = map.last Cells.START.asChar
  eager : map.last Cells.END.asChar ∈ positions s.queue → ∀ m ∈ positions s.queue,
    s.cost (map.last Cells.END.asChar)+map.potential (map.last Cells.END.asChar) ≤
      s.cost m+map.potential m

/-- The notes lead back over a route, and its cost is the one that has been kept. -/
theorem Leads.route (hknown : ∀ v ∈ s.visited++s.queue, Known map attack strategy s v)
    (h : Leads Node.pos s.pathMap l) (hl : l = v::l.tail) (hv : v ∈ s.visited++s.queue) :
    (l.reverse.map Node.pos).head? = some (map.last Cells.START.asChar) ∧
      (l.reverse.map Node.pos).IsChain map.Step ∧
      map.routeCost attack strategy (l.reverse.map Node.pos) = s.cost v.pos := by
  induction h generalizing v with
  | @last u hnone =>
    obtain rfl := List.head_eq_of_cons_eq hl
    obtain ⟨hpos,hcost⟩ := (hknown u hv).first hnone
    exact ⟨congrArg some hpos,List.isChain_singleton _,hcost.symm⟩
  | @cons u p l hsome _ ih =>
    obtain rfl := List.head_eq_of_cons_eq hl
    obtain ⟨hp,hstep,hcost⟩ := (hknown u hv).later p hsome
    obtain ⟨hhead,hchain,hroute⟩ := ih rfl (List.mem_append_left _ hp)
    rw [List.reverse_cons (a := u),List.map_append]
    have hne : ((p::l).reverse.map Node.pos) ≠ [] := by simp
    refine ⟨?_,?_,?_⟩
    · rw [List.head?_append_of_ne_nil _ hne]
      exact hhead
    · refine List.isChain_append.mpr ⟨hchain,List.isChain_singleton _,?_⟩
      simp only [List.map_cons,List.map_nil,List.head?_cons,Option.mem_some_iff]
      rintro q hq _ rfl
      simp only [List.reverse_cons,List.map_append,List.map_cons,List.map_nil,List.getLast?_append,
        List.getLast?_singleton,Option.some_or,Option.mem_some_iff] at hq
      rwa [← hq]
    · rw [GameMap.routeCost,List.tail_append_of_ne_nil hne,List.map_append,List.sum_append,
        ← GameMap.routeCost,hroute,hcost]
      simp

/-- A node of the queue has not been visited. -/
theorem Explored.nodup_append {at' : ℕ × ℕ} {E : Set (ℕ × ℕ)}
    (h : Explored map attack strategy s at' E) (hcur : cur ∈ s.queue) :
    ((s.visited++[cur]).map Node.pos).Nodup := by
  rw [List.map_append,List.map_singleton,List.nodup_append]
  refine ⟨h.nodup,List.nodup_singleton _,?_⟩
  rintro _ hp _ hq rfl
  obtain ⟨u,hu,hpos⟩ := List.mem_map.mp hp
  refine h.frontier.disjoint cur.pos ⟨cur,hcur,rfl⟩ ⟨u,hu,hpos.trans ?_⟩
  exact List.mem_singleton.mp hq

theorem Explored.length_le {at' : ℕ × ℕ} {E : Set (ℕ × ℕ)}
    (h : Explored map attack strategy s at' E) : s.visited.length ≤ map.nRows*map.nColumns := by
  rw [← List.length_map Node.pos]
  refine GameMap.length_le_of_inside h.nodup fun p hp => ?_
  obtain ⟨u,hu,rfl⟩ := List.mem_map.mp hp
  exact (h.known u (List.mem_append_left _ hu)).inside

namespace Ready

theorem init (hmap : map.Playable) (hplanes : warPlaneList.length = 5) :
    Ready map attack strategy (findPath (exact attack) strategy map warPlaneList).init := by
  have hscore : (findPath (exact attack) strategy map warPlaneList).init.gScore
      (map.last Cells.START.asChar) = some 0 := by
    change Function.update (fun _ => none) (startNode map warPlaneList).pos (some (0 : ℚ))
      (startNode map warPlaneList).pos = some 0
    exact Function.update_self ..
  have hcost : (findPath (exact attack) strategy map warPlaneList).init.cost
      (map.last Cells.START.asChar) = 0 := congrArg (·.getD 0) hscore
  refine ⟨⟨map.last Cells.START.asChar,⟨fun v hv => ?_,List.nodup_nil,?_,?_⟩⟩,.inr ?_,?_⟩
  · obtain rfl := List.mem_singleton.mp hv
    refine ⟨(hmap.place hmap.one_start).1,hscore.trans (congrArg some hcost.symm),?_,?_,?_⟩
    · exact List.length_map _ |>.trans hplanes
    · exact fun _ => ⟨rfl,hcost⟩
    · exact fun _ h => absurd h.symm (Option.some_ne_none _)
  · rintro ⟨u,hu,-⟩
    exact List.not_mem_nil hu
  · have hqueue := positions_append [] (startNode map warPlaneList)
    rw [positions_nil,insert_empty_eq] at hqueue
    change Frontier _ _ _ _ (positions []) (positions ([]++[startNode map warPlaneList])) _ _
    rw [positions_nil,hqueue]
    exact .init hcost
  · intro u hu
    obtain rfl := List.mem_singleton.mp hu
    rfl
  · rintro ⟨u,hu,hpos⟩
    obtain rfl := List.mem_singleton.mp hu
    exact absurd hpos (GameMap.start_ne_end hmap)

/-- The node that is taken from the queue. -/
theorem expand (h : Ready map attack strategy s) (hmap : map.Playable)
    (hattack : ∀ order, 1 ≤ attack order) (hnodup : (s.queue.map Node.pos).Nodup)
    (hi : s.queue[i]? = some cur)
    (hmin : ∀ m ∈ positions s.queue, s.cost cur.pos+map.estimate cur.pos ≤ s.cost m+map.estimate m)
    (hend : cur.pos ≠ map.last Cells.END.asChar) :
    Expanding map attack strategy
      { s with visited := s.visited++[cur], queue := s.queue.eraseIdx i } cur
      {q | map.Step cur.pos q} := by
  obtain ⟨at',hexplored⟩ := h.explored
  have hmem := List.mem_of_getElem? hi
  have hcur : cur.pos ∈ positions s.queue := ⟨cur,hmem,rfl⟩
  obtain ⟨hleast,hgoal⟩ := map.overestimates.least h.eager hcur hmin
  have hvisited := positions_append s.visited cur
  have hqueue := positions_eraseIdx hnodup hi
  refine ⟨⟨fun v hv => ?_,?_,?_,?_⟩,List.mem_append_right _ (List.mem_singleton_self cur),?_,?_,?_⟩
  · have hv : v ∈ s.visited++s.queue := by
      rw [List.append_assoc] at hv
      obtain hv | hv := List.mem_append.mp hv
      · exact List.mem_append_left _ hv
      · refine List.mem_append_right _ ?_
        obtain hv | hv := List.mem_cons.mp hv
        · exact hv ▸ hmem
        · exact List.mem_of_mem_eraseIdx hv
    have hknown := hexplored.known v hv
    refine ⟨hknown.inside,hknown.scored,hknown.planes,hknown.first,fun u hu => ?_⟩
    exact (hknown.later u hu).imp_left (List.mem_append_left _)
  · exact hexplored.nodup_append hmem
  · rw [hvisited]
    rintro (heq | hmem)
    · exact hend heq.symm
    · exact hexplored.ongoing hmem
  · rw [hvisited,hqueue]
    exact hexplored.frontier.poll (GameMap.consistent hmap hattack) hcur hleast
  · rw [hvisited]
    obtain hopened | hall := h.opened
    · exact .inr hopened
    · exact .inl (hall cur hmem).symm
  · rw [hqueue]
    exact fun m hm => hleast m hm.1
  · rw [hqueue]
    exact fun hm => absurd (hgoal hm.1) hend

/-- No way to the end costs less than the one that has been found, once the end is taken. -/
theorem le_routeCost (h : Ready map attack strategy s) (hmap : map.Playable)
    (hattack : ∀ order, 1 ≤ attack order) (hi : s.queue[i]? = some cur)
    (hmin : ∀ m ∈ positions s.queue, s.cost cur.pos+map.estimate cur.pos ≤ s.cost m+map.estimate m)
    (hend : cur.pos = map.last Cells.END.asChar) {l : List (ℕ × ℕ)} (hl : map.IsRoute l) :
    s.cost cur.pos ≤ map.routeCost attack strategy l := by
  obtain ⟨at',hexplored⟩ := h.explored
  have hcur : cur.pos ∈ positions s.queue := ⟨cur,List.mem_of_getElem? hi,rfl⟩
  obtain ⟨hleast,-⟩ := map.overestimates.least h.eager hcur hmin
  refine hexplored.frontier.least_of_queued (GameMap.consistent hmap hattack) hcur hleast ?_
  rw [hend]
  exact hl.walk

/-- With nothing in the queue, there is no way to the end. -/
theorem not_isRoute (h : Ready map attack strategy s) (hmap : map.Playable)
    (hattack : ∀ order, 1 ≤ attack order) (hqueue : s.queue = []) {l : List (ℕ × ℕ)} :
    ¬map.IsRoute l := by
  intro hl
  obtain ⟨at',hexplored⟩ := h.explored
  have hfrontier := hexplored.frontier
  rw [hqueue,positions_nil] at hfrontier
  exact hexplored.ongoing (hfrontier.mem_of_walk (GameMap.consistent hmap hattack) hl.walk)

end Ready

theorem Expanding.ready (h : Expanding map attack strategy s cur ∅) : Ready map attack strategy s :=
  ⟨⟨_,h.toExplored⟩,.inl h.opened,
    fun hend m hm => (h.eager.atGoal hend).trans (h.eager.bound m hm)⟩

/-- A path over a route, with its cost, which no route is below. -/
structure IsCheapest (map : GameMap) (attack : ℕ → ℚ) (strategy : Strategy) (path : Path ℚ) :
    Prop where
  route : map.IsRoute (path.nodes.map Node.pos)
  score : path.score = map.routeCost attack strategy (path.nodes.map Node.pos)
  least : ∀ l, map.IsRoute l → path.score ≤ map.routeCost attack strategy l

/-- What a search keeps, and what the path is that it returns. -/
structure Optimal (attack : ℕ → ℚ) (strategy : Strategy) (map : GameMap)
    (warPlaneList : List WarPlaneInfo) (s : Search ℚ) : Prop where
  searched : Searched (exact attack) strategy map warPlaneList s
  ready : s.path = none → Ready map attack strategy s
  found : ∀ path, s.path = some path → IsCheapest map attack strategy path

namespace Optimal

theorem init (hmap : map.Playable) (hplanes : warPlaneList.length = 5) :
    Optimal attack strategy map warPlaneList
      (findPath (exact attack) strategy map warPlaneList).init :=
  ⟨searched_of_reachable .refl,fun _ => .init hmap hplanes,
    fun _ h => absurd h.symm (Option.some_ne_none _)⟩

/-- The step lemma: a node with the least cost can be taken; it is a cell more that has been
visited, or the last one. -/
theorem poll (h : Optimal attack strategy map warPlaneList s) (hmap : map.Playable)
    (hattack : ∀ order, 1 ≤ attack order) (hpath : s.path = none) (hi : s.queue[i]? = some cur)
    (hmin : ∀ m ∈ positions s.queue,
      s.cost cur.pos+map.estimate cur.pos ≤ s.cost m+map.estimate m) :
    ∃ t, s.poll (exact attack) strategy map i = some t ∧
      Optimal attack strategy map warPlaneList t ∧
      (t.path = none → t.visited.length = s.visited.length+1) := by
  have hready := h.ready hpath
  have hkept := h.searched.kept hpath
  obtain ⟨at',hexplored⟩ := hready.explored
  have hmem := List.mem_of_getElem? hi
  have hcur := hexplored.known cur (List.mem_append_right _ hmem)
  suffices hstep : ∃ t, s.poll (exact attack) strategy map i = some t ∧
      (t.path = none → Ready map attack strategy t ∧ t.visited.length = s.visited.length+1) ∧
      ∀ path, t.path = some path → IsCheapest map attack strategy path by
    obtain ⟨t,ht,hnone,hsome⟩ := hstep
    exact ⟨t,ht,⟨h.searched.poll ht,fun hn => (hnone hn).1,hsome⟩,fun hn => (hnone hn).2⟩
  have hgoing : ¬s.path.isSome = true := by
    rw [hpath]
    exact Bool.false_ne_true
  rw [Search.poll,if_neg hgoing,hi,Option.bind_some]
  by_cases hend : cur.pos = map.last Cells.END.asChar
  · obtain ⟨l,hnoted⟩ := hkept.noted cur (List.mem_append_right _ hmem)
    obtain ⟨hhead,hsteps,hcost⟩ :=
      Leads.route hexplored.known hnoted.leads rfl (List.mem_append_right _ hmem)
    rw [if_pos hend,hcur.scored,Option.bind_some,hnoted.leads.walkBack hnoted.length_le rfl []]
    refine ⟨_,rfl,fun hnone => absurd hnone (Option.some_ne_none _),fun path hsome => ?_⟩
    obtain rfl := Option.some.inj hsome
    rw [List.append_nil]
    refine ⟨⟨hhead,?_,hsteps⟩,hcost.symm,fun l hl => ?_⟩
    · rw [List.reverse_cons,List.map_append,List.map_singleton,List.getLast?_concat,hend]
    · exact hready.le_routeCost hmap hattack hi hmin hend hl
  · rw [if_neg hend]
    obtain ⟨neighbors,hneighbors,hsound,hcomplete⟩ := GameMap.getNeighbors_spec hmap hcur.inside
    have hexpanding := hready.expand hmap hattack hkept.nodup hi hmin hend
    have hneighbor : Expanding map attack strategy
        { s with visited := s.visited++[cur], queue := s.queue.eraseIdx i } cur
        {q | ∃ n, some n ∈ neighbors ∧ n.pos = q} :=
      hexpanding.skip (fun q hq => .inl (hcomplete q hq)) (.inl ⟨cur,hexpanding.cur_mem,rfl⟩)
    obtain ⟨t,ht,⟨hvisited,hpath'⟩,hdone⟩ := hneighbor.foldlM hmap hattack hsound
    refine ⟨t,?_,fun _ => ⟨hdone.ready,?_⟩,fun path hsome => ?_⟩
    · rw [show map.getNeighbors cur.Y cur.X = some neighbors from hneighbors,Option.bind_some]
      exact ht
    · rw [hvisited,List.length_append]
      rfl
    · rw [hpath',hpath] at hsome
      cases hsome

end Optimal

end PucRio.Pathfinding
