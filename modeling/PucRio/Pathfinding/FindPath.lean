import PucRio.Lib.BinaryHeap
import PucRio.Pathfinding.Optimality

/-! The search as it is: the queue is a heap that compares nodes by their `fScore`, which is changed
before a node is removed from the queue. It takes the same steps as the search over lists, and
always goes on from a node with the least sum of cost and estimate. -/
namespace PucRio.Pathfinding
open PucRio.BinaryHeap PucRio.Predecessors

/-- The data of a search with exact costs. -/
structure AStar where
  visited : List Node
  queue : PriorityQueue Node
  pathMap : ℕ × ℕ → Option Node
  gScore : ℕ × ℕ → Option ℚ
  fScore : ℕ × ℕ → Option ℚ

variable {map : GameMap} {attack : ℕ → ℚ} {strategy : Strategy} {warPlaneList : List WarPlaneInfo}
  {a b : AStar} {s t : Search ℚ} {cur n v : Node} {neighbor : Option Node}

namespace AStar

/-- Nodes are compared by it; those in the queue all have one. -/
def getFCost (s : AStar) (node : Node) : ℚ := (s.fScore node.pos).getD 0

section Search
variable (attack : ℕ → ℚ) (strategy : Strategy) (map : GameMap)

/-- One neighbour of the node that was taken from the queue. -/
def relax (curNode : Node) (s : AStar) (neighbor : Option Node) : Option AStar :=
  neighbor.elim (some s) fun neighbor =>
    if ∃ u ∈ s.visited, u.pos = neighbor.pos then some s
    else (s.gScore curNode.pos).bind fun g =>
      (getTraversalCost (exact attack) strategy neighbor).bind fun cost =>
        let g_x := g+cost
        let inQueue := decide (∃ u ∈ s.queue.toList, u.pos = neighbor.pos)
        let better :=
          if inQueue then (s.gScore neighbor.pos).map fun gScore => decide (g_x < gScore)
          else some true
        better.bind fun better =>
          if better then (reach (exact attack) strategy curNode neighbor).map fun reached =>
            let s := { s with
              gScore := Function.update s.gScore neighbor.pos (some g_x)
              fScore := Function.update s.fScore neighbor.pos
                (some (g_x+neighbor.getHeuristic map.endNode)) }
            let queue := if inQueue then s.queue.remove s.getFCost fun u => neighbor.pos = u.pos
              else s.queue
            { s with
              queue := queue.offer s.getFCost reached
              pathMap := Function.update s.pathMap neighbor.pos (some curNode) }
          else some s

/-- The loop, with so many nodes allowed (`none`: they are too few). It ends with a path, or with
null (`some none`). -/
def loop : ℕ → AStar → Option (Option (Path ℚ))
  | 0,_ => none
  | rounds+1,s => (s.queue.poll s.getFCost).elim (some none) fun p =>
    if p.1.pos = map.last Cells.END.asChar then
      (s.gScore p.1.pos).bind fun score =>
        (walkBack Node.pos s.pathMap (s.visited.length+1) p.1 []).map fun route =>
          some ⟨route,score⟩
    else (map.getNeighbors p.1.Y p.1.X).bind fun neighbors =>
      (neighbors.foldlM (relax attack strategy map p.1)
        { s with visited := s.visited++[p.1], queue := p.2 }).bind (loop rounds)

def init (warPlaneList : List WarPlaneInfo) : AStar :=
  let start := startNode map warPlaneList
  let s : AStar := ⟨[],⟨fun _ => start,0⟩,fun _ => none,
    Function.update (fun _ => none) start.pos (some 0),
    Function.update (fun _ => none) start.pos (some (start.getHeuristic map.endNode : ℚ))⟩
  { s with queue := s.queue.offer s.getFCost start }

def findPath (warPlaneList : List WarPlaneInfo) (rounds : ℕ) : Option (Option (Path ℚ)) :=
  loop attack strategy map rounds (init map warPlaneList)

end Search

/-- The search over lists has the nodes of the queue in another order. -/
structure Refines (map : GameMap) (a : AStar) (s : Search ℚ) : Prop where
  visited : a.visited = s.visited
  queue : a.queue.toList.Perm s.queue
  ordered : Ordered a.getFCost a.queue.queue a.queue.size
  pathMap : a.pathMap = s.pathMap
  gScore : a.gScore = s.gScore
  fScore : ∀ p, a.fScore p = (s.gScore p).map (·+map.estimate p)

theorem reach_pos {R : Type} {costs : Costs R} (h : reach costs strategy cur n = some v) :
    v.pos = n.pos := by
  unfold reach at h
  dsimp only at h
  split_ifs at h
  · obtain ⟨order,-,h⟩ := Option.bind_eq_some_iff.mp h
    obtain ⟨attack,-,h⟩ := Option.bind_eq_some_iff.mp h
    obtain ⟨planes,-,rfl⟩ := Option.map_eq_some_iff.mp h
    rfl
  · obtain rfl := Option.some.inj h
    rfl

theorem index_inj {q : PriorityQueue Node} (h : (q.toList.map Node.pos).Nodup) {i j : ℕ}
    (hi : i < q.size) (hj : j < q.size) (heq : (q.queue i).pos = (q.queue j).pos) : i = j := by
  rw [PriorityQueue.toList,List.map_map] at h
  exact List.inj_on_of_nodup_map h (List.mem_range.mpr hi) (List.mem_range.mpr hj) heq

/-- A node leaves the queue, with a new score. -/
theorem Refines.leave (h : Refines map a s) (hnodup : (s.queue.map Node.pos).Nodup)
    {key : Node → ℚ} {p : ℕ × ℕ} (hkey : ∀ u : Node, u.pos ≠ p → key u = a.getFCost u)
    {f : Node → Bool} (hf : ∀ u, f u = true ↔ p = u.pos) {q : PriorityQueue Node}
    (hq : q = if decide (∃ u ∈ a.queue.toList, u.pos = p) = true
      then a.queue.remove key f else a.queue) :
    q.toList.Perm (s.queue.eraseP f) ∧ Ordered key q.queue q.size := by
  have hnodup' : (a.queue.toList.map Node.pos).Nodup :=
    (h.queue.map Node.pos).nodup_iff.mpr hnodup
  have hpairwise : a.queue.toList.Pairwise fun u w => f u = true → f w = true → False :=
    (List.pairwise_map.mp hnodup').imp fun hne hu hw =>
      hne (((hf _).mp hu).symm.trans ((hf _).mp hw))
  have herase := List.Perm.eraseP f hpairwise h.queue
  by_cases hmem : ∃ u ∈ a.queue.toList, u.pos = p
  · rw [if_pos (decide_eq_true hmem)] at hq
    subst hq
    have hkey' (u : Node) (hu : f u = false) : key u = a.getFCost u :=
      hkey u fun heq => Bool.eq_false_iff.mp hu ((hf u).mpr heq.symm)
    obtain ⟨x,hx,hperm,hordered⟩ := PriorityQueue.remove_spec h.ordered
      (hmem.imp fun u hu => ⟨hu.1,(hf u).mpr hu.2.symm⟩) hkey' fun i hi j hj hfi hfj =>
        index_inj hnodup' hi hj (((hf _).mp hfi).symm.trans ((hf _).mp hfj))
    have hremoved := List.Perm.eraseP f hpairwise hperm
    rw [List.eraseP_cons_of_pos hx] at hremoved
    exact ⟨hremoved.symm.trans herase,hordered⟩
  · rw [if_neg fun hd => hmem (of_decide_eq_true hd)] at hq
    subst hq
    have hne (u : Node) (hu : u ∈ a.queue.toList) : u.pos ≠ p := fun heq => hmem ⟨u,hu,heq⟩
    rw [List.eraseP_of_forall_not fun u hu hfu => hne u hu ((hf u).mp hfu).symm] at herase
    refine ⟨herase,fun i hpos hi => ?_⟩
    have hlt := (parent_lt hpos).trans hi
    rw [hkey _ (hne _ (PriorityQueue.mem_toList.mpr ⟨i,hi,rfl⟩)),
      hkey _ (hne _ (PriorityQueue.mem_toList.mpr ⟨_,hlt,rfl⟩))]
    exact h.ordered i hpos hi

/-- A node comes into the queue. -/
def offer (map : GameMap) (s : AStar) (cur v : Node) (g_x : ℚ) : AStar :=
  let inQueue := decide (∃ u ∈ s.queue.toList, u.pos = v.pos)
  let s := { s with
    gScore := Function.update s.gScore v.pos (some g_x)
    fScore := Function.update s.fScore v.pos (some (g_x+map.estimate v.pos)) }
  let queue := if inQueue then s.queue.remove s.getFCost fun u => v.pos = u.pos else s.queue
  { s with
    queue := queue.offer s.getFCost v
    pathMap := Function.update s.pathMap v.pos (some cur) }

theorem Refines.offer (h : Refines map a s) (hnodup : (s.queue.map Node.pos).Nodup) (cur v : Node)
    (g_x : ℚ) : Refines map (a.offer map cur v g_x) (s.offer cur v g_x) := by
  have hkey (u : Node) (hu : u.pos ≠ v.pos) :
      (a.offer map cur v g_x).getFCost u = a.getFCost u := by
    change (Function.update a.fScore v.pos _ u.pos).getD 0 = (a.fScore u.pos).getD 0
    rw [Function.update_of_ne hu]
  obtain ⟨hperm,hordered⟩ := h.leave hnodup hkey (fun u => decide_eq_true_iff) rfl
  refine ⟨h.visited,?_,PriorityQueue.offer_ordered hordered v,?_,?_,fun p => ?_⟩
  · exact (PriorityQueue.offer_perm _ v).trans (hperm.append_right [v])
  · exact congrArg (Function.update · v.pos (some cur)) h.pathMap
  · exact congrArg (Function.update · v.pos (some g_x)) h.gScore
  · change Function.update a.fScore v.pos _ p = (Function.update s.gScore v.pos _ p).map _
    by_cases hp : p = v.pos
    · subst hp
      rw [Function.update_self,Function.update_self]
      rfl
    · rw [Function.update_of_ne hp,Function.update_of_ne hp]
      exact h.fScore p

/-- One neighbour. -/
theorem Refines.relax (h : Refines map a s) (hnodup : (s.queue.map Node.pos).Nodup)
    (ht : Pathfinding.relax (exact attack) strategy cur s neighbor = some t) :
    ∃ b, a.relax attack strategy map cur neighbor = some b ∧ Refines map b t := by
  cases neighbor with
  | none =>
    obtain rfl := Option.some.inj ht
    exact ⟨a,rfl,h⟩
  | some n =>
    rw [Pathfinding.relax,Option.elim_some,← h.visited,← h.gScore] at ht
    rw [AStar.relax,Option.elim_some]
    by_cases hvisited : ∃ u ∈ a.visited, u.pos = n.pos
    · rw [if_pos hvisited] at ht ⊢
      obtain rfl := Option.some.inj ht
      exact ⟨a,rfl,h⟩
    rw [if_neg hvisited] at ht ⊢
    obtain ⟨g,hg,ht⟩ := Option.bind_eq_some_iff.mp ht
    obtain ⟨cost,hcost,ht⟩ := Option.bind_eq_some_iff.mp ht
    obtain ⟨better,hbetter,ht⟩ := Option.bind_eq_some_iff.mp ht
    have hqueued : (∃ u ∈ a.queue.toList, u.pos = n.pos) ↔ ∃ u ∈ s.queue, u.pos = n.pos :=
      exists_congr fun u => and_congr_left' h.queue.mem_iff
    rw [hg,Option.bind_some,hcost,Option.bind_some]
    have hbetter' : (if decide (∃ u ∈ a.queue.toList, u.pos = n.pos) = true
        then (a.gScore n.pos).map fun gScore => decide (g+cost < gScore) else some true) =
        some better := by
      simp only [decide_eq_true_eq,hqueued]
      exact hbetter
    dsimp only
    rw [hbetter',Option.bind_some]
    cases better with
    | false =>
      obtain rfl := Option.some.inj ht
      exact ⟨a,rfl,h⟩
    | true =>
      obtain ⟨v,hv,rfl⟩ := Option.map_eq_some_iff.mp ht
      have hpos := reach_pos hv
      have hoffer := h.offer hnodup cur v (g+cost)
      rw [Search.offer,AStar.offer,hpos] at hoffer
      rw [if_pos rfl,hv,Option.map_some]
      rw [← h.visited,← h.gScore] at hoffer
      exact ⟨_,rfl,hoffer⟩

/-- All neighbours. -/
theorem Refines.foldlM {neighbors : List (Option Node)} (h : Refines map a s)
    (hkept : Kept (· = startNode map warPlaneList) (ReachedFrom (exact attack) strategy map)
      Node.pos s.pathMap s.visited s.queue) (hcur : cur ∈ s.visited)
    (hn : ∀ n, some n ∈ neighbors → ∃ row column, map.getValue row column = some (some n))
    (ht : neighbors.foldlM (Pathfinding.relax (exact attack) strategy cur) s = some t) :
    ∃ b, neighbors.foldlM (AStar.relax attack strategy map cur) a = some b ∧ Refines map b t := by
  induction neighbors generalizing a s with
  | nil =>
    obtain rfl := Option.some.inj ht
    exact ⟨a,rfl,h⟩
  | cons neighbor neighbors ih =>
    rw [List.foldlM_cons] at ht
    obtain ⟨u,hu,ht⟩ := Option.bind_eq_some_iff.mp ht
    obtain ⟨c,hc,hrefines⟩ := h.relax hkept.nodup hu
    obtain ⟨⟨hvisited,-⟩,hkept'⟩ := kept_relax hkept hcur
      (fun n heq => hn n (heq ▸ List.mem_cons_self)) hu
    obtain ⟨b,hb,hrefines'⟩ := ih hrefines hkept' (hvisited ▸ hcur)
      (fun n hmem => hn n (List.mem_cons_of_mem _ hmem)) ht
    refine ⟨b,?_,hrefines'⟩
    rw [List.foldlM_cons,hc]
    exact hb

theorem init_refines : Refines map (init map warPlaneList)
    (Pathfinding.findPath (exact attack) strategy map warPlaneList).init := by
  refine ⟨rfl,PriorityQueue.offer_perm _ _,?_,rfl,rfl,fun p => ?_⟩
  · exact PriorityQueue.offer_ordered (fun i _ hi => absurd hi i.not_lt_zero) _
  · change Function.update (fun _ => none) (startNode map warPlaneList).pos _ p =
      (Function.update (fun _ => none) (startNode map warPlaneList).pos (some (0 : ℚ)) p).map _
    by_cases hp : p = (startNode map warPlaneList).pos
    · subst hp
      rw [Function.update_self,Function.update_self,Option.map_some,zero_add]
      rfl
    · rw [Function.update_of_ne hp,Function.update_of_ne hp]
      rfl

theorem Refines.getFCost (h : Refines map a s) (hv : Known map attack strategy s v) :
    a.getFCost v = s.cost v.pos+map.estimate v.pos := by
  rw [AStar.getFCost,h.fScore,hv.scored]
  rfl

/-- The node that the heap gives is one of the list, with the least sum of cost and estimate. -/
theorem Refines.poll (h : Refines map a s)
    (hknown : ∀ v ∈ s.visited++s.queue, Known map attack strategy s v) (hsize : a.queue.size ≠ 0) :
    ∃ cur q i, a.queue.poll a.getFCost = some (cur,q) ∧ s.queue[i]? = some cur ∧
      (∀ p ∈ positions s.queue, s.cost cur.pos+map.estimate cur.pos ≤ s.cost p+map.estimate p) ∧
      Refines map { a with visited := a.visited++[cur], queue := q }
        { s with visited := s.visited++[cur], queue := s.queue.eraseIdx i } := by
  obtain ⟨cur,q,hpoll,hperm,hmin,hordered⟩ := PriorityQueue.poll_spec h.ordered hsize
  have hmem : cur ∈ s.queue := h.queue.subset (hperm.symm.subset List.mem_cons_self)
  have hscore {m : Node} (hm : m ∈ s.queue) : a.getFCost m = s.cost m.pos+map.estimate m.pos :=
    h.getFCost (hknown m (List.mem_append_right _ hm))
  obtain ⟨i,hi⟩ := List.getElem?_of_mem hmem
  obtain ⟨hlt,hget⟩ := List.getElem?_eq_some_iff.mp hi
  refine ⟨cur,q,i,hpoll,hi,?_,congrArg (·++[cur]) h.visited,?_,hordered,h.pathMap,h.gScore,h.fScore⟩
  · rintro _ ⟨m,hm,rfl⟩
    rw [← hscore hmem,← hscore hm]
    exact hmin m (h.queue.symm.subset hm)
  · refine List.Perm.cons_inv (a := cur) ((hperm.symm.trans h.queue).trans ?_)
    rw [← hget]
    exact (List.getElem_cons_eraseIdx_perm hlt).symm

/-- With enough rounds the loop ends, with null or a cheapest way. -/
theorem loop_optimal (hmap : map.Playable) (hattack : ∀ order, 1 ≤ attack order) {rounds : ℕ}
    (hs : Optimal attack strategy map warPlaneList s) (hpath : s.path = none) (h : Refines map a s)
    (hrounds : map.nRows*map.nColumns < s.visited.length+rounds) :
    ∃ result, a.loop attack strategy map rounds = some result ∧
      (result = none ↔ ¬∃ l, map.IsRoute l) ∧
      ∀ path, result = some path → IsCheapest map attack strategy path := by
  have hready := hs.ready hpath
  have hkept := hs.searched.kept hpath
  obtain ⟨at',hexplored⟩ := hready.explored
  induction rounds generalizing a s at' with
  | zero => exact absurd hrounds hexplored.length_le.not_gt
  | succ rounds ih =>
    by_cases hsize : a.queue.size = 0
    · have hempty : s.queue = [] := List.eq_nil_of_length_eq_zero <|
        h.queue.length_eq.symm.trans (a.queue.length_toList.trans hsize)
      refine ⟨none,?_,⟨fun _ => ?_,fun _ => rfl⟩,fun path hsome => ?_⟩
      · rw [loop,PriorityQueue.poll,if_pos hsize]
        rfl
      · rintro ⟨l,hl⟩
        exact hready.not_isRoute hmap hattack hempty hl
      · cases hsome
    obtain ⟨cur,q,i,hpoll,hi,hleast,hrefines⟩ := h.poll hexplored.known hsize
    obtain ⟨t,ht,hoptimal,hlength⟩ := hs.poll hmap hattack hpath hi hleast
    have hgoing : ¬s.path.isSome = true := by
      rw [hpath]
      exact Bool.false_ne_true
    rw [Search.poll,if_neg hgoing,hi,Option.bind_some] at ht
    rw [loop,hpoll,Option.elim_some]
    by_cases hend : cur.pos = map.last Cells.END.asChar
    · rw [if_pos hend] at ht ⊢
      obtain ⟨score,hscore,ht⟩ := Option.bind_eq_some_iff.mp ht
      obtain ⟨route,hroute,rfl⟩ := Option.map_eq_some_iff.mp ht
      have hfound := hoptimal.found ⟨route,score⟩ rfl
      refine ⟨some ⟨route,score⟩,?_,⟨fun hnone => ?_,fun hnone => ?_⟩,fun path hsome => ?_⟩
      · rw [h.gScore,h.pathMap,h.visited,hscore,Option.bind_some,hroute]
        rfl
      · cases hnone
      · exact absurd ⟨_,hfound.route⟩ hnone
      · exact Option.some.inj hsome ▸ hfound
    · rw [if_neg hend] at ht ⊢
      obtain ⟨neighbors,hneighbors,ht⟩ := Option.bind_eq_some_iff.mp ht
      have hcur : cur ∈ s.visited++[cur] := List.mem_append_right _ (List.mem_singleton_self cur)
      have hvalue (n : Node) (hn : some n ∈ neighbors) :=
        GameMap.getValue_of_mem_getNeighbors hneighbors hn
      obtain ⟨b,hb,hrefines'⟩ := hrefines.foldlM (hkept.poll hi) hcur hvalue ht
      have hpath' : t.path = none :=
        (kept_foldlM_relax (hkept.poll hi) hcur hvalue ht).1.trans hpath
      obtain ⟨at',hexplored'⟩ := (hoptimal.ready hpath').explored
      obtain ⟨result,hresult,hanswer⟩ := ih hoptimal hpath' hrefines' (by
        rw [hlength hpath']
        omega) (hoptimal.ready hpath') (hoptimal.searched.kept hpath') at' hexplored'
      refine ⟨result,?_,hanswer⟩
      rw [hneighbors,Option.bind_some,hb]
      exact hresult

end AStar

/-- On a map that can be played, with bases that cost one at least, the search returns null just
when there is no way to the end, and a cheapest way otherwise. -/
theorem findPath_optimal (hmap : map.Playable) (hattack : ∀ order, 1 ≤ attack order)
    (hplanes : warPlaneList.length = 5) (strategy : Strategy) {rounds : ℕ}
    (hrounds : map.nRows*map.nColumns < rounds) :
    ∃ result, AStar.findPath attack strategy map warPlaneList rounds = some result ∧
      (result = none ↔ ¬∃ l, map.IsRoute l) ∧
      ∀ path, result = some path → IsCheapest map attack strategy path := by
  refine AStar.loop_optimal hmap hattack (.init hmap hplanes) rfl AStar.init_refines ?_
  rwa [← Nat.zero_add rounds] at hrounds

/-- The straight way is over a mountain. -/
def aroundMountain : GameMap := ⟨[['I', 'M', 'F'], ['.', '0', '.']],by decide,by decide⟩

theorem aroundMountain_playable : aroundMountain.Playable := by
  have hrectangular : ∀ row ∈ aroundMountain.mapData, row.length = aroundMountain.nColumns := by
    decide
  have hknown : (aroundMountain.mapData.all fun row => row.all fun tileType =>
      decide (tileType ∈ GameMap.tiles)) = true := by decide
  refine ⟨hrectangular,fun row hrow tileType hmem => ?_,⟨(0,0),rfl,fun p hp => ?_⟩,
    ⟨(0,2),rfl,fun p hp => ?_⟩⟩
  · exact of_decide_eq_true
      (List.all_eq_true.mp (List.all_eq_true.mp hknown row hrow) tileType hmem)
  · obtain ⟨hrow,hcolumn⟩ := GameMap.lt_of_tile hrectangular hp
    revert hp
    exact (by decide : ∀ i < 2, ∀ j < 3, aroundMountain.tile i j = some Cells.START.asChar →
      (i,j) = (0,0)) p.1 hrow p.2 hcolumn
  · obtain ⟨hrow,hcolumn⟩ := GameMap.lt_of_tile hrectangular hp
    revert hp
    exact (by decide : ∀ i < 2, ∀ j < 3, aroundMountain.tile i j = some Cells.END.asChar →
      (i,j) = (0,2)) p.1 hrow p.2 hcolumn

theorem findPath_optimal_mountain : ∃ path,
    AStar.findPath (fun _ => 1) firstOnly aroundMountain fivePlanes 7 = some (some path) ∧
      path.nodes.map Node.pos = [(1,1),(1,2),(2,2),(3,2),(3,1)] ∧
      ∀ l, aroundMountain.IsRoute l →
        3 ≤ aroundMountain.routeCost (fun _ => 1) firstOnly l := by
  have hrun : (AStar.findPath (fun _ => 1) firstOnly aroundMountain fivePlanes 7).any
      (fun result => result.any fun path => decide
        (path.nodes.map Node.pos = [(1,1),(1,2),(2,2),(3,2),(3,1)] ∧ path.score = 3)) = true := by
    decide +kernel
  have hattack : ∀ order : ℕ, (1 : ℚ) ≤ (fun _ => 1) order := fun _ => le_rfl
  obtain ⟨result,hresult,-,hcheapest⟩ := findPath_optimal aroundMountain_playable hattack
    (rfl : fivePlanes.length = 5) firstOnly (by decide : 2*3 < 7)
  rw [hresult] at hrun
  rw [Option.any_some] at hrun
  obtain ⟨path,rfl,hpath⟩ := (Option.any_eq_true _ _).mp hrun
  obtain ⟨hnodes,hscore⟩ := of_decide_eq_true hpath
  refine ⟨path,hresult,hnodes,fun l hl => ?_⟩
  rw [← hscore]
  exact (hcheapest path rfl).least l hl

end PucRio.Pathfinding
