import Mathlib.Data.List.Induction
import PucRio.Pathfinding.AStar

/-! What the planes have left on the way. A node in the queue has its own copy of the planes of the node
that it was reached from, less the attacks there; since the notes lead back over just these nodes, the
attacks on the path are those that the energies lack. -/
namespace PucRio.Pathfinding
open PucRio.Predecessors

namespace GameMap

/-- The order of the base at a position. -/
def baseAt (map : GameMap) (pos : ℕ × ℕ) : Option ℕ :=
  if pos.1 = 0 ∨ pos.2 = 0 then none else (map.tile (pos.2-1) (pos.1-1)).bind enemyBases

/-- No base has two cells. -/
def EachBaseOnce (map : GameMap) : Prop :=
  ∀ i j i' j' tileType, (enemyBases tileType).isSome = true → map.tile i j = some tileType →
    map.tile i' j' = some tileType → i = i' ∧ j = j'

variable {map : GameMap} {pos pos' : ℕ × ℕ} {order row column : ℕ} {n : Node}

theorem enemyBases_inj {c d : Char} (hc : enemyBases c = some order)
    (hd : enemyBases d = some order) : c = d := by
  obtain ⟨i,hi,rfl⟩ := Option.map_eq_some_iff.mp hc
  obtain ⟨j,hj,hij⟩ := Option.map_eq_some_iff.mp hd
  obtain rfl : j = i := Nat.succ.inj hij
  obtain ⟨hlt,hc,-⟩ := List.idxOf?_eq_some_iff.mp hi
  obtain ⟨_,hd,-⟩ := List.idxOf?_eq_some_iff.mp hj
  exact hc.symm.trans hd

theorem order_mem (h : map.baseAt pos = some order) : 1 ≤ order ∧ order ≤ 11 := by
  unfold baseAt at h
  split_ifs at h
  obtain ⟨c,-,hc⟩ := Option.bind_eq_some_iff.mp h
  obtain ⟨i,hi,rfl⟩ := Option.map_eq_some_iff.mp hc
  obtain ⟨hlt,-⟩ := List.idxOf?_eq_some_iff.mp hi
  exact ⟨Nat.succ_pos i,hlt⟩

theorem EachBaseOnce.pos_eq (h : map.EachBaseOnce) (hpos : map.baseAt pos = some order)
    (hpos' : map.baseAt pos' = some order) : pos = pos' := by
  unfold baseAt at hpos hpos'
  split_ifs at hpos hpos'
  obtain ⟨c,hc,hcorder⟩ := Option.bind_eq_some_iff.mp hpos
  obtain ⟨d,hd,hdorder⟩ := Option.bind_eq_some_iff.mp hpos'
  obtain rfl := enemyBases_inj hcorder hdorder
  obtain ⟨hrow,hcolumn⟩ := h _ _ _ _ c (by rw [hcorder]; rfl) hc hd
  ext <;> omega

/-- A cell knows where it is, and which base it is. -/
theorem getValue_spec (h : map.getValue row column = some (some n)) :
    (n.CellType = some .ENEMYBASE ∧ ∃ order, n.enemyBaseOrder = some order ∧
        map.baseAt n.pos = some order) ∨
      (n.CellType ≠ some .ENEMYBASE ∧ map.baseAt n.pos = none) := by
  rw [getValue] at h
  by_cases hin : map.nRows < row ∨ map.nColumns < column
  · rw [if_pos hin] at h
    cases h
  rw [if_neg hin] at h
  by_cases hzero : row = 0 ∨ column = 0
  · rw [if_pos hzero] at h
    cases h
  rw [if_neg hzero] at h
  obtain ⟨c,hc,hn⟩ := Option.map_eq_some_iff.mp h
  have hbase : map.baseAt (column,row) = enemyBases c := by
    rw [baseAt,if_neg fun hpos => hzero hpos.symm,hc,Option.bind_some]
  have htile {type : Cells} {other : Node} (hne : type ≠ .ENEMYBASE)
      (hnone : enemyBases type.asChar = none)
      (hn : (if c = type.asChar then ⟨column,row,some type,none,[]⟩ else other) = n) :
      (n.CellType ≠ some .ENEMYBASE ∧ map.baseAt n.pos = none) ∨ other = n := by
    by_cases htype : c = type.asChar
    · rw [if_pos htype] at hn
      subst hn
      rw [htype,hnone] at hbase
      exact .inl ⟨fun heq => hne (Option.some.inj heq),hbase⟩
    · exact .inr ((if_neg htype).symm.trans hn)
  obtain h | hn := htile (by decide) (by decide) (Option.some.inj hn)
  · exact .inr h
  obtain h | hn := htile (by decide) (by decide) hn
  · exact .inr h
  obtain h | hn := htile (by decide) (by decide) hn
  · exact .inr h
  obtain h | hn := htile (by decide) (by decide) hn
  · exact .inr h
  by_cases hz : (enemyBases c).isSome = true
  · rw [if_pos hz] at hn
    obtain ⟨order,horder⟩ := Option.isSome_iff_exists.mp hz
    subst hn
    exact .inl ⟨rfl,order,horder,hbase.trans horder⟩
  rw [if_neg hz] at hn
  have hnone := hbase.trans (Option.not_isSome_iff_eq_none.mp hz)
  obtain h | hn := htile (by decide) (by decide) hn
  · exact .inr h
  obtain h | hn := htile (by decide) (by decide) hn
  · exact .inr h
  subst hn
  exact .inr ⟨(Option.some_ne_none _).symm,hnone⟩

theorem last_spec (map : GameMap) (tileType : Char) : map.last tileType = (0,0) ∨
    ∃ i j, map.tile i j = some tileType ∧ map.last tileType = (j+1,i+1) := by
  unfold last
  generalize (List.range map.nRows).flatMap _ = cells
  induction cells using List.reverseRecOn with
  | nil => exact .inl rfl
  | append_singleton cells p ih =>
    rw [List.foldl_append,List.foldl_cons,List.foldl_nil]
    split_ifs with hp
    · exact .inr ⟨p.1,p.2,hp,rfl⟩
    · exact ih

theorem baseAt_start (map : GameMap) : map.baseAt (map.last Cells.START.asChar) = none := by
  obtain h | ⟨i,j,hij,h⟩ := map.last_spec Cells.START.asChar
  · rw [h]
    rfl
  · rw [h,baseAt,if_neg (by simp),Nat.add_sub_cancel,Nat.add_sub_cancel,hij]
    decide

theorem exists_of_mem_mapM {α β : Type} {f : α → Option β} {l : List α} {l' : List β} {b : β}
    (h : l.mapM f = some l') (hb : b ∈ l') : ∃ a ∈ l, f a = some b := by
  induction l generalizing l' with
  | nil =>
    rw [List.mapM_nil] at h
    obtain rfl := Option.some.inj h
    exact absurd hb List.not_mem_nil
  | cons a l ih =>
    rw [List.mapM_cons] at h
    obtain ⟨c,hc,h⟩ := Option.bind_eq_some_iff.mp h
    obtain ⟨l'',hl,h⟩ := Option.bind_eq_some_iff.mp h
    obtain rfl := Option.some.inj h
    obtain rfl | hb := List.mem_cons.mp hb
    · exact ⟨a,List.mem_cons_self,hc⟩
    · obtain ⟨a',ha',hf⟩ := ih hl hb
      exact ⟨a',List.mem_cons_of_mem a ha',hf⟩

/-- The neighbours are values of the map. -/
theorem getValue_of_mem_getNeighbors {neighbors : List (Option Node)}
    (h : map.getNeighbors row column = some neighbors) (hn : some n ∈ neighbors) :
    ∃ row column, map.getValue row column = some (some n) := by
  obtain ⟨p,-,hp⟩ := exists_of_mem_mapM h hn
  split_ifs at hp
  · exact ⟨p.2.1,p.2.2,hp⟩
  · cases hp

end GameMap

variable {R : Type} {costs : Costs R} {strategy : Strategy} {map : GameMap}

/-- The plan sends a plane to the base at a node. -/
def Assigned (map : GameMap) (strategy : Strategy) (j : ℕ) (n : Node) : Bool :=
  (map.baseAt n.pos).any fun order => j ∈ airplanes strategy (order-1)

/-- A node was reached from another one: it is a cell of the map with the planes of that node, after
the attacks there. -/
def ReachedFrom (costs : Costs R) (strategy : Strategy) (map : GameMap) (p v : Node) : Prop :=
  ∃ row column n, map.getValue row column = some (some n) ∧ reach costs strategy p n = some v

/-- What the plane number `j` has left. -/
def energyOf (planes : List WarPlaneInfo) (j : ℕ) : Option ℤ := (planes[j]?).map (·.energy)

section Reach
variable {planes planes' : List WarPlaneInfo} {p v n : Node} {j x : ℕ}

theorem energyOf_attackWith (h : attackWith planes x = some planes') (j : ℕ) :
    energyOf planes' j = (energyOf planes j).map (·-(([x].count j : ℕ) : ℤ)) := by
  obtain ⟨plane,hplane,rfl⟩ := Option.map_eq_some_iff.mp h
  unfold energyOf
  rw [List.getElem?_set]
  by_cases hxj : x = j
  · subst hxj
    have hlt := (List.getElem?_eq_some_iff.mp hplane).1
    rw [if_pos rfl,if_pos hlt,hplane,List.count_singleton_self]
    rfl
  · have hzero : [x].count j = 0 := List.count_eq_zero.mpr (by simpa using Ne.symm hxj)
    rw [if_neg hxj,hzero,Option.map_map]
    congr 1
    funext e
    exact (Int.sub_zero _).symm

/-- Each plane loses as much as it is named. -/
theorem energyOf_foldlM_attackWith {l : List ℕ} (h : l.foldlM attackWith planes = some planes')
    (j : ℕ) : energyOf planes' j = (energyOf planes j).map (·-((l.count j : ℕ) : ℤ)) := by
  induction l generalizing planes with
  | nil =>
    obtain rfl := Option.some.inj h
    simp
  | cons x l ih =>
    rw [List.foldlM_cons] at h
    obtain ⟨planes'',hx,hl⟩ := Option.bind_eq_some_iff.mp h
    have hcount : (x::l).count j = [x].count j+l.count j := by
      rw [← List.count_append]
      rfl
    rw [ih hl,energyOf_attackWith hx,Option.map_map,hcount,Int.natCast_add]
    congr 1
    funext e
    exact Int.sub_sub e _ _

theorem count_airplanes (strategy : Strategy) (i j : ℕ) :
    (airplanes strategy i).count j = if j ∈ airplanes strategy i then 1 else 0 := by
  split_ifs with hj
  · exact List.count_eq_one_of_mem (List.nodup_range.filter _) hj
  · exact List.count_eq_zero.mpr hj

/-- A copy of the planes. -/
theorem energyOf_setEstate (n : Node) (planes : List WarPlaneInfo) (j : ℕ) :
    energyOf (n.setEstate planes).warplaneInfo_Estate j = energyOf planes j := by
  unfold energyOf Node.setEstate
  rw [List.getElem?_map,Option.map_map]
  rfl

/-- The node reached is the cell of the map with the energies that the planes come with, less the
attacks there. -/
theorem energyOf_reach (hn : (n.CellType = some .ENEMYBASE ∧ ∃ order,
      n.enemyBaseOrder = some order ∧ map.baseAt n.pos = some order) ∨
      (n.CellType ≠ some .ENEMYBASE ∧ map.baseAt n.pos = none))
    (h : reach costs strategy p n = some v) (j : ℕ) : v.pos = n.pos ∧
    energyOf v.warplaneInfo_Estate j = (energyOf p.warplaneInfo_Estate j).map
      (·-if Assigned map strategy j v then 1 else 0) := by
  have hcopy := energyOf_setEstate n p.warplaneInfo_Estate j
  unfold reach at h
  dsimp only at h
  obtain ⟨hbase,order,horder,hat⟩ | ⟨hother,hat⟩ := hn
  · rw [if_pos hbase,horder,Option.bind_some,bases,if_pos (GameMap.order_mem hat),
      Option.bind_some] at h
    obtain ⟨planes,hplanes,rfl⟩ := Option.map_eq_some_iff.mp h
    refine ⟨rfl,?_⟩
    have hassigned : Assigned map strategy j
        { n.setEstate p.warplaneInfo_Estate with warplaneInfo_Estate := planes } =
          decide (j ∈ airplanes strategy (order-1)) := by
      change (map.baseAt n.pos).any _ = _
      rw [hat]
      rfl
    rw [energyOf_foldlM_attackWith hplanes,hcopy,hassigned,count_airplanes]
    congr 1
    funext e
    split_ifs <;> simp_all
  · rw [if_neg hother] at h
    obtain rfl := Option.some.inj h
    refine ⟨rfl,?_⟩
    have hassigned : Assigned map strategy j (n.setEstate p.warplaneInfo_Estate) = false := by
      change (map.baseAt n.pos).any _ = _
      rw [hat]
      rfl
    rw [hcopy,hassigned]
    simp

theorem ReachedFrom.energyOf (h : ReachedFrom costs strategy map p v) (j : ℕ) :
    energyOf v.warplaneInfo_Estate j = (Pathfinding.energyOf p.warplaneInfo_Estate j).map
      (·-if Assigned map strategy j v then 1 else 0) := by
  obtain ⟨row,column,n,hvalue,hreach⟩ := h
  exact (energyOf_reach (GameMap.getValue_spec hvalue) hreach j).2

end Reach

section Trails
variable {warPlaneList : List WarPlaneInfo} {l : List Node} {v : Node} {s t : Search R}

/-- A way over the map, from its last node, where the planes take their copies from node to node. -/
abbrev Way (costs : Costs R) (strategy : Strategy) (map : GameMap)
    (warPlaneList : List WarPlaneInfo) : List Node → Prop :=
  Trail (· = startNode map warPlaneList) (ReachedFrom costs strategy map)

/-- Each plane has lost the bases of the way that it is assigned to. -/
theorem Way.energyOf (h : Way costs strategy map warPlaneList (v::l)) (j : ℕ) :
    energyOf v.warplaneInfo_Estate j = (Pathfinding.energyOf warPlaneList j).map
      (·-(((v::l).countP (Assigned map strategy j) : ℕ) : ℤ)) := by
  generalize hl : v::l = trail at h
  induction h generalizing v l with
  | @start u hu =>
    obtain ⟨rfl,rfl⟩ := List.cons.inj hl
    have hnone : Assigned map strategy j v = false := by
      rw [hu]
      change (map.baseAt (map.last Cells.START.asChar)).any _ = _
      rw [map.baseAt_start]
      rfl
    rw [List.countP_singleton,hnone,hu,startNode,energyOf_setEstate]
    simp
  | @next p u l _ hreached ih =>
    obtain ⟨rfl,rfl⟩ := List.cons.inj hl
    rw [hreached.energyOf,ih rfl,Option.map_map,List.countP_cons (a := v),Int.natCast_add]
    congr 1
    funext e
    simp only [Function.comp_apply]
    split_ifs <;> omega

/-- The bases that one plane attacks on a way without a cell twice are five at most. -/
theorem countP_assigned_le (hbases : map.EachBaseOnce) (hplan : validateStrategy strategy = true)
    (hnodup : (l.map Node.pos).Nodup) (j : ℕ) : l.countP (Assigned map strategy j) ≤ 5 := by
  have horder {n : Node} (hn : n ∈ l.filter (Assigned map strategy j)) :
      ∃ order, map.baseAt n.pos = some order ∧ j ∈ airplanes strategy (order-1) := by
    obtain ⟨order,hat,hplane⟩ := Option.any_eq_true _ _ |>.mp (List.mem_filter.mp hn).2
    exact ⟨order,hat,of_decide_eq_true hplane⟩
  have hpairs : ((l.filter (Assigned map strategy j)).map
      fun n => (map.baseAt n.pos).getD 0-1).Nodup := by
    have hsub : ((l.filter (Assigned map strategy j)).map Node.pos).Nodup :=
      hnodup.sublist (List.filter_sublist.map Node.pos)
    rw [List.Nodup,List.pairwise_map] at hsub ⊢
    refine hsub.imp_of_mem fun {a b} ha hb hne heq => hne ?_
    obtain ⟨orderA,hatA,-⟩ := horder ha
    obtain ⟨orderB,hatB,-⟩ := horder hb
    have hA := GameMap.order_mem hatA
    have hB := GameMap.order_mem hatB
    rw [hatA,hatB,Option.getD_some,Option.getD_some] at heq
    obtain rfl : orderA = orderB := by omega
    exact hbases.pos_eq hatA hatB
  have hlength := length_le_of_validateStrategy (j := j) hplan hpairs fun i hi => by
    obtain ⟨n,hn,rfl⟩ := List.mem_map.mp hi
    obtain ⟨order,hat,hplane⟩ := horder hn
    have hmem := GameMap.order_mem hat
    rw [hat,Option.getD_some]
    exact ⟨by omega,hplane⟩
  rwa [List.length_map,← List.countP_eq_length_filter] at hlength

/-- What the search keeps until it returns, and the way that it returns. -/
structure Searched (costs : Costs R) (strategy : Strategy) (map : GameMap)
    (warPlaneList : List WarPlaneInfo) (s : Search R) : Prop where
  kept : s.path = none → Kept (· = startNode map warPlaneList) (ReachedFrom costs strategy map)
    Node.pos s.pathMap s.visited s.queue
  way : ∀ path, s.path = some path → ∃ l, Way costs strategy map warPlaneList l ∧
    (l.map Node.pos).Nodup ∧ path.nodes = l.reverse

/-- A neighbour leaves what is kept. -/
theorem kept_relax {curNode : Node} {neighbor : Option Node}
    (h : Kept (· = startNode map warPlaneList) (ReachedFrom costs strategy map) Node.pos s.pathMap
      s.visited s.queue) (hcur : curNode ∈ s.visited)
    (hn : ∀ n, neighbor = some n → ∃ row column, map.getValue row column = some (some n))
    (ht : relax costs strategy curNode s neighbor = some t) :
    (t.visited = s.visited ∧ t.path = s.path) ∧ Kept (· = startNode map warPlaneList)
      (ReachedFrom costs strategy map) Node.pos t.pathMap t.visited t.queue := by
  cases neighbor with
  | none =>
    obtain rfl := Option.some.inj ht
    exact ⟨⟨rfl,rfl⟩,h⟩
  | some n =>
    obtain ⟨row,column,hvalue⟩ := hn n rfl
    rw [relax,Option.elim_some] at ht
    by_cases hvisited : ∃ u ∈ s.visited, u.pos = n.pos
    · rw [if_pos hvisited] at ht
      obtain rfl := Option.some.inj ht
      exact ⟨⟨rfl,rfl⟩,h⟩
    · rw [if_neg hvisited] at ht
      obtain ⟨g,-,ht⟩ := Option.bind_eq_some_iff.mp ht
      obtain ⟨cost,-,ht⟩ := Option.bind_eq_some_iff.mp ht
      obtain ⟨better,-,ht⟩ := Option.bind_eq_some_iff.mp ht
      cases better with
      | true =>
        obtain ⟨reached,hreached,rfl⟩ := Option.map_eq_some_iff.mp ht
        refine ⟨⟨rfl,rfl⟩,?_⟩
        have hpos := (energyOf_reach (GameMap.getValue_spec hvalue) hreached 0).1
        rw [← hpos] at hvisited ⊢
        rw [← List.mem_map] at hvisited
        exact h.offer hcur ⟨row,column,n,hvalue,hreached⟩ hvisited
      | false =>
        obtain rfl := Option.some.inj ht
        exact ⟨⟨rfl,rfl⟩,h⟩

/-- All neighbours of a node. -/
theorem kept_foldlM_relax {curNode : Node} {neighbors : List (Option Node)}
    (h : Kept (· = startNode map warPlaneList) (ReachedFrom costs strategy map) Node.pos s.pathMap
      s.visited s.queue) (hcur : curNode ∈ s.visited)
    (hn : ∀ n, some n ∈ neighbors → ∃ row column, map.getValue row column = some (some n))
    (ht : neighbors.foldlM (relax costs strategy curNode) s = some t) :
    t.path = s.path ∧ Kept (· = startNode map warPlaneList)
      (ReachedFrom costs strategy map) Node.pos t.pathMap t.visited t.queue := by
  induction neighbors generalizing s with
  | nil =>
    obtain rfl := Option.some.inj ht
    exact ⟨rfl,h⟩
  | cons neighbor neighbors ih =>
    rw [List.foldlM_cons] at ht
    obtain ⟨u,hu,ht⟩ := Option.bind_eq_some_iff.mp ht
    obtain ⟨⟨hvisited,hpath⟩,hkept⟩ := kept_relax h hcur
      (fun n heq => hn n (heq ▸ List.mem_cons_self)) hu
    obtain ⟨hpath',hkept'⟩ := ih hkept (hvisited ▸ hcur)
      (fun n hmem => hn n (List.mem_cons_of_mem _ hmem)) ht
    exact ⟨hpath'.trans hpath,hkept'⟩

/-- The step lemma: whichever node is taken. -/
theorem Searched.poll (h : Searched costs strategy map warPlaneList s) {i : ℕ}
    (ht : s.poll costs strategy map i = some t) : Searched costs strategy map warPlaneList t := by
  unfold Search.poll at ht
  split_ifs at ht with hreturned
  have hkept := h.kept (Option.not_isSome_iff_eq_none.mp hreturned)
  obtain ⟨curNode,hi,ht⟩ := Option.bind_eq_some_iff.mp ht
  split_ifs at ht with hend
  · obtain ⟨score,-,ht⟩ := Option.bind_eq_some_iff.mp ht
    obtain ⟨route,hroute,rfl⟩ := Option.map_eq_some_iff.mp ht
    refine ⟨fun hnone => absurd hnone (Option.some_ne_none _),fun path hpath => ?_⟩
    obtain rfl := Option.some.inj hpath
    obtain ⟨l,htrail,hnodup,hwalk⟩ := hkept.walkBack
      (List.mem_append_right s.visited (List.mem_of_getElem? hi))
    exact ⟨curNode::l,htrail,hnodup,Option.some.inj (hroute.symm.trans hwalk)⟩
  · obtain ⟨neighbors,hneighbors,ht⟩ := Option.bind_eq_some_iff.mp ht
    obtain ⟨hpath,hkept'⟩ := kept_foldlM_relax (hkept.poll hi)
      (List.mem_append_right _ (List.mem_singleton_self curNode))
      (fun n hn => GameMap.getValue_of_mem_getNeighbors hneighbors hn) ht
    refine ⟨fun _ => hkept',fun path hsome => ?_⟩
    rw [hpath] at hsome
    exact absurd (congrArg Option.isSome hsome) (by simpa using hreturned)

/-- The run lemma. -/
theorem searched_of_reachable (h : (findPath costs strategy map warPlaneList).Reachable s) :
    Searched costs strategy map warPlaneList s := by
  refine TransitionSystem.GuardedRun.invariant h ?_ fun _ _ _ hs _ ht => hs.poll ht
  exact ⟨fun _ => .singleton rfl,fun path hpath => absurd hpath.symm (Option.some_ne_none _)⟩

end Trails

section Main
variable {warPlaneList : List WarPlaneInfo} {s : Search R} {path : Path R}

/-- The part of a path up to a node is a way to it, written from its end. -/
theorem Way.take_reverse {l : List Node} (h : Way costs strategy map warPlaneList l) {k : ℕ}
    {n : Node} (hn : l.reverse[k]? = some n) : ∃ l', n::l' <:+ l ∧
      Way costs strategy map warPlaneList (n::l') ∧ l.reverse.take (k+1) = (n::l').reverse := by
  have hk : k < l.length := by
    have hlt := (List.getElem?_eq_some_iff.mp hn).1
    rwa [List.length_reverse] at hlt
  rw [List.getElem?_reverse hk,List.getElem?_eq_some_iff] at hn
  obtain ⟨hlt,hn⟩ := hn
  have hdrop : l.drop (l.length-(k+1)) = n::l.drop (l.length-1-k+1) := by
    rw [← hn,← List.drop_eq_getElem_cons hlt]
    congr 1
    omega
  have hsuffix : n::l.drop (l.length-1-k+1) <:+ l := hdrop ▸ List.drop_suffix _ l
  refine ⟨_,hsuffix,h.suffix hsuffix,?_⟩
  rw [List.take_reverse,hdrop]

/-- Along a path every plane has five less the bases so far that the plan sends it to, and never less
than nothing. -/
theorem energies_of_reachable (hbases : map.EachBaseOnce)
    (hplan : validateStrategy strategy = true) (hfive : ∀ x ∈ warPlaneList, x.energy = 5)
    (h : (findPath costs strategy map warPlaneList).Reachable s) (hpath : s.path = some path) :
    ∀ k n, path.nodes[k]? = some n → ∀ j < warPlaneList.length,
      ∃ plane, n.warplaneInfo_Estate[j]? = some plane ∧
        plane.energy = 5-(((path.nodes.take (k+1)).countP (Assigned map strategy j) : ℕ) : ℤ) ∧
        0 ≤ plane.energy := by
  intro k n hn j hj
  obtain ⟨l,hway,hnodup,hnodes⟩ := (searched_of_reachable h).way path hpath
  rw [hnodes] at hn ⊢
  obtain ⟨l',hsuffix,hway',htake⟩ := hway.take_reverse hn
  have henergy := hway'.energyOf j
  have hplane : energyOf warPlaneList j = some 5 := by
    rw [energyOf,List.getElem?_eq_getElem hj,Option.map_some,
      hfive _ (List.getElem_mem hj)]
  rw [hplane,Option.map_some] at henergy
  obtain ⟨plane,hplane,henergy⟩ := Option.map_eq_some_iff.mp henergy
  have hle := countP_assigned_le hbases hplan
    (hnodup.sublist (hsuffix.sublist.map Node.pos)) j
  refine ⟨plane,hplane,?_,by omega⟩
  rw [htake,List.countP_reverse,henergy]

/-- A base between the start and the end. -/
def oneBase : GameMap := ⟨[['I', '0', 'F']],by decide,by decide⟩

/-- The first plane attacks the first base. -/
def firstOnly : Strategy := fun i => if i = 0 then '1' else '0'

def fivePlanes : List WarPlaneInfo :=
  [⟨"F-22 Raptor",3/2,5⟩,⟨"F-35 Lightning II",7/5,5⟩,⟨"T-50 PAK FA",13/10,5⟩,⟨"Su-46",6/5,5⟩,
    ⟨"MiG-35",11/10,5⟩]

def unitCosts : Costs ℤ := ⟨0,(·+·),(decide <| · < ·),id,fun _ => 1⟩

theorem oneBase_eachBaseOnce : oneBase.EachBaseOnce := by
  have hcell {i j : ℕ} {c : Char} (hc : (enemyBases c).isSome = true)
      (h : oneBase.tile i j = some c) : i = 0 ∧ j = 1 := by
    rcases i with _ | i
    · rcases j with _ | _ | _ | j
      · obtain rfl := Option.some.inj h
        exact absurd hc (by decide)
      · exact ⟨rfl,rfl⟩
      · obtain rfl := Option.some.inj h
        exact absurd hc (by decide)
      · cases h
    · cases h
  intro i j i' j' c hc h h'
  obtain ⟨rfl,rfl⟩ := hcell hc h
  obtain ⟨rfl,rfl⟩ := hcell hc h'
  exact ⟨rfl,rfl⟩

theorem energies_of_reachable_one : ∃ s path,
    (findPath unitCosts firstOnly oneBase fivePlanes).Reachable s ∧ s.path = some path ∧
      path.nodes.map Node.pos = [(1,1),(2,1),(3,1)] ∧
      ∀ k n, path.nodes[k]? = some n → ∀ j < fivePlanes.length,
        ∃ plane, n.warplaneInfo_Estate[j]? = some plane ∧
          plane.energy =
            5-(((path.nodes.take (k+1)).countP (Assigned oneBase firstOnly j) : ℕ) : ℤ) ∧
          0 ≤ plane.energy := by
  obtain ⟨s,hs,hp⟩ := TransitionSystem.exists_reachable_of_exec
    (T := findPath unitCosts firstOnly oneBase fivePlanes) (l := [0,0,0])
    (p := fun s => s.path.any fun path => path.nodes.map Node.pos = [(1,1),(2,1),(3,1)])
    (by decide +kernel)
  obtain ⟨path,hpath,hnodes⟩ := Option.any_eq_true _ _ |>.mp hp
  exact ⟨s,path,hs,hpath,of_decide_eq_true hnodes,
    energies_of_reachable oneBase_eachBaseOnce (by decide +kernel) (by decide +kernel) hs hpath⟩

end Main

end PucRio.Pathfinding
