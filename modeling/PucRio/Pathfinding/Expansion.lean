import PucRio.Pathfinding.Terrain

/-! The search with exact costs, as a search that always goes on from a node with the least sum of
cost and estimate. What is known of a node is known of its position. -/
namespace PucRio.Pathfinding
open PucRio.BestFirst

section Relax
variable {R : Type} {costs : Costs R} {strategy : Strategy} {s : Search R} {cur v n : Node}
  {g cost gScore : R}

/-- A node is in the queue for a way that goes on from another one. -/
def Search.offer (s : Search R) (cur v : Node) (g_x : R) : Search R :=
  { s with
    gScore := Function.update s.gScore v.pos (some g_x)
    queue := s.queue.eraseP (fun u => v.pos = u.pos)++[v]
    pathMap := Function.update s.pathMap v.pos (some cur) }

/-- A neighbour that has not been visited comes into the queue, unless it is there for no more. -/
theorem relax_eq (hvisited : ¬∃ u ∈ s.visited, u.pos = n.pos) (hg : s.gScore cur.pos = some g)
    (hcost : getTraversalCost costs strategy n = some cost)
    (hv : reach costs strategy cur n = some v) (hpos : v.pos = n.pos)
    (hqueued : (∃ u ∈ s.queue, u.pos = n.pos) → s.gScore n.pos = some gScore) :
    relax costs strategy cur s (some n) = some
      (if (∃ u ∈ s.queue, u.pos = n.pos) → costs.less (costs.add g cost) gScore = true
        then s.offer cur v (costs.add g cost) else s) := by
  have hmap : (reach costs strategy cur n).map (fun reached => { s with
      gScore := Function.update s.gScore n.pos (some (costs.add g cost))
      queue := s.queue.eraseP (fun u => n.pos = u.pos)++[reached]
      pathMap := Function.update s.pathMap n.pos (some cur) }) =
      some (s.offer cur v (costs.add g cost)) := by
    rw [hv,← hpos]
    rfl
  rw [relax,Option.elim_some,if_neg hvisited,hg,Option.bind_some,hcost,Option.bind_some]
  dsimp only
  by_cases hmem : ∃ u ∈ s.queue, u.pos = n.pos
  · rw [if_pos hmem,hqueued hmem,Option.map_some,Option.bind_some]
    by_cases hless : costs.less (costs.add g cost) gScore = true
    · rw [if_pos hless,if_pos fun _ => hless]
      exact hmap
    · rw [if_neg hless,if_neg fun himp => hless (himp hmem)]
  · rw [if_neg hmem,Option.bind_some,if_pos rfl,if_pos fun h => absurd h hmem]
    exact hmap

end Relax

/-- Where nodes are. -/
def positions (l : List Node) : Set (ℕ × ℕ) := {p | ∃ u ∈ l, u.pos = p}

/-- The cost of a way to a position that has been found. -/
def Search.cost (s : Search ℚ) (p : ℕ × ℕ) : ℚ := (s.gScore p).getD 0

variable {map : GameMap} {attack : ℕ → ℚ} {strategy : Strategy} {s t : Search ℚ} {cur v : Node}
  {E E' : Set (ℕ × ℕ)} {l : List Node} {p : ℕ × ℕ} {i : ℕ}

/-- What is kept under the position of a node that has been visited or is in the queue. -/
structure Known (map : GameMap) (attack : ℕ → ℚ) (strategy : Strategy) (s : Search ℚ) (v : Node) :
    Prop where
  inside : map.Inside v.pos
  scored : s.gScore v.pos = some (s.cost v.pos)
  planes : v.warplaneInfo_Estate.length = 5
  first : s.pathMap v.pos = none → v.pos = map.last Cells.START.asChar ∧ s.cost v.pos = 0
  later : ∀ u, s.pathMap v.pos = some u → u ∈ s.visited ∧ map.Step u.pos v.pos ∧
    s.cost v.pos = s.cost u.pos+map.cellCost attack strategy v.pos

/-- Some neighbours `E` of a position may not have been looked at. -/
structure Explored (map : GameMap) (attack : ℕ → ℚ) (strategy : Strategy) (s : Search ℚ)
    (at' : ℕ × ℕ) (E : Set (ℕ × ℕ)) : Prop where
  known : ∀ v ∈ s.visited++s.queue, Known map attack strategy s v
  nodup : (s.visited.map Node.pos).Nodup
  ongoing : map.last Cells.END.asChar ∉ positions s.visited
  frontier : Frontier map.Step (map.cellCost attack strategy) (map.last Cells.START.asChar) s.cost
    (positions s.visited) (positions s.queue) at' E

/-- The neighbours of a node are being looked at. -/
structure Expanding (map : GameMap) (attack : ℕ → ℚ) (strategy : Strategy) (s : Search ℚ)
    (cur : Node) (E : Set (ℕ × ℕ)) : Prop extends Explored map attack strategy s cur.pos E where
  cur_mem : cur ∈ s.visited
  opened : map.last Cells.START.asChar ∈ positions s.visited
  eager : Eager map.potential (map.last Cells.END.asChar) s.cost (positions s.queue)
    (s.cost cur.pos+map.potential cur.pos)

theorem positions_nil : positions [] = ∅ := by
  ext p
  refine ⟨?_,fun h => absurd h (Set.notMem_empty p)⟩
  rintro ⟨u,hu,-⟩
  exact absurd hu List.not_mem_nil

theorem positions_append (l : List Node) (v : Node) :
    positions (l++[v]) = insert v.pos (positions l) := by
  ext p
  constructor
  · rintro ⟨u,hu,rfl⟩
    obtain hu | hu := List.mem_append.mp hu
    · exact .inr ⟨u,hu,rfl⟩
    · exact .inl (congrArg Node.pos (List.mem_singleton.mp hu))
  · rintro (rfl | ⟨u,hu,rfl⟩)
    · exact ⟨v,List.mem_append_right l (List.mem_singleton_self v),rfl⟩
    · exact ⟨u,List.mem_append_left [v] hu,rfl⟩

theorem positions_offer (l : List Node) (v : Node) :
    positions (l.eraseP (fun u => v.pos = u.pos)++[v]) = insert v.pos (positions l) := by
  rw [positions_append]
  ext p
  by_cases hp : p = v.pos
  · exact ⟨fun _ => .inl hp,fun _ => .inl hp⟩
  · refine or_congr_right (exists_congr fun u => and_congr_left fun hpos => ?_)
    refine List.mem_eraseP_of_neg fun heq => hp ?_
    exact hpos.symm.trans (of_decide_eq_true heq).symm

theorem positions_eraseIdx (h : (l.map Node.pos).Nodup) (hi : l[i]? = some v) :
    positions (l.eraseIdx i) = positions l \ {v.pos} := by
  ext p
  constructor
  · rintro ⟨u,hu,rfl⟩
    obtain ⟨j,hne,hj⟩ := List.mem_eraseIdx_iff_getElem?.mp hu
    refine ⟨⟨u,List.mem_of_getElem? hj,rfl⟩,fun hpos => hne ?_⟩
    have hget (k : ℕ) : (l.map Node.pos)[k]? = (l[k]?).map Node.pos := List.getElem?_map
    refine (List.getElem?_inj ?_ h).mp ?_
    · rw [List.length_map]
      exact (List.getElem?_eq_some_iff.mp hj).1
    · rw [hget,hget,hi,hj]
      exact congrArg some hpos
  · rintro ⟨⟨u,hu,rfl⟩,hne⟩
    obtain ⟨j,hj⟩ := List.getElem?_of_mem hu
    refine ⟨u,List.mem_eraseIdx_iff_getElem?.mpr ⟨j,?_,hj⟩,rfl⟩
    rintro rfl
    exact hne (congrArg Node.pos (Option.some.inj (hj.symm.trans hi)))

theorem cost_offer (s : Search ℚ) (cur v : Node) (g_x : ℚ) :
    (s.offer cur v g_x).cost = Function.update s.cost v.pos g_x := by
  funext p
  change (Function.update s.gScore v.pos (some g_x) p).getD 0 = _
  by_cases hp : p = v.pos
  · subst hp
    rw [Function.update_self,Function.update_self,Option.getD_some]
  · rw [Function.update_of_ne hp,Function.update_of_ne hp,Search.cost]

theorem Known.offer {g_x : ℚ} (hg : g_x = s.cost cur.pos+map.cellCost attack strategy v.pos)
    (hcur : cur ∈ s.visited) (hstep : map.Step cur.pos v.pos) (hnew : v.pos ∉ positions s.visited)
    (hplanes : v.warplaneInfo_Estate.length = 5)
    (h : ∀ u ∈ s.visited++s.queue, Known map attack strategy s u) {u : Node}
    (hu : u ∈ (s.offer cur v g_x).visited++(s.offer cur v g_x).queue) :
    Known map attack strategy (s.offer cur v g_x) u := by
  have hold {w : Node} (hw : w ∈ s.visited) : (s.offer cur v g_x).cost w.pos = s.cost w.pos := by
    rw [cost_offer,Function.update_of_ne fun heq => hnew ⟨w,hw,heq⟩]
  have hmem : u = v ∨ u ∈ s.visited++s.queue := by
    obtain hu | hu := List.mem_append.mp hu
    · exact .inr (List.mem_append_left _ hu)
    · obtain hu | hu := List.mem_append.mp hu
      · exact .inr (List.mem_append_right _ (List.mem_of_mem_eraseP hu))
      · exact .inl (List.mem_singleton.mp hu)
  have hplanes' : u.warplaneInfo_Estate.length = 5 := by
    obtain rfl | hu := hmem
    · exact hplanes
    · exact (h u hu).planes
  by_cases hpos : u.pos = v.pos
  · have hnote : (s.offer cur v g_x).pathMap u.pos = some cur := by
      rw [hpos]
      exact Function.update_self ..
    refine ⟨hpos ▸ hstep.2.1,?_,hplanes',fun hnone => ?_,fun w hw => ?_⟩
    · rw [hpos,cost_offer,Function.update_self]
      exact Function.update_self ..
    · exact absurd (hnone.symm.trans hnote) (Option.some_ne_none cur).symm
    · obtain rfl := Option.some.inj (hw.symm.trans hnote)
      refine ⟨hcur,hpos ▸ hstep,?_⟩
      rw [hold hcur,hpos,cost_offer,Function.update_self,hg]
  · have hu := h u (hmem.resolve_left fun heq => hpos (congrArg Node.pos heq))
    have hcost : (s.offer cur v g_x).cost u.pos = s.cost u.pos := by
      rw [cost_offer,Function.update_of_ne hpos]
    have hnote : (s.offer cur v g_x).pathMap u.pos = s.pathMap u.pos :=
      Function.update_of_ne hpos ..
    refine ⟨hu.inside,?_,hplanes',fun hnone => ?_,fun w hw => ?_⟩
    · rw [hcost]
      exact (Function.update_of_ne hpos ..).trans hu.scored
    · rw [hcost]
      exact hu.first (hnote.symm.trans hnone)
    · obtain ⟨hw,hstep',hsum⟩ := hu.later w (hnote.symm.trans hw)
      rw [hcost,hold hw]
      exact ⟨hw,hstep',hsum⟩

namespace Expanding

/-- Neighbours may be passed over. -/
theorem skip (h : Expanding map attack strategy s cur E) (hE : ∀ q ∈ E, q ∈ E' ∨ q = p)
    (hp : p ∈ positions s.visited ∨ (p ∈ positions s.queue ∧
      s.cost p ≤ s.cost cur.pos+map.cellCost attack strategy p)) :
    Expanding map attack strategy s cur E' :=
  { h with frontier := h.frontier.skip hE hp }

theorem offer (h : Expanding map attack strategy s cur E) (hmap : map.Playable)
    (hattack : ∀ order, 1 ≤ attack order) (hE : ∀ q ∈ E, q ∈ E' ∨ q = v.pos)
    (hstep : map.Step cur.pos v.pos) (hnew : v.pos ∉ positions s.visited)
    (hless : v.pos ∈ positions s.queue →
      s.cost cur.pos+map.cellCost attack strategy v.pos ≤ s.cost v.pos)
    (hplanes : v.warplaneInfo_Estate.length = 5) :
    Expanding map attack strategy
      (s.offer cur v (s.cost cur.pos+map.cellCost attack strategy v.pos)) cur E' := by
  have hcur : cur.pos ∈ positions s.visited := ⟨cur,h.cur_mem,rfl⟩
  have hne {q : ℕ × ℕ} (hq : q ∈ positions s.visited) : v.pos ≠ q := fun heq => hnew (heq ▸ hq)
  refine ⟨⟨fun u hu => ?_,h.nodup,h.ongoing,?_⟩,h.cur_mem,h.opened,?_⟩
  · exact Known.offer rfl h.cur_mem hstep hnew hplanes h.known hu
  · rw [cost_offer]
    change Frontier _ _ _ _ _ (positions (s.queue.eraseP _++[v])) _ _
    rw [positions_offer]
    exact h.frontier.offer hE hcur hstep hnew h.opened hless
  · rw [cost_offer]
    change Eager _ _ _ (positions (s.queue.eraseP _++[v])) _
    rw [positions_offer]
    refine h.eager.offer (GameMap.consistent hmap hattack) ?_ hstep (hne h.opened) (hne hcur)
    rw [GameMap.cellCost_end hmap hattack,GameMap.potential_end,add_zero]
    exact map.potential_nonneg _

/-- One neighbour. -/
theorem relax (h : Expanding map attack strategy s cur E) (hmap : map.Playable)
    (hattack : ∀ order, 1 ≤ attack order) {neighbor : Option Node}
    (hn : ∀ n, neighbor = some n → map.Step cur.pos n.pos ∧
      map.getValue n.pos.2 n.pos.1 = some (some n))
    (hE : ∀ q ∈ E, q ∈ E' ∨ ∃ n, neighbor = some n ∧ n.pos = q) :
    ∃ t, Pathfinding.relax (exact attack) strategy cur s neighbor = some t ∧
      (t.visited = s.visited ∧ t.path = s.path) ∧ Expanding map attack strategy t cur E' := by
  cases neighbor with
  | none =>
    refine ⟨s,rfl,⟨rfl,rfl⟩,h.skip (p := cur.pos) (fun q hq => .inl ?_) (.inl ⟨cur,h.cur_mem,rfl⟩)⟩
    obtain hq | ⟨n,hn,-⟩ := hE q hq
    · exact hq
    · cases hn
  | some n =>
    obtain ⟨hstep,hvalue⟩ := hn n rfl
    have hE (q : ℕ × ℕ) (hq : q ∈ E) : q ∈ E' ∨ q = n.pos := by
      refine (hE q hq).imp_right ?_
      rintro ⟨m,hm,rfl⟩
      exact congrArg Node.pos (Option.some.inj hm).symm
    by_cases hvisited : ∃ u ∈ s.visited, u.pos = n.pos
    · exact ⟨s,if_pos hvisited,⟨rfl,rfl⟩,h.skip hE (.inl hvisited)⟩
    obtain ⟨m,hm,-,hcost,hreach⟩ := GameMap.cell_spec hmap hattack hstep.2.1 strategy
    obtain rfl : n = m := Option.some.inj (Option.some.inj (hvalue.symm.trans hm))
    have hcur := h.known cur (List.mem_append_left _ h.cur_mem)
    obtain ⟨v,hv,hpos,hplanes⟩ := hreach cur hcur.planes
    have hqueued (hmem : ∃ u ∈ s.queue, u.pos = n.pos) :
        s.gScore n.pos = some (s.cost n.pos) := by
      obtain ⟨u,hu,hpos⟩ := hmem
      exact hpos ▸ (h.known u (List.mem_append_right _ hu)).scored
    have hoffer (hless : n.pos ∈ positions s.queue →
        s.cost cur.pos+map.cellCost attack strategy n.pos ≤ s.cost n.pos) :
        Expanding map attack strategy
          (s.offer cur v (s.cost cur.pos+map.cellCost attack strategy n.pos)) cur E' := by
      rw [← hpos] at hE hstep hvisited hless ⊢
      exact h.offer hmap hattack hE hstep hvisited hless hplanes
    rw [relax_eq hvisited hcur.scored hcost hv hpos hqueued]
    split_ifs with hless
    · exact ⟨_,rfl,⟨rfl,rfl⟩,hoffer fun hmem => (of_decide_eq_true (hless hmem)).le⟩
    · obtain ⟨hmem,hle⟩ := Classical.not_imp.mp hless
      refine ⟨s,rfl,⟨rfl,rfl⟩,h.skip hE (.inr ⟨hmem,not_lt.mp fun hlt => hle ?_⟩)⟩
      exact decide_eq_true hlt

/-- All neighbours. -/
theorem foldlM {neighbors : List (Option Node)}
    (h : Expanding map attack strategy s cur {q | ∃ n, some n ∈ neighbors ∧ n.pos = q})
    (hmap : map.Playable) (hattack : ∀ order, 1 ≤ attack order)
    (hn : ∀ n, some n ∈ neighbors → map.Step cur.pos n.pos ∧
      map.getValue n.pos.2 n.pos.1 = some (some n)) :
    ∃ t, neighbors.foldlM (Pathfinding.relax (exact attack) strategy cur) s = some t ∧
      (t.visited = s.visited ∧ t.path = s.path) ∧ Expanding map attack strategy t cur ∅ := by
  induction neighbors generalizing s with
  | nil =>
    refine ⟨s,rfl,⟨rfl,rfl⟩,h.skip (p := cur.pos) (fun q hq => ?_) (.inl ⟨cur,h.cur_mem,rfl⟩)⟩
    obtain ⟨n,hn,-⟩ := hq
    exact absurd hn List.not_mem_nil
  | cons neighbor neighbors ih =>
    have hE (q : ℕ × ℕ) (hq : ∃ n, some n ∈ neighbor::neighbors ∧ n.pos = q) :
        q ∈ {q | ∃ n, some n ∈ neighbors ∧ n.pos = q} ∨ ∃ n, neighbor = some n ∧ n.pos = q := by
      obtain ⟨n,hn,rfl⟩ := hq
      obtain hn | hn := List.mem_cons.mp hn
      · exact .inr ⟨n,hn.symm,rfl⟩
      · exact .inl ⟨n,hn,rfl⟩
    obtain ⟨u,hu,⟨hvisited,hpath⟩,hexpanding⟩ := h.relax hmap hattack
      (fun n heq => hn n (heq ▸ List.mem_cons_self)) hE
    obtain ⟨t,ht,⟨hvisited',hpath'⟩,hdone⟩ :=
      ih hexpanding fun n hmem => hn n (List.mem_cons_of_mem _ hmem)
    refine ⟨t,?_,⟨hvisited'.trans hvisited,hpath'.trans hpath⟩,hdone⟩
    rw [List.foldlM_cons,hu]
    exact ht

end Expanding

end PucRio.Pathfinding
