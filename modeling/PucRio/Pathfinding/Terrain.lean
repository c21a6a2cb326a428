import Mathlib.Algebra.Order.Ring.Abs
import Mathlib.Algebra.Order.Ring.Cast
import Mathlib.Algebra.Order.Ring.Rat
import Mathlib.Tactic.Linarith
import PucRio.Lib.BestFirst
import PucRio.Pathfinding.PlaneEnergy

/-! The map as the search sees it: cells with four neighbours each, what it costs to enter them, and
how far they are from the end. -/
namespace PucRio.Pathfinding
open PucRio.BestFirst

/-- Costs are rational numbers. -/
def exact (attack : ℕ → ℚ) : Costs ℚ := ⟨0,(·+·),(decide <| · < ·),fun z => z,attack⟩

/-- The Manhattan distance. -/
def Node.getHeuristic (node endNode : Node) : ℤ :=
  |(node.X : ℤ)-endNode.X|+|(node.Y : ℤ)-endNode.Y|

theorem Cells.getCost_nonneg : ∀ {type : Cells}, type ≠ .ENEMYBASE → 0 ≤ type.getCost
  | .ENEMYBASE,h => (h rfl).elim
  | .MOUNTAIN,_ | .PLAIN,_ | .ROCK,_ | .ENEMYAA,_ | .START,_ | .END,_ => by decide

theorem Cells.one_le_getCost : ∀ {type : Cells}, type ≠ .ENEMYBASE → type ≠ .START → type ≠ .END →
    1 ≤ type.getCost
  | .ENEMYBASE,h,_,_ => (h rfl).elim
  | .START,_,h,_ => (h rfl).elim
  | .END,_,_,h => (h rfl).elim
  | .MOUNTAIN,_,_,_ | .PLAIN,_,_,_ | .ROCK,_,_,_ | .ENEMYAA,_,_,_ => by decide

namespace GameMap

/-- The characters of the tiles. -/
def tiles : List Char :=
  ['M', '.', 'R', 'C', '0', '1', '2', '3', '4', '5', '6', '7', '8', '9', 'A', 'I', 'F']

/-- All rows are of one length, all tiles are known, and there is one start and one end. -/
structure Playable (map : GameMap) : Prop where
  rectangular : ∀ row ∈ map.mapData, row.length = map.nColumns
  known : ∀ row ∈ map.mapData, ∀ tileType ∈ row, tileType ∈ tiles
  one_start : ∃! p : ℕ × ℕ, map.tile p.1 p.2 = some Cells.START.asChar
  one_end : ∃! p : ℕ × ℕ, map.tile p.1 p.2 = some Cells.END.asChar

/-- A column and a row of the map, from one on. -/
def Inside (map : GameMap) (p : ℕ × ℕ) : Prop :=
  (1 ≤ p.1 ∧ p.1 ≤ map.nColumns) ∧ 1 ≤ p.2 ∧ p.2 ≤ map.nRows

/-- A step to the north, the south, the west or the east. -/
def Step (map : GameMap) (p q : ℕ × ℕ) : Prop :=
  map.Inside p ∧ map.Inside q ∧ ((p.1 = q.1 ∧ (p.2 = q.2+1 ∨ q.2 = p.2+1)) ∨
    (p.2 = q.2 ∧ (p.1 = q.1+1 ∨ q.1 = p.1+1)))

/-- The type and the order of a tile, as `getValue` reads it. -/
def cellOf (tileType : Char) : Option Cells × Option ℕ :=
  if tileType = Cells.MOUNTAIN.asChar then (some .MOUNTAIN,none)
  else if tileType = Cells.PLAIN.asChar then (some .PLAIN,none)
  else if tileType = Cells.ROCK.asChar then (some .ROCK,none)
  else if tileType = Cells.ENEMYAA.asChar then (some .ENEMYAA,none)
  else if (enemyBases tileType).isSome then (some .ENEMYBASE,enemyBases tileType)
  else if tileType = Cells.START.asChar then (some .START,none)
  else if tileType = Cells.END.asChar then (some .END,none)
  else (none,none)

variable {map : GameMap} {p q : ℕ × ℕ} {tileType : Char} {attack : ℕ → ℚ} {strategy : Strategy}

theorem tile_of_inside (hmap : map.Playable) (hp : map.Inside p) :
    ∃ tileType ∈ tiles, map.tile (p.2-1) (p.1-1) = some tileType := by
  obtain ⟨⟨hcolumn,hcolumns⟩,hrow,hrows⟩ := hp
  have hrows : p.2 ≤ map.mapData.length := hrows
  have hlt : p.2-1 < map.mapData.length := by omega
  have hmem : map.mapData[p.2-1] ∈ map.mapData := List.getElem_mem hlt
  have hlength := hmap.rectangular _ hmem
  have hlt' : p.1-1 < map.mapData[p.2-1].length := by omega
  refine ⟨_,hmap.known _ hmem _ (List.getElem_mem hlt'),?_⟩
  rw [tile,List.getElem?_eq_getElem hlt,Option.bind_some,List.getElem?_eq_getElem hlt']

theorem getValue_of_tile (hp : map.Inside p) (h : map.tile (p.2-1) (p.1-1) = some tileType) :
    map.getValue p.2 p.1 = some (some ⟨p.1,p.2,(cellOf tileType).1,(cellOf tileType).2,[]⟩) := by
  obtain ⟨⟨hcolumn,hcolumns⟩,hrow,hrows⟩ := hp
  let node (type : Option Cells × Option ℕ) : Node := ⟨p.1,p.2,type.1,type.2,[]⟩
  change _ = some (some (node (cellOf tileType)))
  rw [getValue,if_neg (by omega),if_neg (by omega),h,Option.map_some,cellOf]
  simp only [apply_ite node]
  rfl

/-- The tiles are tried one by one (and not all characters). -/
theorem forall_tiles {P : Char → Prop} [DecidablePred P]
    (h : (tiles.all fun tileType => decide (P tileType)) = true) : ∀ tileType ∈ tiles, P tileType :=
  fun tileType hmem => of_decide_eq_true (List.all_eq_true.mp h tileType hmem)

theorem cellOf_isSome : ∀ tileType ∈ tiles, (cellOf tileType).1.isSome = true :=
  forall_tiles (by decide)

theorem cellOf_base : ∀ tileType ∈ tiles, (cellOf tileType).1 = some .ENEMYBASE →
    ((cellOf tileType).2.any fun order => 1 ≤ order ∧ order ≤ 11) = true :=
  forall_tiles (by decide)

theorem cellOf_start : ∀ tileType ∈ tiles, (cellOf tileType).1 = some .START →
    tileType = Cells.START.asChar := forall_tiles (by decide)

theorem cellOf_end : ∀ tileType ∈ tiles, (cellOf tileType).1 = some .END →
    tileType = Cells.END.asChar := forall_tiles (by decide)

/-- What it costs to enter a cell. -/
def cellCost (map : GameMap) (attack : ℕ → ℚ) (strategy : Strategy) (p : ℕ × ℕ) : ℚ :=
  ((map.getValue p.2 p.1).join.bind (getTraversalCost (exact attack) strategy)).getD 0

/-- The cost of a tile that is neither the start nor the end is one at least. -/
theorem traversalCost_of_tile (hattack : ∀ order, 1 ≤ attack order) (h : tileType ∈ tiles)
    (column row : ℕ) (strategy : Strategy) : ∃ cost, getTraversalCost (exact attack) strategy
      ⟨column,row,(cellOf tileType).1,(cellOf tileType).2,[]⟩ = some cost ∧ 0 ≤ cost ∧
      (tileType ≠ Cells.START.asChar → tileType ≠ Cells.END.asChar → 1 ≤ cost) ∧
      (tileType = Cells.END.asChar → cost = 0) := by
  obtain ⟨type,htype⟩ := Option.isSome_iff_exists.mp (cellOf_isSome tileType h)
  have hend : tileType = Cells.END.asChar → type = .END := by
    rintro rfl
    exact Option.some.inj (htype.symm.trans rfl)
  by_cases hbase : type = .ENEMYBASE
  · subst hbase
    obtain ⟨order,horder,hrange⟩ := (Option.any_eq_true _ _).mp (cellOf_base tileType h htype)
    refine ⟨attack order,?_,zero_le_one.trans (hattack order),fun _ _ => hattack order,?_⟩
    · rw [getTraversalCost,if_pos htype,horder,Option.bind_some,bases,
        if_pos (of_decide_eq_true hrange)]
      rfl
    · exact fun heq => absurd (hend heq) (by decide)
  · refine ⟨type.getCost,?_,?_,?_,?_⟩
    · rw [getTraversalCost,htype,if_neg fun heq => hbase (Option.some.inj heq)]
      rfl
    · exact Int.cast_nonneg (Cells.getCost_nonneg hbase)
    · intro hs he
      refine Int.cast_one_le_of_pos (Cells.one_le_getCost hbase ?_ ?_)
      · rintro rfl
        exact hs (cellOf_start tileType h htype)
      · rintro rfl
        exact he (cellOf_end tileType h htype)
    · intro heq
      rw [hend heq]
      rfl

theorem length_attackWith {planes planes' : List WarPlaneInfo} {x : ℕ}
    (h : attackWith planes x = some planes') : planes'.length = planes.length := by
  obtain ⟨plane,-,rfl⟩ := Option.map_eq_some_iff.mp h
  exact List.length_set

theorem foldlM_attackWith {l : List ℕ} {planes : List WarPlaneInfo}
    (h : ∀ x ∈ l, x < planes.length) : ∃ planes', l.foldlM attackWith planes = some planes' ∧
      planes'.length = planes.length := by
  induction l generalizing planes with
  | nil => exact ⟨planes,rfl,rfl⟩
  | cons x l ih =>
    rw [List.forall_mem_cons] at h
    obtain ⟨planes₁,hx⟩ : ∃ planes₁, attackWith planes x = some planes₁ := by
      rw [attackWith,List.getElem?_eq_getElem h.1]
      exact ⟨_,rfl⟩
    have hlength := length_attackWith hx
    obtain ⟨planes',hl,hlength'⟩ := ih fun y hy => hlength ▸ h.2 y hy
    refine ⟨planes',?_,hlength'.trans hlength⟩
    rw [List.foldlM_cons,hx]
    exact hl

/-- The five planes can go to any cell. -/
theorem reach_of_tile (h : tileType ∈ tiles) {curNode : Node}
    (hplanes : curNode.warplaneInfo_Estate.length = 5) (column row : ℕ) : ∃ v,
      reach (exact attack) strategy curNode
        ⟨column,row,(cellOf tileType).1,(cellOf tileType).2,[]⟩ = some v ∧
      v.pos = (column,row) ∧ v.warplaneInfo_Estate.length = 5 := by
  have hcopy : (curNode.warplaneInfo_Estate.map fun x =>
      (⟨x.name,x.firepower,x.energy⟩ : WarPlaneInfo)).length = 5 := by
    rw [List.length_map,hplanes]
  by_cases hbase : (cellOf tileType).1 = some .ENEMYBASE
  · obtain ⟨order,horder,hrange⟩ := (Option.any_eq_true _ _).mp (cellOf_base tileType h hbase)
    have hlt (x : ℕ) (hx : x ∈ airplanes strategy (order-1)) := (mem_airplanes.mp hx).1
    rw [← hcopy] at hlt
    obtain ⟨planes,hfold,hlength⟩ := foldlM_attackWith hlt
    refine ⟨⟨column,row,(cellOf tileType).1,(cellOf tileType).2,planes⟩,?_,rfl,
      hlength.trans hcopy⟩
    rw [reach,if_pos hbase,horder,Option.bind_some,bases,if_pos (of_decide_eq_true hrange),
      Option.bind_some]
    exact congrArg (Option.map _) hfold
  · rw [reach,if_neg hbase]
    exact ⟨_,rfl,rfl,hcopy⟩

theorem exists_last_of_tile {i j : ℕ} (hi : i < map.nRows) (hj : j < map.nColumns)
    (h : map.tile i j = some tileType) :
    ∃ i j, map.tile i j = some tileType ∧ map.last tileType = (j+1,i+1) := by
  have hmem : (i,j) ∈ (List.range map.nRows).flatMap fun i =>
      (List.range map.nColumns).map fun j => (i,j) :=
    List.mem_flatMap.mpr ⟨i,List.mem_range.mpr hi,List.mem_map.mpr ⟨j,List.mem_range.mpr hj,rfl⟩⟩
  unfold last
  generalize (List.range map.nRows).flatMap _ = cells at hmem
  induction cells using List.reverseRecOn with
  | nil => cases hmem
  | append_singleton cells p ih =>
    rw [List.foldl_append,List.foldl_cons,List.foldl_nil]
    split_ifs with hp
    · exact ⟨p.1,p.2,hp,rfl⟩
    · obtain hmem | hmem := List.mem_append.mp hmem
      · exact ih hmem
      · exact absurd (List.mem_singleton.mp hmem ▸ h) hp

theorem lt_of_tile (h : ∀ row ∈ map.mapData, row.length = map.nColumns) {i j : ℕ}
    (hij : map.tile i j = some tileType) : i < map.nRows ∧ j < map.nColumns := by
  obtain ⟨row,hrow,hj⟩ := Option.bind_eq_some_iff.mp hij
  refine ⟨(List.getElem?_eq_some_iff.mp hrow).1,?_⟩
  rw [← h row (List.mem_of_getElem? hrow)]
  exact (List.getElem?_eq_some_iff.mp hj).1

/-- Where a tile is that the map has once. -/
theorem Playable.place (hmap : map.Playable)
    (h : ∃! p : ℕ × ℕ, map.tile p.1 p.2 = some tileType) : map.Inside (map.last tileType) ∧
      ∀ p, map.Inside p → (map.tile (p.2-1) (p.1-1) = some tileType ↔ p = map.last tileType) := by
  obtain ⟨q,hq,huniq⟩ := h
  obtain ⟨hrow,hcolumn⟩ := lt_of_tile hmap.rectangular hq
  obtain ⟨i,j,hij,hlast⟩ := exists_last_of_tile hrow hcolumn hq
  have hlt := lt_of_tile hmap.rectangular hij
  rw [hlast]
  refine ⟨⟨⟨Nat.succ_pos j,hlt.2⟩,Nat.succ_pos i,hlt.1⟩,fun p hp => ⟨fun htile => ?_,?_⟩⟩
  · have heq : (p.2-1,p.1-1) = (i,j) := (huniq (p.2-1,p.1-1) htile).trans (huniq (i,j) hij).symm
    obtain ⟨hrow,hcolumn⟩ := Prod.mk.inj heq
    obtain ⟨⟨hp1,-⟩,hp2,-⟩ := hp
    ext <;> dsimp only <;> omega
  · rintro rfl
    exact hij

/-- A cell of the map can be entered. -/
theorem cell_spec (hmap : map.Playable) (hattack : ∀ order, 1 ≤ attack order) (hp : map.Inside p)
    (strategy : Strategy) :
    ∃ n, map.getValue p.2 p.1 = some (some n) ∧ n.pos = p ∧
      getTraversalCost (exact attack) strategy n = some (map.cellCost attack strategy p) ∧
      ∀ curNode : Node, curNode.warplaneInfo_Estate.length = 5 →
        ∃ v, reach (exact attack) strategy curNode n = some v ∧ v.pos = p ∧
          v.warplaneInfo_Estate.length = 5 := by
  obtain ⟨tileType,hmem,htile⟩ := tile_of_inside hmap hp
  have hvalue := getValue_of_tile hp htile
  obtain ⟨cost,hcost,-⟩ := traversalCost_of_tile hattack hmem p.1 p.2 strategy
  refine ⟨_,hvalue,rfl,?_,fun curNode hplanes => reach_of_tile hmem hplanes p.1 p.2⟩
  rw [cellCost,hvalue,Option.join_some,Option.bind_some,hcost]
  rfl

theorem cellCost_of_not_inside (hp : ¬map.Inside p) : map.cellCost attack strategy p = 0 := by
  rw [cellCost,getValue]
  by_cases hlarge : map.nRows < p.2 ∨ map.nColumns < p.1
  · rw [if_pos hlarge]
    rfl
  · have hzero : p.2 = 0 ∨ p.1 = 0 := by
      by_contra hne
      exact hp ⟨⟨by omega,by omega⟩,by omega,by omega⟩
    rw [if_neg hlarge,if_pos hzero]
    rfl

theorem cellCost_of_tile (hattack : ∀ order, 1 ≤ attack order) (hp : map.Inside p)
    (h : tileType ∈ tiles) (htile : map.tile (p.2-1) (p.1-1) = some tileType) :
    0 ≤ map.cellCost attack strategy p ∧
      (tileType ≠ Cells.START.asChar → tileType ≠ Cells.END.asChar →
        1 ≤ map.cellCost attack strategy p) ∧
      (tileType = Cells.END.asChar → map.cellCost attack strategy p = 0) := by
  obtain ⟨cost,hcost,hrest⟩ := traversalCost_of_tile hattack h p.1 p.2 strategy
  have heq : map.cellCost attack strategy p = cost := by
    rw [cellCost,getValue_of_tile hp htile,Option.join_some,Option.bind_some,hcost]
    rfl
  rw [heq]
  exact hrest

theorem cellCost_nonneg (hmap : map.Playable) (hattack : ∀ order, 1 ≤ attack order)
    (p : ℕ × ℕ) : 0 ≤ map.cellCost attack strategy p := by
  by_cases hp : map.Inside p
  · obtain ⟨tileType,hmem,htile⟩ := tile_of_inside hmap hp
    exact (cellCost_of_tile hattack hp hmem htile).1
  · rw [cellCost_of_not_inside hp]

theorem one_le_cellCost (hmap : map.Playable) (hattack : ∀ order, 1 ≤ attack order)
    (hp : map.Inside p) (hstart : p ≠ map.last Cells.START.asChar)
    (hend : p ≠ map.last Cells.END.asChar) : 1 ≤ map.cellCost attack strategy p := by
  obtain ⟨tileType,hmem,htile⟩ := tile_of_inside hmap hp
  refine (cellCost_of_tile hattack hp hmem htile).2.1 ?_ ?_
  · rintro rfl
    exact hstart (((hmap.place hmap.one_start).2 p hp).mp htile)
  · rintro rfl
    exact hend (((hmap.place hmap.one_end).2 p hp).mp htile)

theorem cellCost_end (hmap : map.Playable) (hattack : ∀ order, 1 ≤ attack order) :
    map.cellCost attack strategy (map.last Cells.END.asChar) = 0 := by
  obtain ⟨hp,htile⟩ := hmap.place hmap.one_end
  exact (cellCost_of_tile hattack hp (by decide) ((htile _ hp).mpr rfl)).2.2 rfl

theorem start_ne_end (hmap : map.Playable) :
    map.last Cells.START.asChar ≠ map.last Cells.END.asChar := by
  intro heq
  obtain ⟨hs,hstart⟩ := hmap.place hmap.one_start
  obtain ⟨he,hend⟩ := hmap.place hmap.one_end
  have htile := (hstart _ hs).mpr rfl
  rw [heq,(hend _ he).mpr rfl] at htile
  exact absurd (Option.some.inj htile) (by decide)

theorem exists_mapM {α β : Type} {f : α → Option β} {l : List α}
    (h : ∀ a ∈ l, ∃ b, f a = some b) :
    ∃ l', l.mapM f = some l' ∧ ∀ a ∈ l, ∀ b, f a = some b → b ∈ l' := by
  induction l with
  | nil => exact ⟨[],rfl,fun a ha => absurd ha List.not_mem_nil⟩
  | cons a l ih =>
    rw [List.forall_mem_cons] at h
    obtain ⟨b,hb⟩ := h.1
    obtain ⟨l',hl,hmem⟩ := ih h.2
    refine ⟨b::l',?_,List.forall_mem_cons.mpr ⟨fun c hc => ?_,fun x hx c hc => ?_⟩⟩
    · rw [List.mapM_cons,hb,hl]
      rfl
    · exact Option.some.inj (hb.symm.trans hc) ▸ List.mem_cons_self
    · exact List.mem_cons_of_mem b (hmem x hx c hc)

/-- The cells around one, as far as they are in the map. -/
theorem mem_around (hp : map.Inside p) (row column : ℕ) : (true,row,column) ∈
    [(decide (p.2 > 1),p.2-1,p.1),(decide (p.2+1 ≤ map.nRows),p.2+1,p.1),
      (decide (p.1 > 1),p.2,p.1-1),(decide (p.1+1 ≤ map.nColumns),p.2,p.1+1)] ↔
    map.Step p (column,row) := by
  unfold Step
  obtain ⟨⟨hcolumn,hcolumns⟩,hrow,hrows⟩ := hp
  simp only [List.mem_cons,List.not_mem_nil,or_false,Prod.mk.injEq,Inside,true_eq_decide_iff]
  omega

/-- The neighbours are just the cells a step away. -/
theorem getNeighbors_spec (hmap : map.Playable) (hp : map.Inside p) :
    ∃ neighbors, map.getNeighbors p.2 p.1 = some neighbors ∧
      (∀ n, some n ∈ neighbors → map.Step p n.pos ∧ map.getValue n.pos.2 n.pos.1 = some (some n)) ∧
      ∀ q, map.Step p q → ∃ n, some n ∈ neighbors ∧ n.pos = q := by
  have hvalue {q : ℕ × ℕ} (hq : map.Step p q) :
      ∃ n, map.getValue q.2 q.1 = some (some n) ∧ n.pos = q := by
    obtain ⟨tileType,-,htile⟩ := tile_of_inside hmap hq.2.1
    exact ⟨_,getValue_of_tile hq.2.1 htile,rfl⟩
  obtain ⟨neighbors,hneighbors,hmem⟩ := exists_mapM
    (f := fun e => if e.1 = true then map.getValue e.2.1 e.2.2 else some none)
    (l := [(decide (p.2 > 1),p.2-1,p.1),(decide (p.2+1 ≤ map.nRows),p.2+1,p.1),
      (decide (p.1 > 1),p.2,p.1-1),(decide (p.1+1 ≤ map.nColumns),p.2,p.1+1)]) <| by
    rintro ⟨d,row,column⟩ he
    cases d with
    | false => exact ⟨none,rfl⟩
    | true =>
      obtain ⟨n,hn,-⟩ := hvalue ((mem_around hp row column).mp he)
      exact ⟨some n,hn⟩
  refine ⟨neighbors,hneighbors,fun n hn => ?_,fun q hq => ?_⟩
  · obtain ⟨⟨d,row,column⟩,he,hd⟩ := exists_of_mem_mapM hneighbors hn
    cases d with
    | false => cases hd
    | true =>
      have hstep := (mem_around hp row column).mp he
      obtain ⟨m,hm,hpos⟩ := hvalue hstep
      obtain rfl : n = m := Option.some.inj (Option.some.inj (hd.symm.trans hm))
      rw [hpos]
      exact ⟨hstep,hm⟩
  · obtain ⟨n,hn,hpos⟩ := hvalue hq
    exact ⟨n,hmem _ ((mem_around hp q.2 q.1).mpr hq) _ hn,hpos⟩

section Estimate

/-- The end, as a node. -/
def endNode (map : GameMap) : Node :=
  let at' := map.last Cells.END.asChar
  ⟨at'.1,at'.2,some .END,none,[]⟩

def distance (p q : ℕ × ℕ) : ℤ := |(p.1 : ℤ)-q.1|+|(p.2 : ℤ)-q.2|

/-- How far the end is. -/
def estimate (map : GameMap) (p : ℕ × ℕ) : ℚ := (distance p (map.last Cells.END.asChar) : ℤ)

/-- One less everywhere but at the end: the last step is free. -/
def potential (map : GameMap) (p : ℕ × ℕ) : ℚ :=
  if p = map.last Cells.END.asChar then 0 else map.estimate p-1

theorem one_le_distance (h : p ≠ q) : 1 ≤ distance p q := by
  by_contra hlt
  apply h
  unfold distance at hlt
  have h1 := abs_nonneg ((p.1 : ℤ)-q.1)
  have h2 := abs_nonneg ((p.2 : ℤ)-q.2)
  have hcolumn : |(p.1 : ℤ)-q.1| = 0 := by omega
  have hrow : |(p.2 : ℤ)-q.2| = 0 := by omega
  rw [abs_eq_zero] at hcolumn hrow
  ext <;> omega

theorem abs_sub_eq_one {m n : ℕ} (h : m = n+1 ∨ n = m+1) : |(m : ℤ)-n| = 1 := by
  obtain rfl | rfl := h
  · rw [Nat.cast_succ,add_sub_cancel_left,abs_one]
  · rw [Nat.cast_succ,sub_add_cancel_left,abs_neg,abs_one]

theorem distance_le_of_step (h : map.Step p q) (e : ℕ × ℕ) : distance p e ≤ distance q e+1 := by
  obtain ⟨-,-,⟨hcolumn,hrow⟩ | ⟨hrow,hcolumn⟩⟩ := h
  · have hle := abs_sub_le (p.2 : ℤ) q.2 e.2
    rw [abs_sub_eq_one hrow] at hle
    unfold distance
    rw [hcolumn]
    omega
  · have hle := abs_sub_le (p.1 : ℤ) q.1 e.1
    rw [abs_sub_eq_one hcolumn] at hle
    unfold distance
    rw [hrow]
    omega

theorem estimate_end (map : GameMap) : map.estimate (map.last Cells.END.asChar) = 0 := by
  rw [estimate,distance,sub_self,sub_self,abs_zero,add_zero,Int.cast_zero]

theorem one_le_estimate (h : p ≠ map.last Cells.END.asChar) : 1 ≤ map.estimate p := by
  unfold estimate
  exact_mod_cast one_le_distance h

theorem estimate_le_of_step (h : map.Step p q) : map.estimate p ≤ map.estimate q+1 := by
  unfold estimate
  exact_mod_cast distance_le_of_step h (map.last Cells.END.asChar)

theorem potential_end (map : GameMap) : map.potential (map.last Cells.END.asChar) = 0 :=
  if_pos rfl

theorem potential_nonneg (map : GameMap) (p : ℕ × ℕ) : 0 ≤ map.potential p := by
  unfold potential
  split_ifs with h
  · exact le_rfl
  · exact sub_nonneg.mpr (one_le_estimate h)

theorem potential_le (h : map.Step p q) : map.potential p ≤ map.estimate q := by
  unfold potential
  split_ifs with hend
  · exact Int.cast_nonneg (add_nonneg (abs_nonneg _) (abs_nonneg _))
  · exact sub_le_iff_le_add.mpr (estimate_le_of_step h)

/-- The estimate is too large by one, since the end costs nothing. -/
theorem overestimates (map : GameMap) :
    Overestimates map.estimate map.potential (map.last Cells.END.asChar) 1 where
  pos := one_pos
  atGoal := map.estimate_end.trans map.potential_end.symm
  other p hp := by
    rw [potential,if_neg hp,sub_add_cancel]

theorem consistent (hmap : map.Playable) (hattack : ∀ order, 1 ≤ attack order) :
    Consistent map.Step (map.cellCost attack strategy) (map.last Cells.START.asChar)
      map.potential where
  nonneg := cellCost_nonneg hmap hattack
  step p q hstep hq := by
    have hle := potential_le hstep
    by_cases hend : q = map.last Cells.END.asChar
    · subst hend
      rw [estimate_end] at hle
      rwa [cellCost_end hmap hattack,potential_end,add_zero]
    · have hcost : 1 ≤ map.cellCost attack strategy q :=
        one_le_cellCost hmap hattack hstep.2.1 hq hend
      have hq : map.potential q = map.estimate q-1 := if_neg hend
      linarith

end Estimate

end GameMap

end PucRio.Pathfinding
