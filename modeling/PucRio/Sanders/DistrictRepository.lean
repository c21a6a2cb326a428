import Mathlib.Data.Nat.Sqrt
import Mathlib.Data.Finset.Card
import Mathlib.Data.Finset.Image
import Mathlib.Order.Interval.Finset.Nat
import Mathlib.Tactic.Ring
import PucRio.Sanders.MutualExclusion

/-! The districts that `genCoteries` prints: the nodes of a square grid, numbered from 1 row after
row, have the rest of their row and column as their district. -/
namespace PucRio.Sanders
variable {α β : Type*}

/-- `data[i][j] = k++` along a row; the state is `k` and `data`. -/
def fillRow (columns i : ℕ) (s : ℕ × (ℕ → ℕ → ℕ)) : ℕ × (ℕ → ℕ → ℕ) :=
  (List.range columns).foldl
    (fun s j => (s.1+1,Function.update s.2 i (Function.update (s.2 i) j s.1))) s

def data (columns : ℕ) : ℕ → ℕ → ℕ :=
  ((List.range columns).foldl (fun s i => fillRow columns i s) (1,fun _ _ => 0)).2

def coterie (columns i j : ℕ) : Finset ℕ :=
  ((List.range columns).foldl
    (fun coterie k => insert (data columns k j) (insert (data columns i k) coterie))
      (∅ : Finset ℕ)).erase
      (data columns i j)

/-- `generatedCoteries`, a map of the nodes to their districts. -/
def genCoteries (nodeCount : ℕ) : ℕ → Option (Finset ℕ) :=
  let columns := Nat.sqrt nodeCount
  (List.range columns).foldl (fun coteries i =>
    (List.range columns).foldl (fun coteries j =>
      Function.update coteries (data columns i j) (some (coterie columns i j))) coteries) fun _ => none

section Grid
variable {c i j k l : ℕ}

theorem fillRow_range (i t : ℕ) (s : ℕ × (ℕ → ℕ → ℕ)) :
    (List.range t).foldl
        (fun s j => (s.1+1,Function.update s.2 i (Function.update (s.2 i) j s.1))) s =
      (s.1+t,fun i' j => if i' = i ∧ j < t then s.1+j else s.2 i' j) := by
  induction t with
  | zero => simp
  | succ t ih =>
    rw [List.range_succ,List.foldl_append,ih]
    refine Prod.ext (by simp; omega) ?_
    funext i' j
    by_cases hi : i' = i
    · subst hi
      by_cases hj : j = t
      · simp [hj]
      · simp only [List.foldl_cons,List.foldl_nil,Function.update_self,Function.update_of_ne hj]
        refine if_congr (and_congr_right fun _ => ?_) rfl rfl
        omega
    · simp [hi]

theorem fillRow_eq (c i : ℕ) (s : ℕ × (ℕ → ℕ → ℕ)) : fillRow c i s =
    (s.1+c,fun i' j => if i' = i ∧ j < c then s.1+j else s.2 i' j) := fillRow_range i c s

/-- The counter runs through the numbers row after row. -/
theorem data_eq (hi : i < c) (hj : j < c) : data c i j = i*c+j+1 := by
  have rows (r : ℕ) : (List.range r).foldl (fun s i => fillRow c i s) (1,fun _ _ => 0) =
      (r*c+1,fun i j => if i < r ∧ j < c then i*c+j+1 else 0) := by
    induction r with
    | zero => simp
    | succ r ih =>
      rw [List.range_succ,List.foldl_append,ih,List.foldl_cons,List.foldl_nil,fillRow_eq]
      refine Prod.ext (by simp; ring) ?_
      funext i j
      by_cases hr : i = r
      · subst hr
        by_cases hj : j < c
        · simp [hj]
          omega
        · simp [hj]
      · simp only [hr,false_and,if_false]
        refine if_congr ?_ rfl rfl
        omega
  rw [data,rows]
  exact if_pos ⟨hi,hj⟩

theorem data_inj (hi : i < c) (hj : j < c) (hk : k < c) (hl : l < c) :
    data c i j = data c k l ↔ i = k ∧ j = l := by
  rw [data_eq hi hj,data_eq hk hl]
  constructor
  · intro h
    have hdiv : (i*c+j)/c = (k*c+l)/c := congrArg (·/c) (Nat.succ.inj h)
    have hpos : 0 < c := by omega
    rw [Nat.mul_comm,Nat.mul_add_div hpos,Nat.div_eq_of_lt hj,Nat.mul_comm k,Nat.mul_add_div hpos,
      Nat.div_eq_of_lt hl] at hdiv
    obtain rfl : i = k := hdiv
    exact ⟨rfl,by omega⟩
  · rintro ⟨rfl,rfl⟩
    rfl

/-- Every number up to `c*c` is in the grid. -/
theorem exists_data {n : ℕ} (hn : n ∈ Finset.Icc 1 (c*c)) :
    ∃ i j, i < c ∧ j < c ∧ n = data c i j := by
  obtain ⟨h1,hc⟩ := Finset.mem_Icc.mp hn
  have hpos : 0 < c := by
    rcases Nat.eq_zero_or_pos c with rfl | h
    · omega
    · exact h
  have hi : (n-1)/c < c := (Nat.div_lt_iff_lt_mul hpos).mpr (by omega)
  refine ⟨(n-1)/c,(n-1)%c,hi,Nat.mod_lt _ hpos,?_⟩
  rw [data_eq hi (Nat.mod_lt _ hpos),Nat.mul_comm,Nat.div_add_mod]
  omega

theorem data_mem (hi : i < c) (hj : j < c) : data c i j ∈ Finset.Icc 1 (c*c) := by
  have hrow : (i+1)*c ≤ c*c := Nat.mul_le_mul_right c hi
  rw [Nat.succ_mul] at hrow
  rw [Finset.mem_Icc,data_eq hi hj]
  omega

end Grid

section Maps
variable [DecidableEq α] {ι : Type*} {key : ι → α} {value : ι → β} {x : α}

theorem foldl_update_of_ne (l : List ι) (m : α → β) (h : ∀ a ∈ l, key a ≠ x) :
    l.foldl (fun m a => Function.update m (key a) (value a)) m x = m x := by
  induction l generalizing m with
  | nil => rfl
  | cons a l ih =>
    rw [List.foldl_cons,ih _ fun b hb => h b (List.mem_cons_of_mem a hb)]
    exact Function.update_of_ne (h a List.mem_cons_self).symm _ _

theorem foldl_update_of_mem {l : List ι} (m : α → β) {a : ι} (ha : a ∈ l)
    (hinj : ∀ b ∈ l, key b = key a → b = a) :
    l.foldl (fun m a => Function.update m (key a) (value a)) m (key a) = value a := by
  induction l generalizing m with
  | nil => cases ha
  | cons b l ih =>
    rw [List.foldl_cons]
    by_cases hl : a ∈ l
    · exact ih _ hl fun b' hb => hinj b' (List.mem_cons_of_mem b hb)
    · obtain rfl : a = b := (List.mem_cons.mp ha).resolve_right hl
      rw [foldl_update_of_ne]
      · exact Function.update_self _ _ _
      · intro b hb heq
        exact hl (hinj b (List.mem_cons_of_mem a hb) heq ▸ hb)

end Maps

section District
variable {c i j k l : ℕ}

theorem genCoteries_data (hi : i < c) (hj : j < c) :
    genCoteries (c*c) (data c i j) = some (coterie c i j) := by
  have rows (r : ℕ) (hr : r ≤ c) (hir : i < r) : (List.range r).foldl (fun coteries i =>
      (List.range c).foldl (fun coteries j =>
        Function.update coteries (data c i j) (some (coterie c i j))) coteries)
          (fun _ => none) (data c i j) = some (coterie c i j) := by
    induction r with
    | zero => omega
    | succ r ih =>
      rw [List.range_succ,List.foldl_append,List.foldl_cons,List.foldl_nil]
      by_cases hlast : i = r
      · subst hlast
        apply foldl_update_of_mem _ (List.mem_range.mpr hj)
        intro l hl heq
        exact ((data_inj hi (List.mem_range.mp hl) hi hj).mp heq).2
      · rw [foldl_update_of_ne]
        · exact ih (by omega) (by omega)
        · intro l hl heq
          exact hlast ((data_inj (by omega) (List.mem_range.mp hl) hi hj).mp heq).1.symm
  rw [genCoteries,Nat.sqrt_eq]
  exact rows c le_rfl hi

theorem mem_coterie_iff {n : ℕ} : n ∈ coterie c i j ↔
    n ≠ data c i j ∧ ∃ k, k < c ∧ (n = data c i k ∨ n = data c k j) := by
  have run (t : ℕ) : n ∈ (List.range t).foldl
      (fun coterie k => insert (data c k j) (insert (data c i k) coterie)) (∅ : Finset ℕ) ↔
        ∃ k, k < t ∧ (n = data c i k ∨ n = data c k j) := by
    induction t with
    | zero => simp
    | succ t ih =>
      rw [List.range_succ,List.foldl_append,List.foldl_cons,List.foldl_nil,Finset.mem_insert,
        Finset.mem_insert,ih]
      constructor
      · rintro (h | h | ⟨k,hk,h⟩)
        · exact ⟨t,Nat.lt_succ_self t,.inr h⟩
        · exact ⟨t,Nat.lt_succ_self t,.inl h⟩
        · exact ⟨k,Nat.lt_succ_of_lt hk,h⟩
      · rintro ⟨k,hk,h⟩
        by_cases hkt : k = t
        · subst hkt
          exact h.elim (fun h => .inr (.inl h)) .inl
        · exact .inr (.inr ⟨k,by omega,h⟩)
  rw [coterie,Finset.mem_erase,run]

/-- A node's district is the rest of its row and of its column. -/
theorem data_mem_coterie (hi : i < c) (hj : j < c) (hk : k < c) (hl : l < c) :
    data c k l ∈ coterie c i j ↔ (k = i ∨ l = j) ∧ ¬ (k = i ∧ l = j) := by
  rw [mem_coterie_iff,ne_eq,data_inj hk hl hi hj,and_comm]
  refine and_congr_left fun _ => ⟨?_,?_⟩
  · rintro ⟨t,ht,h | h⟩
    · exact .inl ((data_inj hk hl hi ht).mp h).1
    · exact .inr ((data_inj hk hl ht hj).mp h).2
  · rintro (rfl | rfl)
    · exact ⟨l,hl,.inl rfl⟩
    · exact ⟨k,hk,.inr rfl⟩

theorem coterie_subset (hi : i < c) (hj : j < c) : coterie c i j ⊆ Finset.Icc 1 (c*c) := by
  intro n hn
  obtain ⟨-,k,hk,rfl | rfl⟩ := mem_coterie_iff.mp hn
  · exact data_mem hi hk
  · exact data_mem hk hj

theorem card_coterie (hi : i < c) (hj : j < c) : (coterie c i j).card = 2*(c-1) := by
  let row := (Finset.range c).image (data c i)
  let column := (Finset.range c).image fun k => data c k j
  have hrow : row.card = c := by
    rw [Finset.card_image_of_injOn,Finset.card_range]
    intro k hk l hl h
    exact ((data_inj hi (Finset.mem_range.mp hk) hi (Finset.mem_range.mp hl)).mp h).2
  have hcolumn : column.card = c := by
    rw [Finset.card_image_of_injOn,Finset.card_range]
    intro k hk l hl h
    exact ((data_inj (Finset.mem_range.mp hk) hj (Finset.mem_range.mp hl) hj).mp h).1
  have hinter : row ∩ column = {data c i j} := by
    ext n
    simp only [row,column,Finset.mem_inter,Finset.mem_image,Finset.mem_range,Finset.mem_singleton]
    constructor
    · rintro ⟨⟨k,hk,rfl⟩,l,hl,h⟩
      rw [((data_inj hl hj hi hk).mp h).2]
    · rintro rfl
      exact ⟨⟨j,hj,rfl⟩,i,hi,rfl⟩
  have hunion : coterie c i j = (row ∪ column).erase (data c i j) := by
    ext n
    simp only [mem_coterie_iff,row,column,Finset.mem_erase,Finset.mem_union,Finset.mem_image,
      Finset.mem_range]
    refine and_congr_right fun _ => ⟨?_,?_⟩
    · rintro ⟨k,hk,rfl | rfl⟩
      · exact .inl ⟨k,hk,rfl⟩
      · exact .inr ⟨k,hk,rfl⟩
    · rintro (⟨k,hk,rfl⟩ | ⟨k,hk,rfl⟩)
      · exact ⟨k,hk,.inl rfl⟩
      · exact ⟨k,hk,.inr rfl⟩
  have hmem : data c i j ∈ row ∪ column := by
    refine Finset.mem_union_left _ (Finset.mem_image.mpr ⟨j,Finset.mem_range.mpr hj,rfl⟩)
  have hcard := Finset.card_union_add_card_inter row column
  rw [hinter,hrow,hcolumn,Finset.card_singleton] at hcard
  rw [hunion,Finset.card_erase_of_mem hmem]
  omega

/-- In a grid of two rows the districts of neighbours have nothing in common. -/
theorem coterie_inter_iff (hi : i < c) (hj : j < c) (hk : k < c) (hl : l < c) (hne : ¬ (i = k ∧ j = l)) :
    (coterie c i j ∩ coterie c k l).Nonempty ↔ 3 ≤ c ∨ i ≠ k ∧ j ≠ l := by
  constructor
  · rintro ⟨n,hn⟩
    obtain ⟨h1,h2⟩ := Finset.mem_inter.mp hn
    obtain ⟨a,b,ha,hb,rfl⟩ := exists_data (coterie_subset hi hj h1)
    rw [data_mem_coterie hi hj ha hb] at h1
    rw [data_mem_coterie hk hl ha hb] at h2
    omega
  · intro h
    -- where one row crosses the other column, or a third place in a row or column that they share
    have hplace : ∃ a b, a < c ∧ b < c ∧ ((a = i ∨ b = j) ∧ ¬ (a = i ∧ b = j)) ∧
        (a = k ∨ b = l) ∧ ¬ (a = k ∧ b = l) := by
      have third (x y : ℕ) (hc : 3 ≤ c) : ∃ z, z < c ∧ z ≠ x ∧ z ≠ y := by
        by_contra hno
        push Not at hno
        have h0 := hno 0 (by omega)
        have h1 := hno 1 (by omega)
        have h2 := hno 2 (by omega)
        omega
      by_cases hrow : i = k
      · obtain ⟨b,hb,hbj,hbl⟩ := third j l (by omega)
        exact ⟨i,b,hi,hb,by omega,by omega⟩
      · by_cases hcol : j = l
        · obtain ⟨a,ha,hai,hak⟩ := third i k (by omega)
          exact ⟨a,j,ha,hj,by omega,by omega⟩
        · exact ⟨i,l,hi,hl,by omega,by omega⟩
    obtain ⟨a,b,ha,hb,h1,h2⟩ := hplace
    exact ⟨data c a b,Finset.mem_inter.mpr
      ⟨(data_mem_coterie hi hj ha hb).mpr h1,(data_mem_coterie hk hl ha hb).mpr h2⟩⟩

end District

section Districts
variable {c m n : ℕ}

/-- The district of a node of the square grid of `c` rows. -/
def district (c n : ℕ) : Finset ℕ := (genCoteries (c*c) n).getD ∅

theorem district_data {i j : ℕ} (hi : i < c) (hj : j < c) : district c (data c i j) = coterie c i j := by
  rw [district,genCoteries_data hi hj,Option.getD_some]

theorem genCoteries_eq (hn : n ∈ Finset.Icc 1 (c*c)) :
    genCoteries (c*c) n = some (district c n) := by
  obtain ⟨i,j,hi,hj,rfl⟩ := exists_data hn
  rw [genCoteries_data hi hj,district_data hi hj]

theorem card_district (hn : n ∈ Finset.Icc 1 (c*c)) : (district c n).card = 2*(c-1) := by
  obtain ⟨i,j,hi,hj,rfl⟩ := exists_data hn
  rw [district_data hi hj,card_coterie hi hj]

theorem district_subset (hn : n ∈ Finset.Icc 1 (c*c)) : district c n ⊆ Finset.Icc 1 (c*c) := by
  obtain ⟨i,j,hi,hj,rfl⟩ := exists_data hn
  rw [district_data hi hj]
  exact coterie_subset hi hj

/-- Nodes are in each other's districts. -/
theorem mem_district_comm (hm : m ∈ Finset.Icc 1 (c*c)) (hn : n ∈ Finset.Icc 1 (c*c)) :
    m ∈ district c n ↔ n ∈ district c m := by
  obtain ⟨i,j,hi,hj,rfl⟩ := exists_data hm
  obtain ⟨k,l,hk,hl,rfl⟩ := exists_data hn
  rw [district_data hk hl,district_data hi hj,data_mem_coterie hk hl hi hj,data_mem_coterie hi hj hk hl]
  omega

theorem card_filter_district (hm : m ∈ Finset.Icc 1 (c*c)) :
    ((Finset.Icc 1 (c*c)).filter fun n => m ∈ district c n).card = 2*(c-1) := by
  have heq : ((Finset.Icc 1 (c*c)).filter fun n => m ∈ district c n) = district c m := by
    ext n
    rw [Finset.mem_filter]
    constructor
    · rintro ⟨hn,h⟩
      exact (mem_district_comm hm hn).mp h
    · intro h
      have hn := district_subset hm h
      exact ⟨hn,(mem_district_comm hm hn).mpr h⟩
  rw [heq,card_district hm]

theorem data_div (i : ℕ) {j : ℕ} (hj : j < c) : (i*c+j)/c = i ∧ (i*c+j)%c = j := by
  rw [Nat.mul_comm,Nat.mul_add_div (Nat.zero_lt_of_lt hj),Nat.div_eq_of_lt hj,Nat.mul_add_mod]
  exact ⟨rfl,Nat.mod_eq_of_lt hj⟩

theorem district_inter_iff (hm : m ∈ Finset.Icc 1 (c*c)) (hn : n ∈ Finset.Icc 1 (c*c)) (hne : m ≠ n) :
    (district c m ∩ district c n).Nonempty ↔
      3 ≤ c ∨ (m-1)/c ≠ (n-1)/c ∧ (m-1)%c ≠ (n-1)%c := by
  obtain ⟨i,j,hi,hj,rfl⟩ := exists_data hm
  obtain ⟨k,l,hk,hl,rfl⟩ := exists_data hn
  rw [ne_eq,data_inj hi hj hk hl] at hne
  rw [district_data hi hj,district_data hk hl,coterie_inter_iff hi hj hk hl hne,data_eq hi hj,data_eq hk hl,
    Nat.add_sub_cancel,Nat.add_sub_cancel,(data_div i hj).1,(data_div i hj).2,(data_div k hl).1,
    (data_div k hl).2]

/-- All nodes have districts of one size and are in as many of them. Two districts share a node,
except in the grid of two rows, where those of neighbours do not. -/
theorem genCoteries_districts (hc : 2 ≤ c) :
    (∀ n ∈ Finset.Icc 1 (c*c), genCoteries (c*c) n = some (district c n) ∧
      district c n ⊆ Finset.Icc 1 (c*c) ∧ (district c n).card = 2*(c-1) ∧
        ((Finset.Icc 1 (c*c)).filter fun k => n ∈ district c k).card = 2*(c-1)) ∧
      ∀ m ∈ Finset.Icc 1 (c*c), ∀ n ∈ Finset.Icc 1 (c*c), m ≠ n →
        ((district c m ∩ district c n).Nonempty ↔
          c ≠ 2 ∨ (m-1)/c ≠ (n-1)/c ∧ (m-1)%c ≠ (n-1)%c) := by
  refine ⟨fun n hn => ⟨genCoteries_eq hn,district_subset hn,card_district hn,card_filter_district hn⟩,?_⟩
  intro m hm n hn hne
  rw [district_inter_iff hm hn hne]
  exact or_congr_left (by omega)

theorem genCoteries_districts_five : (district 5 7 ∩ district 5 8).Nonempty :=
  ((genCoteries_districts (by decide : 2 ≤ 5)).2 7 (by simp) 8 (by simp) (by decide)).mpr
    (.inl (by decide))

/-- Four nodes: those of 1 are 2 and 3, those of 2 are 1 and 4. -/
theorem not_districts_inter : ¬ ∀ c, 2 ≤ c → ∀ m ∈ Finset.Icc 1 (c*c), ∀ n ∈ Finset.Icc 1 (c*c),
    m ≠ n → (district c m ∩ district c n).Nonempty := by
  intro hall
  have h := (district_inter_iff (by simp) (by simp) (by decide)).mp
    (hall 2 le_rfl 1 (by simp) 2 (by simp) (by decide))
  omega

/-- From three rows on, the districts keep two nodes from being in their critical sections at once. -/
theorem coterie_district (hc : 3 ≤ c) :
    Coterie fun i : Fin (c*c) => Finset.univ.filter fun j : Fin (c*c) =>
      j.val+1 ∈ district c (i.val+1) := by
  intro i j hij
  have hi : i.val+1 ∈ Finset.Icc 1 (c*c) := Finset.mem_Icc.mpr ⟨by omega,i.isLt⟩
  have hj : j.val+1 ∈ Finset.Icc 1 (c*c) := Finset.mem_Icc.mpr ⟨by omega,j.isLt⟩
  obtain ⟨n,hn⟩ := (district_inter_iff hi hj fun h => hij (Fin.ext (Nat.succ.inj h))).mpr (.inl hc)
  obtain ⟨hni,hnj⟩ := Finset.mem_inter.mp hn
  obtain ⟨h1,hle⟩ := Finset.mem_Icc.mp (district_subset hi hni)
  refine ⟨⟨n-1,by omega⟩,?_⟩
  simp only [Finset.mem_inter,Finset.mem_filter,Finset.mem_univ,true_and]
  rw [Nat.sub_add_cancel h1]
  exact ⟨hni,hnj⟩

end Districts
end PucRio.Sanders
