import PucRio.SimVirtual.StatusBits
import Mathlib.Data.List.GetD

/-! The order in which the scan for the earliest entry comes to the nodes: by the time of the last
access, and at equal times by the place in the list. SEC goes through a table in it. -/
namespace PucRio.SimVirtual

/-- The entry of a node. -/
def entryAt (entries : List PTE) (k : ℕ) : PTE := entries.getD k ⟨0,0,0,0⟩

section EntryAt
variable {entries : List PTE} {e : PTE} {i k : ℕ}

theorem entryAt_set (h : i < entries.length) :
    entryAt (entries.set i e) k = if k = i then e else entryAt entries k := by
  unfold entryAt
  rw [List.getD_eq_getElem?_getD,List.getD_eq_getElem?_getD,List.getElem?_set]
  by_cases hk : i = k
  · subst hk
    simp [h]
  · simp [hk,Ne.symm hk]

theorem entryAt_append_left (h : k < entries.length) (more : List PTE) :
    entryAt (entries++more) k = entryAt entries k := by
  unfold entryAt
  rw [List.getD_eq_getElem?_getD,List.getD_eq_getElem?_getD,List.getElem?_append_left h]

theorem entryAt_middle (l : List PTE) (e : PTE) (r : List PTE) :
    entryAt (l++e::r) l.length = e := by
  unfold entryAt
  simp

theorem entryAt_mem (h : k < entries.length) : entryAt entries k ∈ entries := by
  unfold entryAt
  rw [List.getD_eq_getElem _ _ h]
  exact List.getElem_mem h

theorem exists_entryAt (h : e ∈ entries) : ∃ k < entries.length, entryAt entries k = e := by
  obtain ⟨k,hk,rfl⟩ := List.getElem_of_mem h
  exact ⟨k,hk,List.getD_eq_getElem _ _ hk⟩

theorem forall_entryAt {P : PTE → Prop} :
    (∀ k < entries.length, P (entryAt entries k)) ↔ ∀ e ∈ entries, P e := by
  constructor
  · intro h e he
    obtain ⟨k,hk,rfl⟩ := exists_entryAt he
    exact h k hk
  · exact fun h k hk => h _ (entryAt_mem hk)

end EntryAt

/-- The scan comes to the first entry before the second. -/
def Before (entries : List PTE) (i j : ℕ) : Prop :=
  (entryAt entries i).lastAccessTime < (entryAt entries j).lastAccessTime ∨
    (entryAt entries i).lastAccessTime = (entryAt entries j).lastAccessTime ∧ i < j

section Scan
variable {entries : List PTE} {tail : PageTable} {now : ℤ} {i j : ℕ}

/-- Among equally early entries ahead, the scan ends at the first. -/
theorem earliestNode_first (before ahead : List PTE) (tail : PageTable) (node : ℕ) (time : ℤ) :
    ∃ node', earliestNode ((before++ahead).map some++tail) ahead.length before.length node time =
        .ok node' ∧
      (node' = node ∨ ∃ l e r, ahead = l++e::r ∧ node' = before.length+l.length ∧
        e.lastAccessTime < time ∧ ∀ e' ∈ l, e.lastAccessTime < e'.lastAccessTime) := by
  induction ahead generalizing before node time with
  | nil => exact ⟨node,rfl,.inl rfl⟩
  | cons e ahead ih =>
    have hget : ((before++e::ahead).map some++tail)[before.length]? = some (some e) := by simp
    have happ : before++e::ahead = (before++[e])++ahead := by simp
    have hlen : before.length+1 = (before++[e]).length := by simp
    rw [List.length_cons,earliestNode,hget]
    dsimp only
    by_cases hlt : e.lastAccessTime < time
    · rw [if_pos hlt,happ,hlen]
      obtain ⟨node',hnode,rfl | ⟨l,e',r,rfl,rfl,hlt',hfirst⟩⟩ :=
        ih (before++[e]) before.length e.lastAccessTime
      · exact ⟨_,hnode,.inr ⟨[],e,ahead,rfl,rfl,hlt,List.forall_mem_nil _⟩⟩
      · refine ⟨_,hnode,.inr ⟨e::l,e',r,rfl,by simp; omega,hlt'.trans hlt,?_⟩⟩
        exact List.forall_mem_cons.mpr ⟨hlt',hfirst⟩
    · rw [if_neg hlt,happ,hlen]
      obtain ⟨node',hnode,rfl | ⟨l,e',r,rfl,rfl,hlt',hfirst⟩⟩ := ih (before++[e]) node time
      · exact ⟨_,hnode,.inl rfl⟩
      · refine ⟨_,hnode,.inr ⟨e::l,e',r,rfl,by simp; omega,hlt',?_⟩⟩
        exact List.forall_mem_cons.mpr ⟨by omega,hfirst⟩

/-- The nodes of the past, in the order of the scan. -/
structure Ordered (entries : List PTE) (now : ℤ) (order : List ℕ) : Prop where
  pairwise : order.Pairwise (Before entries)
  mem_iff : ∀ k, k ∈ order ↔ k < entries.length ∧ (entryAt entries k).lastAccessTime < now

theorem earliestNode_ordered {order : List ℕ} (h : Ordered entries now (i::order)) :
    earliestNode (entries.map some++tail) entries.length 0 0 now = .ok i := by
  have hi := (h.mem_iff i).mp List.mem_cons_self
  have hmin : ∀ k, k < entries.length → (entryAt entries k).lastAccessTime < now →
      k = i ∨ Before entries i k := by
    intro k hk hpast
    rcases List.mem_cons.mp ((h.mem_iff k).mpr ⟨hk,hpast⟩) with rfl | hmem
    · exact .inl rfl
    · exact .inr ((List.pairwise_cons.mp h.pairwise).1 k hmem)
  obtain ⟨node,hnode,hearliest⟩ := earliestNode_eq [] entries tail 0 now
  obtain ⟨node',hnode',hfirst⟩ := earliestNode_first [] entries tail 0 now
  obtain rfl : node = node' := Except.ok.inj (hnode.symm.trans hnode')
  refine hnode.trans (congrArg Except.ok ?_)
  have hpos : ∃ l e r, entries = l++e::r ∧ node = l.length ∧ e.lastAccessTime < now ∧
      (∀ e' ∈ entries, e.lastAccessTime ≤ e'.lastAccessTime) ∧
      ∀ e' ∈ l, e.lastAccessTime < e'.lastAccessTime := by
    obtain ⟨-,hnone⟩ | ⟨l,e,r,hl,hlen,hlt,hle⟩ := hearliest
    · exact absurd (hnone _ (entryAt_mem hi.1)) (not_le.mpr hi.2)
    · rw [List.length_nil,Nat.zero_add] at hlen
      refine ⟨l,e,r,hl,hlen,hlt,hle,?_⟩
      obtain hzero | ⟨l',e',r',hl',hlen',-,hfirst⟩ := hfirst
      · obtain rfl : l = [] := List.length_eq_zero_iff.mp (hlen.symm.trans hzero)
        exact List.forall_mem_nil _
      · rw [List.length_nil,Nat.zero_add] at hlen'
        obtain ⟨rfl,htail⟩ := List.append_inj (hl.symm.trans hl') (hlen.symm.trans hlen')
        obtain ⟨rfl,-⟩ := List.cons.inj htail
        exact hfirst
  obtain ⟨l,e,r,hl,rfl,hlt,hle,hfirst⟩ := hpos
  have he : entryAt entries l.length = e := hl ▸ entryAt_middle l e r
  have hlen : l.length < entries.length := by
    rw [hl,List.length_append,List.length_cons]
    omega
  rcases hmin l.length hlen (by rw [he]; exact hlt) with heq | hbefore | ⟨htime,hnode⟩
  · exact heq
  · have hle' := hle _ (entryAt_mem hi.1)
    rw [he] at hbefore
    omega
  · have hmem : entryAt entries i ∈ l := by
      rw [hl,entryAt_append_left hnode]
      exact entryAt_mem hnode
    have hlt' := hfirst _ hmem
    rw [he] at htime
    omega

/-- Where no entry is of the past, the scan stays at the first node. -/
theorem earliestNode_none (h : ∀ e ∈ entries, now ≤ e.lastAccessTime) :
    earliestNode (entries.map some++tail) entries.length 0 0 now = .ok 0 := by
  obtain ⟨node,hnode,⟨rfl,-⟩ | ⟨l,e,r,hl,-,hlt,-⟩⟩ := earliestNode_eq [] entries tail 0 now
  · exact hnode
  · have hmem : e ∈ entries := hl ▸ List.mem_append_right _ List.mem_cons_self
    exact absurd (h e hmem) (not_le.mpr hlt)

end Scan

section Passing
variable {info : SimulationInfo} {entries : List PTE} {tail : PageTable} {new : PTE} {i j k : ℕ}
  {order front : List ℕ}

instance (entries : List PTE) (i j : ℕ) : Decidable (Before entries i j) :=
  inferInstanceAs (Decidable (_ ∨ _))

theorem Before.asymm (h : Before entries i j) : ¬Before entries j i := by
  unfold Before at h ⊢
  omega

theorem Before.ne (h : Before entries i j) : i ≠ j := by
  rintro rfl
  exact h.asymm h

theorem before_set_of_ne {e : PTE} (hk : k < entries.length) (hi : i ≠ k) (hj : j ≠ k) :
    Before (entries.set k e) i j ↔ Before entries i j := by
  unfold Before
  rw [entryAt_set hk,entryAt_set hk,if_neg hi,if_neg hj]

/-- The nodes of a table whose entries are all of the past have an order. -/
theorem exists_ordered {now : ℤ} (h : ∀ e ∈ entries, e.lastAccessTime < now) :
    ∃ order, order.Perm (List.range entries.length) ∧ Ordered entries now order := by
  let le (i j : ℕ) : Bool := !decide (Before entries j i)
  have hle (i j : ℕ) : le i j = true ↔ ¬Before entries j i := by simp [le]
  have htrans : ∀ i j k, le i j = true → le j k = true → le i k = true := by
    intro i j k hij hjk
    rw [hle] at *
    unfold Before at *
    omega
  have htotal : ∀ i j, (le i j || le j i) = true := by
    intro i j
    rw [Bool.or_eq_true,hle,hle]
    unfold Before
    omega
  have hperm := List.mergeSort_perm (List.range entries.length) le
  have hnodup := hperm.nodup_iff.mpr List.nodup_range
  refine ⟨_,hperm,?_,?_⟩
  · refine List.Pairwise.imp₂ ?_ (List.pairwise_mergeSort htrans htotal _) hnodup
    intro i j hij hne
    rw [hle] at hij
    unfold Before at *
    omega
  · intro k
    rw [hperm.mem_iff,List.mem_range]
    exact ⟨fun hk => ⟨hk,h _ (entryAt_mem hk)⟩,And.left⟩

/-- An entry that SEC passes over. -/
def PTE.passedOver (now : ℤ) (e : PTE) : PTE :=
  { e with
    rBit := 0x0
    lastAccessTime := now }

/-- The entries when SEC has passed over some nodes. -/
def passOver (now : ℤ) : List ℕ → List PTE → List PTE
  | [],entries => entries
  | i::front,entries => passOver now front (entries.set i ((entryAt entries i).passedOver now))

theorem length_passOver (now : ℤ) (front : List ℕ) (entries : List PTE) :
    (passOver now front entries).length = entries.length := by
  induction front generalizing entries with
  | nil => rfl
  | cons i front ih => rw [passOver,ih,List.length_set]

theorem entryAt_passOver {now : ℤ} (hnodup : front.Nodup) (hlt : ∀ i ∈ front, i < entries.length)
    (k : ℕ) : entryAt (passOver now front entries) k =
      if k ∈ front then (entryAt entries k).passedOver now else entryAt entries k := by
  induction front generalizing entries with
  | nil => rfl
  | cons i front ih =>
    obtain ⟨hi,hnodup⟩ := List.nodup_cons.mp hnodup
    have hilt := hlt i List.mem_cons_self
    rw [passOver,ih hnodup,entryAt_set hilt]
    · by_cases hk : k = i
      · subst hk
        rw [if_neg hi,if_pos rfl,if_pos List.mem_cons_self]
      · simp only [List.mem_cons,hk,false_or,if_false]
    · intro j hj
      rw [List.length_set]
      exact hlt j (List.mem_cons_of_mem _ hj)

theorem Ordered.nodup {now : ℤ} (h : Ordered entries now order) : order.Nodup :=
  h.pairwise.imp Before.ne

/-- Passing over the first node leaves the order of the others. -/
theorem Ordered.passOver_head {now : ℤ} (h : Ordered entries now (i::order)) :
    Ordered (entries.set i ((entryAt entries i).passedOver now)) now order := by
  have hi := ((h.mem_iff i).mp List.mem_cons_self).1
  obtain ⟨hnotin,-⟩ := List.nodup_cons.mp h.nodup
  constructor
  · refine (List.pairwise_cons.mp h.pairwise).2.imp_of_mem ?_
    intro j k hj hk hbefore
    rw [before_set_of_ne hi]
    · exact hbefore
    · rintro rfl
      exact hnotin hj
    · rintro rfl
      exact hnotin hk
  · intro k
    rw [List.length_set,entryAt_set hi]
    by_cases hk : k = i
    · subst hk
      rw [if_pos rfl]
      exact ⟨fun hmem => absurd hmem hnotin,fun hlt => absurd hlt.2 (lt_irrefl now)⟩
    · rw [if_neg hk,← h.mem_iff k,List.mem_cons]
      exact ⟨.inr,fun hmem => hmem.resolve_left hk⟩

/-- What SEC does with the node to which the scan comes. -/
theorem algo_sec_node (fuel : ℕ) (hlen : entries.length = info.maxPages)
    (hi : i < entries.length)
    (hnode : earliestNode (entries.map some++tail) entries.length 0 0 info.time = .ok i) :
    algo_sec info new (fuel+1) (entries.map some++tail) =
      if (entryAt entries i).rBit = 0x01 then
        algo_sec info new fuel
          ((entries.set i ((entryAt entries i).passedOver info.time)).map some++tail)
      else .ok ((entries.set i new).map some++tail) := by
  have hget : (entries.map some++tail)[i]? = some (some (entryAt entries i)) := by
    rw [List.getElem?_append_left (by simpa using hi),List.getElem?_map,
      List.getElem?_eq_getElem hi]
    exact congrArg (fun e => some (some e)) (List.getD_eq_getElem _ _ hi).symm
  rw [algo_sec,← hlen,hnode]
  simp only [bind,Except.bind,hget]
  rw [set_map_some_append hi,set_map_some_append hi]
  rfl

/-- SEC passes over the nodes that come first, as long as their bits are set. -/
theorem algo_sec_passOver (new : PTE) (tail : PageTable) (fuel : ℕ) (hlen : entries.length = info.maxPages)
    (h : Ordered entries info.time (front++order))
    (hfront : ∀ i ∈ front, (entryAt entries i).rBit = 0x01) :
    algo_sec info new (front.length+fuel) (entries.map some++tail) =
        algo_sec info new fuel ((passOver info.time front entries).map some++tail) ∧
      Ordered (passOver info.time front entries) info.time order := by
  induction front generalizing entries with
  | nil => exact ⟨congrArg (algo_sec info new · _) (Nat.zero_add fuel),h⟩
  | cons i front ih =>
    have hi := ((h.mem_iff i).mp List.mem_cons_self).1
    have hfuel : (i::front).length+fuel = (front.length+fuel)+1 := by
      rw [List.length_cons]
      omega
    rw [hfuel,algo_sec_node _ hlen hi (earliestNode_ordered h),
      if_pos (hfront i List.mem_cons_self)]
    apply ih
    · rw [List.length_set]
      exact hlen
    · exact h.passOver_head
    · intro j hj
      have hne : j ≠ i := by
        rintro rfl
        exact (List.nodup_cons.mp h.nodup).1 (List.mem_append_left _ hj)
      rw [entryAt_set hi,if_neg hne]
      exact hfront j (List.mem_cons_of_mem _ hj)

variable (hlen : entries.length = info.maxPages) (hlt : front.length < info.maxPages+1)
  (hfront : ∀ i ∈ front, (entryAt entries i).rBit = 0x01)
include hlen hlt hfront

/-- The first node with its bit clear goes. -/
theorem algo_sec_first (new : PTE) (tail : PageTable) (h : Ordered entries info.time (front++i::order))
    (hi : (entryAt entries i).rBit ≠ 0x01) :
    algo_sec info new (info.maxPages+1) (entries.map some++tail) =
      .ok (((passOver info.time front entries).set i new).map some++tail) := by
  obtain ⟨fuel,hfuel⟩ : ∃ fuel, info.maxPages+1 = front.length+(fuel+1) :=
    ⟨info.maxPages-front.length,by omega⟩
  obtain ⟨heq,hordered⟩ := algo_sec_passOver new tail (fuel+1) hlen h hfront
  have hnotin : i ∉ front := fun hmem =>
    (List.nodup_append.mp h.nodup).2.2 i hmem i List.mem_cons_self rfl
  have hentry : entryAt (passOver info.time front entries) i = entryAt entries i := by
    rw [entryAt_passOver (List.nodup_append.mp h.nodup).1,if_neg hnotin]
    exact fun j hj => ((h.mem_iff j).mp (List.mem_append_left _ hj)).1
  rw [hfuel,heq,algo_sec_node fuel ((length_passOver _ _ _).trans hlen)
    ((hordered.mem_iff i).mp List.mem_cons_self).1 (earliestNode_ordered hordered),hentry,if_neg hi]

/-- Where all have their bits set, all are passed over and the node in front of the list goes. -/
theorem algo_sec_none (new : PTE) (tail : PageTable) (hne : entries ≠ [])
    (h : Ordered entries info.time front) (hall : ∀ k < entries.length, k ∈ front) :
    algo_sec info new (info.maxPages+1) (entries.map some++tail) =
      .ok (((passOver info.time front entries).set 0 new).map some++tail) := by
  obtain ⟨fuel,hfuel⟩ : ∃ fuel, info.maxPages+1 = front.length+(fuel+1) :=
    ⟨info.maxPages-front.length,by omega⟩
  have hpos := List.length_pos_of_ne_nil hne
  have hentry : ∀ k < entries.length, entryAt (passOver info.time front entries) k =
      (entryAt entries k).passedOver info.time := by
    intro k hk
    rw [entryAt_passOver h.nodup fun j hj => ((h.mem_iff j).mp hj).1,if_pos (hall k hk)]
  have h' : Ordered entries info.time (front++[]) := (List.append_nil front).symm ▸ h
  obtain ⟨heq,-⟩ := algo_sec_passOver new tail (fuel+1) hlen h' hfront
  have hnode : earliestNode ((passOver info.time front entries).map some++tail)
      (passOver info.time front entries).length 0 0 info.time = .ok 0 := by
    apply earliestNode_none
    intro e he
    obtain ⟨k,hk,rfl⟩ := exists_entryAt he
    rw [length_passOver] at hk
    rw [hentry k hk]
    exact le_refl _
  rw [hfuel,heq,algo_sec_node fuel ((length_passOver _ _ _).trans hlen)
    (by rw [length_passOver]; exact hpos) hnode,hentry 0 hpos,if_neg]
  show ¬(0x0 : BitVec 8) = 0x01
  decide

end Passing
end PucRio.SimVirtual
