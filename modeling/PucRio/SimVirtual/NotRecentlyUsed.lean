import PucRio.SimVirtual.StatusBits

/-! The page that the not recently used algorithm removes: one of the lowest category that has any. -/
namespace PucRio.SimVirtual

/-- 3: referenced, modified; 2: referenced, not modified; 1: not referenced, modified; 0: neither. -/
def category (status : BitVec 8) : ℕ :=
  (status &&& REFERENCED_PAGE != 0).toNat*2+(status &&& MODIFIED_PAGE != 0).toNat

/-- The values that the two bits make, by category. -/
def categories : List (BitVec 8) :=
  [0,MODIFIED_PAGE,REFERENCED_PAGE,REFERENCED_PAGE ||| MODIFIED_PAGE]

def PTE.category (e : PTE) : ℕ := SimVirtual.category e.status

section Choice
variable {l : PageTable} {entries : List PTE} {tail : PageTable} {status : BitVec 8}
  {found : List (BitVec 8)} {i counter randomIndex count : ℕ}

theorem statuses_eq (h : l.drop i = entries.map some++tail) :
    statuses l entries.length i = .ok (entries.map PTE.status) := by
  induction entries generalizing i with
  | nil => rfl
  | cons e entries ih =>
    have hi : l[i]? = some (some e) := by
      rw [← Nat.add_zero i,← List.getElem?_drop,h]
      rfl
    have hrest : l.drop (i+1) = entries.map some++tail := by
      rw [← List.drop_drop,h]
      rfl
    rw [List.length_cons,statuses,hi]
    simp only [ih hrest]
    rfl

theorem pairwise_categories : categories.Pairwise fun s t => category s < category t := by decide

/-- The chosen status is the first of the four that an entry has. -/
theorem findSome_count {order : List (BitVec 8)}
    (hsorted : order.Pairwise fun s t => category s < category t)
    (hsome : ∃ s ∈ found, s ∈ order) :
    ∃ status, (order.findSome? fun status =>
        if 0 < found.count status then some (status,found.count status) else none) =
      some (status,found.count status) ∧ 0 < found.count status ∧
      ∀ s ∈ found, s ∈ order → category status ≤ category s := by
  induction order with
  | nil =>
    obtain ⟨s,-,hs⟩ := hsome
    cases hs
  | cons t order ih =>
    obtain ⟨ht,hsorted⟩ := List.pairwise_cons.mp hsorted
    rw [List.findSome?_cons]
    by_cases hpos : 0 < found.count t
    · rw [if_pos hpos]
      refine ⟨t,rfl,hpos,fun s _ hs => ?_⟩
      rcases List.mem_cons.mp hs with rfl | hs
      · exact le_rfl
      · exact (ht s hs).le
    · have hnot : t ∉ found := fun h => hpos (List.count_pos_iff.mpr h)
      rw [if_neg hpos]
      have hne {s : BitVec 8} (hs : s ∈ found) (hmem : s ∈ t::order) : s ∈ order := by
        rcases List.mem_cons.mp hmem with rfl | hmem
        · exact absurd hs hnot
        · exact hmem
      obtain ⟨s,hs,hmem⟩ := hsome
      obtain ⟨status,hfound,hcount,hle⟩ := ih hsorted ⟨s,hs,hne hs hmem⟩
      exact ⟨status,hfound,hcount,fun s hs hmem => hle s hs (hne hs hmem)⟩

theorem chosenStatus_eq (hne : found ≠ []) (hbits : ∀ s ∈ found, s ∈ categories) :
    ∃ status, chosenStatus found = some (status,found.count status) ∧ 0 < found.count status ∧
      ∀ s ∈ found, category status ≤ category s := by
  obtain ⟨s,hs⟩ := List.exists_mem_of_ne_nil found hne
  obtain ⟨status,hstatus,hcount,hle⟩ := findSome_count pairwise_categories ⟨s,hs,hbits s hs⟩
  exact ⟨status,hstatus,hcount,fun s hs => hle s hs (hbits s hs)⟩

/-- The scan finds an entry when as many have the status. -/
theorem nodeOfStatus_eq (i : ℕ) (h : randomIndex < counter+found.count status)
    (hle : counter ≤ randomIndex) :
    ∃ node, nodeOfStatus status randomIndex i counter found = some (i+node) ∧
      found[node]? = some status := by
  induction found generalizing i counter with
  | nil => exact absurd h (by rw [List.count_nil]; omega)
  | cons s found ih =>
    rw [nodeOfStatus]
    have hnext {counter : ℕ} (h : randomIndex < counter+found.count status)
        (hle : counter ≤ randomIndex) :
        ∃ node, nodeOfStatus status randomIndex (i+1) counter found = some (i+node) ∧
          (s::found)[node]? = some status := by
      obtain ⟨node,hnode,hget⟩ := ih (i := i+1) h hle
      exact ⟨node+1,by rw [hnode,add_assoc,add_comm 1],hget⟩
    split_ifs with hs heq
    · exact ⟨0,rfl,congrArg some hs⟩
    · rw [hs,List.count_cons_self] at h
      exact hnext (by omega) (by omega)
    · rw [List.count_cons_of_ne hs] at h
      exact hnext h hle

end Choice

section Replacement
variable {info : SimulationInfo} {entries : List PTE}

/-- In a full table the entry at one node makes room, and no entry is of a lower category. -/
theorem algo_nru_eq (info : SimulationInfo) (hlen : entries.length = info.maxPages)
    (hpages : 1 ≤ info.maxPages) (hbits : ∀ e ∈ entries, e.status ∈ categories) (random : ℕ) (new : PTE)
    (tail : PageTable) :
    ∃ node victim, entries[node]? = some victim ∧ (∀ e ∈ entries, victim.category ≤ e.category) ∧
      algo_nru info random new (entries.map some++tail) =
        .ok ((entries.set node new).map some++tail) := by
  have hne : entries.map PTE.status ≠ [] := by
    intro hnil
    rw [List.map_eq_nil_iff.mp hnil,List.length_nil] at hlen
    omega
  have hmem : ∀ s ∈ entries.map PTE.status, s ∈ categories := by
    intro s hs
    obtain ⟨e,he,rfl⟩ := List.mem_map.mp hs
    exact hbits e he
  obtain ⟨status,hchosen,hcount,hlowest⟩ := chosenStatus_eq hne hmem
  obtain ⟨node,hnode,hget⟩ := nodeOfStatus_eq 0
    (by rw [zero_add]; exact Nat.mod_lt random hcount : random%_ < 0+_) (Nat.zero_le _)
  rw [List.getElem?_map] at hget
  obtain ⟨victim,hvictim,rfl⟩ := Option.map_eq_some_iff.mp hget
  refine ⟨node,victim,hvictim,fun e he => hlowest _ (List.mem_map_of_mem he),?_⟩
  have hlt : node < entries.length := (List.getElem?_eq_some_iff.mp hvictim).1
  have hstatuses := statuses_eq (l := entries.map some++tail) (i := 0) rfl
  unfold algo_nru
  rw [← hlen,hstatuses]
  simp only [bind,Except.bind,hchosen,hnode]
  rw [Nat.zero_add,set_map_some_append hlt]

/-- A fault in a full table with whatever bits set is handled without an error: one entry is replaced,
of the lowest category that has any, and the others are as they were. -/
theorem pageFault_replace_nru (hprAlgo : info.prAlgo = .PR_NRU)
    (hlen : entries.length = info.maxPages) (hpages : 1 ≤ info.maxPages)
    (hbits : ∀ e ∈ entries, e.status ∈ categories) (random : ℕ) (new : PTE) (tail : PageTable) :
    ∃ node victim, entries[node]? = some victim ∧ (∀ e ∈ entries, victim.category ≤ e.category) ∧
      pageFault_replace info random new (entries.map some++tail) =
        .ok ({ info with pageFaults := wrap32 (info.pageFaults+1) },
          (entries.set node new).map some++tail) := by
  obtain ⟨pageSize,faults,writes,time,prAlgo,maxPages⟩ := info
  obtain rfl : prAlgo = .PR_NRU := hprAlgo
  obtain ⟨node,victim,hvictim,hlowest,hnru⟩ :=
    algo_nru_eq ⟨pageSize,wrap32 (faults+1),writes,time,.PR_NRU,maxPages⟩ hlen hpages hbits
      random new tail
  refine ⟨node,victim,hvictim,hlowest,?_⟩
  unfold pageFault_replace
  simp only [bind,Except.bind,hnru]

/-- Two pages, the first referenced: the second makes room. -/
theorem pageFault_replace_nru_two : ∃ node victim,
    [PTE.mk 0 1 REFERENCED_PAGE 1,PTE.mk 0x8000 2 0 1][node]? = some victim ∧
      (∀ e ∈ [PTE.mk 0 1 REFERENCED_PAGE 1,PTE.mk 0x8000 2 0 1], victim.category ≤ e.category) ∧
      pageFault_replace ⟨32,2,0,3,.PR_NRU,2⟩ 5 ⟨0x10000,3,0,1⟩
          ([PTE.mk 0 1 REFERENCED_PAGE 1,PTE.mk 0x8000 2 0 1].map some++[none]) =
        .ok (⟨32,wrap32 3,0,3,.PR_NRU,2⟩,
          ([PTE.mk 0 1 REFERENCED_PAGE 1,PTE.mk 0x8000 2 0 1].set node
            ⟨0x10000,3,0,1⟩).map some++[none]) :=
  @pageFault_replace_nru ⟨32,2,0,3,.PR_NRU,2⟩ _ rfl rfl (by decide) (by decide) 5 _ [none]

end Replacement

end PucRio.SimVirtual
