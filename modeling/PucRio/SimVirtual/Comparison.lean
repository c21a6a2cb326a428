import PucRio.Lib.Paging
import PucRio.SimVirtual.NotRecentlyUsed
import PucRio.SimVirtual.ScanOrder

/-! The simulator answers every access, whatever the algorithm, and each of its algorithms pages on
demand: what is known of least recently used on demand is known of the simulator. -/
namespace PucRio.SimVirtual
open Recency

/-- Whether SEC passes the entry over. -/
def PTE.spared (e : PTE) : Bool := e.rBit = 0x01

section Replacement
variable {info : SimulationInfo} {entries : List PTE}

theorem exists_earliestNode (hne : entries ≠ []) (time : ℤ) : ∃ node < entries.length,
    earliestNode (entries.map some++[none]) entries.length 0 0 time = .ok node := by
  obtain ⟨node,hnode,-⟩ := earliestNode_eq [] entries [none] 0 time
  exact ⟨node,earliestNode_lt hne hnode,hnode⟩

/-- The call of itself has one entry less to pass over. -/
theorem exists_algo_sec (info : SimulationInfo) (fuel : ℕ) (new : PTE)
    (hlen : entries.length = info.maxPages) (hne : entries ≠ [])
    (hfuel : entries.countP PTE.spared < fuel) :
    ∃ table, algo_sec info new fuel (entries.map some++[none]) = .ok table := by
  induction fuel generalizing entries with
  | zero => exact absurd hfuel (Nat.not_lt_zero _)
  | succ fuel ih =>
    obtain ⟨node,hnode,hscan⟩ := exists_earliestNode hne info.time
    rw [algo_sec_node fuel hlen hnode hscan]
    by_cases hbit : (entryAt entries node).rBit = 0x01
    · rw [if_pos hbit]
      apply ih
      · rw [List.length_set,hlen]
      · rwa [← List.length_pos_iff,List.length_set,List.length_pos_iff]
      · have hentry : entries[node].spared = true := by
          rw [entryAt,List.getD_eq_getElem _ _ hnode] at hbit
          exact decide_eq_true hbit
        have hpos : 0 < entries.countP PTE.spared :=
          List.countP_pos_iff.mpr ⟨entries[node],List.getElem_mem hnode,hentry⟩
        have hspared : ((entryAt entries node).passedOver info.time).spared = false := rfl
        rw [List.countP_set hnode,hentry,hspared,if_pos rfl,if_neg Bool.false_ne_true]
        omega
    · rw [if_neg hbit]
      exact ⟨_,rfl⟩

/-- A full table is never refused. -/
theorem exists_pageFault_replace (random : ℕ) (new : PTE) (hlen : entries.length = info.maxPages)
    (hne : entries ≠ []) (hbits : ∀ e ∈ entries, e.status ∈ categories) :
    ∃ r, pageFault_replace info random new (entries.map some++[none]) = .ok r := by
  obtain ⟨pageSize,faults,writes,time,prAlgo,maxPages⟩ := info
  have hpos := List.length_pos_of_ne_nil hne
  have hfull : entries.length = maxPages := hlen
  have hpages : 1 ≤ maxPages := hfull ▸ hpos
  cases prAlgo with
  | PR_NRU =>
    obtain ⟨node,victim,-,-,hnru⟩ :=
      algo_nru_eq ⟨pageSize,wrap32 (faults+1),writes,time,.PR_NRU,maxPages⟩ hlen hpages hbits
        random new [none]
    unfold pageFault_replace
    simp only [bind,Except.bind,hnru]
    exact ⟨_,rfl⟩
  | PR_LRU =>
    obtain ⟨node,-,hscan⟩ := exists_earliestNode hne time
    rw [hfull] at hscan
    unfold pageFault_replace algo_lru
    simp only [bind,Except.bind,hscan]
    exact ⟨_,rfl⟩
  | PR_SEC =>
    obtain ⟨table,hsec⟩ := exists_algo_sec
      ⟨pageSize,wrap32 (faults+1),writes,time,.PR_SEC,maxPages⟩ (maxPages+1) new hlen hne
      (by have := List.countP_le_length (p := PTE.spared) (l := entries); omega)
    unfold pageFault_replace
    simp only [bind,Except.bind,hsec]
    exact ⟨_,rfl⟩

end Replacement

/-- What every algorithm keeps of the table. -/
structure Paged (prAlgo : PageReplacementAlgorithm) (pageSize maxPages : ℕ) (s : State) : Prop where
  prAlgo_eq : s.info.prAlgo = prAlgo
  pageSize_eq : s.info.pageSize = pageSize
  maxPages_eq : s.info.maxPages = maxPages
  table : ∃ tail, s.pageTableList = s.entries.map some++tail ∧
    (tail = [none] ∨ tail = [] ∧ s.entries ≠ [])
  length_le : s.entries.length ≤ maxPages
  nodup : s.residentPages.Nodup
  statuses : ∀ e ∈ s.entries, e.status ∈ categories

/-- What an access does to the resident pages and to the count of faults. -/
inductive Accessed (page : BitVec 32) (s t : State) : Prop
  | hit (mem : page ∈ s.residentPages) (pages : t.residentPages = s.residentPages)
      (faults : t.info.pageFaults = s.info.pageFaults)
  | load (notMem : page ∉ s.residentPages) (pages : t.residentPages = s.residentPages++[page])
      (faults : t.info.pageFaults = wrap32 (s.info.pageFaults+1))
  | replace (notMem : page ∉ s.residentPages) (node : ℕ)
      (lt : node < s.residentPages.length)
      (pages : t.residentPages = s.residentPages.set node page)
      (faults : t.info.pageFaults = wrap32 (s.info.pageFaults+1))

variable {prAlgo : PageReplacementAlgorithm} {pageSize maxPages : ℕ} {s t : State}
  {access : Access} {entries : List PTE} {tail : PageTable}

theorem residentPages_eq (hsize : s.info.pageSize = pageSize) :
    s.residentPages = s.entries.map (PTE.page (getNeededBits (pageSize*1024))) := by
  rw [← hsize]
  rfl

theorem residentPages_of_table (htable : t.pageTableList = entries.map some++tail)
    (htail : tail = [none] ∨ tail = [] ∧ entries ≠ []) (hsize : t.info.pageSize = pageSize) :
    t.residentPages = entries.map (PTE.page (getNeededBits (pageSize*1024))) := by
  rw [residentPages_eq hsize,entries_of_table htable htail]

theorem paged_of_table (htable : t.pageTableList = entries.map some++tail)
    (htail : tail = [none] ∨ tail = [] ∧ entries ≠ []) (hprAlgo : t.info.prAlgo = prAlgo)
    (hsize : t.info.pageSize = pageSize) (hmax : t.info.maxPages = maxPages)
    (hlen : entries.length ≤ maxPages)
    (hnodup : (entries.map (PTE.page (getNeededBits (pageSize*1024)))).Nodup)
    (hstatuses : ∀ e ∈ entries, e.status ∈ categories) : Paged prAlgo pageSize maxPages t := by
  have hentries := entries_of_table htable htail
  constructor
  · exact hprAlgo
  · exact hsize
  · exact hmax
  · rw [hentries]
    exact ⟨tail,htable,htail⟩
  · rwa [hentries]
  · rwa [residentPages_eq hsize,hentries]
  · rwa [hentries]

theorem paged_start (prAlgo : PageReplacementAlgorithm) (pageSize maxPages : ℕ) :
    Paged prAlgo pageSize maxPages (start prAlgo pageSize maxPages) := by
  have htable : (start prAlgo pageSize maxPages).pageTableList = ([] : List PTE).map some++[none] :=
    rfl
  exact paged_of_table htable (.inl rfl) rfl rfl rfl (Nat.zero_le _) List.nodup_nil (by simp)

theorem status_accessMemory (info : SimulationInfo) (e : PTE) (rw : Char) :
    (accessMemory info e rw).status ∈ categories := by
  unfold accessMemory
  split_ifs
  · simp [categories]
  · simp [categories]

theorem status_createPTE (info : SimulationInfo) (a : BitVec 32) (rw : Char) :
    (createPTE info a rw).1.status ∈ categories := by
  unfold createPTE
  split_ifs
  · simp [categories]
  · simp [categories]

namespace Paged

/-- The page is resident. -/
theorem hit (h : Paged prAlgo pageSize maxPages s) (hpage : access.page pageSize ∈ s.residentPages) :
    ∃ t, simulation_simulateMemoryAccess access s = .ok t ∧ Paged prAlgo pageSize maxPages t ∧
      Accessed (access.page pageSize) s t := by
  obtain ⟨tail,htable,htail⟩ := h.table
  have hsize := h.pageSize_eq
  have hnodup := h.nodup
  have hmem := hpage
  rw [residentPages_eq hsize] at hmem hnodup
  obtain ⟨e,he,hepage⟩ := List.mem_map.mp hmem
  obtain ⟨before,after,hentries⟩ := List.append_of_mem he
  have hlen := h.length_le
  have hne : ∀ e' ∈ before, e'.page (getNeededBits (pageSize*1024)) ≠ access.page pageSize := by
    rw [hentries,List.map_append,List.map_cons,hepage] at hnodup
    intro e' he' heq
    apply (List.nodup_cons.mp (List.nodup_middle.mp hnodup)).1
    exact List.mem_append_left _ (heq ▸ List.mem_map_of_mem he')
  have hsearch : searchTable s.ticked (getNeededBits (s.info.pageSize*1024))
      (access.page s.info.pageSize) access.rw s.info.maxPages s.pageTableList =
      (before.map some++some (accessMemory s.ticked e access.rw)::(after.map some++tail),
        s.ticked,true) := by
    have hk : before.length < maxPages := by
      rw [hentries,List.length_append,List.length_cons] at hlen
      omega
    rw [hsize,h.maxPages_eq,htable,hentries,List.map_append,List.map_cons,List.append_assoc]
    exact searchTable_hit hne hepage hk
  have htable' : before.map some++some (accessMemory s.ticked e access.rw)::(after.map some++tail) =
      (before++accessMemory s.ticked e access.rw::after).map some++tail := by simp
  have hpages : (before++accessMemory s.ticked e access.rw::after).map
      (PTE.page (getNeededBits (pageSize*1024))) =
        s.entries.map (PTE.page (getNeededBits (pageSize*1024))) := by
    rw [hentries,List.map_append,List.map_append,List.map_cons,List.map_cons]
    rfl
  have htail' : tail = [none] ∨ tail = [] ∧ before++accessMemory s.ticked e access.rw::after ≠ [] :=
    htail.imp_right fun hnil => ⟨hnil.1,by simp⟩
  refine ⟨_,simulate_of_returned hsearch,?_,.hit hpage ?_ rfl⟩
  · refine paged_of_table htable' htail' ?_ ?_ ?_ ?_ ?_ ?_
    · exact h.prAlgo_eq
    · exact hsize
    · exact h.maxPages_eq
    · simpa [hentries] using hlen
    · rwa [hpages]
    · intro e' he'
      have hstatuses := h.statuses
      rw [hentries] at hstatuses
      rcases List.mem_append.mp he' with he' | he'
      · exact hstatuses _ (List.mem_append_left _ he')
      · rcases List.mem_cons.mp he' with rfl | he'
        · exact status_accessMemory _ _ _
        · exact hstatuses _ (List.mem_append_right _ (List.mem_cons_of_mem _ he'))
  · rw [residentPages_eq hsize,← hpages]
    apply residentPages_of_table htable' htail'
    exact hsize

theorem page_createPTE (info : SimulationInfo) (a : BitVec 32) (rw : Char) (pageSize : ℕ) :
    (createPTE info ((a >>> getNeededBits (pageSize*1024)) <<< getNeededBits (pageSize*1024)) rw).1.page
      (getNeededBits (pageSize*1024)) = a >>> getNeededBits (pageSize*1024) :=
  congrArg Prod.fst (createPTE_flags info _ a rw)

/-- The page is not resident and there is room. -/
theorem load (h : Paged prAlgo pageSize maxPages s) (hpage : access.page pageSize ∉ s.residentPages)
    (hroom : s.entries.length < maxPages) :
    ∃ t, simulation_simulateMemoryAccess access s = .ok t ∧ Paged prAlgo pageSize maxPages t ∧
      Accessed (access.page pageSize) s t := by
  obtain ⟨tail,htable,htail⟩ := h.table
  have hsize := h.pageSize_eq
  have hnodup := h.nodup
  have hmem := hpage
  rw [residentPages_eq hsize] at hmem hnodup
  have hne := page_ne_of_not_mem hmem
  obtain ⟨writes,hwrites⟩ := createPTE_info s.ticked
    (access.page pageSize <<< getNeededBits (pageSize*1024)) access.rw
  have hnew := page_createPTE s.ticked access.address access.rw pageSize
  have hstatus := status_createPTE s.ticked
    (access.page pageSize <<< getNeededBits (pageSize*1024)) access.rw
  have hsearch : searchTable s.ticked (getNeededBits (s.info.pageSize*1024))
      (access.page s.info.pageSize) access.rw s.info.maxPages s.pageTableList =
      ((s.entries++[(createPTE s.ticked
        (access.page pageSize <<< getNeededBits (pageSize*1024)) access.rw).1]).map some,
        pageFault_add { s.ticked with pageWrites := writes },true) := by
    rw [hsize,h.maxPages_eq,htable,searchTable_table htail hne h.length_le,
      searchTable_add hne hroom,hwrites]
  change PTE.page _ (createPTE s.ticked
    (access.page pageSize <<< getNeededBits (pageSize*1024)) access.rw).1 = access.page pageSize at hnew
  generalize (createPTE s.ticked
    (access.page pageSize <<< getNeededBits (pageSize*1024)) access.rw).1 = new at *
  have htable' : (s.entries++[new]).map some = (s.entries++[new]).map some++[] :=
    (List.append_nil _).symm
  have htail' : ([] : PageTable) = [none] ∨ ([] : PageTable) = [] ∧ s.entries++[new] ≠ [] :=
    .inr ⟨rfl,by simp⟩
  have hpages : (s.entries++[new]).map (PTE.page (getNeededBits (pageSize*1024))) =
      s.entries.map (PTE.page (getNeededBits (pageSize*1024)))++[access.page pageSize] := by
    rw [List.map_append,List.map_singleton,hnew]
  refine ⟨_,simulate_of_returned hsearch,?_,.load hpage ?_ rfl⟩
  · refine paged_of_table htable' htail' ?_ ?_ ?_ ?_ ?_ ?_
    · exact h.prAlgo_eq
    · exact hsize
    · exact h.maxPages_eq
    · rw [List.length_append]
      exact hroom
    · rw [hpages]
      exact List.nodup_append.mpr ⟨hnodup,List.nodup_singleton _,fun a ha b hb hab =>
        hmem (List.mem_singleton.mp hb ▸ hab ▸ ha)⟩
    · intro e he
      rcases List.mem_append.mp he with he | he
      · exact h.statuses e he
      · exact List.mem_singleton.mp he ▸ hstatus
  · rw [residentPages_eq hsize,← hpages]
    apply residentPages_of_table htable' htail'
    exact hsize

/-- What is left of the entries when their flags may be cleared. -/
theorem exists_entries_reset (reset : Bool) (bits : ℕ) (hstatuses : ∀ e ∈ entries, e.status ∈ categories) :
    ∃ entries' : List PTE,
      (if reset = true then resetFlags entries.length (entries.map some++[none])
        else entries.map some++[none]) = entries'.map some++[none] ∧
      entries'.length = entries.length ∧ entries'.map (PTE.page bits) = entries.map (PTE.page bits) ∧
      ∀ e ∈ entries', e.status ∈ categories := by
  cases reset with
  | false => exact ⟨entries,rfl,rfl,rfl,hstatuses⟩
  | true =>
    refine ⟨entries.map PTE.cleared,resetFlags_full entries,List.length_map _,?_,?_⟩
    · rw [List.map_map]
      rfl
    · intro e he
      obtain ⟨e,-,rfl⟩ := List.mem_map.mp he
      exact List.mem_cons_self

/-- The page is not resident and the table is full. -/
theorem replace (hpos : 0 < maxPages) (h : Paged prAlgo pageSize maxPages s)
    (hpage : access.page pageSize ∉ s.residentPages) (hroom : ¬s.entries.length < maxPages) :
    ∃ t, simulation_simulateMemoryAccess access s = .ok t ∧ Paged prAlgo pageSize maxPages t ∧
      Accessed (access.page pageSize) s t := by
  obtain ⟨tail,htable,htail⟩ := h.table
  have hsize := h.pageSize_eq
  have hnodup := h.nodup
  have hmem := hpage
  rw [residentPages_eq hsize] at hmem hnodup
  have hne := page_ne_of_not_mem hmem
  have hlength : s.entries.length = maxPages := by
    have := h.length_le
    omega
  have hsearch : searchTable s.ticked (getNeededBits (s.info.pageSize*1024))
      (access.page s.info.pageSize) access.rw s.info.maxPages s.pageTableList =
      (s.entries.map some++[none],s.ticked,false) := by
    rw [hsize,h.maxPages_eq,htable,searchTable_table htail hne h.length_le,← hlength,
      searchTable_full hne]
  obtain ⟨entries,hreset,hlen,hpages,hstatuses⟩ := exists_entries_reset
    (resetDue s.ticked s.lastFlagResetTime) (getNeededBits (pageSize*1024)) h.statuses
  obtain ⟨writes,hwrites⟩ := createPTE_info s.ticked
    (access.page pageSize <<< getNeededBits (pageSize*1024)) access.rw
  have hnew := page_createPTE s.ticked access.address access.rw pageSize
  have hstatus := status_createPTE s.ticked
    (access.page pageSize <<< getNeededBits (pageSize*1024)) access.rw
  have hsim := simulate_full hsearch
  rw [hsize,h.maxPages_eq,← hlength,hreset,hwrites] at hsim
  change PTE.page _ (createPTE s.ticked
    (access.page pageSize <<< getNeededBits (pageSize*1024)) access.rw).1 = access.page pageSize at hnew
  generalize (createPTE s.ticked
    (access.page pageSize <<< getNeededBits (pageSize*1024)) access.rw).1 = new at *
  have hne' : entries ≠ [] := by
    rw [← List.length_pos_iff,hlen,hlength]
    exact hpos
  have hfull : entries.length = { s.ticked with pageWrites := writes }.maxPages :=
    (hlen.trans hlength).trans h.maxPages_eq.symm
  obtain ⟨⟨info,table⟩,hr⟩ := exists_pageFault_replace access.random new hfull hne' hstatuses
  have hreplaced : _ ∧ Replaced (getNeededBits (pageSize*1024)) entries new table :=
    replaced_pageFault_replace hfull hne' hr
  obtain ⟨rfl,node,hnode,entries',htable',hflags⟩ := hreplaced
  rw [hr] at hsim
  have hpages' : entries'.map (PTE.page (getNeededBits (pageSize*1024))) =
      (s.entries.map (PTE.page (getNeededBits (pageSize*1024)))).set node (access.page pageSize) := by
    have hfst := congrArg (List.map Prod.fst) hflags
    rw [List.map_map,List.map_set,List.map_map] at hfst
    rw [← hpages,← hnew]
    exact hfst
  refine ⟨_,hsim,?_,.replace hpage node ?_ ?_ rfl⟩
  · refine paged_of_table htable' (.inl rfl) ?_ ?_ ?_ ?_ ?_ ?_
    · exact h.prAlgo_eq
    · exact hsize
    · exact h.maxPages_eq
    · have hl := congrArg List.length hpages'
      rw [List.length_map,List.length_set,List.length_map] at hl
      exact (hl.trans hlength).le
    · rw [hpages']
      exact hnodup.set hmem
    · intro e he
      have hmem' := List.mem_map_of_mem (f := PTE.flags (getNeededBits (pageSize*1024))) he
      rw [hflags] at hmem'
      rcases List.mem_or_eq_of_mem_set hmem' with hmem' | heq
      · obtain ⟨e',he',hsame⟩ := List.mem_map.mp hmem'
        have hs : e'.status = e.status := congrArg Prod.snd hsame
        exact hs ▸ hstatuses e' he'
      · have hs : e.status = new.status := congrArg Prod.snd heq
        exact hs ▸ hstatus
  · rw [residentPages_eq hsize,List.length_map,← hlen]
    exact hnode
  · rw [residentPages_eq hsize,← hpages']
    apply residentPages_of_table htable' (.inl rfl)
    exact hsize

/-- No access is refused. -/
theorem step (hpos : 0 < maxPages) (h : Paged prAlgo pageSize maxPages s) (access : Access) :
    ∃ t, simulation_simulateMemoryAccess access s = .ok t ∧ Paged prAlgo pageSize maxPages t ∧
      Accessed (access.page pageSize) s t := by
  by_cases hpage : access.page pageSize ∈ s.residentPages
  · exact h.hit hpage
  · by_cases hroom : s.entries.length < maxPages
    · exact h.load hpage hroom
    · exact h.replace hpos hpage hroom

end Paged

theorem mem_set_of_nodup {l : List (BitVec 32)} (hl : l.Nodup) {node : ℕ} (hnode : node < l.length)
    (a x : BitVec 32) : x ∈ l.set node a ↔ x = a ∨ x ≠ l[node] ∧ x ∈ l := by
  obtain ⟨before,after,hsplit,rfl⟩ : ∃ before after, l = before++l[node]::after ∧
      before.length = node :=
    ⟨l.take node,l.drop (node+1),by simp,by rw [List.length_take]; omega⟩
  generalize l[before.length] = y at hsplit ⊢
  subst hsplit
  obtain ⟨hy,-⟩ := List.nodup_cons.mp (List.nodup_middle.mp hl)
  have hset : (before++y::after).set before.length a = before++a::after := by simp
  rw [hset,List.mem_append,List.mem_cons,List.mem_append,List.mem_cons]
  rw [List.mem_append,not_or] at hy
  constructor
  · rintro (hx | rfl | hx)
    · exact .inr ⟨fun h => hy.1 (h ▸ hx),.inl hx⟩
    · exact .inl rfl
    · exact .inr ⟨fun h => hy.2 (h ▸ hx),.inr (.inr hx)⟩
  · rintro (rfl | ⟨hne,hx | rfl | hx⟩)
    · exact .inr (.inl rfl)
    · exact .inl hx
    · exact absurd rfl hne
    · exact .inr (.inr hx)

/-- An access is served on demand. -/
theorem Accessed.serves {page : BitVec 32} {faults : ℕ} (h : Accessed page s t)
    (hnodup : s.residentPages.Nodup) (hfaults : s.info.pageFaults = wrap32 faults) :
    ∃ faults', Serves s.residentPages.toFinset faults page t.residentPages.toFinset faults' ∧
      t.info.pageFaults = wrap32 faults' ∧ faults' ≤ faults+1 := by
  have hwrap : wrap32 (wrap32 faults+1) = wrap32 (faults+1 : ℕ) := Int.bmod_add_bmod
  cases h with
  | hit mem pages same =>
    refine ⟨faults,?_,same.trans hfaults,Nat.le_succ _⟩
    rw [pages]
    exact .hit (List.mem_toFinset.mpr mem)
  | load notMem pages more =>
    refine ⟨faults+1,?_,by rw [more,hfaults,hwrap],Nat.le_refl _⟩
    have hset : t.residentPages.toFinset = insert page s.residentPages.toFinset := by
      ext x
      simp [pages]
    rw [hset]
    exact .load fun h => notMem (List.mem_toFinset.mp h)
  | replace notMem node lt pages more =>
    refine ⟨faults+1,?_,by rw [more,hfaults,hwrap],Nat.le_refl _⟩
    have hset : t.residentPages.toFinset =
        insert page (s.residentPages.toFinset.erase s.residentPages[node]) := by
      ext x
      rw [pages,List.mem_toFinset,Finset.mem_insert,Finset.mem_erase,List.mem_toFinset]
      exact mem_set_of_nodup hnodup lt page x
    rw [hset]
    exact .replace (fun h => notMem (List.mem_toFinset.mp h)) _

/-- The simulator after a trace. -/
structure Simulated (prAlgo : PageReplacementAlgorithm) (pageSize maxPages : ℕ)
    (trace : List Access) (s : State) (faults : ℕ) : Prop where
  paged : Paged prAlgo pageSize maxPages s
  demand : Paging maxPages (trace.map (Access.page pageSize)) s.residentPages.toFinset faults
  pageFaults : s.info.pageFaults = wrap32 faults
  faults_le : faults ≤ trace.length

theorem exists_simulated (prAlgo : PageReplacementAlgorithm) (pageSize : ℕ) (hpos : 0 < maxPages)
    (trace : List Access) : ∃ s faults, simulate (start prAlgo pageSize maxPages) trace = .ok s ∧
      Simulated prAlgo pageSize maxPages trace s faults := by
  induction trace using List.reverseRecOn with
  | nil =>
    refine ⟨_,0,rfl,paged_start prAlgo pageSize maxPages,.nil,?_,Nat.le_refl _⟩
    show 0 = wrap32 0
    decide
  | append_singleton trace access ih =>
    obtain ⟨s,faults,hs,h⟩ := ih
    obtain ⟨t,ht,hpaged,haccessed⟩ := h.paged.step hpos access
    obtain ⟨faults',hserves,hfaults,hle⟩ := haccessed.serves h.paged.nodup h.pageFaults
    refine ⟨t,faults',(simulate_append hs access).trans ht,hpaged,?_,hfaults,?_⟩
    · rw [List.map_append,List.map_singleton]
      apply h.demand.snoc hserves
      rw [List.toFinset_card_of_nodup hpaged.nodup,residentPages_eq hpaged.pageSize_eq,List.length_map]
      exact hpaged.length_le
    · have := h.faults_le
      rw [List.length_append,List.length_singleton]
      omega

/-- Whatever the command line and the trace, no access is refused, the resident pages are distinct and
fit in the memory, and the faults are those of a cache that loads on demand. -/
theorem simulate_of_configure {pageSizeKB physicalMemorySizeKB : ℤ}
    (h : simulation_configure prAlgo pageSizeKB physicalMemorySizeKB = .ok s) (trace : List Access) :
    ∃ (t : State) (faults : ℕ), simulate s trace = .ok t ∧ t.residentPages.Nodup ∧
      t.residentPages.length ≤ s.info.maxPages ∧ t.info.pageFaults = wrap32 faults ∧
      Paging s.info.maxPages (trace.map (Access.page s.info.pageSize))
        t.residentPages.toFinset faults := by
  obtain ⟨pageSize,maxPages,hpos,rfl⟩ := start_of_configure h
  obtain ⟨t,faults,ht,hsim⟩ := exists_simulated prAlgo pageSize hpos trace
  refine ⟨t,faults,ht,hsim.paged.nodup,?_,hsim.pageFaults,hsim.demand⟩
  rw [residentPages_eq hsim.paged.pageSize_eq,List.length_map]
  exact hsim.paged.length_le

/-- SEC with four frames. -/
theorem simulate_of_configure_sec : ∃ (t : State) (faults : ℕ),
    simulate (start .PR_SEC 32 4) ([1,2,3,4,1,5,2].map readOf) = .ok t ∧ t.residentPages.Nodup ∧
      t.residentPages.length ≤ 4 ∧ t.info.pageFaults = wrap32 faults ∧
      Paging 4 (([1,2,3,4,1,5,2].map readOf).map (Access.page 32)) t.residentPages.toFinset faults :=
  @simulate_of_configure .PR_SEC (start .PR_SEC 32 4) 32 128 rfl _

/-- With more frames LRU keeps the pages that it keeps with fewer, and has no more faults. -/
theorem lru_monotone (pageSize : ℕ) {m n : ℕ} (hm : 0 < m) (hmn : m ≤ n) (trace : List Access)
    (hlen : trace.length < 2^31) :
    ∃ s t, simulate (start .PR_LRU pageSize m) trace = .ok s ∧
      simulate (start .PR_LRU pageSize n) trace = .ok t ∧ s.residentPages ⊆ t.residentPages ∧
      t.info.pageFaults ≤ s.info.pageFaults := by
  have htracks (k : ℕ) (hk : 0 < k) : ∃ s, simulate (start .PR_LRU pageSize k) trace = .ok s ∧
      Tracks pageSize k trace s := tracks_simulate hk trace hlen
  obtain ⟨s,hs,hm'⟩ := htracks m hm
  obtain ⟨t,ht,hn'⟩ := htracks n (hm.trans_le hmn)
  refine ⟨s,t,hs,ht,?_,?_⟩
  · intro page hpage
    rw [hn'.isLru.mem_iff]
    exact recent_subset hm hmn _ ((hm'.isLru.mem_iff page).mp hpage)
  · rw [hn'.pageFaults,hm'.pageFaults]
    exact_mod_cast faults_le_faults hm hmn _

theorem lru_monotone_three : ∃ s t,
    simulate (start .PR_LRU 32 3) ([1,2,3,4,1,5,2].map readOf) = .ok s ∧
      simulate (start .PR_LRU 32 4) ([1,2,3,4,1,5,2].map readOf) = .ok t ∧
      s.residentPages ⊆ t.residentPages ∧ t.info.pageFaults ≤ s.info.pageFaults :=
  lru_monotone 32 (by omega) (by omega) _ (by simp)

/-- With at least as many frames as another algorithm has, LRU has at most as many times its faults as
that one has frames. -/
theorem lru_competitive (prAlgo : PageReplacementAlgorithm) (pageSize : ℕ) {m n : ℕ} (hm : 0 < m)
    (hmn : m ≤ n) (trace : List Access) (hlen : trace.length < 2^31) :
    ∃ s t, simulate (start .PR_LRU pageSize n) trace = .ok s ∧
      simulate (start prAlgo pageSize m) trace = .ok t ∧
      s.info.pageFaults ≤ m*t.info.pageFaults := by
  have htracks : ∃ s, simulate (start .PR_LRU pageSize n) trace = .ok s ∧
      Tracks pageSize n trace s := tracks_simulate (hm.trans_le hmn) trace hlen
  obtain ⟨s,hs,hlru⟩ := htracks
  obtain ⟨t,faults,ht,hsim⟩ := exists_simulated prAlgo pageSize hm trace
  have hle := hsim.faults_le
  have hmono := faults_le_faults hm hmn (trace.map (Access.page pageSize))
  have hcompetes := hsim.demand.faults_lru_le hm
  refine ⟨s,t,hs,ht,?_⟩
  rw [hlru.pageFaults,hsim.pageFaults,wrap32_of_lt (by omega) (by omega),textbook]
  exact_mod_cast hmono.trans hcompetes

theorem lru_competitive_sec : ∃ s t,
    simulate (start .PR_LRU 32 4) ([1,2,3,4,1,5,2].map readOf) = .ok s ∧
      simulate (start .PR_SEC 32 3) ([1,2,3,4,1,5,2].map readOf) = .ok t ∧
      s.info.pageFaults ≤ 3*t.info.pageFaults :=
  lru_competitive .PR_SEC 32 (by omega) (by omega) _ (by simp)

end PucRio.SimVirtual
