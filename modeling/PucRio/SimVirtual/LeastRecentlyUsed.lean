import PucRio.SimVirtual.Table
import PucRio.Lib.Recency
import Mathlib.Data.List.ReduceOption

/-! With LRU the simulator keeps the pages that the recency list keeps, as long as its clock is in
the range of an `int`: the stamps of its entries are the order of that list. -/
namespace PucRio.SimVirtual
open Recency
variable {pageSize maxPages : ℕ} {trace : List Access} {s : State} {access : Access}

/-- The page that an access asks for. -/
def Access.page (pageSize : ℕ) (access : Access) : BitVec 32 :=
  access.address >>> getNeededBits (pageSize*1024)

def State.residentPages (s : State) : List (BitVec 32) :=
  s.pageTableList.reduceOption.map (PTE.page (getNeededBits (s.info.pageSize*1024)))

/-- The cache that least recently used has after the trace. -/
def textbook (pageSize maxPages : ℕ) (trace : List Access) : Cache (BitVec 32) :=
  lru maxPages (trace.map (Access.page pageSize))

/-- After the trace the simulator is where least recently used is. -/
structure IsLru (pageSize maxPages : ℕ) (trace : List Access) (s : State) : Prop where
  nodup : s.residentPages.Nodup
  length_le : s.residentPages.length ≤ maxPages
  mem_iff : ∀ page, page ∈ s.residentPages ↔ page ∈ (textbook pageSize maxPages trace).recent
  pageFaults : s.info.pageFaults = (textbook pageSize maxPages trace).faults

/-- What the simulator keeps along a trace: its clock counts the accesses, and its entries are
stamped in the order of the recency list. -/
structure Tracks (pageSize maxPages : ℕ) (trace : List Access) (s : State) : Prop where
  prAlgo : s.info.prAlgo = .PR_LRU
  pageSize_eq : s.info.pageSize = pageSize
  maxPages_eq : s.info.maxPages = maxPages
  time : s.info.time = trace.length
  pageFaults : s.info.pageFaults = (textbook pageSize maxPages trace).faults
  faults_le : (textbook pageSize maxPages trace).faults ≤ trace.length
  table : ∃ entries tail, s.pageTableList = entries.map some++tail ∧
    (tail = [none] ∨ tail = [] ∧ entries ≠ []) ∧ entries.length ≤ maxPages ∧
    Stamped trace.length (entries.map (PTE.stamp (getNeededBits (pageSize*1024))))
      (textbook pageSize maxPages trace).recent

theorem tracks_start (pageSize maxPages : ℕ) :
    Tracks pageSize maxPages [] (start .PR_LRU pageSize maxPages) where
  prAlgo := rfl
  pageSize_eq := rfl
  maxPages_eq := rfl
  time := rfl
  pageFaults := rfl
  faults_le := Nat.le_refl _
  table := ⟨[],[none],rfl,.inl rfl,Nat.zero_le _,Stamped.nil _⟩

theorem reduceOption_map_some (entries : List PTE) :
    (entries.map some).reduceOption = entries := by
  induction entries with
  | nil => rfl
  | cons e entries ih => rw [List.map_cons,List.reduceOption_cons_of_some,ih]

theorem Tracks.isLru (h : Tracks pageSize maxPages trace s) : IsLru pageSize maxPages trace s := by
  obtain ⟨entries,tail,htable,htail,hlen,hstamped⟩ := h.table
  have hresident : s.residentPages =
      (entries.map (PTE.stamp (getNeededBits (pageSize*1024)))).map Prod.fst := by
    have hentries : s.pageTableList.reduceOption = entries := by
      rw [htable,List.reduceOption_append,reduceOption_map_some]
      rcases htail with rfl | ⟨rfl,-⟩ <;> exact List.append_nil _
    rw [State.residentPages,hentries,h.pageSize_eq,List.map_map]
    rfl
  constructor
  · rw [hresident]
    exact hstamped.nodup_keys
  · rw [hresident,List.length_map,List.length_map]
    exact hlen
  · intro page
    rw [hresident,hstamped.mem_iff]
  · exact h.pageFaults

theorem textbook_append (pageSize maxPages : ℕ) (trace : List Access) (access : Access) :
    textbook pageSize maxPages (trace++[access]) =
      (textbook pageSize maxPages trace).access maxPages (access.page pageSize) := by
  rw [textbook,List.map_append]
  exact lru_append _ _ _

theorem perm_stamps (bits : ℕ) (l : List PTE) (e : PTE) (r : List PTE) :
    ((l++e::r).map (PTE.stamp bits)).Perm (e.stamp bits::(l++r).map (PTE.stamp bits)) :=
  List.perm_middle.map _

/-- What the access looks for its page with: the clock has moved. -/
def State.ticked (s : State) : SimulationInfo := { s.info with time := wrap32 (s.info.time+1) }

theorem simulate_of_returned {l : PageTable} {info : SimulationInfo}
    (h : searchTable s.ticked (getNeededBits (s.info.pageSize*1024))
      (access.page s.info.pageSize) access.rw s.info.maxPages s.pageTableList = (l,info,true)) :
    simulation_simulateMemoryAccess access s =
      .ok { s with
        info := info
        pageTableList := l } := by
  simp only [State.ticked,Access.page] at h
  simp only [simulation_simulateMemoryAccess,h]
  rfl

/-- A fault in a full table: flags may be cleared, then the new entry replaces another. -/
theorem simulate_of_full {entries : List PTE}
    (h : searchTable s.ticked (getNeededBits (s.info.pageSize*1024))
      (access.page s.info.pageSize) access.rw s.info.maxPages s.pageTableList =
        (entries.map some++[none],s.ticked,false)) :
    ∃ (entries' : List PTE) (writes : ℤ) (newPTE : PTE),
      entries'.map (PTE.stamp (getNeededBits (s.info.pageSize*1024))) =
        entries.map (PTE.stamp (getNeededBits (s.info.pageSize*1024))) ∧
      newPTE.stamp (getNeededBits (s.info.pageSize*1024)) =
        (access.page s.info.pageSize,s.ticked.time) ∧
      simulation_simulateMemoryAccess access s =
        (pageFault_replace { s.ticked with pageWrites := writes } access.random newPTE
          (entries'.map some++[none])).map fun r =>
            { s with
              info := r.1
              pageTableList := r.2 } := by
  obtain ⟨entries',hreset,hstamps⟩ : ∃ entries' : List PTE,
      (if resetDue s.ticked s.lastFlagResetTime then
        resetFlags s.info.maxPages (entries.map some++[none])
        else entries.map some++[none]) = entries'.map some++[none] ∧
      entries'.map (PTE.stamp (getNeededBits (s.info.pageSize*1024))) =
        entries.map (PTE.stamp (getNeededBits (s.info.pageSize*1024))) := by
    split_ifs
    · exact resetFlags_eq _ _
    · exact ⟨entries,rfl,rfl⟩
  obtain ⟨writes,hwrites⟩ := createPTE_info s.ticked
    (access.page s.info.pageSize <<< getNeededBits (s.info.pageSize*1024)) access.rw
  refine ⟨entries',writes,_,hstamps,createPTE_stamp s.ticked _ _ access.rw,?_⟩
  rw [← hwrites,← hreset]
  simp only [State.ticked,Access.page] at h
  unfold simulation_simulateMemoryAccess
  simp only [h]
  rfl

/-- The simulator after an access that leaves it this clock, count of faults and table. -/
theorem Tracks.append (h : Tracks pageSize maxPages trace s) (s' : State) (entries : List PTE)
    (tail : PageTable) {cache : Cache (BitVec 32)}
    (hcache : (textbook pageSize maxPages trace).access maxPages (access.page pageSize) = cache)
    (hprAlgo : s'.info.prAlgo = s.info.prAlgo) (hsize : s'.info.pageSize = s.info.pageSize)
    (hmax : s'.info.maxPages = s.info.maxPages) (htime : s'.info.time = trace.length+1)
    (hfaults : s'.info.pageFaults = cache.faults)
    (htable : s'.pageTableList = entries.map some++tail)
    (htail : tail = [none] ∨ tail = [] ∧ entries ≠ []) (hlen : entries.length ≤ maxPages)
    (hstamped : Stamped (trace.length+1)
      (entries.map (PTE.stamp (getNeededBits (pageSize*1024)))) cache.recent) :
    Tracks pageSize maxPages (trace++[access]) s' := by
  have htext := (textbook_append pageSize maxPages trace access).trans hcache
  have hlength : (trace++[access]).length = trace.length+1 := by simp
  constructor
  · rw [hprAlgo,h.prAlgo]
  · rw [hsize,h.pageSize_eq]
  · rw [hmax,h.maxPages_eq]
  · rw [htime,hlength]
    rfl
  · rw [hfaults,htext]
  · rw [textbook_append,hlength]
    exact (faults_access_le _ _ _).trans (Nat.succ_le_succ h.faults_le)
  · rw [htext,hlength]
    exact ⟨entries,tail,htable,htail,hlen,hstamped⟩

variable {entries : List PTE} {tail : PageTable}

theorem Tracks.ticked_time (h : Tracks pageSize maxPages trace s) (hlen : trace.length+1 < 2^31) :
    s.ticked.time = trace.length+1 := by
  show wrap32 (s.info.time+1) = _
  rw [h.time]
  exact wrap32_of_lt (by omega) (by omega)

theorem Tracks.wrap32_pageFaults (h : Tracks pageSize maxPages trace s)
    (hlen : trace.length+1 < 2^31) :
    wrap32 (s.info.pageFaults+1) = ((textbook pageSize maxPages trace).faults+1 : ℕ) := by
  have hle := h.faults_le
  rw [h.pageFaults,wrap32_of_lt (by omega) (by omega)]
  rfl

/-- The page is resident. -/
theorem Tracks.step_hit (h : Tracks pageSize maxPages trace s) (hlen : trace.length+1 < 2^31)
    (hpage : access.page pageSize ∈ (textbook pageSize maxPages trace).recent) :
    ∃ s', simulation_simulateMemoryAccess access s = .ok s' ∧
      Tracks pageSize maxPages (trace++[access]) s' := by
  obtain ⟨entries,tail,htable,htail,hle,hstamped⟩ := h.table
  obtain ⟨x,hx,hxpage⟩ := List.mem_map.mp (hstamped.mem_iff.mp hpage)
  obtain ⟨e,he,rfl⟩ := List.mem_map.mp hx
  obtain ⟨before,after,rfl⟩ := List.append_of_mem he
  have hbefore : ∀ e' ∈ before, e'.page (getNeededBits (pageSize*1024)) ≠
      access.page pageSize := by
    intro e' he' heq
    have hnd := hstamped.nodup_keys
    rw [List.map_map,List.map_append,List.map_cons] at hnd
    apply (List.nodup_cons.mp (List.nodup_middle.mp hnd)).1
    apply List.mem_append_left
    exact List.mem_map.mpr ⟨e',he',heq.trans hxpage.symm⟩
  have hsearch : searchTable s.ticked (getNeededBits (s.info.pageSize*1024))
      (access.page s.info.pageSize) access.rw s.info.maxPages s.pageTableList =
      (before.map some++some (accessMemory s.ticked e access.rw)::(after.map some++tail),
        s.ticked,true) := by
    have hk : before.length < maxPages := by
      rw [List.length_append,List.length_cons] at hle
      omega
    rw [h.pageSize_eq,h.maxPages_eq,htable,List.map_append,List.map_cons,List.append_assoc]
    exact searchTable_hit hbefore hxpage hk
  have hperm := perm_stamps (getNeededBits (pageSize*1024)) before e after
  have hperm' := perm_stamps (getNeededBits (pageSize*1024)) before
    (accessMemory s.ticked e access.rw) after
  have he₁ : e.stamp (getNeededBits (pageSize*1024)) = (access.page pageSize,e.lastAccessTime) :=
    Prod.ext hxpage rfl
  have he₂ : (accessMemory s.ticked e access.rw).stamp (getNeededBits (pageSize*1024)) =
      (access.page pageSize,(trace.length : ℤ)+1) := Prod.ext hxpage (h.ticked_time hlen)
  rw [he₁] at hperm
  rw [he₂] at hperm'
  refine ⟨_,simulate_of_returned hsearch,?_⟩
  apply h.append _ (before++accessMemory s.ticked e access.rw::after) tail
    (Cache.access_hit maxPages hpage)
  · rfl
  · rfl
  · rfl
  · exact h.ticked_time hlen
  · exact h.pageFaults
  · simp
  · simpa using htail
  · simpa using hle
  · exact hstamped.hit (by omega) hperm hperm'

/-- Where the page is not resident, the loop finds the table with a last node. -/
theorem searchTable_table {info : SimulationInfo} {bits k : ℕ} {page : BitVec 32} {rw : Char}
    (htail : tail = [none] ∨ tail = [] ∧ entries ≠ [])
    (hentries : ∀ e ∈ entries, e.page bits ≠ page) (hk : entries.length ≤ k) :
    searchTable info bits page rw k (entries.map some++tail) =
      searchTable info bits page rw k (entries.map some++[none]) := by
  rcases htail with rfl | ⟨rfl,hne⟩
  · rfl
  · rw [List.append_nil,searchTable_append_none hne hentries hk]

theorem page_ne_of_stamped {now : ℤ} {recent : List (BitVec 32)} {page : BitVec 32} {bits : ℕ}
    (h : Stamped now (entries.map (PTE.stamp bits)) recent) (hpage : page ∉ recent) :
    ∀ e ∈ entries, e.page bits ≠ page := by
  intro e he heq
  apply hpage
  rw [h.mem_iff,List.map_map]
  exact List.mem_map.mpr ⟨e,he,heq⟩

/-- The page is not resident and there is room. -/
theorem Tracks.step_add (h : Tracks pageSize maxPages trace s) (hlen : trace.length+1 < 2^31)
    (hpage : access.page pageSize ∉ (textbook pageSize maxPages trace).recent)
    (hroom : (textbook pageSize maxPages trace).recent.length < maxPages) :
    ∃ s', simulation_simulateMemoryAccess access s = .ok s' ∧
      Tracks pageSize maxPages (trace++[access]) s' := by
  obtain ⟨entries,tail,htable,htail,hle,hstamped⟩ := h.table
  have hne := page_ne_of_stamped hstamped hpage
  have hlength : entries.length < maxPages := by
    rw [hstamped.length_eq,List.length_map] at hroom
    exact hroom
  obtain ⟨writes,hwrites⟩ := createPTE_info s.ticked
    (access.page pageSize <<< getNeededBits (pageSize*1024)) access.rw
  have hsearch : searchTable s.ticked (getNeededBits (s.info.pageSize*1024))
      (access.page s.info.pageSize) access.rw s.info.maxPages s.pageTableList =
      ((entries++[(createPTE s.ticked
        (access.page pageSize <<< getNeededBits (pageSize*1024)) access.rw).1]).map some,
        pageFault_add { s.ticked with pageWrites := writes },true) := by
    rw [h.pageSize_eq,h.maxPages_eq,htable,searchTable_table htail hne hle,
      searchTable_add hne hlength,hwrites]
  have hstamp := createPTE_stamp s.ticked (getNeededBits (pageSize*1024)) access.address access.rw
  rw [h.ticked_time hlen] at hstamp
  refine ⟨_,simulate_of_returned hsearch,?_⟩
  apply h.append _ _ [] (Cache.access_add hpage hroom)
  · rfl
  · rfl
  · rfl
  · exact h.ticked_time hlen
  · exact h.wrap32_pageFaults hlen
  · exact (List.append_nil _).symm
  · exact .inr ⟨rfl,by simp⟩
  · rw [List.length_append]
    exact hlength
  · apply hstamped.add hpage (by omega)
    rw [List.map_append,List.map_singleton]
    exact hstamp ▸ List.perm_append_singleton _ _

/-- The page is not resident and the table is full. -/
theorem Tracks.step_replace (h : Tracks pageSize maxPages trace s)
    (hlen : trace.length+1 < 2^31) (hpages : 0 < maxPages)
    (hpage : access.page pageSize ∉ (textbook pageSize maxPages trace).recent)
    (hroom : ¬(textbook pageSize maxPages trace).recent.length < maxPages) :
    ∃ s', simulation_simulateMemoryAccess access s = .ok s' ∧
      Tracks pageSize maxPages (trace++[access]) s' := by
  obtain ⟨entries,tail,htable,htail,hle,hstamped⟩ := h.table
  have hne := page_ne_of_stamped hstamped hpage
  have hlength : entries.length = maxPages := by
    rw [hstamped.length_eq,List.length_map] at hroom
    omega
  have hsearch : searchTable s.ticked (getNeededBits (s.info.pageSize*1024))
      (access.page s.info.pageSize) access.rw s.info.maxPages s.pageTableList =
      (entries.map some++[none],s.ticked,false) := by
    rw [h.pageSize_eq,h.maxPages_eq,htable,searchTable_table htail hne hle,← hlength,
      searchTable_full hne]
  obtain ⟨entries',writes,newPTE,hstamps,hnew,hsim⟩ := simulate_of_full hsearch
  rw [h.pageSize_eq] at hstamps hnew
  rw [h.ticked_time hlen] at hnew
  have hlength' : entries'.length = maxPages := by
    have hl := congrArg List.length hstamps
    rw [List.length_map,List.length_map] at hl
    omega
  rw [← hstamps] at hstamped
  have hpast : ∀ e ∈ entries', e.lastAccessTime < s.ticked.time := by
    intro e he
    have hl := hstamped.le_now _ (List.mem_map_of_mem he)
    rw [h.ticked_time hlen]
    exact Int.lt_add_one_of_le hl
  have hne' : entries' ≠ [] := by
    rintro rfl
    exact absurd hlength' hpages.ne
  obtain ⟨l,e,r,rfl,hmin,halgo⟩ := algo_lru_eq
    { s.ticked with
      pageWrites := writes
      pageFaults := wrap32 (s.info.pageFaults+1) }
    newPTE [none] (hlength'.trans h.maxPages_eq.symm) hne' hpast
  rw [pageFault_replace_lru { s.ticked with pageWrites := writes } h.prAlgo halgo] at hsim
  refine ⟨_,hsim,?_⟩
  apply h.append _ (l++newPTE::r) [none] (Cache.access_replace hpage hroom)
  · rfl
  · rfl
  · rfl
  · exact h.ticked_time hlen
  · exact h.wrap32_pageFaults hlen
  · rfl
  · exact .inl rfl
  · simpa using hlength'.le
  · have hperm := perm_stamps (getNeededBits (pageSize*1024)) l newPTE r
    rw [hnew] at hperm
    apply hstamped.replace hpage (by omega) (perm_stamps _ l e r) _ hperm
    intro x hx
    obtain ⟨e',he',rfl⟩ := List.mem_map.mp hx
    exact hmin e' he'

theorem Tracks.step (h : Tracks pageSize maxPages trace s) (hlen : trace.length+1 < 2^31)
    (hpages : 0 < maxPages) (access : Access) :
    ∃ s', simulation_simulateMemoryAccess access s = .ok s' ∧
      Tracks pageSize maxPages (trace++[access]) s' := by
  by_cases hpage : access.page pageSize ∈ (textbook pageSize maxPages trace).recent
  · exact h.step_hit hlen hpage
  · by_cases hroom : (textbook pageSize maxPages trace).recent.length < maxPages
    · exact h.step_add hlen hpage hroom
    · exact h.step_replace hlen hpages hpage hroom

theorem simulate_append {s' : State} (h : simulate s trace = .ok s') (access : Access) :
    simulate s (trace++[access]) = simulation_simulateMemoryAccess access s' := by
  rw [simulate,List.foldlM_append]
  show (simulate s trace >>= fun s => [access].foldlM _ s) = _
  rw [h]
  show (simulation_simulateMemoryAccess access s' >>= pure) = _
  rw [bind_pure]

/-- The invariant along a trace. -/
theorem tracks_simulate (hpages : 0 < maxPages) (trace : List Access)
    (hlen : trace.length < 2^31) :
    ∃ s, simulate (start .PR_LRU pageSize maxPages) trace = .ok s ∧
      Tracks pageSize maxPages trace s := by
  induction trace using List.reverseRecOn with
  | nil => exact ⟨_,rfl,tracks_start pageSize maxPages⟩
  | append_singleton trace access ih =>
    rw [List.length_append,List.length_singleton] at hlen
    obtain ⟨s,hs,htracks⟩ := ih (Nat.lt_of_succ_lt hlen)
    obtain ⟨s',hs',htracks'⟩ := htracks.step hlen hpages access
    exact ⟨s',(simulate_append hs access).trans hs',htracks'⟩

/-- After every trace that the clock can count, the simulator has the pages and the faults of
least recently used. -/
theorem isLru_of_length_lt (hpages : 0 < maxPages) (trace : List Access)
    (hlen : trace.length < 2^31) :
    ∃ s, simulate (start .PR_LRU pageSize maxPages) trace = .ok s ∧
      IsLru pageSize maxPages trace s := by
  obtain ⟨s,hs,htracks⟩ := tracks_simulate hpages trace hlen
  exact ⟨s,hs,htracks.isLru⟩

/-- A read of a page of 32 KB. -/
def readOf (page : ℕ) : Access := ⟨BitVec.ofNat 32 (page*2^15),'R',0⟩

theorem isLru_of_length_lt_seven : ∃ s,
    simulate (start .PR_LRU 32 4) ([1,2,3,4,1,5,2].map readOf) = .ok s ∧
      IsLru 32 4 ([1,2,3,4,1,5,2].map readOf) s :=
  isLru_of_length_lt (by omega) _ (by simp)

section Overflow

/-- Four pages are loaded and the first is read again, the last time at `time`. -/
def rereading (time : ℤ) : State where
  info := ⟨32,4,0,time,.PR_LRU,4⟩
  pageTableList := [some ⟨BitVec.ofNat 32 0,time,REFERENCED_PAGE,0x01⟩,
    some ⟨BitVec.ofNat 32 (1*2^15),2,0,0x01⟩,some ⟨BitVec.ofNat 32 (2*2^15),3,0,0x01⟩,
    some ⟨BitVec.ofNat 32 (3*2^15),4,0,0x01⟩]
  lastFlagResetTime := -1

theorem access_rereading {time : ℤ} (h₀ : 0 ≤ time) (h : time+1 < 2^31) :
    simulation_simulateMemoryAccess (readOf 0) (rereading time) = .ok (rereading (time+1)) := by
  have htick : (rereading time).ticked = (rereading (time+1)).info := by
    rw [State.ticked,rereading,wrap32_of_lt (by omega) h]
    rfl
  have hhead : PTE.page 15 ⟨BitVec.ofNat 32 0,time,REFERENCED_PAGE,0x01⟩ = (readOf 0).page 32 := by
    simp [PTE.page,Access.page,readOf]
  have hbits : getNeededBits (32*1024) = 15 := by decide +kernel
  have hsearch : searchTable (rereading time).ticked (getNeededBits (32*1024))
      ((readOf 0).page 32) 'R' 4 (rereading time).pageTableList =
        ((rereading (time+1)).pageTableList,(rereading (time+1)).info,true) := by
    rw [hbits,htick]
    exact searchTable_hit (List.forall_mem_nil _) hhead (Nat.succ_pos 3)
  exact simulate_of_returned hsearch

theorem simulate_rereading (n : ℕ) {time : ℤ} (h₀ : 0 ≤ time) (h : time+n < 2^31) :
    simulate (rereading time) (List.replicate n (readOf 0)) = .ok (rereading (time+n)) := by
  induction n generalizing time with
  | zero =>
    rw [Int.natCast_zero,Int.add_zero]
    rfl
  | succ n ih =>
    rw [List.replicate_succ]
    show (simulation_simulateMemoryAccess (readOf 0) (rereading time) >>= fun s =>
      simulate s (List.replicate n (readOf 0))) = _
    rw [access_rereading h₀ (by omega)]
    show simulate (rereading (time+1)) _ = _
    rw [ih (by omega) (by omega)]
    congr 2
    push_cast
    omega

/-- The four pages, the first one again, and `n` times more. -/
def rereadingTrace (n : ℕ) : List Access :=
  [0,1,2,3,0].map readOf++List.replicate n (readOf 0)

theorem simulate_rereadingTrace {n : ℕ} (h : n+5 < 2^31) :
    simulate (start .PR_LRU 32 4) (rereadingTrace n) = .ok (rereading (5+n)) := by
  have hload : simulate (start .PR_LRU 32 4) ([0,1,2,3,0].map readOf) = .ok (rereading 5) := by
    decide +kernel
  rw [rereadingTrace,simulate,List.foldlM_append]
  show (simulate (start .PR_LRU 32 4) ([0,1,2,3,0].map readOf) >>= fun s =>
    simulate s (List.replicate n (readOf 0))) = _
  rw [hload]
  exact simulate_rereading n (by omega) (by omega)

theorem textbook_rereadingTrace (n : ℕ) : textbook 32 4 (rereadingTrace n) = ⟨[0,3,2,1],4⟩ := by
  have hload : textbook 32 4 ([0,1,2,3,0].map readOf) = ⟨[0,3,2,1],4⟩ := by
    decide +kernel
  have hzero : (readOf 0).page 32 = 0 := by
    simp [Access.page,readOf]
  rw [textbook,rereadingTrace,List.map_append,lru,List.foldl_append,List.map_replicate,hzero]
  show (List.replicate n 0).foldl _ (textbook 32 4 ([0,1,2,3,0].map readOf)) = _
  rw [hload,foldl_access_replicate]

/-- The access that an `int` cannot count replaces a page that was not the least recently used. -/
theorem not_isLru_of_overflow : ¬∀ (pageSize maxPages : ℕ) (trace : List Access), 0 < maxPages →
    ∃ s, simulate (start .PR_LRU pageSize maxPages) trace = .ok s ∧
      IsLru pageSize maxPages trace s := by
  intro h
  obtain ⟨n,hn⟩ : ∃ n, n+5 = 2147483647 := ⟨2147483642,rfl⟩
  obtain ⟨s,hs,hlru⟩ := h 32 4 (rereadingTrace n++[readOf 4]) (by omega)
  have hpages : (simulation_simulateMemoryAccess (readOf 4) (rereading 2147483647)).map
      State.residentPages = .ok [4,1,2,3] := by
    decide +kernel
  have htime : 5+(n : ℤ) = 2147483647 := by omega
  rw [← htime,← simulate_append (simulate_rereadingTrace (by omega)),hs] at hpages
  have hrecent : (textbook 32 4 (rereadingTrace n++[readOf 4])).recent = [4,0,3,2] := by
    rw [textbook_append,textbook_rereadingTrace]
    decide +kernel
  have hmem := hlru.mem_iff 1
  rw [Except.ok.inj hpages,hrecent] at hmem
  exact absurd (hmem.mp (by decide)) (by decide)

end Overflow

/-- The configuration of the command line is one of these, with frames to use. -/
theorem start_of_configure {prAlgo : PageReplacementAlgorithm}
    {pageSizeKB physicalMemorySizeKB : ℤ}
    (h : simulation_configure prAlgo pageSizeKB physicalMemorySizeKB = .ok s) :
    ∃ pageSize maxPages, 0 < maxPages ∧ s = start prAlgo pageSize maxPages := by
  unfold simulation_configure at h
  split_ifs at h with hsize hmemory
  refine ⟨pageSizeKB.toNat,(physicalMemorySizeKB/pageSizeKB).toNat,?_,(Except.ok.inj h).symm⟩
  have hpos : 1 ≤ physicalMemorySizeKB/pageSizeKB :=
    Int.le_ediv_of_mul_le (by omega) (by omega)
  omega

end PucRio.SimVirtual
