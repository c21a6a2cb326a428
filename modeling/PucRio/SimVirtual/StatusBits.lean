import PucRio.Lib.TransitionSystem
import PucRio.SimVirtual.LeastRecentlyUsed

/-! What the status of a page says. A bit is set by the last access alone, and the pages that count as
written are those that have been loaded for a write. -/
namespace PucRio.SimVirtual

def PTE.referenced (e : PTE) : Bool := e.status &&& REFERENCED_PAGE != 0

def PTE.modified (e : PTE) : Bool := e.status &&& MODIFIED_PAGE != 0

/-- The page of an entry and its status. -/
def PTE.flags (bits : ℕ) (e : PTE) : BitVec 32 × BitVec 8 := (e.page bits,e.status)

section Replacement
variable {info : SimulationInfo} {bits k node : ℕ} {new : PTE} {entries : List PTE}
  {table : PageTable}

theorem set_map_some_append (h : node < entries.length) (new : PTE) (tail : PageTable) :
    (entries.map some++tail).set node (some new) = (entries.set node new).map some++tail := by
  rw [List.set_append_left _ _ (by simpa using h),List.map_set]

/-- The table with a new entry at one of its nodes; of the others the page and the status are as they
were. -/
def Replaced (bits : ℕ) (entries : List PTE) (new : PTE) (table : PageTable) : Prop :=
  ∃ node < entries.length, ∃ entries' : List PTE, table = entries'.map some++[none] ∧
    entries'.map (PTE.flags bits) = (entries.map (PTE.flags bits)).set node (new.flags bits)

theorem replaced_set (h : node < entries.length) :
    Replaced bits entries new ((entries.map some++[none]).set node (some new)) :=
  ⟨node,h,entries.set node new,set_map_some_append h new [none],List.map_set⟩

theorem earliestNode_lt (hne : entries ≠ []) {time : ℤ}
    (h : earliestNode (entries.map some++[none]) entries.length 0 0 time = .ok node) :
    node < entries.length := by
  have hpos := List.length_pos_of_ne_nil hne
  obtain ⟨node',hnode,⟨hzero,-⟩ | ⟨l,e,r,hl,hlen,-⟩⟩ := earliestNode_eq [] entries [none] 0 time
  · obtain rfl : node' = node := Except.ok.inj (hnode.symm.trans h)
    omega
  · obtain rfl : node' = node := Except.ok.inj (hnode.symm.trans h)
    rw [hlen,hl,List.length_append,List.length_cons,List.length_nil]
    omega

theorem replaced_lru (hlen : entries.length = info.maxPages) (hne : entries ≠ [])
    (h : algo_lru info new (entries.map some++[none]) = .ok table) :
    Replaced bits entries new table := by
  unfold algo_lru at h
  rw [← hlen] at h
  cases hnode : earliestNode (entries.map some++[none]) entries.length 0 0 info.time with
  | error e =>
    rw [hnode] at h
    cases h
  | ok node =>
    rw [hnode] at h
    obtain rfl : _ = table := Except.ok.inj h
    exact replaced_set (earliestNode_lt hne hnode)

/-- An entry whose page and status stay. -/
theorem map_flags_set {e e' : PTE} (h : entries[node]? = some e)
    (hflags : e'.flags bits = e.flags bits) :
    (entries.set node e').map (PTE.flags bits) = entries.map (PTE.flags bits) := by
  obtain ⟨hnode,he⟩ := List.getElem?_eq_some_iff.mp h
  rw [List.map_set,hflags,← he,← List.getElem_map (PTE.flags bits),List.set_getElem_self]
  simpa using hnode

theorem Replaced.congr {entries' : List PTE}
    (hflags : entries'.map (PTE.flags bits) = entries.map (PTE.flags bits))
    (h : Replaced bits entries' new table) : Replaced bits entries new table := by
  obtain ⟨node,hnode,rest⟩ := h
  have hlen := congrArg List.length hflags
  rw [List.length_map,List.length_map] at hlen
  rw [hflags] at rest
  exact ⟨node,hlen ▸ hnode,rest⟩

/-- Passing an entry over changes neither its page nor its status. -/
theorem replaced_sec (fuel : ℕ) (hlen : entries.length = info.maxPages) (hne : entries ≠ [])
    (h : algo_sec info new fuel (entries.map some++[none]) = .ok table) :
    Replaced bits entries new table := by
  induction fuel generalizing entries with
  | zero => cases h
  | succ fuel ih =>
    rw [algo_sec,← hlen] at h
    cases hnode : earliestNode (entries.map some++[none]) entries.length 0 0 info.time with
    | error e =>
      rw [hnode] at h
      cases h
    | ok node =>
      have hlt := earliestNode_lt hne hnode
      have hget : (entries.map some++[none])[node]? = some (some entries[node]) := by
        rw [List.getElem?_append_left (by simpa using hlt),List.getElem?_map,
          List.getElem?_eq_getElem hlt]
        rfl
      simp only [hnode,bind,Except.bind,hget] at h
      split_ifs at h with hbit
      · rw [set_map_some_append hlt] at h
        refine Replaced.congr (map_flags_set (List.getElem?_eq_getElem hlt) ?_)
          (ih ((List.length_set).trans hlen) ?_ h)
        · rfl
        · rw [← List.length_pos_iff,List.length_set]
          exact List.length_pos_of_ne_nil hne
      · obtain rfl : _ = table := Except.ok.inj h
        exact replaced_set hlt

theorem length_statuses {l : PageTable} {i : ℕ} {found : List (BitVec 8)}
    (h : statuses l k i = .ok found) : found.length = k := by
  induction k generalizing i found with
  | zero =>
    obtain rfl : [] = found := Except.ok.inj h
    rfl
  | succ k ih =>
    rw [statuses] at h
    split at h
    · cases h
    · cases h
    · cases hrest : statuses l k (i+1) with
      | error e =>
        rw [hrest] at h
        cases h
      | ok rest =>
        rw [hrest] at h
        obtain rfl : _ = found := Except.ok.inj h
        rw [List.length_cons,ih hrest]

theorem nodeOfStatus_lt {status : BitVec 8} {randomIndex i counter : ℕ} {found : List (BitVec 8)}
    (h : nodeOfStatus status randomIndex i counter found = some node) : node < i+found.length := by
  induction found generalizing i counter with
  | nil => cases h
  | cons s found ih =>
    rw [nodeOfStatus] at h
    rw [List.length_cons]
    split_ifs at h with hs hcounter
    · obtain rfl := Option.some.inj h
      omega
    · have := ih h
      omega
    · have := ih h
      omega

theorem replaced_nru {random : ℕ} (hlen : entries.length = info.maxPages)
    (h : algo_nru info random new (entries.map some++[none]) = .ok table) :
    Replaced bits entries new table := by
  unfold algo_nru at h
  cases hfound : statuses (entries.map some++[none]) info.maxPages 0 with
  | error e =>
    rw [hfound] at h
    cases h
  | ok found =>
    simp only [hfound,bind,Except.bind] at h
    split at h
    · cases h
    · split at h
      · cases h
      · rename_i node hnode
        obtain rfl : _ = table := Except.ok.inj h
        have hlt := nodeOfStatus_lt hnode
        rw [length_statuses hfound,← hlen,Nat.zero_add] at hlt
        exact replaced_set hlt

/-- Whatever the algorithm. -/
theorem replaced_pageFault_replace {info' : SimulationInfo} {random : ℕ}
    (hlen : entries.length = info.maxPages) (hne : entries ≠ [])
    (h : pageFault_replace info random new (entries.map some++[none]) = .ok (info',table)) :
    info' = { info with pageFaults := wrap32 (info.pageFaults+1) } ∧
      Replaced bits entries new table := by
  have hbind {i : SimulationInfo} {r : Except Stop PageTable}
      (hr : (r >>= fun table => .ok (i,table)) = Except.ok (info',table)) :
      info' = i ∧ r = .ok table := by
    cases r with
    | error e => cases hr
    | ok table' =>
      obtain ⟨rfl,rfl⟩ := Prod.mk.inj (Except.ok.inj hr)
      exact ⟨rfl,rfl⟩
  obtain ⟨pageSize,faults,writes,time,prAlgo,maxPages⟩ := info
  cases prAlgo with
  | PR_NRU =>
    obtain ⟨rfl,hr⟩ := hbind h
    exact ⟨rfl,replaced_nru hlen hr⟩
  | PR_LRU =>
    obtain ⟨rfl,hr⟩ := hbind h
    exact ⟨rfl,replaced_lru hlen hne hr⟩
  | PR_SEC =>
    obtain ⟨rfl,hr⟩ := hbind h
    refine ⟨rfl,replaced_sec (maxPages+1) ?_ hne hr⟩
    exact hlen

end Replacement

/-- What has happened to the pages: since a page was loaded, since it was loaded or the flags were
reset, and whether the last of these accesses was a write; and how many pages have been loaded for a
write and how many written ones have been evicted. -/
structure Log where
  written : BitVec 32 → Bool
  accessed : BitVec 32 → Bool
  writtenLast : BitVec 32 → Bool
  writtenLoads : ℕ
  evictedWritten : ℕ

namespace Log
variable (log : Log)

def empty : Log := ⟨fun _ => false,fun _ => false,fun _ => false,0,0⟩

def reset : Log :=
  { log with
    accessed := fun _ => false
    writtenLast := fun _ => false }

def hit (page : BitVec 32) (rw : Char) : Log :=
  { log with
    written := Function.update log.written page (log.written page || rw == 'W')
    accessed := Function.update log.accessed page true
    writtenLast := Function.update log.writtenLast page (rw == 'W') }

def load (page : BitVec 32) (rw : Char) : Log :=
  { log with
    written := Function.update log.written page (rw == 'W')
    accessed := Function.update log.accessed page false
    writtenLast := Function.update log.writtenLast page (rw == 'W')
    writtenLoads := log.writtenLoads+if rw = 'W' then 1 else 0 }

def evict (pages : List (BitVec 32)) : Log :=
  { log with evictedWritten := log.evictedWritten+pages.countP log.written }

end Log

namespace State
variable (s : State)

def bits : ℕ := getNeededBits (s.info.pageSize*1024)

def entries : List PTE := s.pageTableList.reduceOption

/-- Whether the access resets the flags: a fault in a full table, when it is time. -/
def resets (access : Access) : Bool :=
  access.page s.info.pageSize ∉ s.residentPages && s.info.maxPages ≤ s.entries.length &&
    resetDue s.ticked s.lastFlagResetTime

end State

/-- What the access that leads from `s` to `t` adds to the log. -/
def Log.next (s t : State) (access : Access) (log : Log) : Log :=
  let page := access.page s.info.pageSize
  if page ∈ s.residentPages then log.hit page access.rw
  else
    let log := log.evict (s.residentPages.filter (· ∉ t.residentPages))
    (if s.resets access then log.reset else log).load page access.rw

/-- The configured simulator with its log. -/
def logged (prAlgo : PageReplacementAlgorithm) (pageSize maxPages : ℕ) :
    TransitionSystem (State × Log) Access where
  init := (start prAlgo pageSize maxPages,Log.empty)
  step x access := match simulation_simulateMemoryAccess access x.1 with
    | .ok t => some (t,x.2.next x.1 t access)
    | .error _ => none

/-- The bits and the count say what has happened. -/
structure Truthful (x : State × Log) : Prop where
  modified : ∀ e ∈ x.1.entries, e.modified = x.2.written (e.page x.1.bits)
  referenced : ∀ e ∈ x.1.entries, e.referenced = x.2.accessed (e.page x.1.bits)
  pageWrites : x.1.info.pageWrites = x.2.evictedWritten

/-- What the status of a page says of it. -/
def Log.Fits (log : Log) (f : BitVec 32 × BitVec 8) : Prop :=
  (f.2 &&& REFERENCED_PAGE != 0) = log.accessed f.1 ∧
    (f.2 &&& MODIFIED_PAGE != 0) = log.writtenLast f.1 ∧
    (log.writtenLast f.1 = true → log.written f.1 = true)

section Fits
variable {log : Log} {f : BitVec 32 × BitVec 8} {page : BitVec 32}

theorem fits_reset (log : Log) (page : BitVec 32) : log.reset.Fits (page,0) := by
  have hmodified : ((0 : BitVec 8) &&& MODIFIED_PAGE != 0) = false := by decide
  have hreferenced : ((0 : BitVec 8) &&& REFERENCED_PAGE != 0) = false := by decide
  exact ⟨hreferenced,hmodified,fun h => absurd h Bool.false_ne_true⟩

theorem fits_hit (log : Log) (page : BitVec 32) (info : SimulationInfo) (e : PTE) (rw : Char) :
    (log.hit page rw).Fits (page,(accessMemory info e rw).status) := by
  unfold Log.Fits Log.hit accessMemory
  simp only [Function.update_self]
  by_cases hrw : rw = 'W'
  · rw [if_pos hrw,hrw]
    exact ⟨by decide,by decide,fun _ => by simp⟩
  · rw [if_neg hrw,beq_false_of_ne hrw]
    exact ⟨by decide,by decide,fun h => absurd h Bool.false_ne_true⟩

theorem createPTE_status (info : SimulationInfo) (a : BitVec 32) (rw : Char) :
    (createPTE info a rw).1.status = if rw = 'W' then MODIFIED_PAGE else 0 := by
  unfold createPTE
  split_ifs <;> rfl

theorem fits_load (log : Log) (page : BitVec 32) (info : SimulationInfo) (a : BitVec 32) (rw : Char) :
    (log.load page rw).Fits (page,(createPTE info a rw).1.status) := by
  unfold Log.Fits Log.load
  simp only [Function.update_self,createPTE_status]
  by_cases hrw : rw = 'W'
  · rw [if_pos hrw,hrw]
    exact ⟨by decide,by decide,id⟩
  · rw [if_neg hrw,beq_false_of_ne hrw]
    exact ⟨by decide,by decide,id⟩

theorem Log.Fits.hit (h : log.Fits f) (hne : f.1 ≠ page) (rw : Char) : (log.hit page rw).Fits f := by
  unfold Log.Fits Log.hit
  simp only [Function.update_of_ne hne]
  exact h

theorem Log.Fits.load (h : log.Fits f) (hne : f.1 ≠ page) (rw : Char) :
    (log.load page rw).Fits f := by
  unfold Log.Fits Log.load
  simp only [Function.update_of_ne hne]
  exact h

end Fits

/-- What the simulator and its log keep along every trace. -/
structure Kept (pageSize maxPages : ℕ) (x : State × Log) : Prop where
  pageSize_eq : x.1.info.pageSize = pageSize
  maxPages_eq : x.1.info.maxPages = maxPages
  table : ∃ tail, x.1.pageTableList = x.1.entries.map some++tail ∧
    (tail = [none] ∨ tail = [] ∧ x.1.entries ≠ [])
  length_le : x.1.entries.length ≤ maxPages
  nodup : x.1.residentPages.Nodup
  fits : ∀ f ∈ x.1.entries.map (PTE.flags x.1.bits), x.2.Fits f
  pageWrites : x.1.info.pageWrites = wrap32 x.2.writtenLoads

theorem Kept.truthful_iff {pageSize maxPages : ℕ} {x : State × Log} (h : Kept pageSize maxPages x) :
    Truthful x ↔ (∀ e ∈ x.1.entries, x.2.written (e.page x.1.bits) = true →
      x.2.writtenLast (e.page x.1.bits) = true) ∧ wrap32 x.2.writtenLoads = x.2.evictedWritten := by
  have hfits : ∀ e ∈ x.1.entries, x.2.Fits (e.flags x.1.bits) :=
    fun e he => h.fits _ (List.mem_map_of_mem he)
  constructor
  · intro htruth
    refine ⟨fun e he hwritten => ?_,h.pageWrites.symm.trans htruth.pageWrites⟩
    exact (hfits e he).2.1.symm.trans ((htruth.modified e he).trans hwritten)
  · intro hcond
    refine ⟨fun e he => ?_,fun e he => (hfits e he).1,h.pageWrites.trans hcond.2⟩
    refine (hfits e he).2.1.trans ?_
    rw [Bool.eq_iff_iff]
    exact ⟨(hfits e he).2.2,hcond.1 e he⟩

section Steps
variable {pageSize maxPages : ℕ} {s t : State} {log log' : Log} {access : Access}
  {entries : List PTE} {tail : PageTable}

theorem entries_of_table (htable : t.pageTableList = entries.map some++tail)
    (htail : tail = [none] ∨ tail = [] ∧ entries ≠ []) : t.entries = entries := by
  rw [State.entries,htable,List.reduceOption_append,reduceOption_map_some]
  rcases htail with rfl | ⟨rfl,-⟩
  · exact List.append_nil _
  · exact List.append_nil _

/-- The state after an access, by what its entries say. -/
theorem kept_of_table (htable : t.pageTableList = entries.map some++tail)
    (htail : tail = [none] ∨ tail = [] ∧ entries ≠ []) (hsize : t.info.pageSize = pageSize)
    (hmax : t.info.maxPages = maxPages) (hlen : entries.length ≤ maxPages)
    (hnodup : (entries.map (PTE.page (getNeededBits (pageSize*1024)))).Nodup)
    (hfits : ∀ e ∈ entries, log.Fits (e.flags (getNeededBits (pageSize*1024))))
    (hwrites : t.info.pageWrites = wrap32 log.writtenLoads) : Kept pageSize maxPages (t,log) := by
  have hentries := entries_of_table htable htail
  have hbits : t.bits = getNeededBits (pageSize*1024) := by rw [State.bits,hsize]
  constructor
  · exact hsize
  · exact hmax
  · rw [hentries]
    exact ⟨tail,htable,htail⟩
  · rw [hentries]
    exact hlen
  · show (t.entries.map (PTE.page t.bits)).Nodup
    rw [hentries,hbits]
    exact hnodup
  · rw [hentries,hbits]
    intro f hf
    obtain ⟨e,he,rfl⟩ := List.mem_map.mp hf
    exact hfits e he
  · exact hwrites

theorem kept_start (prAlgo : PageReplacementAlgorithm) (pageSize maxPages : ℕ) :
    Kept pageSize maxPages (start prAlgo pageSize maxPages,Log.empty) := by
  have htable : (start prAlgo pageSize maxPages).pageTableList = ([] : List PTE).map some++[none] :=
    rfl
  refine kept_of_table htable (.inl rfl) rfl rfl (Nat.zero_le _) List.nodup_nil ?_ ?_
  · exact fun _ hf => absurd hf List.not_mem_nil
  · show 0 = wrap32 0
    decide

/-- What is known of the table before an access. -/
theorem Kept.exists_entries (h : Kept pageSize maxPages (s,log)) : ∃ entries tail,
    s.entries = entries ∧ s.pageTableList = entries.map some++tail ∧
      (tail = [none] ∨ tail = [] ∧ entries ≠ []) ∧ entries.length ≤ maxPages ∧
      s.residentPages = entries.map (PTE.page (getNeededBits (pageSize*1024))) ∧
      (entries.map (PTE.page (getNeededBits (pageSize*1024)))).Nodup ∧
      ∀ e ∈ entries, log.Fits (e.flags (getNeededBits (pageSize*1024))) := by
  obtain ⟨tail,htable,htail⟩ := h.table
  have hbits : s.bits = getNeededBits (pageSize*1024) := by
    rw [State.bits,show s.info.pageSize = pageSize from h.pageSize_eq]
  have hresident : s.residentPages = s.entries.map (PTE.page (getNeededBits (pageSize*1024))) := by
    rw [← hbits]
    rfl
  refine ⟨s.entries,tail,rfl,htable,htail,h.length_le,hresident,hresident ▸ h.nodup,?_⟩
  intro e he
  exact hbits ▸ h.fits _ (List.mem_map_of_mem he)

/-- The page is resident. -/
theorem Kept.hit (h : Kept pageSize maxPages (s,log)) (hpage : access.page pageSize ∈ s.residentPages)
    (ht : simulation_simulateMemoryAccess access s = .ok t) :
    Kept pageSize maxPages (t,log.hit (access.page pageSize) access.rw) := by
  obtain ⟨entries,tail,-,htable,htail,hle,hresident,hnodup,hfits⟩ := h.exists_entries
  have hsize : s.info.pageSize = pageSize := h.pageSize_eq
  have hmax : s.info.maxPages = maxPages := h.maxPages_eq
  rw [hresident] at hpage
  obtain ⟨e,he,hepage⟩ := List.mem_map.mp hpage
  obtain ⟨before,after,rfl⟩ := List.append_of_mem he
  have hne : ∀ e' ∈ before ++ after, e'.page (getNeededBits (pageSize*1024)) ≠
      access.page pageSize := by
    rw [List.map_append,List.map_cons,hepage] at hnodup
    intro e' he' heq
    apply (List.nodup_cons.mp (List.nodup_middle.mp hnodup)).1
    rw [← List.map_append]
    exact heq ▸ List.mem_map_of_mem he'
  have hsearch : searchTable s.ticked (getNeededBits (s.info.pageSize*1024))
      (access.page s.info.pageSize) access.rw s.info.maxPages s.pageTableList =
      (before.map some++some (accessMemory s.ticked e access.rw)::(after.map some++tail),
        s.ticked,true) := by
    have hk : before.length < maxPages := by
      rw [List.length_append,List.length_cons] at hle
      omega
    rw [hsize,hmax,htable,List.map_append,List.map_cons,List.append_assoc]
    exact searchTable_hit (fun e' he' => hne e' (List.mem_append_left _ he')) hepage hk
  obtain rfl := Except.ok.inj ((simulate_of_returned hsearch).symm.trans ht)
  have htable' : before.map some++some (accessMemory s.ticked e access.rw)::(after.map some++tail) =
      (before ++ accessMemory s.ticked e access.rw::after).map some++tail := by simp
  refine kept_of_table htable' (by simpa using htail) hsize hmax (by simpa using hle) ?_ ?_
    h.pageWrites
  · have hsame : (before ++ accessMemory s.ticked e access.rw::after).map
        (PTE.page (getNeededBits (pageSize*1024))) = (before ++ e::after).map
        (PTE.page (getNeededBits (pageSize*1024))) := by
      rw [List.map_append,List.map_append,List.map_cons,List.map_cons]
      rfl
    exact hsame ▸ hnodup
  · intro e' he'
    rcases List.mem_append.mp he' with he' | he'
    · refine (hfits _ (List.mem_append_left _ he')).hit ?_ _
      exact hne e' (List.mem_append_left _ he')
    · rcases List.mem_cons.mp he' with rfl | he'
      · have hflags : (accessMemory s.ticked e access.rw).flags (getNeededBits (pageSize*1024)) =
            (access.page pageSize,(accessMemory s.ticked e access.rw).status) := Prod.ext hepage rfl
        rw [hflags]
        exact fits_hit _ _ _ _ _
      · refine (hfits _ (List.mem_append_right _ (List.mem_cons_of_mem _ he'))).hit ?_ _
        exact hne e' (List.mem_append_right _ he')

theorem page_ne_of_not_mem {bits : ℕ} {page : BitVec 32} (h : page ∉ entries.map (PTE.page bits)) :
    ∀ e ∈ entries, e.page bits ≠ page := fun _ he heq => h (heq ▸ List.mem_map_of_mem he)

theorem createPTE_flags (info : SimulationInfo) (bits : ℕ) (a : BitVec 32) (rw : Char) :
    (createPTE info ((a >>> bits) <<< bits) rw).1.flags bits =
      (a >>> bits,(createPTE info ((a >>> bits) <<< bits) rw).1.status) := by
  have hstamp := congrArg Prod.fst (createPTE_stamp info bits a rw)
  exact Prod.ext hstamp rfl

/-- Loads for a write are counted by the `int`. -/
theorem createPTE_pageWrites {info : SimulationInfo} (h : info.pageWrites = wrap32 log.writtenLoads)
    (a : BitVec 32) (page : BitVec 32) (rw : Char) :
    (createPTE info a rw).2.pageWrites = wrap32 (log.load page rw).writtenLoads := by
  unfold createPTE Log.load
  split_ifs with hrw
  · show wrap32 (info.pageWrites+1) = _
    rw [h]
    exact Int.bmod_add_bmod
  · exact h

/-- The page is not resident and there is room. -/
theorem Kept.add (h : Kept pageSize maxPages (s,log)) (hpage : access.page pageSize ∉ s.residentPages)
    (hroom : s.entries.length < maxPages)
    (ht : simulation_simulateMemoryAccess access s = .ok t) :
    Kept pageSize maxPages (t,log.load (access.page pageSize) access.rw) := by
  obtain ⟨entries,tail,hentries,htable,htail,hle,hresident,hnodup,hfits⟩ := h.exists_entries
  have hsize : s.info.pageSize = pageSize := h.pageSize_eq
  have hmax : s.info.maxPages = maxPages := h.maxPages_eq
  rw [hresident] at hpage
  rw [hentries] at hroom
  have hne := page_ne_of_not_mem hpage
  have hsearch : searchTable s.ticked (getNeededBits (s.info.pageSize*1024))
      (access.page s.info.pageSize) access.rw s.info.maxPages s.pageTableList =
      ((entries++[(createPTE s.ticked
        (access.page pageSize <<< getNeededBits (pageSize*1024)) access.rw).1]).map some,
        pageFault_add (createPTE s.ticked
          (access.page pageSize <<< getNeededBits (pageSize*1024)) access.rw).2,true) := by
    rw [hsize,hmax,htable,searchTable_table htail hne hle,searchTable_add hne hroom]
  obtain rfl := Except.ok.inj ((simulate_of_returned hsearch).symm.trans ht)
  obtain ⟨writes,hwrites⟩ := createPTE_info s.ticked
    (access.page pageSize <<< getNeededBits (pageSize*1024)) access.rw
  have hnew := createPTE_flags s.ticked (getNeededBits (pageSize*1024)) access.address access.rw
  have hnewpage : (createPTE s.ticked (access.page pageSize <<< getNeededBits (pageSize*1024))
      access.rw).1.page (getNeededBits (pageSize*1024)) = access.page pageSize :=
    congrArg Prod.fst hnew
  have htable' : (entries++[(createPTE s.ticked (access.page pageSize <<<
      getNeededBits (pageSize*1024)) access.rw).1]).map some =
      (entries++[(createPTE s.ticked (access.page pageSize <<<
        getNeededBits (pageSize*1024)) access.rw).1]).map some++[] := (List.append_nil _).symm
  refine kept_of_table htable' (.inr ⟨rfl,by simp⟩) ?_ ?_ ?_ ?_ ?_ ?_
  · rw [hwrites]
    exact hsize
  · rw [hwrites]
    exact hmax
  · rw [List.length_append]
    exact hroom
  · rw [List.map_append,List.map_singleton]
    refine List.nodup_append.mpr ⟨hnodup,List.nodup_singleton _,fun a ha b hb => ?_⟩
    rw [List.mem_singleton.mp hb]
    intro heq
    rw [heq,hnewpage] at ha
    exact hpage ha
  · intro e he
    rcases List.mem_append.mp he with he | he
    · exact (hfits e he).load (hne e he) _
    · obtain rfl := List.mem_singleton.mp he
      rw [Access.page,hnew]
      exact fits_load _ _ _ _ _
  · have hwrites : s.ticked.pageWrites = wrap32 log.writtenLoads := h.pageWrites
    exact createPTE_pageWrites hwrites _ _ _

def PTE.cleared (e : PTE) : PTE := { e with status := 0 }

/-- All flags are cleared in a full table. -/
theorem resetFlags_full (entries : List PTE) :
    resetFlags entries.length (entries.map some++[none]) =
      (entries.map PTE.cleared).map some++[none] := by
  induction entries with
  | nil => rfl
  | cons e entries ih =>
    rw [List.length_cons,List.map_cons,List.cons_append,resetFlags,ih]
    rfl

/-- The flags that a fault in a full table has reset, if it has. -/
theorem exists_cleared (reset : Bool)
    (hfits : ∀ e ∈ entries, log.Fits (e.flags (getNeededBits (pageSize*1024)))) :
    ∃ entries' : List PTE,
      (if reset = true then resetFlags entries.length (entries.map some++[none])
        else entries.map some++[none]) = entries'.map some++[none] ∧
      entries'.length = entries.length ∧
      entries'.map (PTE.page (getNeededBits (pageSize*1024))) =
        entries.map (PTE.page (getNeededBits (pageSize*1024))) ∧
      ∀ e ∈ entries', (if reset = true then log.reset else log).Fits
        (e.flags (getNeededBits (pageSize*1024))) := by
  cases reset with
  | false => exact ⟨entries,rfl,rfl,rfl,hfits⟩
  | true =>
    refine ⟨entries.map PTE.cleared,resetFlags_full entries,List.length_map _,?_,?_⟩
    · rw [List.map_map]
      rfl
    · intro e he
      obtain ⟨e,-,rfl⟩ := List.mem_map.mp he
      exact fits_reset _ _

theorem simulate_full {table : PageTable}
    (h : searchTable s.ticked (getNeededBits (s.info.pageSize*1024))
      (access.page s.info.pageSize) access.rw s.info.maxPages s.pageTableList =
        (table,s.ticked,false)) :
    simulation_simulateMemoryAccess access s =
      (pageFault_replace (createPTE s.ticked (access.page s.info.pageSize <<<
          getNeededBits (s.info.pageSize*1024)) access.rw).2 access.random
        (createPTE s.ticked (access.page s.info.pageSize <<<
          getNeededBits (s.info.pageSize*1024)) access.rw).1
        (if resetDue s.ticked s.lastFlagResetTime = true then resetFlags s.info.maxPages table
          else table)).map fun r =>
      { s with
        info := r.1
        pageTableList := r.2 } := by
  simp only [State.ticked,Access.page] at h
  unfold simulation_simulateMemoryAccess
  simp only [h]
  rfl

/-- One of the entries has made room for another page. -/
theorem kept_of_replaced {new : PTE} {rw : Char} {table : PageTable}
    (h : Replaced (getNeededBits (pageSize*1024)) entries new table)
    (htable : t.pageTableList = table) (hsize : t.info.pageSize = pageSize)
    (hmax : t.info.maxPages = maxPages) (hlen : entries.length ≤ maxPages)
    (hnodup : (entries.map (PTE.page (getNeededBits (pageSize*1024)))).Nodup)
    (hpage : new.page (getNeededBits (pageSize*1024)) ∉
      entries.map (PTE.page (getNeededBits (pageSize*1024))))
    (hfits : ∀ e ∈ entries, log.Fits (e.flags (getNeededBits (pageSize*1024))))
    (hnew : (log.load (new.page (getNeededBits (pageSize*1024))) rw).Fits
      (new.flags (getNeededBits (pageSize*1024))))
    (hwrites : t.info.pageWrites =
      wrap32 (log.load (new.page (getNeededBits (pageSize*1024))) rw).writtenLoads) :
    Kept pageSize maxPages (t,log.load (new.page (getNeededBits (pageSize*1024))) rw) := by
  obtain ⟨node,hnode,entries',rfl,hflags⟩ := h
  have hpages : entries'.map (PTE.page (getNeededBits (pageSize*1024))) =
      (entries.map (PTE.page (getNeededBits (pageSize*1024)))).set node
        (new.page (getNeededBits (pageSize*1024))) := by
    have hfst := congrArg (List.map Prod.fst) hflags
    rw [List.map_map,List.map_set,List.map_map] at hfst
    exact hfst
  refine kept_of_table htable (.inl rfl) hsize hmax ?_ ?_ ?_ hwrites
  · have hlength := congrArg List.length hflags
    rw [List.length_map,List.length_set,List.length_map] at hlength
    exact hlength ▸ hlen
  · rw [hpages]
    exact hnodup.set hpage
  · intro e he
    have hmem := List.mem_map_of_mem (f := PTE.flags (getNeededBits (pageSize*1024))) he
    rw [hflags] at hmem
    rcases List.mem_or_eq_of_mem_set hmem with hmem | heq
    · obtain ⟨e',he',hsame⟩ := List.mem_map.mp hmem
      rw [← hsame]
      exact (hfits e' he').load (fun heq => hpage (List.mem_map.mpr ⟨e',he',heq⟩)) _
    · rw [heq]
      exact hnew

/-- The page is not resident and the table is full. -/
theorem Kept.replace (hpages : 0 < maxPages) (h : Kept pageSize maxPages (s,log))
    (hpage : access.page pageSize ∉ s.residentPages) (hroom : ¬s.entries.length < maxPages)
    (ht : simulation_simulateMemoryAccess access s = .ok t) :
    Kept pageSize maxPages
      (t,(if s.resets access then log.reset else log).load (access.page pageSize) access.rw) := by
  obtain ⟨entries,tail,hentries,htable,htail,hle,hresident,hnodup,hfits⟩ := h.exists_entries
  have hsize : s.info.pageSize = pageSize := h.pageSize_eq
  have hmax : s.info.maxPages = maxPages := h.maxPages_eq
  have hresets : s.resets access = resetDue s.ticked s.lastFlagResetTime := by
    simp only [State.resets,hsize,hmax,hpage,not_lt.mp hroom]
    simp
  rw [hresident] at hpage
  rw [hentries] at hroom
  have hlength : entries.length = maxPages := by omega
  have hne := page_ne_of_not_mem hpage
  have hsearch : searchTable s.ticked (getNeededBits (s.info.pageSize*1024))
      (access.page s.info.pageSize) access.rw s.info.maxPages s.pageTableList =
      (entries.map some++[none],s.ticked,false) := by
    rw [hsize,hmax,htable,searchTable_table htail hne hle,← hlength,searchTable_full hne]
  obtain ⟨cleared,hcleared,hlencleared,hpagecleared,hfitscleared⟩ :=
    exists_cleared (resetDue s.ticked s.lastFlagResetTime) hfits
  rw [hresets]
  rw [simulate_full hsearch,hsize,hmax,← hlength,hcleared] at ht
  have hticked : s.ticked.pageWrites = wrap32 log.writtenLoads := h.pageWrites
  have hwrites := createPTE_pageWrites hticked
    (access.page pageSize <<< getNeededBits (pageSize*1024)) (access.page pageSize) access.rw
  have hnew : (createPTE s.ticked (access.page pageSize <<< getNeededBits (pageSize*1024))
      access.rw).1.page (getNeededBits (pageSize*1024)) = access.page pageSize :=
    congrArg Prod.fst (createPTE_flags s.ticked _ access.address access.rw)
  obtain ⟨writes,hinfo⟩ := createPTE_info s.ticked
    (access.page pageSize <<< getNeededBits (pageSize*1024)) access.rw
  have hnewfits := fits_load (if resetDue s.ticked s.lastFlagResetTime = true then log.reset else log)
    (access.page pageSize) s.ticked (access.page pageSize <<< getNeededBits (pageSize*1024)) access.rw
  change (pageFault_replace _ _ _ _).map _ = _ at ht
  generalize createPTE s.ticked _ access.rw = new at ht hwrites hnew hinfo hnewfits
  cases hr : pageFault_replace new.2 access.random new.1 (cleared.map some++[none]) with
  | error e =>
    rw [hr] at ht
    cases ht
  | ok r =>
    rw [hr] at ht
    obtain rfl := Except.ok.inj ht
    have hne' : cleared ≠ [] := by
      rw [← List.length_pos_iff,hlencleared,hlength]
      exact hpages
    have hfull : cleared.length = new.2.maxPages := by
      rw [hinfo]
      exact (hlencleared.trans hlength).trans hmax.symm
    obtain ⟨hr₁,hr₂⟩ : r.1 = { new.2 with pageFaults := wrap32 (new.2.pageFaults+1) } ∧
        Replaced (getNeededBits (pageSize*1024)) cleared new.1 r.2 :=
      replaced_pageFault_replace hfull hne' hr
    rw [← hnew] at hnewfits hpage ⊢
    refine kept_of_replaced hr₂ rfl ?_ ?_ ?_ (hpagecleared ▸ hnodup) (hpagecleared ▸ hpage)
      hfitscleared hnewfits ?_
    · show r.1.pageSize = pageSize
      rw [hr₁,hinfo]
      exact hsize
    · show r.1.maxPages = maxPages
      rw [hr₁,hinfo]
      exact hmax
    · exact (hlencleared.trans hlength).le
    · show r.1.pageWrites = _
      rw [hr₁]
      refine hwrites.trans ?_
      split_ifs <;> rfl

/-- The count of evicted pages says nothing of the state. -/
theorem Kept.evict (h : Kept pageSize maxPages (t,log)) (n : ℕ) :
    Kept pageSize maxPages (t,{ log with evictedWritten := n }) :=
  ⟨h.pageSize_eq,h.maxPages_eq,h.table,h.length_le,h.nodup,h.fits,h.pageWrites⟩

theorem Kept.next (hpages : 0 < maxPages) (h : Kept pageSize maxPages (s,log))
    (ht : simulation_simulateMemoryAccess access s = .ok t) :
    Kept pageSize maxPages (t,log.next s t access) := by
  have hsize : s.info.pageSize = pageSize := h.pageSize_eq
  have hmax : s.info.maxPages = maxPages := h.maxPages_eq
  by_cases hpage : access.page pageSize ∈ s.residentPages
  · have hnext : log.next s t access = log.hit (access.page pageSize) access.rw := by
      simp only [Log.next,hsize,if_pos hpage]
    rw [hnext]
    exact h.hit hpage ht
  · have hnext : log.next s t access =
        { (if s.resets access then log.reset else log).load (access.page pageSize) access.rw with
          evictedWritten :=
            (log.evict (s.residentPages.filter (· ∉ t.residentPages))).evictedWritten } := by
      simp only [Log.next,hsize,if_neg hpage]
      split_ifs <;> rfl
    rw [hnext]
    apply Kept.evict
    by_cases hroom : s.entries.length < maxPages
    · have hresets : s.resets access = false := by
        simp only [State.resets,hmax,Nat.not_le.mpr hroom]
        simp
      rw [hresets]
      exact h.add hpage hroom ht
    · exact h.replace hpages hpage hroom ht

end Steps

/-- After every trace the REFERENCED bits are truthful; all is if and only if each page that has been
written since its load was last accessed by a write, with no reset since, and as many pages have been
loaded for a write as written ones have been evicted. -/
theorem truthful_iff_of_reachable {prAlgo : PageReplacementAlgorithm} {pageSize maxPages : ℕ}
    (hpages : 0 < maxPages) {x : State × Log}
    (h : (logged prAlgo pageSize maxPages).Reachable x) :
    (∀ e ∈ x.1.entries, e.referenced = x.2.accessed (e.page x.1.bits)) ∧
    (Truthful x ↔ (∀ e ∈ x.1.entries, x.2.written (e.page x.1.bits) = true →
      x.2.writtenLast (e.page x.1.bits) = true) ∧ wrap32 x.2.writtenLoads = x.2.evictedWritten) := by
  have hkept : Kept pageSize maxPages x := by
    refine TransitionSystem.GuardedRun.invariant h (kept_start prAlgo pageSize maxPages) ?_
    rintro ⟨s,log⟩ access ⟨t,log'⟩ hs - hstep
    change (match simulation_simulateMemoryAccess access s with
      | .ok t => some (t,log.next s t access)
      | .error _ => none) = _ at hstep
    split at hstep
    · rename_i hsim
      obtain ⟨rfl,rfl⟩ := Prod.mk.inj (Option.some.inj hstep)
      exact hs.next hpages hsim
    · cases hstep
  refine ⟨fun e he => ?_,hkept.truthful_iff⟩
  exact (hkept.fits _ (List.mem_map_of_mem he)).1

/-- A page is loaded, read and written again. -/
theorem truthful_iff_of_reachable_reads : ∃ x, (logged .PR_NRU 32 4).Reachable x ∧ Truthful x := by
  obtain ⟨x,hx,hp⟩ := TransitionSystem.exists_reachable_of_exec (T := logged .PR_NRU 32 4)
    (l := [⟨0,'R',0⟩,⟨0,'R',0⟩,⟨0,'W',0⟩])
    (p := fun x => (∀ e ∈ x.1.entries, x.2.written (e.page x.1.bits) = true →
      x.2.writtenLast (e.page x.1.bits) = true) ∧ wrap32 x.2.writtenLoads = x.2.evictedWritten)
    (by decide +kernel)
  rw [decide_eq_true_eq] at hp
  exact ⟨x,hx,(truthful_iff_of_reachable (by omega) hx).2.mpr hp⟩

/-- A page that has been written is read: it counts as not modified. And one that has been loaded for a
write counts as written, though nothing has been evicted. -/
theorem not_truthful_write_read :
    (∃ x, (logged .PR_NRU 32 4).Reachable x ∧ ∃ e ∈ x.1.entries, e.modified = false ∧
      x.2.written (e.page x.1.bits) = true) ∧
    ∃ x, (logged .PR_NRU 32 4).Reachable x ∧ x.1.info.pageWrites = 1 ∧ x.2.evictedWritten = 0 := by
  obtain ⟨x,hx,hp⟩ := TransitionSystem.exists_reachable_of_exec (T := logged .PR_NRU 32 4)
    (l := [⟨0,'R',0⟩,⟨0,'W',0⟩,⟨0,'R',0⟩])
    (p := fun x => ∃ e ∈ x.1.entries, e.modified = false ∧ x.2.written (e.page x.1.bits) = true)
    (by decide +kernel)
  obtain ⟨y,hy,hq⟩ := TransitionSystem.exists_reachable_of_exec (T := logged .PR_NRU 32 4)
    (l := [⟨0,'W',0⟩]) (p := fun x => x.1.info.pageWrites = 1 ∧ x.2.evictedWritten = 0)
    (by decide +kernel)
  rw [decide_eq_true_eq] at hp hq
  exact ⟨⟨x,hx,hp⟩,y,hy,hq⟩

end PucRio.SimVirtual
