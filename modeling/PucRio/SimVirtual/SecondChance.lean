import PucRio.SimVirtual.LoadQueue

/-! With SEC the simulator keeps the pages that second chance keeps, as long as the order of its last
accesses does what the order of the loads would: once a page has been replaced, an access to a
resident page moves no page but the last of the order or the one to go next, and what SEC leaves at
equal times is in the order of the list. -/
namespace PucRio.SimVirtual
open SecondChance

/-- The cache that second chance has after the trace. -/
def chances (pageSize maxPages : ℕ) (trace : List Access) : Cache (BitVec 32) :=
  secondChance maxPages (trace.map (Access.page pageSize))

/-- The simulator with SEC, and the trace so far. -/
def sec (pageSize maxPages : ℕ) : TransitionSystem (State × List Access) Access :=
  TransitionSystem.recorded
    { init := start .PR_SEC pageSize maxPages
      step := fun s access => (simulation_simulateMemoryAccess access s).toOption }
    fun _ access => [access]

/-- After the trace the simulator is where second chance is. -/
structure IsSecondChance (pageSize maxPages : ℕ) (x : State × List Access) : Prop where
  nodup : x.1.residentPages.Nodup
  mem_iff : ∀ page, page ∈ x.1.residentPages ↔
    page ∈ (chances pageSize maxPages x.2).queue.map Prod.fst
  pageFaults : x.1.info.pageFaults = (chances pageSize maxPages x.2).faults

section Guard
variable (s : State) (trace : List Access) (access : Access)

def lastPage : Option (BitVec 32) := trace.getLast?.map (Access.page s.info.pageSize)

/-- The page of the last access is the last of the order. -/
def LastInPlace : Prop :=
  ∀ k < s.entries.length, lastPage s trace = some ((entryAt s.entries k).page s.bits) →
    ∀ i < s.entries.length, i ≠ k → Before s.entries i k

/-- The page of the access would be the next to go: it is the first of the order, its bit is
clear. -/
def IsNext : Prop :=
  ∃ k < s.entries.length, (entryAt s.entries k).page s.bits = access.page s.info.pageSize ∧
    (entryAt s.entries k).rBit ≠ 0x01 ∧
    ∀ i < s.entries.length, i ≠ k → Before s.entries k i

/-- The nodes that a fault would pass over are in the order of the list. -/
def PassedInPlace : Prop :=
  ∀ i < s.entries.length, ∀ j < s.entries.length, PassedOver s.entries i →
    PassedOver s.entries j → Before s.entries i j → i < j

end Guard

/-- The order of the last accesses does for this access what the order of the loads would: the clock
is in the range of an `int`; and if a page has been replaced before, then a resident page is that of
the last access or the next to go, and where another page has to go nothing is out of place at equal
times. -/
def Orderly (x : State × List Access) (access : Access) : Prop :=
  x.1.info.time+1 < 2^31 ∧
  (x.1.info.pageFaults = x.1.entries.length ∨
    (access.page x.1.info.pageSize ∈ x.1.residentPages →
      lastPage x.1 x.2 = some (access.page x.1.info.pageSize) ∨
        LastInPlace x.1 x.2 ∧ IsNext x.1 access) ∧
    (access.page x.1.info.pageSize ∉ x.1.residentPages → LastInPlace x.1 x.2 ∧ PassedInPlace x.1))

/-- The table against the cache, before any page has been replaced or after. -/
def Stage (bits maxPages : ℕ) (now : ℤ) (last : Option (BitVec 32)) (entries : List PTE)
    (cache : Cache (BitVec 32)) : Prop :=
  cache.faults = entries.length ∧ Filling bits now entries cache.queue ∨
    (entries.length = maxPages ∧ entries.length < cache.faults) ∧ ∃ older newest rest chanced,
      Queued bits now last entries cache.queue older newest rest chanced

/-- What the simulator keeps along a trace. -/
structure Follows (pageSize maxPages : ℕ) (x : State × List Access) : Prop where
  prAlgo : x.1.info.prAlgo = .PR_SEC
  pageSize_eq : x.1.info.pageSize = pageSize
  maxPages_eq : x.1.info.maxPages = maxPages
  time : x.1.info.time = x.2.length
  pageFaults : x.1.info.pageFaults = (chances pageSize maxPages x.2).faults
  faults_le : (chances pageSize maxPages x.2).faults ≤ x.2.length
  table : ∃ tail, x.1.pageTableList = x.1.entries.map some++tail ∧
    (tail = [none] ∨ tail = [] ∧ x.1.entries ≠ [])
  length_le : x.1.entries.length ≤ maxPages
  stage : Stage (getNeededBits (pageSize*1024)) maxPages x.2.length
    (x.2.getLast?.map (Access.page pageSize)) x.1.entries (chances pageSize maxPages x.2)

section Steps
variable {pageSize maxPages : ℕ} {s t : State} {trace : List Access} {access : Access}
  {entries : List PTE} {tail : PageTable}

theorem chances_append (pageSize maxPages : ℕ) (trace : List Access) (access : Access) :
    chances pageSize maxPages (trace++[access]) =
      (chances pageSize maxPages trace).access maxPages (access.page pageSize) := by
  rw [chances,List.map_append]
  exact secondChance_append _ _ _

theorem follows_start (pageSize maxPages : ℕ) :
    Follows pageSize maxPages (start .PR_SEC pageSize maxPages,[]) where
  prAlgo := rfl
  pageSize_eq := rfl
  maxPages_eq := rfl
  time := rfl
  pageFaults := rfl
  faults_le := Nat.le_refl _
  table := ⟨[none],rfl,.inl rfl⟩
  length_le := Nat.zero_le _
  stage := by
    have hnone {P : PTE → Prop} : ∀ e ∈ (start .PR_SEC pageSize maxPages).entries, P e :=
      fun _ he => absurd he List.not_mem_nil
    exact .inl ⟨rfl,rfl,hnone,hnone,List.nodup_nil⟩

theorem Follows.nodup (h : Follows pageSize maxPages (s,trace)) :
    (s.entries.map (PTE.page (getNeededBits (pageSize*1024)))).Nodup := by
  obtain ⟨-,hfilling⟩ | ⟨-,older,newest,rest,chanced,hqueued⟩ := h.stage
  · exact hfilling.nodup
  · exact hqueued.nodup

theorem Follows.residentPages_eq (h : Follows pageSize maxPages (s,trace)) :
    s.residentPages = s.entries.map (PTE.page (getNeededBits (pageSize*1024))) := by
  have hsize : s.info.pageSize = pageSize := h.pageSize_eq
  rw [← hsize]
  rfl

theorem Follows.mem_iff (h : Follows pageSize maxPages (s,trace)) {page : BitVec 32} :
    page ∈ s.residentPages ↔ page ∈ (chances pageSize maxPages trace).queue.map Prod.fst := by
  rw [h.residentPages_eq]
  obtain ⟨-,hfilling⟩ | ⟨-,older,newest,rest,chanced,hqueued⟩ := h.stage
  · rw [hfilling.queue_eq,List.map_map]
    rfl
  · exact hqueued.mem_queue_iff.symm

theorem Follows.length_eq (h : Follows pageSize maxPages (s,trace)) :
    (chances pageSize maxPages trace).queue.length = s.entries.length := by
  obtain ⟨-,hfilling⟩ | ⟨-,older,newest,rest,chanced,hqueued⟩ := h.stage
  · rw [hfilling.queue_eq,List.length_map]
  · exact hqueued.length_queue

theorem Follows.isSecondChance {x : State × List Access} (h : Follows pageSize maxPages x) :
    IsSecondChance pageSize maxPages x where
  nodup := h.residentPages_eq ▸ h.nodup
  mem_iff _ := h.mem_iff
  pageFaults := h.pageFaults

/-- The simulator after an access that leaves it this clock, count of faults and table. -/
theorem Follows.append (h : Follows pageSize maxPages (s,trace)) {cache : Cache (BitVec 32)}
    (hcache : (chances pageSize maxPages trace).access maxPages (access.page pageSize) = cache)
    (hprAlgo : t.info.prAlgo = s.info.prAlgo) (hsize : t.info.pageSize = s.info.pageSize)
    (hmax : t.info.maxPages = s.info.maxPages) (htime : t.info.time = trace.length+1)
    (hfaults : t.info.pageFaults = cache.faults)
    (hfaultsle : cache.faults ≤ (chances pageSize maxPages trace).faults+1)
    (htable : t.pageTableList = entries.map some++tail)
    (htail : tail = [none] ∨ tail = [] ∧ entries ≠ []) (hlen : entries.length ≤ maxPages)
    (hstage : Stage (getNeededBits (pageSize*1024)) maxPages (trace.length+1)
      (some (access.page pageSize)) entries cache) :
    Follows pageSize maxPages (t,trace++[access]) := by
  have htext := (chances_append pageSize maxPages trace access).trans hcache
  have hlength : (trace++[access]).length = trace.length+1 := by simp
  have hentries : t.entries = entries := entries_of_table htable htail
  have hle : (chances pageSize maxPages trace).faults ≤ trace.length := h.faults_le
  constructor
  · exact hprAlgo.trans h.prAlgo
  · exact hsize.trans h.pageSize_eq
  · exact hmax.trans h.maxPages_eq
  · rw [htime,hlength]
    rfl
  · rw [hfaults,htext]
  · rw [htext,hlength]
    omega
  · rw [hentries]
    exact ⟨tail,htable,htail⟩
  · rw [hentries]
    exact hlen
  · rw [hentries,htext,hlength,List.getLast?_concat]
    exact hstage

theorem Follows.ticked_time (h : Follows pageSize maxPages (s,trace))
    (hclock : s.info.time+1 < 2^31) : s.ticked.time = trace.length+1 := by
  have htime : s.info.time = trace.length := h.time
  rw [htime] at hclock
  show wrap32 (s.info.time+1) = _
  rw [htime]
  exact wrap32_of_lt (by omega) hclock

theorem Follows.wrap32_pageFaults (h : Follows pageSize maxPages (s,trace))
    (hclock : s.info.time+1 < 2^31) :
    wrap32 (s.info.pageFaults+1) = ((chances pageSize maxPages trace).faults+1 : ℕ) := by
  have htime : s.info.time = trace.length := h.time
  have hfaults : s.info.pageFaults = (chances pageSize maxPages trace).faults := h.pageFaults
  have hle : (chances pageSize maxPages trace).faults ≤ trace.length := h.faults_le
  rw [hfaults,wrap32_of_lt (by omega) (by omega)]
  rfl

theorem searchTable_node {info : SimulationInfo} {bits k maxPages : ℕ} {page : BitVec 32} {rw : Char}
    (hnodup : (entries.map (PTE.page bits)).Nodup) (hk : k < entries.length)
    (hpage : (entryAt entries k).page bits = page) (hle : entries.length ≤ maxPages) :
    searchTable info bits page rw maxPages (entries.map some++tail) =
      ((entries.set k (accessMemory info (entryAt entries k) rw)).map some++tail,info,true) := by
  have hget : entryAt entries k = entries[k] := List.getD_eq_getElem _ _ hk
  obtain ⟨before,after,hentries,hlen,hset⟩ : ∃ before after, entries = before++entries[k]::after ∧
      before.length = k ∧ entries.set k (accessMemory info (entryAt entries k) rw) =
        before++accessMemory info (entryAt entries k) rw::after := List.exists_of_set hk
  rw [hset]
  rw [← hget] at hentries
  have hbefore : ∀ e ∈ before, e.page bits ≠ page := by
    rw [hentries,List.map_append,List.map_cons,hpage] at hnodup
    intro e he heq
    apply (List.nodup_cons.mp (List.nodup_middle.mp hnodup)).1
    exact List.mem_append_left _ (heq ▸ List.mem_map_of_mem he)
  have hmap (e : PTE) : (before++e::after).map some++tail =
      before.map some++some e::(after.map some++tail) := by simp
  rw [hmap,(congrArg (fun l => l.map some++tail) hentries).trans (hmap _)]
  exact searchTable_hit hbefore hpage (by omega)

/-- The page of a node is accessed. -/
theorem Follows.hit_node (h : Follows pageSize maxPages (s,trace))
    (hclock : s.info.time+1 < 2^31) {k : ℕ} (hk : k < s.entries.length)
    (hkpage : (entryAt s.entries k).page (getNeededBits (pageSize*1024)) = access.page pageSize)
    (hstage : Stage (getNeededBits (pageSize*1024)) maxPages (trace.length+1)
      (some (access.page pageSize))
      (s.entries.set k (accessMemory s.ticked (entryAt s.entries k) access.rw))
      ⟨touch (access.page pageSize) (chances pageSize maxPages trace).queue,
        (chances pageSize maxPages trace).faults⟩) :
    ∃ t, simulation_simulateMemoryAccess access s = .ok t ∧
      Follows pageSize maxPages (t,trace++[access]) := by
  have hsize : s.info.pageSize = pageSize := h.pageSize_eq
  have hmax : s.info.maxPages = maxPages := h.maxPages_eq
  obtain ⟨tail,htable,htail⟩ := h.table
  change s.pageTableList = _ at htable
  have hsearch : searchTable s.ticked (getNeededBits (s.info.pageSize*1024))
      (access.page s.info.pageSize) access.rw s.info.maxPages s.pageTableList =
      ((s.entries.set k (accessMemory s.ticked (entryAt s.entries k) access.rw)).map some++tail,
        s.ticked,true) := by
    rw [hsize,hmax,htable]
    exact searchTable_node h.nodup hk hkpage h.length_le
  have hmem : access.page pageSize ∈ (chances pageSize maxPages trace).queue.map Prod.fst := by
    rw [← h.mem_iff,h.residentPages_eq]
    exact hkpage ▸ List.mem_map_of_mem (entryAt_mem hk)
  refine ⟨_,simulate_of_returned hsearch,h.append (if_pos hmem) rfl rfl rfl (h.ticked_time hclock)
    h.pageFaults (Nat.le_succ _) rfl ?_ ?_ hstage⟩
  · refine htail.imp_right (And.imp_right fun hne hnil => hne ?_)
    exact List.length_eq_zero_iff.mp
      ((List.length_set).symm.trans (List.length_eq_zero_iff.mpr hnil))
  · rw [List.length_set]
    exact h.length_le

/-- Once a page has been replaced, the guard is about the order. -/
theorem Follows.orderly (h : Follows pageSize maxPages (s,trace)) (hg : Orderly (s,trace) access)
    (hfaults : s.entries.length < (chances pageSize maxPages trace).faults) :
    (access.page pageSize ∈ s.residentPages → lastPage s trace = some (access.page pageSize) ∨
      LastInPlace s trace ∧ IsNext s access) ∧
    (access.page pageSize ∉ s.residentPages → LastInPlace s trace ∧ PassedInPlace s) := by
  have hsize : s.info.pageSize = pageSize := h.pageSize_eq
  have hpagefaults : s.info.pageFaults = (chances pageSize maxPages trace).faults := h.pageFaults
  obtain ⟨-,hcount | horder⟩ := hg
  · change s.info.pageFaults = s.entries.length at hcount
    omega
  · rw [← hsize]
    exact horder

theorem LastInPlace.before {older rest chanced : List ℕ} {newest : ℕ} {now : ℤ}
    {queue : List (BitVec 32 × Bool)} (h : LastInPlace s trace) (hsize : s.info.pageSize = pageSize)
    (hqueued : Queued (getNeededBits (pageSize*1024)) now (trace.getLast?.map (Access.page pageSize))
      s.entries queue older newest rest chanced) : ∀ i ∈ older, Before s.entries i newest := by
  subst hsize
  intro i hi
  refine h newest hqueued.newest_lt hqueued.last_eq i
    (hqueued.mem_order_iff.mp (List.mem_append_left _ hi)) ?_
  rintro rfl
  exact hqueued.newest_not_mem hi

/-- The page is resident. -/
theorem Follows.hit (h : Follows pageSize maxPages (s,trace)) (hg : Orderly (s,trace) access)
    (hpage : access.page pageSize ∈ s.residentPages) :
    ∃ t, simulation_simulateMemoryAccess access s = .ok t ∧
      Follows pageSize maxPages (t,trace++[access]) := by
  have hsize : s.info.pageSize = pageSize := h.pageSize_eq
  have hbits : s.bits = getNeededBits (pageSize*1024) := by rw [State.bits,hsize]
  have htime := h.ticked_time hg.1
  obtain ⟨hcount,hfilling⟩ | ⟨⟨hfull,hfaults⟩,older,newest,rest,chanced,hqueued⟩ := h.stage
  · rw [h.residentPages_eq] at hpage
    obtain ⟨e,he,hepage⟩ := List.mem_map.mp hpage
    obtain ⟨k,hk,rfl⟩ := exists_entryAt he
    have hfilling' := hfilling.hit (e := accessMemory s.ticked (entryAt s.entries k) access.rw) hk
      rfl rfl htime
    have hsame : (accessMemory s.ticked (entryAt s.entries k) access.rw).page
        (getNeededBits (pageSize*1024)) = access.page pageSize := hepage
    rw [hsame] at hfilling'
    refine h.hit_node hg.1 hk hepage (.inl ⟨?_,hfilling'⟩)
    rw [List.length_set]
    exact hcount
  · have hset (k : ℕ) (e : PTE) : (s.entries.set k e).length = maxPages ∧
        (s.entries.set k e).length < (chances pageSize maxPages trace).faults := by
      rw [List.length_set]
      exact ⟨hfull,hfaults⟩
    obtain heq | ⟨hplace,k,hk,hkpage,hclear,hfirst⟩ := (h.orderly hg hfaults).1 hpage
    · have hnewest : (entryAt s.entries newest).page (getNeededBits (pageSize*1024)) =
          access.page pageSize := by
        rw [lastPage,hsize] at heq
        exact Option.some.inj (hqueued.last_eq.symm.trans heq)
      have hqueued' := hqueued.hit_newest (e := accessMemory s.ticked (entryAt s.entries newest)
        access.rw) rfl rfl htime
      have hsame : (accessMemory s.ticked (entryAt s.entries newest) access.rw).page
          (getNeededBits (pageSize*1024)) = access.page pageSize := hnewest
      rw [hsame] at hqueued'
      exact h.hit_node hg.1 hqueued.newest_lt hnewest (.inr ⟨hset _ _,_,_,_,_,hqueued'⟩)
    · rw [hbits,hsize] at hkpage
      have hin := hplace.before hsize hqueued
      obtain ⟨older',rest',hqueued'⟩ := hqueued.hit_next (e := accessMemory s.ticked
        (entryAt s.entries k) access.rw) hk hin hfirst hclear rfl rfl htime
      have hsame : (accessMemory s.ticked (entryAt s.entries k) access.rw).page
          (getNeededBits (pageSize*1024)) = access.page pageSize := hkpage
      rw [hsame] at hqueued'
      exact h.hit_node hg.1 hk hkpage (.inr ⟨hset _ _,_,_,_,_,hqueued'⟩)

theorem createPTE_rBit (info : SimulationInfo) (a : BitVec 32) (rw : Char) :
    (createPTE info a rw).1.rBit = 0x01 := by
  unfold createPTE
  split_ifs <;> rfl

/-- The page is not resident and there is room. -/
theorem Follows.add (h : Follows pageSize maxPages (s,trace)) (hclock : s.info.time+1 < 2^31)
    (hpage : access.page pageSize ∉ s.residentPages) (hroom : s.entries.length < maxPages) :
    ∃ t, simulation_simulateMemoryAccess access s = .ok t ∧
      Follows pageSize maxPages (t,trace++[access]) := by
  have hsize : s.info.pageSize = pageSize := h.pageSize_eq
  have hmax : s.info.maxPages = maxPages := h.maxPages_eq
  obtain ⟨tail,htable,htail⟩ := h.table
  change s.pageTableList = _ at htable
  have hkey := mt h.mem_iff.mpr hpage
  rw [h.residentPages_eq] at hpage
  have hne := page_ne_of_not_mem hpage
  obtain ⟨writes,hwrites⟩ := createPTE_info s.ticked
    (access.page pageSize <<< getNeededBits (pageSize*1024)) access.rw
  have hstamp := createPTE_stamp s.ticked (getNeededBits (pageSize*1024)) access.address access.rw
  have hbit := createPTE_rBit s.ticked
    (access.page pageSize <<< getNeededBits (pageSize*1024)) access.rw
  rw [h.ticked_time hclock] at hstamp
  have hsearch : searchTable s.ticked (getNeededBits (s.info.pageSize*1024))
      (access.page s.info.pageSize) access.rw s.info.maxPages s.pageTableList =
      ((s.entries++[(createPTE s.ticked
        (access.page pageSize <<< getNeededBits (pageSize*1024)) access.rw).1]).map some,
        pageFault_add { s.ticked with pageWrites := writes },true) := by
    rw [hsize,hmax,htable,searchTable_table htail hne h.length_le,searchTable_add hne hroom,hwrites]
  change (createPTE s.ticked (access.page pageSize <<< getNeededBits (pageSize*1024))
    access.rw).1.stamp _ = (access.page pageSize,_) at hstamp
  generalize (createPTE s.ticked (access.page pageSize <<< getNeededBits (pageSize*1024))
    access.rw).1 = new at hstamp hbit hsearch
  obtain ⟨hnewpage,hnewtime⟩ := Prod.mk.inj hstamp
  rw [← hnewpage] at hpage
  obtain ⟨hcount,hfilling⟩ | ⟨⟨hfull,-⟩,-⟩ := h.stage
  swap
  · exact absurd hroom (not_lt.mpr hfull.ge)
  have hfilling' := hfilling.load hpage hbit hnewtime
  rw [hnewpage] at hfilling'
  have hqueueroom : (chances pageSize maxPages trace).queue.length < maxPages := by
    rw [h.length_eq]
    exact hroom
  refine ⟨_,simulate_of_returned hsearch,h.append ((if_neg hkey).trans (if_pos hqueueroom)) rfl rfl
    rfl (h.ticked_time hclock) (h.wrap32_pageFaults hclock) (Nat.le_refl _)
    (List.append_nil _).symm (.inr ⟨rfl,?_⟩) ?_ (.inl ⟨?_,hfilling'⟩)⟩
  · exact List.append_ne_nil_of_right_ne_nil _ (List.cons_ne_nil _ _)
  · rw [List.length_append]
    exact hroom
  · rw [List.length_append]
    exact congrArg Nat.succ hcount

theorem entryAt_cleared (entries : List PTE) (k : ℕ) :
    entryAt (entries.map PTE.cleared) k = (entryAt entries k).cleared := by
  unfold entryAt
  exact List.getD_map entries ⟨0,0,0,0⟩ PTE.cleared

theorem before_cleared (entries : List PTE) : Before (entries.map PTE.cleared) = Before entries := by
  funext i j
  unfold Before
  rw [entryAt_cleared,entryAt_cleared]
  rfl

theorem passedOver_cleared (entries : List PTE) :
    PassedOver (entries.map PTE.cleared) = PassedOver entries := by
  funext i
  unfold PassedOver
  rw [before_cleared,funext (entryAt_cleared entries),List.length_map]
  rfl

/-- The flags are not part of the order or the queue. -/
theorem Queued.cleared {bits : ℕ} {now : ℤ} {last : Option (BitVec 32)}
    {queue : List (BitVec 32 × Bool)} {older rest chanced : List ℕ} {newest : ℕ}
    (h : Queued bits now last entries queue older newest rest chanced) :
    Queued bits now last (entries.map PTE.cleared) queue older newest rest chanced := by
  have hlen : (entries.map PTE.cleared).length = entries.length := List.length_map _
  have hentry : entryAt (entries.map PTE.cleared) = fun k => (entryAt entries k).cleared :=
    funext (entryAt_cleared entries)
  constructor
  · rw [hlen]
    exact h.perm
  · exact h.order_eq
  · rw [before_cleared]
    exact h.pairwise
  · rw [hentry]
    exact h.queue_eq
  · rw [hentry]
    exact h.of_mem_chanced
  · rw [hentry]
    exact h.exists_mem_rest
  · rw [hentry]
    exact h.of_newest_mem_rest
  · rw [hentry]
    exact h.last_eq
  · rw [hlen,hentry]
    exact h.le_now
  · rw [List.map_map]
    exact h.nodup

theorem Filling.cleared {bits : ℕ} {now : ℤ} {queue : List (BitVec 32 × Bool)}
    (h : Filling bits now entries queue) : Filling bits now (entries.map PTE.cleared) queue where
  queue_eq := by
    rw [List.map_map]
    exact h.queue_eq
  bits_set := List.forall_mem_map.mpr h.bits_set
  le_now := List.forall_mem_map.mpr h.le_now
  nodup := by
    rw [List.map_map]
    exact h.nodup

theorem pageFault_replace_sec (info : SimulationInfo) {random : ℕ} {new : PTE} {l l' : PageTable}
    (hsec : info.prAlgo = .PR_SEC)
    (h : algo_sec { info with pageFaults := wrap32 (info.pageFaults+1) } new (info.maxPages+1) l =
      .ok l') :
    pageFault_replace info random new l =
      .ok ({ info with pageFaults := wrap32 (info.pageFaults+1) },l') := by
  obtain ⟨pageSize,faults,writes,time,prAlgo,maxPages⟩ := info
  obtain rfl : prAlgo = .PR_SEC := hsec
  unfold pageFault_replace
  simp only [h]
  rfl

/-- Whether or not the flags are reset, SEC finds a table to replace a page of. -/
theorem Follows.replaces (hpages : 0 < maxPages) (h : Follows pageSize maxPages (s,trace))
    (hg : Orderly (s,trace) access) (hpage : access.page pageSize ∉ s.residentPages)
    (hroom : ¬s.entries.length < maxPages) (info : SimulationInfo) {new : PTE} (reset : Bool)
    (hmax : info.maxPages = maxPages) (hinfo : info.time = trace.length+1)
    (hnewpage : new.page (getNeededBits (pageSize*1024)) = access.page pageSize)
    (hbit : new.rBit = 0x01) (htime : new.lastAccessTime = trace.length+1) :
    ∃ entries', algo_sec info new (info.maxPages+1)
        (if reset = true then resetFlags maxPages (s.entries.map some++[none])
          else s.entries.map some++[none]) = .ok (entries'.map some++[none]) ∧
      entries'.length = maxPages ∧ Stage (getNeededBits (pageSize*1024)) maxPages (trace.length+1)
        (some (access.page pageSize)) entries'
        ⟨evict (chances pageSize maxPages trace).queue++[(access.page pageSize,true)],
          (chances pageSize maxPages trace).faults+1⟩ := by
  have hfull : s.entries.length = maxPages := le_antisymm h.length_le (not_lt.mp hroom)
  have hpage' := hpage
  rw [h.residentPages_eq,← hnewpage] at hpage'
  obtain ⟨entries',hreset,hlen,hpages',hbefore,hpassed,hfilling',hqueued'⟩ : ∃ entries' : List PTE,
      (if reset = true then resetFlags maxPages (s.entries.map some++[none])
        else s.entries.map some++[none]) = entries'.map some++[none] ∧
      entries'.length = s.entries.length ∧
      entries'.map (PTE.page (getNeededBits (pageSize*1024))) =
        s.entries.map (PTE.page (getNeededBits (pageSize*1024))) ∧
      Before entries' = Before s.entries ∧ PassedOver entries' = PassedOver s.entries ∧
      (∀ {now queue}, Filling (getNeededBits (pageSize*1024)) now s.entries queue →
        Filling (getNeededBits (pageSize*1024)) now entries' queue) ∧
      ∀ {now last queue older newest rest chanced},
        Queued (getNeededBits (pageSize*1024)) now last s.entries queue older newest rest chanced →
        Queued (getNeededBits (pageSize*1024)) now last entries' queue older newest rest chanced := by
    cases reset with
    | false => exact ⟨s.entries,rfl,rfl,rfl,rfl,rfl,id,id⟩
    | true =>
      refine ⟨s.entries.map PTE.cleared,?_,List.length_map _,?_,before_cleared _,
        passedOver_cleared _,Filling.cleared,Queued.cleared⟩
      · rw [if_pos rfl,← hfull]
        exact resetFlags_full s.entries
      · rw [List.map_map]
        rfl
  have hlen' : entries'.length = info.maxPages := hlen.trans (hfull.trans hmax.symm)
  rw [hreset]
  rw [← hpages'] at hpage'
  obtain ⟨hcount,hfilling⟩ | ⟨⟨-,hfaults⟩,older,newest,rest,chanced,hqueued⟩ := h.stage
  · have hne : entries' ≠ [] := by
      rw [← List.length_pos_iff,hlen,hfull]
      exact hpages
    obtain ⟨entries'',older,newest,rest,hcode,hlen'',hqueued⟩ :=
      (hfilling' hfilling).replace hlen' hne hinfo hpage' hbit htime
    have hlength : entries''.length = maxPages := hlen''.trans (hlen.trans hfull)
    rw [hnewpage] at hqueued
    refine ⟨entries'',hcode,hlength,.inr ⟨⟨hlength,?_⟩,older,newest,rest,[],hqueued⟩⟩
    change (chances pageSize maxPages trace).faults = s.entries.length at hcount
    rw [hlength]
    exact Nat.lt_succ_of_le (hcount.trans hfull).ge
  · obtain ⟨hlast,hlist⟩ := (h.orderly hg hfaults).2 hpage
    have hin := hlast.before h.pageSize_eq hqueued
    rw [← hbefore] at hin
    obtain ⟨entries'',older',newest',rest',hcode,hlen'',hqueued''⟩ := (hqueued' hqueued).replace hlen'
      hinfo hin (by rw [hlen,hbefore,hpassed]; exact hlist) hpage' hbit htime
    have hlength : entries''.length = maxPages := hlen''.trans (hlen.trans hfull)
    rw [hnewpage] at hqueued''
    refine ⟨entries'',hcode,hlength,.inr ⟨⟨hlength,?_⟩,older',newest',rest',[],hqueued''⟩⟩
    change s.entries.length < (chances pageSize maxPages trace).faults at hfaults
    rw [hfull] at hfaults
    rw [hlength]
    exact Nat.lt_succ_of_lt hfaults

/-- The page is not resident and the table is full. -/
theorem Follows.replace (hpages : 0 < maxPages) (h : Follows pageSize maxPages (s,trace))
    (hg : Orderly (s,trace) access) (hpage : access.page pageSize ∉ s.residentPages)
    (hroom : ¬s.entries.length < maxPages) :
    ∃ t, simulation_simulateMemoryAccess access s = .ok t ∧
      Follows pageSize maxPages (t,trace++[access]) := by
  have hsize : s.info.pageSize = pageSize := h.pageSize_eq
  have hmax : s.info.maxPages = maxPages := h.maxPages_eq
  have hfull : s.entries.length = maxPages := le_antisymm h.length_le (not_lt.mp hroom)
  obtain ⟨tail,htable,htail⟩ := h.table
  change s.pageTableList = _ at htable
  have hne := page_ne_of_not_mem (h.residentPages_eq ▸ hpage)
  have hsearch : searchTable s.ticked (getNeededBits (s.info.pageSize*1024))
      (access.page s.info.pageSize) access.rw s.info.maxPages s.pageTableList =
      (s.entries.map some++[none],s.ticked,false) := by
    rw [hsize,hmax,htable,searchTable_table htail hne h.length_le,← hfull,searchTable_full hne]
  have hsim := simulate_full hsearch
  rw [hsize,hmax] at hsim
  obtain ⟨writes,hwrites⟩ := createPTE_info s.ticked
    (access.page pageSize <<< getNeededBits (pageSize*1024)) access.rw
  have hstamp := createPTE_stamp s.ticked (getNeededBits (pageSize*1024)) access.address access.rw
  have hbit := createPTE_rBit s.ticked
    (access.page pageSize <<< getNeededBits (pageSize*1024)) access.rw
  rw [h.ticked_time hg.1] at hstamp
  change (createPTE s.ticked (access.page pageSize <<< getNeededBits (pageSize*1024))
    access.rw).1.stamp _ = (access.page pageSize,_) at hstamp
  rw [hwrites] at hsim
  generalize (createPTE s.ticked (access.page pageSize <<< getNeededBits (pageSize*1024))
    access.rw).1 = new at hstamp hbit hsim
  obtain ⟨hnewpage,hnewtime⟩ := Prod.mk.inj hstamp
  obtain ⟨entries',hcode,hlen,hstage⟩ := h.replaces hpages hg hpage hroom
    { s.ticked with
      pageWrites := writes
      pageFaults := wrap32 (s.info.pageFaults+1) }
    (resetDue s.ticked s.lastFlagResetTime) hmax (h.ticked_time hg.1) hnewpage hbit hnewtime
  rw [pageFault_replace_sec { s.ticked with pageWrites := writes } h.prAlgo hcode] at hsim
  have hqueueroom : ¬(chances pageSize maxPages trace).queue.length < maxPages := by
    rw [h.length_eq]
    exact hroom
  exact ⟨_,hsim,h.append ((if_neg (mt h.mem_iff.mpr hpage)).trans (if_neg hqueueroom)) rfl rfl rfl
    (h.ticked_time hg.1) (h.wrap32_pageFaults hg.1) (Nat.le_refl _) rfl (.inl rfl) hlen.le hstage⟩

/-- An access in order is answered, and the simulator still follows the queue. -/
theorem Follows.next (hpages : 0 < maxPages) (h : Follows pageSize maxPages (s,trace))
    (hg : Orderly (s,trace) access) :
    ∃ t, simulation_simulateMemoryAccess access s = .ok t ∧
      Follows pageSize maxPages (t,trace++[access]) := by
  by_cases hpage : access.page pageSize ∈ s.residentPages
  · exact h.hit hg hpage
  · by_cases hroom : s.entries.length < maxPages
    · exact h.add hg.1 hpage hroom
    · exact h.replace hpages hg hpage hroom

end Steps

section Decidable
variable (s : State) (trace : List Access) (access : Access)

instance (entries : List PTE) (i : ℕ) : Decidable (PassedOver entries i) :=
  inferInstanceAs (Decidable (_ ∧ _))

instance : Decidable (LastInPlace s trace) :=
  inferInstanceAs (Decidable (∀ k < s.entries.length, _ → ∀ i < s.entries.length, _))

instance : Decidable (IsNext s access) :=
  inferInstanceAs (Decidable (∃ k < s.entries.length, _ ∧ _ ∧ ∀ i < s.entries.length, _))

instance : Decidable (PassedInPlace s) :=
  inferInstanceAs (Decidable (∀ i < s.entries.length, ∀ j < s.entries.length, _))

instance (x : State × List Access) : Decidable (Orderly x access) :=
  inferInstanceAs (Decidable (_ ∧ (_ ∨ (_ → _) ∧ (_ → _))))

end Decidable

/-- As long as every access is in order, the simulator is where second chance is, and an access in
order is answered. -/
theorem isSecondChance_of_reachableUnder {pageSize maxPages : ℕ} (hpages : 0 < maxPages)
    {x : State × List Access} (h : (sec pageSize maxPages).ReachableUnder Orderly x) :
    IsSecondChance pageSize maxPages x ∧
    ∀ access, Orderly x access → ∃ y, (sec pageSize maxPages).step x access = some y := by
  have hnext : ∀ (y : State × List Access) access, Follows pageSize maxPages y →
      Orderly y access → ∃ t, (sec pageSize maxPages).step y access = some (t,y.2++[access]) ∧
        Follows pageSize maxPages (t,y.2++[access]) := by
    intro y access hy hg
    obtain ⟨t,ht,hfollows⟩ := hy.next hpages hg
    refine ⟨t,?_,hfollows⟩
    change Option.map _ (simulation_simulateMemoryAccess access y.1).toOption = _
    rw [ht]
    rfl
  have hfollows : Follows pageSize maxPages x := by
    refine h.invariant (follows_start pageSize maxPages) ?_
    intro y access z hy hg hstep
    obtain ⟨t,ht,hfollows⟩ := hnext y access hy hg
    exact Option.some.inj (ht.symm.trans hstep) ▸ hfollows
  refine ⟨hfollows.isSecondChance,fun access hg => ?_⟩
  obtain ⟨t,ht,-⟩ := hnext x access hfollows hg
  exact ⟨_,ht⟩

/-- When page 5 is loaded, page 1 has a second chance and page 2 goes. -/
theorem isSecondChance_of_reachableUnder_reads :
    ∃ x, (sec 32 4).ReachableUnder Orderly x ∧ IsSecondChance 32 4 x ∧
      x.1.residentPages = [4,1,5,3] := by
  obtain ⟨x,hx,hp⟩ := TransitionSystem.exists_reachableUnder_of_execUnder (T := sec 32 4)
    (G := Orderly) (l := [0,1,2,3,4,4,1,5].map readOf)
    (p := fun x => x.1.residentPages = [4,1,5,3]) (by decide +kernel)
  rw [decide_eq_true_eq] at hp
  exact ⟨x,hx,(isSecondChance_of_reachableUnder (by omega) hx).1,hp⟩

/-- Pages 4, 0 and 1 have replaced others and page 3 is read: then page 4 goes for page 2, and with
second chance page 3 would. -/
theorem not_isSecondChance_reads :
    ∃ x, (sec 32 4).Reachable x ∧ ¬IsSecondChance 32 4 x := by
  obtain ⟨x,hx,hp⟩ := TransitionSystem.exists_reachable_of_exec (T := sec 32 4)
    (l := [0,1,2,3,4,0,1,3,2].map readOf)
    (p := fun x => x.1.residentPages = [2,0,1,3] ∧
      (chances 32 4 x.2).queue.map Prod.fst = [4,0,1,2])
    (by decide +kernel)
  rw [decide_eq_true_eq] at hp
  refine ⟨x,hx,fun h => ?_⟩
  have hmem := h.mem_iff 3
  rw [hp.1,hp.2] at hmem
  exact absurd (hmem.mp (by decide)) (by decide)

end PucRio.SimVirtual
