import PucRio.SimVirtual.Simulation

/-! What the loops of the simulator do to a page table with given entries. -/
namespace PucRio.SimVirtual

/-- The page number of an entry. -/
def PTE.page (bits : ℕ) (e : PTE) : BitVec 32 := e.address >>> bits

/-- The page of an entry and when it was accessed. -/
def PTE.stamp (bits : ℕ) (e : PTE) : BitVec 32 × ℤ := (e.page bits,e.lastAccessTime)

variable {info : SimulationInfo} {bits k : ℕ} {page : BitVec 32} {rw : Char} {e : PTE}
  {entries before after : List PTE} {rest tail : PageTable}

theorem ushiftRight_shiftLeft_ushiftRight (a : BitVec 32) (bits : ℕ) :
    ((a >>> bits) <<< bits) >>> bits = a >>> bits := by
  ext i hi
  simp only [BitVec.getElem_ushiftRight,BitVec.getLsbD_shiftLeft,BitVec.getLsbD_ushiftRight]
  by_cases h : bits+i < 32
  · simp [h]
  · simp [h,BitVec.getLsbD_of_ge _ _ (Nat.le_of_not_lt h)]

theorem createPTE_stamp (info : SimulationInfo) (bits : ℕ) (a : BitVec 32) (rw : Char) :
    (createPTE info ((a >>> bits) <<< bits) rw).1.stamp bits = (a >>> bits,info.time) := by
  unfold createPTE
  split_ifs <;> exact Prod.ext (ushiftRight_shiftLeft_ushiftRight _ _) rfl

/-- A new entry may count as a write; it changes nothing else. -/
theorem createPTE_info (info : SimulationInfo) (a : BitVec 32) (rw : Char) :
    ∃ writes, (createPTE info a rw).2 = { info with pageWrites := writes } := by
  unfold createPTE
  split_ifs
  · exact ⟨_,rfl⟩
  · exact ⟨info.pageWrites,rfl⟩

theorem searchTable_ne (h : e.page bits ≠ page) :
    searchTable info bits page rw (k+1) (some e::rest) =
      ((some e::(searchTable info bits page rw k (if rest = [] then [none] else rest)).1),
        (searchTable info bits page rw k (if rest = [] then [none] else rest)).2) := by
  rw [searchTable,if_neg (show ¬e.address >>> bits = page from h)]

/-- The page is resident: its entry is accessed. -/
theorem searchTable_hit (hbefore : ∀ e ∈ before, e.page bits ≠ page) (he : e.page bits = page)
    (hk : before.length < k) :
    searchTable info bits page rw k (before.map some++some e::rest) =
      (before.map some++some (accessMemory info e rw)::rest,info,true) := by
  induction before generalizing k with
  | nil =>
    obtain ⟨k,rfl⟩ := Nat.exists_eq_add_of_lt hk
    exact if_pos he
  | cons e' before ih =>
    cases k with
    | zero => exact absurd hk (Nat.not_lt_zero _)
    | succ k =>
      have h := ih (fun e he => hbefore e (List.mem_cons_of_mem _ he)) (Nat.lt_of_succ_lt_succ hk)
      rw [List.map_cons,List.cons_append,searchTable_ne (hbefore e' List.mem_cons_self),
        if_neg (by simp),h]
      rfl

/-- The page is not resident and a node is left: it gets a new entry. -/
theorem searchTable_add (hentries : ∀ e ∈ entries, e.page bits ≠ page)
    (hk : entries.length < k) :
    searchTable info bits page rw k (entries.map some++[none]) =
      ((entries++[(createPTE info (page <<< bits) rw).1]).map some,
        pageFault_add (createPTE info (page <<< bits) rw).2,true) := by
  induction entries generalizing k with
  | nil =>
    obtain ⟨k,rfl⟩ := Nat.exists_eq_add_of_lt hk
    rfl
  | cons e entries ih =>
    cases k with
    | zero => exact absurd hk (Nat.not_lt_zero _)
    | succ k =>
      have h := ih (fun e he => hentries e (List.mem_cons_of_mem _ he))
        (Nat.lt_of_succ_lt_succ hk)
      rw [List.map_cons,List.cons_append,searchTable_ne (hentries e List.mem_cons_self),
        if_neg (by simp),h]
      rfl

/-- The page is not resident and the table is full. -/
theorem searchTable_full (hentries : ∀ e ∈ entries, e.page bits ≠ page) :
    searchTable info bits page rw entries.length (entries.map some++[none]) =
      (entries.map some++[none],info,false) := by
  induction entries with
  | nil => rfl
  | cons e entries ih =>
    have h := ih (fun e he => hentries e (List.mem_cons_of_mem _ he))
    rw [List.map_cons,List.cons_append,List.length_cons,
      searchTable_ne (hentries e List.mem_cons_self),if_neg (by simp),h]

/-- Where the page is not resident, the node behind the last entry is made if it is missing. -/
theorem searchTable_append_none (hne : entries ≠ [])
    (hentries : ∀ e ∈ entries, e.page bits ≠ page) (hk : entries.length ≤ k) :
    searchTable info bits page rw k (entries.map some) =
      searchTable info bits page rw k (entries.map some++[none]) := by
  induction entries generalizing k with
  | nil => exact absurd rfl hne
  | cons e entries ih =>
    cases k with
    | zero => exact absurd hk (Nat.not_succ_le_zero _)
    | succ k =>
      rw [List.map_cons,List.cons_append,searchTable_ne (hentries e List.mem_cons_self),
        searchTable_ne (hentries e List.mem_cons_self)]
      cases entries with
      | nil => rfl
      | cons e' entries =>
        have h := ih (by simp) (fun e he => hentries e (List.mem_cons_of_mem _ he))
          (Nat.le_of_succ_le_succ hk)
        rw [if_neg (by simp),if_neg (by simp),h]

/-- The scan ends at the node it had, if no entry ahead is earlier, or at the first of the
earliest entries ahead. -/
theorem earliestNode_eq (before ahead : List PTE) (tail : PageTable) (node : ℕ) (time : ℤ) :
    ∃ node', earliestNode ((before++ahead).map some++tail) ahead.length before.length node time =
        .ok node' ∧
      ((node' = node ∧ ∀ e ∈ ahead, time ≤ e.lastAccessTime) ∨
        ∃ l e r, ahead = l++e::r ∧ node' = before.length+l.length ∧ e.lastAccessTime < time ∧
          ∀ e' ∈ ahead, e.lastAccessTime ≤ e'.lastAccessTime) := by
  induction ahead generalizing before node time with
  | nil => exact ⟨node,rfl,.inl ⟨rfl,by simp⟩⟩
  | cons e ahead ih =>
    have hget : ((before++e::ahead).map some++tail)[before.length]? = some (some e) := by simp
    have happ : before++e::ahead = (before++[e])++ahead := by simp
    have hlen : before.length+1 = (before++[e]).length := by simp
    rw [List.length_cons,earliestNode,hget]
    simp only
    by_cases hlt : e.lastAccessTime < time
    · rw [if_pos hlt,happ,hlen]
      obtain ⟨node',hnode,⟨rfl,hmin⟩ | ⟨l,e',r,rfl,rfl,hlt',hmin⟩⟩ :=
        ih (before++[e]) before.length e.lastAccessTime
      · refine ⟨_,hnode,.inr ⟨[],e,ahead,rfl,rfl,hlt,?_⟩⟩
        simpa using hmin
      · refine ⟨_,hnode,.inr ⟨e::l,e',r,rfl,by simp; omega,hlt'.trans hlt,?_⟩⟩
        rintro x (_ | ⟨_,hx⟩)
        · exact hlt'.le
        · exact hmin x hx
    · rw [if_neg hlt,happ,hlen]
      obtain ⟨node',hnode,⟨rfl,hmin⟩ | ⟨l,e',r,rfl,rfl,hlt',hmin⟩⟩ := ih (before++[e]) node time
      · refine ⟨_,hnode,.inl ⟨rfl,?_⟩⟩
        rintro x (_ | ⟨_,hx⟩)
        · exact le_of_not_gt hlt
        · exact hmin x hx
      · refine ⟨_,hnode,.inr ⟨e::l,e',r,rfl,by simp; omega,hlt',?_⟩⟩
        rintro x (_ | ⟨_,hx⟩)
        · omega
        · exact hmin x hx

/-- In a table whose entries are all of the past, the scan finds the first of the earliest. -/
theorem earliestNode_of_past (tail : PageTable) (hne : entries ≠ [])
    (hpast : ∀ e ∈ entries, e.lastAccessTime < info.time) :
    ∃ l e r, entries = l++e::r ∧ (∀ e' ∈ entries, e.lastAccessTime ≤ e'.lastAccessTime) ∧
      earliestNode (entries.map some++tail) entries.length 0 0 info.time = .ok l.length := by
  obtain ⟨node,hnode,⟨-,hmin⟩ | ⟨l,e,r,hl,hnode',-,hmin⟩⟩ :=
    earliestNode_eq [] entries tail 0 info.time
  · obtain ⟨e,he⟩ := List.exists_mem_of_ne_nil entries hne
    have h₁ := hmin e he
    have h₂ := hpast e he
    omega
  · refine ⟨l,e,r,hl,hmin,?_⟩
    rw [hnode',List.length_nil,Nat.zero_add] at hnode
    exact hnode

theorem set_length_map_some (l : List PTE) (e e' : PTE) (r : List PTE) (tail : PageTable) :
    (((l++e::r).map some++tail).set l.length (some e')) = (l++e'::r).map some++tail := by
  simp

theorem algo_lru_eq (info : SimulationInfo) (tempPTE : PTE) (tail : PageTable)
    (hlen : entries.length = info.maxPages) (hne : entries ≠ [])
    (hpast : ∀ e ∈ entries, e.lastAccessTime < info.time) :
    ∃ l e r, entries = l++e::r ∧ (∀ e' ∈ entries, e.lastAccessTime ≤ e'.lastAccessTime) ∧
      algo_lru info tempPTE (entries.map some++tail) = .ok ((l++tempPTE::r).map some++tail) := by
  obtain ⟨l,e,r,hl,hmin,hnode⟩ := earliestNode_of_past tail hne hpast
  refine ⟨l,e,r,hl,hmin,?_⟩
  rw [algo_lru,← hlen,hnode]
  show Except.ok _ = _
  rw [hl,set_length_map_some]

theorem pageFault_replace_lru (info : SimulationInfo) {random : ℕ} {l l' : PageTable}
    (hlru : info.prAlgo = .PR_LRU)
    (h : algo_lru { info with pageFaults := wrap32 (info.pageFaults+1) } e l = .ok l') :
    pageFault_replace info random e l =
      .ok ({ info with pageFaults := wrap32 (info.pageFaults+1) },l') := by
  obtain ⟨pageSize,faults,writes,time,prAlgo,maxPages⟩ := info
  obtain rfl : prAlgo = .PR_LRU := hlru
  unfold pageFault_replace
  simp only [h]
  rfl

/-- Clearing flags changes the status of entries only. -/
theorem resetFlags_eq (k : ℕ) (entries : List PTE) :
    ∃ entries' : List PTE, resetFlags k (entries.map some++[none]) = entries'.map some++[none] ∧
      entries'.map (PTE.stamp bits) = entries.map (PTE.stamp bits) := by
  induction entries generalizing k with
  | nil => exact ⟨[],by cases k <;> rfl,rfl⟩
  | cons e entries ih =>
    cases k with
    | zero => exact ⟨e::entries,rfl,rfl⟩
    | succ k =>
      obtain ⟨entries',heq,hstamps⟩ := ih k
      refine ⟨{ e with status := 0 }::entries',?_,?_⟩
      · rw [List.map_cons,List.cons_append,resetFlags,heq]
        rfl
      · rw [List.map_cons,List.map_cons,hstamps]
        rfl

end PucRio.SimVirtual
