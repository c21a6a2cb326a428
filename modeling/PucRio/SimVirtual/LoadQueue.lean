import PucRio.Lib.SecondChance
import PucRio.SimVirtual.ScanOrder

/-! The table of SEC against the queue of second chance, before any page has been replaced and
after. -/
namespace PucRio.SimVirtual
open SecondChance

/-- A page and its bit, as in the queue of second chance. -/
def PTE.item (bits : ℕ) (e : PTE) : BitVec 32 × Bool := (e.page bits,e.rBit == 0x01)

/-- The order of the entries against the queue. The pages that have been given a second chance since
the last load are behind in the order, and still in front in the queue. -/
structure Queued (bits : ℕ) (now : ℤ) (last : Option (BitVec 32)) (entries : List PTE)
    (queue : List (BitVec 32 × Bool)) (older : List ℕ) (newest : ℕ) (rest chanced : List ℕ) :
    Prop where
  perm : (older++[newest]).Perm (List.range entries.length)
  order_eq : older++[newest] = rest++chanced
  pairwise : older.Pairwise (Before entries)
  queue_eq : queue = chanced.map (fun k => ((entryAt entries k).page bits,true))++
    rest.map fun k => (entryAt entries k).item bits
  of_mem_chanced : ∀ k ∈ chanced, (entryAt entries k).rBit ≠ 0x01
  exists_mem_rest : ∃ k ∈ rest, (entryAt entries k).rBit = 0x01
  of_newest_mem_rest : newest ∈ rest → (entryAt entries newest).rBit = 0x01
  last_eq : last = some ((entryAt entries newest).page bits)
  le_now : ∀ k < entries.length, (entryAt entries k).lastAccessTime ≤ now
  nodup : (entries.map (PTE.page bits)).Nodup

/-- The bit of the node is set, and so are those of the nodes before. -/
def PassedOver (entries : List PTE) (i : ℕ) : Prop :=
  (entryAt entries i).rBit = 0x01 ∧
    ∀ j < entries.length, Before entries j i → (entryAt entries j).rBit = 0x01

section Queue
variable {bits : ℕ} {now : ℤ} {last : Option (BitVec 32)} {entries : List PTE}
  {queue : List (BitVec 32 × Bool)} {older rest chanced : List ℕ} {newest i j k : ℕ} {new : PTE}

theorem pageAt_inj (h : (entries.map (PTE.page bits)).Nodup) (hi : i < entries.length)
    (hj : j < entries.length)
    (heq : (entryAt entries i).page bits = (entryAt entries j).page bits) : i = j := by
  have hget {k : ℕ} (hk : k < entries.length) (hk' : k < (entries.map (PTE.page bits)).length) :
      (entries.map (PTE.page bits))[k] = (entryAt entries k).page bits := by
    rw [List.getElem_map]
    exact congrArg (PTE.page bits) (List.getD_eq_getElem _ _ hk).symm
  have hi' : i < (entries.map (PTE.page bits)).length := (List.length_map _).symm ▸ hi
  have hj' : j < (entries.map (PTE.page bits)).length := (List.length_map _).symm ▸ hj
  exact (h.getElem_inj_iff).mp ((hget hi hi').trans (heq.trans (hget hj hj').symm))

theorem map_entryAt_range {β : Type*} (f : PTE → β) (entries : List PTE) :
    (List.range entries.length).map (fun k => f (entryAt entries k)) = entries.map f := by
  apply List.ext_getElem
  · simp
  · intro k hk _
    rw [List.length_map,List.length_range] at hk
    simp [entryAt,hk]

/-- A page has been loaded: it is the last of the queue. -/
theorem queued_of_loaded (hperm : (older++[newest]).Perm (List.range entries.length))
    (hpairwise : older.Pairwise (Before entries)) (hnew : entryAt entries newest = new)
    (hbit : new.rBit = 0x01) (hqueue : queue = older.map fun k => (entryAt entries k).item bits)
    (hle : ∀ k < entries.length, (entryAt entries k).lastAccessTime ≤ now)
    (hnodup : (entries.map (PTE.page bits)).Nodup) :
    Queued bits now (some (new.page bits)) entries (queue++[(new.page bits,true)]) older
      newest (older++[newest]) [] := by
  have hset : (entryAt entries newest).rBit = 0x01 := hnew ▸ hbit
  constructor
  · exact hperm
  · exact (List.append_nil _).symm
  · exact hpairwise
  · have hitem : (entryAt entries newest).item bits = (new.page bits,true) :=
      Prod.ext (congrArg (PTE.page bits) hnew) (beq_iff_eq.mpr hset)
    rw [hqueue,List.map_append,List.map_singleton,hitem]
    rfl
  · exact fun _ hk => absurd hk List.not_mem_nil
  · exact ⟨newest,List.mem_append_right _ (List.mem_singleton_self _),hset⟩
  · exact fun _ => hset
  · rw [hnew]
  · exact hle
  · exact hnodup

/-- What SEC has passed over is behind, if it is in the order of the list. -/
theorem pairwise_passOver {entries' : List PTE} {behind front : List ℕ}
    (hbehind : ∀ k ∈ behind, entryAt entries' k = entryAt entries k)
    (hfront : ∀ k ∈ front, entryAt entries' k = (entryAt entries k).passedOver (now+1))
    (hle : ∀ k ∈ behind, (entryAt entries k).lastAccessTime ≤ now)
    (horder : behind.Pairwise (Before entries)) (hlist : front.Pairwise (· < ·)) :
    (behind++front).Pairwise (Before entries') := by
  refine List.pairwise_append.mpr ⟨?_,?_,?_⟩
  · refine horder.imp_of_mem ?_
    intro i j hi hj hbefore
    unfold Before
    rw [hbehind i hi,hbehind j hj]
    exact hbefore
  · refine hlist.imp_of_mem ?_
    intro i j hi hj hlt
    right
    rw [hfront i hi,hfront j hj]
    exact ⟨rfl,hlt⟩
  · intro i hi j hj
    left
    rw [hbehind i hi,hfront j hj]
    exact Int.lt_add_one_of_le (hle i hi)

/-- The new page has a node, and the nodes of `front` have been passed over. -/
theorem queued_of_replaced {order front behind : List ℕ} {v : ℕ} {entries' : List PTE}
    (horder : order.Perm (List.range entries.length))
    (hle : ∀ k < entries.length, (entryAt entries k).lastAccessTime ≤ now)
    (hnodup : (entries.map (PTE.page bits)).Nodup) (hv : v < entries.length)
    (hlt : ∀ k ∈ front, k < entries.length) (hfront : front.Nodup)
    (hentries : entries' = (passOver (now+1) front entries).set v new)
    (hpage : new.page bits ∉ entries.map (PTE.page bits))
    (hbit : new.rBit = 0x01) (htime : new.lastAccessTime = now+1) {passed : List ℕ}
    (hperm : (behind++passed++[v]).Perm order) (hpassed : ∀ k ∈ passed, k ∈ front)
    (hbehind : ∀ k ∈ behind, k ∉ front) (hbefore : behind.Pairwise (Before entries))
    (hlist : passed.Pairwise (· < ·))
    (hqueue : queue = behind.map (fun k => (entryAt entries k).item bits)++
      passed.map fun k => ((entryAt entries k).page bits,false)) :
    Queued bits (now+1) (some (new.page bits)) entries'
      (queue++[(new.page bits,true)]) (behind++passed) v (behind++passed++[v]) [] := by
  have hlength : (passOver (now+1) front entries).length = entries.length := length_passOver _ _ _
  have hlength' : entries'.length = entries.length := by rw [hentries,List.length_set,hlength]
  have hnodup' := (hperm.trans horder).nodup_iff.mpr List.nodup_range
  have hne : ∀ k ∈ behind++passed, k ≠ v := fun k hk =>
    (List.nodup_append.mp hnodup').2.2 k hk v (List.mem_singleton_self _)
  have hnew : entryAt entries' v = new := by
    rw [hentries,entryAt_set (hlength ▸ hv),if_pos rfl]
  have hentry : ∀ k, k ≠ v → entryAt entries' k =
      if k ∈ front then (entryAt entries k).passedOver (now+1) else entryAt entries k := by
    intro k hk
    rw [hentries,entryAt_set (hlength ▸ hv),if_neg hk,entryAt_passOver hfront hlt]
  have hold : ∀ k ∈ behind, entryAt entries' k = entryAt entries k := fun k hk =>
    (hentry k (hne k (List.mem_append_left _ hk))).trans (if_neg (hbehind k hk))
  have hover : ∀ k ∈ passed, entryAt entries' k = (entryAt entries k).passedOver (now+1) :=
    fun k hk => (hentry k (hne k (List.mem_append_right _ hk))).trans (if_pos (hpassed k hk))
  have hpast : ∀ k ∈ behind, (entryAt entries k).lastAccessTime ≤ now := by
    intro k hk
    refine hle k (List.mem_range.mp ((hperm.trans horder).mem_iff.mp ?_))
    exact List.mem_append_left _ (List.mem_append_left _ hk)
  refine queued_of_loaded ?_ (pairwise_passOver hold hover hpast hbefore hlist) hnew hbit ?_ ?_ ?_
  · rw [hlength']
    exact hperm.trans horder
  · rw [hqueue,List.map_append]
    congr 1
    · exact List.map_congr_left fun k hk => congrArg (PTE.item bits) (hold k hk).symm
    · exact List.map_congr_left fun k hk => congrArg (PTE.item bits) (hover k hk).symm
  · intro k hk
    by_cases hkv : k = v
    · rw [hkv,hnew]
      exact htime.le
    · rw [hentry k hkv]
      split_ifs
      · exact le_refl _
      · exact (Int.lt_add_one_of_le (hle k (hlength' ▸ hk))).le
  · have hpages : (passOver (now+1) front entries).map (PTE.page bits) =
        entries.map (PTE.page bits) := by
      rw [← map_entryAt_range,← map_entryAt_range,hlength]
      apply List.map_congr_left
      intro k _
      rw [entryAt_passOver hfront hlt]
      split_ifs <;> rfl
    rw [hentries,List.map_set,hpages]
    exact hnodup.set hpage

namespace Queued
variable (h : Queued bits now last entries queue older newest rest chanced)
include h

theorem mem_order_iff : k ∈ older++[newest] ↔ k < entries.length :=
  h.perm.mem_iff.trans List.mem_range

theorem nodup_order : (older++[newest]).Nodup := h.perm.nodup_iff.mpr List.nodup_range

theorem newest_lt : newest < entries.length :=
  h.mem_order_iff.mp (List.mem_append_right _ (List.mem_singleton_self _))

theorem newest_not_mem : newest ∉ older := by
  intro hmem
  exact (List.nodup_append.mp h.nodup_order).2.2 _ hmem _ (List.mem_singleton_self _) rfl

theorem lt_of_mem_rest (hk : k ∈ rest) : k < entries.length :=
  h.mem_order_iff.mp (h.order_eq ▸ List.mem_append_left _ hk)

/-- The queue has the pages of the entries. -/
theorem mem_queue_iff {page : BitVec 32} :
    page ∈ queue.map Prod.fst ↔ page ∈ entries.map (PTE.page bits) := by
  have hperm : (queue.map Prod.fst).Perm (entries.map (PTE.page bits)) := by
    rw [h.queue_eq,List.map_append,List.map_map,List.map_map]
    refine List.perm_append_comm.trans ?_
    change (rest.map (fun k => (entryAt entries k).page bits)++
      chanced.map (fun k => (entryAt entries k).page bits)).Perm _
    rw [← List.map_append,← h.order_eq,← map_entryAt_range (PTE.page bits)]
    exact h.perm.map _
  exact hperm.mem_iff

theorem length_queue : queue.length = entries.length := by
  have hlen := h.perm.length_eq
  rw [h.order_eq,List.length_append,List.length_range] at hlen
  rw [h.queue_eq,List.length_append,List.length_map,List.length_map]
  omega

theorem pairwise_order (hlast : ∀ i ∈ older, Before entries i newest) :
    (older++[newest]).Pairwise (Before entries) := by
  refine List.pairwise_append.mpr ⟨h.pairwise,List.pairwise_singleton _ _,?_⟩
  intro i hi j hj
  exact List.mem_singleton.mp hj ▸ hlast i hi

/-- What changes when a resident page is accessed, and it is last in the order afterwards. -/
theorem hit {e : PTE} {older' rest' chanced' : List ℕ} {queue' : List (BitVec 32 × Bool)}
    (hk : k < entries.length) (hpage : e.page bits = (entryAt entries k).page bits)
    (hbit : e.rBit = (entryAt entries k).rBit) (htime : e.lastAccessTime = now+1)
    (hperm : (older'++[k]).Perm (older++[newest])) (horder : older'++[k] = rest'++chanced')
    (hpairwise : older'.Pairwise (Before entries))
    (hqueue : queue' = chanced'.map (fun k => ((entryAt entries k).page bits,true))++
      rest'.map fun k => (entryAt entries k).item bits)
    (hchanced : ∀ k ∈ chanced', (entryAt entries k).rBit ≠ 0x01)
    (hrest : ∃ k ∈ rest', (entryAt entries k).rBit = 0x01)
    (hnewest : k ∈ rest' → (entryAt entries k).rBit = 0x01) :
    Queued bits (now+1) (some (e.page bits)) (entries.set k e) queue' older' k rest'
      chanced' := by
  have hnotin : k ∉ older' := by
    intro hmem
    have hnodup := hperm.nodup_iff.mpr h.nodup_order
    exact (List.nodup_append.mp hnodup).2.2 _ hmem _ (List.mem_singleton_self _) rfl
  have hset : ∀ j, (entryAt (entries.set k e) j).page bits = (entryAt entries j).page bits ∧
      (entryAt (entries.set k e) j).rBit = (entryAt entries j).rBit := by
    intro j
    rw [entryAt_set hk]
    split_ifs with hj
    · exact hj ▸ ⟨hpage,hbit⟩
    · exact ⟨rfl,rfl⟩
  have hpages : (entries.set k e).map (PTE.page bits) = entries.map (PTE.page bits) := by
    rw [← map_entryAt_range,← map_entryAt_range,List.length_set]
    exact List.map_congr_left fun j _ => (hset j).1
  constructor
  · rw [List.length_set]
    exact hperm.trans h.perm
  · exact horder
  · refine hpairwise.imp_of_mem ?_
    intro i j hi hj hbefore
    exact (before_set_of_ne hk (fun heq => hnotin (heq ▸ hi)) fun heq => hnotin (heq ▸ hj)).mpr
      hbefore
  · rw [hqueue]
    simp only [PTE.item,(hset _).1,(hset _).2]
  · intro j hj
    rw [(hset j).2]
    exact hchanced j hj
  · obtain ⟨j,hj,hjbit⟩ := hrest
    exact ⟨j,hj,(hset j).2.trans hjbit⟩
  · intro hmem
    exact (hset k).2.trans (hnewest hmem)
  · rw [(hset k).1,hpage]
  · intro j hj
    rw [List.length_set] at hj
    have hle := h.le_now j hj
    rw [entryAt_set hk]
    split_ifs
    · exact htime.le
    · omega
  · exact hpages ▸ h.nodup

/-- The page of the last access is accessed again. -/
theorem hit_newest {e : PTE} (hpage : e.page bits = (entryAt entries newest).page bits)
    (hbit : e.rBit = (entryAt entries newest).rBit) (htime : e.lastAccessTime = now+1) :
    Queued bits (now+1) (some (e.page bits)) (entries.set newest e)
      (touch (e.page bits) queue) older newest rest chanced := by
  have htouch : touch (e.page bits) queue = queue := by
    apply touch_eq_self
    rw [h.queue_eq]
    intro x hx hxpage
    rcases List.mem_append.mp hx with hx | hx
    · obtain ⟨k,-,rfl⟩ := List.mem_map.mp hx
      rfl
    · obtain ⟨k,hk,rfl⟩ := List.mem_map.mp hx
      obtain rfl := pageAt_inj h.nodup (h.lt_of_mem_rest hk) h.newest_lt (hxpage.trans hpage)
      exact beq_iff_eq.mpr (h.of_newest_mem_rest hk)
  rw [htouch]
  exact h.hit h.newest_lt hpage hbit htime (List.Perm.refl _) h.order_eq h.pairwise h.queue_eq
    h.of_mem_chanced h.exists_mem_rest h.of_newest_mem_rest

/-- The page that would go next is accessed: it has a second chance. -/
theorem hit_next {e : PTE} (hk : k < entries.length)
    (hlast : ∀ i ∈ older, Before entries i newest)
    (hfirst : ∀ i < entries.length, i ≠ k → Before entries k i)
    (hclear : (entryAt entries k).rBit ≠ 0x01) (hpage : e.page bits = (entryAt entries k).page bits)
    (hbit : e.rBit = (entryAt entries k).rBit) (htime : e.lastAccessTime = now+1) :
    ∃ older' rest', Queued bits (now+1) (some (e.page bits)) (entries.set k e)
      (touch (e.page bits) queue) older' k rest' (chanced++[k]) := by
  obtain ⟨y,hy,hybit⟩ := h.exists_mem_rest
  have hpairwise := h.pairwise_order hlast
  cases hrest : rest with
  | nil =>
    rw [hrest] at hy
    exact absurd hy List.not_mem_nil
  | cons i rest' =>
    have horder := h.order_eq
    rw [hrest,List.cons_append] at horder
    -- the first of the order is the page
    have hik : i = k := by
      by_contra hne
      have hmem : k ∈ i::(rest'++chanced) := horder ▸ h.mem_order_iff.mpr hk
      have hbefore : Before entries i k := by
        rw [horder] at hpairwise
        exact (List.pairwise_cons.mp hpairwise).1 k
          ((List.mem_cons.mp hmem).resolve_left (Ne.symm hne))
      exact hbefore.asymm (hfirst i (h.lt_of_mem_rest (hrest ▸ List.mem_cons_self)) hne)
    subst hik
    have hnotin : i ∉ rest'++chanced := by
      have hnodup := h.nodup_order
      rw [horder] at hnodup
      exact (List.nodup_cons.mp hnodup).1
    have hkeys {l : List ℕ} (hl : ∀ j ∈ l, j ∈ rest'++chanced) {f : ℕ → BitVec 32 × Bool}
        (hf : ∀ j, (f j).1 = (entryAt entries j).page bits) :
        e.page bits ∉ (l.map f).map Prod.fst := by
      rw [List.map_map]
      intro hmem
      obtain ⟨j,hj,hjpage⟩ := List.mem_map.mp hmem
      have hjlt : j < entries.length := by
        rw [← h.mem_order_iff,horder]
        exact List.mem_cons_of_mem _ (hl j hj)
      obtain rfl := pageAt_inj h.nodup hjlt hk ((hf j).symm.trans (hjpage.trans hpage))
      exact hnotin (hl j hj)
    refine ⟨rest'++chanced,rest',h.hit hk hpage hbit htime ?_ (List.append_assoc _ _ _) ?_ ?_ ?_ ?_
      ?_⟩
    · rw [horder]
      exact List.perm_append_singleton _ _
    · rw [horder] at hpairwise
      exact (List.pairwise_cons.mp hpairwise).2
    · have hitem : (entryAt entries i).item bits = (e.page bits,false) :=
        Prod.ext hpage.symm (beq_false_of_ne hclear)
      rw [h.queue_eq,hrest,List.map_cons,hitem,
        touch_append_cons (hkeys (fun j hj => List.mem_append_right _ hj) fun _ => rfl)
          (hkeys (fun j hj => List.mem_append_left _ hj) fun _ => rfl)]
      simp [hpage]
    · intro j hj
      rcases List.mem_append.mp hj with hj | hj
      · exact h.of_mem_chanced j hj
      · exact List.mem_singleton.mp hj ▸ hclear
    · refine ⟨y,(List.mem_cons.mp (hrest ▸ hy)).resolve_left ?_,hybit⟩
      rintro rfl
      exact hclear hybit
    · exact fun hmem => absurd (List.mem_append_left _ hmem) hnotin

/-- The queue and SEC look for the same page: the first in the order of the last accesses with its
bit clear, or, where all are set, the first of all. -/
theorem evict_queue :
    (∃ front i behind, older++[newest] = front++i::behind ∧
      (∀ k ∈ front, (entryAt entries k).rBit = 0x01) ∧ (entryAt entries i).rBit ≠ 0x01 ∧
      evict queue = behind.map (fun k => (entryAt entries k).item bits)++
        front.map fun k => ((entryAt entries k).page bits,false)) ∨
    (∀ k ∈ older++[newest], (entryAt entries k).rBit = 0x01) ∧
      evict queue = ((older++[newest]).map fun k => ((entryAt entries k).page bits,false)).tail := by
  have hclear : ∀ k ∈ chanced, ((entryAt entries k).page bits,false) =
      (entryAt entries k).item bits := by
    intro k hk
    exact Prod.ext rfl (beq_false_of_ne (h.of_mem_chanced k hk)).symm
  have hset {l : List ℕ} (hl : ∀ k ∈ l, (entryAt entries k).rBit = 0x01) :
      ∀ x ∈ chanced.map (fun k => ((entryAt entries k).page bits,true))++
        l.map (fun k => (entryAt entries k).item bits), x.2 = true := by
    intro x hx
    rcases List.mem_append.mp hx with hx | hx
    · obtain ⟨k,-,rfl⟩ := List.mem_map.mp hx
      rfl
    · obtain ⟨k,hk,rfl⟩ := List.mem_map.mp hx
      exact beq_iff_eq.mpr (hl k hk)
  have hmap (l : List ℕ) : (chanced.map (fun k => ((entryAt entries k).page bits,true))++
      l.map (fun k => (entryAt entries k).item bits)).map clear =
        chanced.map (fun k => (entryAt entries k).item bits)++
          l.map fun k => ((entryAt entries k).page bits,false) := by
    rw [List.map_append,List.map_map,List.map_map,← List.map_congr_left hclear]
    rfl
  cases hfind : rest.find? fun k => (entryAt entries k).rBit != 0x01 with
  | some i =>
    obtain ⟨hi,front,behind,hrest,hfront⟩ := List.find?_eq_some_iff_append.mp hfind
    have hi' : (entryAt entries i).rBit ≠ 0x01 := bne_iff_ne.mp hi
    have hfront' : ∀ k ∈ front, (entryAt entries k).rBit = 0x01 := by
      intro k hk
      simpa using hfront k hk
    refine .inl ⟨front,i,behind++chanced,?_,hfront',hi',?_⟩
    · rw [h.order_eq,hrest,List.append_assoc,List.cons_append]
    · have hitem : (entryAt entries i).item bits = ((entryAt entries i).page bits,false) :=
        Prod.ext rfl (beq_false_of_ne hi')
      rw [h.queue_eq,hrest,List.map_append,List.map_cons,hitem,← List.append_assoc,
        evict_append_cons (hset hfront'),hmap,List.map_append,List.append_assoc]
  | none =>
    have hrest : ∀ k ∈ rest, (entryAt entries k).rBit = 0x01 := by
      intro k hk
      simpa using List.find?_eq_none.mp hfind k hk
    have hevict : evict queue = (chanced.map (fun k => (entryAt entries k).item bits)++
        rest.map fun k => ((entryAt entries k).page bits,false)).tail := by
      rw [h.queue_eq,evict_of_forall (hset hrest),hmap]
    rw [hevict,h.order_eq]
    cases hchanced : chanced with
    | nil =>
      rw [List.append_nil]
      exact .inr ⟨hrest,rfl⟩
    | cons i behind =>
      exact .inl ⟨rest,i,behind,rfl,hrest,h.of_mem_chanced i (hchanced ▸ List.mem_cons_self),rfl⟩

/-- All entries are of the past of the next access. -/
theorem ordered (hlast : ∀ i ∈ older, Before entries i newest) :
    Ordered entries (now+1) (older++[newest]) where
  pairwise := h.pairwise_order hlast
  mem_iff k := by
    rw [h.mem_order_iff]
    exact ⟨fun hk => ⟨hk,Int.lt_add_one_of_le (h.le_now k hk)⟩,And.left⟩

/-- The nodes that are passed over are in the order of the list. -/
theorem pairwise_front {front behind : List ℕ} (hlast : ∀ i ∈ older, Before entries i newest)
    (hlist : ∀ i < entries.length, ∀ j < entries.length, PassedOver entries i →
      PassedOver entries j → Before entries i j → i < j)
    (horder : older++[newest] = front++behind)
    (hfront : ∀ k ∈ front, (entryAt entries k).rBit = 0x01) : front.Pairwise (· < ·) := by
  have hpairwise := h.pairwise_order hlast
  rw [horder] at hpairwise
  have hlt : ∀ k ∈ front, k < entries.length := fun k hk =>
    h.mem_order_iff.mp (horder ▸ List.mem_append_left _ hk)
  have hpassed : ∀ k ∈ front, PassedOver entries k := by
    intro k hk
    refine ⟨hfront k hk,fun j hj hbefore => ?_⟩
    rcases List.mem_append.mp (horder ▸ h.mem_order_iff.mpr hj) with hj | hj
    · exact hfront j hj
    · exact absurd hbefore ((List.pairwise_append.mp hpairwise).2.2 k hk j hj).asymm
  refine (List.pairwise_append.mp hpairwise).1.imp_of_mem ?_
  intro i j hi hj hbefore
  exact hlist i (hlt i hi) j (hlt j hj) (hpassed i hi) (hpassed j hj) hbefore

/-- The table is full: a page goes, and the new one has its node. -/
theorem replace {info : SimulationInfo} {tail : PageTable} (hlen : entries.length = info.maxPages)
    (hinfo : info.time = now+1) (hlast : ∀ i ∈ older, Before entries i newest)
    (hlist : ∀ i < entries.length, ∀ j < entries.length, PassedOver entries i →
      PassedOver entries j → Before entries i j → i < j)
    (hpage : new.page bits ∉ entries.map (PTE.page bits)) (hbit : new.rBit = 0x01)
    (htime : new.lastAccessTime = now+1) :
    ∃ entries' older' newest' rest', algo_sec info new (info.maxPages+1) (entries.map some++tail) =
        .ok (entries'.map some++tail) ∧ entries'.length = entries.length ∧
      Queued bits (now+1) (some (new.page bits)) entries'
        (evict queue++[(new.page bits,true)]) older' newest' rest' [] := by
  have hordered := h.ordered hlast
  rw [← hinfo] at hordered
  have hlength (front : List ℕ) (v : ℕ) :
      ((passOver (now+1) front entries).set v new).length = entries.length := by
    rw [List.length_set,length_passOver]
  have hlt : ∀ k ∈ older++[newest], k < entries.length := fun k hk => h.mem_order_iff.mp hk
  have hcount : (older++[newest]).length = entries.length := by
    rw [h.perm.length_eq,List.length_range]
  obtain ⟨front,i,behind,horder,hfront,hi,hevict⟩ | ⟨hall,hevict⟩ := h.evict_queue
  · have hnodup := h.nodup_order
    have hpairwise := h.pairwise_order hlast
    have hltfront : ∀ k ∈ front, k < entries.length := fun k hk =>
      hlt k (horder ▸ List.mem_append_left _ hk)
    have hsorted := h.pairwise_front hlast hlist horder hfront
    rw [horder] at hordered hnodup hpairwise hcount
    obtain ⟨hnodupfront,hnodupbehind,hdisjoint⟩ := List.nodup_append.mp hnodup
    have hcode := algo_sec_first hlen
      (by rw [List.length_append,List.length_cons] at hcount; omega) hfront new tail hordered hi
    rw [hinfo] at hcode
    refine ⟨_,_,_,_,hcode,hlength front i,queued_of_replaced h.perm
      h.le_now h.nodup (hlt i (horder ▸ by simp)) hltfront
      hnodupfront rfl hpage hbit htime ?_ (fun k hk => hk) ?_ ?_ hsorted hevict⟩
    · rw [horder]
      refine (List.perm_append_singleton _ _).trans ?_
      exact (List.perm_append_comm.cons i).trans List.perm_middle.symm
    · intro k hk hmem
      exact hdisjoint k hmem k (List.mem_cons_of_mem _ hk) rfl
    · exact (List.pairwise_cons.mp (List.pairwise_append.mp hpairwise).2.1).2
  · have horder : older++[newest] = (older++[newest])++[] := (List.append_nil _).symm
    have hsorted := h.pairwise_front hlast hlist horder hall
    have hzero := h.mem_order_iff.mpr (Nat.zero_lt_of_lt h.newest_lt)
    have hnodup := h.nodup_order
    have hcode := algo_sec_none hlen (by omega) hall new tail
      (List.ne_nil_of_length_pos (Nat.zero_lt_of_lt h.newest_lt)) hordered
      fun k hk => h.mem_order_iff.mpr hk
    rw [hinfo] at hcode
    obtain ⟨v,passed,hv⟩ : ∃ v passed, older++[newest] = v::passed :=
      List.exists_cons_of_ne_nil (List.append_ne_nil_of_right_ne_nil _ (List.cons_ne_nil _ _))
    -- the order is that of the list, so the first of it is the first of the list
    have hv₀ : v = 0 := by
      rw [hv] at hsorted hzero
      rcases List.mem_cons.mp hzero with hzero | hzero
      · exact hzero.symm
      · exact absurd ((List.pairwise_cons.mp hsorted).1 0 hzero) (Nat.not_lt_zero _)
    subst hv₀
    have hperm : (([] : List ℕ)++passed++[0]).Perm (older++[newest]) := by
      rw [hv]
      exact List.perm_append_singleton _ _
    refine ⟨_,_,_,_,hcode,hlength _ 0,queued_of_replaced h.perm h.le_now h.nodup
      (Nat.zero_lt_of_lt h.newest_lt) hlt hnodup rfl hpage hbit htime hperm ?_ ?_ List.Pairwise.nil ?_ ?_⟩
    · intro k hk
      exact hv ▸ List.mem_cons_of_mem _ hk
    · exact fun k hk => absurd hk List.not_mem_nil
    · rw [hv] at hsorted
      exact (List.pairwise_cons.mp hsorted).2
    · rw [hevict,hv]
      rfl

end Queued

/-- No page has been replaced so far: the queue is the table, and all bits are set. -/
structure Filling (bits : ℕ) (now : ℤ) (entries : List PTE) (queue : List (BitVec 32 × Bool)) :
    Prop where
  queue_eq : queue = entries.map (PTE.item bits)
  bits_set : ∀ e ∈ entries, e.rBit = 0x01
  le_now : ∀ e ∈ entries, e.lastAccessTime ≤ now
  nodup : (entries.map (PTE.page bits)).Nodup

namespace Filling
variable (h : Filling bits now entries queue)
include h

theorem of_mem_queue : ∀ x ∈ queue, x.2 = true := by
  rw [h.queue_eq]
  intro x hx
  obtain ⟨e,he,rfl⟩ := List.mem_map.mp hx
  exact beq_iff_eq.mpr (h.bits_set e he)

/-- Any page is accessed again. -/
theorem hit {e : PTE} (hk : k < entries.length)
    (hpage : e.page bits = (entryAt entries k).page bits)
    (hbit : e.rBit = (entryAt entries k).rBit) (htime : e.lastAccessTime = now+1) :
    Filling bits (now+1) (entries.set k e) (touch (e.page bits) queue) := by
  have hget : entryAt entries k = entries[k] := List.getD_eq_getElem _ _ hk
  have hitem : (entries.set k e).map (PTE.item bits) = entries.map (PTE.item bits) := by
    have hk' : k < (entries.map (PTE.item bits)).length := (List.length_map _).symm ▸ hk
    have heq : e.item bits = (entries.map (PTE.item bits))[k] := by
      rw [List.getElem_map,← hget]
      exact Prod.ext hpage (congrArg (· == 0x01) hbit)
    rw [List.map_set,heq,List.set_getElem_self]
  constructor
  · rw [touch_eq_self fun x hx _ => h.of_mem_queue x hx,hitem]
    exact h.queue_eq
  · intro e' he'
    rcases List.mem_or_eq_of_mem_set he' with he' | rfl
    · exact h.bits_set e' he'
    · exact hbit.trans (h.bits_set _ (entryAt_mem hk))
  · intro e' he'
    rcases List.mem_or_eq_of_mem_set he' with he' | rfl
    · exact (Int.lt_add_one_of_le (h.le_now e' he')).le
    · exact htime.le
  · have hpages := congrArg (List.map Prod.fst) hitem
    rw [List.map_map,List.map_map] at hpages
    change (entries.set k e).map (PTE.page bits) = entries.map (PTE.page bits) at hpages
    exact hpages ▸ h.nodup

/-- A page is loaded into the next node. -/
theorem load (hpage : new.page bits ∉ entries.map (PTE.page bits)) (hbit : new.rBit = 0x01)
    (htime : new.lastAccessTime = now+1) :
    Filling bits (now+1) (entries++[new]) (queue++[(new.page bits,true)]) where
  queue_eq := by
    rw [List.map_append,← h.queue_eq,List.map_singleton]
    exact congrArg (queue++[·]) (Prod.ext rfl (beq_iff_eq.mpr hbit).symm)
  bits_set := List.forall_mem_append.mpr ⟨h.bits_set,List.forall_mem_singleton.mpr hbit⟩
  le_now := by
    refine List.forall_mem_append.mpr ⟨fun e he => ?_,List.forall_mem_singleton.mpr htime.le⟩
    exact (Int.lt_add_one_of_le (h.le_now e he)).le
  nodup := by
    rw [List.map_append,List.map_singleton]
    exact List.Nodup.append h.nodup (List.nodup_singleton _) (List.disjoint_singleton.mpr hpage)

/-- The table is full: whatever their order, all are passed over, and the first of the list goes. -/
theorem replace {info : SimulationInfo} {tail : PageTable} (hlen : entries.length = info.maxPages)
    (hne : entries ≠ []) (hinfo : info.time = now+1)
    (hpage : new.page bits ∉ entries.map (PTE.page bits)) (hbit : new.rBit = 0x01)
    (htime : new.lastAccessTime = now+1) :
    ∃ entries' older' newest' rest', algo_sec info new (info.maxPages+1) (entries.map some++tail) =
        .ok (entries'.map some++tail) ∧ entries'.length = entries.length ∧
      Queued bits (now+1) (some (new.page bits)) entries'
        (evict queue++[(new.page bits,true)]) older' newest' rest' [] := by
  have hpos := List.length_pos_of_ne_nil hne
  obtain ⟨order,hperm,hordered⟩ := exists_ordered fun e he => Int.lt_add_one_of_le (h.le_now e he)
  have hlt : ∀ k ∈ order, k < entries.length :=
    fun k hk => List.mem_range.mp (hperm.mem_iff.mp hk)
  have hall : ∀ k < entries.length, k ∈ order :=
    fun k hk => hperm.mem_iff.mpr (List.mem_range.mpr hk)
  have hcount : order.length = entries.length := by rw [hperm.length_eq,List.length_range]
  rw [← hinfo] at hordered
  have hcode := algo_sec_none hlen (by omega)
    (fun k hk => h.bits_set _ (entryAt_mem (hlt k hk))) new tail hne hordered hall
  rw [hinfo] at hcode
  have hrange : List.range entries.length = 0::(List.range entries.length).tail := by
    rw [List.range_eq_range',← Nat.succ_pred_eq_of_pos hpos]
    rfl
  have hperm' : (([] : List ℕ)++(List.range entries.length).tail++[0]).Perm order := by
    refine (List.perm_append_singleton _ _).trans ?_
    rw [List.nil_append,← hrange]
    exact hperm.symm
  refine ⟨_,_,_,_,hcode,?_,queued_of_replaced hperm (forall_entryAt.mpr h.le_now) h.nodup hpos hlt
    hordered.nodup rfl hpage hbit htime hperm' ?_ ?_ List.Pairwise.nil ?_ ?_⟩
  · rw [List.length_set,length_passOver]
  · exact fun k hk => hall k (List.mem_range.mp (List.mem_of_mem_tail hk))
  · exact fun k hk => absurd hk List.not_mem_nil
  · exact List.pairwise_lt_range.sublist (List.tail_sublist _)
  · rw [evict_of_forall h.of_mem_queue,h.queue_eq,List.map_map,← map_entryAt_range,List.map_tail]
    rfl

end Filling
end Queue

end PucRio.SimVirtual
