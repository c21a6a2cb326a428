import PucRio.Lib.Recency
import Mathlib.Data.Finset.Card
import Mathlib.Data.List.TakeDrop

/-! How many faults least recently used has: never more with a larger cache, and not more than its
capacity times those of any other way of paging on demand. -/
namespace PucRio.Recency
variable {α : Type*} [DecidableEq α] {k : ℕ} {a : α} {l : List α}

/-- The keys of a trace, the most recent one first. -/
def stack (trace : List α) : List α := trace.foldl (fun l a => a::l.erase a) []

theorem stack_append (trace : List α) (a : α) :
    stack (trace++[a]) = a::(stack trace).erase a := by
  rw [stack,List.foldl_append]
  rfl

theorem erase_take (k : ℕ) (h : a ∈ l.take (k+1)) : (l.take (k+1)).erase a = (l.erase a).take k := by
  induction l generalizing k with
  | nil => simp at h
  | cons x l ih =>
    by_cases hx : x = a
    · rw [hx,List.take_succ_cons,List.erase_cons_head,List.erase_cons_head]
    · cases k with
      | zero =>
        simp only [Nat.zero_add,List.take_succ_cons,List.take_zero,List.mem_singleton] at h
        exact absurd h.symm hx
      | succ k =>
        rw [List.take_succ_cons] at h ⊢
        have hmem := (List.mem_cons.mp h).resolve_left (Ne.symm hx)
        rw [List.erase_cons_tail (by simpa using hx),List.erase_cons_tail (by simpa using hx),
          List.take_succ_cons,ih k hmem]

theorem take_erase (h : a ∉ l.take k) : (l.erase a).take k = l.take k := by
  induction l generalizing k with
  | nil => rfl
  | cons x l ih =>
    cases k with
    | zero => rfl
    | succ k =>
      rw [List.take_succ_cons,List.mem_cons,not_or] at h
      rw [List.erase_cons_tail (by simpa using Ne.symm h.1),List.take_succ_cons,List.take_succ_cons,
        ih h.2]

/-- The cache of every capacity is the top of one stack. -/
theorem recent_lru (hk : 0 < k) (trace : List α) : (lru k trace).recent = (stack trace).take k := by
  obtain ⟨k,rfl⟩ := Nat.exists_eq_succ_of_ne_zero (Nat.ne_of_gt hk)
  induction trace using List.reverseRecOn with
  | nil => rfl
  | append_singleton trace a ih =>
    rw [lru_append,stack_append,List.take_succ_cons]
    by_cases ha : a ∈ (lru (k+1) trace).recent
    · rw [Cache.access_hit _ ha]
      rw [ih] at ha ⊢
      rw [erase_take k ha]
    · have hnot := ha
      rw [ih] at hnot
      have htake : a ∉ (stack trace).take k := fun h =>
        hnot (List.take_subset_take_left _ (Nat.le_succ k) h)
      rw [take_erase htake]
      by_cases hroom : (lru (k+1) trace).recent.length < k+1
      · rw [Cache.access_add ha hroom]
        rw [ih,List.length_take] at hroom
        rw [ih,List.take_of_length_le (by omega),List.take_of_length_le (by omega)]
      · rw [Cache.access_replace ha hroom]
        rw [ih,List.length_take] at hroom
        have hlength : ((stack trace).take (k+1)).length-1 = k := by
          rw [List.length_take]
          omega
        show a::(lru (k+1) trace).recent.dropLast = _
        rw [ih,List.dropLast_eq_take,hlength,List.take_take,Nat.min_eq_left (Nat.le_succ k)]

theorem length_lru_le (hk : 0 < k) (trace : List α) : (lru k trace).recent.length ≤ k := by
  rw [recent_lru hk]
  exact List.length_take_le _ _

/-- A larger cache keeps what a smaller one keeps. -/
theorem recent_subset {m n : ℕ} (hm : 0 < m) (hmn : m ≤ n) (trace : List α) :
    (lru m trace).recent ⊆ (lru n trace).recent := by
  rw [recent_lru hm,recent_lru (hm.trans_le hmn)]
  exact List.take_subset_take_left _ hmn

theorem faults_access (cache : Cache α) (a : α) :
    (cache.access k a).faults = cache.faults+if a ∈ cache.recent then 0 else 1 := by
  unfold Cache.access
  split_ifs <;> rfl

/-- A larger cache has no more faults. -/
theorem faults_le_faults {m n : ℕ} (hm : 0 < m) (hmn : m ≤ n) (trace : List α) :
    (lru n trace).faults ≤ (lru m trace).faults := by
  induction trace using List.reverseRecOn with
  | nil => exact Nat.le_refl _
  | append_singleton trace a ih =>
    rw [lru_append,lru_append,faults_access,faults_access]
    have hsub := @recent_subset α _ m n hm hmn trace a
    split_ifs with h₁ h₂ h₂
    · exact ih
    · omega
    · exact absurd (hsub h₂) h₁
    · omega

/-- What a cache on demand does for a key: nothing if it has the key, else it loads the key, for which
it may drop one that it has. -/
inductive Serves (C : Finset α) (faults : ℕ) (a : α) : Finset α → ℕ → Prop
  | hit (h : a ∈ C) : Serves C faults a C faults
  | load (h : a ∉ C) : Serves C faults a (insert a C) (faults+1)
  | replace (h : a ∉ C) (q : α) : Serves C faults a (insert a (C.erase q)) (faults+1)

/-- The keys that a cache of the capacity may have after the trace, and its faults. -/
inductive Paging (k : ℕ) : List α → Finset α → ℕ → Prop
  | nil : Paging k [] ∅ 0
  | snoc {trace : List α} {C C' : Finset α} {faults faults' : ℕ} {a : α}
      (h : Paging k trace C faults) (serves : Serves C faults a C' faults') (le : C'.card ≤ k) :
      Paging k (trace++[a]) C' faults'

/-- The keys of the list that are not in the cache, the first one counted `k` times, the second one
`k-1` times, and so on. -/
def potential (k : ℕ) (C : Finset α) : List α → ℕ
  | [] => 0
  | x::l => (if x ∈ C then 0 else k)+potential (k-1) C l

variable {C C' : Finset α}

theorem potential_erase (h : a ∈ l) : potential (k-1) C (l.erase a) ≤ potential k C l := by
  induction l generalizing k with
  | nil => cases h
  | cons x l ih =>
    by_cases hx : x = a
    · rw [hx,List.erase_cons_head,potential]
      exact Nat.le_add_left _ _
    · have hle := ih (k := k-1) ((List.mem_cons.mp h).resolve_left (Ne.symm hx))
      rw [List.erase_cons_tail (by simpa using hx),potential,potential]
      split_ifs <;> omega

theorem potential_mono (h : ∀ x ∈ l, x ∈ C → x ∈ C') : potential k C' l ≤ potential k C l := by
  induction l generalizing k with
  | nil => exact Nat.le_refl _
  | cons x l ih =>
    have hle := ih (k := k-1) fun y hy => h y (List.mem_cons_of_mem _ hy)
    have hx := h x List.mem_cons_self
    rw [potential,potential]
    split_ifs with h₁ h₂ h₂
    · omega
    · omega
    · exact absurd (hx h₂) h₁
    · omega

/-- One key that goes counts `k` times at most. -/
theorem potential_drop (hl : l.Nodup) {q : α} (h : ∀ x ∈ l, x ≠ q → x ∈ C → x ∈ C') :
    potential k C' l ≤ potential k C l+k := by
  induction l generalizing k with
  | nil => exact Nat.zero_le _
  | cons x l ih =>
    obtain ⟨hx,hl⟩ := List.nodup_cons.mp hl
    rw [potential,potential]
    by_cases hq : x = q
    · have hle : potential (k-1) C' l ≤ potential (k-1) C l := by
        apply potential_mono
        intro y hy
        exact h y (List.mem_cons_of_mem _ hy) fun hyq => hx (hq.trans hyq.symm ▸ hy)
      split_ifs <;> omega
    · have hle := ih (k := k-1) hl fun y hy => h y (List.mem_cons_of_mem _ hy)
      have hmem := h x List.mem_cons_self hq
      split_ifs with h₁ h₂ h₂
      · omega
      · omega
      · exact absurd (hmem h₂) h₁
      · omega

/-- Each key of the list comes one place later, and the last one goes. -/
theorem potential_dropLast (h : l.length ≤ k) :
    potential (k-1) C l.dropLast+l.countP (· ∉ C) ≤ potential k C l := by
  induction l generalizing k with
  | nil => exact Nat.le_refl _
  | cons x l ih =>
    rw [List.length_cons] at h
    cases l with
    | nil =>
      simp only [List.dropLast_singleton,potential,List.countP_singleton,decide_not]
      split_ifs with h₁ h₂ h₂
      · simp_all
      · omega
      · omega
      · omega
    | cons y l =>
      have hle := ih (k := k-1) (by omega)
      rw [List.dropLast_cons_cons,potential,potential,List.countP_cons]
      by_cases hx : x ∈ C
      · simp only [hx,if_true,not_true_eq_false,decide_false,Bool.false_eq_true,if_false]
        omega
      · simp only [hx,if_false,not_false_eq_true,decide_true,if_true]
        omega

theorem potential_pred_le (k : ℕ) (C : Finset α) (l : List α) :
    potential (k-1) C l ≤ potential k C l := by
  induction l generalizing k with
  | nil => exact Nat.le_refl _
  | cons x l ih =>
    have hle := ih (k-1)
    rw [potential,potential]
    split_ifs <;> omega

/-- A full list without the key has another one that the cache with the key has not. -/
theorem one_le_countP (hl : l.Nodup) (hlen : l.length = k) (hC : C.card ≤ k) (ha : a ∈ C)
    (hal : a ∉ l) : 1 ≤ l.countP (· ∉ C) := by
  apply List.countP_pos_iff.mpr
  by_contra hall
  have hsub : insert a l.toFinset ⊆ C := by
    apply Finset.insert_subset ha
    intro x hx
    by_contra hx'
    exact hall ⟨x,List.mem_toFinset.mp hx,by simpa using hx'⟩
  have hcard := Finset.card_le_card hsub
  rw [Finset.card_insert_of_notMem (by simpa using hal),List.toFinset_card_of_nodup hl] at hcard
  omega

theorem nodup_stack (trace : List α) : (stack trace).Nodup := by
  induction trace using List.reverseRecOn with
  | nil => exact List.nodup_nil
  | append_singleton trace a ih =>
    rw [stack_append]
    exact List.nodup_cons.mpr ⟨fun ha => (ih.mem_erase_iff.mp ha).1 rfl,ih.erase a⟩

/-- An access with a potential: what it may cost is what the other cache pays for. -/
structure Charged (k : ℕ) (cache cache' : Cache α) (C C' : Finset α) (pays : ℕ) : Prop where
  kept : cache'.recent.length < k → ∀ x ∈ C', x ∈ cache'.recent
  charge : cache'.faults+potential k C' cache'.recent ≤ cache.faults+potential k C cache.recent+pays

variable {cache : Cache α}

/-- The other cache has the key. -/
theorem charged_hit (hl : cache.recent.Nodup) (hlen : cache.recent.length ≤ k) (hC : C.card ≤ k)
    (hkept : cache.recent.length < k → ∀ x ∈ C, x ∈ cache.recent) (ha : a ∈ C) :
    Charged k cache (cache.access k a) C C 0 := by
  by_cases hmem : a ∈ cache.recent
  · rw [Cache.access_hit k hmem]
    constructor
    · intro hlt x hx
      rw [List.length_cons,List.length_erase_of_mem hmem] at hlt
      have hx' := hkept (by omega) x hx
      by_cases hxa : x = a
      · exact hxa ▸ List.mem_cons_self
      · exact List.mem_cons_of_mem _ ((List.mem_erase_of_ne hxa).mpr hx')
    · have hle := potential_erase (k := k) (C := C) hmem
      simp only [potential,ha,if_true]
      omega
  · have hfull : ¬cache.recent.length < k := fun hlt => hmem (hkept hlt a ha)
    rw [Cache.access_replace hmem hfull]
    have hle := potential_dropLast (C := C) hlen
    have hone := one_le_countP hl (by omega) hC ha hmem
    constructor
    · intro hlt
      rw [List.length_cons,List.length_dropLast] at hlt
      omega
    · simp only [potential,ha,if_true]
      omega

/-- The other cache loads the key. -/
theorem charged_load (hl : cache.recent.Nodup) (hlen : cache.recent.length ≤ k)
    (hkept : cache.recent.length < k → ∀ x ∈ C, x ∈ cache.recent) (hk : 0 < k) {q : α}
    (hsub : ∀ x ∈ C', x = a ∨ x ∈ C) (hdrop : ∀ x, x ≠ q → x ∈ C → x ∈ C') (ha : a ∈ C') :
    Charged k cache (cache.access k a) C C' k := by
  have hpay (l : List α) (hl : l.Nodup) : potential (k-1) C' l ≤ potential (k-1) C l+(k-1) :=
    potential_drop hl fun x _ => hdrop x
  by_cases hmem : a ∈ cache.recent
  · rw [Cache.access_hit k hmem]
    constructor
    · intro hlt x hx
      rw [List.length_cons,List.length_erase_of_mem hmem] at hlt
      by_cases hxa : x = a
      · exact hxa ▸ List.mem_cons_self
      · have hx' := hkept (by omega) x ((hsub x hx).resolve_left hxa)
        exact List.mem_cons_of_mem _ ((List.mem_erase_of_ne hxa).mpr hx')
    · have hle := potential_erase (k := k) (C := C) hmem
      have hpay := hpay _ (hl.erase a)
      simp only [potential,ha,if_true]
      omega
  · by_cases hroom : cache.recent.length < k
    · rw [Cache.access_add hmem hroom]
      constructor
      · intro _ x hx
        rcases hsub x hx with rfl | hx
        · exact List.mem_cons_self
        · exact List.mem_cons_of_mem _ (hkept hroom x hx)
      · have hle := potential_pred_le k C cache.recent
        have hpay := hpay _ hl
        simp only [potential,ha,if_true]
        omega
    · rw [Cache.access_replace hmem hroom]
      have hle := potential_dropLast (C := C) hlen
      have hpay := hpay _ (hl.sublist (List.dropLast_sublist _))
      constructor
      · intro hlt
        rw [List.length_cons,List.length_dropLast] at hlt
        omega
      · simp only [potential,ha,if_true]
        omega

/-- What holds after every trace: what least recently used has paid, with what it may still have to
pay, is not more than the capacity times what the other cache has paid. -/
theorem Paging.charged {trace : List α} {faults : ℕ} (hk : 0 < k) (h : Paging k trace C faults) :
    C.card ≤ k ∧ ((lru k trace).recent.length < k → ∀ x ∈ C, x ∈ (lru k trace).recent) ∧
    (lru k trace).faults+potential k C (lru k trace).recent ≤ k*faults := by
  induction h with
  | nil => exact ⟨Nat.zero_le _,fun _ x hx => absurd hx (Finset.notMem_empty x),Nat.zero_le _⟩
  | @snoc trace C C' faults faults' a h serves le ih =>
    obtain ⟨hC,hkept,hle⟩ := ih
    have hl : (lru k trace).recent.Nodup := by
      rw [recent_lru hk]
      exact (nodup_stack trace).sublist (List.take_sublist _ _)
    have hlen := length_lru_le hk trace
    rw [lru_append]
    cases serves with
    | hit ha =>
      have hcharged := charged_hit hl hlen hC hkept ha
      exact ⟨le,hcharged.kept,hcharged.charge.trans hle⟩
    | load ha =>
      have hcharged := charged_load (q := a) hl hlen hkept hk
        (fun x => Finset.mem_insert.mp) (fun x _ => Finset.mem_insert_of_mem)
        (Finset.mem_insert_self a C)
      refine ⟨le,hcharged.kept,hcharged.charge.trans ?_⟩
      rw [Nat.mul_succ]
      omega
    | replace ha q =>
      have hcharged := charged_load (q := q) hl hlen hkept hk
        (fun x hx => (Finset.mem_insert.mp hx).imp_right Finset.mem_of_mem_erase)
        (fun x hxq hx => Finset.mem_insert_of_mem (Finset.mem_erase.mpr ⟨hxq,hx⟩))
        (Finset.mem_insert_self a _)
      refine ⟨le,hcharged.kept,hcharged.charge.trans ?_⟩
      rw [Nat.mul_succ]
      omega

/-- Least recently used has at most `k` times the faults that any cache of its capacity has. -/
theorem Paging.faults_lru_le {trace : List α} {faults : ℕ} (hk : 0 < k)
    (h : Paging k trace C faults) : (lru k trace).faults ≤ k*faults :=
  (Nat.le_add_right _ _).trans (h.charged hk).2.2

end PucRio.Recency
