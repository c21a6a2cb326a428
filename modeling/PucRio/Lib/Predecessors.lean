import Mathlib.Data.List.Nodup
import Mathlib.Data.List.Perm.Subperm
import Mathlib.Logic.Function.Basic

/-! A search that notes for the key of a value which value it was made from. A value in the queue is
replaced by another one of its key, a value that has been taken from the queue is not; so the notes lead
from a value back over those that it was really made from. In which order values are taken does not
matter. -/
namespace PucRio.Predecessors
variable {V K : Type*} {start : V → Prop} {next : V → V → Prop}

/-- Values that were made one from the other, from the last one. -/
inductive Trail (start : V → Prop) (next : V → V → Prop) : List V → Prop
  | start {v : V} (h : start v) : Trail start next [v]
  | next {p v : V} {l : List V} (h : Trail start next (p::l)) (hv : next p v) :
      Trail start next (v::p::l)

/-- The notes lead along a list, and no farther. -/
inductive Leads (key : V → K) (pathMap : K → Option V) : List V → Prop
  | last {v : V} (h : pathMap (key v) = none) : Leads key pathMap [v]
  | cons {v p : V} {l : List V} (hv : pathMap (key v) = some p) (h : Leads key pathMap (p::l)) :
      Leads key pathMap (v::p::l)

/-- Follow the notes, with so many values allowed, and put all in front of a list. -/
def walkBack (key : V → K) (pathMap : K → Option V) : ℕ → V → List V → Option (List V)
  | 0,_,_ => none
  | n+1,v,route => (pathMap (key v)).elim (some (v::route)) fun p =>
    walkBack key pathMap n p (v::route)

variable {key : V → K} {pathMap : K → Option V} {visited queue l route : List V} {p v : V} {n : ℕ}

theorem Leads.walkBack (h : Leads key pathMap l) (hn : l.length ≤ n) (hl : l = v::l.tail)
    (route : List V) : walkBack key pathMap n v route = some (l.reverse++route) := by
  induction h generalizing n v route with
  | @last u hnone =>
    obtain rfl := List.head_eq_of_cons_eq hl
    obtain ⟨n,rfl⟩ := Nat.exists_eq_add_one.mpr hn
    rw [Predecessors.walkBack,hnone]
    rfl
  | @cons u p l hsome _ ih =>
    obtain rfl := List.head_eq_of_cons_eq hl
    obtain ⟨n,rfl⟩ := Nat.exists_eq_add_one.mpr (Nat.zero_lt_of_lt hn)
    rw [Predecessors.walkBack,hsome,Option.elim_some,
      ih (Nat.le_of_succ_le_succ hn) rfl (u::route),List.reverse_cons (a := u),List.append_assoc]
    rfl

/-- What is left of a trail is one. -/
theorem Trail.suffix (h : Trail start next l) {l' : List V} (hl : v::l' <:+ l) :
    Trail start next (v::l') := by
  induction h with
  | @start u hu =>
    obtain h | h := List.suffix_cons_iff.mp hl
    · exact h ▸ .start hu
    · exact absurd (List.suffix_nil.mp h) (List.cons_ne_nil v l')
  | @next p u l hp hu ih =>
    obtain h | h := List.suffix_cons_iff.mp hl
    · exact h ▸ .next hp hu
    · exact ih h

/-- A value with a trail over values that have been visited, along which the notes lead. -/
structure Noted (start : V → Prop) (next : V → V → Prop) (key : V → K) (pathMap : K → Option V)
    (visited : List V) (v : V) (l : List V) : Prop where
  trail : Trail start next (v::l)
  leads : Leads key pathMap (v::l)
  nodup : ((v::l).map key).Nodup
  visited : ∀ u ∈ l, u ∈ visited

/-- All values have such a trail, and none in the queue has the key of another one there. -/
structure Kept (start : V → Prop) (next : V → V → Prop) (key : V → K) (pathMap : K → Option V)
    (visited queue : List V) : Prop where
  noted : ∀ v ∈ visited++queue, ∃ l, Noted start next key pathMap visited v l
  nodup : (queue.map key).Nodup

/-- A trail has no more values than have been visited, and its own. -/
theorem Noted.length_le (h : Noted start next key pathMap visited v l) :
    (v::l).length ≤ visited.length+1 := by
  have hnodup : l.Nodup := (List.nodup_cons.mp (List.Nodup.of_map key h.nodup)).2
  exact Nat.succ_le_succ (List.subperm_of_subset hnodup h.visited).length_le

theorem Kept.singleton (h : start v) : Kept start next key (fun _ => none) [] [v] := by
  refine ⟨fun u hu => ?_,List.nodup_singleton _⟩
  obtain rfl := List.mem_singleton.mp hu
  exact ⟨[],.start h,.last rfl,List.nodup_singleton _,fun u hu => absurd hu List.not_mem_nil⟩

/-- Any value is taken from the queue. -/
theorem Kept.poll (h : Kept start next key pathMap visited queue) {i : ℕ} (hi : queue[i]? = some v) :
    Kept start next key pathMap (visited++[v]) (queue.eraseIdx i) := by
  refine ⟨fun u hu => ?_,?_⟩
  · have hold : u ∈ visited++queue := by
      rw [List.append_assoc] at hu
      obtain hu | hu := List.mem_append.mp hu
      · exact List.mem_append_left _ hu
      · refine List.mem_append_right _ ?_
        obtain hu | hu := List.mem_cons.mp hu
        · exact hu ▸ List.mem_of_getElem? hi
        · exact (List.eraseIdx_sublist queue i).subset hu
    obtain ⟨l,hl⟩ := h.noted u hold
    exact ⟨l,hl.trail,hl.leads,hl.nodup,fun w hw => List.mem_append_left _ (hl.visited w hw)⟩
  · exact h.nodup.sublist ((List.eraseIdx_sublist queue i).map key)

/-- With different keys, no value of the key is left. -/
theorem ne_of_mem_eraseP [DecidableEq K] {k : K} (h : (queue.map key).Nodup)
    (hv : v ∈ queue.eraseP fun u => k = key u) : k ≠ key v := by
  induction queue with
  | nil => exact absurd hv List.not_mem_nil
  | cons u queue ih =>
    rw [List.map_cons,List.nodup_cons] at h
    by_cases hu : k = key u
    · rw [List.eraseP_cons_of_pos (by simpa using hu)] at hv
      exact fun heq => h.1 (hu ▸ heq ▸ List.mem_map_of_mem hv)
    · rw [List.eraseP_cons_of_neg (by simpa using hu)] at hv
      obtain hv | hv := List.mem_cons.mp hv
      · rwa [hv]
      · exact ih h.2 hv

/-- The notes for other keys are left. -/
theorem Leads.update [DecidableEq K] (h : Leads key pathMap l) {k : K} (hk : k ∉ l.map key)
    (p : V) : Leads key (Function.update pathMap k (some p)) l := by
  induction h with
  | @last u hnone =>
    have hne : key u ≠ k := fun heq => hk (List.mem_singleton.mpr heq.symm)
    exact .last (by rwa [Function.update_of_ne hne])
  | @cons u q l hsome _ ih =>
    rw [List.map_cons,List.mem_cons,not_or] at hk
    exact .cons (by rwa [Function.update_of_ne (Ne.symm hk.1)]) (ih hk.2)

/-- A value of a new key, or of one in the queue, comes into it from one that has been visited. -/
theorem Kept.offer [DecidableEq K] (h : Kept start next key pathMap visited queue)
    (hp : p ∈ visited) (hnext : next p v) (hnew : key v ∉ visited.map key) :
    Kept start next key (Function.update pathMap (key v) (some p)) visited
      (queue.eraseP (fun u => key v = key u)++[v]) := by
  have hfresh {l : List V} (hl : ∀ u ∈ l, u ∈ visited) : key v ∉ l.map key := by
    intro hmem
    obtain ⟨u,hu,heq⟩ := List.mem_map.mp hmem
    exact hnew (List.mem_map.mpr ⟨u,hl u hu,heq⟩)
  have hother {u : V} (hu : u ∈ visited++queue) (hne : key v ≠ key u) :
      ∃ l, Noted start next key (Function.update pathMap (key v) (some p)) visited u l := by
    obtain ⟨l,hl⟩ := h.noted u hu
    refine ⟨l,hl.trail,hl.leads.update ?_ p,hl.nodup,hl.visited⟩
    rw [List.map_cons,List.mem_cons,not_or]
    exact ⟨hne,hfresh hl.visited⟩
  refine ⟨fun u hu => ?_,?_⟩
  · rw [← List.append_assoc,List.mem_append,List.mem_append,List.mem_singleton] at hu
    obtain (hu | hu) | rfl := hu
    · refine hother (List.mem_append_left _ hu) fun heq => hnew ?_
      exact heq ▸ List.mem_map_of_mem hu
    · exact hother (List.mem_append_right _ (List.mem_of_mem_eraseP hu)) (ne_of_mem_eraseP h.nodup hu)
    · obtain ⟨l,hl⟩ := h.noted p (List.mem_append_left _ hp)
      have hvisited : ∀ w ∈ p::l, w ∈ visited := by
        rintro w (_ | ⟨_,hw⟩)
        · exact hp
        · exact hl.visited w hw
      have hkey := hfresh hvisited
      refine ⟨p::l,.next hl.trail hnext,.cons ?_ (hl.leads.update hkey p),?_,hvisited⟩
      · rw [Function.update_self]
      · rw [List.map_cons,List.nodup_cons]
        exact ⟨hkey,hl.nodup⟩
  · rw [List.map_append,List.nodup_append]
    refine ⟨h.nodup.sublist (List.eraseP_sublist.map key),List.nodup_singleton _,?_⟩
    rintro _ hmem _ hv heq
    obtain ⟨u,hu,rfl⟩ := List.mem_map.mp hmem
    rw [List.map_singleton,List.mem_singleton] at hv
    exact ne_of_mem_eraseP h.nodup hu (hv.symm.trans heq.symm)

/-- Back from any value there are no more values than have been visited, and those are its trail. -/
theorem Kept.walkBack (h : Kept start next key pathMap visited queue) (hv : v ∈ visited++queue) :
    ∃ l, Trail start next (v::l) ∧ ((v::l).map key).Nodup ∧
      walkBack key pathMap (visited.length+1) v [] = some (v::l).reverse := by
  obtain ⟨l,hl⟩ := h.noted v hv
  refine ⟨l,hl.trail,hl.nodup,?_⟩
  rw [hl.leads.walkBack hl.length_le rfl,List.append_nil]

end PucRio.Predecessors
