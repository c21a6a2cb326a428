import Mathlib.Data.List.Nodup
import Mathlib.Data.List.Perm.Basic
import Mathlib.Data.List.TakeWhile

/-! Lua's values, its tables as the pairs of their keys and values in the order in which `pairs`
goes over them, and the border that `#` finds. The numbers are a parameter. -/
namespace PucRio.Lua
variable {N : Type*}

/-- The bytes of a string. -/
abbrev Str := List Char

/-- What has no value but an identity. -/
inductive Reference where
  | function
  | userdata
  | thread
  deriving DecidableEq

/-- A reference comes with what `tostring` gives. -/
inductive Key (N : Type*) where
  | boolean (b : Bool)
  | number (x : N)
  | string (s : Str)
  | reference (type : Reference) (text : Str)
  deriving DecidableEq

inductive Value (N : Type*) where
  | nil
  | boolean (b : Bool)
  | number (x : N)
  | string (s : Str)
  | table (fields : List (Key N × Value N))
  | reference (type : Reference) (text : Str)

abbrev Table (N : Type*) := List (Key N × Value N)

def Value.isNil : Value N → Bool
  | .nil => true
  | _ => false

theorem Value.isNil_iff {v : Value N} : v.isNil = true ↔ v = .nil := by
  cases v <;> simp [isNil]

/-- All values but `nil` and `false` count as true. -/
def Value.truthy : Value N → Bool
  | .nil => false
  | .boolean b => b
  | _ => true

/-- `n` is a border of the values: those up to it are there, and the next one is not. -/
def IsBorder (l : List (Value N)) (n : ℕ) : Prop :=
  n ≤ l.length ∧ (∀ v ∈ l[n]?, v = .nil) ∧ ∀ m, n = m+1 → l[m]? ≠ some .nil

/-- Without a hole there is one border. -/
theorem IsBorder.eq_length {l : List (Value N)} {n : ℕ} (h : IsBorder l n) (hl : .nil ∉ l) :
    n = l.length := by
  obtain ⟨hle,hnil,-⟩ := h
  refine Nat.le_antisymm hle (Nat.le_of_not_lt fun hlt => hl ?_)
  rw [← hnil _ (List.getElem?_eq_getElem hlt)]
  exact List.getElem_mem hlt

/-- The border after the first values without a hole. -/
theorem isBorder_takeWhile (l : List (Value N)) :
    IsBorder l (l.takeWhile fun v => !v.isNil).length := by
  refine ⟨(List.takeWhile_sublist _).length_le,?_,?_⟩
  · induction l with
    | nil => exact fun v hv => by cases hv
    | cons v l ih =>
      rw [List.takeWhile_cons]
      split_ifs with hv
      · exact ih
      · intro w hw
        obtain rfl : v = w := Option.some.inj hw
        rw [Bool.not_eq_true',Bool.not_eq_false] at hv
        exact Value.isNil_iff.mp hv
  · intro m hm hnil
    have hlt : m < (l.takeWhile fun v => !v.isNil).length := hm ▸ Nat.lt_succ_self m
    have hmem := List.mem_takeWhile_imp (List.getElem_mem hlt)
    obtain ⟨hm,hnil⟩ := List.getElem?_eq_some_iff.mp hnil
    rw [(List.takeWhile_prefix _).getElem hlt,hnil] at hmem
    cases hmem

section Rawset
variable [DecidableEq N]

/-- `t[k]` -/
def rawget (t : Table N) (k : Key N) : Value N := ((t.find? fun p => p.1 = k).map Prod.snd).getD .nil

/-- `t[k] = v` -/
def rawset (t : Table N) (k : Key N) (v : Value N) : Table N :=
  if v.isNil then t.filter fun p => p.1 ≠ k
  else if k ∈ t.map Prod.fst then t.map fun p => if p.1 = k then (k,v) else p
  else t++[(k,v)]

variable {t : Table N} {k : Key N} {v : Value N}

theorem of_mem_rawset {p : Key N × Value N} (h : p ∈ rawset t k v) :
    p ∈ t ∨ p = (k,v) ∧ v ≠ .nil := by
  unfold rawset at h
  split_ifs at h with hv hk
  · exact Or.inl (List.mem_of_mem_filter h)
  · obtain ⟨q,hq,rfl⟩ := List.mem_map.mp h
    split_ifs with hqk
    · exact Or.inr ⟨rfl,fun hnil => hv (Value.isNil_iff.mpr hnil)⟩
    · exact Or.inl hq
  · cases List.mem_append.mp h with
    | inl h => exact Or.inl h
    | inr h => exact Or.inr ⟨List.mem_singleton.mp h,fun hnil => hv (Value.isNil_iff.mpr hnil)⟩

theorem nodup_rawset (h : (t.map Prod.fst).Nodup) : ((rawset t k v).map Prod.fst).Nodup := by
  unfold rawset
  split_ifs with hv hk
  · exact h.sublist (List.filter_sublist.map _)
  · have hmap : (t.map fun p => if p.1 = k then (k,v) else p).map Prod.fst = t.map Prod.fst := by
      rw [List.map_map]
      refine List.map_congr_left fun p _ => ?_
      rw [Function.comp_apply]
      split_ifs with hp
      · exact hp.symm
      · rfl
    rwa [hmap]
  · rw [List.map_append]
    refine List.nodup_append.mpr ⟨h,List.nodup_singleton k,fun a ha b hb hab => hk ?_⟩
    obtain rfl : b = k := List.mem_singleton.mp hb
    exact hab ▸ ha

theorem rawset_fresh (hk : k ∉ t.map Prod.fst) (hv : v ≠ .nil) : rawset t k v = t++[(k,v)] := by
  rw [rawset,if_neg (fun h => hv (Value.isNil_iff.mp h)),if_neg hk]

theorem rawset_nil (hk : k ∉ t.map Prod.fst) : rawset t k .nil = t := by
  show t.filter (fun p => p.1 ≠ k) = t
  refine List.filter_eq_self.mpr fun p hp => decide_eq_true fun h => hk ?_
  exact h ▸ List.mem_map_of_mem hp

end Rawset
end PucRio.Lua
