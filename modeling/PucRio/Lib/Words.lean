import Mathlib.Data.List.Basic

/-! Texts as lists of symbols: the words between separators, and the complete lines. -/
namespace PucRio.Text
variable {α : Type*}

/-- The longest runs without a separator. -/
def words (sep : α → Bool) (l : List α) : List (List α) :=
  (l.splitOnP sep).filter fun w => !w.isEmpty

section Words
variable {sep : α → Bool} {l r : List α} {c : α}

@[simp] theorem words_nil : words sep [] = [] := rfl

theorem words_append_cons (hc : sep c = true) : words sep (l++c::r) = words sep l++words sep r := by
  rw [words,List.splitOnP_append_cons l r hc,List.filter_append]
  rfl

theorem words_cons (hc : sep c = true) : words sep (c::l) = words sep l := by
  have h := words_append_cons (l := []) (r := l) hc
  rwa [List.nil_append,words_nil,List.nil_append] at h

theorem words_eq_singleton (hne : l ≠ []) (h : ∀ c ∈ l, sep c = false) : words sep l = [l] := by
  rw [words,List.splitOnP_eq_singleton h]
  simp [hne]

/-- What a piece of a split text is made of. -/
theorem of_mem_splitOnP {w : List α} (h : w ∈ l.splitOnP sep) :
    w.length ≤ l.length ∧ ∀ c ∈ w, c ∈ l ∧ sep c = false := by
  induction l generalizing w with
  | nil =>
    obtain rfl : w = [] := by simpa using h
    exact ⟨Nat.le_refl 0,fun c hc => absurd hc List.not_mem_nil⟩
  | cons a l ih =>
    have hrest {v : List α} (hv : v ∈ l.splitOnP sep) :
        v.length ≤ (a::l).length ∧ ∀ c ∈ v, c ∈ a::l ∧ sep c = false := by
      obtain ⟨hlen,hmem⟩ := ih hv
      exact ⟨Nat.le_succ_of_le hlen,fun c hc => ⟨List.mem_cons_of_mem a (hmem c hc).1,(hmem c hc).2⟩⟩
    rw [List.splitOnP_cons_eq_if_modifyHead] at h
    split_ifs at h with ha
    · cases h with
      | head => exact ⟨Nat.zero_le _,fun c hc => absurd hc List.not_mem_nil⟩
      | tail _ h => exact hrest h
    · obtain ⟨v,vs,hv⟩ := List.exists_cons_of_ne_nil (List.splitOnP_ne_nil sep l)
      rw [hv,List.modifyHead_cons] at h
      cases h with
      | head =>
        obtain ⟨hlen,hmem⟩ := ih (hv ▸ List.mem_cons_self)
        refine ⟨Nat.succ_le_succ hlen,fun c hc => ?_⟩
        cases hc with
        | head => exact ⟨List.mem_cons_self,Bool.eq_false_iff.mpr ha⟩
        | tail _ hc => exact ⟨List.mem_cons_of_mem a (hmem c hc).1,(hmem c hc).2⟩
      | tail _ h => exact hrest (hv ▸ List.mem_cons_of_mem v h)

theorem of_mem_words {w : List α} (h : w ∈ words sep l) :
    w.length ≤ l.length ∧ ∀ c ∈ w, c ∈ l ∧ sep c = false :=
  of_mem_splitOnP ((List.mem_filter.mp h).1)

end Words

section Lines
variable [BEq α] [LawfulBEq α] {eol : α} {l r : List α}

/-- The lines that have an end, without it. -/
def lines (eol : α) (l : List α) : List (List α) := (l.splitOn eol).dropLast

theorem lines_append (h : eol ∉ l) : lines eol (l++eol::r) = l::lines eol r := by
  rw [lines,List.splitOn_append_cons_self,List.splitOn_eq_singleton h,List.singleton_append,
    List.dropLast_cons_of_ne_nil (List.splitOn_ne_nil eol r)]
  rfl

theorem of_mem_lines {w : List α} (h : w ∈ lines eol l) : ∀ c ∈ w, c ∈ l ∧ c ≠ eol := by
  intro c hc
  have hw := (List.dropLast_sublist _).mem h
  rw [List.splitOn_eq_splitOnP] at hw
  obtain ⟨hmem,hne⟩ := (of_mem_splitOnP hw).2 c hc
  exact ⟨hmem,ne_of_beq_false hne⟩

end Lines
end PucRio.Text
