import PucRio.Monga.Lexer

/-! The buffer of a string literal. While its block has a terminator behind the characters added, and
only then, the literal is read as its text; the size of the block follows from their number. -/
namespace PucRio.Monga.Lexer
open Flex

section Blocks
variable {block t text junk : List Char}

theorem takeWhile_text (ht : NUL ∉ t) : (t++NUL::junk).takeWhile (· != NUL) = t := by
  rw [List.takeWhile_append_of_pos]
  · simp
  · intro c hc
    exact bne_iff_ne.mpr fun h => ht (h ▸ hc)

theorem cString_text (ht : NUL ∉ t) : cString (t++NUL::junk) = some t := by
  rw [cString,if_pos (by simp),takeWhile_text ht]

theorem cString_eq (h : cString block = some t) : NUL ∉ t ∧ ∃ junk, block = t++NUL::junk := by
  rw [cString] at h
  split at h
  · rename_i hmem
    obtain ⟨u,v,rfl,hu⟩ := List.eq_append_cons_of_mem hmem
    rw [takeWhile_text hu] at h
    obtain rfl := Option.some.inj h
    exact ⟨hu,v,rfl⟩
  · cases h

theorem length_writeAt {offset : ℕ} {b : List Char} (h : writeAt block offset text = .ok b) :
    offset+text.length < block.length ∧ b.length = block.length := by
  rw [writeAt] at h
  split at h
  · rename_i hlt
    obtain rfl := Except.ok.inj h
    refine ⟨hlt,?_⟩
    rw [List.length_append,List.length_append,List.length_cons,List.length_take,List.length_drop]
    omega
  · cases h

/-- Appending replaces the terminator and needs room for another one. -/
theorem writeAt_text (hlt : t.length+text.length < (t++NUL::junk).length) :
    ∃ junk', writeAt (t++NUL::junk) t.length text = .ok (t++text++NUL::junk') := by
  rw [writeAt,if_pos hlt,List.take_left]
  exact ⟨_,rfl⟩

theorem strcat_ok (hb : cString block = some t) (hlt : t.length+text.length < block.length)
    (htext : NUL ∉ text) :
    ∃ b, strcat block text = .ok b ∧ b.length = block.length ∧ cString b = some (t++text) := by
  obtain ⟨ht,junk,rfl⟩ := cString_eq hb
  obtain ⟨junk',hw⟩ := writeAt_text hlt
  refine ⟨_,?_,(length_writeAt hw).2,cString_text ?_⟩
  · rw [strcat,hb]
    exact hw
  · rw [List.mem_append]
    exact not_or.mpr ⟨ht,htext⟩

theorem strcat_inv {b : List Char} (htext : NUL ∉ text) (h : strcat block text = .ok b) :
    ∃ t, cString block = some t ∧ b.length = block.length ∧ cString b = some (t++text) := by
  rw [strcat] at h
  cases ht : cString block with
  | none =>
    rw [ht] at h
    cases h
  | some t =>
    rw [ht] at h
    obtain ⟨b',hb',hlen,hc⟩ := strcat_ok ht (length_writeAt h).1 htext
    rw [strcat,ht] at hb'
    obtain rfl := Except.ok.inj (h.symm.trans hb')
    exact ⟨t,rfl,hlen,hc⟩

variable {bytes : ℕ → Char} {size : ℕ}

theorem length_malloc : (malloc bytes size).length = size := by
  rw [malloc,List.length_map,List.length_range]

theorem length_realloc (h : block.length ≤ size) : (realloc block bytes size).length = size := by
  rw [realloc,List.length_append,List.length_take,List.length_drop,length_malloc]
  omega

/-- A block that grows keeps its text. -/
theorem cString_realloc (h : block.length ≤ size) (ht : cString block = some t) :
    cString (realloc block bytes size) = some t := by
  obtain ⟨hn,junk,rfl⟩ := cString_eq ht
  rw [realloc,List.take_of_length_le h,List.append_assoc]
  exact cString_text hn

theorem length_le_of_cString_eq_none {rest : List Char} (h : cString block = none)
    (ht : cString (block++rest) = some t) : block.length ≤ t.length := by
  obtain ⟨hn,junk,heq⟩ := cString_eq ht
  by_contra hlt
  have hmem : NUL ∈ block := by
    obtain ⟨a,rfl,ha⟩ | ⟨a,rfl,ha⟩ := List.append_eq_append_iff.mp heq
    · rw [List.length_append] at hlt
      omega
    · cases a with
      | nil => simp at hlt
      | cons c a =>
        rw [← (List.cons.inj ha).1]
        exact List.mem_append_right _ List.mem_cons_self
  rw [cString,if_pos hmem] at h
  cases h

theorem cString_malloc_eq_nil (h : 0 < size) :
    cString (malloc bytes size) = some [] ↔ bytes 0 = NUL := by
  obtain ⟨size,rfl⟩ := Nat.exists_eq_add_one.mpr h
  rw [malloc,List.range_succ_eq_map,List.map_cons,cString]
  constructor
  · intro h
    split at h
    · by_contra hne
      rw [List.takeWhile_cons,bne_iff_ne.mpr hne] at h
      cases Option.some.inj h
    · cases h
  · intro h
    rw [h,if_pos List.mem_cons_self]
    rfl

end Blocks

section Buffer
variable {M : Memory} {s s' : Scanner} {n : ℕ} {text d : List Char}

/-- What the buffer's functions leave alone. -/
def Scanner.outside (s : Scanner) : List Char × Start × ℕ × List Token :=
  (s.input,s.start,s.begun,s.tokens)

/-- The buffer after `n` characters were added. -/
structure Sized (s : Scanner) (n : ℕ) : Prop where
  count : s.strBufCount = n
  len : s.strBufLen = 1024*(n/1024+1)
  size : s.stringBuffer.length = s.strBufLen
  fits : n+1024 < 2^31

/-- The buffer holds the text `d`. -/
structure Holds (s : Scanner) (d : List Char) : Prop extends Sized s d.length where
  text : cString s.stringBuffer = some d

/-- Any text in the buffer is longer than what was added. -/
structure Spoiled (s : Scanner) (n : ℕ) : Prop extends Sized s n where
  text : ∀ t, cString s.stringBuffer = some t → n < t.length

/-- The block of a text that is longer by at most one character, after it was made to grow if that is
needed. -/
def grownBlock (M : Memory) (s : Scanner) (text : List Char) : List Char :=
  if s.strBufCount+text.length+1 > s.strBufLen then
    realloc s.stringBuffer (M.grown s.grown) (s.strBufLen+1024)
  else s.stringBuffer

theorem Sized.length_grownBlock (h : Sized s n) (ht : text.length ≤ 1) :
    (grownBlock M s text).length = 1024*((n+text.length)/1024+1) := by
  have hcount := h.count
  have hlen := h.len
  have hsize := h.size
  rw [grownBlock]
  split
  · rw [length_realloc (by omega)]
    omega
  · omega

theorem cString_grownBlock (h : cString s.stringBuffer = some d)
    (hsize : s.stringBuffer.length = s.strBufLen) :
    cString (grownBlock M s text) = some d := by
  rw [grownBlock]
  split
  · exact cString_realloc (by omega) h
  · exact h

/-- Growing does not shorten what is read in a buffer without a terminator below `n`. -/
theorem Spoiled.grownBlock (h : Spoiled s n) (ht : text.length ≤ 1) {t : List Char}
    (hc : cString (grownBlock M s text) = some t) : n < t.length := by
  have hcount := h.count
  have hlen := h.len
  have hsize := h.size
  rw [Lexer.grownBlock] at hc
  split at hc
  · cases hold : cString s.stringBuffer with
    | none =>
      rw [realloc,List.take_of_length_le (by omega)] at hc
      have := length_le_of_cString_eq_none hold hc
      omega
    | some u =>
      rw [cString_realloc (by omega) hold] at hc
      obtain rfl := Option.some.inj hc
      exact h.text u hold
  · exact h.text t hc

/-- `addToBuffer` appends in the block that has grown, as long as its size is an `int`. -/
theorem Sized.addToBuffer_eq (h : Sized s n) (ht : text.length ≤ 1)
    (hfits : n+text.length+1024 < 2^31) : ∃ f : List Char → Scanner,
    addToBuffer M text s = (strcat (grownBlock M s text) text).map f ∧
      ∀ b, b.length = (grownBlock M s text).length →
        (f b).outside = s.outside ∧ (f b).stringBuffer = b ∧ Sized (f b) (n+text.length) := by
  have hcount := h.count
  have hlen := h.len
  rw [h.length_grownBlock ht,addToBuffer,increaseBuffer,grownBlock]
  by_cases hroom : s.strBufCount+text.length+1 > s.strBufLen
  · rw [if_pos hroom,if_pos hroom,if_pos (by omega)]
    refine ⟨fun b => { s with
      strBufLen := s.strBufLen+1024
      stringBuffer := b
      grown := s.grown+1
      strBufCount := s.strBufCount+text.length },?_,fun b hb => ⟨rfl,rfl,?_,?_,?_,hfits⟩⟩
    · change (strcat _ _).bind _ = _
      cases strcat (realloc s.stringBuffer (M.grown s.grown) (s.strBufLen+1024)) text <;> rfl
    · change s.strBufCount+text.length = _
      rw [hcount]
    · change s.strBufLen+1024 = _
      omega
    · change b.length = s.strBufLen+1024
      omega
  · rw [if_neg hroom,if_neg hroom]
    refine ⟨fun b => { s with stringBuffer := b, strBufCount := s.strBufCount+text.length },?_,
      fun b hb => ⟨rfl,rfl,?_,?_,?_,hfits⟩⟩
    · change (strcat _ _).bind _ = _
      cases strcat s.stringBuffer text <;> rfl
    · change s.strBufCount+text.length = _
      rw [hcount]
    · change s.strBufLen = _
      omega
    · change b.length = s.strBufLen
      omega

/-- It stops where the block would outgrow an `int`. -/
theorem Sized.addToBuffer_full (h : Sized s n) (ht : text.length ≤ 1)
    (hfull : 2^31 ≤ n+text.length+1024) : addToBuffer M text s = .error .undefined := by
  have hcount := h.count
  have hlen := h.len
  have hfits := h.fits
  rw [addToBuffer,increaseBuffer,if_pos (by omega),if_neg (by omega)]
  rfl

theorem Holds.addToBuffer (h : Holds s d) (ht : text.length ≤ 1) (htext : NUL ∉ text)
    (hfits : d.length+text.length+1024 < 2^31) :
    ∃ s', addToBuffer M text s = .ok s' ∧ s'.outside = s.outside ∧ Holds s' (d++text) := by
  have hgrown := h.toSized.length_grownBlock (M := M) ht
  have hd : cString (grownBlock M s text) = some d := cString_grownBlock h.text h.size
  obtain ⟨b,hb,hlen,hc⟩ := strcat_ok hd (by omega) htext
  obtain ⟨f,hf,hspec⟩ := h.toSized.addToBuffer_eq (M := M) ht hfits
  obtain ⟨hout,hbuf,hsized⟩ := hspec b hlen
  rw [← List.length_append] at hsized
  refine ⟨f b,?_,hout,hsized,?_⟩
  · rw [hf,hb]
    rfl
  · rw [hbuf]
    exact hc

theorem Spoiled.addToBuffer (h : Spoiled s n) (ht : text.length ≤ 1) (htext : NUL ∉ text)
    (hs : Lexer.addToBuffer M text s = .ok s') :
    s'.outside = s.outside ∧ Spoiled s' (n+text.length) := by
  by_cases hfits : n+text.length+1024 < 2^31
  · obtain ⟨f,hf,hspec⟩ := h.toSized.addToBuffer_eq (M := M) ht hfits
    rw [hf] at hs
    cases hb : strcat (Lexer.grownBlock M s text) text with
    | error e =>
      rw [hb] at hs
      cases hs
    | ok b =>
      rw [hb] at hs
      obtain rfl := Except.ok.inj hs
      obtain ⟨t,hc,hlen,hc'⟩ := strcat_inv htext hb
      obtain ⟨hout,hbuf,hsized⟩ := hspec b hlen
      refine ⟨hout,hsized,fun t' ht' => ?_⟩
      rw [hbuf,hc'] at ht'
      obtain rfl := Option.some.inj ht'
      rw [List.length_append]
      exact Nat.add_lt_add_right (h.grownBlock ht hc) _
  · rw [h.toSized.addToBuffer_full ht (by omega)] at hs
    cases hs

theorem sized_beginBuffer : Sized (beginBuffer M s) 0 where
  count := rfl
  len := rfl
  size := length_malloc
  fits := by omega

/-- A fresh buffer holds the empty text if its block begins with a terminator. -/
theorem holds_beginBuffer (h : M.begun s.begun 0 = NUL) : Holds (beginBuffer M s) [] :=
  ⟨sized_beginBuffer,(cString_malloc_eq_nil (by omega)).mpr h⟩

theorem spoiled_beginBuffer (h : M.begun s.begun 0 ≠ NUL) : Spoiled (beginBuffer M s) 0 := by
  refine ⟨sized_beginBuffer,fun t ht => ?_⟩
  cases t with
  | nil => exact absurd ((cString_malloc_eq_nil (by omega)).mp ht) h
  | cons c t => exact Nat.succ_pos _

end Buffer

end PucRio.Monga.Lexer
