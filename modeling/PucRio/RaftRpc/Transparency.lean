import PucRio.RaftRpc.Luarpc

/-! Which outcomes of the implementation a stub shows as they are. What can be read from a line
never is a boolean, nor has it a line break; so where the values that come back are those that were
returned, each of them has had a line of its own. -/
namespace PucRio.RaftRpc
open Lua Text
variable {N : Type}

/-- The same value on the other side; a table is another table there, with the same pairs. -/
def Same : Value N → Value N → Prop
  | .table t,.table u => t.Perm u
  | v,w => v = w

section Carried
variable (R : Runtime N) (fields : List Str)

/-- The text form keeps a value that stands in a table. -/
def CarriedPart : Value N → Prop
  | .number x => R.tonumber (R.tostring x) = some x
  | .string s => ∀ c ∈ s, isBreak c = false ∧ isSeparator c = false
  | _ => False

/-- The text form keeps the value. -/
def Carried : Value N → Prop
  | .number x => R.tonumber (R.tostring x) = some x
  | .string s => ∀ c ∈ s, isBreak c = false
  | .table t => t ≠ [] ∧ (t.map Prod.fst).Nodup ∧ ∀ entry ∈ t, Field fields (CarriedPart R) entry
  | _ => False

end Carried

theorem Same.refl (v : Value N) : Same v v := by
  cases v with
  | table t => exact List.Perm.refl t
  | _ => rfl

variable {R : Runtime N} {fields : List Str}

theorem Same.readable {v w : Value N} (h : Same v w) (hw : Readable fields w) :
    Readable fields v := by
  cases v with
  | table t =>
    cases w with
    | table u =>
      obtain ⟨hnodup,hfields⟩ := hw
      have hperm : t.Perm u := h
      exact ⟨(hperm.map Prod.fst).nodup_iff.mpr hnodup,fun entry he => hfields entry (hperm.mem_iff.mp he)⟩
    | _ => cases h
  | _ =>
    obtain rfl : _ = w := h
    exact hw

theorem Carried.ne_nil {v : Value N} (h : Carried R fields v) : v ≠ .nil := by
  rintro rfl
  exact h

theorem Readable.ne_nil {v : Value N} (h : Readable fields v) : v ≠ .nil := by
  rintro rfl
  exact h

theorem readable_of_forall₂ {values returned : List (Value N)}
    (h : List.Forall₂ Same values returned) (hreturned : ∀ r ∈ returned, Readable fields r) :
    ∀ v ∈ values, Readable fields v := by
  induction h with
  | nil => exact hreturned
  | cons hsame _ ih =>
    obtain ⟨hr,hrest⟩ := List.forall_mem_cons.mp hreturned
    exact List.forall_mem_cons.mpr ⟨hsame.readable hr,ih hrest⟩

section Lines

theorem isBreak_quoted {v : Value N} (hv : Part v) : ∀ c ∈ quoted R v, isBreak c = false := by
  intro c hc
  cases v with
  | number x => exact (R.tostring_clean x c hc).1
  | string s =>
    have hs : c = '\'' ∨ c ∈ s := by simpa [quoted,or_comm] using hc
    cases hs with
    | inl hs => rw [hs]; rfl
    | inr hs => exact (hv c hs).1
  | table t =>
    cases List.mem_append.mp hc with
    | inl hc =>
      have hall : ∀ c ∈ ['t','a','b','l','e',':',' '], isBreak c = false := by simp [isBreak]
      exact hall c hc
    | inr hc => exact (R.address_clean t c hc).1
  | _ => cases hv

theorem isBreak_fieldText {entry : Key N × Value N} (h : Field fields Part entry) {text : Str}
    (ht : fieldText R entry = some text) : ∀ c ∈ text, isBreak c = false := by
  obtain ⟨s,hkey,-,hs,hpart⟩ := h
  rw [fieldText,hkey] at ht
  obtain rfl : s++ '='::quoted R entry.2 = text := Option.some.inj ht
  intro c hc
  cases List.mem_append.mp hc with
  | inl hc => exact (hs c hc).1
  | inr hc =>
    cases hc with
    | head => rfl
    | tail _ hc => exact isBreak_quoted hpart c hc

theorem isBreak_tableText {entry : Key N × Value N} {rest : Table N}
    (h : ∀ e ∈ entry::rest, Field fields Part e) {text : Str}
    (ht : tableText R entry rest = some text) : ∀ c ∈ text, isBreak c = false := by
  induction rest generalizing entry text with
  | nil => exact isBreak_fieldText (h entry List.mem_cons_self) ht
  | cons next rest ih =>
    obtain ⟨t,ht₁,ht⟩ := Option.bind_eq_some_iff.mp ht
    obtain ⟨u,hu,ht⟩ := Option.bind_eq_some_iff.mp ht
    obtain rfl := Option.some.inj ht
    obtain ⟨hentry,hrest⟩ := List.forall_mem_cons.mp h
    intro c hc
    cases List.mem_append.mp hc with
    | inl hc => exact isBreak_fieldText hentry ht₁ c hc
    | inr hc =>
      cases hc with
      | head => rfl
      | tail _ hc =>
        cases hc with
        | head => rfl
        | tail _ hc => exact ih hrest hu c hc

/-- A readable value has one line, which does not end the message. -/
theorem line_of_readable {v : Value N} (hv : Readable fields v) {line : Str}
    (h : lineText R v = some line) : (∀ c ∈ line, isBreak c = false) ∧ line ≠ fim := by
  cases v with
  | number x =>
    obtain rfl : R.tostring x = line := Option.some.inj h
    exact ⟨fun c hc => (R.tostring_clean x c hc).1,R.tostring_ne_fim x⟩
  | string s =>
    obtain rfl : '\''::s++['\''] = line := Option.some.inj h
    refine ⟨fun c hc => ?_,fun hfim => by cases hfim⟩
    have hs : c = '\'' ∨ c ∈ s := by simpa [or_comm] using hc
    cases hs with
    | inl hs => rw [hs]; rfl
    | inr hs => exact hv c hs
  | table t =>
    cases t with
    | nil => cases h
    | cons entry rest =>
      obtain ⟨text,htext,rfl⟩ := Option.map_eq_some_iff.mp h
      refine ⟨fun c hc => ?_,fun hfim => by cases hfim⟩
      have hc' : c = '{' ∨ c ∈ text ∨ c = '}' := by simpa using hc
      cases hc' with
      | inl hc => rw [hc]; rfl
      | inr hc =>
        cases hc with
        | inl hc => exact isBreak_tableText hv.2 htext c hc
        | inr hc => rw [hc]; rfl
  | _ => cases hv

end Lines

section Table

theorem words_tableText {entry : Key N × Value N} {rest : Table N} {text : Str}
    (h : tableText R entry rest = some text) :
    words isSeparator text =
      (entry::rest).flatMap fun e => words isSeparator ((fieldText R e).getD []) := by
  induction rest generalizing entry text with
  | nil =>
    rw [tableText] at h
    rw [List.flatMap_cons,h,List.flatMap_nil,List.append_nil]
    rfl
  | cons next rest ih =>
    obtain ⟨t,ht,h⟩ := Option.bind_eq_some_iff.mp h
    obtain ⟨u,hu,h⟩ := Option.bind_eq_some_iff.mp h
    obtain rfl := Option.some.inj h
    rw [List.flatMap_cons,← ih hu,ht,words_append_cons rfl,words_cons rfl]
    rfl

theorem exists_tableText {P : Value N → Prop} {entry : Key N × Value N} {rest : Table N}
    (h : ∀ e ∈ entry::rest, Field fields P e) : ∃ text, tableText R entry rest = some text := by
  induction rest generalizing entry with
  | nil =>
    obtain ⟨s,hkey,-⟩ := h entry List.mem_cons_self
    exact ⟨_,by rw [tableText,fieldText,hkey]; rfl⟩
  | cons next rest ih =>
    obtain ⟨hentry,hrest⟩ := List.forall_mem_cons.mp h
    obtain ⟨s,hkey,-⟩ := hentry
    obtain ⟨u,hu⟩ := ih hrest
    exact ⟨_,by rw [tableText,fieldText,hkey,hu]; rfl⟩

/-- The text of a table that stands in a table has a blank, and no `=` after it. -/
theorem exists_word_of_table {key : Str} {t : Table N} {text : Str}
    (h : fieldText R (.string key,.table t) = some text) :
    ∃ w ∈ words isSeparator text, '=' ∉ w := by
  obtain rfl : key++ '='::quoted R (.table t) = text := Option.some.inj h
  have hsplit : key++ '='::quoted R (.table t) =
      (key++['=','t','a','b','l','e',':'])++ ' '::R.address t := by
    show key++ '='::(['t','a','b','l','e',':',' ']++R.address t) = _
    simp
  refine ⟨R.address t,?_,fun hmem => (R.address_clean t _ hmem).2.2 rfl⟩
  rw [hsplit,words_append_cons rfl]
  refine List.mem_append_right _ ?_
  rw [words_eq_singleton (R.address_ne_nil t) fun c hc => (R.address_clean t c hc).2.1]
  exact List.mem_singleton_self _

/-- A value that stands in a table and is not one itself. -/
def Scalar (v : Value N) : Prop := Part v ∧ ∀ t, v ≠ .table t

theorem Scalar.ne_nil {v : Value N} (h : Scalar v) : v ≠ .nil := by
  rintro rfl
  exact h.1

theorem Scalar.isSeparator_quoted {v : Value N} (h : Scalar v) :
    ∀ c ∈ quoted R v, isSeparator c = false := by
  intro c hc
  cases v with
  | number x => exact (R.tostring_clean x c hc).2
  | string s =>
    have hs : c = '\'' ∨ c ∈ s := by simpa [quoted,or_comm] using hc
    cases hs with
    | inl hs => rw [hs]; rfl
    | inr hs => exact (h.1 c hs).2
  | table t => exact absurd rfl (h.2 t)
  | _ => exact absurd h.1 id

/-- What becomes of a value in a table. -/
def reread (R : Runtime N) : Value N → Value N
  | .number x => (R.tonumber (R.tostring x)).elim .nil .number
  | v => v

theorem words_of_scalar {entries : Table N} (h : ∀ e ∈ entries, Field fields Scalar e) :
    (entries.flatMap fun e => words isSeparator ((fieldText R e).getD [])) =
      entries.map fun e => (fieldText R e).getD [] := by
  induction entries with
  | nil => rfl
  | cons entry entries ih =>
    obtain ⟨hentry,hrest⟩ := List.forall_mem_cons.mp h
    obtain ⟨s,hkey,-,hs,hscalar⟩ := hentry
    have htext : fieldText R entry = some (s++ '='::quoted R entry.2) := by
      rw [fieldText,hkey]
      rfl
    rw [List.flatMap_cons,ih hrest,htext,Option.getD_some,
      words_eq_singleton (List.append_ne_nil_of_right_ne_nil s (List.cons_ne_nil _ _)),
      List.map_cons,htext]
    · rfl
    · intro c hc
      cases List.mem_append.mp hc with
      | inl hc => exact (hs c hc).2.1
      | inr hc =>
        cases hc with
        | head => rfl
        | tail _ hc => exact hscalar.isSeparator_quoted c hc

theorem reread_number {x : N} :
    reread R (.number x) = .number x ↔ R.tonumber (R.tostring x) = some x := by
  show (R.tonumber (R.tostring x)).elim Value.nil Value.number = Value.number x ↔ _
  cases R.tonumber (R.tostring x) with
  | none =>
    constructor
    all_goals
      intro h
      cases h
  | some y => exact ⟨fun h => congrArg some (Value.number.inj h),fun h => congrArg _ (Option.some.inj h)⟩

/-- The parts that are carried are those that are read as they were. -/
theorem carriedPart_iff {v : Value N} : CarriedPart R v ↔ Scalar v ∧ reread R v = v := by
  constructor
  · intro h
    cases v with
    | number x => exact ⟨⟨trivial,fun t ht => by cases ht⟩,reread_number.mpr h⟩
    | string s => exact ⟨⟨h,fun t ht => by cases ht⟩,rfl⟩
    | _ => cases h
  · rintro ⟨hscalar,hreread⟩
    cases v with
    | number x => exact reread_number.mp hreread
    | string s => exact hscalar.1
    | table t => exact absurd rfl (hscalar.2 t)
    | _ => exact absurd hscalar.1 id

variable [DecidableEq N]

theorem convertParam_number (fuel : ℕ) (x : N) :
    convertParam R fields (fuel+1) (R.tostring x) = some (reread R (.number x)) := by
  unfold convertParam
  split
  · rename_i h
    exact absurd h (R.tostring_unquoted x _).1
  · rename_i h
    exact absurd h (R.tostring_unquoted x _).2
  · rfl

theorem convertParam_string (fuel : ℕ) (s : Str) :
    convertParam R fields (fuel+1) (quoted R (.string s)) = some (.string s) := by
  show some (Value.string (s++['\'']).dropLast) = _
  rw [List.dropLast_concat]

theorem Scalar.convertParam {v : Value N} (h : Scalar v) (fuel : ℕ) :
    convertParam R fields (fuel+1) (quoted R v) = some (reread R v) := by
  cases v with
  | number x => exact convertParam_number fuel x
  | string s => exact convertParam_string fuel s
  | table t => exact absurd rfl (h.2 t)
  | _ => exact absurd h.1 id

theorem setExpression_field {convert : Str → Option (Value N)} {tab : Table N}
    {entry : Key N × Value N} {text : Str} {v : Value N} (h : Field fields Scalar entry)
    (htext : fieldText R entry = some text) (hv : convert (quoted R entry.2) = some v)
    (hfresh : entry.1 ∉ tab.map Prod.fst) :
    setExpression fields convert tab text =
      some (tab++[(entry.1,v)].filter fun e => !e.2.isNil) := by
  obtain ⟨s,hkey,hmem,hs,-⟩ := h
  rw [fieldText,hkey] at htext
  obtain rfl : s++ '='::quoted R entry.2 = text := Option.some.inj htext
  have htake : (s++ '='::quoted R entry.2).takeWhile (· ≠ '=') = s := by
    rw [List.takeWhile_append_of_pos fun c hc => decide_eq_true (hs c hc).2.2]
    simp
  have hdrop : ((s++ '='::quoted R entry.2).dropWhile (· ≠ '=')).tail = quoted R entry.2 := by
    rw [List.dropWhile_append_of_pos fun c hc => decide_eq_true (hs c hc).2.2]
    simp
  rw [setExpression,if_pos (List.mem_append_right _ List.mem_cons_self),hdrop,hv]
  simp only [Option.bind_eq_bind,Option.bind_some]
  rw [htake,if_pos hmem,← hkey]
  refine congrArg some ?_
  cases hnil : v.isNil with
  | true =>
    rw [Value.isNil_iff.mp hnil,rawset_nil hfresh]
    exact (List.append_nil tab).symm
  | false =>
    rw [rawset_fresh hfresh fun h => by rw [h] at hnil; cases hnil]
    simp [hnil]

theorem foldlM_setExpression {convert : Str → Option (Value N)} {entries tab : Table N}
    (h : ∀ e ∈ entries, Field fields Scalar e)
    (hconvert : ∀ v, Scalar v → convert (quoted R v) = some (reread R v))
    (hnodup : ((tab++entries).map Prod.fst).Nodup) :
    (entries.map fun e => (fieldText R e).getD []).foldlM (setExpression fields convert) tab =
      some (tab++(entries.map fun e => (e.1,reread R e.2)).filter fun e => !e.2.isNil) := by
  induction entries generalizing tab with
  | nil => exact congrArg some (List.append_nil tab).symm
  | cons entry entries ih =>
    obtain ⟨hentry,hrest⟩ := List.forall_mem_cons.mp h
    have hdeclared := hentry
    obtain ⟨s,hkey,-,-,hscalar⟩ := hdeclared
    have hfresh : entry.1 ∉ tab.map Prod.fst := by
      rw [List.map_append] at hnodup
      exact fun hmem => (List.nodup_append.mp hnodup).2.2 _ hmem _ List.mem_cons_self rfl
    have htext : fieldText R entry = some (s++ '='::quoted R entry.2) := by
      rw [fieldText,hkey]
      rfl
    rw [List.map_cons,List.foldlM_cons,htext,Option.getD_some,
      setExpression_field hentry htext (hconvert _ hscalar) hfresh]
    simp only [Option.bind_eq_bind,Option.bind_some]
    rw [ih hrest]
    · rw [List.map_cons,List.append_assoc,← List.filter_append]
      rfl
    · refine hnodup.sublist ?_
      simp only [List.map_append,List.append_assoc]
      have hsub : List.Sublist
          (([(entry.1,reread R entry.2)].filter fun e => !e.2.isNil).map Prod.fst) [entry.1] :=
        List.filter_sublist.map Prod.fst
      exact List.Sublist.append_left (hsub.append_right (entries.map Prod.fst)) (tab.map Prod.fst)

theorem tostruct_tableText {entry : Key N × Value N} {rest : Table N} {text : Str}
    (h : ∀ e ∈ entry::rest, Field fields Scalar e)
    (hnodup : ((entry::rest).map Prod.fst).Nodup) (htext : tableText R entry rest = some text)
    (fuel : ℕ) :
    tostruct fields (convertParam R fields (fuel+1)) text =
      some (((entry::rest).map fun e => (e.1,reread R e.2)).filter fun e => !e.2.isNil) := by
  rw [tostruct,words_tableText htext,words_of_scalar h]
  exact foldlM_setExpression h (fun v hv => hv.convertParam fuel) hnodup

theorem convert_param_table (text : Str) :
    convert_param R fields ('{'::text++['}']) =
      (tostruct fields (convertParam R fields (text.length+1+1)) text).map .table := by
  have hlen : ('{'::text++['}']).length = text.length+1+1 := by simp
  rw [convert_param,hlen]
  show (tostruct fields _ (text++['}']).dropLast).map _ = _
  rw [List.dropLast_concat]

/-- A value that is read from its own line is carried. -/
theorem carried_of_line {v r : Value N} (hv : Readable fields v) (hs : Same v r) {line : Str}
    (hline : lineText R v = some line) (hr : convert_param R fields line = some r) :
    Carried R fields v := by
  cases v with
  | number x =>
    obtain rfl : R.tostring x = line := Option.some.inj hline
    obtain rfl : Value.number x = r := hs
    rw [convert_param,convertParam_number] at hr
    exact reread_number.mp (Option.some.inj hr)
  | string s => exact hv
  | table t =>
    cases t with
    | nil => cases hline
    | cons entry rest =>
      obtain ⟨text,htext,rfl⟩ := Option.map_eq_some_iff.mp hline
      rw [convert_param_table] at hr
      obtain ⟨u,hu,rfl⟩ := Option.map_eq_some_iff.mp hr
      have hperm : (entry::rest).Perm u := hs
      obtain ⟨hnodup,hfields⟩ := hv
      have hscalar : ∀ e ∈ entry::rest, Field fields Scalar e := by
        intro e he
        obtain ⟨s,hkey,hmem,hs,hpart⟩ := hfields e he
        refine ⟨s,hkey,hmem,hs,hpart,fun t ht => ?_⟩
        have heq : e = (.string s,.table t) := Prod.ext hkey ht
        subst heq
        have hfield : fieldText R (.string s,.table t) = some (s++ '='::quoted R (.table t)) := rfl
        obtain ⟨w,hw,hne⟩ := exists_word_of_table hfield
        refine hne ((of_tostruct hu).2.1 w ?_)
        rw [words_tableText htext]
        refine List.mem_flatMap.mpr ⟨_,he,?_⟩
        rw [hfield]
        exact hw
      rw [tostruct_tableText hscalar hnodup htext] at hu
      obtain rfl := Option.some.inj hu
      refine ⟨List.cons_ne_nil _ _,hnodup,fun e he => ?_⟩
      obtain ⟨s,hkey,hmem,hs,hpart⟩ := hscalar e he
      refine ⟨s,hkey,hmem,hs,carriedPart_iff.mpr ⟨hpart,?_⟩⟩
      obtain ⟨e',he',heq⟩ := List.mem_map.mp (List.mem_of_mem_filter (hperm.mem_iff.mp he))
      -- the keys are distinct, so the value was read from its own text
      obtain ⟨hkeys,hvalues⟩ := Prod.ext_iff.mp heq
      rw [List.inj_on_of_nodup_map hnodup he' he hkeys] at hvalues
      exact hvalues
  | _ => cases hv

theorem line_of_carried {v : Value N} (h : Carried R fields v) :
    Readable fields v ∧ ∃ line, lineText R v = some line ∧ convert_param R fields line = some v := by
  cases v with
  | number x =>
    refine ⟨trivial,_,rfl,?_⟩
    show convert_param R fields (R.tostring x) = _
    rw [convert_param,convertParam_number,reread_number.mpr h]
  | string s => exact ⟨h,_,rfl,convertParam_string _ s⟩
  | table t =>
    obtain ⟨hne,hnodup,hfields⟩ := h
    have hpart : ∀ e ∈ t, Field fields Scalar e ∧ reread R e.2 = e.2 := by
      intro e he
      obtain ⟨s,hkey,hmem,hs,hcarried⟩ := hfields e he
      obtain ⟨hscalar,hreread⟩ := carriedPart_iff.mp hcarried
      exact ⟨⟨s,hkey,hmem,hs,hscalar⟩,hreread⟩
    refine ⟨⟨hnodup,fun e he => ?_⟩,?_⟩
    · obtain ⟨s,hkey,hmem,hs,hscalar⟩ := (hpart e he).1
      exact ⟨s,hkey,hmem,hs,hscalar.1⟩
    · obtain ⟨entry,rest,rfl⟩ := List.exists_cons_of_ne_nil hne
      obtain ⟨text,htext⟩ := exists_tableText fun e he => (hpart e he).1
      refine ⟨_,congrArg (Option.map _) htext,?_⟩
      rw [convert_param_table,tostruct_tableText (fun e he => (hpart e he).1) hnodup htext]
      have hreread : ((entry::rest).map fun e => (e.1,reread R e.2)) = entry::rest := by
        refine (List.map_congr_left fun e he => ?_).trans (List.map_id _)
        exact Prod.ext rfl (hpart e he).2
      rw [hreread]
      refine congrArg (fun t => some (Value.table t)) (List.filter_eq_self.mpr fun e he => ?_)
      obtain ⟨s,-,-,-,hscalar⟩ := (hpart e he).1
      rw [Bool.not_eq_true',Bool.eq_false_iff]
      exact fun hnil => hscalar.ne_nil (Value.isNil_iff.mp hnil)
  | _ => cases h

end Table

section Run

theorem marshalParam_append (msg : Str) (v : Value N) :
    marshalParam R msg v = (marshalParam R [] v).map (msg++·) := by
  have hline (hv : v ≠ .table []) :
      marshalParam R msg v = (marshalParam R [] v).map (msg++·) := by
    rw [marshalParam_line R hv msg,marshalParam_line R hv [],Option.map_map]
    refine congrArg (Option.map · _) (funext fun line => ?_)
    simp
  cases v with
  | table t =>
    cases t with
    | nil => rw [marshalParam_empty,marshalParam_empty]; rfl
    | cons entry rest => exact hline fun h => by cases h
  | _ => exact hline fun h => by cases h

theorem foldlM_marshalParam (msg : Str) (values : List (Value N)) :
    values.foldlM (marshalParam R) msg = (values.foldlM (marshalParam R) []).map (msg++·) := by
  induction values generalizing msg with
  | nil => exact congrArg some (List.append_nil msg).symm
  | cons v values ih =>
    rw [List.foldlM_cons,List.foldlM_cons,marshalParam_append]
    cases marshalParam R [] v with
    | none => rfl
    | some text =>
      simp only [Option.map_some,Option.bind_eq_bind,Option.bind_some]
      rw [ih,ih text,Option.map_map]
      refine congrArg (Option.map · _) (funext fun rest => ?_)
      rw [Function.comp_apply,List.append_assoc]

variable [DecidableEq N]

/-- What the other side makes of the values' texts. -/
def carry (R : Runtime N) (fields : List Str) (msg : Str) : Option (List (Value N)) :=
  unmarshalling R fields (returns (received (msg++fim++['\n'])))

theorem carry_nil : carry R fields [] = some [] := by
  have hlines : received ([]++fim++['\n']) = [fim] := received_line (by simp [fim,isBreak])
  rw [carry,hlines,returns,if_pos rfl]
  rfl

theorem carry_line {line msg : Str} (hline : ∀ c ∈ line, isBreak c = false) (hfim : line ≠ fim) :
    carry R fields (line++ '\n'::msg) =
      (convert_param R fields line).bind fun value =>
        (carry R fields msg).map fun values => if value.isNil then values else value::values := by
  have hmsg : line++ '\n'::msg++fim++['\n'] = line++ '\n'::(msg++fim++['\n']) := by simp
  rw [carry,hmsg,received_line hline,returns_cons hfim,unmarshalling_cons]
  rfl

theorem readable_of_carry {msg : Str} {values : List (Value N)}
    (h : carry R fields msg = some values) : ∀ v ∈ values, Readable fields v := by
  have run (acks : List Str) {values : List (Value N)} (h : unmarshalling R fields acks = some values)
      (hacks : ∀ ack ∈ acks, ∀ c ∈ ack, isBreak c = false) : ∀ v ∈ values, Readable fields v := by
    induction acks generalizing values with
    | nil =>
      obtain rfl : [] = values := Option.some.inj h
      exact fun v hv => absurd hv List.not_mem_nil
    | cons ack acks ih =>
      rw [unmarshalling_cons] at h
      obtain ⟨value,hvalue,h⟩ := Option.bind_eq_some_iff.mp h
      obtain ⟨rest,hrest,rfl⟩ := Option.map_eq_some_iff.mp h
      obtain ⟨hack,hacks⟩ := List.forall_mem_cons.mp hacks
      split_ifs with hnil
      · exact ih hrest hacks
      · refine List.forall_mem_cons.mpr ⟨?_,ih hrest hacks⟩
        exact (readable_of_convertParam hvalue hack).resolve_left
          fun h => hnil (Value.isNil_iff.mpr h)
  exact run _ h fun ack hack => isBreak_of_mem_received (mem_of_mem_returns hack)

/-- Empty tables before `-fim-` leave a line that is no text of a table. -/
theorem carry_braces (k : ℕ) : carry R fields (List.replicate (k+1) '{') = none := by
  have hline : ∀ c ∈ List.replicate (k+1) '{'++fim,
      isBreak c = false ∧ isSeparator c = false ∧ c ≠ '=' := by
    intro c hc
    have hfim : ∀ c ∈ fim, isBreak c = false ∧ isSeparator c = false ∧ c ≠ '=' := by
      simp [fim,isBreak,isSeparator]
    cases List.mem_append.mp hc with
    | inl hc => rw [List.eq_of_mem_replicate hc]; decide
    | inr hc => exact hfim c hc
  have hlines : received (List.replicate (k+1) '{'++fim++['\n']) =
      [List.replicate (k+1) '{'++fim] := received_line fun c hc => (hline c hc).1
  rw [carry,hlines,returns_cons (fun h => by cases h),unmarshalling_cons]
  have hconvert : convert_param R fields (List.replicate (k+1) '{'++fim) = none := by
    rw [convert_param]
    show (tostruct fields _ (List.replicate k '{'++fim).dropLast).map _ = none
    have hne : (List.replicate k '{'++fim).dropLast ≠ [] := by
      rw [List.dropLast_append_of_ne_nil (by decide)]
      exact List.append_ne_nil_of_right_ne_nil _ (by decide)
    have hmem : ∀ c ∈ (List.replicate k '{'++fim).dropLast, isSeparator c = false ∧ c ≠ '=' := by
      intro c hc
      exact (hline c (List.mem_cons_of_mem _ ((List.dropLast_sublist _).mem hc))).2
    rw [Option.map_eq_none_iff]
    by_contra hsome
    obtain ⟨t,ht⟩ := Option.ne_none_iff_exists'.mp hsome
    have hwords := words_eq_singleton hne fun c hc => (hmem c hc).1
    have heq := (of_tostruct ht).2.1 _ (hwords ▸ List.mem_singleton_self _)
    exact (hmem _ heq).2 rfl
  rw [hconvert]
  rfl

/-- The value comes back from its own line. -/
def Reads (R : Runtime N) (fields : List Str) (v r : Value N) : Prop :=
  ∃ line, lineText R v = some line ∧ convert_param R fields line = some r

/-- Not more values come back than were sent. Where as many do, each comes back from its own line.
The braces are those of empty tables, and what follows them is read as one text with them. -/
theorem reads_of_carry {values : List (Value N)} (hvalues : ∀ v ∈ values, Readable fields v) {k : ℕ}
    {msg : Str} {returned : List (Value N)}
    (hmsg : values.foldlM (marshalParam R) (List.replicate k '{') = some msg)
    (h : carry R fields msg = some returned) :
    returned.length ≤ values.length ∧
      (returned.length = values.length → k = 0 → List.Forall₂ (Reads R fields) values returned) := by
  induction values generalizing k msg returned with
  | nil =>
    obtain rfl : List.replicate k '{' = msg := Option.some.inj hmsg
    cases k with
    | zero =>
      have hreturned : some [] = some returned := carry_nil.symm.trans h
      obtain rfl := Option.some.inj hreturned
      exact ⟨Nat.le_refl 0,fun _ _ => List.Forall₂.nil⟩
    | succ k =>
      rw [carry_braces] at h
      cases h
  | cons v values ih =>
    obtain ⟨hv,hrest⟩ := List.forall_mem_cons.mp hvalues
    rw [List.foldlM_cons] at hmsg
    obtain ⟨first,hfirst,hmsg⟩ := Option.bind_eq_some_iff.mp hmsg
    have hline (hne : v ≠ .table []) : returned.length ≤ (v::values).length ∧
        (returned.length = (v::values).length → k = 0 →
          List.Forall₂ (Reads R fields) (v::values) returned) := by
      rw [marshalParam_line R hne] at hfirst
      obtain ⟨line,hline,rfl⟩ := Option.map_eq_some_iff.mp hfirst
      rw [foldlM_marshalParam] at hmsg
      obtain ⟨rest,hbody,rfl⟩ := Option.map_eq_some_iff.mp hmsg
      obtain ⟨hclean,hfim⟩ := line_of_readable hv hline
      have hbraces : ∀ c ∈ List.replicate k '{'++line, isBreak c = false := by
        intro c hc
        cases List.mem_append.mp hc with
        | inl hc => rw [List.eq_of_mem_replicate hc]; decide
        | inr hc => exact hclean c hc
      have hends : List.replicate k '{'++line ≠ fim := by
        cases k with
        | zero => exact hfim
        | succ k => exact fun h => by cases h
      rw [List.append_assoc,List.singleton_append,carry_line hbraces hends] at h
      obtain ⟨r,hr,h⟩ := Option.bind_eq_some_iff.mp h
      obtain ⟨others,hothers,rfl⟩ := Option.map_eq_some_iff.mp h
      obtain ⟨hle,hall⟩ := ih hrest (k := 0) hbody hothers
      split_ifs with hnil
      · refine ⟨Nat.le_succ_of_le hle,fun heq => absurd hle (Nat.not_le_of_lt ?_)⟩
        rw [heq]
        exact Nat.lt_succ_self _
      · refine ⟨Nat.succ_le_succ hle,fun heq hk => ?_⟩
        subst hk
        exact List.Forall₂.cons ⟨line,hline,hr⟩ (hall (Nat.succ.inj heq) rfl)
    cases v with
    | table t =>
      cases t with
      | nil =>
        rw [marshalParam_empty] at hfirst
        obtain rfl := Option.some.inj hfirst
        have hbraces : List.replicate k '{'++['{'] = List.replicate (k+1) '{' := List.replicate_succ'.symm
        rw [hbraces] at hmsg
        obtain ⟨hle,-⟩ := ih hrest hmsg h
        refine ⟨Nat.le_succ_of_le hle,fun heq => absurd hle (Nat.not_le_of_lt ?_)⟩
        rw [heq]
        exact Nat.lt_succ_self _
      | cons entry rest => exact hline fun h => by cases h
    | _ => exact hline fun h => by cases h

theorem carried_of_forall₂ {values returned : List (Value N)} (h : List.Forall₂ Same values returned)
    (hreads : List.Forall₂ (Reads R fields) values returned)
    (hvalues : ∀ v ∈ values, Readable fields v) : ∀ v ∈ values, Carried R fields v := by
  induction h with
  | nil => exact fun v hv => absurd hv List.not_mem_nil
  | cons hsame _ ih =>
    obtain ⟨hv,hrest⟩ := List.forall_mem_cons.mp hvalues
    cases hreads with
    | cons hread hreads =>
      obtain ⟨line,hline,hconvert⟩ := hread
      exact List.forall_mem_cons.mpr ⟨carried_of_line hv hsame hline hconvert,ih hreads hrest⟩

end Run

/-- Natural numbers in decimal. -/
def decimal : Runtime ℕ where
  tostring n := Nat.toDigits 10 n
  tonumber s := if s ≠ [] ∧ s.all Char.isDigit = true then some (Nat.ofDigitChars 10 s 0) else none
  address _ := ['0','x','5','5']
  border l := (l.takeWhile fun v => !v.isNil).length
  isBorder := isBorder_takeWhile
  tostring_clean n c hc := by
    have hdigit := Nat.isDigit_of_mem_toDigits (by decide) (by decide) hc
    constructor
    all_goals
      rw [Bool.eq_false_iff]
      intro h
      cases (Bool.or_eq_true _ _).mp h with
      | inl h => rw [eq_of_beq h] at hdigit; cases hdigit
      | inr h => rw [eq_of_beq h] at hdigit; cases hdigit
  tostring_unquoted n l := by
    constructor
    all_goals
      intro h
      have hdigit := Nat.isDigit_of_mem_toDigits (c := _) (by decide) (by decide)
        (h ▸ List.mem_cons_self)
      cases hdigit
  tostring_ne_fim n h := by
    have hmem : '-' ∈ Nat.toDigits 10 n := by
      rw [h]
      decide
    cases Nat.isDigit_of_mem_toDigits (by decide) (by decide) hmem
  address_clean _ := by simp [isBreak,isSeparator]
  address_ne_nil _ := by decide
  tonumber_true := rfl
  tonumber_false := rfl

/-- A servant with the one method `f`, and a validation that lets everything pass. -/
def servant (outcome : Outcome ℕ) : Servant ℕ where
  obj fname := if fname = ['f'] then some fun _ => outcome else none
  fields := []

def accept (_ : Str) (params : List (Value ℕ)) : Option (Validation ℕ) := some ⟨true,params,[]⟩

end PucRio.RaftRpc
