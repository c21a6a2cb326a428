import PucRio.Lib.LuaInteger
import PucRio.RaftRpc.Transparency

/-! Values in their lines. Integers and strings come back from the text form, whatever the strings look
like; a table comes back where its fields and strings keep clear of the marks between them. -/
namespace PucRio.RaftRpc
open Lua Text
variable {F : Type}

/-- What the text form asks of the floats, and of the rest of Lua that it depends on. -/
structure Floats (F : Type) where
  tostring : F → Str
  tonumber : Str → Option F
  address : Table (Number F) → Str
  border : List (Value (Number F)) → ℕ
  isBorder : ∀ l, IsBorder l (border l)
  tostring_clean : ∀ x, ∀ c ∈ tostring x, isBreak c = false ∧ isSeparator c = false
  tostring_unquoted : ∀ x l, tostring x ≠ '\''::l ∧ tostring x ≠ '{'::l
  tostring_ne_fim : ∀ x, tostring x ≠ fim
  address_clean : ∀ t, ∀ c ∈ address t, isBreak c = false ∧ isSeparator c = false ∧ c ≠ '='
  address_ne_nil : ∀ t, address t ≠ []
  tonumber_true : tonumber ['t','r','u','e'] = none
  tonumber_false : tonumber ['f','a','l','s','e'] = none

section Integers

theorem mem_integerText {n : BitVec 64} {c : Char} (hc : c ∈ integerText n) :
    c = '-' ∨ c.isDigit = true := by
  rw [integerText] at hc
  split_ifs at hc
  · exact (List.mem_cons.mp hc).imp_right isDigit_of_mem
  · exact .inr (isDigit_of_mem hc)

theorem integerText_clean (n : BitVec 64) {c : Char} (hc : c ∈ integerText n) :
    isBreak c = false ∧ isSeparator c = false := by
  cases mem_integerText hc with
  | inl h =>
    subst h
    decide
  | inr h =>
    rw [isBreak,isSeparator,Bool.or_eq_false_iff,Bool.or_eq_false_iff]
    refine ⟨⟨?_,?_⟩,?_,?_⟩
    all_goals
      rw [beq_eq_false_iff_ne]
      rintro rfl
      cases h

theorem integerText_not_mem {c : Char} (hne : c ≠ '-') (hdigit : c.isDigit = false) (n : BitVec 64) :
    c ∉ integerText n := by
  intro hc
  rcases mem_integerText hc with h | h
  · exact hne h
  · rw [hdigit] at h
    cases h

end Integers

/-- Numbers are written by their kind, and a text is read as an integer if it can be. -/
def Floats.runtime (floats : Floats F) : Runtime (Number F) where
  tostring
    | .integer n => integerText n
    | .float x => floats.tostring x
  tonumber s := ((str2int s).map .integer).or ((floats.tonumber s).map .float)
  address := floats.address
  border := floats.border
  isBorder := floats.isBorder
  tostring_clean x c hc := by
    cases x with
    | integer n => exact integerText_clean n hc
    | float x => exact floats.tostring_clean x c hc
  tostring_unquoted x l := by
    cases x with
    | integer n =>
      constructor
      all_goals
        intro h
        exact integerText_not_mem (by decide) (by decide) n (h ▸ List.mem_cons_self)
    | float x => exact floats.tostring_unquoted x l
  tostring_ne_fim x := by
    cases x with
    | integer n =>
      intro h
      have hmem : 'f' ∈ integerText n := by
        rw [show integerText n = fim from h]
        simp [fim]
      exact integerText_not_mem (by decide) (by decide) n hmem
    | float x => exact floats.tostring_ne_fim x
  address_clean := floats.address_clean
  address_ne_nil := floats.address_ne_nil
  tonumber_true := by
    rw [floats.tonumber_true]
    rfl
  tonumber_false := by
    rw [floats.tonumber_false]
    rfl

section Frames
variable {N : Type} [DecidableEq N] {R : Runtime N} {fields : List Str}

theorem requestRaw_eq {lines rest : List Str} (h : fim ∉ lines) :
    requestRaw (lines++fim::rest) = some lines := by
  induction lines with
  | nil => exact if_pos rfl
  | cons line lines ih =>
    obtain ⟨hne,hrest⟩ := not_or.mp (mt List.mem_cons.mpr h)
    rw [List.cons_append,requestRaw,if_neg (Ne.symm hne),ih hrest]
    rfl

/-- Where the server finds the end, the client stops there too. -/
theorem returns_of_requestRaw {msgs lines : List Str} (h : requestRaw msgs = some lines) :
    returns msgs = lines := by
  induction msgs generalizing lines with
  | nil => cases h
  | cons msg msgs ih =>
    rw [requestRaw] at h
    rw [returns]
    split_ifs at h ⊢
    · exact Option.some.inj h
    · obtain ⟨rest,hrest,rfl⟩ := Option.map_eq_some_iff.mp h
      rw [ih hrest]

/-- Values that are carried have a line each, and the end comes after them. -/
theorem frames_of_carried {values : List (Value N)} (h : ∀ v ∈ values, Carried R fields v) :
    ∃ msg lines, values.foldlM (marshalParam R) [] = some msg ∧ fim ∉ lines ∧
      received (msg++fim++['\n']) = lines++[fim] ∧ unmarshalling R fields lines = some values := by
  induction values with
  | nil =>
    refine ⟨[],[],rfl,List.not_mem_nil,?_,rfl⟩
    exact received_line (by simp [fim,isBreak])
  | cons v values ih =>
    obtain ⟨hv,hvalues⟩ := List.forall_mem_cons.mp h
    obtain ⟨msg,lines,hmsg,hend,hlines,hvals⟩ := ih hvalues
    obtain ⟨hreadable,line,hline,hconvert⟩ := line_of_carried hv
    have hne : v ≠ .table [] := by
      rintro rfl
      exact hv.1 rfl
    obtain ⟨hclean,hfim⟩ := line_of_readable hreadable hline
    refine ⟨line++ '\n'::msg,line::lines,?_,?_,?_,?_⟩
    · rw [List.foldlM_cons,marshalParam_line R hne,hline]
      simp only [Option.map_some,Option.bind_eq_bind,Option.bind_some]
      rw [foldlM_marshalParam,hmsg]
      simp
    · exact fun hmem => (List.mem_cons.mp hmem).elim (fun heq => hfim heq.symm) hend
    · have hassoc : line++ '\n'::msg++fim++['\n'] = line++ '\n'::(msg++fim++['\n']) := by simp
      rw [hassoc,received_line hclean,hlines]
      rfl
    · have hnil : v.isNil = false :=
        Bool.eq_false_iff.mpr fun hv' => hv.ne_nil (Value.isNil_iff.mp hv')
      rw [unmarshalling_cons,hconvert,hvals]
      simp [hnil]

omit [DecidableEq N] in
theorem marshalling_eq {values : List (Value N)} (hnil : .nil ∉ values) :
    marshalling R values = (values.foldlM (marshalParam R) []).map fun msg => msg++fim++['\n'] := by
  have hborder : R.border values = values.length := (R.isBorder _).eq_length hnil
  rw [marshalling,hborder,List.take_length]
  cases values.foldlM (marshalParam R) [] with
  | none => rfl
  | some msg => simp

end Frames

section Plain
variable [DecidableEq F] (floats : Floats F)

/-- An integer, or a string without line breaks. -/
def Plain : Value (Number F) → Prop
  | .number (.integer _) => True
  | .string s => ∀ c ∈ s, isBreak c = false
  | _ => False

omit [DecidableEq F] in
theorem tonumber_integer (n : BitVec 64) :
    floats.runtime.tonumber (floats.runtime.tostring (.integer n)) = some (.integer n) := by
  show ((str2int (integerText n)).map Number.integer).or _ = _
  rw [str2int_integerText]
  rfl

variable {floats} {fields : List Str}

omit [DecidableEq F] in
theorem Plain.carried {v : Value (Number F)} (h : Plain v) : Carried floats.runtime fields v := by
  cases v with
  | number x =>
    cases x with
    | integer n => exact tonumber_integer floats n
    | float x => cases h
  | string s => exact h
  | _ => cases h

variable (floats) (fields)

/-- Integers and strings are read back as they were, and the line that ends the message is the last
one. -/
theorem unmarshalling_marshalling {values : List (Value (Number F))} (h : ∀ v ∈ values, Plain v) :
    ∃ msg lines, marshalling floats.runtime values = some msg ∧ received msg = lines++[fim] ∧
      fim ∉ lines ∧ requestRaw (received msg) = some lines ∧ returns (received msg) = lines ∧
        unmarshalling floats.runtime fields lines = some values := by
  have hcarried : ∀ v ∈ values, Carried floats.runtime fields v := fun v hv => (h v hv).carried
  obtain ⟨msg,lines,hmsg,hend,hlines,hvals⟩ := frames_of_carried hcarried
  have hraw : requestRaw (received (msg++fim++['\n'])) = some lines := by
    rw [hlines]
    exact requestRaw_eq hend
  refine ⟨msg++fim++['\n'],lines,?_,hlines,hend,hraw,returns_of_requestRaw hraw,hvals⟩
  rw [marshalling_eq fun hmem => (hcarried _ hmem).ne_nil rfl,hmsg]
  rfl

end Plain

/-- Without floats. -/
def noFloats : Floats Empty where
  tostring x := x.elim
  tonumber _ := none
  address _ := ['0','x','5','5']
  border l := (l.takeWhile fun v => !v.isNil).length
  isBorder := isBorder_takeWhile
  tostring_clean x := x.elim
  tostring_unquoted x := x.elim
  tostring_ne_fim x := x.elim
  address_clean _ := by simp [isBreak,isSeparator]
  address_ne_nil _ := List.cons_ne_nil _ _
  tonumber_true := rfl
  tonumber_false := rfl

/-- The least integer, an empty string, and one that looks like the end. -/
theorem unmarshalling_marshalling_fim :
    let values : List (Value (Number Empty)) :=
      [.number (.integer (BitVec.intMin 64)),.string [],.string fim]
    ∃ msg lines, marshalling noFloats.runtime values = some msg ∧ received msg = lines++[fim] ∧
      fim ∉ lines ∧ requestRaw (received msg) = some lines ∧ returns (received msg) = lines ∧
        unmarshalling noFloats.runtime [] lines = some values := by
  refine unmarshalling_marshalling noFloats [] ?_
  refine List.forall_mem_cons.mpr ⟨trivial,List.forall_mem_cons.mpr
    ⟨fun c hc => absurd hc List.not_mem_nil,List.forall_mem_singleton.mpr ?_⟩⟩
  show ∀ c ∈ fim, isBreak c = false
  simp [fim,isBreak]

section Structs
variable [DecidableEq F] (floats : Floats F) (fields : List Str)

/-- A table of string keys, each once, with integers and strings. -/
def Flat (t : Table (Number F)) : Prop :=
  (t.map Prod.fst).Nodup ∧ ∀ entry ∈ t, (∃ k, entry.1 = .string k) ∧ Plain entry.2

def Argument (v : Value (Number F)) : Prop := Plain v ∨ ∃ t, v = .table t ∧ Flat t

/-- The arguments are read back, each from its place. -/
def RoundTrip (values : List (Value (Number F))) : Prop :=
  ∃ msg lines returned, marshalling floats.runtime values = some msg ∧
    requestRaw (received msg) = some lines ∧
      unmarshalling floats.runtime fields lines = some returned ∧ List.Forall₂ Same values returned

/-- The table is not empty, its keys are declared and keep clear of the marks of the text form, and its
strings of those between fields. -/
def Separable (t : Table (Number F)) : Prop :=
  t ≠ [] ∧ ∀ entry ∈ t, (∃ k ∈ fields, entry.1 = .string k ∧
    ∀ c ∈ k, isBreak c = false ∧ isSeparator c = false ∧ c ≠ '=') ∧
      ∀ s, entry.2 = .string s → ∀ c ∈ s, isSeparator c = false

theorem roundTrip_iff_carried {values : List (Value (Number F))} (hnil : .nil ∉ values) :
    RoundTrip floats fields values ↔ ∀ v ∈ values, Carried floats.runtime fields v := by
  rw [RoundTrip,marshalling_eq hnil]
  constructor
  · rintro ⟨msg,lines,returned,hmsg,hraw,hread,hsame⟩
    obtain ⟨body,hbody,rfl⟩ := Option.map_eq_some_iff.mp hmsg
    have hcarry : carry floats.runtime fields body = some returned := by
      rw [carry,returns_of_requestRaw hraw,hread]
    have hreadable := readable_of_forall₂ hsame (readable_of_carry hcarry)
    have hreads := (reads_of_carry hreadable (k := 0) hbody hcarry).2 hsame.length_eq.symm rfl
    exact carried_of_forall₂ hsame hreads hreadable
  · intro hcarried
    obtain ⟨body,lines,hbody,hend,hlines,hvals⟩ := frames_of_carried hcarried
    refine ⟨_,lines,values,congrArg (Option.map _) hbody,?_,hvals,?_⟩
    · rw [hlines]
      exact requestRaw_eq hend
    · exact List.forall₂_same.mpr fun v _ => Same.refl v

variable {floats fields}

omit [DecidableEq F] in
theorem carried_table_iff {t : Table (Number F)} (h : Flat t) :
    Carried floats.runtime fields (.table t) ↔ Separable fields t := by
  constructor
  · rintro ⟨hne,-,hfields⟩
    refine ⟨hne,fun entry he => ?_⟩
    obtain ⟨k,hkey,hmem,hclean,hpart⟩ := hfields entry he
    refine ⟨⟨k,hmem,hkey,hclean⟩,fun s hs c hc => ?_⟩
    rw [hs] at hpart
    exact (hpart c hc).2
  · rintro ⟨hne,hsep⟩
    refine ⟨hne,h.1,fun entry he => ?_⟩
    obtain ⟨⟨k,hmem,hkey,hclean⟩,hstring⟩ := hsep entry he
    refine ⟨k,hkey,hmem,hclean,?_⟩
    have hplain := (h.2 entry he).2
    generalize entry.2 = v at hplain hstring
    cases v with
    | number x =>
      cases x with
      | integer n => exact tonumber_integer floats n
      | float x => cases hplain
    | string s => exact fun c hc => ⟨hplain c hc,hstring s rfl c hc⟩
    | _ => cases hplain

variable (floats fields)

/-- Arguments are read back exactly where every table among them is separable. -/
theorem roundTrip_iff_separable {values : List (Value (Number F))} (h : ∀ v ∈ values, Argument v) :
    RoundTrip floats fields values ↔ ∀ t, .table t ∈ values → Separable fields t := by
  have hnil : .nil ∉ values := by
    intro hmem
    rcases h _ hmem with hplain | ⟨t,ht,-⟩
    · cases hplain
    · cases ht
  rw [roundTrip_iff_carried floats fields hnil]
  constructor
  · intro hcarried t ht
    rcases h _ ht with hplain | ⟨u,hu,hflat⟩
    · cases hplain
    · obtain rfl := Value.table.inj hu
      exact (carried_table_iff hflat).mp (hcarried _ ht)
  · intro hsep v hv
    rcases h v hv with hplain | ⟨t,rfl,hflat⟩
    · exact hplain.carried
    · exact (carried_table_iff hflat).mpr (hsep t hv)

end Structs

/-- The fields of a person. -/
def person : List Str := [['n','o','m','e'],['i','d','a','d','e']]

def ana : Table (Number Empty) := [(.string ['n','o','m','e'],.string ['A','n','a']),
  (.string ['i','d','a','d','e'],.number (.integer 20))]

theorem roundTrip_iff_separable_ana :
    RoundTrip noFloats person [.table ana,.number (.integer 7)] ↔
      ∀ t, .table t ∈ [Value.table ana,.number (.integer 7)] → Separable person t := by
  refine roundTrip_iff_separable noFloats person (List.forall_mem_cons.mpr
    ⟨.inr ⟨ana,rfl,by decide,?_⟩,List.forall_mem_singleton.mpr (.inl trivial)⟩)
  refine List.forall_mem_cons.mpr ⟨⟨⟨_,rfl⟩,?_⟩,List.forall_mem_singleton.mpr ⟨⟨_,rfl⟩,trivial⟩⟩
  show ∀ c ∈ ['A','n','a'], isBreak c = false
  simp [isBreak]

/-- A name with a blank. -/
def anaB : Table (Number Empty) := [(.string ['n','o','m','e'],.string ['A',' ','B'])]

/-- Not so a table with a blank in one of its strings, nor a table without fields. -/
theorem not_roundTrip_blank : (∀ v ∈ [Value.table anaB], Argument v) ∧
    ¬RoundTrip noFloats person [.table anaB] ∧
      (∀ v ∈ [Value.table [],.number (.integer 7)], Argument (F := Empty) v) ∧
        ¬RoundTrip noFloats person [.table [],.number (.integer 7)] := by
  refine ⟨List.forall_mem_singleton.mpr (.inr ⟨anaB,rfl,by decide,?_⟩),?_,?_,?_⟩
  · refine List.forall_mem_singleton.mpr ⟨⟨_,rfl⟩,?_⟩
    show ∀ c ∈ ['A',' ','B'], isBreak c = false
    simp [isBreak]
  · intro h
    have hcarried := (roundTrip_iff_carried noFloats person (by simp)).mp h _ List.mem_cons_self
    obtain ⟨k,-,-,-,hpart⟩ := hcarried.2.2 _ List.mem_cons_self
    cases (hpart ' ' (by simp)).2
  · refine List.forall_mem_cons.mpr ⟨.inr ⟨[],rfl,List.nodup_nil,?_⟩,
      List.forall_mem_singleton.mpr (.inl trivial)⟩
    exact fun entry he => absurd he List.not_mem_nil
  · intro h
    have hcarried := (roundTrip_iff_carried noFloats person (by simp)).mp h _ List.mem_cons_self
    exact hcarried.1 rfl

end PucRio.RaftRpc
