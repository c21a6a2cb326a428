import Mathlib.Data.List.TakeWhile
import PucRio.Lib.Lua
import PucRio.Lib.Words

/-! The text form of requests and responses: a line for each value, a table as the line
`{key=value, key=value}`, and `-fim-` at the end. `none` stands for an error that is raised. -/
namespace PucRio.RaftRpc
open Lua Text
variable {N : Type}

def fim : Str := ['-','f','i','m','-']

def isSeparator (c : Char) : Bool := c == ',' || c == ' '

def isBreak (c : Char) : Bool := c == '\n' || c == '\r'

/-- The text form's dependence on Lua: numbers as texts, the addresses that tables are printed
with, and which border of a list with holes `#` finds. -/
structure Runtime (N : Type) where
  tostring : N → Str
  tonumber : Str → Option N
  address : Table N → Str
  border : List (Value N) → ℕ
  isBorder : ∀ l, IsBorder l (border l)
  tostring_clean : ∀ x, ∀ c ∈ tostring x, isBreak c = false ∧ isSeparator c = false
  tostring_unquoted : ∀ x l, tostring x ≠ '\''::l ∧ tostring x ≠ '{'::l
  tostring_ne_fim : ∀ x, tostring x ≠ fim
  address_clean : ∀ t, ∀ c ∈ address t, isBreak c = false ∧ isSeparator c = false ∧ c ≠ '='
  address_ne_nil : ∀ t, address t ≠ []
  tonumber_true : tonumber ['t','r','u','e'] = none
  tonumber_false : tonumber ['f','a','l','s','e'] = none

section Marshalling
variable (R : Runtime N)

/-- `tostring(v)` -/
def valueText : Value N → Str
  | .nil => ['n','i','l']
  | .boolean true => ['t','r','u','e']
  | .boolean false => ['f','a','l','s','e']
  | .number x => R.tostring x
  | .string s => s
  | .table fields => ['t','a','b','l','e',':',' ']++R.address fields
  | .reference _ text => text

/-- A key as an operand of `..` -/
def keyText : Key N → Option Str
  | .string s => some s
  | .number x => some (R.tostring x)
  | _ => none

def quoted : Value N → Str
  | .string s => '\''::s++['\'']
  | v => valueText R v

def marshalField (msg : Str) (field : Key N × Value N) : Option Str := do
  let k ← keyText R field.1
  some (msg++k++['=']++quoted R field.2++[',',' '])

def marshalParam (msg : Str) : Value N → Option Str
  | .table fields => do
    let msg ← fields.foldlM (marshalField R) (msg++['{'])
    if msg.drop (msg.length-2) = [',',' '] then some (msg.take (msg.length-2)++['}','\n'])
    else some msg
  | v => some (msg++quoted R v++['\n'])

def marshalling (params : List (Value N)) : Option Str := do
  let msg ← (params.take (R.border params)).foldlM (marshalParam R) []
  some (msg++fim++['\n'])

def create_protocol_msg (fname : Str) (params : List (Value N)) : Option Str := do
  let msg ← marshalling R params
  some (fname++['\n']++msg)

theorem marshalParam_of_not_table {v : Value N} (hv : ∀ fields, v ≠ .table fields) (msg : Str) :
    marshalParam R msg v = some (msg++quoted R v++['\n']) := by
  cases v with
  | table fields => exact absurd rfl (hv fields)
  | _ => rfl

def fieldText (field : Key N × Value N) : Option Str :=
  (keyText R field.1).map fun k => k++ '='::quoted R field.2

/-- A table's fields, one at least. -/
def tableText : Key N × Value N → Table N → Option Str
  | field,[] => fieldText R field
  | field,next::rest => do
    let t ← fieldText R field
    let u ← tableText next rest
    some (t++ ',':: ' '::u)

theorem foldlM_marshalField (msg : Str) (field : Key N × Value N) (rest : Table N) :
    (field::rest).foldlM (marshalField R) msg =
      (tableText R field rest).map fun t => msg++t++[',',' '] := by
  induction rest generalizing msg field with
  | nil =>
    rw [List.foldlM_cons,marshalField,tableText,fieldText]
    cases keyText R field.1 with
    | none => rfl
    | some k => simp
  | cons next rest ih =>
    rw [List.foldlM_cons,marshalField,tableText,fieldText]
    cases keyText R field.1 with
    | none => rfl
    | some k =>
      have h := ih (msg++k++['=']++quoted R field.2++[',',' ']) next
      simp only [Option.bind_eq_bind,Option.bind_some,Option.map_some] at h ⊢
      rw [h]
      cases tableText R next rest with
      | none => rfl
      | some u => simp

/-- The text of a value, without the end of its line. The empty table has no end of line, and no
closing brace. -/
def lineText : Value N → Option Str
  | .table [] => none
  | .table (field::rest) => (tableText R field rest).map fun t => '{'::t++['}']
  | v => some (quoted R v)

theorem marshalParam_empty (msg : Str) : marshalParam R msg (.table []) = some (msg++['{']) := by
  show (if (msg++['{']).drop ((msg++['{']).length-2) = [',',' '] then _ else _) = _
  refine if_neg fun h => ?_
  have hlast := congrArg List.getLast? h
  rw [List.getLast?_drop] at hlast
  split_ifs at hlast <;> simp at hlast

theorem marshalParam_line {v : Value N} (hv : v ≠ .table []) (msg : Str) :
    marshalParam R msg v = (lineText R v).map fun line => msg++line++['\n'] := by
  cases v with
  | table fields =>
    cases fields with
    | nil => exact absurd rfl hv
    | cons field rest =>
      rw [marshalParam,foldlM_marshalField,lineText]
      cases tableText R field rest with
      | none => rfl
      | some t =>
        have hlen : (msg++['{']++t++[',',' ']).length-2 = (msg++['{']++t).length := by
          simp only [List.length_append,List.length_cons,List.length_nil]
          omega
        simp only [Option.map_some,Option.bind_eq_bind,Option.bind_some]
        rw [hlen,List.drop_left,List.take_left,if_pos rfl]
        simp
  | _ => exact marshalParam_of_not_table R (fun _ h => by cases h) msg

end Marshalling

section Unmarshalling
variable [DecidableEq N] (R : Runtime N) (fields : List Str)

/-- `fields` are the names of the struct's fields; `t[nil] = value` raises an error. -/
def setExpression (convert : Str → Option (Value N)) (tab_struct : Table N) (expression : Str) :
    Option (Table N) :=
  if '=' ∈ expression then do
    let str_key := expression.takeWhile (· ≠ '=')
    let value ← convert (expression.dropWhile (· ≠ '=')).tail
    if str_key ∈ fields then some (rawset tab_struct (.string str_key) value) else none
  else none

def tostruct (convert : Str → Option (Value N)) (str_struct : Str) : Option (Table N) :=
  (words isSeparator str_struct).foldlM (setExpression fields convert) []

/-- A value that is nested in a table has a shorter text. -/
def convertParam : ℕ → Str → Option (Value N)
  | 0, _ => none
  | fuel+1, param =>
    match param with
    | '\''::rest => some (.string rest.dropLast)
    | '{'::rest => (tostruct fields (convertParam fuel) rest.dropLast).map .table
    | _ => some ((R.tonumber param).elim .nil .number)

def convert_param (param : Str) : Option (Value N) :=
  convertParam R fields (param.length+1) param

/-- `table.insert` of `nil` does nothing. -/
def insertParam (params : List (Value N)) (param : Str) : Option (List (Value N)) := do
  let value ← convert_param R fields param
  some (if value.isNil then params else params++[value])

def unmarshalling (request_params : List Str) : Option (List (Value N)) :=
  request_params.foldlM (insertParam R fields) []

theorem foldlM_insertParam (request_params : List Str) (params : List (Value N)) :
    request_params.foldlM (insertParam R fields) params =
      (unmarshalling R fields request_params).map (params++·) := by
  induction request_params generalizing params with
  | nil => exact congrArg some (List.append_nil params).symm
  | cons param request_params ih =>
    rw [unmarshalling,List.foldlM_cons,List.foldlM_cons,insertParam,insertParam]
    cases convert_param R fields param with
    | none => rfl
    | some value =>
      simp only [Option.bind_eq_bind,Option.bind_some]
      rw [ih,ih,Option.map_map]
      refine congrArg (Option.map · _) (funext fun rest => ?_)
      rw [Function.comp_apply]
      split_ifs
      · rfl
      · rw [List.append_assoc]
        rfl

theorem unmarshalling_cons (param : Str) (request_params : List Str) :
    unmarshalling R fields (param::request_params) =
      (convert_param R fields param).bind fun value =>
        (unmarshalling R fields request_params).map fun params =>
          if value.isNil then params else value::params := by
  rw [unmarshalling,List.foldlM_cons,insertParam]
  cases convert_param R fields param with
  | none => rfl
  | some value =>
    simp only [Option.bind_eq_bind,Option.bind_some]
    rw [foldlM_insertParam]
    cases unmarshalling R fields request_params with
    | none => rfl
    | some params =>
      simp only [Option.map_some]
      split_ifs <;> rfl

/-- A field with a declared name, of characters that the text form keeps, and a value as wanted. -/
def Field (P : Value N → Prop) (entry : Key N × Value N) : Prop :=
  ∃ s, entry.1 = .string s ∧ s ∈ fields ∧
    (∀ c ∈ s, isBreak c = false ∧ isSeparator c = false ∧ c ≠ '=') ∧ P entry.2

/-- A value that can stand in a table that was read. -/
def Part : Value N → Prop
  | .number _ => True
  | .string s => ∀ c ∈ s, isBreak c = false ∧ isSeparator c = false
  | .table _ => True
  | _ => False

/-- A value that can be read from a line. -/
def Readable : Value N → Prop
  | .number _ => True
  | .string s => ∀ c ∈ s, isBreak c = false
  | .table t => (t.map Prod.fst).Nodup ∧ ∀ entry ∈ t, Field fields Part entry
  | _ => False

variable {R fields}

/-- What `tostruct` builds has declared names without `=`, and values that were converted. -/
theorem of_tostruct {convert : Str → Option (Value N)} {s : Str} {t : Table N}
    (h : tostruct fields convert s = some t) :
    (t.map Prod.fst).Nodup ∧ (∀ expression ∈ words isSeparator s, '=' ∈ expression) ∧
      ∀ field ∈ t, ∃ expression ∈ words isSeparator s, ∃ key ∈ fields, field.1 = .string key ∧
        (∀ c ∈ key, c ∈ expression ∧ c ≠ '=') ∧ field.2 ≠ .nil ∧
          ∃ text, (∀ c ∈ text, c ∈ expression) ∧ convert text = some field.2 := by
  have run (expressions : List Str) {acc t : Table N}
      (h : expressions.foldlM (setExpression fields convert) acc = some t)
      (hacc : (acc.map Prod.fst).Nodup) :
      (t.map Prod.fst).Nodup ∧ (∀ expression ∈ expressions, '=' ∈ expression) ∧
        ∀ field ∈ t, field ∈ acc ∨ ∃ expression ∈ expressions, ∃ key ∈ fields,
          field.1 = .string key ∧ (∀ c ∈ key, c ∈ expression ∧ c ≠ '=') ∧ field.2 ≠ .nil ∧
            ∃ text, (∀ c ∈ text, c ∈ expression) ∧ convert text = some field.2 := by
    induction expressions generalizing acc with
    | nil =>
      obtain rfl : acc = t := Option.some.inj h
      exact ⟨hacc,fun _ he => absurd he List.not_mem_nil,fun _ hf => Or.inl hf⟩
    | cons expression expressions ih =>
      rw [List.foldlM_cons] at h
      obtain ⟨next,hnext,h⟩ := Option.bind_eq_some_iff.mp h
      unfold setExpression at hnext
      split_ifs at hnext with heq
      obtain ⟨value,hvalue,hnext⟩ := Option.bind_eq_some_iff.mp hnext
      split_ifs at hnext with hkey
      obtain rfl := Option.some.inj hnext
      obtain ⟨hnodup,hall,hfields⟩ := ih h (nodup_rawset hacc)
      refine ⟨hnodup,List.forall_mem_cons.mpr ⟨heq,hall⟩,fun field hfield => ?_⟩
      cases hfields field hfield with
      | inl hmem =>
        cases of_mem_rawset hmem with
        | inl hmem => exact Or.inl hmem
        | inr hnew =>
          obtain ⟨rfl,hnil⟩ := hnew
          refine Or.inr ⟨expression,List.mem_cons_self,_,hkey,rfl,fun c hc => ?_,hnil,_,?_,hvalue⟩
          · exact ⟨(List.takeWhile_sublist _).mem hc,by simpa using List.mem_takeWhile_imp hc⟩
          · exact fun c hc => (List.dropWhile_sublist _).mem (List.mem_of_mem_tail hc)
      | inr hlater =>
        obtain ⟨e,he,hrest⟩ := hlater
        exact Or.inr ⟨e,List.mem_cons_of_mem _ he,hrest⟩
  obtain ⟨hnodup,hall,hfields⟩ := run (words isSeparator s) h List.nodup_nil
  exact ⟨hnodup,hall,fun field hf => (hfields field hf).resolve_left List.not_mem_nil⟩

theorem part_of_convertParam {fuel : ℕ} {param : Str} {v : Value N}
    (h : convertParam R fields fuel param = some v)
    (hparam : ∀ c ∈ param, isBreak c = false ∧ isSeparator c = false) : v = .nil ∨ Part v := by
  cases fuel with
  | zero => cases h
  | succ fuel =>
    unfold convertParam at h
    split at h
    · obtain rfl := Option.some.inj h
      exact Or.inr fun c hc => hparam c (List.mem_cons_of_mem _ ((List.dropLast_sublist _).mem hc))
    · obtain ⟨t,-,rfl⟩ := Option.map_eq_some_iff.mp h
      exact Or.inr trivial
    · obtain rfl := Option.some.inj h
      cases R.tonumber param with
      | none => exact Or.inl rfl
      | some x => exact Or.inr trivial

theorem readable_of_convertParam {fuel : ℕ} {param : Str} {v : Value N}
    (h : convertParam R fields fuel param = some v) (hparam : ∀ c ∈ param, isBreak c = false) :
    v = .nil ∨ Readable fields v := by
  cases fuel with
  | zero => cases h
  | succ fuel =>
    unfold convertParam at h
    split at h
    · obtain rfl := Option.some.inj h
      exact Or.inr fun c hc => hparam c (List.mem_cons_of_mem _ ((List.dropLast_sublist _).mem hc))
    · rename_i rest
      obtain ⟨t,ht,rfl⟩ := Option.map_eq_some_iff.mp h
      obtain ⟨hnodup,-,hfields⟩ := of_tostruct ht
      have hword : ∀ expression ∈ words isSeparator rest.dropLast, ∀ c ∈ expression,
          isBreak c = false ∧ isSeparator c = false := by
        intro expression he c hc
        obtain ⟨hmem,hsep⟩ := (of_mem_words he).2 c hc
        exact ⟨hparam c (List.mem_cons_of_mem _ ((List.dropLast_sublist _).mem hmem)),hsep⟩
      refine Or.inr ⟨hnodup,fun entry hentry => ?_⟩
      obtain ⟨e,he,key,hkey,heq,hclean,hnil,text,htext,hconv⟩ := hfields entry hentry
      refine ⟨key,heq,hkey,fun c hc => ?_,?_⟩
      · obtain ⟨hmem,hne⟩ := hclean c hc
        exact ⟨(hword e he c hmem).1,(hword e he c hmem).2,hne⟩
      · exact (part_of_convertParam hconv fun c hc => hword e he c (htext c hc)).resolve_left hnil
    · obtain rfl := Option.some.inj h
      cases R.tonumber param with
      | none => exact Or.inl rfl
      | some x => exact Or.inr trivial

theorem tostruct_congr {f g : Str → Option (Value N)} {s : Str}
    (h : ∀ text : Str, text.length ≤ s.length → f text = g text) :
    tostruct fields f s = tostruct fields g s := by
  have run (expressions : List Str) (acc : Table N)
      (hlen : ∀ expression ∈ expressions, expression.length ≤ s.length) :
      expressions.foldlM (setExpression fields f) acc =
        expressions.foldlM (setExpression fields g) acc := by
    induction expressions generalizing acc with
    | nil => rfl
    | cons expression expressions ih =>
      obtain ⟨hhead,hrest⟩ := List.forall_mem_cons.mp hlen
      have htext : ((expression.dropWhile (· ≠ '=')).tail).length ≤ s.length := by
        refine Nat.le_trans ?_ hhead
        rw [List.length_tail]
        exact Nat.le_trans (Nat.sub_le _ 1) (List.dropWhile_sublist _).length_le
      rw [List.foldlM_cons,List.foldlM_cons,setExpression,setExpression,h _ htext]
      exact congrArg (Option.bind _) (funext fun next => ih next hrest)
  exact run _ [] fun expression he => (of_mem_words he).1

/-- The fuel of `convert_param` is enough. -/
theorem convertParam_eq {fuel : ℕ} {param : Str} (h : param.length < fuel) :
    convertParam R fields fuel param = convert_param R fields param := by
  have run (fuel fuel' : ℕ) {param : Str} (h : param.length < fuel) (h' : param.length < fuel') :
      convertParam R fields fuel param = convertParam R fields fuel' param := by
    induction fuel generalizing fuel' param with
    | zero => cases h
    | succ fuel ih =>
      cases fuel' with
      | zero => cases h'
      | succ fuel' =>
        unfold convertParam
        split
        · rfl
        · rename_i rest
          rw [List.length_cons] at h h'
          refine congrArg (Option.map _) (tostruct_congr fun text ht => ih fuel' ?_ ?_)
          all_goals
            rw [List.length_dropLast] at ht
            omega
        · rfl
  exact run _ _ h (Nat.lt_succ_self _)

end Unmarshalling
end PucRio.RaftRpc
