import PucRio.Monga.StringBuffer

/-! Scanning a string literal: the rules add what its body says, one character at a time, and the
closing quote makes a token of what the buffer then holds. -/
namespace PucRio.Monga.Lexer
open Flex Flex.Pattern

/-- A character of a string, as the body of a literal gives it. -/
inductive StrChar
  | plain (c : Char)
  | newline
  | tab
  | quote
  | backslash
  deriving DecidableEq, Repr

namespace StrChar

def text : StrChar → List Char
  | plain c => [c]
  | newline => ['\\','n']
  | tab => ['\\','t']
  | quote => ['\\','\"']
  | backslash => ['\\','\\']

def value : StrChar → Char
  | plain c => c
  | newline => '\n'
  | tab => '\t'
  | quote => '\"'
  | backslash => '\\'

/-- What has a meaning of its own cannot stand for itself. -/
def Valid : StrChar → Prop
  | plain c => c ≠ NUL ∧ c ≠ '\n' ∧ c ≠ '\"' ∧ c ≠ '\\'
  | _ => True

instance (x : StrChar) : Decidable x.Valid := by
  cases x
  · exact inferInstanceAs (Decidable (_ ∧ _ ∧ _ ∧ _))
  all_goals exact instDecidableTrue

theorem Valid.not_mem {x : StrChar} (h : x.Valid) : NUL ∉ [x.value] := by
  rw [List.mem_singleton]
  cases x with
  | plain c => exact h.1.symm
  | _ => decide

end StrChar

/-- The text of a literal. -/
def literal (body : List StrChar) : List Char := '\"' :: body.flatMap StrChar.text++['\"']

/-- The body with its escapes replaced. -/
def decoded (body : List StrChar) : List Char := body.map StrChar.value

/-- The string that a token's data points to. -/
def Data.string : Data → Option (List Char)
  | c block => cString block
  | _ => none

/-- The strings of the tokens for string literals. -/
def stringData (tokens : List Token) : List (Option (List Char)) :=
  (tokens.filter fun t => t.symbol = .TK_STRING).map fun t => t.data.string

theorem stringData_append (l l' : List Token) :
    stringData (l++l') = stringData l++stringData l' := by
  rw [stringData,List.filter_append,List.map_append]
  rfl

section Matching
variable {c : Char} {cs : List Char}

theorem lex_beginString : lex initialRules ('\"' :: cs) = some (.beginString,['\"'],cs) := rfl

theorem lex_endString : lex stringRules ('\"' :: cs) = some (.endString,['\"'],cs) := rfl

theorem lex_plain (hn : c ≠ '\n') (hq : c ≠ '\"') (hb : c ≠ '\\') :
    lex stringRules (c::cs) = some (.addYytext,[c],cs) := by
  simp [lex,candidates,stringRules,word,splits,splitsOne,dot,hn,hq,hb]

end Matching

section Steps
variable {M : Memory} {s : Scanner}

theorem next_eq {b : Start} (hs : s.start = b) {cs : List Char} {c : Char} {r : Rule}
    {w t : List Char} (hi : s.input = c::cs) (hlex : lex (rules b) (c::cs) = some (r,w,t)) :
    next M s = action M w { s with input := t } r := by
  rw [next,hi]
  change (lex (rules s.start) (c::cs)).elim _ _ = _
  rw [hs,hlex]
  rfl

/-- Each character of the body goes to the buffer. -/
theorem next_char {x : StrChar} (hx : x.Valid) {rest : List Char} (hs : s.start = .STRING)
    (hi : s.input = x.text++rest) :
    next M s = addToBuffer M [x.value] { s with input := rest } := by
  cases x with
  | plain c =>
    obtain ⟨h0,hn,hq,hb⟩ := hx
    rw [next_eq hs hi (lex_plain hn hq hb),action,List.takeWhile_cons,bne_iff_ne.mpr h0]
    rfl
  | newline =>
    rw [next_eq hs hi (r := .addText ['\n']) rfl]
    rfl
  | tab =>
    rw [next_eq hs hi (r := .addText ['\t']) rfl]
    rfl
  | quote =>
    rw [next_eq hs hi (r := .addText ['\"']) rfl]
    rfl
  | backslash =>
    rw [next_eq hs hi (r := .addText ['\\']) rfl]
    rfl

/-- The run stops before the end of the text. -/
def Stuck (M : Memory) (s : Scanner) : Prop :=
  ∃ k t, runSteps (step M) k s = some t ∧ step M t = none ∧ t.input ≠ []

theorem Stuck.of_run {k : ℕ} {t : Scanner} (hr : runSteps (step M) k s = some t)
    (h : Stuck M t) : Stuck M s := by
  obtain ⟨l,u,hu,hstop,hne⟩ := h
  exact ⟨k+l,u,(runSteps_add hr).trans hu,hstop,hne⟩

theorem step_ok {t : Scanner} (h : next M s = .ok t) : step M s = some t := by
  rw [step,h]
  rfl

theorem step_error {e : Stop} (h : next M s = .error e) : step M s = none := by
  rw [step,h]
  rfl

theorem stuck_of_error {e : Stop} (h : next M s = .error e) (hi : s.input ≠ []) : Stuck M s :=
  ⟨0,s,rfl,step_error h,hi⟩

end Steps

section Body
variable {M : Memory} {s t : Scanner} {body : List StrChar} {rest d : List Char} {n : ℕ}

theorem outside_eq {b : Start} {k : ℕ} {l : List Token} :
    s.outside = (rest,b,k,l) ↔ s.input = rest ∧ s.start = b ∧ s.begun = k ∧ s.tokens = l := by
  rw [Scanner.outside,Prod.mk.injEq,Prod.mk.injEq,Prod.mk.injEq]

theorem text_ne_nil (x : StrChar) : x.text++rest ≠ [] := by
  cases x <;> exact List.cons_ne_nil _ _

theorem Holds.of_start (h : Holds s d) (rest : List Char) (b : Start) :
    Holds { s with input := rest, start := b } d :=
  ⟨⟨h.count,h.len,h.size,h.fits⟩,h.text⟩

theorem Spoiled.of_start (h : Spoiled s n) (rest : List Char) (b : Start) :
    Spoiled { s with input := rest, start := b } n :=
  ⟨⟨h.count,h.len,h.size,h.fits⟩,h.text⟩

theorem Holds.next_char {x : StrChar} (h : Holds s d) (hx : x.Valid) (hs : s.start = .STRING)
    (hi : s.input = x.text++rest) (hfits : d.length+1+1024 < 2^31) :
    ∃ t, next M s = .ok t ∧ Holds t (d++[x.value]) ∧
      t.outside = (rest,.STRING,s.begun,s.tokens) := by
  rw [Lexer.next_char hx hs hi]
  obtain ⟨t,ht,hout,hd⟩ := (h.of_start rest s.start).addToBuffer (M := M) le_rfl
    hx.not_mem hfits
  rw [hs] at hout
  exact ⟨t,ht,hd,hout⟩

theorem Spoiled.next_char {x : StrChar} (h : Spoiled s n) (hx : x.Valid) (hs : s.start = .STRING)
    (hi : s.input = x.text++rest) (ht : next M s = .ok t) :
    Spoiled t (n+1) ∧ t.outside = (rest,.STRING,s.begun,s.tokens) := by
  rw [Lexer.next_char hx hs hi] at ht
  obtain ⟨hout,hsp⟩ := (h.of_start rest s.start).addToBuffer le_rfl hx.not_mem ht
  rw [hs] at hout
  exact ⟨hsp,hout⟩

/-- A buffer that holds a text takes up the body, as long as its size is an `int`. -/
theorem run_body (hv : ∀ x ∈ body, x.Valid) (h : Holds s d) (hs : s.start = .STRING)
    (hi : s.input = body.flatMap StrChar.text++rest) (hfits : d.length+body.length+1024 < 2^31) :
    ∃ k t, runSteps (step M) k s = some t ∧ Holds t (d++decoded body) ∧
      t.outside = (rest,.STRING,s.begun,s.tokens) := by
  induction body generalizing s d with
  | nil =>
    refine ⟨0,s,rfl,?_,outside_eq.mpr ⟨hi,hs,rfl,rfl⟩⟩
    rw [decoded,List.map_nil,List.append_nil]
    exact h
  | cons x body ih =>
    rw [List.flatMap_cons,List.append_assoc] at hi
    rw [List.length_cons] at hfits
    obtain ⟨t,ht,hd,hout⟩ := h.next_char (M := M) (hv x List.mem_cons_self) hs hi (by omega)
    obtain ⟨hti,hts,htb,htt⟩ := outside_eq.mp hout
    obtain ⟨k,u,hu,hdu,hrest⟩ := ih (fun y hy => hv y (List.mem_cons_of_mem _ hy)) hd hts hti
      (by rw [List.length_append,List.length_singleton]; omega)
    refine ⟨k+1,u,(runSteps_succ (step_ok ht)).trans hu,?_,?_⟩
    · rw [List.append_assoc] at hdu
      exact hdu
    · rw [hrest,htb,htt]

/-- Where it is not, the run stops inside the body. -/
theorem stuck_body (hv : ∀ x ∈ body, x.Valid) (h : Holds s d) (hs : s.start = .STRING)
    (hi : s.input = body.flatMap StrChar.text++rest) (hfull : 2^31 ≤ d.length+body.length+1024) :
    Stuck M s := by
  induction body generalizing s d with
  | nil => exact absurd h.fits (by rw [List.length_nil] at hfull; omega)
  | cons x body ih =>
    rw [List.flatMap_cons,List.append_assoc] at hi
    rw [List.length_cons] at hfull
    have hx := hv x List.mem_cons_self
    by_cases hfits : d.length+1+1024 < 2^31
    · obtain ⟨t,ht,hd,hout⟩ := h.next_char (M := M) hx hs hi hfits
      obtain ⟨hti,hts,-,-⟩ := outside_eq.mp hout
      apply Stuck.of_run (runSteps_one (step_ok ht))
      exact ih (fun y hy => hv y (List.mem_cons_of_mem _ hy)) hd hts hti
        (by rw [List.length_append,List.length_singleton]; omega)
    · have hstop : next M s = .error .undefined := by
        rw [Lexer.next_char hx hs hi]
        exact (h.of_start _ s.start).toSized.addToBuffer_full le_rfl
          (by rw [List.length_singleton]; omega)
      exact stuck_of_error hstop (hi ▸ text_ne_nil x)

/-- A spoiled buffer stays spoiled, if the run does not stop. -/
theorem spoiled_body (hv : ∀ x ∈ body, x.Valid) (h : Spoiled s n) (hs : s.start = .STRING)
    (hi : s.input = body.flatMap StrChar.text++rest) :
    Stuck M s ∨ ∃ k t, runSteps (step M) k s = some t ∧ Spoiled t (n+body.length) ∧
      t.outside = (rest,.STRING,s.begun,s.tokens) := by
  induction body generalizing s n with
  | nil => exact .inr ⟨0,s,rfl,h,outside_eq.mpr ⟨hi,hs,rfl,rfl⟩⟩
  | cons x body ih =>
    rw [List.flatMap_cons,List.append_assoc] at hi
    cases ht : next M s with
    | error e => exact .inl (stuck_of_error ht (hi ▸ text_ne_nil x))
    | ok t =>
      obtain ⟨hsp,hout⟩ := h.next_char (hv x List.mem_cons_self) hs hi ht
      obtain ⟨hti,hts,htb,htt⟩ := outside_eq.mp hout
      obtain hstuck | ⟨k,u,hu,hspu,hrest⟩ :=
        ih (fun y hy => hv y (List.mem_cons_of_mem _ hy)) hsp hts hti
      · exact .inl (hstuck.of_run (runSteps_one (step_ok ht)))
      · refine .inr ⟨k+1,u,(runSteps_succ (step_ok ht)).trans hu,?_,?_⟩
        · rw [Nat.add_assoc,Nat.add_comm 1] at hspu
          exact hspu
        · rw [hrest,htb,htt]

end Body

section Closing
variable {M : Memory} {s t : Scanner} {rest d : List Char}

/-- The data of a token for an identifier or a string is a copy of the text. -/
theorem getSymbolData_copy {k : Symbol} (hk : k = .TK_ID ∨ k = .TK_STRING) {block : List Char}
    (h : cString block = some d) : ∃ b, cString b = some d ∧
      getSymbolData M k block s = .ok (.c b,{ s with copied := s.copied+1 }) := by
  obtain ⟨hn,-⟩ := cString_eq h
  obtain ⟨junk,hw⟩ : ∃ junk, writeAt (malloc (M.copied s.copied) (d.length+1)) 0 d =
      .ok (d++NUL::junk) := by
    rw [writeAt,if_pos (by rw [length_malloc]; omega)]
    exact ⟨_,rfl⟩
  refine ⟨d++NUL::junk,cString_text hn,?_⟩
  obtain rfl | rfl := hk
  all_goals
    rw [getSymbolData,h]
    change (writeAt _ _ _).bind _ = _
    rw [hw]
    rfl

/-- What a literal leaves: the token of its string, and the rules as they were before. -/
def Scanned (s t : Scanner) (rest string : List Char) : Prop :=
  t.input = rest ∧ t.start = .INITIAL ∧ t.begun = s.begun+1 ∧
    stringData t.tokens = stringData s.tokens++[some string]

theorem next_beginString (hs : s.start = .INITIAL) (hi : s.input = '\"' :: rest) :
    ∃ t, next M s = .ok t ∧ t.outside = (rest,.STRING,s.begun+1,s.tokens) ∧
      (M.begun s.begun 0 = NUL → Holds t []) ∧ (M.begun s.begun 0 ≠ NUL → Spoiled t 0) := by
  refine ⟨{ beginBuffer M { s with input := rest } with start := .STRING },
    next_eq hs hi lex_beginString,outside_eq.mpr ⟨rfl,rfl,rfl,rfl⟩,fun h => ?_,fun h => ?_⟩
  · exact (holds_beginBuffer (s := { s with input := rest }) h).of_start rest .STRING
  · exact (spoiled_beginBuffer (s := { s with input := rest }) h).of_start rest .STRING

theorem next_endString (hs : s.start = .STRING) (hi : s.input = '\"' :: rest) :
    next M s = addToBuffer M [] { s with input := rest, start := .INITIAL } >>=
      fun t => addSymbol M .TK_STRING t.stringBuffer t :=
  next_eq hs hi lex_endString

/-- The text that the buffer then holds is the token's string. -/
theorem next_endString_ok (hs : s.start = .STRING) (hi : s.input = '\"' :: rest)
    (ht : addToBuffer M [] { s with input := rest, start := .INITIAL } = .ok t)
    (hout : t.outside = (rest,.INITIAL,s.begun,s.tokens)) (h : cString t.stringBuffer = some d) :
    ∃ u, next M s = .ok u ∧ u.outside = (rest,.INITIAL,s.begun,u.tokens) ∧
      stringData u.tokens = stringData s.tokens++[some d] := by
  obtain ⟨b,hb,hdata⟩ := getSymbolData_copy (M := M) (s := t) (.inr rfl) h
  obtain ⟨hi',hs',hb',ht'⟩ := outside_eq.mp hout
  refine ⟨{ t with
    copied := t.copied+1
    tokens := t.tokens++[⟨.TK_STRING,.c b,t.curLine⟩] },?_,?_,?_⟩
  · rw [next_endString hs hi,ht]
    change addSymbol M .TK_STRING t.stringBuffer t = _
    rw [addSymbol,hdata]
    rfl
  · exact outside_eq.mpr ⟨hi',hs',hb',rfl⟩
  · rw [stringData_append,ht',← hb]
    rfl

variable {body : List StrChar}

/-- The condition on a literal: the block begins with a terminator, and its size is an `int`. -/
def Meets (M : Memory) (k : ℕ) (body : List StrChar) : Prop :=
  M.begun k 0 = NUL ∧ body.length+1024 < 2^31

theorem run_literal (hv : ∀ x ∈ body, x.Valid) (hm : Meets M s.begun body)
    (hs : s.start = .INITIAL) (hi : s.input = literal body++rest) :
    ∃ k t, runSteps (step M) k s = some t ∧ Scanned s t rest (decoded body) := by
  rw [literal,List.cons_append,List.cons_append,List.append_assoc] at hi
  obtain ⟨t,ht,hout,hholds,-⟩ := next_beginString (M := M) hs hi
  obtain ⟨hti,hts,htb,htt⟩ := outside_eq.mp hout
  obtain ⟨k,u,hu,hd,hout⟩ := run_body (M := M) hv (hholds hm.1) hts hti
    (by rw [List.length_nil,Nat.zero_add]; exact hm.2)
  obtain ⟨hui,hus,hub,hut⟩ := outside_eq.mp hout
  obtain ⟨v,hv,hout,hdv⟩ := (hd.of_start rest .INITIAL).addToBuffer (M := M)
    (Nat.zero_le _) List.not_mem_nil hd.fits
  rw [List.append_nil] at hdv
  obtain ⟨w,hw,hout,hstr⟩ := next_endString_ok hus hui hv hout hdv.text
  obtain ⟨hwi,hws,hwb,-⟩ := outside_eq.mp hout
  refine ⟨1+(k+1),w,?_,hwi,hws,?_,?_⟩
  · rw [runSteps_add (runSteps_one (step_ok ht)),runSteps_add hu]
    exact runSteps_one (step_ok hw)
  · rw [hwb,hub,htb]
  · rw [hstr,hut,htt]
    rfl

/-- Without the condition, the run stops inside the literal or its token has another string. -/
theorem run_literal_of_not_meets (hv : ∀ x ∈ body, x.Valid) (hm : ¬ Meets M s.begun body)
    (hs : s.start = .INITIAL) (hi : s.input = literal body++rest) :
    Stuck M s ∨ ∃ k t string, runSteps (step M) k s = some t ∧ Scanned s t rest string ∧
      string ≠ decoded body := by
  rw [literal,List.cons_append,List.cons_append,List.append_assoc] at hi
  obtain ⟨t,ht,hout,hholds,hspoiled⟩ := next_beginString (M := M) hs hi
  obtain ⟨hti,hts,htb,htt⟩ := outside_eq.mp hout
  have hrun := runSteps_one (step_ok ht)
  by_cases h0 : M.begun s.begun 0 = NUL
  · have hlong : 2^31 ≤ ([] : List Char).length+body.length+1024 := by
      by_contra hlt
      rw [List.length_nil,Nat.zero_add] at hlt
      exact hm ⟨h0,by omega⟩
    exact .inl ((stuck_body hv (hholds h0) hts hti hlong).of_run hrun)
  obtain hstuck | ⟨k,u,hu,hsp,hout⟩ := spoiled_body (M := M) hv (hspoiled h0) hts hti
  · exact .inl (hstuck.of_run hrun)
  obtain ⟨hui,hus,hub,hut⟩ := outside_eq.mp hout
  change u.input = '\"' :: rest at hui
  have hrun' := (runSteps_add hrun).trans hu
  have hend := next_endString (M := M) hus hui
  have hstop {e : Stop} (he : next M u = .error e) : Stuck M s :=
    Stuck.of_run hrun' (stuck_of_error he (hui ▸ List.cons_ne_nil _ _))
  cases hv : addToBuffer M [] { u with input := rest, start := .INITIAL } with
  | error e =>
    rw [hv] at hend
    exact .inl (hstop hend)
  | ok v =>
    obtain ⟨hout,hspv⟩ := (hsp.of_start rest .INITIAL).addToBuffer (Nat.zero_le _) List.not_mem_nil hv
    cases hc : cString v.stringBuffer with
    | none =>
      have herr : addSymbol M .TK_STRING v.stringBuffer v = .error .undefined := by
        rw [addSymbol,getSymbolData,hc]
        rfl
      rw [hv] at hend
      exact .inl (hstop (hend.trans herr))
    | some string =>
      obtain ⟨w,hw,hout,hstr⟩ := next_endString_ok hus hui hv hout hc
      obtain ⟨hwi,hws,hwb,-⟩ := outside_eq.mp hout
      refine .inr ⟨1+k+1,w,string,?_,⟨hwi,hws,?_,?_⟩,?_⟩
      · rw [runSteps_add hrun']
        exact runSteps_one (step_ok hw)
      · rw [hwb,hub,htb]
      · rw [hstr,hut,htt]
      · rintro rfl
        have hlt := hspv.text _ hc
        rw [decoded,List.length_map,List.length_nil,Nat.zero_add,Nat.add_zero] at hlt
        exact lt_irrefl _ hlt

end Closing

end PucRio.Monga.Lexer
