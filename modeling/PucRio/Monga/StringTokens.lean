import PucRio.Lib.PartialRun
import PucRio.Monga.StringLiterals

/-! Whole sources: literals, comments and other text between them, which has neither a quote nor the
beginning of a comment. No rule matches across the border of two pieces. -/
namespace PucRio.Monga.Lexer
open Flex Flex.Pattern

inductive Piece
  | string (body : List StrChar)
  | comment (text : List Char)
  | other (text : List Char)
  deriving DecidableEq, Repr

namespace Piece

def text : Piece → List Char
  | string body => literal body
  | comment text => ['/','*']++text++['*','/']
  | other text => text

def Valid : Piece → Prop
  | string body => ∀ x ∈ body, x.Valid
  | comment text => ¬ ['*','/'] <:+: text
  | other text => '\"' ∉ text ∧ ¬ ['/','*'] <:+: text

def body : Piece → Option (List StrChar)
  | string body => some body
  | _ => none

def isOther : Piece → Bool
  | other _ => true
  | _ => false

end Piece

/-- Other text is taken whole, so that two stretches of it do not meet. -/
def ValidSource (source : List Piece) : Prop :=
  (∀ p ∈ source, p.Valid) ∧ source.IsChain fun p q => (p.isOther && q.isOther) = false

def sourceText (source : List Piece) : List Char := source.flatMap Piece.text

/-- The bodies of the literals. -/
def literals (source : List Piece) : List (List StrChar) := source.filterMap Piece.body

section Gaps
variable {M : Memory} {s : Scanner}

/-- A piece that is no literal is passed over. -/
def Passed (s t : Scanner) (rest : List Char) : Prop :=
  t.input = rest ∧ t.start = .INITIAL ∧ t.begun = s.begun ∧ stringData t.tokens = stringData s.tokens

/-- What the rules between literals and comments do. -/
def Rule.isGap : Rule → Bool
  | newline | ignore | single => true
  | symbol k => k != .TK_STRING
  | _ => false

theorem initialRules_cases : ∀ x ∈ initialRules,
    x.2.isGap = true ∧ (x.1.isOne = true ∨ x.1.uses '\"' = false ∧ x.1.uses '/' = false) ∨
      x = (word ['/','*'],.beginComment) ∨ x = (word ['\"'],.beginString) := by
  intro x hx
  simp only [initialRules,List.mem_cons,List.not_mem_nil,or_false] at hx
  rcases hx with rfl | rfl | hx
  · exact .inr (.inl rfl)
  · exact .inr (.inr rfl)
  · left
    rcases hx with rfl | rfl | rfl | rfl | rfl | rfl | rfl | rfl | rfl | rfl | rfl | rfl | rfl |
      rfl | rfl | rfl | rfl | rfl | rfl | rfl | rfl | rfl
    all_goals exact ⟨by decide,by decide⟩

theorem cString_yytext (w : List Char) : cString (w++[NUL]) = some ((w++[NUL]).takeWhile (· != NUL)) :=
  if_pos (by simp)

theorem exists_getSymbolData {k : Symbol} {data d : List Char} (hd : cString data = some d) :
    ∃ x, getSymbolData M k data s = .ok x ∧ x.2.outside = s.outside := by
  by_cases hk : k = .TK_ID ∨ k = .TK_STRING
  · obtain ⟨b,-,h⟩ := getSymbolData_copy (M := M) (s := s) hk hd
    exact ⟨_,h,rfl⟩
  · cases k with
    | TK_ID => exact absurd (.inl rfl) hk
    | TK_STRING => exact absurd (.inr rfl) hk
    | _ => exact ⟨(_,s),rfl,rfl⟩

theorem addSymbol_other {k : Symbol} (hk : k ≠ .TK_STRING) {data d : List Char}
    (hd : cString data = some d) (hs : s.start = .INITIAL) :
    ∃ t, addSymbol M k data s = .ok t ∧ Passed s t s.input := by
  obtain ⟨x,hx,hout⟩ := exists_getSymbolData (M := M) (s := s) (k := k) hd
  obtain ⟨hi,hst,hb,ht⟩ := outside_eq.mp hout
  refine ⟨{ x.2 with tokens := x.2.tokens++[⟨k,x.1,x.2.curLine⟩] },?_,hi,hst.trans hs,hb,?_⟩
  · rw [addSymbol,hx]
    rfl
  · have hnil : stringData [⟨k,x.1,x.2.curLine⟩] = [] := by
      rw [stringData,List.filter_cons,decide_eq_false hk]
      rfl
    rw [stringData_append,ht,hnil,List.append_nil]

/-- A rule between literals and comments goes on behind its match. -/
theorem action_gap {r : Rule} (hr : r.isGap = true) (w : List Char) (hs : s.start = .INITIAL) :
    ∃ t, action M w s r = .ok t ∧ Passed s t s.input := by
  cases r with
  | newline => exact ⟨_,rfl,rfl,hs,rfl,rfl⟩
  | ignore => exact ⟨_,rfl,rfl,hs,rfl,rfl⟩
  | single => exact addSymbol_other Symbol.noConfusion (cString_yytext w) hs
  | symbol k => exact addSymbol_other (bne_iff_ne.mp hr) (cString_yytext w) hs
  | _ => cases hr

/-- What may follow other text. -/
def Border : List Char → Prop
  | [] => True
  | '\"' :: _ => True
  | '/' :: '*' :: _ => True
  | _ => False

theorem Border.head {d : Char} {a : List Char} (h : Border (d::a)) : d = '\"' ∨ d = '/' := by
  unfold Border at h
  split at h
  · contradiction
  · exact .inl (by simp_all)
  · exact .inr (by simp_all)
  · exact h.elim

theorem lex_other {c : Char} {p tail : List Char} (hq : '\"' ∉ c::p)
    (hc : ¬ ['/','*'] <:+: c::p) (htail : Border tail) :
    ∃ r w q, r.isGap = true ∧ w ≠ [] ∧ c::p = w++q ∧
      lex initialRules (c::p++tail) = some (r,w,q++tail) := by
  obtain ⟨P₀,r₀,hP₀,hw₀⟩ : ∃ P r, (P,r) ∈ initialRules ∧ P.Matches [c] := by
    by_cases hn : c = '\n'
    · exact ⟨word ['\n'],.newline,by simp [initialRules],c,rfl,beq_iff_eq.mpr hn⟩
    · exact ⟨one dot,.single,by simp [initialRules],c,rfl,bne_iff_ne.mpr hn⟩
  obtain ⟨⟨r,w,t⟩,hlex⟩ := exists_lex hP₀ (List.singleton_append (l := p++tail)).symm hw₀
  have hlong := lex_longest hlex hP₀ (List.singleton_append (l := p++tail)).symm hw₀
  obtain ⟨P,hP,heq,hw⟩ := lex_matches hlex
  have hne : w ≠ [] := List.length_pos_iff.mp hlong
  have hwc : ∃ v, w = c::v := by
    cases w with
    | nil => exact absurd rfl hne
    | cons d v => exact ⟨v,by rw [List.head_eq_of_cons_eq heq]⟩
  obtain ⟨v,rfl⟩ := hwc
  obtain ⟨hgap,huses⟩ | hP | hP := initialRules_cases _ hP
  · obtain ⟨q,hq',rfl⟩ | ⟨a,hwa,rfl⟩ :=
      List.append_eq_append_iff.mp (show (c::v)++t = (c::p)++tail from heq.symm)
    · exact ⟨r,c::v,q,hgap,hne,hq',hlex⟩
    · cases a with
      | nil => exact ⟨r,c::v,[],hgap,hne,by rw [hwa,List.append_nil,List.append_nil],hlex⟩
      | cons d a =>
        -- a match that goes on behind the text has the character there
        have hd : d ∈ c::v := hwa ▸ List.mem_append_right _ List.mem_cons_self
        rcases huses with hone | ⟨hquote,hslash⟩
        · obtain ⟨x,hx⟩ := hw.of_isOne hone
          have hlen := congrArg List.length (hx.symm.trans hwa)
          simp at hlen
        · have hused := hw.uses hd
          obtain rfl | rfl : d = '\"' ∨ d = '/' := htail.head
          · exact Bool.noConfusion (hquote.symm.trans hused)
          · exact Bool.noConfusion (hslash.symm.trans hused)
  · obtain ⟨rfl,rfl⟩ := Prod.mk.inj hP
    obtain ⟨rfl,rfl⟩ := List.cons.inj (matches_word.mp hw)
    cases p with
    | nil =>
      obtain rfl : tail = '*' :: t := (List.cons.inj heq).2
      exact htail.elim
    | cons d p =>
      obtain rfl : d = '*' := List.head_eq_of_cons_eq (List.cons.inj heq).2
      exact absurd (List.prefix_append ['/','*'] p).isInfix hc
  · obtain ⟨rfl,rfl⟩ := Prod.mk.inj hP
    obtain ⟨rfl,-⟩ := List.cons.inj (matches_word.mp hw)
    exact absurd List.mem_cons_self hq

theorem run_other {p tail : List Char} (hq : '\"' ∉ p) (hc : ¬ ['/','*'] <:+: p)
    (htail : Border tail) (hs : s.start = .INITIAL) (hi : s.input = p++tail) :
    ∃ k t, runSteps (step M) k s = some t ∧ Passed s t tail := by
  induction hn : p.length using Nat.strong_induction_on generalizing s p with
  | _ n ih =>
    cases p with
    | nil => exact ⟨0,s,rfl,hi,hs,rfl,rfl⟩
    | cons c p =>
      obtain ⟨r,w,q,hr,hw,hp,hlex⟩ := lex_other hq hc htail
      obtain ⟨t,ht,hti,hts,htb,htd⟩ := action_gap (M := M) (s := { s with input := q++tail }) hr w hs
      have hstep : next M s = .ok t := (next_eq hs hi hlex).trans ht
      have hlen : q.length < n := by
        have := congrArg List.length hp
        rw [List.length_append] at this
        have := List.length_pos_iff.mpr hw
        omega
      obtain ⟨k,u,hu,hui,hus,hub,hud⟩ := ih q.length hlen (p := q)
        (fun hm => hq (hp ▸ List.mem_append_right w hm))
        (fun hm => hc (hp ▸ hm.trans (List.suffix_append w q).isInfix)) hts hti rfl
      exact ⟨k+1,u,(runSteps_succ (step_ok hstep)).trans hu,hui,hus,hub.trans htb,hud.trans htd⟩

theorem lex_comment {c : Char} {cs : List Char} (h : ¬ ['*','/'] <+: c::cs) :
    ∃ r, (r = .newline ∨ r = .ignore) ∧ lex commentRules (c::cs) = some (r,[c],cs) := by
  by_cases hn : c = '\n'
  · subst hn
    exact ⟨.newline,.inl rfl,rfl⟩
  · refine ⟨.ignore,.inr rfl,?_⟩
    have hword : (word ['*','/']).splits (c::cs) = [] := by
      apply List.eq_nil_iff_forall_not_mem.mpr
      intro x hx
      obtain ⟨hcs,hw⟩ := mem_splits.mp hx
      rw [hcs,matches_word.mp hw] at h
      exact h (List.prefix_append _ _)
    rw [lex,candidates,commentRules,List.flatMap_cons,hword]
    simp [word,splits,splitsOne,dot,hn]

theorem run_comment {p rest : List Char} (hp : ¬ ['*','/'] <:+: p) (hs : s.start = .COMMENT)
    (hi : s.input = p++(['*','/']++rest)) :
    ∃ k t, runSteps (step M) k s = some t ∧ Passed s t rest := by
  induction p generalizing s with
  | nil =>
    have h : next M s = .ok { s with input := rest, start := .INITIAL } := next_eq hs hi rfl
    exact ⟨1,_,runSteps_one (step_ok h),rfl,rfl,rfl,rfl⟩
  | cons c p ih =>
    have hpre : ¬ ['*','/'] <+: c::(p++(['*','/']++rest)) := by
      rintro ⟨l,hl⟩
      obtain ⟨rfl,hl'⟩ := List.cons.inj hl
      cases p with
      | nil => exact absurd (List.head_eq_of_cons_eq hl') (by decide)
      | cons d p =>
        obtain rfl : '/' = d := List.head_eq_of_cons_eq hl'
        exact hp (List.prefix_append ['*','/'] p).isInfix
    obtain ⟨r,hr,hlex⟩ := lex_comment hpre
    have hinfix : ¬ ['*','/'] <:+: p := fun h => hp (h.trans (List.suffix_cons c p).isInfix)
    obtain ⟨t,ht,hout⟩ : ∃ t, next M s = .ok t ∧
        t.outside = (p++(['*','/']++rest),.COMMENT,s.begun,s.tokens) := by
      rw [next_eq hs hi hlex]
      obtain rfl | rfl := hr
      · exact ⟨_,rfl,outside_eq.mpr ⟨rfl,hs,rfl,rfl⟩⟩
      · exact ⟨_,rfl,outside_eq.mpr ⟨rfl,hs,rfl,rfl⟩⟩
    obtain ⟨hti,hts,htb,htt⟩ := outside_eq.mp hout
    obtain ⟨k,u,hu,hui,hus,hub,hud⟩ := ih hinfix hts hti
    refine ⟨k+1,u,(runSteps_succ (step_ok ht)).trans hu,hui,hus,hub.trans htb,?_⟩
    rw [hud,htt]

end Gaps

section Steps
variable {M : Memory} {s t u : Scanner}

/-- Tokens stay, and the block of the buffer has `strBufLen` bytes as before. -/
structure Goes (s t : Scanner) : Prop where
  tokens : s.tokens <+: t.tokens
  size : s.stringBuffer.length = s.strBufLen → t.stringBuffer.length = t.strBufLen

theorem Goes.refl (s : Scanner) : Goes s s := ⟨List.prefix_rfl,id⟩

theorem Goes.trans (h : Goes s t) (h' : Goes t u) : Goes s u :=
  ⟨h.tokens.trans h'.tokens,fun hs => h'.size (h.size hs)⟩

theorem increaseBuffer_goes (h : increaseBuffer M s = .ok t) : Goes s t := by
  rw [increaseBuffer] at h
  split at h
  · obtain rfl := Except.ok.inj h
    exact ⟨List.prefix_rfl,fun hs => length_realloc (by omega)⟩
  · cases h

theorem length_strcat {block text b : List Char} (h : strcat block text = .ok b) :
    b.length = block.length := by
  rw [strcat] at h
  cases hc : cString block with
  | none =>
    rw [hc] at h
    cases h
  | some d =>
    rw [hc] at h
    exact (length_writeAt h).2

theorem addToBuffer_goes {text : List Char} (h : addToBuffer M text s = .ok t) : Goes s t := by
  have hcat {u : Scanner} {b : List Char} (hb : strcat u.stringBuffer text = .ok b) :
      Goes u { u with stringBuffer := b, strBufCount := u.strBufCount+text.length } :=
    ⟨List.prefix_rfl,fun hs => (length_strcat hb).trans hs⟩
  rw [addToBuffer] at h
  split at h
  · obtain ⟨u,hu,h⟩ := ok_of_bind h
    obtain ⟨b,hb,h⟩ := ok_of_bind h
    obtain rfl := Except.ok.inj h
    exact (increaseBuffer_goes hu).trans (hcat hb)
  · obtain ⟨u,hu,h⟩ := ok_of_bind h
    obtain rfl := Except.ok.inj hu
    obtain ⟨b,hb,h⟩ := ok_of_bind h
    obtain rfl := Except.ok.inj h
    exact hcat hb

theorem getSymbolData_goes {k : Symbol} {data : List Char} {x : Data × Scanner}
    (h : getSymbolData M k data s = .ok x) : Goes s x.2 := by
  by_cases hk : k = .TK_ID ∨ k = .TK_STRING
  · cases hd : cString data with
    | none =>
      have herr : getSymbolData M k data s = .error .undefined := by
        obtain rfl | rfl := hk
        all_goals
          rw [getSymbolData,hd]
          rfl
      cases herr.symm.trans h
    | some d =>
      obtain ⟨b,-,hcopy⟩ := getSymbolData_copy (M := M) (s := s) hk hd
      obtain rfl := Except.ok.inj (hcopy.symm.trans h)
      exact ⟨List.prefix_rfl,id⟩
  · cases k with
    | TK_ID => exact absurd (.inl rfl) hk
    | TK_STRING => exact absurd (.inr rfl) hk
    | _ =>
      obtain rfl := Except.ok.inj h
      exact Goes.refl s

theorem addSymbol_goes {k : Symbol} {data : List Char} (h : addSymbol M k data s = .ok t) :
    Goes s t := by
  obtain ⟨x,hx,h⟩ := ok_of_bind h
  obtain rfl := Except.ok.inj h
  exact (getSymbolData_goes hx).trans ⟨List.prefix_append _ _,id⟩

theorem action_goes {r : Rule} {w : List Char} (h : action M w s r = .ok t) : Goes s t := by
  cases r with
  | beginString =>
    rw [action,beginBuffer] at h
    obtain rfl := Except.ok.inj h
    exact ⟨List.prefix_rfl,fun _ => length_malloc⟩
  | nonClosedString => cases h
  | invalidEscape => cases h
  | addText text => exact addToBuffer_goes h
  | addYytext => exact addToBuffer_goes h
  | endString =>
    rw [action] at h
    obtain ⟨u,hu,h⟩ := ok_of_bind h
    have hgoes := (addToBuffer_goes hu).trans (addSymbol_goes h)
    exact ⟨hgoes.tokens,hgoes.size⟩
  | symbol k => exact addSymbol_goes h
  | single => exact addSymbol_goes h
  | _ =>
    obtain rfl := Except.ok.inj h
    exact ⟨List.prefix_rfl,id⟩

/-- One match. -/
theorem step_goes (h : step M s = some t) : Goes s t := by
  rw [step] at h
  cases hn : next M s with
  | error e =>
    rw [hn] at h
    cases h
  | ok u =>
    rw [hn] at h
    obtain rfl := Option.some.inj h
    rw [next] at hn
    split at hn
    · cases hn
    · rename_i c cs hi
      cases hlex : lex (rules s.start) (c::cs) with
      | none =>
        rw [hlex] at hn
        obtain rfl := Except.ok.inj hn
        exact ⟨List.prefix_rfl,id⟩
      | some x =>
        rw [hlex] at hn
        have hgoes := action_goes hn
        exact ⟨hgoes.tokens,hgoes.size⟩

theorem run_goes {k : ℕ} (h : runSteps (step M) k s = some t) : Goes s t := by
  induction k generalizing s with
  | zero =>
    obtain rfl := Option.some.inj h
    exact Goes.refl s
  | succ k ih =>
    obtain ⟨u,hu,ht⟩ := Option.bind_eq_some_iff.mp h
    exact (step_goes hu).trans (ih ht)

/-- So the bytes that `strcat` may write are the first `strBufLen` of the buffer. -/
theorem length_stringBuffer {k : ℕ} {text : List Char}
    (h : runSteps (step M) k (.init text) = some t) : t.stringBuffer.length = t.strBufLen :=
  (run_goes h).size rfl

theorem run_stringData {k : ℕ} (h : runSteps (step M) k s = some t) :
    ∃ l, stringData t.tokens = stringData s.tokens++l := by
  obtain ⟨l,hl⟩ := (run_goes h).tokens
  exact ⟨stringData l,by rw [← hl,stringData_append]⟩

end Steps

section Sources
variable {M : Memory} {s t : Scanner} {l l₁ : List (Option (List Char))} {source : List Piece}

/-- The run comes to the end of the text, and these are the strings of its tokens. -/
def Ends (M : Memory) (s : Scanner) (l : List (Option (List Char))) : Prop :=
  ∃ k t, runSteps (step M) k s = some t ∧ t.input = [] ∧ t.start = .INITIAL ∧
    stringData t.tokens = stringData s.tokens++l

theorem step_end (h : t.input = []) : step M t = none := by
  rw [step,next,h]
  rfl

theorem ends_of_run {k : ℕ} (h : runSteps (step M) k s = some t)
    (ht : stringData t.tokens = stringData s.tokens++l₁) : Ends M s (l₁++l) ↔ Ends M t l := by
  rw [Ends,Ends,ht]
  simp only [List.append_assoc]
  constructor
  · rintro ⟨n,u,hu,hi,hs,hd⟩
    obtain ⟨j,-,hj⟩ := runSteps_suffix h hu (step_end hi)
    exact ⟨j,u,hj,hi,hs,hd⟩
  · rintro ⟨n,u,hu,hi,hs,hd⟩
    exact ⟨k+n,u,(runSteps_add h).trans hu,hi,hs,hd⟩

theorem Stuck.not_ends (h : Stuck M s) : ¬ Ends M s l := by
  rintro ⟨n,u,hu,hi,-,-⟩
  obtain ⟨k,t,ht,hstop,hne⟩ := h
  exact hne (runSteps_stop_unique ht hstop hu (step_end hi) ▸ hi)

/-- A string once taken stays what it is. -/
theorem not_ends_of_ne {k : ℕ} {a b : List Char} (h : runSteps (step M) k s = some t)
    (ht : stringData t.tokens = stringData s.tokens++[some a]) (hne : a ≠ b) :
    ¬ Ends M s (some b::l) := by
  rintro ⟨n,u,hu,hi,-,hd⟩
  obtain ⟨j,-,hj⟩ := runSteps_suffix h hu (step_end hi)
  obtain ⟨l',hl'⟩ := run_stringData hj
  rw [hl',ht,List.append_assoc] at hd
  exact hne (Option.some.inj (List.head_eq_of_cons_eq (List.append_cancel_left hd)))

theorem border_sourceText {p : Piece} (h : ValidSource (p::source)) (hp : p.isOther = true) :
    Border (sourceText source) := by
  cases source with
  | nil => trivial
  | cons q source =>
    have hq := (List.isChain_cons_cons.mp h.2).1
    rw [hp,Bool.true_and] at hq
    cases q with
    | string body => trivial
    | comment text => trivial
    | other text => cases hq

theorem ValidSource.tail {p : Piece} (h : ValidSource (p::source)) : ValidSource source :=
  ⟨fun q hq => h.1 q (List.mem_cons_of_mem p hq),h.2.of_cons⟩

theorem run_piece {p : Piece} (h : ValidSource (p::source)) (hp : p.body = none)
    (hs : s.start = .INITIAL) (hi : s.input = sourceText (p::source)) :
    ∃ k t, runSteps (step M) k s = some t ∧ Passed s t (sourceText source) := by
  have hv := h.1 p List.mem_cons_self
  rw [sourceText,List.flatMap_cons] at hi
  cases p with
  | string body => cases hp
  | other text => exact run_other hv.1 hv.2 (border_sourceText h rfl) hs hi
  | comment text =>
    rw [Piece.text,List.append_assoc,List.append_assoc] at hi
    have hopen : next M s = .ok { s with
        input := text++(['*','/']++sourceText source), start := .COMMENT } := next_eq hs hi rfl
    obtain ⟨k,t,ht,hpassed⟩ := run_comment (M := M) (s := { s with
      input := text++(['*','/']++sourceText source), start := .COMMENT }) hv rfl rfl
    exact ⟨k+1,t,(runSteps_succ (step_ok hopen)).trans ht,hpassed⟩

/-- The strings that the literals of a source stand for. -/
def strings (source : List Piece) : List (Option (List Char)) :=
  (literals source).map fun body => some (decoded body)

theorem ends_iff (h : ValidSource source) (hs : s.start = .INITIAL)
    (hi : s.input = sourceText source) :
    Ends M s (strings source) ↔
      ∀ i body, (literals source)[i]? = some body → Meets M (s.begun+i) body := by
  induction source generalizing s with
  | nil =>
    refine iff_of_true ⟨0,s,rfl,hi,hs,(List.append_nil _).symm⟩ fun i body hb => ?_
    cases hb
  | cons p source ih =>
    cases hp : p.body with
    | none =>
      have hlit : literals (p::source) = literals source := by
        rw [literals,List.filterMap_cons,hp]
        rfl
      obtain ⟨k,t,ht,hti,hts,htb,htd⟩ := run_piece (M := M) h hp hs hi
      have hends := ends_of_run (l := strings source) ht (htd.trans (List.append_nil _).symm)
      rw [List.nil_append] at hends
      rw [strings,hlit,← htb]
      exact hends.trans (ih h.tail hts hti)
    | some body =>
      have hlit : literals (p::source) = body::literals source := by
        rw [literals,List.filterMap_cons,hp]
        rfl
      have hv : ∀ x ∈ body, x.Valid := by
        have hv := h.1 p List.mem_cons_self
        cases p with
        | string body' =>
          obtain rfl := Option.some.inj hp
          exact hv
        | comment text => cases hp
        | other text => cases hp
      have hi' : s.input = literal body++sourceText source := by
        rw [hi,sourceText,List.flatMap_cons]
        cases p with
        | string body' =>
          obtain rfl := Option.some.inj hp
          rfl
        | comment text => cases hp
        | other text => cases hp
      rw [strings,hlit,List.map_cons]
      by_cases hm : Meets M s.begun body
      · obtain ⟨k,t,ht,hti,hts,htb,htd⟩ := run_literal hv hm hs hi'
        have hends := ends_of_run (l := strings source) ht htd
        refine (hends.trans (ih h.tail hts hti)).trans ?_
        rw [htb]
        constructor
        · intro hall i
          cases i with
          | zero =>
            intro b hb
            obtain rfl := Option.some.inj hb
            exact hm
          | succ i =>
            intro b hb
            have := hall i b hb
            rwa [Nat.add_assoc,Nat.add_comm 1] at this
        · intro hall i b hb
          have := hall (i+1) b hb
          rwa [Nat.add_comm i,← Nat.add_assoc] at this
      · refine iff_of_false ?_ fun hall => hm (hall 0 body rfl)
        obtain hstuck | ⟨k,t,string,ht,hscan,hne⟩ := run_literal_of_not_meets hv hm hs hi'
        · exact hstuck.not_ends
        · exact not_ends_of_ne ht hscan.2.2.2 hne

end Sources

section Decoding

/-- The scanner comes to the end of the source, each token of a string literal having the string that
the literal stands for. A write beyond the `strBufLen` bytes of the buffer would stop it. -/
def Decodes (M : Memory) (source : List Piece) : Prop :=
  ∃ k t, runSteps (step M) k (.init (sourceText source)) = some t ∧ t.input = [] ∧
    t.start = .INITIAL ∧ stringData t.tokens = strings source

/-- Each literal needs a block that begins with a terminator: `beginBuffer` does not write one. -/
theorem decodes_iff (M : Memory) (source : List Piece) (h : ValidSource source) :
    Decodes M source ↔ ∀ i body, (literals source)[i]? = some body →
      M.begun i 0 = NUL ∧ body.length+1024 < 2^31 := by
  have hends := ends_iff (M := M) (s := .init (sourceText source)) h rfl rfl
  refine Iff.trans ?_ (hends.trans ?_)
  · rfl
  · simp only [Scanner.init,Nat.zero_add]
    rfl

/-- Two literals, with a comment that has a quote and some code before them. -/
def exampleSource : List Piece :=
  [.other ['x','='],.string [.plain 'a',.newline,.quote],.comment ['\"'],.other ['/'],.string []]

/-- Blocks with a terminator and nothing else of use. -/
def terminated : Memory := ⟨fun _ i => if i = 0 then NUL else 'x',fun _ _ => 'x',fun _ _ => 'x'⟩

theorem decodes_exampleSource : Decodes terminated exampleSource := by
  refine (decodes_iff terminated exampleSource ⟨?_,by decide⟩).mpr fun i body hb => ⟨rfl,?_⟩
  · simp only [exampleSource,List.forall_mem_cons,Piece.Valid]
    refine ⟨by decide,by decide,by decide,by decide,by decide,List.forall_mem_nil _⟩
  · have hmem := List.mem_of_getElem? hb
    have hlen : ∀ body ∈ literals exampleSource, body.length ≤ 3 := by decide
    have := hlen body hmem
    omega

/-- A block that does not begin with a terminator: its bytes come before the literal's. -/
def dirty : Memory := ⟨fun _ i => if i = 0 then 'x' else NUL,fun _ _ => NUL,fun _ _ => NUL⟩

theorem not_decodes_dirty :
    (runSteps (step dirty) 3 (.init (literal [.plain 'a']))).map (fun t => stringData t.tokens) =
      some [some ['x','a']] ∧
    ValidSource [.string [.plain 'a']] ∧ ¬ Decodes dirty [.string [.plain 'a']] := by
  have hvalid : ValidSource [.string [.plain 'a']] := by
    refine ⟨?_,by decide⟩
    simp only [List.forall_mem_cons,Piece.Valid]
    exact ⟨by decide,List.forall_mem_nil _⟩
  refine ⟨by decide +kernel,hvalid,fun h => ?_⟩
  have hmeets := (ends_iff hvalid rfl rfl).mp h 0 [.plain 'a'] rfl
  exact absurd hmeets.1 (by decide)

end Decoding

end PucRio.Monga.Lexer
