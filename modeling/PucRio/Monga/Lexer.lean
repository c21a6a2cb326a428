import PucRio.Lib.Flex
import PucRio.Lib.PartialRun
import Mathlib.Data.Nat.Digits.Defs

/-! The scanner of Monga: its rules, and the buffer in which the text of a string is collected. What
is in a block of memory before it is written is a parameter; requests for memory succeed. -/
namespace PucRio.Monga.Lexer
open Flex Flex.Pattern

inductive Symbol
  | TK_EQ | TK_LE | TK_GE | TK_AND | TK_OR
  | TK_IF | TK_ELSE | TK_CHAR | TK_FLOAT | TK_INT | TK_NEW | TK_RETURN | TK_VOID | TK_WHILE
  | TK_LONG_NUMBER | TK_DOUBLE_NUMBER | TK_ID | TK_STRING
  | single (c : Char)
  deriving DecidableEq, Repr

/-- The start conditions. -/
inductive Start
  | INITIAL
  | COMMENT
  | STRING
  deriving DecidableEq, Repr

/-- What the rules do. -/
inductive Rule
  | beginComment
  | endComment
  | newline
  | ignore
  | beginString
  | nonClosedString
  | addText (text : List Char)
  | endString
  | invalidEscape
  | addYytext
  | symbol (k : Symbol)
  | single
  deriving DecidableEq, Repr

section Rules

def digit (c : Char) : Bool := '0' ≤ c && c ≤ '9'

def hexDigit (c : Char) : Bool := digit c || 'a' ≤ c && c ≤ 'f' || 'A' ≤ c && c ≤ 'F'

def letter (c : Char) : Bool := 'A' ≤ c && c ≤ 'Z' || 'a' ≤ c && c ≤ 'z' || c == '_'

/-- `.`, which is any character but the end of a line. -/
def dot (c : Char) : Bool := c != '\n'

/-- `0[xX]` -/
def hexMark : Pattern Char := seq (one (· == '0')) (one fun c => c == 'x' || c == 'X')

/-- `([e][+\-]?[0-9]+)?`, for the letters of an exponent. -/
def exponent (e : Char → Bool) : Pattern Char :=
  opt (seq (one e) (seq (opt (one fun c => c == '+' || c == '-')) (many1 digit)))

def initialRules : List (Pattern Char × Rule) :=
  [(word ['/','*'],.beginComment),
    (word ['\"'],.beginString),
    (word ['=','='],.symbol .TK_EQ),
    (word ['<','='],.symbol .TK_LE),
    (word ['>','='],.symbol .TK_GE),
    (word ['&','&'],.symbol .TK_AND),
    (word ['|','|'],.symbol .TK_OR),
    (word ['i','f'],.symbol .TK_IF),
    (word ['e','l','s','e'],.symbol .TK_ELSE),
    (word ['c','h','a','r'],.symbol .TK_CHAR),
    (word ['f','l','o','a','t'],.symbol .TK_FLOAT),
    (word ['i','n','t'],.symbol .TK_INT),
    (word ['n','e','w'],.symbol .TK_NEW),
    (word ['r','e','t','u','r','n'],.symbol .TK_RETURN),
    (word ['v','o','i','d'],.symbol .TK_VOID),
    (word ['w','h','i','l','e'],.symbol .TK_WHILE),
    (seq hexMark (many1 hexDigit),.symbol .TK_LONG_NUMBER),
    (many1 digit,.symbol .TK_LONG_NUMBER),
    (seq (seq hexMark (alt (many1 hexDigit)
        (seq (many1 hexDigit) (seq (one (· == '.')) (many1 hexDigit)))))
      (exponent fun c => c == 'p' || c == 'P'),.symbol .TK_DOUBLE_NUMBER),
    (seq (seq (many1 digit) (seq (one (· == '.')) (many digit)))
      (exponent fun c => c == 'e' || c == 'E'),.symbol .TK_DOUBLE_NUMBER),
    (seq (one letter) (many fun c => letter c || digit c),.symbol .TK_ID),
    (many1 fun c => c == ' ' || c == '\t',.ignore),
    (word ['\n'],.newline),
    (one dot,.single)]

def commentRules : List (Pattern Char × Rule) :=
  [(word ['*','/'],.endComment),
    (word ['\n'],.newline),
    (one dot,.ignore)]

def stringRules : List (Pattern Char × Rule) :=
  [(word ['\n'],.nonClosedString),
    (word ['\\','\"'],.addText ['\"']),
    (word ['\\','n'],.addText ['\n']),
    (word ['\\','t'],.addText ['\t']),
    (word ['\\','\\'],.addText ['\\']),
    (word ['\"'],.endString),
    (seq (one (· == '\\')) (one dot),.invalidEscape),
    (one dot,.addYytext)]

def rules : Start → List (Pattern Char × Rule)
  | .INITIAL => initialRules
  | .COMMENT => commentRules
  | .STRING => stringRules

end Rules

section Blocks

def NUL : Char := Char.ofNat 0

/-- What fresh blocks of memory contain: the one of each call of `beginBuffer`, of `increaseBuffer`
and of `getSymbolData`. -/
structure Memory where
  begun : ℕ → ℕ → Char
  grown : ℕ → ℕ → Char
  copied : ℕ → ℕ → Char

@[irreducible] def malloc (bytes : ℕ → Char) (size : ℕ) : List Char := (List.range size).map bytes

def realloc (old : List Char) (bytes : ℕ → Char) (size : ℕ) : List Char :=
  old.take size++(malloc bytes size).drop old.length

/-- The text up to the terminator, if the block has one. -/
def cString (block : List Char) : Option (List Char) :=
  if NUL ∈ block then some (block.takeWhile (· != NUL)) else none

inductive Stop
  | eof
  | exit (message : String) (line : ℕ)
  | undefined
  deriving DecidableEq, Repr

/-- Writing a text and its terminator at an offset of a block, undefined beyond the block. -/
def writeAt (block : List Char) (offset : ℕ) (text : List Char) : Except Stop (List Char) :=
  if offset+text.length < block.length then
    .ok (block.take offset++text++NUL::block.drop (offset+text.length+1))
  else .error .undefined

/-- Undefined where the block ends before a terminator is found. -/
def strcat (block text : List Char) : Except Stop (List Char) :=
  (cString block).elim (.error .undefined) fun t => writeAt block t.length text

end Blocks

inductive Data
  | c (block : List Char)
  | d (text : List Char)
  | l (value : ℕ)
  deriving DecidableEq, Repr

structure Token where
  symbol : Symbol
  data : Data
  line : ℕ
  deriving DecidableEq, Repr

/-- The statics of the scanner, what is left of the text, how many blocks each function has asked for
and the tokens so far. -/
structure Scanner where
  input : List Char
  start : Start
  curLine : ℕ
  stringBuffer : List Char
  strBufLen : ℕ
  strBufCount : ℕ
  begun : ℕ
  grown : ℕ
  copied : ℕ
  tokens : List Token
  deriving DecidableEq, Repr

def Scanner.init (text : List Char) : Scanner := ⟨text,.INITIAL,1,[],0,0,0,0,0,[]⟩

section Functions
variable (M : Memory)

def beginBuffer (s : Scanner) : Scanner :=
  { s with
    stringBuffer := malloc (M.begun s.begun) 1024
    begun := s.begun+1
    strBufCount := 0
    strBufLen := 1024 }

/-- The length is an `int`. -/
def increaseBuffer (s : Scanner) : Except Stop Scanner :=
  if s.strBufLen+1024 < 2^31 then
    .ok { s with
      strBufLen := s.strBufLen+1024
      stringBuffer := realloc s.stringBuffer (M.grown s.grown) (s.strBufLen+1024)
      grown := s.grown+1 }
  else .error .undefined

def addToBuffer (text : List Char) (s : Scanner) : Except Stop Scanner := do
  let s ← if s.strBufCount+text.length+1 > s.strBufLen then increaseBuffer M s else .ok s
  let block ← strcat s.stringBuffer text
  .ok { s with
    stringBuffer := block
    strBufCount := s.strBufCount+text.length }

/-- The value of a digit of any base up to 16. -/
def digitValue (c : Char) : ℕ :=
  if digit c then c.toNat - '0'.toNat
  else if 'a' ≤ c then c.toNat - 'a'.toNat+10 else c.toNat - 'A'.toNat+10

def hexPrefixed (data : List Char) : Bool :=
  data[0]? == some '0' && (data[1]? == some 'x' || data[1]? == some 'X')

/-- The greatest `unsigned long long` stands for what is too large. -/
def strtoull (data : List Char) (base : ℕ) : ℕ :=
  let digits := (if base = 16 ∧ hexPrefixed data then data.drop 2 else data).takeWhile (· != NUL)
  min (Nat.ofDigits base (digits.reverse.map digitValue)) (2^64-1)

/-- A `double` is kept as the text it is read of. -/
def getSymbolData (symbol : Symbol) (data : List Char) (s : Scanner) :
    Except Stop (Data × Scanner) :=
  match symbol with
  | .TK_ID | .TK_STRING =>
    (cString data).elim (.error .undefined) fun t => do
      let idStr ← writeAt (malloc (M.copied s.copied) (t.length+1)) 0 t
      .ok (.c idStr,{ s with copied := s.copied+1 })
  | .TK_DOUBLE_NUMBER => .ok (.d data,s)
  | .TK_LONG_NUMBER => .ok (.l (strtoull data (if hexPrefixed data then 16 else 10)),s)
  | _ => .ok (.l s.curLine,s)

def addSymbol (symbol : Symbol) (data : List Char) (s : Scanner) : Except Stop Scanner := do
  let x ← getSymbolData M symbol data s
  .ok { x.2 with tokens := x.2.tokens++[⟨symbol,x.1,x.2.curLine⟩] }

def action (yytext : List Char) (s : Scanner) : Rule → Except Stop Scanner
  | .beginComment => .ok { s with start := .COMMENT }
  | .endComment => .ok { s with start := .INITIAL }
  | .newline => .ok { s with curLine := s.curLine+1 }
  | .ignore => .ok s
  | .beginString => .ok { beginBuffer M s with start := .STRING }
  | .nonClosedString => .error (.exit "Non-closed string on line %d. Exiting.\n" s.curLine)
  | .addText text => addToBuffer M text s
  | .endString => do
    let s ← addToBuffer M [] { s with start := .INITIAL }
    addSymbol M .TK_STRING s.stringBuffer s
  | .invalidEscape => .error (.exit "Invalid escape character on line %d. Exiting.\n" s.curLine)
  | .addYytext => addToBuffer M (yytext.takeWhile (· != NUL)) s
  | .symbol k => addSymbol M k (yytext++[NUL]) s
  | .single => addSymbol M (.single (yytext.headD NUL)) (yytext++[NUL]) s

/-- The rules for the end of the text. -/
def atEof (s : Scanner) : Stop :=
  match s.start with
  | .INITIAL => .eof
  | .COMMENT => .exit "Non-closed comment on line %d. Exiting.\n" s.curLine
  | .STRING => .exit "Non-closed string on line %d. Exiting.\n" s.curLine

/-- One match. A character that no rule matches is passed over. -/
def next (s : Scanner) : Except Stop Scanner :=
  match s.input with
  | [] => .error (atEof s)
  | c::cs => (lex (rules s.start) (c::cs)).elim (.ok { s with input := cs }) fun x =>
    action M x.2.1 { s with input := x.2.2 } x.1

def step (s : Scanner) : Option Scanner := (next M s).toOption

end Functions

end PucRio.Monga.Lexer
