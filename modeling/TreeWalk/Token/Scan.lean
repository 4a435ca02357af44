import TreeWalk.Report

/-!
Reading tokens off a source text. The text is cut into pieces from the left: a piece is a token,
a blank or a comment that is skipped, or a fault. Every piece takes at least one character and the
longest text of its rule, and a fault does not end the scan.
-/

namespace TreeWalk

inductive LexicalFault
  | unexpected (c : Char)
  | unterminated
  deriving DecidableEq, Repr

def LexicalFault.message : LexicalFault → String
  | unexpected c => s!"Unexpected character: {c}"
  | unterminated => "Unterminated string."

namespace Scan

def isBlank (c : Char) : Bool := c == ' ' || c == '\r' || c == '\t' || c == '\n'

def isDigit (c : Char) : Bool := '0' ≤ c && c ≤ '9'

def isLetter (c : Char) : Bool := ('a' ≤ c && c ≤ 'z') || ('A' ≤ c && c ≤ 'Z') || c == '_'

def isWordPart (c : Char) : Bool := isLetter c || isDigit c

/-- The symbol that one character writes. -/
def single? : Char → Option Symbol
  | '(' => some .leftParen
  | ')' => some .rightParen
  | '{' => some .leftBrace
  | '}' => some .rightBrace
  | ',' => some .comma
  | '.' => some .dot
  | '-' => some .minus
  | '+' => some .plus
  | ';' => some .semicolon
  | '*' => some .star
  | '/' => some .slash
  | '!' => some .bang
  | '=' => some .equal
  | '<' => some .less
  | '>' => some .greater
  | _ => none

/-- The symbol that a character writes together with `=` after it. -/
def withEqual? : Char → Option Symbol
  | '!' => some .bangEqual
  | '=' => some .equalEqual
  | '<' => some .lessEqual
  | '>' => some .greaterEqual
  | _ => none

inductive Piece
  | token (kind : Kind)
  | skipped
  | fault (fault : LexicalFault)

/-- The first piece of a text, the characters it takes and those after them. -/
structure Cut where
  piece : Piece
  text : List Char
  rest : List Char

/-- Cuts a fraction, a point with at least one digit after it, off the front. -/
def fraction : List Char → List Char × List Char
  | '.' :: d :: cs =>
    if isDigit d then ('.' :: d :: cs.takeWhile isDigit, cs.dropWhile isDigit)
    else ([], '.' :: d :: cs)
  | cs => ([], cs)

def numeral (c : Char) (cs : List Char) : Cut :=
  let (point, rest) := fraction (cs.dropWhile isDigit)
  let text := c :: cs.takeWhile isDigit ++ point
  ⟨.token (.number (Number.Decimal.ofNumeral text).toFloat), text, rest⟩

def word (c : Char) (cs : List Char) : Cut :=
  let text := c :: cs.takeWhile isWordPart
  let symbol := ((Keyword.ofSpelling? (String.ofList text)).map Symbol.keyword).getD .identifier
  ⟨.token (.symbol symbol), text, cs.dropWhile isWordPart⟩

/-- A string runs to the next quote, over line ends too. -/
def quoted (cs : List Char) : Cut :=
  let contents := cs.takeWhile (· != '"')
  match cs.dropWhile (· != '"') with
  | quote :: rest =>
    ⟨.token (.string (String.ofList contents)), '"' :: contents ++ [quote], rest⟩
  | [] => ⟨.fault .unterminated, '"' :: contents, []⟩

/-- A comment ends before the end of its line. -/
def comment (cs : List Char) : Cut :=
  ⟨.skipped, '/' :: cs.takeWhile (· != '\n'), cs.dropWhile (· != '\n')⟩

/-- An operator or a punctuation mark, of two characters if it can be. -/
def mark (c : Char) (cs : List Char) : Cut :=
  match withEqual? c, cs with
  | some symbol, '=' :: rest => ⟨.token (.symbol symbol), [c, '='], rest⟩
  | _, _ =>
    match single? c with
    | some symbol => ⟨.token (.symbol symbol), [c], cs⟩
    | none => ⟨.fault (.unexpected c), [c], cs⟩

/-- The first piece of the text `c :: cs`. -/
def cut (c : Char) (cs : List Char) : Cut :=
  if isBlank c then ⟨.skipped, [c], cs⟩
  else if isDigit c then numeral c cs
  else if isLetter c then word c cs
  else if c == '"' then quoted cs
  else if c == '/' && cs.head? == some '/' then comment cs
  else mark c cs

inductive Item
  | token (token : Token)
  | fault (fault : LexicalFault) (line : Nat)

/-- What `fuel` cuts make of a text that starts on the given line. Every cut takes a character, so
the length of the text is fuel enough. -/
def itemsFrom : Nat → Nat → List Char → List Item
  | fuel + 1, line, c :: cs =>
    let first := cut c cs
    let line := line + first.text.count '\n'
    match first.piece with
    | .skipped => itemsFrom fuel line first.rest
    | .token kind => .token ⟨kind, String.ofList first.text, line⟩ :: itemsFrom fuel line first.rest
    | .fault fault => .fault fault line :: itemsFrom fuel line first.rest
  | _, line, _ => [.token (.endOfInput line)]

/-- The tokens and faults of a source in order, the end of input last. -/
def items (source : String) : List Item :=
  itemsFrom source.toList.length 1 source.toList

def Item.token? : Item → Option Token
  | token t => some t
  | fault _ _ => none

def Item.report? : Item → Option Report
  | token _ => none
  | fault f line => some (.lexical f.message line)

def tokens (source : String) : List Token := (items source).filterMap Item.token?

def reports (source : String) : Diagnostics := (items source).filterMap Item.report?

end Scan

end TreeWalk
