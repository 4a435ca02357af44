import TreeWalk.Number.Text

/-!
Tokens: a kind, the text it was read from and the line that text ends on. Strings and numbers
carry the value they denote; all other kinds are plain symbols.
-/

namespace TreeWalk

inductive Keyword
  | andWord
  | classWord
  | elseWord
  | falseWord
  | funWord
  | forWord
  | ifWord
  | nilWord
  | orWord
  | printWord
  | returnWord
  | superWord
  | thisWord
  | trueWord
  | varWord
  | whileWord
  deriving DecidableEq, Repr

namespace Keyword

def spelling : Keyword → String
  | andWord => "and"
  | classWord => "class"
  | elseWord => "else"
  | falseWord => "false"
  | funWord => "fun"
  | forWord => "for"
  | ifWord => "if"
  | nilWord => "nil"
  | orWord => "or"
  | printWord => "print"
  | returnWord => "return"
  | superWord => "super"
  | thisWord => "this"
  | trueWord => "true"
  | varWord => "var"
  | whileWord => "while"

def all : List Keyword :=
  [andWord, classWord, elseWord, falseWord, funWord, forWord, ifWord, nilWord, orWord, printWord,
    returnWord, superWord, thisWord, trueWord, varWord, whileWord]

def ofSpelling? (word : String) : Option Keyword := all.find? (·.spelling == word)

end Keyword

inductive Symbol
  | leftParen
  | rightParen
  | leftBrace
  | rightBrace
  | comma
  | dot
  | minus
  | plus
  | semicolon
  | slash
  | star
  | bang
  | bangEqual
  | equal
  | equalEqual
  | greater
  | greaterEqual
  | less
  | lessEqual
  | identifier
  | keyword (word : Keyword)
  | endOfInput
  deriving DecidableEq, Repr

/-- The name of a symbol in listings. -/
def Symbol.name : Symbol → String
  | leftParen => "LEFT_PAREN"
  | rightParen => "RIGHT_PAREN"
  | leftBrace => "LEFT_BRACE"
  | rightBrace => "RIGHT_BRACE"
  | comma => "COMMA"
  | dot => "DOT"
  | minus => "MINUS"
  | plus => "PLUS"
  | semicolon => "SEMICOLON"
  | slash => "SLASH"
  | star => "STAR"
  | bang => "BANG"
  | bangEqual => "BANG_EQUAL"
  | equal => "EQUAL"
  | equalEqual => "EQUAL_EQUAL"
  | greater => "GREATER"
  | greaterEqual => "GREATER_EQUAL"
  | less => "LESS"
  | lessEqual => "LESS_EQUAL"
  | identifier => "IDENTIFIER"
  | keyword word => word.spelling.map Char.toUpper
  | endOfInput => "EOF"

inductive Kind
  | symbol (symbol : Symbol)
  | string (contents : String)
  | number (value : Float)

namespace Kind

def name : Kind → String
  | symbol s => s.name
  | string _ => "STRING"
  | number _ => "NUMBER"

/-- Kinds are the same whatever values they carry. -/
def same : Kind → Kind → Bool
  | symbol s, symbol t => s == t
  | string _, string _ => true
  | number _, number _ => true
  | _, _ => false

/-- The value column of a listing. -/
def literal : Kind → String
  | symbol _ => "null"
  | string contents => contents
  | number value => String.ofList (Number.inListing value)

end Kind

structure Token where
  kind : Kind
  lexeme : String
  line : Nat

namespace Token

def is (symbol : Symbol) (t : Token) : Bool :=
  match t.kind with
  | .symbol s => s == symbol
  | _ => false

/-- Tokens are the same if kind, lexeme and line are. -/
def same (t u : Token) : Bool :=
  t.kind.same u.kind && t.lexeme == u.lexeme && t.line == u.line

/-- The line of a token listing. -/
def text (t : Token) : String := s!"{t.kind.name} {t.lexeme} {t.kind.literal}"

/-- Where a report about this token says that it stands. -/
def location (t : Token) : String :=
  if t.is .endOfInput then " at end" else s!" at '{t.lexeme}'"

def endOfInput (line : Nat) : Token := ⟨.symbol .endOfInput, "", line⟩

end Token

end TreeWalk
