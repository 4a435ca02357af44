import TreeWalk.Token

/-!
Token lists as JSON, on one line or indented by two blanks a level.
-/

namespace TreeWalk.Json

inductive Layout
  | compact
  | pretty

/-- Quotes, backslashes and control characters are escaped, and nothing else is. -/
def escape (c : Char) : List Char :=
  if c = '"' then ['\\', '"']
  else if c = '\\' then ['\\', '\\']
  else if c = '\n' then ['\\', 'n']
  else if c = '\r' then ['\\', 'r']
  else if c = '\t' then ['\\', 't']
  else if c = '\x08' then ['\\', 'b']
  else if c = '\x0c' then ['\\', 'f']
  else if c.toNat < 0x20 then
    ['\\', 'u', '0', '0', Nat.digitChar (c.toNat / 16), Nat.digitChar (c.toNat % 16)]
  else [c]

def quote (s : String) : String :=
  String.ofList ('"' :: s.toList.flatMap escape ++ ['"'])

namespace Layout

/-- The start of a new line at a level, when lines are broken. -/
def lineBreak : Layout → Nat → String
  | compact, _ => ""
  | pretty, depth => String.ofList ('\n' :: List.replicate (2 * depth) ' ')

/-- Parts that are already written for one level below `depth`, between brackets. -/
def group (layout : Layout) (depth : Nat) (opening closing : String) (parts : List String) :
    String :=
  if parts.isEmpty then opening ++ closing
  else
    let inner := layout.lineBreak (depth + 1)
    opening ++ inner ++ ("," ++ inner).intercalate parts ++ layout.lineBreak depth ++ closing

def field (layout : Layout) (name value : String) : String :=
  match layout with
  | compact => quote name ++ ":" ++ value
  | pretty => quote name ++ ": " ++ value

def record (layout : Layout) (depth : Nat) (fields : List (String × String)) : String :=
  layout.group depth "\x7b" "\x7d" (fields.map fun f => layout.field f.1 f.2)

end Layout

def kind (layout : Layout) (depth : Nat) (k : Kind) : String :=
  match k with
  | .symbol s => quote s.name
  | .string contents => layout.record depth [(k.name, quote contents)]
  | .number value => layout.record depth [(k.name, String.ofList (Number.json value))]

def token (layout : Layout) (depth : Nat) (t : Token) : String :=
  layout.record depth
    [("token_type", kind layout (depth + 1) t.kind), ("lexeme", quote t.lexeme),
      ("line", toString t.line)]

def tokens (layout : Layout) (ts : List Token) : String :=
  layout.group 0 "[" "]" (ts.map (token layout 1))

end TreeWalk.Json
