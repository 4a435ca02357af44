import TreeWalk.Shell.Invisible

/-!
File names in messages: in double quotes, with quotes, backslashes and invisible characters
escaped.
-/

namespace TreeWalk.Shell.Quoted

/-- `\u` and the code point of a character in braces. -/
def codePoint (c : Char) : List Char :=
  "\\u\x7b".toList ++ Nat.toDigits 16 c.toNat ++ ['\x7d']

def escape (c : Char) : List Char :=
  if c = '\x00' then ['\\', '0']
  else if c = '\t' then ['\\', 't']
  else if c = '\n' then ['\\', 'n']
  else if c = '\r' then ['\\', 'r']
  else if c = '"' ∨ c = '\\' then ['\\', c]
  else if isInvisible c then codePoint c
  else [c]

def text (name : String) : String :=
  String.ofList ('"' :: name.toList.flatMap escape ++ ['"'])

end TreeWalk.Shell.Quoted
