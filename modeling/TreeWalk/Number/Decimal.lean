import TreeWalk.Number.Binary64

/-!
Decimals `coefficient * 10 ^ exponent`: which magnitude a decimal reads as, and the shortest
decimal that reads as a given magnitude.
-/

namespace TreeWalk.Number

structure Decimal where
  coefficient : Nat
  exponent : Int
  deriving DecidableEq, Repr

/-- Which of two equally near decimals is taken. -/
inductive Tie
  | up
  | even
  deriving DecidableEq, Repr

namespace Decimal

/-- The code of the magnitude that `d` reads as. -/
def code (d : Decimal) : Nat :=
  nearestCode (d.coefficient * Nat.pow 10 d.exponent.toNat * unitsPerOne)
    (Nat.pow 10 (-d.exponent).toNat)

/-- All digits of a magnitude, as `2 ^ -1074 = 5 ^ 1074 * 10 ^ -1074`. -/
def exact (code : Nat) : Decimal := ⟨units code * Nat.pow 5 1074, -1074⟩

/-- The two multiples of `10 ^ e` around a magnitude, the nearer one first. -/
def neighbours (tie : Tie) (code : Nat) (e : Int) : List Decimal :=
  let n := units code * Nat.pow 10 (-e).toNat
  let d := unitsPerOne * Nat.pow 10 e.toNat
  let below := n / d
  let remainder := 2 * (n % d)
  let nearerBelow := remainder < d ∨ (remainder = d ∧ tie = .even ∧ below % 2 = 0)
  if nearerBelow then [⟨below, e⟩, ⟨below + 1, e⟩] else [⟨below + 1, e⟩, ⟨below, e⟩]

/-- An exponent above that of every decimal that can read as `code`; the shortest of them lies
within twenty places below it. -/
def topExponent (code : Nat) : Int :=
  ((units code).log2 - 1074 : Int) * 30103 / 100000 + 1

/-- The decimal with the fewest digits that reads as `code`, and of those the nearest one. -/
def shortest (tie : Tie) (code : Nat) : Decimal :=
  let exponents := (List.range 21).map fun (i : Nat) => topExponent code - i
  let hit := exponents.findSome? fun e =>
    (neighbours tie code e).find? fun d => d.code == code
  hit.getD (exact code)

/-- Positional notation without an exponent; a whole number has no point. -/
def positional (d : Decimal) : List Char :=
  let digits := Nat.toDigits 10 d.coefficient
  let zeros (n : Nat) := List.replicate n '0'
  let places := (-d.exponent).toNat
  if places = 0 then digits ++ zeros d.exponent.toNat
  else if places < digits.length then
    digits.take (digits.length - places) ++ '.' :: digits.drop (digits.length - places)
  else '0' :: '.' :: zeros (places - digits.length) ++ digits

/-- The number that a row of decimal digits writes. -/
def ofDigits (digits : List Char) : Nat :=
  digits.foldl (fun n c => 10 * n + (c.toNat - '0'.toNat)) 0

/-- The decimal that digits with an optional point among them write. -/
def ofNumeral (text : List Char) : Decimal :=
  let whole := text.takeWhile (· != '.')
  let fraction := (text.dropWhile (· != '.')).drop 1
  ⟨ofDigits (whole ++ fraction), -(fraction.length : Int)⟩

def toFloat (d : Decimal) : Float := ofCode false d.code

end Decimal

end TreeWalk.Number
