import TreeWalk.Number.Decimal

/-!
The texts of a number: what `print` writes, what syntax trees and token listings show, and its
JSON. They differ in where whole numbers keep a fraction, in exponents and in ties.
-/

namespace TreeWalk.Number

def sign (x : Float) : List Char := if isNegative x then ['-'] else []

/-- What is written for a number that is not finite. -/
def special (x : Float) : List Char :=
  if infinityCode < code x then "NaN".toList else sign x ++ "inf".toList

/-- The shortest digits that read back, positional; a tie between two decimals goes up. -/
def shortestText (x : Float) : List Char :=
  if infinityCode ≤ code x then special x
  else sign x ++ (Decimal.shortest .up (code x)).positional

/-- Printed numbers: whole ones with all their digits and no point. -/
def printed (x : Float) : List Char :=
  if isWhole x then sign x ++ Nat.toDigits 10 (wholePart x) else shortestText x

/-- Numbers of a syntax tree: whole ones with all their digits and `.0`. -/
def inTree (x : Float) : List Char :=
  if isWhole x then printed x ++ ['.', '0'] else shortestText x

/-- Numbers of a token listing: whole ones below `10 ^ 15` end in `.0`, and zero has no sign. -/
def inListing (x : Float) : List Char :=
  if isWhole x && wholePart x < Nat.pow 10 15 then
    (if wholePart x = 0 then [] else sign x) ++ Nat.toDigits 10 (wholePart x) ++ ['.', '0']
  else shortestText x

/-- `d.ddde+x` or `d.ddde-x`: one digit before the point, none after it when there is but one. -/
def scientific (digits : List Char) (exponent : Int) : List Char :=
  let fraction := if digits.length ≤ 1 then [] else '.' :: digits.drop 1
  let mark := if exponent < 0 then ['e', '-'] else ['e', '+']
  digits.take 1 ++ fraction ++ mark ++ Nat.toDigits 10 exponent.natAbs

/-- JSON numbers: positional with a fraction when the leading digit stands for `10 ^ -5` up to
`10 ^ 15`, scientific outside, and `null` for what JSON cannot write. A tie goes to even. -/
def json (x : Float) : List Char :=
  if infinityCode ≤ code x then "null".toList
  else if code x = 0 then sign x ++ "0.0".toList
  else
    let d := Decimal.shortest .even (code x)
    let digits := Nat.toDigits 10 d.coefficient
    let leading := d.exponent + digits.length - 1
    if -5 ≤ leading ∧ leading ≤ 15 then
      sign x ++ d.positional ++ (if 0 ≤ d.exponent then ['.', '0'] else [])
    else sign x ++ scientific digits leading

end TreeWalk.Number
