/-!
Binary64 magnitudes, counted in units of 2^-1074. Every finite magnitude is a whole number of
units, so decimals are read and written with exact integer arithmetic. A magnitude is named by its
code, the lower 63 bits of its encoding; codes are ordered as the magnitudes are.
-/

namespace TreeWalk.Number

/-- The code of infinity. The codes above it are no numbers. -/
def infinityCode : Nat := 0x7ff * Nat.pow 2 52

/-- The number of units in one. -/
def unitsPerOne : Nat := Nat.pow 2 1074

/-- The magnitude of a finite code, in units. -/
def units (code : Nat) : Nat :=
  if code < Nat.pow 2 52 then code
  else (Nat.pow 2 52 + code % Nat.pow 2 52) * Nat.pow 2 (code / Nat.pow 2 52 - 1)

/-- The whole number nearest to `n / d`; a half goes to the even neighbour. -/
def nearest (n d : Nat) : Nat :=
  let q := n / d
  let r := n % d
  if 2 * r < d ∨ (2 * r = d ∧ q % 2 = 0) then q else q + 1

/-- The code of the magnitude nearest to `n / d` units. A significand that rounds up to `2 ^ 53`
carries into the exponent, and what rounds past the greatest magnitude is infinite. -/
def nearestCode (n d : Nat) : Nat :=
  let shift := (n / d).log2 - 52
  min infinityCode (shift * Nat.pow 2 52 + nearest n (d * Nat.pow 2 shift))

/-- The number with the given sign and code. -/
def ofCode (negative : Bool) (code : Nat) : Float :=
  Float.ofBits (UInt64.ofNat (if negative then Nat.pow 2 63 + code else code))

def code (x : Float) : Nat := x.toBits.toNat % Nat.pow 2 63

def isNegative (x : Float) : Bool := Nat.pow 2 63 ≤ x.toBits.toNat

/-- Whether `x` is a finite number without a fraction. -/
def isWhole (x : Float) : Bool :=
  code x < infinityCode && units (code x) % unitsPerOne == 0

/-- The part of a finite magnitude before the point. -/
def wholePart (x : Float) : Nat := units (code x) / unitsPerOne

end TreeWalk.Number
