import TreeWalk.Machine.State

/-!
What the operators do to values.
-/

namespace TreeWalk.Operation

def unary (operator : Token) (right : Value) : Except RuntimeFault Value :=
  match operator.kind with
  | .symbol .minus =>
    match right with
    | .number x => .ok (.number (-x))
    | _ => .error .operandNotNumber
  | .symbol .bang => .ok (.bool !right.isTruthy)
  | _ => .error .unknownUnary

/-- The sum of numbers; a string takes the text of the other operand. -/
def add (left right : Value) : Except RuntimeFault Value :=
  match left, right with
  | .number a, .number b => .ok (.number (a + b))
  | .string a, other => .ok (.string (a ++ other.text))
  | other, .string b => .ok (.string (other.text ++ b))
  | _, _ => .error .operandsNotAddable

/-- An operation on two numbers. -/
def onNumbers (left right : Value) (f : Float → Float → Except RuntimeFault Value) :
    Except RuntimeFault Value :=
  match left, right with
  | .number a, .number b => f a b
  | _, _ => .error .operandsNotNumbers

def divide (a b : Float) : Except RuntimeFault Value :=
  if b == 0 then .error .divisionByZero else .ok (.number (a / b))

def binary (operator : Token) (left right : Value) : Except RuntimeFault Value :=
  match operator.kind with
  | .symbol .plus => add left right
  | .symbol .minus => onNumbers left right fun a b => .ok (.number (a - b))
  | .symbol .star => onNumbers left right fun a b => .ok (.number (a * b))
  | .symbol .slash => onNumbers left right divide
  | .symbol .greater => onNumbers left right fun a b => .ok (.bool (a > b))
  | .symbol .greaterEqual => onNumbers left right fun a b => .ok (.bool (a ≥ b))
  | .symbol .less => onNumbers left right fun a b => .ok (.bool (a < b))
  | .symbol .lessEqual => onNumbers left right fun a b => .ok (.bool (a ≤ b))
  | .symbol .equalEqual => .ok (.bool (left.equal right))
  | .symbol .bangEqual => .ok (.bool !(left.equal right))
  | _ => .error .unknownBinary

/-- Whether a logical operator has its value in the left operand alone: a truthy one decides `or`,
any other one `and`. -/
def decides (operator : Token) (left : Value) : Bool :=
  if operator.is (.keyword .orWord) then left.isTruthy else !left.isTruthy

end TreeWalk.Operation
