import Lox.Error.Basic
import Lox.Value.Basic

/-!
# Operators

What the operators of the language yield on values, and on which they fail.
-/

set_option autoImplicit false

namespace Lox

def UnaryOp.apply (op : UnaryOp) (operand : Value) (line : Nat) : Except Error Value :=
  match op, operand with
  | .not, v => .ok (.bool (!v.isTruthy))
  | .negate, .number x => .ok (.number (-x))
  | .negate, _ => .error (.runtime .operandNotNumber line)

def BinaryOp.applyNumbers (op : BinaryOp) (a b : Float) (line : Nat) : Except Error Value :=
  match op with
  | .add => .ok (.number (a + b))
  | .subtract => .ok (.number (a - b))
  | .multiply => .ok (.number (a * b))
  | .divide =>
    if b == 0 then .error (.runtime .divisionByZero line) else .ok (.number (a / b))
  | .equal => .ok (.bool (a == b))
  | .notEqual => .ok (.bool (a != b))
  | .greater => .ok (.bool (decide (a > b)))
  | .greaterEqual => .ok (.bool (decide (a ≥ b)))
  | .less => .ok (.bool (decide (a < b)))
  | .lessEqual => .ok (.bool (decide (a ≤ b)))

def BinaryOp.apply (op : BinaryOp) (left right : Value) (line : Nat) : Except Error Value :=
  match op, left, right with
  | .equal, a, b => .ok (.bool (a.equals b))
  | .notEqual, a, b => .ok (.bool (!a.equals b))
  | .add, .string a, .string b => .ok (.string (a ++ b))
  | op, .number a, .number b => op.applyNumbers a b line
  | .add, a, b => .error (.runtime (.operandsNotAddable a.type b.type) line)
  | _, _, _ => .error (.runtime .operandsNotNumbers line)

/-- Whether the left operand decides the result, so that the right one is not evaluated. -/
def LogicalOp.decides (op : LogicalOp) (left : Value) : Bool :=
  match op with
  | .or => left.isTruthy
  | .and => !left.isTruthy

end Lox
