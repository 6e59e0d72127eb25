import ClosureLang.Error
import ClosureLang.Value

/-!
# What an operator does

`==` and `!=` take any two values. `+` adds numbers, and joins texts when either side is a text:
the other side then enters as it would be printed. The remaining operators are for two numbers,
and the four orders also for two texts, which are ordered by their characters' code points.

Arithmetic is IEEE 754: a division by zero has a value, and NaN is neither above, below nor at
any number.
-/

namespace ClosureLang

namespace BinaryOp

/-- The failure of an operator on two values that it does not take. -/
def mismatch (op : BinaryOp) (l r : Value) : EvalError :=
  .ofKind (.binaryTypeMismatch op.symbol l.typeName r.typeName)

/-- The outcome of an operator on two numbers. -/
def onNumbers (op : BinaryOp) (a b : Float) : Value :=
  match op with
  | add => .number (a + b)
  | sub => .number (a - b)
  | mul => .number (a * b)
  | div => .number (a / b)
  | eq => .bool (a == b)
  | ne => .bool (a != b)
  | lt => .bool (a < b)
  | le => .bool (a ≤ b)
  | gt => .bool (b < a)
  | ge => .bool (b ≤ a)

/-- Whether an order holds between two texts; the other operators are no orders. -/
def compareTexts? (op : BinaryOp) (a b : String) : Option Bool :=
  match op with
  | lt => some (a < b)
  | le => some (!(b < a))
  | gt => some (b < a)
  | ge => some (!(a < b))
  | _ => none

/-- The outcome of `l op r`. -/
def apply (op : BinaryOp) (l r : Value) : Except EvalError Value :=
  match op, l, r with
  | eq, l, r => .ok (.bool (l == r))
  | ne, l, r => .ok (.bool (l != r))
  | op, .number a, .number b => .ok (op.onNumbers a b)
  | add, .str a, r => .ok (.str (a ++ r.display))
  | add, l, .str b => .ok (.str (l.display ++ b))
  | op, .str a, .str b =>
    match op.compareTexts? a b with
    | some holds => .ok (.bool holds)
    | none => .error (op.mismatch (.str a) (.str b))
  | op, l, r => .error (op.mismatch l r)

/-- An operator fails in one way. -/
theorem apply_error {op : BinaryOp} {l r : Value} {e : EvalError} (h : op.apply l r = .error e) :
    e = op.mismatch l r := by
  unfold apply at h
  split at h <;> (try split at h) <;> cases h <;> rfl

end BinaryOp
end ClosureLang
