import ClosureLang.Decimal.NumberText
import ClosureLang.Error
import ClosureLang.Program.Arena

/-!
# Values

Five sorts of value. A function value is a `Closure`: code, and the frame in which its literal
was evaluated. The frame is held by its number, not by its contents: whoever holds the closure
sees every later change to the frame.

Functions are compared by identity. Each evaluation of a function literal stamps the closure it
makes with a number of its own, and copies keep the stamp.
-/

namespace ClosureLang

abbrev FrameId := Nat

/-- A function literal with the program it lies in, so that it can be run after that program has
ended, and from within others. -/
structure FunctionCode where
  arena : Arena
  definition : FunctionDef
  /-- The literal's name in words, read when the closure was made. -/
  name : Option String

namespace FunctionCode

def body (c : FunctionCode) : ExprId := c.definition.body

/-- The parameters in order; none when the literal's stretch is not in its program. -/
def params? (c : FunctionCode) : Option (List Name) := c.arena.params? c.definition.params

def arity (c : FunctionCode) : Nat := c.definition.params.len

end FunctionCode

structure Closure where
  /-- The stamp of the evaluation that made it. -/
  stamp : Nat
  code : FunctionCode
  frame : FrameId

namespace Closure

def name (c : Closure) : Option String := c.code.name

def arity (c : Closure) : Nat := c.code.arity

/-- The name in errors and backtraces. -/
def displayName (c : Closure) : String := c.name.getD anonymousName

/-- Whether both resolve their free variables through the same frame. -/
def sharesFrame (a b : Closure) : Bool := a.frame == b.frame

/-- Copies of one closure are equal, and nothing else is. -/
instance : BEq Closure := ⟨fun a b => a.stamp == b.stamp && a.sharesFrame b⟩

def display (c : Closure) : String :=
  match c.name with
  | some name => s!"<function {name}>"
  | none => "<function>"

end Closure

inductive Value where
  /-- What statements yield, and functions that return nothing. -/
  | void
  | number (x : Float)
  | bool (b : Bool)
  | str (s : String)
  | function (c : Closure)

namespace Value

instance : Inhabited Value := ⟨void⟩

def typeName : Value → String
  | void => "void"
  | number _ => "number"
  | bool _ => "bool"
  | str _ => "str"
  | function _ => "function"

/-- How an `if` takes a value: void, false, zero, NaN and the empty text are false. -/
def isTruthy : Value → Bool
  | void => false
  | number x => !(x == 0 || x.isNaN)
  | bool b => b
  | str s => !s.isEmpty
  | function _ => true

def asNumber? : Value → Option Float
  | number x => some x
  | _ => none

def asClosure? : Value → Option Closure
  | function c => some c
  | _ => none

def display : Value → String
  | void => "void"
  | number x => Decimal.numberText x
  | bool b => if b then "true" else "false"
  | str s => s
  | function c => c.display

/-- Values of different sorts differ. Numbers are compared as IEEE 754 asks, so NaN differs from
itself and the zeros are equal. -/
def equals : Value → Value → Bool
  | void, void => true
  | number a, number b => a == b
  | bool a, bool b => a == b
  | str a, str b => a == b
  | function a, function b => a == b
  | _, _ => false

instance : BEq Value := ⟨equals⟩

end Value
end ClosureLang
