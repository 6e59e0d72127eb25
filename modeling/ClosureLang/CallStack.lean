import ClosureLang.Attempt
import ClosureLang.Error

/-!
# Active calls

One entry for each call that has begun and not yet ended. The stack holds the limit on their
number: a call beyond it is refused. When an error leaves a call, the entries are copied into
the error as its backtrace, unless a call further in has done so already.
-/

namespace ClosureLang

structure CallFrame where
  name : Option String
  deriving DecidableEq, Repr

namespace CallFrame

def displayName (c : CallFrame) : String := c.name.getD anonymousName

end CallFrame

/-- The calls in progress, outermost first, and how many there may be. -/
structure CallStack where
  frames : Array CallFrame
  maxDepth : Nat
  deriving DecidableEq, Repr

namespace CallStack

def new (maxDepth : Nat) : CallStack := ⟨#[], maxDepth⟩

def depth (s : CallStack) : Nat := s.frames.size

def isEmpty (s : CallStack) : Bool := s.frames.isEmpty

/-- Begins a call, unless the limit is reached. -/
def push (c : CallFrame) : Attempt CallStack EvalError Unit := fun s =>
  if s.maxDepth ≤ s.depth then (.error (.ofKind (.stackOverflow s.maxDepth)), s)
  else (.ok (), { s with frames := s.frames.push c })

def pop (s : CallStack) : CallStack := { s with frames := s.frames.pop }

/-- The names of the calls in progress, innermost first. -/
def capture (s : CallStack) : List String := s.frames.toList.reverse.map CallFrame.displayName

/-- Gives an error the calls in progress as its backtrace. An error that has one keeps it, and
outside of all calls there is nothing to give. -/
def attachBacktrace (s : CallStack) (e : EvalError) : EvalError :=
  if e.hasBacktrace || s.isEmpty then e else e.withBacktrace s.capture

end CallStack
end ClosureLang
