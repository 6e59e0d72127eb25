/-!
# Errors of evaluation

What can go wrong is an `ErrorKind`: a cause with the facts that its message needs, names and
types already in words. An `EvalError` adds the calls that were active when it was raised. No
error is recovered from inside a program: it ends the evaluation and reaches the host.
-/

namespace ClosureLang

/-- The name under which a function without one is reported. -/
def anonymousName : String := "<anonymous>"

inductive ErrorKind where
  | unboundName (name : String)
  | duplicateBinding (name : String)
  | arityMismatch (name : String) (expected got : Nat)
  | notCallable (type : String)
  /-- As many calls were active as the limit allows. -/
  | stackOverflow (depth : Nat)
  | binaryTypeMismatch (op left right : String)
  deriving DecidableEq, Repr, Inhabited

namespace ErrorKind

def message : ErrorKind → String
  | unboundName name => s!"unbound name `{name}`"
  | duplicateBinding name => s!"`{name}` is already defined in this scope"
  | arityMismatch name expected got => s!"{name} expects {expected} argument(s), got {got}"
  | notCallable type => s!"value of type {type} is not callable"
  | stackOverflow depth => s!"maximum call depth of {depth} exceeded"
  | binaryTypeMismatch op left right => s!"cannot apply `{op}` to {left} and {right}"

end ErrorKind

/-- An error and the calls it escaped from, innermost first. A backtrace that is empty is one
that nobody attached. -/
structure EvalError where
  kind : ErrorKind
  backtrace : List String
  deriving DecidableEq, Repr, Inhabited

namespace EvalError

def ofKind (kind : ErrorKind) : EvalError := ⟨kind, []⟩

def message (e : EvalError) : String := e.kind.message

def hasBacktrace (e : EvalError) : Bool := !e.backtrace.isEmpty

/-- Sets the backtrace, whatever it was. -/
def withBacktrace (e : EvalError) (calls : List String) : EvalError := { e with backtrace := calls }

end EvalError
end ClosureLang
