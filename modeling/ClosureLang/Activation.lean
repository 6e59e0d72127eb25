import ClosureLang.Heap
import ClosureLang.Interner

/-!
# The frame of a call

A call runs in a frame of its own, created inside the frame that the function captured and not
inside the caller's, with each parameter bound to its argument. So parameters start over with
every call, while captured variables carry over from one call to the next.
-/

namespace ClosureLang

/-- A failed frame operation as an error of evaluation, its name in words. -/
def EvalError.ofBinding (names : Interner) : BindingError → EvalError
  | .unbound n => .ofKind (.unboundName (names.lookup n))
  | .duplicate n => .ofKind (.duplicateBinding (names.lookup n))

namespace Closure

/-- Binds parameters to arguments, from left to right, in frame `f`. -/
def bindParams (names : Interner) (f : FrameId) :
    List Name → List Value → Attempt Heap EvalError Unit
  | n :: ns, v :: vs => do
    (Heap.define f n v).mapError (.ofBinding names)
    bindParams names f ns vs
  | _, _ => pure ()

/-- Creates the frame for a call of `c`, which has the given parameters. The number of arguments
is checked first; a parameter that repeats an earlier one is a duplicate binding. -/
def activate (c : Closure) (names : Interner) (params : List Name) (args : List Value) :
    Attempt Heap EvalError FrameId := fun h =>
  if params.length = args.length then
    let (f, h) := h.child c.frame
    match bindParams names f params args h with
    | (.ok _, h) => (.ok f, h)
    | (.error e, h) => (.error e, h)
  else (.error (.ofKind (.arityMismatch c.displayName params.length args.length)), h)

end Closure
end ClosureLang
