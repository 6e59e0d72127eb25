import ClosureLang.Eval.Machine

/-!
# Calls

A value is called in four steps, each of which may refuse: it must be a function, the arguments
must fit the parameters, the limit must admit one more call, and the body runs. Nothing of the
caller's scope takes part.
-/

namespace ClosureLang.Eval

/-- Creates the frame for a call of `c`. -/
def activate (names : Interner) (c : Closure) (args : List Value) : Eval FrameId :=
  match c.code.params? with
  | some params => onHeap (c.activate names params args)
  | none => fault (.noParams c.code.definition.params)

/-- Calls a value: only functions can be called. `run` is the meaning of a function's body in
the call's frame and the function's program. -/
@[inline]
def applyValue (names : Interner) (run : Closure → Eval Value) (callee : Value)
    (args : List Value) : Eval Value :=
  match callee with
  | .function c => do
    let f ← activate names c args
    duringCall ⟨c.name⟩ (inScope f c.code.arena (settle (run c)))
  | v => raise (.ofKind (.notCallable v.typeName))

end ClosureLang.Eval
