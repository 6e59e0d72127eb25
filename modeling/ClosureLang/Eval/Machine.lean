import ClosureLang.Activation
import ClosureLang.CallStack
import ClosureLang.Operator.Apply
import ClosureLang.Sink

/-!
# The evaluating machine

Evaluation runs on a `Machine`: the code and the frame that are current, the calls in progress,
the heap, and the destination of printed lines. An expression yields a value or is left early,
by an error, by `return`, or by a fault. A fault says that the machine was asked for something
that its tables do not hold; programs as a builder makes them never raise one.

Code, frame and calls are state and not arguments: whatever switches one of them has to put it
back, on every way out. The switches are `inFrame`, `inScope` and `duringCall`, and nothing else
touches these three fields.
-/

namespace ClosureLang

structure Machine where
  /-- The program that node positions refer to. -/
  arena : Arena
  frame : FrameId
  stack : CallStack
  heap : Heap
  sink : Sink

/-- A request that the machine's tables cannot answer. -/
inductive Fault where
  | noNode (id : ExprId)
  | noList (span : Span)
  | noParams (span : Span)
  /-- An expression nests deeper than its position allows, so a child does not come before its
  parent. -/
  | tooDeep
  | tooManyCalls
  /-- A call ended that never began. -/
  | noCall
  deriving DecidableEq, Repr

/-- The ways to leave an expression without its value. -/
inductive Unwind where
  | error (e : EvalError)
  /-- A `return`, on its way to the nearest call. -/
  | ret (v : Value)
  | fault (f : Fault)

abbrev Eval := Attempt Machine Unwind

namespace Eval

variable {α : Type}

@[inline]
def raise (e : EvalError) : Eval α := .fail (.error e)

@[inline]
def fault (f : Fault) : Eval α := .fail (.fault f)

/-! ## Reading the current program -/

def node (id : ExprId) : Eval Node := fun m =>
  match m.arena.node? id with
  | some n => (.ok n, m)
  | none => (.error (.fault (.noNode id)), m)

def list (span : Span) : Eval (List ExprId) := fun m =>
  match m.arena.list? span with
  | some ids => (.ok ids, m)
  | none => (.error (.fault (.noList span)), m)

/-! ## Variables of the current scope -/

@[inline]
def onHeap (op : Attempt Heap EvalError α) : Eval α := fun m =>
  let ⟨arena, frame, stack, heap, sink⟩ := m
  match op heap with
  | (.ok a, heap) => (.ok a, ⟨arena, frame, stack, heap, sink⟩)
  | (.error e, heap) => (.error (.error e), ⟨arena, frame, stack, heap, sink⟩)

@[inline]
def current : Eval FrameId := .read Machine.frame

def getVar (names : Interner) (n : Name) : Eval Value := fun m =>
  match m.heap.get m.frame n with
  | .ok v => (.ok v, m)
  | .error e => (.error (.error (.ofBinding names e)), m)

def defineVar (names : Interner) (n : Name) (v : Value) : Eval Unit := do
  onHeap ((Heap.define (← current) n v).mapError (.ofBinding names))

def setVar (names : Interner) (n : Name) (v : Value) : Eval Unit := do
  onHeap ((Heap.set (← current) n v).mapError (.ofBinding names))

/-- Stores `x op v` in the variable that holds `x`. -/
def updateVar (names : Interner) (op : BinaryOp) (n : Name) (v : Value) : Eval Unit := do
  let change (x : Value) : Except EvalError Value := op.apply x v
  match ← onHeap ((Heap.update (← current) n change).mapError (.ofBinding names)) with
  | .ok _ => pure ()
  | .error e => raise e

/-! ## Frames, functions and output -/

def newChild (f : FrameId) : Eval FrameId := fun m =>
  let ⟨arena, frame, stack, heap, sink⟩ := m
  let (g, heap) := heap.child f
  (.ok g, ⟨arena, frame, stack, heap, sink⟩)

/-- A new function value from a literal of the current program, over the current scope. -/
def makeFunction (names : Interner) (definition : FunctionDef) : Eval Value := fun m =>
  let ⟨arena, frame, stack, heap, sink⟩ := m
  let code : FunctionCode := ⟨arena, definition, definition.name.map names.lookup⟩
  let (c, heap) := heap.makeClosure code frame
  (.ok (.function c), ⟨arena, frame, stack, heap, sink⟩)

def printLine (vs : List Value) : Eval Unit := fun m =>
  let ⟨arena, frame, stack, heap, sink⟩ := m
  (.ok (), ⟨arena, frame, stack, heap, sink.println (" ".intercalate (vs.map Value.display))⟩)

/-! ## Switches -/

/-- Runs `x` with `f` as the current scope, then returns to the scope before. -/
@[inline]
def inFrame (f : FrameId) (x : Eval α) : Eval α := fun m =>
  let before := m.frame
  let (r, m) := x { m with frame := f }
  (r, { m with frame := before })

/-- Runs `x` with `f` as the current scope and `arena` as the current program, then returns to
those before. -/
@[inline]
def inScope (f : FrameId) (arena : Arena) (x : Eval α) : Eval α := fun m =>
  let frameBefore := m.frame
  let arenaBefore := m.arena
  let (r, m) := x { m with frame := f, arena := arena }
  (r, { m with frame := frameBefore, arena := arenaBefore })

/-- Begins a call. Where the limit refuses it, the error names the calls already active. -/
def beginCall (c : CallFrame) : Eval Unit := fun m =>
  let ⟨arena, frame, stack, heap, sink⟩ := m
  match CallStack.push c stack with
  | (.ok _, stack) => (.ok (), ⟨arena, frame, stack, heap, sink⟩)
  | (.error e, stack) =>
    (.error (.error (stack.attachBacktrace e)), ⟨arena, frame, stack, heap, sink⟩)

def endCall : Eval Unit := fun m =>
  if m.stack.isEmpty then (.error (.fault .noCall), m)
  else (.ok (), { m with stack := m.stack.pop })

/-- Gives an error that leaves `x` the calls active at that point as its backtrace. -/
@[inline]
def withBacktrace (x : Eval α) : Eval α := fun m =>
  match x m with
  | (.error (.error e), m) => (.error (.error (m.stack.attachBacktrace e)), m)
  | out => out

/-- Runs `x`, then ends the innermost call, whatever way `x` was left. -/
@[inline]
def thenEndCall (x : Eval α) : Eval α := fun m =>
  match x m with
  | (r, m) =>
    match endCall m with
    | (.ok _, m) => (r, m)
    | (.error u, m) => (.error u, m)

/-- Runs `x` as a call of the function named in `c`. -/
@[inline]
def duringCall (c : CallFrame) (x : Eval α) : Eval α := do
  beginCall c
  thenEndCall (withBacktrace x)

/-- At the boundary of a call or of a program a `return` becomes the value. -/
@[inline]
def settle (x : Eval Value) : Eval Value := fun m =>
  match x m with
  | (.error (.ret v), m) => (.ok v, m)
  | out => out

end Eval
end ClosureLang
