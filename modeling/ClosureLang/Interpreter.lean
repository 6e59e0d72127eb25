import ClosureLang.Eval.Expr

/-!
# Interpreters

An `Interpreter` is what outlives one evaluation: a program, an outermost frame, the current
frame and the calls in progress. It works in a `World`, the heap and the destination of output,
which it may share with other interpreters; texts are looked up in a table that it only reads.

A host does four things with it: evaluates an expression of its program, calls a value, does
either with another frame as the current one, and looks at its state. A value of one interpreter
may be called through another: its code then runs in its own program and scope, with the texts
and the limits of the interpreter that runs it.
-/

namespace ClosureLang

/-- How an evaluation ends for the host. -/
inductive Outcome where
  | value (v : Value)
  | error (e : EvalError)
  | fault (f : Fault)

namespace Outcome

/-- A program that is left by `return` has the returned value. -/
def ofResult : Except Unwind Value → Outcome
  | .ok v => value v
  | .error (.ret v) => value v
  | .error (.error e) => error e
  | .error (.fault f) => fault f

def value? : Outcome → Option Value
  | value v => some v
  | _ => none

end Outcome

structure World where
  heap : Heap
  sink : Sink

structure Interpreter where
  arena : Arena
  globalFrame : FrameId
  frame : FrameId
  stack : CallStack

/-- Something a host does with an interpreter. -/
abbrev Interaction (α : Type) := Interpreter → World → α × Interpreter × World

namespace Interpreter

/-- How many calls may be active at once unless the host says otherwise. -/
def defaultMaxDepth : Nat := 1024

/-- An interpreter for a program, whose current scope is the given outermost frame. -/
def new (arena : Arena) (globalFrame : FrameId) (maxDepth : Nat) : Interpreter :=
  ⟨arena, globalFrame, globalFrame, .new maxDepth⟩

def callDepth (i : Interpreter) : Nat := i.stack.depth

def atGlobal (i : Interpreter) : Bool := i.frame == i.globalFrame

/-- How many further calls may begin. -/
def room (i : Interpreter) : Nat := i.stack.maxDepth - i.stack.depth

def machine (i : Interpreter) (w : World) : Machine := ⟨i.arena, i.frame, i.stack, w.heap, w.sink⟩

/-- Runs a piece of evaluation and takes over the state in which it ends. -/
def perform (x : Eval Value) : Interaction Outcome := fun i w =>
  let (r, m) := x (i.machine w)
  (.ofResult r, ⟨m.arena, i.globalFrame, m.frame, m.stack⟩, ⟨m.heap, m.sink⟩)

/-- Evaluates the expression at a position of the interpreter's program in its current scope. -/
def eval (names : Interner) (root : ExprId) : Interaction Outcome := fun i w =>
  perform (Eval.evalFrom names (Eval.callValue names i.room) root) i w

def invoke (names : Interner) (callee : Value) (args : List Value) : Interaction Outcome :=
  fun i w => perform (Eval.callValue names i.room callee args) i w

/-- Does something with `f` as the current scope, then returns to the scope before. -/
def withFrame {α : Type} (f : FrameId) (act : Interaction α) : Interaction α := fun i w =>
  let before := i.frame
  let (a, i, w) := act { i with frame := f } w
  (a, { i with frame := before }, w)

end Interpreter
end ClosureLang
