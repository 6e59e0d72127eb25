import ClosureLang.Interpreter
import ClosureLang.Store

/-!
# Evaluation with counts

While it works the evaluator holds frames itself: the frame of a block or of a call until that is
left, the function that is called, an operand while the next one is evaluated, the arguments until
they are passed, a value that `return` is taking along. Here evaluation runs on a machine with a
ledger, and every handle is accounted for when it is copied and when it is let go of, on the way out
of an expression that fails just as on that of one that does not.

A `Counted` evaluation that yields a value hands over the handle that comes with it, and so does one
that is left by `return`. The definitions run parallel to those of `Eval/Machine`, `Eval/Call` and
`Eval/Expr`, and with the numbers left out they are the same.
-/

namespace ClosureLang

/-- A machine and the ledger of its frames. -/
structure CountedMachine where
  machine : Machine
  ledger : Ledger

abbrev Counted := Attempt CountedMachine Unwind

namespace Counted

variable {α : Type}

/-! ## Handles -/

/-- A piece of evaluation that copies no handle and lets go of none. -/
@[inline]
def lift (x : Eval α) : Counted α := fun ⟨m, ledger⟩ =>
  let (r, m) := x m
  (r, ⟨m, ledger⟩)

/-- An operation on the frames, which keeps the numbers by itself. -/
@[inline]
def onStore (op : Attempt Store EvalError α) : Counted α := fun
  | ⟨⟨arena, frame, stack, heap, sink⟩, ledger⟩ =>
    match op ⟨heap, ledger⟩ with
    | (.ok a, ⟨heap, ledger⟩) => (.ok a, ⟨⟨arena, frame, stack, heap, sink⟩, ledger⟩)
    | (.error e, ⟨heap, ledger⟩) =>
      (.error (.error e), ⟨⟨arena, frame, stack, heap, sink⟩, ledger⟩)

def letGo (fs : List FrameId) : CountedMachine → CountedMachine
  | ⟨m, ledger⟩ => ⟨m, ledger.release m.heap fs⟩

/-- Runs `x` while somebody holds these handles, who lets go of them as soon as `x` is left. -/
@[inline]
def holding (fs : List FrameId) (x : Counted α) : Counted α := x.ensuring (letGo fs)

/-- Runs `x` while somebody holds these handles, who lets go of them if `x` fails. -/
@[inline]
def orLetGo (fs : List FrameId) (x : Counted α) : Counted α := x.onFailure (letGo fs)

/-! ## Variables, frames and functions -/

def getVar (names : Interner) (n : Name) : Counted Value := do
  onStore ((Store.get (← lift Eval.current) n).mapError (.ofBinding names))

def defineVar (names : Interner) (n : Name) (v : Value) : Counted Unit := do
  onStore ((Store.define (← lift Eval.current) n v).mapError (.ofBinding names))

def setVar (names : Interner) (n : Name) (v : Value) : Counted Unit := do
  onStore ((Store.set (← lift Eval.current) n v).mapError (.ofBinding names))

def updateVar (names : Interner) (op : BinaryOp) (n : Name) (v : Value) : Counted Unit := do
  let change (x : Value) : Except EvalError Value := op.apply x v
  match ← onStore ((Store.update (← lift Eval.current) n change).mapError (.ofBinding names)) with
  | .ok _ => pure ()
  | .error e => lift (Eval.raise e)

def newChild (f : FrameId) : Counted FrameId := onStore (.act (Store.newFrame (some f)))

def makeFunction (names : Interner) (definition : FunctionDef) : Counted Value := do
  let f ← lift Eval.current
  let arena ← lift (.read Machine.arena)
  let code : FunctionCode := ⟨arena, definition, definition.name.map names.lookup⟩
  let c ← onStore (.act (Store.makeClosure code f))
  pure (.function c)

/-! ## Switches -/

@[inline]
def inFrame (f : FrameId) (x : Counted α) : Counted α := fun ⟨m, ledger⟩ =>
  let before := m.frame
  let (r, ⟨m, ledger⟩) := x ⟨{ m with frame := f }, ledger⟩
  (r, ⟨{ m with frame := before }, ledger⟩)

@[inline]
def inScope (f : FrameId) (arena : Arena) (x : Counted α) : Counted α := fun ⟨m, ledger⟩ =>
  let frameBefore := m.frame
  let arenaBefore := m.arena
  let (r, ⟨m, ledger⟩) := x ⟨{ m with frame := f, arena := arena }, ledger⟩
  (r, ⟨{ m with frame := frameBefore, arena := arenaBefore }, ledger⟩)

/-- Runs `x`, and then does what `f` does after its argument. -/
@[inline]
def followedBy (f : Eval α → Eval α) (x : Counted α) : Counted α := fun s =>
  let (r, ⟨m, ledger⟩) := x s
  let (r, m) := f (fun m => (r, m)) m
  (r, ⟨m, ledger⟩)

@[inline]
def duringCall (c : CallFrame) (x : Counted α) : Counted α := do
  lift (Eval.beginCall c)
  followedBy (fun x => Eval.thenEndCall (Eval.withBacktrace x)) x

@[inline]
def settle (x : Counted Value) : Counted Value := followedBy Eval.settle x

/-! ## Calls -/

/-- The frame for a call, which takes the arguments. -/
def activate (names : Interner) (c : Closure) (args : List Value) : Counted FrameId :=
  match c.code.params? with
  | some params => onStore (Store.activate c names params args)
  | none => orLetGo (Value.allHandles args) (lift (Eval.fault (.noParams c.code.definition.params)))

/-- The caller holds the function, and the arguments are taken. The frame of the call is held until
the call is over, or refused. -/
@[inline]
def applyValue (names : Interner) (run : Closure → Counted Value) (callee : Value)
    (args : List Value) : Counted Value :=
  match callee with
  | .function c => do
    let f ← activate names c args
    holding [f] (duringCall ⟨c.name⟩ (inScope f c.code.arena (settle (run c))))
  | v => orLetGo (Value.allHandles args) (lift (Eval.raise (.ofKind (.notCallable v.typeName))))

/-! ## Expressions -/

/-- The value of a statement is held until the next one has been evaluated. -/
@[specialize]
def runStmts (ev : ExprId → Counted Value) (last : Value) : List ExprId → Counted Value
  | [] => pure last
  | id :: ids => do
    let v ← holding last.handles (ev id)
    runStmts ev v ids

@[specialize]
def evalArgs (ev : ExprId → Counted Value) : List ExprId → Counted (List Value)
  | [] => pure []
  | id :: ids => do
    let v ← ev id
    let vs ← orLetGo v.handles (evalArgs ev ids)
    pure (v :: vs)

@[specialize]
def evalNode (names : Interner) (call : Value → List Value → Counted Value)
    (ev : ExprId → Counted Value) : Node → Counted Value
  | .number x => pure (.number x)
  | .bool b => pure (.bool b)
  | .str text => pure (.str (names.lookup text))
  | .void => pure .void
  | .ident n => getVar names n
  | .letIn n init => do
    let v ← ev init
    defineVar names n v
    pure .void
  | .assign n value => do
    let v ← ev value
    setVar names n v
    pure .void
  | .compound op n value => do
    let v ← ev value
    holding v.handles (updateVar names op n v)
    pure .void
  | .binary op left right => do
    let l ← ev left
    holding l.handles do
      let r ← ev right
      holding r.handles do
        match op.apply l r with
        | .ok v => pure v
        | .error e => lift (Eval.raise e)
  | .function definition => makeFunction names definition
  | .call callee args => do
    let f ← ev callee
    holding f.handles do
      let ids ← lift (Eval.list args)
      let vs ← evalArgs ev ids
      call f vs
  | .print args => do
    let ids ← lift (Eval.list args)
    let vs ← evalArgs ev ids
    holding (Value.allHandles vs) (lift (Eval.printLine vs))
    pure .void
  | .block stmts => do
    let ids ← lift (Eval.list stmts)
    let child ← newChild (← lift Eval.current)
    holding [child] (inFrame child (runStmts ev .void ids))
  | .ifElse cond thenBranch elseBranch => do
    let c ← ev cond
    .modify (letGo c.handles)
    if c.isTruthy then ev thenBranch
    else
      match elseBranch with
      | some e => ev e
      | none => pure .void
  | .ret none => lift (.fail (.ret .void))
  | .ret (some value) => do
    let v ← ev value
    lift (.fail (.ret v))

def evalExpr (names : Interner) (call : Value → List Value → Counted Value) :
    Nat → ExprId → Counted Value
  | 0, _ => lift (Eval.fault .tooDeep)
  | levels + 1, id => do
    let n ← lift (Eval.node id)
    evalNode names call (evalExpr names call levels) n

def evalFrom (names : Interner) (call : Value → List Value → Counted Value) (id : ExprId) :
    Counted Value := evalExpr names call (id + 1) id

def runBody (names : Interner) (call : Value → List Value → Counted Value) (body : ExprId) :
    Counted Value := do
  match ← lift (Eval.node body) with
  | .block stmts =>
    let ids ← lift (Eval.list stmts)
    runStmts (evalExpr names call body) .void ids
  | _ => evalFrom names call body

def callValue (names : Interner) : Nat → Value → List Value → Counted Value
  | 0 => applyValue names fun _ => lift (Eval.fault .tooManyCalls)
  | room + 1 => applyValue names fun c => runBody names (callValue names room) c.code.body

end Counted

/-! ## For a host -/

/-- Something a host does with an interpreter, with the ledger of the frames. -/
abbrev CountedInteraction (α : Type) := Interpreter → World → Ledger →
  (α × Interpreter × World) × Ledger

namespace Interpreter

/-- The host is given what comes of the evaluation. -/
def performCounted (x : Counted Value) : CountedInteraction Outcome := fun i w ledger =>
  let (r, ⟨m, ledger⟩) := x ⟨i.machine w, ledger⟩
  ((.ofResult r, ⟨m.arena, i.globalFrame, m.frame, m.stack⟩, ⟨m.heap, m.sink⟩), ledger)

def evalCounted (names : Interner) (root : ExprId) : CountedInteraction Outcome :=
  fun i w ledger =>
    performCounted (Counted.evalFrom names (Counted.callValue names i.room) root) i w ledger

/-- The host holds the function, and the arguments are taken. -/
def invokeCounted (names : Interner) (callee : Value) (args : List Value) :
    CountedInteraction Outcome :=
  fun i w ledger => performCounted (Counted.callValue names i.room callee args) i w ledger

/-- The handle to `f` is taken, and let go of when the interpreter returns to the scope before. -/
def withFrameCounted {α : Type} (f : FrameId) (act : CountedInteraction α) :
    CountedInteraction α := fun i w ledger =>
  let before := i.frame
  let ((a, i, w), ledger) := act { i with frame := f } w ledger
  ((a, { i with frame := before }, w), ledger.release w.heap [f])

end Interpreter
end ClosureLang
