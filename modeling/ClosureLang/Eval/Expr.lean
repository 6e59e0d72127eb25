import ClosureLang.Eval.Call

/-!
# The meaning of expressions

`evalNode` gives the meaning of one node from the meaning of its children, `ev`, and of calls,
`call`; it does not recur. Two recursions close it:

* `evalExpr` descends into children. A child comes before its parent, so from position `i` at
  most `i + 1` levels are reached, and that many are allowed.
* `callValue` descends into the bodies of called functions. The limit on active calls bounds it,
  and as many levels are allowed as further calls may begin.

Both are structural in the number of levels allowed, so evaluation ends for every input. That
levels never run out on programs as built is a property of the programs and of the call stack,
not an assumption of the definitions: where one does run out, the outcome is a fault.
-/

namespace ClosureLang.Eval

/-- Runs statements in order in the current scope. The value is that of the last; `last` is the
value so far. -/
@[specialize]
def runStmts (ev : ExprId → Eval Value) (last : Value) : List ExprId → Eval Value
  | [] => pure last
  | id :: ids => do
    let v ← ev id
    runStmts ev v ids

@[specialize]
def evalArgs (ev : ExprId → Eval Value) : List ExprId → Eval (List Value)
  | [] => pure []
  | id :: ids => do
    let v ← ev id
    let vs ← evalArgs ev ids
    pure (v :: vs)

/-- The meaning of a node, given that of its children and of calls. -/
@[specialize]
def evalNode (names : Interner) (call : Value → List Value → Eval Value)
    (ev : ExprId → Eval Value) : Node → Eval Value
  | .number x => pure (.number x)
  | .bool b => pure (.bool b)
  | .str text => pure (.str (names.lookup text))
  | .void => pure .void
  | .ident n => getVar names n
  | .letIn n init => do
    let v ← ev init
    defineVar names n v
    pure .void
  | .assign n value => do
    let v ← ev value
    setVar names n v
    pure .void
  | .compound op n value => do
    let v ← ev value
    updateVar names op n v
    pure .void
  | .binary op left right => do
    let l ← ev left
    let r ← ev right
    match op.apply l r with
    | .ok v => pure v
    | .error e => raise e
  | .function definition => makeFunction names definition
  | .call callee args => do
    let f ← ev callee
    let ids ← list args
    let vs ← evalArgs ev ids
    call f vs
  | .print args => do
    let ids ← list args
    let vs ← evalArgs ev ids
    printLine vs
    pure .void
  | .block stmts => do
    let ids ← list stmts
    let child ← newChild (← current)
    inFrame child (runStmts ev .void ids)
  | .ifElse cond thenBranch elseBranch => do
    let c ← ev cond
    if c.isTruthy then ev thenBranch
    else
      match elseBranch with
      | some e => ev e
      | none => pure .void
  | .ret none => .fail (.ret .void)
  | .ret (some value) => do
    let v ← ev value
    .fail (.ret v)

/-- The meaning of the expression at a position, within so many levels. -/
def evalExpr (names : Interner) (call : Value → List Value → Eval Value) :
    Nat → ExprId → Eval Value
  | 0, _ => fault .tooDeep
  | levels + 1, id => do
    let n ← node id
    evalNode names call (evalExpr names call levels) n

/-- Evaluates the expression at a position; it has no more levels than nodes up to there. -/
def evalFrom (names : Interner) (call : Value → List Value → Eval Value) (id : ExprId) :
    Eval Value := evalExpr names call (id + 1) id

/-- Runs a function's body in the frame of the call. The statements of a body that is a block
run in that very frame, among the parameters, and not in a scope of their own. -/
def runBody (names : Interner) (call : Value → List Value → Eval Value) (body : ExprId) :
    Eval Value := do
  match ← node body with
  | .block stmts =>
    let ids ← list stmts
    runStmts (evalExpr names call body) .void ids
  | _ => evalFrom names call body

def callValue (names : Interner) : Nat → Value → List Value → Eval Value
  | 0 => applyValue names fun _ => fault .tooManyCalls
  | room + 1 => applyValue names fun c => runBody names (callValue names room) c.code.body

end ClosureLang.Eval
