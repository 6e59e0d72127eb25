import ClosureLang.Interpreter

/-!
# What a piece of evaluation does to a machine

A machine is a `Context`, which every switch puts back, in front of a `World`, which evaluation
changes. Each primitive of evaluation gets one equation of the shape

    x (c.machine w) = (r, c.machine w')

so that a proof about evaluation speaks of worlds alone: that program, scope and calls are the
same afterwards is in the shape of the statement. The switches have the same equations with a
premise, namely one for what runs inside of them.

The frame of a call is created and filled by operations on the heap (`Closure.activate`). It
could as well be created by `newChild` and filled by declarations inside of it, which is what
`activate_eq` says; a fact about declaring variables is then also one about passing arguments.
-/

namespace ClosureLang

/-- The part of a machine that is the same after a piece of evaluation as before. -/
structure Context where
  arena : Arena
  frame : FrameId
  stack : CallStack

namespace Context

def machine (c : Context) (w : World) : Machine := ⟨c.arena, c.frame, c.stack, w.heap, w.sink⟩

theorem machine_inj {c : Context} {w w' : World} : c.machine w = c.machine w' ↔ w = w' := by
  cases w
  cases w'
  simp [machine]

/-- The same with another current scope. -/
def inFrame (c : Context) (f : FrameId) : Context := { c with frame := f }

end Context

/-- The stack once a call has begun. -/
def CallStack.enter (k : CallStack) (n : CallFrame) : CallStack :=
  { k with frames := k.frames.push n }

theorem CallStack.kind_attachBacktrace (k : CallStack) (e : EvalError) :
    (k.attachBacktrace e).kind = e.kind := by
  unfold attachBacktrace
  split <;> rfl

namespace Eval

variable {α β : Type} {names : Interner} {c : Context} {w w' : World} {f : FrameId} {n : Name}
  {v : Value}

/-! ## Sequencing -/

theorem bind_ok {x : Eval α} {g : α → Eval β} {a : α}
    (h : x (c.machine w) = (.ok a, c.machine w')) :
    (x >>= g) (c.machine w) = g a (c.machine w') := by
  rw [Attempt.bind_apply, h]

theorem bind_error {x : Eval α} {g : α → Eval β} {u : Unwind}
    (h : x (c.machine w) = (.error u, c.machine w')) :
    (x >>= g) (c.machine w) = (.error u, c.machine w') := by
  rw [Attempt.bind_apply, h]

/-! ## The current program -/

theorem node_machine (i : ExprId) :
    node i (c.machine w) = match c.arena.node? i with
      | some n => (.ok n, c.machine w)
      | none => (.error (.fault (.noNode i)), c.machine w) := rfl

theorem list_machine (s : Span) :
    list s (c.machine w) = match c.arena.list? s with
      | some ids => (.ok ids, c.machine w)
      | none => (.error (.fault (.noList s)), c.machine w) := rfl

/-! ## Variables -/

theorem onHeap_machine (op : Attempt Heap EvalError α) :
    onHeap op (c.machine w) =
      ((op w.heap).1.mapError .error, c.machine { w with heap := (op w.heap).2 }) := by
  simp only [onHeap, Context.machine]
  cases h : op w.heap with
  | mk r heap => cases r <;> rfl

theorem getVar_machine :
    getVar names n (c.machine w) = match w.heap.owner? c.frame n with
      | some g => (.ok (w.heap.valueAt g n), c.machine w)
      | none => (.error (.error (.ofKind (.unboundName (names.lookup n)))), c.machine w) := by
  simp only [getVar, Heap.get, Context.machine]
  cases w.heap.owner? c.frame n <;> rfl

theorem defineVar_machine :
    defineVar names n v (c.machine w) =
      if w.heap.binds c.frame n then
        (.error (.error (.ofKind (.duplicateBinding (names.lookup n)))), c.machine w)
      else (.ok (), c.machine { w with heap := w.heap.bind c.frame n v }) := by
  by_cases h : w.heap.binds c.frame n <;>
    simp [defineVar, Attempt.bind_apply, current, Attempt.read, onHeap, Attempt.mapError,
      Heap.define, Context.machine, h, EvalError.ofBinding]

theorem setVar_machine :
    setVar names n v (c.machine w) = match w.heap.owner? c.frame n with
      | some g => (.ok (), c.machine { w with heap := w.heap.overwrite g n v })
      | none => (.error (.error (.ofKind (.unboundName (names.lookup n)))), c.machine w) := by
  cases h : w.heap.owner? c.frame n <;>
    simp [setVar, Attempt.bind_apply, current, Attempt.read, onHeap, Attempt.mapError, Heap.set,
      Context.machine, h, EvalError.ofBinding]

theorem updateVar_machine (op : BinaryOp) :
    updateVar names op n v (c.machine w) = match w.heap.owner? c.frame n with
      | some g =>
        match op.apply (w.heap.valueAt g n) v with
        | .ok v => (.ok (), c.machine { w with heap := w.heap.overwrite g n v })
        | .error e => (.error (.error e), c.machine w)
      | none => (.error (.error (.ofKind (.unboundName (names.lookup n)))), c.machine w) := by
  cases h : w.heap.owner? c.frame n with
  | none =>
    simp [updateVar, Attempt.bind_apply, current, Attempt.read, onHeap, Attempt.mapError,
      Heap.update, Context.machine, h, EvalError.ofBinding]
  | some g =>
    cases h' : op.apply (w.heap.valueAt g n) v <;>
      simp [updateVar, Attempt.bind_apply, Attempt.pure_apply, current, Attempt.read, onHeap,
        Attempt.mapError, Heap.update, Context.machine, h, h', raise, Attempt.fail_apply]

/-! ## Frames, functions and output -/

theorem newChild_machine :
    newChild f (c.machine w) =
      (.ok w.heap.size, c.machine { w with heap := (w.heap.child f).2 }) := rfl

theorem makeFunction_machine (d : FunctionDef) :
    makeFunction names d (c.machine w) =
      (.ok (.function (w.heap.makeClosure ⟨c.arena, d, d.name.map names.lookup⟩ c.frame).1),
        c.machine { w with
          heap := (w.heap.makeClosure ⟨c.arena, d, d.name.map names.lookup⟩ c.frame).2 }) := rfl

theorem printLine_machine (vs : List Value) :
    printLine vs (c.machine w) =
      (.ok (), c.machine { w with
        sink := w.sink.println (" ".intercalate (vs.map Value.display)) }) := rfl

/-! ## Switches -/

theorem inFrame_machine {x : Eval α} {r : Except Unwind α}
    (h : x ((c.inFrame f).machine w) = (r, (c.inFrame f).machine w')) :
    inFrame f x (c.machine w) = (r, c.machine w') := by
  have hx : x { c.machine w with frame := f } = (r, (c.inFrame f).machine w') := h
  simp only [inFrame, hx]
  rfl

theorem inScope_machine {x : Eval α} {r : Except Unwind α} {a : Arena}
    (h : x (Context.machine ⟨a, f, c.stack⟩ w) = (r, Context.machine ⟨a, f, c.stack⟩ w')) :
    inScope f a x (c.machine w) = (r, c.machine w') := by
  have hx : x { c.machine w with frame := f, arena := a } =
      (r, Context.machine ⟨a, f, c.stack⟩ w') := h
  simp only [inScope, hx]
  rfl

theorem beginCall_machine {n : CallFrame} (hk : c.stack.depth < c.stack.maxDepth) :
    beginCall n (c.machine w) =
      (.ok (), Context.machine ⟨c.arena, c.frame, c.stack.enter n⟩ w) := by
  simp [beginCall, Context.machine, CallStack.push, CallStack.enter, Nat.not_le.2 hk]

theorem beginCall_full {n : CallFrame} (hk : c.stack.maxDepth ≤ c.stack.depth) :
    beginCall n (c.machine w) =
      (.error (.error (c.stack.attachBacktrace (.ofKind (.stackOverflow c.stack.maxDepth)))),
        c.machine w) := by
  simp [beginCall, Context.machine, CallStack.push, hk]

/-- What leaves a call whose calls in progress are `k`: an error takes them along as its
backtrace, all else is as it was. -/
def leaving (k : CallStack) : Except Unwind α → Except Unwind α
  | .error (.error e) => .error (.error (k.attachBacktrace e))
  | r => r

theorem duringCall_full {x : Eval α} {n : CallFrame} (h : c.stack.maxDepth ≤ c.stack.depth) :
    duringCall n x (c.machine w) =
      (.error (.error (c.stack.attachBacktrace (.ofKind (.stackOverflow c.stack.maxDepth)))),
        c.machine w) := bind_error (beginCall_full h)

/-- What is done after the body of a call. -/
theorem thenEndCall_machine (n : CallFrame) (r : Except Unwind α) (w : World) :
    thenEndCall (withBacktrace fun m => (r, m))
        (Context.machine ⟨c.arena, c.frame, c.stack.enter n⟩ w) =
      (leaving (c.stack.enter n) r, c.machine w) := by
  have hpop : (c.stack.enter n).pop = c.stack := by simp [CallStack.enter, CallStack.pop]
  have hne : (c.stack.enter n).isEmpty = false := by simp [CallStack.enter, CallStack.isEmpty]
  simp only [thenEndCall, withBacktrace]
  cases r with
  | ok a => simp [leaving, endCall, Context.machine, hne, hpop]
  | error u => cases u <;> simp [leaving, endCall, Context.machine, hne, hpop]

theorem duringCall_machine {x : Eval α} {n : CallFrame} {r : Except Unwind α}
    (hk : c.stack.depth < c.stack.maxDepth)
    (h : x (Context.machine ⟨c.arena, c.frame, c.stack.enter n⟩ w) =
      (r, Context.machine ⟨c.arena, c.frame, c.stack.enter n⟩ w')) :
    duringCall n x (c.machine w) = (leaving (c.stack.enter n) r, c.machine w') := by
  rw [duringCall, Attempt.bind_apply, beginCall_machine hk, ← thenEndCall_machine n r w']
  simp only [thenEndCall, withBacktrace, h]

/-- What a call or a program makes of the way its body was left. -/
def settled : Except Unwind Value → Except Unwind Value
  | .error (.ret v) => .ok v
  | r => r

theorem settle_machine {x : Eval Value} {r : Except Unwind Value}
    (h : x (c.machine w) = (r, c.machine w')) :
    settle x (c.machine w) = (settled r, c.machine w') := by
  simp only [settle, h]
  cases r with
  | ok a => rfl
  | error u => cases u <;> rfl

/-! ## Nodes and bodies -/

theorem evalExpr_succ {call : Value → List Value → Eval Value} {i : ExprId} {nd : Node} (l : Nat)
    (hn : c.arena.node? i = some nd) :
    evalExpr names call (l + 1) i (c.machine w) =
      evalNode names call (evalExpr names call l) nd (c.machine w) := by
  rw [evalExpr, Attempt.bind_apply, node_machine, hn]

/-- The statements of a block run in a scope of their own. -/
theorem evalExpr_block {call : Value → List Value → Eval Value} {i : ExprId} {s : Span}
    {ids : List ExprId} (l : Nat) (hn : c.arena.node? i = some (.block s))
    (hlist : c.arena.list? s = some ids) :
    evalExpr names call (l + 1) i (c.machine w) =
      inFrame w.heap.size (runStmts (evalExpr names call l) .void ids)
        (c.machine { w with heap := (w.heap.child c.frame).2 }) := by
  rw [evalExpr_succ l hn, evalNode, Attempt.bind_apply, list_machine, hlist]
  rfl

theorem runBody_block {call : Value → List Value → Eval Value} {body : Nat} {s : Span}
    {ids : List ExprId} (hbody : c.arena.node? body = some (.block s))
    (hlist : c.arena.list? s = some ids) :
    runBody names call body (c.machine w) =
      runStmts (evalExpr names call body) .void ids (c.machine w) := by
  rw [runBody, Attempt.bind_apply, node_machine, hbody]
  simp only []
  rw [Attempt.bind_apply, list_machine, hlist]

/-! ## The frame of a call -/

/-- Declares names with their values, from left to right, in the current scope. -/
def defineAll (names : Interner) : List Name → List Value → Eval Unit
  | n :: ns, v :: vs => do
    defineVar names n v
    defineAll names ns vs
  | _, _ => pure ()

theorem onHeap_bindParams (names : Interner) (f : FrameId) :
    ∀ (ns : List Name) (vs : List Value),
      onHeap (Closure.bindParams names f ns vs) = inFrame f (defineAll names ns vs)
  | [], _ => rfl
  | _ :: _, [] => rfl
  | n :: ns, v :: vs => by
    funext m
    have ih := congrFun (onHeap_bindParams names f ns vs)
    simp only [Closure.bindParams, defineAll, onHeap, inFrame, defineVar, Attempt.bind_apply,
      current, Attempt.read, Attempt.mapError] at ih ⊢
    cases h : Heap.define f n v m.heap with
    | mk r h' =>
      cases r with
      | ok a => simpa using ih { m with heap := h' }
      | error e => simp

theorem activate_eq (names : Interner) (c : Closure) (args : List Value) :
    activate names c args = match c.code.params? with
      | none => fault (.noParams c.code.definition.params)
      | some ps =>
        if ps.length = args.length then do
          let f ← newChild c.frame
          inFrame f (defineAll names ps args)
          pure f
        else raise (.ofKind (.arityMismatch c.displayName ps.length args.length)) := by
  unfold activate
  cases c.code.params? with
  | none => rfl
  | some ps =>
    funext m
    by_cases h : ps.length = args.length
    · have hb := congrFun (onHeap_bindParams names m.heap.size ps args)
        { m with heap := (m.heap.child c.frame).2 }
      have hs : (m.heap.child c.frame).1 = m.heap.size := rfl
      simp only [h, if_true, Attempt.bind_apply, newChild, hs]
      rw [← hb]
      simp only [onHeap, Closure.activate, h, if_true, hs]
      cases Closure.bindParams names m.heap.size ps args (m.heap.child c.frame).2 with
      | mk r h' => cases r <;> rfl
    · simp [h, onHeap, Closure.activate, raise, Attempt.fail_apply]

/-- Up to the body, a call is the same for any number of further calls. -/
theorem callValue_eq (names : Interner) (q : Nat) :
    ∃ run, callValue names q = applyValue names run := by
  cases q with
  | zero => exact ⟨_, rfl⟩
  | succ q => exact ⟨_, rfl⟩

/-- A call that the limit admits: its frame is made, its body runs there, and its end is settled. -/
theorem callValue_machine {q : Nat} {f : Closure} {args : List Value} {w₁ w₂ : World} {g : FrameId}
    {r : Except Unwind Value} (hdepth : c.stack.depth < c.stack.maxDepth)
    (hact : activate names f args (c.machine w) = (.ok g, c.machine w₁))
    (hbody : runBody names (callValue names q) f.code.body
      (Context.machine ⟨f.code.arena, g, c.stack.enter ⟨f.name⟩⟩ w₁) =
      (r, Context.machine ⟨f.code.arena, g, c.stack.enter ⟨f.name⟩⟩ w₂)) :
    callValue names (q + 1) (.function f) args (c.machine w) =
      (leaving (c.stack.enter ⟨f.name⟩) (settled r), c.machine w₂) := by
  simp only [callValue, applyValue]
  rw [bind_ok hact]
  exact duringCall_machine hdepth (inScope_machine (settle_machine hbody))

end Eval

/-! ## Interpreters -/

namespace Interpreter

/-- What an interpreter's machine keeps. -/
def context (i : Interpreter) : Context := ⟨i.arena, i.frame, i.stack⟩

theorem perform_machine {i : Interpreter} {x : Eval Value} {r : Except Unwind Value} {w w' : World}
    (h : x (i.context.machine w) = (r, i.context.machine w')) :
    perform x i w = (.ofResult r, i, w') := by
  have hx : x (i.machine w) = (r, i.context.machine w') := h
  simp only [perform, hx]
  rfl

/-- The same from a host. -/
theorem invoke_machine {i : Interpreter} {names : Interner} {c : Closure} {args : List Value}
    {w w₁ w₂ : World} {f : FrameId} {r : Except Unwind Value}
    (hdepth : i.stack.depth < i.stack.maxDepth)
    (hact : Eval.activate names c args (i.context.machine w) = (.ok f, i.context.machine w₁))
    (hbody : Eval.runBody names (Eval.callValue names (i.room - 1)) c.code.body
      (Context.machine ⟨c.code.arena, f, i.stack.enter ⟨c.name⟩⟩ w₁) =
      (r, Context.machine ⟨c.code.arena, f, i.stack.enter ⟨c.name⟩⟩ w₂)) :
    i.invoke names (.function c) args w =
      (.ofResult (Eval.leaving (i.stack.enter ⟨c.name⟩) (Eval.settled r)), i, w₂) := by
  have hroom : i.room = i.room - 1 + 1 := by
    simp only [room]
    omega
  apply perform_machine
  rw [hroom]
  exact Eval.callValue_machine hdepth hact hbody

end Interpreter
end ClosureLang
