import ClosureLang.Proofs.Eval.Steps

/-!
# One piece of evaluation in several variants

The evaluator within some number of levels and without a bound, under one limit on active calls
and under another: such variants of a piece of evaluation differ in how calls and children are
evaluated and in nothing else. A property of the variants together is `Compositional` when the
primitives have it, of which there is only one variant each, and every way of putting pieces
together keeps it. Then a node has it if its children and calls do, and so on for the rest of
the evaluator; what remains to be shown of a concrete property is how its recursions are closed.

A property may depend on the calls in progress. A piece that runs as a call has it with one more.
-/

namespace ClosureLang
namespace Eval

/-- Evaluation that consults neither the meaning of children nor that of calls. -/
inductive Primitive (names : Interner) : {α : Type} → Eval α → Prop
  | pure {α : Type} (a : α) : Primitive names (pure a)
  | fail {α : Type} (u : Unwind) : Primitive names (.fail u : Eval α)
  | node (i : ExprId) : Primitive names (node i)
  | list (s : Span) : Primitive names (list s)
  | current : Primitive names current
  | getVar (n : Name) : Primitive names (getVar names n)
  | defineVar (n : Name) (v : Value) : Primitive names (defineVar names n v)
  | setVar (n : Name) (v : Value) : Primitive names (setVar names n v)
  | updateVar (op : BinaryOp) (n : Name) (v : Value) : Primitive names (updateVar names op n v)
  | newChild (f : FrameId) : Primitive names (newChild f)
  | makeFunction (d : FunctionDef) : Primitive names (makeFunction names d)
  | printLine (vs : List Value) : Primitive names (printLine vs)
  | activate (c : Closure) (args : List Value) : Primitive names (activate names c args)

/-- **Primitives do not look at the calls in progress**, and print one line at most. -/
theorem Primitive.run {names : Interner} {α : Type} {x : Eval α} (hx : x.Primitive names)
    (a : Arena) (f : FrameId) (w : World) : ∃ r w',
      (∀ k, x (Context.machine ⟨a, f, k⟩ w) = (r, Context.machine ⟨a, f, k⟩ w')) ∧
      (w'.sink = w.sink ∨ ∃ line, w'.sink = w.sink.println line) := by
  cases hx with
  | pure v => exact ⟨_, w, fun _ => rfl, .inl rfl⟩
  | fail u => exact ⟨_, w, fun _ => rfl, .inl rfl⟩
  | current => exact ⟨.ok f, w, fun _ => rfl, .inl rfl⟩
  | newChild g => exact ⟨_, _, fun _ => newChild_machine, .inl rfl⟩
  | makeFunction d =>
    let made := w.heap.makeClosure ⟨a, d, d.name.map names.lookup⟩ f
    exact ⟨.ok (.function made.1), { w with heap := made.2 }, fun _ => rfl, .inl rfl⟩
  | printLine vs => exact ⟨_, _, fun _ => printLine_machine vs, .inr ⟨_, rfl⟩⟩
  | node i =>
    simp only [node_machine]
    cases a.node? i <;> exact ⟨_, w, fun _ => rfl, .inl rfl⟩
  | list s =>
    simp only [list_machine]
    cases a.list? s <;> exact ⟨_, w, fun _ => rfl, .inl rfl⟩
  | getVar n =>
    simp only [getVar_machine]
    cases w.heap.owner? f n <;> exact ⟨_, w, fun _ => rfl, .inl rfl⟩
  | defineVar n v =>
    simp only [defineVar_machine]
    by_cases h : w.heap.binds f n <;> simp only [h] <;> exact ⟨_, _, fun _ => rfl, .inl rfl⟩
  | setVar n v =>
    simp only [setVar_machine]
    cases w.heap.owner? f n <;> exact ⟨_, _, fun _ => rfl, .inl rfl⟩
  | updateVar op n v =>
    simp only [updateVar_machine]
    cases w.heap.owner? f n with
    | none => exact ⟨_, _, fun _ => rfl, .inl rfl⟩
    | some o =>
      dsimp only
      cases op.apply (w.heap.valueAt o n) v <;> exact ⟨_, _, fun _ => rfl, .inl rfl⟩
  | activate c args =>
    unfold Eval.activate
    cases c.code.params? with
    | none => exact ⟨_, w, fun _ => rfl, .inl rfl⟩
    | some ps => exact ⟨_, _, fun _ => onHeap_machine _, .inl rfl⟩

end Eval

/-- **What a property of variants has to satisfy**, `ι` telling the variants apart. -/
structure Compositional {ι : Type} (names : Interner)
    (P : CallStack → {α : Type} → (ι → Eval α) → Prop) : Prop where
  primitive : ∀ {k : CallStack} {α : Type} {x : Eval α}, x.Primitive names → P k fun _ => x
  bind : ∀ {k : CallStack} {α β : Type} {X : ι → Eval α} {F : ι → α → Eval β}, P k X →
    (∀ a, P k fun j => F j a) → P k fun j => X j >>= F j
  inFrame : ∀ {k : CallStack} {α : Type} {X : ι → Eval α} (f : FrameId), P k X →
    P k fun j => Eval.inFrame f (X j)
  inScope : ∀ {k : CallStack} {α : Type} {X : ι → Eval α} (f : FrameId) (a : Arena), P k X →
    P k fun j => Eval.inScope f a (X j)
  settle : ∀ {k : CallStack} {X : ι → Eval Value}, P k X → P k fun j => Eval.settle (X j)
  duringCall : ∀ {k : CallStack} {α : Type} {X : ι → Eval α} (n : CallFrame), P (k.enter n) X →
    P k fun j => Eval.duringCall n (X j)

namespace Compositional

variable {ι : Type} {names : Interner} {P : CallStack → {α : Type} → (ι → Eval α) → Prop}
  {k : CallStack} {ev : ι → ExprId → Eval Value} {call : ι → Value → List Value → Eval Value}
  (C : Compositional names P)
include C

theorem pure {α : Type} (a : α) : P k fun _ => (Pure.pure a : Eval α) := C.primitive (.pure a)

theorem runStmts (hev : ∀ i, P k fun j => ev j i) (last : Value) (ids : List ExprId) :
    P k fun j => Eval.runStmts (ev j) last ids := by
  induction ids generalizing last with
  | nil => exact C.pure last
  | cons i ids ih => exact C.bind (hev i) fun v => ih v

theorem evalArgs (hev : ∀ i, P k fun j => ev j i) (ids : List ExprId) :
    P k fun j => Eval.evalArgs (ev j) ids := by
  induction ids with
  | nil => exact C.pure []
  | cons i ids ih => exact C.bind (hev i) fun v => C.bind ih fun vs => C.pure (v :: vs)

/-- **A node has the property if its children and the calls that it makes do.** -/
theorem evalNode (hcall : ∀ v vs, P k fun j => call j v vs) (hev : ∀ i, P k fun j => ev j i)
    (n : Node) : P k fun j => Eval.evalNode names (call j) (ev j) n := by
  have thenVoid : ∀ {x : Eval Unit}, x.Primitive names →
      P k fun _ => x >>= fun _ => Pure.pure Value.void :=
    fun h => C.bind (C.primitive h) fun _ => C.pure Value.void
  cases n with
  | number x => exact C.pure _
  | bool b => exact C.pure _
  | str t => exact C.pure _
  | void => exact C.pure _
  | ident n => exact C.primitive (.getVar n)
  | letIn n i => exact C.bind (hev i) fun v => thenVoid (.defineVar n v)
  | assign n i => exact C.bind (hev i) fun v => thenVoid (.setVar n v)
  | compound op n i => exact C.bind (hev i) fun v => thenVoid (.updateVar op n v)
  | binary op l r =>
    refine C.bind (hev l) fun v => C.bind (hev r) fun w => ?_
    cases op.apply v w with
    | ok u => exact C.pure u
    | error e => exact C.primitive (.fail (.error e))
  | function d => exact C.primitive (.makeFunction d)
  | call f s =>
    exact C.bind (hev f) fun v => C.bind (C.primitive (.list s)) fun ids =>
      C.bind (C.evalArgs hev ids) fun vs => hcall v vs
  | print s =>
    exact C.bind (C.primitive (.list s)) fun ids => C.bind (C.evalArgs hev ids) fun vs =>
      thenVoid (.printLine vs)
  | block s =>
    exact C.bind (C.primitive (.list s)) fun ids => C.bind (C.primitive .current) fun f =>
      C.bind (C.primitive (.newChild f)) fun g => C.inFrame g (C.runStmts hev .void ids)
  | ifElse c t e =>
    refine C.bind (hev c) fun v => ?_
    cases v.isTruthy with
    | true => exact hev t
    | false =>
      cases e with
      | none => exact C.pure _
      | some e => exact hev e
  | ret v =>
    cases v with
    | none => exact C.primitive (.fail _)
    | some i => exact C.bind (hev i) fun v => C.primitive (.fail (.ret v))

theorem applyValue {run : ι → Closure → Eval Value}
    (hrun : ∀ c : Closure, P (k.enter ⟨c.name⟩) fun j => run j c) (v : Value) (vs : List Value) :
    P k fun j => Eval.applyValue names (run j) v vs := by
  cases v with
  | function c =>
    exact C.bind (C.primitive (.activate c vs)) fun f =>
      C.duringCall _ (C.inScope f c.code.arena (C.settle (hrun c)))
  | _ => exact C.primitive (.fail _)

theorem evalExpr (hcall : ∀ v vs, P k fun j => call j v vs) (l : Nat) (i : ExprId) :
    P k fun j => Eval.evalExpr names (call j) l i := by
  induction l generalizing i with
  | zero => exact C.primitive (.fail _)
  | succ l ih => exact C.bind (C.primitive (.node i)) fun n => C.evalNode hcall ih n

theorem runBody (hcall : ∀ v vs, P k fun j => call j v vs) (body : ExprId) :
    P k fun j => Eval.runBody names (call j) body := by
  refine C.bind (C.primitive (.node body)) fun n => ?_
  cases n with
  | block s =>
    exact C.bind (C.primitive (.list s)) fun ids =>
      C.runStmts (C.evalExpr hcall body) .void ids
  | _ => exact C.evalExpr hcall (body + 1) body

/-- A call has the property for any number of further calls. -/
theorem callValue (q : Nat) (v : Value) (vs : List Value) :
    P k fun _ => Eval.callValue names q v vs := by
  induction q generalizing k v vs with
  | zero => exact C.applyValue (fun _ => C.primitive (.fail _)) v vs
  | succ q ih => exact C.applyValue (fun c => C.runBody ih c.code.body) v vs

end Compositional
end ClosureLang
