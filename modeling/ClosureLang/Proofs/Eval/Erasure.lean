import ClosureLang.Eval.Counted
import ClosureLang.Proofs.Store

/-!
# Counting makes no difference

With the numbers left out, evaluation with counts is evaluation: it yields the same, fails in the
same way, and leaves the machine in the same state (`Counted.Erases`). There is one rule for each
way of putting pieces together, and with these the recursions of both evaluators are followed side
by side. What is proved of evaluation is thereby proved of evaluation with counts.
-/

namespace ClosureLang
namespace Counted

variable {α β : Type} {x : Counted α} {y : Eval α} {names : Interner}

/-- Without its ledger, `x` is `y`. -/
def Erases (x : Counted α) (y : Eval α) : Prop :=
  ∀ m l, ∃ l', x ⟨m, l⟩ = ((y m).1, ⟨(y m).2, l'⟩)

namespace Erases

/-! ## Putting pieces together -/

theorem lift (y : Eval α) : Erases (lift y) y := fun _ l => ⟨l, rfl⟩

theorem pure (a : α) : Erases (pure a) (pure a) := fun _ l => ⟨l, rfl⟩

theorem bind {g : α → Counted β} {k : α → Eval β} (hx : Erases x y) (hg : ∀ a, Erases (g a) (k a)) :
    Erases (x >>= g) (y >>= k) := by
  intro m l
  obtain ⟨l', hl⟩ := hx m l
  rw [Attempt.bind_apply, Attempt.bind_apply, hl]
  rcases y m with ⟨u | a, m'⟩
  · exact ⟨l', rfl⟩
  · exact hg a m' l'

theorem onStore {op : Attempt Store EvalError α} {hop : Attempt Heap EvalError α}
    (hop' : Store.Counts op hop) : Erases (onStore op) (Eval.onHeap hop) := by
  intro m l
  obtain ⟨l', hl⟩ := hop' ⟨m.heap, l⟩
  simp only [Counted.onStore, Eval.onHeap, hl]
  rcases hop m.heap with ⟨e | a, h⟩ <;> exact ⟨l', rfl⟩

theorem holding (hx : Erases x y) (fs : List FrameId) : Erases (holding fs x) y := by
  intro m l
  obtain ⟨l', hl⟩ := hx m l
  rw [Counted.holding, Attempt.ensuring, hl]
  exact ⟨_, rfl⟩

theorem orLetGo (hx : Erases x y) (fs : List FrameId) : Erases (orLetGo fs x) y := by
  intro m l
  obtain ⟨l', hl⟩ := hx m l
  rw [Counted.orLetGo, Attempt.onFailure, hl]
  rcases y m with ⟨u | a, m'⟩ <;> exact ⟨_, rfl⟩

theorem afterLetGo (hx : Erases x y) (fs : List FrameId) :
    Erases (.modify (letGo fs) >>= fun _ => x) y := fun m l => hx m (l.release m.heap fs)

theorem inFrame (hx : Erases x y) (f : FrameId) : Erases (inFrame f x) (Eval.inFrame f y) := by
  intro m l
  obtain ⟨l', hl⟩ := hx { m with frame := f } l
  simp only [Counted.inFrame, Eval.inFrame, hl]
  exact ⟨l', rfl⟩

theorem inScope (hx : Erases x y) (f : FrameId) (a : Arena) :
    Erases (inScope f a x) (Eval.inScope f a y) := by
  intro m l
  obtain ⟨l', hl⟩ := hx { m with frame := f, arena := a } l
  simp only [Counted.inScope, Eval.inScope, hl]
  exact ⟨l', rfl⟩

theorem followedBy {f : Eval α → Eval α} (hx : Erases x y)
    (hf : ∀ m, f y m = f (fun n => ((y m).1, n)) (y m).2) :
    Erases (followedBy f x) (f y) := by
  intro m l
  obtain ⟨l', hl⟩ := hx m l
  rw [Counted.followedBy, hl, hf]
  exact ⟨l', rfl⟩

theorem duringCall (hx : Erases x y) (c : CallFrame) :
    Erases (duringCall c x) (Eval.duringCall c y) :=
  (lift _).bind fun _ => hx.followedBy fun _ => rfl

theorem settle {x : Counted Value} {y : Eval Value} (hx : Erases x y) :
    Erases (settle x) (Eval.settle y) := hx.followedBy fun _ => rfl

/-! ## Variables, frames and functions -/

theorem getVar (n : Name) : Erases (getVar names n) (Eval.getVar names n) := by
  intro m l
  simp only [Counted.getVar, Attempt.bind_apply, Counted.lift, Eval.current, Attempt.read,
    Counted.onStore, Attempt.mapError, Store.get, Eval.getVar]
  cases m.heap.get m.frame n <;> exact ⟨_, rfl⟩

theorem defineVar (n : Name) (v : Value) :
    Erases (defineVar names n v) (Eval.defineVar names n v) :=
  (lift _).bind fun f => .onStore ((Store.Counts.define f n v).mapError _)

theorem setVar (n : Name) (v : Value) : Erases (setVar names n v) (Eval.setVar names n v) :=
  (lift _).bind fun f => .onStore ((Store.Counts.set f n v).mapError _)

theorem updateVar (op : BinaryOp) (n : Name) (v : Value) :
    Erases (updateVar names op n v) (Eval.updateVar names op n v) :=
  (lift _).bind fun f => (onStore ((Store.Counts.update f n _).mapError _)).bind fun r =>
    match r with
    | .ok _ => pure ()
    | .error e => lift (Eval.raise e)

theorem newChild (f : FrameId) : Erases (newChild f) (Eval.newChild f) := fun _ _ => ⟨_, rfl⟩

theorem makeFunction (d : FunctionDef) :
    Erases (makeFunction names d) (Eval.makeFunction names d) := fun _ _ => ⟨_, rfl⟩

/-! ## Calls and expressions -/

theorem activate (c : Closure) (args : List Value) :
    Erases (activate names c args) (Eval.activate names c args) := by
  unfold Counted.activate Eval.activate
  cases c.code.params? with
  | some params => exact .onStore (.activate c names params args)
  | none => exact (lift _).orLetGo _

theorem applyValue {run : Closure → Counted Value} {run' : Closure → Eval Value}
    (hrun : ∀ c, Erases (run c) (run' c)) (v : Value) (args : List Value) :
    Erases (applyValue names run v args) (Eval.applyValue names run' v args) := by
  cases v with
  | function c =>
    exact (activate c args).bind fun f => ((((hrun c).settle).inScope f _).duringCall _).holding _
  | _ => exact (lift _).orLetGo _

variable {ev : ExprId → Counted Value} {ev' : ExprId → Eval Value}
  {call : Value → List Value → Counted Value} {call' : Value → List Value → Eval Value}

theorem runStmts (hev : ∀ i, Erases (ev i) (ev' i)) (ids : List ExprId) (last : Value) :
    Erases (runStmts ev last ids) (Eval.runStmts ev' last ids) := by
  induction ids generalizing last with
  | nil => exact pure last
  | cons i ids ih => exact ((hev i).holding _).bind fun v => ih v

theorem evalArgs (hev : ∀ i, Erases (ev i) (ev' i)) (ids : List ExprId) :
    Erases (evalArgs ev ids) (Eval.evalArgs ev' ids) := by
  induction ids with
  | nil => exact pure []
  | cons i ids ih => exact (hev i).bind fun v => (ih.orLetGo _).bind fun vs => pure (v :: vs)

theorem evalNode (hcall : ∀ v vs, Erases (call v vs) (call' v vs))
    (hev : ∀ i, Erases (ev i) (ev' i)) (n : Node) :
    Erases (evalNode names call ev n) (Eval.evalNode names call' ev' n) := by
  cases n with
  | number | bool | str | void => exact pure _
  | ident n => exact getVar n
  | letIn n i => exact (hev i).bind fun v => (defineVar n v).bind fun _ => pure _
  | assign n i => exact (hev i).bind fun v => (setVar n v).bind fun _ => pure _
  | compound op n i =>
    exact (hev i).bind fun v => ((updateVar op n v).holding _).bind fun _ => pure _
  | binary op i j =>
    refine (hev i).bind fun l => ((hev j).bind fun r => ?_).holding _
    cases op.apply l r with
    | ok v => exact (pure v).holding _
    | error e => exact (lift _).holding _
  | function d => exact makeFunction d
  | call i args =>
    exact (hev i).bind fun f => ((lift _).bind fun ids => (evalArgs hev ids).bind fun vs =>
      hcall f vs).holding _
  | print args =>
    exact (lift _).bind fun ids => (evalArgs hev ids).bind fun vs =>
      ((lift _).holding _).bind fun _ => pure _
  | block stmts =>
    exact (lift _).bind fun ids => (lift _).bind fun f => (newChild f).bind fun child =>
      ((runStmts hev ids .void).inFrame child).holding _
  | ifElse i j k =>
    refine (hev i).bind fun c => afterLetGo ?_ _
    split
    · exact hev j
    · cases k with
      | some k => exact hev k
      | none => exact pure _
  | ret i =>
    cases i with
    | none => exact lift (.fail (.ret .void))
    | some i => exact (hev i).bind fun v => lift _

theorem evalExpr (hcall : ∀ v vs, Erases (call v vs) (call' v vs)) (levels : Nat) (i : ExprId) :
    Erases (evalExpr names call levels i) (Eval.evalExpr names call' levels i) := by
  induction levels generalizing i with
  | zero => exact lift _
  | succ levels ih => exact (lift _).bind fun n => evalNode hcall ih n

theorem runBody (hcall : ∀ v vs, Erases (call v vs) (call' v vs)) (body : ExprId) :
    Erases (runBody names call body) (Eval.runBody names call' body) := by
  refine (lift _).bind fun n => ?_
  cases n with
  | block stmts => exact (lift _).bind fun ids => runStmts (evalExpr hcall body) ids .void
  | _ => exact evalExpr hcall (body + 1) body

theorem callValue (room : Nat) (v : Value) (args : List Value) :
    Erases (callValue names room v args) (Eval.callValue names room v args) := by
  induction room generalizing v args with
  | zero => exact applyValue (fun _ => lift _) v args
  | succ room ih => exact applyValue (fun c => runBody ih c.code.body) v args

end Erases
end Counted

/-! ## For a host -/

namespace Interpreter

variable {x : Counted Value} {y : Eval Value}

theorem performCounted_fst (hx : x.Erases y) (i : Interpreter) (w : World) (l : Ledger) :
    (performCounted x i w l).1 = perform y i w := by
  obtain ⟨l', hl⟩ := hx (i.machine w) l
  rw [performCounted, hl, perform]

/-- **An evaluation with counts is an evaluation.** -/
theorem evalCounted_fst (names : Interner) (root : ExprId) (i : Interpreter) (w : World)
    (l : Ledger) : (evalCounted names root i w l).1 = eval names root i w :=
  performCounted_fst (.evalExpr (.callValue i.room) (root + 1) root) i w l

/-- So is a call. -/
theorem invokeCounted_fst (names : Interner) (callee : Value) (args : List Value) (i : Interpreter)
    (w : World) (l : Ledger) :
    (invokeCounted names callee args i w l).1 = invoke names callee args i w :=
  performCounted_fst (.callValue i.room callee args) i w l

theorem withFrameCounted_fst {α : Type} {act : CountedInteraction α} {act' : Interaction α}
    (hact : ∀ i w l, (act i w l).1 = act' i w) (f : FrameId) (i : Interpreter) (w : World)
    (l : Ledger) : (withFrameCounted f act i w l).1 = withFrame f act' i w := by
  simp only [withFrameCounted, withFrame, hact]

end Interpreter
end ClosureLang
