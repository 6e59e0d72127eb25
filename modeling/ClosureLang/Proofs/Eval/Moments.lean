import ClosureLang.Proofs.Eval.Operands

/-!
# The moments of a run

A run is a nesting of evaluations and calls, and a `Moment` is the point at which one of them
begins: with a task, in a context and in a world. `Begins names m calls n` says that `n` begins
directly in the course of `m`, and `During` that it does so at any depth. Both list the calls
that begin on the way, innermost first. A call is listed when its body is entered, so a call that
is refused never is.

That list is about the nesting alone. The calls in progress at a moment are kept in a stack, and
`During.capture` says that the two agree.
-/

namespace ClosureLang

/-- What begins at a moment: the evaluation of an expression, within so many levels, a call, or
the body of a call, which is the current program's code at a position. -/
inductive Task where
  | expr (levels : Nat) (id : ExprId)
  | call (callee : Value) (args : List Value)
  | body (id : ExprId)

structure Moment where
  /-- For so many further calls there is room. -/
  room : Nat
  task : Task
  context : Context
  world : World

namespace Moment

def eval (names : Interner) (m : Moment) : Eval Value :=
  match m.task with
  | .expr l i => Eval.evalExpr names (Eval.callValue names m.room) l i
  | .call v vs => Eval.callValue names m.room v vs
  | .body i => Eval.runBody names (Eval.callValue names m.room) i

/-- How what begins at the moment ends. -/
def result (names : Interner) (m : Moment) : Except Unwind Value :=
  (m.eval names (m.context.machine m.world)).1

/-- The calls in progress. -/
def stack (m : Moment) : CallStack := m.context.stack

theorem returns (names : Interner) (m : Moment) : (m.eval names).Returns := by
  unfold eval
  cases m.task with
  | expr l i => exact .evalExpr (.callValue m.room) l i
  | call v vs => exact .callValue m.room v vs
  | body i => exact .runBody (.callValue m.room) i

theorem returns_evalExpr (names : Interner) (q l : Nat) (i : ExprId) :
    (Eval.evalExpr names (Eval.callValue names q) l i).Returns :=
  .evalExpr (.callValue q) l i

/-- An expression evaluates its operands and then does one thing with their values. -/
theorem eval_expr {names : Interner} {q l : Nat} {id : ExprId} {c : Context} {w : World} {nd : Node}
    (hn : c.arena.node? id = some nd) :
    eval names ⟨q, .expr (l + 1) id, c, w⟩ (c.machine w) =
      (Eval.evalArgs (Eval.evalExpr names (Eval.callValue names q) l) (nd.operands c.arena) >>=
        Eval.conclude names (Eval.callValue names q)
          (Eval.evalExpr names (Eval.callValue names q) l) nd) (c.machine w) :=
  (Eval.evalExpr_succ l hn).trans (Eval.evalNode_machine (returns_evalExpr names q l) nd c w)

end Moment

/-- **What begins directly in the course of what**, with the name of the function whose body is
entered by it. -/
inductive Begins (names : Interner) : Moment → List String → Moment → Prop
  /-- An operand begins when those before it have their values. -/
  | operand {q l : Nat} {id : ExprId} {c : Context} {w w' : World} {n : Node}
      {done rest : List ExprId} {i : ExprId} {vs : List Value}
      (hn : c.arena.node? id = some n) (hids : n.operands c.arena = done ++ i :: rest)
      (hdone : Eval.evalArgs (Eval.evalExpr names (Eval.callValue names q) l) done (c.machine w) =
        (.ok vs, c.machine w')) :
      Begins names ⟨q, .expr (l + 1) id, c, w⟩ [] ⟨q, .expr l i, c, w'⟩
  /-- A branch of a conditional begins when its condition has a value. -/
  | branch {q l : Nat} {id : ExprId} {c : Context} {w w' : World} {cond i j : ExprId}
      {e : Option ExprId} {v : Value} (hn : c.arena.node? id = some (.ifElse cond i e))
      (hcond : Eval.evalExpr names (Eval.callValue names q) l cond (c.machine w) =
        (.ok v, c.machine w'))
      (hj : (if v.isTruthy then some i else e) = some j) :
      Begins names ⟨q, .expr (l + 1) id, c, w⟩ [] ⟨q, .expr l j, c, w'⟩
  /-- A statement of a block begins in the scope of the block, when those before it are done. -/
  | statement {q l : Nat} {id : ExprId} {c : Context} {w w' : World} {s : Span}
      {done rest : List ExprId} {i : ExprId} {vs : List Value}
      (hn : c.arena.node? id = some (.block s)) (hids : c.arena.list? s = some (done ++ i :: rest))
      (hdone : Eval.evalArgs (Eval.evalExpr names (Eval.callValue names q) l) done
        ((c.inFrame w.heap.size).machine { w with heap := (w.heap.child c.frame).2 }) =
        (.ok vs, (c.inFrame w.heap.size).machine w')) :
      Begins names ⟨q, .expr (l + 1) id, c, w⟩ [] ⟨q, .expr l i, c.inFrame w.heap.size, w'⟩
  /-- A call begins when the callee and the arguments have their values. -/
  | call {q l : Nat} {id : ExprId} {c : Context} {w w' : World} {f : ExprId} {s : Span}
      {ids : List ExprId} {v : Value} {vs : List Value}
      (hn : c.arena.node? id = some (.call f s)) (hids : c.arena.list? s = some ids)
      (hdone : Eval.evalArgs (Eval.evalExpr names (Eval.callValue names q) l) (f :: ids)
        (c.machine w) = (.ok (v :: vs), c.machine w')) :
      Begins names ⟨q, .expr (l + 1) id, c, w⟩ [] ⟨q, .call v vs, c, w'⟩
  /-- A body is entered in the frame of the call, once the limit has admitted it. -/
  | body {q : Nat} {f : Closure} {vs : List Value} {c : Context} {w w' : World} {g : FrameId}
      (hact : Eval.activate names f vs (c.machine w) = (.ok g, c.machine w'))
      (hroom : c.stack.depth < c.stack.maxDepth) :
      Begins names ⟨q + 1, .call (.function f) vs, c, w⟩ [f.displayName]
        ⟨q, .body f.code.body, ⟨f.code.arena, g, c.stack.enter ⟨f.name⟩⟩, w'⟩
  /-- A statement of a body begins in the frame of the call, when those before it are done. -/
  | inBody {q b l : Nat} {c : Context} {w w' : World} {done rest : List ExprId} {i : ExprId}
      {vs : List Value} (hids : c.arena.statements? b = some (l, done ++ i :: rest))
      (hdone : Eval.evalArgs (Eval.evalExpr names (Eval.callValue names q) l) done (c.machine w) =
        (.ok vs, c.machine w')) :
      Begins names ⟨q, .body b, c, w⟩ [] ⟨q, .expr l i, c, w'⟩

/-- **What begins in the course of what**, at any depth, with the calls whose bodies are entered
on the way, innermost first. -/
inductive During (names : Interner) : Moment → List String → Moment → Prop
  | here (m : Moment) : During names m [] m
  | later {m n o : Moment} {calls inner : List String} (h : Begins names m calls n)
      (hrest : During names n inner o) : During names m (inner ++ calls) o

/-! ## The calls in progress -/

namespace CallStack

theorem capture_enter (k : CallStack) (n : CallFrame) :
    (k.enter n).capture = n.displayName :: k.capture := by
  simp [enter, capture]

theorem depth_enter (k : CallStack) (n : CallFrame) : (k.enter n).depth = k.depth + 1 := by
  simp [enter, depth]

theorem length_capture (k : CallStack) : k.capture.length = k.depth := by
  simp [capture, depth]

end CallStack

variable {names : Interner} {m n : Moment} {calls : List String}

theorem Begins.maxDepth (h : Begins names m calls n) : n.stack.maxDepth = m.stack.maxDepth := by
  cases h <;> rfl

theorem Begins.capture (h : Begins names m calls n) :
    n.stack.capture = calls ++ m.stack.capture := by
  cases h with
  | body => exact CallStack.capture_enter _ _
  | _ => rfl

/-- A body is entered only where the limit admits one more call. -/
theorem Begins.depth_le (h : Begins names m calls n) (hm : m.stack.depth ≤ m.stack.maxDepth) :
    n.stack.depth ≤ n.stack.maxDepth := by
  cases h with
  | body _ hroom =>
    show (CallStack.enter _ _).depth ≤ _
    rw [CallStack.depth_enter]
    exact hroom
  | _ => exact hm

namespace During

/-- What begins in the course of something begins in the course of what that is part of. -/
theorem trans {inner : List String} {o : Moment} (h : During names m calls n)
    (h' : During names n inner o) : During names m (inner ++ calls) o := by
  induction h with
  | here => rwa [List.append_nil]
  | later hb _ ih =>
    rw [← List.append_assoc]
    exact .later hb (ih h')

theorem maxDepth (h : During names m calls n) : n.stack.maxDepth = m.stack.maxDepth := by
  induction h with
  | here => rfl
  | later h _ ih => exact ih.trans h.maxDepth

/-- **The calls in progress are those in progress at the start and those entered since.** -/
theorem capture (h : During names m calls n) : n.stack.capture = calls ++ m.stack.capture := by
  induction h with
  | here => rfl
  | later h _ ih => rw [ih, h.capture, List.append_assoc]

/-- **There are never more than the limit admits.** -/
theorem depth_le (h : During names m calls n) (hm : m.stack.depth ≤ m.stack.maxDepth) :
    n.stack.depth ≤ n.stack.maxDepth := by
  induction h with
  | here => exact hm
  | later h _ ih => exact ih (h.depth_le hm)

end During

/-! ## Nesting ends -/

/-- How far nesting may still go: into bodies of calls, and within a body. -/
def Moment.rank (m : Moment) : Nat × Nat :=
  match m.task with
  | .expr l _ => (m.room, l + 1)
  | .call _ _ => (m.room, 0)
  | .body i => (m.room, i + 3)

theorem Begins.rank_lt (h : Begins names m calls n) :
    Prod.Lex (· < ·) (· < ·) n.rank m.rank := by
  cases h with
  | body => exact .left _ _ (Nat.lt_succ_self _)
  | call => exact .right _ (Nat.succ_pos _)
  -- A body that is no block is evaluated within one level more than its position.
  | inBody hids => exact .right _ (Nat.succ_lt_succ (Nat.lt_succ_of_le (Arena.statements?_le hids)))
  | _ => exact .right _ (Nat.lt_succ_self _)

/-! ## What a host starts -/

theorem Interpreter.depth_le_of_callDepth (i : Interpreter) (hi : i.callDepth = 0) :
    i.stack.depth ≤ i.stack.maxDepth := by
  rw [show i.stack.depth = 0 from hi]
  exact Nat.zero_le _

/-- What a host asks of an interpreter. -/
inductive Request where
  | eval (root : ExprId)
  | invoke (callee : Value) (args : List Value)

namespace Request

def perform (names : Interner) : Request → Interaction Outcome
  | eval root => Interpreter.eval names root
  | invoke callee args => Interpreter.invoke names callee args

/-- The first moment of the run. -/
def start (r : Request) (i : Interpreter) (w : World) : Moment :=
  match r with
  | eval root => ⟨i.room, .expr (root + 1) root, i.context, w⟩
  | invoke callee args => ⟨i.room, .call callee args, i.context, w⟩

theorem stack_start (r : Request) (i : Interpreter) (w : World) :
    (r.start i w).stack = i.stack := by
  cases r <;> rfl

theorem perform_eq (r : Request) (names : Interner) (i : Interpreter) (w : World) :
    r.perform names i w = Interpreter.perform ((r.start i w).eval names) i w := by
  cases r <;> rfl

theorem outcome_eq (r : Request) (names : Interner) (i : Interpreter) (w : World) :
    (r.perform names i w).1 = .ofResult ((r.start i w).result names) := by
  cases r <;> rfl

/-- **An interpreter is afterwards what it was before.** -/
theorem perform_interpreter (r : Request) (names : Interner) (i : Interpreter) (w : World) :
    (r.perform names i w).2.1 = i := by
  obtain ⟨_, _, _, hrun, -⟩ := (r.start i w).returns names i.context w
  rw [perform_eq, Interpreter.perform_machine hrun]

end Request
end ClosureLang
