import ClosureLang.Proofs.Eval.Invariant
import ClosureLang.Proofs.Eval.Variants
import ClosureLang.Proofs.Heap.Scopes

/-!
# Every evaluation ends

Evaluation is defined with as many levels as a position has room for and as many levels of calls
as the limit on active calls admits, and answers with a fault when either runs out. That it does
not run out is a theorem about programs and not about definitions: calls jump into the bodies of
arbitrary closures, and closures in mutable frames call themselves and each other.

The first half shows that no fault arises when children come before their parents in all programs
involved. Two numbers carry it. A body starts over at its own position, but with one more call in
progress, so the room for further calls falls; within a body the room stays and the position
falls.

The second half compares with evaluation that has no such measure built in. In `unrolled n` all
recursion alike, into children and into bodies, is cut off after `n` steps, and `Reaches` says
that a sequence of such approximations settles on a given piece of evaluation wherever that one
ends without a fault. So what the evaluator answers is what unbounded recursion answers, after
finitely many steps.
-/

namespace ClosureLang

/-! ## Without faults -/

/-- The functions that a value may be lie in well-formed programs. -/
def Value.CodeWellFormed : Value → Prop
  | .function c => c.code.WellFormed
  | _ => True

/-- All functions in frames lie in well-formed programs. -/
def Heap.CodeWellFormed (h : Heap) : Prop :=
  ∀ f n v, h.local? f n = some v → v.CodeWellFormed

namespace Heap.CodeWellFormed

variable {h : Heap} {f : FrameId} {n : Name} {v : Value}

theorem empty : Heap.empty.CodeWellFormed := by
  intro f n v hv
  rw [Heap.local?_eq_none_of_size_le (Nat.zero_le f)] at hv
  cases hv

theorem valueAt (hh : h.CodeWellFormed) (f : FrameId) (n : Name) :
    (h.valueAt f n).CodeWellFormed := by
  cases hv : h.local? f n with
  | none => simp [Heap.valueAt, hv, Value.CodeWellFormed]
  | some v =>
    rw [Heap.valueAt_of_local? hv]
    exact hh f n v hv

theorem bind (hh : h.CodeWellFormed) (hv : v.CodeWellFormed) (f : FrameId) (n : Name) :
    (h.bind f n v).CodeWellFormed := by
  intro g m u hu
  rw [Heap.local?_bind] at hu
  split at hu
  · obtain ⟨_, -, rfl⟩ := Option.map_eq_some_iff.mp hu
    exact hv
  · exact hh g m u hu

theorem overwrite (hh : h.CodeWellFormed) (hv : v.CodeWellFormed) (f : FrameId) (n : Name) :
    (h.overwrite f n v).CodeWellFormed := by
  intro g m u hu
  rw [Heap.local?_overwrite] at hu
  split at hu
  · obtain ⟨_, -, rfl⟩ := Option.map_eq_some_iff.mp hu
    exact hv
  · exact hh g m u hu

theorem newFrame (hh : h.CodeWellFormed) (q : Option FrameId) :
    (h.newFrame q).2.CodeWellFormed := by
  intro g m u hu
  rw [Heap.local?_newFrame] at hu
  exact hh g m u hu

end Heap.CodeWellFormed

/-- Positions lie in well-formed programs with a level to spare for each position before them,
and there is a level of calls for each call that the limit still admits. -/
def codeInvariant : Invariant Throughout where
  world _ w := w.heap.CodeWellFormed
  closure _ c := c.code.WellFormed
  captured _ _ := True
  scope _ _ := True
  code c := c.WellFormed
  expr x := x.arena.WellFormed ∧ x.id < x.arena.size ∧ (x.id : Nat) < x.levels
  calls k q := k.maxDepth ≤ k.depth + q
  error _ _ := True
  fault _ := False

theorem codeInvariant_value_iff {v : Value} : codeInvariant.value .stage v ↔ v.CodeWellFormed := by
  cases v <;> exact Iff.rfl

/-- Descending from a node of a well-formed program falls in position. -/
theorem Arena.WellFormed.nodeOk {a : Arena} (ha : a.WellFormed) (names : Interner) {i l : Nat}
    {n : Node} (hn : a.node? i = some n) (hl : i ≤ l) : codeInvariant.NodeOk names a l n where
  child j hj := by
    have hji := ha.child_lt hn j hj
    exact ⟨ha, Nat.lt_trans hji (Arena.lt_size_of_node? hn), Nat.lt_of_lt_of_le hji hl⟩
  noList s hs hnone := by
    obtain ⟨ids, hids, -⟩ := ha.list_lt hn s hs
    rw [hnone] at hids
    cases hids
  list s hs ids hids j hj := by
    have hji := ha.lt_of_mem_list hn hs hids hj
    exact ⟨ha, Nat.lt_trans hji (Arena.lt_size_of_node? hn), Nat.lt_of_lt_of_le hji hl⟩
  code d hd := by
    cases n with
    | function d' =>
      obtain rfl : d = d' := by simpa [Node.definitions] using hd
      exact ha.code hn _
    | _ => simp [Node.definitions] at hd

theorem codeInvariant_lawful (names : Interner) : codeInvariant.Lawful names where
  closure_mono _ h := h
  scope_mono _ h := h
  closure_code h := h
  noParams := by
    intro c hc hnone
    obtain ⟨ps, hps⟩ := hc.params
    rw [hnone] at hps
    cases hps
  body hc := ⟨hc.arena, hc.body_lt, Nat.lt_succ_self _⟩
  closure_captured _ := trivial
  scope_captured _ := trivial
  expr_step := by
    rintro ⟨a, l, i⟩ ⟨ha, hi, hil⟩
    cases l with
    | zero => exact absurd hil (Nat.not_lt_zero _)
    | succ l =>
      obtain ⟨n, hn⟩ := Arena.node?_of_lt hi
      refine Or.inr ⟨l, rfl, fun hnone => ?_, fun n hn => ha.nodeOk names hn
        (Nat.le_of_lt_succ hil)⟩
      rw [hnone] at hn
      cases hn
  resolve hw _ _ :=
    ⟨codeInvariant_value_iff.mpr (hw.valueAt _ _),
      fun _ hv => hw.overwrite (codeInvariant_value_iff.mp hv) _ _⟩
  define hw _ _ _ hv := hw.bind (codeInvariant_value_iff.mp hv) _ _
  child hw _ := ⟨.stage, le_refl _, hw.newFrame _, trivial⟩
  makeClosure hw _ hc := ⟨.stage, le_refl _, hw, hc⟩
  println _ hw := hw
  raise _ _ := trivial
  full _ := trivial
  leave _ := trivial
  enter := by
    intro k q n hq hk
    cases q with
    | zero => exact absurd hq (Nat.not_le_of_lt hk)
    | succ q =>
      refine Or.inr ⟨q, rfl, ?_⟩
      have hroom : k.maxDepth ≤ k.depth + (q + 1) := hq
      show (k.enter n).maxDepth ≤ (k.enter n).depth + q
      have hm : (k.enter n).maxDepth = k.maxDepth := rfl
      have hd : (k.enter n).depth = k.depth + 1 := by
        simp [CallStack.enter, CallStack.depth]
      rw [hm, hd]
      omega

/-! ## Without a measure -/

namespace Eval

/-- Runs a body, given the meaning of expressions. -/
def bodyWith (ev : ExprId → Eval Value) (body : ExprId) : Eval Value := do
  match ← node body with
  | .block stmts =>
    let ids ← list stmts
    runStmts ev .void ids
  | _ => ev body

/-- Evaluation in which no more than `n` nodes and calls are nested in one another. -/
def unrolled (names : Interner) : Nat → (ExprId → Eval Value) × (Value → List Value → Eval Value)
  | 0 => (fun _ => fault .tooDeep, fun _ _ => fault .tooManyCalls)
  | n + 1 =>
    (fun id => do
      let n' ← node id
      evalNode names (unrolled names n).2 (unrolled names n).1 n',
    applyValue names fun c => bodyWith (unrolled names n).1 c.code.body)

/-- From some number on, the approximations `X n` do what `y` does, where `y` ends without a
fault. -/
def Reaches {α : Type} (X : Nat → Eval α) (y : Eval α) : Prop :=
  ∀ m, (∀ f, (y m).1 ≠ .error (.fault f)) → ∃ N, ∀ n, N ≤ n → X n m = y m

namespace Reaches

variable {α β : Type} {X : Nat → Eval α} {y : Eval α} {names : Interner}

theorem const (y : Eval α) : Reaches (fun _ => y) y := fun _ _ => ⟨0, fun _ _ => rfl⟩

theorem of_fault (X : Nat → Eval α) (f : Fault) : Reaches X (fault f) :=
  fun _ hm => absurd rfl (hm f)

theorem of_succ (h : Reaches (fun n => X (n + 1)) y) : Reaches X y := by
  intro m hm
  obtain ⟨N, hN⟩ := h m hm
  refine ⟨N + 1, fun n hn => ?_⟩
  obtain ⟨k, rfl⟩ : ∃ k, n = k + 1 := ⟨n - 1, by omega⟩
  exact hN k (by omega)

theorem bind {F : Nat → α → Eval β} {g : α → Eval β} (h : Reaches X y)
    (hF : ∀ a, Reaches (fun n => F n a) (g a)) : Reaches (fun n => X n >>= F n) (y >>= g) := by
  intro m hm
  cases hy : y m with
  | mk r m' =>
    have hne : ∀ f, (y m).1 ≠ .error (.fault f) := by
      intro f hf
      apply hm f
      rw [Attempt.bind_apply]
      rw [hy] at hf ⊢
      obtain rfl : r = .error (.fault f) := hf
      rfl
    obtain ⟨N, hN⟩ := h m hne
    cases r with
    | error u =>
      refine ⟨N, fun n hn => ?_⟩
      show (X n >>= F n) m = (y >>= g) m
      rw [Attempt.bind_apply, Attempt.bind_apply, hN n hn, hy]
    | ok a =>
      have hg : ∀ f, (g a m').1 ≠ .error (.fault f) := by
        intro f hf
        apply hm f
        rw [Attempt.bind_apply, hy]
        exact hf
      obtain ⟨N', hN'⟩ := hF a m' hg
      refine ⟨max N N', fun n hn => ?_⟩
      show (X n >>= F n) m = (y >>= g) m
      rw [Attempt.bind_apply, Attempt.bind_apply, hN n (Nat.le_trans (Nat.le_max_left N N') hn), hy]
      exact hN' n (Nat.le_trans (Nat.le_max_right N N') hn)

/-- What runs before and after makes no difference, if it hides no fault. -/
theorem wrap (h : Reaches X y) (pre : Machine → Machine)
    (post : Machine → Except Unwind α × Machine → Except Unwind β × Machine)
    (hpost : ∀ m m' f, ∃ g, (post m (.error (.fault f), m')).1 = .error (.fault g)) :
    Reaches (fun n m => post m (X n (pre m))) (fun m => post m (y (pre m))) := by
  intro m hm
  have hne : ∀ f, (y (pre m)).1 ≠ .error (.fault f) := by
    intro f hf
    obtain ⟨g, hg⟩ := hpost m (y (pre m)).2 f
    apply hm g
    rw [← hg, ← hf]
  obtain ⟨N, hN⟩ := h (pre m) hne
  exact ⟨N, fun n hn => congrArg (post m) (hN n hn)⟩

theorem inFrame (h : Reaches X y) (f : FrameId) :
    Reaches (fun n => Eval.inFrame f (X n)) (Eval.inFrame f y) :=
  h.wrap (fun m => { m with frame := f }) (fun m o => (o.1, { o.2 with frame := m.frame }))
    fun _ _ g => ⟨g, rfl⟩

theorem inScope (h : Reaches X y) (f : FrameId) (a : Arena) :
    Reaches (fun n => Eval.inScope f a (X n)) (Eval.inScope f a y) :=
  h.wrap (fun m => { m with frame := f, arena := a })
    (fun m o => (o.1, { o.2 with frame := m.frame, arena := m.arena })) fun _ _ g => ⟨g, rfl⟩

theorem settle {X : Nat → Eval Value} {y : Eval Value} (h : Reaches X y) :
    Reaches (fun n => Eval.settle (X n)) (Eval.settle y) :=
  h.wrap id (fun m o => Eval.settle (fun _ => o) m) fun _ _ g => ⟨g, rfl⟩

theorem duringCall (h : Reaches X y) (c : CallFrame) :
    Reaches (fun n => Eval.duringCall c (X n)) (Eval.duringCall c y) := by
  have htrace : Reaches (fun n => withBacktrace (X n)) (withBacktrace y) :=
    h.wrap id (fun m o => withBacktrace (fun _ => o) m) fun _ _ g => ⟨g, rfl⟩
  have hend : Reaches (fun n => thenEndCall (withBacktrace (X n)))
      (thenEndCall (withBacktrace y)) := by
    refine htrace.wrap id (fun m o => thenEndCall (fun _ => o) m) fun m m' f => ?_
    cases hk : m'.stack.isEmpty with
    | true => exact ⟨.noCall, by simp [thenEndCall, endCall, hk]⟩
    | false => exact ⟨f, by simp [thenEndCall, endCall, hk]⟩
  exact (const (beginCall c)).bind fun _ => hend

/-- The variants are the approximations and, without a number, what they approximate. -/
theorem compositional (names : Interner) : Compositional names
    fun _ {α} (X : Option Nat → Eval α) => Reaches (fun n => X (some n)) (X none) where
  primitive _ := const _
  bind h hF := h.bind hF
  inFrame f h := h.inFrame f
  inScope f a h := h.inScope f a
  settle h := h.settle
  duringCall n h := h.duringCall n

/-! Each piece of evaluation reaches what it is, if its children and calls do. -/

section

variable {Ev : Nat → ExprId → Eval Value} {ev : ExprId → Eval Value}

theorem runStmts (hev : ∀ i, Reaches (fun n => Ev n i) (ev i)) (last : Value)
    (ids : List ExprId) :
    Reaches (fun n => Eval.runStmts (Ev n) last ids) (Eval.runStmts ev last ids) :=
  @Compositional.runStmts _ .empty _ (.new 0) (fun j => j.elim ev Ev) (compositional _) hev last ids

variable {Call : Nat → Value → List Value → Eval Value} {call : Value → List Value → Eval Value}

theorem evalNode (hcall : ∀ v vs, Reaches (fun n => Call n v vs) (call v vs))
    (hev : ∀ i, Reaches (fun n => Ev n i) (ev i)) (nd : Node) :
    Reaches (fun n => Eval.evalNode names (Call n) (Ev n) nd)
      (Eval.evalNode names call ev nd) :=
  @Compositional.evalNode _ names _ (.new 0) (fun j => j.elim ev Ev) (fun j => j.elim call Call)
    (compositional _) hcall hev nd

theorem applyValue {Run : Nat → Closure → Eval Value} {run : Closure → Eval Value}
    (hrun : ∀ c, Reaches (fun n => Run n c) (run c)) (v : Value) (vs : List Value) :
    Reaches (fun n => Eval.applyValue names (Run n) v vs) (Eval.applyValue names run v vs) :=
  @Compositional.applyValue _ names _ (.new 0) (compositional _) (fun j => j.elim run Run) hrun v vs

end

/-! The two recursions of the evaluator, within any numbers of levels. -/

theorem evalExpr {call : Value → List Value → Eval Value}
    (hcall : ∀ v vs, Reaches (fun n => (unrolled names n).2 v vs) (call v vs)) (l : Nat)
    (i : ExprId) :
    Reaches (fun n => (unrolled names n).1 i) (Eval.evalExpr names call l i) := by
  induction l generalizing i with
  | zero => exact of_fault _ _
  | succ l ih => exact of_succ ((const (node i)).bind fun nd => evalNode hcall ih nd)

theorem runBody {call : Value → List Value → Eval Value}
    (hcall : ∀ v vs, Reaches (fun n => (unrolled names n).2 v vs) (call v vs)) (body : ExprId) :
    Reaches (fun n => bodyWith (unrolled names n).1 body) (Eval.runBody names call body) := by
  refine (const (node body)).bind fun nd => ?_
  cases nd with
  | block s =>
    exact (const (list s)).bind fun ids => runStmts (evalExpr hcall body) .void ids
  | _ => exact evalExpr hcall (body + 1) body

theorem callValue (room : Nat) (v : Value) (vs : List Value) :
    Reaches (fun n => (unrolled names n).2 v vs) (Eval.callValue names room v vs) := by
  induction room generalizing v vs with
  | zero => exact of_succ (applyValue (fun c => of_fault _ _) v vs)
  | succ room ih => exact of_succ (applyValue (fun c => runBody ih c.code.body) v vs)

end Reaches
end Eval

/-! ## For hosts -/

/-- The outcome is a value or an error. -/
inductive Outcome.IsAnswer : Outcome → Prop
  | value (v : Value) : IsAnswer (.value v)
  | error (e : EvalError) : IsAnswer (.error e)

theorem Outcome.IsAnswer.ne_fault {r : Except Unwind Value} (h : (Outcome.ofResult r).IsAnswer)
    (f : Fault) : r ≠ .error (.fault f) := by
  rintro rfl
  cases h

namespace Interpreter

variable {names : Interner} {i : Interpreter} {w : World}

theorem perform_reaches {X : Nat → Eval Value} {y : Eval Value} (h : Eval.Reaches X y)
    (hy : (perform y i w).1.IsAnswer) : ∃ N, ∀ n, N ≤ n → perform (X n) i w = perform y i w := by
  obtain ⟨N, hN⟩ := h (i.machine w) fun f => Outcome.IsAnswer.ne_fault hy f
  exact ⟨N, fun n hn => by simp only [perform, hN n hn]⟩

theorem calls_room (i : Interpreter) : codeInvariant.calls i.stack i.room := by
  show i.stack.maxDepth ≤ i.stack.depth + (i.stack.maxDepth - i.stack.depth)
  omega

theorem isAnswer_of_concluded {out : Outcome × Interpreter × World}
    (h : codeInvariant.Concluded .stage i out) : out.1.IsAnswer := by
  obtain ⟨_, -, -, hout, -⟩ := h
  cases ho : out.1 with
  | value v => exact .value v
  | error e => exact .error e
  | fault f =>
    rw [ho] at hout
    exact hout.elim

/-- **Every evaluation ends with a value or an error**, in programs whose nodes come after their
children: one of an expression of the interpreter's program, and one of a call of any value with
any arguments, whatever closures the heap holds. The answer is the one that unbounded recursion
gives, and that recursion gives it at a finite depth. -/
theorem answers (names : Interner) (i : Interpreter) (w : World) (hw : w.heap.CodeWellFormed) :
    (i.arena.WellFormed → ∀ root < i.arena.size, (i.eval names root w).1.IsAnswer ∧
      ∃ N, ∀ n, N ≤ n → perform ((Eval.unrolled names n).1 root) i w = i.eval names root w) ∧
    ∀ callee args, callee.CodeWellFormed → (∀ v ∈ args, v.CodeWellFormed) →
      (i.invoke names callee args w).1.IsAnswer ∧
        ∃ N, ∀ n, N ≤ n →
          perform ((Eval.unrolled names n).2 callee args) i w = i.invoke names callee args w := by
  refine ⟨fun ha root hroot => ?_, fun callee args hcallee hargs => ?_⟩
  · have hend : (i.eval names root w).1.IsAnswer :=
      isAnswer_of_concluded ((codeInvariant_lawful names).eval (s := .stage) hw i.calls_room trivial
        ⟨ha, hroot, Nat.lt_succ_self root⟩)
    exact ⟨hend, perform_reaches (.evalExpr (.callValue i.room) _ _) hend⟩
  · have hend : (i.invoke names callee args w).1.IsAnswer :=
      isAnswer_of_concluded ((codeInvariant_lawful names).invoke (s := .stage) hw i.calls_room
        (codeInvariant_value_iff.mpr hcallee)
        fun v hv => codeInvariant_value_iff.mpr (hargs v hv))
    exact ⟨hend, perform_reaches (.callValue i.room callee args) hend⟩

/-- `function f() { return f() }`, where `f` has slot 1. -/
def selfCall : FunctionCode :=
  ⟨⟨#[.ident ⟨1⟩, .call 0 ⟨0, 0⟩, .ret (some 1), .block ⟨0, 1⟩], #[2], #[]⟩, ⟨none, ⟨0, 0⟩, 3⟩, none⟩

/-- A frame that binds `f` to the function that calls it. -/
def selfWorld : World := ⟨Heap.empty.root.2.bind 0 ⟨1⟩ (.function ⟨0, selfCall, 0⟩), .silent⟩

theorem answers_selfCall :
    (∀ root < selfCall.arena.size,
      ((new selfCall.arena 0 7).eval .empty root selfWorld).1.IsAnswer) ∧
    ((new selfCall.arena 0 7).invoke .empty (.function ⟨0, selfCall, 0⟩) [] selfWorld).1.IsAnswer := by
  have hcode : selfCall.WellFormed := by decide
  have hself : (Value.function ⟨0, selfCall, 0⟩).CodeWellFormed := hcode
  have hheap : selfWorld.heap.CodeWellFormed :=
    (Heap.CodeWellFormed.empty.newFrame none).bind hself 0 ⟨1⟩
  obtain ⟨heval, hinvoke⟩ := answers .empty (new selfCall.arena 0 7) selfWorld hheap
  exact ⟨fun root hroot => (heval hcode.arena root hroot).1,
    (hinvoke (.function ⟨0, selfCall, 0⟩) [] hself (by simp)).1⟩

end Interpreter
end ClosureLang
