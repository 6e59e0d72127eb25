import ClosureLang.Proofs.Eval.Preserved
import ClosureLang.Proofs.Termination

/-!
# Positions are used in their own program

A position means something in one program only, and which program is current is not written next
to it: a call switches to the program of the closure, and returning from it, in whichever way,
switches back to that of the positions still pending. `reads_in_bounds` says that the two never
come apart. Wherever something begins in the course of a run, the tables that are current then
hold what it reads. So no read goes out of bounds, in programs whose nodes refer to what is there,
however calls into different programs are nested.

Each call that ends was begun before, in the same sense: where the body of a call is run, the
call is on the stack, and it still is when the body has been left.
-/

namespace ClosureLang

/-- A program holds what reading the node at a position asks of it: the node, its lists and the
parameters of its literals. -/
def Arena.Answers (a : Arena) (i : ExprId) : Prop :=
  ∃ n, a.node? i = some n ∧ (∀ s ∈ n.spans, ∃ ids, a.list? s = some ids) ∧
    ∀ d ∈ n.definitions, ∃ ps, a.params? d.params = some ps

theorem Arena.WellFormed.holds_of_lt {a : Arena} (ha : a.WellFormed) {i : ExprId}
    (hi : i < a.size) : a.Answers i := by
  obtain ⟨n, hn⟩ := Arena.node?_of_lt hi
  refine ⟨n, hn, fun s hs => ?_, ha.params hn⟩
  obtain ⟨ids, hids, -⟩ := ha.list_lt hn s hs
  exact ⟨ids, hids⟩

/-- A value or an error, and if a function, then one of a well-formed program. -/
inductive Outcome.CodeWellFormed : Outcome → Prop
  | value {v : Value} (h : v.CodeWellFormed) : CodeWellFormed (.value v)
  | error (e : EvalError) : CodeWellFormed (.error e)

namespace Moment

/-- What is read where the task begins is there: the node that is evaluated or run as a body, in
the current program, and the parameters of what is called, in its own. -/
def InBounds (m : Moment) : Prop :=
  match m.task with
  | .expr _ i | .body i => m.context.arena.Answers i
  | .call (.function f) _ => ∃ ps, f.code.params? = some ps
  | .call _ _ => True

/-- A body is run with a call in progress. -/
def WithinCall (m : Moment) : Prop := ∀ b, m.task = .body b → m.stack.isEmpty = false

/-- What begins reads what is there. It ends where it began, with the same calls in progress, and
not with a fault; before and after, functions lie in well-formed programs. -/
structure Safe (names : Interner) (m : Moment) : Prop where
  reads : m.InBounds
  withinCall : m.WithinCall
  heap : m.world.heap.CodeWellFormed
  ends : ∃ r w, m.eval names (m.context.machine m.world) = (r, m.context.machine w) ∧
    (Outcome.ofResult r).CodeWellFormed ∧ w.heap.CodeWellFormed

variable {names : Interner} {s : Throughout} {m n : Moment} {calls : List String}

theorem inBounds_of_satisfies (hm : m.Satisfies codeInvariant s) : m.InBounds := by
  obtain ⟨q, task, c, w⟩ := m
  cases task with
  | expr l i => exact hm.task.2.1.holds_of_lt hm.task.2.2.1
  | call v vs =>
    cases v with
    | function f => exact (show f.code.WellFormed from hm.task.1).params
    | _ => trivial
  | body b => exact hm.task.2.1.holds_of_lt hm.task.2.2.1

theorem ends_of_satisfies (names : Interner) (hm : m.Satisfies codeInvariant s) : ∃ r w,
    m.eval names (m.context.machine m.world) = (r, m.context.machine w) ∧
      (Outcome.ofResult r).CodeWellFormed ∧ w.heap.CodeWellFormed := by
  obtain ⟨_, r, w, -, hrun, hw, hr⟩ := hm.ends (codeInvariant_lawful names)
  refine ⟨r, w, hrun, ?_, hw⟩
  cases r with
  | ok v => exact .value (codeInvariant_value_iff.mp hr)
  | error u =>
    cases u with
    | error e => exact .error e
    | ret v => exact .value (codeInvariant_value_iff.mp hr)
    | fault f => exact hr.elim

/-- Only a call that has begun gets as far as its body. -/
theorem WithinCall.step (h : Begins names m calls n) : n.WithinCall := by
  cases h with
  | body => exact fun _ _ => by simp [stack, CallStack.enter, CallStack.isEmpty]
  | _ => exact fun _ hb => by cases hb

theorem WithinCall.during (h : During names m calls n) (hm : m.WithinCall) : n.WithinCall := by
  induction h with
  | here => exact hm
  | later h _ ih => exact ih (.step h)

end Moment

namespace Request

/-- An expression of a well-formed program, or values whose functions lie in such. -/
def WellFormed (i : Interpreter) : Request → Prop
  | eval root => i.arena.WellFormed ∧ root < i.arena.size
  | invoke callee args => ∀ v ∈ callee :: args, v.CodeWellFormed

variable {i : Interpreter} {w : World} {r : Request}

theorem satisfies_start (hw : w.heap.CodeWellFormed) (hr : r.WellFormed i) :
    (r.start i w).Satisfies codeInvariant .stage := by
  cases r with
  | eval root => exact ⟨hw, i.calls_room, trivial, hr.1, hr.2, Nat.lt_succ_self root⟩
  | invoke callee args =>
    exact ⟨hw, i.calls_room, codeInvariant_value_iff.mpr (hr callee (by simp)),
      fun u hu => codeInvariant_value_iff.mpr (hr u (by simp [hu]))⟩

theorem withinCall_start (r : Request) (i : Interpreter) (w : World) :
    (r.start i w).WithinCall := by
  cases r <;> exact fun _ hb => by cases hb

end Request

/-- **No read is out of bounds.** Whatever a host asks for, an expression of a well-formed program
or a call of functions of well-formed programs: where anything begins in the course of it, at any
depth, all that it reads is in the tables that are current, and if it is the body of a call, there
is a call to end. The answer and the heap that the run leaves hold nothing but functions of
well-formed programs. -/
theorem reads_in_bounds (names : Interner) (i : Interpreter) (w : World) (r : Request)
    (hw : w.heap.CodeWellFormed) (hr : r.WellFormed i) :
    (∀ calls m, During names (r.start i w) calls m → m.Safe names) ∧
      (r.perform names i w).1.CodeWellFormed ∧ (r.perform names i w).2.2.heap.CodeWellFormed := by
  have hstart : (r.start i w).Satisfies codeInvariant .stage := Request.satisfies_start hw hr
  constructor
  · intro calls m hm
    obtain ⟨_, -, hs⟩ := hm.satisfies (codeInvariant_lawful names) hstart
    exact ⟨Moment.inBounds_of_satisfies hs, .during hm (r.withinCall_start i w), hs.world,
      Moment.ends_of_satisfies names hs⟩
  · obtain ⟨out, w', hrun, hout, hw'⟩ := Moment.ends_of_satisfies names hstart
    have hcontext : (r.start i w).context = i.context := by cases r <;> rfl
    have hworld : (r.start i w).world = w := by cases r <;> rfl
    rw [hcontext, hworld] at hrun
    rw [r.perform_eq, Interpreter.perform_machine hrun]
    exact ⟨hout, hw'⟩

/-- `f()`, in a program of its own. -/
def callsF : Arena := ⟨#[.void, .void, .void, .ident ⟨1⟩, .call 3 ⟨0, 0⟩], #[], #[]⟩

/-- The function called lies in another program, which has no position 4, and calls itself there
until the limit is reached. -/
theorem reads_in_bounds_callsF :
    let i := Interpreter.new callsF 0 7
    let r := Request.eval 4
    (∀ calls m, During .empty (r.start i Interpreter.selfWorld) calls m → m.Safe .empty) ∧
    (r.perform .empty i Interpreter.selfWorld).1.CodeWellFormed := by
  intro i r
  have hself : (Value.function ⟨0, Interpreter.selfCall, 0⟩).CodeWellFormed := by
    show Interpreter.selfCall.WellFormed
    decide
  have hheap : Interpreter.selfWorld.heap.CodeWellFormed :=
    (Heap.CodeWellFormed.empty.newFrame none).bind hself 0 ⟨1⟩
  have harena : i.arena.WellFormed := by decide
  obtain ⟨hmoments, hanswer, -⟩ := reads_in_bounds .empty i Interpreter.selfWorld r hheap
    ⟨harena, by decide⟩
  exact ⟨hmoments, hanswer⟩

end ClosureLang
