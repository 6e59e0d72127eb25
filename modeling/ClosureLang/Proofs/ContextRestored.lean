import ClosureLang.Proofs.Eval.Moments

/-!
# An interpreter is afterwards what it was before

A host evaluates and calls, with one frame or another as the current one, and decides from what
came of it how to go on. A `Session` is such a nesting of requests. Whatever it holds, and
whether its requests end with values, with errors or by `return`, the interpreter is the same
afterwards, program, scope and calls in progress included; and so it is after everything that
begins in the course of a request (`context_restored`).
-/

namespace ClosureLang

/-- **What a host does with an interpreter**, to obtain an `α`. -/
inductive Session : Type → Type 1 where
  /-- Evaluates or calls, with the texts of the given table. -/
  | request (r : Request) (names : Interner) : Session Outcome
  /-- Looks at the interpreter, and does something to the heap or to what has been printed. -/
  | host {α : Type} (act : Interpreter → World → α × World) : Session α
  /-- Goes on as it sees fit. -/
  | andThen {α β : Type} (s : Session α) (next : α → Session β) : Session β
  /-- Does something with another frame as the current one. -/
  | withFrame {α : Type} (f : FrameId) (s : Session α) : Session α

namespace Session

variable {α : Type}

def run {α : Type} : Session α → Interaction α
  | request r names => r.perform names
  | host act => fun i w => ((act i w).1, i, (act i w).2)
  | andThen s next => fun i w =>
    let (a, i, w) := s.run i w
    (next a).run i w
  | withFrame f s => Interpreter.withFrame f s.run

/-- What begins in the course of a session, with the table of texts that is in use. -/
def Passes {α : Type} : Session α → Interpreter → World → Interner → Moment → Prop
  | request r names, i, w, names', m => names' = names ∧ ∃ calls, During names (r.start i w) calls m
  | host _, _, _, _, _ => False
  | andThen s next, i, w, names, m => s.Passes i w names m ∨
    (next (s.run i w).1).Passes (s.run i w).2.1 (s.run i w).2.2 names m
  | withFrame f s, i, w, names, m => s.Passes { i with frame := f } w names m

/-- **A session leaves the interpreter as it found it.** -/
theorem interpreter_run (s : Session α) (i : Interpreter) (w : World) : (s.run i w).2.1 = i := by
  induction s generalizing i w with
  | request r names => exact r.perform_interpreter names i w
  | host act => rfl
  | andThen s next ihs ihnext =>
    rw [run, ihnext]
    exact ihs i w
  | withFrame f s ih =>
    simp only [run, Interpreter.withFrame, ih]

/-- **The limit on calls in progress holds at every moment of a session.** -/
theorem Passes.depth_le {s : Session α} {i : Interpreter} {w : World} {names : Interner}
    {m : Moment} (h : s.Passes i w names m) (hi : i.stack.depth ≤ i.stack.maxDepth) :
    m.stack.depth ≤ i.stack.maxDepth := by
  induction s generalizing i w with
  | request r names' =>
    obtain ⟨-, calls, hd⟩ := h
    have hstart := r.stack_start i w
    rw [← hstart, ← hd.maxDepth]
    exact hd.depth_le (by rw [hstart]; exact hi)
  | host act => cases h
  | andThen s next ihs ihnext =>
    rcases h with h | h
    · exact ihs h hi
    · -- What comes next starts with the interpreter as it was.
      rw [s.interpreter_run i w] at h
      exact ihnext _ h hi
  | withFrame f s ih => exact @ih { i with frame := f } w h hi

end Session

/-- **The context of evaluation is restored on every exit.** After a session the interpreter is
what it was: one that was outside of all calls is so again, and one as it was made is back at its
outermost frame. The same holds within, of the code, scope and calls of each evaluation, call and
body that begins anywhere. Of the calls in progress there are never more than the limit admits. -/
theorem context_restored {α : Type} (s : Session α) (i : Interpreter) (w : World) :
    (s.run i w).2.1 = i ∧
    (∀ arena g d, i = .new arena g d → (s.run i w).2.1.atGlobal = true) ∧
    (∀ names m, ∃ r w', Moment.eval names m (m.context.machine m.world) =
      (r, m.context.machine w')) ∧
    (i.callDepth = 0 → (s.run i w).2.1.callDepth = 0 ∧
      ∀ names m, s.Passes i w names m → m.stack.depth ≤ i.stack.maxDepth) := by
  have hrun := s.interpreter_run i w
  refine ⟨hrun, ?_, ?_, ?_⟩
  · rintro arena g d rfl
    rw [hrun]
    exact beq_self_eq_true g
  · intro names m
    obtain ⟨r, w', -, heval, -⟩ := m.returns names m.context m.world
    exact ⟨r, w', heval⟩
  · intro hi
    rw [hrun]
    exact ⟨hi, fun names m hm => hm.depth_le (i.depth_le_of_callDepth hi)⟩

/-- `{ x }` at position 1 and `{ { return } }` at position 4; no frame binds the name. -/
def exits : Arena :=
  ⟨#[.ident ⟨1⟩, .block ⟨0, 1⟩, .ret none, .block ⟨1, 1⟩, .block ⟨2, 1⟩], #[0, 2, 3], #[]⟩

/-- An error out of one scope, with another frame as the current one, and a `return` out of
two. -/
theorem context_restored_exits :
    let i := Interpreter.new exits 0 8
    let s := Session.andThen (.withFrame 1 (.request (.eval 1) .empty)) fun _ =>
      .request (.eval 4) .empty
    let w : World := ⟨Heap.empty.root.2.root.2, .silent⟩
    i.callDepth = 0 ∧ (s.run i w).2.1.callDepth = 0 ∧ (s.run i w).2.1.atGlobal = true := by
  intro i s w
  obtain ⟨-, hglobal, -, hcalls⟩ := context_restored s i w
  exact ⟨rfl, (hcalls rfl).1, hglobal exits 0 8 rfl⟩

end ClosureLang
