import ClosureLang.Proofs.Eval.TwoLayouts

/-!
# The layout of a program is invisible

What an expression does depends on the tree that it unfolds to. At which positions its nodes lie,
what else is in the tables, and whether a node that occurs twice is stored once or twice makes no
difference (`layout_invisible`): the two evaluations end alike, and so do later calls of the
functions that they leave behind, also through interpreters of other programs.

A shared node thus behaves like copies of it. That goes for function literals too, since a
function is made where a literal is evaluated and not where it is stored: each evaluation makes
one that is equal to none before.
-/

namespace ClosureLang

/-- How two runs end that differ in nothing but layout: the interpreters are as they were, the
answers are the same up to the code of functions, and so are the worlds. -/
structure SameEnd (i j : Interpreter) (out out' : Outcome × Interpreter × World) : Prop where
  left : out.2.1 = i
  right : out'.2.1 = j
  answer : out.1.Alike Closure.SameTree out'.1
  world : out.2.2.SameTrees out'.2.2

theorem SameEnd.of_concluded {i j : Interpreter} {s : Throughout}
    {out out' : Outcome × Interpreter × World} (h : layouts.Concluded s i j out out') :
    SameEnd i j out out' := by
  obtain ⟨_, -, hi, hj, hout, hw⟩ := h
  exact ⟨hi, hj, hout.alike (fun _ _ _ he => he) fun _ _ hf => hf, hw⟩

/-- An interpreter evaluates a function literal of its program to a new function. -/
theorem Interpreter.eval_function {names : Interner} {i : Interpreter} {id : ExprId}
    {d : FunctionDef} (hn : i.arena.node? id = some (.function d)) (w : World) :
    i.eval names id w =
      (.value (.function ⟨w.heap.stamps, ⟨i.arena, d, d.name.map names.lookup⟩, i.frame⟩), i,
        { w with heap := { w.heap with stamps := w.heap.stamps + 1 } }) := by
  have hcontext : i.context.arena.node? id = some (.function d) := hn
  exact perform_machine ((Eval.evalExpr_succ id hcontext).trans (Eval.makeFunction_machine d))

/-- **The layout of a program is invisible.** Expressions of well-formed programs that unfold to
one tree, evaluated in the same scope, with the same calls in progress and in the same world, give
the same value or error and the same world, up to the layout of the code of functions. Calls of
functions that differ in layout do so too, whatever the programs and scopes of the interpreters
that call them. And a function literal makes a function that is none of those made before. -/
theorem layout_invisible (names : Interner) (i j : Interpreter) (w w' : World)
    (hstack : i.stack = j.stack) (hw : w.SameTrees w') :
    (i.frame = j.frame → i.arena.WellFormed → j.arena.WellFormed → ∀ a b t,
      i.arena.Unfolds a t → j.arena.Unfolds b t →
      SameEnd i j (i.eval names a w) (j.eval names b w')) ∧
    (∀ callee callee' args args', callee.SameTree callee' →
      List.Forall₂ Value.SameTree args args' →
      SameEnd i j (i.invoke names callee args w) (j.invoke names callee' args' w')) ∧
    ∀ a name params body, i.arena.Unfolds a (.function name params body) →
      ∃ c w₁, i.eval names a w = (.value (.function c), i, w₁) ∧
        (∀ d : Closure, d.stamp < w.heap.stamps → (c == d) = false) ∧
        c.stamp < w₁.heap.stamps := by
  have L := layouts_lawful names
  refine ⟨fun hframe ha hb a b t hat hbt => ?_, fun callee callee' args args' hv hvs => ?_, ?_⟩
  · exact .of_concluded (L.eval (s := .stage) hw hstack trivial hframe
      (.unfold ha hb (Nat.lt_succ_self a) (Nat.lt_succ_self b) hat hbt))
  · exact .of_concluded (L.invoke (s := .stage) hw hstack trivial hv hvs)
  · rintro a name params body ⟨hn, ht⟩
    cases ht with
    | function =>
      refine ⟨_, _, Interpreter.eval_function hn w, fun d hd => ?_, Nat.lt_succ_self _⟩
      have hne : w.heap.stamps ≠ d.stamp := Nat.ne_of_gt hd
      show (w.heap.stamps == d.stamp && _) = false
      simp [hne]

/-- `(function () {}) == (function () {})`, with one node for both literals. -/
def literalShared : Arena :=
  ⟨#[.void, .function ⟨none, ⟨0, 0⟩, 0⟩, .binary .eq 1 1], #[], #[]⟩

/-- The same with two nodes, and some that do not belong to it. -/
def literalCopied : Arena :=
  ⟨#[.bool true, .void, .function ⟨none, ⟨1, 0⟩, 1⟩, .void, .function ⟨none, ⟨0, 0⟩, 3⟩,
    .binary .eq 2 4], #[], #[⟨0⟩]⟩

/-- Stored once or twice, the literal makes two functions, and one of them may be called as well
as the other. -/
theorem layout_invisible_literals :
    let i := Interpreter.new literalShared 0 8
    let j := Interpreter.new literalCopied 0 8
    let w : World := ⟨Heap.empty.root.2, .silent⟩
    SameEnd i j (i.eval .empty 2 w) (j.eval .empty 5 w) ∧
    (i.eval .empty 2 w).1.value?.map Value.display = some "false" ∧
    SameEnd i j
      (i.invoke .empty (.function ⟨0, ⟨literalShared, ⟨none, ⟨0, 0⟩, 0⟩, none⟩, 0⟩) [] w)
      (j.invoke .empty (.function ⟨0, ⟨literalCopied, ⟨none, ⟨0, 0⟩, 3⟩, none⟩, 0⟩) [] w) ∧
    ∃ c w₁, i.eval .empty 1 w = (.value (.function c), i, w₁) := by
  intro i j w
  have hi : i.arena.WellFormed := by decide
  have hj : j.arena.WellFormed := by decide
  have hvoid : ∀ {a : Arena} {k : ExprId}, a.node? k = some .void → a.Unfolds k .void :=
    fun h => .node h .void
  have hliteral : ∀ {a : Arena} {k b : ExprId} {s : Span},
      a.node? k = some (.function ⟨none, s, b⟩) → a.params? s = some [] →
      a.node? b = some .void → a.Unfolds k (.function none [] .void) :=
    fun h hs hb => .node h (.function hs (hvoid hb))
  have hl : i.arena.Unfolds 1 (.function none [] .void) := hliteral rfl rfl rfl
  obtain ⟨heval, hinvoke, hnew⟩ := layout_invisible .empty i j w w rfl (.refl w)
  refine ⟨heval rfl hi hj 2 5 _ (.node rfl (.binary hl hl))
    (.node rfl (.binary (hliteral rfl rfl rfl) (hliteral rfl rfl rfl))), rfl, ?_, ?_⟩
  · refine hinvoke _ _ [] [] (.function ⟨rfl, ?_, rfl⟩) .nil
    exact .unfold hi hj rfl (.function rfl (hvoid rfl)) (.function rfl (hvoid rfl))
  · obtain ⟨c, w₁, hc, -⟩ := hnew 1 none [] .void hl
    exact ⟨c, w₁, hc⟩

end ClosureLang
