import ClosureLang.Host.Command
import ClosureLang.Proofs.Eval.Moments
import ClosureLang.Proofs.Eval.TwoTables

/-!
# Interning is invisible to programs

Which slot a text has depends on all that was interned before it, in the same table. A program
cannot find out: built over another table, and run under that, it gives the same report
(`interning_invisible`). What is interned between building and running makes no difference
either. The two runs may share frames that a host has filled with plain values, and a fresh
outermost frame is one that holds nothing (`Heap.sharedScopes_root`).

A run here is a list of requests to one interpreter. A request may use the answers to earlier
ones, so functions find their way back into the program.
-/

namespace ClosureLang

open Interner

namespace Script

/-- A value that a host passes: one that can be written down, or what an earlier request was
answered with, void if it was not answered with a value. -/
inductive Argument where
  | literal (l : Literal)
  | answer (k : Nat)

inductive Step where
  | eval (root : ExprId)
  | invoke (callee : Argument) (args : List Argument)

def Argument.value (answers : List Value) : Argument → Value
  | literal l => l.value
  | answer k => answers[k]?.getD .void

/-- The request that a step makes, after so many answers. -/
def Step.request (answers : List Value) : Step → Request
  | eval root => .eval root
  | invoke callee args => .invoke (callee.value answers) (args.map (·.value answers))

/-- How each step ends, and what has been printed by then. -/
def report (names : Interner) : List Step → List Value → Interpreter → World → List (Outcome × Sink)
  | [], _, _, _ => []
  | s :: steps, answers, i, w =>
    let (o, i, w) := (s.request answers).perform names i w
    (o, w.sink) :: report names steps (answers ++ [o.value?.getD .void]) i w

end Script

/-- **The same report, step by step**: the same values, errors and texts. Values are the same up
to one correspondence of functions throughout, which keeps apart what is apart; corresponding
functions have one name and code that differs at most in slots. -/
def SameReport (t₁ t₂ : Interner) (xs ys : List (Outcome × Sink)) : Prop :=
  ∃ same : Closure → Closure → Prop,
    (∀ c d, same c d → c.code.Alike t₁ t₂ d.code) ∧
    (∀ c d c' d', same c d → same c' d' → (c == c') = (d == d')) ∧
    List.Forall₂ (fun x y => x.1.Alike same y.1 ∧ x.2 = y.2) xs ys

namespace Twins

open Script

variable {T : Twins} {s : Nat} {i j : Interpreter} {w w' : World} {answers answers' : List Value}

theorem argument_match (h : List.Forall₂ (T.runs.value s) answers answers') (a : Argument) :
    T.runs.value s (a.value answers) (a.value answers') := by
  cases a with
  | literal l => cases l <;> exact match_plain rfl
  | answer k =>
    rcases rel_cases (rel_getElem? h k) with ⟨h₁, h₂⟩ | ⟨v, v', h₁, h₂, hv⟩
    · simp only [Argument.value, h₁, h₂]
      exact .void
    · simp only [Argument.value, h₁, h₂]
      exact hv

/-- Interpreters of programs that are alike, with corresponding scopes. -/
structure Interpreters (T : Twins) (s : Nat) (i j : Interpreter) : Prop where
  arena : i.arena.Alike T.leftNames T.rightNames j.arena
  frame : T.Scope s i.frame j.frame
  stack : i.stack = j.stack

/-- One step. -/
theorem step_concluded (hi : T.Interpreters s i j) (hw : T.WorldAlike s w w')
    (ha : List.Forall₂ (T.runs.value s) answers answers') (st : Step) :
    T.runs.Concluded s i j ((st.request answers).perform T.leftNames i w)
      ((st.request answers').perform T.rightNames j w') := by
  cases st with
  | eval root => exact runs_lawful.eval hw hi.stack trivial hi.frame ⟨hi.arena, rfl, rfl⟩
  | invoke callee args =>
    refine runs_lawful.invoke hw hi.stack trivial (argument_match ha callee) ?_
    induction args with
    | nil => exact .nil
    | cons a args ih => exact .cons (argument_match ha a) ih

theorem answer_match {k : CallStack} {o o' : Outcome} (h : T.runs.Outcomes k s o o') :
    T.runs.value s (o.value?.getD .void) (o'.value?.getD .void) := by
  cases h with
  | value h => exact h
  | _ => exact .void

/-- **All steps**, with one correspondence of functions at the end. -/
theorem report_alike (steps : List Step) (hi : T.Interpreters s i j) (hw : T.WorldAlike s w w')
    (ha : List.Forall₂ (T.runs.value s) answers answers') : ∃ t, s ≤ t ∧
      List.Forall₂ (fun x y => x.1.Alike (T.ClosureAlike t) y.1 ∧ x.2 = y.2)
        (report T.leftNames steps answers i w) (report T.rightNames steps answers' j w') := by
  induction steps generalizing s w w' answers answers' with
  | nil => exact ⟨s, le_refl s, .nil⟩
  | cons st steps ih =>
    obtain ⟨t, ht, hi₁, hj₁, hout, hw₁⟩ := step_concluded hi hw ha st
    have ha₁ := List.rel_append (ha.imp fun _ _ hv => runs_lawful.value_mono ht hv)
      (.cons (answer_match hout) .nil)
    -- Functions that correspond go on to do so, so the last correspondence serves for all steps.
    obtain ⟨u, hu, hrest⟩ := ih ⟨hi.arena, hi.frame.mono ht, hi.stack⟩ hw₁ ha₁
    refine ⟨u, le_trans ht hu, ?_⟩
    simp only [report]
    rw [hi₁, hj₁]
    exact .cons ⟨(hout.alike (fun _ _ _ h => h) fun _ _ h => h).imp fun _ _ hc => hc.mono hu, hw₁.sink.symm⟩ hrest

end Twins

/-- What an author has built over a table in which some texts were interned before. -/
def Builder.build (prior : List String) (calls : List Builder.Call) : Builder :=
  (Builder.start (Interner.empty.internAll prior).2).applyAll calls

/-- Its table when further texts were interned. -/
def Builder.later (b : Builder) (more : List String) : Interner := (b.names.internAll more).2

theorem Builder.distinct_build (prior : List String) (calls : List Builder.Call)
    (more : List String) : ((build prior calls).later more).Distinct := by
  refine Distinct.internAll ?_ more
  exact Builder.distinct_applyAll (distinct_empty.internAll prior) calls

theorem Builder.alike_build (prior₁ prior₂ : List String) (calls : List Builder.Call)
    (more₁ more₂ : List String) :
    (build prior₁ calls).arena.Alike ((build prior₁ calls).later more₁)
      ((build prior₂ calls).later more₂) (build prior₂ calls).arena := by
  have hstart : (Builder.start (Interner.empty.internAll prior₁).2).Alike
      (Builder.start (Interner.empty.internAll prior₂).2) := Arena.Alike.empty _ _
  exact Arena.Alike.grows (hstart.applyAll calls) (grows_internAll _ more₁) (grows_internAll _ more₂)

/-- An interpreter evaluates a text literal of its program to the text. -/
theorem Interpreter.eval_str {names : Interner} {i : Interpreter} {id : ExprId} {n : Name}
    (hn : i.arena.node? id = some (.str n)) (w : World) :
    i.eval names id w = (.value (.str (names.lookup n)), i, w) := by
  have hcontext : i.context.arena.node? id = some (.str n) := hn
  exact Interpreter.perform_machine (Eval.evalExpr_succ id hcontext)

/-- **Interning is invisible to programs.** One and the same program is built over two tables of
texts with any contents, and further texts are interned. Whatever a host then asks of it, the two
reports are the same, in any two heaps in which the outermost frames hold the same values under
the same texts, and no functions. In particular, a text literal evaluates to the text that the
builder was given. -/
theorem interning_invisible (prior₁ prior₂ : List String) (calls : List Builder.Call)
    (more₁ more₂ : List String) :
    let b₁ := Builder.build prior₁ calls
    let b₂ := Builder.build prior₂ calls
    let names₁ := b₁.later more₁
    let names₂ := b₂.later more₂
    (∀ (steps : List Script.Step) (maxDepth : Nat) (sink : Sink) (h₁ h₂ : Heap)
      (shared : FrameId → FrameId → Prop) (g₁ g₂ : FrameId), h₁.Nested → h₂.Nested →
      h₁.SharedScopes names₁ names₂ h₂ shared → shared g₁ g₂ →
      SameReport names₁ names₂
        (Script.report names₁ steps [] (.new b₁.arena g₁ maxDepth) ⟨h₁, sink⟩)
        (Script.report names₂ steps [] (.new b₂.arena g₂ maxDepth) ⟨h₂, sink⟩)) ∧
    ∀ before s after, calls = before ++ .add (.text s) :: after →
      ∀ (i : Interpreter) (w : World), i.arena = b₁.arena →
        i.eval names₁ (Builder.build prior₁ before).next w = (.value (.str s), i, w) := by
  intro b₁ b₂ names₁ names₂
  constructor
  · intro steps maxDepth sink h₁ h₂ shared g₁ g₂ hn₁ hn₂ hscopes hg
    let T : Twins := ⟨names₁, names₂, h₁, h₂, shared, Builder.distinct_build prior₁ calls more₁,
      Builder.distinct_build prior₂ calls more₂, hn₁, hn₂, hscopes⟩
    have hi : T.Interpreters 0 (.new b₁.arena g₁ maxDepth) (.new b₂.arena g₂ maxDepth) :=
      ⟨Builder.alike_build prior₁ prior₂ calls more₁ more₂, .inl hg, rfl⟩
    obtain ⟨t, -, hreport⟩ := Twins.report_alike steps hi (T.start sink) .nil
    exact ⟨T.ClosureAlike t, fun _ _ hc => hc.code, fun _ _ _ _ hc hc' => hc.beq_eq hc', hreport⟩
  · rintro before s after rfl i w hi
    have hbuild : b₁ = ((Builder.build prior₁ before).add (.text s)).applyAll after := by
      simp [b₁, Builder.build, Builder.applyAll, Builder.apply]
    have hgrows : b₁.names.Grows names₁ := grows_internAll b₁.names more₁
    rw [hbuild] at hi hgrows
    obtain ⟨n, hn, hs⟩ := (Builder.build prior₁ before).lookup_text s after hgrows
    rw [← hi] at hn
    rw [Interpreter.eval_str hn, hs]

/-- `function f(b) { print("hi", b) }` at position 3. -/
def greeter : List Builder.Call :=
  [.add (.text "hi"), .name "b", .add (.ident "b"), .add (.print [0, 1]),
    .add (.function (some "f") ["b"] 2)]

/-- An outermost frame in which a name is true. -/
def greeterWorld (n : Name) : World := ⟨Heap.empty.root.2.bind 0 n (.bool true), .buffer ""⟩

/-- The function is made and called with what its parameter is outside of it. The name has slot 2
in one table and slot 1 in the other. -/
theorem interning_invisible_greeter :
    let b₁ := Builder.build [] greeter
    let b₂ := Builder.build ["b", "f"] greeter
    let steps : List Script.Step := [.eval 3, .eval 1, .invoke (.answer 0) [.answer 1]]
    SameReport (b₁.later ["c"]) (b₂.later [])
      (Script.report (b₁.later ["c"]) steps [] (.new b₁.arena 0 8) (greeterWorld ⟨2⟩))
      (Script.report (b₂.later []) steps [] (.new b₂.arena 0 8) (greeterWorld ⟨1⟩)) ∧
    Interpreter.eval (b₁.later ["c"]) 0 (.new b₁.arena 0 8) (greeterWorld ⟨2⟩) =
      (.value (.str "hi"), .new b₁.arena 0 8, greeterWorld ⟨2⟩) := by
  intro b₁ b₂ steps
  have hroot : Heap.empty.root.2.Nested := Heap.Nested.empty.newFrame (by simp)
  have hnested : ∀ n v, (Heap.empty.root.2.bind 0 n v).Nested :=
    fun n v => (Heap.changedAt_bind _ 0 n v).nested hroot
  have hb : SameText (b₁.later ["c"]) (b₂.later []) ⟨2⟩ ⟨1⟩ := by
    constructor <;> decide
  have hscopes := (Heap.sharedScopes_root _ _ .empty .empty).bind
    (Builder.distinct_build [] greeter ["c"]) (Builder.distinct_build ["b", "f"] greeter [])
    ⟨rfl, rfl⟩ hb (rfl : (Value.bool true).captured? = none)
  obtain ⟨hreport, htext⟩ := interning_invisible [] ["b", "f"] greeter ["c"] []
  exact ⟨hreport steps 8 (.buffer "") _ _ _ 0 0 (hnested _ _) (hnested _ _) hscopes ⟨rfl, rfl⟩,
    htext [] "hi" _ rfl _ _ rfl⟩

end ClosureLang
