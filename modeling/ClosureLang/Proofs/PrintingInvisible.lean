import ClosureLang.Proofs.Eval.Prints

/-!
# Printing is invisible to programs

Where lines go, and what is there already, makes no difference to a program. Every piece of
evaluation ends with the same result and in the same heap whatever sink it prints to, by the
correspondence of two runs that differ in it (`printing_lawful`). Moments that differ in it have
parts that do, so the same prints are evaluated in their course, with the same values
(`Alike.prints_eq`). With `Moment.appends`, which is about one run, this gives a description of a
host's requests that does not mention the sink and holds for all of them (`printing_invisible`).

The host may choose each request by how the earlier ones have ended and by the heap they left, but
not by what was printed.
-/

namespace ClosureLang

/-! ## One run, any destination -/

/-- Wherever it prints to, a piece of evaluation ends with the same result and the same heap. -/
def Eval.IgnoresSink {α : Type} (c : Context) (x : Eval α) : Prop :=
  ∀ h, ∃ r h', ∀ s, ∃ t, x (c.machine ⟨h, s⟩) = (r, c.machine ⟨h', t⟩)

theorem Eval.IgnoresSink.of_related {α : Type} {c : Context} {x : Eval α}
    {A : Sink → Sink → Throughout → α → α → Prop}
    (hx : ∀ s s', (printing s s').Related .stage c c (A s s') x x)
    (hA : ∀ {s s' t a b}, A s s' t a b → a = b) : IgnoresSink c x := by
  intro h
  obtain ⟨_, r, -, w, -, -, -, hrun, -⟩ :=
    hx .silent .silent .stage ⟨h, .silent⟩ ⟨h, .silent⟩ (le_refl _) ⟨rfl, [], rfl, rfl⟩
  refine ⟨r, w.heap, fun s => ?_⟩
  obtain ⟨_, r₁, r₂, w₁, w₂, -, ⟨hheap, -⟩, hrun₁, hrun₂, hr⟩ :=
    hx .silent s .stage ⟨h, .silent⟩ ⟨h, s⟩ (le_refl _) ⟨rfl, [], rfl, rfl⟩
  obtain ⟨rfl, hw⟩ := Prod.mk.inj (hrun.symm.trans hrun₁)
  obtain rfl := Context.machine_inj.mp hw
  refine ⟨w₂.sink, ?_⟩
  rw [hrun₂, hheap]
  suffices hrr : r = r₂ by rw [hrr]
  cases hr with
  | ok hab => rw [hA hab]
  | left hu =>
    cases hu with
    | error he => rw [show _ = _ from he]
    | ret hv => rw [printing_value_iff.mp hv]
    | fault hf => rw [show _ = _ from hf]

/-- Lists of values in two runs that differ in the sink are the same. -/
theorem printing_values {s s' : Sink} {t : Throughout} {vs ws : List Value}
    (h : List.Forall₂ ((printing s s').value t) vs ws) : vs = ws :=
  List.forall₂_eq_eq_eq ▸ h.imp fun _ _ => printing_value_iff.mp

namespace Moment

variable {names : Interner} {m n : Moment} {q l : Nat} {c : Context} {h h' : Heap} {s s' : Sink}

/-! Two evaluations of one task. -/

theorem calls_related (names : Interner) (q : Nat) (k : CallStack) (s s' : Sink) :
    (printing s s').CallRelated k (Eval.callValue names q) (Eval.callValue names q) :=
  (printing_lawful s s' names).callValue trivial

theorem expr_related (names : Interner) (q l : Nat) (c : Context) (i : ExprId) (s s' : Sink) :
    (printing s s').Related .stage c c (printing s s').value
      (Eval.evalExpr names (Eval.callValue names q) l i)
      (Eval.evalExpr names (Eval.callValue names q) l i) :=
  (printing_lawful s s' names).evalExpr (calls_related names q c.stack s s') rfl _ _ _ rfl

theorem ignoresSink_evalArgs (names : Interner) (q l : Nat) (c : Context) (ids : List ExprId) :
    (Eval.evalArgs (Eval.evalExpr names (Eval.callValue names q) l) ids).IgnoresSink c :=
  .of_related (fun s s' => (printing_lawful s s' names).evalArgs
    (fun i j (hij : i = j) => hij ▸ expr_related names q l c i s s')
    (List.forall₂_same.mpr fun _ _ => rfl) (le_refl _)) printing_values

theorem ignoresSink_activate (names : Interner) (f : Closure) (vs : List Value) (c : Context) :
    (Eval.activate names f vs).IgnoresSink c :=
  .of_related (fun s s' => (printing_lawful s s' names).activate rfl
    (List.forall₂_same.mpr fun _ _ => printing_value_iff.mpr rfl)) id

theorem eval_related (names : Interner) (m : Moment) (s s' : Sink) :
    (printing s s').Related .stage m.context m.context (printing s s').value (m.eval names)
      (m.eval names) := by
  unfold eval
  cases m.task with
  | expr l i => exact expr_related names m.room l m.context i s s'
  | call v vs =>
    exact calls_related names m.room _ s s' _ _ _ _ _ _ _ rfl rfl (printing_value_iff.mpr rfl)
      (List.forall₂_same.mpr fun _ _ => printing_value_iff.mpr rfl)
  | body b =>
    exact (printing_lawful s s' names).runBody (calls_related names m.room _ s s') rfl _ _ _ rfl

theorem ignoresSink_eval (names : Interner) (m : Moment) : (m.eval names).IgnoresSink m.context :=
  .of_related (eval_related names m) printing_value_iff.mp

/-- The same but for where it prints to. -/
def into (m : Moment) (s : Sink) : Moment := { m with world := ⟨m.world.heap, s⟩ }

/-- Moments that differ at most in what has been printed and where to. -/
def Alike (m n : Moment) : Prop := ∃ s, n = m.into s

/-! The parts of moments that are alike are alike, and in the same order. -/

theorem sequence_alike (ids : List ExprId) : List.Forall₂ Alike
    (sequence names q l c ⟨h, s⟩ ids) (sequence names q l c ⟨h, s'⟩ ids) := by
  induction ids generalizing h s s' with
  | nil => exact .nil
  | cons i ids ih =>
    refine .cons ⟨s', rfl⟩ ?_
    obtain ⟨r, h', hrun⟩ := ignoresSink_eval names ⟨q, .expr l i, c, ⟨h, s⟩⟩ h
    obtain ⟨t, ht⟩ := hrun s
    obtain ⟨t', ht'⟩ := hrun s'
    have hr : result names ⟨q, .expr l i, c, ⟨h, s⟩⟩ = r := congrArg Prod.fst ht
    have hr' : result names ⟨q, .expr l i, c, ⟨h, s'⟩⟩ = r := congrArg Prod.fst ht'
    have hw : after names ⟨q, .expr l i, c, ⟨h, s⟩⟩ = ⟨h', t⟩ := after_eq ht
    have hw' : after names ⟨q, .expr l i, c, ⟨h, s'⟩⟩ = ⟨h', t'⟩ := after_eq ht'
    rw [hr, hr', hw, hw']
    cases r with
    | error u => exact .nil
    | ok v => exact ih

theorem afterwards_alike (nd : Node) (vs : List Value) : List.Forall₂ Alike
    (afterwards names q l c ⟨h, s⟩ nd vs) (afterwards names q l c ⟨h, s'⟩ nd vs) := by
  cases nd with
  | call f sp =>
    cases vs with
    | nil => exact .nil
    | cons v vs =>
      cases hs : c.arena.list? sp <;> simp only [afterwards, hs]
      · exact .nil
      · exact .cons ⟨s', rfl⟩ .nil
  | block sp =>
    cases hs : c.arena.list? sp <;> simp only [afterwards, hs]
    · exact .nil
    · exact sequence_alike _
  | ifElse cond i e =>
    rcases vs with _ | ⟨v, _ | ⟨_, _⟩⟩
    · exact .nil
    · cases hj : if v.isTruthy then some i else e <;> simp only [afterwards, hj]
      · exact .nil
      · exact .cons ⟨s', rfl⟩ .nil
    · exact .nil
  | _ => exact .nil

theorem Alike.parts (hmn : m.Alike n) : List.Forall₂ Alike (m.parts names) (n.parts names) := by
  obtain ⟨s', rfl⟩ := hmn
  obtain ⟨q, task, c, h, s⟩ := m
  cases task with
  | expr l id =>
    cases l with
    | zero => exact .nil
    | succ l =>
      cases hn : c.arena.node? id with
      | none =>
        simp only [into, Moment.parts, hn]
        exact .nil
      | some nd =>
        obtain ⟨r, h', hrun⟩ := ignoresSink_evalArgs names q l c (nd.operands c.arena) h
        obtain ⟨t, ht⟩ := hrun s
        obtain ⟨t', ht'⟩ := hrun s'
        simp only [into, Moment.parts, hn, ht, ht']
        refine List.rel_append (sequence_alike _) ?_
        cases r with
        | error u => exact .nil
        | ok vs => exact afterwards_alike nd vs
  | call v vs =>
    cases v with
    | function f =>
      cases q with
      | zero => exact .nil
      | succ q =>
        obtain ⟨r, h', hrun⟩ := ignoresSink_activate names f vs c h
        obtain ⟨t, ht⟩ := hrun s
        obtain ⟨t', ht'⟩ := hrun s'
        simp only [into, Moment.parts, ht, ht']
        cases r with
        | error u => exact .nil
        | ok g =>
          by_cases hroom : c.stack.depth < c.stack.maxDepth
          · simp only [if_pos hroom]
            exact .cons ⟨t', rfl⟩ .nil
          · simp only [if_neg hroom]
            exact .nil
    | _ => cases q <;> exact .nil
  | body b =>
    cases hids : c.arena.statements? b with
    | none =>
      simp only [into, Moment.parts, hids]
      exact .nil
    | some p =>
      simp only [into, Moment.parts, hids]
      exact sequence_alike _

/-- A `print` is evaluated at both moments or at neither. -/
theorem Alike.printed?_eq (hmn : m.Alike n) : m.printed? names = n.printed? names := by
  obtain ⟨s', rfl⟩ := hmn
  obtain ⟨q, task, c, h, s⟩ := m
  rcases task with ⟨_ | l, id⟩ | _ | _
  · rfl
  · rcases hn : c.arena.node? id with _ | nd
    · simp only [into, printed?, hn]
    · cases nd with
      | print sp =>
        cases hs : c.arena.list? sp with
        | none => simp only [into, printed?, hn, hs]
        | some ids =>
          obtain ⟨r, h', hrun⟩ := ignoresSink_evalArgs names q l c ids h
          obtain ⟨t, ht⟩ := hrun s
          obtain ⟨t', ht'⟩ := hrun s'
          simp only [into, printed?, hn, hs, ht, ht']
      | _ => simp only [into, printed?, hn]
  · rfl
  · rfl

/-- **The same prints are evaluated in their course.** -/
theorem Alike.prints_eq (hmn : m.Alike n) : m.prints names = n.prints names := by
  induction m using parts_induction names generalizing n with
  | h m ih =>
    have hparts : List.Forall₂ (fun x y => x ∈ m.parts names ∧ x.Alike y) (m.parts names)
        (n.parts names) := (List.forall₂_and_left _ _).mpr ⟨fun _ h => h, hmn.parts⟩
    have hflat : List.Forall₂ Eq ((m.parts names).flatMap (prints names))
        ((n.parts names).flatMap (prints names)) :=
      List.rel_flatMap hparts fun x y hxy => by
        rw [ih x hxy.1 hxy.2]
        exact List.forall₂_same.mpr fun _ _ => rfl
    rw [List.forall₂_eq_eq_eq] at hflat
    rw [Moment.prints_eq, Moment.prints_eq, hmn.printed?_eq, hflat]

end Moment

/-! ## A host that does not look at what is printed -/

/-- A buffer holds what it held before, followed by the lines. -/
theorem Sink.printAll_buffer (held : String) (lines : List String) :
    (buffer held).printAll lines = buffer (held ++ String.join (lines.map (· ++ "\n"))) := by
  induction lines generalizing held with
  | nil => simp [printAll]
  | cons line lines ih =>
    show ((buffer held).println line).printAll lines = _
    rw [println, ih]
    simp [String.append_assoc]

namespace Script

/-- What a host asks for next, given how each request so far has ended and the heap it left. -/
abbrev Choice := List (Outcome × Heap) → Request

/-- A request and what came of it. -/
structure Turn where
  request : Request
  before : World
  outcome : Outcome
  after : World

/-- A host's requests to one interpreter, one after the other. -/
def turns (names : Interner) :
    List Choice → List (Outcome × Heap) → Interpreter → World → List Turn
  | [], _, _, _ => []
  | choose :: choices, past, i, w =>
    let (o, j, w') := (choose past).perform names i w
    ⟨choose past, w, o, w'⟩ :: turns names choices (past ++ [(o, w'.heap)]) j w'

/-- What can be said about a request without saying where it prints to. -/
structure Entry where
  request : Request
  outcome : Outcome
  heap : Heap
  prints : List (List Value)

/-- The text that is printed: a line for each `print`. -/
def Entry.text (e : Entry) : String := String.join (e.prints.map fun vs => Value.line vs ++ "\n")

/-- **What came of a request**: how it ended, the heap that it left, the prints that were evaluated
in its course, in order, and that their lines were appended to what was printed before. -/
structure Entry.Describes (names : Interner) (i : Interpreter) (e : Entry) (t : Turn) : Prop where
  request : t.request = e.request
  outcome : t.outcome = e.outcome
  heap : t.after.heap = e.heap
  prints : (t.request.start i t.before).prints names = e.prints
  evaluated : ∀ vs, vs ∈ e.prints ↔ ∃ calls n,
    During names (t.request.start i t.before) calls n ∧ n.printed? names = some vs
  sink : t.after.sink = t.before.sink.printAll (e.prints.map Value.line)

variable {names : Interner} {i : Interpreter}

/-- One request. -/
theorem exists_entry (names : Interner) (i : Interpreter) (r : Request) (h : Heap) :
    ∃ e : Entry, ∀ s, ∃ t, r.perform names i ⟨h, s⟩ = (e.outcome, i, ⟨e.heap, t⟩) ∧
      e.Describes names i ⟨r, ⟨h, s⟩, e.outcome, ⟨e.heap, t⟩⟩ := by
  let m : Sink → Moment := fun s => r.start i ⟨h, s⟩
  have halike : ∀ s, (m .silent).Alike (m s) := fun s => ⟨s, by cases r <;> rfl⟩
  obtain ⟨result, h', hruns⟩ := Moment.ignoresSink_eval names (m .silent) h
  refine ⟨⟨r, .ofResult result, h', (m .silent).prints names⟩, fun s => ?_⟩
  obtain ⟨t, ht⟩ := hruns s
  have hrun : (m s).eval names ((m s).context.machine (m s).world) =
      (result, (m s).context.machine ⟨h', t⟩) := by
    cases r <;> exact ht
  have hafter : (m s).after names = ⟨h', t⟩ := Moment.after_eq hrun
  refine ⟨t, ?_, rfl, rfl, rfl, (halike s).prints_eq.symm, fun vs => ?_, ?_⟩
  · rw [r.perform_start, show (m s).result names = result from congrArg Prod.fst hrun, hafter]
  · rw [(halike s).prints_eq]
    exact Moment.mem_prints
  · have hsink : ((m s).after names).sink = (m s).world.sink.printAll ((m s).lines names) :=
      Moment.appends names (m s)
    rw [hafter, Moment.lines, ← (halike s).prints_eq, r.world_start] at hsink
    exact hsink

/-- **All requests.** -/
theorem exists_entries (names : Interner) (i : Interpreter) (choices : List Choice) (h : Heap)
    (past : List (Outcome × Heap)) : ∃ entries, ∀ s,
      List.Forall₂ (Entry.Describes names i) entries (turns names choices past i ⟨h, s⟩) := by
  induction choices generalizing h past with
  | nil => exact ⟨[], fun _ => .nil⟩
  | cons choose choices ih =>
    obtain ⟨e, he⟩ := exists_entry names i (choose past) h
    obtain ⟨entries, hrest⟩ := ih e.heap (past ++ [(e.outcome, e.heap)])
    refine ⟨e :: entries, fun s => ?_⟩
    obtain ⟨t, hrun, hdescribes⟩ := he s
    rw [turns, hrun]
    exact .cons hdescribes (hrest t)

/-- Each request appends its text to a buffer. -/
theorem buffers_eq (choices : List Choice) (past : List (Outcome × Heap)) (h : Heap)
    (held : String) {entries : List Entry}
    (hentries : List.Forall₂ (Entry.Describes names i) entries
      (turns names choices past i ⟨h, .buffer held⟩)) :
    Sink.buffer held :: (turns names choices past i ⟨h, .buffer held⟩).map (·.after.sink) =
      (entries.scanl (fun text e => text ++ e.text) held).map .buffer := by
  induction choices generalizing past h held entries with
  | nil =>
    cases hentries
    rfl
  | cons choose choices ih =>
    obtain ⟨o, ⟨h', t⟩, hrun⟩ :
        ∃ o w', (choose past).perform names i ⟨h, .buffer held⟩ = (o, i, w') :=
      ⟨_, _, (choose past).perform_start names i _⟩
    rw [turns, hrun] at hentries ⊢
    cases hentries with
    | @cons e _ entries _ hfirst hrest =>
      have hsink : t = _ := hfirst.sink
      rw [Sink.printAll_buffer, List.map_map] at hsink
      obtain rfl : t = .buffer (held ++ e.text) := hsink
      rw [List.map_cons, ih _ _ _ hrest, List.scanl_cons, List.map_cons]

end Script

/-- **Printing is invisible to programs.** One description fits the requests of a host wherever
lines are printed to: the same requests with the same outcomes, the same heaps in between, and the
same prints in the same order. What a buffer holds, from the start on and after each request, is
what it held before and then the text of that request. -/
theorem Script.printing_invisible (names : Interner) (i : Interpreter) (h : Heap)
    (choices : List Choice) : ∃ entries : List Entry,
      (∀ s, List.Forall₂ (Entry.Describes names i) entries (turns names choices [] i ⟨h, s⟩)) ∧
      ∀ held, .buffer held :: (turns names choices [] i ⟨h, .buffer held⟩).map (·.after.sink) =
        (entries.scanl (fun text e => text ++ e.text) held).map .buffer := by
  obtain ⟨entries, hentries⟩ := exists_entries names i choices h []
  exact ⟨entries, hentries, fun held => buffers_eq choices [] h held (hentries _)⟩

/-- `{ print(print(true), true); return; print(true) }`, whose last statement is at position 1. -/
def talker : Arena :=
  ⟨#[.bool true, .print ⟨0, 1⟩, .print ⟨1, 2⟩, .ret none, .block ⟨3, 3⟩], #[0, 1, 0, 2, 3, 1], #[]⟩

/-- An argument is printed before the line that it is part of, and what stands behind a `return`
is not. -/
example : (Script.turns .empty [fun _ => .eval 4, fun _ => .eval 1] [] (.new talker 0 8)
    ⟨Heap.empty.root.2, .buffer "so far\n"⟩).map (·.after.sink) =
      [.buffer "so far\ntrue\nvoid true\n", .buffer "so far\ntrue\nvoid true\ntrue\n"] := by
  decide

end ClosureLang
