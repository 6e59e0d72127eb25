import ClosureLang.Proofs.AnyInterpreter

/-!
# What is printed in the course of a run

A moment has parts: what begins directly in its course, in the order in which it begins. They are
the operands of a node, then what the node goes on with, and each starts from the world that the
one before it has left. `mem_parts` says that these are the moments that `Begins` speaks of, and
they are thereby fewer and fewer (`Begins.rank_lt`). What is printed in the course of a moment is
listed by recursion on them: the prints of the parts in their order, and last the moment's own, if
a `print` is evaluated at it. An expression that is left early has no further parts, so what
stands behind an error or a `return` is not listed, and what stands before it is.

The list is made without a look at what has become of the lines. That a run appends exactly these
lines to what was printed before, and changes nothing else about it, is `appends`.
-/

namespace ClosureLang

/-- The part of a machine that evaluation changes. -/
def Machine.world (m : Machine) : World := ⟨m.heap, m.sink⟩

@[simp] theorem Machine.world_machine (c : Context) (w : World) : (c.machine w).world = w := rfl

/-- The line that a `print` of these values writes: how they are displayed, with single spaces in
between. -/
def Value.line (vs : List Value) : String := " ".intercalate (vs.map display)

theorem Sink.printAll_append (s : Sink) (xs ys : List String) :
    s.printAll (xs ++ ys) = (s.printAll xs).printAll ys := by
  simp [printAll]

theorem Eval.bind_pure_snd {α β : Type} {x : Eval α} {g : α → β} {m : Machine} :
    ((x >>= fun a => pure (g a)) m).2 = (x m).2 := by
  rw [Attempt.bind_apply]
  cases x m with
  | mk r m => cases r <;> rfl

theorem Eval.node_none {i : ExprId} {c : Context} {w : World} (hn : c.arena.node? i = none) :
    node i (c.machine w) = (.error (.fault (.noNode i)), c.machine w) := by
  rw [node_machine, hn]

theorem Eval.list_none {s : Span} {c : Context} {w : World} (hs : c.arena.list? s = none) :
    list s (c.machine w) = (.error (.fault (.noList s)), c.machine w) := by
  rw [list_machine, hs]

/-- Making the frame of a call prints nothing. -/
theorem Eval.activate_machine (names : Interner) (f : Closure) (vs : List Value) (c : Context)
    (w : World) :
    ∃ r h, activate names f vs (c.machine w) = (r, c.machine { w with heap := h }) := by
  unfold activate
  cases f.code.params? with
  | none => exact ⟨_, w.heap, rfl⟩
  | some ps => exact ⟨_, _, onHeap_machine _⟩

namespace Moment

variable {names : Interner} {m n : Moment} {q l : Nat} {c : Context} {w w' : World}
  {ids : List ExprId}

/-- The world in which what begins at the moment ends. -/
def after (names : Interner) (m : Moment) : World :=
  (m.eval names (m.context.machine m.world)).2.world

theorem eval_machine (names : Interner) (m : Moment) :
    m.eval names (m.context.machine m.world) =
      (m.result names, m.context.machine (m.after names)) := by
  obtain ⟨r, w', -, hrun, -⟩ := m.returns names m.context m.world
  rw [result, after, hrun, Machine.world_machine]

theorem after_eq {r : Except Unwind Value}
    (h : m.eval names (m.context.machine m.world) = (r, m.context.machine w')) :
    m.after names = w' := by
  rw [after, h, Machine.world_machine]

/-- A node with one operand is left as the operand is left, or goes on with what it yields. -/
theorem eval_operand {id i : ExprId} {nd : Node} {g : Value → Eval Value}
    (hn : c.arena.node? id = some nd)
    (hnode : ∀ call ev, Eval.evalNode names call ev nd = ev i >>= g) :
    let e : Moment := ⟨q, .expr l i, c, w⟩
    let m : Moment := ⟨q, .expr (l + 1) id, c, w⟩
    (∃ u, e.result names = .error u ∧
        m.eval names (c.machine w) = (.error u, c.machine (e.after names))) ∨
      ∃ v, e.result names = .ok v ∧
        m.eval names (c.machine w) = g v (c.machine (e.after names)) := by
  intro e m
  have he : e.eval names (c.machine w) = _ := eval_machine names e
  have hm : m.eval names (c.machine w) = (e.eval names >>= g) (c.machine w) := by
    show Eval.evalExpr _ _ (l + 1) id (c.machine w) = _
    rw [Eval.evalExpr_succ l hn, hnode]
    rfl
  cases hr : e.result names with
  | error u =>
    rw [hr] at he
    exact .inl ⟨u, rfl, hm.trans (Eval.bind_error he)⟩
  | ok v =>
    rw [hr] at he
    exact .inr ⟨v, rfl, hm.trans (Eval.bind_ok he)⟩

/-! ## The parts of a moment -/

/-- The expressions of a list, each from where the one before it has ended. One that is left
early is the last to begin. -/
def sequence (names : Interner) (q l : Nat) (c : Context) : World → List ExprId → List Moment
  | _, [] => []
  | w, i :: ids =>
    let m : Moment := ⟨q, .expr l i, c, w⟩
    m :: match m.result names with
      | .ok _ => sequence names q l c (m.after names) ids
      | .error _ => []

/-- What a node goes on with when its operands have these values: a call, the statements of a
block, or a branch. -/
def afterwards (names : Interner) (q l : Nat) (c : Context) (w : World) :
    Node → List Value → List Moment
  | .call _ s, v :: vs =>
    match c.arena.list? s with
    | some _ => [⟨q, .call v vs, c, w⟩]
    | none => []
  | .block s, _ =>
    match c.arena.list? s with
    | some ids =>
      sequence names q l (c.inFrame w.heap.size) { w with heap := (w.heap.child c.frame).2 } ids
    | none => []
  | .ifElse _ i e, [v] =>
    match if v.isTruthy then some i else e with
    | some j => [⟨q, .expr l j, c, w⟩]
    | none => []
  | _, _ => []

/-- **What begins directly in the course of a moment**, in order. -/
def parts (names : Interner) : Moment → List Moment
  | ⟨_, .expr 0 _, _, _⟩ => []
  | ⟨q, .expr (l + 1) id, c, w⟩ =>
    match c.arena.node? id with
    | some n =>
      let ev := Eval.evalExpr names (Eval.callValue names q) l
      sequence names q l c w (n.operands c.arena) ++
        match Eval.evalArgs ev (n.operands c.arena) (c.machine w) with
        | (.ok vs, m) => afterwards names q l c m.world n vs
        | (.error _, _) => []
    | none => []
  | ⟨q + 1, .call (.function f) vs, c, w⟩ =>
    match Eval.activate names f vs (c.machine w) with
    | (.ok g, m) =>
      if c.stack.depth < c.stack.maxDepth then
        [⟨q, .body f.code.body, ⟨f.code.arena, g, c.stack.enter ⟨f.name⟩⟩, m.world⟩]
      else []
    | (.error _, _) => []
  | ⟨_, .call _ _, _, _⟩ => []
  | ⟨q, .body b, c, w⟩ =>
    match c.arena.statements? b with
    | some (l, ids) => sequence names q l c w ids
    | none => []

/-- An expression of a list begins when those before it have their values. -/
theorem mem_sequence : n ∈ sequence names q l c w ids ↔ ∃ done i rest vs w',
    ids = done ++ i :: rest ∧
    Eval.evalArgs (Eval.evalExpr names (Eval.callValue names q) l) done (c.machine w) =
      (.ok vs, c.machine w') ∧ n = ⟨q, .expr l i, c, w'⟩ := by
  induction ids generalizing w with
  | nil => simp [sequence]
  | cons i ids ih =>
    have hrun := eval_machine names ⟨q, .expr l i, c, w⟩
    simp only [sequence, List.mem_cons]
    constructor
    · rintro (rfl | h)
      · exact ⟨[], i, ids, [], w, rfl, rfl, rfl⟩
      · cases hr : result names ⟨q, .expr l i, c, w⟩ with
        | error u => simp [hr] at h
        | ok v =>
          rw [hr] at h hrun
          obtain ⟨done, j, rest, vs, w', rfl, hdone, rfl⟩ := ih.mp h
          exact ⟨i :: done, j, rest, v :: vs, w', rfl, (Eval.evalArgs_cons_iff
            (returns_evalExpr names q l)).mpr ⟨v, vs, _, rfl, hrun, hdone⟩, rfl⟩
    · rintro ⟨done, j, rest, us, w', hids, hdone, rfl⟩
      cases done with
      | nil =>
        obtain ⟨rfl, -⟩ := List.cons.inj hids
        obtain ⟨-, rfl⟩ := Eval.evalArgs_nil.mp hdone
        exact .inl rfl
      | cons k done =>
        obtain ⟨rfl, rfl⟩ := List.cons.inj hids
        obtain ⟨v, vs, w₁, -, hk, hvs⟩ :=
          (Eval.evalArgs_cons_iff (returns_evalExpr names q l)).mp hdone
        have hr : result names ⟨q, .expr l i, c, w⟩ = .ok v := congrArg Prod.fst hk
        have hw : after names ⟨q, .expr l i, c, w⟩ = w₁ := after_eq hk
        rw [hr, hw]
        exact .inr (ih.mpr ⟨done, j, rest, vs, w', rfl, hvs, rfl⟩)

theorem begins_of_mem_afterwards {id : ExprId} {nd : Node} {vs : List Value}
    (hn : c.arena.node? id = some nd)
    (hvs : Eval.evalArgs (Eval.evalExpr names (Eval.callValue names q) l) (nd.operands c.arena)
      (c.machine w) = (.ok vs, c.machine w')) (h : n ∈ afterwards names q l c w' nd vs) :
    Begins names ⟨q, .expr (l + 1) id, c, w⟩ [] n := by
  unfold afterwards at h
  split at h
  · rename_i f s v vs
    split at h
    · rename_i ids hids
      rw [Node.operands_call hids] at hvs
      obtain rfl := List.mem_singleton.mp h
      exact .call hn hids hvs
    · cases h
  · rename_i s _
    split at h
    · rename_i ids hids
      obtain ⟨-, rfl⟩ := Eval.evalArgs_nil.mp hvs
      obtain ⟨done, i, rest, us, w', rfl, hdone, rfl⟩ := mem_sequence.mp h
      exact .statement hn hids hdone
    · cases h
  · rename_i cond i e v
    split at h
    · rename_i j hj
      obtain rfl := List.mem_singleton.mp h
      exact .branch hn (Eval.evalArgs_singleton.mp hvs) hj
    · cases h
  · cases h

theorem begins_of_mem_call {v : Value} {vs : List Value}
    (h : n ∈ parts names ⟨q, .call v vs, c, w⟩) :
    ∃ calls, Begins names ⟨q, .call v vs, c, w⟩ calls n := by
  cases q with
  | zero => cases v <;> cases h
  | succ q =>
    cases v with
    | function f =>
      obtain ⟨r, h', hact⟩ := Eval.activate_machine names f vs c w
      rw [parts, hact] at h
      cases r with
      | error u => cases h
      | ok g =>
        dsimp only at h
        split at h
        · rename_i hroom
          obtain rfl := List.mem_singleton.mp h
          exact ⟨_, .body hact hroom⟩
        · cases h
    | _ => cases h

/-- **The parts of a moment are what begins directly in its course.** -/
theorem mem_parts : n ∈ m.parts names ↔ ∃ calls, Begins names m calls n := by
  obtain ⟨q, task, c, w⟩ := m
  constructor
  · intro h
    cases task with
    | expr l id =>
      cases l with
      | zero => cases h
      | succ l =>
        cases hn : c.arena.node? id with
        | none => simp [parts, hn] at h
        | some nd =>
          simp only [parts, hn, List.mem_append] at h
          rcases h with h | h
          · obtain ⟨done, i, rest, vs, w', hids, hdone, rfl⟩ := mem_sequence.mp h
            exact ⟨_, .operand hn hids hdone⟩
          · obtain ⟨r, w', -, hvs, -⟩ := Eval.Returns.evalArgs (returns_evalExpr names q l)
              (nd.operands c.arena) c w
            rw [hvs] at h
            cases r with
            | error u => cases h
            | ok vs => exact ⟨_, begins_of_mem_afterwards hn hvs h⟩
    | call v vs => exact begins_of_mem_call h
    | body b =>
      cases hids : c.arena.statements? b with
      | none => simp [parts, hids] at h
      | some p =>
        simp only [parts, hids] at h
        obtain ⟨done, i, rest, vs, w', hp, hdone, rfl⟩ := mem_sequence.mp h
        exact ⟨_, .inBody (hids.trans (congrArg _ (Prod.ext rfl hp))) hdone⟩
  · rintro ⟨calls, h⟩
    cases h with
    | operand hn hids hdone =>
      simp only [parts, hn, List.mem_append]
      exact .inl (mem_sequence.mpr ⟨_, _, _, _, _, hids, hdone, rfl⟩)
    | branch hn hcond hj =>
      simp [parts, hn, Node.operands, Eval.evalArgs_singleton.mpr hcond, afterwards, hj]
    | statement hn hids hdone =>
      simp only [parts, hn, Node.operands, Eval.evalArgs, afterwards, hids]
      exact mem_sequence.mpr ⟨_, _, _, _, _, rfl, hdone, rfl⟩
    | call hn hids hdone =>
      simp [parts, hn, Node.operands_call hids, hdone, afterwards, hids]
    | body hact hroom => simp [parts, hact, hroom]
    | inBody hids hdone =>
      simp only [parts, hids]
      exact mem_sequence.mpr ⟨_, _, _, _, _, rfl, hdone, rfl⟩

/-- What holds of a moment if it holds of its parts holds of every moment. -/
theorem parts_induction (names : Interner) {P : Moment → Prop}
    (h : ∀ m, (∀ n ∈ m.parts names, P n) → P m) (m : Moment) : P m := by
  refine h m fun n hn => ?_
  obtain ⟨_, hb⟩ := mem_parts.mp hn
  exact parts_induction names h n
termination_by m.rank
decreasing_by exact hb.rank_lt

/-- What there is to find in the course of a moment: at its parts in their order, and last at the
moment itself. -/
def collect {α : Type} (names : Interner) (own : Moment → Option α) (m : Moment) : List α :=
  (m.parts names).attach.flatMap (fun n => collect names own n.1) ++ (own m).toList
termination_by m.rank
decreasing_by
  obtain ⟨_, h⟩ := mem_parts.mp n.2
  exact h.rank_lt

theorem collect_eq {α : Type} (names : Interner) (own : Moment → Option α) (m : Moment) :
    m.collect names own = (m.parts names).flatMap (collect names own) ++ (own m).toList := by
  rw [collect, List.flatMap_def, List.attach_map_val (f := collect names own)]
  rfl

theorem mem_collect {α : Type} {own : Moment → Option α} {a : α} :
    a ∈ m.collect names own ↔ ∃ calls n, During names m calls n ∧ own n = some a := by
  constructor
  · induction m using parts_induction names with
    | h m ih =>
      rw [collect_eq, List.mem_append, List.mem_flatMap, Option.mem_toList]
      rintro (⟨n, hn, ha⟩ | ha)
      · obtain ⟨calls, hb⟩ := mem_parts.mp hn
        obtain ⟨inner, o, ho, ha⟩ := ih n hn ha
        exact ⟨_, o, .later hb ho, ha⟩
      · exact ⟨[], m, .here m, ha⟩
  · rintro ⟨calls, n, h, ha⟩
    induction h with
    | here m =>
      rw [collect_eq, ha]
      exact List.mem_append_right _ (List.mem_singleton.mpr rfl)
    | later hb _ ih =>
      rw [collect_eq, List.mem_append, List.mem_flatMap]
      exact .inl ⟨_, mem_parts.mpr ⟨_, hb⟩, ih ha⟩

/-! ## What is printed -/

/-- The values of its arguments, if a `print` is evaluated at the moment. One that has an argument
which is left early is not. -/
def printed? (names : Interner) : Moment → Option (List Value)
  | ⟨q, .expr (l + 1) id, c, w⟩ =>
    match c.arena.node? id with
    | some (.print s) =>
      match c.arena.list? s with
      | some ids =>
        let ev := Eval.evalExpr names (Eval.callValue names q) l
        (Eval.evalArgs ev ids (c.machine w)).1.toOption
      | none => none
    | _ => none
  | _ => none

/-- **The prints that are evaluated in the course of a moment**, in order, each with the values of
its arguments. -/
def prints (names : Interner) (m : Moment) : List (List Value) :=
  m.collect names (printed? names)

theorem prints_eq (names : Interner) (m : Moment) :
    m.prints names = (m.parts names).flatMap (prints names) ++ (m.printed? names).toList :=
  collect_eq names _ m

theorem mem_prints {vs : List Value} :
    vs ∈ m.prints names ↔ ∃ calls n, During names m calls n ∧ n.printed? names = some vs :=
  mem_collect

/-! ## What becomes of what is printed -/

/-- The lines that are written in the course of a moment. -/
def lines (names : Interner) (m : Moment) : List String := (m.prints names).map Value.line

/-- Exactly these lines are appended to what was printed before. -/
def Appends (names : Interner) (m : Moment) : Prop :=
  (m.after names).sink = m.world.sink.printAll (m.lines names)

theorem lines_eq (names : Interner) (m : Moment) : m.lines names =
    (m.parts names).flatMap (lines names) ++ ((m.printed? names).toList.map Value.line) := by
  rw [lines, prints_eq, List.map_append, List.map_flatMap]
  rfl

theorem sink_evalArgs (h : ∀ n ∈ sequence names q l c w ids, n.Appends names) :
    (Eval.evalArgs (Eval.evalExpr names (Eval.callValue names q) l) ids (c.machine w)).2.sink =
      w.sink.printAll ((sequence names q l c w ids).flatMap (lines names)) := by
  induction ids generalizing w with
  | nil => rfl
  | cons i ids ih =>
    have hi : Eval.evalExpr names (Eval.callValue names q) l i (c.machine w) =
        (result names ⟨q, .expr l i, c, w⟩, c.machine (after names ⟨q, .expr l i, c, w⟩)) :=
      eval_machine names ⟨q, .expr l i, c, w⟩
    have hfirst : (after names ⟨q, .expr l i, c, w⟩).sink =
        w.sink.printAll (lines names ⟨q, .expr l i, c, w⟩) := h _ List.mem_cons_self
    rw [sequence, List.flatMap_cons, Sink.printAll_append, ← hfirst]
    rw [sequence] at h
    cases hr : result names ⟨q, .expr l i, c, w⟩ with
    | error u =>
      rw [hr] at hi
      rw [Eval.evalArgs, Eval.bind_error hi]
      rfl
    | ok v =>
      rw [hr] at hi
      simp only [hr] at h
      rw [Eval.evalArgs_cons_ok hi, Eval.bind_pure_snd]
      exact ih fun n hn => h n (List.mem_cons_of_mem _ hn)

/-- What a node does with the values of its operands prints what is printed by the parts that it
goes on with, unless it is a `print`. -/
theorem sink_conclude {nd : Node} {vs : List Value} (hnd : ∀ s, nd ≠ .print s)
    (h : ∀ n ∈ afterwards names q l c w nd vs, n.Appends names) :
    (Eval.conclude names (Eval.callValue names q) (Eval.evalExpr names (Eval.callValue names q) l)
      nd vs (c.machine w)).2.sink =
      w.sink.printAll ((afterwards names q l c w nd vs).flatMap (lines names)) := by
  cases nd with
  | print s => exact absurd rfl (hnd s)
  | call f s =>
    cases vs with
    | nil => rfl
    | cons v vs =>
      cases hs : c.arena.list? s with
      | none =>
        rw [Eval.conclude, Eval.bind_error (Eval.list_none hs)]
        simp only [afterwards, hs]
        rfl
      | some ids =>
        simp only [afterwards, hs, List.mem_singleton, forall_eq, List.flatMap_singleton] at h ⊢
        rw [Eval.conclude_call hs]
        exact h
  | block s =>
    cases hs : c.arena.list? s with
    | none =>
      rw [Eval.conclude, Eval.bind_error (Eval.list_none hs)]
      simp only [afterwards, hs]
      rfl
    | some ids =>
      simp only [afterwards, hs] at h ⊢
      rw [Eval.conclude_block hs, Eval.runStmts_eq]
      exact (congrArg Machine.sink Eval.bind_pure_snd).trans (sink_evalArgs h)
  | ifElse cond i e =>
    rcases vs with _ | ⟨v, _ | ⟨_, _⟩⟩
    · rfl
    · cases hj : if v.isTruthy then some i else e with
      | none =>
        rw [Eval.conclude_ifElse_none hj]
        simp only [afterwards, hj]
        rfl
      | some j =>
        simp only [afterwards, hj, List.mem_singleton, forall_eq, List.flatMap_singleton] at h ⊢
        rw [Eval.conclude_ifElse hj]
        exact h
    · rfl
  -- All other nodes at most look something up or store it.
  | ident n =>
    rw [Eval.conclude, Eval.getVar_machine]
    cases w.heap.owner? c.frame n <;> rfl
  | letIn n i =>
    rcases vs with _ | ⟨v, _ | ⟨_, _⟩⟩
    · rfl
    · rw [Eval.conclude, Eval.bind_pure_snd, Eval.defineVar_machine]
      split <;> rfl
    · rfl
  | assign n i =>
    rcases vs with _ | ⟨v, _ | ⟨_, _⟩⟩
    · rfl
    · rw [Eval.conclude, Eval.bind_pure_snd, Eval.setVar_machine]
      split <;> rfl
    · rfl
  | compound op n i =>
    rcases vs with _ | ⟨v, _ | ⟨_, _⟩⟩
    · rfl
    · rw [Eval.conclude, Eval.bind_pure_snd, Eval.updateVar_machine]
      split
      · split <;> rfl
      · rfl
    · rfl
  | binary op i j =>
    rcases vs with _ | ⟨v, _ | ⟨u, _ | _⟩⟩
    · rfl
    · rfl
    · rw [Eval.conclude]
      cases op.apply v u <;> rfl
    · rfl
  | ret e =>
    rcases e with _ | e
    · rfl
    · rcases vs with _ | ⟨v, _ | ⟨_, _⟩⟩ <;> rfl
  | _ => rfl

theorem Appends.of_run {out : Except Unwind Value × Machine}
    (hrun : m.eval names (m.context.machine m.world) = out)
    (h : out.2.sink = m.world.sink.printAll ((m.parts names).flatMap (lines names) ++
      (m.printed? names).toList.map Value.line)) : m.Appends names := by
  rw [Appends, lines_eq, after, hrun]
  exact h

/-- A `print` appends what its arguments print, and then its own line if they all have values. -/
theorem appends_print {id : ExprId} {s : Span} (hn : c.arena.node? id = some (.print s))
    (h : ∀ n ∈ parts names ⟨q, .expr (l + 1) id, c, w⟩, n.Appends names) :
    Appends names ⟨q, .expr (l + 1) id, c, w⟩ := by
  refine .of_run (Eval.evalExpr_succ l hn) ?_
  rw [Eval.evalNode]
  cases hs : c.arena.list? s with
  | none =>
    rw [Eval.bind_error (Eval.list_none hs)]
    simp only [parts, printed?, hn, hs, Node.operands]
    rfl
  | some ids =>
    have hlist : Eval.list s (c.machine w) = (.ok ids, c.machine w) := by
      rw [Eval.list_machine, hs]
    obtain ⟨r, w', -, hids, -⟩ :=
      Eval.Returns.evalArgs (returns_evalExpr names q l) ids c w
    have hoperands : (Node.print s).operands c.arena = ids := by
      rw [Node.operands, hs, Option.getD_some]
    simp only [parts, printed?, hn, hs, hoperands, hids] at h ⊢
    rw [Eval.bind_ok hlist]
    have hfirst := sink_evalArgs fun n hn => h n (List.mem_append_left _ hn)
    rw [hids] at hfirst
    cases r with
    | error u =>
      rw [Eval.bind_error hids]
      simpa [Except.toOption] using hfirst
    | ok vs =>
      rw [Eval.bind_ok hids, Eval.bind_ok (Eval.printLine_machine vs), Sink.printAll_append]
      simp [afterwards, ← hfirst]
      rfl

theorem appends_expr {id : ExprId} {nd : Node} (hn : c.arena.node? id = some nd)
    (hnd : ∀ s, nd ≠ .print s)
    (h : ∀ n ∈ parts names ⟨q, .expr (l + 1) id, c, w⟩, n.Appends names) :
    Appends names ⟨q, .expr (l + 1) id, c, w⟩ := by
  refine .of_run (eval_expr hn) ?_
  have hprinted : printed? names ⟨q, .expr (l + 1) id, c, w⟩ = none := by
    unfold printed?
    split <;> grind
  obtain ⟨r, w', -, hops, -⟩ := Eval.Returns.evalArgs (returns_evalExpr names q l)
    (nd.operands c.arena) c w
  simp only [parts, hn, hops, List.mem_append] at h
  have hfirst := sink_evalArgs fun n hn => h n (.inl hn)
  rw [hops] at hfirst
  simp only [parts, hn, hops, hprinted, Option.toList_none, List.map_nil, List.append_nil,
    List.flatMap_append, Sink.printAll_append]
  cases r with
  | error u =>
    rw [Eval.bind_error hops]
    exact hfirst
  | ok vs =>
    simp only [Machine.world_machine] at h ⊢
    rw [Eval.bind_ok hops, sink_conclude hnd fun n hn => h n (.inr hn), ← hfirst]
    rfl

theorem appends_call {v : Value} {vs : List Value}
    (h : ∀ n ∈ parts names ⟨q, .call v vs, c, w⟩, n.Appends names) :
    Appends names ⟨q, .call v vs, c, w⟩ := by
  cases v with
  | function f =>
    obtain ⟨r, h', hact⟩ := Eval.activate_machine names f vs c w
    cases r with
    | error u =>
      cases q with
      | zero => exact .of_run (Eval.bind_error hact) rfl
      | succ q =>
        refine .of_run (Eval.bind_error hact) ?_
        simp only [parts, hact]
        rfl
    | ok g =>
      by_cases hroom : c.stack.depth < c.stack.maxDepth
      · cases q with
        | zero =>
          exact .of_run ((Eval.bind_ok hact).trans (Eval.duringCall_machine hroom
            (Eval.inScope_machine (Eval.settle_machine rfl)))) rfl
        | succ q =>
          let body : Moment := ⟨q, .body f.code.body, ⟨f.code.arena, g, c.stack.enter ⟨f.name⟩⟩,
            { w with heap := h' }⟩
          have hbody : body.Appends names := by
            refine h body ?_
            simp only [parts, hact, if_pos hroom]
            exact List.mem_singleton_self _
          refine .of_run (Eval.callValue_machine hroom hact (eval_machine names body)) ?_
          simp only [parts, hact, if_pos hroom, printed?, List.flatMap_singleton,
            Option.toList_none, List.map_nil, List.append_nil]
          exact hbody
      · have hfull := Nat.le_of_not_lt hroom
        cases q with
        | zero => exact .of_run ((Eval.bind_ok hact).trans (Eval.duringCall_full hfull)) rfl
        | succ q =>
          refine .of_run ((Eval.bind_ok hact).trans (Eval.duringCall_full hfull)) ?_
          simp only [parts, hact, if_neg hroom]
          rfl
  | _ => exact .of_run rfl (by cases q <;> rfl)

theorem appends_body {b : ExprId} (h : ∀ n ∈ parts names ⟨q, .body b, c, w⟩, n.Appends names) :
    Appends names ⟨q, .body b, c, w⟩ := by
  cases hids : c.arena.statements? b with
  | none =>
    obtain ⟨fault, hrun⟩ := Eval.runBody_none hids
    refine .of_run hrun ?_
    simp only [parts, hids]
    rfl
  | some p =>
    obtain ⟨l, ids⟩ := p
    simp only [parts, hids] at h
    refine .of_run (Eval.runBody_statements hids) ?_
    simp only [parts, hids, printed?, Option.toList_none, List.map_nil, List.append_nil]
    rw [Eval.bind_pure_snd]
    exact sink_evalArgs h

/-- **A run appends the lines of the prints in its course**, and nothing else. -/
theorem appends (names : Interner) (m : Moment) : m.Appends names := by
  -- By induction on how far nesting may still go: what holds of the parts holds of the whole.
  induction m using parts_induction names with
  | h m h =>
    obtain ⟨q, task, c, w⟩ := m
    cases task with
    | expr l id =>
      cases l with
      | zero => exact .of_run rfl rfl
      | succ l =>
        cases hn : c.arena.node? id with
        | none =>
          refine .of_run (Eval.bind_error (Eval.node_none hn)) ?_
          simp only [parts, printed?, hn]
          rfl
        | some nd =>
          by_cases hnd : ∃ s, nd = .print s
          · obtain ⟨s, rfl⟩ := hnd
            exact appends_print hn h
          · exact appends_expr hn (not_exists.mp hnd) h
    | call v vs => exact appends_call h
    | body b => exact appends_body h

end Moment

/-! ## What a host sees of it -/

namespace Request

theorem world_start (r : Request) (i : Interpreter) (w : World) : (r.start i w).world = w := by
  cases r <;> rfl

theorem perform_start (r : Request) (names : Interner) (i : Interpreter) (w : World) :
    r.perform names i w =
      (.ofResult ((r.start i w).result names), i, (r.start i w).after names) := by
  rw [perform_eq]
  cases r <;> exact Interpreter.perform_machine (Moment.eval_machine names _)

end Request
end ClosureLang
