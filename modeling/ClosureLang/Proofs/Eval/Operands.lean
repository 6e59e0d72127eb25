import ClosureLang.Proofs.Eval.Returns

/-!
# Operands first, then one action

Every node is evaluated in two parts. Its operands are the children that are evaluated whenever
it is: they run in order, in the current scope, and one that is left early ends the node. Then
comes what the node does with their values. `evalNode_machine` says so for all nodes at once.
A node with one operand, one with two and one with a list of them are thereby one case, and so
are the statements of a block, of which only the last value is kept (`runStmts_eq`). The body of a
function is its statements and nothing else (`runBody_statements`).

The order is what `evalArgs_cases` and `evalArgs_stop` are about: a list of expressions yields
all values, or there is a first one that is left early.
-/

namespace ClosureLang

/-- The children that are evaluated whenever the node is, in order. -/
def Node.operands (a : Arena) : Node → List ExprId
  | letIn _ i | assign _ i | compound _ _ i => [i]
  | binary _ l r => [l, r]
  | call f s => f :: (a.list? s).getD []
  | print s => (a.list? s).getD []
  | ifElse c _ _ => [c]
  | ret v => v.toList
  | _ => []

theorem Node.operands_call {a : Arena} {f : ExprId} {s : Span} {ids : List ExprId}
    (hs : a.list? s = some ids) : (Node.call f s).operands a = f :: ids := by
  rw [operands, hs, Option.getD_some]

namespace Eval

variable {names : Interner} {call : Value → List Value → Eval Value} {ev : ExprId → Eval Value}
  {c : Context} {w w₁ w₂ : World}

/-- What a node does with the values of its operands. -/
def conclude (names : Interner) (call : Value → List Value → Eval Value)
    (ev : ExprId → Eval Value) : Node → List Value → Eval Value
  | .number x, _ => pure (.number x)
  | .bool b, _ => pure (.bool b)
  | .str text, _ => pure (.str (names.lookup text))
  | .ident n, _ => getVar names n
  | .letIn n _, [v] => do
    defineVar names n v
    pure .void
  | .assign n _, [v] => do
    setVar names n v
    pure .void
  | .compound op n _, [v] => do
    updateVar names op n v
    pure .void
  | .binary op _ _, [l, r] =>
    match op.apply l r with
    | .ok v => pure v
    | .error e => raise e
  | .function definition, _ => makeFunction names definition
  | .call _ args, f :: vs => do
    let _ ← list args
    call f vs
  | .print args, vs => do
    let _ ← list args
    printLine vs
    pure .void
  | .block stmts, _ => do
    let ids ← list stmts
    let child ← newChild (← current)
    inFrame child (runStmts ev .void ids)
  | .ifElse _ thenBranch elseBranch, [v] =>
    if v.isTruthy then ev thenBranch
    else
      match elseBranch with
      | some e => ev e
      | none => pure .void
  | .ret none, _ => .fail (.ret .void)
  | .ret (some _), [v] => .fail (.ret v)
  | _, _ => pure .void

theorem conclude_call {f : ExprId} {s : Span} {ids : List ExprId} {v : Value} {vs : List Value}
    (hs : c.arena.list? s = some ids) :
    conclude names call ev (.call f s) (v :: vs) (c.machine w) = call v vs (c.machine w) := by
  rw [conclude, Attempt.bind_apply, list_machine, hs]

theorem conclude_block {s : Span} {ids : List ExprId} {vs : List Value}
    (hs : c.arena.list? s = some ids) :
    conclude names call ev (.block s) vs (c.machine w) =
      inFrame w.heap.size (runStmts ev .void ids)
        (c.machine { w with heap := (w.heap.child c.frame).2 }) := by
  rw [conclude, Attempt.bind_apply, list_machine, hs]
  rfl

/-- A conditional that has the branch `j` to go on with. -/
theorem conclude_ifElse {cond i j : ExprId} {b : Option ExprId} {v : Value}
    (hj : (if v.isTruthy then some i else b) = some j) :
    conclude names call ev (.ifElse cond i b) [v] = ev j := by
  by_cases hv : v.isTruthy = true
  · obtain rfl : i = j := by simpa [hv] using hj
    simp [conclude, hv]
  · obtain rfl : b = some j := by simpa [hv] using hj
    simp [conclude, hv]

theorem conclude_ifElse_none {cond i : ExprId} {b : Option ExprId} {v : Value}
    (hj : (if v.isTruthy then some i else b) = none) :
    conclude names call ev (.ifElse cond i b) [v] = pure .void := by
  by_cases hv : v.isTruthy = true
  · simp [hv] at hj
  · obtain rfl : b = none := by simpa [hv] using hj
    simp [conclude, hv]

/-! ## Lists of expressions -/

theorem evalArgs_cons_ok {i : ExprId} {ids : List ExprId} {v : Value}
    (h : ev i (c.machine w) = (.ok v, c.machine w₁)) :
    evalArgs ev (i :: ids) (c.machine w) =
      (evalArgs ev ids >>= fun vs => pure (v :: vs)) (c.machine w₁) :=
  bind_ok h

theorem evalArgs_nil {vs : List Value} :
    evalArgs ev [] (c.machine w) = (.ok vs, c.machine w₁) ↔ [] = vs ∧ w = w₁ := by
  simp [evalArgs, Attempt.pure_apply, Context.machine_inj]

theorem evalArgs_singleton {i : ExprId} {v : Value} :
    evalArgs ev [i] (c.machine w) = (.ok [v], c.machine w₁) ↔
      ev i (c.machine w) = (.ok v, c.machine w₁) := by
  simp only [evalArgs, Attempt.bind_apply]
  cases ev i (c.machine w) with
  | mk r m => cases r <;> simp [Attempt.pure_apply]

/-- A list has its values when its first expression has one and the others have theirs from
there. -/
theorem evalArgs_cons_iff (hev : ∀ i, (ev i).Returns) {i : ExprId} {ids : List ExprId}
    {us : List Value} :
    evalArgs ev (i :: ids) (c.machine w) = (.ok us, c.machine w₂) ↔ ∃ v vs w₁, us = v :: vs ∧
      ev i (c.machine w) = (.ok v, c.machine w₁) ∧
      evalArgs ev ids (c.machine w₁) = (.ok vs, c.machine w₂) := by
  constructor
  · intro h
    obtain ⟨r, w₁, -, hi, -⟩ := hev i c w
    cases r with
    | error u =>
      rw [evalArgs, bind_error hi] at h
      cases h
    | ok v =>
      rw [evalArgs_cons_ok hi] at h
      obtain ⟨r', w', -, hids, -⟩ := Returns.evalArgs hev ids c w₁
      cases r' with
      | error u =>
        rw [bind_error hids] at h
        cases h
      | ok vs =>
        rw [bind_ok hids] at h
        obtain ⟨hus, hw⟩ := Prod.mk.inj h
        obtain rfl := Context.machine_inj.mp hw
        exact ⟨v, vs, w₁, (Except.ok.inj hus).symm, hi, hids⟩
  · rintro ⟨v, vs, w₁, rfl, hi, hids⟩
    rw [evalArgs_cons_ok hi, bind_ok hids]
    rfl

/-- Statements are expressions of which the last value is kept. -/
theorem runStmts_eq (ev : ExprId → Eval Value) (last : Value) (ids : List ExprId) :
    runStmts ev last ids = evalArgs ev ids >>= fun vs => pure (vs.getLastD last) := by
  induction ids generalizing last with
  | nil => rfl
  | cons i ids ih =>
    funext m
    simp only [runStmts, evalArgs, Attempt.bind_apply, ih]
    cases ev i m with
    | mk r m =>
      cases r with
      | error u => rfl
      | ok v =>
        dsimp only
        cases evalArgs ev ids m with
        | mk r m =>
          cases r with
          | error u => rfl
          | ok vs => cases vs <;> rfl

/-- **In order**: all expressions of a list yield their values, or there is a first one that does
not, and none is evaluated behind it. -/
theorem evalArgs_cases (hev : ∀ i, (ev i).Returns) (ids : List ExprId) (c : Context) (w : World) :
    (∃ vs w₁, evalArgs ev ids (c.machine w) = (.ok vs, c.machine w₁)) ∨
    ∃ done i rest vs w₁ u w₂, ids = done ++ i :: rest ∧
      evalArgs ev done (c.machine w) = (.ok vs, c.machine w₁) ∧
      ev i (c.machine w₁) = (.error u, c.machine w₂) ∧
      evalArgs ev ids (c.machine w) = (.error u, c.machine w₂) := by
  induction ids generalizing w with
  | nil => exact .inl ⟨[], w, rfl⟩
  | cons i ids ih =>
    obtain ⟨r, w₁, -, hi, -⟩ := hev i c w
    cases r with
    | error u =>
      exact .inr ⟨[], i, ids, [], w, u, w₁, rfl, rfl, hi, bind_error hi⟩
    | ok v =>
      rcases ih w₁ with ⟨vs, w₂, hvs⟩ | ⟨done, j, rest, vs, w₂, u, w₃, rfl, hdone, hj, hstop⟩
      · exact .inl ⟨v :: vs, w₂, by rw [evalArgs_cons_ok hi, bind_ok hvs]; rfl⟩
      · exact .inr ⟨i :: done, j, rest, v :: vs, w₂, u, w₃, rfl,
          by rw [evalArgs_cons_ok hi, bind_ok hdone]; rfl, hj,
          by rw [evalArgs_cons_ok hi, bind_error hstop]⟩

/-- An expression that is left early ends the list that it stands in. -/
theorem evalArgs_stop {done : List ExprId} {i : ExprId} {vs : List Value} {u : Unwind}
    (rest : List ExprId)
    (hdone : evalArgs ev done (c.machine w) = (.ok vs, c.machine w₁))
    (hi : ev i (c.machine w₁) = (.error u, c.machine w₂)) (hev : ∀ i, (ev i).Returns) :
    evalArgs ev (done ++ i :: rest) (c.machine w) = (.error u, c.machine w₂) := by
  induction done generalizing w vs with
  | nil =>
    have hw : c.machine w = c.machine w₁ := (Prod.mk.inj hdone).2
    rw [List.nil_append, hw]
    exact bind_error hi
  | cons j done ih =>
    obtain ⟨v, vs', w', -, hj, hrest⟩ := (evalArgs_cons_iff hev).mp hdone
    rw [List.cons_append, evalArgs_cons_ok hj, bind_error (ih hrest)]

theorem bind_pure_error {α β : Type} {x : Eval α} {g : α → β} {m : Machine} {u : Unwind} :
    ((x >>= fun a => pure (g a)) m).1 = .error u ↔ (x m).1 = .error u := by
  rw [Attempt.bind_apply]
  cases x m with
  | mk r m => cases r <;> simp [Attempt.pure_apply]

theorem runStmts_singleton (ev : ExprId → Eval Value) (last : Value) (i : ExprId) (m : Machine) :
    runStmts ev last [i] m = ev i m := by
  simp only [runStmts, Attempt.bind_apply]
  cases ev i m with
  | mk r m => cases r <;> rfl

theorem runStmts_error {last : Value} {ids : List ExprId} {u : Unwind}
    (h : evalArgs ev ids (c.machine w) = (.error u, c.machine w₁)) :
    runStmts ev last ids (c.machine w) = (.error u, c.machine w₁) := by
  rw [runStmts_eq]
  exact bind_error h

/-- A list is left early where one of its expressions is. -/
theorem evalArgs_error (hev : ∀ i, (ev i).Returns) {ids : List ExprId} {u : Unwind}
    (h : (evalArgs ev ids (c.machine w)).1 = .error u) :
    ∃ done i rest vs w₁, ids = done ++ i :: rest ∧
      evalArgs ev done (c.machine w) = (.ok vs, c.machine w₁) ∧
      (ev i (c.machine w₁)).1 = .error u := by
  rcases evalArgs_cases hev ids c w with
    ⟨vs, w₁, hvs⟩ | ⟨done, i, rest, vs, w₁, u', w₂, hids, hdone, hi, hstop⟩
  · rw [hvs] at h
    cases h
  · rw [hstop] at h
    cases h
    exact ⟨done, i, rest, vs, w₁, hids, hdone, congrArg Prod.fst hi⟩

/-! ## Nodes -/

theorem evalArgs_cons_bind {β : Type} (i : ExprId) (ids : List ExprId) (g : List Value → Eval β) :
    evalArgs ev (i :: ids) >>= g =
      ev i >>= fun v => evalArgs ev ids >>= fun vs => g (v :: vs) := by
  funext m
  simp only [evalArgs, Attempt.bind_apply]
  cases ev i m with
  | mk r m =>
    cases r with
    | error u => rfl
    | ok v =>
      dsimp only
      cases evalArgs ev ids m with
      | mk r m => cases r <;> rfl

/-- The list that holds operands may as well be read again after they are evaluated. -/
theorem list_evalArgs {β : Type} (hev : ∀ i, (ev i).Returns) (s : Span) (g : List Value → Eval β)
    (c : Context) (w : World) :
    (list s >>= fun ids => evalArgs ev ids >>= g) (c.machine w) =
      (evalArgs ev ((c.arena.list? s).getD []) >>= fun vs => list s >>= fun _ => g vs)
        (c.machine w) := by
  cases hs : c.arena.list? s with
  | none =>
    have hlist : list s (c.machine w) = (.error (.fault (.noList s)), c.machine w) := by
      rw [list_machine, hs]
    rw [bind_error hlist]
    exact (bind_error hlist).symm
  | some ids =>
    have hlist : ∀ w', list s (c.machine w') = (.ok ids, c.machine w') := by
      intro w'
      rw [list_machine, hs]
    rw [bind_ok (hlist w)]
    obtain ⟨r, w', -, hrun, -⟩ := Returns.evalArgs hev ids c w
    cases r with
    | error u => rw [bind_error hrun]; exact (bind_error hrun).symm
    | ok vs => rw [bind_ok hrun]; exact ((bind_ok hrun).trans (bind_ok (hlist w'))).symm

/-- **A node evaluates its operands and then does one thing with their values.** -/
theorem evalNode_machine (hev : ∀ i, (ev i).Returns) (n : Node) (c : Context) (w : World) :
    evalNode names call ev n (c.machine w) =
      (evalArgs ev (n.operands c.arena) >>= conclude names call ev n) (c.machine w) := by
  cases n with
  | letIn n i => rw [Node.operands, evalArgs_cons_bind]; rfl
  | assign n i => rw [Node.operands, evalArgs_cons_bind]; rfl
  | compound op n i => rw [Node.operands, evalArgs_cons_bind]; rfl
  | binary op l r =>
    rw [Node.operands, evalArgs_cons_bind]
    simp only [evalArgs_cons_bind]
    rfl
  | call f s =>
    rw [Node.operands, evalArgs_cons_bind]
    -- The list of arguments is looked up between the callee and the arguments.
    obtain ⟨r, w', -, hf, -⟩ := hev f c w
    cases r with
    | error u => exact (bind_error hf).trans (bind_error hf).symm
    | ok v =>
      rw [bind_ok hf]
      exact (bind_ok hf).trans (list_evalArgs hev s (call v) c w')
  | print s => exact list_evalArgs hev s (fun vs => printLine vs >>= fun _ => pure Value.void) c w
  | ifElse i t e => rw [Node.operands, evalArgs_cons_bind]; rfl
  | ret v =>
    cases v with
    | none => rfl
    | some i => rw [Node.operands, Option.toList, evalArgs_cons_bind]; rfl
  | _ => rfl

end Eval

/-- What a node does with the values of its operands has a property that the children and the calls
that it goes on with have. -/
theorem Compositional.conclude {ι : Type} {names : Interner}
    {P : CallStack → {α : Type} → (ι → Eval α) → Prop} {k : CallStack}
    {ev : ι → ExprId → Eval Value} {call : ι → Value → List Value → Eval Value}
    (C : Compositional names P) (hcall : ∀ v vs, P k fun j => call j v vs)
    (hev : ∀ i, P k fun j => ev j i) (n : Node) (vs : List Value) :
    P k fun j => Eval.conclude names (call j) (ev j) n vs := by
  have thenVoid : ∀ {x : Eval Unit}, x.Primitive names →
      P k fun _ => x >>= fun _ => Pure.pure Value.void :=
    fun h => C.bind (C.primitive h) fun _ => C.pure Value.void
  cases n with
  | number | bool | str | void => exact C.pure _
  | ident n => exact C.primitive (.getVar n)
  | function d => exact C.primitive (.makeFunction d)
  | print s => exact C.bind (C.primitive (.list s)) fun _ => thenVoid (.printLine vs)
  | block s =>
    exact C.bind (C.primitive (.list s)) fun ids => C.bind (C.primitive .current) fun f =>
      C.bind (C.primitive (.newChild f)) fun g => C.inFrame g (C.runStmts hev .void ids)
  | call f s =>
    cases vs with
    | nil => exact C.pure _
    | cons v vs => exact C.bind (C.primitive (.list s)) fun _ => hcall v vs
  | ret e =>
    cases e with
    | none => exact C.primitive (.fail _)
    | some i =>
      rcases vs with _ | ⟨v, _ | ⟨_, _⟩⟩
      · exact C.pure _
      · exact C.primitive (.fail (.ret v))
      · exact C.pure _
  | letIn n i =>
    rcases vs with _ | ⟨v, _ | ⟨_, _⟩⟩
    · exact C.pure _
    · exact thenVoid (.defineVar n v)
    · exact C.pure _
  | assign n i =>
    rcases vs with _ | ⟨v, _ | ⟨_, _⟩⟩
    · exact C.pure _
    · exact thenVoid (.setVar n v)
    · exact C.pure _
  | compound op n i =>
    rcases vs with _ | ⟨v, _ | ⟨_, _⟩⟩
    · exact C.pure _
    · exact thenVoid (.updateVar op n v)
    · exact C.pure _
  | binary op l r =>
    rcases vs with _ | ⟨v, _ | ⟨u, _ | ⟨_, _⟩⟩⟩
    · exact C.pure _
    · exact C.pure _
    · show P k fun _ => match op.apply v u with
        | .ok x => Pure.pure x
        | .error e => Eval.raise e
      cases op.apply v u with
      | ok x => exact C.pure x
      | error e => exact C.primitive (.fail (.error e))
    · exact C.pure _
  | ifElse cond t e =>
    rcases vs with _ | ⟨v, _ | ⟨_, _⟩⟩
    · exact C.pure _
    · cases hj : if v.isTruthy then some t else e with
      | none =>
        simp only [Eval.conclude_ifElse_none hj]
        exact C.pure _
      | some j =>
        simp only [Eval.conclude_ifElse hj]
        exact hev j
    · exact C.pure _

/-! ## Bodies -/

/-- The statements of a body, and the levels within which they are evaluated. A body that is no
block is its own only statement. -/
def Arena.statements? (a : Arena) (body : ExprId) : Option (Nat × List ExprId) :=
  match a.node? body with
  | some (.block s) => (a.list? s).map fun ids => (body, ids)
  | some _ => some (body + 1, [body])
  | none => none

theorem Arena.statements?_le {a : Arena} {body : ExprId} {l : Nat} {ids : List ExprId}
    (h : a.statements? body = some (l, ids)) : l ≤ body + 1 := by
  unfold statements? at h
  split at h
  · obtain ⟨ids', -, heq⟩ := Option.map_eq_some_iff.1 h
    cases heq
    exact Nat.le_succ _
  · cases h
    exact Nat.le_refl _
  · cases h

namespace Eval

variable {names : Interner} {call : Value → List Value → Eval Value} {c : Context} {w : World}
  {e : EvalError}

/-- The statements of a body run in order, and the value is that of the last. -/
theorem runBody_statements {b l : Nat} {ids : List ExprId}
    (h : c.arena.statements? b = some (l, ids)) :
    runBody names call b (c.machine w) =
      (evalArgs (evalExpr names call l) ids >>= fun vs => pure (vs.getLastD .void))
        (c.machine w) := by
  rw [← runStmts_eq]
  unfold Arena.statements? at h
  cases hn : c.arena.node? b with
  | none => simp [hn] at h
  | some nd =>
    cases nd with
    | block s =>
      obtain ⟨ids', hlist, rfl, rfl⟩ : ∃ ids', c.arena.list? s = some ids' ∧ b = l ∧ ids' = ids := by
        simpa [hn] using h
      exact runBody_block hn hlist
    | _ =>
      obtain ⟨rfl, rfl⟩ : b + 1 = l ∧ [b] = ids := by
        simpa [hn] using h
      rw [runBody, Attempt.bind_apply, node_machine, hn, runStmts_singleton]
      rfl

/-- Without statements, nothing is evaluated. -/
theorem runBody_none {b : Nat} (h : c.arena.statements? b = none) :
    ∃ f, runBody names call b (c.machine w) = (.error (.fault f), c.machine w) := by
  unfold Arena.statements? at h
  rw [runBody, Attempt.bind_apply, node_machine]
  cases hn : c.arena.node? b with
  | none => exact ⟨_, rfl⟩
  | some nd =>
    cases nd with
    | block s =>
      have hlist : c.arena.list? s = none := by simpa [hn] using h
      simp only [Attempt.bind_apply, list_machine, hlist]
      exact ⟨_, rfl⟩
    | _ => simp [hn] at h

/-- An error of a call is one of its body, with a backtrace at the latest now. -/
theorem leaving_settled_error {k : CallStack} {r : Except Unwind Value}
    (h : leaving k (settled r) = .error (.error e)) :
    ∃ e', r = .error (.error e') ∧ e = k.attachBacktrace e' := by
  cases r with
  | ok v => cases h
  | error u =>
    cases u with
    | error e' =>
      cases h
      exact ⟨e', rfl, rfl⟩
    | ret v => cases h
    | fault f => cases h

end Eval
end ClosureLang
