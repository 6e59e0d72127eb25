import ClosureLang.Proofs.Eval.BareErrors
import ClosureLang.Proofs.Eval.Moments

/-!
# Backtraces name the calls that were active

An error is raised at one moment of a run: the moment fails, and nothing that begins in its
course does (`Moment.Raises`). The calls that are active then are the ones entered on the way to
that moment (`During`). No error carries them at first. They are attached when it leaves the
innermost call, or when the limit refuses a call, and an empty list stands for "not attached".

Three lemmas carry the result. Where something that began in the course of a moment fails, the
moment fails with the same error, up to the backtrace that a call attaches (`Begins.fails`). Where
nothing does, the error of the moment has no backtrace yet, unless the limit is its cause
(`Moment.Raises.origin`). So an error unwinds from the moment of its raise to the start of the
run, and at every moment on the way its backtrace is right for the calls in progress there
(`Moment.Raises.unwinds`).
-/

namespace ClosureLang

/-! ## Attaching -/

/-- The backtrace is that of the calls `inner`, with those of `k` in progress around them, or
there are no such calls and it has not been attached yet. -/
def EvalError.Lists (e : EvalError) (inner : List String) (k : CallStack) : Prop :=
  e.backtrace = inner ++ k.capture ∨ inner = [] ∧ e.backtrace = []

namespace CallStack

/-- **Attaching completes a backtrace and never changes one.** -/
theorem backtrace_attachBacktrace {k : CallStack} {e : EvalError} {inner : List String}
    (h : e.Lists inner k) : (k.attachBacktrace e).backtrace = inner ++ k.capture := by
  unfold attachBacktrace
  by_cases hk : k.isEmpty = true
  · have hcapture : k.capture = [] := by
      simpa [isEmpty, capture] using hk
    rcases h with h | ⟨rfl, h⟩ <;> simp [hk, h, hcapture]
  · rcases h with h | ⟨rfl, h⟩
    · have hne : k.capture ≠ [] := by
        simpa [isEmpty, capture] using hk
      have hhas : e.hasBacktrace = true := by
        simp [EvalError.hasBacktrace, h, hne]
      simp [hhas, h]
    · simp [EvalError.hasBacktrace, h, hk, EvalError.withBacktrace]

end CallStack

/-! ## Failing -/

namespace Moment

/-- What begins at the moment ends with that error. -/
def Fails (names : Interner) (m : Moment) (e : EvalError) : Prop :=
  m.result names = .error (.error e)

/-- **An error of that kind is raised at the moment itself**, and not in the course of anything
that begins in its course. -/
structure Raises (names : Interner) (m : Moment) (kind : ErrorKind) : Prop where
  fails : ∃ e, m.Fails names e ∧ e.kind = kind
  own : ∀ calls n e, Begins names m calls n → ¬ n.Fails names e

end Moment

/-! ## From the cause of a failure to the failure -/

open Eval

variable {names : Interner} {m n : Moment} {calls : List String} {e : EvalError}

theorem Moment.result_expr {q l : Nat} {id : ExprId} {c : Context} {w : World} {nd : Node}
    (hn : c.arena.node? id = some nd) :
    Moment.result names ⟨q, .expr (l + 1) id, c, w⟩ =
      ((evalArgs (evalExpr names (callValue names q) l) (nd.operands c.arena) >>=
        conclude names (callValue names q) (evalExpr names (callValue names q) l) nd)
        (c.machine w)).1 :=
  congrArg Prod.fst (eval_expr hn)

/-- What a moment ends with, as an equation about the machine. -/
theorem Moment.Fails.run (h : m.Fails names e) : ∃ w',
    m.eval names (m.context.machine m.world) = (.error (.error e), m.context.machine w') := by
  obtain ⟨r, w', -, hrun, -⟩ := m.returns names m.context m.world
  exact ⟨w', by rw [hrun, ← show m.result names = r from congrArg Prod.fst hrun, h]⟩

/-- **Unwinding.** An error of what begins in the course of a moment becomes one of the moment.
On its way out of a body it gets the calls in progress there as its backtrace, unless it has
one. -/
theorem Begins.fails (h : Begins names m calls n) (hn : n.Fails names e) :
    m.Fails names (if calls = [] then e else n.stack.attachBacktrace e) := by
  obtain ⟨w₂, hrun⟩ := hn.run
  cases h with
  | @operand q l _ c w w' nd done rest i vs hnode hids hdone =>
    have hstop := evalArgs_stop rest hdone hrun (.evalExpr (.callValue q) l)
    show Moment.result names _ = _
    rw [Moment.result_expr hnode, hids, bind_error hstop]
    rfl
  | @branch q l _ c w w' cond i j b v hnode hcond hj =>
    show Moment.result names _ = _
    rw [Moment.result_expr hnode, Node.operands, bind_ok (evalArgs_singleton.2 hcond),
      conclude_ifElse hj]
    exact congrArg Prod.fst hrun
  | @statement q l _ c w w' s done rest i vs hnode hids hdone =>
    have hstop := evalArgs_stop rest hdone hrun (.evalExpr (.callValue q) l)
    have hargs : evalArgs (evalExpr names (callValue names q) l) ((Node.block s).operands c.arena)
        (c.machine w) = (.ok [], c.machine w) := rfl
    show Moment.result names _ = _
    rw [Moment.result_expr hnode, bind_ok hargs, conclude_block hids]
    exact congrArg Prod.fst (inFrame_machine (runStmts_error hstop))
  | @call q l _ c w w' f s ids v vs hnode hids hdone =>
    show Moment.result names _ = _
    rw [Moment.result_expr hnode, Node.operands_call hids, bind_ok hdone, conclude_call hids]
    exact congrArg Prod.fst hrun
  | @body q f vs c w w' g hact hroom =>
    exact congrArg Prod.fst (callValue_machine hroom hact hrun)
  | @inBody q b l c w w' done rest i vs hids hdone =>
    have hstop := evalArgs_stop rest hdone hrun (.evalExpr (.callValue q) l)
    exact congrArg Prod.fst ((runBody_statements hids).trans (bind_error hstop))

/-- An error leaves a call that was entered because it left its body. -/
theorem Begins.body_fails {f : String} (h : Begins names m [f] n) (hm : m.Fails names e) :
    ∃ e', n.Fails names e' ∧ e = n.stack.attachBacktrace e' := by
  cases h with
  | @body q g vs c w w' _ hact hroom =>
    have hreturns : (runBody names (callValue names q) g.code.body).Returns :=
      .runBody (.callValue q) _
    obtain ⟨r, w₂, -, hbody, -⟩ := hreturns ⟨g.code.arena, _, c.stack.enter ⟨g.name⟩⟩ w'
    obtain ⟨e', rfl, rfl⟩ := leaving_settled_error
      ((congrArg Prod.fst (callValue_machine hroom hact hbody)).symm.trans hm)
    exact ⟨e', congrArg Prod.fst hbody, rfl⟩

/-! ## From a failure to its cause -/

/-- A call that is admitted fails because its body does. -/
theorem Moment.Fails.of_entered {q : Nat} {f : Closure} {vs : List Value} {c : Context}
    {w w' : World} {g : FrameId}
    (hact : activate names f vs (c.machine w) = (.ok g, c.machine w'))
    (hroom : c.stack.depth < c.stack.maxDepth)
    (hm : Moment.Fails names ⟨q, .call (.function f) vs, c, w⟩ e) :
    ∃ s n e', Begins names ⟨q, .call (.function f) vs, c, w⟩ [s] n ∧ n.Fails names e' := by
  cases q with
  | zero =>
    have hrun : callValue names 0 (.function f) vs (c.machine w) =
        (.error (.fault .tooManyCalls), c.machine w') :=
      (bind_ok hact).trans (duringCall_machine hroom (inScope_machine (settle_machine rfl)))
    cases (congrArg Prod.fst hrun).symm.trans hm
  | succ q =>
    have hb : Begins names ⟨q + 1, .call (.function f) vs, c, w⟩ [f.displayName] _ :=
      .body hact hroom
    obtain ⟨e', hn, -⟩ := hb.body_fails hm
    exact ⟨_, _, e', hb, hn⟩

/-- What a node does with the values of its operands fails by itself or in something that begins
then. -/
theorem Moment.Fails.of_conclude {q l : Nat} {id : ExprId} {c : Context} {w w₁ : World} {nd : Node}
    {vs : List Value} (hn : c.arena.node? id = some nd)
    (hvs : evalArgs (evalExpr names (callValue names q) l) (nd.operands c.arena) (c.machine w) =
      (.ok vs, c.machine w₁))
    (he : (conclude names (callValue names q) (evalExpr names (callValue names q) l) nd vs
      (c.machine w₁)).1 = .error (.error e)) :
    e.Bare ∨ ∃ n, Begins names ⟨q, .expr (l + 1) id, c, w⟩ [] n ∧ n.Fails names e := by
  have hev : ∀ i, (evalExpr names (callValue names q) l i).Returns := .evalExpr (.callValue q) l
  cases nd with
  | call f s =>
    cases vs with
    | nil => cases he
    | cons v vs =>
      cases hs : c.arena.list? s with
      | none =>
        rw [conclude, Attempt.bind_apply, list_machine, hs] at he
        cases he
      | some ids =>
        rw [Node.operands_call hs] at hvs
        rw [conclude_call hs] at he
        exact .inr ⟨_, .call hn hs hvs, he⟩
  | block s =>
    cases hs : c.arena.list? s with
    | none =>
      rw [conclude, Attempt.bind_apply, list_machine, hs] at he
      cases he
    | some ids =>
      obtain ⟨rfl, rfl⟩ := evalArgs_nil.1 hvs
      rw [conclude_block hs, runStmts_eq] at he
      have hbody : (evalArgs (evalExpr names (callValue names q) l) ids
          ((c.inFrame w.heap.size).machine { w with heap := (w.heap.child c.frame).2 })).1 =
          .error (.error e) := bind_pure_error.1 he
      obtain ⟨done, i, rest, us, w', rfl, hdone, hi⟩ := evalArgs_error hev hbody
      exact .inr ⟨_, .statement hn hs hdone, hi⟩
  | ifElse i t b =>
    rcases vs with _ | ⟨v, _ | ⟨_, _⟩⟩
    · cases he
    · cases hj : (if v.isTruthy then some t else b) with
      | none =>
        rw [conclude_ifElse_none hj] at he
        cases he
      | some j =>
        rw [conclude_ifElse hj] at he
        exact .inr ⟨_, .branch hn (evalArgs_singleton.1 hvs) hj, he⟩
    · cases he
  -- No other node evaluates or calls anything now.
  | _ => exact .inl ((FailsBare.conclude (by simp) (by simp) (by simp) vs).bare c w₁ e he)

/-- **An expression fails by itself**, with an error that has yet to get a backtrace, **or because
something that begins in its course does.** -/
theorem Moment.Fails.of_expr {q l : Nat} {id : ExprId} {c : Context} {w : World}
    (hm : Moment.Fails names ⟨q, .expr l id, c, w⟩ e) :
    e.Bare ∨ ∃ n, Begins names ⟨q, .expr l id, c, w⟩ [] n ∧ n.Fails names e := by
  cases l with
  | zero => cases hm
  | succ l =>
    cases hn : c.arena.node? id with
    | none =>
      have hfault : Moment.result names ⟨q, .expr (l + 1) id, c, w⟩ =
          .error (.fault (.noNode id)) := by
        show (evalExpr names _ (l + 1) id (c.machine w)).1 = _
        rw [evalExpr, Attempt.bind_apply, node_machine, hn]
      rw [Moment.Fails, hfault] at hm
      cases hm
    | some nd =>
      have hev : ∀ i, (evalExpr names (callValue names q) l i).Returns :=
        .evalExpr (.callValue q) l
      rw [Moment.Fails, Moment.result_expr hn] at hm
      rcases evalArgs_cases hev (nd.operands c.arena) c w with
        ⟨vs, w₁, hvs⟩ | ⟨done, i, rest, vs, w₁, u, w₂, hids, hdone, hi, hstop⟩
      · rw [bind_ok hvs] at hm
        exact of_conclude hn hvs hm
      · rw [bind_error hstop] at hm
        cases hm
        exact .inr ⟨_, .operand hn hids hdone, congrArg Prod.fst hi⟩

/-- **A call fails because it is refused, or because its body fails.** -/
theorem Moment.Fails.of_call {q : Nat} {v : Value} {vs : List Value} {c : Context} {w : World}
    (hm : Moment.Fails names ⟨q, .call v vs, c, w⟩ e) :
    e.Bare ∨ (c.stack.maxDepth ≤ c.stack.depth ∧
      e = c.stack.attachBacktrace (.ofKind (.stackOverflow c.stack.maxDepth))) ∨
    ∃ f n e', Begins names ⟨q, .call v vs, c, w⟩ [f] n ∧ n.Fails names e' := by
  -- Whether a call is admitted does not depend on what is left of the room.
  obtain ⟨run, hrun⟩ := callValue_eq names q
  have he : (applyValue names run v vs (c.machine w)).1 = .error (.error e) := hrun ▸ hm
  cases v with
  | function f =>
    have hbare : (activate names f vs).FailsBare := .activate f vs
    obtain ⟨r, w₁, -, hact, -⟩ := hbare.returns c w
    cases r with
    | error u =>
      have hstop : applyValue names run (.function f) vs (c.machine w) =
          (.error u, c.machine w₁) := bind_error hact
      obtain rfl : u = .error e := by
        simpa [hstop] using he
      exact .inl (hbare.bare c w e (congrArg Prod.fst hact))
    | ok g =>
      by_cases hroom : c.stack.depth < c.stack.maxDepth
      · exact .inr (.inr (of_entered hact hroom hm))
      · have hfull := Nat.le_of_not_lt hroom
        have hrefused : applyValue names run (.function f) vs (c.machine w) =
            (.error (.error (c.stack.attachBacktrace
              (.ofKind (.stackOverflow c.stack.maxDepth)))), c.machine w₁) :=
          (bind_ok hact).trans (duringCall_full hfull)
        obtain rfl : c.stack.attachBacktrace (.ofKind (.stackOverflow c.stack.maxDepth)) = e := by
          simpa [hrefused] using he
        exact .inr (.inl ⟨hfull, rfl⟩)
  | _ =>
    cases he
    exact .inl (EvalError.bare_ofKind (by simp))

/-- A body raises no error by itself. -/
theorem Moment.Fails.of_body {q b : Nat} {c : Context} {w : World}
    (hm : Moment.Fails names ⟨q, .body b, c, w⟩ e) :
    ∃ n, Begins names ⟨q, .body b, c, w⟩ [] n ∧ n.Fails names e := by
  have he : (runBody names (callValue names q) b (c.machine w)).1 = .error (.error e) := hm
  cases hst : c.arena.statements? b with
  | none =>
    obtain ⟨fault, hfault⟩ := @runBody_none names (callValue names q) c w b hst
    cases (congrArg Prod.fst hfault).symm.trans he
  | some s =>
    obtain ⟨l, ids⟩ := s
    rw [runBody_statements hst] at he
    obtain ⟨done, i, rest, us, w', rfl, hdone, hi⟩ := evalArgs_error
      (.evalExpr (.callValue q) l) (bind_pure_error.1 he)
    exact ⟨_, .inBody hst hdone, hi⟩

theorem Moment.Fails.unique {e' : EvalError} (h : m.Fails names e) (h' : m.Fails names e') :
    e = e' := by
  cases h.symm.trans h'
  rfl

namespace Moment.Raises

variable {kind : ErrorKind}

/-- **An error has no backtrace when it is raised**, unless the limit is the cause; then it has
that of the calls in progress. -/
theorem origin (h : m.Raises names kind) (hm : m.Fails names e) : e.Lists [] m.stack ∧
    ∀ d, kind = .stackOverflow d → d = m.stack.maxDepth ∧ m.stack.maxDepth ≤ m.stack.depth := by
  obtain ⟨⟨e', he', rfl⟩, hown⟩ := h
  obtain rfl := hm.unique he'
  have hcases : e.Bare ∨ (m.stack.maxDepth ≤ m.stack.depth ∧
      e = m.stack.attachBacktrace (.ofKind (.stackOverflow m.stack.maxDepth))) := by
    obtain ⟨q, task, c, w⟩ := m
    cases task with
    | expr l i =>
      rcases hm.of_expr with hbare | ⟨n, hb, hn⟩
      · exact .inl hbare
      · exact absurd hn (hown _ _ _ hb)
    | call v vs =>
      rcases hm.of_call with hbare | hfull | ⟨f, n, e', hb, hn⟩
      · exact .inl hbare
      · exact .inr hfull
      · exact absurd hn (hown _ _ _ hb)
    | body b =>
      obtain ⟨n, hb, hn⟩ := hm.of_body
      exact absurd hn (hown _ _ _ hb)
  rcases hcases with hbare | ⟨hfull, rfl⟩
  · exact ⟨.inr ⟨rfl, hbare.backtrace⟩, fun d hd => absurd hd (hbare.kind d)⟩
  · refine ⟨.inl (CallStack.backtrace_attachBacktrace (.inr ⟨rfl, rfl⟩)), fun d hd => ?_⟩
    rw [CallStack.kind_attachBacktrace] at hd
    cases hd
    exact ⟨rfl, hfull⟩

/-- **At every moment on the way out** the error has the backtrace of the calls entered since, in
front of those in progress there. -/
theorem unwinds (h : n.Raises names kind) (hd : During names m calls n) :
    ∃ e, m.Fails names e ∧ e.kind = kind ∧ e.Lists calls m.stack := by
  induction hd with
  | here m =>
    obtain ⟨e, he, hkind⟩ := h.fails
    exact ⟨e, he, hkind, (h.origin he).1⟩
  | @later m n o calls inner hb hrest ih =>
    obtain ⟨e, he, hkind, hlists⟩ := ih h
    have hm := hb.fails he
    -- Only on the way out of a body is anything attached.
    by_cases hcalls : calls = []
    · subst hcalls
      have hcapture : n.stack.capture = m.stack.capture := hb.capture
      rw [if_pos rfl] at hm
      refine ⟨e, hm, hkind, ?_⟩
      rw [List.append_nil, EvalError.Lists, ← hcapture]
      exact hlists
    · rw [if_neg hcalls] at hm
      refine ⟨_, hm, (CallStack.kind_attachBacktrace _ _).trans hkind, .inl ?_⟩
      rw [CallStack.backtrace_attachBacktrace hlists, hb.capture, List.append_assoc]

/-- Outside of all calls, what a moment fails with is what was raised. -/
theorem outermost (h : n.Raises names kind) (hd : During names m calls n)
    (hm : m.stack.capture = []) : m.Fails names ⟨kind, calls⟩ := by
  obtain ⟨⟨kind', calls'⟩, he, rfl, hlists⟩ := h.unwinds hd
  obtain rfl : calls' = calls := by
    rcases hlists with h | ⟨rfl, h⟩
    · simpa [hm] using h
    · exact h
  exact he

/-- The limit is the cause where it is reached exactly. -/
theorem limit_reached {d : Nat} (h : n.Raises names (.stackOverflow d))
    (hn : n.stack.depth ≤ n.stack.maxDepth) :
    d = n.stack.maxDepth ∧ n.stack.depth = n.stack.maxDepth := by
  obtain ⟨e, he, -⟩ := h.fails
  obtain ⟨hd, hfull⟩ := (h.origin he).2 d rfl
  exact ⟨hd, Nat.le_antisymm hn hfull⟩

end Moment.Raises

/-- **Every error is raised at some moment.** -/
theorem Moment.Fails.raised {m : Moment} {e : EvalError} (hm : m.Fails names e) :
    ∃ calls n, During names m calls n ∧ n.Raises names e.kind := by
  -- By induction on how far nesting may still go: who fails last in the nesting raises.
  by_cases hown : ∀ calls n e', Begins names m calls n → ¬ n.Fails names e'
  · exact ⟨[], m, .here m, ⟨e, hm, rfl⟩, hown⟩
  · obtain ⟨calls, n, e', hb, hn⟩ : ∃ calls n e', Begins names m calls n ∧ n.Fails names e' := by
      simpa using hown
    obtain ⟨inner, o, hd, ho⟩ := hn.raised
    have hkind : e'.kind = e.kind := by
      obtain rfl := hm.unique (hb.fails hn)
      split
      · rfl
      · rw [CallStack.kind_attachBacktrace]
    exact ⟨inner ++ calls, o, .later hb hd, hkind ▸ ho⟩
termination_by m.rank
decreasing_by exact hb.rank_lt

/-! ## Calls entered and calls refused -/

theorem Begins.lists {f : String} (h : Begins names m [f] n) (hm : m.Fails names e) :
    ∃ inner o, During names n inner o ∧ o.Raises names e.kind ∧
      e.backtrace = inner ++ f :: m.stack.capture := by
  obtain ⟨e', hn, rfl⟩ := h.body_fails hm
  obtain ⟨inner, o, hd, ho⟩ := hn.raised
  obtain ⟨e'', hn', -, hlists⟩ := ho.unwinds hd
  obtain rfl := hn.unique hn'
  refine ⟨inner, o, hd, (CallStack.kind_attachBacktrace _ _).symm ▸ ho, ?_⟩
  rw [CallStack.backtrace_attachBacktrace hlists, h.capture]
  rfl

/-- Where nothing begins, as with a call that is refused, the error is about the calls around. -/
theorem Moment.Fails.refused (hm : m.Fails names e) (hnone : ∀ calls n, ¬ Begins names m calls n) :
    m.Raises names e.kind ∧ (e.backtrace = m.stack.capture ∨ e.backtrace = []) := by
  have hraises : m.Raises names e.kind :=
    ⟨⟨e, hm, rfl⟩, fun calls n _ hb _ => hnone calls n hb⟩
  rcases (hraises.origin hm).1 with h | ⟨-, h⟩
  · exact ⟨hraises, .inl h⟩
  · exact ⟨hraises, .inr h⟩

/-! ## From the outside -/

theorem Outcome.ofResult_error {r : Except Unwind Value} :
    Outcome.ofResult r = .error e ↔ r = .error (.error e) := by
  cases r with
  | ok v => simp [ofResult]
  | error u => cases u <;> simp [ofResult]

theorem CallStack.capture_of_depth {k : CallStack} (h : k.depth = 0) : k.capture = [] := by
  rw [← List.length_eq_zero_iff, length_capture, h]

/-- **Backtraces are exact.** When a run from outside of all calls fails, its backtrace lists the
calls that were in progress where the error was raised, innermost first, and there are no more of
them than the limit admits; an error for the limit lists just as many. Conversely the run ends
with whatever error is raised in it, and the calls entered on the way there.

It is so for each call by itself: an error that leaves one that was entered lists the calls
inside, the function, and the calls around it. One that was refused is not listed. -/
theorem backtraces_exact (names : Interner) (r : Request) (i : Interpreter) (w : World)
    (hi : i.callDepth = 0) :
    (∀ e, (r.perform names i w).1 = .error e → ∃ n, During names (r.start i w) e.backtrace n ∧
      n.Raises names e.kind ∧ n.stack.capture = e.backtrace ∧
      e.backtrace.length ≤ i.stack.maxDepth ∧ ∀ d, e.kind = .stackOverflow d →
        d = i.stack.maxDepth ∧ e.backtrace.length = i.stack.maxDepth) ∧
    (∀ calls n kind, During names (r.start i w) calls n → n.Raises names kind →
      (r.perform names i w).1 = .error ⟨kind, calls⟩) ∧
    (∀ m n f e, Begins names m [f] n → m.Fails names e → ∃ inner o, During names n inner o ∧
      o.Raises names e.kind ∧ e.backtrace = inner ++ f :: m.stack.capture) ∧
    ∀ m e, m.Fails names e → (∀ calls n, ¬ Begins names m calls n) →
      m.Raises names e.kind ∧ (e.backtrace = m.stack.capture ∨ e.backtrace = []) := by
  have hstart : (r.start i w).stack.capture = [] := by
    rw [Request.stack_start]
    exact CallStack.capture_of_depth hi
  have hfit : (r.start i w).stack.depth ≤ (r.start i w).stack.maxDepth := by
    rw [Request.stack_start]
    exact i.depth_le_of_callDepth hi
  refine ⟨fun e he => ?_, fun calls n kind hd hn => ?_, fun m n f e h => h.lists,
    fun m e hm => hm.refused⟩
  · rw [Request.outcome_eq, Outcome.ofResult_error] at he
    obtain ⟨calls, n, hd, hn⟩ := Moment.Fails.raised he
    obtain rfl : calls = e.backtrace := by
      rw [Moment.Fails.unique he (hn.outermost hd hstart)]
    have hcapture : n.stack.capture = e.backtrace := by
      rw [hd.capture, hstart, List.append_nil]
    have hmax : n.stack.maxDepth = i.stack.maxDepth := by
      rw [hd.maxDepth, Request.stack_start]
    have hlen : e.backtrace.length = n.stack.depth := by
      rw [← hcapture, CallStack.length_capture]
    refine ⟨n, hd, hn, hcapture, ?_, fun d hkind => ?_⟩
    · rw [hlen, ← hmax]
      exact hd.depth_le hfit
    · rw [hlen, ← hmax]
      exact (hkind ▸ hn).limit_reached (hd.depth_le hfit)
  · rw [Request.outcome_eq, Outcome.ofResult_error]
    exact hn.outermost hd hstart

/-- `function outer() { (function () { lost })() }`; the names have the slots 1 and 2. -/
def stray : FunctionCode :=
  ⟨⟨#[.ident ⟨2⟩, .function ⟨none, ⟨0, 0⟩, 0⟩, .call 1 ⟨0, 0⟩], #[], #[]⟩,
    ⟨some ⟨1⟩, ⟨0, 0⟩, 2⟩, some "outer"⟩

/-- The name is looked up when both functions have been entered. -/
theorem backtraces_exact_stray :
    let i := Interpreter.new .empty 0 8
    let r := Request.invoke (.function ⟨0, stray, 0⟩) []
    let w : World := ⟨Heap.empty.root.2, .silent⟩
    i.callDepth = 0 ∧ ∃ n, During ⟨#["", "outer", "lost"]⟩ (r.start i w) ["<anonymous>", "outer"] n ∧
      n.Raises ⟨#["", "outer", "lost"]⟩ (.unboundName "lost") := by
  intro i r w
  have hrun : (r.perform ⟨#["", "outer", "lost"]⟩ i w).1 =
      .error ⟨.unboundName "lost", ["<anonymous>", "outer"]⟩ := by
    rfl
  obtain ⟨n, hd, hn, -⟩ := (backtraces_exact ⟨#["", "outer", "lost"]⟩ r i w rfl).1 _ hrun
  exact ⟨rfl, n, hd, hn⟩

end ClosureLang
