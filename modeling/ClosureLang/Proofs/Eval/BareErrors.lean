import ClosureLang.Proofs.Eval.Operands

/-!
# Errors as they are raised

What a node does by itself, apart from its children and from the calls that it makes, fails with
errors that have no backtrace yet, and never for the limit on calls. The same goes for the frame
of a call, which is made before the call is entered.
-/

namespace ClosureLang

/-- An error as it is raised, for any cause but the limit. -/
structure EvalError.Bare (e : EvalError) : Prop where
  backtrace : e.backtrace = []
  kind : ∀ d, e.kind ≠ .stackOverflow d

theorem EvalError.bare_ofKind {k : ErrorKind} (hk : ∀ d, k ≠ .stackOverflow d) :
    (EvalError.ofKind k).Bare := ⟨rfl, hk⟩

theorem BinaryOp.bare_apply {op : BinaryOp} {l r : Value} {e : EvalError}
    (h : op.apply l r = .error e) : e.Bare := by
  rw [BinaryOp.apply_error h]
  exact EvalError.bare_ofKind (by simp)

/-- Evaluation that enters no call, so that its errors have yet to get a backtrace. -/
structure Eval.FailsBare {α : Type} (x : Eval α) : Prop where
  returns : x.Returns
  bare : ∀ c w e, (x (Context.machine c w)).1 = .error (.error e) → e.Bare

namespace Eval.FailsBare

variable {α β : Type} {x : Eval α} {names : Interner} {n : Name} {v : Value}

theorem fail {u : Unwind} (hu : ∀ e, u = .error e → e.Bare) : @FailsBare α (.fail u) :=
  ⟨@Returns.primitive _ _ .empty (.fail u), fun _ _ _ h => hu _ (Except.error.inj h)⟩

/-- Errors of a kind of their own. -/
theorem raise {k : ErrorKind} (hk : ∀ d, k ≠ .stackOverflow d) :
    (raise (.ofKind k) : Eval α).FailsBare := by
  refine fail fun e he => ?_
  cases he
  exact EvalError.bare_ofKind hk

theorem ok (hx : x.Primitive names) (h : ∀ m, ∃ a, (x m).1 = .ok a) : x.FailsBare := by
  refine ⟨.primitive hx, fun c w e he => ?_⟩
  obtain ⟨a, ha⟩ := h (c.machine w)
  rw [ha] at he
  cases he

theorem pure (a : α) : (pure a : Eval α).FailsBare := @ok _ _ .empty (.pure a) fun _ => ⟨a, rfl⟩

theorem bind {g : α → Eval β} (hx : x.FailsBare) (hg : ∀ a, (g a).FailsBare) :
    (x >>= g).FailsBare := by
  refine ⟨hx.returns.bind fun a => (hg a).returns, fun c w e he => ?_⟩
  obtain ⟨r, w', -, hrun, -⟩ := hx.returns c w
  cases r with
  | ok a =>
    rw [bind_ok hrun] at he
    exact (hg a).bare c w' e he
  | error u =>
    rw [bind_error hrun] at he
    cases he
    exact hx.bare c w e (congrArg Prod.fst hrun)

theorem inFrame (hx : x.FailsBare) (f : FrameId) : (inFrame f x).FailsBare := by
  refine ⟨hx.returns.inFrame f, fun c w e he => ?_⟩
  obtain ⟨r, w', -, hrun, -⟩ := hx.returns (c.inFrame f) w
  rw [inFrame_machine hrun] at he
  exact hx.bare _ w e ((congrArg Prod.fst hrun).trans he)

theorem apply (op : BinaryOp) (l r : Value) : @FailsBare Value
    (match op.apply l r with
    | .ok v => Pure.pure v
    | .error e => Eval.raise e) := by
  cases h : op.apply l r with
  | ok v => exact pure v
  | error e => exact fail fun _ he => Unwind.error.inj he ▸ BinaryOp.bare_apply h

theorem list (s : Span) : (list s).FailsBare := by
  refine ⟨@Returns.primitive _ _ .empty (.list s), fun c w e he => ?_⟩
  rw [list_machine] at he
  cases hs : c.arena.list? s <;>
  · rw [hs] at he
    cases he

theorem getVar : (getVar names n).FailsBare := by
  refine ⟨.primitive (.getVar n), fun c w e he => ?_⟩
  rw [getVar_machine] at he
  cases ho : w.heap.owner? c.frame n with
  | none =>
    rw [ho] at he
    cases he
    exact EvalError.bare_ofKind (by simp)
  | some g =>
    rw [ho] at he
    cases he

theorem defineVar : (defineVar names n v).FailsBare := by
  refine ⟨.primitive (.defineVar n v), fun c w e he => ?_⟩
  rw [defineVar_machine] at he
  split at he
  · cases he
    exact EvalError.bare_ofKind (by simp)
  · cases he

theorem setVar : (setVar names n v).FailsBare := by
  refine ⟨.primitive (.setVar n v), fun c w e he => ?_⟩
  rw [setVar_machine] at he
  cases ho : w.heap.owner? c.frame n with
  | none =>
    rw [ho] at he
    cases he
    exact EvalError.bare_ofKind (by simp)
  | some g =>
    rw [ho] at he
    cases he

theorem updateVar (op : BinaryOp) : (updateVar names op n v).FailsBare := by
  refine ⟨.primitive (.updateVar op n v), fun c w e he => ?_⟩
  rw [updateVar_machine] at he
  cases ho : w.heap.owner? c.frame n with
  | none =>
    rw [ho] at he
    cases he
    exact EvalError.bare_ofKind (by simp)
  | some g =>
    cases ha : op.apply (w.heap.valueAt g n) v with
    | ok u =>
      simp only [ho, ha] at he
      cases he
    | error e' =>
      simp only [ho, ha] at he
      cases he
      exact BinaryOp.bare_apply ha

theorem defineAll (ns : List Name) (vs : List Value) : (defineAll names ns vs).FailsBare := by
  induction ns generalizing vs with
  | nil => exact pure ()
  | cons n ns ih =>
    cases vs with
    | nil => exact pure ()
    | cons v vs => exact defineVar.bind fun _ => ih vs

/-- A function refuses its arguments for their number or for a parameter that repeats. -/
theorem activate (f : Closure) (vs : List Value) : (activate names f vs).FailsBare := by
  rw [activate_eq]
  cases f.code.params? with
  | none => exact fail fun _ he => nomatch he
  | some ps =>
    dsimp only
    split
    · exact (@ok _ _ names (.newChild f.frame) fun m => ⟨m.heap.size, rfl⟩).bind fun g =>
        ((defineAll ps vs).inFrame g).bind fun _ => pure g
    · exact raise (by simp)

/-- Once its operands have their values, a node raises its own errors, unless it goes on to
evaluate a child or to call. -/
theorem conclude {call : Value → List Value → Eval Value} {ev : ExprId → Eval Value} {nd : Node}
    (hcall : ∀ f s, nd ≠ .call f s) (hblock : ∀ s, nd ≠ .block s)
    (hif : ∀ i t e, nd ≠ .ifElse i t e) (vs : List Value) :
    (conclude names call ev nd vs).FailsBare := by
  cases nd with
  | ident n => exact getVar
  | letIn n i =>
    rcases vs with _ | ⟨v, _ | ⟨_, _⟩⟩
    · exact pure _
    · exact defineVar.bind fun _ => pure _
    · exact pure _
  | assign n i =>
    rcases vs with _ | ⟨v, _ | ⟨_, _⟩⟩
    · exact pure _
    · exact setVar.bind fun _ => pure _
    · exact pure _
  | compound op n i =>
    rcases vs with _ | ⟨v, _ | ⟨_, _⟩⟩
    · exact pure _
    · exact (updateVar op).bind fun _ => pure _
    · exact pure _
  | binary op i j =>
    rcases vs with _ | ⟨l, _ | ⟨r, _ | ⟨_, _⟩⟩⟩
    · exact pure _
    · exact pure _
    · exact apply op l r
    · exact pure _
  | function d => exact @ok _ _ names (.makeFunction d) fun m => ⟨_, rfl⟩
  | print s =>
    exact (list s).bind fun _ => (@ok _ _ names (.printLine vs) fun _ => ⟨(), rfl⟩).bind fun _ =>
      pure _
  | ret i =>
    cases i with
    | none => exact fail fun _ he => nomatch he
    | some i =>
      rcases vs with _ | ⟨v, _ | ⟨_, _⟩⟩
      · exact pure _
      · exact fail fun _ he => nomatch he
      · exact pure _
  | call f s => exact absurd rfl (hcall f s)
  | block s => exact absurd rfl (hblock s)
  | ifElse i t e => exact absurd rfl (hif i t e)
  | _ => exact pure _

end Eval.FailsBare
end ClosureLang
