import ClosureLang.Proofs.Eval.Returns

/-!
# The limit on active calls only cuts runs short

Two runs differ in the limit alone. As long as the lower limit refuses no call they are one run:
the limit is looked at when a call begins, and nowhere else. Where it does refuse a call, the run
under the lower limit is over, since no construct of the language recovers from an error, and the
other one goes on and can only print more.

`Cut` says this of one piece of evaluation under both limits. The two variants of the evaluator
also differ in the room that they have for further calls, so the recursion is closed by an
induction on the larger room.
-/

namespace ClosureLang

/-- Evaluation was left because the limit refused a call. -/
def Eval.Overflows {α : Type} (r : Except Unwind α) : Prop :=
  ∃ e d, r = .error (.error e) ∧ e.kind = .stackOverflow d

/-! ## One piece of evaluation under two limits -/

/-- The same context when that many more calls are admitted. -/
def Context.raised (c : Context) (extra : Nat) : Context :=
  { c with stack := { c.stack with maxDepth := c.stack.maxDepth + extra } }

/-- **`x` does what `y` does with `extra` more calls admitted, or is cut short**, from the calls
`k` on. Where more calls are in progress than the limit admits, which is how a refused call
looks to its body, only `y` is asked for anything. -/
structure Cut (extra : Nat) (k : CallStack) {α : Type} (x y : Eval α) : Prop where
  returns : y.Returns
  runs : k.depth ≤ k.maxDepth → ∀ (c : Context) (w : World), c.stack = k → ∃ r r' w₁ w₂ p q,
    x (c.machine w) = (r, c.machine w₁) ∧
    y ((c.raised extra).machine w) = (r', (c.raised extra).machine w₂) ∧
    w.sink.Printed p w₁.sink ∧ w₁.sink.Printed q w₂.sink ∧
    (Eval.Overflows r ∨ r' = r ∧ w₂ = w₁)

theorem Eval.Overflows.leaving {α : Type} {r : Except Unwind α} (h : Overflows r) (k : CallStack) :
    Overflows (leaving k r) := by
  obtain ⟨e, d, rfl, he⟩ := h
  exact ⟨_, d, rfl, (k.kind_attachBacktrace e).trans he⟩

namespace Cut

variable {extra : Nat} {k : CallStack} {α β : Type} {x y : Eval α} {names : Interner}

/-- Where the limit is passed already there is nothing to compare. -/
theorem of_full (hk : ¬ k.depth ≤ k.maxDepth) (hy : y.Returns) : Cut extra k x y :=
  ⟨hy, fun h => absurd h hk⟩

theorem primitive (hx : x.Primitive names) : Cut extra k x x where
  returns := .primitive hx
  runs := by
    intro _ c w _
    obtain ⟨r, w', p, hrun, hp⟩ := Eval.Returns.primitive hx c w
    obtain ⟨r', w'', hany, -⟩ := hx.run c.arena c.frame w
    obtain ⟨rfl, rfl⟩ : r = r' ∧ w' = w'' := by
      simpa [Context.machine_inj] using hrun.symm.trans (hany c.stack)
    exact ⟨r, r, w', w', p, "", hrun, hany _, hp, .refl _, .inr ⟨rfl, rfl⟩⟩

theorem bind {f g : α → Eval β} (h : Cut extra k x y) (hf : ∀ a, Cut extra k (f a) (g a)) :
    Cut extra k (x >>= f) (y >>= g) where
  returns := h.returns.bind fun a => (hf a).returns
  runs := by
    intro hk c w hc
    obtain ⟨r, r', w₁, w₂, p, q, hx, hy, hp, hq, hr⟩ := h.runs hk c w hc
    rcases hr with ⟨e, d, rfl, he⟩ | ⟨hr, hw⟩
    · -- The left run is over. Wherever the right one is, it goes on and can only print more.
      have hrest : ∃ s w₃ q', (y >>= g) ((c.raised extra).machine w) =
          (s, (c.raised extra).machine w₃) ∧ w₂.sink.Printed q' w₃.sink := by
        cases r' with
        | ok a =>
          obtain ⟨s, w₃, q', hrun, hq'⟩ := (hf a).returns (c.raised extra) w₂
          exact ⟨s, w₃, q', by rw [Eval.bind_ok hy, hrun], hq'⟩
        | error u => exact ⟨_, w₂, "", Eval.bind_error hy, .refl _⟩
      obtain ⟨s, w₃, q', hrun, hq'⟩ := hrest
      exact ⟨_, s, w₁, w₃, p, q ++ q', Eval.bind_error hx, hrun, hp, hq.trans hq',
        .inl ⟨e, d, rfl, he⟩⟩
    · subst hr hw
      cases r' with
      | ok a =>
        obtain ⟨s, s', w₃, w₄, p', q', hx', hy', hp', hq', hs⟩ := (hf a).runs hk c w₂ hc
        exact ⟨s, s', w₃, w₄, p ++ p', q', by rw [Eval.bind_ok hx, hx'],
          by rw [Eval.bind_ok hy, hy'], hp.trans hp', hq', hs⟩
      | error u =>
        exact ⟨_, _, w₂, w₂, p, "", Eval.bind_error hx, Eval.bind_error hy, hp, .refl _,
          .inr ⟨rfl, rfl⟩⟩

theorem inFrame (h : Cut extra k x y) (f : FrameId) :
    Cut extra k (Eval.inFrame f x) (Eval.inFrame f y) where
  returns := h.returns.inFrame f
  runs := by
    intro hk c w hc
    obtain ⟨r, r', w₁, w₂, p, q, hx, hy, hrest⟩ := h.runs hk (c.inFrame f) w hc
    exact ⟨r, r', w₁, w₂, p, q, Eval.inFrame_machine hx, Eval.inFrame_machine hy, hrest⟩

theorem inScope (h : Cut extra k x y) (f : FrameId) (a : Arena) :
    Cut extra k (Eval.inScope f a x) (Eval.inScope f a y) where
  returns := h.returns.inScope f a
  runs := by
    intro hk c w hc
    obtain ⟨r, r', w₁, w₂, p, q, hx, hy, hrest⟩ := h.runs hk ⟨a, f, c.stack⟩ w hc
    exact ⟨r, r', w₁, w₂, p, q, Eval.inScope_machine hx, Eval.inScope_machine hy, hrest⟩

theorem settle {x y : Eval Value} (h : Cut extra k x y) :
    Cut extra k (Eval.settle x) (Eval.settle y) where
  returns := h.returns.settle
  runs := by
    intro hk c w hc
    obtain ⟨r, r', w₁, w₂, p, q, hx, hy, hp, hq, hr⟩ := h.runs hk c w hc
    refine ⟨_, _, w₁, w₂, p, q, Eval.settle_machine hx, Eval.settle_machine hy, hp, hq, ?_⟩
    rcases hr with ⟨e, d, rfl, he⟩ | ⟨rfl, rfl⟩
    · exact .inl ⟨e, d, rfl, he⟩
    · exact .inr ⟨rfl, rfl⟩

/-- **Where the limit is looked at.** -/
theorem duringCall (n : CallFrame) (h : Cut extra (k.enter n) x y) :
    Cut extra k (Eval.duringCall n x) (Eval.duringCall n y) where
  returns := h.returns.duringCall n
  runs := by
    intro hk c w hc
    subst hc
    by_cases hroom : c.stack.depth < c.stack.maxDepth
    · have hk' : (c.stack.enter n).depth ≤ (c.stack.enter n).maxDepth := by
        simpa [CallStack.enter, CallStack.depth] using Nat.succ_le_of_lt hroom
      have hroom' : (c.raised extra).stack.depth < (c.raised extra).stack.maxDepth :=
        Nat.lt_add_right extra hroom
      obtain ⟨r, r', w₁, w₂, p, q, hx, hy, hp, hq, hr⟩ :=
        h.runs hk' ⟨c.arena, c.frame, c.stack.enter n⟩ w rfl
      refine ⟨_, _, w₁, w₂, p, q, Eval.duringCall_machine hroom hx,
        Eval.duringCall_machine hroom' hy, hp, hq, ?_⟩
      rcases hr with hr | ⟨rfl, rfl⟩
      · exact .inl (hr.leaving _)
      · refine .inr ⟨?_, rfl⟩
        cases r' with
        | ok a => rfl
        | error u => cases u <;> rfl
    · obtain ⟨r', w₂, q, hy, hq⟩ := h.returns.duringCall n (c.raised extra) w
      exact ⟨_, r', w, w₂, "", q, Eval.duringCall_full (Nat.le_of_not_lt hroom), hy, .refl _, hq,
        .inl ⟨_, _, rfl, CallStack.kind_attachBacktrace _ _⟩⟩

/-- The variant under the lower limit, and the one under the higher. -/
theorem compositional (names : Interner) (extra : Nat) : Compositional names
    fun k {α} (X : Bool → Eval α) => Cut extra k (X false) (X true) where
  primitive hx := .primitive hx
  bind h hF := h.bind hF
  inFrame f h := h.inFrame f
  inScope f a h := h.inScope f a
  settle h := h.settle
  duringCall n h := h.duringCall n

variable {run run' : Closure → Eval Value} {call call' : Value → List Value → Eval Value}

theorem applyValue (hrun : ∀ c : Closure, Cut extra (k.enter ⟨c.name⟩) (run c) (run' c)) (v : Value)
    (vs : List Value) :
    Cut extra k (Eval.applyValue names run v vs) (Eval.applyValue names run' v vs) :=
  @Compositional.applyValue _ names _ k (compositional names extra) (fun b => cond b run' run)
    hrun v vs

theorem runBody (hcall : ∀ v vs, Cut extra k (call v vs) (call' v vs)) (body : ExprId) :
    Cut extra k (Eval.runBody names call body) (Eval.runBody names call' body) :=
  @Compositional.runBody _ names _ k (fun b => cond b call' call) (compositional names extra)
    hcall body

theorem evalFrom (hcall : ∀ v vs, Cut extra k (call v vs) (call' v vs)) (i : ExprId) :
    Cut extra k (Eval.evalFrom names call i) (Eval.evalFrom names call' i) :=
  @Compositional.evalExpr _ names _ k (fun b => cond b call' call) (compositional names extra)
    hcall (i + 1) i

/-- **Calls under two limits**, the lower of which has room for `q` further ones. -/
theorem callValue {q : Nat} (hq : k.maxDepth = k.depth + q) (v : Value) (vs : List Value) :
    Cut extra k (Eval.callValue names q v vs) (Eval.callValue names (q + extra) v vs) := by
  induction q generalizing k v vs with
  | zero =>
    have hfull : ∀ n, ¬ (k.enter n).depth ≤ (k.enter n).maxDepth := by
      intro n
      simp [CallStack.enter, CallStack.depth] at hq ⊢
      omega
    cases extra with
    | zero => exact applyValue (fun c => primitive (.fail _ : Eval.Primitive names _)) v vs
    | succ extra =>
      rw [Nat.zero_add]
      exact applyValue
        (fun c => of_full (hfull _) (.runBody (Eval.Returns.callValue extra) c.code.body)) v vs
  | succ q ih =>
    rw [Nat.succ_add]
    refine applyValue (fun c => runBody (ih ?_) c.code.body) v vs
    simp [CallStack.enter, CallStack.depth] at hq ⊢
    omega

end Cut

/-! ## For hosts -/

/-- The limit on active calls refused one. -/
def Outcome.IsOverflow : Outcome → Prop
  | .error e => ∃ d, e.kind = .stackOverflow d
  | _ => False

/-- The same interpreter outside of all calls and under another limit. -/
def Interpreter.limited (i : Interpreter) (maxDepth : Nat) : Interpreter :=
  { i with stack := .new maxDepth }

/-- What a run from `w` under one limit has to do with the run under a higher one. -/
structure OnlyAborted (w : World) (low high : Outcome × Interpreter × World) : Prop where
  same : ¬ low.1.IsOverflow → high.1 = low.1 ∧ high.2.2 = low.2.2
  printed : low.1.IsOverflow → ∃ p q, w.sink.Printed p low.2.2.sink ∧
    w.sink.Printed (p ++ q) high.2.2.sink

theorem Cut.onlyAborted {i : Interpreter} {low extra : Nat} {x y : Eval Value} {w : World}
    (h : Cut extra (.new low) x y) :
    OnlyAborted w (Interpreter.perform x (i.limited low) w)
      (Interpreter.perform y (i.limited (low + extra)) w) := by
  obtain ⟨r, r', w₁, w₂, p, q, hx, hy, hp, hq, hr⟩ :=
    h.runs (Nat.zero_le _) (i.limited low).context w rfl
  have hy' : y ((i.limited (low + extra)).context.machine w) =
      (r', (i.limited (low + extra)).context.machine w₂) := hy
  rw [Interpreter.perform_machine hx, Interpreter.perform_machine hy']
  constructor
  · intro hlow
    rcases hr with ⟨e, d, rfl, he⟩ | ⟨rfl, rfl⟩
    · exact absurd ⟨d, he⟩ hlow
    · exact ⟨rfl, rfl⟩
  · intro _
    exact ⟨p, q, hp, hp.trans hq⟩

/-- **The limit on active calls is only a limit.** Whatever is evaluated or called outside of all
calls: if a lower limit refuses no call, then a higher one makes no difference, and else the run
under the lower one has printed a beginning of what the other one prints. -/
theorem limit_only_aborts (names : Interner) (i : Interpreter) (w : World) {low high : Nat}
    (hle : low ≤ high) :
    (∀ root, OnlyAborted w ((i.limited low).eval names root w)
      ((i.limited high).eval names root w)) ∧
    ∀ callee args, OnlyAborted w ((i.limited low).invoke names callee args w)
      ((i.limited high).invoke names callee args w) := by
  obtain ⟨extra, rfl⟩ := Nat.exists_eq_add_of_le hle
  have hcall : ∀ v vs, Cut extra (.new low) (Eval.callValue names low v vs)
      (Eval.callValue names (low + extra) v vs) :=
    Cut.callValue (Nat.zero_add low).symm
  exact ⟨fun root => (Cut.evalFrom hcall root).onlyAborted,
    fun callee args => (hcall callee args).onlyAborted⟩

/-- `function () { print(true); f() }`, where `f` has slot 1. -/
def chatter : FunctionCode :=
  ⟨⟨#[.bool true, .print ⟨0, 1⟩, .ident ⟨1⟩, .call 2 ⟨1, 0⟩, .block ⟨1, 2⟩], #[0, 1, 3], #[]⟩,
    ⟨none, ⟨0, 0⟩, 4⟩, none⟩

/-- A frame that binds `f` to that function. -/
def chatterWorld : World :=
  ⟨Heap.empty.root.2.bind 0 ⟨1⟩ (.function ⟨0, chatter, 0⟩), .buffer ""⟩

theorem limit_only_aborts_chatter :
    let run := fun maxDepth => ((Interpreter.new chatter.arena 0 0).limited maxDepth).invoke .empty
      (.function ⟨0, chatter, 0⟩) [] chatterWorld
    (run 2).1.IsOverflow ∧ ∃ p q, chatterWorld.sink.Printed p (run 2).2.2.sink ∧
      chatterWorld.sink.Printed (p ++ q) (run 5).2.2.sink := by
  intro run
  have hover : (run 2).1.IsOverflow := ⟨2, rfl⟩
  have h : OnlyAborted chatterWorld (run 2) (run 5) := (limit_only_aborts .empty
    (.new chatter.arena 0 0) chatterWorld (by decide : 2 ≤ 5)).2 (.function ⟨0, chatter, 0⟩) []
  exact ⟨hover, h.printed hover⟩

end ClosureLang
