import ClosureLang.Proofs.Eval.Levels
import ClosureLang.Proofs.Eval.SplitFrames
import ClosureLang.Proofs.RefusedCalls

/-!
# Bodies that are blocks

The statements of a block have a scope of their own, except when the block is the body of a
function: then they run in the frame of the call, among the parameters. With one more block around
the body they would run in a scope inside of it. Both ways come to the same
(`Eval/SplitFrames`), unless a statement declares a parameter again: in the frame of the call that
is refused, and so it is the end of the call.
-/

namespace ClosureLang

/-- `d` is the same function as `c`, but that there is one more block around its body, which is
the block of these statements. -/
structure Closure.Wraps (d c : Closure) (stmts : List ExprId) : Prop where
  arena : d.code.arena = c.code.arena
  name : d.name = c.name
  params : d.code.params? = c.code.params?
  frame : d.frame = c.frame
  body : ∃ s, c.code.arena.node? c.code.body = some (.block s) ∧
    c.code.arena.list? s = some stmts
  wrapped : ∃ s, c.code.arena.node? d.code.body = some (.block s) ∧
    c.code.arena.list? s = some [c.code.body]

namespace Split

/-- The same outcome, with the inner frame captured instead of the one that is split. -/
def outcome (S : Split) : Outcome → Outcome
  | .value v => .value (S.value v)
  | out => out

/-- **Two runs have ended in one way**, up to a frame that is split in the second: its number is
that of the first frame that the runs have made. -/
structure SameRun (S : Split) (out out' : Outcome × Interpreter × World) : Prop where
  outcome : out'.1 = S.outcome out.1
  interpreter : out'.2.1 = out.2.1
  printed : out'.2.2.sink = out.2.2.sink
  parent : ∀ f < S.frame, out'.2.2.heap.parent? f = out.2.2.heap.parent? f
  bound : ∀ f < S.frame, ∀ n,
    out'.2.2.heap.local? f n = (out.2.2.heap.local? f n).map S.value

variable {S : Split} {s : Nat} {k k' : CallStack} {i : Interpreter} {w w₁ w₂ : World}
  {r r' : Except Unwind Value} {o o' : Outcome}

theorem value_of_validIn {h : Heap} {v : Value} (hv : v.ValidIn h) (hh : h.size ≤ S.frame) :
    S.value v = v :=
  (eq_value (match_self hv hh (Nat.le_refl _))).symm

/-- Ways to leave a body become ways for a call to end. -/
theorem outcome_of_ends (h : S.runs.Ends k s S.runs.value r r') :
    Outcome.ofResult (Eval.leaving k' (Eval.settled r')) =
      S.outcome (.ofResult (Eval.leaving k' (Eval.settled r))) := by
  cases h with
  | ok huv => exact congrArg Outcome.value (eq_value huv)
  | left h =>
    cases h with
    | error he => rw [show _ = _ from he]; rfl
    | ret huv => exact congrArg Outcome.value (eq_value huv)
    | fault hf => rw [show _ = _ from hf]; rfl

theorem WorldMatch.heaps_value (hw : S.WorldMatch s w₁ w₂) :
    S.Heaps (fun u v => v = S.value u) w₁.heap w₂.heap :=
  { hw.heaps with bound := fun f n => rel_imp (hw.heaps.bound f n) fun _ _ => eq_value }

/-- Frames that are older than the one that is split. -/
theorem WorldMatch.sameRun (hw : S.WorldMatch s w₁ w₂) (ho : o' = S.outcome o) :
    S.SameRun (o, i, w₁) (o', i, w₂) where
  outcome := ho
  interpreter := rfl
  printed := hw.sink
  parent f hf := by
    show w₂.heap.parent? f = w₁.heap.parent? f
    have hparent := hw.heaps.parent f (Nat.ne_of_lt hf)
    rw [image_of_lt hf] at hparent
    rw [hparent]
    cases hp : w₁.heap.parent? f with
    | none => rfl
    | some p => exact congrArg some (image_of_lt (Nat.lt_trans (hw.nested f p hp) hf))
  bound f hf n := by
    have hrel := hw.heaps_value.bound f n
    rw [place_of_ne (Nat.ne_of_lt hf), image_of_lt hf] at hrel
    show w₂.heap.local? f n = (w₁.heap.local? f n).map S.value
    rcases rel_cases hrel with ⟨h₁, h₂⟩ | ⟨u, v, h₁, h₂, rfl⟩
    · rw [h₁, h₂]
      rfl
    · rw [h₁, h₂]
      rfl

/-- Where neither run has touched anything, and both have failed in one way. -/
theorem SameRun.of_untouched {e : EvalError} (hh : w.heap.WellFormed)
    (hsize : w.heap.size = S.frame) (h₁ : w.Untouched w₁) (h₂ : w.Untouched w₂) :
    S.SameRun (.error e, i, w₁) (.error e, i, w₂) where
  outcome := rfl
  interpreter := rfl
  printed := h₂.sink.trans h₁.sink.symm
  parent f hf := by
    simp only [Heap.parent?, h₁.frame f (hsize ▸ hf), h₂.frame f (hsize ▸ hf)]
  bound f hf n := by
    simp only [Heap.local?, h₁.frame f (hsize ▸ hf), h₂.frame f (hsize ▸ hf)]
    show w.heap.local? f n = (w.heap.local? f n).map S.value
    cases hv : w.heap.local? f n with
    | none => rfl
    | some v => exact congrArg some (value_of_validIn (hh.valid hv) (Nat.le_of_eq hsize)).symm

end Split

open Eval

variable {names : Interner} {i : Interpreter} {w : World} {c d : Closure} {stmts : List ExprId}
  {ps : List Name} {args : List Value}

/-! ## Refused calls -/

theorem Refused.of_wraps {k : CallStack} {e : EvalError} (hd : d.Wraps c stmts)
    (h : Refused names k (.function c) args e) : Refused names k (.function d) args e := by
  have hdisplay : c.displayName = d.displayName := by
    rw [Closure.displayName, Closure.displayName, hd.name]
  cases h with
  | notCallable hv => cases hv
  | arity hps hlen =>
    rw [hdisplay]
    exact .arity (hd.params.trans hps) hlen
  | repeated hps hlen hnodup hn => exact .repeated (hd.params.trans hps) hlen hnodup hn
  | full hps hlen hnodup hk => exact .full (hd.params.trans hps) hlen hnodup hk

/-! ## Calls that are entered -/

/-- **With a block around it, the body runs in a scope inside the frame of the call.** -/
theorem Closure.Wraps.runBody {call : Value → List Value → Eval Value} {k : Context}
    (hcall : ∀ v vs, (call v vs).Returns) (hd : d.Wraps c stmts) (hk : k.arena = c.code.arena)
    (hwf : k.arena.WellFormed) (w : World) :
    runBody names call d.code.body (k.machine w) =
      inFrame w.heap.size (runStmts (evalFrom names call) .void stmts)
        (k.machine { w with heap := (w.heap.child k.frame).2 }) := by
  obtain ⟨s, hbody, hstmts⟩ := hd.body
  obtain ⟨t, hwrapped, hlist⟩ := hd.wrapped
  rw [← hk] at hbody hstmts hwrapped hlist
  rw [runBody_statements_from hcall hwf hwrapped hlist, runStmts_singleton,
    evalFrom_block hcall hwf hbody hstmts]

/-- **An admitted call and the call with one more block end in one way**, and the frame of the one
call is two frames in the other. -/
theorem Admitted.sameRun (names : Interner) (h : Admitted i.stack c ps args) (hd : d.Wraps c stmts)
    (hwf : c.code.arena.WellFormed) (hps : c.code.params? = some ps) (hw : w.heap.WellFormed)
    (hc : c.frame < w.heap.size) (hargs : ∀ v ∈ args, v.ValidIn w.heap)
    (hlet : ∀ n ∈ ps, ∀ root ∈ stmts, ¬ c.code.arena.OwnLet root n) :
    let S : Split := ⟨w.heap.size, ps⟩
    let out := i.invoke names (.function c) args w
    let out' := i.invoke names (.function d) args w
    S.SameRun out out' ∧ S.Heaps (fun u v => v = S.value u) out.2.2.heap out'.2.2.heap := by
  intro S out out'
  let k : Context := ⟨c.code.arena, w.heap.size, i.stack.enter ⟨c.name⟩⟩
  let call := callValue names (i.room - 1)
  have hcall : ∀ v vs, (call v vs).Returns := .callValue (i.room - 1)
  -- The statements, in the frame of the call and in the one inside of it.
  have L := Split.runs_lawful (S := S) names
  have hrelated : S.runs.Related (w.heap.size + 1) k (k.inFrame (w.heap.size + 1)) S.runs.value
      (runStmts (evalFrom names call) .void stmts) (runStmts (evalFrom names call) .void stmts) := by
    refine L.runStmts_in (L.callValue trivial) (Split.works (Nat.lt_succ_self _))
      (List.forall₂_same.mpr fun _ _ => rfl) fun root hroot n n' hn hnames => ?_
    obtain rfl : n = n' := hnames
    exact Split.declares (Nat.lt_succ_self _) fun hmem => hlet n hmem root hroot hn
  obtain ⟨t, r, r', w₁, w₂, -, hw', hx, hy, hends⟩ := hrelated _ _ _ (le_refl _)
    (Split.start w.sink hw hc hargs h.distinct h.length_eq)
  -- The two calls up to there.
  have hout : out = (.ofResult (leaving k.stack (settled r)), i, w₁) := by
    obtain ⟨s, hbody, hstmts⟩ := hd.body
    exact Interpreter.invoke_machine h.depth_lt (activate_admitted hps h.length_eq h.distinct)
      ((runBody_statements_from (c := k) hcall hwf hbody hstmts _).trans hx)
  have hout' : out' = (.ofResult (leaving k.stack (settled r')), i, w₂) := by
    have hk : k = ⟨d.code.arena, w.heap.size, i.stack.enter ⟨d.name⟩⟩ := by rw [hd.arena, hd.name]
    have hact : activate names d args (i.context.machine w) = _ :=
      activate_admitted (hd.params.trans hps) h.length_eq h.distinct
    have hbody : runBody names call d.code.body
        (k.machine { w with heap := w.heap.withCallFrame d.frame ps args }) = _ :=
      hd.runBody hcall rfl hwf _
    rw [hd.frame, Heap.size_withCallFrame, inFrame_machine hy] at hbody
    rw [hd.frame] at hact
    rw [hk] at hbody ⊢
    exact Interpreter.invoke_machine h.depth_lt hact hbody
  rw [hout, hout']
  exact ⟨hw'.sameRun (Split.outcome_of_ends hends), hw'.heaps_value⟩

/-! ## A parameter declared again -/

/-- **In the course of the call `r`, a `let` of `n` is executed at `m`, in the frame of the call**:
it lies in a statement of the body, with no block around it, and the value for `n` is there. -/
structure Moment.RunsOwnLet (names : Interner) (r m : Moment) (n : Name) : Prop where
  visited : ∃ calls b s above, Begins names r calls b ∧ Begins names b [] s ∧
    Visits names s above m ∧ m.context.arena.blocks above = 0
  executed : ∃ l id init v, m.task = .expr (l + 1) id ∧
    m.context.arena.node? id = some (.letIn n init) ∧
    Moment.result names ⟨m.room, .expr l init, m.context, m.world⟩ = .ok v

variable {r m b : Moment} {calls above : List String} {n : Name} {e : EvalError}

/-- An error of an occurrence is one of the expression in which it occurs. -/
theorem Visits.fails {s : Moment} {above : List ExprId} (h : Visits names s above m)
    (hm : m.Fails names e) : s.Fails names e := by
  induction h with
  | here => exact hm
  | inner _ _ hb ih => exact ih (hb.fails hm)

/-- An error that has no backtrace gets one on its way out of a body. -/
theorem Begins.fails_call {kind : ErrorKind} (h : Begins names r calls b)
    (hr : r.task = .call (.function c) args) (hb : b.Fails names (.ofKind kind)) :
    r.Fails names ⟨kind, c.displayName :: r.stack.capture⟩ := by
  have hfails := h.fails hb
  cases h with
  | @body q f vs k w w' g hact hroom =>
    cases hr
    rw [if_neg (List.cons_ne_nil _ _)] at hfails
    have herror : (k.stack.enter ⟨c.name⟩).attachBacktrace (.ofKind kind) =
        ⟨kind, c.displayName :: k.stack.capture⟩ := by
      rw [show c.displayName = CallFrame.displayName ⟨c.name⟩ from rfl, ← CallStack.capture_enter]
      simp [CallStack.attachBacktrace, CallStack.isEmpty, CallStack.enter, EvalError.ofKind,
        EvalError.hasBacktrace, EvalError.withBacktrace]
    exact herror ▸ hfails
  | _ => cases hr

/-- A `let` of a name that its scope binds already fails, once the value is there. -/
theorem Moment.fails_of_bound {l : Nat} {id init : ExprId} {v : Value}
    (htask : m.task = .expr (l + 1) id)
    (hn : m.context.arena.node? id = some (.letIn n init))
    (hinit : Moment.result names ⟨m.room, .expr l init, m.context, m.world⟩ = .ok v)
    (hbound : m.world.heap.binds m.context.frame n = true) :
    m.Fails names (.ofKind (.duplicateBinding (names.lookup n))) := by
  obtain ⟨q, task, k, w⟩ := m
  obtain rfl : task = .expr (l + 1) id := htask
  have hreturns : (evalExpr names (callValue names q) l init).Returns :=
    .evalExpr (.callValue q) l init
  obtain ⟨result, w', -, hrun, -⟩ := hreturns k w
  obtain rfl : result = .ok v := (congrArg Prod.fst hrun).symm.trans hinit
  have hargs : evalArgs (evalExpr names (callValue names q) l) [init] (k.machine w) =
      (.ok [v], k.machine w') := evalArgs_singleton.mpr hrun
  -- Evaluating the value has not removed the name.
  have hkept : w'.heap.binds k.frame n = true := (evalArgs_grown hargs).kept _ _ hbound
  have hdefine : defineVar names n v (k.machine w') =
      (.error (.error (.ofKind (.duplicateBinding (names.lookup n)))), k.machine w') := by
    rw [defineVar_machine, if_pos hkept]
  show Moment.result names _ = _
  rw [Moment.result_expr hn, Node.operands, bind_ok hargs, conclude, bind_error hdefine]

/-- The frame of a call binds the parameters when the body begins. -/
theorem Begins.binds_param (h : Begins names r calls b) (hr : r.task = .call (.function c) args)
    (hps : c.code.params? = some ps) (hn : n ∈ ps) :
    b.world.heap.binds b.context.frame n = true := by
  cases h with
  | body hact hroom =>
    cases hr
    obtain ⟨qs, hqs, hlen, hd, rfl, rfl⟩ := activate_ok_iff.mp hact
    obtain rfl := Option.some.inj (hqs.symm.trans hps)
    obtain ⟨i, hi⟩ := List.mem_iff_getElem?.mp hn
    obtain ⟨hlt, -⟩ := List.getElem?_eq_some_iff.mp hi
    exact Heap.binds_of_local? ((Heap.local?_withCallFrame hd (Nat.le_of_eq hlen)).mpr
      ⟨i, hi, List.getElem?_eq_getElem (hlen ▸ hlt)⟩)
  | _ => cases hr

/-- **A parameter cannot be declared again in the frame of the call.** -/
theorem Moment.RunsOwnLet.fails (hr : r.task = .call (.function c) args)
    (hps : c.code.params? = some ps) (hn : n ∈ ps) (h : r.RunsOwnLet names m n) :
    m.Fails names (.ofKind (.duplicateBinding (names.lookup n))) ∧
      r.Fails names ⟨.duplicateBinding (names.lookup n), c.displayName :: r.stack.capture⟩ := by
  obtain ⟨calls, b, s, above, hbody, hstmt, hvisits, hblocks⟩ := h.visited
  obtain ⟨l, id, init, v, htask, hnode, hinit⟩ := h.executed
  have hbodyTask := hbody.task_of_call hr
  obtain ⟨hcontext, -⟩ := hstmt.statement_of_body hbodyTask
  rw [hvisits.arena_eq] at hblocks
  have hframe : m.context.frame = b.context.frame := by
    rw [hvisits.frame_eq hblocks, hcontext]
  have hgrown := (During.later hstmt hvisits.during).grown
  have hm := m.fails_of_bound htask hnode hinit
    (hframe ▸ hgrown.kept _ _ (hbody.binds_param hr hps hn))
  exact ⟨hm, hbody.fails_call hr (hstmt.fails (hvisits.fails hm))⟩

/-! ## The comparison -/

/-- **A block around a body is observable only through redeclared parameters.** Let the body of `c`
be a block, and let `d` be the same function with one more block around it. If no `let` of a
parameter can be evaluated in the scope of the body itself, then calls of both, from any state and
with any arguments, print the same, end with the same error and backtrace or with the same value,
and leave the same in all frames that there were, up to the frame of the call: for `c` that is one
frame, and for `d` it is two, of which the outer one has the parameters and the inner one all that
the body declares. A call of the one is refused where a call of the other is.

And if a `let` of a parameter is executed there, in a call of `c`, then it fails, since the
parameter is defined already, and with it the call. -/
theorem body_block_invisible (names : Interner) (i : Interpreter) (w : World)
    (hwf : c.code.arena.WellFormed) (hps : c.code.params? = some ps) (hd : d.Wraps c stmts)
    (hw : w.heap.WellFormed) (hc : c.frame < w.heap.size)
    (hargs : ∀ v ∈ args, v.ValidIn w.heap) :
    ((∀ n ∈ ps, ∀ root ∈ stmts, ¬ c.code.arena.OwnLet root n) →
      let S : Split := ⟨w.heap.size, ps⟩
      let out := i.invoke names (.function c) args w
      let out' := i.invoke names (.function d) args w
      S.SameRun out out' ∧ (Admitted i.stack c ps args →
        S.Heaps (fun u v => v = S.value u) out.2.2.heap out'.2.2.heap)) ∧
    ∀ m n, n ∈ ps →
      ((Request.invoke (.function c) args).start i w).RunsOwnLet names m n →
      m.Fails names (.ofKind (.duplicateBinding (names.lookup n))) ∧
      (i.invoke names (.function c) args w).1 =
        .error ⟨.duplicateBinding (names.lookup n), c.displayName :: i.stack.capture⟩ := by
  refine ⟨fun hlet => ?_, fun m n hn hm => ?_⟩
  · by_cases hadmitted : Admitted i.stack c ps args
    · have hrun := hadmitted.sameRun names hd hwf hps hw hc hargs hlet
      exact ⟨hrun.1, fun _ => hrun.2⟩
    · obtain ⟨e, he⟩ := (refused_or_admitted names i.stack hps args).resolve_right hadmitted
      obtain ⟨w₁, h₁, hrun⟩ := he.run (c := i.context) i.room w
      obtain ⟨w₂, h₂, hrun'⟩ := (he.of_wraps hd).run (c := i.context) i.room w
      have hout : i.invoke names (.function c) args w = (.error e, i, w₁) :=
        Interpreter.perform_machine hrun
      have hout' : i.invoke names (.function d) args w = (.error e, i, w₂) :=
        Interpreter.perform_machine hrun'
      refine ⟨?_, fun h => absurd h hadmitted⟩
      rw [hout, hout']
      exact .of_untouched hw rfl h₁ h₂
  · obtain ⟨hfails, hcall⟩ := hm.fails rfl hps hn
    refine ⟨hfails, ?_⟩
    exact (Request.outcome_eq (.invoke (.function c) args) names i w).trans
      (Outcome.ofResult_error.mpr hcall)

/-- A function of the parameter `x` that copies it, `let y = x`, and one that declares it again,
`let x = x`. Each has a block for its body, and there is one more block around that. -/
def twoBodies : Arena where
  nodes := #[.ident ⟨1⟩, .letIn ⟨2⟩ 0, .block ⟨0, 1⟩, .block ⟨1, 1⟩, .letIn ⟨1⟩ 0, .block ⟨2, 1⟩,
    .block ⟨3, 1⟩]
  lists := #[1, 2, 4, 5]
  params := #[⟨1⟩]

def twoBodiesAt (body : ExprId) : Closure :=
  ⟨0, ⟨twoBodies, ⟨none, ⟨0, 1⟩, body⟩, some "f"⟩, 0⟩

/-- The copy is no declaration of the parameter. -/
theorem not_ownLet_twoBodies : ¬ twoBodies.OwnLet 1 ⟨1⟩ := by
  rintro ⟨above, i, init, hoccurs, -, hn⟩
  have hparts : i = 1 ∨ i = 0 := by
    clear hn
    induction hoccurs with
    | root => exact .inl rfl
    | @inner _ _ j nd _ hn hj ih =>
      rcases ih with rfl | rfl
      · obtain rfl : Node.letIn ⟨2⟩ 0 = nd := Option.some.inj hn
        exact .inr (List.mem_singleton.mp hj)
      · obtain rfl : Node.ident ⟨1⟩ = nd := Option.some.inj hn
        cases hj
  rcases hparts with rfl | rfl <;> cases hn

/-- The copying function is the same with a block around its body, and the other one fails. -/
theorem body_block_invisible_twoBodies :
    let names : Interner := ⟨#["", "x", "y"]⟩
    let i := Interpreter.new .empty 0 8
    let w : World := ⟨Heap.empty.root.2, .silent⟩
    let call := fun body => i.invoke names (.function (twoBodiesAt body)) [.bool true] w
    twoBodies.WellFormed ∧ w.heap.WellFormed ∧
      (twoBodiesAt 3).Wraps (twoBodiesAt 2) [1] ∧
      (twoBodiesAt 6).Wraps (twoBodiesAt 5) [4] ∧ ¬ twoBodies.OwnLet 1 ⟨1⟩ ∧
      Split.SameRun ⟨1, [⟨1⟩]⟩ (call 2) (call 3) ∧
      Split.Heaps ⟨1, [⟨1⟩]⟩ (fun u v => v = Split.value ⟨1, [⟨1⟩]⟩ u) (call 2).2.2.heap
        (call 3).2.2.heap ∧
      (call 5).1 = .error ⟨.duplicateBinding "x", ["f"]⟩ := by
  intro names i w call
  have hwf : twoBodies.WellFormed := by decide
  have hw : w.heap.WellFormed := .newFrame .empty (by simp)
  have hargs : ∀ v ∈ [Value.bool true], v.ValidIn w.heap := by
    intro v hv
    obtain rfl := List.mem_singleton.mp hv
    trivial
  have hcopy : (twoBodiesAt 3).Wraps (twoBodiesAt 2) [1] :=
    ⟨rfl, rfl, rfl, rfl, ⟨⟨0, 1⟩, rfl, rfl⟩, ⟨⟨1, 1⟩, rfl, rfl⟩⟩
  have hagain : (twoBodiesAt 6).Wraps (twoBodiesAt 5) [4] :=
    ⟨rfl, rfl, rfl, rfl, ⟨⟨2, 1⟩, rfl, rfl⟩, ⟨⟨3, 1⟩, rfl, rfl⟩⟩
  have hlet : ∀ n ∈ [(⟨1⟩ : Name)], ∀ root ∈ [1], ¬ twoBodies.OwnLet root n := by
    intro n hn root hroot
    obtain rfl := List.mem_singleton.mp hn
    obtain rfl := List.mem_singleton.mp hroot
    exact not_ownLet_twoBodies
  obtain ⟨hsame, hheaps⟩ :=
    (body_block_invisible names i w hwf rfl hcopy hw (by decide) hargs).1 hlet
  -- The body of the other function, and its only statement.
  let k : Context := ⟨twoBodies, 1, i.stack.enter ⟨some "f"⟩⟩
  let b : Moment := ⟨7, .body 5, k, { w with heap := w.heap.withCallFrame 0 [⟨1⟩] [.bool true] }⟩
  let m : Moment := ⟨7, .expr 5 4, k, b.world⟩
  have hact : Eval.activate names (twoBodiesAt 5) [.bool true] (i.context.machine w) = _ :=
    Eval.activate_admitted (show (twoBodiesAt 5).code.params? = some [⟨1⟩] from rfl) rfl
      (List.nodup_singleton _)
  have hbody : Begins names
      ((Request.invoke (.function (twoBodiesAt 5)) [.bool true]).start i w) ["f"] b :=
    .body hact (by decide)
  have hids : k.arena.statements? 5 = some (5, [] ++ 4 :: []) := rfl
  have hruns : ((Request.invoke (.function (twoBodiesAt 5)) [.bool true]).start i w).RunsOwnLet
      names m ⟨1⟩ :=
    ⟨⟨_, b, m, [], hbody, .inBody hids rfl, .here, rfl⟩, ⟨4, 4, 0, .bool true, rfl, rfl, rfl⟩⟩
  obtain ⟨-, hfails⟩ := (body_block_invisible names i w hwf rfl hagain hw (by decide) hargs).2 m
    ⟨1⟩ (List.mem_singleton_self _) hruns
  exact ⟨hwf, hw, hcopy, hagain, not_ownLet_twoBodies, hsame,
    hheaps ⟨rfl, List.nodup_singleton _, by decide⟩, hfails⟩

end ClosureLang
