import ClosureLang.Proofs.Backtraces
import ClosureLang.Proofs.Eval.CallFrames

/-!
# Calls are refused or entered

Before the body of a function runs, four things are asked, in this order: is the value a function,
are there as many arguments as parameters, are the parameters distinct, and does the limit admit
one more call. `Refused` says what a call fails with when an answer is no, each time on the
premise that the answers before were yes. Those are all calls that fail without a body being
entered (`refused_of_fails`), and they leave the program, the scope, the calls in progress, the
output and all frames that there are as they were (`Refused.run`). All other calls run the body in
a frame that is new and that binds the parameters to the arguments (`Moment.Enters`).
-/

namespace ClosureLang

/-- **A call that is refused**, with calls in progress as in `k`, and the error. -/
inductive Refused (names : Interner) (k : CallStack) : Value → List Value → EvalError → Prop
  /-- The value is no function. -/
  | notCallable {v : Value} {vs : List Value} (hv : v.asClosure? = none) :
      Refused names k v vs (.ofKind (.notCallable v.typeName))
  /-- There are more arguments than parameters, or fewer. -/
  | arity {d : Closure} {ps : List Name} {vs : List Value} (hps : d.code.params? = some ps)
      (hlen : ps.length ≠ vs.length) : Refused names k (.function d) vs
        (.ofKind (.arityMismatch d.displayName ps.length vs.length))
  /-- A parameter repeats an earlier one, and no parameter before it does. -/
  | repeated {d : Closure} {before after : List Name} {n : Name} {vs : List Value}
      (hps : d.code.params? = some (before ++ n :: after))
      (hlen : (before ++ n :: after).length = vs.length) (hd : before.Nodup) (hn : n ∈ before) :
      Refused names k (.function d) vs (.ofKind (.duplicateBinding (names.lookup n)))
  /-- The limit is reached. Of all errors this one alone names the calls in progress at once. -/
  | full {d : Closure} {ps : List Name} {vs : List Value} (hps : d.code.params? = some ps)
      (hlen : ps.length = vs.length) (hd : ps.Nodup) (hk : k.maxDepth ≤ k.depth) :
      Refused names k (.function d) vs (k.attachBacktrace (.ofKind (.stackOverflow k.maxDepth)))

/-- All frames that there are, the number of function values made, and the output are the same. -/
structure World.Untouched (w w' : World) : Prop where
  frame : ∀ f < w.heap.size, w'.heap.frame? f = w.heap.frame? f
  stamps : w'.heap.stamps = w.heap.stamps
  sink : w'.sink = w.sink

theorem World.Untouched.refl (w : World) : w.Untouched w := ⟨fun _ _ => rfl, rfl, rfl⟩

/-- The frame of a call is one more. -/
theorem World.Untouched.withCallFrame (w : World) (p : FrameId) (ns : List Name)
    (vs : List Value) : w.Untouched { w with heap := w.heap.withCallFrame p ns vs } where
  frame _ hf := Heap.frame?_withCallFrame_of_lt p ns vs hf
  stamps := Heap.stamps_withCallFrame _ _ _ _
  sink := rfl

open Eval

variable {names : Interner} {m n : Moment} {calls : List String} {q : Nat} {c : Context}
  {w : World} {v : Value} {vs : List Value} {d : Closure} {ps : List Name} {e : EvalError}

/-! ## The room of a moment -/

/-- What is left of the room at a moment is what the limit still admits. -/
theorem Begins.room_eq (h : Begins names m calls n)
    (hm : m.room = m.stack.maxDepth - m.stack.depth) :
    n.room = n.stack.maxDepth - n.stack.depth := by
  cases h with
  | @body q f vs c w w' g hact hroom =>
    have hq : q + 1 = c.stack.maxDepth - c.stack.depth := hm
    show q = c.stack.maxDepth - (c.stack.enter ⟨f.name⟩).depth
    rw [CallStack.depth_enter]
    omega
  | _ => exact hm

theorem During.room_eq (h : During names m calls n)
    (hm : m.room = m.stack.maxDepth - m.stack.depth) :
    n.room = n.stack.maxDepth - n.stack.depth := by
  induction h with
  | here => exact hm
  | later hb _ ih => exact ih (hb.room_eq hm)

theorem Request.room_start (r : Request) (i : Interpreter) (w : World) :
    (r.start i w).room = (r.start i w).stack.maxDepth - (r.start i w).stack.depth := by
  cases r <;> rfl

/-! ## Refusals -/

namespace Refused

/-- **A call that is refused leaves no trace.** -/
theorem run (h : Refused names c.stack v vs e) (q : Nat) (w : World) : ∃ w', w.Untouched w' ∧
    callValue names q v vs (c.machine w) = (.error (.error e), c.machine w') := by
  obtain ⟨run, hrun⟩ := callValue_eq names q
  rw [hrun]
  cases h with
  | notCallable hv =>
    refine ⟨w, .refl w, ?_⟩
    cases v with
    | function d => cases hv
    | _ => rfl
  | arity hps hlen => exact ⟨w, .refl w, bind_error (activate_arity hps hlen)⟩
  | repeated hps hlen hd hn =>
    exact ⟨_, .withCallFrame w _ _ _, bind_error (activate_repeated hps hlen hd hn)⟩
  | full hps hlen hd hk =>
    exact ⟨_, .withCallFrame w _ _ _,
      (bind_ok (activate_admitted hps hlen hd)).trans (duringCall_full hk)⟩

/-- No body is entered. -/
theorem not_begins (h : Refused names m.stack v vs e) (hm : m.task = .call v vs) :
    ¬ Begins names m calls n := by
  intro hb
  cases hb with
  | body hact hroom =>
    cases hm
    cases h with
    | notCallable hv => cases hv
    | arity hps hlen => cases (activate_arity hps hlen).symm.trans hact
    | repeated hps hlen hd hn => cases (activate_repeated hps hlen hd hn).symm.trans hact
    | full hps hlen hd hk => exact Nat.not_le_of_lt hroom hk
  | _ => cases hm

end Refused

/-! ## Calls that are entered -/

/-- Everything that is asked before a call is answered with yes. -/
structure Admitted (k : CallStack) (d : Closure) (ps : List Name) (vs : List Value) : Prop where
  length_eq : ps.length = vs.length
  distinct : ps.Nodup
  depth_lt : k.depth < k.maxDepth

/-- There is room for a call that is admitted. -/
theorem Admitted.exists_room (h : Admitted c.stack d ps vs)
    (hq : q = c.stack.maxDepth - c.stack.depth) : ∃ k, q = k + 1 := by
  have hlt := h.depth_lt
  exact Nat.exists_eq_succ_of_ne_zero (by omega)

/-- **A call of a function is refused or admitted.** -/
theorem refused_or_admitted (names : Interner) (k : CallStack) (hps : d.code.params? = some ps)
    (vs : List Value) : (∃ e, Refused names k (.function d) vs e) ∨ Admitted k d ps vs := by
  by_cases hlen : ps.length = vs.length
  · by_cases hd : ps.Nodup
    · by_cases hk : k.maxDepth ≤ k.depth
      · exact .inl ⟨_, .full hps hlen hd hk⟩
      · exact .inr ⟨hlen, hd, Nat.lt_of_not_le hk⟩
    · obtain ⟨before, n, after, rfl, hbefore, hn⟩ := exists_first_repeated hd
      exact .inl ⟨_, .repeated hps hlen hbefore hn⟩
  · exact .inl ⟨_, .arity hps hlen⟩

/-- **The body of `d` runs in a frame of its own**: one that is new, inside the frame that was
captured, and that binds the parameters to the arguments in their place and nothing else. How it
ends is how the call ends. -/
structure Moment.Enters (names : Interner) (m : Moment) (d : Closure) (ps : List Name)
    (vs : List Value) (b : Moment) : Prop where
  begins : Begins names m [d.displayName] b
  /-- Nothing else begins in the course of the call. -/
  only : ∀ calls n, Begins names m calls n → n = b
  task : b.task = .body d.code.body
  arena : b.context.arena = d.code.arena
  stack : b.stack = m.stack.enter ⟨d.name⟩
  fresh : m.world.heap.size ≤ b.context.frame
  exists_frame : b.context.frame < b.world.heap.size
  parent : b.world.heap.parent? b.context.frame = some d.frame
  depth : b.world.heap.depth b.context.frame = m.world.heap.depth d.frame + 1
  bound : ∀ n v, b.world.heap.local? b.context.frame n = some v ↔
    ∃ i : Nat, ps[i]? = some n ∧ vs[i]? = some v
  untouched : m.world.Untouched b.world
  result : m.result names = leaving b.stack (settled (b.result names))

theorem Admitted.enters (h : Admitted c.stack d ps vs) (hps : d.code.params? = some ps)
    (names : Interner) (q : Nat) (w : World) : ∃ b,
      Moment.Enters names ⟨q + 1, .call (.function d) vs, c, w⟩ d ps vs b := by
  have hact : activate names d vs (c.machine w) = _ :=
    activate_admitted hps h.length_eq h.distinct
  let b : Moment := ⟨q, .body d.code.body,
    ⟨d.code.arena, w.heap.size, c.stack.enter ⟨d.name⟩⟩,
    { w with heap := w.heap.withCallFrame d.frame ps vs }⟩
  obtain ⟨r, w', -, hbody, -⟩ := b.returns names b.context b.world
  refine ⟨b, ⟨.body hact h.depth_lt, fun calls n hb => ?_, rfl, rfl, rfl, Nat.le_refl _, ?_,
    Heap.parent?_withCallFrame .., Heap.depth_withCallFrame .., fun n v =>
    Heap.local?_withCallFrame h.distinct (Nat.le_of_eq h.length_eq),
    .withCallFrame w _ _ _, ?_⟩⟩
  · cases hb with
    | body hact' hroom =>
      obtain ⟨hg, hw⟩ := Prod.mk.inj (hact.symm.trans hact')
      obtain rfl := Except.ok.inj hg
      obtain rfl := Context.machine_inj.mp hw
      rfl
  · show w.heap.size < (w.heap.withCallFrame d.frame ps vs).size
    rw [Heap.size_withCallFrame]
    exact Nat.lt_succ_self _
  · have hresult : b.result names = r := congrArg Prod.fst hbody
    rw [hresult]
    exact congrArg Prod.fst (callValue_machine h.depth_lt hact hbody)

/-- **Only calls that are refused fail before a body runs.** -/
theorem refused_of_fails (hroom : q = c.stack.maxDepth - c.stack.depth)
    (hm : Moment.Fails names ⟨q, .call v vs, c, w⟩ e)
    (hnone : ∀ calls n, ¬ Begins names ⟨q, .call v vs, c, w⟩ calls n) :
    Refused names c.stack v vs e := by
  -- A refusal determines the error, so it is enough that there is one.
  suffices hrefused : ∃ e', Refused names c.stack v vs e' by
    obtain ⟨e', he'⟩ := hrefused
    obtain ⟨w', -, hrun⟩ := he'.run q w
    have hm' : Moment.Fails names ⟨q, .call v vs, c, w⟩ e' := congrArg Prod.fst hrun
    rwa [hm.unique hm']
  cases v with
  | function d =>
    cases hps : d.code.params? with
    | none =>
      -- There is no such list of parameters, and that is no error of the program.
      obtain ⟨run, hrun⟩ := callValue_eq names q
      have hfault : callValue names q (.function d) vs (c.machine w) =
          (.error (.fault (.noParams d.code.definition.params)), c.machine w) := by
        rw [hrun]
        refine bind_error ?_
        rw [activate, hps]
        rfl
      cases (congrArg Prod.fst hfault).symm.trans hm
    | some ps =>
      rcases refused_or_admitted names c.stack hps vs with h | h
      · exact h
      · obtain ⟨q, rfl⟩ := h.exists_room hroom
        obtain ⟨b, hb⟩ := h.enters hps names q w
        exact absurd hb.begins (hnone _ _)
  | _ => exact ⟨_, .notCallable rfl⟩

/-- **A rejected call leaves no trace, and calls are rejected exactly when they should be.** A
call, from a host or at any depth of a run, fails before a body is entered exactly if it is
refused, and with that error. It then ends in the program, the scope and the calls in progress in
which it began, and in a world that is untouched. A call of a function that is not refused runs
the body in a frame of its own. -/
theorem calls_refused_or_entered (names : Interner) (r : Request) (i : Interpreter) (w : World)
    {calls : List String} {m : Moment} {v : Value} {vs : List Value}
    (hm : During names (r.start i w) calls m) (htask : m.task = .call v vs) :
    (∀ e, (m.Fails names e ∧ ∀ calls n, ¬ Begins names m calls n) ↔
      Refused names m.stack v vs e) ∧
    (∀ e, Refused names m.stack v vs e → ∃ w', m.world.Untouched w' ∧
      m.eval names (m.context.machine m.world) = (.error (.error e), m.context.machine w')) ∧
    ∀ d ps, v = .function d → d.code.params? = some ps →
      (∀ e, ¬ Refused names m.stack v vs e) → ∃ b, m.Enters names d ps vs b := by
  have hroom := hm.room_eq (r.room_start i w)
  obtain ⟨q, task, c, w'⟩ := m
  obtain rfl : task = .call v vs := htask
  refine ⟨fun e => ⟨fun h => refused_of_fails hroom h.1 h.2, fun h => ?_⟩,
    fun e h => h.run q w', ?_⟩
  · obtain ⟨w'', -, hrun⟩ := h.run q w'
    exact ⟨congrArg Prod.fst hrun, fun calls n => h.not_begins rfl⟩
  · rintro d ps rfl hps hnot
    rcases refused_or_admitted names c.stack hps vs with ⟨e, he⟩ | h
    · exact absurd he (hnot e)
    · obtain ⟨q, rfl⟩ := h.exists_room hroom
      exact h.enters hps names q w'

/-- `function twice(x, x) { }`; the name `x` has the slot 1. -/
def repeating : FunctionCode :=
  ⟨⟨#[.void], #[], #[⟨1⟩, ⟨1⟩]⟩, ⟨none, ⟨0, 2⟩, 0⟩, some "twice"⟩

/-- Two arguments are as many as the parameters, and then there is no third answer. -/
theorem calls_refused_or_entered_repeating :
    let names : Interner := ⟨#["", "x"]⟩
    let m := (Request.invoke (.function ⟨0, repeating, 0⟩) [.void, .void]).start
      (.new .empty 0 8) ⟨Heap.empty.root.2, .silent⟩
    During names m [] m ∧ m.task = .call (.function ⟨0, repeating, 0⟩) [.void, .void] ∧
      m.Fails names (.ofKind (.duplicateBinding "x")) ∧ ∀ calls n, ¬ Begins names m calls n := by
  intro names m
  have hps : repeating.params? = some ([⟨1⟩] ++ ⟨1⟩ :: []) := rfl
  have hname : names.lookup ⟨1⟩ = "x" := rfl
  have hrefused : Refused names m.stack (.function ⟨0, repeating, 0⟩) [.void, .void]
      (.ofKind (.duplicateBinding (names.lookup ⟨1⟩))) :=
    .repeated hps rfl (List.nodup_singleton _) (List.mem_singleton_self _)
  rw [hname] at hrefused
  exact ⟨.here m, rfl, ((calls_refused_or_entered names _ _ _ (.here m) rfl).1 _).mpr hrefused⟩

end ClosureLang
