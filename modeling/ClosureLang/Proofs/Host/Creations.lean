import ClosureLang.Proofs.Eval.BodyScopes
import ClosureLang.Proofs.Eval.Makes
import ClosureLang.Proofs.Host.Runs

/-!
# Which functions a host makes, and which it holds

Functions come into being in the runs that a host starts, and it may also make one from a literal
by itself. In the order in which this happens they are listed by `State.made`. A state is `Tracked`
by such a list when it binds and holds none but the functions in it.

Most commands make no function. For them there is one rule for each action and one for sequencing
(`Tracks`). A command that starts a run is carried out by it: `Carries` says which run that is, and
what is known of runs takes over.
-/

namespace ClosureLang.Host

/-! ## The runs that commands start -/

namespace Action

/-- The first moment of the run that a command starts, with the texts that the run reads. -/
def opening : Command → Action (Interner × Moment)
  | .eval interpreter node _ => do
    let (names, i, w) ← approach interpreter
    pure (names, (Request.eval node).start i w)
  | .evalIn interpreter frame node _ => do
    let f ← held State.frames frame
    let (names, i, w) ← approach interpreter
    pure (names, (Request.eval node).start { i with frame := f } w)
  | .invoke interpreter callee args _ => do
    let callee ← operand callee
    let args ← args.mapM operand
    let (names, i, w) ← approach interpreter
    pure (names, (Request.invoke callee args).start i w)
  | _ => .fail "interpreter"

end Action

namespace State

/-- The run that a command starts, if it starts one. -/
def starts? (s : State) (c : Command) : Option (Interner × Moment) :=
  (Action.opening c s).1.toOption

/-- **The functions that come into being when a command is carried out**, in order: the one that
the host makes, or those that are made in the course of the run. -/
def makes (s : State) : Command → List Closure
  | .make program node name frame dest =>
    match (Action.makeClosure program node name frame dest s).1 with
    | .ok (.outcome (.value (.function f))) => [f]
    | _ => []
  | c => (s.starts? c).elim [] fun p => p.2.makes p.1

/-- **All functions that have come into being**, in order. -/
def made (s : State) : List Command → List Closure
  | [] => []
  | c :: cs => s.makes c ++ (s.step c).2.made cs

theorem made_append (s : State) (cs ds : List Command) :
    s.made (cs ++ ds) = s.made cs ++ (s.run cs).made ds := by
  induction cs generalizing s with
  | nil => rfl
  | cons c cs ih => simp only [List.cons_append, made, ih, List.append_assoc, run, List.foldl_cons]

/-- What is bound and held is in the list. -/
structure Tracked (s : State) (fs : List Closure) : Prop where
  heap : s.heap.Records fs
  values : ∀ v ∈ s.values.values, v.Among fs

end State

variable {fs : List Closure} {s t : State}

theorem State.Tracked.among (hs : s.Tracked fs) {v : Value} (hv : s.Offers v) : v.Among fs :=
  hv.elim .of_asClosure? (hs.values v)

namespace Action

variable {α β : Type} {x : Action α} {g : α → Action β} {P : α → Prop} {Q : β → Prop} {v : Value}

/-! ## Actions that make no function -/

/-- From any state that the list tracks the action ends in one, and what it yields satisfies
`P`. -/
def Tracks (fs : List Closure) (x : Action α) (P : α → Prop) : Prop :=
  ∀ s, s.Tracked fs → (x s).2.Tracked fs ∧ ∀ a, (x s).1 = .ok a → P a

namespace Tracks

theorem pure {a : α} (h : P a) : Tracks fs (pure a) P :=
  fun _ hs => ⟨hs, fun b hb => by cases hb; exact h⟩

theorem fail {what : String} : Tracks fs (.fail what : Action α) P :=
  fun _ hs => ⟨hs, fun _ hb => nomatch hb⟩

theorem bind (hx : Tracks fs x P) (hg : ∀ a, P a → Tracks fs (g a) Q) :
    Tracks fs (x >>= g) Q := by
  intro s hs
  obtain ⟨hx', hP⟩ := hx s hs
  rw [Attempt.bind_apply]
  cases hrun : x s with
  | mk r s' =>
    rw [hrun] at hx' hP
    cases r with
    | error what => exact ⟨hx', fun _ hb => nomatch hb⟩
    | ok a => exact hg a (hP a rfl) s' hx'

/-- Whatever the first one yields, the next one may follow. -/
theorem next (hx : Tracks fs x P) (hg : ∀ a, Tracks fs (g a) Q) : Tracks fs (x >>= g) Q :=
  hx.bind fun a _ => hg a

/-- Replying alone does nothing. -/
theorem reply {answer : α → β} (hx : Tracks fs x P) :
    Tracks fs (x >>= fun a => Pure.pure (answer a)) fun _ => True :=
  hx.next fun _ => pure trivial

theorem read (view : State → α) : Tracks fs (.read view) fun _ => True :=
  fun _ hs => ⟨hs, fun _ _ => trivial⟩

theorem readHeap : Tracks fs (.read State.heap) fun h => h.Records fs :=
  fun _ hs => ⟨hs, fun a ha => by cases ha; exact hs.heap⟩

theorem require {o : Option α} {what : String} (h : ∀ a, o = some a → P a) :
    Tracks fs (Action.require what o) P := by
  cases o with
  | none => exact fail
  | some a => exact pure (h a rfl)

theorem requireAny {o : Option α} {what : String} :
    Tracks fs (Action.require what o) fun _ => True := require fun _ _ => trivial

/-- What only looks does nothing. -/
theorem look (h : ∀ s, s.Tracked fs → Looks s x P) : Tracks fs x P := by
  intro s hs
  obtain ⟨hstate, hP⟩ := h s hs
  exact ⟨hstate.symm ▸ hs, hP⟩

/-- Changing neither what is bound nor what is held. -/
theorem aside {change : State → State}
    (h : ∀ t : State, (change t).heap = t.heap ∧ (change t).values = t.values) :
    Tracks fs (.modify change) fun _ => True := by
  intro s hs
  obtain ⟨hheap, hvalues⟩ := h s
  exact ⟨⟨hheap ▸ hs.heap, hvalues ▸ hs.values⟩, fun _ _ => trivial⟩

/-! ### What a host holds -/

theorem held (view : State → Registers α) (r : String) :
    Tracks fs (Action.held view r) fun _ => True :=
  look fun _ _ => (Looks.held view r).mono fun _ _ => trivial

theorem operand (o : Operand) : Tracks fs (Action.operand o) (Value.Among fs) :=
  look fun _ hs => (Looks.operand o).mono fun _ => hs.among

theorem operands (os : List Operand) :
    Tracks fs (os.mapM Action.operand) fun vs => ∀ v ∈ vs, v.Among fs :=
  look fun _ hs => (Looks.operands os).mono fun _ hvs v hv => hs.among (hvs v hv)

theorem retain (gs : List FrameId) : Tracks fs (Action.retain gs) fun _ => True :=
  aside fun _ => ⟨rfl, rfl⟩

theorem release (gs : List FrameId) : Tracks fs (Action.release gs) fun _ => True :=
  aside fun _ => ⟨rfl, rfl⟩

theorem exchange {before : State → List FrameId} {change : State → State}
    (h : ∀ t : State, t.Tracked fs → (change t).Tracked fs) :
    Tracks fs (Action.exchange before change) fun _ => True :=
  fun s hs => ⟨⟨(h s hs).heap, (h s hs).values⟩, fun _ _ => trivial⟩

theorem putFrame (r : String) (f : FrameId) : Tracks fs (Action.putFrame r f) fun _ => True :=
  exchange fun _ ht => ⟨ht.heap, ht.values⟩

theorem putValue (r : String) (hv : v.Among fs) :
    Tracks fs (Action.putValue r v) fun _ => True := by
  refine exchange fun t ht => ⟨ht.heap, fun u hu => ?_⟩
  rcases Registers.mem_values_of_put hu with rfl | hu
  · exact hv
  · exact ht.values u hu

theorem putResident (r : String) (q : Resident) :
    Tracks fs (Action.putResident r q) fun _ => True := exchange fun _ ht => ⟨ht.heap, ht.values⟩

theorem dropFrame (r : String) : Tracks fs (Action.dropFrame r) fun _ => True :=
  exchange fun _ ht => ⟨ht.heap, ht.values⟩

theorem dropValue (r : String) : Tracks fs (Action.dropValue r) fun _ => True :=
  exchange fun _ ht => ⟨ht.heap, fun v hv => ht.values v (Registers.mem_values_of_erase hv)⟩

theorem dropResident (r : String) : Tracks fs (Action.dropResident r) fun _ => True :=
  exchange fun _ ht => ⟨ht.heap, ht.values⟩

theorem outcomeReply (dest : Option String) {o : Outcome}
    (ho : ∀ v, o.value? = some v → v.Among fs) :
    Tracks fs (Action.outcomeReply dest o) fun _ => True := by
  unfold Action.outcomeReply
  cases hv : o.value? with
  | none => exact pure trivial
  | some v =>
    have hput : Tracks fs (Action.putValue? dest v) fun _ => True := by
      cases dest with
      | none => exact release _
      | some r => exact putValue r (ho v hv)
    exact hput.next fun _ => pure trivial

/-! ### Heap, tables and destinations -/

theorem getVar (f : FrameId) (n : Name) : Tracks fs (Action.onStore (Store.get f n)) fun r =>
    ∀ v, r = .ok v → v.Among fs := by
  intro s hs
  refine ⟨⟨?_, hs.values⟩, fun r hr v hv => ?_⟩
  · show (Store.get f n s.store).2.heap.Records fs
    rw [Store.get_eq]
    exact hs.heap
  · have hget : (Store.get f n s.store).1 = .ok v := (Except.ok.inj hr).trans hv
    rw [Store.get_eq] at hget
    exact hs.heap.get hget

theorem newFrame (p : Option FrameId) : Tracks fs (Action.newFrame p) fun _ => True :=
  fun _ hs => ⟨⟨hs.heap.newFrame p, hs.values⟩, fun _ _ => trivial⟩

theorem onStore {ε : Type} {op : Attempt Store ε α} {hop : Attempt Heap ε α}
    (hop' : Store.Counts op hop) (h : ∀ h, h.Records fs → (hop h).2.Records fs) :
    Tracks fs (Action.onStore op) fun _ => True := by
  intro s hs
  obtain ⟨l, hl⟩ := hop' s.store
  refine ⟨⟨?_, hs.values⟩, fun _ _ => trivial⟩
  show (op s.store).2.heap.Records fs
  rw [hl]
  exact h s.heap hs.heap

theorem table (r : String) : Tracks fs (Action.table r) fun _ => True :=
  look fun _ _ => (Looks.table r).mono fun _ _ => trivial

theorem setTable (i : Nat) (names : Interner) :
    Tracks fs (Action.setTable i names) fun _ => True := aside fun _ => ⟨rfl, rfl⟩

theorem internIn (r text : String) : Tracks fs (Action.internIn r text) fun _ => True :=
  (table r).next fun ⟨i, _⟩ => (setTable i _).reply

theorem arena (r : String) : Tracks fs (Action.arena r) fun _ => True :=
  look fun _ _ => Looks.arena r

theorem sink (i : Nat) : Tracks fs (Action.sink i) fun _ => True :=
  look fun _ _ => (Looks.sink i).mono fun _ _ => trivial

theorem setSink (i : Nat) (k : Sink) : Tracks fs (Action.setSink i k) fun _ => True :=
  aside fun _ => ⟨rfl, rfl⟩

theorem newSink (k : Sink) : Tracks fs (Action.newSink k) fun _ => True :=
  fun _ hs => ⟨⟨hs.heap, hs.values⟩, fun _ _ => trivial⟩

/-- A frame, a name in it and a value are got ready before something is done with them. -/
theorem onVariable {tableName frame name : String} {o : Operand}
    {act : Name → FrameId → Value → Action β}
    (h : ∀ n f v, v.Among fs → Tracks fs (act n f v) fun _ => True) : Tracks fs (do
      let n ← Action.internIn tableName name
      let f ← Action.held State.frames frame
      let v ← Action.operand o
      act n f v) fun _ => True :=
  (internIn tableName name).next fun n => (held _ frame).next fun f =>
    (operand o).bind fun v hv => h n f v hv

/-- The frame of a call binds arguments. -/
theorem activate (tableName value : String) (args : List Operand) :
    Tracks fs (Action.activate tableName value args) fun _ => True := by
  refine (table tableName).next fun ⟨_, names⟩ => (held _ value).next fun v =>
    (operands args).bind fun vs hvs => ?_
  cases v.asClosure? with
  | none => exact pure trivial
  | some c =>
    exact (require fun _ h => h).bind fun ps hps => (retain _).next fun _ =>
      (onStore (.activate c names ps vs) fun h hh => hh.activate names hps hvs).reply

theorem newInterpreter (tableName program : String) (globalFrame : Option String)
    (maxDepth : Option Nat) (handler : Option String) (dest : String) :
    Tracks fs (Action.newInterpreter tableName program globalFrame maxDepth handler dest)
      fun _ => True := by
  refine (table tableName).next fun ⟨i, _⟩ => (arena program).next fun a => ?_
  have hgiven : Tracks fs (globalFrame.mapM (Action.held State.frames)) fun _ => True := by
    cases globalFrame with
    | none => exact pure trivial
    | some r => exact (held _ r).reply
  have hsettle : ∀ (given : Option FrameId) (k : Nat), Tracks fs (do
      let f ← Action.globalFrameOf given
      Action.retain [f]
      Action.putResident dest ⟨.new a f (maxDepth.getD Interpreter.defaultMaxDepth), i, k⟩
      Pure.pure Reply.ok) fun _ => True := by
    intro given k
    have hframe : Tracks fs (Action.globalFrameOf given) fun _ => True := by
      cases given with
      | none => exact newFrame none
      | some f => exact (retain _).next fun _ => pure trivial
    exact hframe.next fun f => (retain _).next fun _ => (putResident dest _).reply
  refine hgiven.next fun given => ?_
  cases handler with
  | none => exact (newSink _).next fun k => hsettle given k
  | some r => exact (held _ r).next fun k => hsettle given k

end Tracks

/-! ## What runs start with -/

namespace Looks

/-- What a run starts with is tracked. -/
theorem opening_given (hs : s.Tracked fs) (c : Command) :
    Looks s (Action.opening c) fun p => p.2.Given fs := by
  cases c with
  | eval interpreter node dest =>
    exact (approach interpreter).bind fun _ ⟨hw, _⟩ => pure (.expr (hw ▸ hs.heap))
  | evalIn interpreter frame node dest =>
    exact (held _ frame).bind fun _ _ => (approach interpreter).bind fun _ ⟨hw, _⟩ =>
      pure (.expr (hw ▸ hs.heap))
  | invoke interpreter callee args dest =>
    exact (operand callee).bind fun v hv => (operands args).bind fun vs hvs =>
      (approach interpreter).bind fun _ ⟨hw, _⟩ => pure (.call (hw ▸ hs.heap)
        (List.forall_mem_cons.mpr ⟨hs.among hv, fun u hu => hs.among (hvs u hu)⟩))
  | _ => exact fail

/-- Scopes and values are such as there are. -/
theorem opening_satisfies (hs : s.Balanced) (c : Command) : Looks s (Action.opening c) fun p =>
    p.2.Satisfies validInvariant (p.2.world.heap.size, p.2.world.heap.stamps) := by
  cases c with
  | eval interpreter node dest =>
    refine (approach interpreter).bind fun ⟨_, i, w⟩ ⟨hw, q, hq, hi⟩ => pure ?_
    obtain ⟨h, k⟩ := w
    obtain rfl : h = s.heap := hw
    obtain rfl : q.interpreter = i := hi
    have hframe : q.interpreter.frame ∈ s.roots :=
      State.mem_roots.mpr (.inr (.inr ⟨q, hq, .inr rfl⟩))
    exact ⟨⟨hs.coherent.heap.toWellFormed, rfl, rfl⟩, trivial,
      hs.lt_size (hs.isAlive_of_held (.inl hframe)), trivial⟩
  | evalIn interpreter frame node dest =>
    refine (held _ frame).bind fun f hf => (approach interpreter).bind
      fun ⟨_, i, w⟩ ⟨hw, _⟩ => pure ?_
    obtain ⟨h, k⟩ := w
    obtain rfl : h = s.heap := hw
    have hframe : f ∈ s.roots := State.mem_roots.mpr (.inl (Registers.mem_values_of_get? hf))
    exact ⟨⟨hs.coherent.heap.toWellFormed, rfl, rfl⟩, trivial,
      hs.lt_size (hs.isAlive_of_held (.inl hframe)), trivial⟩
  | invoke interpreter callee args dest =>
    refine (operand callee).bind fun v hv => (operands args).bind fun vs hvs =>
      (approach interpreter).bind fun ⟨_, i, w⟩ ⟨hw, _⟩ => pure ?_
    obtain ⟨h, k⟩ := w
    obtain rfl : h = s.heap := hw
    exact ⟨⟨hs.coherent.heap.toWellFormed, rfl, rfl⟩, trivial,
      validInvariant_value_iff.mpr (hs.coherent.valid_of_offers hv),
      fun u hu => validInvariant_value_iff.mpr (hs.coherent.valid_of_offers (hvs u hu))⟩
  | _ => exact fail

end Looks

/-! ## Actions that are a run -/

/-- **An action is carried out by a run**: where none is started nothing happens, and otherwise the
host stores how it ends, in the heap that it leaves. -/
def Carries (start : Action (Interner × Moment)) (x : Action Reply) (s : State) : Prop :=
  (∃ what, start s = (.error what, s) ∧ x s = (.error what, s)) ∨
    ∃ names m t dest, start s = (.ok (names, m), s) ∧ t.heap = (m.after names).heap ∧
      t.values = s.values ∧ x s = outcomeReply dest (.ofResult (m.result names)) t

namespace Carries

/-- First something is looked up. -/
theorem bind {a : Action α} {start : α → Action (Interner × Moment)} {x : α → Action Reply}
    (ha : Looks s a P) (h : ∀ a, Carries (start a) (x a) s) :
    Carries (a >>= start) (a >>= x) s := by
  obtain ⟨hstate, -⟩ := ha
  rcases hr : a s with ⟨what | b, t⟩ <;> rw [hr] at hstate <;> obtain rfl : t = s := hstate
  · exact .inl ⟨what, by rw [Attempt.bind_apply, hr], by rw [Attempt.bind_apply, hr]⟩
  · simpa only [Carries, Attempt.bind_apply, hr] using h b

/-- A request to a resident, in its current scope or in another. -/
theorem request (r : String) (q : Request) (within : Interpreter → Interpreter)
    {act : Interner → CountedInteraction Outcome} (dest : Option String)
    (hact : ∀ names i w l,
      (act names i w l).1.1 = .ofResult ((q.start (within i) w).result names) ∧
      (act names i w l).1.2.2 = (q.start (within i) w).after names) :
    Carries (approach r >>= fun a => Pure.pure (a.1, q.start (within a.2.1) a.2.2))
      (withInterpreter r act >>= outcomeReply dest) s := by
  rcases withInterpreter_cases r act s with
    ⟨what, hfrom, hrun⟩ | ⟨resident, names, k, -, hfrom, hrun⟩
  · exact .inl ⟨what, by rw [Attempt.bind_apply, hfrom], by rw [Attempt.bind_apply, hrun]⟩
  · obtain ⟨hout, hworld⟩ := hact names resident.interpreter ⟨s.heap, k⟩ s.ledger
    refine .inr ⟨names, q.start (within resident.interpreter) ⟨s.heap, k⟩,
      s.resettle r resident (act names resident.interpreter ⟨s.heap, k⟩ s.ledger), dest,
      by rw [Attempt.bind_apply, hfrom]; rfl, congrArg World.heap hworld, rfl, ?_⟩
    rw [Attempt.bind_apply, hrun, ← hout]

theorem eval (interpreter : String) (node : ExprId) (dest : Option String) :
    Carries (opening (.eval interpreter node dest)) (serve (.eval interpreter node dest)) s :=
  request interpreter (.eval node) id dest fun names i w l => by
    rw [Interpreter.evalCounted_fst]
    exact ⟨rfl, rfl⟩

theorem evalIn (interpreter frame : String) (node : ExprId) (dest : Option String) :
    Carries (opening (.evalIn interpreter frame node dest))
      (serve (.evalIn interpreter frame node dest)) s :=
  bind (.held _ frame) fun f =>
    request interpreter (.eval node) (fun i => { i with frame := f }) dest fun names i w l => by
      rw [Interpreter.withFrameCounted_fst (Interpreter.evalCounted_fst names node)]
      exact ⟨rfl, rfl⟩

theorem invoke (interpreter : String) (callee : Operand) (args : List Operand)
    (dest : Option String) : Carries (opening (.invoke interpreter callee args dest))
      (serve (.invoke interpreter callee args dest)) s :=
  bind (.operand callee) fun v => bind (.operands args) fun vs =>
    request interpreter (.invoke v vs) id dest fun names i w l => by
      rw [Interpreter.invokeCounted_fst]
      exact ⟨rfl, rfl⟩

/-- What comes of the run is tracked by the longer list. -/
theorem tracked {c : Command} (h : Carries (opening c) (serve c) s) (hs : s.Tracked fs) :
    (serve c s).2.Tracked (fs ++ (s.starts? c).elim [] fun p => p.2.makes p.1) := by
  rcases h with ⟨what, hstart, hrun⟩ | ⟨names, m, t, dest, hstart, hheap, hvalues, hrun⟩
  · rw [hrun, State.starts?, hstart]
    simpa only [Except.toOption, Option.elim_none, List.append_nil] using hs
  · have hgiven : m.Given fs := (Looks.opening_given hs c).2 (names, m) (by rw [hstart])
    have hend := (m.accounts names fs hgiven).2
    rw [Moment.eval_machine] at hend
    have ht : t.Tracked (fs ++ m.makes names) :=
      ⟨hheap ▸ hend.heap, fun v hv => (hs.values v (hvalues ▸ hv)).append _⟩
    rw [hrun, State.starts?, hstart]
    refine (Tracks.outcomeReply dest (fun v hv => ?_) t ht).1
    have hends := hend.ends
    generalize m.result names = r at hv hends
    cases r with
    | ok u => exact Option.some.inj hv ▸ hends
    | error u =>
      cases u with
      | ret u => exact Option.some.inj hv ▸ hends
      | error e => cases hv
      | fault f => cases hv

end Carries

/-! ## Functions that the host makes by itself -/

/-- Either no function is made and nothing happens, or one is made and stored. -/
theorem makeClosure_cases (program : String) (node : ExprId) (name : Option String)
    (frame : String) (dest : Option String) (s : State) :
    (∃ r, makeClosure program node name frame dest s = (r, s) ∧
      ∀ f, r ≠ .ok (.outcome (.value (.function f)))) ∨
    ∃ code g, makeClosure program node name frame dest s =
      outcomeReply dest (.value (.function (s.store.makeClosure code g).1))
        (s.withStore (s.store.makeClosure code g).2) := by
  rw [makeClosure]
  rcases (Looks.arena program).bind_cases _ with ⟨what, h⟩ | ⟨a, -, h⟩ <;> rw [h]
  · exact .inl ⟨_, rfl, by simp⟩
  · rcases (Looks.held State.frames frame).bind_cases _ with ⟨what, h⟩ | ⟨g, -, h⟩ <;> rw [h]
    · exact .inl ⟨_, rfl, by simp⟩
    · cases a.node? node with
      | none => exact .inl ⟨_, rfl, by simp⟩
      | some nd =>
        cases nd with
        | function d => exact .inr ⟨⟨a, d, name⟩, g, rfl⟩
        | _ => exact .inl ⟨_, rfl, by simp⟩

theorem tracked_makeClosure (hs : s.Tracked fs) (program : String) (node : ExprId)
    (name : Option String) (frame : String) (dest : Option String) :
    (makeClosure program node name frame dest s).2.Tracked
      (fs ++ s.makes (.make program node name frame dest)) := by
  rw [State.makes]
  rcases makeClosure_cases program node name frame dest s with ⟨r, hrun, hr⟩ | ⟨code, g, hrun⟩
  · rw [hrun]
    split
    · next f hf => exact absurd hf (hr f)
    · rwa [List.append_nil]
  · have hheap := hs.heap.makeClosure code g
    have hmade : (s.heap.makeClosure code g).1 ∈ fs ++ [(s.heap.makeClosure code g).1] :=
      List.mem_append_right _ (List.mem_singleton_self _)
    rw [hrun, outcomeReply_fst]
    have hs' : (s.withStore (s.store.makeClosure code g).2).Tracked
        (fs ++ [(s.heap.makeClosure code g).1]) := ⟨hheap, fun v hv => (hs.values v hv).append _⟩
    refine (Tracks.outcomeReply dest (fun v hv => ?_) _ hs').1
    obtain rfl := Option.some.inj hv
    exact .of_mem hmade

/-! ## All commands -/

/-- **After a command, what is bound and held is listed again**, with what the command has made. -/
theorem tracked_serve (hs : s.Tracked fs) (c : Command) :
    (serve c s).2.Tracked (fs ++ s.makes c) := by
  have quiet : ∀ {x : Action Reply}, Tracks fs x (fun _ => True) →
      (x s).2.Tracked (fs ++ []) := by
    intro x hx
    rw [List.append_nil]
    exact (hx s hs).1
  cases c with
  | make program node name frame dest => exact tracked_makeClosure hs program node name frame dest
  | eval interpreter node dest => exact (Carries.eval interpreter node dest).tracked hs
  | evalIn interpreter frame node dest =>
    exact (Carries.evalIn interpreter frame node dest).tracked hs
  | invoke interpreter callee args dest =>
    exact (Carries.invoke interpreter callee args dest).tracked hs
  -- No other command makes a function.
  | newInterner dest => exact quiet (.reply (.aside fun _ => ⟨rfl, rfl⟩))
  | intern tableName text dest =>
    refine quiet ((Tracks.internIn tableName text).next fun n => ?_)
    cases dest with
    | none => exact .pure trivial
    | some r => exact .reply (.aside fun _ => ⟨rfl, rfl⟩)
  | lookup tableName name =>
    exact quiet ((Tracks.table tableName).next fun ⟨_, _⟩ => (Tracks.held _ name).reply)
  | internerSize tableName => exact quiet (Tracks.table tableName).reply
  | program tableName forms dest =>
    exact quiet ((Tracks.table tableName).next fun ⟨i, _⟩ => (Tracks.setTable i _).next fun _ =>
      .reply (.aside fun _ => ⟨rfl, rfl⟩))
  | dump program => exact quiet (Tracks.arena program).reply
  | sameProgram a b => exact quiet ((Tracks.held _ a).next fun _ => (Tracks.held _ b).reply)
  | value v dest =>
    exact quiet ((Tracks.operand v).bind fun _ hv => (Tracks.retain _).next fun _ =>
      .outcomeReply dest fun _ hu => Option.some.inj hu ▸ hv)
  | inspect value => exact quiet (Tracks.held _ value).reply
  | equal a b => exact quiet ((Tracks.held _ a).next fun _ => (Tracks.held _ b).reply)
  | root dest => exact quiet ((Tracks.newFrame none).next fun f => (Tracks.putFrame dest f).reply)
  | child frame dest =>
    exact quiet ((Tracks.held _ frame).next fun _ => (Tracks.newFrame _).next fun f =>
      (Tracks.putFrame dest f).reply)
  | «alias» frame dest =>
    exact quiet ((Tracks.held _ frame).next fun f => (Tracks.retain _).next fun _ =>
      (Tracks.putFrame dest f).reply)
  | parent frame dest =>
    refine quiet ((Tracks.held _ frame).next fun f => (Tracks.readHeap).next fun h => ?_)
    cases h.parent? f with
    | none => exact .pure trivial
    | some p => exact (Tracks.retain _).next fun _ => (Tracks.putFrame dest p).reply
  | captured value dest =>
    refine quiet ((Tracks.held _ value).next fun v => ?_)
    cases v.captured? with
    | none => exact .pure trivial
    | some f => exact (Tracks.retain _).next fun _ => (Tracks.putFrame dest f).reply
  | define tableName frame name o =>
    exact quiet (.onVariable fun n f v hv => (Tracks.retain _).next fun _ =>
      (Tracks.onStore (.define f n v) fun h hh => hh.define f n hv).reply)
  | set tableName frame name o =>
    exact quiet (.onVariable fun n f v hv => (Tracks.retain _).next fun _ =>
      (Tracks.onStore (.set f n v) fun h hh => hh.set f n hv).reply)
  | get tableName frame name dest =>
    refine quiet ((Tracks.internIn tableName name).next fun n => (Tracks.held _ frame).next fun f =>
      (Tracks.getVar f n).bind fun r hr => ?_)
    cases r with
    | error e => exact .pure trivial
    | ok v => exact .outcomeReply dest fun _ hu => Option.some.inj hu ▸ hr v rfl
  | update tableName frame name op o =>
    refine quiet (.onVariable fun n f v _ => (Tracks.onStore (.update f n _) fun h hh =>
      hh.update f n fun _ _ ha => .apply ha).next fun r => ?_)
    rcases r with _ | _ | _ <;> exact .pure trivial
  | contains tableName frame name =>
    exact quiet ((Tracks.internIn tableName name).next fun _ => (Tracks.held _ frame).next fun _ =>
      (Tracks.read _).reply)
  | frame frame => exact quiet ((Tracks.held _ frame).next fun _ => (Tracks.read _).reply)
  | count frame => exact quiet ((Tracks.held _ frame).next fun _ => Tracks.read _)
  | sameFrame a b => exact quiet ((Tracks.held _ a).next fun _ => (Tracks.held _ b).reply)
  | weaken frame dest =>
    exact quiet ((Tracks.held _ frame).next fun _ => .reply (.aside fun _ => ⟨rfl, rfl⟩))
  | dropped weak => exact quiet ((Tracks.held _ weak).next fun _ => Tracks.read _)
  | upgrade weak dest =>
    refine quiet ((Tracks.held _ weak).next fun f => (Tracks.read _).next fun alive => ?_)
    cases alive with
    | false => exact .pure trivial
    | true => exact (Tracks.retain _).next fun _ => (Tracks.putFrame dest f).reply
  | dropFrame r => exact quiet ((Tracks.read _).next fun _ => (Tracks.dropFrame r).reply)
  | dropValue r => exact quiet ((Tracks.read _).next fun _ => (Tracks.dropValue r).reply)
  | dropInterpreter r =>
    exact quiet ((Tracks.read _).next fun _ => (Tracks.dropResident r).reply)
  | bind tableName value args dest =>
    refine quiet ((Tracks.activate tableName value args).next fun r => ?_)
    rcases r with _ | _ | f
    · exact .pure trivial
    · exact .pure trivial
    · exact (Tracks.putFrame dest f).reply
  | probe tableName value args dest =>
    refine quiet ((Tracks.activate tableName value args).next fun r => ?_)
    rcases r with _ | _ | f
    · exact .pure trivial
    · exact .pure trivial
    · exact (Tracks.putFrame dest f).next fun _ => (Tracks.read _).reply
  | handler k dest =>
    exact quiet ((Tracks.newSink k).next fun _ => .reply (.aside fun _ => ⟨rfl, rfl⟩))
  | println handler text =>
    exact quiet ((Tracks.held _ handler).next fun i => (Tracks.sink i).next fun _ =>
      (Tracks.setSink i _).reply)
  | output handler => exact quiet ((Tracks.held _ handler).next fun i => (Tracks.sink i).reply)
  | clear handler =>
    exact quiet ((Tracks.held _ handler).next fun i => (Tracks.sink i).next fun _ =>
      (Tracks.setSink i _).reply)
  | interpreter tableName program globalFrame maxDepth handler dest =>
    exact quiet (.newInterpreter tableName program globalFrame maxDepth handler dest)
  | state interpreter =>
    exact quiet ((Tracks.held _ interpreter).next fun _ => (Tracks.read _).next fun _ =>
      Tracks.requireAny.next fun _ => (Tracks.sink _).next fun _ => (Tracks.read _).reply)
  | globalFrame interpreter dest =>
    exact quiet ((Tracks.held _ interpreter).next fun _ => (Tracks.retain _).next fun _ =>
      (Tracks.putFrame dest _).reply)
  | stack maxDepth dest => exact quiet (.reply (.aside fun _ => ⟨rfl, rfl⟩))
  | push stack name =>
    refine quiet ((Tracks.held _ stack).next fun k => ?_)
    rcases CallStack.push ⟨name⟩ k with ⟨_ | _, k'⟩
    · exact .pure trivial
    · exact .reply (.aside fun _ => ⟨rfl, rfl⟩)
  | pop stack =>
    exact quiet ((Tracks.held _ stack).next fun _ => .reply (.aside fun _ => ⟨rfl, rfl⟩))
  | capture stack => exact quiet (Tracks.held _ stack).reply
  | error e dest => exact quiet (.reply (.aside fun _ => ⟨rfl, rfl⟩))
  | attach stack error dest =>
    refine quiet ((Tracks.held _ stack).next fun _ => (Tracks.held _ error).next fun _ => ?_)
    cases dest with
    | none => exact .pure trivial
    | some r => exact .reply (.aside fun _ => ⟨rfl, rfl⟩)

end Action

/-! ## Runs of a host -/

namespace State

theorem tracked_start : start.Tracked [] :=
  ⟨.empty, fun _ hv => absurd hv List.not_mem_nil⟩

theorem Tracked.step (hs : s.Tracked fs) (c : Command) :
    (s.step c).2.Tracked (fs ++ s.makes c) := by
  rw [step_snd]
  exact Action.tracked_serve hs c

/-- **A host binds and holds none but the functions that have been made.** -/
theorem Tracked.run (hs : s.Tracked fs) (cs : List Command) :
    (s.run cs).Tracked (fs ++ s.made cs) := by
  induction cs generalizing s fs with
  | nil => rwa [made, List.append_nil]
  | cons c cs ih =>
    rw [made, ← List.append_assoc]
    exact ih (hs.step c)

/-- The run that a command starts is what looking for it yields. -/
theorem opening_eq {c : Command} {names : Interner} {m : Moment}
    (h : s.starts? c = some (names, m)) : (Action.opening c s).1 = .ok (names, m) := by
  unfold starts? at h
  cases hrun : (Action.opening c s).1 with
  | error what => simp [hrun, Except.toOption] at h
  | ok p => simpa [hrun, Except.toOption] using h

/-- What a run starts with is tracked. -/
theorem Tracked.given (hs : s.Tracked fs) {c : Command} {names : Interner} {m : Moment}
    (h : s.starts? c = some (names, m)) : m.Given fs :=
  (Action.Looks.opening_given hs c).2 (names, m) (opening_eq h)

/-- What a run makes is what its command makes. -/
theorem makes_eq {c : Command} {names : Interner} {m : Moment}
    (h : s.starts? c = some (names, m)) : s.makes c = m.makes names := by
  unfold makes
  split
  · cases h
  · rw [h, Option.elim_some]

theorem Balanced.satisfies (hs : s.Balanced) {c : Command} {names : Interner} {m : Moment}
    (h : s.starts? c = some (names, m)) :
    m.Satisfies validInvariant (m.world.heap.size, m.world.heap.stamps) :=
  (Action.Looks.opening_satisfies hs c).2 (names, m) (opening_eq h)

end State
end ClosureLang.Host
