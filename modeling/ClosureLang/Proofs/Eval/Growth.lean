import ClosureLang.Proofs.BoundNames
import ClosureLang.Proofs.Eval.Moments

/-!
# Frames stay where they are

Evaluation adds frames, and names to frames, and takes neither away. Each primitive does so, and
hence every piece of evaluation (`Eval.Grows`), whatever way it ends.

Between the moments of a run there are two such facts. What begins in the course of a moment begins
in a heap that the heap at that moment has grown to (`During.grown`). And what it leaves behind when
it ends has at most grown further when the whole of the moment has ended (`During.grown_end`): the
frames that a part of a run has made are there after the run.
-/

namespace ClosureLang

/-- As far as frames and the frames around them go, a heap has grown into another. -/
abbrev Heap.GrownTo (h h' : Heap) : Prop := KeepsNames h (fun _ => True) h'

namespace Heap.GrownTo

variable {h h' h'' : Heap}

theorem refl (h : Heap) : h.GrownTo h := KeepsNames.refl h _

theorem trans (hg : h.GrownTo h') (hg' : h'.GrownTo h'') : h.GrownTo h'' where
  size_le := Nat.le_trans hg.size_le hg'.size_le
  parent f hf := (hg'.parent f (Nat.lt_of_lt_of_le hf hg.size_le)).trans (hg.parent f hf)
  kept f n hb := hg'.kept f n (hg.kept f n hb)
  closed _ _ hfree := absurd trivial hfree

theorem chain_eq (hg : h.GrownTo h') (hn : h.Nested) {f : FrameId} (hf : f < h.size) :
    h'.chain f = h.chain f :=
  Heap.chain_congr hn hg.size_le hg.parent hf

theorem bind (h : Heap) (f : FrameId) (n : Name) (v : Value) : h.GrownTo (h.bind f n v) :=
  KeepsNames.bind (refl h) (.inl trivial)

theorem overwrite (h : Heap) (f : FrameId) (n : Name) (v : Value) :
    h.GrownTo (h.overwrite f n v) :=
  KeepsNames.overwrite (refl h)

theorem newChild (h : Heap) (f : FrameId) : h.GrownTo (h.child f).2 :=
  KeepsNames.newFrame (refl h) (some f)

/-- A frame was created inside `f`, and then others may have been. -/
theorem child {f : FrameId} (hg : (h.child f).2.GrownTo h') :
    h.size < h'.size ∧ h'.parent? h.size = some f := by
  have hlt : h.size < (h.child f).2.size := by
    rw [Heap.child, Heap.size_newFrame]
    exact Nat.lt_succ_self _
  refine ⟨Nat.lt_of_lt_of_le hlt hg.size_le, ?_⟩
  rw [hg.parent _ hlt, Heap.child, Heap.parent?_newFrame, if_pos rfl]

end Heap.GrownTo

open Heap (GrownTo)

/-! ## Pieces of evaluation -/

/-- Whatever way the piece ends, the heap has grown. -/
def Eval.Grows {α : Type} (x : Eval α) : Prop := ∀ m : Machine, m.heap.GrownTo (x m).2.heap

theorem Eval.heap_withBacktrace {α : Type} (x : Eval α) (m : Machine) :
    (withBacktrace x m).2.heap = (x m).2.heap := by
  unfold withBacktrace
  split
  · next h => rw [h]
  · rfl

theorem Eval.heap_thenEndCall {α : Type} (x : Eval α) (m : Machine) :
    (thenEndCall x m).2.heap = (x m).2.heap := by
  have hend : (endCall (x m).2).2.heap = (x m).2.heap := by
    unfold endCall
    split <;> rfl
  unfold thenEndCall
  dsimp only
  split
  · next h => rwa [h] at hend
  · next h => rwa [h] at hend

namespace Eval.Grows

variable {α β : Type} {x : Eval α} {names : Interner} {c : Context} {w w' : World}

theorem of_run (hx : x.Grows) {r : Except Unwind α} (h : x (c.machine w) = (r, c.machine w')) :
    w.heap.GrownTo w'.heap := by
  have hg := hx (c.machine w)
  rwa [h] at hg

/-- What comes after `x` starts from the heap that `x` leaves. -/
theorem bind_end {g : α → Eval β} (hg : ∀ a, (g a).Grows) (x : Eval α) (m : Machine) :
    (x m).2.heap.GrownTo ((x >>= g) m).2.heap := by
  rw [Attempt.bind_apply]
  cases x m with
  | mk r m' =>
    cases r with
    | ok a => exact hg a m'
    | error u => exact .refl _

theorem bind {g : α → Eval β} (hx : x.Grows) (hg : ∀ a, (g a).Grows) : (x >>= g).Grows :=
  fun m => (hx m).trans (bind_end hg x m)

theorem inFrame (hx : x.Grows) (f : FrameId) : (inFrame f x).Grows :=
  fun m => hx { m with frame := f }

theorem inScope (hx : x.Grows) (f : FrameId) (a : Arena) : (inScope f a x).Grows :=
  fun m => hx { m with frame := f, arena := a }

theorem settle {x : Eval Value} (hx : x.Grows) : (settle x).Grows := by
  intro m
  have hg := hx m
  unfold Eval.settle
  split
  · next h => rwa [h] at hg
  · exact hg

/-- What is done before and after the body of a call leaves the heap alone. -/
theorem duringCall (hx : x.Grows) (n : CallFrame) : (duringCall n x).Grows := by
  have hbegin : (beginCall n).Grows := by
    intro m
    unfold beginCall
    dsimp only
    split <;> exact .refl _
  refine hbegin.bind fun _ m => ?_
  rw [heap_thenEndCall, heap_withBacktrace]
  exact hx m

theorem machine (h : ∀ (c : Context) (w : World), w.heap.GrownTo (x (c.machine w)).2.heap) :
    x.Grows :=
  fun m => h ⟨m.arena, m.frame, m.stack⟩ ⟨m.heap, m.sink⟩

theorem pure (a : α) : (Pure.pure a : Eval α).Grows := fun _ => .refl _

theorem fail (u : Unwind) : Grows (.fail u : Eval α) := fun _ => .refl _

theorem newChild (f : FrameId) : (newChild f).Grows := fun _ => .newChild _ f

theorem defineVar (n : Name) (v : Value) : (defineVar names n v).Grows := by
  refine .machine fun c w => ?_
  rw [defineVar_machine]
  split
  · exact .refl _
  · exact .bind _ _ _ _

theorem defineAll (ns : List Name) (vs : List Value) : (defineAll names ns vs).Grows := by
  induction ns generalizing vs with
  | nil => exact pure ()
  | cons n ns ih =>
    cases vs with
    | nil => exact pure ()
    | cons v vs => exact (defineVar n v).bind fun _ => ih vs

theorem activate (d : Closure) (vs : List Value) : (activate names d vs).Grows := by
  rw [activate_eq]
  cases d.code.params? with
  | none => exact fail _
  | some ps =>
    dsimp only
    split
    · exact (newChild d.frame).bind fun g => ((defineAll ps vs).inFrame g).bind fun _ => pure g
    · exact fail _

theorem primitive (hx : x.Primitive names) : x.Grows := by
  refine .machine fun c w => ?_
  cases hx with
  | pure | fail | current | printLine => exact .refl _
  | newChild f => exact newChild f (c.machine w)
  | defineVar n v => exact defineVar n v (c.machine w)
  | activate d vs => exact activate d vs (c.machine w)
  | makeFunction d => exact ⟨Nat.le_refl _, fun _ _ => rfl, fun _ _ hb => hb, fun _ _ _ _ => rfl⟩
  | node i =>
    rw [node_machine]
    split <;> exact .refl _
  | list s =>
    rw [list_machine]
    split <;> exact .refl _
  | getVar n =>
    rw [getVar_machine]
    split <;> exact .refl _
  | setVar n v =>
    rw [setVar_machine]
    split
    · exact .overwrite _ _ _ _
    · exact .refl _
  | updateVar op n v =>
    rw [updateVar_machine]
    split
    · split
      · exact .overwrite _ _ _ _
      · exact .refl _
    · exact .refl _

theorem compositional (names : Interner) :
    Compositional names fun _ {α} (X : Unit → Eval α) => (X ()).Grows where
  primitive hx := .primitive hx
  bind h hF := h.bind hF
  inFrame f h := h.inFrame f
  inScope f a h := h.inScope f a
  settle h := h.settle
  duringCall n h := h.duringCall n

variable {call : Value → List Value → Eval Value} {ev : ExprId → Eval Value}

theorem runBody (hcall : ∀ v vs, (call v vs).Grows) (body : ExprId) :
    (runBody names call body).Grows :=
  @Compositional.runBody _ names _ (.new 0) (fun _ => call) (compositional names) hcall body

theorem evalExpr (hcall : ∀ v vs, (call v vs).Grows) (l : Nat) (i : ExprId) :
    (evalExpr names call l i).Grows :=
  @Compositional.evalExpr _ names _ (.new 0) (fun _ => call) (compositional names) hcall l i

theorem evalArgs (hev : ∀ i, (ev i).Grows) (ids : List ExprId) : (evalArgs ev ids).Grows :=
  @Compositional.evalArgs _ .empty _ (.new 0) (fun _ => ev) (compositional _) hev ids

theorem conclude (hcall : ∀ v vs, (call v vs).Grows) (hev : ∀ i, (ev i).Grows) (n : Node)
    (vs : List Value) : (conclude names call ev n vs).Grows :=
  @Compositional.conclude _ names _ (.new 0) (fun _ => ev) (fun _ => call) (compositional names)
    hcall hev n vs

theorem callValue (q : Nat) (v : Value) (vs : List Value) : (callValue names q v vs).Grows :=
  (compositional names).callValue (k := .new 0) q v vs

/-- What one of the expressions of a list leaves, the whole list leaves. -/
theorem evalArgs_end (hev : ∀ i, (ev i).Grows) (hret : ∀ i, (ev i).Returns) {done : List ExprId}
    {i : ExprId} {vs : List Value} (rest : List ExprId)
    (hdone : Eval.evalArgs ev done (c.machine w) = (.ok vs, c.machine w')) :
    (ev i (c.machine w')).2.heap.GrownTo
      (Eval.evalArgs ev (done ++ i :: rest) (c.machine w)).2.heap := by
  induction done generalizing w vs with
  | nil =>
    obtain ⟨-, rfl⟩ := evalArgs_nil.mp hdone
    exact bind_end (fun v => (evalArgs hev rest).bind fun vs => pure (v :: vs)) _ _
  | cons j done ih =>
    obtain ⟨v, us, w₁, -, hj, hrest⟩ := (evalArgs_cons_iff hret).mp hdone
    rw [List.cons_append, evalArgs_cons_ok hj]
    exact (ih hrest).trans (bind_end (fun us => pure (v :: us)) _ _)

end Eval.Grows

/-! ## Moments -/

variable {names : Interner} {m n : Moment} {calls : List String} {q l : Nat} {c : Context}
  {w w' : World} {ids : List ExprId} {vs : List Value}

theorem Eval.grows_evalExpr (names : Interner) (q l : Nat) (i : ExprId) :
    (evalExpr names (callValue names q) l i).Grows :=
  .evalExpr (.callValue q) l i

theorem Eval.evalArgs_grown
    (h : evalArgs (evalExpr names (callValue names q) l) ids (c.machine w) =
      (.ok vs, c.machine w')) : w.heap.GrownTo w'.heap :=
  (Grows.evalArgs (grows_evalExpr names q l) ids).of_run h

/-- From when a moment begins to when it ends. -/
theorem Moment.grown (names : Interner) (m : Moment) :
    m.world.heap.GrownTo (m.eval names (m.context.machine m.world)).2.heap := by
  have hgrows : (m.eval names).Grows := by
    unfold eval
    cases m.task with
    | expr l i => exact Eval.grows_evalExpr names m.room l i
    | call v vs => exact .callValue m.room v vs
    | body i => exact .runBody (.callValue m.room) i
  exact hgrows (m.context.machine m.world)

/-- **From when a moment begins to when a part of it begins.** -/
theorem Begins.grown (h : Begins names m calls n) : m.world.heap.GrownTo n.world.heap := by
  cases h with
  | operand hn hids hdone => exact Eval.evalArgs_grown hdone
  | branch hn hcond hj => exact Eval.Grows.of_run (Eval.grows_evalExpr names _ _ _) hcond
  | statement hn hids hdone => exact (GrownTo.newChild _ _).trans (Eval.evalArgs_grown hdone)
  | call hn hids hdone => exact Eval.evalArgs_grown hdone
  | body hact hroom => exact (Eval.Grows.activate _ _).of_run hact
  | inBody hids hdone => exact Eval.evalArgs_grown hdone

/-- **From when a part of a moment ends to when the moment ends.** -/
theorem Begins.grown_end (h : Begins names m calls n) :
    (n.eval names (n.context.machine n.world)).2.heap.GrownTo
      (m.eval names (m.context.machine m.world)).2.heap := by
  have hgrows := Eval.grows_evalExpr names
  have hret := Moment.returns_evalExpr names
  cases h with
  | @operand q l id c w w' nd done rest i vs hn hids hdone =>
    show GrownTo _ (Moment.eval names ⟨q, .expr (l + 1) id, c, w⟩ (c.machine w)).2.heap
    rw [Moment.eval_expr hn, hids]
    exact (Eval.Grows.evalArgs_end (hgrows q l) (hret q l) rest hdone).trans
      (Eval.Grows.bind_end (.conclude (.callValue q) (hgrows q l) nd) _ _)
  | @branch q l id c w w' cond i j e v hn hcond hj =>
    show GrownTo _ (Moment.eval names ⟨q, .expr (l + 1) id, c, w⟩ (c.machine w)).2.heap
    rw [Moment.eval_expr hn, Node.operands, Eval.bind_ok (Eval.evalArgs_singleton.mpr hcond),
      Eval.conclude_ifElse hj]
    exact .refl _
  | @statement q l id c w w' s done rest i vs hn hids hdone =>
    show GrownTo _ (Eval.evalExpr names (Eval.callValue names q) (l + 1) id (c.machine w)).2.heap
    rw [Eval.evalExpr_block l hn hids, Eval.runStmts_eq]
    exact (Eval.Grows.evalArgs_end (hgrows q l) (hret q l) rest hdone).trans
      (Eval.Grows.bind_end (fun _ => .pure _) _ _)
  | @call q l id c w w' f s ids v vs hn hids hdone =>
    show GrownTo _ (Moment.eval names ⟨q, .expr (l + 1) id, c, w⟩ (c.machine w)).2.heap
    rw [Moment.eval_expr hn, Node.operands_call hids, Eval.bind_ok hdone, Eval.conclude_call hids]
    exact .refl _
  | @body q f vs c w w' g hact hroom =>
    obtain ⟨r, w₂, -, hbody, -⟩ := Moment.returns names
      ⟨q, .body f.code.body, ⟨f.code.arena, g, c.stack.enter ⟨f.name⟩⟩, w'⟩
      ⟨f.code.arena, g, c.stack.enter ⟨f.name⟩⟩ w'
    rw [hbody]
    show GrownTo _ (Eval.callValue names (q + 1) (.function f) vs (c.machine w)).2.heap
    rw [Eval.callValue_machine hroom hact hbody]
    exact .refl _
  | @inBody q b l c w w' done rest i vs hids hdone =>
    show GrownTo _ (Eval.runBody names (Eval.callValue names q) b (c.machine w)).2.heap
    rw [Eval.runBody_statements hids]
    exact (Eval.Grows.evalArgs_end (hgrows q l) (hret q l) rest hdone).trans
      (Eval.Grows.bind_end (fun _ => .pure _) _ _)

theorem During.grown (h : During names m calls n) : m.world.heap.GrownTo n.world.heap := by
  induction h with
  | here => exact .refl _
  | later h _ ih => exact h.grown.trans ih

/-- **What is left behind at any depth of a run is there after the run.** -/
theorem During.grown_end (h : During names m calls n) :
    (n.eval names (n.context.machine n.world)).2.heap.GrownTo
      (m.eval names (m.context.machine m.world)).2.heap := by
  induction h with
  | here => exact .refl _
  | later h _ ih => exact ih.trans h.grown_end

end ClosureLang
