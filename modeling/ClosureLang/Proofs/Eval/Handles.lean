import ClosureLang.Eval.Counted
import ClosureLang.Proofs.Eval.Steps
import ClosureLang.Proofs.Store

/-!
# Evaluation accounts for its handles

A piece of evaluation is given handles, uses them up, and gives out those that come with the value
that it ends with, or that `return` is taking along. Whatever else is held, the current scope among
it, is held by the same holders afterwards (`Counted.Moves`). There is one rule for each way of
putting pieces together. Two of them carry the argument: what is held during `x` is let go of
however `x` is left, and what would be handed on after `x` is let go of where `x` fails.

By these rules every expression takes no handle and gives out the one of its value, and every call
takes those of its arguments (`Moves.evalExpr`, `Moves.callValue`).
-/

namespace ClosureLang

/-- No operator yields a function. -/
theorem Value.handles_apply {op : BinaryOp} {l r v : Value} (h : op.apply l r = .ok v) :
    v.handles = [] := by
  unfold BinaryOp.apply at h
  split at h <;> (try split at h) <;> cases h <;> try rfl
  unfold BinaryOp.onNumbers
  split <;> rfl

/-- The handle that is taken along when an expression is left early. -/
def Unwind.handles : Unwind → List FrameId
  | .ret v => v.handles
  | .error _ | .fault _ => []

namespace Counted

variable {α β : Type} {names : Interner} {x : Counted α} {y : Eval α}
  {given kept fs : List FrameId} {after : α → List FrameId} {f : FrameId}

/-- The handles that come with the way in which a piece of evaluation ends. -/
def handed (after : α → List FrameId) : Except Unwind α → List FrameId
  | .ok a => after a
  | .error u => u.handles

/-- **What a piece of evaluation does with handles.** It takes those `given`, and gives out those
that come with its result, where somebody else holds the current scope and those `kept`. -/
def Moves (kept given : List FrameId) (x : Counted α) (after : α → List FrameId) : Prop :=
  ∀ (c : Context) (w : World) (l : Ledger) (held : List FrameId), c.frame ∈ held → kept ⊆ held →
    Store.Balanced ⟨w.heap, l⟩ (given ++ held) →
    ∃ r w' l', x ⟨c.machine w, l⟩ = (r, ⟨c.machine w', l'⟩) ∧
      Store.Later ⟨w.heap, l⟩ (handed after r ++ held) ⟨w'.heap, l'⟩

namespace Moves

/-! ## Putting pieces together -/

/-- A piece of evaluation that leaves the frames alone, and ends with the handles that it was
given. -/
theorem lift (hy : ∀ c w, ∃ r w', y (Context.machine c w) = (r, c.machine w') ∧
    w'.heap = w.heap ∧ handed after r = given) : Moves kept given (lift y) after := by
  intro c w l held _ _ hs
  obtain ⟨r, w', hrun, hheap, hr⟩ := hy c w
  refine ⟨r, w', l, by rw [Counted.lift, hrun], ?_⟩
  rw [hr, hheap]
  exact hs.later

theorem pure (a : α) (h : after a = given) : Moves kept given (pure a) after :=
  lift (y := Pure.pure a) fun _ w => ⟨.ok a, w, rfl, rfl, h⟩

theorem fail (u : Unwind) (h : u.handles = given) :
    Moves kept given (Counted.lift (.fail u)) after :=
  lift fun _ w => ⟨.error u, w, rfl, rfl, h⟩

theorem bind {g : α → Counted β} {after' : β → List FrameId} (hx : Moves kept given x after)
    (hg : ∀ a, Moves kept (after a) (g a) after') : Moves kept given (x >>= g) after' := by
  intro c w l held hf hk hs
  obtain ⟨r, w', l', hrun, hlater⟩ := hx c w l held hf hk hs
  rw [Attempt.bind_apply, hrun]
  cases r with
  | error u => exact ⟨.error u, w', l', rfl, hlater⟩
  | ok a =>
    obtain ⟨r, w'', l'', hrun', hlater'⟩ := hg a c w' l' held hf hk hlater.balanced
    exact ⟨r, w'', l'', hrun', hlater.trans hlater'⟩

/-- The current scope may be asked for, and is held. -/
theorem withCurrent {g : FrameId → Counted α} (hg : ∀ f, Moves (f :: kept) given (g f) after) :
    Moves kept given (Counted.lift Eval.current >>= g) after :=
  fun c w l held hf hk hs => hg c.frame c w l held hf (List.cons_subset.mpr ⟨hf, hk⟩) hs

theorem onStore {op : Attempt Store EvalError α}
    (hop : ∀ s held, kept ⊆ held → Store.Balanced s (given ++ held) →
      s.Later ((op s).1.toOption.elim [] after ++ held) (op s).2) :
    Moves kept given (onStore op) after := by
  intro c w l held _ hk hs
  have hlater := hop ⟨w.heap, l⟩ held hk hs
  simp only [Counted.onStore, Context.machine]
  rcases hrun : op ⟨w.heap, l⟩ with ⟨e | a, t⟩ <;> rw [hrun] at hlater
  · exact ⟨.error (.error e), ⟨t.heap, w.sink⟩, t.ledger, rfl, hlater⟩
  · exact ⟨.ok a, ⟨t.heap, w.sink⟩, t.ledger, rfl, hlater⟩

/-- Letting go of handles that one holds. -/
theorem release : Moves kept fs (.modify (letGo fs)) fun _ => [] :=
  fun _ w l _ _ _ hs => ⟨.ok (), w, l.release w.heap fs, rfl, hs.release fs⟩

/-- **Handles that are held during `x`** are there for it, and are let go of after it. -/
theorem holding (hx : Moves (fs ++ kept) [] x after) : Moves kept fs (holding fs x) after := by
  intro c w l held hf hk hs
  have hk' : fs ++ kept ⊆ fs ++ held :=
    List.append_subset.mpr ⟨List.subset_append_left .., fun _ h => List.mem_append_right _ (hk h)⟩
  obtain ⟨r, w', l', hrun, hlater⟩ := hx c w l (fs ++ held) (List.mem_append_right _ hf) hk' hs
  have hlater := hlater.perm (List.perm_append_comm_assoc ..)
  refine ⟨r, w', l'.release w'.heap fs, ?_, hlater.trans (hlater.balanced.release fs)⟩
  rw [Counted.holding, Attempt.ensuring, hrun]
  rfl

/-- **Handles that would be handed on after `x`** are let go of if it fails. -/
theorem orLetGo (hx : Moves kept [] x after) :
    Moves kept fs (orLetGo fs x) fun a => fs ++ after a := by
  intro c w l held hf hk hs
  obtain ⟨r, w', l', hrun, hlater⟩ := hx c w l (fs ++ held) (List.mem_append_right _ hf)
    (fun _ h => List.mem_append_right _ (hk h)) hs
  have hlater := hlater.perm (List.perm_append_comm_assoc ..)
  rw [Counted.orLetGo, Attempt.onFailure, hrun]
  cases r with
  | error u =>
    exact ⟨.error u, w', l'.release w'.heap fs, rfl, hlater.trans (hlater.balanced.release fs)⟩
  | ok a =>
    refine ⟨.ok a, w', l', rfl, ?_⟩
    rwa [handed, List.append_assoc]

/-- Who refuses handles lets go of them. -/
theorem refuse (u : Unwind) (h : u.handles = []) :
    Moves kept fs (Counted.orLetGo fs (Counted.lift (.fail u))) after := by
  intro c w l held _ _ hs
  refine ⟨.error u, w, l.release w.heap fs, rfl, ?_⟩
  rw [handed, h]
  exact hs.release fs

/-! ## Reading the current program, and output -/

theorem arena : Moves kept [] (Counted.lift (.read Machine.arena)) fun _ => [] :=
  lift fun c w => ⟨.ok c.arena, w, rfl, rfl, rfl⟩

theorem node (i : ExprId) : Moves kept [] (Counted.lift (Eval.node i)) fun _ => [] :=
  lift fun c w => by
    rw [Eval.node_machine]
    cases c.arena.node? i <;> exact ⟨_, w, rfl, rfl, rfl⟩

theorem list (s : Span) : Moves kept [] (Counted.lift (Eval.list s)) fun _ => [] :=
  lift fun c w => by
    rw [Eval.list_machine]
    cases c.arena.list? s <;> exact ⟨_, w, rfl, rfl, rfl⟩

theorem printLine (vs : List Value) :
    Moves kept [] (Counted.lift (Eval.printLine vs)) fun _ => [] :=
  lift fun _ _ => ⟨_, _, Eval.printLine_machine vs, rfl, rfl⟩

/-! ## Switches -/

theorem inFrame (hx : Moves kept given x after) (hf : f ∈ kept) :
    Moves kept given (inFrame f x) after := by
  intro c w l held _ hk hs
  obtain ⟨r, w', l', hrun, hlater⟩ := hx (c.inFrame f) w l held (hk hf) hk hs
  have hrun' : x ⟨{ c.machine w with frame := f }, l⟩ = (r, ⟨(c.inFrame f).machine w', l'⟩) := hrun
  exact ⟨r, w', l', by rw [Counted.inFrame, hrun']; rfl, hlater⟩

theorem inScope (hx : Moves kept given x after) (hf : f ∈ kept) (a : Arena) :
    Moves kept given (inScope f a x) after := by
  intro c w l held _ hk hs
  obtain ⟨r, w', l', hrun, hlater⟩ := hx ⟨a, f, c.stack⟩ w l held (hk hf) hk hs
  have hrun' : x ⟨{ c.machine w with frame := f, arena := a }, l⟩ =
      (r, ⟨Context.machine ⟨a, f, c.stack⟩ w', l'⟩) := hrun
  exact ⟨r, w', l', by rw [Counted.inScope, hrun']; rfl, hlater⟩

theorem settle {x : Counted Value} (hx : Moves kept given x Value.handles) :
    Moves kept given (settle x) Value.handles := by
  intro c w l held hf hk hs
  obtain ⟨r, w', l', hrun, hlater⟩ := hx c w l held hf hk hs
  refine ⟨Eval.settled r, w', l', ?_, ?_⟩
  · rw [Counted.settle, Counted.followedBy, hrun]
    simp only [Eval.settle_machine (x := fun m => (r, m)) rfl]
  · rcases r with u | v
    · cases u <;> exact hlater
    · exact hlater

/-- A call that is refused, and one that is carried out. -/
theorem duringCall (hx : Moves kept [] x after) (n : CallFrame) :
    Moves kept [] (duringCall n x) after := by
  intro c w l held hf hk hs
  rw [Counted.duringCall, Attempt.bind_apply, Counted.lift]
  by_cases hroom : c.stack.depth < c.stack.maxDepth
  · obtain ⟨r, w', l', hrun, hlater⟩ := hx ⟨c.arena, c.frame, c.stack.enter n⟩ w l held hf hk hs
    rw [Eval.beginCall_machine hroom]
    refine ⟨Eval.leaving (c.stack.enter n) r, w', l', ?_, ?_⟩
    · simp only [Counted.followedBy, hrun, Eval.thenEndCall_machine]
    · rcases r with u | a
      · cases u <;> exact hlater
      · exact hlater
  · rw [Eval.beginCall_full (Nat.le_of_not_lt hroom)]
    exact ⟨_, w, l, rfl, hs.later⟩

/-! ## Variables, frames and functions -/

theorem getVar (n : Name) : Moves kept [] (getVar names n) Value.handles := by
  refine withCurrent fun f => onStore fun s held hk hs => ?_
  have hlater := Store.get_later hs (hs.exact.isAlive_of_mem (hk List.mem_cons_self)) n
  simp only [Attempt.mapError, Store.get] at hlater ⊢
  cases hget : s.heap.get f n <;> rw [hget] at hlater <;> exact hlater

/-- An operation on the variables of a scope that yields no handle. -/
theorem onVariable {ε : Type} {op : Attempt Store ε α} (e : ε → EvalError)
    (hop : ∀ s held, Store.Balanced s (given ++ held) → s.ledger.isAlive f = true →
      s.Later held (op s).2) :
    Moves (f :: kept) given (Counted.onStore (op.mapError e)) fun _ => [] := by
  refine onStore fun s held hk hs => ?_
  have hf := hs.exact.isAlive_of_mem (List.mem_append_right _ (hk List.mem_cons_self))
  have hlater := hop s held hs hf
  rw [Attempt.mapError]
  rcases hrun : op s with ⟨_ | _, t⟩ <;> rw [hrun] at hlater <;> exact hlater

theorem defineVar (n : Name) (v : Value) :
    Moves kept v.handles (defineVar names n v) fun _ => [] :=
  withCurrent fun _ => onVariable _ fun _ _ hs hf => Store.define_later hs hf n

theorem setVar (n : Name) (v : Value) : Moves kept v.handles (setVar names n v) fun _ => [] :=
  withCurrent fun _ => onVariable _ fun _ _ hs hf => Store.set_later hs hf n

theorem updateVar (op : BinaryOp) (n : Name) (v : Value) :
    Moves kept [] (updateVar names op n v) fun _ => [] := by
  refine withCurrent fun f => (onVariable _ fun s held hs hf => ?_).bind fun r => ?_
  · exact Store.update_later hs hf n fun _ _ h => Value.handles_apply h
  · cases r with
    | ok u => exact pure () rfl
    | error e => exact fail (.error e) rfl

theorem newChild : Moves (f :: kept) [] (newChild f) fun g => [g] :=
  onStore fun _ _ hk hs =>
    Store.newFrame_later hs fun _ hg =>
      Option.some.inj hg ▸ hs.exact.isAlive_of_mem (hk List.mem_cons_self)

theorem makeFunction (d : FunctionDef) : Moves kept [] (makeFunction names d) Value.handles := by
  refine withCurrent fun f => arena.bind fun a => ?_
  let code : FunctionCode := ⟨a, d, d.name.map names.lookup⟩
  have hmake : Moves (f :: kept) [] (Counted.onStore (.act (Store.makeClosure code f)))
      fun c : Closure => [c.frame] :=
    onStore fun s held hk hs => Store.makeClosure_later hs code
      (hs.exact.isAlive_of_mem (hk List.mem_cons_self))
  exact hmake.bind fun c => pure (Value.function c) rfl

/-! ## Calls and expressions -/

/-- **The frame of a call takes the arguments.** The function is held by the caller. -/
theorem activate {c : Closure} (hc : c.frame ∈ kept) (args : List Value) :
    Moves kept (Value.allHandles args) (activate names c args) fun f => [f] := by
  unfold Counted.activate
  cases c.code.params? with
  | none => exact refuse _ rfl
  | some params =>
    refine onStore fun s held hk hs => ?_
    have hlater := Store.activate_later hs
      (hs.exact.isAlive_of_mem (List.mem_append_right _ (hk hc))) names params
    rcases hrun : Store.activate c names params args s with ⟨_ | _, t⟩ <;> rw [hrun] at hlater <;>
      exact hlater

theorem applyValue {run : Closure → Counted Value}
    (hrun : ∀ c kept, Moves kept [] (run c) Value.handles) {v : Value} (hv : v.handles ⊆ kept)
    (args : List Value) :
    Moves kept (Value.allHandles args) (applyValue names run v args) Value.handles := by
  cases v with
  | function c =>
    have hc : c.frame ∈ kept := hv List.mem_cons_self
    exact (activate hc args).bind fun f =>
      holding ((((hrun c _).settle).inScope (List.mem_cons_self) _).duringCall _)
  | _ => exact refuse _ rfl

variable {ev : ExprId → Counted Value} {call : Value → List Value → Counted Value}

theorem runStmts (hev : ∀ i kept, Moves kept [] (ev i) Value.handles) (ids : List ExprId)
    (last : Value) : Moves kept last.handles (runStmts ev last ids) Value.handles := by
  induction ids generalizing last with
  | nil => exact pure last rfl
  | cons i ids ih => exact (hev i _).holding.bind fun v => ih v

theorem evalArgs (hev : ∀ i kept, Moves kept [] (ev i) Value.handles) (ids : List ExprId) :
    Moves kept [] (evalArgs ev ids) Value.allHandles := by
  induction ids with
  | nil => exact pure [] rfl
  | cons i ids ih => exact (hev i _).bind fun v => ih.orLetGo.bind fun vs => pure (v :: vs) rfl

/-- **Every node takes no handle and gives out the one of its value.** -/
theorem evalNode
    (hcall : ∀ v vs kept, v.handles ⊆ kept →
      Moves kept (Value.allHandles vs) (call v vs) Value.handles)
    (hev : ∀ i kept, Moves kept [] (ev i) Value.handles) (n : Node) :
    Moves kept [] (evalNode names call ev n) Value.handles := by
  cases n with
  | number | bool | str | void => exact pure _ rfl
  | ident n => exact getVar n
  | letIn n i => exact (hev i _).bind fun v => (defineVar n v).bind fun _ => pure Value.void rfl
  | assign n i => exact (hev i _).bind fun v => (setVar n v).bind fun _ => pure Value.void rfl
  | compound op n i =>
    exact (hev i _).bind fun v => (updateVar op n v).holding.bind fun _ => pure Value.void rfl
  | binary op i j =>
    refine (hev i _).bind fun l => holding ((hev j _).bind fun r => holding ?_)
    cases ha : op.apply l r with
    | ok v => exact pure v (Value.handles_apply ha)
    | error e => exact fail (.error e) rfl
  | function d => exact makeFunction d
  | call i args =>
    exact (hev i _).bind fun f => holding ((list args).bind fun ids => (evalArgs hev ids).bind
      fun vs => hcall f vs _ (List.subset_append_left ..))
  | print args =>
    exact (list args).bind fun ids => (evalArgs hev ids).bind fun vs =>
      (holding (printLine vs)).bind fun _ => pure Value.void rfl
  | block stmts =>
    exact (list stmts).bind fun ids => withCurrent fun f => newChild.bind fun child =>
      holding ((runStmts hev ids .void).inFrame List.mem_cons_self)
  | ifElse i j k =>
    refine (hev i _).bind fun c => release.bind fun _ => ?_
    split
    · exact hev j _
    · cases k with
      | some k => exact hev k _
      | none => exact pure Value.void rfl
  | ret i =>
    cases i with
    | none => exact fail (.ret .void) rfl
    | some i => exact (hev i _).bind fun v => fail (.ret v) rfl

theorem evalExpr
    (hcall : ∀ v vs kept, v.handles ⊆ kept →
      Moves kept (Value.allHandles vs) (call v vs) Value.handles) (levels : Nat) (i : ExprId)
    (kept : List FrameId) : Moves kept [] (evalExpr names call levels i) Value.handles := by
  induction levels generalizing i kept with
  | zero => exact fail (.fault .tooDeep) rfl
  | succ levels ih => exact (node i).bind fun n => evalNode hcall ih n

theorem runBody
    (hcall : ∀ v vs kept, v.handles ⊆ kept →
      Moves kept (Value.allHandles vs) (call v vs) Value.handles) (body : ExprId) :
    Moves kept [] (runBody names call body) Value.handles := by
  refine (node body).bind fun n => ?_
  cases n with
  | block stmts => exact (list stmts).bind fun ids => runStmts (evalExpr hcall body) ids .void
  | _ => exact evalExpr hcall (body + 1) body kept

/-- **Every call takes the handles of its arguments and gives out the one of its value**, however
deep it leads and whatever way it ends. -/
theorem callValue (room : Nat) (v : Value) (vs : List Value) (kept : List FrameId)
    (hv : v.handles ⊆ kept) :
    Moves kept (Value.allHandles vs) (callValue names room v vs) Value.handles := by
  induction room generalizing v vs kept with
  | zero => exact applyValue (fun _ _ => fail (.fault .tooManyCalls) rfl) hv vs
  | succ room ih => exact applyValue (fun c _ => runBody ih c.code.body) hv vs

end Moves
end Counted

/-! ## For a host -/

/-- The handle that an outcome comes with. -/
def Outcome.handles (o : Outcome) : List FrameId := o.value?.elim [] Value.handles

namespace Interpreter

open Counted (Moves)

variable {i : Interpreter} {w : World} {l : Ledger} {given kept held : List FrameId} {f : FrameId}

/-- What a host gets back that holds these handles: its interpreter as it was, and the handle that
the outcome comes with. -/
structure Settles (i : Interpreter) (w : World) (l : Ledger) (held : List FrameId)
    (out : (Outcome × Interpreter × World) × Ledger) : Prop where
  interpreter : out.1.2.1 = i
  later : Store.Later ⟨w.heap, l⟩ (out.1.1.handles ++ held) ⟨out.1.2.2.heap, out.2⟩

/-- Handles that were copied for the interaction are its own. -/
theorem Settles.after {l' : Ledger} {held' : List FrameId}
    {out : (Outcome × Interpreter × World) × Ledger} (h : Settles i w l' held out)
    (hl : Store.Later ⟨w.heap, l⟩ held' ⟨w.heap, l'⟩) : Settles i w l held out :=
  ⟨h.interpreter, hl.trans h.later⟩

theorem performCounted_settles {x : Counted Value} (hx : Moves kept given x Value.handles)
    (hf : i.frame ∈ held) (hk : kept ⊆ held) (hs : Store.Balanced ⟨w.heap, l⟩ (given ++ held)) :
    Settles i w l held (performCounted x i w l) := by
  obtain ⟨r, w', l', hrun, hlater⟩ := hx i.context w l held hf hk hs
  have hrun' : x ⟨i.machine w, l⟩ = (r, ⟨i.context.machine w', l'⟩) := hrun
  have hhandles : (Outcome.ofResult r).handles = Counted.handed Value.handles r := by
    rcases r with u | v
    · cases u <;> rfl
    · rfl
  rw [performCounted, hrun']
  exact ⟨rfl, by rw [hhandles]; exact hlater⟩

theorem evalCounted_settles (hf : i.frame ∈ held) (hs : Store.Balanced ⟨w.heap, l⟩ held)
    (names : Interner) (root : ExprId) : Settles i w l held (evalCounted names root i w l) :=
  have hx : Moves [] [] (Counted.evalFrom names (Counted.callValue names i.room) root)
      Value.handles := .evalExpr (.callValue i.room) (root + 1) root []
  performCounted_settles hx hf (List.nil_subset _) hs

theorem invokeCounted_settles (hf : i.frame ∈ held) {callee : Value} {args : List Value}
    (hcallee : callee.handles ⊆ held)
    (hs : Store.Balanced ⟨w.heap, l⟩ (Value.allHandles args ++ held)) (names : Interner) :
    Settles i w l held (invokeCounted names callee args i w l) :=
  performCounted_settles (.callValue i.room callee args held hcallee) hf (List.Subset.refl _) hs

theorem withFrameCounted_settles {act : CountedInteraction Outcome}
    (hact : Settles { i with frame := f } w l (f :: held) (act { i with frame := f } w l)) :
    Settles i w l held (withFrameCounted f act i w l) := by
  obtain ⟨hi, hlater⟩ := hact
  have hlater := hlater.perm List.perm_middle
  refine ⟨?_, hlater.trans (hlater.balanced.release [f])⟩
  simp only [withFrameCounted, hi]

end Interpreter
end ClosureLang
