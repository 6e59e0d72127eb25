import ClosureLang.Proofs.Eval.Steps
import ClosureLang.Proofs.Heap.Scopes
import ClosureLang.Proofs.Program.WellFormed
import Mathlib.Logic.Function.Basic

/-!
# A captured variable is a cell

A function with the body `total op= k; return total` folds its arguments into a variable of the
frame that it captured. Any number of such functions may exist, each with an operator of its own,
over frames that they share or do not share. Then the `total` of each frame is one cell. A call
reads and writes the cell of its function's frame and no other, so what the functions over one
frame answer is what they answer without the calls in between.

A call is followed step by step once (`invoke_accumulator`); what comes out is that a call is
`accumulate` on one cell. Sequences of calls then follow by induction, against a machine that has
nothing but cells (`cellRun`).
-/

namespace ClosureLang

/-- The code of `function (k) { total op= k; return total }`. -/
structure FunctionCode.Accumulates (op : BinaryOp) (k total : Name) (c : FunctionCode) : Prop where
  wf : c.arena.WellFormed
  names_ne : total ≠ k
  params : c.params? = some [k]
  body : ∃ s bump ret arg read, c.arena.node? c.body = some (.block s) ∧
    c.arena.list? s = some [bump, ret] ∧ c.arena.node? bump = some (.compound op total arg) ∧
    c.arena.node? arg = some (.ident k) ∧ c.arena.node? ret = some (.ret (some read)) ∧
    c.arena.node? read = some (.ident total)

/-! ## What a cell does -/

/-- What a call does to the cell of its function's frame, and what it answers. -/
def accumulate (op : BinaryOp) (caller : String) (cell arg : Value) : Outcome × Value :=
  match op.apply cell arg with
  | .ok v => (.value v, v)
  | .error e => (.error (e.withBacktrace [caller]), cell)

variable {ι : Type}

/-- Calls, each of the function with the given index and with one argument, on cells alone. -/
def cellRun (c : ι → Closure) (op : ι → BinaryOp) :
    List (ι × Value) → (FrameId → Value) → List Outcome × (FrameId → Value)
  | [], cells => ([], cells)
  | (j, a) :: calls, cells =>
    let (out, cell) := accumulate (op j) (c j).displayName (cells (c j).frame) a
    let (outs, cells) := cellRun c op calls (Function.update cells (c j).frame cell)
    (out :: outs, cells)

/-- The same calls through an interpreter. -/
def Interpreter.invokeAll (names : Interner) (c : ι → Closure) :
    List (ι × Value) → Interaction (List Outcome)
  | [], i, w => ([], i, w)
  | (j, a) :: calls, i, w =>
    let (out, i, w) := i.invoke names (.function (c j)) [a] w
    let (outs, i, w) := invokeAll names c calls i w
    (out :: outs, i, w)

/-! ## One call -/

namespace Eval

variable {names : Interner} {call : Value → List Value → Eval Value} {ctx : Context} {w : World}
  {i l : Nat} {n : Name} {g : FrameId} {v : Value}

/-- At a position that exists, evaluation goes on with levels for all positions before it. -/
theorem evalExpr_node (names : Interner) (call : Value → List Value → Eval Value) (w : World)
    {nd : Node} (hn : ctx.arena.node? i = some nd) (hi : i < l) :
    ∃ k, i ≤ k ∧ evalExpr names call l i (ctx.machine w) =
      evalNode names call (evalExpr names call k) nd (ctx.machine w) := by
  cases l with
  | zero => exact absurd hi (Nat.not_lt_zero i)
  | succ l =>
    exact ⟨l, Nat.le_of_lt_succ hi, evalExpr_succ l hn⟩

theorem evalExpr_ident (hn : ctx.arena.node? i = some (.ident n)) (hi : i < l)
    (ho : w.heap.owner? ctx.frame n = some g) (hv : w.heap.local? g n = some v) :
    evalExpr names call l i (ctx.machine w) = (.ok v, ctx.machine w) := by
  obtain ⟨k, -, hk⟩ := evalExpr_node names call w hn hi
  rw [hk, evalNode, getVar_machine, ho]
  simp only [Heap.valueAt_of_local? hv]

theorem evalExpr_compound {op : BinaryOp} {x : Nat} {cell : Value}
    (hn : ctx.arena.node? i = some (.compound op n x)) (hi : i < l)
    (hx : ∀ k, i ≤ k → evalExpr names call k x (ctx.machine w) = (.ok v, ctx.machine w))
    (ho : w.heap.owner? ctx.frame n = some g) (hv : w.heap.local? g n = some cell) :
    evalExpr names call l i (ctx.machine w) = match op.apply cell v with
      | .ok u => (.ok .void, ctx.machine { w with heap := w.heap.overwrite g n u })
      | .error e => (.error (.error e), ctx.machine w) := by
  obtain ⟨k, hik, hk⟩ := evalExpr_node names call w hn hi
  rw [hk, evalNode, bind_ok (hx k hik), Attempt.bind_apply, updateVar_machine, ho]
  simp only [Heap.valueAt_of_local? hv]
  cases op.apply cell v <;> rfl

theorem evalExpr_ret {x : Nat} (hn : ctx.arena.node? i = some (.ret (some x))) (hi : i < l)
    (hx : ∀ k, i ≤ k → evalExpr names call k x (ctx.machine w) = (.ok v, ctx.machine w)) :
    evalExpr names call l i (ctx.machine w) = (.error (.ret v), ctx.machine w) := by
  obtain ⟨k, hik, hk⟩ := evalExpr_node names call w hn hi
  rw [hk, evalNode, bind_ok (hx k hik)]
  rfl

/-- The body, in a frame that binds `k` and lies inside one that binds `total`. -/
theorem runBody_accumulator {op : BinaryOp} {k total : Name} {c : FunctionCode} {cell arg : Value}
    (hc : c.Accumulates op k total) (ha : ctx.arena = c.arena)
    (hk : w.heap.local? ctx.frame k = some arg) (hb : w.heap.binds ctx.frame total = false)
    (hp : w.heap.parent? ctx.frame = some g) (hg : w.heap.local? g total = some cell)
    (hf : ctx.frame ≠ 0) :
    runBody names call c.body (ctx.machine w) = match op.apply cell arg with
      | .ok v => (.error (.ret v), ctx.machine { w with heap := w.heap.overwrite g total v })
      | .error e => (.error (.error e), ctx.machine w) := by
  obtain ⟨s, bump, ret, x, read, hbody, hlist, hbump, hx, hret, hread⟩ := hc.body
  -- children come before their parents, so there are levels left at each of the five positions
  obtain ⟨ids, hids, hlt⟩ := hc.wf.list_lt hbody s (by simp [Node.spans])
  obtain rfl : [bump, ret] = ids := Option.some.inj (hlist.symm.trans hids)
  have hxlt : x < bump := hc.wf.child_lt hbump x (by simp [Node.children])
  have hreadlt : read < ret := hc.wf.child_lt hret read (by simp [Node.children])
  rw [← ha] at hbody hlist hbump hx hret hread
  have hstep : evalExpr names call c.body bump (ctx.machine w) = _ :=
    evalExpr_compound hbump (hlt bump (by simp))
      (fun j hj => evalExpr_ident hx (Nat.lt_of_lt_of_le hxlt hj) (Heap.owner?_of_local? hk) hk)
      (Heap.owner?_of_parent? hb hp hg hf) hg
  rw [runBody_block hbody hlist]
  simp only [runStmts]
  cases hop : op.apply cell arg with
  | error e =>
    rw [hop] at hstep
    rw [bind_error hstep]
  | ok v =>
    rw [hop] at hstep
    -- the cell now holds the result, and `total` still resolves to it
    have hg' : (w.heap.overwrite g total v).local? g total = some v := by
      rw [Heap.local?_overwrite, if_pos ⟨rfl, rfl⟩, hg]
      rfl
    have howner : (w.heap.overwrite g total v).owner? ctx.frame total = some g :=
      Heap.owner?_of_parent? (by rw [Heap.binds_overwrite]; exact hb)
        (by rw [Heap.parent?_overwrite]; exact hp) hg' hf
    have hleave : evalExpr names call c.body ret
        (ctx.machine { w with heap := w.heap.overwrite g total v }) = (.error (.ret v), _) :=
      evalExpr_ret hret (hlt ret (by simp)) fun j hj =>
        evalExpr_ident hread (Nat.lt_of_lt_of_le hreadlt hj) howner hg'
    rw [bind_ok hstep, bind_error hleave]

/-- The frame of a call with one argument. -/
theorem activate_one {c : Closure} {k : Name} {arg : Value} (hc : c.code.params? = some [k]) :
    activate names c [arg] (ctx.machine w) =
      (.ok w.heap.size, ctx.machine { w with heap := w.heap.childWith c.frame k arg }) := by
  have hb : (w.heap.child c.frame).2.binds w.heap.size k = false := by
    simp [Heap.binds, Heap.child, Heap.local?_newFrame, Heap.local?_eq_none_of_size_le]
  have hdefine : defineAll names [k] [arg]
      ((ctx.inFrame w.heap.size).machine { w with heap := (w.heap.child c.frame).2 }) =
      (.ok (), (ctx.inFrame w.heap.size).machine
        { w with heap := w.heap.childWith c.frame k arg }) := by
    rw [defineAll, Attempt.bind_apply, defineVar_machine]
    simp only [Context.inFrame, hb]
    rfl
  rw [activate_eq, hc]
  simp only [List.length_singleton, if_true]
  rw [bind_ok newChild_machine, bind_ok (inFrame_machine hdefine)]
  rfl

end Eval

/-- An error that leaves the only call in progress. -/
theorem CallStack.attachBacktrace_enter {s : CallStack} {n : CallFrame} {e : EvalError}
    (hs : s.depth = 0) (he : e.backtrace = []) :
    (s.enter n).attachBacktrace e = e.withBacktrace [n.displayName] := by
  have hframes : s.frames = #[] := Array.eq_empty_of_size_eq_zero hs
  simp [attachBacktrace, enter, isEmpty, capture, EvalError.hasBacktrace, hframes, he]

namespace Interpreter

variable {i : Interpreter} {w : World} {op : BinaryOp} {k total : Name}
  {c : Closure} {cell arg : Value}

/-- **A call is one step of a cell**, from the outermost level: it answers as the cell does, the
cell holds what it should, and no other variable of any frame that was there has changed. -/
theorem invoke_accumulator (names : Interner) (hc : c.code.Accumulates op k total) (hdepth : i.stack.depth = 0)
    (hmax : 1 ≤ i.stack.maxDepth) (hcell : w.heap.local? c.frame total = some cell) :
    ∃ h : Heap, i.invoke names (.function c) [arg] w =
        ((accumulate op c.displayName cell arg).1, i, ⟨h, w.sink⟩) ∧ w.heap.size ≤ h.size ∧
      ∀ f < w.heap.size, ∀ n, h.local? f n = if f = c.frame ∧ n = total then
        some (accumulate op c.displayName cell arg).2 else w.heap.local? f n := by
  have hframe : c.frame < w.heap.size := Heap.lt_size_of_local? hcell
  have hlimit : i.stack.depth < i.stack.maxDepth := by omega
  let w₁ : World := { w with heap := w.heap.childWith c.frame k arg }
  have hsize : w.heap.size ≤ w₁.heap.size :=
    Nat.le_of_lt (Nat.lt_of_lt_of_eq (Nat.lt_succ_self _) (Heap.size_childWith ..).symm)
  have hold : ∀ f < w.heap.size, ∀ n, w₁.heap.local? f n = w.heap.local? f n :=
    fun f hf n => Heap.local?_childWith_of_lt c.frame k arg hf n
  have hk : w₁.heap.local? w.heap.size k = some arg := by
    rw [Heap.local?_childWith, if_pos ⟨rfl, rfl⟩]
  have hb : w₁.heap.binds w.heap.size total = false := by
    rw [Heap.binds, Heap.local?_childWith, if_neg fun h => hc.names_ne h.2,
      Heap.local?_eq_none_of_size_le (Nat.le_refl _)]
    rfl
  have hbody : Eval.runBody names (Eval.callValue names (i.room - 1)) c.code.body
      (Context.machine ⟨c.code.arena, w.heap.size, i.stack.enter ⟨c.name⟩⟩ w₁) = _ :=
    Eval.runBody_accumulator hc rfl hk hb (Heap.parent?_childWith ..)
      ((hold _ hframe _).trans hcell) (Nat.ne_of_gt (Nat.zero_lt_of_lt hframe))
  cases hop : op.apply cell arg with
  | error e =>
    rw [hop] at hbody
    have he : e.backtrace = [] := by
      rw [BinaryOp.apply_error hop]
      rfl
    refine ⟨w₁.heap, ?_, hsize, fun f hf n => ?_⟩
    · rw [invoke_machine hlimit (Eval.activate_one hc.params) hbody, accumulate, hop]
      simp only [Eval.settled, Eval.leaving, CallStack.attachBacktrace_enter hdepth he]
      rfl
    · rw [accumulate, hop, hold f hf]
      split
      · next hfn => rw [hfn.1, hfn.2, hcell]
      · rfl
  | ok v =>
    rw [hop] at hbody
    refine ⟨w₁.heap.overwrite c.frame total v, ?_, ?_, fun f hf n => ?_⟩
    · rw [invoke_machine hlimit (Eval.activate_one hc.params) hbody, accumulate, hop]
      rfl
    · rw [Heap.size_overwrite]
      exact hsize
    · rw [accumulate, hop, Heap.local?_overwrite, hold f hf]
      by_cases hfn : f = c.frame ∧ n = total
      · rw [if_pos hfn, if_pos ⟨hfn.1.symm, hfn.2⟩, hfn.1, hfn.2, hcell]
        rfl
      · rw [if_neg hfn, if_neg fun h => hfn ⟨h.1.symm, h.2⟩]

end Interpreter

/-! ## Sequences of calls -/

section

variable {c : ι → Closure} {op : ι → BinaryOp} {k total : Name} {i : Interpreter}

/-- Interpreters and cells go along with each other. -/
theorem Interpreter.invokeAll_eq (names : Interner) (hc : ∀ j, (c j).code.Accumulates (op j) k total)
    (hdepth : i.stack.depth = 0) (hmax : 1 ≤ i.stack.maxDepth) (calls : List (ι × Value)) :
    ∀ (w : World) (cells : FrameId → Value),
      (∀ j, w.heap.local? (c j).frame total = some (cells (c j).frame)) →
      ∃ h : Heap, invokeAll names c calls i w = ((cellRun c op calls cells).1, i, ⟨h, w.sink⟩) ∧
        w.heap.size ≤ h.size ∧
        (∀ j, h.local? (c j).frame total = some ((cellRun c op calls cells).2 (c j).frame)) ∧
        ∀ f < w.heap.size, ∀ n, (n = total → ∀ j, f ≠ (c j).frame) →
          h.local? f n = w.heap.local? f n := by
  induction calls with
  | nil =>
    intro w cells hcells
    exact ⟨w.heap, rfl, Nat.le_refl _, hcells, fun _ _ _ _ => rfl⟩
  | cons call calls ih =>
    obtain ⟨j, a⟩ := call
    intro w cells hcells
    obtain ⟨h₁, hinvoke, hsize₁, hlocal₁⟩ :=
      invoke_accumulator names (hc j) hdepth hmax (hcells j)
    have hframe : ∀ j', (c j').frame < w.heap.size := fun j' => Heap.lt_size_of_local? (hcells j')
    have hcells₁ : ∀ j', h₁.local? (c j').frame total = some (Function.update cells (c j).frame
        (accumulate (op j) (c j).displayName (cells (c j).frame) a).2 (c j').frame) := by
      intro j'
      rw [hlocal₁ _ (hframe j')]
      by_cases hj : (c j').frame = (c j).frame
      · rw [if_pos ⟨hj, rfl⟩, hj, Function.update_self]
      · rw [if_neg fun h => hj h.1, hcells j', Function.update_of_ne hj]
    obtain ⟨h₂, hrun, hsize₂, hcells₂, hlocal₂⟩ := ih ⟨h₁, w.sink⟩ _ hcells₁
    refine ⟨h₂, ?_, Nat.le_trans hsize₁ hsize₂, hcells₂, fun f hf n hn => ?_⟩
    · rw [invokeAll, hinvoke]
      simp only [hrun]
      rfl
    · rw [hlocal₂ f (Nat.lt_of_lt_of_le hf hsize₁) n hn, hlocal₁ f hf,
        if_neg fun h => hn h.2 j h.1]

/-- The calls on one frame, with what they answered. -/
def answersAt (c : ι → Closure) (f : FrameId) (calls : List (ι × Value)) (outs : List Outcome) :
    List Outcome :=
  ((calls.zip outs).filter fun p => (c p.1.1).frame = f).map Prod.snd

/-- **Cells do not know of each other**: leaving out the calls on other cells changes neither what
the calls on one answer nor what it holds in the end. -/
theorem cellRun_filter (c : ι → Closure) (op : ι → BinaryOp) (f : FrameId) (calls : List (ι × Value)) :
    ∀ cells cells' : FrameId → Value, cells f = cells' f →
      answersAt c f calls (cellRun c op calls cells).1 =
        (cellRun c op (calls.filter fun p => (c p.1).frame = f) cells').1 ∧
      (cellRun c op calls cells).2 f =
        (cellRun c op (calls.filter fun p => (c p.1).frame = f) cells').2 f := by
  induction calls with
  | nil => exact fun _ _ h => ⟨rfl, h⟩
  | cons call calls ih =>
    obtain ⟨j, a⟩ := call
    intro cells cells' hcells
    let out := accumulate (op j) (c j).displayName (cells (c j).frame) a
    let out' := accumulate (op j) (c j).displayName (cells' (c j).frame) a
    by_cases hj : (c j).frame = f
    · have hout : out = out' := by
        show accumulate _ _ (cells (c j).frame) a = accumulate _ _ (cells' (c j).frame) a
        rw [hj, hcells]
      obtain ⟨hanswers, hcell⟩ := ih (Function.update cells (c j).frame out.2)
        (Function.update cells' (c j).frame out'.2) (by rw [hj, Function.update_self,
          Function.update_self, hout])
      rw [List.filter_cons_of_pos (by simpa using hj)]
      refine ⟨?_, hcell⟩
      show answersAt c f ((j, a) :: calls) (out.1 :: (cellRun c op calls _).1) =
        out'.1 :: (cellRun c op _ _).1
      rw [answersAt, List.zip_cons_cons, List.filter_cons_of_pos (by simpa using hj), List.map_cons,
        hout]
      exact congrArg (out'.1 :: ·) hanswers
    · obtain ⟨hanswers, hcell⟩ := ih (Function.update cells (c j).frame out.2) cells'
        (by rw [Function.update_of_ne (Ne.symm hj), hcells])
      rw [List.filter_cons_of_neg (by simpa using hj)]
      refine ⟨?_, hcell⟩
      show answersAt c f ((j, a) :: calls) (out.1 :: (cellRun c op calls _).1) = _
      rw [answersAt, List.zip_cons_cons, List.filter_cons_of_neg (by simpa using hj)]
      exact hanswers

/-- **Captured variables are cells.** Take any functions that accumulate, each over a frame that
binds `total` itself, and any calls of them from the outermost level. The answers are those of
cells; so is what the captured frames hold as `total` in the end, and nothing else has changed in
any frame, nor has one gained a name. What the calls on one frame answer, and what it then holds,
is the same if only these calls are made. -/
theorem accumulators_are_cells (names : Interner)
    (hc : ∀ j, (c j).code.Accumulates (op j) k total) (hdepth : i.stack.depth = 0)
    (hmax : 1 ≤ i.stack.maxDepth) (w : World) (hw : ∀ j, w.heap.binds (c j).frame total = true)
    (calls : List (ι × Value)) :
    let out := i.invokeAll names c calls w
    let run := cellRun c op calls fun f => w.heap.valueAt f total
    out.1 = run.1 ∧ out.2.1 = i ∧ out.2.2.sink = w.sink ∧
      (∀ j, out.2.2.heap.local? (c j).frame total = some (run.2 (c j).frame)) ∧
      (∀ f < w.heap.size, ∀ n, (n = total → ∀ j, f ≠ (c j).frame) →
        out.2.2.heap.local? f n = w.heap.local? f n) ∧
      (∀ f < w.heap.size, ∀ n, out.2.2.heap.binds f n = w.heap.binds f n) ∧
      ∀ j, let only := i.invokeAll names c (calls.filter fun p => (c p.1).frame = (c j).frame) w
        answersAt c (c j).frame calls out.1 = only.1 ∧
          out.2.2.heap.local? (c j).frame total = only.2.2.heap.local? (c j).frame total := by
  intro out run
  let cells : FrameId → Value := fun f => w.heap.valueAt f total
  have hcells : ∀ j, w.heap.local? (c j).frame total = some (cells (c j).frame) := by
    intro j
    obtain ⟨v, hv⟩ := Option.isSome_iff_exists.mp (hw j)
    rw [hv]
    exact congrArg some (Heap.valueAt_of_local? hv).symm
  obtain ⟨h, hout, -, hheld, hlocal⟩ :=
    Interpreter.invokeAll_eq names hc hdepth hmax calls w cells hcells
  have hrun : out = (run.1, i, ⟨h, w.sink⟩) := hout
  rw [hrun]
  refine ⟨rfl, rfl, rfl, hheld, hlocal, fun f hf n => ?_, fun j => ?_⟩
  · by_cases hn : n = total → ∀ j, f ≠ (c j).frame
    · rw [Heap.binds, hlocal f hf n hn, Heap.binds]
    · obtain ⟨rfl, hj⟩ := Classical.not_imp.mp hn
      obtain ⟨j, hj⟩ := Classical.not_forall.mp hj
      obtain rfl := Classical.not_not.mp hj
      rw [Heap.binds_of_local? (hheld j), hw j]
  · obtain ⟨h', honly, -, hheld', -⟩ := Interpreter.invokeAll_eq names hc hdepth hmax
      (calls.filter fun p => (c p.1).frame = (c j).frame) w cells hcells
    obtain ⟨hanswers, hcell⟩ := cellRun_filter c op (c j).frame calls cells cells rfl
    intro only
    have honly' : only = _ := honly
    rw [honly']
    refine ⟨hanswers, ?_⟩
    rw [hheld j, hheld' j]
    exact congrArg some hcell

end

/-- `function (k) { total += k; return total }`, where `k` has slot 1 and `total` slot 2. -/
def joinerArena : Arena where
  nodes := #[.ident ⟨1⟩, .compound .add ⟨2⟩ 0, .ident ⟨2⟩, .ret (some 2), .block ⟨0, 2⟩]
  lists := #[1, 3]
  params := #[⟨1⟩]

def joiner (j : Bool) : Closure :=
  ⟨0, ⟨joinerArena, ⟨none, ⟨0, 1⟩, 4⟩, none⟩, if j then 1 else 0⟩

def joinerWorld : World :=
  ⟨(Heap.empty.root.2.bind 0 ⟨2⟩ .void).root.2.bind 1 ⟨2⟩ (.str "a"), .silent⟩

theorem joiner_accumulates (j : Bool) : (joiner j).code.Accumulates .add ⟨1⟩ ⟨2⟩ where
  wf := show joinerArena.WellFormed by decide
  names_ne := by decide
  params := rfl
  body := ⟨⟨0, 2⟩, 1, 3, 0, 2, rfl, rfl, rfl, rfl, rfl, rfl⟩

theorem accumulators_are_cells_joiner :
    ((Interpreter.new .empty 0 1).invokeAll .empty joiner
        [(true, .str "b"), (false, .void), (true, .str "c")] joinerWorld).1 =
      [.value (.str "ab"), .error ⟨.binaryTypeMismatch "+" "void" "void", ["<anonymous>"]⟩,
        .value (.str "abc")] := by
  have hbinds : ∀ j, joinerWorld.heap.binds (joiner j).frame ⟨2⟩ = true := by
    intro j
    cases j <;> rfl
  obtain ⟨hanswers, -⟩ := accumulators_are_cells (i := .new .empty 0 1) .empty joiner_accumulates rfl
    (by decide) joinerWorld hbinds [(true, .str "b"), (false, .void), (true, .str "c")]
  rw [hanswers]
  rfl

end ClosureLang
