import ClosureLang.Proofs.Eval.Operands
import ClosureLang.Proofs.Program.WellFormed

/-!
# More levels make no difference

An expression is evaluated within so many levels, and it has enough of them if they are more than
its position: in a well-formed program a child comes before its parent. How many more there are
is not seen in the outcome (`evalExpr_levels`), so that the same expression may be compared in two
places of a program that lie at different heights.
-/

namespace ClosureLang

theorem Arena.WellFormed.operand_lt {a : Arena} (ha : a.WellFormed) {i j : ExprId} {nd : Node}
    (hn : a.node? i = some nd) (hj : j ∈ nd.operands a) : j < i := by
  cases nd with
  | call f s =>
    obtain ⟨ids, hids, hlt⟩ := ha.list_lt hn s (by simp [Node.spans])
    rw [Node.operands_call hids] at hj
    rcases List.mem_cons.mp hj with hjf | hj
    · exact ha.child_lt hn j (by simp [Node.children, hjf])
    · exact hlt j hj
  | print s =>
    obtain ⟨ids, hids, hlt⟩ := ha.list_lt hn s (by simp [Node.spans])
    rw [Node.operands, hids, Option.getD_some] at hj
    exact hlt j hj
  | letIn | assign | compound | binary | ifElse | ret =>
    simp only [Node.operands] at hj
    exact ha.child_lt hn j (by simp_all [Node.children])
  | _ => simp [Node.operands] at hj

namespace Eval

variable {names : Interner} {call : Value → List Value → Eval Value} {ev ev' : ExprId → Eval Value}
  {c : Context} {w : World}

theorem bind_congr {α β : Type} {x y : Eval α} {g : α → Eval β} {m : Machine} (h : x m = y m) :
    (x >>= g) m = (y >>= g) m := by
  rw [Attempt.bind_apply, Attempt.bind_apply, h]

theorem inFrame_congr {α : Type} {x y : Eval α} {f : FrameId}
    (h : x ((c.inFrame f).machine w) = y ((c.inFrame f).machine w)) :
    inFrame f x (c.machine w) = inFrame f y (c.machine w) := by
  have h' : x { c.machine w with frame := f } = y { c.machine w with frame := f } := h
  simp only [inFrame, h']

/-- Lists of expressions that are evaluated alike. -/
theorem evalArgs_congr (hev : ∀ i, (ev i).Returns) {ids : List ExprId}
    (h : ∀ i ∈ ids, ∀ w, ev i (c.machine w) = ev' i (c.machine w)) (w : World) :
    evalArgs ev ids (c.machine w) = evalArgs ev' ids (c.machine w) := by
  induction ids generalizing w with
  | nil => rfl
  | cons i ids ih =>
    have hi := h i List.mem_cons_self w
    obtain ⟨r, w', -, hrun, -⟩ := hev i c w
    rw [hrun] at hi
    cases r with
    | error u => rw [evalArgs, evalArgs, bind_error hrun, bind_error hi.symm]
    | ok v =>
      rw [evalArgs_cons_ok hrun, evalArgs_cons_ok hi.symm, Attempt.bind_apply, Attempt.bind_apply,
        ih (fun j hj => h j (List.mem_cons_of_mem _ hj)) w']

theorem runStmts_congr (hev : ∀ i, (ev i).Returns) {ids : List ExprId}
    (h : ∀ i ∈ ids, ∀ w, ev i (c.machine w) = ev' i (c.machine w)) (last : Value) (w : World) :
    runStmts ev last ids (c.machine w) = runStmts ev' last ids (c.machine w) := by
  rw [runStmts_eq, runStmts_eq]
  exact bind_congr (evalArgs_congr hev h w)

/-- A node goes on alike where all that comes before it is evaluated alike. -/
theorem conclude_congr (hwf : c.arena.WellFormed) (hev : ∀ i, (ev i).Returns) {i : ExprId}
    {nd : Node} (hn : c.arena.node? i = some nd)
    (h : ∀ j < i, ∀ d : Context, d.arena = c.arena → ∀ w, ev j (d.machine w) = ev' j (d.machine w))
    (vs : List Value) (w : World) :
    conclude names call ev nd vs (c.machine w) = conclude names call ev' nd vs (c.machine w) := by
  cases nd with
  | block s =>
    obtain ⟨ids, hids, hlt⟩ := hwf.list_lt hn s (by simp [Node.spans])
    rw [conclude_block hids, conclude_block hids]
    exact inFrame_congr (runStmts_congr (c := c.inFrame w.heap.size) hev
      (fun j hj => h j (hlt j hj) _ rfl) .void _)
  | ifElse cond t e =>
    rcases vs with _ | ⟨v, _ | ⟨_, _⟩⟩
    · rfl
    · cases hj : if v.isTruthy then some t else e with
      | none => rw [conclude_ifElse_none hj, conclude_ifElse_none hj]
      | some j =>
        have hmem : j ∈ (Node.ifElse cond t e).children := by
          by_cases hv : v.isTruthy = true <;> simp_all [Node.children]
        rw [conclude_ifElse hj, conclude_ifElse hj]
        exact h j (hwf.child_lt hn j hmem) c rfl w
    · rfl
  -- No other node goes on to evaluate anything.
  | ret e => rcases e with _ | e <;> rcases vs with _ | ⟨v, _ | ⟨_, _⟩⟩ <;> rfl
  | _ => rcases vs with _ | ⟨v, _ | ⟨u, _ | _⟩⟩ <;> rfl

/-- A node is evaluated alike where all that comes before it is. -/
theorem evalNode_congr (hwf : c.arena.WellFormed) (hev : ∀ i, (ev i).Returns)
    (hev' : ∀ i, (ev' i).Returns) {i : ExprId} {nd : Node} (hn : c.arena.node? i = some nd)
    (h : ∀ j < i, ∀ d : Context, d.arena = c.arena → ∀ w, ev j (d.machine w) = ev' j (d.machine w))
    (w : World) :
    evalNode names call ev nd (c.machine w) = evalNode names call ev' nd (c.machine w) := by
  rw [evalNode_machine hev, evalNode_machine hev']
  have hargs := evalArgs_congr hev (fun j hj => h j (hwf.operand_lt hn hj) c rfl) w
  obtain ⟨r, w', -, hrun, -⟩ := Returns.evalArgs hev (nd.operands c.arena) c w
  rw [hrun] at hargs
  cases r with
  | error u => rw [bind_error hrun, bind_error hargs.symm]
  | ok vs =>
    rw [bind_ok hrun, bind_ok hargs.symm]
    exact conclude_congr hwf hev hn h vs w'

/-- **Any number of levels that is enough gives the same outcome.** -/
theorem evalExpr_levels (hcall : ∀ v vs, (call v vs).Returns) {l k : Nat} {i : ExprId}
    (hl : i < l) (hk : i < k) (hwf : c.arena.WellFormed) (w : World) :
    evalExpr names call l i (c.machine w) = evalExpr names call k i (c.machine w) := by
  induction l generalizing k i c w with
  | zero => exact absurd hl (Nat.not_lt_zero i)
  | succ l ih =>
    obtain ⟨k, rfl⟩ := Nat.exists_eq_succ_of_ne_zero (Nat.ne_zero_of_lt hk)
    cases hn : c.arena.node? i with
    | none =>
      have hnode : node i (c.machine w) = (.error (.fault (.noNode i)), c.machine w) := by
        rw [node_machine, hn]
      exact (bind_error hnode).trans (bind_error hnode).symm
    | some nd =>
      rw [evalExpr_succ l hn, evalExpr_succ k hn]
      refine evalNode_congr hwf (.evalExpr hcall l) (.evalExpr hcall k) hn (fun j hj d hd w => ?_) w
      exact ih (Nat.lt_of_lt_of_le hj (Nat.le_of_lt_succ hl))
        (Nat.lt_of_lt_of_le hj (Nat.le_of_lt_succ hk)) (hd ▸ hwf) w

/-- In a well-formed program an expression is evaluated by evaluating its children. -/
theorem evalFrom_node (hcall : ∀ v vs, (call v vs).Returns) (hwf : c.arena.WellFormed) {i : ExprId}
    {nd : Node} (hn : c.arena.node? i = some nd) (w : World) :
    evalFrom names call i (c.machine w) =
      evalNode names call (evalFrom names call) nd (c.machine w) := by
  rw [evalFrom, evalExpr_succ i hn]
  exact evalNode_congr hwf (.evalExpr hcall i) (fun j => .evalExpr hcall (j + 1) j) hn
    (fun j hj d hd w => evalExpr_levels hcall hj (Nat.lt_succ_self j) (hd ▸ hwf) w) w

/-! ## Blocks of a well-formed program -/

variable {i : ExprId} {s : Span} {ids : List ExprId}

theorem evalFrom_block (hcall : ∀ v vs, (call v vs).Returns) (hwf : c.arena.WellFormed)
    (hn : c.arena.node? i = some (.block s)) (hs : c.arena.list? s = some ids) (w : World) :
    evalFrom names call i (c.machine w) =
      inFrame w.heap.size (runStmts (evalFrom names call) .void ids)
        (c.machine { w with heap := (w.heap.child c.frame).2 }) := by
  rw [evalFrom_node hcall hwf hn, evalNode, Attempt.bind_apply, list_machine, hs]
  rfl

/-- The statements of a body that is a block run in the scope of the body. -/
theorem runBody_statements_from (hcall : ∀ v vs, (call v vs).Returns) (hwf : c.arena.WellFormed)
    (hn : c.arena.node? i = some (.block s)) (hs : c.arena.list? s = some ids) (w : World) :
    runBody names call i (c.machine w) =
      runStmts (evalFrom names call) .void ids (c.machine w) := by
  rw [runBody_block hn hs]
  refine runStmts_congr (.evalExpr hcall i) (fun j hj w => ?_) _ w
  exact evalExpr_levels hcall (hwf.lt_of_mem_list hn (by simp [Node.spans]) hs hj)
    (Nat.lt_succ_self j) hwf w

end Eval
end ClosureLang
