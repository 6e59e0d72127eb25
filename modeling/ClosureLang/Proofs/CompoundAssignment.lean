import ClosureLang.Proofs.Eval.Levels
import ClosureLang.Proofs.Eval.Prints
import ClosureLang.Proofs.Heap.Changes

/-!
# Compound assignment

`n op= e` reads what `n` holds after `e` has been evaluated, and stores the outcome where it has
read. Nothing that `e` does to `n` gets lost: whatever `e` has assigned is what the operator is
applied to, and a declaration in the course of `e` that shadows `n` is what is assigned. `Compounds`
says what becomes of the statement, by the way in which `e` ends.

`n = n op e` reads `n` before `e`. So the two are the same exactly as long as `e` leaves alone
which variable `n` is and what it holds (`compound_assignment`), and until then they are.
-/

namespace ClosureLang

/-- Of all that the frames bind, at most the value of `n` in `o` differs, and that is `v`. -/
structure Heap.Overwritten (h : Heap) (o : FrameId) (n : Name) (v : Value) (h' : Heap) : Prop
    extends h.ChangedAt o h' where
  depth : ∀ g, h'.depth g = h.depth g
  holds : h'.local? o n = some v
  others : ∀ g m, ¬ (o = g ∧ m = n) → h'.local? g m = h.local? g m

theorem Heap.overwritten {h : Heap} {f o : FrameId} {n : Name} (ho : h.owner? f n = some o)
    (v : Value) : h.Overwritten o n v (h.overwrite o n v) where
  toChangedAt := changedAt_overwrite h o n v
  depth := depth_overwrite h o n v
  holds := by
    rw [local?_overwrite, if_pos ⟨rfl, rfl⟩, local?_of_owner? ho]
    rfl
  others g m hgm := by rw [local?_overwrite, if_neg hgm]

/-- **What becomes of `n op= e`** in the scope `f`: how it ends and in which world, by how `e` ends
and in which world. -/
inductive Compounds (names : Interner) (op : BinaryOp) (n : Name) (f : FrameId) :
    Except Unwind Value × World → Except Unwind Value × World → Prop
  /-- It is left as `e` is left, by an error or by `return`. -/
  | left (u : Unwind) (w : World) : Compounds names op n f (.error u, w) (.error u, w)
  | unbound {v : Value} {w : World} (ho : w.heap.owner? f n = none) :
      Compounds names op n f (.ok v, w)
        (.error (.error (.ofKind (.unboundName (names.lookup n)))), w)
  | mismatch {v x : Value} {w : World} {o : FrameId} (ho : w.heap.owner? f n = some o)
      (hx : w.heap.local? o n = some x) (ha : op.apply x v = .error (op.mismatch x v)) :
      Compounds names op n f (.ok v, w) (.error (.error (op.mismatch x v)), w)
  | stored {v x u : Value} {w : World} {o : FrameId} {h : Heap} (ho : w.heap.owner? f n = some o)
      (hx : w.heap.local? o n = some x) (ha : op.apply x v = .ok u)
      (hh : w.heap.Overwritten o n u h) :
      Compounds names op n f (.ok v, w) (.ok .void, { w with heap := h })

namespace Eval

variable {names : Interner} {call : Value → List Value → Eval Value} {c : Context} {w : World}
  {op : BinaryOp} {n : Name} {o : FrameId} {i j b k e : ExprId}

/-! ## The two statements, by how `e` ends -/

/-- The store, when `e` has its value. -/
theorem compounds_updateVar (names : Interner) (op : BinaryOp) (n : Name) (v : Value) (c : Context)
    (w : World) : ∃ r w', (do updateVar names op n v; pure Value.void : Eval Value) (c.machine w) =
      (r, c.machine w') ∧ Compounds names op n c.frame (.ok v, w) (r, w') := by
  have hupdate := @updateVar_machine names c w n v op
  cases ho : w.heap.owner? c.frame n with
  | none =>
    rw [ho] at hupdate
    exact ⟨_, w, bind_error hupdate, .unbound ho⟩
  | some o =>
    have hx := Heap.local?_of_owner? ho
    cases ha : op.apply (w.heap.valueAt o n) v with
    | error e =>
      simp only [ho, ha] at hupdate
      obtain rfl := BinaryOp.apply_error ha
      exact ⟨_, w, bind_error hupdate, .mismatch ho hx ha⟩
    | ok u =>
      simp only [ho, ha] at hupdate
      exact ⟨_, _, bind_ok hupdate, .stored ho hx ha (Heap.overwritten ho u)⟩

/-- **The two forms agree** if `e` changes neither which variable `n` is nor what it holds. -/
theorem evalFrom_assign_binary (hcall : ∀ v vs, (call v vs).Returns) (hwf : c.arena.WellFormed)
    (hi : c.arena.node? i = some (.compound op n e)) (hj : c.arena.node? j = some (.assign n b))
    (hb : c.arena.node? b = some (.binary op k e)) (hk : c.arena.node? k = some (.ident n))
    (ho : w.heap.owner? c.frame n = some o)
    (hkeep : ∀ v w₁, evalFrom names call e (c.machine w) = (.ok v, c.machine w₁) →
      w₁.heap.owner? c.frame n = some o ∧ w₁.heap.valueAt o n = w.heap.valueAt o n) :
    evalFrom names call i (c.machine w) = evalFrom names call j (c.machine w) := by
  have hread : evalFrom names call k (c.machine w) = (.ok (w.heap.valueAt o n), c.machine w) := by
    rw [evalFrom_node hcall hwf hk, evalNode, getVar_machine, ho]
  have hbinary := (evalFrom_node hcall hwf hb w).trans (bind_ok hread)
  have hreturns : (evalFrom names call e).Returns := .evalExpr hcall (e + 1) e
  obtain ⟨r, w₁, -, he, -⟩ := hreturns c w
  rw [evalFrom_node hcall hwf hi, evalFrom_node hcall hwf hj, evalNode, evalNode]
  cases r with
  | error u => rw [bind_error he, bind_error (hbinary.trans (bind_error he))]
  | ok v =>
    obtain ⟨ho₁, hx₁⟩ := hkeep v w₁ he
    have hupdate := @updateVar_machine names c w₁ n v op
    rw [bind_ok he] at hbinary ⊢
    rw [ho₁] at hupdate
    dsimp only at hupdate
    rw [hx₁] at hupdate
    cases ha : op.apply (w.heap.valueAt o n) v with
    | error err =>
      rw [ha] at hupdate hbinary
      rw [bind_error hupdate]
      exact (bind_error hbinary).symm
    | ok u =>
      have hset := @setVar_machine names c w₁ n u
      rw [ho₁] at hset
      rw [ha] at hupdate hbinary
      rw [bind_ok hupdate, bind_ok hbinary, bind_ok hset]

end Eval

/-- **Compound assignment never loses a write.** When `n op= e` is evaluated, in any state and at
any depth of a run, `e` is evaluated first, and what becomes of the statement is decided by how `e`
ends: left as `e` is left, or refused because `n` has no owner now or because the operator does not
take what the owner holds now, or stored in that owner and nowhere else.

It is the same as `n = n op e`, in outcome, heap and output, if `n` is bound beforehand and `e`
changes neither its owner nor what the owner holds. -/
theorem compound_assignment (names : Interner) (q l : Nat) {c : Context} {w : World} {i e : ExprId}
    {op : BinaryOp} {n : Name} (hi : c.arena.node? i = some (.compound op n e)) :
    let rhs : Moment := ⟨q, .expr l e, c, w⟩
    let stmt : Moment := ⟨q, .expr (l + 1) i, c, w⟩
    Compounds names op n c.frame (rhs.result names, rhs.after names)
      (stmt.result names, stmt.after names) ∧
    ∀ (k : Nat) (j b x : ExprId) (o : FrameId), c.arena.WellFormed → i < l + 1 → j < k →
      c.arena.node? j = some (.assign n b) → c.arena.node? b = some (.binary op x e) →
      c.arena.node? x = some (.ident n) → w.heap.owner? c.frame n = some o →
      (∀ v, rhs.result names = .ok v → (rhs.after names).heap.owner? c.frame n = some o ∧
        (rhs.after names).heap.valueAt o n = w.heap.valueAt o n) →
      let spelled : Moment := ⟨q, .expr k j, c, w⟩
      stmt.result names = spelled.result names ∧ stmt.after names = spelled.after names := by
  intro rhs stmt
  refine ⟨?_, ?_⟩
  · rcases Moment.eval_operand (q := q) (l := l) (w := w) hi fun call ev => rfl with
      ⟨u, hu, hrun⟩ | ⟨v, hv, hrun⟩
    · have hresult : stmt.result names = .error u := congrArg Prod.fst hrun
      rw [hu, hresult, Moment.after_eq hrun]
      exact .left u _
    · obtain ⟨r, w', hstore, hend⟩ :=
        Eval.compounds_updateVar names op n v c (rhs.after names)
      have hstmt := hrun.trans hstore
      have hresult : stmt.result names = r := congrArg Prod.fst hstmt
      rw [hv, hresult, Moment.after_eq hstmt]
      exact hend
  · intro k j b x o hwf hil hjk hj hb hx ho hkeep spelled
    have hcall : ∀ v vs, (Eval.callValue names q v vs).Returns := .callValue q
    have hel : e < l := Nat.lt_of_lt_of_le (hwf.child_lt hi e (by simp [Node.children]))
      (Nat.le_of_lt_succ hil)
    have heval : stmt.eval names (c.machine w) = spelled.eval names (c.machine w) := by
      show Eval.evalExpr _ _ (l + 1) i _ = Eval.evalExpr _ _ k j _
      rw [Eval.evalExpr_levels hcall hil (Nat.lt_succ_self i) hwf,
        Eval.evalExpr_levels hcall hjk (Nat.lt_succ_self j) hwf]
      refine Eval.evalFrom_assign_binary hcall hwf hi hj hb hx ho fun v w₁ he => ?_
      have hend : rhs.eval names (c.machine w) = (.ok v, c.machine w₁) :=
        (Eval.evalExpr_levels hcall hel (Nat.lt_succ_self e) hwf w).trans he
      have hafter : rhs.after names = w₁ := Moment.after_eq hend
      rw [← hafter]
      exact hkeep v (congrArg Prod.fst hend)
    exact ⟨congrArg Prod.fst heval, congrArg (Machine.world ∘ Prod.snd) heval⟩

/-- `x += "b"` at the position 1, and `x = x + "b"` at the position 4. -/
def appending : Arena :=
  ⟨#[.str ⟨2⟩, .compound .add ⟨1⟩ 0, .ident ⟨1⟩, .binary .add 2 0, .assign ⟨1⟩ 3], #[], #[]⟩

/-- A text has no effect on `x`. -/
theorem compound_assignment_appending :
    let names : Interner := ⟨#["", "x", "b"]⟩
    let c : Context := ⟨appending, 0, .new 8⟩
    let w : World := ⟨Heap.empty.root.2.bind 0 ⟨1⟩ (.str "a"), .silent⟩
    let stmt : Moment := ⟨8, .expr 2 1, c, w⟩
    let spelled : Moment := ⟨8, .expr 5 4, c, w⟩
    Compounds names .add ⟨1⟩ 0 (.ok (.str "b"), w) (stmt.result names, stmt.after names) ∧
      stmt.result names = spelled.result names ∧ stmt.after names = spelled.after names := by
  intro names c w stmt spelled
  have hi : c.arena.node? 1 = some (.compound .add ⟨1⟩ 0) := rfl
  have hwf : c.arena.WellFormed := by decide
  have hafter : Moment.after names ⟨8, .expr 1 0, c, w⟩ = w := rfl
  obtain ⟨hend, hsame⟩ := compound_assignment names 8 1 (w := w) hi
  refine ⟨hend, hsame 5 4 3 2 0 hwf (by decide) (by decide) rfl rfl rfl rfl fun v _ => ?_⟩
  rw [hafter]
  exact ⟨rfl, rfl⟩

end ClosureLang
