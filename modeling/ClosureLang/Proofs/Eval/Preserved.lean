import ClosureLang.Proofs.Eval.Invariant
import ClosureLang.Proofs.Eval.Moments

/-!
# Invariants at every moment

`Invariant.Lawful.eval` and `.invoke` say what holds when a run has ended. Here the same invariants
are followed through a run: if one is satisfied where something begins, it is satisfied where
anything begins in the course of that (`During.satisfies`), and so is what each of them ends with
(`Moment.Satisfies.ends`). What is new is one step, from a moment to what begins directly in its
course; the evaluations that lie between the two are pieces of evaluation like any other.
-/

namespace ClosureLang

variable {σ : Type} {I : Invariant σ} {names : Interner} {s : σ}

namespace Invariant

/-- A way to end that satisfies an invariant. -/
def Ends (I : Invariant σ) (k : CallStack) (s : σ) : Except Unwind Value → Prop
  | .ok v | .error (.ret v) => I.value s v
  | .error (.error e) => I.error k e
  | .error (.fault f) => I.fault f

variable {α : Type} {c : Context} {w w' : World} {q l : Nat} {ids : List ExprId} {a : Arena}
  {n : Node}

theorem of_diagonal_values {vs ws : List Value} (h : List.Forall₂ (I.diagonal.value s) vs ws) :
    ∀ v ∈ vs, I.value s v := by
  induction h with
  | nil => exact fun v hv => absurd hv List.not_mem_nil
  | cons hv _ ih =>
    intro v hmem
    rcases List.mem_cons.mp hmem with rfl | hmem
    · exact (diagonal_value_iff.mp hv).2
    · exact ih v hmem

/-- The operands of a node are among its children. -/
theorem NodeOk.operands (h : I.NodeOk names a l n) : ∀ i ∈ n.operands a, I.expr ⟨a, l, i⟩ := by
  have hlist : ∀ t ∈ n.spans, ∀ i ∈ (a.list? t).getD [], I.expr ⟨a, l, i⟩ := by
    intro t ht i hi
    cases hids : a.list? t with
    | none => simp [hids] at hi
    | some ids =>
      rw [hids, Option.getD_some] at hi
      exact h.list t ht ids hids i hi
  have hchild := h.child
  intro i hi
  cases n with
  | call f t =>
    rcases List.mem_cons.mp hi with rfl | hi
    · exact hchild _ (by simp [Node.children])
    · exact hlist t (by simp [Node.spans]) i hi
  | print t => exact hlist t (by simp [Node.spans]) i hi
  | ifElse cond t e =>
    obtain rfl := List.mem_singleton.mp hi
    exact hchild _ (by simp [Node.children])
  | letIn _ j | assign _ j | compound _ _ j | binary _ _ _ | ret _ => exact hchild i hi
  | _ => cases hi

variable [Preorder σ]

/-- What a piece of evaluation yields, and the world in which it does. -/
theorem ok_of_related {A : σ → α → α → Prop} {x : Eval α} {y : α}
    (h : I.diagonal.Related s c c A x x) (hw : I.world s w)
    (hx : x (c.machine w) = (.ok y, c.machine w')) : ∃ t, s ≤ t ∧ I.world t w' ∧ A t y y := by
  obtain ⟨t, r₁, r₂, w₁, w₂, ht, ⟨rfl, hw₁⟩, h₁, h₂, hr⟩ := h s w w (le_refl s) ⟨rfl, hw⟩
  obtain ⟨rfl, hm⟩ := Prod.mk.inj (h₁.symm.trans hx)
  obtain ⟨rfl, -⟩ := Prod.mk.inj (h₂.symm.trans hx)
  obtain rfl := Context.machine_inj.mp hm
  cases hr with
  | ok hy => exact ⟨t, ht, hw₁, hy⟩

namespace Lawful

variable (L : I.Lawful names)
include L

theorem nodeOk {i : ExprId} (h : I.expr ⟨a, l + 1, i⟩) (hn : a.node? i = some n) :
    I.NodeOk names a l n := by
  rcases L.expr_step h with ⟨hz, -⟩ | ⟨m, hm, -, hok⟩
  · exact absurd hz (Nat.succ_ne_zero l)
  · obtain rfl : l = m := Nat.succ.inj hm
    exact hok n hn

theorem related_evalExpr (hcalls : I.calls c.stack q) (hf : I.scope s c.frame) {i : ExprId}
    (hi : I.expr ⟨c.arena, l, i⟩) :
    I.diagonal.Related s c c I.diagonal.value (Eval.evalExpr names (Eval.callValue names q) l i)
      (Eval.evalExpr names (Eval.callValue names q) l i) :=
  L.diagonal.evalExpr (L.diagonal.callValue hcalls) ⟨rfl, hi⟩ s c.frame c.frame ⟨rfl, hf⟩

/-- Expressions of a list have been evaluated. -/
theorem evalArgs_ok (hcalls : I.calls c.stack q) (hf : I.scope s c.frame) (hw : I.world s w)
    (hids : ∀ i ∈ ids, I.expr ⟨c.arena, l, i⟩) {vs : List Value}
    (h : Eval.evalArgs (Eval.evalExpr names (Eval.callValue names q) l) ids (c.machine w) =
      (.ok vs, c.machine w')) : ∃ t, s ≤ t ∧ I.world t w' ∧ ∀ v ∈ vs, I.value t v := by
  have hall : List.Forall₂ (fun i j => i = j ∧ I.expr ⟨c.arena, l, i⟩) ids ids :=
    List.forall₂_same.mpr fun i hi => ⟨rfl, hids i hi⟩
  have hrelated : I.diagonal.Related s c c (fun t => List.Forall₂ (I.diagonal.value t))
      (Eval.evalArgs (Eval.evalExpr names (Eval.callValue names q) l) ids)
      (Eval.evalArgs (Eval.evalExpr names (Eval.callValue names q) l) ids) := by
    refine L.diagonal.evalArgs ?_ hall (le_refl s)
    rintro i _ ⟨rfl, hi⟩
    exact L.related_evalExpr hcalls hf hi
  obtain ⟨t, ht, hw', hvs⟩ := ok_of_related hrelated hw h
  exact ⟨t, ht, hw', of_diagonal_values hvs⟩

/-- The statements of a body may be descended to when the body may. -/
theorem statements {b : ExprId} (h : I.expr ⟨a, b + 1, b⟩) (hs : a.statements? b = some (l, ids)) :
    ∀ i ∈ ids, I.expr ⟨a, l, i⟩ := by
  unfold Arena.statements? at hs
  cases hn : a.node? b with
  | none => simp [hn] at hs
  | some nd =>
    cases nd with
    | block t =>
      obtain ⟨ids', hids, rfl, rfl⟩ : ∃ ids', a.list? t = some ids' ∧ b = l ∧ ids' = ids := by
        simpa [hn] using hs
      exact (L.nodeOk h hn).list t (by simp [Node.spans]) _ hids
    | _ =>
      obtain ⟨rfl, rfl⟩ : b + 1 = l ∧ [b] = ids := by simpa [hn] using hs
      intro i hi
      obtain rfl := List.mem_singleton.mp hi
      exact h

end Lawful
end Invariant

/-! ## Moments -/

/-- What begins satisfies an invariant: where it begins, and in what it is given. -/
structure Moment.Satisfies (I : Invariant σ) (s : σ) (m : Moment) : Prop where
  world : I.world s m.world
  calls : I.calls m.stack m.room
  task : match m.task with
    | .expr l i => I.scope s m.context.frame ∧ I.expr ⟨m.context.arena, l, i⟩
    | .call v vs => I.value s v ∧ ∀ u ∈ vs, I.value s u
    | .body b => I.scope s m.context.frame ∧ I.expr ⟨m.context.arena, b + 1, b⟩

variable [Preorder σ] {m n : Moment} {calls : List String}

/-- **A step**: what begins directly satisfies the invariant as well. -/
theorem Begins.satisfies (L : I.Lawful names) (h : Begins names m calls n) (hm : m.Satisfies I s) :
    ∃ t, s ≤ t ∧ n.Satisfies I t := by
  cases h with
  | operand hn hids hdone =>
    have hoperand := (L.nodeOk hm.task.2 hn).operands
    rw [hids] at hoperand
    obtain ⟨t, ht, hw, -⟩ := L.evalArgs_ok hm.calls hm.task.1 hm.world
      (fun i hi => hoperand i (by simp [hi])) hdone
    exact ⟨t, ht, hw, hm.calls, L.scope_mono ht hm.task.1, hoperand _ (by simp)⟩
  | branch hn hcond hj =>
    have hchild := (L.nodeOk hm.task.2 hn).child
    obtain ⟨t, ht, hw, -⟩ := Invariant.ok_of_related (L.related_evalExpr hm.calls hm.task.1
      (hchild _ (by simp [Node.children]))) hm.world hcond
    refine ⟨t, ht, hw, hm.calls, L.scope_mono ht hm.task.1, hchild _ ?_⟩
    split at hj
    · obtain rfl := Option.some.inj hj
      simp [Node.children]
    · simp [Node.children, hj]
  | @statement q l id c w w' _ done _ _ _ hn hids hdone =>
    have hstmt := (L.nodeOk hm.task.2 hn).list _ (by simp [Node.spans]) _ hids
    obtain ⟨t, ht, hw, hf⟩ := L.child hm.world (L.scope_captured hm.task.1)
    have hbefore : ∀ i ∈ done, I.expr ⟨c.arena, l, i⟩ := fun i hi => hstmt i (by simp [hi])
    have hcalls : I.calls (c.inFrame w.heap.size).stack q := hm.calls
    obtain ⟨u, hu, hw', -⟩ := L.evalArgs_ok hcalls hf hw hbefore hdone
    exact ⟨u, le_trans ht hu, hw', hm.calls, L.scope_mono hu hf, hstmt _ (by simp)⟩
  | call hn hids hdone =>
    have hoperand := (L.nodeOk hm.task.2 hn).operands
    rw [Node.operands_call hids] at hoperand
    obtain ⟨t, ht, hw, hvs⟩ := L.evalArgs_ok hm.calls hm.task.1 hm.world hoperand hdone
    exact ⟨t, ht, hw, hm.calls, hvs _ (by simp), fun u hu => hvs u (by simp [hu])⟩
  | body hact hroom =>
    obtain ⟨hclosure, hargs⟩ := hm.task
    obtain ⟨t, ht, hw, -, hf⟩ := Invariant.ok_of_related
      (L.diagonal.activate ⟨rfl, hclosure⟩ (Invariant.diagonal_values hargs)) hm.world hact
    rcases L.enter ⟨_⟩ hm.calls hroom with ⟨hz, -⟩ | ⟨p, hp, hcalls⟩
    · exact absurd hz (Nat.succ_ne_zero _)
    · obtain rfl := Nat.succ.inj hp
      exact ⟨t, ht, hw, hcalls, hf, L.body (L.closure_code hclosure)⟩
  | inBody hids hdone =>
    have hstmt := L.statements hm.task.2 hids
    obtain ⟨t, ht, hw, -⟩ := L.evalArgs_ok hm.calls hm.task.1 hm.world
      (fun i hi => hstmt i (by simp [hi])) hdone
    exact ⟨t, ht, hw, hm.calls, L.scope_mono ht hm.task.1, hstmt _ (by simp)⟩

/-- **A run**: so does all that begins in its course. -/
theorem During.satisfies (L : I.Lawful names) (h : During names m calls n)
    (hm : m.Satisfies I s) : ∃ t, s ≤ t ∧ n.Satisfies I t := by
  induction h generalizing s with
  | here => exact ⟨s, le_refl s, hm⟩
  | later h _ ih =>
    obtain ⟨t, ht, hn⟩ := h.satisfies L hm
    obtain ⟨u, hu, ho⟩ := ih hn
    exact ⟨u, le_trans ht hu, ho⟩

namespace Moment.Satisfies

theorem related (L : I.Lawful names) (hm : m.Satisfies I s) :
    I.diagonal.Related s m.context m.context I.diagonal.value (m.eval names) (m.eval names) := by
  obtain ⟨q, task, c, w⟩ := m
  have hcall := L.diagonal.callValue hm.calls
  cases task with
  | expr l i => exact L.related_evalExpr hm.calls hm.task.1 hm.task.2
  | call v vs =>
    exact hcall s c c v v vs vs rfl rfl (Invariant.diagonal_value_iff.mpr ⟨rfl, hm.task.1⟩)
      (Invariant.diagonal_values hm.task.2)
  | body b => exact L.diagonal.runBody hcall ⟨rfl, hm.task.2⟩ s c.frame c.frame ⟨rfl, hm.task.1⟩

/-- **What begins ends as the invariant has it**, in the context in which it began. -/
theorem ends (L : I.Lawful names) (hm : m.Satisfies I s) : ∃ t r w, s ≤ t ∧
    m.eval names (m.context.machine m.world) = (r, m.context.machine w) ∧ I.world t w ∧
      I.Ends m.stack t r := by
  obtain ⟨t, r, r', w, _, ht, ⟨rfl, hw⟩, h, h', hr⟩ :=
    hm.related L s m.world m.world (le_refl s) ⟨rfl, hm.world⟩
  refine ⟨t, r, w, ht, h, hw, ?_⟩
  cases hr with
  | ok hv => exact (Invariant.diagonal_value_iff.mp hv).2
  | left hu =>
    cases hu with
    | error he => exact he.2
    | ret hv => exact (Invariant.diagonal_value_iff.mp hv).2
    | fault hf => exact hf.2

end Moment.Satisfies
end ClosureLang
