import ClosureLang.Proofs.Eval.BodyScopes

/-!
# When an occurrence is evaluated

In the course of evaluating an expression, those evaluated in the same activation are such as occur
in it, and `Visits` says at which moment which occurrence is evaluated. Every moment of the
activation is one of these (`During.visits`).

Of the enclosing expressions the blocks are those that matter for scopes. The step from one
expression into the next leads into a new scope, inside the present one, if the expression is a
block, and stays in the present one otherwise (`Begins.scope_of_expr`).
-/

namespace ClosureLang

theorem Node.inner_of_operands {a : Arena} {n : Node} {i : ExprId} (h : i ∈ n.operands a) :
    i ∈ n.inner a := by
  cases n <;> simp_all [operands, inner, children, spans]

variable {names : Interner} {m n o k : Moment} {calls : List String} {l l' : Nat}
  {i j : ExprId} {above : List ExprId}

/-! ## One step -/

/-- What is evaluated directly in the course of an expression lies directly in it. -/
theorem Begins.inner (h : Begins names n calls o) (hn : n.task = .expr l i)
    (ho : o.task = .expr l' j) :
    ∃ nd, n.context.arena.node? i = some nd ∧ j ∈ nd.inner n.context.arena := by
  cases h with
  | operand hnode hids hdone =>
    cases hn
    cases ho
    exact ⟨_, hnode, Node.inner_of_operands (by simp [hids])⟩
  | branch hnode hcond hj =>
    cases hn
    cases ho
    refine ⟨_, hnode, ?_⟩
    split at hj
    · obtain rfl := Option.some.inj hj
      simp [Node.inner, Node.children]
    · simp [Node.inner, Node.children, hj]
  | statement hnode hids hdone =>
    cases hn
    cases ho
    exact ⟨_, hnode, by simp [Node.inner, Node.children, Node.spans, hids]⟩
  | call => cases ho
  | body => cases ho
  | inBody => cases hn

/-- **Only a block has a scope of its own.** -/
theorem Begins.scope_of_expr (h : Begins names n calls o) (hn : n.task = .expr l i) :
    (n.context.arena.isBlock i = true ∧ o.NewScope n.world.heap n.context.frame) ∨
      (n.context.arena.isBlock i = false ∧ o.context.frame = n.context.frame) := by
  cases h with
  | operand hnode hids hdone =>
    cases hn
    refine .inr ⟨Arena.isBlock_eq_false hnode ?_, rfl⟩
    rintro s rfl
    simp [Node.operands] at hids
  | branch hnode hcond hj =>
    cases hn
    exact .inr ⟨Arena.isBlock_eq_false hnode (by simp), rfl⟩
  | statement hnode hids hdone =>
    cases hn
    obtain ⟨hlt, hp⟩ := (Eval.evalArgs_grown hdone).child
    exact .inl ⟨by simp [Arena.isBlock, hnode], Nat.le_refl _, hlt, hp⟩
  | call hnode hids hdone =>
    cases hn
    exact .inr ⟨Arena.isBlock_eq_false hnode (by simp), rfl⟩
  | body => cases hn
  | inBody => cases hn

/-- A statement of a body is evaluated in the scope of the body. -/
theorem Begins.statement_of_body (h : Begins names m calls n) (hm : m.task = .body i) :
    n.context = m.context ∧ ∃ l ids s, m.context.arena.statements? i = some (l, ids) ∧ s ∈ ids ∧
      n.task = .expr l s := by
  cases h with
  | inBody hids hdone =>
    cases hm
    exact ⟨rfl, _, _, _, hids, by simp, rfl⟩
  | _ => cases hm

/-! ## Occurrences that are evaluated -/

/-- **In the course of evaluating the expression at `m`, and in the same activation, an occurrence
is evaluated at `n`**: the one that these expressions enclose. -/
inductive Visits (names : Interner) (m : Moment) : List ExprId → Moment → Prop
  | here : Visits names m [] m
  | inner {above : List ExprId} {n o : Moment} {l : Nat} {i : ExprId} (h : Visits names m above n)
      (hn : n.task = .expr l i) (hb : Begins names n [] o) : Visits names m (i :: above) o

namespace Visits

theorem arena_eq (h : Visits names m above n) : n.context.arena = m.context.arena := by
  induction h with
  | here => rfl
  | inner _ _ hb ih => rw [hb.scope.1, ih]

/-- What is evaluated occurs in what was to be evaluated. -/
theorem occurs (h : Visits names m above n) (hm : m.task = .expr l i)
    (hn : n.task = .expr l' j) : Occurs m.context.arena i above j := by
  induction h generalizing l' j with
  | here =>
    cases hm.symm.trans hn
    exact .root
  | inner h ho hb ih =>
    obtain ⟨nd, hnode, hj⟩ := hb.inner ho hn
    rw [h.arena_eq] at hnode hj
    exact .inner (ih ho) hnode hj

theorem during (h : Visits names m above n) : During names m [] n := by
  induction h with
  | here => exact .here m
  | inner _ _ hb ih => exact ih.trans (.later hb (.here _))

/-- What no block encloses is evaluated in the scope in which it all begins. -/
theorem frame_eq (h : Visits names m above n) (hblocks : m.context.arena.blocks above = 0) :
    n.context.frame = m.context.frame := by
  induction h with
  | here => rfl
  | @inner above n o l i h hn hb ih =>
    rcases hb.scope_of_expr hn with ⟨hblock, -⟩ | ⟨hblock, hframe⟩
    · rw [h.arena_eq] at hblock
      rw [Arena.blocks_cons_of_block hblock] at hblocks
      exact absurd hblocks (Nat.succ_ne_zero _)
    · rw [h.arena_eq] at hblock
      rw [Arena.blocks_cons_of_not_block hblock] at hblocks
      exact hframe.trans (ih hblocks)

/-- The expression at which it all begins encloses what its parts enclose. -/
theorem head (hb : Begins names m [] k) (hm : m.task = .expr l i) (h : Visits names k above n) :
    Visits names m (above ++ [i]) n := by
  induction h with
  | here => exact .inner .here hm hb
  | inner _ ho hb' ih => exact .inner ih ho hb'

end Visits

/-- All that begins directly in the course of a call is a body, which is entered. -/
theorem During.eq_of_call {v : Value} {vs : List Value} (h : During names m calls n)
    (hcalls : calls = []) (hm : m.task = .call v vs) : n = m := by
  cases h with
  | here => rfl
  | later hb _ =>
    obtain ⟨-, rfl⟩ := List.append_eq_nil_iff.mp hcalls
    cases hb <;> cases hm

/-- **Everything that begins in the activation is an occurrence being evaluated**, or a call that
one makes. -/
theorem During.visits (h : During names m calls n) (hcalls : calls = [])
    (hm : m.task = .expr l i) : ∃ above, Visits names m above n := by
  induction h generalizing l i with
  | here => exact ⟨[], .here⟩
  | @later m k n calls inner hb hrest ih =>
    obtain ⟨hinner, rfl⟩ := List.append_eq_nil_iff.mp hcalls
    cases hk : k.task with
    | expr l' j =>
      obtain ⟨above, hvisits⟩ := ih hinner hk
      exact ⟨_, hvisits.head hb hm⟩
    | call v vs =>
      obtain rfl := hrest.eq_of_call hinner hk
      exact ⟨[i], .inner .here hm hb⟩
    | body b => cases hb <;> cases hk

/-- In a body, it is an occurrence in one of the statements. -/
theorem During.visits_statement (h : During names m calls n) (hcalls : calls = [])
    (hm : m.task = .body i) (hn : n.task = .expr l j) :
    ∃ s above, Begins names m [] s ∧ Visits names s above n := by
  cases h with
  | here => cases hm.symm.trans hn
  | @later _ k _ calls inner hb hrest =>
    obtain ⟨hinner, rfl⟩ := List.append_eq_nil_iff.mp hcalls
    obtain ⟨-, _, _, s, -, -, hs⟩ := hb.statement_of_body hm
    obtain ⟨above, hv⟩ := hrest.visits hinner hs
    exact ⟨k, above, hb, hv⟩

end ClosureLang
