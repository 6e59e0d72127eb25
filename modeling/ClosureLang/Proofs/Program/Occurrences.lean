import ClosureLang.Proofs.Program.WellFormed

/-!
# Where an expression occurs

An expression may lie in another one more than once, since programs share subterms. An occurrence
is told by the expressions that enclose it (`Occurs`). Of these the blocks are the ones that matter
for scopes: what occurs with no block around it is evaluated in the scope of the whole. So the names
that evaluating an expression may declare there are those of the `let`s that occur in this way
(`Arena.OwnLet`).
-/

namespace ClosureLang

/-- The expressions that lie directly in a node, outside of function literals. -/
def Node.inner (a : Arena) : Node → List ExprId
  | function _ => []
  | n => n.children ++ n.spans.flatMap fun s => (a.list? s).getD []

/-- **How an expression occurs in `root`** outside of function literals other than itself: it is
enclosed by these, the innermost first. -/
inductive Occurs (a : Arena) (root : ExprId) : List ExprId → ExprId → Prop
  | root : Occurs a root [] root
  | inner {above : List ExprId} {i j : ExprId} {n : Node} (h : Occurs a root above i)
      (hn : a.node? i = some n) (hj : j ∈ n.inner a) : Occurs a root (i :: above) j

namespace Arena

def isBlock (a : Arena) (i : ExprId) : Bool :=
  match a.node? i with
  | some (.block _) => true
  | _ => false

/-- How many blocks there are among the expressions. -/
def blocks (a : Arena) (ids : List ExprId) : Nat := ids.countP a.isBlock

variable {a : Arena} {i : ExprId}

theorem blocks_cons_of_block (h : a.isBlock i = true) (ids : List ExprId) :
    a.blocks (i :: ids) = a.blocks ids + 1 := List.countP_cons_of_pos h

theorem blocks_cons_of_not_block (h : a.isBlock i = false) (ids : List ExprId) :
    a.blocks (i :: ids) = a.blocks ids := List.countP_cons_of_neg (by simp [h])

theorem isBlock_eq_false {n : Node} (hn : a.node? i = some n) (h : ∀ s, n ≠ .block s) :
    a.isBlock i = false := by
  rw [isBlock, hn]
  cases n with
  | block s => exact absurd rfl (h s)
  | _ => rfl

end Arena

/-! ## From a part to the whole -/

variable {a : Arena} {above : List ExprId} {i j k : ExprId} {n : Name} {nd : Node}

/-- The expression at which it all begins encloses what its parts enclose. -/
theorem Occurs.head (hn : a.node? i = some nd) (hj : j ∈ nd.inner a) (h : Occurs a j above k) :
    Occurs a i (above ++ [i]) k := by
  induction h with
  | root => exact .inner .root hn hj
  | inner _ hn' hk ih => exact .inner ih hn' hk

namespace Arena

/-- A `let` of `n` that is evaluated in the scope of `root` itself: it occurs there neither in a
block nor in a function literal. -/
def OwnLet (a : Arena) (root : ExprId) (n : Name) : Prop :=
  ∃ above i init, Occurs a root above i ∧ a.blocks above = 0 ∧ a.node? i = some (.letIn n init)

theorem OwnLet.of_letIn {init : ExprId} (hn : a.node? i = some (.letIn n init)) : a.OwnLet i n :=
  ⟨[], i, init, .root, rfl, hn⟩

/-- The parts of anything but a block share its scope. -/
theorem OwnLet.of_inner (hn : a.node? i = some nd) (hblock : ∀ s, nd ≠ .block s)
    (hj : j ∈ nd.inner a) (h : a.OwnLet j n) : a.OwnLet i n := by
  obtain ⟨above, k, init, hoccurs, hblocks, hk⟩ := h
  refine ⟨above ++ [i], k, init, hoccurs.head hn hj, ?_, hk⟩
  rw [blocks, List.countP_append, List.countP_cons_of_neg (by simp [isBlock_eq_false hn hblock])]
  exact hblocks

end Arena

end ClosureLang
