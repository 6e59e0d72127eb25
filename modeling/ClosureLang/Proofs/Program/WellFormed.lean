import ClosureLang.Value

/-!
# Programs that refer to themselves correctly

A node refers to children, to stretches of the table of lists, and, if it is a function literal,
to a stretch of the table of parameters. A program is well formed when these stretches lie in
their tables and every child comes before its parent, which is how a builder makes programs. A
piece of code is well formed when its program is and it lies in it.
-/

namespace ClosureLang

namespace Node

/-- The children that a node names itself. -/
def children : Node → List ExprId
  | letIn _ i | assign _ i | compound _ _ i => [i]
  | binary _ l r => [l, r]
  | function d => [d.body]
  | call callee _ => [callee]
  | ifElse c t e => c :: t :: e.toList
  | ret v => v.toList
  | _ => []

/-- The stretches that hold its further children. -/
def spans : Node → List Span
  | call _ s | print s | block s => [s]
  | _ => []

/-- The function literal that it is. -/
def definitions : Node → List FunctionDef
  | function d => [d]
  | _ => []

end Node

/-- All that a program's nodes refer to is there, and comes before them. -/
structure Arena.WellFormed (a : Arena) : Prop where
  child_lt : ∀ {i : Nat} {n}, a.node? i = some n → ∀ j : Nat, j ∈ n.children → j < i
  list_lt : ∀ {i : Nat} {n}, a.node? i = some n → ∀ s ∈ n.spans,
    ∃ ids, a.list? s = some ids ∧ ∀ j : Nat, j ∈ ids → j < i
  params : ∀ {i n}, a.node? i = some n → ∀ d ∈ n.definitions, ∃ ps, a.params? d.params = some ps

/-- Code that lies in a well-formed program. -/
structure FunctionCode.WellFormed (c : FunctionCode) : Prop where
  arena : c.arena.WellFormed
  body_lt : c.body < c.arena.size
  params : ∃ ps, c.params? = some ps

theorem Arena.lt_size_of_node? {a : Arena} {i : ExprId} {n : Node} (h : a.node? i = some n) :
    i < a.size := by
  obtain ⟨hi, -⟩ := Array.getElem?_eq_some_iff.mp h
  exact hi

theorem Arena.node?_of_lt {a : Arena} {i : ExprId} (h : i < a.size) : ∃ n, a.node? i = some n :=
  ⟨_, Array.getElem?_eq_getElem h⟩

theorem Arena.WellFormed.lt_of_mem_list {a : Arena} (ha : a.WellFormed) {i j : Nat} {n : Node}
    {s : Span} {ids : List ExprId} (hn : a.node? i = some n) (hs : s ∈ n.spans)
    (hids : a.list? s = some ids) (hj : j ∈ ids) : j < i := by
  obtain ⟨ids', hids', hlt⟩ := ha.list_lt hn s hs
  obtain rfl : ids = ids' := Option.some.inj (hids.symm.trans hids')
  exact hlt j hj

/-- Literals of a well-formed program are well-formed code. -/
theorem Arena.WellFormed.code {a : Arena} (ha : a.WellFormed) {i : ExprId} {d : FunctionDef}
    (h : a.node? i = some (.function d)) (name : Option String) :
    FunctionCode.WellFormed ⟨a, d, name⟩ where
  arena := ha
  body_lt := Nat.lt_trans (ha.child_lt h d.body (by simp [Node.children]))
    (lt_size_of_node? h)
  params := ha.params h d (by simp [Node.definitions])

/-! ## Checking a program -/

theorem Arena.wellFormed_iff {a : Arena} : a.WellFormed ↔ ∀ i < a.size, ∀ n ∈ a.node? i,
    (∀ j ∈ n.children, j < i) ∧ (∀ s ∈ n.spans, ∃ ids ∈ a.list? s, ∀ j ∈ ids, j < i) ∧
      ∀ d ∈ n.definitions, (a.params? d.params).isSome := by
  constructor
  · intro ha i _ n hn
    exact ⟨ha.child_lt hn, ha.list_lt hn, fun d hd => Option.isSome_iff_exists.mpr
      (ha.params hn d hd)⟩
  · intro h
    exact ⟨fun hn => (h _ (lt_size_of_node? hn) _ hn).1,
      fun hn => (h _ (lt_size_of_node? hn) _ hn).2.1,
      fun hn d hd => Option.isSome_iff_exists.mp ((h _ (lt_size_of_node? hn) _ hn).2.2 d hd)⟩

instance (a : Arena) : Decidable a.WellFormed := decidable_of_iff' _ Arena.wellFormed_iff

theorem FunctionCode.wellFormed_iff {c : FunctionCode} :
    c.WellFormed ↔ c.arena.WellFormed ∧ c.body < c.arena.size ∧ c.params?.isSome :=
  ⟨fun h => ⟨h.arena, h.body_lt, Option.isSome_iff_exists.mpr h.params⟩,
    fun ⟨ha, hb, hp⟩ => ⟨ha, hb, Option.isSome_iff_exists.mp hp⟩⟩

instance (c : FunctionCode) : Decidable c.WellFormed :=
  decidable_of_iff' _ FunctionCode.wellFormed_iff

end ClosureLang
