import ClosureLang.Name
import ClosureLang.Operator

/-!
# Programs as flat tables

A program is a table of nodes. A node refers to its children by their position in the table,
and one node may be the child of several, so a program is a graph that shares subterms rather
than a tree. Lists of children and parameter lists lie in two side tables; a node holds the
stretch of the side table that is its list.

Nothing in the type says that positions exist or that children come before their parents. What
a builder makes has both properties (`Program/Builder`); what reads a program asks for a node
and is told when there is none.
-/

namespace ClosureLang

/-- The position of a node in its program. -/
abbrev ExprId := Nat

/-- A stretch of a side table: `len` entries from `start` on. -/
structure Span where
  start : Nat
  len : Nat
  deriving DecidableEq, Repr, Inhabited

structure FunctionDef where
  /-- The name under which calls are reported; an anonymous function has none. -/
  name : Option Name
  /-- Its parameters, in the side table of names. -/
  params : Span
  body : ExprId
  deriving DecidableEq, Repr, Inhabited

/-- One expression. Everything in the language is an expression; those that only act yield
void. -/
inductive Node where
  | number (x : Float)
  | bool (b : Bool)
  | str (text : Name)
  | void
  | ident (name : Name)
  | letIn (name : Name) (init : ExprId)
  /-- Overwrites a name in the frame that owns it. -/
  | assign (name : Name) (value : ExprId)
  /-- Combines what a name holds with a value, and stores the outcome back. -/
  | compound (op : BinaryOp) (name : Name) (value : ExprId)
  | binary (op : BinaryOp) (left right : ExprId)
  | function (definition : FunctionDef)
  | call (callee : ExprId) (args : Span)
  | print (args : Span)
  /-- Statements in a scope of their own; the value is that of the last. -/
  | block (stmts : Span)
  | ifElse (cond thenBranch : ExprId) (elseBranch : Option ExprId)
  /-- Leaves the nearest call, or ends the program. -/
  | ret (value : Option ExprId)
  deriving Inhabited

structure Arena where
  nodes : Array Node
  lists : Array ExprId
  params : Array Name
  deriving Inhabited

namespace Arena

def empty : Arena := ⟨#[], #[], #[]⟩

def size (a : Arena) : Nat := a.nodes.size

def isEmpty (a : Arena) : Bool := a.size == 0

def node? (a : Arena) (i : ExprId) : Option Node := a.nodes[i]?

/-- The entries of a stretch of a side table; none when it runs past the table's end. -/
def slice? {α : Type} (table : Array α) (s : Span) : Option (List α) :=
  if s.start + s.len ≤ table.size then some (table.extract s.start (s.start + s.len)).toList
  else none

def list? (a : Arena) (s : Span) : Option (List ExprId) := slice? a.lists s

def params? (a : Arena) (s : Span) : Option (List Name) := slice? a.params s

/-- The sizes of the three tables, as shown to a host that inspects a program. -/
def debug (a : Arena) : String :=
  s!"ExprArena \x7b exprs: {a.nodes.size}, expr_lists: {a.lists.size}, params: {a.params.size} \x7d"

def push (a : Arena) (n : Node) : Arena := { a with nodes := a.nodes.push n }

def pushList (a : Arena) (ids : List ExprId) : Span × Arena :=
  (⟨a.lists.size, ids.length⟩, { a with lists := a.lists ++ ids.toArray })

def pushParams (a : Arena) (names : List Name) : Span × Arena :=
  (⟨a.params.size, names.length⟩, { a with params := a.params ++ names.toArray })

/-! ## Reading back -/

theorem node?_push (a : Arena) (n : Node) (i : ExprId) :
    (a.push n).node? i = if i = a.size then some n else a.node? i :=
  Array.getElem?_push

/-- Lists stored before stay where they are. -/
theorem slice?_append_left {α : Type} {table : Array α} {s : Span} (added : Array α)
    (h : s.start + s.len ≤ table.size) : slice? (table ++ added) s = slice? table s := by
  have h' : s.start + s.len ≤ table.size + added.size := by omega
  simp [slice?, h, h', Array.extract_append, Nat.sub_eq_zero_of_le h]

theorem list?_pushList (a : Arena) (ids : List ExprId) :
    (a.pushList ids).2.list? (a.pushList ids).1 = some ids := by
  simp [pushList, list?, slice?]

theorem params?_pushParams (a : Arena) (names : List Name) :
    (a.pushParams names).2.params? (a.pushParams names).1 = some names := by
  simp [pushParams, params?, slice?]

end Arena
end ClosureLang
