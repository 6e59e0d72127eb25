import ClosureLang.Interner
import ClosureLang.Program.Arena

/-!
# Building programs

An author writes a node as a `Form`: the same kinds as `Node`, but with texts where a node has
names and with lists where a node has stretches of a side table. `Builder.add` interns the
texts, stores the lists and appends the node; the position of a form is the number of forms
added before it.

Texts are interned in the order in which a reader meets them: a function's own name before its
parameters. Only names and text literals are interned.
-/

namespace ClosureLang

/-- A node as an author writes it. Children are positions of forms added before. -/
inductive Form where
  | number (x : Float)
  | bool (b : Bool)
  | text (s : String)
  | void
  | ident (name : String)
  | letIn (name : String) (init : ExprId)
  | assign (name : String) (value : ExprId)
  | compound (op : BinaryOp) (name : String) (value : ExprId)
  | binary (op : BinaryOp) (left right : ExprId)
  | function (name : Option String) (params : List String) (body : ExprId)
  | call (callee : ExprId) (args : List ExprId)
  | print (args : List ExprId)
  | block (stmts : List ExprId)
  | ifElse (cond thenBranch : ExprId) (elseBranch : Option ExprId)
  | ret (value : Option ExprId)
  deriving Inhabited

/-- A program under construction, over the table of texts that it shares with others. -/
structure Builder where
  names : Interner
  arena : Arena

namespace Builder

/-- Nothing built yet, over texts that may already be known. -/
def start (names : Interner) : Builder := ⟨names, .empty⟩

def next (b : Builder) : ExprId := b.arena.size

/-- Interns the texts and stores the lists of a form. -/
def node (b : Builder) : Form → Node × Builder
  | .number x => (.number x, b)
  | .bool v => (.bool v, b)
  | .text s =>
    let (n, names) := b.names.intern s
    (.str n, { b with names })
  | .void => (.void, b)
  | .ident s =>
    let (n, names) := b.names.intern s
    (.ident n, { b with names })
  | .letIn s init =>
    let (n, names) := b.names.intern s
    (.letIn n init, { b with names })
  | .assign s value =>
    let (n, names) := b.names.intern s
    (.assign n value, { b with names })
  | .compound op s value =>
    let (n, names) := b.names.intern s
    (.compound op n value, { b with names })
  | .binary op left right => (.binary op left right, b)
  | .function none params body =>
    let (ns, names) := b.names.internAll params
    let (span, arena) := b.arena.pushParams ns
    (.function ⟨none, span, body⟩, ⟨names, arena⟩)
  | .function (some s) params body =>
    let (n, names) := b.names.intern s
    let (ns, names) := names.internAll params
    let (span, arena) := b.arena.pushParams ns
    (.function ⟨some n, span, body⟩, ⟨names, arena⟩)
  | .call callee args =>
    let (span, arena) := b.arena.pushList args
    (.call callee span, { b with arena })
  | .print args =>
    let (span, arena) := b.arena.pushList args
    (.print span, { b with arena })
  | .block stmts =>
    let (span, arena) := b.arena.pushList stmts
    (.block span, { b with arena })
  | .ifElse cond thenBranch elseBranch => (.ifElse cond thenBranch elseBranch, b)
  | .ret value => (.ret value, b)

/-- Appends a form to the program. Its position is `b.next`. -/
def add (b : Builder) (f : Form) : Builder :=
  let (n, b) := b.node f
  { b with arena := b.arena.push n }

def addAll (b : Builder) (fs : List Form) : Builder := fs.foldl add b

end Builder
end ClosureLang
