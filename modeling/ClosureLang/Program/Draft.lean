import ClosureLang.Program.Builder

/-!
# Drafts

A `Draft` writes a program step by step. Each step adds one form and yields its position, so
that later steps can refer to it.
-/

namespace ClosureLang

/-- A step of writing a program. -/
abbrev Draft (α : Type) := StateM Builder α

namespace Draft

/-- Adds a form. -/
def place (f : Form) : Draft ExprId := fun b => (b.next, b.add f)

def number (x : Float) : Draft ExprId := place (.number x)

def text (s : String) : Draft ExprId := place (.text s)

def ident (name : String) : Draft ExprId := place (.ident name)

def letIn (name : String) (init : ExprId) : Draft ExprId := place (.letIn name init)

def compound (op : BinaryOp) (name : String) (value : ExprId) : Draft ExprId :=
  place (.compound op name value)

def function (name : Option String) (params : List String) (body : ExprId) : Draft ExprId :=
  place (.function name params body)

def call (callee : ExprId) (args : List ExprId) : Draft ExprId := place (.call callee args)

def print (args : List ExprId) : Draft ExprId := place (.print args)

def block (stmts : List ExprId) : Draft ExprId := place (.block stmts)

def ret (value : Option ExprId) : Draft ExprId := place (.ret value)

/-- Writes a program over a table of texts, and yields the position of its root. -/
def build (d : Draft ExprId) (names : Interner) : ExprId × Builder := d (.start names)

end Draft
end ClosureLang
