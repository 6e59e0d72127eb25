/-!
# Binary operators

The ten operators of the language and the symbols that write them. What an operator does to two
values is in `Operator/Apply`.
-/

namespace ClosureLang

inductive BinaryOp where
  | add
  | sub
  | mul
  | div
  | eq
  | ne
  | lt
  | le
  | gt
  | ge
  deriving DecidableEq, Repr, Inhabited

namespace BinaryOp

def symbol : BinaryOp → String
  | add => "+"
  | sub => "-"
  | mul => "*"
  | div => "/"
  | eq => "=="
  | ne => "!="
  | lt => "<"
  | le => "<="
  | gt => ">"
  | ge => ">="

/-- Every operator once. -/
def all : List BinaryOp := [add, sub, mul, div, eq, ne, lt, le, gt, ge]

/-- The operator that a symbol writes. -/
def ofSymbol? (s : String) : Option BinaryOp := all.find? (·.symbol == s)

end BinaryOp
end ClosureLang
