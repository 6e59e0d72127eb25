/-!
# Names

A program never compares texts: each distinct text has a slot, and a name is that slot. Two
names of one table are equal exactly when their texts are, which is what makes a scope a map
from slots.
-/

namespace ClosureLang

/-- An identifier or string literal, known by its slot in a table of texts. -/
structure Name where
  slot : Nat
  deriving DecidableEq, Hashable, Repr, Inhabited

namespace Name

/-- The name of the empty text: every table reserves slot 0 for it. -/
def empty : Name := ⟨0⟩

/-- How a name is written where its text is not at hand. -/
def debug (n : Name) : String := s!"Name({n.slot})"

end Name
end ClosureLang
