/-!
# Registers

A host keeps what it holds under names of its own choosing. Storing under a name in use lets go
of what was there.
-/

namespace ClosureLang.Host

/-- What is held, under its register's name. A name occurs at most once. -/
abbrev Registers (α : Type) := List (String × α)

namespace Registers

variable {α : Type}

def get? (rs : Registers α) (r : String) : Option α := (rs.find? (·.1 = r)).map Prod.snd

def contains (rs : Registers α) (r : String) : Bool := (rs.get? r).isSome

/-- Empties a register. -/
def erase (rs : Registers α) (r : String) : Registers α := rs.filter (·.1 ≠ r)

/-- Stores in a register. -/
def put (rs : Registers α) (r : String) (a : α) : Registers α := (r, a) :: rs.erase r

/-- Everything held. -/
def values (rs : Registers α) : List α := rs.map Prod.snd

theorem get?_erase (rs : Registers α) (r q : String) :
    (rs.erase r).get? q = if q = r then none else rs.get? q := by
  unfold get? erase
  rw [List.find?_filter]
  split
  · subst q
    simp
  · rename_i h
    congr 2
    funext e
    by_cases he : e.1 = q <;> simp [he, h]

theorem get?_put (rs : Registers α) (r q : String) (a : α) :
    (rs.put r a).get? q = if q = r then some a else rs.get? q := by
  have h := get?_erase rs r q
  by_cases hq : r = q
  · simp [put, get?, hq]
  · simpa [put, get?, hq, Ne.symm hq] using h

end Registers
end ClosureLang.Host
