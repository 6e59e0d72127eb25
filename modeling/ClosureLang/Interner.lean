import ClosureLang.Name

/-!
# The table of texts

An `Interner` gives each text a slot and each slot its text. It is one table, the texts in the
order of their slots: `lookup` reads it by slot and `find?` by text.

A known text keeps its slot and a new one is appended, so slots are never reassigned and a name
handed out once keeps its text for good.
-/

namespace ClosureLang

/-- Texts by slot. No text occurs twice, and slot 0 holds the empty one, in every table that
`empty` and `intern` make. -/
structure Interner where
  texts : Array String
  deriving DecidableEq, Repr

def Interner.maxSlot : Nat := 4294967295

/-- Why a text could not be given a slot. -/
inductive InternError where
  /-- Every slot is taken; `count` texts are held. -/
  | overflow (count : Nat)
  deriving DecidableEq, Repr

namespace InternError

def message : InternError → String
  | overflow count => s!"interner exceeded capacity: {count} strings, max is {Interner.maxSlot}"

end InternError

namespace Interner

def empty : Interner := ⟨#[""]⟩

instance : Inhabited Interner := ⟨empty⟩

/-- The number of texts held, the empty one included. -/
def size (t : Interner) : Nat := t.texts.size

def isEmpty (t : Interner) : Bool := t.size ≤ 1

/-- The text of a name. A slot that this table has not issued reads as the empty text. -/
def lookup (t : Interner) (n : Name) : String := t.texts[n.slot]?.getD ""

def find? (t : Interner) (s : String) : Option Name := (t.texts.toList.findIdx? (· = s)).map Name.mk

def intern (t : Interner) (s : String) : Name × Interner :=
  match t.find? s with
  | some n => (n, t)
  | none => (⟨t.size⟩, ⟨t.texts.push s⟩)

/-- Like `intern`, refusing a new text once every slot up to `maxSlot` is taken. -/
def tryIntern (t : Interner) (s : String) : Except InternError (Name × Interner) :=
  if (t.find? s).isNone && maxSlot < t.size then .error (.overflow t.size) else .ok (t.intern s)

def internAll (t : Interner) : List String → List Name × Interner
  | [] => ([], t)
  | s :: rest =>
    let (n, t) := t.intern s
    let (ns, t) := t.internAll rest
    (n :: ns, t)

/-! ## Reading back -/

theorem lookup_of_find? {t : Interner} {s : String} {n : Name} (h : t.find? s = some n) :
    t.lookup n = s := by
  obtain ⟨i, hi, rfl⟩ := Option.map_eq_some_iff.1 h
  obtain ⟨hlt, hs, -⟩ := List.findIdx?_eq_some_iff_getElem.1 hi
  have hlt : i < t.texts.size := by simpa using hlt
  simpa [lookup, hlt] using hs

theorem lookup_intern (t : Interner) (s : String) : (t.intern s).2.lookup (t.intern s).1 = s := by
  unfold intern
  split
  · rename_i n h
    exact lookup_of_find? h
  · simp [lookup, size]

end Interner
end ClosureLang
