import ClosureLang.Eval.Counted
import ClosureLang.Host.Registers

/-!
# A host

A host holds tables of texts, programs, frames, values, print destinations and interpreters in
registers, and passes them to one another. Tables, programs and destinations are shared: several
registers and interpreters may refer to one of them, so they are numbered, and a register holds
the number.
-/

namespace ClosureLang

namespace Host

/-- An interpreter with the table of texts that it reads and the destination that it prints
to. -/
structure Resident where
  interpreter : Interpreter
  table : Nat
  sink : Nat

/-- An interpreter holds its outermost frame and its current scope. -/
def Resident.handles (r : Resident) : List FrameId :=
  [r.interpreter.globalFrame, r.interpreter.frame]

structure State where
  heap : Heap
  /-- Which frames are alive, and how often each is held. -/
  ledger : Ledger
  tables : Array Interner
  arenas : Array Arena
  sinks : Array Sink
  interners : Registers Nat
  names : Registers Name
  programs : Registers Nat
  frames : Registers FrameId
  /-- References to frames that do not keep them alive. -/
  weak : Registers FrameId
  values : Registers Value
  handlers : Registers Nat
  residents : Registers Resident
  callStacks : Registers CallStack
  errors : Registers EvalError

namespace State

/-- The register of the table of texts used where none is named. -/
def mainTable : String := "main"

/-- A host at the start: one table of texts, and the name of the empty text. -/
def start : State where
  heap := .empty
  ledger := .empty
  tables := #[.empty]
  arenas := #[]
  sinks := #[]
  interners := [(mainTable, 0)]
  names := [("empty", .empty)]
  programs := []
  frames := []
  weak := []
  values := []
  handlers := []
  residents := []
  callStacks := []
  errors := []

/-- The frames with their counts. -/
def store (s : State) : Store := ⟨s.heap, s.ledger⟩

def withStore (s : State) (t : Store) : State := { s with heap := t.heap, ledger := t.ledger }

/-- The frames that the host holds, once for each handle. An interpreter holds two, which between
two requests are handles to one frame. -/
def roots (s : State) : List FrameId :=
  s.frames.values ++ Value.allHandles s.values.values ++ s.residents.values.flatMap Resident.handles

end State
end Host
end ClosureLang
