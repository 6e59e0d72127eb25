import ClosureLang.Activation
import ClosureLang.Ledger

/-!
# Frames with their counts

A `Store` is a heap with its ledger. Each operation does to the heap what the operation of the same
name does there, and keeps the ledger up with it: whoever is given a handle is its owner and has to
hand it on or let go of it. Creating, reading and capturing give a handle out. Binding, assigning
and passing take the value, with its handle: on success the frame is the owner, and on failure it
is let go of.
-/

namespace ClosureLang

structure Store where
  heap : Heap
  ledger : Ledger

namespace Store

variable {ε α : Type}

/-- Copies handles. -/
def retain (fs : List FrameId) : Store → Store
  | ⟨heap, ledger⟩ => ⟨heap, ledger.retain fs⟩

/-- Lets go of handles. -/
def release (fs : List FrameId) : Store → Store
  | ⟨heap, ledger⟩ => ⟨heap, ledger.release heap fs⟩

/-- Runs an operation on the frames, and leaves the numbers as they are. -/
def onHeap (op : Attempt Heap ε α) : Attempt Store ε α := fun ⟨heap, ledger⟩ =>
  let (r, heap) := op heap
  (r, ⟨heap, ledger⟩)

/-- The handle in what a name is resolved to. -/
def slot (f : FrameId) (n : Name) (s : Store) : List FrameId :=
  (s.heap.owner? f n).elim [] fun g => (s.heap.valueAt g n).handles

/-! ## Handles that are given out -/

/-- A frame inside another one, to which it has a handle of its own, or an outermost one. -/
def newFrame (parent : Option FrameId) : Store → FrameId × Store
  | ⟨heap, ledger⟩ =>
    let (f, heap) := heap.newFrame parent
    (f, ⟨heap, (ledger.retain parent.toList).enroll⟩)

def makeClosure (code : FunctionCode) (f : FrameId) : Store → Closure × Store
  | ⟨heap, ledger⟩ =>
    let (c, heap) := heap.makeClosure code f
    (c, ⟨heap, ledger.retain [f]⟩)

/-- A copy of what a variable holds. -/
def get (f : FrameId) (n : Name) : Attempt Store BindingError Value := fun s =>
  match s.heap.get f n with
  | .ok v => (.ok v, s.retain v.handles)
  | .error e => (.error e, s)

/-! ## Handles that are taken -/

def define (f : FrameId) (n : Name) (v : Value) : Attempt Store BindingError Unit :=
  .onFailure (release v.handles) (onHeap (Heap.define f n v))

/-- What the variable held is let go of. -/
def set (f : FrameId) (n : Name) (v : Value) : Attempt Store BindingError Unit := do
  let before ← .read (slot f n)
  .onFailure (release v.handles) (onHeap (Heap.set f n v))
  .modify (release before)

/-- What `change` yields is taken. Where it fails, the variable keeps what it held. -/
def update {ε : Type} (f : FrameId) (n : Name) (change : Value → Except ε Value) :
    Attempt Store BindingError (Except ε Value) := do
  let before ← .read (slot f n)
  match ← onHeap (Heap.update f n change) with
  | .ok v =>
    .modify (release before)
    pure (.ok v)
  | .error e => pure (.error e)

/-- Passes arguments, each to its parameter. The first that cannot be bound is let go of, and so
are those after it. -/
def bindParams (names : Interner) (f : FrameId) :
    List Name → List Value → Attempt Store EvalError Unit
  | n :: ns, v :: vs => do
    .onFailure (release (Value.allHandles vs)) ((define f n v).mapError (.ofBinding names))
    bindParams names f ns vs
  | _, vs => .modify (release (Value.allHandles vs))

/-- The frame for a call. If it cannot be filled, the frame is let go of, half bound as it is. -/
def activate (c : Closure) (names : Interner) (params : List Name) (args : List Value) :
    Attempt Store EvalError FrameId := fun s =>
  if params.length = args.length then
    let (f, s) := s.newFrame (some c.frame)
    match bindParams names f params args s with
    | (.ok _, s) => (.ok f, s)
    | (.error e, s) => (.error e, s.release [f])
  else
    (.error (.ofKind (.arityMismatch c.displayName params.length args.length)),
      s.release (Value.allHandles args))

end Store
end ClosureLang
