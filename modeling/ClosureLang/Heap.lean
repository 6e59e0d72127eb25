import ClosureLang.Attempt
import ClosureLang.Value

/-!
# Frames

A frame is a scope: its bindings, and the frame around it. Frames live in a `Heap` and are
referred to by number. They are shared and never copied: a function value holds the number of
the frame it captured, so what one closure writes there every other one reads.

A name is resolved along the `chain` of a frame: the frame itself, the frame around it, and so
on outwards. The first frame of the chain that binds the name is its owner. Reading and
overwriting act on the owner; defining acts on the frame itself.

A heap only grows. A new frame's number is the number of frames before it, hence greater than
that of the frame around it, and a walk outwards comes to an end. A walk that does meets no frame
twice, so the number of frames bounds its length.
-/

namespace ClosureLang

structure Frame where
  /-- The enclosing scope; an outermost one has none. -/
  parent : Option FrameId
  depth : Nat
  /-- What it binds, the newest first. A name occurs at most once. -/
  bindings : List (Name × Value)
  deriving Inhabited

namespace Frame

def lookup? (f : Frame) (n : Name) : Option Value :=
  (f.bindings.find? (·.1 = n)).map Prod.snd

def binds (f : Frame) (n : Name) : Bool := (f.lookup? n).isSome

def bind (f : Frame) (n : Name) (v : Value) : Frame := { f with bindings := (n, v) :: f.bindings }

def overwrite (f : Frame) (n : Name) (v : Value) : Frame :=
  { f with bindings := f.bindings.map fun b => if b.1 = n then (n, v) else b }

theorem lookup?_bind (f : Frame) (n m : Name) (v : Value) :
    (f.bind n v).lookup? m = if m = n then some v else f.lookup? m := by
  by_cases h : n = m <;> simp [lookup?, bind, h, Ne.symm]

theorem lookup?_overwrite (f : Frame) (n m : Name) (v : Value) :
    (f.overwrite n v).lookup? m = if m = n then (f.lookup? n).map fun _ => v else f.lookup? m := by
  simp only [lookup?, overwrite]
  induction f.bindings with
  | nil => simp
  | cons b bs ih =>
    obtain ⟨k, w⟩ := b
    by_cases hk : k = n <;> by_cases hm : m = n <;> by_cases hmk : k = m <;> simp_all

end Frame

/-- All frames, and how many function values were ever made. -/
structure Heap where
  frames : Array Frame
  stamps : Nat
  deriving Inhabited

/-- Why a frame operation failed. The name is a slot here: a heap knows no texts. -/
inductive BindingError where
  | unbound (name : Name)
  | duplicate (name : Name)
  deriving DecidableEq, Repr

namespace BindingError

def message : BindingError → String
  | unbound n => s!"unbound name {n.debug}"
  | duplicate n => s!"duplicate binding {n.debug}"

end BindingError

namespace Heap

def empty : Heap := ⟨#[], 0⟩

/-- The number of frames ever created, which is the number of the next one. -/
def size (h : Heap) : Nat := h.frames.size

def frame? (h : Heap) (f : FrameId) : Option Frame := h.frames[f]?

def depth (h : Heap) (f : FrameId) : Nat := (h.frame? f).elim 0 Frame.depth

def parent? (h : Heap) (f : FrameId) : Option FrameId := h.frame? f >>= Frame.parent

def localCount (h : Heap) (f : FrameId) : Nat := (h.frame? f).elim 0 fun fr => fr.bindings.length

/-- What the frame itself binds to a name. -/
def local? (h : Heap) (f : FrameId) (n : Name) : Option Value := h.frame? f >>= (·.lookup? n)

/-- What the frame itself binds to a name that it binds. -/
def valueAt (h : Heap) (f : FrameId) (n : Name) : Value := (h.local? f n).getD .void

def binds (h : Heap) (f : FrameId) (n : Name) : Bool := (h.local? f n).isSome

/-- How a frame is shown to a host: its contents stay out, since they may lead back to it. -/
def debug (h : Heap) (f : FrameId) : String :=
  s!"FrameRef \x7b depth: {h.depth f}, locals: {h.localCount f} \x7d"

/-! ## Creating frames and function values -/

/-- Appends a frame without bindings inside another one, or an outermost one. -/
def newFrame (parent : Option FrameId) (h : Heap) : FrameId × Heap :=
  let depth := parent.elim 0 fun p => h.depth p + 1
  (h.size, { h with frames := h.frames.push ⟨parent, depth, []⟩ })

def root (h : Heap) : FrameId × Heap := h.newFrame none

def child (f : FrameId) (h : Heap) : FrameId × Heap := h.newFrame (some f)

/-- Makes a function value that captures `f`. Its stamp was never given out before. -/
def makeClosure (code : FunctionCode) (f : FrameId) (h : Heap) : Closure × Heap :=
  (⟨h.stamps, code, f⟩, { h with stamps := h.stamps + 1 })

/-! ## Resolving names -/

/-- At most `k` frames of the walk outwards from `f`. -/
def chainUpTo (h : Heap) : Nat → FrameId → List FrameId
  | 0, _ => []
  | k + 1, f =>
    match h.frame? f with
    | none => []
    | some fr => f :: fr.parent.elim [] (h.chainUpTo k)

/-- The frame and all that enclose it, innermost first. -/
def chain (h : Heap) (f : FrameId) : List FrameId := h.chainUpTo h.size f

/-- The frame that a name resolves to: the nearest on the chain that binds it. -/
def owner? (h : Heap) (f : FrameId) (n : Name) : Option FrameId :=
  (h.chain f).find? fun g => h.binds g n

def bind (h : Heap) (f : FrameId) (n : Name) (v : Value) : Heap :=
  { h with frames := h.frames.modify f (·.bind n v) }

def overwrite (h : Heap) (f : FrameId) (n : Name) (v : Value) : Heap :=
  { h with frames := h.frames.modify f (·.overwrite n v) }

/-! ## The four operations on variables -/

/-- Binds a name in the frame itself, which must not bind it yet. A name of an enclosing frame
is shadowed. -/
def define (f : FrameId) (n : Name) (v : Value) : Attempt Heap BindingError Unit := fun h =>
  if h.binds f n then (.error (.duplicate n), h) else (.ok (), h.bind f n v)

def get (h : Heap) (f : FrameId) (n : Name) : Except BindingError Value :=
  match h.owner? f n with
  | some g => .ok (h.valueAt g n)
  | none => .error (.unbound n)

def set (f : FrameId) (n : Name) (v : Value) : Attempt Heap BindingError Unit := fun h =>
  match h.owner? f n with
  | some g => (.ok (), h.overwrite g n v)
  | none => (.error (.unbound n), h)

/-- Replaces what a name holds in its owner by the outcome of `change` on it. Where `change`
fails, the name keeps what it held. Yields the new value. -/
def update {ε : Type} (f : FrameId) (n : Name) (change : Value → Except ε Value) :
    Attempt Heap BindingError (Except ε Value) := fun h =>
  match h.owner? f n with
  | none => (.error (.unbound n), h)
  | some g =>
    match change (h.valueAt g n) with
    | .error e => (.ok (.error e), h)
    | .ok v => (.ok (.ok v), h.overwrite g n v)

/-! ## Frames after a change -/

theorem size_newFrame (p : Option FrameId) (h : Heap) : (h.newFrame p).2.size = h.size + 1 := by
  simp [newFrame, size]

theorem frame?_newFrame (p : Option FrameId) (h : Heap) (f : FrameId) :
    (h.newFrame p).2.frame? f =
      if f = h.size then some ⟨p, p.elim 0 fun p => h.depth p + 1, []⟩ else h.frame? f :=
  Array.getElem?_push

theorem frame?_bind (h : Heap) (f : FrameId) (n : Name) (v : Value) (g : FrameId) :
    (h.bind f n v).frame? g = if f = g then (h.frame? g).map (·.bind n v) else h.frame? g :=
  Array.getElem?_modify

theorem frame?_overwrite (h : Heap) (f : FrameId) (n : Name) (v : Value) (g : FrameId) :
    (h.overwrite f n v).frame? g =
      if f = g then (h.frame? g).map (·.overwrite n v) else h.frame? g :=
  Array.getElem?_modify

end Heap
end ClosureLang
