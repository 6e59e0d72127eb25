import ClosureLang.Heap

/-!
# Which frames are alive

A frame lives as long as somebody holds it: the host, the evaluator while it works in the frame or
with a function that captured it, a frame inside it that lives, or such a function that a living
frame binds. A `Ledger` keeps beside the living frames the number of handles to each.

It knows no holders. It is told when a handle is copied (`retain`) and when one is let go of
(`release`), and goes up or down by one. A frame whose last handle is let go of dies, and with it go
the handles that it held, which may be the last ones of further frames. Frames that hold each other
in a circle never get there, even if nothing else holds them.
-/

namespace ClosureLang

def Value.captured? (v : Value) : Option FrameId := v.asClosure?.map Closure.frame

/-- The handles that come with a value: one if it is a function. -/
def Value.handles (v : Value) : List FrameId := v.captured?.toList

/-- The handles that come with a list of values. -/
def Value.allHandles (vs : List Value) : List FrameId := vs.flatMap Value.handles

/-- The frames that a frame holds: the one around it, and those that its function values
captured. -/
def Frame.links (f : Frame) : List FrameId :=
  f.parent.toList ++ f.bindings.filterMap fun b => b.2.captured?

def Heap.links (h : Heap) (f : FrameId) : List FrameId := (h.frame? f).elim [] Frame.links

/-- The living frames, and the number of handles to each frame. -/
structure Ledger where
  alive : Array Bool
  counts : Array Nat

namespace Ledger

def empty : Ledger := ⟨#[], #[]⟩

def isAlive (l : Ledger) (f : FrameId) : Bool := l.alive[f]? == some true

def count (l : Ledger) (f : FrameId) : Nat := l.counts[f]?.getD 0

/-- A new frame, to which its maker has the only handle. -/
def enroll (l : Ledger) : Ledger := ⟨l.alive.push true, l.counts.push 1⟩

/-- Each of these handles was copied. -/
def retain (fs : List FrameId) (l : Ledger) : Ledger :=
  ⟨l.alive, fs.foldl (fun counts f => counts.modify f (· + 1)) l.counts⟩

def lessen (f : FrameId) (l : Ledger) : Ledger := ⟨l.alive, l.counts.modify f (· - 1)⟩

def bury (f : FrameId) (l : Ledger) : Ledger := ⟨l.alive.setIfInBounds f false, l.counts⟩

/-- One handle is let go of, and if it was the last one, so are the handles that the frame held.
These may be last ones again, and so on, which is followed to so many levels. -/
def drop (h : Heap) : Nat → FrameId → Ledger → Ledger
  | 0, _, l => l
  | levels + 1, f, l =>
    let l := l.lessen f
    if l.count f == 0 then (h.links f).foldl (fun l g => drop h levels g l) (l.bury f) else l

/-- These handles are let go of, one after the other. A frame dies at each level, so that there are
no more levels than frames. -/
def release (h : Heap) (fs : List FrameId) (l : Ledger) : Ledger :=
  fs.foldl (fun l f => drop h h.size f l) l

end Ledger
end ClosureLang
