import ClosureLang.Heap
import ClosureLang.Text.Quoted

/-!
# Function values as a host sees them

The inspection text of a function value names the function and describes the frame it captured,
without the frame's contents: they may lead back to the function.
-/

namespace ClosureLang

def Closure.debug (c : Closure) (h : Heap) : String :=
  s!"ClosureValue \x7b name: {Text.quoted c.displayName}, arity: {c.arity}, frame: {h.debug c.frame} \x7d"

end ClosureLang
