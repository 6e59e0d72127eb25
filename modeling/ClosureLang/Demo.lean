import ClosureLang.Interpreter
import ClosureLang.Program.Draft

/-!
# Demonstrations

Three programs that show what it means to capture a variable by reference: a closure that
outlives the call it was made in, two closures over one frame, and a factory whose products do
not share.
-/

namespace ClosureLang

/-- A built-in program. -/
structure Demo where
  name : String
  summary : String
  draft : Draft ExprId

namespace Demo

open Draft

/-- Prints a label and a variable. -/
def showVar (label name : String) : Draft ExprId := do
  let label ← text label
  let value ← ident name
  print [label, value]

/-- Calls a variable without arguments. -/
def callName (name : String) : Draft ExprId := do
  let callee ← ident name
  call callee []

/-- Adds an amount to a variable. -/
def bump (name : String) (amount : Float) : Draft ExprId := do
  let amount ← number amount
  compound .add name amount

/-- A closure that outlives the call it was made in:
```
function test() {
  let a = 10
  print("Outside before:", a)
  let closure = function () {
    print("Before:", a)
    a += 10
    print("After:", a)
  }
  closure()
  print("Outside after:", a)
  return closure
}

let c = test()
c()
c()
```
-/
def closures : Draft ExprId := do
  let ten ← number 10
  let defA ← letIn "a" ten
  let outsideBefore ← showVar "Outside before:" "a"
  let before ← showVar "Before:" "a"
  let add ← bump "a" 10
  let after ← showVar "After:" "a"
  let closureBody ← block [before, add, after]
  let closure ← function none [] closureBody
  let defClosure ← letIn "closure" closure
  let called ← callName "closure"
  let outsideAfter ← showVar "Outside after:" "a"
  let closureRef ← ident "closure"
  let result ← ret (some closureRef)
  let testBody ← block [defA, outsideBefore, defClosure, called, outsideAfter, result]
  let test ← function (some "test") [] testBody
  let defTest ← letIn "test" test
  let made ← callName "test"
  let defC ← letIn "c" made
  let first ← callName "c"
  let second ← callName "c"
  block [defTest, defC, first, second]

/-- Two closures over one frame, each of which sees what the other writes:
```
let a = 10
let left = function () { print("left sees", a); a += 1 }
let right = function () { print("right sees", a); a += 100 }
left(); right(); left()
print("a is now", a)
```
-/
def shared : Draft ExprId := do
  let ten ← number 10
  let defA ← letIn "a" ten
  let leftSeen ← showVar "left sees" "a"
  let leftAdd ← bump "a" 1
  let leftBody ← block [leftSeen, leftAdd]
  let left ← function (some "left") [] leftBody
  let defLeft ← letIn "left" left
  let rightSeen ← showVar "right sees" "a"
  let rightAdd ← bump "a" 100
  let rightBody ← block [rightSeen, rightAdd]
  let right ← function (some "right") [] rightBody
  let defRight ← letIn "right" right
  let first ← callName "left"
  let second ← callName "right"
  let third ← callName "left"
  let last ← showVar "a is now" "a"
  block [defA, defLeft, defRight, first, second, third, last]

/-- A factory whose products count apart from each other:
```
let make_counter = function (start) {
  let count = start
  return function () { count += 1; return count }
}
let first = make_counter(0)
let second = make_counter(100)
print("first:", first(), first(), first())
print("second:", second(), second())
```
-/
def counter : Draft ExprId := do
  let start ← ident "start"
  let defCount ← letIn "count" start
  let add ← bump "count" 1
  let count ← ident "count"
  let retCount ← ret (some count)
  let tickBody ← block [add, retCount]
  let tick ← function (some "tick") [] tickBody
  let retTick ← ret (some tick)
  let makeBody ← block [defCount, retTick]
  let make ← function (some "make_counter") ["start"] makeBody
  let defMake ← letIn "make_counter" make
  let factory ← ident "make_counter"
  let initial ← number 0
  let made ← call factory [initial]
  let defFirst ← letIn "first" made
  let factory ← ident "make_counter"
  let hundred ← number 100
  let made ← call factory [hundred]
  let defSecond ← letIn "second" made
  let label ← text "first:"
  let f1 ← callName "first"
  let f2 ← callName "first"
  let f3 ← callName "first"
  let showFirst ← print [label, f1, f2, f3]
  let label ← text "second:"
  let s1 ← callName "second"
  let s2 ← callName "second"
  let showSecond ← print [label, s1, s2]
  block [defMake, defFirst, defSecond, showFirst, showSecond]

/-- Every demonstration, in the order in which they are listed. -/
def all : List Demo := [
  ⟨"closures", "closure created in a function, called there, returned and called again", closures⟩,
  ⟨"shared", "two closures over one frame observing each other's writes", shared⟩,
  ⟨"counter", "a counter factory; every call yields an independent counter", counter⟩]

def find? (name : String) : Option Demo := all.find? (·.name == name)

/-- The demonstration over an empty table of texts, and the position of its root. -/
def program (d : Demo) : ExprId × Builder := d.draft.build .empty

/-- Runs a demonstration in an empty heap. Yields how it ends and the destination after what was
printed. -/
def run (d : Demo) (maxDepth : Nat) (sink : Sink) : Outcome × Sink :=
  let (root, program) := d.program
  let (globalFrame, heap) := Heap.empty.root
  let (outcome, _, world) :=
    Interpreter.eval program.names root (.new program.arena globalFrame maxDepth) ⟨heap, sink⟩
  (outcome, world.sink)

end Demo
end ClosureLang
