import ClosureLang.Host.State
import ClosureLang.Program.Builder

/-!
# What a host can be told

A `Command` is one thing a host does with what it holds, and a `Reply` is what comes of it.
Registers are named by texts; `dest` is the register that receives the outcome.
-/

namespace ClosureLang

/-- A value that can be written down: any but a function. -/
inductive Literal where
  | void
  | number (x : Float)
  | bool (b : Bool)
  | str (s : String)

namespace Literal

def value : Literal → Value
  | void => .void
  | number x => .number x
  | bool b => .bool b
  | str s => .str s

end Literal

namespace Host

inductive Operand where
  | literal (l : Literal)
  | held (register : String)

inductive Command where
  -- tables of texts
  | newInterner (dest : String)
  | intern (table text : String) (dest : Option String)
  | lookup (table name : String)
  | internerSize (table : String)
  -- programs
  | program (table : String) (forms : List Form) (dest : String)
  | dump (program : String)
  | sameProgram (a b : String)
  -- values
  | value (v : Operand) (dest : Option String)
  /-- Makes a function value from a literal of a program, under a name of the host's choice. -/
  | make (program : String) (node : ExprId) (name : Option String) (frame : String)
      (dest : Option String)
  | inspect (value : String)
  | equal (a b : String)
  -- frames
  | root (dest : String)
  | child (frame dest : String)
  | alias (frame dest : String)
  | parent (frame dest : String)
  | captured (value dest : String)
  | define (table frame name : String) (v : Operand)
  | set (table frame name : String) (v : Operand)
  | get (table frame name : String) (dest : Option String)
  | update (table frame name : String) (op : BinaryOp) (v : Operand)
  | contains (table frame name : String)
  | frame (frame : String)
  | count (frame : String)
  | sameFrame (a b : String)
  | weaken (frame dest : String)
  | dropped (weak : String)
  | upgrade (weak dest : String)
  | dropFrame (register : String)
  | dropValue (register : String)
  | dropInterpreter (register : String)
  -- calls without an interpreter
  | bind (table value : String) (args : List Operand) (dest : String)
  /-- Like `bind`, with the depth of the frame as the outcome of the call. -/
  | probe (table value : String) (args : List Operand) (dest : String)
  -- print destinations
  | handler (sink : Sink) (dest : String)
  | println (handler text : String)
  | output (handler : String)
  | clear (handler : String)
  -- interpreters
  /-- Without an outermost frame a new one is made, and without a destination a new buffer. -/
  | interpreter (table program : String) (globalFrame : Option String) (maxDepth : Option Nat)
      (handler : Option String) (dest : String)
  | eval (interpreter : String) (node : ExprId) (dest : Option String)
  | evalIn (interpreter frame : String) (node : ExprId) (dest : Option String)
  | invoke (interpreter : String) (callee : Operand) (args : List Operand) (dest : Option String)
  | state (interpreter : String)
  | globalFrame (interpreter dest : String)
  -- call stacks and errors
  | stack (maxDepth : Nat) (dest : String)
  | push (stack : String) (name : Option String)
  | pop (stack : String)
  | capture (stack : String)
  | error (e : EvalError) (dest : String)
  | attach (stack error : String) (dest : Option String)

structure Snapshot where
  callDepth : Nat
  atGlobal : Bool
  frameDepth : Nat
  globals : Nat
  interned : Nat
  output : String

inductive Reply where
  | ok
  | named (n : Name)
  | text (s : String)
  | interned (size : Nat) (isEmpty : Bool)
  | program (a : Arena)
  | dump (a : Arena)
  | same (b : Bool)
  | outcome (o : Outcome)
  /-- A function was asked for and something else was there. -/
  | notAFunction
  | bindingError (e : BindingError)
  | inspected (v : Value)
  /-- Whether two values are equal, and, of two functions, whether they share a frame. -/
  | equality (equal : Bool) (sharesFrame : Option Bool)
  | found (b : Bool)
  | contains (b : Bool)
  | frame (depth locals : Nat) (debug : String)
  | strongCount (n : Nat)
  | dropped (b : Bool)
  | removed (b : Bool)
  | output (text : String) (lines : List String)
  | state (s : Snapshot)
  | pushed (name : String) (depth : Nat)
  | depth (n : Nat)
  | captured (calls : List String) (s : CallStack)
  | error (e : EvalError)
  | attached (e : EvalError)
  /-- A register that the command needs is empty, or what it refers to does not exist. -/
  | missing (what : String)

end Host
end ClosureLang
