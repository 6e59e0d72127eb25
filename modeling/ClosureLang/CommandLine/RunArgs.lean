import ClosureLang.Interpreter

/-!
# Arguments of the run command

One demonstration's name and options, in any order. The arguments are read from left to right
and the first that cannot be taken decides the error; a missing name is noticed at the end. An
option given twice takes its last value.
-/

namespace ClosureLang.CommandLine

structure RunOptions where
  maxDepth : Nat
  /-- Drop what the program prints. -/
  quiet : Bool
  deriving DecidableEq, Repr

namespace RunOptions

def default : RunOptions := ⟨Interpreter.defaultMaxDepth, false⟩

def sink (o : RunOptions) : Sink := if o.quiet then .silent else .stdout ""

end RunOptions

inductive ArgError where
  | invalidDepth (value : String)
  | unknownOption (arg : String)
  | unexpectedArgument (arg : String)
  | missingDemo
  deriving DecidableEq, Repr

namespace ArgError

def message : ArgError → String
  | invalidDepth value => s!"invalid --max-depth value `{value}`"
  | unknownOption arg => s!"unknown option `{arg}`"
  | unexpectedArgument arg => s!"unexpected argument `{arg}`"
  | missingDemo => "missing demo name"

end ArgError

/-- The number that ASCII digits write, continuing from `seen`. -/
def digitsValue (seen : Nat) : List Char → Nat
  | [] => seen
  | c :: cs => digitsValue (seen * 10 + (c.toNat - '0'.toNat)) cs

/-- No depth reaches this number. -/
def depthBound : Nat := Nat.pow 2 64

/-- Reads a number below `depthBound`: ASCII digits, at least one, after an optional plus sign. -/
def readDepth? (text : List Char) : Option Nat :=
  let digits := (['+'].isPrefixOf? text).getD text
  if digits.isEmpty || !digits.all Char.isDigit then none
  else
    let n := digitsValue 0 digits
    if n < depthBound then some n else none

inductive RunArg where
  /-- The depth option, with the text of its value. -/
  | depth (value : List Char)
  | quiet
  | otherOption
  | positional
  deriving DecidableEq, Repr

namespace RunArg

/-- Sorts an argument. The depth option and the quiet flag are known; whatever else begins with a
hyphen is an option that is not. -/
def ofString (arg : String) : RunArg :=
  match "--max-depth=".toList.isPrefixOf? arg.toList with
  | some value => depth value
  | none =>
    if arg == "--quiet" || arg == "-q" then quiet
    else if arg.toList.head? == some '-' then otherOption
    else positional

end RunArg

/-- Reads the arguments from left to right, with the name and the options found so far. -/
def readRunArgs (demo : Option String) (options : RunOptions) :
    List String → Except ArgError (String × RunOptions)
  | [] =>
    match demo with
    | some name => .ok (name, options)
    | none => .error .missingDemo
  | arg :: args =>
    match RunArg.ofString arg with
    | .depth value =>
      match readDepth? value with
      | some n => readRunArgs demo { options with maxDepth := n } args
      | none => .error (.invalidDepth (String.ofList value))
    | .quiet => readRunArgs demo { options with quiet := true } args
    | .otherOption => .error (.unknownOption arg)
    | .positional =>
      match demo with
      | none => readRunArgs (some arg) options args
      | some _ => .error (.unexpectedArgument arg)

def parseRunArgs (args : List String) : Except ArgError (String × RunOptions) :=
  readRunArgs none .default args

end ClosureLang.CommandLine
