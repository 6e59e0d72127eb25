/-!
# Where printed lines go

A `Sink` is a destination for lines. Only a buffer can be read back; standard output keeps what
was written for the program that owns it to pass on, and shows none of it to a host.
-/

namespace ClosureLang

inductive Sink where
  /-- Standard output, with the text written to it so far. -/
  | stdout (written : String)
  | buffer (held : String)
  | silent
  deriving DecidableEq, Repr, Inhabited

namespace Sink

def println (s : Sink) (line : String) : Sink :=
  match s with
  | stdout written => stdout (written ++ line ++ "\n")
  | buffer held => buffer (held ++ line ++ "\n")
  | silent => silent

def output : Sink → String
  | buffer held => held
  | stdout _ | silent => ""

def clear : Sink → Sink
  | buffer _ => buffer ""
  | s => s

/-- The pieces of a text that newlines end, and what follows the last newline unless that is
empty. A carriage return right before a newline is part of the line's end. -/
def splitLines : List Char → List (List Char)
  | [] => []
  | '\n' :: rest => [] :: splitLines rest
  | '\r' :: '\n' :: rest => [] :: splitLines rest
  | c :: rest =>
    match splitLines rest with
    | [] => [[c]]
    | line :: lines => (c :: line) :: lines

/-- The lines of what a buffer holds. -/
def lines (s : Sink) : List String := (splitLines s.output.toList).map String.ofList

end Sink
end ClosureLang
