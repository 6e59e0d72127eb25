import ClosureLang.CommandLine.RunArgs
import ClosureLang.Demo

/-!
# The command line

A run of the program is a function from its arguments to a `Transcript`: what it writes on both
channels, and its exit code.
-/

namespace ClosureLang.CommandLine

structure Transcript where
  code : Nat
  stdout : String
  stderr : String
  deriving DecidableEq, Repr

/-- Lines as text, each ended by a newline. -/
def unlines (lines : List String) : String := String.join (lines.map (· ++ "\n"))

def usage : String := unlines [
  "Tether (capture-by-reference closures)",
  "",
  "Usage: tether <command> [options]",
  "",
  "Commands:",
  "  run <demo>           Run a built-in demo program",
  "  list                 List the built-in demos",
  "  help                 Show this help message",
  "  version              Show version information",
  "",
  "Run options:",
  "  --max-depth=<n>      Maximum nested closure calls (default: 1024)",
  "  --quiet, -q          Discard program output",
  "",
  "Set RUST_LOG (e.g. RUST_LOG=tether_eval=debug) for diagnostics."]

def padRight (width : Nat) (s : String) : String :=
  s ++ String.ofList (List.replicate (width - s.length) ' ')

def listing : String :=
  unlines (Demo.all.map fun d => s!"  {padRight 10 d.name} {d.summary}")

/-- What is reported of an error that ended a demonstration: the error, then the calls it left,
innermost first. -/
def report (e : EvalError) : String :=
  unlines (s!"error: {e.message}" :: e.backtrace.map fun name => s!"  in {name}")

def written : Sink → String
  | .stdout text => text
  | .buffer _ | .silent => ""

/-- The run command. What a demonstration printed before an error stays printed. -/
def runCommand (args : List String) : Transcript :=
  match parseRunArgs args with
  | .error e =>
    ⟨1, "", unlines [s!"error: {e.message}", "Usage: tether run <demo> [--max-depth=N] [--quiet]"]⟩
  | .ok (name, options) =>
    match Demo.find? name with
    | none =>
      ⟨1, "", unlines [s!"error: unknown demo `{name}`",
        "Run `tether list` to see the available demos."]⟩
    | some demo =>
      match demo.run options.maxDepth options.sink with
      | (.value _, sink) => ⟨0, written sink, ""⟩
      | (.error e, sink) => ⟨1, written sink, report e⟩
      | (.fault _, sink) => ⟨1, written sink, unlines ["error: broken program"]⟩

/-- A run with the given arguments, the program's own name not among them. -/
def run (args : List String) : Transcript :=
  match args with
  | [] => ⟨0, usage, ""⟩
  | "run" :: rest => runCommand rest
  | command :: _ =>
    if command == "list" then ⟨0, listing, ""⟩
    else if ["help", "--help", "-h"].contains command then ⟨0, usage, ""⟩
    else if ["version", "--version", "-V"].contains command then
      ⟨0, "tether 0.1.0-alpha.1\n", ""⟩
    else ⟨1, usage, unlines [s!"error: unknown command `{command}`", ""]⟩

end ClosureLang.CommandLine
