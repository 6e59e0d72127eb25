import ClosureLang.Host.Command

/-!
# Carrying out commands

`serve` carries out one command. A command that needs a register which is empty answers so and
stops where it noticed, which is before it has taken hold of anything.
-/

namespace ClosureLang.Host

/-- Something done with a host's state; it fails with what it misses. -/
abbrev Action (α : Type) := Attempt State String α

namespace Action

variable {α β : Type}

/-- What was looked for, or a failure that names it. -/
def require (what : String) : Option α → Action α
  | some a => pure a
  | none => .fail what

def held (view : State → Registers α) (r : String) : Action α := do
  require r ((← .read view).get? r)

def operand : Operand → Action Value
  | .literal l => pure l.value
  | .held r => held State.values r

/-! ### Handles

What is looked up in a register is borrowed: it has to be copied before it is handed on. What is
stored is handed over, and what was in the register before is let go of. -/

/-- Runs an operation on the frames that may fail. -/
def onStore {ε : Type} (op : Attempt Store ε α) : Action (Except ε α) := fun s =>
  let (r, t) := op s.store
  (.ok r, s.withStore t)

def newFrame (parent : Option FrameId) : Action FrameId := fun s =>
  let (f, t) := s.store.newFrame parent
  (.ok f, s.withStore t)

def newClosure (code : FunctionCode) (f : FrameId) : Action Closure := fun s =>
  let (c, t) := s.store.makeClosure code f
  (.ok c, s.withStore t)

/-- Copies handles. -/
def retain (fs : List FrameId) : Action Unit := .modify fun s => s.withStore (s.store.retain fs)

/-- Lets go of handles. -/
def release (fs : List FrameId) : Action Unit := .modify fun s => s.withStore (s.store.release fs)

/-- Changes a register in which these handles were, and lets go of them. -/
def exchange (before : State → List FrameId) (change : State → State) : Action Unit := do
  let fs ← .read before
  .modify change
  release fs

def putFrame (r : String) (f : FrameId) : Action Unit :=
  exchange (fun s => (s.frames.get? r).toList) fun s => { s with frames := s.frames.put r f }

def putValue (r : String) (v : Value) : Action Unit :=
  exchange (fun s => (s.values.get? r).elim [] Value.handles) fun s =>
    { s with values := s.values.put r v }

/-- A value that is not stored is let go of. -/
def putValue? (r : Option String) (v : Value) : Action Unit :=
  match r with
  | some r => putValue r v
  | none => release v.handles

def putResident (r : String) (q : Resident) : Action Unit :=
  exchange (fun s => (s.residents.get? r).elim [] Resident.handles) fun s =>
    { s with residents := s.residents.put r q }

def dropFrame (r : String) : Action Unit :=
  exchange (fun s => (s.frames.get? r).toList) fun s => { s with frames := s.frames.erase r }

def dropValue (r : String) : Action Unit :=
  exchange (fun s => (s.values.get? r).elim [] Value.handles) fun s =>
    { s with values := s.values.erase r }

def dropResident (r : String) : Action Unit :=
  exchange (fun s => (s.residents.get? r).elim [] Resident.handles) fun s =>
    { s with residents := s.residents.erase r }

/-! ### Tables, programs and destinations -/

def table (r : String) : Action (Nat × Interner) := do
  let i ← held State.interners r
  let t ← require r ((← .read State.tables)[i]?)
  pure (i, t)

def setTable (i : Nat) (t : Interner) : Action Unit :=
  .modify fun s => { s with tables := s.tables.setIfInBounds i t }

/-- The name of a text in a table that comes to hold it. -/
def internIn (r text : String) : Action Name := do
  let (i, t) ← table r
  let (n, t) := t.intern text
  setTable i t
  pure n

def arena (r : String) : Action Arena := do
  let i ← held State.programs r
  require r ((← .read State.arenas)[i]?)

def sink (i : Nat) : Action Sink := do require "handler" ((← .read State.sinks)[i]?)

def setSink (i : Nat) (sink : Sink) : Action Unit :=
  .modify fun s => { s with sinks := s.sinks.setIfInBounds i sink }

def newSink (sink : Sink) : Action Nat := fun s =>
  (.ok s.sinks.size, { s with sinks := s.sinks.push sink })

/-! ### Outcomes -/

def frameReply (r : Except BindingError Unit) : Reply :=
  match r with
  | .ok _ => .ok
  | .error e => .bindingError e

/-- Stores the value of an outcome that has one, which is handed over, and replies with the
outcome. -/
def outcomeReply (dest : Option String) (o : Outcome) : Action Reply := do
  if let some v := o.value? then putValue? dest v
  pure (.outcome o)

/-- The value of the outcome is handed to whoever asked. -/
def withInterpreter (r : String) (act : Interner → CountedInteraction Outcome) :
    Action Outcome := do
  let resident ← held State.residents r
  let names ← require r ((← .read State.tables)[resident.table]?)
  let sink ← sink resident.sink
  let ⟨heap, ledger⟩ ← .read State.store
  let ((o, interpreter, world), ledger) := act names resident.interpreter ⟨heap, sink⟩ ledger
  .modify fun s => { s with
    heap := world.heap, ledger, residents := s.residents.put r { resident with interpreter } }
  setSink resident.sink world.sink
  pure o

/-- Creates the frame for a call of a held function; nothing where the value is no function. -/
def activate (tableName value : String) (args : List Operand) :
    Action (Option (Except EvalError FrameId)) := do
  let (_, names) ← table tableName
  let v ← held State.values value
  let args ← args.mapM operand
  match v.asClosure? with
  | none => pure none
  | some c =>
    let params ← require value c.code.params?
    retain (Value.allHandles args)
    pure (some (← onStore (Store.activate c names params args)))

/-! ## Commands by subject -/

def makeClosure (program : String) (node : ExprId) (name : Option String) (frame : String)
    (dest : Option String) : Action Reply := do
  let a ← arena program
  let f ← held State.frames frame
  match a.node? node with
  | none => .fail program
  | some (.function definition) =>
    let c ← newClosure ⟨a, definition, name⟩ f
    outcomeReply dest (.value (.function c))
  | some _ => pure .notAFunction

/-- The frame that is given, or a new one. -/
def globalFrameOf : Option FrameId → Action FrameId
  | some f => do
    retain [f]
    pure f
  | none => newFrame none

def newInterpreter (tableName program : String) (globalFrame : Option String)
    (maxDepth : Option Nat) (handler : Option String) (dest : String) : Action Reply := do
  let (table, _) ← table tableName
  let a ← arena program
  let given ← globalFrame.mapM (held State.frames)
  let sink ← match handler with
    | some r => held State.handlers r
    | none => newSink (.buffer "")
  let f ← globalFrameOf given
  -- The outermost frame is the current scope as well.
  retain [f]
  let interpreter := Interpreter.new a f (maxDepth.getD Interpreter.defaultMaxDepth)
  putResident dest ⟨interpreter, table, sink⟩
  pure .ok

def snapshot (r : String) : Action Reply := do
  let resident ← held State.residents r
  let names ← require r ((← .read State.tables)[resident.table]?)
  let sink ← sink resident.sink
  let heap ← .read State.heap
  let i := resident.interpreter
  pure (.state ⟨i.callDepth, i.atGlobal, heap.depth i.frame, heap.localCount i.globalFrame,
    names.size, sink.output⟩)

def serve : Command → Action Reply
  | .newInterner dest => do
    .modify fun s =>
      { s with tables := s.tables.push .empty, interners := s.interners.put dest s.tables.size }
    pure .ok
  | .intern table text dest => do
    let n ← internIn table text
    if let some r := dest then .modify fun s => { s with names := s.names.put r n }
    pure (.named n)
  | .lookup tableName name => do
    let (_, t) ← table tableName
    pure (.text (t.lookup (← held State.names name)))
  | .internerSize tableName => do
    let (_, t) ← table tableName
    pure (.interned t.size t.isEmpty)
  | .program tableName forms dest => do
    let (i, t) ← table tableName
    let b := (Builder.start t).addAll forms
    setTable i b.names
    .modify fun s =>
      { s with arenas := s.arenas.push b.arena, programs := s.programs.put dest s.arenas.size }
    pure (.program b.arena)
  | .dump program => return .dump (← arena program)
  | .sameProgram a b => return .same ((← held State.programs a) == (← held State.programs b))
  | .value v dest => do
    let v ← operand v
    retain v.handles
    outcomeReply dest (.value v)
  | .make program node name frame dest => makeClosure program node name frame dest
  | .inspect value => return .inspected (← held State.values value)
  | .equal a b => do
    let a ← held State.values a
    let b ← held State.values b
    let shares : Option Bool := do pure ((← a.asClosure?).sharesFrame (← b.asClosure?))
    pure (.equality (a == b) shares)
  | .root dest => do
    putFrame dest (← newFrame none)
    pure .ok
  | .child frame dest => do
    putFrame dest (← newFrame (some (← held State.frames frame)))
    pure .ok
  | .alias frame dest => do
    let f ← held State.frames frame
    retain [f]
    putFrame dest f
    pure .ok
  | .parent frame dest => do
    let f ← held State.frames frame
    match (← .read State.heap).parent? f with
    | some p => do
      retain [p]
      putFrame dest p
      pure (.found true)
    | none => pure (.found false)
  | .captured value dest => do
    match (← held State.values value).captured? with
    | some f => do
      retain [f]
      putFrame dest f
      pure (.found true)
    | none => pure (.found false)
  | .define table frame name v => do
    let n ← internIn table name
    let f ← held State.frames frame
    let v ← operand v
    retain v.handles
    return frameReply (← onStore (Store.define f n v))
  | .set table frame name v => do
    let n ← internIn table name
    let f ← held State.frames frame
    let v ← operand v
    retain v.handles
    return frameReply (← onStore (Store.set f n v))
  | .get table frame name dest => do
    let n ← internIn table name
    let f ← held State.frames frame
    match ← onStore (Store.get f n) with
    | .ok v => outcomeReply dest (.value v)
    | .error e => pure (.bindingError e)
  | .update table frame name op v => do
    let n ← internIn table name
    let f ← held State.frames frame
    let v ← operand v
    match ← onStore (Store.update f n fun x => op.apply x v) with
    | .ok (.ok v) => pure (.outcome (.value v))
    | .ok (.error e) => pure (.outcome (.error e))
    | .error e => pure (.bindingError e)
  | .contains table frame name => do
    let n ← internIn table name
    let f ← held State.frames frame
    return .contains ((← .read State.heap).binds f n)
  | .frame frame => do
    let f ← held State.frames frame
    let heap ← .read State.heap
    pure (.frame (heap.depth f) (heap.localCount f) (heap.debug f))
  | .count frame => do
    let f ← held State.frames frame
    .read fun s => .strongCount (s.ledger.count f)
  | .sameFrame a b => return .same ((← held State.frames a) == (← held State.frames b))
  | .weaken frame dest => do
    let f ← held State.frames frame
    .modify fun s => { s with weak := s.weak.put dest f }
    pure .ok
  | .dropped weak => do
    let f ← held State.weak weak
    .read fun s => .dropped (!s.ledger.isAlive f)
  | .upgrade weak dest => do
    let f ← held State.weak weak
    if ← .read fun s => s.ledger.isAlive f then
      retain [f]
      putFrame dest f
      pure (.found true)
    else pure (.found false)
  | .dropFrame r => do
    let was ← .read fun s => s.frames.contains r
    dropFrame r
    pure (.removed was)
  | .dropValue r => do
    let was ← .read fun s => s.values.contains r
    dropValue r
    pure (.removed was)
  | .dropInterpreter r => do
    let was ← .read fun s => s.residents.contains r
    dropResident r
    pure (.removed was)
  | .bind table value args dest => do
    match ← activate table value args with
    | none => pure .notAFunction
    | some (.error e) => pure (.outcome (.error e))
    | some (.ok f) => do
      putFrame dest f
      pure .ok
  | .probe table value args dest => do
    match ← activate table value args with
    | none => pure .notAFunction
    | some (.error e) => pure (.outcome (.error e))
    | some (.ok f) => do
      putFrame dest f
      let depth := (← .read State.heap).depth f
      pure (.outcome (.value (.number (Float.ofNat depth))))
  | .handler sink dest => do
    let i ← newSink sink
    .modify fun s => { s with handlers := s.handlers.put dest i }
    pure .ok
  | .println handler text => do
    let i ← held State.handlers handler
    setSink i ((← sink i).println text)
    pure .ok
  | .output handler => do
    let k ← sink (← held State.handlers handler)
    pure (.output k.output k.lines)
  | .clear handler => do
    let i ← held State.handlers handler
    setSink i (← sink i).clear
    pure .ok
  | .interpreter table program globalFrame maxDepth handler dest =>
    newInterpreter table program globalFrame maxDepth handler dest
  | .eval interpreter node dest => do
    outcomeReply dest (← withInterpreter interpreter (Interpreter.evalCounted · node))
  | .evalIn interpreter frame node dest => do
    let f ← held State.frames frame
    outcomeReply dest (← withInterpreter interpreter fun names i w ledger =>
      Interpreter.withFrameCounted f (Interpreter.evalCounted names node) i w (ledger.retain [f]))
  | .invoke interpreter callee args dest => do
    let callee ← operand callee
    let args ← args.mapM operand
    outcomeReply dest (← withInterpreter interpreter fun names i w ledger =>
      Interpreter.invokeCounted names callee args i w (ledger.retain (Value.allHandles args)))
  | .state interpreter => snapshot interpreter
  | .globalFrame interpreter dest => do
    let f := (← held State.residents interpreter).interpreter.globalFrame
    retain [f]
    putFrame dest f
    pure .ok
  | .stack maxDepth dest => do
    .modify fun s => { s with callStacks := s.callStacks.put dest (.new maxDepth) }
    pure .ok
  | .push stack name => do
    let k ← held State.callStacks stack
    match CallStack.push ⟨name⟩ k with
    | (.ok _, k) => do
      .modify fun s => { s with callStacks := s.callStacks.put stack k }
      pure (.pushed (CallFrame.mk name).displayName k.depth)
    | (.error e, _) => pure (.error e)
  | .pop stack => do
    let k := (← held State.callStacks stack).pop
    .modify fun s => { s with callStacks := s.callStacks.put stack k }
    pure (.depth k.depth)
  | .capture stack => do
    let k ← held State.callStacks stack
    pure (.captured k.capture k)
  | .error e dest => do
    .modify fun s => { s with errors := s.errors.put dest e }
    pure (.error e)
  | .attach stack error dest => do
    let e := (← held State.callStacks stack).attachBacktrace (← held State.errors error)
    if let some r := dest then .modify fun s => { s with errors := s.errors.put r e }
    pure (.attached e)

end Action

namespace State

def step (c : Command) (s : State) : Reply × State :=
  match Action.serve c s with
  | (.ok r, s) => (r, s)
  | (.error what, s) => (.missing what, s)

/-- Carries out commands in order, and yields the state after the last. -/
def run (s : State) (cs : List Command) : State := cs.foldl (fun s c => (s.step c).2) s

end State
end ClosureLang.Host
