import ClosureLang.CommandLine.Run
import ClosureLang.Proofs.DepthLimit
import ClosureLang.Proofs.Backtraces
import ClosureLang.Proofs.PrintingInvisible

/-!
# Demonstrations from the command line

What the run command writes and answers, for any arguments. Of each demonstration it is documented
which lines it prints and how many calls are active in it at the most, and this is checked by
running it, under the lowest limit that admits so many calls and under all that are lower
(`Documented.fits`). All other runs follow from what is known of runs in general. A higher limit
makes no difference (`Demo.Ends.of_le`), a lower one leaves a beginning of the text
(`Demo.Ends.cut`), to drop what is printed changes nothing else (`Demo.exists_ends`), and an error
lists the calls that are active where it is raised (`Demo.exists_raises`).
-/

namespace ClosureLang

/-- What the error is about that a run has ended with, if it has. -/
def Outcome.errorKind? : Outcome → Option ErrorKind
  | .error e => some e.kind
  | _ => none

/-! ## A demonstration as a request -/

namespace Sink

theorem printAll_stdout (written : String) (lines : List String) :
    (stdout written).printAll lines = stdout (written ++ CommandLine.unlines lines) := by
  induction lines generalizing written with
  | nil => simp [printAll, CommandLine.unlines]
  | cons line lines ih =>
    show ((stdout written).println line).printAll lines = _
    rw [println, ih]
    simp [CommandLine.unlines, String.append_assoc]

theorem printAll_silent (lines : List String) : silent.printAll lines = silent := by
  induction lines with
  | nil => rfl
  | cons line lines ih => exact ih

end Sink

namespace Demo

variable {d : Demo} {low high limit : Nat} {o o' : Outcome} {text text' : String} {e : EvalError}

/-- The texts of a demonstration. -/
def names (d : Demo) : Interner := d.program.2.names

/-- What runs it. -/
def interpreter (d : Demo) (limit : Nat) : Interpreter :=
  .new d.program.2.arena Heap.empty.root.1 limit

/-- The first moment of a run. -/
def start (d : Demo) (limit : Nat) (s : Sink) : Moment :=
  (Request.eval d.program.1).start (d.interpreter limit) ⟨Heap.empty.root.2, s⟩

theorem run_eq (d : Demo) (limit : Nat) (s : Sink) :
    d.run limit s =
      let r := (Request.eval d.program.1).perform d.names (d.interpreter limit)
        ⟨Heap.empty.root.2, s⟩
      (r.1, r.2.2.sink) := rfl

/-- The lines that are printed in its course are printed, and no others. -/
theorem run_snd (d : Demo) (limit : Nat) (s : Sink) :
    (d.run limit s).2 = s.printAll ((d.start limit s).lines d.names) := by
  rw [run_eq, Request.perform_start]
  exact Moment.appends d.names (d.start limit s)

/-- **How a demonstration ends under a limit, and the text that it prints** where text is kept. -/
structure Ends (d : Demo) (limit : Nat) (o : Outcome) (text : String) : Prop where
  stdout : d.run limit (.stdout "") = (o, .stdout text)
  silent : d.run limit .silent = (o, .silent)

/-- Whether text is kept makes no difference to how it ends. -/
theorem exists_ends (d : Demo) (limit : Nat) : ∃ o text, d.Ends limit o text := by
  obtain ⟨entry, hentry⟩ := Script.exists_entry d.names (d.interpreter limit)
    (.eval d.program.1) Heap.empty.root.2
  have hrun : ∀ s, d.run limit s =
      (entry.outcome, s.printAll (entry.prints.map Value.line)) := by
    intro s
    obtain ⟨t, hperform, hdescribes⟩ := hentry s
    have hsink : t = s.printAll (entry.prints.map Value.line) := hdescribes.sink
    rw [run_eq, hperform, ← hsink]
  refine ⟨entry.outcome, CommandLine.unlines (entry.prints.map Value.line), ?_, ?_⟩
  · rw [hrun, Sink.printAll_stdout, String.empty_append]
  · rw [hrun, Sink.printAll_silent]

/-- One run says it all. -/
theorem ends_of_stdout (h : d.run limit (.stdout "") = (o, .stdout text)) :
    d.Ends limit o text := by
  obtain ⟨o', text', hends⟩ := d.exists_ends limit
  obtain ⟨rfl, htext⟩ := Prod.mk.inj (hends.stdout.symm.trans h)
  obtain rfl := Sink.stdout.inj htext
  exact hends

/-- The runs under two limits. -/
theorem onlyAborted (d : Demo) (s : Sink) (hle : low ≤ high) :
    OnlyAborted ⟨Heap.empty.root.2, s⟩
      ((Request.eval d.program.1).perform d.names (d.interpreter low) ⟨Heap.empty.root.2, s⟩)
      ((Request.eval d.program.1).perform d.names (d.interpreter high) ⟨Heap.empty.root.2, s⟩) := by
  obtain ⟨extra, rfl⟩ := Nat.exists_eq_add_of_le hle
  have hcut : Cut extra (.new low) (Eval.evalFrom d.names (Eval.callValue d.names low) d.program.1)
      (Eval.evalFrom d.names (Eval.callValue d.names (low + extra)) d.program.1) :=
    .evalFrom (Cut.callValue (Nat.zero_add low).symm) _
  exact hcut.onlyAborted (i := d.interpreter low)

/-- **A higher limit makes no difference** to a run that the lower one has not cut short. -/
theorem Ends.of_le (h : d.Ends low o text) (ho : ¬ o.IsOverflow) (hle : low ≤ high) :
    d.Ends high o text := by
  have hrun := h.stdout
  rw [run_eq] at hrun
  obtain ⟨rfl, hsink⟩ := Prod.mk.inj hrun
  obtain ⟨hsame, hworld⟩ := (d.onlyAborted (.stdout "") hle).same ho
  refine ends_of_stdout ?_
  rw [run_eq]
  exact Prod.ext hsame ((congrArg World.sink hworld).trans hsink)

/-- **A lower limit leaves a beginning of the text.** -/
theorem Ends.cut (h : d.Ends low o text) (h' : d.Ends high o' text') (hle : low ≤ high)
    (ho : o.IsOverflow) : ∃ rest, text' = text ++ rest := by
  have hrun := h.stdout
  have hrun' := h'.stdout
  rw [run_eq] at hrun hrun'
  obtain ⟨rfl, hsink⟩ := Prod.mk.inj hrun
  obtain ⟨-, hsink'⟩ := Prod.mk.inj hrun'
  obtain ⟨p, q, hp, hq⟩ := (d.onlyAborted (.stdout "") hle).printed ho
  have htext : text = p := by
    simpa [Sink.Printed, hsink, Sink.text] using hp
  have htext' : text' = p ++ q := by
    simpa [Sink.Printed, hsink', Sink.text] using hq
  exact ⟨q, htext ▸ htext'⟩

/-- **Where an error is raised**, and that it lists the calls that are active there. -/
theorem exists_raises {s : Sink} (h : (d.run limit s).1 = .error e) :
    ∃ n, During d.names (d.start limit s) e.backtrace n ∧ n.Raises d.names e.kind ∧
      n.stack.capture = e.backtrace := by
  have hstart : (d.start limit s).stack.capture = [] := by rfl
  have hfails : (d.start limit s).Fails d.names e := by
    rw [run_eq] at h
    exact Outcome.ofResult_error.mp h
  obtain ⟨calls, n, hd, hn⟩ := hfails.raised
  obtain rfl : calls = e.backtrace := by
    rw [hfails.unique (hn.outermost hd hstart)]
  refine ⟨n, hd, hn, ?_⟩
  rw [hd.capture, hstart, List.append_nil]

end Demo

namespace CommandLine

/-! ## What the run command makes of it -/

variable {args : List String} {name text : String} {o : RunOptions} {d : Demo} {out : Outcome}
  {v : Value} {e : EvalError}

/-- What reaches standard output. -/
def RunOptions.shown (o : RunOptions) (text : String) : String := if o.quiet then "" else text

theorem run_sink (h : d.Ends o.maxDepth out text) :
    ∃ s, d.run o.maxDepth o.sink = (out, s) ∧ written s = o.shown text := by
  unfold RunOptions.sink RunOptions.shown
  cases o.quiet with
  | true => exact ⟨_, h.silent, rfl⟩
  | false => exact ⟨_, h.stdout, rfl⟩

theorem written_printAll (o : RunOptions) (lines : List String) :
    written (o.sink.printAll lines) = o.shown (unlines lines) := by
  unfold RunOptions.sink RunOptions.shown
  cases o.quiet with
  | true => exact congrArg written (Sink.printAll_silent lines)
  | false => exact (congrArg written (Sink.printAll_stdout "" lines)).trans String.empty_append

theorem runCommand_value (hargs : parseRunArgs args = .ok (name, o))
    (hd : Demo.find? name = some d) (h : d.Ends o.maxDepth (.value v) text) :
    runCommand args = ⟨0, o.shown text, ""⟩ := by
  obtain ⟨s, hrun, hs⟩ := run_sink h
  simp only [runCommand, hargs, hd, hrun, hs]

theorem runCommand_error (hargs : parseRunArgs args = .ok (name, o))
    (hd : Demo.find? name = some d) (h : d.Ends o.maxDepth (.error e) text) :
    runCommand args = ⟨1, o.shown text, report e⟩ := by
  obtain ⟨s, hrun, hs⟩ := run_sink h
  simp only [runCommand, hargs, hd, hrun, hs]

/-! ## What is documented -/

/-- What is documented of a demonstration: its name, how many calls are active in it at once at
the most, and the lines that it prints. -/
structure Documented where
  name : String
  calls : Nat
  lines : List String

def documented : List Documented := [
  ⟨"closures", 2, ["Outside before: 10", "Before: 10", "After: 20", "Outside after: 20",
    "Before: 20", "After: 30", "Before: 30", "After: 40"]⟩,
  ⟨"shared", 1, ["left sees 10", "right sees 11", "left sees 111", "a is now 112"]⟩,
  ⟨"counter", 1, ["first: 1 2 3", "second: 101 102"]⟩]

namespace Documented

/-- Checks what is documented by runs under all limits up to the one that admits the calls. -/
def Fits (doc : Documented) (d : Demo) : Prop :=
  (d.run doc.calls (.stdout "")).1.value?.isSome = true ∧
  (d.run doc.calls (.stdout "")).2 = .stdout (unlines doc.lines) ∧
  ∀ limit < doc.calls, (d.run limit (.stdout "")).1.errorKind? = some (.stackOverflow limit)

instance (doc : Documented) (d : Demo) : Decidable (doc.Fits d) :=
  inferInstanceAs (Decidable (_ ∧ _ ∧ _))

/-- **The documentation is right.** -/
theorem fits : ∀ doc ∈ documented, ∃ d ∈ Demo.find? doc.name, doc.Fits d := by
  decide +kernel

variable {doc : Documented} {limit : Nat}

/-- **Where the calls are admitted**, what is documented is printed. -/
theorem Fits.ends (h : doc.Fits d) (hle : doc.calls ≤ limit) :
    ∃ v, d.Ends limit (.value v) (unlines doc.lines) := by
  obtain ⟨hvalue, hsink, -⟩ := h
  obtain ⟨out, text, hends⟩ := d.exists_ends doc.calls
  rw [hends.stdout] at hvalue hsink
  obtain rfl : text = unlines doc.lines := Sink.stdout.inj hsink
  cases out with
  | value v => exact ⟨v, hends.of_le (fun hover => hover) hle⟩
  | error e => cases hvalue
  | fault f => cases hvalue

/-- **Where they are not**, the limit ends the run, and a beginning is printed. -/
theorem Fits.cut (h : doc.Fits d) (hlt : limit < doc.calls) :
    ∃ e text rest, d.Ends limit (.error e) text ∧ e.kind = .stackOverflow limit ∧
      unlines doc.lines = text ++ rest := by
  obtain ⟨v, hfull⟩ := h.ends (le_refl _)
  have hkind := h.2.2 limit hlt
  obtain ⟨out, text, hends⟩ := d.exists_ends limit
  rw [hends.stdout] at hkind
  cases out with
  | error e =>
    have hkind : e.kind = .stackOverflow limit := Option.some.inj hkind
    obtain ⟨rest, hrest⟩ := hends.cut hfull (Nat.le_of_lt hlt) ⟨limit, hkind⟩
    exact ⟨e, text, rest, hends, hkind, hrest⟩
  | value v => cases hkind
  | fault f => cases hkind

/-- There is documentation for every demonstration. -/
theorem of_find? (hd : Demo.find? name = some d) : ∃ doc ∈ documented, doc.name = name := by
  have hname : d.name = name := by simpa using List.find?_some hd
  have hmem : d.name ∈ Demo.all.map Demo.name := List.mem_map_of_mem (List.mem_of_find?_eq_some hd)
  have hnames : Demo.all.map Demo.name = documented.map Documented.name := by rfl
  rw [hnames, hname] at hmem
  exact List.mem_map.mp hmem

end Documented

/-! ## All arguments -/

/-- The arguments are taken, and ask for that demonstration with these options. -/
def Asks (args : List String) (doc : Documented) (o : RunOptions) : Prop :=
  doc ∈ documented ∧ parseRunArgs args = .ok (doc.name, o)

/-- They ask for a demonstration and admit its calls. -/
def Feasible (args : List String) : Prop := ∃ doc o, Asks args doc o ∧ doc.calls ≤ o.maxDepth

/-- **A demonstration that the limit has cut short.** What is printed is a beginning of its text,
with all that it printed until then. The error channel reports the limit and then the calls that
were active where it was raised, innermost first; these are as many as the limit admits. -/
structure CutShort (doc : Documented) (o : RunOptions) (t : Transcript) : Prop where
  code : t.code = 1
  quiet : o.quiet = true → t.stdout = ""
  stdout : ∃ rest, unlines doc.lines = t.stdout ++ rest
  cause : ∃ d active n, Demo.find? doc.name = some d ∧
    During d.names (d.start o.maxDepth o.sink) active n ∧
    n.Raises d.names (.stackOverflow o.maxDepth) ∧ n.stack.capture = active ∧
    active.length = o.maxDepth ∧
    t.stdout = o.shown (unlines ((d.start o.maxDepth o.sink).lines d.names)) ∧
    t.stderr = unlines (("error: maximum call depth of " ++ toString o.maxDepth ++ " exceeded") ::
      active.map ("  in " ++ ·))

/-- An error is reported: the code is 1, and the error channel says so. -/
structure Failed (t : Transcript) : Prop where
  code : t.code = 1
  stderr : ∃ rest, t.stderr = "error: " ++ rest

variable {doc : Documented}

theorem Asks.found (h : Asks args doc o) :
    ∃ d, Demo.find? doc.name = some d ∧ doc.Fits d :=
  Documented.fits doc h.1

theorem Asks.completes (h : Asks args doc o) (hle : doc.calls ≤ o.maxDepth) :
    run ("run" :: args) = ⟨0, o.shown (unlines doc.lines), ""⟩ := by
  obtain ⟨d, hd, hfits⟩ := h.found
  obtain ⟨v, hends⟩ := hfits.ends hle
  exact runCommand_value h.2 hd hends

theorem report_overflow {limit : Nat} (h : e.kind = .stackOverflow limit) :
    report e = unlines (("error: maximum call depth of " ++ toString limit ++ " exceeded") ::
      e.backtrace.map ("  in " ++ ·)) := by
  rw [report, EvalError.message, h]
  rfl

theorem Asks.cutShort (h : Asks args doc o) (hlt : o.maxDepth < doc.calls) :
    CutShort doc o (run ("run" :: args)) := by
  obtain ⟨d, hd, hfits⟩ := h.found
  obtain ⟨e, text, rest, hends, hkind, hrest⟩ := hfits.cut hlt
  obtain ⟨s, hrun, hs⟩ := run_sink hends
  obtain ⟨n, hduring, hraises, hcapture⟩ := Demo.exists_raises (congrArg Prod.fst hrun)
  rw [hkind] at hraises
  have hmax : n.stack.maxDepth = o.maxDepth := hduring.maxDepth
  have hfull := (hraises.limit_reached (hduring.depth_le (Nat.zero_le _))).2
  have hsink : s = o.sink.printAll ((d.start o.maxDepth o.sink).lines d.names) := by
    rw [← d.run_snd, hrun]
  have hprinted : o.shown text = o.shown (unlines ((d.start o.maxDepth o.sink).lines d.names)) := by
    rw [← hs, hsink, written_printAll]
  have ht : run ("run" :: args) = ⟨1, o.shown text, report e⟩ := runCommand_error h.2 hd hends
  rw [ht]
  refine ⟨rfl, fun hquiet => if_pos hquiet, ?_, d, e.backtrace, n, hd, hduring, hraises, hcapture,
    ?_, hprinted, report_overflow hkind⟩
  · show ∃ rest, unlines doc.lines = o.shown text ++ rest
    unfold RunOptions.shown
    split
    · exact ⟨unlines doc.lines, String.empty_append.symm⟩
    · exact ⟨rest, hrest⟩
  · rw [← hcapture, CallStack.length_capture, hfull, hmax]

theorem failed_unlines {first : String} (hfirst : ∃ rest, first = "error: " ++ rest)
    (out : String) (lines : List String) : Failed ⟨1, out, unlines (first :: lines)⟩ := by
  obtain ⟨rest, rfl⟩ := hfirst
  exact ⟨rfl, rest ++ "\n" ++ unlines lines, by simp [unlines, String.append_assoc]⟩

theorem exists_error {first : String} (what : String) (hfirst : first = "error: " ++ what)
    (s t : String) : ∃ rest, first ++ s ++ t = "error: " ++ rest :=
  ⟨what ++ s ++ t, by simp [hfirst, String.append_assoc]⟩

theorem CutShort.failed {t : Transcript} (h : CutShort doc o t) : Failed t := by
  obtain ⟨d, active, n, -, -, -, -, -, -, hstderr⟩ := h.cause
  obtain ⟨code, out, err⟩ := t
  obtain rfl := h.code
  obtain rfl := hstderr
  exact failed_unlines (exists_error "maximum call depth of " rfl _ _) _ _

/-- Arguments that are not taken, and names that no demonstration has. -/
theorem failed_of_not_asks (h : ∀ doc o, ¬ Asks args doc o) :
    Failed (run ("run" :: args)) ∧ (run ("run" :: args)).stdout = "" := by
  obtain ⟨first, lines, hfirst, ht⟩ : ∃ first lines, (∃ rest, first = "error: " ++ rest) ∧
      run ("run" :: args) = ⟨1, "", unlines (first :: lines)⟩ := by
    show ∃ first lines, _ ∧ runCommand args = _
    unfold runCommand
    cases hargs : parseRunArgs args with
    | error e => exact ⟨_, _, ⟨e.message, rfl⟩, rfl⟩
    | ok found =>
      obtain ⟨name, o⟩ := found
      cases hd : Demo.find? name with
      | none =>
        simp only [hd]
        exact ⟨_, _, exists_error "unknown demo `" rfl _ _, rfl⟩
      | some d =>
        obtain ⟨doc, hdoc, rfl⟩ := Documented.of_find? hd
        exact absurd ⟨hdoc, hargs⟩ (h doc o)
  rw [ht]
  exact ⟨failed_unlines hfirst _ _, rfl⟩

/-- **The run command from end to end.** It succeeds if and only if its arguments are taken, ask
for a demonstration and admit its calls. Then nothing is reported, and what is documented is
printed unless output is dropped. Otherwise an error is reported. Nothing is printed where no
demonstration is asked for; one that the limit cuts short has printed a beginning of its text, and
the report names the limit and the active calls. -/
theorem run_demonstrations (args : List String) :
    ((run ("run" :: args)).code = 0 ↔ Feasible args) ∧
    (∀ doc o, Asks args doc o → doc.calls ≤ o.maxDepth →
      (run ("run" :: args)).stderr = "" ∧
      (run ("run" :: args)).stdout = if o.quiet then "" else unlines doc.lines) ∧
    (¬ Feasible args → Failed (run ("run" :: args))) ∧
    ((∀ doc o, ¬ Asks args doc o) → (run ("run" :: args)).stdout = "") ∧
    ∀ doc o, Asks args doc o → o.maxDepth < doc.calls →
      CutShort doc o (run ("run" :: args)) := by
  have hsuccess : Feasible args → (run ("run" :: args)).code = 0 := by
    rintro ⟨doc, o, hasks, hle⟩
    exact congrArg Transcript.code (hasks.completes hle)
  have hfailed : ¬ Feasible args → Failed (run ("run" :: args)) := by
    intro hno
    by_cases hasks : ∃ doc o, Asks args doc o
    · obtain ⟨doc, o, hasks⟩ := hasks
      have hlt : o.maxDepth < doc.calls := Nat.lt_of_not_le fun hle => hno ⟨doc, o, hasks, hle⟩
      exact (hasks.cutShort hlt).failed
    · exact (failed_of_not_asks fun doc o h => hasks ⟨doc, o, h⟩).1
  refine ⟨⟨fun hcode => ?_, hsuccess⟩, fun doc o hasks hle => ?_, hfailed,
    fun hnone => (failed_of_not_asks hnone).2, fun doc o hasks hlt => hasks.cutShort hlt⟩
  · by_contra hno
    exact absurd ((hfailed hno).code.symm.trans hcode) (by decide)
  · rw [hasks.completes hle]
    exact ⟨rfl, rfl⟩

/-- `test` is entered, and the closure that it makes is refused. -/
theorem run_demonstrations_closures :
    let args := ["closures", "--max-depth=1"]
    let doc : Documented := ⟨"closures", 2, ["Outside before: 10", "Before: 10", "After: 20",
      "Outside after: 20", "Before: 20", "After: 30", "Before: 30", "After: 40"]⟩
    let t := run ("run" :: args)
    Asks args doc ⟨1, false⟩ ∧ CutShort doc ⟨1, false⟩ t ∧
      t = ⟨1, "Outside before: 10\n", "error: maximum call depth of 1 exceeded\n  in test\n"⟩ := by
  intro args doc t
  have hasks : Asks args doc ⟨1, false⟩ := ⟨List.mem_cons_self, rfl⟩
  exact ⟨hasks, (run_demonstrations args).2.2.2.2 doc ⟨1, false⟩ hasks (by decide),
    by decide +kernel⟩

end CommandLine

end ClosureLang
