import ClosureLang.Proofs.Host.Runs

/-!
# Reference counts

How many handles to a frame there are can be read off what the host holds and what the living
frames hold (`State.holders`). The ledger notes down that very number, and a frame is alive as
long as it is positive (`reference_counts_exact`), after whatever a host has been told to do.

The ledger never looks at who holds what. A number goes up by one where a handle is copied and down
by one where it is let go of: an argument is bound in the frame of a call, a variable is
overwritten, a scope is left, a call is given up half bound. That the numbers are right all the same
is proved for one operation on the frames at a time (`Store.Later`), and from there for evaluation
(`Counted.Moves`), for a command (`Action.Ends.serve`) and for a run.
-/

namespace ClosureLang

/-- What a frame binds to its names. -/
def Heap.boundValues (h : Heap) (f : FrameId) : List Value :=
  (h.frame? f).elim [] fun fr => fr.bindings.map Prod.snd

namespace Host.State

variable {s : State} {f : FrameId}

/-- The frames that are alive, the oldest first. -/
def living (s : State) : List FrameId := Ledger.living s.ledger.alive

/-- **The number of handles to a frame**: the registers that hold it, the living frames right
inside it, the functions that captured it and are held by the host or bound in a living frame,
and two for each interpreter whose outermost frame it is. -/
def holders (s : State) (f : FrameId) : Nat :=
  s.frames.values.count f
    + s.living.countP (fun g => s.heap.parent? g == some f)
    + (s.values.values ++ s.living.flatMap s.heap.boundValues).countP (·.captured? == some f)
    + 2 * s.residents.values.countP (·.interpreter.globalFrame == f)

/-! ## Counting handles by who holds them -/

theorem count_links (h : Heap) (g f : FrameId) : (h.links g).count f =
    (if h.parent? g == some f then 1 else 0) +
      (h.boundValues g).countP (·.captured? == some f) := by
  rcases hg : h.frame? g with _ | fr
  · simp [Heap.links, Heap.parent?, Heap.boundValues, hg]
  · simp only [Heap.links, Heap.parent?, Heap.boundValues, hg, Option.elim, Frame.links,
      List.count_append, List.count_filterMap, List.countP_map, Option.bind_eq_bind,
      Option.bind_some]
    congr 1
    cases fr.parent with
    | none => simp
    | some p => simp [List.count_singleton]

/-- What living frames hold, by the two ways in which they do. -/
theorem count_flatMap_links (h : Heap) (gs : List FrameId) (f : FrameId) :
    (gs.flatMap h.links).count f = gs.countP (fun g => h.parent? g == some f) +
      (gs.flatMap h.boundValues).countP (·.captured? == some f) := by
  induction gs with
  | nil => rfl
  | cons g gs ih =>
    simp only [List.flatMap_cons, List.count_append, List.countP_append, List.countP_cons,
      count_links, ih]
    omega

/-- The functions in a list of values. -/
theorem count_allHandles (vs : List Value) (f : FrameId) :
    (Value.allHandles vs).count f = vs.countP (·.captured? == some f) := by
  induction vs with
  | nil => rfl
  | cons v vs ih =>
    have hone : v.handles.count f = if v.captured? == some f then 1 else 0 := by
      cases hv : v.captured? <;> simp [Value.handles, hv, List.count_singleton]
    rw [Value.allHandles, List.flatMap_cons, List.count_append, hone, List.countP_cons,
      Nat.add_comm]
    exact congrArg (· + _) ih

/-- An interpreter between two requests is in its outermost frame, and so holds it twice. -/
theorem count_residents {rs : List Resident} (f : FrameId)
    (hrs : ∀ r ∈ rs, r.interpreter.frame = r.interpreter.globalFrame) :
    (rs.flatMap Resident.handles).count f = 2 * rs.countP (·.interpreter.globalFrame == f) := by
  induction rs with
  | nil => rfl
  | cons r rs ih =>
    rw [List.flatMap_cons, List.count_append, ih fun q hq => hrs q (List.mem_cons_of_mem _ hq),
      Resident.handles, hrs r List.mem_cons_self, List.countP_cons]
    simp only [List.count_cons, List.count_nil]
    split <;> omega

theorem Coherent.count_handles (hs : s.Coherent) (f : FrameId) :
    (Ledger.handles s.heap s.roots s.ledger.alive).count f = s.holders f := by
  have hresidents := count_residents f hs.outermost
  simp only [Ledger.handles, roots, List.count_append, count_allHandles, holders,
    List.countP_append, count_flatMap_links, hresidents, living]
  omega

namespace Balanced

theorem count_eq (hs : s.Balanced) (hf : s.ledger.isAlive f = true) :
    s.ledger.count f = s.holders f := by
  rw [hs.exact.count f hf, hs.coherent.count_handles]

theorem isAlive_iff (hs : s.Balanced) : s.ledger.isAlive f = true ↔ 0 < s.holders f := by
  rw [← hs.coherent.count_handles, List.count_pos_iff]
  constructor
  · exact fun hf => (hs.exact.count_pos hf).mp (hs.store.settled f hf)
  · exact hs.exact.alive f

end Balanced

/-! ## What a host is told about it -/

theorem step_count {r : String} (hf : s.frames.get? r = some f) :
    (s.step (.count r)).1 = .strongCount (s.ledger.count f) := by
  have hserve : Action.serve (.count r) s = (.ok (.strongCount (s.ledger.count f)), s) := by
    rw [Action.serve, Attempt.bind_apply, Action.held_apply, hf]
    rfl
  rw [step, hserve]

/-- What a host is told, and what it then holds. -/
theorem step_upgrade {r : String} (dest : String) (hf : s.weak.get? r = some f) :
    (s.step (.upgrade r dest)).1 = .found (s.ledger.isAlive f) ∧
      (s.ledger.isAlive f = true → (s.step (.upgrade r dest)).2.frames.get? dest = some f) := by
  have hserve : Action.serve (.upgrade r dest) s =
      (do
        if s.ledger.isAlive f then
          Action.retain [f]
          Action.putFrame dest f
          pure (.found true)
        else pure (.found false) : Action Reply) s := by
    rw [Action.serve, Attempt.bind_apply, Action.held_apply, hf]
    rfl
  rw [step, hserve]
  cases s.ledger.isAlive f with
  | false => exact ⟨rfl, fun h => absurd h Bool.false_ne_true⟩
  | true =>
    refine ⟨rfl, fun _ => ?_⟩
    show Registers.get? (s.frames.put dest f) dest = some f
    rw [Registers.get?_put, if_pos rfl]

/-- **Reference counts are right, and keep alive what is held.** -/
structure CountsExact (s : State) : Prop where
  count : ∀ f, s.ledger.isAlive f = true → s.ledger.count f = s.holders f
  alive : ∀ f, s.ledger.isAlive f = true ↔ 0 < s.holders f
  reachable : ∀ f, s.heap.Reachable (· ∈ s.roots) f → s.ledger.isAlive f = true
  /-- A host that holds a frame and asks for the number is told it. -/
  told : ∀ r f, s.frames.get? r = some f → (s.step (.count r)).1 = .strongCount (s.holders f)
  /-- A host that refers to a frame without holding it can get hold of it as long as somebody
  holds it. -/
  upgrade : ∀ r dest f, s.weak.get? r = some f →
    (s.step (.upgrade r dest)).1 = .found (decide (0 < s.holders f)) ∧
      (0 < s.holders f → (s.step (.upgrade r dest)).2.frames.get? dest = some f)

theorem Balanced.countsExact (hs : s.Balanced) : s.CountsExact where
  count _ hf := hs.count_eq hf
  alive _ := hs.isAlive_iff
  reachable _ hf := hs.isAlive_of_reachable hf
  told r f hf := by
    have hroot := mem_roots.mpr (.inl (Registers.mem_values_of_get? hf))
    have halive := hs.isAlive_of_held (.inl hroot)
    rw [step_count hf, hs.count_eq halive]
  upgrade r dest f hf := by
    obtain ⟨hreply, hframe⟩ := step_upgrade dest hf
    have halive : s.ledger.isAlive f = decide (0 < s.holders f) := by
      rw [Bool.eq_iff_iff, hs.isAlive_iff, decide_eq_true_iff]
    exact ⟨halive ▸ hreply, fun hpos => hframe (hs.isAlive_iff.mpr hpos)⟩

/-- After every sequence of commands, reference counts are exact. -/
theorem reference_counts_exact (cs : List Command) : (start.run cs).CountsExact :=
  (balanced_start.run cs).countsExact

/-- Two registers and a frame inside it hold the first frame. -/
example : ((start.run [.root "a", .alias "a" "b", .child "a" "c"]).step (.count "a")).1 =
    .strongCount 3 := rfl

/-- A frame that only a function in a variable holds is gone when the variable is overwritten, and
so is its handle to the frame around it. -/
example : (start.run [.root "a", .child "a" "b", .weaken "b" "w",
    .program "main" [.void, .function none [] 0] "p", .make "p" 1 none "b" (some "f"),
    .define "main" "a" "x" (.held "f"), .dropValue "f", .dropFrame "b",
    .set "main" "a" "x" (.literal .void)]).ledger = ⟨#[true, false], #[1, 0]⟩ := rfl

/-- A call that is given up when one of two parameters of one name has been bound leaves nothing
behind: the register and the function are the only holders of the captured frame. -/
example : (start.run [.root "a", .program "main" [.void, .function none ["x", "x"] 0] "p",
    .make "p" 1 none "a" (some "f"), .bind "main" "f" [.held "f", .held "f"] "k"]).ledger =
    ⟨#[true, false], #[2, 0]⟩ := rfl

end Host.State
end ClosureLang
