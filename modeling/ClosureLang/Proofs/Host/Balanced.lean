import ClosureLang.Proofs.Eval.Changes
import ClosureLang.Proofs.Eval.Erasure
import ClosureLang.Proofs.Eval.Handles
import ClosureLang.Proofs.Host.Lookups

/-!
# Commands keep the numbers right

A host is `Balanced` when the numbers in its ledger are right for the handles in its registers.
While it carries out a command it has further handles in hand: one that it copied and has not stored
yet, or what it took out of a register and has not let go of. `Midway` says that the numbers are
right for these as well.

Each action takes some handles, and gives out others. So there is one rule for each action (`Ends`),
which says what is in hand when the rest of the command begins. At the end, and wherever a command
stops because it misses something, there must be nothing in hand.
-/

namespace ClosureLang.Host

namespace State

variable {s t u : State} {f : FrameId} {v : Value} {r : String} {hand hand' fs : List FrameId}

/-- What a host holds belongs to its heap, and every interpreter is in its outermost frame. -/
structure Coherent (s : State) : Prop where
  heap : s.heap.Sound
  frames : s.frames.Distinct
  values : s.values.Distinct
  residents : s.residents.Distinct
  valid : ∀ v ∈ s.values.values, v.ValidIn s.heap
  outermost : ∀ r ∈ s.residents.values, r.interpreter.frame = r.interpreter.globalFrame

/-- **The numbers are right for what the registers hold.** -/
structure Balanced (s : State) : Prop where
  coherent : s.Coherent
  store : s.store.Balanced s.roots

/-- What came of `s`, with these handles in hand. -/
structure Midway (s : State) (hand : List FrameId) (t : State) : Prop where
  coherent : t.Coherent
  later : s.store.Later (hand ++ t.roots) t.store
  continues : s.heap.Continues t.heap

/-- Who holds a frame directly: a register of frames, one of values, or an interpreter. -/
theorem mem_roots : f ∈ s.roots ↔ f ∈ s.frames.values ∨
    (∃ v ∈ s.values.values, v.captured? = some f) ∨
      ∃ r ∈ s.residents.values, f = r.interpreter.globalFrame ∨ f = r.interpreter.frame := by
  simp [roots, Value.allHandles, Value.handles, Resident.handles]

theorem handles_subset_roots (hv : s.Offers v) : v.handles ⊆ s.roots := by
  intro f hf
  rcases hv with hv | hv
  · simp [Value.handles, Value.captured?, hv] at hf
  · exact mem_roots.mpr (.inr (.inl ⟨v, hv, Option.mem_toList.mp hf⟩))

theorem Coherent.valid_of_offers (hs : s.Coherent) (hv : s.Offers v) : v.ValidIn s.heap := by
  rcases hv with hv | hv
  · exact .of_captured? (by simp [Value.captured?, hv])
  · exact hs.valid v hv

theorem Balanced.midway (hs : s.Balanced) : Midway s [] s :=
  ⟨hs.coherent, hs.store.later, .refl s.heap⟩

/-- Two states that hold the same frames, values and interpreters. -/
structure Alike (s t : State) : Prop where
  heap : t.heap = s.heap
  ledger : t.ledger = s.ledger
  frames : t.frames = s.frames
  values : t.values = s.values
  residents : t.residents = s.residents

namespace Midway

theorem balanced (ht : Midway s [] t) : t.Balanced := ⟨ht.coherent, ht.later.balanced⟩

/-! ### What is held is alive -/

theorem isAlive_of_hand (ht : Midway s hand t) (hf : f ∈ hand) : t.ledger.isAlive f = true :=
  ht.later.balanced.exact.isAlive_of_mem (List.mem_append_left _ hf)

theorem isAlive_of_root (ht : Midway s hand t) (hf : f ∈ t.roots) : t.ledger.isAlive f = true :=
  ht.later.balanced.exact.isAlive_of_mem (List.mem_append_right _ hf)

theorem isAlive_of_frame (ht : Midway s hand t) (hf : t.frames.get? r = some f) :
    t.ledger.isAlive f = true :=
  ht.isAlive_of_root (mem_roots.mpr (.inl (Registers.mem_values_of_get? hf)))

theorem isAlive_of_offers (ht : Midway s hand t) (hv : t.Offers v) :
    ∀ f ∈ v.handles, t.ledger.isAlive f = true :=
  fun _ hf => ht.isAlive_of_root (handles_subset_roots hv hf)

theorem isAlive_of_all_offers (ht : Midway s hand t) {vs : List Value}
    (hvs : ∀ v ∈ vs, t.Offers v) : ∀ f ∈ Value.allHandles vs, t.ledger.isAlive f = true := by
  intro f hf
  obtain ⟨v, hv, hf⟩ := List.mem_flatMap.mp hf
  exact ht.isAlive_of_offers (hvs v hv) f hf

theorem lt_size (ht : Midway s hand t) (hf : t.ledger.isAlive f = true) : f < t.heap.size :=
  ht.later.balanced.lt_size hf

/-! ### Steps -/

/-- Handles go from hand to registers or back, and no number changes. -/
theorem regrasp (ht : Midway s hand t) (hu : u.Coherent) (hstore : u.store = t.store)
    (hp : (hand ++ t.roots).Perm (hand' ++ u.roots)) : Midway s hand' u := by
  have hheap : u.heap = t.heap := congrArg Store.heap hstore
  exact ⟨hu, hstore ▸ ht.later.perm hp, hheap ▸ ht.continues⟩

theorem alike (ht : Midway s hand t) (h : t.Alike u) : Midway s hand u := by
  refine ht.regrasp ?_ ?_ ?_
  · exact ⟨h.heap ▸ ht.coherent.heap, h.frames ▸ ht.coherent.frames, h.values ▸ ht.coherent.values,
      h.residents ▸ ht.coherent.residents, h.heap ▸ h.values ▸ ht.coherent.valid,
      h.residents ▸ ht.coherent.outermost⟩
  · rw [store, store, h.heap, h.ledger]
  · rw [roots, roots, h.frames, h.values, h.residents]

/-- Changes to the heap, with the numbers kept up. -/
theorem onto (ht : Midway s hand t) {st : Store} (hb : t.heap.Becomes st.heap)
    (hl : t.store.Later (hand' ++ t.roots) st) : Midway s hand' (t.withStore st) where
  coherent :=
    ⟨hb.sound ht.coherent.heap, ht.coherent.frames, ht.coherent.values, ht.coherent.residents,
      fun v hv => hb.continues.validIn (ht.coherent.valid v hv), ht.coherent.outermost⟩
  later := ht.later.trans hl
  continues := ht.continues.trans hb.continues

theorem retain (ht : Midway s hand t) (hfs : ∀ f ∈ fs, t.ledger.isAlive f = true) :
    Midway s (fs ++ hand) (t.withStore (t.store.retain fs)) := by
  refine ht.onto .refl ?_
  rw [List.append_assoc]
  exact ht.later.balanced.retain fs hfs

theorem release (ht : Midway s (fs ++ hand) t) :
    Midway s hand (t.withStore (t.store.release fs)) := by
  have hbalanced : t.store.Balanced (fs ++ (hand ++ t.roots)) := by
    rw [← List.append_assoc]
    exact ht.later.balanced
  exact ht.onto .refl (hbalanced.release fs)

end Midway
end State

open State (Midway)

namespace Action

variable {α β γ : Type} {s t : State} {x : Action α} {g : α → Action β} {f : FrameId} {v : Value}
  {r : String} {hand fs : List FrameId}

/-- From this state the action comes to its end, and nothing is in hand then. -/
def Ends (s : State) (x : Action α) (t : State) : Prop := Midway s [] (x t).2

namespace Ends

theorem pure {a : α} (ht : Midway s [] t) : Ends s (pure a) t := ht

theorem fail {what : String} (ht : Midway s [] t) : Ends s (.fail what : Action α) t := ht

theorem assoc {h : β → Action γ} (hx : Ends s (x >>= fun a => g a >>= h) t) :
    Ends s (x >>= g >>= h) t := by rwa [bind_assoc]

/-- What is looked up is known when the rest begins. -/
theorem look {P : α → Prop} (ht : Midway s [] t) (hx : Looks t x P)
    (hg : ∀ a, P a → Ends s (g a) t) : Ends s (x >>= g) t := by
  rcases hx.bind_cases g with ⟨what, h⟩ | ⟨a, ha, h⟩ <;> rw [Ends, h]
  · exact ht
  · exact hg a ha

/-- Looking something up is all that is done. -/
theorem looks {P : α → Prop} (ht : Midway s [] t) (hx : Looks t x P) : Ends s x t := by
  rw [Ends, hx.1]
  exact ht

/-! ## Storing -/

/-- Storing what is no frame, no value and no interpreter. -/
theorem aside {change : State → State} {g : Unit → Action β} (ht : Midway s hand t)
    (h : t.Alike (change t)) (hg : ∀ u, Midway s hand u → Ends s (g ()) u) :
    Ends s (.modify change >>= g) t := hg _ (ht.alike h)

theorem retain {g : Unit → Action β} (ht : Midway s hand t)
    (hfs : ∀ f ∈ fs, t.ledger.isAlive f = true)
    (hg : Midway s (fs ++ hand) (t.withStore (t.store.retain fs)) →
      Ends s (g ()) (t.withStore (t.store.retain fs))) : Ends s (Action.retain fs >>= g) t :=
  hg (ht.retain hfs)

theorem release {g : Unit → Action β} (ht : Midway s (fs ++ hand) t)
    (hg : Midway s hand (t.withStore (t.store.release fs)) →
      Ends s (g ()) (t.withStore (t.store.release fs))) : Ends s (Action.release fs >>= g) t :=
  hg ht.release

/-- A register changes, and what was there is let go of. -/
theorem exchange {before : State → List FrameId} {change : State → State} {g : Unit → Action β}
    {hand' : List FrameId} (ht : Midway s hand t) (hu : (change t).Coherent)
    (hstore : (change t).store = t.store)
    (hp : (hand ++ t.roots).Perm (before t ++ hand' ++ (change t).roots))
    (hg : ∀ u, Midway s hand' u → Ends s (g ()) u) :
    Ends s (Action.exchange before change >>= g) t :=
  hg _ (ht.regrasp hu hstore hp).release

theorem putFrame {g : Unit → Action β} (ht : Midway s (f :: hand) t)
    (hg : ∀ u, Midway s hand u → Ends s (g ()) u) : Ends s (Action.putFrame r f >>= g) t := by
  have hc := ht.coherent
  refine exchange ht ⟨hc.heap, hc.frames.put r f, hc.values, hc.residents, hc.valid, hc.outermost⟩
    rfl (List.perm_iff_count.mpr fun e => ?_) hg
  have hslot := (hc.frames.values_perm r).count_eq e
  simp only [State.roots, Registers.values_put, List.cons_append, List.count_cons,
    List.count_append] at hslot ⊢
  omega

theorem dropFrame {g : Unit → Action β} (ht : Midway s hand t)
    (hg : ∀ u, Midway s hand u → Ends s (g ()) u) : Ends s (Action.dropFrame r >>= g) t := by
  have hc := ht.coherent
  refine exchange ht ⟨hc.heap, hc.frames.erase r, hc.values, hc.residents, hc.valid, hc.outermost⟩
    rfl (List.perm_iff_count.mpr fun e => ?_) hg
  have hslot := (hc.frames.values_perm r).count_eq e
  simp only [State.roots, List.count_append] at hslot ⊢
  omega

theorem putValue {g : Unit → Action β} (ht : Midway s (v.handles ++ hand) t)
    (hv : v.ValidIn t.heap) (hg : ∀ u, Midway s hand u → Ends s (g ()) u) :
    Ends s (Action.putValue r v >>= g) t := by
  have hc := ht.coherent
  refine exchange ht ⟨hc.heap, hc.frames, hc.values.put r v, hc.residents, fun u hu => ?_,
    hc.outermost⟩ rfl (List.perm_iff_count.mpr fun e => ?_) hg
  · rcases Registers.mem_values_of_put hu with rfl | hu
    · exact hv
    · exact hc.valid u hu
  · have hslot := (hc.values.flatMap_perm r Value.handles).count_eq e
    simp only [State.roots, Registers.values_put, Value.allHandles, List.flatMap_cons,
      List.count_append] at hslot ⊢
    omega

theorem dropValue {g : Unit → Action β} (ht : Midway s hand t)
    (hg : ∀ u, Midway s hand u → Ends s (g ()) u) : Ends s (Action.dropValue r >>= g) t := by
  have hc := ht.coherent
  refine exchange ht ⟨hc.heap, hc.frames, hc.values.erase r, hc.residents,
    fun u hu => hc.valid u (Registers.mem_values_of_erase hu), hc.outermost⟩ rfl
    (List.perm_iff_count.mpr fun e => ?_) hg
  have hslot := (hc.values.flatMap_perm r Value.handles).count_eq e
  simp only [State.roots, Value.allHandles, List.count_append] at hslot ⊢
  omega

theorem putResident {g : Unit → Action β} {q : Resident} (ht : Midway s (q.handles ++ hand) t)
    (hq : q.interpreter.frame = q.interpreter.globalFrame)
    (hg : ∀ u, Midway s hand u → Ends s (g ()) u) : Ends s (Action.putResident r q >>= g) t := by
  have hc := ht.coherent
  refine exchange ht ⟨hc.heap, hc.frames, hc.values, hc.residents.put r q, hc.valid, fun p hp => ?_⟩
    rfl (List.perm_iff_count.mpr fun e => ?_) hg
  · rcases Registers.mem_values_of_put hp with rfl | hp
    · exact hq
    · exact hc.outermost p hp
  · have hslot := (hc.residents.flatMap_perm r Resident.handles).count_eq e
    simp only [State.roots, Registers.values_put, List.flatMap_cons, List.count_append] at hslot ⊢
    omega

theorem dropResident {g : Unit → Action β} (ht : Midway s hand t)
    (hg : ∀ u, Midway s hand u → Ends s (g ()) u) : Ends s (Action.dropResident r >>= g) t := by
  have hc := ht.coherent
  refine exchange ht ⟨hc.heap, hc.frames, hc.values, hc.residents.erase r, hc.valid,
    fun p hp => hc.outermost p (Registers.mem_values_of_erase hp)⟩ rfl
    (List.perm_iff_count.mpr fun e => ?_) hg
  have hslot := (hc.residents.flatMap_perm r Resident.handles).count_eq e
  simp only [State.roots, List.count_append] at hslot ⊢
  omega

/-- The value of an outcome is stored or let go of. -/
theorem outcomeReply {dest : Option String} {o : Outcome} (ht : Midway s o.handles t)
    (hv : ∀ v, o.value? = some v → v.ValidIn t.heap) : Ends s (Action.outcomeReply dest o) t := by
  unfold Action.outcomeReply
  cases o with
  | value v =>
    have ht' : Midway s (v.handles ++ []) t := by rwa [List.append_nil]
    cases dest with
    | none => exact release ht' fun hu => pure hu
    | some r => exact putValue ht' (hv v rfl) fun u hu => pure hu
  | error e | fault f => exact pure ht

/-! ## Changing the heap -/

theorem newFrame {p : Option FrameId} {g : FrameId → Action β} (ht : Midway s hand t)
    (hp : ∀ f ∈ p, t.ledger.isAlive f = true)
    (hg : ∀ f u, Midway s (f :: hand) u → Ends s (g f) u) :
    Ends s (Action.newFrame p >>= g) t := by
  have hb : t.heap.Becomes (t.store.newFrame p).2.heap :=
    .single (.newFrame p fun f hf => ht.lt_size (hp f hf))
  exact hg _ _ (ht.onto hb (Store.newFrame_later ht.later.balanced hp))

theorem newClosure {code : FunctionCode} {g : Closure → Action β} (ht : Midway s hand t)
    (hf : t.ledger.isAlive f = true)
    (hg : ∀ c u, Midway s (c.frame :: hand) u → (Value.function c).ValidIn u.heap →
      Ends s (g c) u) : Ends s (Action.newClosure code f >>= g) t := by
  have hb : t.heap.Becomes (t.store.makeClosure code f).2.heap := .single (.makeClosure code f)
  exact hg _ _ (ht.onto hb (Store.makeClosure_later ht.later.balanced code hf))
    ⟨ht.lt_size hf, Nat.lt_succ_self _⟩

/-- An operation on the frames, when it is known what it does to the handles in hand. -/
theorem onStore {ε : Type} {op : Attempt Store ε α} {g : Except ε α → Action β}
    {hand' : List FrameId} (ht : Midway s hand t)
    (hl : t.store.Later (hand' ++ t.roots) (op t.store).2) (hb : t.heap.Becomes (op t.store).2.heap)
    (hg : Midway s hand' (t.withStore (op t.store).2) →
      Ends s (g (op t.store).1) (t.withStore (op t.store).2)) :
    Ends s (Action.onStore op >>= g) t := hg (ht.onto hb hl)

/-! ## Tables and destinations -/

theorem internIn {table text : String} {g : Name → Action β} (ht : Midway s [] t)
    (hg : ∀ n u, Midway s [] u → Ends s (g n) u) : Ends s (Action.internIn table text >>= g) t :=
  assoc (look ht (.table table) fun ⟨_, _⟩ _ =>
    assoc (aside ht ⟨rfl, rfl, rfl, rfl, rfl⟩ fun u hu => hg _ u hu))

theorem newSink {k : Sink} {g : Nat → Action β} (ht : Midway s hand t)
    (hg : ∀ i u, t.Alike u → Midway s hand u → Ends s (g i) u) :
    Ends s (Action.newSink k >>= g) t :=
  have hu : t.Alike { t with sinks := t.sinks.push k } := ⟨rfl, rfl, rfl, rfl, rfl⟩
  hg _ _ hu (ht.alike hu)

/-- A name, a frame and a value are got ready before something is done with them. -/
theorem onVariable {table frame name : String} {o : Operand}
    {g : Name → FrameId → Value → Action β} (ht : Midway s [] t)
    (hg : ∀ n f v u, Midway s [] u → u.ledger.isAlive f = true → u.Offers v →
      Ends s (g n f v) u) : Ends s (do
      let n ← Action.internIn table name
      let f ← Action.held State.frames frame
      let v ← Action.operand o
      g n f v) t :=
  internIn ht fun n _ hu => look hu (.held ..) fun _ hf => look hu (.operand o) fun _ hv =>
    hg n _ _ _ hu (hu.isAlive_of_frame hf) hv

/-! ## Calls and interpreters -/

/-- The caller is given the frame, if there is one. -/
theorem activate {table value : String} {args : List Operand}
    {g : Option (Except EvalError FrameId) → Action β} (ht : Midway s [] t)
    (hnone : Ends s (g none) t) (herror : ∀ e u, Midway s [] u → Ends s (g (some (.error e))) u)
    (hok : ∀ f u, Midway s [f] u → Ends s (g (some (.ok f))) u) :
    Ends s (Action.activate table value args >>= g) t := by
  refine assoc (look ht (.table table) fun ⟨_, names⟩ _ => assoc ?_)
  refine look ht (.held State.values value) fun v hv => assoc (look ht (.operands args) ?_)
  intro vs hvs
  cases v with
  | function c =>
    refine assoc (look ht (.require ..) fun params hparams => assoc ?_)
    have hoffers : t.Offers (.function c) := .inr (Registers.mem_values_of_get? hv)
    have hc : t.ledger.isAlive c.frame = true :=
      ht.isAlive_of_offers hoffers c.frame (List.mem_singleton_self _)
    have hvalid : ∀ w ∈ .function c :: vs, w.ValidIn t.heap := List.forall_mem_cons.mpr
      ⟨ht.coherent.valid_of_offers hoffers, fun w hw => ht.coherent.valid_of_offers (hvs w hw)⟩
    refine retain ht (ht.isAlive_of_all_offers hvs) fun hu => assoc ?_
    rw [List.append_nil] at hu
    have hb := Closure.activate_becomes ht.coherent.heap names hvalid hparams
    refine onStore hu (Store.activate_later hu.later.balanced hc names params) ?_ fun hw => ?_
    · exact (Store.Counts.activate c names params vs).becomes hb
    · generalize (Store.activate c names params vs _).1 = r at hw ⊢
      cases r with
      | error e => exact herror e _ hw
      | ok f => exact hok f _ hw
  | _ => exact hnone

/-- A resident is asked something, and what it answers is in hand. -/
theorem withInterpreter {act : Interner → CountedInteraction Outcome} {g : Outcome → Action β}
    (ht : Midway s [] t)
    (hact : ∀ names q k, q ∈ t.residents.values →
      Interpreter.Settles q.interpreter ⟨t.heap, k⟩ t.ledger t.roots
        (act names q.interpreter ⟨t.heap, k⟩ t.ledger) ∧
      Interpreter.Yields q.interpreter t.heap (act names q.interpreter ⟨t.heap, k⟩ t.ledger).1)
    (hg : ∀ o u, Midway s o.handles u → (∀ v, o.value? = some v → v.ValidIn u.heap) →
      Ends s (g o) u) : Ends s (Action.withInterpreter r act >>= g) t := by
  rcases withInterpreter_cases r act t with ⟨what, -, hrun⟩ | ⟨q, names, k, hr, -, hrun⟩
  · rw [Ends, Attempt.bind_apply, hrun]
    exact ht
  · obtain ⟨⟨hi, hlater⟩, ⟨-, hb, hv⟩⟩ := hact names q k (Registers.mem_values_of_get? hr)
    have hc := ht.coherent
    rw [Ends, Attempt.bind_apply, hrun]
    generalize act names q.interpreter ⟨t.heap, k⟩ t.ledger = out at hi hlater hb hv ⊢
    have hu : Midway s out.1.1.handles (t.withStore ⟨out.1.2.2.heap, out.2⟩) := ht.onto hb hlater
    -- The interpreter is as it was, so it is in its register as before.
    have hq : { q with interpreter := out.1.2.1 } = q := by rw [hi]
    refine hg out.1.1 _ (hu.regrasp ⟨hu.coherent.heap, hc.frames, hc.values, hc.residents.put r _,
      hu.coherent.valid, fun p hp => ?_⟩ rfl (List.perm_iff_count.mpr fun e => ?_)) hv
    · rw [State.resettle, hq] at hp
      rcases Registers.mem_values_of_put hp with rfl | hp
      · exact hc.outermost p (Registers.mem_values_of_get? hr)
      · exact hc.outermost p hp
    · have hslot := (hc.residents.flatMap_perm r Resident.handles).count_eq e
      simp only [hr, Option.elim] at hslot
      simp only [State.roots, State.resettle, State.withStore, hq, Registers.values_put,
        List.flatMap_cons, List.count_append] at hslot ⊢
      omega

/-! ## Commands -/

theorem makeClosure {program frame : String} {node : ExprId} {name dest : Option String}
    (ht : Midway s [] t) : Ends s (Action.makeClosure program node name frame dest) t := by
  refine look ht (.arena program) fun a _ => look ht (.held ..) fun f hf => ?_
  cases a.node? node with
  | none => exact fail ht
  | some n =>
    cases n with
    | function definition =>
      refine newClosure ht (ht.isAlive_of_frame hf) fun c u hu hc => outcomeReply hu ?_
      rintro v ⟨⟩
      exact hc
    | _ => exact pure ht

/-- An interpreter has two handles to its outermost frame, which is the current scope as well. -/
theorem settleIn {table sink maxDepth : Nat} {arena : Arena} {dest : String}
    {given : Option FrameId} (ht : Midway s [] t)
    (hgiven : ∀ f ∈ given, t.ledger.isAlive f = true) : Ends s (do
      let f ← Action.globalFrameOf given
      Action.retain [f]
      Action.putResident dest ⟨.new arena f maxDepth, table, sink⟩
      Pure.pure Reply.ok) t := by
  have hput : ∀ f u, Midway s [f] u → Ends s (do
      Action.retain [f]
      Action.putResident dest ⟨.new arena f maxDepth, table, sink⟩
      Pure.pure Reply.ok) u := by
    intro f u hu
    refine retain hu (fun g hg => hu.isAlive_of_hand hg) fun hw => ?_
    exact putResident (q := ⟨.new arena f maxDepth, table, sink⟩) hw rfl fun _ => pure
  cases given with
  | none => exact newFrame ht (by simp) hput
  | some f => exact assoc (retain ht (by simpa using hgiven) (hput f _))

theorem newInterpreter {table program dest : String} {globalFrame handler : Option String}
    {maxDepth : Option Nat} (ht : Midway s [] t) :
    Ends s (Action.newInterpreter table program globalFrame maxDepth handler dest) t := by
  refine look ht (.table table) fun ⟨i, _⟩ _ => look ht (.arena program) fun a _ => ?_
  have hgiven : Looks t (globalFrame.mapM (Action.held State.frames)) fun given =>
      ∀ f ∈ given, t.ledger.isAlive f = true := by
    cases globalFrame with
    | none => exact .pure (by simp)
    | some r => exact .bind (.held ..) fun f hf => .pure (by simpa using ht.isAlive_of_frame hf)
  refine look ht hgiven fun given hgiven => ?_
  cases handler with
  | none => exact newSink ht fun _ u hu ht' => settleIn ht' (hu.ledger ▸ hgiven)
  | some r => exact look ht (.held ..) fun _ _ => settleIn ht hgiven

/-- **Every command keeps the numbers right.** What it gets hold of it hands on or lets go of. -/
theorem serve (c : Command) (ht : Midway s [] t) : Ends s (Action.serve c) t := by
  -- What the numbers are right for when an interpreter begins to work.
  have hroots : t.store.Balanced t.roots := ht.later.balanced
  have hframe : ∀ q ∈ t.residents.values, q.interpreter.frame ∈ t.roots := fun q hq =>
    State.mem_roots.mpr (.inr (.inr ⟨q, hq, .inr rfl⟩))
  cases c with
  | newInterner dest => exact aside ht ⟨rfl, rfl, rfl, rfl, rfl⟩ fun _ => pure
  | intern tableName text dest =>
    refine internIn ht fun n u hu => ?_
    cases dest with
    | none => exact pure hu
    | some r => exact aside hu ⟨rfl, rfl, rfl, rfl, rfl⟩ fun _ => pure
  | lookup tableName name =>
    exact look ht (.table tableName) fun ⟨_, _⟩ _ => look ht (.held ..) fun _ _ => pure ht
  | internerSize tableName => exact look ht (.table tableName) fun ⟨_, _⟩ _ => pure ht
  | program tableName forms dest =>
    exact look ht (.table tableName) fun ⟨_, _⟩ _ => aside ht ⟨rfl, rfl, rfl, rfl, rfl⟩ fun _ hu =>
      aside hu ⟨rfl, rfl, rfl, rfl, rfl⟩ fun _ => pure
  | dump program => exact look ht (.arena program) fun _ _ => pure ht
  | sameProgram a b => exact look ht (.held ..) fun _ _ => look ht (.held ..) fun _ _ => pure ht
  | value v dest =>
    refine look ht (.operand v) fun v hv => retain ht (ht.isAlive_of_offers hv) fun hu => ?_
    refine outcomeReply (o := .value v) (by rwa [List.append_nil] at hu) ?_
    rintro _ ⟨⟩
    exact ht.coherent.valid_of_offers hv
  | make program node name frame dest => exact makeClosure ht
  | inspect value => exact look ht (.held ..) fun _ _ => pure ht
  | equal a b => exact look ht (.held ..) fun _ _ => look ht (.held ..) fun _ _ => pure ht
  | root dest => exact newFrame ht (by simp) fun _ _ hu => putFrame hu fun _ => pure
  | child frame dest =>
    exact look ht (.held ..) fun f hf => newFrame ht (by simpa using ht.isAlive_of_frame hf)
      fun _ _ hu => putFrame hu fun _ => pure
  | «alias» frame dest =>
    refine look ht (.held ..) fun f hf => ?_
    have halive := ht.isAlive_of_frame hf
    exact retain ht (List.forall_mem_singleton.mpr halive) fun hu => putFrame hu fun _ => pure
  | parent frame dest =>
    refine look ht (.held ..) fun f hf => look ht (.read _) fun h hh => ?_
    subst hh
    cases hp : t.heap.parent? f with
    | none => exact pure ht
    | some p =>
      have halive : t.ledger.isAlive p = true :=
        hroots.exact.isAlive_of_link (ht.isAlive_of_frame hf) (Heap.mem_links_of_parent? hp)
      exact retain ht (List.forall_mem_singleton.mpr halive) fun hu => putFrame hu fun _ => pure
  | captured value dest =>
    refine look ht (.held ..) fun v hv => ?_
    cases hf : v.captured? with
    | none => exact pure ht
    | some f =>
      have hoffers : t.Offers v := .inr (Registers.mem_values_of_get? hv)
      have halive := ht.isAlive_of_offers hoffers f (Option.mem_toList.mpr hf)
      exact retain ht (List.forall_mem_singleton.mpr halive) fun hu => putFrame hu fun _ => pure
  | define tableName frame name o =>
    refine onVariable ht fun n f v u hu hf hv => retain hu (hu.isAlive_of_offers hv) fun hw => ?_
    rw [List.append_nil] at hw
    refine onStore hw (Store.define_later hw.later.balanced hf n) ?_ pure
    exact (Store.Counts.define f n v).becomes
      (.define (hu.lt_size hf) (hu.coherent.valid_of_offers hv))
  | set tableName frame name o =>
    refine onVariable ht fun n f v u hu hf hv => retain hu (hu.isAlive_of_offers hv) fun hw => ?_
    rw [List.append_nil] at hw
    refine onStore hw (Store.set_later hw.later.balanced hf n) ?_ pure
    exact (Store.Counts.set f n v).becomes (.set (hu.coherent.valid_of_offers hv))
  | get tableName frame name dest =>
    refine internIn ht fun n u hu => look hu (.held ..) fun f hf => ?_
    have hget := Store.get_eq f n u.store
    refine onStore hu (Store.get_later hu.later.balanced (hu.isAlive_of_frame hf) n)
      (by rw [hget]; exact .refl) fun hw => ?_
    rw [hget] at hw ⊢
    cases hr : u.heap.get f n with
    | error e =>
      simp only [State.store, hr] at hw ⊢
      exact pure hw
    | ok v =>
      simp only [State.store, hr] at hw ⊢
      refine outcomeReply (o := .value v) hw ?_
      rintro _ ⟨⟩
      exact hu.coherent.heap.toWellFormed.get hr
  | update tableName frame name op o =>
    refine onVariable ht fun n f v u hu hf hv => ?_
    have hchange : ∀ x w, op.apply x v = .ok w → w.handles = [] :=
      fun _ _ h => Value.handles_apply h
    refine onStore hu (Store.update_later hu.later.balanced hf n hchange) ?_ fun hw => ?_
    · have hb : u.heap.Becomes (Heap.update f n (fun x => op.apply x v) u.heap).2 :=
        .update hu.coherent.heap.toWellFormed fun x w _ hw =>
          .of_captured? (Option.toList_eq_nil_iff.mp (hchange x w hw))
      exact Store.Counts.becomes (s := u.store) (.update f n _) hb
    · generalize (Store.update f n _ u.store).1 = r
      rcases r with _ | _ | _ <;> exact pure hw
  | contains tableName frame name =>
    exact internIn ht fun n u hu => look hu (.held ..) fun f hf => look hu (.read _) fun _ _ =>
      pure hu
  | frame frame =>
    exact look ht (.held ..) fun _ _ => look ht (.read _) fun _ _ => pure ht
  | count frame => exact look ht (.held ..) fun _ _ => looks ht (.read _)
  | sameFrame a b => exact look ht (.held ..) fun _ _ => look ht (.held ..) fun _ _ => pure ht
  | weaken frame dest =>
    exact look ht (.held ..) fun _ _ => aside ht ⟨rfl, rfl, rfl, rfl, rfl⟩ fun _ => pure
  | dropped weak => exact look ht (.held ..) fun _ _ => looks ht (.read _)
  | upgrade weak dest =>
    refine look ht (.held ..) fun f _ => look ht (.read _) fun alive halive => ?_
    cases alive with
    | false => exact pure ht
    | true =>
      exact retain ht (List.forall_mem_singleton.mpr halive.symm) fun hu =>
        putFrame hu fun _ => pure
  | dropFrame r => exact look ht (.read _) fun _ _ => dropFrame ht fun _ => pure
  | dropValue r => exact look ht (.read _) fun _ _ => dropValue ht fun _ => pure
  | dropInterpreter r => exact look ht (.read _) fun _ _ => dropResident ht fun _ => pure
  | bind tableName value args dest =>
    exact activate ht (pure ht) (fun _ _ => pure) fun _ _ hu => putFrame hu fun _ => pure
  | probe tableName value args dest =>
    exact activate ht (pure ht) (fun _ _ => pure) fun _ _ hu => putFrame hu fun _ hw =>
      look hw (.read _) fun _ _ => pure hw
  | handler k dest =>
    exact newSink ht fun _ _ _ hu => aside hu ⟨rfl, rfl, rfl, rfl, rfl⟩ fun _ => pure
  | println handler text =>
    exact look ht (.held ..) fun _ _ => look ht (.sink _) fun _ _ =>
      aside ht ⟨rfl, rfl, rfl, rfl, rfl⟩ fun _ => pure
  | output handler =>
    exact look ht (.held ..) fun _ _ => look ht (.sink _) fun _ _ => pure ht
  | clear handler =>
    exact look ht (.held ..) fun _ _ => look ht (.sink _) fun _ _ =>
      aside ht ⟨rfl, rfl, rfl, rfl, rfl⟩ fun _ => pure
  | interpreter table program globalFrame maxDepth handler dest => exact newInterpreter ht
  | eval interpreter node dest =>
    refine withInterpreter ht (fun names q k hq => ⟨?_, ?_⟩) fun _ _ => outcomeReply
    · exact Interpreter.evalCounted_settles (hframe q hq) hroots names node
    · rw [Interpreter.evalCounted_fst]
      have hlt := ht.lt_size (ht.isAlive_of_root (hframe q hq))
      exact Interpreter.eval_yields (w := ⟨t.heap, k⟩) ht.coherent.heap hlt names node
  | evalIn interpreter frame node dest =>
    refine look ht (.held ..) fun f hf => ?_
    have halive := ht.isAlive_of_frame hf
    have hretain := hroots.retain [f] (List.forall_mem_singleton.mpr halive)
    refine withInterpreter ht (fun names q k hq => ⟨?_, ?_⟩) fun _ _ => outcomeReply
    · exact (Interpreter.withFrameCounted_settles (Interpreter.evalCounted_settles
        (i := { q.interpreter with frame := f }) (w := ⟨t.heap, k⟩)
        List.mem_cons_self hretain.balanced names node)).after hretain
    · rw [Interpreter.withFrameCounted_fst (Interpreter.evalCounted_fst names node)]
      exact .withFrame (Interpreter.eval_yields (w := ⟨t.heap, k⟩)
        (i := { q.interpreter with frame := f }) ht.coherent.heap (ht.lt_size halive) names node)
  | invoke interpreter callee args dest =>
    refine look ht (.operand callee) fun v hv => look ht (.operands args) fun vs hvs => ?_
    have hretain := hroots.retain (Value.allHandles vs) (ht.isAlive_of_all_offers hvs)
    refine withInterpreter ht (fun names q k hq => ⟨?_, ?_⟩) fun _ _ => outcomeReply
    · exact (Interpreter.invokeCounted_settles (w := ⟨t.heap, k⟩) (hframe q hq)
        (State.handles_subset_roots hv) hretain.balanced names).after hretain
    · rw [Interpreter.invokeCounted_fst]
      exact Interpreter.invoke_yields (w := ⟨t.heap, k⟩) ht.coherent.heap names
        (List.forall_mem_cons.mpr ⟨ht.coherent.valid_of_offers hv,
          fun u hu => ht.coherent.valid_of_offers (hvs u hu)⟩)
  | state interpreter =>
    exact look ht (.held ..) fun _ _ => look ht (.read _) fun _ _ =>
      look ht (.require ..) fun _ _ => look ht (.sink _) fun _ _ => look ht (.read _) fun _ _ =>
        pure ht
  | globalFrame interpreter dest =>
    refine look ht (.held ..) fun q hq => ?_
    have halive : t.ledger.isAlive q.interpreter.globalFrame = true := ht.isAlive_of_root
      (State.mem_roots.mpr (.inr (.inr ⟨q, Registers.mem_values_of_get? hq, .inl rfl⟩)))
    exact retain ht (List.forall_mem_singleton.mpr halive) fun hu => putFrame hu fun _ => pure
  | stack maxDepth dest => exact aside ht ⟨rfl, rfl, rfl, rfl, rfl⟩ fun _ => pure
  | push stack name =>
    refine look ht (.held ..) fun k _ => ?_
    rcases CallStack.push ⟨name⟩ k with ⟨_ | _, k'⟩
    · exact pure ht
    · exact aside ht ⟨rfl, rfl, rfl, rfl, rfl⟩ fun _ => pure
  | pop stack =>
    exact look ht (.held ..) fun _ _ => aside ht ⟨rfl, rfl, rfl, rfl, rfl⟩ fun _ => pure
  | capture stack => exact look ht (.held ..) fun _ _ => pure ht
  | error e dest => exact aside ht ⟨rfl, rfl, rfl, rfl, rfl⟩ fun _ => pure
  | attach stack error dest =>
    refine look ht (.held ..) fun _ _ => look ht (.held ..) fun _ _ => ?_
    cases dest with
    | none => exact pure ht
    | some r => exact aside ht ⟨rfl, rfl, rfl, rfl, rfl⟩ fun _ => pure

end Ends
end Action
end ClosureLang.Host
