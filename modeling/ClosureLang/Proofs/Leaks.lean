import ClosureLang.Proofs.Eval.Moments
import ClosureLang.Proofs.Host.Runs
import Mathlib.Data.Set.Finite.Basic
import Mathlib.Data.Set.Finite.Lattice

/-!
# Frames leak through circles only

A frame that is alive is held by somebody who is alive. Going back from holder to holder one comes
to the host, or one comes back to a frame where one has been, since there are finitely many. So
a living frame is within reach of the host, or else it lies on or behind a circle of living
frames (`Balanced.reachable_or_behind`).

What this means for a program: the frames made in the course of a request are gone when it has
been answered, except for those on or behind a circle and those that a function leads to which the
host was given or a frame still within reach binds. And a host that lets go of everything gets rid
of all frames, unless there is a circle.
-/

namespace ClosureLang

namespace Heap

variable {h : Heap} {roots : FrameId → Prop} {f g : FrameId}

theorem Reachable.exists_root (hf : h.Reachable roots f) : ∃ r, roots r := by
  induction hf with
  | root hf => exact ⟨_, hf⟩
  | parent _ _ ih | stored _ _ _ ih => exact ih

/-- From one frame one gets to another, over the frames that frames hold. -/
def Leads (h : Heap) : FrameId → FrameId → Prop := Relation.ReflTransGen fun f g => g ∈ h.links f

/-- A function leads to the frame that it captured, and on from there. -/
def LeadsFrom (h : Heap) (v : Value) (f : FrameId) : Prop :=
  ∃ g, v.captured? = some g ∧ h.Leads g f

theorem Sound.reachable_of_link (hs : h.Sound) (hf : h.Reachable roots f) (hg : g ∈ h.links f) :
    h.Reachable roots g := by
  rcases hs.mem_links_iff.mp hg with hp | ⟨n, v, hv, hg⟩
  · exact .parent hf hp
  · exact .stored hf hv hg

/-- What is within reach encloses a root, or a function leads to it that is bound in a frame within
reach. -/
theorem Sound.around_or_bound (hs : h.Sound) (hf : h.Reachable roots f) :
    (∃ r, roots r ∧ h.Around r f) ∨
      ∃ k n v, h.Reachable roots k ∧ h.local? k n = some v ∧ h.LeadsFrom v f := by
  induction hf with
  | root hf => exact .inl ⟨_, hf, .refl⟩
  | parent _ hp ih =>
    rcases ih with ⟨r, hr, haround⟩ | ⟨k, n, v, hk, hv, g, hg, hleads⟩
    · exact .inl ⟨r, hr, haround.tail hp⟩
    · exact .inr ⟨k, n, v, hk, hv, g, hg, hleads.tail (hs.mem_links_iff.mpr (.inl hp))⟩
  | stored hf hv hg _ => exact .inr ⟨_, _, _, hf, hv, _, hg, .refl⟩

theorem Sound.leads_of_around (hs : h.Sound) (hg : h.Around f g) : h.Leads f g := by
  induction hg with
  | refl => exact .refl
  | tail _ hp ih => exact ih.tail (hs.mem_links_iff.mpr (.inl hp))

theorem Nested.le_of_around (hn : h.Nested) (hg : h.Around f g) : g ≤ f := by
  induction hg with
  | refl => exact Nat.le_refl _
  | tail _ hp ih => exact Nat.le_trans (Nat.le_of_lt (hn _ _ hp)) ih

end Heap

/-- Where finitely many each come after one of them, some come after themselves. -/
theorem exists_transGen_self {α : Type} {r : α → α → Prop} {A : α → Prop}
    (hfinite : {a | A a}.Finite) (hprev : ∀ a, A a → ∃ b, A b ∧ r b a) {a : α} (ha : A a) :
    ∃ c, A c ∧ Relation.TransGen r c c := by
  by_contra hnone
  have : Finite {a // A a} := hfinite
  let before (x y : {a // A a}) : Prop := Relation.TransGen r x y
  have : IsTrans _ before := ⟨fun _ _ _ => Relation.TransGen.trans⟩
  have : Std.Irrefl before := ⟨fun x hx => hnone ⟨x, x.2, hx⟩⟩
  obtain ⟨⟨m, hm⟩, -, hfirst⟩ :=
    (Finite.wellFounded_of_trans_of_irrefl before).has_min Set.univ ⟨⟨a, ha⟩, trivial⟩
  obtain ⟨b, hb, hbm⟩ := hprev m hm
  exact hfirst ⟨b, hb⟩ trivial (.single hbm)

namespace Host.State

variable {s t : State} {f g : FrameId}

/-- A living frame holds another. -/
def Link (s : State) (f g : FrameId) : Prop :=
  s.ledger.isAlive f = true ∧ s.ledger.isAlive g = true ∧ g ∈ s.heap.links f

/-- On a circle of living frames, each of which holds the next. -/
def OnCircle (s : State) (f : FrameId) : Prop := Relation.TransGen s.Link f f

/-- On a circle, or led to from one. -/
def Behind (s : State) (f : FrameId) : Prop := ∃ c, s.OnCircle c ∧ s.heap.Leads c f

/-- **A living frame is within reach of the host, or on or behind a circle.** -/
theorem Balanced.reachable_or_behind (hs : s.Balanced) (hf : s.ledger.isAlive f = true) :
    s.heap.Reachable (· ∈ s.roots) f ∨ s.Behind f := by
  by_cases hreach : s.heap.Reachable (· ∈ s.roots) f
  · exact .inl hreach
  · right
    let lost (g : FrameId) : Prop := s.ledger.isAlive g = true ∧
      ¬ s.heap.Reachable (· ∈ s.roots) g ∧ s.heap.Leads g f
    have hfinite : {g | lost g}.Finite := by
      refine (Set.finite_lt_nat s.heap.size).subset fun g hg => ?_
      exact hs.lt_size hg.1
    have hprev : ∀ g, lost g → ∃ k, lost k ∧ s.Link k g := by
      rintro g ⟨hg, hnot, hleads⟩
      rcases hs.held_of_isAlive hg with hroot | ⟨k, hk, hlink⟩
      · exact absurd (.root hroot) hnot
      · exact ⟨k, ⟨hk, fun hr => hnot (hs.coherent.heap.reachable_of_link hr hlink),
          .head hlink hleads⟩, hk, hg, hlink⟩
    obtain ⟨c, ⟨-, -, hleads⟩, hcircle⟩ := exists_transGen_self hfinite hprev ⟨hf, hreach, .refl⟩
    exact ⟨c, hcircle, hleads⟩

/-- A host that holds no more than another has no other roots. -/
theorem roots_subset (hf : f ∈ t.roots) (hframes : ∀ f ∈ t.frames.values, f ∈ s.frames.values)
    (hvalues : ∀ v ∈ t.values.values, v ∈ s.values.values)
    (hresidents : ∀ r ∈ t.residents.values, r ∈ s.residents.values) : f ∈ s.roots :=
  mem_roots.mpr <| (mem_roots.mp hf).imp (hframes f) <| Or.imp
    (fun ⟨v, hv, hf⟩ => ⟨v, hvalues v hv, hf⟩) fun ⟨r, hr, hf⟩ => ⟨r, hresidents r hr, hf⟩

end State

/-! ## Requests -/

/-- A request to an interpreter, the answer of which is kept in `dest`, if anywhere. -/
inductive Command.Requests (dest : Option String) : Command → Prop
  | eval (interpreter : String) (node : ExprId) : Requests dest (.eval interpreter node dest)
  | evalIn (interpreter frame : String) (node : ExprId) :
    Requests dest (.evalIn interpreter frame node dest)
  | invoke (interpreter : String) (callee : Operand) (args : List Operand) :
    Requests dest (.invoke interpreter callee args dest)

namespace Action

variable {s : State} {g : FrameId}

/-- Whoever is given an outcome that is a value may keep it, and nothing else becomes a root. -/
theorem roots_outcomeReply {dest : Option String} {o : Outcome}
    (hg : g ∈ (outcomeReply dest o s).2.roots) :
    g ∈ s.roots ∨ dest.isSome = true ∧ ∃ v, o = .value v ∧ v.captured? = some g := by
  rcases o with v | e | e
  case value =>
    cases dest with
    | none => exact .inl hg
    | some r =>
      rcases State.mem_roots.mp hg with hf | ⟨u, hu, hv⟩ | hr
      · exact .inl (State.mem_roots.mpr (.inl hf))
      · rcases Registers.mem_values_of_put hu with rfl | hu
        · exact .inr ⟨rfl, u, rfl, hv⟩
        · exact .inl (State.mem_roots.mpr (.inr (.inl ⟨u, hu, hv⟩)))
      · exact .inl (State.mem_roots.mpr (.inr (.inr hr)))
  all_goals exact .inl hg

/-- An interaction that leaves the interpreter as it was makes no roots. -/
theorem roots_withInterpreter {act : Interner → CountedInteraction Outcome}
    (hact : ∀ names i w l, (act names i w l).1.2.1 = i) {r : String}
    (hg : g ∈ (withInterpreter r act s).2.roots) : g ∈ s.roots := by
  rcases withInterpreter_cases r act s with ⟨what, -, hrun⟩ | ⟨q, names, k, hr, -, hrun⟩
  · rwa [hrun] at hg
  · rw [hrun] at hg
    refine State.roots_subset hg (fun _ hf => hf) (fun _ hv => hv) fun p hp => ?_
    rw [State.resettle, hact] at hp
    rcases Registers.mem_values_of_put hp with rfl | hp
    · exact Registers.mem_values_of_get? hr
    · exact hp

/-- What is a root after a request was one before it, or the answer captured it and is kept. -/
def OldRootsBut (dest : Option String) (s : State) (out : Except String Reply × State) : Prop :=
  ∀ g ∈ out.2.roots, g ∈ s.roots ∨
    dest.isSome = true ∧ ∃ v, out.1 = .ok (.outcome (.value v)) ∧ v.captured? = some g

theorem oldRootsBut_interaction {act : Interner → CountedInteraction Outcome}
    (hact : ∀ names i w l, (act names i w l).1.2.1 = i) (r : String) (dest : Option String)
    (s : State) : OldRootsBut dest s ((withInterpreter r act >>= outcomeReply dest) s) := by
  have hold : ∀ g ∈ (withInterpreter r act s).2.roots, g ∈ s.roots :=
    fun g => roots_withInterpreter hact
  rw [Attempt.bind_apply]
  rcases hrun : withInterpreter r act s with ⟨what | o, u⟩ <;> rw [hrun] at hold
  · exact fun g hg => .inl (hold g hg)
  · intro g hg
    rcases roots_outcomeReply hg with hg | ⟨hdest, v, rfl, hv⟩
    · exact .inl (hold g hg)
    · exact .inr ⟨hdest, v, outcomeReply_fst dest (.value v) u, hv⟩

theorem oldRootsBut_request {c : Command} {dest : Option String} (hc : c.Requests dest)
    (s : State) : OldRootsBut dest s (serve c s) := by
  have hsame : ∀ what, OldRootsBut dest s (.error what, s) := fun _ _ hg => .inl hg
  cases hc with
  | eval i node =>
    refine oldRootsBut_interaction (fun names i w l => ?_) i dest s
    rw [Interpreter.evalCounted_fst]
    exact (Request.eval node).perform_interpreter names i w
  | evalIn i frame node =>
    rw [serve]
    rcases (Looks.held State.frames frame).bind_cases _ with ⟨what, h⟩ | ⟨f, -, h⟩ <;> rw [h]
    · exact hsame what
    · refine oldRootsBut_interaction (fun names i w l => ?_) i dest s
      have hback := (Request.eval node).perform_interpreter names { i with frame := f } w
      rw [Interpreter.withFrameCounted_fst (Interpreter.evalCounted_fst names node)]
      simp only [Request.perform] at hback
      simp only [Interpreter.withFrame, hback]
  | invoke i callee args =>
    rw [serve]
    rcases (Looks.operand callee).bind_cases _ with ⟨what, h⟩ | ⟨v, -, h⟩ <;> rw [h]
    · exact hsame what
    · rcases (Looks.operands args).bind_cases _ with ⟨what, h⟩ | ⟨vs, -, h⟩ <;> rw [h]
      · exact hsame what
      · refine oldRootsBut_interaction (fun names i w l => ?_) i dest s
        rw [Interpreter.invokeCounted_fst]
        exact (Request.invoke v vs).perform_interpreter names i w

end Action

namespace State

variable {s : State} {f : FrameId}

/-- **What is left of a request.** A frame made in the course of it that still lives is on or
behind a circle, or a function leads to it that is the answer or bound in a frame within reach. -/
theorem Balanced.left_of_request (hs : s.Balanced) {c : Command} {dest : Option String}
    (hc : c.Requests dest) (hnew : s.heap.size ≤ f)
    (hf : (s.step c).2.ledger.isAlive f = true) :
    (s.step c).2.Behind f ∨
      (dest.isSome = true ∧ ∃ v, (s.step c).1 = .outcome (.value v) ∧
        (s.step c).2.heap.LeadsFrom v f) ∨
      ∃ k n v, (s.step c).2.heap.Reachable (· ∈ (s.step c).2.roots) k ∧
        (s.step c).2.heap.local? k n = some v ∧ (s.step c).2.heap.LeadsFrom v f := by
  have ht := hs.step c
  rcases ht.reachable_or_behind hf with hreach | hbehind
  · right
    rcases ht.coherent.heap.around_or_bound hreach with ⟨g, hg, haround⟩ | hbound
    · left
      -- Frames lie inside older ones, so this root is no older than `f`, and not an old one.
      have hle : f ≤ g := ht.coherent.heap.nested.le_of_around haround
      have hroots := Action.oldRootsBut_request hc s g (by rwa [step_snd] at hg)
      rcases hroots with hold | ⟨hdest, v, hanswer, hv⟩
      · have hlt := hs.lt_size (hs.isAlive_of_held (.inl hold))
        exact absurd (Nat.lt_of_le_of_lt hle hlt) (Nat.not_lt.mpr hnew)
      · refine ⟨hdest, v, ?_, g, hv, ht.coherent.heap.leads_of_around haround⟩
        have hserve : Action.serve c s = (.ok (.outcome (.value v)), (Action.serve c s).2) :=
          Prod.ext hanswer rfl
        rw [State.step, hserve]
    · exact .inr hbound
  · exact .inl hbehind

end State

/-! ## Letting go of everything -/

/-- A command by which a host lets go of what it holds in a register. -/
inductive Command.Drops : Command → Prop
  | frame (r : String) : Drops (.dropFrame r)
  | value (r : String) : Drops (.dropValue r)
  | interpreter (r : String) : Drops (.dropInterpreter r)

namespace State

variable {s t u : State} {f : FrameId} {ds es : List Command}

/-- Lets go of everything. -/
def dropAll (s : State) : List Command :=
  s.frames.map (fun e => .dropFrame e.1) ++ s.values.map (fun e => .dropValue e.1)
    ++ s.residents.map fun e => .dropInterpreter e.1

/-- After so much has been let go of, the heap is as it was, what lives lived before, and what is
still held was held before and not let go of. -/
structure LeftBy (ds : List Command) (s t : State) : Prop where
  heap : t.heap = s.heap
  alive : ∀ f, t.ledger.isAlive f = true → s.ledger.isAlive f = true
  frames : ∀ e ∈ t.frames, e ∈ s.frames ∧ Command.dropFrame e.1 ∉ ds
  values : ∀ e ∈ t.values, e ∈ s.values ∧ Command.dropValue e.1 ∉ ds
  residents : ∀ e ∈ t.residents, e ∈ s.residents ∧ Command.dropInterpreter e.1 ∉ ds

theorem LeftBy.refl (s : State) : LeftBy [] s s where
  heap := rfl
  alive _ hf := hf
  frames _ he := ⟨he, List.not_mem_nil⟩
  values _ he := ⟨he, List.not_mem_nil⟩
  residents _ he := ⟨he, List.not_mem_nil⟩

theorem LeftBy.trans (h : LeftBy ds s t) (h' : LeftBy es t u) : LeftBy (ds ++ es) s u where
  heap := h'.heap.trans h.heap
  alive f hf := h.alive f (h'.alive f hf)
  frames e he := by
    obtain ⟨he, hnot'⟩ := h'.frames e he
    obtain ⟨he, hnot⟩ := h.frames e he
    exact ⟨he, List.not_mem_append hnot hnot'⟩
  values e he := by
    obtain ⟨he, hnot'⟩ := h'.values e he
    obtain ⟨he, hnot⟩ := h.values e he
    exact ⟨he, List.not_mem_append hnot hnot'⟩
  residents e he := by
    obtain ⟨he, hnot'⟩ := h'.residents e he
    obtain ⟨he, hnot⟩ := h.residents e he
    exact ⟨he, List.not_mem_append hnot hnot'⟩

theorem Balanced.leftBy_step (hs : s.Balanced) {d : Command} (hd : d.Drops) :
    LeftBy [d] s (s.step d).2 := by
  have halive : (s.step d).2.heap = s.heap →
      ∀ f, (s.step d).2.ledger.isAlive f = true → s.ledger.isAlive f = true := by
    intro hheap f hf
    have hlt := (hs.step d).lt_size hf
    rw [hheap] at hlt
    exact hs.isAlive_of_step hf hlt
  cases hd with
  | frame r | value r | interpreter r =>
    refine ⟨rfl, halive rfl, fun e he => ?_, fun e he => ?_, fun e he => ?_⟩ <;>
    first
    | exact ⟨he, by simp⟩
    | obtain ⟨he, hne⟩ := List.mem_filter.mp he
      exact ⟨he, by simpa using hne⟩

theorem Balanced.leftBy_run (hs : s.Balanced) (hds : ∀ d ∈ ds, d.Drops) :
    LeftBy ds s (s.run ds) := by
  induction ds generalizing s with
  | nil => exact .refl s
  | cons d ds ih =>
    exact (hs.leftBy_step (hds d List.mem_cons_self)).trans
      (ih (hs.step d) fun c hc => hds c (List.mem_cons_of_mem d hc))

theorem drops_of_mem_dropAll {d : Command} (hd : d ∈ s.dropAll) : d.Drops := by
  simp only [dropAll, List.mem_append, List.mem_map] at hd
  rcases hd with (⟨e, -, rfl⟩ | ⟨e, -, rfl⟩) | ⟨e, -, rfl⟩
  · exact .frame e.1
  · exact .value e.1
  · exact .interpreter e.1

theorem LeftBy.roots_eq_nil (h : LeftBy ds s t) (hds : s.dropAll ⊆ ds) : t.roots = [] := by
  simp only [dropAll, List.append_subset] at hds
  obtain ⟨⟨hframes, hvalues⟩, hresidents⟩ := hds
  have hnoFrames : t.frames = [] := List.eq_nil_iff_forall_not_mem.mpr fun e he =>
    (h.frames e he).2 (hframes (List.mem_map.mpr ⟨e, (h.frames e he).1, rfl⟩))
  have hnoValues : t.values = [] := List.eq_nil_iff_forall_not_mem.mpr fun e he =>
    (h.values e he).2 (hvalues (List.mem_map.mpr ⟨e, (h.values e he).1, rfl⟩))
  have hnoResidents : t.residents = [] := List.eq_nil_iff_forall_not_mem.mpr fun e he =>
    (h.residents e he).2 (hresidents (List.mem_map.mpr ⟨e, (h.residents e he).1, rfl⟩))
  simp [roots, hnoFrames, hnoValues, hnoResidents, Registers.values, Value.allHandles]

theorem LeftBy.onCircle (h : LeftBy ds s t) (hf : t.OnCircle f) : s.OnCircle f := by
  have hlink : ∀ g k, t.Link g k → s.Link g k :=
    fun g k ⟨hg, hk, hlink⟩ => ⟨h.alive g hg, h.alive k hk, h.heap ▸ hlink⟩
  exact Relation.TransGen.mono hlink f f hf

/-- A host that lets go of everything, in whatever order, gets rid of all frames, unless some
hold each other in a circle. -/
theorem Balanced.all_dead (hs : s.Balanced) (hnone : ∀ f, ¬ s.OnCircle f)
    (hds : ds.Perm s.dropAll) (f : FrameId) : (s.run ds).ledger.isAlive f = false := by
  have hleft : LeftBy ds s (s.run ds) :=
    hs.leftBy_run fun d hd => drops_of_mem_dropAll (hds.mem_iff.mp hd)
  refine Bool.eq_false_iff.mpr fun hf => ?_
  rcases (hs.run ds).reachable_or_behind hf with hreach | ⟨c, hcircle, -⟩
  · obtain ⟨r, hr⟩ := hreach.exists_root
    rw [hleft.roots_eq_nil hds.symm.subset] at hr
    exact List.not_mem_nil hr
  · exact hnone c (hleft.onCircle hcircle)

/-- **Frames leak through circles only.** After every sequence of commands a living frame is within
reach of the host, or on or behind a circle of living frames. So a frame made in the course of a
request is gone afterwards, unless it is on or behind a circle, or a function leads to it that is
the answer, if that is kept, or bound in a frame within reach. And where there is no circle, a host
that lets go of everything, in whatever order, gets rid of all frames. -/
theorem frames_leak_through_circles_only (cs : List Command) :
    let s := start.run cs
    (∀ f, s.ledger.isAlive f = true → s.heap.Reachable (· ∈ s.roots) f ∨ s.Behind f) ∧
    (∀ c dest, c.Requests dest → ∀ f, s.heap.size ≤ f →
      let t := (s.step c).2
      ¬ t.Behind f →
      (∀ v, dest.isSome = true → (s.step c).1 = .outcome (.value v) → ¬ t.heap.LeadsFrom v f) →
      (∀ k n v, t.heap.Reachable (· ∈ t.roots) k → t.heap.local? k n = some v →
        ¬ t.heap.LeadsFrom v f) →
      t.ledger.isAlive f = false) ∧
    ((∀ f, ¬ s.OnCircle f) →
      ∀ ds, ds.Perm s.dropAll → ∀ f, (s.run ds).ledger.isAlive f = false) := by
  intro s
  have hs : s.Balanced := balanced_start.run cs
  refine ⟨fun f => hs.reachable_or_behind, ?_, fun hnone ds hds => hs.all_dead hnone hds⟩
  intro c dest hc f hnew t hbehind hanswer hbound
  refine Bool.eq_false_iff.mpr fun hf => ?_
  rcases hs.left_of_request hc hnew hf with h | ⟨hdest, v, hv, h⟩ | ⟨k, n, v, hk, hv, h⟩
  · exact hbehind h
  · exact hanswer v hdest hv h
  · exact hbound k n v hk hv h

/-- Makes a frame, binds in it a function that captured it, and lets go of both. -/
def circleSession : List Command :=
  [.root "a", .program "main" [.void, .function none [] 0] "p", .make "p" 1 none "a" (some "f"),
    .define "main" "a" "f" (.held "f"), .dropValue "f", .dropFrame "a"]

/-- An interpreter of a program that is an empty block. -/
def blockSession : List Command :=
  [.program "main" [.block []] "p", .interpreter "main" "p" none none none "i"]

/-- No circle where frames hold none but older ones. -/
theorem not_onCircle (hlinks : ∀ f g, g ∈ s.heap.links f → g < f) (f : FrameId) :
    ¬ s.OnCircle f := by
  have hlt : ∀ {f g}, Relation.TransGen s.Link f g → g < f := by
    intro f g hfg
    induction hfg with
    | single h => exact hlinks _ _ h.2.2
    | tail _ h ih => exact Nat.lt_trans (hlinks _ _ h.2.2) ih
  exact fun hf => Nat.lt_irrefl f (hlt hf)

/-- The host holds nothing, and yet the frame is alive: it holds itself. Evaluating the block makes
a frame, which is gone afterwards; and without the interpreter the outermost frame is gone too. -/
theorem frames_leak_through_circles_only_sessions :
    (start.run circleSession).Behind 0 ∧
      ((start.run blockSession).step (.eval "i" 0 none)).2.ledger.isAlive 1 = false ∧
      ((start.run blockSession).run (start.run blockSession).dropAll).ledger.isAlive 0 = false := by
  refine ⟨?_, ?_, ?_⟩
  · rcases (frames_leak_through_circles_only circleSession).1 0 (by decide) with hreach | hbehind
    · obtain ⟨r, hr⟩ := hreach.exists_root
      exact absurd hr (by simp [show (start.run circleSession).roots = [] from rfl])
    · exact hbehind
  · have hframes : ((start.run blockSession).step (.eval "i" 0 none)).2.heap.frames =
        #[⟨none, 0, []⟩, ⟨some 0, 1, []⟩] := rfl
    refine (frames_leak_through_circles_only blockSession).2.1 (.eval "i" 0 none) none (.eval "i" 0)
      1 (by decide) ?_ (fun _ hdest => absurd hdest (by decide)) fun k n v _ hv => ?_
    · rintro ⟨c, hcircle, -⟩
      refine not_onCircle (fun f g hg => ?_) c hcircle
      simp only [Heap.links, Heap.frame?, hframes] at hg
      rcases f with _ | _ | f
      · simp [Frame.links] at hg
      · simpa [Frame.links] using hg
      · simp at hg
    · simp only [Heap.local?, Heap.frame?, hframes] at hv
      rcases k with _ | _ | k
      · simp [Frame.lookup?] at hv
      · simp [Frame.lookup?] at hv
      · simp at hv
  · refine (frames_leak_through_circles_only blockSession).2.2 (fun f => ?_) _ (.refl _) 0
    have hframes : (start.run blockSession).heap.frames = #[⟨none, 0, []⟩] := rfl
    refine not_onCircle (fun f g hg => ?_) f
    simp only [Heap.links, Heap.frame?, hframes] at hg
    rcases f with _ | f
    · simp [Frame.links] at hg
    · simp at hg

end State
end Host
end ClosureLang
