import ClosureLang.Proofs.Eval.CallFrames
import ClosureLang.Proofs.Eval.Prints

/-!
# Which functions are made in the course of a run

A function comes into being when a function literal is evaluated, and what the evaluation yields
is that function (`Moment.made?`). The functions made in the course of a run are thereby listed in
order, one for each evaluation of a literal, without a look at what becomes of them
(`Moment.makes`).

What does become of them is that they are passed around. Nothing is ever held, in a binding, as an
argument or as a result, that is not in the list so far (`Moment.accounts`), whether the run has
ended or is going on (`During.given`). In the list all functions are distinct, since each carries
its place in it as its stamp.
-/

namespace ClosureLang

/-! ## Lists of functions -/

/-- Every function has its place in the list as its stamp. -/
def Numbered (fs : List Closure) : Prop := ∀ (k : Nat) f, fs[k]? = some f → f.stamp = k

/-- The value is one of these functions, if it is a function at all. -/
def Value.Among (fs : List Closure) (v : Value) : Prop := ∀ f, v.asClosure? = some f → f ∈ fs

variable {fs gs : List Closure}

/-- **Functions of such a list are equal when they are one and the same entry.** -/
theorem Numbered.beq_iff (hfs : Numbered fs) {f g : Closure} (hf : f ∈ fs) (hg : g ∈ fs) :
    (f == g) = true ↔ ∃ k : Nat, fs[k]? = some f ∧ fs[k]? = some g := by
  obtain ⟨k, hk⟩ := List.mem_iff_getElem?.mp hf
  obtain ⟨j, hj⟩ := List.mem_iff_getElem?.mp hg
  constructor
  · intro heq
    have hstamp : f.stamp = g.stamp := by
      have hboth : (f.stamp == g.stamp && f.sharesFrame g) = true := heq
      simp only [Bool.and_eq_true, beq_iff_eq] at hboth
      exact hboth.1
    obtain rfl : k = j := by rw [← hfs k f hk, hstamp, hfs j g hj]
    exact ⟨k, hk, hj⟩
  · rintro ⟨i, hif, hig⟩
    obtain rfl := Option.some.inj (hif.symm.trans hig)
    show (f.stamp == f.stamp && f.sharesFrame f) = true
    simp [Closure.sharesFrame]

theorem Numbered.concat (hfs : Numbered fs) {f : Closure} (hf : f.stamp = fs.length) :
    Numbered (fs ++ [f]) := by
  intro k g hg
  rw [List.getElem?_append] at hg
  split at hg
  · exact hfs k g hg
  · next hk =>
    obtain ⟨rfl, hkz⟩ : f = g ∧ k - fs.length = 0 := by
      cases hsub : k - fs.length with
      | zero => simpa [hsub] using hg
      | succ j => simp [hsub] at hg
    omega

namespace Value.Among

variable {v : Value}

theorem of_mem {f : Closure} (hf : f ∈ fs) : (Value.function f).Among fs := by
  intro g hg
  obtain rfl := Option.some.inj hg
  exact hf

theorem mono (hv : v.Among fs) (hsub : fs ⊆ gs) : v.Among gs := fun f hf => hsub (hv f hf)

theorem append (hv : v.Among fs) (gs : List Closure) : v.Among (fs ++ gs) :=
  hv.mono (List.subset_append_left fs gs)

theorem of_asClosure? (hv : v.asClosure? = none) : v.Among fs := by
  intro f hf
  rw [hv] at hf
  cases hf

theorem void : Value.void.Among fs := of_asClosure? rfl

/-- No operator makes a function. -/
theorem apply {op : BinaryOp} {l r : Value} (h : op.apply l r = .ok v) : v.Among fs := by
  cases BinaryOp.apply_match (fun _ _ => False) h with
  | function hc => exact hc.elim
  | _ => exact of_asClosure? rfl

end Value.Among

/-! ## Heaps that bind none but listed functions -/

/-- All functions that were made are listed in order, and no others are bound. -/
structure Heap.Records (h : Heap) (fs : List Closure) : Prop where
  stamps : h.stamps = fs.length
  numbered : Numbered fs
  bound : ∀ g n v, h.local? g n = some v → v.Among fs

namespace Heap.Records

variable {h : Heap} {f : FrameId} {n : Name} {v : Value}

theorem empty : Heap.empty.Records [] where
  stamps := rfl
  numbered := fun k f hf => by simp at hf
  bound g n v hv := by
    rw [local?_eq_none_of_size_le (Nat.zero_le g)] at hv
    cases hv

theorem valueAt (hh : h.Records fs) (f : FrameId) (n : Name) : (h.valueAt f n).Among fs := by
  cases hv : h.local? f n with
  | none =>
    rw [Heap.valueAt, hv]
    exact .void
  | some v =>
    rw [valueAt_of_local? hv]
    exact hh.bound f n v hv

theorem newFrame (hh : h.Records fs) (p : Option FrameId) : (h.newFrame p).2.Records fs where
  stamps := hh.stamps
  numbered := hh.numbered
  bound g n v hv := hh.bound g n v (by rwa [local?_newFrame] at hv)

theorem bind (hh : h.Records fs) (f : FrameId) (n : Name) (hv : v.Among fs) :
    (h.bind f n v).Records fs where
  stamps := hh.stamps
  numbered := hh.numbered
  bound g m u hu := by
    rw [local?_bind] at hu
    split at hu
    · obtain ⟨_, -, rfl⟩ := Option.map_eq_some_iff.mp hu
      exact hv
    · exact hh.bound g m u hu

theorem overwrite (hh : h.Records fs) (f : FrameId) (n : Name) (hv : v.Among fs) :
    (h.overwrite f n v).Records fs where
  stamps := hh.stamps
  numbered := hh.numbered
  bound g m u hu := by
    rw [local?_overwrite] at hu
    split at hu
    · obtain ⟨_, -, rfl⟩ := Option.map_eq_some_iff.mp hu
      exact hv
    · exact hh.bound g m u hu

theorem get (hh : h.Records fs) (hv : h.get f n = .ok v) : v.Among fs := by
  unfold Heap.get at hv
  split at hv
  · exact Except.ok.inj hv ▸ hh.valueAt _ _
  · cases hv

theorem define (hh : h.Records fs) (f : FrameId) (n : Name) (hv : v.Among fs) :
    (Heap.define f n v h).2.Records fs := by
  unfold Heap.define
  split
  · exact hh
  · exact hh.bind f n hv

theorem set (hh : h.Records fs) (f : FrameId) (n : Name) (hv : v.Among fs) :
    (Heap.set f n v h).2.Records fs := by
  unfold Heap.set
  split
  · exact hh.overwrite _ n hv
  · exact hh

theorem update {ε : Type} {change : Value → Except ε Value} (hh : h.Records fs) (f : FrameId)
    (n : Name) (hv : ∀ u v, change u = .ok v → v.Among fs) :
    (Heap.update f n change h).2.Records fs := by
  unfold Heap.update
  split
  · exact hh
  · split
    · exact hh
    · next hc => exact hh.overwrite _ n (hv _ _ hc)

theorem bindAll (hh : h.Records fs) (f : FrameId) {bs : List (Name × Value)}
    (hbs : ∀ b ∈ bs, b.2.Among fs) : (h.bindAll f bs).Records fs := by
  induction bs generalizing h with
  | nil => exact hh
  | cons b bs ih =>
    exact ih (hh.bind f b.1 (hbs b List.mem_cons_self)) fun b' hb' =>
      hbs b' (List.mem_cons_of_mem _ hb')

theorem withCallFrame (hh : h.Records fs) (p : FrameId) (ns : List Name) {vs : List Value}
    (hvs : ∀ v ∈ vs, v.Among fs) : (h.withCallFrame p ns vs).Records fs :=
  (hh.newFrame (some p)).bindAll _ fun b hb => hvs b.2 (List.of_mem_zip hb).2

/-- The frame of a call binds nothing but arguments, whether it is complete or not. -/
theorem activate (hh : h.Records fs) (names : Interner) {d : Closure} {ps : List Name}
    {vs : List Value} (hps : d.code.params? = some ps) (hvs : ∀ v ∈ vs, v.Among fs) :
    (d.activate names ps vs h).2.Records fs := by
  obtain ⟨r, h', hact, hheap, -⟩ :=
    Eval.activate_heap names d vs ⟨d.code.arena, d.frame, .new 0⟩ ⟨h, .silent⟩
  rw [Eval.activate_machine_eq hps] at hact
  obtain rfl : (d.activate names ps vs h).2 = h' := congrArg (Machine.heap ∘ Prod.snd) hact
  rcases hheap with hheap | ⟨ns, hheap⟩
  · rw [hheap]
    exact hh
  · rw [hheap]
    exact hh.withCallFrame _ ns hvs

/-- The function that is made is the next in the list. -/
theorem makeClosure (hh : h.Records fs) (code : FunctionCode) (f : FrameId) :
    (h.makeClosure code f).2.Records (fs ++ [(h.makeClosure code f).1]) where
  stamps := by
    rw [List.length_append, ← hh.stamps]
    rfl
  numbered := hh.numbered.concat hh.stamps
  bound g n v hv := (hh.bound g n v hv).append _

end Heap.Records

/-! ## What a piece of evaluation ends with -/

/-- A value on its way out is listed. -/
def Unwind.Among (fs : List Closure) : Unwind → Prop
  | .ret v => v.Among fs
  | _ => True

/-- A result in `A`, or a way out on which no function is that is not listed. -/
def EndsAmong {α : Type} (fs : List Closure) (A : α → Prop) : Except Unwind α → Prop
  | .ok a => A a
  | .error u => u.Among fs

/-- The outcome of a piece of evaluation in which none but listed functions occur. -/
structure Recorded {α : Type} (fs : List Closure) (A : α → Prop)
    (out : Except Unwind α × Machine) : Prop where
  heap : out.2.heap.Records fs
  ends : EndsAmong fs A out.1

namespace Recorded

variable {α β : Type} {A : α → Prop} {B : β → Prop} {c : Context} {w : World} {names : Interner}
  {n : Name} {v : Value}

theorem map {x : Eval α} {g : α → β} {m : Machine} (h : Recorded fs A (x m))
    (hg : ∀ a, A a → B (g a)) : Recorded fs B ((x >>= fun a => pure (g a)) m) := by
  rw [Attempt.bind_apply]
  cases hx : x m with
  | mk r m' =>
    rw [hx] at h
    cases r with
    | ok a => exact ⟨h.heap, hg a h.ends⟩
    | error u => exact ⟨h.heap, h.ends⟩

theorem inFrame {x : Eval α} {f : FrameId} (h : Recorded fs A (x ((c.inFrame f).machine w))) :
    Recorded fs A (Eval.inFrame f x (c.machine w)) :=
  ⟨h.heap, h.ends⟩

/-- Without the list that a node points to, what would be done with it is not. -/
theorem list_none {s : Span} {g : List ExprId → Eval α} (hs : c.arena.list? s = none)
    (hw : w.heap.Records fs) : Recorded fs A ((Eval.list s >>= g) (c.machine w)) := by
  rw [Eval.bind_error (Eval.list_none hs)]
  exact ⟨hw, trivial⟩

theorem getVar (hw : w.heap.Records fs) :
    Recorded fs (Value.Among fs) (Eval.getVar names n (c.machine w)) := by
  rw [Eval.getVar_machine]
  split
  · exact ⟨hw, hw.valueAt _ _⟩
  · exact ⟨hw, trivial⟩

theorem defineVar (hw : w.heap.Records fs) (hv : v.Among fs) :
    Recorded fs (fun _ => True) (Eval.defineVar names n v (c.machine w)) := by
  rw [Eval.defineVar_machine]
  split
  · exact ⟨hw, trivial⟩
  · exact ⟨hw.bind _ _ hv, trivial⟩

theorem setVar (hw : w.heap.Records fs) (hv : v.Among fs) :
    Recorded fs (fun _ => True) (Eval.setVar names n v (c.machine w)) := by
  rw [Eval.setVar_machine]
  split
  · exact ⟨hw.overwrite _ _ hv, trivial⟩
  · exact ⟨hw, trivial⟩

theorem updateVar (hw : w.heap.Records fs) (op : BinaryOp) :
    Recorded fs (fun _ => True) (Eval.updateVar names op n v (c.machine w)) := by
  rw [Eval.updateVar_machine]
  split
  · split
    · next u hu => exact ⟨hw.overwrite _ _ (.apply hu), trivial⟩
    · exact ⟨hw, trivial⟩
  · exact ⟨hw, trivial⟩

end Recorded

namespace Moment

variable {names : Interner} {m n : Moment} {q l : Nat} {c : Context} {w : World}
  {ids : List ExprId}

/-! ## The functions made -/

/-- A node is evaluated at the moment. -/
def Evaluates (m : Moment) (nd : Node) : Prop :=
  ∃ l id, m.task = .expr (l + 1) id ∧ m.context.arena.node? id = some nd

/-- What the moment yields, if a function literal is evaluated at it. -/
def made? (names : Interner) (m : Moment) : Option Closure :=
  match m.task with
  | .expr (_ + 1) id =>
    match m.context.arena.node? id with
    | some (.function _) => (m.result names).toOption.bind Value.asClosure?
    | _ => none
  | _ => none

/-- **The functions that are made in the course of a moment**, in order. -/
def makes (names : Interner) (m : Moment) : List Closure := m.collect names (made? names)

theorem makes_eq (names : Interner) (m : Moment) :
    m.makes names = (m.parts names).flatMap (makes names) ++ (m.made? names).toList :=
  collect_eq names _ m

theorem made?_literal {id : ExprId} {d : FunctionDef}
    (hn : c.arena.node? id = some (.function d)) :
    made? names ⟨q, .expr (l + 1) id, c, w⟩ =
      some (w.heap.makeClosure ⟨c.arena, d, d.name.map names.lookup⟩ c.frame).1 := by
  have hrun : result names ⟨q, .expr (l + 1) id, c, w⟩ =
      .ok (.function (w.heap.makeClosure ⟨c.arena, d, d.name.map names.lookup⟩ c.frame).1) :=
    congrArg Prod.fst (Eval.evalExpr_succ l hn)
  simp only [made?, hn, hrun]
  rfl

/-- A function that is made is its literal's, over the scope in which the literal is evaluated, with
the next number as its stamp. -/
theorem exists_literal {f : Closure} (h : m.made? names = some f) :
    ∃ d, m.Evaluates (.function d) ∧ f = (m.world.heap.makeClosure
      ⟨m.context.arena, d, d.name.map names.lookup⟩ m.context.frame).1 := by
  obtain ⟨q, task, c, w⟩ := m
  cases task with
  | expr l id =>
    cases l with
    | zero => cases h
    | succ l =>
      cases hn : c.arena.node? id with
      | none => simp [made?, hn] at h
      | some nd =>
        cases nd with
        | function d =>
          rw [made?_literal hn] at h
          exact ⟨d, ⟨l, id, rfl, hn⟩, (Option.some.inj h).symm⟩
        | _ => simp [made?, hn] at h
  | call v vs => cases h
  | body b => cases h

/-- Nothing begins in the course of evaluating a literal. -/
theorem makes_of_made? {f : Closure} (h : m.made? names = some f) : m.makes names = [f] := by
  obtain ⟨q, task, c, w⟩ := m
  obtain ⟨d, ⟨l, id, rfl, hn⟩, -⟩ := exists_literal h
  have hparts : parts names ⟨q, .expr (l + 1) id, c, w⟩ = [] := by
    simp only [parts, hn]
    rfl
  rw [makes_eq, hparts, h]
  rfl

/-! ## What is held is listed -/

/-- All functions that are held when the moment begins are listed. -/
structure Given (fs : List Closure) (m : Moment) : Prop where
  heap : m.world.heap.Records fs
  values : ∀ v vs, m.task = .call v vs → ∀ u ∈ v :: vs, u.Among fs

namespace Given

theorem expr {id : ExprId} (hw : w.heap.Records fs) : Given fs ⟨q, .expr l id, c, w⟩ :=
  ⟨hw, fun _ _ ht => by cases ht⟩

theorem body {b : ExprId} (hw : w.heap.Records fs) : Given fs ⟨q, .body b, c, w⟩ :=
  ⟨hw, fun _ _ ht => by cases ht⟩

theorem call {v : Value} {vs : List Value} (hw : w.heap.Records fs)
    (hvs : ∀ u ∈ v :: vs, u.Among fs) : Given fs ⟨q, .call v vs, c, w⟩ :=
  ⟨hw, fun _ _ ht => by cases ht; exact hvs⟩

end Given

/-- Moments in turn, each with what was listed before it and what was made by those before. -/
def InTurn (names : Interner) : List Closure → List Moment → Prop
  | _, [] => True
  | fs, n :: ns => n.Given fs ∧ InTurn names (fs ++ n.makes names) ns

theorem inTurn_append {ms ns : List Moment} : InTurn names fs (ms ++ ns) ↔
    InTurn names fs ms ∧ InTurn names (fs ++ ms.flatMap (makes names)) ns := by
  induction ms generalizing fs with
  | nil => simp [InTurn]
  | cons m ms ih => simp [InTurn, ih, and_assoc]

theorem InTurn.mem {ns : List Moment} (h : InTurn names fs ns) (hn : n ∈ ns) :
    ∃ gs, n.Given gs ∧ fs <+: gs ∧ gs ++ n.makes names <+: fs ++ ns.flatMap (makes names) := by
  obtain ⟨ms, os, rfl⟩ := List.append_of_mem hn
  rw [inTurn_append] at h
  refine ⟨_, h.2.1, List.prefix_append _ _, ?_⟩
  simp only [List.flatMap_append, List.flatMap_cons, ← List.append_assoc]
  exact List.prefix_append _ _

/-- From what is held when the moment begins to what is held when it ends, and by its parts. -/
def Accounts (names : Interner) (m : Moment) : Prop := ∀ fs, m.Given fs →
  InTurn names fs (m.parts names) ∧
    Recorded (fs ++ m.makes names) (Value.Among (fs ++ m.makes names))
      (m.eval names (m.context.machine m.world))

theorem among_getLastD {vs : List Value} (hvs : ∀ v ∈ vs, v.Among fs) :
    (vs.getLastD .void).Among fs := by
  have hmem : vs.getLastD .void ∈ Value.void :: vs := List.getLastD_mem_cons
  rcases List.mem_cons.mp hmem with hvoid | hmem
  · rw [hvoid]
    exact .void
  · exact hvs _ hmem

theorem accounts_sequence (h : ∀ n ∈ sequence names q l c w ids, n.Accounts names)
    (hw : w.heap.Records fs) : InTurn names fs (sequence names q l c w ids) ∧
      Recorded (fs ++ (sequence names q l c w ids).flatMap (makes names))
        (fun vs => ∀ v ∈ vs, v.Among (fs ++ (sequence names q l c w ids).flatMap (makes names)))
        (Eval.evalArgs (Eval.evalExpr names (Eval.callValue names q) l) ids (c.machine w)) := by
  induction ids generalizing w fs with
  | nil =>
    refine ⟨trivial, ?_, fun v hv => absurd hv List.not_mem_nil⟩
    simp only [sequence, List.flatMap_nil, List.append_nil]
    exact hw
  | cons i ids ih =>
    have hgiven : Given fs ⟨q, .expr l i, c, w⟩ := .expr hw
    have hi : Eval.evalExpr names (Eval.callValue names q) l i (c.machine w) =
        (result names ⟨q, .expr l i, c, w⟩, c.machine (after names ⟨q, .expr l i, c, w⟩)) :=
      eval_machine names ⟨q, .expr l i, c, w⟩
    obtain ⟨-, hfirst⟩ := h _ List.mem_cons_self fs hgiven
    rw [eval_machine] at hfirst
    rw [sequence] at h ⊢
    cases hr : result names ⟨q, .expr l i, c, w⟩ with
    | error u =>
      rw [hr] at hi hfirst
      refine ⟨⟨hgiven, trivial⟩, ?_⟩
      rw [Eval.evalArgs, Eval.bind_error hi]
      simp only [List.flatMap_singleton]
      exact ⟨hfirst.heap, hfirst.ends⟩
    | ok v =>
      rw [hr] at hi hfirst
      simp only [hr] at h
      obtain ⟨hturn, hrest⟩ := ih (fun n hn => h n (List.mem_cons_of_mem _ hn)) hfirst.heap
      refine ⟨⟨hgiven, hturn⟩, ?_⟩
      rw [Eval.evalArgs_cons_ok hi]
      simp only [List.flatMap_cons, ← List.append_assoc]
      refine hrest.map fun vs hvs u hu => ?_
      rcases List.mem_cons.mp hu with rfl | hu
      · exact Value.Among.append hfirst.ends _
      · exact hvs u hu

/-- Where a node goes on with nothing, what it does by itself is all there is. -/
theorem accounts_alone {nd : Node} {vs : List Value} {out : Except Unwind Value × Machine}
    (hnone : afterwards names q l c w nd vs = []) (h : Recorded fs (Value.Among fs) out) :
    InTurn names fs (afterwards names q l c w nd vs) ∧
      Recorded (fs ++ (afterwards names q l c w nd vs).flatMap (makes names))
        (Value.Among (fs ++ (afterwards names q l c w nd vs).flatMap (makes names))) out := by
  rw [hnone, List.flatMap_nil, List.append_nil]
  exact ⟨trivial, h⟩

/-- What a node does with the values of its operands, unless it is a function literal. -/
theorem accounts_conclude {nd : Node} {vs : List Value} (hnd : ∀ d, nd ≠ .function d)
    (h : ∀ n ∈ afterwards names q l c w nd vs, n.Accounts names) (hw : w.heap.Records fs)
    (hvs : ∀ v ∈ vs, v.Among fs) : InTurn names fs (afterwards names q l c w nd vs) ∧
      Recorded (fs ++ (afterwards names q l c w nd vs).flatMap (makes names))
        (Value.Among (fs ++ (afterwards names q l c w nd vs).flatMap (makes names)))
        (Eval.conclude names (Eval.callValue names q)
          (Eval.evalExpr names (Eval.callValue names q) l) nd vs (c.machine w)) := by
  have hvoid : Recorded fs (Value.Among fs) (.ok Value.void, c.machine w) := ⟨hw, .void⟩
  cases nd with
  | function d => exact absurd rfl (hnd d)
  | call f s =>
    cases vs with
    | nil => exact accounts_alone rfl hvoid
    | cons v vs =>
      cases hs : c.arena.list? s with
      | none => exact accounts_alone (by simp [afterwards, hs]) (.list_none hs hw)
      | some ids =>
        have hgiven : Given fs ⟨q, .call v vs, c, w⟩ := .call hw hvs
        simp only [afterwards, hs, List.mem_singleton, forall_eq, List.flatMap_singleton] at h ⊢
        rw [Eval.conclude_call hs]
        exact ⟨⟨hgiven, trivial⟩, (h fs hgiven).2⟩
  | block s =>
    cases hs : c.arena.list? s with
    | none => exact accounts_alone (by simp [afterwards, hs]) (.list_none hs hw)
    | some ids =>
      simp only [afterwards, hs] at h ⊢
      rw [Eval.conclude_block hs, Eval.runStmts_eq]
      have hchild : Heap.Records (w.heap.child c.frame).2 fs := hw.newFrame _
      obtain ⟨hturn, hend⟩ := accounts_sequence h hchild
      exact ⟨hturn, .inFrame (hend.map fun us hus => among_getLastD hus)⟩
  | ifElse cond i e =>
    rcases vs with _ | ⟨v, _ | ⟨_, _⟩⟩
    · exact accounts_alone rfl hvoid
    · cases hj : if v.isTruthy then some i else e with
      | none =>
        rw [Eval.conclude_ifElse_none hj]
        exact accounts_alone (by simp only [afterwards, hj]) hvoid
      | some j =>
        have hgiven : Given fs ⟨q, .expr l j, c, w⟩ := .expr hw
        simp only [afterwards, hj, List.mem_singleton, forall_eq, List.flatMap_singleton] at h ⊢
        rw [Eval.conclude_ifElse hj]
        exact ⟨⟨hgiven, trivial⟩, (h fs hgiven).2⟩
    · exact accounts_alone rfl hvoid
  -- No other node goes on with anything.
  | ident n => exact accounts_alone rfl (.getVar hw)
  | letIn n i =>
    rcases vs with _ | ⟨v, _ | ⟨_, _⟩⟩
    · exact accounts_alone rfl hvoid
    · exact accounts_alone rfl
        (.map (.defineVar hw (hvs v List.mem_cons_self)) fun _ _ => .void)
    · exact accounts_alone rfl hvoid
  | assign n i =>
    rcases vs with _ | ⟨v, _ | ⟨_, _⟩⟩
    · exact accounts_alone rfl hvoid
    · exact accounts_alone rfl (.map (.setVar hw (hvs v List.mem_cons_self)) fun _ _ => .void)
    · exact accounts_alone rfl hvoid
  | compound op n i =>
    rcases vs with _ | ⟨v, _ | ⟨_, _⟩⟩
    · exact accounts_alone rfl hvoid
    · exact accounts_alone rfl (.map (.updateVar hw op) fun _ _ => .void)
    · exact accounts_alone rfl hvoid
  | binary op i j =>
    rcases vs with _ | ⟨v, _ | ⟨u, _ | _⟩⟩
    · exact accounts_alone rfl hvoid
    · exact accounts_alone rfl hvoid
    · refine accounts_alone rfl ?_
      rw [Eval.conclude]
      cases ha : op.apply v u with
      | ok x => exact ⟨hw, .apply ha⟩
      | error e => exact ⟨hw, trivial⟩
    · exact accounts_alone rfl hvoid
  | print s =>
    refine accounts_alone (by simp [afterwards]) ?_
    rw [Eval.conclude]
    cases hs : c.arena.list? s with
    | none => exact .list_none hs hw
    | some ids =>
      have hlist : Eval.list s (c.machine w) = (.ok ids, c.machine w) := by
        rw [Eval.list_machine, hs]
      rw [Eval.bind_ok hlist, Eval.bind_ok (Eval.printLine_machine vs)]
      exact ⟨hw, .void⟩
  | ret e =>
    rcases e with _ | e
    · exact accounts_alone rfl ⟨hw, .void⟩
    · rcases vs with _ | ⟨v, _ | ⟨_, _⟩⟩
      · exact accounts_alone rfl hvoid
      · exact accounts_alone rfl ⟨hw, hvs v List.mem_cons_self⟩
      · exact accounts_alone rfl hvoid
  | number | bool | str | void => exact accounts_alone rfl ⟨hw, .of_asClosure? rfl⟩

/-- What is known of the parts and of the outcome is known of the moment. -/
theorem accounts_of_run {ns : List Moment} {o : Option Closure}
    {out : Except Unwind Value × Machine}
    (hrun : m.eval names (m.context.machine m.world) = out) (hparts : m.parts names = ns)
    (hmade : m.made? names = o) (hturn : InTurn names fs ns)
    (h : Recorded (fs ++ ns.flatMap (makes names) ++ o.toList)
      (Value.Among (fs ++ ns.flatMap (makes names) ++ o.toList)) out) :
    InTurn names fs (m.parts names) ∧ Recorded (fs ++ m.makes names)
      (Value.Among (fs ++ m.makes names)) (m.eval names (m.context.machine m.world)) := by
  rw [makes_eq, hrun, hparts, hmade, ← List.append_assoc]
  exact ⟨hturn, h⟩

/-- A moment at which nothing begins and no literal is evaluated. -/
theorem accounts_of_none {out : Except Unwind Value × Machine}
    (hrun : m.eval names (m.context.machine m.world) = out) (hparts : m.parts names = [])
    (hmade : m.made? names = none) (h : Recorded fs (Value.Among fs) out) :
    InTurn names fs (m.parts names) ∧ Recorded (fs ++ m.makes names)
      (Value.Among (fs ++ m.makes names)) (m.eval names (m.context.machine m.world)) := by
  refine accounts_of_run hrun hparts hmade trivial ?_
  simpa only [List.flatMap_nil, List.append_nil, Option.toList_none] using h

theorem accounts_expr {id : ExprId}
    (h : ∀ n ∈ parts names ⟨q, .expr l id, c, w⟩, n.Accounts names) :
    Accounts names ⟨q, .expr l id, c, w⟩ := by
  intro fs hgiven
  have hw : w.heap.Records fs := hgiven.heap
  cases l with
  | zero => exact accounts_of_none rfl rfl rfl ⟨hw, trivial⟩
  | succ l =>
    cases hn : c.arena.node? id with
    | none =>
      exact accounts_of_none (Eval.bind_error (Eval.node_none hn)) (by simp only [parts, hn])
        (by simp only [made?, hn]) ⟨hw, trivial⟩
    | some nd =>
      have hrun : eval names ⟨q, .expr (l + 1) id, c, w⟩ (c.machine w) = _ := eval_expr hn
      by_cases hliteral : ∃ d, nd = .function d
      · obtain ⟨d, rfl⟩ := hliteral
        have hparts : parts names ⟨q, .expr (l + 1) id, c, w⟩ = [] := by
          simp only [parts, hn]
          rfl
        have hmade := hw.makeClosure ⟨c.arena, d, d.name.map names.lookup⟩ c.frame
        refine accounts_of_run (Eval.evalExpr_succ l hn) hparts (made?_literal hn) trivial ?_
        rw [List.flatMap_nil, List.append_nil, Option.toList_some]
        exact ⟨hmade, .of_mem (List.mem_append_right _ (List.mem_singleton.mpr rfl))⟩
      · have hmade : made? names ⟨q, .expr (l + 1) id, c, w⟩ = none := by
          cases nd with
          | function d => exact absurd ⟨d, rfl⟩ hliteral
          | _ => simp only [made?, hn]
        obtain ⟨r, w', -, hops, -⟩ := Eval.Returns.evalArgs (returns_evalExpr names q l)
          (nd.operands c.arena) c w
        simp only [parts, hn, hops, List.mem_append] at h
        obtain ⟨hturn, hfirst⟩ := accounts_sequence (fun n hn => h n (.inl hn)) hw
        rw [hops] at hfirst
        cases r with
        | error u =>
          have hparts : parts names ⟨q, .expr (l + 1) id, c, w⟩ =
              sequence names q l c w (nd.operands c.arena) := by
            simp only [parts, hn, hops, List.append_nil]
          refine accounts_of_run (hrun.trans (Eval.bind_error hops)) hparts hmade hturn ?_
          rw [Option.toList_none, List.append_nil]
          exact ⟨hfirst.heap, hfirst.ends⟩
        | ok vs =>
          obtain ⟨hturn', hend⟩ := accounts_conclude (not_exists.mp hliteral)
            (fun n hn => h n (.inr hn)) hfirst.heap hfirst.ends
          refine accounts_of_run (hrun.trans (Eval.bind_ok hops))
            (by simp only [parts, hn, hops]) hmade (inTurn_append.mpr ⟨hturn, hturn'⟩) ?_
          simp only [List.flatMap_append, List.append_nil, Option.toList_none,
            ← List.append_assoc]
          exact hend

/-- What leaves a call whose body ends like that. -/
theorem among_leaving {k : CallStack} {r : Except Unwind Value}
    (h : EndsAmong fs (Value.Among fs) r) :
    EndsAmong fs (Value.Among fs) (Eval.leaving k (Eval.settled r)) := by
  cases r with
  | ok v => exact h
  | error u =>
    cases u with
    | ret v => exact h
    | error e => trivial
    | fault f => trivial

/-- A call whose body is not entered ends when its frame has been made or has been refused. -/
theorem callValue_not_entered (fs : List Closure) {f : Closure} {vs : List Value}
    {r : Except Unwind FrameId} {w' : World}
    (hact : Eval.activate names f vs (c.machine w) = (r, c.machine w'))
    (hret : ∀ v, r ≠ .error (.ret v))
    (hnot : ∀ g p, r = .ok g → q = p + 1 → ¬ c.stack.depth < c.stack.maxDepth) :
    ∃ u : Unwind, u.Among fs ∧
      Eval.callValue names q (.function f) vs (c.machine w) = (.error u, c.machine w') := by
  cases r with
  | error u =>
    obtain ⟨run, hrun⟩ := Eval.callValue_eq names q
    rw [hrun]
    refine ⟨u, ?_, Eval.bind_error hact⟩
    cases u with
    | ret v => exact absurd rfl (hret v)
    | _ => trivial
  | ok g =>
    by_cases hroom : c.stack.depth < c.stack.maxDepth
    · cases q with
      | succ q => exact absurd hroom (hnot g q rfl rfl)
      | zero => exact ⟨.fault .tooManyCalls, trivial, (Eval.bind_ok hact).trans
          (Eval.duringCall_machine hroom (Eval.inScope_machine (Eval.settle_machine rfl)))⟩
    · obtain ⟨run, hrun⟩ := Eval.callValue_eq names q
      rw [hrun]
      exact ⟨.error (c.stack.attachBacktrace (.ofKind (.stackOverflow c.stack.maxDepth))), trivial,
        (Eval.bind_ok hact).trans (Eval.duringCall_full (Nat.le_of_not_lt hroom))⟩

theorem accounts_call {v : Value} {vs : List Value}
    (h : ∀ n ∈ parts names ⟨q, .call v vs, c, w⟩, n.Accounts names) :
    Accounts names ⟨q, .call v vs, c, w⟩ := by
  intro fs hgiven
  have hw : w.heap.Records fs := hgiven.heap
  have hvalues := hgiven.values v vs rfl
  cases v with
  | function f =>
    obtain ⟨r, h', hact, hheap, hret⟩ := Eval.activate_heap names f vs c w
    have hw' : h'.Records fs := by
      rcases hheap with rfl | ⟨ns, rfl⟩
      · exact hw
      · exact hw.withCallFrame _ ns fun u hu => hvalues u (List.mem_cons_of_mem _ hu)
    by_cases hroom : ∃ g p, r = .ok g ∧ q = p + 1 ∧ c.stack.depth < c.stack.maxDepth
    · obtain ⟨g, q, rfl, rfl, hroom⟩ := hroom
      let body : Moment := ⟨q, .body f.code.body, ⟨f.code.arena, g, c.stack.enter ⟨f.name⟩⟩,
        { w with heap := h' }⟩
      have hparts : parts names ⟨q + 1, .call (.function f) vs, c, w⟩ = [body] := by
        simp only [parts, hact, if_pos hroom]
        rfl
      have hbody : Given fs body := .body hw'
      obtain ⟨-, hend⟩ := h body (hparts ▸ List.mem_singleton_self _) fs hbody
      rw [eval_machine] at hend
      have hmade : made? names ⟨q + 1, .call (.function f) vs, c, w⟩ = none := rfl
      refine accounts_of_run (Eval.callValue_machine hroom hact (eval_machine names body)) hparts
        hmade ⟨hbody, trivial⟩ ?_
      simp only [List.flatMap_singleton, Option.toList_none, List.append_nil]
      exact ⟨hend.heap, among_leaving hend.ends⟩
    · have hparts : parts names ⟨q, .call (.function f) vs, c, w⟩ = [] := by
        cases q with
        | zero => rfl
        | succ q => cases r <;> simp_all [parts]
      obtain ⟨u, hu, hrun⟩ := callValue_not_entered fs hact hret
        fun g p hr hq hlt => hroom ⟨g, p, hr, hq, hlt⟩
      exact accounts_of_none hrun hparts rfl ⟨hw', hu⟩
  | _ => cases q <;> exact accounts_of_none rfl rfl rfl ⟨hw, trivial⟩

theorem accounts_body {b : ExprId} (h : ∀ n ∈ parts names ⟨q, .body b, c, w⟩, n.Accounts names) :
    Accounts names ⟨q, .body b, c, w⟩ := by
  intro fs hgiven
  have hw : w.heap.Records fs := hgiven.heap
  cases hids : c.arena.statements? b with
  | none =>
    obtain ⟨fault, hrun⟩ := @Eval.runBody_none names (Eval.callValue names q) c w b hids
    exact accounts_of_none hrun (by simp only [parts, hids]) rfl ⟨hw, trivial⟩
  | some p =>
    obtain ⟨l, ids⟩ := p
    simp only [parts, hids] at h
    obtain ⟨hturn, hend⟩ := accounts_sequence h hw
    have hmade : made? names ⟨q, .body b, c, w⟩ = none := rfl
    refine accounts_of_run (Eval.runBody_statements hids) (by simp only [parts, hids]) hmade
      hturn ?_
    rw [Option.toList_none, List.append_nil]
    exact hend.map fun vs hvs => among_getLastD hvs

/-- **Nothing is held that is not listed**, from the beginning of a moment to its end. -/
theorem accounts (names : Interner) (m : Moment) : m.Accounts names := by
  induction m using parts_induction names with
  | h m ih =>
    obtain ⟨q, task, c, w⟩ := m
    cases task with
    | expr l id => exact accounts_expr ih
    | call v vs => exact accounts_call ih
    | body b => exact accounts_body ih

end Moment

/-- **Nor while a run is going on**: what is held at a moment of it is in a list that is part of
the list at the end. -/
theorem During.given {names : Interner} {m n : Moment} {calls : List String}
    (h : During names m calls n) (hm : m.Given fs) :
    ∃ gs, n.Given gs ∧ fs <+: gs ∧ gs ++ n.makes names <+: fs ++ m.makes names := by
  induction h generalizing fs with
  | here m => exact ⟨fs, hm, List.prefix_rfl, List.prefix_rfl⟩
  | @later m n o calls inner hb hrest ih =>
    obtain ⟨gs, hgiven, hfs, hpre⟩ :=
      (m.accounts names fs hm).1.mem (Moment.mem_parts.mpr ⟨_, hb⟩)
    obtain ⟨gs', hgiven', hgs, hpre'⟩ := ih hgiven
    refine ⟨gs', hgiven', hfs.trans hgs, hpre'.trans (hpre.trans ?_)⟩
    rw [Moment.makes_eq, ← List.append_assoc]
    exact List.prefix_append _ _

end ClosureLang
