import ClosureLang.Proofs.CompoundAssignment
import ClosureLang.Proofs.Host.Creations
import ClosureLang.Proofs.RefusedCalls

/-!
# Functions are equal when they are one

A function value is copied wherever it is passed, and each evaluation of a literal makes another
one, also of the same literal in the same scope. `equality_is_creation` says that `==` tells
exactly that: in a state that a host can get to, and at any moment of a run that it starts there,
two functions are equal if and only if both are copies of what one evaluation made. Nothing that
happens to a function on its way changes this, since it is handed on as it is (`Moment.HandsOn`).
-/

namespace ClosureLang

/-- Both functions are copies of one entry in the list of all that were made. -/
def OneMaking (fs : List Closure) (f g : Closure) : Prop :=
  ∃ k : Nat, fs[k]? = some f ∧ fs[k]? = some g

/-- **Of the functions in `S`, `==` and `!=` tell which come of one making**, and those have the
same code and the same captured frame. -/
structure TellsMakings (fs : List Closure) (S : Closure → Prop) : Prop where
  listed : ∀ f, S f → f ∈ fs
  eq_ne : ∀ f g, S f → S g → ∃ b : Bool,
    BinaryOp.eq.apply (.function f) (.function g) = .ok (.bool b) ∧
    BinaryOp.ne.apply (.function f) (.function g) = .ok (.bool !b) ∧
    (b = true ↔ OneMaking fs f g)
  same : ∀ f g, OneMaking fs f g → f.code = g.code ∧ f.frame = g.frame
  /-- What is made is equal to nothing that was made before. -/
  distinct : ∀ before f, before ++ [f] <+: fs → ∀ g ∈ before,
    BinaryOp.eq.apply (.function f) (.function g) = .ok (.bool false)

variable {fs : List Closure} {S : Closure → Prop}

/-- An entry of the list is none of those before it. -/
theorem Numbered.beq_eq_false (hfs : Numbered fs) {before : List Closure} {f g : Closure}
    (hf : before ++ [f] <+: fs) (hg : g ∈ before) : (f == g) = false := by
  obtain ⟨k, hk⟩ := List.mem_iff_getElem?.mp hg
  obtain ⟨after, rfl⟩ := hf
  have hlt := (List.getElem?_eq_some_iff.mp hk).1
  have hstampf : f.stamp = before.length := hfs _ f (by simp)
  have hstampg : g.stamp = k := by
    refine hfs k g ?_
    rw [List.append_assoc, List.getElem?_append_left hlt, hk]
  have hne : (f.stamp == g.stamp) = false := by
    rw [hstampf, hstampg, beq_eq_false_iff_ne]
    omega
  show (f.stamp == g.stamp && f.sharesFrame g) = false
  rw [hne, Bool.false_and]

theorem Numbered.tellsMakings (hfs : Numbered fs) (hS : ∀ f, S f → f ∈ fs) :
    TellsMakings fs S where
  listed := hS
  eq_ne f g hf hg := ⟨f == g, rfl, rfl, hfs.beq_iff (hS f hf) (hS g hg)⟩
  same f g h := by
    obtain ⟨k, hf, hg⟩ := h
    obtain rfl := Option.some.inj (hf.symm.trans hg)
    exact ⟨rfl, rfl⟩
  distinct before f hf g hg := by
    show Except.ok (Value.bool (f == g)) = _
    rw [hfs.beq_eq_false hf hg]

theorem Closure.eq_iff {f g : Closure} :
    BinaryOp.eq.apply (.function f) (.function g) = .ok (.bool true) ↔
      f.stamp = g.stamp ∧ f.frame = g.frame := by
  show Except.ok (Value.bool (f.stamp == g.stamp && f.frame == g.frame)) = .ok (.bool true) ↔ _
  simp

theorem Closure.equivalence_eq : Equivalence fun f g : Closure =>
    BinaryOp.eq.apply (.function f) (.function g) = .ok (.bool true) where
  refl _ := eq_iff.mpr ⟨rfl, rfl⟩
  symm h := eq_iff.mpr ((eq_iff.mp h).imp Eq.symm Eq.symm)
  trans h h' := eq_iff.mpr ⟨(eq_iff.mp h).1.trans (eq_iff.mp h').1,
    (eq_iff.mp h).2.trans (eq_iff.mp h').2⟩

/-! ## Who has a function -/

/-- The host holds the function in a register, or a frame binds it. -/
inductive Host.State.Holds (s : Host.State) (f : Closure) : Prop
  | register (h : Value.function f ∈ s.values.values)
  | bound {g : FrameId} {n : Name} (h : s.heap.local? g n = some (.function f))

/-- A frame binds the function before or after, it is called or passed, or it is what comes of
it. -/
inductive Moment.Holds (names : Interner) (m : Moment) (f : Closure) : Prop
  | before {g : FrameId} {n : Name} (h : m.world.heap.local? g n = some (.function f))
  | after {g : FrameId} {n : Name} (h : (m.after names).heap.local? g n = some (.function f))
  | passed {v : Value} {vs : List Value} (h : m.task = .call v vs) (hf : .function f ∈ v :: vs)
  | value (h : m.result names = .ok (.function f))
  | returned (h : m.result names = .error (.ret (.function f)))

theorem Host.State.Holds.mem {s : Host.State} {f : Closure} (h : s.Holds f) (hs : s.Tracked fs) :
    f ∈ fs := by
  cases h with
  | register h => exact hs.values _ h f rfl
  | bound h => exact hs.heap.bound _ _ _ h f rfl

namespace Moment

variable {names : Interner} {m n : Moment} {f : Closure}

/-- All that there is at a moment has been made by its end. -/
theorem Holds.mem (h : m.Holds names f) (hm : m.Given fs) : f ∈ fs ++ m.makes names := by
  have hend := (m.accounts names fs hm).2
  rw [eval_machine] at hend
  have hends := hend.ends
  cases h with
  | before h => exact List.mem_append_left _ (hm.heap.bound _ _ _ h f rfl)
  | after h => exact hend.heap.bound _ _ _ h f rfl
  | passed h hf => exact List.mem_append_left _ (hm.values _ _ h _ hf f rfl)
  | value h =>
    rw [h] at hends
    exact hends f rfl
  | returned h =>
    rw [h] at hends
    exact hends f rfl

/-! ## Handing on -/

/-- **Values are handed on as they are**: into variables and out of them, to parameters, by
`return`, and out of calls, blocks and bodies. -/
structure HandsOn (names : Interner) (m : Moment) : Prop where
  reads : ∀ n v, m.Evaluates (.ident n) → m.result names = .ok v →
    ∃ o, m.world.heap.owner? m.context.frame n = some o ∧ m.world.heap.local? o n = some v
  declares : ∀ n i u, m.Evaluates (.letIn n i) → m.result names = .ok u →
    ∃ e v, m.parts names = [e] ∧ e.result names = .ok v ∧
      (m.after names).heap.local? m.context.frame n = some v
  assigns : ∀ n i u, m.Evaluates (.assign n i) → m.result names = .ok u →
    ∃ e v o, m.parts names = [e] ∧ e.result names = .ok v ∧
      (e.after names).heap.owner? m.context.frame n = some o ∧
      (m.after names).heap.local? o n = some v
  passes : ∀ d vs calls b, m.task = .call (.function d) vs → Begins names m calls b →
    ∃ ps, d.code.params? = some ps ∧ ∀ (k : Nat) n v, ps[k]? = some n → vs[k]? = some v →
      b.world.heap.local? b.context.frame n = some v
  settles : ∀ v vs calls b, m.task = .call v vs → Begins names m calls b →
    ∀ u, b.result names = .ok u ∨ b.result names = .error (.ret u) → m.result names = .ok u
  returns : ∀ i, m.Evaluates (.ret (some i)) → ∃ e, m.parts names = [e] ∧
    ∀ v, e.result names = .ok v → m.result names = .error (.ret v)
  /-- A block and a body end as what was last to begin in them. -/
  nests : ∀ ns n, (∃ s, m.Evaluates (.block s)) ∨ (∃ b, m.task = .body b) →
    m.parts names = ns ++ [n] → m.result names = n.result names

variable {q l : Nat} {c : Context} {w : World} {ids : List ExprId} {s : Nat × Nat}

/-- Statements end as the last of them that begins. -/
theorem runStmts_sequence {ns : List Moment} (last : Value)
    (h : sequence names q l c w ids = ns ++ [n]) :
    (Eval.runStmts (Eval.evalExpr names (Eval.callValue names q) l) last ids (c.machine w)).1 =
      n.result names := by
  induction ids generalizing w ns last with
  | nil => simp [sequence] at h
  | cons i ids ih =>
    have hi : Eval.evalExpr names (Eval.callValue names q) l i (c.machine w) = _ :=
      eval_machine names ⟨q, .expr l i, c, w⟩
    rw [sequence] at h
    cases hr : result names ⟨q, .expr l i, c, w⟩ with
    | error u =>
      rw [hr] at hi
      simp only [hr] at h
      obtain ⟨rfl, rfl⟩ : ns = [] ∧ (⟨q, .expr l i, c, w⟩ : Moment) = n := by
        simpa using List.append_inj' (show [] ++ [_] = ns ++ [n] from h) rfl
      rw [Eval.runStmts, Eval.bind_error hi, hr]
    | ok v =>
      rw [hr] at hi
      simp only [hr] at h
      rw [Eval.runStmts, Eval.bind_ok hi]
      cases ids with
      | nil =>
        obtain ⟨rfl, rfl⟩ : ns = [] ∧ (⟨q, .expr l i, c, w⟩ : Moment) = n := by
          simpa [sequence] using List.append_inj' (show [] ++ [_] = ns ++ [n] from h) rfl
        exact hr.symm
      | cons j ids =>
        cases ns with
        | nil => simp [sequence] at h
        | cons k ns => exact ih v (List.cons.inj h).2

/-- A node with one operand that goes on with nothing. -/
theorem parts_singleton {id i : ExprId} {nd : Node} (hn : c.arena.node? id = some nd)
    (hops : nd.operands c.arena = [i])
    (hnone : ∀ w vs, afterwards names q l c w nd vs = []) :
    parts names ⟨q, .expr (l + 1) id, c, w⟩ = [⟨q, .expr l i, c, w⟩] := by
  have hseq : sequence names q l c w [i] = [⟨q, .expr l i, c, w⟩] := by
    rw [sequence]
    cases result names ⟨q, .expr l i, c, w⟩ <;> rfl
  simp only [parts, hn, hops, hseq, hnone]
  split <;> rfl

theorem reads {n : Name} {v : Value} (hm : m.Evaluates (.ident n))
    (hv : m.result names = .ok v) : ∃ o, m.world.heap.owner? m.context.frame n = some o ∧
      m.world.heap.local? o n = some v := by
  obtain ⟨q, task, c, w⟩ := m
  obtain ⟨l, id, rfl, hn⟩ := hm
  have hrun : result names ⟨q, .expr (l + 1) id, c, w⟩ = (Eval.getVar names n (c.machine w)).1 :=
    congrArg Prod.fst (Eval.evalExpr_succ l hn)
  rw [hrun, Eval.getVar_machine] at hv
  split at hv
  · next o ho =>
    have hlocal := Heap.local?_of_owner? ho
    obtain rfl := Except.ok.inj hv
    exact ⟨o, ho, hlocal⟩
  · cases hv

theorem declares {n : Name} {i : ExprId} {u : Value}
    (hscope : m.context.frame < m.world.heap.size) (hm : m.Evaluates (.letIn n i))
    (hu : m.result names = .ok u) : ∃ e v, m.parts names = [e] ∧ e.result names = .ok v ∧
      (m.after names).heap.local? m.context.frame n = some v := by
  obtain ⟨q, task, c, w⟩ := m
  obtain ⟨l, id, rfl, hn⟩ := hm
  let e : Moment := ⟨q, .expr l i, c, w⟩
  rcases eval_operand (q := q) (l := l) (w := w) hn fun call ev => rfl with
    ⟨err, -, herr⟩ | ⟨v, hv, hrun⟩
  · cases hu.symm.trans (congrArg Prod.fst herr)
  refine ⟨e, v, parts_singleton hn rfl fun _ _ => rfl, hv, ?_⟩
  have hdefine := @Eval.defineVar_machine names c (e.after names) n v
  split at hdefine
  · rw [Eval.bind_error hdefine] at hrun
    cases hu.symm.trans (congrArg Prod.fst hrun)
  · rw [Eval.bind_ok hdefine] at hrun
    have hsize : c.frame < (e.after names).heap.size :=
      Nat.lt_of_lt_of_le hscope (e.grown names).size_le
    rw [after_eq hrun]
    exact (Heap.local?_bind_of_lt hsize n v c.frame n).trans (if_pos ⟨rfl, rfl⟩)

theorem assigns {n : Name} {i : ExprId} {u : Value} (hm : m.Evaluates (.assign n i))
    (hu : m.result names = .ok u) : ∃ e v o, m.parts names = [e] ∧ e.result names = .ok v ∧
      (e.after names).heap.owner? m.context.frame n = some o ∧
      (m.after names).heap.local? o n = some v := by
  obtain ⟨q, task, c, w⟩ := m
  obtain ⟨l, id, rfl, hn⟩ := hm
  let e : Moment := ⟨q, .expr l i, c, w⟩
  rcases eval_operand (q := q) (l := l) (w := w) hn fun call ev => rfl with
    ⟨err, -, herr⟩ | ⟨v, hv, hrun⟩
  · cases hu.symm.trans (congrArg Prod.fst herr)
  have hset := @Eval.setVar_machine names c (e.after names) n v
  split at hset
  · next o ho =>
    rw [Eval.bind_ok hset] at hrun
    refine ⟨e, v, o, parts_singleton hn rfl fun _ _ => rfl, hv, ho, ?_⟩
    rw [after_eq hrun]
    exact (Heap.overwritten ho v).holds
  · rw [Eval.bind_error hset] at hrun
    cases hu.symm.trans (congrArg Prod.fst hrun)

theorem passes {d : Closure} {vs : List Value} {calls : List String} {b : Moment}
    (hm : m.task = .call (.function d) vs) (hb : Begins names m calls b) :
    ∃ ps, d.code.params? = some ps ∧ ∀ (k : Nat) n v, ps[k]? = some n → vs[k]? = some v →
      b.world.heap.local? b.context.frame n = some v := by
  cases hb with
  | body hact hroom =>
    cases hm
    obtain ⟨ps, hps, hlen, hd, rfl, rfl⟩ := Eval.activate_ok_iff.mp hact
    exact ⟨ps, hps, fun k n v hn hv =>
      (Heap.local?_withCallFrame hd (Nat.le_of_eq hlen)).mpr ⟨k, hn, hv⟩⟩
  | _ => cases hm

theorem settles {v : Value} {vs : List Value} {calls : List String} {b : Moment} {u : Value}
    (hm : m.task = .call v vs) (hb : Begins names m calls b)
    (hu : b.result names = .ok u ∨ b.result names = .error (.ret u)) : m.result names = .ok u := by
  cases hb with
  | @body q f us c w w' g hact hroom =>
    let b : Moment := ⟨q, .body f.code.body, ⟨f.code.arena, g, c.stack.enter ⟨f.name⟩⟩, w'⟩
    have hrun : result names ⟨q + 1, .call (.function f) us, c, w⟩ = _ :=
      congrArg Prod.fst (Eval.callValue_machine hroom hact (eval_machine names b))
    rw [hrun]
    rcases hu with hu | hu <;> rw [hu] <;> rfl
  | _ => cases hm

theorem returns_operand {i : ExprId} (hm : m.Evaluates (.ret (some i))) :
    ∃ e, m.parts names = [e] ∧ ∀ v, e.result names = .ok v → m.result names = .error (.ret v) := by
  obtain ⟨q, task, c, w⟩ := m
  obtain ⟨l, id, rfl, hn⟩ := hm
  refine ⟨⟨q, .expr l i, c, w⟩, parts_singleton hn rfl fun _ _ => rfl, fun v hv => ?_⟩
  rcases eval_operand (q := q) (l := l) (w := w) hn fun call ev => rfl with
    ⟨err, herr, -⟩ | ⟨u, hu, hrun⟩
  · cases hv.symm.trans herr
  · obtain rfl := Except.ok.inj (hv.symm.trans hu)
    exact congrArg Prod.fst hrun

theorem nests {ns : List Moment} (hm : (∃ s, m.Evaluates (.block s)) ∨ ∃ b, m.task = .body b)
    (hparts : m.parts names = ns ++ [n]) : m.result names = n.result names := by
  obtain ⟨q, task, c, w⟩ := m
  rcases hm with ⟨s, l, id, rfl, hn⟩ | ⟨b, rfl⟩
  · have hnode : parts names ⟨q, .expr (l + 1) id, c, w⟩ =
        afterwards names q l c w (.block s) [] := by
      simp only [parts, hn]
      rfl
    rw [hnode, afterwards] at hparts
    split at hparts
    · next ids hs =>
      have hblock : eval names ⟨q, .expr (l + 1) id, c, w⟩ (c.machine w) = _ :=
        Eval.evalExpr_block l hn hs
      exact (congrArg Prod.fst hblock).trans (runStmts_sequence .void hparts)
    · simp at hparts
  · cases hids : c.arena.statements? b with
    | none => simp [parts, hids] at hparts
    | some p =>
      obtain ⟨l, ids⟩ := p
      simp only [parts, hids] at hparts
      rw [← runStmts_sequence .void hparts, Eval.runStmts_eq]
      exact congrArg Prod.fst (Eval.runBody_statements hids)

theorem handsOn_of_satisfies (hm : m.Satisfies validInvariant s) : m.HandsOn names where
  reads _ _ := reads
  declares _ _ _ hn := by
    refine declares ?_ hn
    obtain ⟨l, id, htask, -⟩ := hn
    have hscope := hm.task
    rw [htask] at hscope
    exact hm.world.2.1 ▸ hscope.1
  assigns _ _ _ := assigns
  passes _ _ _ _ := passes
  settles _ _ _ _ hm hb _ := settles hm hb
  returns _ := returns_operand
  nests _ _ := nests

end Moment

open Host

/-- **Equality of functions is creation identity.** In every state that a host can get to: of the
functions that it holds and that are bound, two are equal exactly if they are copies of what was
made by one evaluation of a literal, and then they share code and captured frame. The same holds
throughout the run that the host starts next, of all functions before, in the course of it and at
its end. There, what a literal is evaluated to comes after all that was held before, and is equal
to nothing that was made before; and values are handed on as they are. -/
theorem equality_is_creation (cs : List Command) :
    let s := State.start.run cs
    let fs := State.start.made cs
    TellsMakings fs s.Holds ∧
    (∀ c names m, s.starts? c = some (names, m) →
      State.start.made (cs ++ [c]) = fs ++ m.makes names ∧
      TellsMakings (fs ++ m.makes names)
        (fun f => s.Holds f ∨ ∃ calls n, During names m calls n ∧ n.Holds names f) ∧
      ∀ calls n, During names m calls n → n.HandsOn names ∧
        ∀ f, n.made? names = some f → ∃ before, before ++ [f] <+: fs ++ m.makes names ∧
          (∀ g, s.Holds g → g ∈ before) ∧
          ∀ o x g, n.world.heap.local? o x = some (.function g) → g ∈ before) ∧
    Equivalence fun f g => BinaryOp.eq.apply (.function f) (.function g) = .ok (.bool true) := by
  intro s fs
  have hs : s.Tracked fs := State.tracked_start.run cs
  have hbalanced : s.Balanced := State.balanced_start.run cs
  refine ⟨hs.heap.numbered.tellsMakings fun f hf => hf.mem hs, fun c names m hm => ?_, ?_⟩
  · have hgiven := hs.given hm
    have hend := (m.accounts names fs hgiven).2
    refine ⟨?_, hend.heap.numbered.tellsMakings ?_, fun calls n hn => ⟨?_, fun f hf => ?_⟩⟩
    · rw [State.made_append, State.made, State.made, List.append_nil]
      exact congrArg _ (State.makes_eq hm)
    · rintro f (hf | ⟨calls, n, hn, hf⟩)
      · exact List.mem_append_left _ (hf.mem hs)
      · obtain ⟨gs, hgs, -, hpre⟩ := hn.given hgiven
        exact hpre.subset (hf.mem hgs)
    · obtain ⟨_, -, hvalid⟩ := hn.satisfies (validInvariant_lawful names) (hbalanced.satisfies hm)
      exact Moment.handsOn_of_satisfies hvalid
    · obtain ⟨gs, hgs, hfs, hpre⟩ := hn.given hgiven
      refine ⟨gs, ?_, fun g hg => hfs.subset (hg.mem hs), fun o x g hg =>
        hgs.heap.bound o x _ hg g rfl⟩
      rwa [Moment.makes_of_made? hf] at hpre
  · exact Closure.equivalence_eq

end ClosureLang
