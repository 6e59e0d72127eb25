import ClosureLang.Proofs.Heap.Changes
import ClosureLang.Proofs.Heap.Kept

/-!
# Evaluation makes no other changes

What an evaluation does to a heap comes down to changes, and what it answers with is a value of the
heap that it leaves. So it is with a call, and with creating the frame of one.
-/

namespace ClosureLang

variable {h₀ : Heap}

/-- What the first heap became, by the numbers of frames and of function values made. -/
def changesInvariant (h₀ : Heap) : Invariant (Nat × Nat) :=
  { validInvariant with
    world := fun s w => h₀.Becomes w.heap ∧ w.heap.size = s.1 ∧ w.heap.stamps = s.2 }

theorem changesInvariant_value_iff {h : Heap} {v : Value} :
    (changesInvariant h₀).value (h.size, h.stamps) v ↔ v.ValidIn h := by
  cases v <;> exact Iff.rfl

/-- What does not concern the heap is as for well-formed heaps. -/
theorem changesInvariant_lawful (hs : h₀.Sound) (names : Interner) :
    (changesInvariant h₀).Lawful names :=
  { validInvariant_lawful names with
    expr_step := fun _ => Invariant.descend_of_forall (fun _ => trivial) (fun _ => trivial)
      (fun _ => trivial) names _
    resolve := by
      rintro ⟨_, _⟩ w f n o ⟨hw, rfl, rfl⟩ _ ho
      have hv := (hw.sound hs).valid (Heap.local?_of_owner? ho)
      refine ⟨changesInvariant_value_iff.mpr hv, fun v hv => ?_⟩
      exact ⟨hw.trans (Heap.Becomes.owned ho (changesInvariant_value_iff.mp hv)),
        Heap.size_overwrite .., rfl⟩
    define := by
      rintro ⟨_, _⟩ w f n ⟨hw, rfl, rfl⟩ hf hb v hv
      exact ⟨hw.tail (.bind hf hb (changesInvariant_value_iff.mp hv)), Heap.size_bind .., rfl⟩
    child := by
      rintro ⟨_, _⟩ w f ⟨hw, rfl, rfl⟩ hf
      refine ⟨(w.heap.size + 1, w.heap.stamps), ⟨Nat.le_succ _, Nat.le_refl _⟩,
        ⟨hw.tail (.newFrame (some f) fun p hp => ?_), Heap.size_newFrame .., rfl⟩,
        Nat.lt_succ_self _⟩
      obtain rfl : f = p := Option.some.inj hp
      exact hf
    makeClosure := by
      rintro ⟨_, _⟩ w f c ⟨hw, rfl, rfl⟩ hf _
      exact ⟨(w.heap.size, w.heap.stamps + 1), ⟨Nat.le_refl _, Nat.le_succ _⟩,
        ⟨hw.tail (.makeClosure c f), rfl, rfl⟩, hf, Nat.lt_succ_self _⟩
    println := fun _ hw => hw }

/-! ## For a host -/

namespace Interpreter

variable {i : Interpreter} {w : World} {out : Outcome × Interpreter × World}

/-- An interaction that leaves the interpreter as it was and does nothing to the heap but make
changes. The value that it yields is one of the heap. -/
structure Yields (i : Interpreter) (h : Heap) (out : Outcome × Interpreter × World) : Prop where
  interpreter : out.2.1 = i
  becomes : h.Becomes out.2.2.heap
  value : ∀ v, out.1.value? = some v → v.ValidIn out.2.2.heap

theorem yields_of_concluded
    (h : (changesInvariant w.heap).Concluded (w.heap.size, w.heap.stamps) i out) :
    Yields i w.heap out := by
  obtain ⟨⟨_, _⟩, -, hi, hout, hw, rfl, rfl⟩ := h
  refine ⟨hi, hw, fun v hv => ?_⟩
  cases ho : out.1 with
  | value u =>
    rw [ho] at hv hout
    obtain rfl : u = v := Option.some.inj hv
    exact changesInvariant_value_iff.mp hout
  | error e | fault f =>
    rw [ho] at hv
    cases hv

theorem eval_yields (hs : w.heap.Sound) (hf : i.frame < w.heap.size) (names : Interner)
    (root : ExprId) : Yields i w.heap (i.eval names root w) :=
  yields_of_concluded ((changesInvariant_lawful hs names).eval
    (s := (w.heap.size, w.heap.stamps)) ⟨.refl, rfl, rfl⟩ trivial hf trivial)

theorem invoke_yields (hs : w.heap.Sound) (names : Interner) {callee : Value} {args : List Value}
    (hvs : ∀ v ∈ callee :: args, v.ValidIn w.heap) :
    Yields i w.heap (i.invoke names callee args w) :=
  yields_of_concluded ((changesInvariant_lawful hs names).invoke
    (s := (w.heap.size, w.heap.stamps)) ⟨.refl, rfl, rfl⟩ trivial
    (changesInvariant_value_iff.mpr (hvs callee (by simp)))
    fun v hv => changesInvariant_value_iff.mpr (hvs v (List.mem_cons_of_mem _ hv)))

theorem Yields.withFrame {f : FrameId} {h : Heap} {act : Interaction Outcome}
    (hy : Yields { i with frame := f } h (act { i with frame := f } w)) :
    Yields i h (withFrame f act i w) where
  interpreter := by simp only [Interpreter.withFrame, hy.interpreter]
  becomes := hy.becomes
  value := hy.value

end Interpreter

/-- The frame of a call, complete or given up half bound. -/
theorem Closure.activate_becomes {c : Closure} {h : Heap} {params : List Name} {args : List Value}
    (hs : h.Sound) (names : Interner) (hvs : ∀ v ∈ .function c :: args, v.ValidIn h)
    (hparams : c.code.params? = some params) :
    h.Becomes (c.activate names params args h).2 := by
  let I := changesInvariant h
  let k : Context := ⟨c.code.arena, c.frame, .new 0⟩
  have L : I.Lawful names := changesInvariant_lawful hs names
  have hclosure : I.value (h.size, h.stamps) (.function c) :=
    changesInvariant_value_iff.mpr (hvs (.function c) (by simp))
  have hargs : ∀ v ∈ args, I.value (h.size, h.stamps) v :=
    fun v hv => changesInvariant_value_iff.mpr (hvs v (List.mem_cons_of_mem _ hv))
  have hrelated : I.diagonal.Related (h.size, h.stamps) k k I.diagonal.scope
      (Eval.activate names c args) (Eval.activate names c args) :=
    L.diagonal.activate ⟨rfl, hclosure⟩ (Invariant.diagonal_values hargs)
  obtain ⟨⟨_, _⟩, r, _, w, _, -, ⟨rfl, hw, rfl, rfl⟩, hrun, -, -⟩ :=
    hrelated (h.size, h.stamps) ⟨h, .silent⟩ ⟨h, .silent⟩ (le_refl _) ⟨rfl, .refl, rfl, rfl⟩
  rw [Eval.activate, hparams] at hrun
  dsimp only at hrun
  rw [Eval.onHeap_machine] at hrun
  obtain ⟨-, hm⟩ := Prod.mk.inj hrun
  obtain rfl := Context.machine_inj.mp hm
  exact hw

end ClosureLang
