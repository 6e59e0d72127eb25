import ClosureLang.Proofs.Eval.TwoHeaps

/-!
# What a call can see

A call of a closure works on the frames within reach of the closure and of its arguments, and on
frames that it creates. Nothing else can make a difference to it, and it makes none to anything
else: functions travel as values and get stored and returned on the way, but each of them came
from within reach or was made during the call.

All of this is read off the comparison of runs in two heaps that agree on the frames within reach
(`Eval/TwoHeaps`). A heap compared with itself gives what a run leaves alone.
-/

namespace ClosureLang

/-- A run that started in `h` has changed no frame outside of `R`, and has not got hold of any:
what it answers and what it leaves in frames captures frames in `R` and frames made by it. -/
structure Confined (R : FrameId → Prop) (h : Heap) (out : Outcome × Interpreter × World) :
    Prop where
  untouched : ∀ f < h.size, ¬ R f → out.2.2.heap.frame? f = h.frame? f
  answer : ∀ v g, out.1 = .value v → v.captured? = some g →
    R g ∨ h.size ≤ g ∧ g < out.2.2.heap.size
  stored : ∀ f, R f ∨ h.size ≤ f → ∀ n v g, out.2.2.heap.local? f n = some v →
    v.captured? = some g → R g ∨ h.size ≤ g ∧ g < out.2.2.heap.size

/-- Two runs, which started in `h₁` and `h₂`, have ended in one way, up to the numbers of what
they made. -/
structure SameRun (R : FrameId → Prop) (h₁ h₂ : Heap)
    (out₁ out₂ : Outcome × Interpreter × World) : Prop where
  outcome : out₂.1 = out₁.1.renumber h₁ h₂
  printed : out₂.2.2.sink = out₁.2.2.sink
  created : out₂.2.2.heap.size = renumber h₁.size h₂.size out₁.2.2.heap.size
  inside : ∀ f, R f → out₂.2.2.heap.parent? f = out₁.2.2.heap.parent? f ∧
    ∀ n, out₂.2.2.heap.local? f n = (out₁.2.2.heap.local? f n).map (Value.renumber h₁ h₂)
  since : ∀ f : Nat, h₁.size ≤ f →
    out₂.2.2.heap.parent? (renumber h₁.size h₂.size f) =
      (out₁.2.2.heap.parent? f).map (renumber h₁.size h₂.size) ∧
    ∀ n, out₂.2.2.heap.local? (renumber h₁.size h₂.size f) n =
      (out₁.2.2.heap.local? f n).map (Value.renumber h₁ h₂)

namespace Setting

variable {S : Setting} {s : Nat} {i : Interpreter} {out out' : Outcome × Interpreter × World}

theorem confined (h : S.runs.Concluded s i i out out') : Confined S.within S.left out := by
  obtain ⟨t, -, -, -, hout, hw⟩ := h
  have hown : ∀ {u v : Value} {g : FrameId}, u.Match (S.ClosureMatch t) v →
      u.captured? = some g → S.within g ∨ S.left.size ≤ g ∧ g < out.2.2.heap.size := by
    intro u v g huv hg
    obtain ⟨hg, hlt⟩ := own_of_captured? huv hg
    exact hg.imp id fun hle => ⟨hle, hw.size.symm ▸ hlt⟩
  refine ⟨hw.untouched, ?_, ?_⟩
  · intro v g hv hg
    rw [hv] at hout
    generalize out'.1 = o at hout
    cases hout with
    | value huv => exact hown huv hg
  · intro f hf n v g hv hg
    obtain ⟨_, -, huv⟩ := hw.local_match hf hv
    exact hown huv hg

theorem sameRun (h : S.runs.Concluded s i i out out') :
    SameRun S.within S.left S.right out out' := by
  obtain ⟨t, -, -, -, hout, hw⟩ := h
  have hbound : ∀ f, S.Own f → ∀ n, out'.2.2.heap.local? (S.frame f) n =
      (out.2.2.heap.local? f n).map (Value.renumber S.left S.right) := by
    intro f hf n
    rcases rel_cases (hw.bound f hf n) with ⟨h₁, h₂⟩ | ⟨u, v, h₁, h₂, huv⟩
    · rw [h₁, h₂]
      rfl
    · rw [h₁, h₂]
      exact congrArg some (eq_renumber huv)
  refine ⟨?_, hw.sink, ?_, fun f hf => ?_, fun f hf => ⟨hw.parent f (Or.inr hf),
    hbound f (Or.inr hf)⟩⟩
  · generalize out.1 = o at hout ⊢
    generalize out'.1 = o' at hout ⊢
    cases hout with
    | value huv => exact congrArg Outcome.value (eq_renumber huv)
    | error he => exact congrArg Outcome.error (Eq.symm he)
    | fault hf => exact congrArg Outcome.fault (Eq.symm hf)
  · rw [hw.size_right, hw.size]
    rfl
  · have hparent := hw.parent f (Or.inl hf)
    have hlocal := hbound f (Or.inl hf)
    rw [frame_of_within hf] at hparent hlocal
    refine ⟨?_, hlocal⟩
    rw [hparent]
    cases hp : out.2.2.heap.parent? f with
    | none => rfl
    | some p =>
      have hpf : p < S.left.size := Nat.lt_trans (hw.nested f p hp) (S.lt_left f hf)
      exact congrArg some (renumber_of_lt hpf)

end Setting

/-- **Captured state is isolated.** Whether a value is called or an expression is evaluated, and
however that ends: only frames within reach and new ones take part, and the rest of the heap makes
no difference. Within reach of a call is what the called value and the arguments lead to, and of
an evaluation what its scope leads to. -/
theorem isolated (names : Interner) (i : Interpreter) (w : World) (hw : w.heap.WellFormed) :
    (∀ callee args, (∀ v ∈ callee :: args, v.ValidIn w.heap) →
      Confined (w.heap.ReachableBy (callee :: args)) w.heap (i.invoke names callee args w) ∧
      ∀ h : Heap, h.WellFormed → (∀ v ∈ callee :: args, v.ValidIn h) →
        w.heap.AgreeOn (w.heap.ReachableBy (callee :: args)) h →
        SameRun (w.heap.ReachableBy (callee :: args)) w.heap h (i.invoke names callee args w)
          (i.invoke names callee args ⟨h, w.sink⟩)) ∧
    ∀ root, i.frame < w.heap.size →
      Confined (w.heap.Reachable (· = i.frame)) w.heap (i.eval names root w) ∧
      ∀ h : Heap, h.WellFormed → i.frame < h.size →
        w.heap.AgreeOn (w.heap.Reachable (· = i.frame)) h →
        SameRun (w.heap.Reachable (· = i.frame)) w.heap h (i.eval names root w)
          (i.eval names root ⟨h, w.sink⟩) := by
  have hroots : ∀ {vs : List Value} {h : Heap}, (∀ v ∈ vs, v.ValidIn h) →
      ∀ f, (∃ v ∈ vs, v.captured? = some f) → f < h.size := by
    rintro vs h hvs f ⟨v, hv, hf⟩
    exact (hvs v hv).lt_size hf
  refine ⟨fun callee args hvs => ?_, fun root hf => ?_⟩
  · have hrun : ∀ h (hh : h.WellFormed) (hvs' : ∀ v ∈ callee :: args, v.ValidIn h)
        (hagree : w.heap.AgreeOn (w.heap.ReachableBy (callee :: args)) h),
        (Setting.ofReach hw hh (hroots hvs) (hroots hvs') hagree).runs.Concluded w.heap.size i i
          (i.invoke names callee args w) (i.invoke names callee args ⟨h, w.sink⟩) := by
      intro h hh hvs' hagree
      let S := Setting.ofReach hw hh (hroots hvs) (hroots hvs') hagree
      have hself : ∀ v ∈ callee :: args, v.Match (S.ClosureMatch w.heap.size) v :=
        fun v hv => Setting.match_self (hvs v hv) (hvs' v hv) fun g hg => .root ⟨v, hv, hg⟩
      exact (Setting.runs_lawful names).invoke (S.start w.sink) rfl trivial
        (hself callee (by simp))
        (List.forall₂_same.mpr fun v hv => hself v (List.mem_cons_of_mem _ hv))
    exact ⟨Setting.confined (hrun w.heap hw hvs (.refl _ _)),
      fun h hh hvs' hagree => Setting.sameRun (hrun h hh hvs' hagree)⟩
  · have hrun : ∀ h (hh : h.WellFormed) (hf' : i.frame < h.size)
        (hagree : w.heap.AgreeOn (w.heap.Reachable (· = i.frame)) h),
        (Setting.ofReach hw hh (by rintro _ rfl; exact hf) (by rintro _ rfl; exact hf')
          hagree).runs.Concluded w.heap.size i i
          (i.eval names root w) (i.eval names root ⟨h, w.sink⟩) := by
      intro h hh hf' hagree
      let S := Setting.ofReach hw hh (by rintro _ rfl; exact hf) (by rintro _ rfl; exact hf') hagree
      have hown : S.within i.frame := .root rfl
      exact (Setting.runs_lawful names).eval (S.start w.sink) rfl trivial
        ⟨Or.inl hown, hf, (Setting.frame_of_within hown).symm⟩ rfl
    exact ⟨Setting.confined (hrun w.heap hw hf (.refl _ _)),
      fun h hh hf' hagree => Setting.sameRun (hrun h hh hf' hagree)⟩

/-- `function () { x = true }`, where `x` has slot 1, over frame 0. -/
def assigner : Closure where
  stamp := 0
  code := ⟨⟨#[.bool true, .assign ⟨1⟩ 0, .block ⟨0, 1⟩], #[1], #[]⟩, ⟨none, ⟨0, 0⟩, 2⟩, none⟩
  frame := 0

/-- The frame that it captured, and one that it cannot reach, in which `x` is `v`. -/
def assignerWorld (v : Value) : World :=
  ⟨(((Heap.empty.root.2.bind 0 ⟨1⟩ .void).makeClosure assigner.code 0).2.root.2.bind 1 ⟨1⟩ v),
    .silent⟩

theorem reachableBy_assigner {v : Value} {f : FrameId}
    (hf : (assignerWorld v).heap.ReachableBy [.function assigner] f) : f = 0 := by
  induction hf with
  | root hf =>
    obtain ⟨u, hu, hf⟩ := hf
    obtain rfl := List.mem_singleton.mp hu
    exact (Option.some.inj hf).symm
  | parent _ hp ih =>
    subst ih
    cases hp
  | @stored f n u g _ hu hg ih =>
    subst ih
    have hvoid : (assignerWorld v).heap.local? 0 n = if n = ⟨1⟩ then some .void else none := by
      simp [assignerWorld, Heap.root, Heap.local?_bind, Heap.local?_newFrame,
        Heap.local?_makeClosure, Heap.frame?_newFrame, Heap.local?_eq_none_of_size_le, Heap.empty,
        Heap.size]
    rw [hvoid] at hu
    split at hu
    · cases hu
      cases hg
    · cases hu

theorem isolated_assigner :
    let run := fun v => (Interpreter.new .empty 0 4).invoke .empty (.function assigner) []
      (assignerWorld v)
    (run .void).2.2.heap.frame? 1 = (assignerWorld .void).heap.frame? 1 ∧
      (run (.bool true)).1 = (run .void).1.renumber (assignerWorld .void).heap
        (assignerWorld (.bool true)).heap := by
  have hwf : ∀ v, (∀ h, v.ValidIn h) → (assignerWorld v).heap.WellFormed := by
    intro v hv
    refine Heap.WellFormed.bind (Heap.WellFormed.newFrame ?_ (by decide)) (hv _) 1 ⟨1⟩
    refine Heap.WellFormed.makeClosure ?_ assigner.code 0
    exact Heap.WellFormed.bind (Heap.WellFormed.empty.newFrame (by decide)) (v := .void) trivial 0
      ⟨1⟩
  have hvalid : ∀ v, ∀ u ∈ [Value.function assigner], u.ValidIn (assignerWorld v).heap := by
    intro v u hu
    obtain rfl := List.mem_singleton.mp hu
    exact ⟨by simp [assignerWorld, assigner, Heap.root, Heap.size_bind, Heap.size_newFrame],
      Nat.zero_lt_one⟩
  obtain ⟨hinvoke, -⟩ := isolated .empty (.new .empty 0 4) (assignerWorld .void)
    (hwf .void fun _ => trivial)
  obtain ⟨hconfined, hsame⟩ := hinvoke (.function assigner) [] (hvalid .void)
  refine ⟨hconfined.untouched 1 (by decide) fun h => ?_, ?_⟩
  · exact absurd (reachableBy_assigner h) (by decide)
  · refine (hsame (assignerWorld (.bool true)).heap (hwf _ fun _ => trivial) (hvalid _) ?_).outcome
    constructor
    · intro f hf
      rw [reachableBy_assigner hf]
      rfl
    · intro f hf n
      rw [reachableBy_assigner hf]
      rfl

end ClosureLang
