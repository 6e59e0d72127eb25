import ClosureLang.Proofs.Eval.Invariant
import ClosureLang.Proofs.Heap.Scopes

/-!
# Which names a frame binds

Evaluation overwrites what names hold all the time, in any frame in reach. It adds names to one
frame only, the scope that is current, and a call makes a new frame for that. So a call adds no
name to a frame that was there before, an evaluation adds names to its own scope at most, and
nothing is ever removed, whatever way either ends.

The invariant (`KeepsNames`) compares a heap with the one at the start. The frames that may gain
names are the ones called `free`: the scope of the evaluation, or none for a call. What carries
it through nested calls and blocks is that the current scope is free or was created since.
-/

namespace ClosureLang

/-- What has become of the frames of `h₀`, of which those in `free` may have gained names. -/
structure KeepsNames (h₀ : Heap) (free : FrameId → Prop) (h : Heap) : Prop where
  size_le : h₀.size ≤ h.size
  parent : ∀ f, f < h₀.size → h.parent? f = h₀.parent? f
  kept : ∀ f n, h₀.binds f n = true → h.binds f n = true
  closed : ∀ f, f < h₀.size → ¬ free f → ∀ n, h.binds f n = h₀.binds f n

namespace KeepsNames

variable {h₀ h : Heap} {free : FrameId → Prop} {f : FrameId} {n : Name} {v : Value}

theorem refl (h : Heap) (free : FrameId → Prop) : KeepsNames h free h :=
  ⟨Nat.le_refl _, fun _ _ => rfl, fun _ _ hb => hb, fun _ _ _ _ => rfl⟩

theorem overwrite (hk : KeepsNames h₀ free h) : KeepsNames h₀ free (h.overwrite f n v) where
  size_le := by rw [Heap.size_overwrite]; exact hk.size_le
  parent g hg := by rw [Heap.parent?_overwrite]; exact hk.parent g hg
  kept g m hb := by rw [Heap.binds_overwrite]; exact hk.kept g m hb
  closed g hg hfree m := by rw [Heap.binds_overwrite]; exact hk.closed g hg hfree m

theorem bind (hk : KeepsNames h₀ free h) (hf : free f ∨ h₀.size ≤ f) :
    KeepsNames h₀ free (h.bind f n v) where
  size_le := by rw [Heap.size_bind]; exact hk.size_le
  parent g hg := by rw [Heap.parent?_bind]; exact hk.parent g hg
  kept g m hb := Heap.binds_bind_of_binds (hk.kept g m hb) f n v
  closed g hg hfree m := by
    have hfg : f ≠ g := by
      intro hfg
      rw [hfg] at hf
      exact hf.elim hfree (Nat.not_le_of_lt hg)
    rw [Heap.binds_bind_of_ne hfg]
    exact hk.closed g hg hfree m

theorem newFrame (hk : KeepsNames h₀ free h) (q : Option FrameId) :
    KeepsNames h₀ free (h.newFrame q).2 where
  size_le := by rw [Heap.size_newFrame]; exact Nat.le_succ_of_le hk.size_le
  parent g hg := by
    have hne : g ≠ h.size := Nat.ne_of_lt (Nat.lt_of_lt_of_le hg hk.size_le)
    rw [Heap.parent?_newFrame, if_neg hne]
    exact hk.parent g hg
  kept g m hb := by rw [Heap.binds_newFrame]; exact hk.kept g m hb
  closed g hg hfree m := by rw [Heap.binds_newFrame]; exact hk.closed g hg hfree m

end KeepsNames

/-- The current scope is free or was created since. -/
def namesInvariant (h₀ : Heap) (free : FrameId → Prop) : Invariant Throughout where
  world _ w := KeepsNames h₀ free w.heap
  closure _ _ := True
  captured _ _ := True
  scope _ f := free f ∨ h₀.size ≤ f
  code _ := True
  expr _ := True
  calls _ _ := True
  error _ _ := True
  fault _ := True

theorem namesInvariant_lawful (h₀ : Heap) (free : FrameId → Prop) (names : Interner) :
    (namesInvariant h₀ free).Lawful names where
  closure_mono _ h := h
  scope_mono _ h := h
  closure_code _ := trivial
  noParams _ _ := trivial
  body _ := trivial
  closure_captured _ := trivial
  scope_captured _ := trivial
  expr_step _ := Invariant.descend_of_forall (fun _ => trivial) (fun _ => trivial)
    (fun _ => trivial) names _
  resolve := by
    intro s w f n o hw _ _
    refine ⟨?_, fun v _ => hw.overwrite⟩
    cases w.heap.valueAt o n <;> trivial
  define hw hf _ _ _ := hw.bind hf
  child hw _ := ⟨.stage, le_refl _, hw.newFrame _, Or.inr hw.size_le⟩
  makeClosure hw _ _ := ⟨.stage, le_refl _, ⟨hw.size_le, hw.parent, hw.kept, hw.closed⟩, trivial⟩
  println _ hw := hw
  raise _ _ := trivial
  full _ := trivial
  leave _ := trivial
  enter n _ _ := Invariant.enter_of_forall (fun _ _ => trivial) (fun _ => trivial) _ _ n

variable {names : Interner} {i : Interpreter} {w : World}

theorem KeepsNames.invoke (callee : Value) (args : List Value) :
    KeepsNames w.heap (fun _ => False) (i.invoke names callee args w).2.2.heap := by
  have hvalue : ∀ v : Value, (namesInvariant w.heap fun _ => False).value .stage v := by
    intro v
    cases v <;> trivial
  obtain ⟨_, -, -, -, hw⟩ := (namesInvariant_lawful w.heap (fun _ => False) names).invoke
    (s := .stage) (i := i) (KeepsNames.refl w.heap _) trivial (hvalue callee) (fun u _ => hvalue u)
  exact hw

theorem KeepsNames.eval (root : ExprId) :
    KeepsNames w.heap (· = i.frame) (i.eval names root w).2.2.heap := by
  obtain ⟨_, -, -, -, hw⟩ := (namesInvariant_lawful w.heap (· = i.frame) names).eval
    (s := .stage) (KeepsNames.refl w.heap _) trivial (Or.inl rfl) trivial
  exact hw

/-- **Locals never persist.** A call leaves every frame that was there with the names that it had,
and an evaluation adds names to its own scope at most; neither removes one. So names resolve
after a call to the frames that they resolved to before, in every heap whose frames are younger
than the frames around them. -/
theorem names_kept (names : Interner) (i : Interpreter) (w : World) :
    (∀ callee args, ∀ f < w.heap.size, ∀ n,
      (i.invoke names callee args w).2.2.heap.binds f n = w.heap.binds f n) ∧
    (∀ root,
      (∀ f n, w.heap.binds f n = true → (i.eval names root w).2.2.heap.binds f n = true) ∧
      ∀ f < w.heap.size, f ≠ i.frame → ∀ n,
        (i.eval names root w).2.2.heap.binds f n = w.heap.binds f n) ∧
    (w.heap.Nested → ∀ callee args, ∀ f < w.heap.size, ∀ n,
      (i.invoke names callee args w).2.2.heap.owner? f n = w.heap.owner? f n) := by
  have hclosed : ∀ callee args, ∀ g < w.heap.size, ∀ n,
      (i.invoke names callee args w).2.2.heap.binds g n = w.heap.binds g n :=
    fun callee args g hg n => (KeepsNames.invoke callee args).closed g hg not_false n
  refine ⟨hclosed, fun root => ?_, fun hn callee args f hf n => ?_⟩
  · have hk : KeepsNames w.heap (· = i.frame) (i.eval names root w).2.2.heap := .eval root
    exact ⟨hk.kept, fun f hf hne => hk.closed f hf hne⟩
  · have hk : KeepsNames w.heap (fun _ => False) (i.invoke names callee args w).2.2.heap :=
      .invoke callee args
    exact Heap.owner?_congr hn hk.size_le hk.parent (fun g hg => hclosed callee args g hg n) hf

/-- `function () { let x = true }`, where `x` has slot 1. -/
def declaring : FunctionCode :=
  ⟨⟨#[.bool true, .letIn ⟨1⟩ 0, .block ⟨0, 1⟩], #[1], #[]⟩, ⟨none, ⟨0, 0⟩, 2⟩, none⟩

/-- A scope that binds `x`, and a scope inside it. -/
def scopes : World := ⟨((Heap.empty.root.2.bind 0 ⟨1⟩ .void).child 0).2, .silent⟩

theorem names_kept_declaring :
    ((Interpreter.new .empty 0 4).invoke .empty (.function ⟨0, declaring, 1⟩) [] scopes).2.2.heap.owner?
      1 ⟨1⟩ = some 0 := by
  have hroot : Heap.empty.root.2.Nested := Heap.Nested.empty.newFrame (by decide)
  have hn : scopes.heap.Nested :=
    ((Heap.changedAt_bind _ 0 ⟨1⟩ .void).nested hroot).newFrame (by decide)
  obtain ⟨-, -, howner⟩ := names_kept .empty (.new .empty 0 4) scopes
  rw [howner hn (.function ⟨0, declaring, 1⟩) [] 1 (by decide) ⟨1⟩]
  decide

end ClosureLang
