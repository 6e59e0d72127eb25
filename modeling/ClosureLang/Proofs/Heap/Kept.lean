import ClosureLang.Proofs.Eval.Invariant
import ClosureLang.Proofs.Heap.Reach
import Mathlib.Order.Nat

/-!
# Heaps stay well formed

At every moment of an evaluation the heap is well formed, and the scopes and values at hand are ones
that the heap has given out, if they were so at first.
-/

namespace ClosureLang

/-- Well-formed heaps by the numbers of frames and of function values made. -/
def validInvariant : Invariant (Nat × Nat) where
  world s w := w.heap.WellFormed ∧ w.heap.size = s.1 ∧ w.heap.stamps = s.2
  closure s c := c.frame < s.1 ∧ c.stamp < s.2
  captured s f := f < s.1
  scope s f := f < s.1
  code _ := True
  expr _ := True
  calls _ _ := True
  error _ _ := True
  fault _ := True

theorem validInvariant_value_iff {h : Heap} {v : Value} :
    validInvariant.value (h.size, h.stamps) v ↔ v.ValidIn h := by
  cases v <;> exact Iff.rfl

theorem validInvariant_lawful (names : Interner) : validInvariant.Lawful names where
  closure_mono hst h := ⟨Nat.lt_of_lt_of_le h.1 hst.1, Nat.lt_of_lt_of_le h.2 hst.2⟩
  scope_mono hst h := Nat.lt_of_lt_of_le h hst.1
  closure_code _ := trivial
  noParams _ _ := trivial
  body _ := trivial
  closure_captured h := h.1
  scope_captured h := h
  expr_step _ := Invariant.descend_of_forall (fun _ => trivial) (fun _ => trivial)
    (fun _ => trivial) names _
  resolve := by
    rintro ⟨_, _⟩ w f n o ⟨hw, rfl, rfl⟩ _ ho
    refine ⟨validInvariant_value_iff.mpr (hw.valid (Heap.local?_of_owner? ho)), fun v hv => ?_⟩
    exact ⟨hw.overwrite (validInvariant_value_iff.mp hv) o n, Heap.size_overwrite .., rfl⟩
  define := by
    rintro ⟨_, _⟩ w f n ⟨hw, rfl, rfl⟩ _ _ v hv
    exact ⟨hw.bind (validInvariant_value_iff.mp hv) f n, Heap.size_bind .., rfl⟩
  child := by
    rintro ⟨_, _⟩ w f ⟨hw, rfl, rfl⟩ hf
    refine ⟨(w.heap.size + 1, w.heap.stamps), ⟨Nat.le_succ _, Nat.le_refl _⟩,
      ⟨hw.newFrame fun p hp => ?_, Heap.size_newFrame .., rfl⟩, Nat.lt_succ_self _⟩
    obtain rfl : f = p := Option.some.inj hp
    exact hf
  makeClosure := by
    rintro ⟨_, _⟩ w f c ⟨hw, rfl, rfl⟩ hf _
    exact ⟨(w.heap.size, w.heap.stamps + 1), ⟨Nat.le_refl _, Nat.le_succ _⟩,
      ⟨hw.makeClosure c f, rfl, rfl⟩, hf, Nat.lt_succ_self _⟩
  println _ hw := hw
  raise _ _ := trivial
  full _ := trivial
  leave _ := trivial
  enter n _ _ := Invariant.enter_of_forall (fun _ _ => trivial) (fun _ => trivial) _ _ n

end ClosureLang
