import ClosureLang.Ledger
import ClosureLang.Proofs.Heap.Scopes

/-!
# Frames within reach

From a frame one gets to the frame around it, and to the frames that the functions it binds have
captured. What can be got to from some roots is `Reachable`: the roots, and all that they hold,
directly or not.

A heap is `WellFormed` when each of these steps leads to a frame that exists and each function in
it has a stamp that was given out. The operations on heaps keep them so.
-/

namespace ClosureLang

/-- A function's frame and stamp are ones that the heap has given out. -/
def Value.ValidIn (h : Heap) : Value → Prop
  | .function c => c.frame < h.size ∧ c.stamp < h.stamps
  | _ => True

namespace Value.ValidIn

variable {h h' : Heap} {f : FrameId} {v : Value}

theorem lt_size (hv : v.ValidIn h) (hf : v.captured? = some f) : f < h.size := by
  cases v with
  | function c =>
    obtain rfl : c.frame = f := Option.some.inj hf
    exact hv.1
  | _ => cases hf

theorem mono (hv : v.ValidIn h) (hsize : h.size ≤ h'.size) (hstamps : h.stamps ≤ h'.stamps) :
    v.ValidIn h' := by
  cases v with
  | function c => exact ⟨Nat.lt_of_lt_of_le hv.1 hsize, Nat.lt_of_lt_of_le hv.2 hstamps⟩
  | _ => trivial

end Value.ValidIn

namespace Heap

inductive Reachable (h : Heap) (roots : FrameId → Prop) : FrameId → Prop
  | root {f} (hf : roots f) : Reachable h roots f
  | parent {f p} (hf : Reachable h roots f) (hp : h.parent? f = some p) : Reachable h roots p
  | stored {f n v g} (hf : Reachable h roots f) (hv : h.local? f n = some v)
      (hg : v.captured? = some g) : Reachable h roots g

/-- What frames in `R` bind, and what is around them, is the same. -/
structure AgreeOn (R : FrameId → Prop) (h h' : Heap) : Prop where
  parent : ∀ f, R f → h'.parent? f = h.parent? f
  bound : ∀ f, R f → ∀ n, h'.local? f n = h.local? f n

structure WellFormed (h : Heap) : Prop where
  nested : h.Nested
  valid : ∀ {f : FrameId} {n : Name} {v : Value}, h.local? f n = some v → v.ValidIn h

variable {h h' : Heap} {roots : FrameId → Prop} {f : FrameId} {v : Value}

/-! ## Heaps as the operations make them -/

namespace WellFormed

theorem empty : Heap.empty.WellFormed where
  nested := .empty
  valid hv := by
    rw [local?_eq_none_of_size_le (Nat.zero_le _)] at hv
    cases hv

theorem newFrame {q : Option FrameId} (hh : h.WellFormed) (hq : ∀ p ∈ q, p < h.size) :
    (h.newFrame q).2.WellFormed where
  nested := hh.nested.newFrame hq
  valid hv := by
    rw [local?_newFrame] at hv
    exact (hh.valid hv).mono (by rw [size_newFrame]; exact Nat.le_succ _) (Nat.le_refl _)

theorem bind (hh : h.WellFormed) (hv : v.ValidIn h) (f : FrameId) (n : Name) :
    (h.bind f n v).WellFormed where
  nested := (changedAt_bind h f n v).nested hh.nested
  valid := by
    intro g m u hu
    have hu' : u.ValidIn h := by
      rw [local?_bind] at hu
      split at hu
      · obtain ⟨_, -, rfl⟩ := Option.map_eq_some_iff.mp hu
        exact hv
      · exact hh.valid hu
    exact hu'.mono (Nat.le_of_eq (size_bind h f n v).symm) (Nat.le_refl _)

theorem overwrite (hh : h.WellFormed) (hv : v.ValidIn h) (f : FrameId) (n : Name) :
    (h.overwrite f n v).WellFormed where
  nested := (changedAt_overwrite h f n v).nested hh.nested
  valid := by
    intro g m u hu
    have hu' : u.ValidIn h := by
      rw [local?_overwrite] at hu
      split at hu
      · obtain ⟨_, -, rfl⟩ := Option.map_eq_some_iff.mp hu
        exact hv
      · exact hh.valid hu
    exact hu'.mono (Nat.le_of_eq (size_overwrite h f n v).symm) (Nat.le_refl _)

theorem makeClosure (hh : h.WellFormed) (code : FunctionCode) (f : FrameId) :
    (h.makeClosure code f).2.WellFormed where
  nested := hh.nested
  valid hv := (hh.valid hv).mono (Nat.le_refl _) (Nat.le_succ _)

end WellFormed

/-! ## Reach -/

theorem AgreeOn.refl (R : FrameId → Prop) (h : Heap) : h.AgreeOn R h :=
  ⟨fun _ _ => rfl, fun _ _ _ => rfl⟩

/-- What is within reach exists, also in a heap that only agrees on it. -/
theorem Reachable.lt_size (hh' : h'.WellFormed) (hroots : ∀ f, roots f → f < h'.size)
    (hagree : h.AgreeOn (h.Reachable roots) h') (hf : h.Reachable roots f) : f < h'.size := by
  induction hf with
  | root hf => exact hroots _ hf
  | parent hf hp ih =>
    rw [← hagree.parent _ hf] at hp
    exact Nat.lt_trans (hh'.nested _ _ hp) ih
  | stored hf hv hg _ =>
    rw [← hagree.bound _ hf] at hv
    exact (hh'.valid hv).lt_size hg

/-- What may take part in a call of one of the values with the others. -/
def ReachableBy (h : Heap) (vs : List Value) : FrameId → Prop :=
  h.Reachable fun f => ∃ v ∈ vs, v.captured? = some f

end Heap
end ClosureLang
