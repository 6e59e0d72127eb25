import ClosureLang.Heap
import Mathlib.Data.List.Find
import Mathlib.Data.List.Perm.Subperm
import Mathlib.Logic.Relation
import Mathlib.Order.WellFounded

/-!
# What a frame operation does to every frame

A heap is read through two views: `parent?`, the frame around a frame, and `local?`, what a frame
itself binds to a name. This file says once, for each operation that changes a heap, what both
views show afterwards. No later proof opens a frame or an array.

The second half is about resolving names. A walk outwards is bounded by the number of frames, and
the bound is never felt in a heap in which every walk comes to an end (`Grounded`), as it does
where each frame is younger than the frame around it (`Nested`): there a name resolves in the
frame itself or else as in the frame around it (`owner?_eq`).
-/

namespace ClosureLang
namespace Heap

variable {h h' : Heap} {f g p : FrameId} {n m : Name} {v : Value}

/-! ## Sizes -/

theorem size_bind (h : Heap) (f : FrameId) (n : Name) (v : Value) :
    (h.bind f n v).size = h.size := by
  simp [bind, size]

theorem size_overwrite (h : Heap) (f : FrameId) (n : Name) (v : Value) :
    (h.overwrite f n v).size = h.size := by
  simp [overwrite, size]

theorem frame?_isSome_iff : (h.frame? f).isSome ↔ f < h.size := by
  simp [frame?, size]

theorem local?_eq_none_of_size_le (hf : h.size ≤ f) (n : Name) : h.local? f n = none := by
  simp [local?, frame?, Array.getElem?_eq_none hf]

/-- What is bound somewhere is bound in a frame that exists. -/
theorem lt_size_of_local? (hv : h.local? f n = some v) : f < h.size := by
  apply Nat.lt_of_not_le
  intro hf
  rw [local?_eq_none_of_size_le hf] at hv
  cases hv

theorem valueAt_of_local? (hv : h.local? f n = some v) : h.valueAt f n = v := by
  simp [valueAt, hv]

theorem binds_of_local? (hv : h.local? f n = some v) : h.binds f n = true := by
  simp [binds, hv]

/-! ## The frame around a frame -/

theorem parent?_newFrame (q : Option FrameId) (h : Heap) (f : FrameId) :
    (h.newFrame q).2.parent? f = if f = h.size then q else h.parent? f := by
  simp only [parent?, frame?_newFrame]
  split <;> simp

theorem parent?_bind (h : Heap) (f : FrameId) (n : Name) (v : Value) (g : FrameId) :
    (h.bind f n v).parent? g = h.parent? g := by
  simp only [parent?, frame?_bind]
  split
  · cases h.frame? g <;> rfl
  · rfl

theorem parent?_overwrite (h : Heap) (f : FrameId) (n : Name) (v : Value) (g : FrameId) :
    (h.overwrite f n v).parent? g = h.parent? g := by
  simp only [parent?, frame?_overwrite]
  split
  · cases h.frame? g <;> rfl
  · rfl

theorem parent?_eq_none_of_size_le (hf : h.size ≤ f) : h.parent? f = none := by
  simp [parent?, frame?, Array.getElem?_eq_none hf]

/-! ## What a frame binds -/

/-- A new frame binds nothing, and neither did its number before. -/
theorem local?_newFrame (q : Option FrameId) (h : Heap) (f : FrameId) (n : Name) :
    (h.newFrame q).2.local? f n = h.local? f n := by
  simp only [local?, frame?_newFrame]
  split
  · next hf =>
    subst hf
    simp [frame?, size, Frame.lookup?]
  · rfl

theorem local?_bind (h : Heap) (f : FrameId) (n : Name) (v : Value) (g : FrameId) (m : Name) :
    (h.bind f n v).local? g m =
      if f = g ∧ m = n then (h.frame? g).map fun _ => v else h.local? g m := by
  simp only [local?, frame?_bind]
  by_cases hf : f = g
  · cases hg : h.frame? g <;> by_cases hm : m = n <;> simp [hf, hm, Frame.lookup?_bind]
  · simp [hf]

/-- A frame that exists binds what was bound in it last. -/
theorem local?_bind_of_lt (hf : f < h.size) (n : Name) (v : Value) (g : FrameId) (m : Name) :
    (h.bind f n v).local? g m = if f = g ∧ m = n then some v else h.local? g m := by
  rw [local?_bind]
  split
  · next hc =>
    obtain ⟨fr, hfr⟩ := Option.isSome_iff_exists.mp (frame?_isSome_iff.mpr hf)
    rw [← hc.1, hfr]
    rfl
  · rfl

theorem local?_overwrite (h : Heap) (f : FrameId) (n : Name) (v : Value) (g : FrameId) (m : Name) :
    (h.overwrite f n v).local? g m =
      if f = g ∧ m = n then (h.local? g m).map fun _ => v else h.local? g m := by
  simp only [local?, frame?_overwrite]
  by_cases hf : f = g
  · cases hg : h.frame? g <;> by_cases hm : m = n <;> simp [hf, hm, Frame.lookup?_overwrite]
  · simp [hf]

theorem local?_makeClosure (c : FunctionCode) (f : FrameId) (h : Heap) (g : FrameId) (n : Name) :
    (h.makeClosure c f).2.local? g n = h.local? g n := rfl

/-- Overwriting changes what a name holds and not which names there are. -/
theorem binds_overwrite (h : Heap) (f : FrameId) (n : Name) (v : Value) (g : FrameId) (m : Name) :
    (h.overwrite f n v).binds g m = h.binds g m := by
  simp only [binds, local?_overwrite]
  split <;> simp

theorem binds_newFrame (q : Option FrameId) (h : Heap) (f : FrameId) (n : Name) :
    (h.newFrame q).2.binds f n = h.binds f n := by
  rw [binds, local?_newFrame, binds]

theorem binds_bind_of_ne (hfg : f ≠ g) (n : Name) (v : Value) (m : Name) :
    (h.bind f n v).binds g m = h.binds g m := by
  simp [binds, local?_bind, hfg]

theorem binds_bind_of_binds (hb : h.binds g m = true) (f : FrameId) (n : Name) (v : Value) :
    (h.bind f n v).binds g m = true := by
  obtain ⟨u, hu⟩ := Option.isSome_iff_exists.mp hb
  obtain ⟨fr, hfr⟩ := Option.isSome_iff_exists.mp (frame?_isSome_iff.mpr (lt_size_of_local? hu))
  rw [binds, local?_bind, hfr, hu]
  split <;> rfl

/-! ## A new frame with one name -/

/-- One more frame, inside `f`, in which `n` is `v`. -/
def childWith (h : Heap) (f : FrameId) (n : Name) (v : Value) : Heap :=
  (h.child f).2.bind h.size n v

theorem size_childWith (h : Heap) (f : FrameId) (n : Name) (v : Value) :
    (h.childWith f n v).size = h.size + 1 := by
  rw [childWith, size_bind, child, size_newFrame]

theorem parent?_childWith (h : Heap) (f : FrameId) (n : Name) (v : Value) :
    (h.childWith f n v).parent? h.size = some f := by
  rw [childWith, parent?_bind, child, parent?_newFrame, if_pos rfl]

theorem local?_childWith (h : Heap) (f : FrameId) (n : Name) (v : Value) (g : FrameId) (m : Name) :
    (h.childWith f n v).local? g m = if h.size = g ∧ m = n then some v else h.local? g m := by
  have hlt : h.size < (h.child f).2.size := by
    rw [child, size_newFrame]
    exact Nat.lt_succ_self _
  rw [childWith, local?_bind_of_lt hlt, child, local?_newFrame]

theorem local?_childWith_of_lt (f : FrameId) (n : Name) (v : Value) (hg : g < h.size) (m : Name) :
    (h.childWith f n v).local? g m = h.local? g m := by
  rw [local?_childWith, if_neg fun hgm => Nat.ne_of_gt hg hgm.1]

/-! ## Changes to one frame -/

/-- Only what `f` binds differs. -/
structure ChangedAt (h : Heap) (f : FrameId) (h' : Heap) : Prop where
  size : h'.size = h.size
  stamps : h'.stamps = h.stamps
  parent : ∀ g, h'.parent? g = h.parent? g
  other : ∀ g, f ≠ g → h'.frame? g = h.frame? g

theorem changedAt_bind (h : Heap) (f : FrameId) (n : Name) (v : Value) :
    h.ChangedAt f (h.bind f n v) where
  size := size_bind h f n v
  stamps := rfl
  parent := parent?_bind h f n v
  other g hg := by rw [frame?_bind, if_neg hg]

theorem changedAt_overwrite (h : Heap) (f : FrameId) (n : Name) (v : Value) :
    h.ChangedAt f (h.overwrite f n v) where
  size := size_overwrite h f n v
  stamps := rfl
  parent := parent?_overwrite h f n v
  other g hg := by rw [frame?_overwrite, if_neg hg]

/-! ## Frames inside older frames -/

/-- Each frame is younger than the frame around it. -/
def Nested (h : Heap) : Prop := ∀ f p : Nat, h.parent? f = some p → p < f

theorem ChangedAt.nested (hc : h.ChangedAt f h') (hn : h.Nested) : h'.Nested :=
  fun g p hp => hn g p (by rwa [hc.parent] at hp)

theorem Nested.empty : Heap.empty.Nested := by
  intro f p hp
  rw [parent?_eq_none_of_size_le (Nat.zero_le f)] at hp
  cases hp

theorem Nested.newFrame {q : Option FrameId} (hn : h.Nested) (hq : ∀ p ∈ q, p < h.size) :
    (h.newFrame q).2.Nested := by
  intro g p hp
  rw [parent?_newFrame] at hp
  split at hp
  · next hg =>
    rw [hg]
    exact hq p hp
  · exact hn g p hp

/-! ## Walks outwards -/

/-- Every walk outwards comes to an end. -/
def Grounded (h : Heap) : Prop := WellFounded fun p f => h.parent? f = some p

theorem Nested.grounded (hn : h.Nested) : h.Grounded :=
  Subrelation.wf (fun {p f} hp => hn f p hp) Nat.lt_wfRel.wf

/-- The frames that a walk from `f` gets to. -/
def Around (h : Heap) : FrameId → FrameId → Prop :=
  Relation.ReflTransGen fun f p => h.parent? f = some p

/-- A walk that goes on meets a frame that exists, and then walks on from the one around it. -/
theorem mem_chainUpTo_succ {k : Nat} : g ∈ h.chainUpTo (k + 1) f ↔
    f < h.size ∧ (g = f ∨ ∃ p, h.parent? f = some p ∧ g ∈ h.chainUpTo k p) := by
  rw [← frame?_isSome_iff, chainUpTo, parent?]
  cases hf : h.frame? f with
  | none => simp
  | some fr => cases hp : fr.parent <;> simp [hp]

theorem lt_size_of_mem_chainUpTo {k : Nat} (hg : g ∈ h.chainUpTo k f) : g < h.size := by
  induction k generalizing f with
  | zero => cases hg
  | succ k ih =>
    obtain ⟨hf, rfl | ⟨p, -, hg⟩⟩ := mem_chainUpTo_succ.mp hg
    · exact hf
    · exact ih hg

theorem around_of_mem_chainUpTo {k : Nat} (hg : g ∈ h.chainUpTo k f) : h.Around f g := by
  induction k generalizing f with
  | zero => cases hg
  | succ k ih =>
    obtain ⟨-, rfl | ⟨p, hp, hg⟩⟩ := mem_chainUpTo_succ.mp hg
    · exact .refl
    · exact .head hp (ih hg)

/-- No frame is around itself. -/
theorem Grounded.ne_of_around (hw : h.Grounded) (hp : h.parent? f = some p) (hg : h.Around p g) :
    g ≠ f := by
  rintro rfl
  have hloop : Relation.TransGen (fun f p => h.parent? f = some p) g g := .head' hp hg
  exact hw.transGen.irrefl.irrefl g (Relation.transGen_swap.mp hloop)

theorem nodup_chainUpTo (hw : h.Grounded) (k : Nat) (f : FrameId) : (h.chainUpTo k f).Nodup := by
  induction k generalizing f with
  | zero => exact .nil
  | succ k ih =>
    rw [chainUpTo]
    cases hf : h.frame? f with
    | none => exact .nil
    | some fr =>
      cases hp : fr.parent with
      | none => simp [hp]
      | some p =>
        have hpf : h.parent? f = some p := by simp [parent?, hf, hp]
        simp only [hp, Option.elim, List.nodup_cons]
        exact ⟨fun hmem => hw.ne_of_around hpf (around_of_mem_chainUpTo hmem) rfl, ih p⟩

/-- A walk meets no more frames than there are. -/
theorem length_chainUpTo_le (hw : h.Grounded) (k : Nat) (f : FrameId) :
    (h.chainUpTo k f).length ≤ h.size := by
  have hsub : h.chainUpTo k f ⊆ List.range h.size :=
    fun g hg => List.mem_range.mpr (lt_size_of_mem_chainUpTo hg)
  simpa using ((nodup_chainUpTo hw k f).subperm hsub).length_le

theorem take_chainUpTo (h : Heap) (k : Nat) (f : FrameId) :
    (h.chainUpTo (k + 1) f).take k = h.chainUpTo k f := by
  induction k generalizing f with
  | zero => rfl
  | succ k ih =>
    rw [chainUpTo, chainUpTo]
    cases h.frame? f with
    | none => rfl
    | some fr =>
      cases hp : fr.parent with
      | none => simp [hp]
      | some p => simp [hp, ih]

/-- The bound on a walk is never felt. -/
theorem chainUpTo_of_size_le (hw : h.Grounded) (f : FrameId) {k : Nat} (hk : h.size ≤ k) :
    h.chainUpTo k f = h.chain f := by
  induction k, hk using Nat.le_induction with
  | base => rfl
  | succ k hk ih =>
    have hlen : (h.chainUpTo (k + 1) f).length ≤ k := Nat.le_trans (length_chainUpTo_le hw _ f) hk
    rw [← ih, ← take_chainUpTo h k f, List.take_of_length_le hlen]

theorem chain_eq (hw : h.Grounded) (f : FrameId) :
    h.chain f = (h.frame? f).elim [] fun fr => f :: fr.parent.elim [] h.chain := by
  rw [← chainUpTo_of_size_le hw f (Nat.le_succ h.size), chainUpTo]
  cases h.frame? f <;> rfl

theorem chain_of_parent? (hw : h.Grounded) (hp : h.parent? f = some p) :
    h.chain f = f :: h.chain p := by
  rw [chain_eq hw]
  cases hf : h.frame? f with
  | none => simp [parent?, hf] at hp
  | some fr =>
    have hpar : fr.parent = some p := by simpa [parent?, hf] using hp
    simp [hpar]

/-- Frames created later are not met in a walk from an older one. -/
theorem chain_congr (hn : h.Nested) (hsize : h.size ≤ h'.size)
    (hparent : ∀ g, g < h.size → h'.parent? g = h.parent? g) (hf : f < h.size) :
    h'.chain f = h.chain f := by
  have hwalk : ∀ (k f : Nat), f < h.size → h'.chainUpTo k f = h.chainUpTo k f := by
    intro k
    induction k with
    | zero => exact fun _ _ => rfl
    | succ k ih =>
      intro f hf
      obtain ⟨fr', hfr'⟩ := Option.isSome_iff_exists.mp
        (frame?_isSome_iff.mpr (Nat.lt_of_lt_of_le hf hsize))
      obtain ⟨fr, hfr⟩ := Option.isSome_iff_exists.mp (frame?_isSome_iff.mpr hf)
      have hp : fr'.parent = fr.parent := by
        simpa [parent?, hfr, hfr'] using hparent f hf
      simp only [chainUpTo, hfr, hfr', hp]
      cases hpar : fr.parent with
      | none => rfl
      | some p =>
        have hpf : p < f := hn f p (by simp [parent?, hfr, hpar])
        simp only [Option.elim, ih p (Nat.lt_trans hpf hf)]
  rw [chain, hwalk h'.size f hf, chainUpTo_of_size_le hn.grounded f hsize]

/-! ## Resolving names -/

/-- **A name resolves in the frame itself or else as in the frame around it.** -/
theorem owner?_eq (hw : h.Grounded) (f : FrameId) (n : Name) :
    h.owner? f n = if h.binds f n then some f else h.parent? f >>= fun p => h.owner? p n := by
  simp only [owner?, chain_eq hw f, parent?]
  cases hf : h.frame? f with
  | none => simp [binds, local?, hf]
  | some fr =>
    cases hp : fr.parent with
    | none => by_cases hb : h.binds f n <;> simp [hb, hp]
    | some p => by_cases hb : h.binds f n <;> simp [hb, hp]

/-- A name resolves alike in two heaps that agree on the frames up to some number. -/
theorem owner?_congr (hn : h.Nested) (hsize : h.size ≤ h'.size)
    (hparent : ∀ g, g < h.size → h'.parent? g = h.parent? g)
    (hbinds : ∀ g, g < h.size → h'.binds g n = h.binds g n) (hf : f < h.size) :
    h'.owner? f n = h.owner? f n := by
  rw [owner?, owner?, chain_congr hn hsize hparent hf]
  exact List.find?_congr fun g hg => hbinds g (lt_size_of_mem_chainUpTo hg)

/-- A frame that binds a name owns it, in any heap. -/
theorem owner?_of_local? (hv : h.local? f n = some v) : h.owner? f n = some f := by
  have hf := lt_size_of_local? hv
  obtain ⟨fr, hfr⟩ := Option.isSome_iff_exists.mp (frame?_isSome_iff.mpr hf)
  obtain ⟨k, hk⟩ := Nat.exists_eq_succ_of_ne_zero (Nat.ne_zero_of_lt hf)
  simp [owner?, chain, hk, chainUpTo, hfr, binds_of_local? hv]

/-- A name that a frame does not bind and the one around it does resolves to that, in any heap. -/
theorem owner?_of_parent? (hb : h.binds f n = false) (hp : h.parent? f = some p)
    (hv : h.local? p n = some v) (hf : f ≠ 0) : h.owner? f n = some p := by
  obtain ⟨fr, hfr⟩ := Option.isSome_iff_exists.mp (frame?_isSome_iff.mpr (lt_size_of_local? hv))
  cases hk : h.frame? f with
  | none => simp [parent?, hk] at hp
  | some fk =>
    have hpar : fk.parent = some p := by simpa [parent?, hk] using hp
    have hlt : f < h.size := frame?_isSome_iff.mp (by simp [hk])
    obtain ⟨k, hsize⟩ := Nat.exists_eq_add_of_le' (Nat.lt_of_le_of_lt (Nat.pos_of_ne_zero hf) hlt)
    simp [owner?, chain, hsize, chainUpTo, hk, hpar, hfr, hb, binds_of_local? hv]

/-- An owner binds the name that it owns. -/
theorem local?_of_owner? (ho : h.owner? f n = some g) : h.local? g n = some (h.valueAt g n) := by
  have hb : h.binds g n = true := by simpa using List.find?_some ho
  obtain ⟨v, hv⟩ := Option.isSome_iff_exists.mp hb
  simp [valueAt, hv]

end Heap
end ClosureLang
