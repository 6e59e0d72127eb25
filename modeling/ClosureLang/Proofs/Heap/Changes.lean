import ClosureLang.Proofs.Heap.Reach
import Mathlib.Data.List.Nodup

/-!
# What happens to a heap

Whatever is done to a heap, it comes down to four changes: a frame is created, a name is bound
that the frame did not bind, one that it did bind is overwritten, or a function value is made
(`Change`).

What one change preserves is proved here once, and `Becomes` carries it through any number of
changes: that a heap is `Sound`, and that frames stay where they are and keep their names
(`Continues`).
-/

namespace ClosureLang

namespace Frame

/-- The names that a frame binds, the newest first. -/
def names (f : Frame) : List Name := f.bindings.map Prod.fst

theorem lookup?_eq_none_iff {f : Frame} {n : Name} : f.lookup? n = none ↔ n ∉ f.names := by
  simp only [lookup?, names, Option.map_eq_none_iff, List.find?_eq_none, decide_eq_true_eq,
    List.mem_map, not_exists, not_and]

theorem names_bind (f : Frame) (n : Name) (v : Value) : (f.bind n v).names = n :: f.names := rfl

theorem names_overwrite (f : Frame) (n : Name) (v : Value) :
    (f.overwrite n v).names = f.names := by
  simp only [names, overwrite, List.map_map]
  refine List.map_congr_left fun b _ => ?_
  by_cases hb : b.1 = n <;> simp [hb]

theorem mem_of_lookup? {f : Frame} {n : Name} {v : Value} (h : f.lookup? n = some v) :
    (n, v) ∈ f.bindings := by
  obtain ⟨⟨m, u⟩, hfind, rfl⟩ := Option.map_eq_some_iff.mp h
  obtain rfl : m = n := by simpa using List.find?_some hfind
  exact List.mem_of_find?_eq_some hfind

/-- Where names are distinct, what is listed under a name is what looking it up finds. -/
theorem lookup?_of_mem {f : Frame} (hd : f.names.Nodup) {n : Name} {v : Value}
    (hmem : (n, v) ∈ f.bindings) : f.lookup? n = some v := by
  cases h : f.lookup? n with
  | none => exact absurd (List.mem_map_of_mem hmem) (lookup?_eq_none_iff.mp h)
  | some u =>
    have heq : (n, u) = (n, v) := List.inj_on_of_nodup_map hd (mem_of_lookup? h) hmem rfl
    rw [(Prod.mk.inj heq).2]

end Frame

namespace Heap

variable {h h' h'' : Heap} {f g p o : FrameId} {n : Name} {v : Value}

/-! ## Depths -/

theorem depth_newFrame (q : Option FrameId) (h : Heap) (f : FrameId) :
    (h.newFrame q).2.depth f =
      if f = h.size then q.elim 0 fun p => h.depth p + 1 else h.depth f := by
  simp only [depth, frame?_newFrame]
  split <;> rfl

theorem depth_bind (h : Heap) (f : FrameId) (n : Name) (v : Value) (g : FrameId) :
    (h.bind f n v).depth g = h.depth g := by
  simp only [depth, frame?_bind]
  split
  · cases h.frame? g <;> rfl
  · rfl

theorem depth_overwrite (h : Heap) (f : FrameId) (n : Name) (v : Value) (g : FrameId) :
    (h.overwrite f n v).depth g = h.depth g := by
  simp only [depth, frame?_overwrite]
  split
  · cases h.frame? g <;> rfl
  · rfl

/-! ## Names -/

/-- Frames bind no name twice. -/
def Distinct (h : Heap) : Prop := ∀ f fr, h.frame? f = some fr → fr.names.Nodup

namespace Distinct

variable (hd : h.Distinct)
include hd

theorem newFrame (p : Option FrameId) : (h.newFrame p).2.Distinct := by
  intro g fr hfr
  rw [frame?_newFrame] at hfr
  split at hfr
  · obtain rfl := Option.some.inj hfr
    exact List.nodup_nil
  · exact hd g fr hfr

theorem bind (hb : h.binds f n = false) (v : Value) : (h.bind f n v).Distinct := by
  intro g fr hfr
  rw [frame?_bind] at hfr
  split at hfr
  · next hfg =>
    subst hfg
    obtain ⟨old, hold, rfl⟩ := Option.map_eq_some_iff.mp hfr
    have hnone : old.lookup? n = none := by simpa [binds, local?, hold] using hb
    rw [Frame.names_bind]
    exact List.nodup_cons.mpr ⟨Frame.lookup?_eq_none_iff.mp hnone, hd f old hold⟩
  · exact hd g fr hfr

theorem overwrite (f : FrameId) (n : Name) (v : Value) : (h.overwrite f n v).Distinct := by
  intro g fr hfr
  rw [frame?_overwrite] at hfr
  split at hfr
  · obtain ⟨old, hold, rfl⟩ := Option.map_eq_some_iff.mp hfr
    rw [Frame.names_overwrite]
    exact hd g old hold
  · exact hd g fr hfr

end Distinct

/-! ## Changes -/

/-- **One change.** -/
inductive Change (h : Heap) : Heap → Prop
  | newFrame (p : Option FrameId) (hp : ∀ f ∈ p, f < h.size) : Change h (h.newFrame p).2
  | bind {f : FrameId} {n : Name} {v : Value} (hf : f < h.size) (hb : h.binds f n = false)
      (hv : v.ValidIn h) : Change h (h.bind f n v)
  | overwrite {f : FrameId} {n : Name} {v : Value} (hb : h.binds f n = true) (hv : v.ValidIn h) :
      Change h (h.overwrite f n v)
  | makeClosure (code : FunctionCode) (f : FrameId) : Change h (h.makeClosure code f).2

/-- Any number of changes, one after the other. -/
abbrev Becomes : Heap → Heap → Prop := Relation.ReflTransGen Change

/-- What holds of a heap on account of how heaps are made. -/
structure Sound (h : Heap) : Prop extends h.WellFormed where
  depth_eq : ∀ f < h.size, h.depth f = (h.parent? f).elim 0 fun p => h.depth p + 1
  distinct : h.Distinct

/-- Frames of the first heap are where they were, and still bind the names that they bound. -/
structure Continues (h h' : Heap) : Prop where
  size_le : h.size ≤ h'.size
  stamps_le : h.stamps ≤ h'.stamps
  parent : ∀ f < h.size, h'.parent? f = h.parent? f
  depth : ∀ f < h.size, h'.depth f = h.depth f
  bound : ∀ f n, h.binds f n = true → h'.binds f n = true

namespace Continues

theorem refl (h : Heap) : h.Continues h :=
  ⟨Nat.le_refl _, Nat.le_refl _, fun _ _ => rfl, fun _ _ => rfl, fun _ _ hb => hb⟩

theorem trans (h₁ : h.Continues h') (h₂ : h'.Continues h'') : h.Continues h'' where
  size_le := Nat.le_trans h₁.size_le h₂.size_le
  stamps_le := Nat.le_trans h₁.stamps_le h₂.stamps_le
  parent f hf := (h₂.parent f (Nat.lt_of_lt_of_le hf h₁.size_le)).trans (h₁.parent f hf)
  depth f hf := (h₂.depth f (Nat.lt_of_lt_of_le hf h₁.size_le)).trans (h₁.depth f hf)
  bound f n hb := h₂.bound f n (h₁.bound f n hb)

/-- A value of a heap is one of every later heap. -/
theorem validIn (h₁ : h.Continues h') (hv : v.ValidIn h) : v.ValidIn h' :=
  hv.mono h₁.size_le h₁.stamps_le

end Continues

theorem Sound.empty : Heap.empty.Sound where
  toWellFormed := .empty
  depth_eq f hf := absurd hf (Nat.not_lt_zero f)
  distinct f fr hfr := by simp [frame?, Heap.empty] at hfr

/-! ## What one change preserves -/

namespace Change

theorem continues (hc : Change h h') : h.Continues h' := by
  cases hc with
  | newFrame p hp =>
    have hne : ∀ f, f < h.size → f ≠ h.size := fun f hf => Nat.ne_of_lt hf
    exact ⟨by rw [size_newFrame]; exact Nat.le_succ _, Nat.le_refl _,
      fun f hf => by rw [parent?_newFrame, if_neg (hne f hf)],
      fun f hf => by rw [depth_newFrame, if_neg (hne f hf)],
      fun f n hb => by rw [binds_newFrame]; exact hb⟩
  | bind hf hb hv =>
    exact ⟨Nat.le_of_eq (size_bind ..).symm, Nat.le_refl _, fun _ _ => parent?_bind ..,
      fun _ _ => depth_bind .., fun _ _ hb => binds_bind_of_binds hb ..⟩
  | overwrite hb hv =>
    exact ⟨Nat.le_of_eq (size_overwrite ..).symm, Nat.le_refl _, fun _ _ => parent?_overwrite ..,
      fun _ _ => depth_overwrite .., fun f n hb => by rw [binds_overwrite]; exact hb⟩
  | makeClosure code f =>
    exact ⟨Nat.le_refl _, Nat.le_succ _, fun _ _ => rfl, fun _ _ => rfl, fun _ _ hb => hb⟩

theorem sound (hc : Change h h') (hh : h.Sound) : h'.Sound := by
  cases hc with
  | newFrame p hp =>
    refine ⟨hh.toWellFormed.newFrame hp, fun f hf => ?_, hh.distinct.newFrame p⟩
    have hold : ∀ g, g < h.size → (h.newFrame p).2.depth g = h.depth g :=
      fun g hg => (continues (.newFrame p hp)).depth g hg
    rw [depth_newFrame, parent?_newFrame]
    rw [size_newFrame] at hf
    split
    · cases p with
      | none => rfl
      | some q => exact congrArg (· + 1) (hold q (hp q rfl)).symm
    · next hne =>
      have hlt : f < h.size := Nat.lt_of_le_of_ne (Nat.le_of_lt_succ hf) hne
      rw [hh.depth_eq f hlt]
      cases hq : h.parent? f with
      | none => rfl
      | some q => exact congrArg (· + 1) (hold q (Nat.lt_trans (hh.nested f q hq) hlt)).symm
  | @bind f n v hf hb hv =>
    refine ⟨hh.toWellFormed.bind hv f n, fun g hg => ?_, hh.distinct.bind hb v⟩
    rw [size_bind] at hg
    simp only [depth_bind, parent?_bind]
    exact hh.depth_eq g hg
  | @overwrite f n v hb hv =>
    refine ⟨hh.toWellFormed.overwrite hv f n, fun g hg => ?_, hh.distinct.overwrite f n v⟩
    rw [size_overwrite] at hg
    simp only [depth_overwrite, parent?_overwrite]
    exact hh.depth_eq g hg
  | makeClosure code f =>
    exact ⟨hh.toWellFormed.makeClosure code f, hh.depth_eq, hh.distinct⟩

end Change

/-! ## What any number of changes preserve -/

namespace Becomes

theorem continues (hb : h.Becomes h') : h.Continues h' := by
  induction hb with
  | refl => exact .refl h
  | tail _ hc ih => exact ih.trans hc.continues

theorem sound (hb : h.Becomes h') (hh : h.Sound) : h'.Sound := by
  induction hb with
  | refl => exact hh
  | tail _ hc ih => exact hc.sound ih

end Becomes

/-- What a frame holds: the frame around it, and what the functions that it binds captured. -/
theorem Sound.mem_links_iff (hs : h.Sound) : g ∈ h.links f ↔
    h.parent? f = some g ∨ ∃ n v, h.local? f n = some v ∧ v.captured? = some g := by
  simp only [links, parent?, local?]
  cases hf : h.frame? f with
  | none => simp
  | some fr =>
    simp only [Option.elim, Frame.links, List.mem_append, Option.mem_toList, List.mem_filterMap,
      Option.bind_eq_bind, Option.bind_some]
    refine or_congr_right ⟨?_, ?_⟩
    · rintro ⟨⟨n, v⟩, hmem, hv⟩
      exact ⟨n, v, Frame.lookup?_of_mem (hs.distinct f fr hf) hmem, hv⟩
    · rintro ⟨n, v, hn, hv⟩
      exact ⟨(n, v), Frame.mem_of_lookup? hn, hv⟩

/-! ## The operations on variables -/

namespace Becomes

/-- The owner of a name is overwritten. -/
theorem owned (ho : h.owner? f n = some o) (hv : v.ValidIn h) : h.Becomes (h.overwrite o n v) :=
  .single (.overwrite (binds_of_local? (local?_of_owner? ho)) hv)

theorem define (hf : f < h.size) (hv : v.ValidIn h) : h.Becomes (Heap.define f n v h).2 := by
  unfold Heap.define
  split
  · exact .refl
  · next hb => exact .single (.bind hf (by simpa using hb) hv)

theorem set (hv : v.ValidIn h) : h.Becomes (Heap.set f n v h).2 := by
  unfold Heap.set
  split
  · next ho => exact owned ho hv
  · exact .refl

theorem update {ε : Type} {change : Value → Except ε Value} (hw : h.WellFormed)
    (hchange : ∀ u v, u.ValidIn h → change u = .ok v → v.ValidIn h) :
    h.Becomes (Heap.update f n change h).2 := by
  unfold Heap.update
  split
  · exact .refl
  · next g ho =>
    split
    · exact .refl
    · next v hv => exact owned ho (hchange _ v (hw.valid (local?_of_owner? ho)) hv)

end Becomes

/-- What a variable holds is a value of the heap. -/
theorem WellFormed.get (hw : h.WellFormed) (hv : h.get f n = .ok v) : v.ValidIn h := by
  unfold Heap.get at hv
  split at hv
  · next o ho =>
    cases hv
    exact hw.valid (local?_of_owner? ho)
  · cases hv

end Heap

/-- A value that is no function belongs to every heap. -/
theorem Value.ValidIn.of_captured? {h : Heap} {v : Value} (hv : v.captured? = none) :
    v.ValidIn h := by
  cases v with
  | function c => cases hv
  | _ => trivial

end ClosureLang
