import ClosureLang.Ledger
import Mathlib.Data.List.Perm.Basic
import Mathlib.Data.List.Range

/-!
# Ledgers stay exact

A ledger knows numbers and no holders. `Exact` says that the numbers are right: given the handles
`held` from outside of the heap, it notes down for each living frame how often that frame occurs
among these and among the links of living frames, and none of these handles is to a dead frame.

Copying a handle keeps this up with one more handle held, and letting go of one with one fewer
(`LetGo`), whatever dies of it. The levels that `drop` may descend do not run out, as a frame has
died at each level before.
-/

namespace ClosureLang.Ledger

variable {h : Heap} {held : List FrameId} {l l' : Ledger} {f g : FrameId} {fs : List FrameId}
  {alive : Array Bool}

/-! ## The living frames -/

theorem lt_of_isAlive (hf : l.isAlive f = true) : f < l.alive.size := by
  refine Nat.lt_of_not_le fun hle => ?_
  simp [isAlive, Array.getElem?_eq_none hle] at hf

/-- The living frames, the oldest first. -/
def living (alive : Array Bool) : List FrameId :=
  (List.range alive.size).filter fun f => alive[f]? == some true

theorem mem_living : f ∈ living alive ↔ alive[f]? = some true := by
  simp only [living, List.mem_filter, List.mem_range, beq_iff_eq, and_iff_right_iff_imp]
  intro hf
  exact (Array.getElem?_eq_some_iff.mp hf).1

theorem mem_living_iff : f ∈ living l.alive ↔ l.isAlive f = true := by
  rw [mem_living, isAlive, beq_iff_eq]

theorem nodup_living (alive : Array Bool) : (living alive).Nodup := List.nodup_range.filter _

theorem living_push (alive : Array Bool) :
    living (alive.push true) = living alive ++ [alive.size] := by
  simp only [living, Array.size_push, List.range_succ, List.filter_append]
  congr 1
  · refine List.filter_congr fun g hg => ?_
    rw [Array.getElem?_push, if_neg (Nat.ne_of_lt (List.mem_range.mp hg))]
  · simp

theorem living_setIfInBounds (alive : Array Bool) (f : FrameId) :
    living (alive.setIfInBounds f false) = (living alive).erase f := by
  rw [(nodup_living alive).erase_eq_filter, living, living, List.filter_filter,
    Array.size_setIfInBounds]
  refine List.filter_congr fun g hg => ?_
  by_cases hfg : g = f
  · subst hfg
    simp [List.mem_range.mp hg]
  · simp [Array.getElem?_setIfInBounds_ne (Ne.symm hfg), hfg]

theorem length_living_le (hl : ∀ f, l'.isAlive f = true → l.isAlive f = true) :
    (living l'.alive).length ≤ (living l.alive).length :=
  (List.subperm_of_subset (nodup_living l'.alive) fun _ hf =>
    mem_living_iff.mpr (hl _ (mem_living_iff.mp hf))).length_le

/-! ## Handles -/

/-- All handles: those held from outside, and the links of each living frame. -/
def handles (h : Heap) (held : List FrameId) (alive : Array Bool) : List FrameId :=
  held ++ (living alive).flatMap h.links

theorem mem_handles : f ∈ handles h held alive ↔
    f ∈ held ∨ ∃ g, alive[g]? = some true ∧ f ∈ h.links g := by
  simp only [handles, List.mem_append, List.mem_flatMap, mem_living]

/-- The links of a living frame among the handles. -/
theorem handles_perm (h : Heap) (held : List FrameId) (hf : l.isAlive f = true) :
    (handles h held l.alive).Perm (h.links f ++ handles h held (l.bury f).alive) := by
  have hliving : (living l.alive).Perm (f :: living (l.bury f).alive) := by
    rw [bury, living_setIfInBounds]
    exact List.perm_cons_erase (mem_living_iff.mpr hf)
  exact ((hliving.flatMap_right h.links).append_left held).trans (List.perm_append_comm_assoc ..)

/-! ## Exact ledgers -/

/-- The numbers noted down for living frames are right, and no handle is to a dead frame. -/
structure Exact (h : Heap) (held : List FrameId) (l : Ledger) : Prop where
  size : l.counts.size = l.alive.size
  count : ∀ f, l.isAlive f = true → l.count f = (handles h held l.alive).count f
  alive : ∀ f ∈ handles h held l.alive, l.isAlive f = true

/-- No frame is left that nobody holds. -/
def Settled (l : Ledger) : Prop := ∀ f, l.isAlive f = true → 0 < l.count f

theorem exact_empty (h : Heap) : empty.Exact h [] where
  size := rfl
  count f hf := absurd (lt_of_isAlive hf) (Nat.not_lt_zero f)
  alive _ hf := absurd hf List.not_mem_nil

theorem settled_empty : empty.Settled := fun f hf => absurd (lt_of_isAlive hf) (Nat.not_lt_zero f)

theorem isAlive_enroll : l.enroll.isAlive f = true ↔ f = l.alive.size ∨ l.isAlive f = true := by
  simp only [isAlive, enroll, Array.getElem?_push]
  split <;> simp [*]

theorem count_enroll (l : Ledger) (f : FrameId) :
    l.enroll.count f = if f = l.counts.size then 1 else l.count f := by
  rw [count, enroll, Array.getElem?_push]
  split <;> rfl

theorem isAlive_bury : (l.bury f).isAlive g = true ↔ g ≠ f ∧ l.isAlive g = true := by
  simp only [isAlive, bury, Array.getElem?_setIfInBounds]
  by_cases hg : f = g
  · simp [hg]
  · simp [hg, Ne.symm hg]

theorem count_lessen (l : Ledger) (f g : FrameId) :
    (l.lessen f).count g = l.count g - if f = g then 1 else 0 := by
  simp only [count, lessen, Array.getElem?_modify]
  split
  · cases l.counts[g]? <;> simp
  · simp

theorem size_retain (fs : List FrameId) (l : Ledger) :
    (l.retain fs).counts.size = l.counts.size := by
  simp only [retain]
  induction fs generalizing l with
  | nil => rfl
  | cons f fs ih => simpa using ih ⟨l.alive, l.counts.modify f (· + 1)⟩

theorem count_retain (hf : f < l.counts.size) (fs : List FrameId) :
    (l.retain fs).count f = l.count f + fs.count f := by
  induction fs generalizing l with
  | nil => rfl
  | cons g gs ih =>
    have hstep : (l.retain (g :: gs)).count f =
        (retain gs ⟨l.alive, l.counts.modify g (· + 1)⟩).count f := rfl
    rw [hstep, ih (by simpa using hf), List.count_cons]
    simp only [count, Array.getElem?_modify, Array.getElem?_eq_getElem hf]
    by_cases hg : g = f <;> simp [hg]
    omega

namespace Exact

theorem perm {held' : List FrameId} (hx : l.Exact h held) (hp : held.Perm held') :
    l.Exact h held' := by
  have hp' : (handles h held l.alive).Perm (handles h held' l.alive) := hp.append_right _
  exact ⟨hx.size, fun f hf => (hx.count f hf).trans (hp'.count_eq f),
    fun f hf => hx.alive f (hp'.mem_iff.mpr hf)⟩

theorem isAlive_of_mem (hx : l.Exact h held) (hf : f ∈ held) : l.isAlive f = true :=
  hx.alive f (mem_handles.mpr (.inl hf))

theorem isAlive_of_link (hx : l.Exact h held) (hf : l.isAlive f = true) (hg : g ∈ h.links f) :
    l.isAlive g = true :=
  hx.alive g (mem_handles.mpr (.inr ⟨f, beq_iff_eq.mp hf, hg⟩))

/-- A frame has a living holder as long as its number is positive. -/
theorem count_pos (hx : l.Exact h held) (hf : l.isAlive f = true) :
    0 < l.count f ↔ f ∈ handles h held l.alive := by
  rw [hx.count f hf, List.count_pos_iff]

/-- Links of a living frame are exchanged for handles held from outside. -/
theorem relink {h' : Heap} {a b : List FrameId} (hx : l.Exact h (a ++ held))
    (hf : l.isAlive f = true) (hlinks : (a ++ h.links f).Perm (b ++ h'.links f))
    (hrest : ∀ g, g ≠ f → h'.links g = h.links g) : l.Exact h' (b ++ held) := by
  have hothers : handles h held (l.bury f).alive = handles h' held (l.bury f).alive := by
    refine congrArg (held ++ ·) (List.flatMap_congr fun g hg => (hrest g ?_).symm)
    exact (isAlive_bury.mp (mem_living_iff.mp hg)).1
  have hp : (handles h (a ++ held) l.alive).Perm (handles h' (b ++ held) l.alive) := by
    refine List.perm_iff_count.mpr fun g => ?_
    have hbefore := (handles_perm h (a ++ held) hf).count_eq g
    have hafter := (handles_perm h' (b ++ held) hf).count_eq g
    have hmoved := hlinks.count_eq g
    have hsame := congrArg (List.count g) hothers
    simp only [handles, List.count_append] at hbefore hafter hmoved hsame ⊢
    omega
  exact ⟨hx.size, fun g hg => (hx.count g hg).trans (hp.count_eq g),
    fun g hg => hx.alive g (hp.mem_iff.mpr hg)⟩

/-! ### Handles come -/

theorem retain (hx : l.Exact h held) (hfs : ∀ f ∈ fs, l.isAlive f = true) :
    (l.retain fs).Exact h (fs ++ held) where
  size := (size_retain fs l).trans hx.size
  count f hf := by
    have hlt : f < l.counts.size := hx.size ▸ lt_of_isAlive hf
    rw [count_retain hlt, hx.count f hf, Nat.add_comm]
    simp only [handles, List.append_assoc, List.count_append, Ledger.retain]
  alive f hf := by
    rw [handles, List.append_assoc] at hf
    exact (List.mem_append.mp hf).elim (hfs f) (hx.alive f)

/-- A new frame has one handle, that of its maker, and takes those that are its links. -/
theorem enroll {h' : Heap} (hx : l.Exact h (fs ++ held)) (hnew : h'.links l.alive.size = fs)
    (hold : ∀ f, l.isAlive f = true → h'.links f = h.links f) :
    l.enroll.Exact h' (l.alive.size :: held) := by
  have hp : (handles h' (l.alive.size :: held) l.enroll.alive).Perm
      (l.alive.size :: handles h (fs ++ held) l.alive) := by
    have hlinks : (living l.alive).flatMap h'.links = (living l.alive).flatMap h.links :=
      List.flatMap_congr fun g hg => hold g (mem_living_iff.mp hg)
    refine List.perm_iff_count.mpr fun g => ?_
    simp only [handles, Ledger.enroll, living_push, List.flatMap_append, List.flatMap_singleton,
      hnew, hlinks, List.cons_append, List.count_cons, List.count_append]
    omega
  refine ⟨by simp [Ledger.enroll, hx.size], fun f hf => ?_, fun f hf => ?_⟩
  · rw [hp.count_eq, List.count_cons]
    rcases isAlive_enroll.mp hf with rfl | hf
    · have hnone : (handles h (fs ++ held) l.alive).count l.alive.size = 0 :=
        List.count_eq_zero.mpr fun hmem => Nat.lt_irrefl _ (lt_of_isAlive (hx.alive _ hmem))
      rw [hnone, count_enroll, if_pos hx.size.symm, beq_self_eq_true, if_pos rfl]
    · have hne := Nat.ne_of_lt (lt_of_isAlive hf)
      rw [← hx.count f hf, count_enroll, if_neg (hx.size ▸ hne)]
      simp [Ne.symm hne]
  · exact isAlive_enroll.mpr ((List.mem_cons.mp (hp.mem_iff.mp hf)).imp_right (hx.alive f))

/-! ### Handles go -/

theorem lessen (hx : l.Exact h (f :: held)) : (l.lessen f).Exact h held where
  size := by simp [Ledger.lessen, hx.size]
  count g hg := by
    have hcount := hx.count g hg
    rw [count_lessen, hcount, handles, List.cons_append, List.count_cons]
    simp [handles, Ledger.lessen]
  alive g hg := hx.alive g (List.mem_cons_of_mem f hg)

/-- What a dead frame held is nobody's. -/
theorem bury (hx : l.Exact h held) (hf : l.isAlive f = true) (hz : l.count f = 0) :
    (l.bury f).Exact h (h.links f ++ held) := by
  have hp : (handles h held l.alive).Perm (handles h (h.links f ++ held) (l.bury f).alive) := by
    rw [handles, handles, List.append_assoc]
    exact handles_perm h held hf
  refine ⟨by simp [Ledger.bury, hx.size], fun g hg => ?_, fun g hg => ?_⟩
  · exact (hx.count g (isAlive_bury.mp hg).2).trans (hp.count_eq g)
  · have hg' := hp.mem_iff.mpr hg
    refine isAlive_bury.mpr ⟨?_, hx.alive g hg'⟩
    rintro rfl
    exact Nat.ne_of_gt ((hx.count_pos hf).mpr hg') hz

end Exact

/-- Handles have been let go of: those of `held` are left. The dead do not come back. -/
structure LetGo (h : Heap) (held : List FrameId) (l l' : Ledger) : Prop where
  exact : l'.Exact h held
  settled : l'.Settled
  size : l'.alive.size = l.alive.size
  alive : ∀ f, l'.isAlive f = true → l.isAlive f = true

/-- One handle after the other, each by way of `drop` with so many levels. -/
theorem foldl_letGo {levels : Nat}
    (hdrop : ∀ f held l, l.Exact h (f :: held) → l.Settled → (living l.alive).length ≤ levels →
      LetGo h held l (drop h levels f l))
    (hx : l.Exact h (fs ++ held)) (hs : l.Settled) (hlevels : (living l.alive).length ≤ levels) :
    LetGo h held l (fs.foldl (fun l g => drop h levels g l) l) := by
  induction fs generalizing l with
  | nil => exact ⟨hx, hs, rfl, fun _ hf => hf⟩
  | cons f fs ih =>
    have hone := hdrop f (fs ++ held) l hx hs hlevels
    have hrest := ih hone.exact hone.settled
      (Nat.le_trans (length_living_le hone.alive) hlevels)
    exact ⟨hrest.exact, hrest.settled, hrest.size.trans hone.size,
      fun f hf => hone.alive f (hrest.alive f hf)⟩

/-- **Letting go of a handle takes one off its number**, and of those of all frames that die of
it. -/
theorem drop_letGo (levels : Nat) (f : FrameId) (held : List FrameId) (l : Ledger)
    (hx : l.Exact h (f :: held)) (hs : l.Settled) (hlevels : (living l.alive).length ≤ levels) :
    LetGo h held l (drop h levels f l) := by
  induction levels generalizing f held l with
  | zero =>
    have hf := mem_living_iff.mpr (hx.isAlive_of_mem List.mem_cons_self)
    exact absurd (List.length_pos_of_mem hf) (Nat.not_lt.mpr hlevels)
  | succ levels ih =>
    have hf : l.isAlive f = true := hx.isAlive_of_mem List.mem_cons_self
    have hpos : ∀ g, g ≠ f → (l.lessen f).isAlive g = true → 0 < (l.lessen f).count g := by
      intro g hg halive
      rw [count_lessen, if_neg (Ne.symm hg)]
      exact hs g halive
    rw [drop]
    split
    · next hz =>
      rw [beq_iff_eq] at hz
      have hshorter : (living ((l.lessen f).bury f).alive).length ≤ levels := by
        have hmem : f ∈ living (l.lessen f).alive := mem_living_iff.mpr hf
        rw [bury, living_setIfInBounds, List.length_erase_of_mem hmem]
        exact Nat.sub_le_of_le_add hlevels
      have hgo := foldl_letGo (fun f held l => ih f held l) (hx.lessen.bury hf hz)
        (fun g hg => hpos g (isAlive_bury.mp hg).1 (isAlive_bury.mp hg).2) hshorter
      exact ⟨hgo.exact, hgo.settled, hgo.size.trans Array.size_setIfInBounds,
        fun g hg => (isAlive_bury.mp (hgo.alive g hg)).2⟩
    · next hz =>
      rw [beq_iff_eq] at hz
      refine ⟨hx.lessen, fun g hg => ?_, rfl, fun _ hg => hg⟩
      by_cases hgf : g = f
      · subst hgf
        exact Nat.pos_of_ne_zero hz
      · exact hpos g hgf hg

/-- **Handles that are let go of are off the numbers, and all others are on them.** -/
theorem release_letGo (hx : l.Exact h (fs ++ held)) (hs : l.Settled)
    (hsize : l.alive.size = h.size) : LetGo h held l (l.release h fs) := by
  refine foldl_letGo (drop_letGo h.size) hx hs ?_
  rw [← hsize]
  exact (List.length_filter_le _ _).trans_eq List.length_range

end ClosureLang.Ledger
