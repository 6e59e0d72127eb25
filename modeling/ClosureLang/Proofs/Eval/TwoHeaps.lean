import ClosureLang.Proofs.Eval.Lockstep
import ClosureLang.Proofs.Heap.Reach
import Mathlib.Order.Nat

/-!
# One program in two heaps

Two heaps agree on some frames, out of which nothing leads, and differ otherwise as they like,
also in how many frames there are. A run that starts in these frames does the same in both: what
it creates in one it creates in the other under another number (`renumber`).

`WorldMatch` says how the two worlds correspond on the way. The frames agreed upon and those
created since (`Own`) do so one by one and with all that they hold. That all other frames are as
they were, and that no own frame holds one of them, is part of it, so this one comparison shows
what a run depends on and what it changes.
-/

namespace ClosureLang

/-! ## Numbers given out since -/

/-- The number of a thing in a run that started with `new` things, from its number in a run that
started with `old`. -/
def renumber (old new x : Nat) : Nat := if x < old then x else x - old + new

theorem renumber_of_lt {old new x : Nat} (hx : x < old) : renumber old new x = x := if_pos hx

theorem renumber_of_le {old new x : Nat} (hx : old ≤ x) : renumber old new x = x - old + new :=
  if_neg (Nat.not_lt_of_le hx)

theorem renumber_succ {old new x : Nat} (hx : old ≤ x) :
    renumber old new (x + 1) = renumber old new x + 1 := by
  rw [renumber_of_le hx, renumber_of_le (Nat.le_succ_of_le hx)]
  omega

theorem renumber_lt {old new x y : Nat} (hy : old ≤ y) (hx : x < old → x < new) (hxy : x < y) :
    renumber old new x < renumber old new y := by
  rw [renumber_of_le hy]
  unfold renumber
  split <;> omega

/-- Old things that both runs started with are not mistaken for new ones. -/
theorem renumber_inj {old new x y : Nat} (hx : x < old → x < new) (hy : y < old → y < new) :
    renumber old new x = renumber old new y ↔ x = y := by
  unfold renumber
  split <;> split <;> omega

def Closure.renumber (h₁ h₂ : Heap) (c : Closure) : Closure where
  stamp := ClosureLang.renumber h₁.stamps h₂.stamps c.stamp
  code := c.code
  frame := ClosureLang.renumber h₁.size h₂.size c.frame

def Value.renumber (h₁ h₂ : Heap) : Value → Value
  | .function c => .function (c.renumber h₁ h₂)
  | v => v

def Outcome.renumber (h₁ h₂ : Heap) : Outcome → Outcome
  | .value v => .value (v.renumber h₁ h₂)
  | out => out

/-! ## Two runs -/

/-- Two heaps to start from, and frames on which they agree and out of which nothing leads. -/
structure Setting where
  left : Heap
  right : Heap
  within : FrameId → Prop
  wf_left : left.WellFormed
  wf_right : right.WellFormed
  lt_left : ∀ f : Nat, within f → f < left.size
  lt_right : ∀ f : Nat, within f → f < right.size
  agree : left.AgreeOn within right
  parent_within : ∀ f p, within f → left.parent? f = some p → within p
  stored_within : ∀ f n v g, within f → left.local? f n = some v → v.captured? = some g → within g

namespace Setting

variable (S : Setting)

/-- A frame within reach, or one created since. -/
def Own (f : FrameId) : Prop := S.within f ∨ S.left.size ≤ f

def frame (f : FrameId) : FrameId := renumber S.left.size S.right.size f

def stamp (x : Nat) : Nat := renumber S.left.stamps S.right.stamps x

/-- A function that captures an own frame, when `s` frames were created. -/
structure ClosureMatch (s : Nat) (c d : Closure) : Prop where
  own : S.Own c.frame
  lt : c.frame < s
  old : c.stamp < S.left.stamps → c.stamp < S.right.stamps
  eq : d = c.renumber S.left S.right

/-- The worlds of the two runs, when the first has `s` frames. -/
structure WorldMatch (s : Nat) (w w' : World) : Prop where
  size_le : S.left.size ≤ s
  size : w.heap.size = s
  size_right : w'.heap.size = S.frame s
  stamps_le : S.left.stamps ≤ w.heap.stamps
  stamps : w'.heap.stamps = S.stamp w.heap.stamps
  sink : w'.sink = w.sink
  nested : w.heap.Nested
  nested_right : w'.heap.Nested
  untouched : ∀ f : Nat, f < S.left.size → ¬ S.within f → w.heap.frame? f = S.left.frame? f
  parent_own : ∀ f p, S.Own f → w.heap.parent? f = some p → S.Own p
  parent : ∀ f, S.Own f → w'.heap.parent? (S.frame f) = (w.heap.parent? f).map S.frame
  bound : ∀ f, S.Own f → ∀ n, Option.Rel (Value.Match (S.ClosureMatch s)) (w.heap.local? f n)
    (w'.heap.local? (S.frame f) n)

variable {S} {s t : Nat} {w w' : World} {f g : FrameId} {n : Name} {u v : Value}

theorem Own.lt_right (hf : S.Own f) (hlt : f < S.left.size) : f < S.right.size := by
  rcases hf with hf | hf
  · exact S.lt_right f hf
  · exact absurd hlt (Nat.not_lt_of_le hf)

theorem frame_inj (hf : S.Own f) (hg : S.Own g) : S.frame f = S.frame g ↔ f = g :=
  renumber_inj hf.lt_right hg.lt_right

theorem frame_lt (hs : S.left.size ≤ s) (hf : S.Own f) (hfs : f < s) : S.frame f < S.frame s :=
  renumber_lt hs hf.lt_right hfs

theorem frame_of_within (hf : S.within f) : S.frame f = f := renumber_of_lt (S.lt_left f hf)

theorem ClosureMatch.mono {c d : Closure} (hst : s ≤ t) (h : S.ClosureMatch s c d) :
    S.ClosureMatch t c d := ⟨h.own, Nat.lt_of_lt_of_le h.lt hst, h.old, h.eq⟩

theorem ClosureMatch.beq_eq {c d c' d' : Closure} (h : S.ClosureMatch s c d)
    (h' : S.ClosureMatch s c' d') : (c == c') = (d == d') := by
  have hstamp : S.stamp c.stamp = S.stamp c'.stamp ↔ c.stamp = c'.stamp :=
    renumber_inj h.old h'.old
  have hframe : S.frame c.frame = S.frame c'.frame ↔ c.frame = c'.frame := frame_inj h.own h'.own
  rw [h.eq, h'.eq]
  show (c.stamp == c'.stamp && c.frame == c'.frame) =
    (S.stamp c.stamp == S.stamp c'.stamp && S.frame c.frame == S.frame c'.frame)
  rw [Bool.eq_iff_iff]
  simp [hstamp, hframe]

theorem eq_renumber (h : u.Match (S.ClosureMatch s) v) : v = u.renumber S.left S.right := by
  cases h with
  | function h => exact congrArg Value.function h.eq
  | _ => rfl

/-- What a value captures that has a counterpart. -/
theorem own_of_captured? (h : u.Match (S.ClosureMatch s) v) (hf : u.captured? = some f) :
    S.Own f ∧ f < s := by
  cases h with
  | function h =>
    obtain rfl := Option.some.inj hf
    exact ⟨h.own, h.lt⟩
  | _ => cases hf

/-- A value of both heaps is its own counterpart at the start. -/
theorem match_self (hl : v.ValidIn S.left) (hr : v.ValidIn S.right)
    (hown : ∀ g, v.captured? = some g → S.within g) :
    v.Match (S.ClosureMatch S.left.size) v := by
  cases v with
  | function c =>
    refine .function ⟨Or.inl (hown _ rfl), hl.1, fun _ => hr.2, ?_⟩
    rw [Closure.renumber, renumber_of_lt hl.1, renumber_of_lt hl.2]
  | void => exact .void
  | number x => exact .number x
  | bool b => exact .bool b
  | str t => exact .str t

/-! ## What the operations on heaps keep -/

namespace WorldMatch

theorem binds_eq (hw : S.WorldMatch s w w') (hf : S.Own f) (n : Name) :
    w'.heap.binds (S.frame f) n = w.heap.binds f n := by
  unfold Heap.binds
  rcases rel_cases (hw.bound f hf n) with ⟨h₁, h₂⟩ | ⟨u, v, h₁, h₂, -⟩
  · rw [h₁, h₂]
  · rw [h₁, h₂]
    rfl

/-- **A name resolves to an own frame, and to the same one in both runs.** -/
theorem owner (hw : S.WorldMatch s w w') (n : Name) (hf : S.Own f) :
    Option.Rel (fun o p => S.Own o ∧ p = S.frame o) (w.heap.owner? f n)
      (w'.heap.owner? (S.frame f) n) := by
  induction f using Nat.strongRecOn with
  | ind f ih =>
    rw [Heap.owner?_eq hw.nested.grounded, Heap.owner?_eq hw.nested_right.grounded,
      hw.binds_eq hf, hw.parent f hf]
    split
    · exact .some ⟨hf, rfl⟩
    · cases hp : w.heap.parent? f with
      | none => exact .none
      | some p => exact ih p (hw.nested f p hp) (hw.parent_own f p hf hp)

/-- What a frame binds, and its counterpart. -/
theorem local_match (hw : S.WorldMatch s w w') (hf : S.Own f)
    (hv : w.heap.local? f n = some u) :
    ∃ v, w'.heap.local? (S.frame f) n = some v ∧ u.Match (S.ClosureMatch s) v := by
  rcases rel_cases (hw.bound f hf n) with ⟨h₁, -⟩ | ⟨u', v, h₁, h₂, huv⟩
  · rw [hv] at h₁
    cases h₁
  · obtain rfl : u = u' := Option.some.inj (hv.symm.trans h₁)
    exact ⟨v, h₂, huv⟩

/-- Whatever changes in one own frame, and in its counterpart, if what they bind still matches. -/
theorem change (hw : S.WorldMatch s w w') (hf : S.Own f) {h h' : Heap}
    (hl : w.heap.ChangedAt f h) (hr : w'.heap.ChangedAt (S.frame f) h')
    (hbound : ∀ g, S.Own g → ∀ n,
      Option.Rel (Value.Match (S.ClosureMatch s)) (h.local? g n) (h'.local? (S.frame g) n)) :
    S.WorldMatch s { w with heap := h } { w' with heap := h' } where
  size_le := hw.size_le
  size := hl.size.trans hw.size
  size_right := hr.size.trans hw.size_right
  stamps_le := hl.stamps ▸ hw.stamps_le
  stamps := by rw [hr.stamps, hl.stamps]; exact hw.stamps
  sink := hw.sink
  nested := hl.nested hw.nested
  nested_right := hr.nested hw.nested_right
  untouched g hg hout := by
    have hfg : f ≠ g := by
      rintro rfl
      exact hf.elim hout (Nat.not_le_of_lt hg)
    rw [hl.other g hfg]
    exact hw.untouched g hg hout
  parent_own g p hg hp := hw.parent_own g p hg ((hl.parent g).symm.trans hp)
  parent g hg := by
    rw [hl.parent, hr.parent]
    exact hw.parent g hg
  bound := hbound

theorem overwrite (hw : S.WorldMatch s w w') (hf : S.Own f) (n : Name)
    (huv : u.Match (S.ClosureMatch s) v) :
    S.WorldMatch s { w with heap := w.heap.overwrite f n u }
      { w' with heap := w'.heap.overwrite (S.frame f) n v } := by
  refine hw.change hf (Heap.changedAt_overwrite ..) (Heap.changedAt_overwrite ..) ?_
  intro g hg m
  rw [Heap.local?_overwrite, Heap.local?_overwrite]
  simp only [frame_inj hf hg]
  split
  · rcases rel_cases (hw.bound g hg m) with ⟨h₁, h₂⟩ | ⟨u', v', h₁, h₂, -⟩
    · rw [h₁, h₂]
      exact .none
    · rw [h₁, h₂]
      exact .some huv
  · exact hw.bound g hg m

theorem bind (hw : S.WorldMatch s w w') (hf : S.Own f) (hfs : f < s) (n : Name)
    (huv : u.Match (S.ClosureMatch s) v) :
    S.WorldMatch s { w with heap := w.heap.bind f n u }
      { w' with heap := w'.heap.bind (S.frame f) n v } := by
  refine hw.change hf (Heap.changedAt_bind ..) (Heap.changedAt_bind ..) ?_
  intro g hg m
  have hlt : f < w.heap.size := hw.size.symm ▸ hfs
  have hlt' : S.frame f < w'.heap.size := hw.size_right.symm ▸ frame_lt hw.size_le hf hfs
  rw [Heap.local?_bind_of_lt hlt, Heap.local?_bind_of_lt hlt']
  simp only [frame_inj hf hg]
  split
  · exact .some huv
  · exact hw.bound g hg m

/-- A frame inside an own one is own, and has the next number in both runs. -/
theorem child (hw : S.WorldMatch s w w') (hf : S.Own f) (hfs : f < s) :
    S.WorldMatch (s + 1) { w with heap := (w.heap.child f).2 }
      { w' with heap := (w'.heap.child (S.frame f)).2 } where
  size_le := Nat.le_succ_of_le hw.size_le
  size := (Heap.size_newFrame _ _).trans (congrArg Nat.succ hw.size)
  size_right := (Heap.size_newFrame _ _).trans
    ((congrArg Nat.succ hw.size_right).trans (renumber_succ hw.size_le).symm)
  stamps_le := hw.stamps_le
  stamps := hw.stamps
  sink := hw.sink
  nested := hw.nested.newFrame fun p hp => by
    obtain rfl : f = p := Option.some.inj hp
    exact hw.size.symm ▸ hfs
  nested_right := hw.nested_right.newFrame fun p hp => by
    obtain rfl : S.frame f = p := Option.some.inj hp
    exact hw.size_right.symm ▸ frame_lt hw.size_le hf hfs
  untouched g hg hout := by
    have hne : g ≠ w.heap.size := by
      rw [hw.size]
      exact Nat.ne_of_lt (Nat.lt_of_lt_of_le hg hw.size_le)
    show (w.heap.newFrame (some f)).2.frame? g = _
    rw [Heap.frame?_newFrame, if_neg hne]
    exact hw.untouched g hg hout
  parent_own g p hg hp := by
    rw [Heap.child, Heap.parent?_newFrame] at hp
    split at hp
    · obtain rfl : f = p := Option.some.inj hp
      exact hf
    · exact hw.parent_own g p hg hp
  parent g hg := by
    have hs : S.Own s := Or.inr hw.size_le
    rw [Heap.child, Heap.child, Heap.parent?_newFrame, Heap.parent?_newFrame, hw.size,
      hw.size_right]
    simp only [frame_inj hg hs]
    split
    · rfl
    · exact hw.parent g hg
  bound g hg n := by
    rw [Heap.child, Heap.child, Heap.local?_newFrame, Heap.local?_newFrame]
    rcases rel_cases (hw.bound g hg n) with ⟨h₁, h₂⟩ | ⟨u, v, h₁, h₂, huv⟩
    · rw [h₁, h₂]
      exact .none
    · rw [h₁, h₂]
      exact .some (huv.mono fun _ _ hc => hc.mono (Nat.le_succ s))

theorem makeClosure (hw : S.WorldMatch s w w') (code : FunctionCode) (f : FrameId) :
    S.WorldMatch s { w with heap := (w.heap.makeClosure code f).2 }
      { w' with heap := (w'.heap.makeClosure code (S.frame f)).2 } :=
  { hw with
    stamps_le := Nat.le_succ_of_le hw.stamps_le
    stamps := (congrArg Nat.succ hw.stamps).trans (renumber_succ hw.stamps_le).symm }

/-- A function made now. -/
theorem closure_new (hw : S.WorldMatch s w w') (code : FunctionCode) (hf : S.Own f) (hfs : f < s) :
    S.ClosureMatch s (w.heap.makeClosure code f).1 (w'.heap.makeClosure code (S.frame f)).1 where
  own := hf
  lt := hfs
  old hlt := absurd hw.stamps_le (Nat.not_le_of_lt hlt)
  eq := by
    simp only [Heap.makeClosure, Closure.renumber, hw.stamps]
    rfl

end WorldMatch

/-! ## The comparison -/

variable (S) in
/-- Two runs of one program, from the two heaps. -/
def runs : Correspondence Nat where
  world := S.WorldMatch
  closure := S.ClosureMatch
  captured s f g := S.Own f ∧ f < s ∧ g = S.frame f
  scope s f g := S.Own f ∧ f < s ∧ g = S.frame f
  name m n := m = n
  code c d := c = d
  expr x y := x = y
  calls _ _ := True
  error _ e e' := e = e'
  fault f f' := f = f'

theorem runs_lawful (names : Interner) : S.runs.Lawful names names where
  closure_mono hst h := h.mono hst
  scope_mono hst h := ⟨h.1, Nat.lt_of_lt_of_le h.2.1 hst, h.2.2⟩
  closure_beq h h' := h.beq_eq h'
  closure_code h := by rw [h.eq]; rfl
  code_match := by
    rintro c _ rfl
    exact Correspondence.codeMatch_refl (fun _ => rfl) (fun _ => rfl) (fun _ => rfl) c
  closure_captured h := ⟨h.own, h.lt, by rw [h.eq]; rfl⟩
  scope_captured h := h
  name_text h := by rw [show _ = _ from h]
  expr_step := by
    rintro x _ rfl
    exact Correspondence.expr_step_refl (fun _ => rfl) (fun _ => rfl) (fun _ => rfl)
      (fun _ => rfl) names x
  resolve := by
    rintro s w w' f _ m _ hw ⟨hf, -, rfl⟩ rfl
    rcases rel_cases (hw.owner m hf) with ⟨h₁, h₂⟩ | ⟨o, p, h₁, h₂, hown, rfl⟩
    · rw [h₁, h₂]
      exact .none
    · obtain ⟨v, hv, hmatch⟩ := hw.local_match hown (Heap.local?_of_owner? h₁)
      rw [h₁, h₂]
      refine .some ⟨?_, fun u u' hu => hw.overwrite hown m hu⟩
      rw [Heap.valueAt_of_local? hv]
      exact hmatch
  define := by
    rintro s w w' f _ m _ hw ⟨hf, hfs, rfl⟩ rfl
    exact ⟨(hw.binds_eq hf m).symm, fun _ u v huv => hw.bind hf hfs m huv⟩
  child := by
    rintro s w w' f _ hw ⟨hf, hfs, rfl⟩
    exact ⟨s + 1, Nat.le_succ s, hw.child hf hfs, Or.inr (hw.size.symm ▸ hw.size_le),
      Nat.lt_succ_of_le (Nat.le_of_eq hw.size), by rw [hw.size_right, hw.size]⟩
  makeClosure := by
    rintro s w w' f _ c _ hw ⟨hf, hfs, rfl⟩ rfl
    exact ⟨s, le_refl s, hw.makeClosure c f, hw.closure_new c hf hfs⟩
  println line hw := { hw with sink := by rw [hw.sink] }
  raise _ _ := rfl
  full _ := rfl
  leave {k n _ _} h := congrArg (k.enter n).attachBacktrace h
  enter n _ _ := Correspondence.enter_of_forall (fun _ _ => trivial) (fun _ => rfl) _ _ n

/-! ## From the start to the end -/

/-- The frames within reach of some roots, in two heaps that agree on them. -/
def ofReach {h₁ h₂ : Heap} {roots : FrameId → Prop} (hh₁ : h₁.WellFormed) (hh₂ : h₂.WellFormed)
    (hroots₁ : ∀ f, roots f → f < h₁.size) (hroots₂ : ∀ f, roots f → f < h₂.size)
    (hagree : h₁.AgreeOn (h₁.Reachable roots) h₂) : Setting where
  left := h₁
  right := h₂
  within := h₁.Reachable roots
  wf_left := hh₁
  wf_right := hh₂
  lt_left _ hf := hf.lt_size hh₁ hroots₁ (.refl _ h₁)
  lt_right _ hf := hf.lt_size hh₂ hroots₂ hagree
  agree := hagree
  parent_within _ _ hf hp := .parent hf hp
  stored_within _ _ _ _ hf hv hg := .stored hf hv hg

theorem renumber_self (old new : Nat) : renumber old new old = new := by
  rw [renumber_of_le (Nat.le_refl old), Nat.sub_self, Nat.zero_add]

/-- A frame that neither heap has yet. -/
theorem le_frame (hf : S.left.size ≤ f) : S.right.size ≤ S.frame f := by
  rw [frame, renumber_of_le hf]
  exact Nat.le_add_left _ _

variable (S) in
theorem start (sink : Sink) : S.WorldMatch S.left.size ⟨S.left, sink⟩ ⟨S.right, sink⟩ where
  size_le := Nat.le_refl _
  size := rfl
  size_right := (renumber_self _ _).symm
  stamps_le := Nat.le_refl _
  stamps := (renumber_self _ _).symm
  sink := rfl
  nested := S.wf_left.nested
  nested_right := S.wf_right.nested
  untouched _ _ _ := rfl
  parent_own f p hf hp := by
    rcases hf with hf | hf
    · exact Or.inl (S.parent_within f p hf hp)
    · rw [Heap.parent?_eq_none_of_size_le hf] at hp
      cases hp
  parent f hf := by
    rcases hf with hf | hf
    · rw [frame_of_within hf, S.agree.parent f hf]
      cases hp : S.left.parent? f with
      | none => rfl
      | some p => exact congrArg some (frame_of_within (S.parent_within f p hf hp)).symm
    · rw [Heap.parent?_eq_none_of_size_le hf, Heap.parent?_eq_none_of_size_le (le_frame hf)]
      rfl
  bound f hf n := by
    rcases hf with hf | hf
    · rw [frame_of_within hf, S.agree.bound f hf]
      cases hv : S.left.local? f n with
      | none => exact .none
      | some v =>
        have hv' : S.right.local? f n = some v := (S.agree.bound f hf n).trans hv
        exact .some (match_self (S.wf_left.valid hv) (S.wf_right.valid hv')
          fun g hg => S.stored_within f n v g hf hv hg)
    · rw [Heap.local?_eq_none_of_size_le hf, Heap.local?_eq_none_of_size_le (le_frame hf)]
      exact .none

end Setting
end ClosureLang
