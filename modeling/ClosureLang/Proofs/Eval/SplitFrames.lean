import ClosureLang.Proofs.Eval.CallFrames
import ClosureLang.Proofs.Eval.Occurrences
import ClosureLang.Proofs.Eval.TwoHeaps

/-!
# A frame that is split in two

A block that is the body of a function runs in the frame of the call, among the parameters. Had it
a scope of its own, as other blocks have, the parameters alone would be in the frame of the call,
and all else in a frame inside of it. `Split.Heaps` says how two heaps compare that differ in
this: the frames around the two are the same, and the inner of them takes the place of the one
frame wherever that is captured or enclosed.

Names resolve alike in such heaps, since a parameter that the inner frame lacks is found one step
further out. Declaring is what tells them apart, and only a parameter, and only in the frame that
is split (`Split.works`, `Split.declares`); all scopes besides correspond.
-/

namespace ClosureLang

/-! ## Numbers around one more -/

theorem renumber_succ_of_le {n x : Nat} (hx : n ≤ x) : renumber n (n + 1) x = x + 1 := by
  rw [renumber_of_le hx]
  omega

theorem renumber_succ_ne (n x : Nat) : renumber n (n + 1) x ≠ n := by
  unfold renumber
  split <;> omega

theorem renumber_succ_lt (n : Nat) {x y : Nat} (h : x < y) :
    renumber n (n + 1) x < renumber n (n + 1) y := by
  unfold renumber
  split <;> split <;> omega

/-! ## Two heaps -/

/-- A frame, and those of its names that stay in it when it is split. -/
structure Split where
  frame : FrameId
  params : List Name

namespace Split

variable (S : Split)

/-- The frame that takes the place of `f`. Of the two that come of the frame that is split it is
the inner one, and later frames move up by one. -/
def image (f : FrameId) : FrameId := renumber S.frame (S.frame + 1) f

/-- The frame in which to look for what `f` binds `n` to. -/
def place (f : FrameId) (n : Name) : FrameId :=
  if f = S.frame ∧ n ∈ S.params then S.frame else S.image f

/-- The same value, where all that captured the one frame captures the inner of the two. -/
def value : Value → Value
  | .function c => .function { c with frame := S.image c.frame }
  | v => v

/-- **The frame is split.** What it bound, and whatever else the heap `h` holds, is in `h'` up to
what is captured, about which `V` decides. -/
structure Heaps (V : Value → Value → Prop) (h h' : Heap) : Prop where
  size : h'.size = h.size + 1
  stamps : h'.stamps = h.stamps
  /-- The two frames are nested, and lie where the one lies. -/
  inner : h'.parent? (S.frame + 1) = some S.frame
  outer : h'.parent? S.frame = h.parent? S.frame
  parent : ∀ f, f ≠ S.frame → h'.parent? (S.image f) = (h.parent? f).map S.image
  bound : ∀ f n, Option.Rel V (h.local? f n) (h'.local? (S.place f n) n)
  /-- Of the two, the outer one has the parameters and nothing else, and the inner one the rest. -/
  params_outer : ∀ n ∈ S.params, h'.local? (S.frame + 1) n = none
  rest_inner : ∀ n, n ∉ S.params → h'.local? S.frame n = none

/-- A function that captures one of the first `s` frames. -/
structure ClosureMatch (s : Nat) (c d : Closure) : Prop where
  lt : c.frame < s
  eq : d = { c with frame := S.image c.frame }

/-- The worlds of the two runs, when the first has `s` frames. -/
structure WorldMatch (s : Nat) (w w' : World) : Prop where
  frame_lt : S.frame < s
  size : w.heap.size = s
  heaps : S.Heaps (Value.Match (S.ClosureMatch s)) w.heap w'.heap
  sink : w'.sink = w.sink
  nested : w.heap.Nested
  nested_right : w'.heap.Nested

variable {S} {s t : Nat} {w w' : World} {f g : FrameId} {n : Name} {u v : Value}

/-! ## Frames -/

theorem image_of_lt (hf : f < S.frame) : S.image f = f := renumber_of_lt hf

theorem image_of_le (hf : S.frame ≤ f) : S.image f = f + 1 := renumber_succ_of_le hf

theorem image_frame : S.image S.frame = S.frame + 1 := image_of_le (Nat.le_refl _)

theorem image_inj : S.image f = S.image g ↔ f = g :=
  renumber_inj Nat.lt_succ_of_lt Nat.lt_succ_of_lt

theorem image_ne : S.image f ≠ S.frame := renumber_succ_ne S.frame f

theorem image_lt (h : f < g) : S.image f < S.image g := renumber_succ_lt S.frame h

theorem place_param (hn : n ∈ S.params) : S.place S.frame n = S.frame := if_pos ⟨rfl, hn⟩

theorem place_of_ne (hf : f ≠ S.frame) (n : Name) : S.place f n = S.image f :=
  if_neg fun h => hf h.1

theorem place_of_not_mem (hn : n ∉ S.params) (f : FrameId) : S.place f n = S.image f :=
  if_neg fun h => hn h.2

theorem place_inj : S.place f n = S.place g n ↔ f = g := by
  constructor
  · intro h
    by_cases hn : n ∈ S.params
    · by_cases hf : f = S.frame <;> by_cases hg : g = S.frame
      · rw [hf, hg]
      · rw [hf, place_param hn, place_of_ne hg] at h
        exact absurd h.symm image_ne
      · rw [hg, place_param hn, place_of_ne hf] at h
        exact absurd h image_ne
      · rwa [place_of_ne hf, place_of_ne hg, image_inj] at h
    · rwa [place_of_not_mem hn, place_of_not_mem hn, image_inj] at h
  · rintro rfl
    rfl

/-! ## Values -/

theorem ClosureMatch.mono {c d : Closure} (hst : s ≤ t) (h : S.ClosureMatch s c d) :
    S.ClosureMatch t c d := ⟨Nat.lt_of_lt_of_le h.lt hst, h.eq⟩

theorem ClosureMatch.beq_eq {c d c' d' : Closure} (h : S.ClosureMatch s c d)
    (h' : S.ClosureMatch s c' d') : (c == c') = (d == d') := by
  rw [h.eq, h'.eq]
  show (c.stamp == c'.stamp && c.frame == c'.frame) =
    (c.stamp == c'.stamp && S.image c.frame == S.image c'.frame)
  rw [Bool.eq_iff_iff]
  simp [image_inj]

theorem eq_value (h : u.Match (S.ClosureMatch s) v) : v = S.value u := by
  cases h with
  | function h => exact congrArg Value.function h.eq
  | _ => rfl

/-- A value from before the frame was made is the same on both sides. -/
theorem match_self {h : Heap} (hv : v.ValidIn h) (hh : h.size ≤ S.frame) (hs : S.frame ≤ s) :
    v.Match (S.ClosureMatch s) v := by
  cases v with
  | function c =>
    have hlt : c.frame < S.frame := Nat.lt_of_lt_of_le hv.1 hh
    exact .function ⟨Nat.lt_of_lt_of_le hlt hs, by rw [image_of_lt hlt]⟩
  | void => exact .void
  | number x => exact .number x
  | bool b => exact .bool b
  | str t => exact .str t

/-! ## What the operations on heaps keep -/

namespace WorldMatch

theorem binds_place (hw : S.WorldMatch s w w') (f : FrameId) (n : Name) :
    w'.heap.binds (S.place f n) n = w.heap.binds f n := by
  unfold Heap.binds
  rcases rel_cases (hw.heaps.bound f n) with ⟨h₁, h₂⟩ | ⟨u, v, h₁, h₂, -⟩
  · rw [h₁, h₂]
  · rw [h₁, h₂]
    rfl

/-- A walk that begins in the inner frame meets both frames before it goes on. -/
theorem owner_inner (hw : S.WorldMatch s w w') (n : Name) :
    w'.heap.owner? (S.frame + 1) n = if w.heap.binds S.frame n then some (S.place S.frame n)
      else w.heap.parent? S.frame >>= fun p => w'.heap.owner? p n := by
  rw [Heap.owner?_eq hw.nested_right.grounded, hw.heaps.inner, ← hw.binds_place]
  by_cases hn : n ∈ S.params
  · have hinner : w'.heap.binds (S.frame + 1) n = false := by
      rw [Heap.binds, hw.heaps.params_outer n hn, Option.isSome_none]
    rw [hinner, place_param hn]
    show w'.heap.owner? S.frame n = _
    rw [Heap.owner?_eq hw.nested_right.grounded, hw.heaps.outer]
  · have houter : w'.heap.binds S.frame n = false := by
      rw [Heap.binds, hw.heaps.rest_inner n hn, Option.isSome_none]
    rw [place_of_not_mem hn, image_frame]
    split
    · rfl
    · show w'.heap.owner? S.frame n = _
      rw [Heap.owner?_eq hw.nested_right.grounded, houter, hw.heaps.outer]
      rfl

/-- **Names resolve alike**: to the frame that has what their owner has. -/
theorem owner (hw : S.WorldMatch s w w') (n : Name) (f : FrameId) :
    Option.Rel (fun o p => p = S.place o n) (w.heap.owner? f n)
      (w'.heap.owner? (S.image f) n) := by
  induction f using Nat.strongRecOn with
  | ind f ih =>
    by_cases hf : f = S.frame
    · subst hf
      rw [image_frame, hw.owner_inner, Heap.owner?_eq hw.nested.grounded]
      split
      · exact .some rfl
      · cases hp : w.heap.parent? S.frame with
        | none => exact .none
        | some p =>
          have hlt := hw.nested _ p hp
          have hrel := ih p hlt
          rwa [image_of_lt hlt] at hrel
    · rw [Heap.owner?_eq hw.nested.grounded, Heap.owner?_eq hw.nested_right.grounded,
        ← place_of_ne hf n, hw.binds_place, place_of_ne hf n, hw.heaps.parent f hf]
      split
      · exact .some (place_of_ne hf n).symm
      · cases hp : w.heap.parent? f with
        | none => exact .none
        | some p => exact ih p (hw.nested f p hp)

/-- What a frame binds, and its counterpart. -/
theorem local_match (hw : S.WorldMatch s w w') (hv : w.heap.local? f n = some u) :
    ∃ v, w'.heap.local? (S.place f n) n = some v ∧ u.Match (S.ClosureMatch s) v := by
  rcases rel_cases (hw.heaps.bound f n) with ⟨h₁, -⟩ | ⟨u', v, h₁, h₂, huv⟩
  · rw [hv] at h₁
    cases h₁
  · obtain rfl : u = u' := Option.some.inj (hv.symm.trans h₁)
    exact ⟨v, h₂, huv⟩

/-- Whatever changes in one frame on either side, if what frames bind still compares. -/
theorem change (hw : S.WorldMatch s w w') {h h' : Heap} (hl : w.heap.ChangedAt f h)
    (hr : w'.heap.ChangedAt g h')
    (hbound : ∀ f n, Option.Rel (Value.Match (S.ClosureMatch s)) (h.local? f n)
      (h'.local? (S.place f n) n))
    (hparams : ∀ n ∈ S.params, h'.local? (S.frame + 1) n = none)
    (hrest : ∀ n, n ∉ S.params → h'.local? S.frame n = none) :
    S.WorldMatch s { w with heap := h } { w' with heap := h' } where
  frame_lt := hw.frame_lt
  size := hl.size.trans hw.size
  heaps :=
    { size := by rw [hr.size, hl.size, hw.heaps.size]
      stamps := by rw [hr.stamps, hl.stamps, hw.heaps.stamps]
      inner := by rw [hr.parent, hw.heaps.inner]
      outer := by rw [hr.parent, hl.parent, hw.heaps.outer]
      parent := fun f hf => by rw [hr.parent, hl.parent, hw.heaps.parent f hf]
      bound := hbound
      params_outer := hparams
      rest_inner := hrest }
  sink := hw.sink
  nested := hl.nested hw.nested
  nested_right := hr.nested hw.nested_right

theorem overwrite (hw : S.WorldMatch s w w') (f : FrameId) (n : Name)
    (huv : u.Match (S.ClosureMatch s) v) :
    S.WorldMatch s { w with heap := w.heap.overwrite f n u }
      { w' with heap := w'.heap.overwrite (S.place f n) n v } := by
  have hnone : ∀ {p : FrameId} {m : Name}, w'.heap.local? p m = none →
      (w'.heap.overwrite (S.place f n) n v).local? p m = none := by
    intro p m hp
    rw [Heap.local?_overwrite, hp]
    split <;> rfl
  refine hw.change (Heap.changedAt_overwrite ..) (Heap.changedAt_overwrite ..) ?_
    (fun m hm => hnone (hw.heaps.params_outer m hm)) (fun m hm => hnone (hw.heaps.rest_inner m hm))
  intro g m
  have hplace : (S.place f n = S.place g m ∧ m = n) ↔ (f = g ∧ m = n) :=
    and_congr_left fun hm => by rw [hm, place_inj]
  rw [Heap.local?_overwrite, Heap.local?_overwrite]
  simp only [hplace]
  split
  · rcases rel_cases (hw.heaps.bound g m) with ⟨h₁, h₂⟩ | ⟨u', v', h₁, h₂, -⟩
    · rw [h₁, h₂]
      exact .none
    · rw [h₁, h₂]
      exact .some huv
  · exact hw.heaps.bound g m

/-- A name may be declared wherever it would be looked for. -/
theorem bind (hw : S.WorldMatch s w w') (hfs : f < s) (hplace : S.place f n = S.image f)
    (huv : u.Match (S.ClosureMatch s) v) :
    S.WorldMatch s { w with heap := w.heap.bind f n u }
      { w' with heap := w'.heap.bind (S.image f) n v } := by
  have hlt : f < w.heap.size := hw.size.symm ▸ hfs
  have hlt' : S.image f < w'.heap.size := by
    rw [hw.heaps.size, hw.size, ← image_of_le (Nat.le_of_lt hw.frame_lt)]
    exact image_lt hfs
  refine hw.change (Heap.changedAt_bind ..) (Heap.changedAt_bind ..) ?_ ?_ ?_
  · intro g m
    have hiff : (S.image f = S.place g m ∧ m = n) ↔ (f = g ∧ m = n) :=
      and_congr_left fun hm => by rw [hm, ← hplace, place_inj]
    rw [Heap.local?_bind_of_lt hlt, Heap.local?_bind_of_lt hlt']
    simp only [hiff]
    split
    · exact .some huv
    · exact hw.heaps.bound g m
  · intro m hm
    rw [Heap.local?_bind_of_lt hlt', if_neg, hw.heaps.params_outer m hm]
    rintro ⟨hf, rfl⟩
    obtain rfl : f = S.frame := image_inj.mp (hf.trans image_frame.symm)
    exact image_ne (hplace.symm.trans (place_param hm))
  · intro m hm
    rw [Heap.local?_bind_of_lt hlt', if_neg fun h => image_ne h.1, hw.heaps.rest_inner m hm]

/-- A frame inside another one. -/
theorem child (hw : S.WorldMatch s w w') (hfs : f < s) :
    S.WorldMatch (s + 1) { w with heap := (w.heap.child f).2 }
      { w' with heap := (w'.heap.child (S.image f)).2 } := by
  have hsize : w'.heap.size = S.image w.heap.size := by
    rw [hw.heaps.size, hw.size, image_of_le (Nat.le_of_lt hw.frame_lt)]
  have hlt := hw.frame_lt
  refine ⟨Nat.lt_succ_of_lt hlt, (Heap.size_newFrame _ _).trans (congrArg Nat.succ hw.size),
    ⟨?_, hw.heaps.stamps, ?_, ?_, fun g hg => ?_, fun g m => ?_, fun m hm => ?_, fun m hm => ?_⟩,
    hw.sink, hw.nested.newFrame ?_, hw.nested_right.newFrame ?_⟩
  · simp only [Heap.child, Heap.size_newFrame, hw.heaps.size]
  · rw [Heap.child, Heap.parent?_newFrame, if_neg, hw.heaps.inner]
    rw [hw.heaps.size, hw.size]
    exact Nat.ne_of_lt (Nat.succ_lt_succ hlt)
  · rw [Heap.child, Heap.child, Heap.parent?_newFrame, Heap.parent?_newFrame, if_neg, if_neg,
      hw.heaps.outer]
    · rw [hw.size]
      exact Nat.ne_of_lt hlt
    · rw [hsize]
      exact image_ne.symm
  · rw [Heap.child, Heap.child, Heap.parent?_newFrame, Heap.parent?_newFrame, hsize]
    simp only [image_inj]
    split
    · rfl
    · exact hw.heaps.parent g hg
  · rw [Heap.child, Heap.child, Heap.local?_newFrame, Heap.local?_newFrame]
    exact rel_imp (hw.heaps.bound g m) fun _ _ huv =>
      huv.mono fun _ _ hc => hc.mono (Nat.le_succ s)
  · rw [Heap.child, Heap.local?_newFrame]
    exact hw.heaps.params_outer m hm
  · rw [Heap.child, Heap.local?_newFrame]
    exact hw.heaps.rest_inner m hm
  · rintro p hp
    obtain rfl : f = p := Option.some.inj hp
    exact hw.size.symm ▸ hfs
  · rintro p hp
    obtain rfl : S.image f = p := Option.some.inj hp
    rw [hsize, hw.size]
    exact image_lt hfs

theorem makeClosure (hw : S.WorldMatch s w w') (code : FunctionCode) (f : FrameId) :
    S.WorldMatch s { w with heap := (w.heap.makeClosure code f).2 }
      { w' with heap := (w'.heap.makeClosure code (S.image f)).2 } :=
  { hw with heaps := { hw.heaps with stamps := congrArg Nat.succ hw.heaps.stamps } }

/-- A function made now. -/
theorem closure_new (hw : S.WorldMatch s w w') (code : FunctionCode) (hfs : f < s) :
    S.ClosureMatch s (w.heap.makeClosure code f).1 (w'.heap.makeClosure code (S.image f)).1 where
  lt := hfs
  eq := by
    simp only [Heap.makeClosure, hw.heaps.stamps]

/-- **A name that resolves may be read and overwritten**, whichever of the two frames it is in. -/
theorem resolve (hw : S.WorldMatch s w w') (f : FrameId) (n : Name) :
    Option.Rel (fun o p => (w.heap.valueAt o n).Match (S.ClosureMatch s) (w'.heap.valueAt p n) ∧
      ∀ u v, u.Match (S.ClosureMatch s) v →
        S.WorldMatch s { w with heap := w.heap.overwrite o n u }
          { w' with heap := w'.heap.overwrite p n v })
      (w.heap.owner? f n) (w'.heap.owner? (S.image f) n) := by
  rcases rel_cases (hw.owner n f) with ⟨h₁, h₂⟩ | ⟨o, p, h₁, h₂, rfl⟩
  · rw [h₁, h₂]
    exact .none
  · obtain ⟨v, hv, hmatch⟩ := hw.local_match (Heap.local?_of_owner? h₁)
    rw [h₁, h₂]
    refine .some ⟨?_, fun u u' hu => hw.overwrite o n hu⟩
    rw [Heap.valueAt_of_local? hv]
    exact hmatch

/-- A name is refused in both scopes or declared in both, if it would be looked for there. -/
theorem define (hw : S.WorldMatch s w w') (hfs : f < s) (hplace : S.place f n = S.image f) :
    w.heap.binds f n = w'.heap.binds (S.image f) n ∧ (w.heap.binds f n = false → ∀ u v,
      u.Match (S.ClosureMatch s) v → S.WorldMatch s { w with heap := w.heap.bind f n u }
        { w' with heap := w'.heap.bind (S.image f) n v }) :=
  ⟨by rw [← hplace, hw.binds_place], fun _ _ _ huv => hw.bind hfs hplace huv⟩

end WorldMatch

/-! ## The comparison -/

variable (S) in
/-- Two runs of one program, in the two heaps. The frame that is split is no scope of theirs. -/
def runs : Correspondence Nat where
  world := S.WorldMatch
  closure := S.ClosureMatch
  captured s f g := f < s ∧ g = S.image f
  scope s f g := f ≠ S.frame ∧ f < s ∧ g = S.image f
  name m n := m = n
  code c d := c = d
  expr x y := x = y
  calls _ _ := True
  error _ e e' := e = e'
  fault f f' := f = f'

theorem runs_lawful (names : Interner) : S.runs.Lawful names names where
  closure_mono hst h := h.mono hst
  scope_mono hst h := ⟨h.1, Nat.lt_of_lt_of_le h.2.1 hst, h.2.2⟩
  closure_beq h h' := h.beq_eq h'
  closure_code h := by rw [h.eq]; rfl
  code_match := by
    rintro c _ rfl
    exact Correspondence.codeMatch_refl (fun _ => rfl) (fun _ => rfl) (fun _ => rfl) c
  closure_captured h := ⟨h.lt, by rw [h.eq]⟩
  scope_captured h := h.2
  name_text h := by rw [show _ = _ from h]
  expr_step := by
    rintro x _ rfl
    exact Correspondence.expr_step_refl (fun _ => rfl) (fun _ => rfl) (fun _ => rfl)
      (fun _ => rfl) names x
  resolve := by
    rintro s w w' f _ m _ hw ⟨-, -, rfl⟩ rfl
    exact hw.resolve f m
  define := by
    rintro s w w' f _ m _ hw ⟨hf, hfs, rfl⟩ rfl
    exact hw.define hfs (place_of_ne hf m)
  child := by
    rintro s w w' f _ hw ⟨hfs, rfl⟩
    refine ⟨s + 1, Nat.le_succ s, hw.child hfs, ?_, ?_, ?_⟩
    · rw [hw.size]
      exact Nat.ne_of_gt hw.frame_lt
    · exact Nat.lt_succ_of_le (Nat.le_of_eq hw.size)
    · rw [hw.heaps.size, hw.size, image_of_le (Nat.le_of_lt hw.frame_lt)]
  makeClosure := by
    rintro s w w' f _ c _ hw ⟨-, hfs, rfl⟩ rfl
    exact ⟨s, le_refl s, hw.makeClosure c f, hw.closure_new c hfs⟩
  println line hw := { hw with sink := by rw [hw.sink] }
  raise _ _ := rfl
  full _ := rfl
  leave {k n _ _} h := congrArg (k.enter n).attachBacktrace h
  enter n _ _ := Correspondence.enter_of_forall (fun _ _ => trivial) (fun _ => rfl) _ _ n

/-! ## In the frame that is split -/

/-- **All but declaring can be done in it as in the inner one of the two.** -/
theorem works (hs : S.frame < s) : S.runs.Works s S.frame (S.frame + 1) where
  captured ht := ⟨Nat.lt_of_lt_of_le hs ht, image_frame.symm⟩
  resolve := by
    rintro t w w' m _ - hw rfl
    rw [← image_frame]
    exact hw.resolve S.frame m
  makeClosure := by
    rintro t w w' c _ ht hw rfl
    have hlt := Nat.lt_of_lt_of_le hs ht
    rw [← image_frame]
    exact ⟨t, le_refl t, hw.makeClosure c S.frame, hw.closure_new c hlt⟩

/-- **And names that are no parameters can be declared.** -/
theorem declares (hs : S.frame < s) (hn : n ∉ S.params) :
    S.runs.Declares s S.frame (S.frame + 1) n n := by
  intro t w w' ht hw
  rw [← image_frame]
  exact hw.define (Nat.lt_of_lt_of_le hs ht) (place_of_not_mem hn S.frame)

/-! ## The frame of a call -/

section Start

variable {h : Heap} {p : FrameId} {ps : List Name} {vs : List Value}

theorem local?_callFrame_none (hps : ps.Nodup) (hlen : ps.length = vs.length) (hn : n ∉ ps) :
    (h.withCallFrame p ps vs).local? h.size n = none := by
  rw [Option.eq_none_iff_forall_ne_some]
  intro v hv
  obtain ⟨i, hi, -⟩ := (Heap.local?_withCallFrame hps (Nat.le_of_eq hlen)).mp hv
  exact hn (List.mem_of_getElem? hi)

/-- What a frame binds when that of a call is made is older than that. -/
theorem validIn_of_callFrame (hh : h.WellFormed) (hvs : ∀ v ∈ vs, v.ValidIn h) (hps : ps.Nodup)
    (hlen : ps.length = vs.length) (hv : (h.withCallFrame p ps vs).local? f n = some v) :
    v.ValidIn h := by
  have hlt := Heap.lt_size_of_local? hv
  rw [Heap.size_withCallFrame] at hlt
  rcases Nat.lt_succ_iff_lt_or_eq.mp hlt with hf | rfl
  · rw [Heap.local?, Heap.frame?_withCallFrame_of_lt p ps vs hf] at hv
    exact hh.valid hv
  · obtain ⟨i, -, hi⟩ := (Heap.local?_withCallFrame hps (Nat.le_of_eq hlen)).mp hv
    exact hvs v (List.mem_of_getElem? hi)

/-- As long as the frame of the call has only the parameters, nothing needs to be elsewhere. -/
theorem local?_place_callFrame (hps : ps.Nodup) (hlen : ps.length = vs.length) (f : FrameId)
    (n : Name) : (h.withCallFrame p ps vs).local? (Split.place ⟨h.size, ps⟩ f n) n =
      (h.withCallFrame p ps vs).local? f n := by
  let S : Split := ⟨h.size, ps⟩
  have hnone : ∀ g : Nat, h.size < g → (h.withCallFrame p ps vs).local? g n = none := fun g hg =>
    Heap.local?_eq_none_of_size_le (by rw [Heap.size_withCallFrame]; exact hg) n
  show (h.withCallFrame p ps vs).local? (S.place f n) n = _
  rcases Nat.lt_trichotomy f h.size with hf | rfl | hf
  · rw [place_of_ne (Nat.ne_of_lt hf), image_of_lt hf]
  · by_cases hn : n ∈ ps
    · exact congrArg (fun g => (h.withCallFrame p ps vs).local? g n) (place_param (S := S) hn)
    · rw [local?_callFrame_none hps hlen hn]
      refine hnone _ ?_
      rw [place_of_not_mem hn]
      exact Nat.lt_of_lt_of_eq (Nat.lt_succ_self _) (image_frame (S := S)).symm
  · rw [hnone f hf, place_of_ne (Nat.ne_of_gt hf), image_of_le (Nat.le_of_lt hf)]
    exact hnone _ (Nat.lt_succ_of_lt hf)

/-- **The split at the start**: the frame of a call, as it is made, and the same frame with an
empty one inside of it. -/
theorem start (sink : Sink) (hh : h.WellFormed) (hp : p < h.size) (hvs : ∀ v ∈ vs, v.ValidIn h)
    (hps : ps.Nodup) (hlen : ps.length = vs.length) :
    Split.WorldMatch ⟨h.size, ps⟩ (h.size + 1) ⟨h.withCallFrame p ps vs, sink⟩
      ⟨((h.withCallFrame p ps vs).child h.size).2, sink⟩ := by
  let S : Split := ⟨h.size, ps⟩
  have hsize : (h.withCallFrame p ps vs).size = h.size + 1 := Heap.size_withCallFrame ..
  have hnested : (h.withCallFrame p ps vs).Nested := by
    intro f q hq
    rw [Heap.withCallFrame, Heap.parent?_bindAll] at hq
    exact hh.nested.newFrame (by rintro _ ⟨⟩; exact hp) f q hq
  refine ⟨Nat.lt_succ_self _, hsize, ⟨Heap.size_newFrame _ _, rfl, ?_, ?_, fun f hf => ?_,
    fun f n => ?_, fun n hn => ?_, fun n hn => ?_⟩, rfl, hnested, hnested.newFrame ?_⟩
  · rw [Heap.child, Heap.parent?_newFrame, if_pos hsize.symm]
  · rw [Heap.child, Heap.parent?_newFrame, if_neg]
    rw [hsize]
    exact Nat.ne_of_lt (Nat.lt_succ_self _)
  · have hne : S.image f ≠ (h.withCallFrame p ps vs).size := by
      rw [hsize, ← image_frame (S := S)]
      exact fun heq => hf (image_inj.mp heq)
    rw [Heap.child, Heap.parent?_newFrame, if_neg hne]
    rcases Nat.lt_or_gt_of_ne hf with hf | hf
    · rw [image_of_lt hf]
      cases hq : (h.withCallFrame p ps vs).parent? f with
      | none => rfl
      | some q => exact congrArg some (image_of_lt (Nat.lt_trans (hnested f q hq) hf)).symm
    · rw [image_of_le (Nat.le_of_lt hf), Heap.parent?_eq_none_of_size_le,
        Heap.parent?_eq_none_of_size_le]
      · rfl
      · exact hsize ▸ hf
      · exact hsize ▸ Nat.le_succ_of_le hf
  · rw [Heap.child, Heap.local?_newFrame, local?_place_callFrame hps hlen]
    cases hv : (h.withCallFrame p ps vs).local? f n with
    | none => exact .none
    | some v =>
      exact .some (match_self (validIn_of_callFrame hh hvs hps hlen hv) (Nat.le_refl _)
        (Nat.le_succ _))
  · rw [Heap.child, Heap.local?_newFrame]
    exact Heap.local?_eq_none_of_size_le (Nat.le_of_eq hsize) n
  · rw [Heap.child, Heap.local?_newFrame]
    exact local?_callFrame_none hps hlen hn
  · rintro _ ⟨⟩
    exact Nat.lt_of_lt_of_eq (Nat.lt_succ_self _) hsize.symm

end Start
end Split
end ClosureLang
