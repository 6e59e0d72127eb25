import ClosureLang.Proofs.Eval.Lockstep
import ClosureLang.Proofs.Heap.Reach
import ClosureLang.Proofs.Program.Alike
import Mathlib.Order.Nat

/-!
# Two builds of one program

Programs that are alike run over two tables of texts, in two heaps that have nothing in common
but some frames, which hold the same values under the same texts and no functions. From there on
the runs go alike. In both of them the frames and the functions that are made since are counted
from what the heap held at the start, and the ones of one count correspond (`Scope`).

A name is a slot, and the two slots of one text may be any two numbers. All that a run does with
a name is to compare it with others and to look up its text, and neither tells the tables apart.
-/

namespace ClosureLang

open Interner

/-- Frames of two heaps that hold the same under the same texts, and no function. -/
structure Heap.SharedScopes (t₁ t₂ : Interner) (h₁ h₂ : Heap)
    (shared : FrameId → FrameId → Prop) : Prop where
  lt : ∀ {f g : Nat}, shared f g → f < h₁.size ∧ g < h₂.size
  eq_iff : ∀ {f g f' g'}, shared f g → shared f' g' → (f = f' ↔ g = g')
  parent : ∀ {f g}, shared f g → Option.Rel shared (h₁.parent? f) (h₂.parent? g)
  bound : ∀ {f g m n}, shared f g → SameText t₁ t₂ m n → h₁.local? f m = h₂.local? g n
  plain : ∀ {f g n v}, shared f g → h₁.local? f n = some v → v.captured? = none

/-- Outermost frames that were just made. -/
theorem Heap.sharedScopes_root (t₁ t₂ : Interner) (h₁ h₂ : Heap) :
    h₁.root.2.SharedScopes t₁ t₂ h₂.root.2 fun f g => f = h₁.size ∧ g = h₂.size where
  lt := by
    rintro f g ⟨rfl, rfl⟩
    simp [Heap.root, Heap.size_newFrame]
  eq_iff := by
    rintro f g f' g' ⟨rfl, rfl⟩ ⟨rfl, rfl⟩
    simp
  parent := by
    rintro f g ⟨rfl, rfl⟩
    simp [Heap.root, Heap.parent?_newFrame]
  bound := by
    rintro f g m n ⟨rfl, rfl⟩ -
    simp [Heap.root, Heap.local?_newFrame, Heap.local?_eq_none_of_size_le]
  plain := by
    rintro f g n v ⟨rfl, rfl⟩ hv
    simp [Heap.root, Heap.local?_newFrame, Heap.local?_eq_none_of_size_le] at hv

/-- A host gives frames that hold the same one more value, which is no function. -/
theorem Heap.SharedScopes.bind {t₁ t₂ : Interner} {h₁ h₂ : Heap}
    {shared : FrameId → FrameId → Prop} (hs : h₁.SharedScopes t₁ t₂ h₂ shared)
    (hd₁ : t₁.Distinct) (hd₂ : t₂.Distinct) {f g : FrameId} (hfg : shared f g) {m n : Name}
    (hmn : SameText t₁ t₂ m n) {v : Value} (hv : v.captured? = none) :
    (h₁.bind f m v).SharedScopes t₁ t₂ (h₂.bind g n v) shared where
  lt h := by
    rw [size_bind, size_bind]
    exact hs.lt h
  eq_iff := hs.eq_iff
  parent h := by
    rw [parent?_bind, parent?_bind]
    exact hs.parent h
  bound h hn := by
    have hentry := and_congr (hs.eq_iff hfg h) (hn.eq_iff hd₁ hd₂ hmn)
    rw [local?_bind_of_lt (hs.lt hfg).1, local?_bind_of_lt (hs.lt hfg).2, hs.bound h hn]
    simp only [hentry]
  plain h hu := by
    rw [local?_bind_of_lt (hs.lt hfg).1] at hu
    split at hu
    · cases hu
      exact hv
    · exact hs.plain h hu

/-- Two tables and two heaps to start from. -/
structure Twins where
  leftNames : Interner
  rightNames : Interner
  left : Heap
  right : Heap
  shared : FrameId → FrameId → Prop
  distinct_left : leftNames.Distinct
  distinct_right : rightNames.Distinct
  nested_left : left.Nested
  nested_right : right.Nested
  scopes : left.SharedScopes leftNames rightNames right shared

namespace Twins

variable (T : Twins)

/-- Frames that correspond when `s` of them were created. -/
def Scope (s : Nat) (f g : Nat) : Prop :=
  T.shared f g ∨ ∃ k, k < s ∧ f = T.left.size + k ∧ g = T.right.size + k

abbrev SameName : Name → Name → Prop := SameText T.leftNames T.rightNames

/-- Functions that were made by corresponding literals. -/
structure ClosureAlike (s : Nat) (c d : Closure) : Prop where
  stamp : ∃ k, c.stamp = T.left.stamps + k ∧ d.stamp = T.right.stamps + k
  code : c.code.Alike T.leftNames T.rightNames d.code
  frame : T.Scope s c.frame d.frame

/-- The worlds of the two runs, when `s` frames were created. -/
structure WorldAlike (s : Nat) (w w' : World) : Prop where
  size : w.heap.size = T.left.size + s
  size_right : w'.heap.size = T.right.size + s
  stamps : ∃ k, w.heap.stamps = T.left.stamps + k ∧ w'.heap.stamps = T.right.stamps + k
  sink : w'.sink = w.sink
  nested : w.heap.Nested
  nested_right : w'.heap.Nested
  parent : ∀ f g, T.Scope s f g → Option.Rel (T.Scope s) (w.heap.parent? f) (w'.heap.parent? g)
  bound : ∀ f g m n, T.Scope s f g → T.SameName m n →
    Option.Rel (Value.Match (T.ClosureAlike s)) (w.heap.local? f m) (w'.heap.local? g n)

variable {T} {s t : Nat} {w w' : World} {f g f' g' : Nat} {m n m' n' : Name} {u v : Value}

theorem Scope.mono (hst : s ≤ t) (h : T.Scope s f g) : T.Scope t f g :=
  h.imp id fun ⟨k, hk, hf, hg⟩ => ⟨k, Nat.lt_of_lt_of_le hk hst, hf, hg⟩

/-- **Frames correspond one to one.** -/
theorem Scope.eq_iff (h : T.Scope s f g) (h' : T.Scope t f' g') : f = f' ↔ g = g' := by
  -- What is shared was there at the start, and so has a smaller number than what was made since.
  rcases h with h | ⟨k, -, rfl, rfl⟩
  · rcases h' with h' | ⟨k', -, rfl, rfl⟩
    · exact T.scopes.eq_iff h h'
    · obtain ⟨hf, hg⟩ := T.scopes.lt h
      omega
  · rcases h' with h' | ⟨k', -, rfl, rfl⟩
    · obtain ⟨hf, hg⟩ := T.scopes.lt h'
      omega
    · omega

theorem Scope.lt (h : T.Scope s f g) : f < T.left.size + s ∧ g < T.right.size + s := by
  rcases h with h | ⟨k, hk, rfl, rfl⟩
  · obtain ⟨hf, hg⟩ := T.scopes.lt h
    omega
  · omega

/-- The next frame on both sides. -/
theorem Scope.new : T.Scope (s + 1) (T.left.size + s) (T.right.size + s) :=
  .inr ⟨s, Nat.lt_succ_self s, rfl, rfl⟩

theorem Scope.of_succ (h : T.Scope (s + 1) f g) :
    (f = T.left.size + s ∧ g = T.right.size + s) ∨ T.Scope s f g := by
  rcases h with h | ⟨k, hk, hf, hg⟩
  · exact .inr (.inl h)
  · rcases Nat.lt_succ_iff_lt_or_eq.1 hk with hk | rfl
    · exact .inr (.inr ⟨k, hk, hf, hg⟩)
    · exact .inl ⟨hf, hg⟩

theorem ClosureAlike.mono {c d : Closure} (hst : s ≤ t) (h : T.ClosureAlike s c d) :
    T.ClosureAlike t c d := ⟨h.stamp, h.code, h.frame.mono hst⟩

theorem ClosureAlike.beq_eq {c d c' d' : Closure} (h : T.ClosureAlike s c d)
    (h' : T.ClosureAlike s c' d') : (c == c') = (d == d') := by
  have hstamp : c.stamp = c'.stamp ↔ d.stamp = d'.stamp := by
    obtain ⟨k, hc, hd⟩ := h.stamp
    obtain ⟨k', hc', hd'⟩ := h'.stamp
    omega
  have hframe : c.frame = c'.frame ↔ d.frame = d'.frame := h.frame.eq_iff h'.frame
  show (c.stamp == c'.stamp && c.frame == c'.frame) = (d.stamp == d'.stamp && d.frame == d'.frame)
  rw [Bool.eq_iff_iff]
  simp [hstamp, hframe]

theorem SameName.eq_iff (h : T.SameName m n) (h' : T.SameName m' n') : m = m' ↔ n = n' :=
  SameText.eq_iff T.distinct_left T.distinct_right h h'

/-- Under corresponding frames and names, the same entry is meant on both sides. -/
theorem entry_iff (hf : T.Scope s f g) (hf' : T.Scope t f' g') (hm : T.SameName m n)
    (hm' : T.SameName m' n') : (f = f' ∧ m' = m) ↔ (g = g' ∧ n' = n) :=
  and_congr (hf.eq_iff hf') (SameName.eq_iff hm' hm)

/-- A value that is no function corresponds to itself. -/
theorem match_plain {C : Closure → Closure → Prop} (h : v.captured? = none) : v.Match C v := by
  cases v with
  | function c => cases h
  | void => exact .void
  | number x => exact .number x
  | bool b => exact .bool b
  | str t => exact .str t

/-! ## What the operations on heaps keep -/

namespace WorldAlike

theorem binds_eq (hw : T.WorldAlike s w w') (hf : T.Scope s f g) (hn : T.SameName m n) :
    w.heap.binds f m = w'.heap.binds g n := by
  unfold Heap.binds
  rcases rel_cases (hw.bound f g m n hf hn) with ⟨h₁, h₂⟩ | ⟨u, v, h₁, h₂, -⟩
  · rw [h₁, h₂]
  · rw [h₁, h₂]
    rfl

/-- **A name resolves to corresponding frames.** -/
theorem owner (hw : T.WorldAlike s w w') (hf : T.Scope s f g) (hn : T.SameName m n) :
    Option.Rel (T.Scope s) (w.heap.owner? f m) (w'.heap.owner? g n) := by
  -- A walk outwards leads to ever smaller numbers on the left; the right one keeps up with it.
  induction f using Nat.strongRecOn generalizing g with
  | ind f ih =>
    rw [Heap.owner?_eq hw.nested.grounded, Heap.owner?_eq hw.nested_right.grounded,
      hw.binds_eq hf hn]
    split
    · exact .some hf
    · rcases rel_cases (hw.parent f g hf) with ⟨h₁, h₂⟩ | ⟨p, q, h₁, h₂, hpq⟩
      · rw [h₁, h₂]
        exact .none
      · rw [h₁, h₂]
        exact ih p (hw.nested f p h₁) hpq

/-- What corresponding owners hold. -/
theorem value_match (hw : T.WorldAlike s w w') (hf : T.Scope s f g) (hn : T.SameName m n)
    (hv : w.heap.local? f m = some u) :
    (w.heap.valueAt f m).Match (T.ClosureAlike s) (w'.heap.valueAt g n) := by
  rcases rel_cases (hw.bound f g m n hf hn) with ⟨h₁, -⟩ | ⟨u', v, h₁, h₂, huv⟩
  · rw [h₁] at hv
    cases hv
  · rw [Heap.valueAt_of_local? h₁, Heap.valueAt_of_local? h₂]
    exact huv

/-- Whatever changes in corresponding frames, if what they bind still matches. -/
theorem change (hw : T.WorldAlike s w w') {h h' : Heap} (hl : w.heap.ChangedAt f h)
    (hr : w'.heap.ChangedAt g h')
    (hbound : ∀ f' g' m' n', T.Scope s f' g' → T.SameName m' n' →
      Option.Rel (Value.Match (T.ClosureAlike s)) (h.local? f' m') (h'.local? g' n')) :
    T.WorldAlike s { w with heap := h } { w' with heap := h' } where
  size := hl.size.trans hw.size
  size_right := hr.size.trans hw.size_right
  stamps := by
    rw [hl.stamps, hr.stamps]
    exact hw.stamps
  sink := hw.sink
  nested := hl.nested hw.nested
  nested_right := hr.nested hw.nested_right
  parent f' g' hf' := by
    rw [hl.parent, hr.parent]
    exact hw.parent f' g' hf'
  bound := hbound

theorem overwrite (hw : T.WorldAlike s w w') (hf : T.Scope s f g) (hn : T.SameName m n)
    (huv : u.Match (T.ClosureAlike s) v) :
    T.WorldAlike s { w with heap := w.heap.overwrite f m u }
      { w' with heap := w'.heap.overwrite g n v } := by
  refine hw.change (Heap.changedAt_overwrite ..) (Heap.changedAt_overwrite ..) ?_
  intro f' g' m' n' hf' hn'
  rw [Heap.local?_overwrite, Heap.local?_overwrite]
  simp only [entry_iff hf hf' hn hn']
  split
  · rcases rel_cases (hw.bound f' g' m' n' hf' hn') with ⟨h₁, h₂⟩ | ⟨u', v', h₁, h₂, -⟩
    · rw [h₁, h₂]
      exact .none
    · rw [h₁, h₂]
      exact .some huv
  · exact hw.bound f' g' m' n' hf' hn'

theorem bind (hw : T.WorldAlike s w w') (hf : T.Scope s f g) (hn : T.SameName m n)
    (huv : u.Match (T.ClosureAlike s) v) :
    T.WorldAlike s { w with heap := w.heap.bind f m u }
      { w' with heap := w'.heap.bind g n v } := by
  refine hw.change (Heap.changedAt_bind ..) (Heap.changedAt_bind ..) ?_
  intro f' g' m' n' hf' hn'
  obtain ⟨hlt, hlt'⟩ := hf.lt
  rw [← hw.size] at hlt
  rw [← hw.size_right] at hlt'
  rw [Heap.local?_bind_of_lt hlt, Heap.local?_bind_of_lt hlt']
  simp only [entry_iff hf hf' hn hn']
  split
  · exact .some huv
  · exact hw.bound f' g' m' n' hf' hn'

/-- Frames inside corresponding ones correspond. -/
theorem child (hw : T.WorldAlike s w w') (hf : T.Scope s f g) :
    T.WorldAlike (s + 1) { w with heap := (w.heap.child f).2 }
      { w' with heap := (w'.heap.child g).2 } where
  size := (Heap.size_newFrame _ _).trans (congrArg Nat.succ hw.size)
  size_right := (Heap.size_newFrame _ _).trans (congrArg Nat.succ hw.size_right)
  stamps := hw.stamps
  sink := hw.sink
  nested := hw.nested.newFrame fun p hp => by
    obtain rfl : f = p := Option.some.inj hp
    exact hw.size.symm ▸ hf.lt.1
  nested_right := hw.nested_right.newFrame fun p hp => by
    obtain rfl : g = p := Option.some.inj hp
    exact hw.size_right.symm ▸ hf.lt.2
  parent f' g' hf' := by
    rw [Heap.child, Heap.child, Heap.parent?_newFrame, Heap.parent?_newFrame, hw.size,
      hw.size_right]
    rcases hf'.of_succ with ⟨rfl, rfl⟩ | hf'
    · rw [if_pos rfl, if_pos rfl]
      exact .some (hf.mono (Nat.le_succ s))
    · rw [if_neg (Nat.ne_of_lt hf'.lt.1), if_neg (Nat.ne_of_lt hf'.lt.2)]
      exact rel_imp (hw.parent f' g' hf') fun _ _ hp => hp.mono (Nat.le_succ s)
  bound f' g' m' n' hf' hn' := by
    rw [Heap.child, Heap.child, Heap.local?_newFrame, Heap.local?_newFrame]
    rcases hf'.of_succ with ⟨rfl, rfl⟩ | hf'
    · rw [Heap.local?_eq_none_of_size_le (Nat.le_of_eq hw.size),
        Heap.local?_eq_none_of_size_le (Nat.le_of_eq hw.size_right)]
      exact .none
    · exact rel_imp (hw.bound f' g' m' n' hf' hn') fun _ _ hv =>
        hv.mono fun _ _ hc => hc.mono (Nat.le_succ s)

theorem makeClosure (hw : T.WorldAlike s w w') (code code' : FunctionCode) (f g : FrameId) :
    T.WorldAlike s { w with heap := (w.heap.makeClosure code f).2 }
      { w' with heap := (w'.heap.makeClosure code' g).2 } :=
  { hw with
    stamps := by
      obtain ⟨k, hk, hk'⟩ := hw.stamps
      exact ⟨k + 1, congrArg Nat.succ hk, congrArg Nat.succ hk'⟩ }

/-- Functions made now. -/
theorem closure_new (hw : T.WorldAlike s w w') (hf : T.Scope s f g) {c d : FunctionCode}
    (hc : c.Alike T.leftNames T.rightNames d) :
    T.ClosureAlike s (w.heap.makeClosure c f).1 (w'.heap.makeClosure d g).1 :=
  ⟨hw.stamps, hc, hf⟩

end WorldAlike

/-! ## The comparison -/

/-- Positions of programs that are alike. -/
structure SpotAlike (t₁ t₂ : Interner) (x y : Spot) : Prop where
  arena : x.arena.Alike t₁ t₂ y.arena
  levels : x.levels = y.levels
  id : x.id = y.id

variable (T) in
/-- Two runs of programs that are alike. -/
def runs : Correspondence Nat where
  world := T.WorldAlike
  closure := T.ClosureAlike
  captured := T.Scope
  scope := T.Scope
  name := T.SameName
  code := FunctionCode.Alike T.leftNames T.rightNames
  expr := SpotAlike T.leftNames T.rightNames
  calls _ _ := True
  error _ e e' := e = e'
  fault f f' := f = f'

theorem codeMatch {c d : FunctionCode} (h : c.Alike T.leftNames T.rightNames d) :
    T.runs.CodeMatch c d where
  name := h.name
  params := by
    constructor
    · rw [FunctionCode.params?, FunctionCode.params?, h.definition.params]
      exact h.arena.params? _
    · intro _
      exact congrArg Fault.noParams h.definition.params
  body := by
    refine ⟨h.arena, ?_, h.definition.body⟩
    exact congrArg (· + 1) h.definition.body

/-- Nodes that are alike have children and literals that are. -/
theorem nodeMatch {a b : Arena} {l : Nat} {nd nd' : Node}
    (ha : a.Alike T.leftNames T.rightNames b) (h : nd.Alike T.leftNames T.rightNames nd') :
    T.runs.NodeMatch T.leftNames T.rightNames a b l l nd nd' := by
  refine h.imp (fun _ _ => id) (fun i j hij => ⟨ha, rfl, hij⟩) ?_ ?_
  · rintro u _ rfl
    refine ⟨?_, fun _ => rfl⟩
    rw [ha.list? u]
    cases b.list? u with
    | none => exact .none
    | some ids => exact .some (List.forall₂_same.mpr fun i _ => ⟨ha, rfl, rfl⟩)
  · intro d e hde
    refine ⟨ha, hde, ?_⟩
    rcases rel_cases hde.name with ⟨hd, he⟩ | ⟨m, n, hd, he, hmn⟩
    · simp [hd, he]
    · simp [hd, he, hmn.text]

theorem runs_lawful : T.runs.Lawful T.leftNames T.rightNames where
  closure_mono hst h := h.mono hst
  scope_mono hst h := h.mono hst
  closure_beq h h' := h.beq_eq h'
  closure_code h := h.code
  code_match h := codeMatch h
  closure_captured h := h.frame
  scope_captured h := h
  name_text h := h.text
  expr_step := by
    rintro ⟨a, l, i⟩ ⟨b, _, _⟩ ⟨ha, rfl, rfl⟩
    cases l with
    | zero => exact .inl ⟨rfl, rfl, rfl⟩
    | succ l =>
      exact .inr ⟨l, l, rfl, rfl, rel_imp (ha.node? i) fun _ _ => nodeMatch ha, fun _ => rfl⟩
  resolve := by
    intro s w w' f g m n hw hf hn
    rcases rel_cases (hw.owner hf hn) with ⟨h₁, h₂⟩ | ⟨o, p, h₁, h₂, hop⟩
    · rw [h₁, h₂]
      exact .none
    · rw [h₁, h₂]
      exact .some ⟨hw.value_match hop hn (Heap.local?_of_owner? h₁),
        fun u v huv => hw.overwrite hop hn huv⟩
  define hw hf hn := ⟨hw.binds_eq hf hn, fun _ _ _ huv => hw.bind hf hn huv⟩
  child := by
    intro s w w' f g hw hf
    refine ⟨s + 1, Nat.le_succ s, hw.child hf, ?_⟩
    rw [hw.size, hw.size_right]
    exact Scope.new
  makeClosure hw hf hc := ⟨_, le_refl _, hw.makeClosure _ _ _ _, hw.closure_new hf hc⟩
  println line hw := { hw with sink := by rw [hw.sink] }
  raise _ _ := rfl
  full _ := rfl
  leave {k n _ _} h := congrArg (k.enter n).attachBacktrace h
  enter n _ _ := Correspondence.enter_of_forall (fun _ _ => trivial) (fun _ => rfl) _ _ n

variable (T) in
/-- The runs start alike. -/
theorem start (sink : Sink) : T.WorldAlike 0 ⟨T.left, sink⟩ ⟨T.right, sink⟩ where
  size := rfl
  size_right := rfl
  stamps := ⟨0, rfl, rfl⟩
  sink := rfl
  nested := T.nested_left
  nested_right := T.nested_right
  parent f g hf := by
    rcases hf with hf | ⟨k, hk, -⟩
    · exact rel_imp (T.scopes.parent hf) fun _ _ => .inl
    · exact absurd hk (Nat.not_lt_zero k)
  bound f g m n hf hn := by
    rcases hf with hf | ⟨k, hk, -⟩
    · have hsame : T.left.local? f m = T.right.local? g n := T.scopes.bound hf hn
      show Option.Rel _ (T.left.local? f m) (T.right.local? g n)
      rw [← hsame]
      cases hv : T.left.local? f m with
      | none => exact .none
      | some v => exact .some (match_plain (T.scopes.plain hf hv))
    · exact absurd hk (Nat.not_lt_zero k)

end Twins
end ClosureLang
