import ClosureLang.Proofs.Eval.Invariant
import ClosureLang.Proofs.Heap.Scopes
import ClosureLang.Proofs.Program.Unfolding

/-!
# One expression in two layouts

Two runs start from positions that unfold to one tree, in one heap, up to the layout of the
programs that functions in it lie in. They create the same frames and the same functions under
the same numbers, so all that may differ on the way is again which code a function has, and it
unfolds to one tree on both sides (`Heap.SameTrees`).

What a function is compared by is its stamp and its frame. Both are the same on both sides, so
the runs agree on which functions are equal, also where a literal that stands in one place of one
program stands in two places of the other.
-/

namespace ClosureLang

/-! ## Up to layout -/

/-- The same code, or code whose literals unfold to one tree. -/
inductive FunctionCode.SameTree : FunctionCode → FunctionCode → Prop
  | refl (c : FunctionCode) : SameTree c c
  | unfold {c d : FunctionCode} {t : Tree} (hc : c.arena.WellFormed) (hd : d.arena.WellFormed)
      (hname : c.name = d.name) (hct : c.Unfolds t) (hdt : d.Unfolds t) : SameTree c d

/-- One function, up to the layout of its code. -/
structure Closure.SameTree (c d : Closure) : Prop where
  stamp : c.stamp = d.stamp
  code : c.code.SameTree d.code
  frame : c.frame = d.frame

abbrev Value.SameTree : Value → Value → Prop := Value.Match Closure.SameTree

structure Frame.SameTrees (f g : Frame) : Prop where
  parent : f.parent = g.parent
  depth : f.depth = g.depth
  bindings : List.Forall₂ (fun b c => b.1 = c.1 ∧ b.2.SameTree c.2) f.bindings g.bindings

structure Heap.SameTrees (h h' : Heap) : Prop where
  size : h.size = h'.size
  stamps : h.stamps = h'.stamps
  frames : ∀ f, Option.Rel Frame.SameTrees (h.frame? f) (h'.frame? f)

structure World.SameTrees (w w' : World) : Prop where
  heap : w.heap.SameTrees w'.heap
  sink : w.sink = w'.sink

/-- A position that may be descended to on both sides. -/
inductive Spot.SameTree : Spot → Spot → Prop
  | refl (x : Spot) : SameTree x x
  | unfold {a b : Arena} {l m i j : Nat} {t : Tree} (ha : a.WellFormed) (hb : b.WellFormed)
      (hi : i < l) (hj : j < m) (hit : a.Unfolds i t) (hjt : b.Unfolds j t) :
      SameTree ⟨a, l, i⟩ ⟨b, m, j⟩

theorem Closure.SameTree.refl (c : Closure) : c.SameTree c := ⟨rfl, .refl _, rfl⟩

theorem Closure.SameTree.beq_eq {c d c' d' : Closure} (h : c.SameTree d) (h' : c'.SameTree d') :
    (c == c') = (d == d') := by
  show (c.stamp == c'.stamp && c.frame == c'.frame) = (d.stamp == d'.stamp && d.frame == d'.frame)
  rw [h.stamp, h.frame, h'.stamp, h'.frame]

theorem Value.SameTree.refl (v : Value) : v.SameTree v := Value.Match.refl Closure.SameTree.refl v

namespace Frame.SameTrees

variable {f g : Frame} {v w : Value}

theorem refl (f : Frame) : f.SameTrees f :=
  ⟨rfl, rfl, List.forall₂_same.mpr fun b _ => ⟨rfl, .refl b.2⟩⟩

theorem bind (h : f.SameTrees g) (n : Name) (hvw : v.SameTree w) :
    (f.bind n v).SameTrees (g.bind n w) :=
  ⟨h.parent, h.depth, .cons ⟨rfl, hvw⟩ h.bindings⟩

theorem overwrite (h : f.SameTrees g) (n : Name) (hvw : v.SameTree w) :
    (f.overwrite n v).SameTrees (g.overwrite n w) where
  parent := h.parent
  depth := h.depth
  bindings := by
    simp only [Frame.overwrite, List.forall₂_map_left_iff, List.forall₂_map_right_iff]
    refine h.bindings.imp fun b c hb => ?_
    obtain ⟨hbc, hv⟩ := hb
    rw [← hbc]
    split
    · exact ⟨rfl, hvw⟩
    · exact ⟨hbc, hv⟩

theorem lookup? (h : f.SameTrees g) (n : Name) :
    Option.Rel Value.SameTree (f.lookup? n) (g.lookup? n) := by
  simp only [Frame.lookup?]
  have hall := h.bindings
  generalize f.bindings = bs at hall
  generalize g.bindings = cs at hall
  induction hall with
  | nil => exact .none
  | @cons b c _ _ hbc _ ih =>
    rw [List.find?_cons, List.find?_cons, ← hbc.1]
    cases decide (b.1 = n) with
    | true => exact .some hbc.2
    | false => exact ih

end Frame.SameTrees

/-! ## Heaps -/

namespace Heap.SameTrees

variable {h h' : Heap} {f : FrameId} {v w : Value}

theorem refl (h : Heap) : h.SameTrees h where
  size := rfl
  stamps := rfl
  frames f := by
    cases h.frame? f with
    | none => exact .none
    | some fr => exact .some (.refl fr)

theorem local? (hs : h.SameTrees h') (f : FrameId) (n : Name) :
    Option.Rel Value.SameTree (h.local? f n) (h'.local? f n) := by
  simp only [Heap.local?]
  rcases rel_cases (hs.frames f) with ⟨h₁, h₂⟩ | ⟨fr, fr', h₁, h₂, hfr⟩
  · rw [h₁, h₂]
    exact .none
  · rw [h₁, h₂]
    exact hfr.lookup? n

theorem binds_eq (hs : h.SameTrees h') (f : FrameId) (n : Name) : h.binds f n = h'.binds f n := by
  simp only [Heap.binds]
  rcases rel_cases (hs.local? f n) with ⟨h₁, h₂⟩ | ⟨v, w, h₁, h₂, -⟩
  · rw [h₁, h₂]
  · rw [h₁, h₂]
    rfl

theorem depth_eq (hs : h.SameTrees h') (f : FrameId) : h.depth f = h'.depth f := by
  simp only [Heap.depth]
  rcases rel_cases (hs.frames f) with ⟨h₁, h₂⟩ | ⟨fr, fr', h₁, h₂, hfr⟩
  · rw [h₁, h₂]
  · rw [h₁, h₂]
    exact hfr.depth

/-- Walks outwards are the same, in any heaps. -/
theorem chainUpTo_eq (hs : h.SameTrees h') (k : Nat) (f : FrameId) :
    h.chainUpTo k f = h'.chainUpTo k f := by
  induction k generalizing f with
  | zero => rfl
  | succ k ih =>
    simp only [Heap.chainUpTo]
    rcases rel_cases (hs.frames f) with ⟨h₁, h₂⟩ | ⟨fr, fr', h₁, h₂, hfr⟩
    · rw [h₁, h₂]
    · rw [h₁, h₂]
      simp only [hfr.parent, funext ih]

theorem owner?_eq (hs : h.SameTrees h') (f : FrameId) (n : Name) :
    h.owner? f n = h'.owner? f n := by
  simp only [Heap.owner?, Heap.chain, hs.size, hs.chainUpTo_eq, hs.binds_eq]

theorem valueAt (hs : h.SameTrees h') (f : FrameId) (n : Name) :
    (h.valueAt f n).SameTree (h'.valueAt f n) := by
  simp only [Heap.valueAt]
  rcases rel_cases (hs.local? f n) with ⟨h₁, h₂⟩ | ⟨v, w, h₁, h₂, hvw⟩
  · rw [h₁, h₂]
    exact .void
  · rw [h₁, h₂]
    exact hvw

theorem bind (hs : h.SameTrees h') (f : FrameId) (n : Name) (hvw : v.SameTree w) :
    (h.bind f n v).SameTrees (h'.bind f n w) where
  size := by rw [size_bind, size_bind, hs.size]
  stamps := hs.stamps
  frames g := by
    rw [frame?_bind, frame?_bind]
    rcases rel_cases (hs.frames g) with ⟨h₁, h₂⟩ | ⟨fr, fr', h₁, h₂, hfr⟩
    · rw [h₁, h₂]
      split <;> exact .none
    · rw [h₁, h₂]
      split
      · exact .some (hfr.bind n hvw)
      · exact .some hfr

theorem overwrite (hs : h.SameTrees h') (f : FrameId) (n : Name) (hvw : v.SameTree w) :
    (h.overwrite f n v).SameTrees (h'.overwrite f n w) where
  size := by rw [size_overwrite, size_overwrite, hs.size]
  stamps := hs.stamps
  frames g := by
    rw [frame?_overwrite, frame?_overwrite]
    rcases rel_cases (hs.frames g) with ⟨h₁, h₂⟩ | ⟨fr, fr', h₁, h₂, hfr⟩
    · rw [h₁, h₂]
      split <;> exact .none
    · rw [h₁, h₂]
      split
      · exact .some (hfr.overwrite n hvw)
      · exact .some hfr

theorem child (hs : h.SameTrees h') (f : FrameId) : (h.child f).2.SameTrees (h'.child f).2 where
  size := by rw [Heap.child, Heap.child, size_newFrame, size_newFrame, hs.size]
  stamps := hs.stamps
  frames g := by
    rw [Heap.child, Heap.child, frame?_newFrame, frame?_newFrame, ← hs.size]
    split
    · exact .some ⟨rfl, congrArg (· + 1) (hs.depth_eq f), .nil⟩
    · exact hs.frames g

theorem makeClosure (hs : h.SameTrees h') (c d : FunctionCode) (f : FrameId) :
    (h.makeClosure c f).2.SameTrees (h'.makeClosure d f).2 :=
  { hs with stamps := congrArg (· + 1) hs.stamps }

end Heap.SameTrees

theorem World.SameTrees.refl (w : World) : w.SameTrees w := ⟨.refl w.heap, rfl⟩

/-! ## The comparison -/

/-- Two runs of code that unfolds to the same trees. -/
def layouts : Correspondence Throughout where
  world _ := World.SameTrees
  closure _ := Closure.SameTree
  captured _ f g := f = g
  scope _ f g := f = g
  name m n := m = n
  code := FunctionCode.SameTree
  expr := Spot.SameTree
  calls _ _ := True
  error _ e e' := e = e'
  fault f f' := f = f'

theorem layouts_codeMatch {c d : FunctionCode} (h : c.SameTree d) : layouts.CodeMatch c d := by
  cases h with
  | refl => exact Correspondence.codeMatch_refl (fun _ => rfl) Spot.SameTree.refl (fun _ => rfl) c
  | unfold hc hd hname hct hdt =>
    obtain ⟨-, ⟨ps, hps, hps'⟩, u, hu, hu'⟩ := hct.function_parts hdt
    have hbody : Spot.SameTree ⟨c.arena, c.body + 1, c.body⟩ ⟨d.arena, d.body + 1, d.body⟩ :=
      .unfold hc hd (Nat.lt_succ_self _) (Nat.lt_succ_self _) hu hu'
    have hcps : c.params? = some ps := hps
    have hdps : d.params? = some ps := hps'
    refine ⟨hname, ⟨?_, fun hnone => ?_⟩, hbody⟩
    · rw [hcps, hdps]
      exact .some (List.forall₂_same.mpr fun _ _ => rfl)
    · rw [hcps] at hnone
      cases hnone

/-- Nodes that unfold to one tree have children that do, and code that does. -/
theorem layouts_nodeMatch (names : Interner) {a b : Arena} {l m i j : Nat} {n n' : Node} {t : Tree}
    (ha : a.WellFormed) (hb : b.WellFormed) (hn : a.node? i = some n) (hn' : b.node? j = some n')
    (hi : i ≤ l) (hj : j ≤ m) (ht : n.Unfolds a a.Unfolds t) (ht' : n'.Unfolds b b.Unfolds t) :
    layouts.NodeMatch names names a b l m n n' := by
  -- Children come before their parents, so one level less suffices for each of them.
  have hchild : ∀ i' j' : Nat, (∃ u, (i' < i ∧ a.Unfolds i' u) ∧ (j' < j ∧ b.Unfolds j' u)) →
      Spot.SameTree ⟨a, l, i'⟩ ⟨b, m, j'⟩ := by
    rintro i' j' ⟨u, ⟨hi', hu⟩, hj', hu'⟩
    exact .unfold ha hb (Nat.lt_of_lt_of_le hi' hi) (Nat.lt_of_lt_of_le hj' hj) hu hu'
  refine ((ht.before ha hn).node_match (ht'.before hb hn')).imp (fun _ _ h => h) hchild ?_ ?_
  · rintro s s' ⟨ids, ids', hids, hids', hall⟩
    rw [hids, hids']
    exact ⟨.some (hall.imp hchild), fun hnone => by cases hnone⟩
  · rintro d e ⟨u, hd, he⟩
    have hd' := hd.imp (fun _ _ _ h => h.2) fun _ _ _ _ _ _ _ h => h.2
    have he' := he.imp (fun _ _ _ h => h.2) fun _ _ _ _ _ _ _ h => h.2
    exact .unfold ha hb (congrArg (Option.map names.lookup) (hd'.function_parts he').1) hd' he'

theorem layouts_lawful (names : Interner) : layouts.Lawful names names where
  closure_mono _ h := h
  scope_mono _ h := h
  closure_beq h h' := h.beq_eq h'
  closure_code h := h.code
  code_match h := layouts_codeMatch h
  closure_captured h := h.frame
  scope_captured h := h
  name_text h := by rw [show _ = _ from h]
  expr_step := by
    intro x y h
    cases h with
    | refl =>
      exact Correspondence.expr_step_refl (fun _ => rfl) Spot.SameTree.refl
        FunctionCode.SameTree.refl (fun _ => rfl) names x
    | @unfold a b l m i j t ha hb hi hj hit hjt =>
      obtain ⟨l, rfl⟩ := Nat.exists_eq_succ_of_ne_zero (Nat.ne_zero_of_lt hi)
      obtain ⟨m, rfl⟩ := Nat.exists_eq_succ_of_ne_zero (Nat.ne_zero_of_lt hj)
      cases hit with
      | node hn ht =>
        cases hjt with
        | node hn' ht' =>
          refine .inr ⟨l, m, rfl, rfl, ⟨?_, fun hnone => ?_⟩⟩
          · rw [hn, hn']
            exact .some (layouts_nodeMatch names ha hb hn hn' (Nat.le_of_lt_succ hi)
              (Nat.le_of_lt_succ hj) ht ht')
          · rw [hn] at hnone
            cases hnone
  resolve := by
    rintro _ w w' f _ n _ hw rfl rfl
    rw [← hw.heap.owner?_eq f n]
    cases ho : w.heap.owner? f n with
    | none => exact .none
    | some o =>
      exact .some ⟨hw.heap.valueAt o n, fun u v huv => ⟨hw.heap.overwrite o n huv, hw.sink⟩⟩
  define := by
    rintro _ w w' f _ n _ hw rfl rfl
    exact ⟨hw.heap.binds_eq f n, fun _ u v huv => ⟨hw.heap.bind f n huv, hw.sink⟩⟩
  child := by
    rintro _ w w' f _ hw rfl
    exact ⟨.stage, trivial, ⟨hw.heap.child f, hw.sink⟩, hw.heap.size⟩
  makeClosure := by
    rintro _ w w' f _ c d hw rfl hcd
    exact ⟨.stage, trivial, ⟨hw.heap.makeClosure c d f, hw.sink⟩, hw.heap.stamps, hcd, rfl⟩
  println line hw := ⟨hw.heap, by rw [hw.sink]⟩
  raise _ _ := rfl
  full _ := rfl
  leave {k n _ _} h := congrArg (k.enter n).attachBacktrace h
  enter n _ _ := Correspondence.enter_of_forall (fun _ _ => trivial) (fun _ => rfl) _ _ n

end ClosureLang
