import ClosureLang.Proofs.Eval.Steps
import ClosureLang.Proofs.Heap.Changes
import Mathlib.Data.List.Induction

/-!
# The frame of a call, exactly

The frame of a call is created empty and filled from left to right, and each parameter is refused
if the frame binds it already. So a list of parameters without repetitions is bound as a whole
(`activate_admitted`), and one with a repetition up to there (`activate_repeated`). The latter
leaves a frame behind that is half filled and that nobody has. Either way the heap is one that is
written down at once, `Heap.withCallFrame`, and all that a frame can be asked is asked there.
-/

namespace ClosureLang

/-- What repeats something has a first place where it does. -/
theorem exists_first_repeated {α : Type} {l : List α} (h : ¬ l.Nodup) :
    ∃ before a after, l = before ++ a :: after ∧ before.Nodup ∧ a ∈ before := by
  induction l using List.reverseRecOn with
  | nil => exact absurd List.nodup_nil h
  | append_singleton l a ih =>
    by_cases hl : l.Nodup
    · refine ⟨l, a, [], rfl, hl, ?_⟩
      by_contra ha
      exact h (List.nodup_append.mpr ⟨hl, List.nodup_singleton a, by grind⟩)
    · obtain ⟨before, b, after, rfl, hbefore, hb⟩ := ih hl
      exact ⟨before, b, after ++ [a], by simp, hbefore, hb⟩

namespace Heap

variable {h : Heap} {f g p : FrameId} {n : Name} {v : Value} {bs : List (Name × Value)}

/-! ## Many bindings in one frame -/

theorem binds_bind_of_ne_name {m : Name} (hmn : m ≠ n) :
    (h.bind f n v).binds g m = h.binds g m := by
  rw [binds, local?_bind, if_neg fun hc => hmn hc.2, binds]

/-- Binds names in one frame, from left to right. -/
def bindAll (f : FrameId) : List (Name × Value) → Heap → Heap
  | [], h => h
  | (n, v) :: bs, h => bindAll f bs (h.bind f n v)

@[simp] theorem stamps_bindAll (f : FrameId) (bs : List (Name × Value)) (h : Heap) :
    (h.bindAll f bs).stamps = h.stamps := by
  induction bs generalizing h with
  | nil => rfl
  | cons b bs ih => exact ih _

@[simp] theorem size_bindAll (f : FrameId) (bs : List (Name × Value)) (h : Heap) :
    (h.bindAll f bs).size = h.size := by
  induction bs generalizing h with
  | nil => rfl
  | cons b bs ih => exact (ih _).trans (size_bind ..)

@[simp] theorem parent?_bindAll (f : FrameId) (bs : List (Name × Value)) (h : Heap) (g : FrameId) :
    (h.bindAll f bs).parent? g = h.parent? g := by
  induction bs generalizing h with
  | nil => rfl
  | cons b bs ih => exact (ih _).trans (parent?_bind ..)

@[simp] theorem depth_bindAll (f : FrameId) (bs : List (Name × Value)) (h : Heap) (g : FrameId) :
    (h.bindAll f bs).depth g = h.depth g := by
  induction bs generalizing h with
  | nil => rfl
  | cons b bs ih => exact (ih _).trans (depth_bind ..)

theorem frame?_bindAll_of_ne (hfg : f ≠ g) (bs : List (Name × Value)) (h : Heap) :
    (h.bindAll f bs).frame? g = h.frame? g := by
  induction bs generalizing h with
  | nil => rfl
  | cons b bs ih => rw [bindAll, ih, frame?_bind, if_neg hfg]

/-- Names that are distinct have the values that they are listed with, and others what they
had. -/
theorem local?_bindAll (hf : f < h.size) (hbs : (bs.map Prod.fst).Nodup) :
    (h.bindAll f bs).local? f n = some v ↔
      (n, v) ∈ bs ∨ n ∉ bs.map Prod.fst ∧ h.local? f n = some v := by
  induction bs generalizing h with
  | nil => simp [bindAll]
  | cons b bs ih =>
    obtain ⟨m, u⟩ := b
    obtain ⟨hm, hbs⟩ := List.nodup_cons.mp hbs
    rw [bindAll, ih (by rwa [size_bind]) hbs, local?_bind_of_lt hf]
    by_cases hnm : n = m
    · subst hnm
      have hnot : ∀ w, (n, w) ∉ bs := fun w hw => hm (List.mem_map.mpr ⟨(n, w), hw, rfl⟩)
      simp [hnot, hm, eq_comm]
    · simp [hnm]

/-! ## The frame of a call -/

/-- A new frame binds nothing. -/
theorem binds_child_size (h : Heap) (p : FrameId) (n : Name) :
    (h.child p).2.binds h.size n = false := by
  rw [child, binds_newFrame, binds, local?_eq_none_of_size_le (Nat.le_refl _), Option.isSome_none]

/-- The heap with one more frame, inside `p`, that binds these names to these values. -/
def withCallFrame (h : Heap) (p : FrameId) (ns : List Name) (vs : List Value) : Heap :=
  (h.child p).2.bindAll h.size (ns.zip vs)

variable {ns : List Name} {vs : List Value}

@[simp] theorem stamps_withCallFrame (h : Heap) (p : FrameId) (ns : List Name) (vs : List Value) :
    (h.withCallFrame p ns vs).stamps = h.stamps :=
  stamps_bindAll _ _ _

@[simp] theorem size_withCallFrame (h : Heap) (p : FrameId) (ns : List Name) (vs : List Value) :
    (h.withCallFrame p ns vs).size = h.size + 1 := by
  rw [withCallFrame, size_bindAll, child, size_newFrame]

theorem parent?_withCallFrame (h : Heap) (p : FrameId) (ns : List Name) (vs : List Value) :
    (h.withCallFrame p ns vs).parent? h.size = some p := by
  rw [withCallFrame, parent?_bindAll, child, parent?_newFrame, if_pos rfl]

theorem depth_withCallFrame (h : Heap) (p : FrameId) (ns : List Name) (vs : List Value) :
    (h.withCallFrame p ns vs).depth h.size = h.depth p + 1 := by
  rw [withCallFrame, depth_bindAll, child, depth_newFrame, if_pos rfl, Option.elim]

/-- The frames that were there are not touched. -/
theorem frame?_withCallFrame_of_lt (p : FrameId) (ns : List Name) (vs : List Value)
    (hf : f < h.size) : (h.withCallFrame p ns vs).frame? f = h.frame? f := by
  rw [withCallFrame, frame?_bindAll_of_ne (Nat.ne_of_gt hf), child, frame?_newFrame,
    if_neg (Nat.ne_of_lt hf)]

/-- Distinct names are bound each to the value in its place, and no others are. -/
theorem local?_withCallFrame (hns : ns.Nodup) (hlen : ns.length ≤ vs.length) :
    (h.withCallFrame p ns vs).local? h.size n = some v ↔
      ∃ i : Nat, ns[i]? = some n ∧ vs[i]? = some v := by
  have hlt : h.size < (h.child p).2.size := by
    rw [child, size_newFrame]
    exact Nat.lt_succ_self _
  have hnew : (h.child p).2.local? h.size n = none := by
    rw [child, local?_newFrame, local?_eq_none_of_size_le (Nat.le_refl _)]
  have hnames : (ns.zip vs).map Prod.fst = ns := List.map_fst_zip hlen
  rw [withCallFrame, local?_bindAll hlt (by rwa [hnames]), hnew]
  simp [List.mem_iff_getElem?, List.getElem?_zip_eq_some]

end Heap

namespace Closure

variable {f : FrameId} {ns before : List Name} {n : Name} {vs : List Value} {h : Heap}

theorem bindParams_new (names : Interner) (ns : List Name) (v : Value) (vs : List Value)
    (hn : h.binds f n = false) :
    bindParams names f (n :: ns) (v :: vs) h = bindParams names f ns vs (h.bind f n v) := by
  rw [bindParams, Attempt.bind_apply]
  simp [Attempt.mapError, Heap.define, hn]

theorem bindParams_bound (names : Interner) (ns : List Name) (v : Value) (vs : List Value)
    (hn : h.binds f n = true) : bindParams names f (n :: ns) (v :: vs) h =
      (.error (.ofKind (.duplicateBinding (names.lookup n))), h) := by
  rw [bindParams, Attempt.bind_apply]
  simp [Attempt.mapError, Heap.define, hn, EvalError.ofBinding]

/-- Distinct names that the frame does not bind are all bound. -/
theorem bindParams_distinct (names : Interner) (hlen : ns.length ≤ vs.length) (hns : ns.Nodup)
    (hnew : ∀ n ∈ ns, h.binds f n = false) :
    bindParams names f ns vs h = (.ok (), h.bindAll f (ns.zip vs)) := by
  induction ns generalizing vs h with
  | nil => rfl
  | cons n ns ih =>
    cases vs with
    | nil => simp at hlen
    | cons v vs =>
      obtain ⟨hn, hns⟩ := List.nodup_cons.mp hns
      rw [bindParams_new names ns v vs (hnew n List.mem_cons_self)]
      refine ih (Nat.le_of_succ_le_succ hlen) hns fun m hm => ?_
      have hmn : m ≠ n := fun hmn => hn (hmn ▸ hm)
      rw [Heap.binds_bind_of_ne_name hmn]
      exact hnew m (List.mem_cons_of_mem _ hm)

/-- A name that repeats an earlier one, or that the frame binds, is refused. Those before it have
been bound by then. -/
theorem bindParams_repeated (names : Interner) (after : List Name)
    (hlen : before.length < vs.length) (hbefore : before.Nodup) (hf : f < h.size)
    (hnew : ∀ m ∈ before, h.binds f m = false)
    (hn : n ∈ before ∨ h.binds f n = true) :
    bindParams names f (before ++ n :: after) vs h =
      (.error (.ofKind (.duplicateBinding (names.lookup n))), h.bindAll f (before.zip vs)) := by
  induction before generalizing vs h with
  | nil =>
    cases vs with
    | nil => simp at hlen
    | cons v vs => exact bindParams_bound names after v vs (by simpa using hn)
  | cons m before ih =>
    cases vs with
    | nil => simp at hlen
    | cons v vs =>
      obtain ⟨hm, hbefore⟩ := List.nodup_cons.mp hbefore
      rw [List.cons_append, bindParams_new names _ v vs (hnew m List.mem_cons_self)]
      refine ih (Nat.lt_of_succ_lt_succ hlen) hbefore (by rwa [Heap.size_bind]) (fun k hk => ?_) ?_
      · have hkm : k ≠ m := fun hkm => hm (hkm ▸ hk)
        rw [Heap.binds_bind_of_ne_name hkm]
        exact hnew k (List.mem_cons_of_mem _ hk)
      · rcases hn with hn | hb
        · rcases List.mem_cons.mp hn with rfl | hn
          · right
            simp [Heap.binds, Heap.local?_bind_of_lt hf]
          · exact .inl hn
        · exact .inr (Heap.binds_bind_of_binds hb f m v)

end Closure

namespace Eval

variable {names : Interner} {d : Closure} {ps before after : List Name} {n : Name}
  {vs : List Value} {c : Context} {w : World}

/-! ## The three ways in which a frame is made -/

theorem activate_machine_eq (hps : d.code.params? = some ps) :
    activate names d vs (c.machine w) = (((d.activate names ps vs) w.heap).1.mapError .error,
      c.machine { w with heap := ((d.activate names ps vs) w.heap).2 }) := by
  rw [activate, hps]
  exact onHeap_machine _

/-- As many arguments as distinct parameters. -/
theorem activate_admitted (hps : d.code.params? = some ps) (hlen : ps.length = vs.length)
    (hd : ps.Nodup) : activate names d vs (c.machine w) =
      (.ok w.heap.size, c.machine { w with heap := w.heap.withCallFrame d.frame ps vs }) := by
  have hbind := Closure.bindParams_distinct names (Nat.le_of_eq hlen) hd
    fun n _ => Heap.binds_child_size w.heap d.frame n
  have hact : d.activate names ps vs w.heap =
      (.ok w.heap.size, w.heap.withCallFrame d.frame ps vs) := by
    rw [Closure.activate, if_pos hlen]
    simp only [show (w.heap.child d.frame).1 = w.heap.size from rfl, hbind]
    rfl
  rw [activate_machine_eq hps, hact]
  rfl

/-- Another number of arguments than of parameters: there is no frame. -/
theorem activate_arity (hps : d.code.params? = some ps) (hlen : ps.length ≠ vs.length) :
    activate names d vs (c.machine w) =
      (.error (.error (.ofKind (.arityMismatch d.displayName ps.length vs.length))),
        c.machine w) := by
  rw [activate_machine_eq hps, Closure.activate, if_neg hlen]
  rfl

/-- A parameter that repeats an earlier one. -/
theorem activate_repeated (hps : d.code.params? = some (before ++ n :: after))
    (hlen : (before ++ n :: after).length = vs.length) (hd : before.Nodup) (hn : n ∈ before) :
    activate names d vs (c.machine w) =
      (.error (.error (.ofKind (.duplicateBinding (names.lookup n)))),
        c.machine { w with heap := w.heap.withCallFrame d.frame before vs }) := by
  have hlt : before.length < vs.length := by
    rw [← hlen, List.length_append, List.length_cons]
    omega
  have hnew : w.heap.size < (w.heap.child d.frame).2.size := by
    rw [Heap.child, Heap.size_newFrame]
    exact Nat.lt_succ_self _
  have hbind := Closure.bindParams_repeated names after hlt hd hnew
    (fun m _ => Heap.binds_child_size w.heap d.frame m) (.inl hn)
  have hact : d.activate names (before ++ n :: after) vs w.heap =
      (.error (.ofKind (.duplicateBinding (names.lookup n))),
        w.heap.withCallFrame d.frame before vs) := by
    rw [Closure.activate, if_pos hlen]
    simp only [show (w.heap.child d.frame).1 = w.heap.size from rfl, hbind]
    rfl
  rw [activate_machine_eq hps, hact]
  rfl

/-- **Where a frame is made for a call, it is the one that binds the parameters to the
arguments.** -/
theorem activate_ok_iff {g : FrameId} {w' : World} :
    activate names d vs (c.machine w) = (.ok g, c.machine w') ↔
      ∃ ps, d.code.params? = some ps ∧ ps.length = vs.length ∧ ps.Nodup ∧ g = w.heap.size ∧
        w' = { w with heap := w.heap.withCallFrame d.frame ps vs } := by
  constructor
  · intro h
    cases hps : d.code.params? with
    | none =>
      rw [activate, hps] at h
      cases h
    | some ps =>
      by_cases hlen : ps.length = vs.length
      · by_cases hd : ps.Nodup
        · obtain ⟨hg, hw⟩ := Prod.mk.inj ((activate_admitted hps hlen hd).symm.trans h)
          exact ⟨ps, rfl, hlen, hd, (Except.ok.inj hg).symm, (Context.machine_inj.mp hw).symm⟩
        · obtain ⟨before, n, after, rfl, hbefore, hn⟩ := exists_first_repeated hd
          cases (activate_repeated hps hlen hbefore hn).symm.trans h
      · cases (activate_arity hps hlen).symm.trans h
  · rintro ⟨ps, hps, hlen, hd, rfl, rfl⟩
    exact activate_admitted hps hlen hd

/-- Whether it is complete or not, the frame of a call is all that is added, and no `return` is
under way. -/
theorem activate_heap (names : Interner) (d : Closure) (vs : List Value) (c : Context) (w : World) :
    ∃ r h, activate names d vs (c.machine w) = (r, c.machine { w with heap := h }) ∧
      (h = w.heap ∨ ∃ ns, h = w.heap.withCallFrame d.frame ns vs) ∧ ∀ v, r ≠ .error (.ret v) := by
  cases hps : d.code.params? with
  | none =>
    refine ⟨.error (.fault (.noParams d.code.definition.params)), w.heap, ?_, .inl rfl, by simp⟩
    rw [activate, hps]
    rfl
  | some ps =>
    by_cases hlen : ps.length = vs.length
    · by_cases hd : ps.Nodup
      · exact ⟨_, _, activate_admitted hps hlen hd, .inr ⟨ps, rfl⟩, by simp⟩
      · obtain ⟨before, n, after, rfl, hbefore, hn⟩ := exists_first_repeated hd
        exact ⟨_, _, activate_repeated hps hlen hbefore hn, .inr ⟨before, rfl⟩, by simp⟩
    · exact ⟨_, _, activate_arity hps hlen, .inl rfl, by simp⟩

end Eval
end ClosureLang
