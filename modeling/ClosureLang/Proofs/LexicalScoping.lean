import ClosureLang.Proofs.Heap.Scopes

/-!
# Frames scope lexically

Where a name resolves is a matter of the walk outwards alone: to the first frame on it that binds
the name (`Owner`). The operations on variables walk, with a bound on the number of steps, and
this file says of each of them what every frame reads afterwards, whichever frames share
ancestors with the one that was worked on.

Overwriting is seen by the frames that resolve the name to the same owner. Defining is seen by
the frames from which the new binding is the first on the way outwards (`Sees`), also where the
name resolved further out before.
-/

namespace ClosureLang
namespace Heap

/-- On the way outwards from a frame one gets to `g`, and no frame passed before binds `n`. -/
inductive Sees (h : Heap) (n : Name) (g : FrameId) : FrameId → Prop
  | here : Sees h n g g
  | outer {f p : FrameId} (hb : h.binds f n = false) (hp : h.parent? f = some p)
      (hg : Sees h n g p) : Sees h n g f

/-- The frame that owns a name: the nearest on the way outwards from `f` that binds it. -/
def Owner (h : Heap) (f : FrameId) (n : Name) (o : FrameId) : Prop :=
  h.Sees n o f ∧ h.binds o n = true

/-- The name means the same variable in both frames. -/
def SameVariable (h : Heap) (f : FrameId) (n : Name) (g : FrameId) : Prop :=
  ∃ o, h.Owner f n o ∧ h.Owner g n o

/-- `h'` is `h` after a write of `v` that reaches the reads in `hit`: these yield `v`, and all
others what they did before. -/
structure Written (h : Heap) (hit : FrameId → Name → Prop) (v : Value) (h' : Heap) : Prop where
  parent : ∀ g, h'.parent? g = h.parent? g
  reached : ∀ g m, hit g m → h'.get g m = .ok v
  others : ∀ g m, ¬ hit g m → h'.get g m = h.get g m

variable {h h' : Heap} {f g o : FrameId} {n m : Name} {v : Value}

/-! ## The owner of a name -/

theorem Sees.of_binds (hs : h.Sees n o g) (hb : h.binds g n = true) : g = o := by
  cases hs with
  | here => rfl
  | outer hg => simp [hb] at hg

theorem Sees.of_parent (hs : h.Sees n o f) (hne : f ≠ o) {p : FrameId}
    (hp : h.parent? f = some p) : h.Sees n o p := by
  cases hs with
  | here => exact absurd rfl hne
  | outer hb hp' hg =>
    obtain rfl := Option.some.inj (hp.symm.trans hp')
    exact hg

/-- **The walk with a bound finds the owner.** -/
theorem owner?_eq_some_iff (hw : h.Grounded) : h.owner? f n = some o ↔ h.Owner f n o := by
  induction f using hw.induction with
  | h f ih =>
    rw [owner?_eq hw]
    cases hb : h.binds f n with
    | true =>
      rw [if_pos rfl, Option.some.injEq]
      constructor
      · rintro rfl
        exact ⟨.here, hb⟩
      · exact fun ho => ho.1.of_binds hb
    | false =>
      rw [if_neg (by simp)]
      constructor
      · intro ho
        obtain ⟨p, hp, ho⟩ := Option.bind_eq_some_iff.mp ho
        obtain ⟨hs, hbo⟩ := (ih p hp).mp ho
        exact ⟨.outer hb hp hs, hbo⟩
      · rintro ⟨hs, hbo⟩
        cases hs with
        | here => simp [hb] at hbo
        | outer _ hp hs => exact Option.bind_eq_some_iff.mpr ⟨_, hp, (ih _ hp).mpr ⟨hs, hbo⟩⟩

theorem owner?_eq_none_iff (hw : h.Grounded) : h.owner? f n = none ↔ ¬ ∃ o, h.Owner f n o := by
  simp only [← owner?_eq_some_iff hw, Option.eq_none_iff_forall_ne_some, not_exists, ne_eq]

/-! ## Reading after a change -/

theorem ChangedAt.grounded (hc : h.ChangedAt o h') (hw : h.Grounded) : h'.Grounded := by
  have hparent : h'.parent? = h.parent? := funext hc.parent
  rw [Grounded, hparent]
  exact hw

/-- A name resolves alike where frames nest alike and bind it alike. -/
theorem owner?_eq_of_views (hw : h.Grounded) (hw' : h'.Grounded)
    (hparent : ∀ f, h'.parent? f = h.parent? f) (hbinds : ∀ f, h'.binds f n = h.binds f n)
    (f : FrameId) : h'.owner? f n = h.owner? f n := by
  induction f using hw.induction with
  | h f ih =>
    rw [owner?_eq hw', owner?_eq hw, hparent, hbinds]
    cases hp : h.parent? f with
    | none => rfl
    | some p =>
      split
      · rfl
      · exact ih p hp

/-- What is read depends on the owner and on what the owner binds. -/
theorem get_congr (howner : h'.owner? g m = h.owner? g m)
    (hlocal : ∀ o, h.owner? g m = some o → h'.local? o m = h.local? o m) :
    h'.get g m = h.get g m := by
  rw [get, get, howner]
  cases ho : h.owner? g m with
  | none => rfl
  | some o => simp only [valueAt, hlocal o ho]

theorem get_of_owner? (ho : h.owner? g m = some o) (hv : h.local? o m = some v) :
    h.get g m = .ok v := by
  simp only [get, ho, valueAt_of_local? hv]

theorem owner?_overwrite (hw : h.Grounded) (o : FrameId) (n : Name) (v : Value) (g : FrameId)
    (m : Name) : (h.overwrite o n v).owner? g m = h.owner? g m :=
  owner?_eq_of_views hw ((changedAt_overwrite h o n v).grounded hw) (parent?_overwrite h o n v)
    (fun f => binds_overwrite h o n v f m) g

/-- **Overwriting is seen from where the name means the same variable.** -/
theorem written_overwrite (hw : h.Grounded) (ho : h.owner? f n = some o) (v : Value) :
    h.Written (fun g m => m = n ∧ h.SameVariable f n g) v (h.overwrite o n v) where
  parent := parent?_overwrite h o n v
  reached := by
    rintro g m ⟨rfl, o', hf, hg⟩
    obtain rfl := Option.some.inj (ho.symm.trans ((owner?_eq_some_iff hw).mpr hf))
    refine get_of_owner? (o := o) ?_ ?_
    · rw [owner?_overwrite hw]
      exact (owner?_eq_some_iff hw).mpr hg
    · rw [local?_overwrite, if_pos ⟨rfl, rfl⟩, local?_of_owner? ho]
      rfl
  others := by
    intro g m hmiss
    refine get_congr (owner?_overwrite hw o n v g m) fun o' hg => ?_
    rw [local?_overwrite, if_neg]
    rintro ⟨rfl, rfl⟩
    exact hmiss ⟨rfl, o, (owner?_eq_some_iff hw).mp ho, (owner?_eq_some_iff hw).mp hg⟩

theorem binds_bind (hf : f < h.size) (n : Name) (v : Value) (g : FrameId) (m : Name) :
    (h.bind f n v).binds g m = true ↔ (f = g ∧ m = n) ∨ h.binds g m = true := by
  rw [binds, local?_bind_of_lt hf]
  split
  · next hc => simp [hc]
  · next hc => simp [hc, binds]

/-- A new binding is the owner for the frames that see its frame, and no other name and no other
frame is concerned. -/
theorem owner?_bind (hw : h.Grounded) (hf : f < h.size) (v : Value) (g : FrameId) :
    (h.Sees n f g → (h.bind f n v).owner? g n = some f) ∧
      (¬ h.Sees n f g → (h.bind f n v).owner? g n = h.owner? g n) := by
  have hw' := (changedAt_bind h f n v).grounded hw
  induction g using hw.induction with
  | h g ih =>
    rw [owner?_eq hw', owner?_eq hw, parent?_bind]
    by_cases hfg : f = g
    · subst hfg
      rw [if_pos ((binds_bind hf n v f n).mpr (.inl ⟨rfl, rfl⟩))]
      exact ⟨fun _ => rfl, fun hs => absurd .here hs⟩
    · rw [binds_bind_of_ne hfg]
      cases hg : h.binds g n with
      | true => exact ⟨fun hs => absurd (hs.of_binds hg).symm hfg, fun _ => rfl⟩
      | false =>
        cases hp : h.parent? g with
        | none =>
          refine ⟨fun hs => ?_, fun _ => rfl⟩
          cases hs with
          | here => exact absurd rfl hfg
          | outer _ hp' => simp [hp] at hp'
        | some p =>
          obtain ⟨hhit, hmiss⟩ := ih p hp
          exact ⟨fun hs => hhit (hs.of_parent (Ne.symm hfg) hp),
            fun hs => hmiss fun hs' => hs (.outer hg hp hs')⟩

/-- **A new binding is seen from where it is the first on the way outwards.** -/
theorem written_bind (hw : h.Grounded) (hf : f < h.size) (hb : h.binds f n = false) (v : Value) :
    h.Written (fun g m => m = n ∧ h.Sees n f g) v (h.bind f n v) where
  parent := parent?_bind h f n v
  reached := by
    rintro g m ⟨rfl, hs⟩
    refine get_of_owner? ((owner?_bind hw hf v g).1 hs) ?_
    rw [local?_bind_of_lt hf, if_pos ⟨rfl, rfl⟩]
  others := by
    intro g m hmiss
    by_cases hm : m = n
    · subst hm
      refine get_congr ((owner?_bind hw hf v g).2 fun hs => hmiss ⟨rfl, hs⟩) fun o ho => ?_
      rw [local?_bind_of_lt hf, if_neg]
      rintro ⟨rfl, -⟩
      -- `f` binds nothing under the name, so it is no owner
      simpa [hb] using ((owner?_eq_some_iff hw).mp ho).2
    · refine get_congr (owner?_eq_of_views hw ((changedAt_bind h f n v).grounded hw)
        (parent?_bind h f n v) (fun k => ?_) g) fun o _ => ?_
      · rw [Bool.eq_iff_iff, binds_bind hf]
        simp [hm]
      · rw [local?_bind_of_lt hf, if_neg fun hc => hm hc.2]

/-! ## The operations on variables -/

theorem get_eq_ok_iff (hw : h.Grounded) :
    h.get f n = .ok v ↔ ∃ o, h.Owner f n o ∧ h.local? o n = some v := by
  constructor
  · intro hget
    cases ho : h.owner? f n with
    | none => simp [get, ho] at hget
    | some o =>
      obtain rfl : h.valueAt o n = v := by simpa [get, ho] using hget
      exact ⟨o, (owner?_eq_some_iff hw).mp ho, local?_of_owner? ho⟩
  · rintro ⟨o, ho, hv⟩
    exact get_of_owner? ((owner?_eq_some_iff hw).mpr ho) hv

theorem get_eq_error_iff (hw : h.Grounded) :
    h.get f n = .error (.unbound n) ↔ ¬ ∃ o, h.Owner f n o := by
  rw [← owner?_eq_none_iff hw]
  cases ho : h.owner? f n <;> simp [get, ho]

theorem set_of_owner (hw : h.Grounded) (ho : h.Owner f n o) (v : Value) :
    set f n v h = (.ok (), h.overwrite o n v) := by
  simp only [set, (owner?_eq_some_iff hw).mpr ho]

theorem set_unbound (hw : h.Grounded) (hnone : ¬ ∃ o, h.Owner f n o) (v : Value) :
    set f n v h = (.error (.unbound n), h) := by
  simp only [set, (owner?_eq_none_iff hw).mpr hnone]

variable {ε : Type} {change : Value → Except ε Value} {u : Value}

theorem update_of_owner (hw : h.Grounded) (ho : h.Owner f n o) (hu : h.local? o n = some u)
    (hv : change u = .ok v) : update f n change h = (.ok (.ok v), h.overwrite o n v) := by
  simp only [update, (owner?_eq_some_iff hw).mpr ho, valueAt_of_local? hu, hv]

/-- Where the change itself fails, nothing is written. -/
theorem update_of_error (hw : h.Grounded) (ho : h.Owner f n o) (hu : h.local? o n = some u)
    {e : ε} (he : change u = .error e) : update f n change h = (.ok (.error e), h) := by
  simp only [update, (owner?_eq_some_iff hw).mpr ho, valueAt_of_local? hu, he]

theorem update_unbound (hw : h.Grounded) (hnone : ¬ ∃ o, h.Owner f n o) :
    update f n change h = (.error (.unbound n), h) := by
  simp only [update, (owner?_eq_none_iff hw).mpr hnone]

/-- **Frames scope lexically.** In a heap in which every walk outwards comes to an end:

* a name reads as what its owner holds, and is unbound when it has none;
* overwriting it, and changing what it holds, work exactly when it has an owner, and are then seen
  from all frames in which it means the same variable;
* it can be defined in a frame exactly when that frame does not bind it, and then the new binding
  is seen from all frames on whose way outwards it is the first, and nothing else that any frame
  binds is different.

Nothing else is read differently afterwards, and what fails leaves the heap as it was. -/
theorem scopes_lexically (h : Heap) (hw : h.Grounded) (f : FrameId) (n : Name) :
    ((∀ v, h.get f n = .ok v ↔ ∃ o, h.Owner f n o ∧ h.local? o n = some v) ∧
      (h.get f n = .error (.unbound n) ↔ ¬ ∃ o, h.Owner f n o)) ∧
    (∀ v,
      ((∃ o, h.Owner f n o) → ∃ h', set f n v h = (.ok (), h') ∧
        h.Written (fun g m => m = n ∧ h.SameVariable f n g) v h') ∧
      ((¬ ∃ o, h.Owner f n o) → set f n v h = (.error (.unbound n), h))) ∧
    (∀ {ε : Type} (change : Value → Except ε Value),
      (∀ o u, h.Owner f n o → h.local? o n = some u →
        (∀ v, change u = .ok v → ∃ h', update f n change h = (.ok (.ok v), h') ∧
          h.Written (fun g m => m = n ∧ h.SameVariable f n g) v h') ∧
        ∀ e, change u = .error e → update f n change h = (.ok (.error e), h)) ∧
      ((¬ ∃ o, h.Owner f n o) → update f n change h = (.error (.unbound n), h))) ∧
    (f < h.size → ∀ v,
      (h.binds f n = true → define f n v h = (.error (.duplicate n), h)) ∧
      (h.binds f n = false → ∃ h', define f n v h = (.ok (), h') ∧
        h.Written (fun g m => m = n ∧ h.Sees n f g) v h' ∧
        ∀ g m, ¬ (f = g ∧ m = n) → h'.local? g m = h.local? g m)) := by
  have hwritten : ∀ {o} (v : Value), h.Owner f n o →
      h.Written (fun g m => m = n ∧ h.SameVariable f n g) v (h.overwrite o n v) :=
    fun v ho => written_overwrite hw ((owner?_eq_some_iff hw).mpr ho) v
  refine ⟨⟨fun v => get_eq_ok_iff hw, get_eq_error_iff hw⟩, fun v => ⟨?_, ?_⟩,
    fun change => ⟨fun o u ho hu => ⟨?_, ?_⟩, ?_⟩, fun hf v => ⟨fun hb => ?_, fun hb => ?_⟩⟩
  · rintro ⟨o, ho⟩
    exact ⟨_, set_of_owner hw ho v, hwritten v ho⟩
  · exact fun hnone => set_unbound hw hnone v
  · exact fun v hv => ⟨_, update_of_owner hw ho hu hv, hwritten v ho⟩
  · exact fun e he => update_of_error hw ho hu he
  · exact fun hnone => update_unbound hw hnone
  · simp [define, hb]
  · refine ⟨h.bind f n v, by simp [define, hb], written_bind hw hf hb v, fun g m hgm => ?_⟩
    rw [local?_bind_of_lt hf, if_neg hgm]

/-- An outermost frame that binds `x`, which has slot 1, a frame inside it and one inside that. -/
def threeDeep : Heap := (((Heap.empty.root.2.bind 0 ⟨1⟩ .void).child 0).2.child 1).2

/-- A later definition halfway out changes what the innermost frame reads, and not what the
outermost one does. -/
theorem scopes_lexically_threeDeep : threeDeep.get 2 ⟨1⟩ = .ok .void ∧
    ∃ h, define 1 ⟨1⟩ (.bool true) threeDeep = (.ok (), h) ∧ h.get 2 ⟨1⟩ = .ok (.bool true) ∧
      h.get 0 ⟨1⟩ = threeDeep.get 0 ⟨1⟩ := by
  have hroot : Heap.empty.root.2.Nested := Nested.empty.newFrame (by decide)
  have hnested : threeDeep.Nested :=
    (((changedAt_bind _ 0 ⟨1⟩ .void).nested hroot).newFrame (by decide)).newFrame (by decide)
  obtain ⟨⟨hget, -⟩, -⟩ := scopes_lexically threeDeep hnested.grounded 2 ⟨1⟩
  obtain ⟨-, -, -, hdefine⟩ := scopes_lexically threeDeep hnested.grounded 1 ⟨1⟩
  obtain ⟨h, hdef, hwritten, -⟩ := (hdefine (by decide) (.bool true)).2 (by decide)
  have houter : threeDeep.parent? 1 = some 0 := by decide
  have hinner : threeDeep.parent? 2 = some 1 := by decide
  have hsees : threeDeep.Sees ⟨1⟩ 0 2 := .outer (by decide) hinner (.outer (by decide) houter .here)
  refine ⟨(hget .void).mpr ⟨0, ⟨hsees, by decide⟩, rfl⟩, h, hdef,
    hwritten.reached 2 ⟨1⟩ ⟨rfl, .outer (by decide) hinner .here⟩, ?_⟩
  -- from the outermost frame one does not get to the new binding
  refine hwritten.others 0 ⟨1⟩ fun ⟨_, hs⟩ => ?_
  cases hs with
  | outer hb => exact absurd hb (by decide)

end Heap
end ClosureLang
