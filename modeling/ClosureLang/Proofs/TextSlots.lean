import ClosureLang.Proofs.Program.Interning
import Mathlib.Data.List.Dedup
import Mathlib.Data.List.Perm.Subperm
import Std.Data.HashMap.Lemmas

/-!
# Texts and slots

Whatever is interned, and through whichever handle, a table stays a correspondence, one to one,
between its texts and the slots below its size (`Interner.OneToOne`): finding a text and looking
up a name undo each other. `slots_of_texts` says so of every sequence of texts that there are
slots for, and says what a table does from there (`Interner.Serves`): a known text changes
nothing, a new one is appended, and names keep their texts for good.

`Interner` is one list of texts, and finds a text by going through it. A table that answers fast
keeps an index from texts to slots beside the list, and has to update both. `IndexedTexts` is that
table. Its index and its list are inverse to each other after every sequence, and its names are
the same.
-/

namespace ClosureLang

/-- Interns texts one after another, as long as there are slots. -/
def internEach {τ : Type} (step : τ → String → Except InternError (Name × τ)) (t : τ) :
    List String → Except InternError (List Name × τ)
  | [] => .ok ([], t)
  | s :: ss =>
    match step t s with
    | .error e => .error e
    | .ok (n, t) =>
      match internEach step t ss with
      | .error e => .error e
      | .ok (ns, t) => .ok (n :: ns, t)

theorem internEach_cons_ok {τ : Type} {step : τ → String → Except InternError (Name × τ)}
    {t u : τ} {s : String} {ss : List String} {ns : List Name}
    (h : internEach step t (s :: ss) = .ok (ns, u)) : ∃ n t' rest, ns = n :: rest ∧
      step t s = .ok (n, t') ∧ internEach step t' ss = .ok (rest, u) := by
  unfold internEach at h
  split at h
  · cases h
  · rename_i n t' hs
    split at h
    · cases h
    · rename_i rest u' hss
      obtain ⟨rfl, rfl⟩ := Prod.mk.inj (Except.ok.inj h)
      exact ⟨n, t', rest, rfl, hs, hss⟩

namespace Interner

/-- **One to one**: the slots below the size have a text each, no two the same, and nothing else
is a name. -/
structure OneToOne (t : Interner) : Prop where
  /-- The slots handed out are those below the size. -/
  slots : ∀ i, (∃ s, t.find? s = some ⟨i⟩) ↔ i < t.size
  /-- The empty text has slot 0. -/
  empty : t.find? "" = some .empty
  inverse : ∀ s n, t.find? s = some n ↔ n.slot < t.size ∧ t.lookup n = s
  unissued : ∀ n : Name, t.size ≤ n.slot → t.lookup n = ""

/-- **One text more**: its name, and the table afterwards. -/
structure Interned (t : Interner) (s : String) (n : Name) (t' : Interner) : Prop where
  lookup_eq : t'.lookup n = s
  find?_eq : t'.find? s = some n
  known : ∀ m, t.find? s = some m → n = m ∧ t' = t
  new : t.find? s = none → n = ⟨t.size⟩ ∧ t' = ⟨t.texts.push s⟩

/-- **What a table does from now on.** -/
structure Serves (t : Interner) : Prop where
  /-- A text is interned unless it is new and every slot is taken. -/
  step : ∀ s, (∃ n t', t.tryIntern s = .ok (n, t') ∧ t.Interned s n t') ∨
    (t.find? s = none ∧ maxSlot < t.size ∧ t.tryIntern s = .error (.overflow t.size))
  /-- A name is what its text is interned as. -/
  again : ∀ n : Name, n.slot < t.size → t.tryIntern (t.lookup n) = .ok (n, t)
  /-- Names keep their texts. -/
  keeps : ∀ ss ns t', internEach tryIntern t ss = .ok (ns, t') →
    ∀ n : Name, n.slot < t.size → t'.lookup n = t.lookup n
  /-- Of any two texts interned, now and later, the names are equal when the texts are. -/
  eq_iff : ∀ s n u between ns v s' n' v', t.tryIntern s = .ok (n, u) →
    internEach tryIntern u between = .ok (ns, v) → v.tryIntern s' = .ok (n', v') →
    (n = n' ↔ s = s')

variable {t t' : Interner} {s : String} {n : Name}

/-! ## One step -/

/-- A text is known, or appended, or refused because every slot is taken. -/
theorem tryIntern_cases (t : Interner) (s : String) :
    (∃ n, t.find? s = some n ∧ t.tryIntern s = .ok (n, t)) ∨
    (t.find? s = none ∧ t.size ≤ maxSlot ∧
      t.tryIntern s = .ok (⟨t.size⟩, ⟨t.texts.push s⟩)) ∨
    (t.find? s = none ∧ maxSlot < t.size ∧ t.tryIntern s = .error (.overflow t.size)) := by
  cases hf : t.find? s with
  | some n => exact .inl ⟨n, rfl, by simp [tryIntern, hf, intern_of_find? hf]⟩
  | none =>
    by_cases hsize : maxSlot < t.size
    · exact .inr (.inr ⟨rfl, hsize, by simp [tryIntern, hf, hsize]⟩)
    · exact .inr (.inl ⟨rfl, Nat.le_of_not_lt hsize,
        by simp [tryIntern, hf, hsize, intern_of_new hf]⟩)

/-- What is not refused is interned. -/
theorem intern_of_tryIntern (h : t.tryIntern s = .ok (n, t')) : t.intern s = (n, t') := by
  unfold tryIntern at h
  split at h
  · cases h
  · exact Except.ok.inj h

theorem grows_tryIntern (h : t.tryIntern s = .ok (n, t')) : t.Grows t' := by
  simpa only [intern_of_tryIntern h] using grows_intern t s

/-- An appended text leaves others where they are found. -/
theorem find?_push_of_ne {s' : String} (h : s ≠ s') :
    Interner.find? ⟨t.texts.push s⟩ s' = t.find? s' := by
  simp [find?, List.findIdx?_append, h]

/-- **The invariant**: no text occurs twice, and the first one is empty. -/
structure Proper (t : Interner) : Prop where
  distinct : t.Distinct
  first : t.texts.toList.head? = some ""

theorem proper_empty : Interner.empty.Proper := ⟨distinct_empty, rfl⟩

/-- **One step keeps it.** -/
theorem Proper.intern (h : t.Proper) (s : String) : (t.intern s).2.Proper where
  distinct := h.distinct.intern s
  first := by
    rw [texts_intern, List.head?_append, h.first]
    rfl

theorem Proper.of_tryIntern (h : t.Proper) (hs : t.tryIntern s = .ok (n, t')) : t'.Proper := by
  simpa only [intern_of_tryIntern hs] using h.intern s

theorem Proper.oneToOne (h : t.Proper) : t.OneToOne where
  slots i := by
    constructor
    · rintro ⟨s, hs⟩
      exact slot_lt_of_find? hs
    · intro hi
      exact ⟨t.lookup ⟨i⟩, h.distinct.find?_eq_some_iff.mpr ⟨hi, rfl⟩⟩
  empty := by
    obtain ⟨rest, hrest⟩ := List.head?_eq_some_iff.mp h.first
    simp [find?, hrest, List.findIdx?_cons, Name.empty]
  inverse s n := h.distinct.find?_eq_some_iff
  unissued n hn := by
    rw [lookup, Array.getElem?_eq_none hn]
    rfl

theorem Proper.interned (h : t.Proper) (hs : t.tryIntern s = .ok (n, t')) : t.Interned s n t' := by
  have hi := intern_of_tryIntern hs
  have hname : (t.intern s).1 = n := by rw [hi]
  have htable : (t.intern s).2 = t' := by rw [hi]
  subst hname htable
  refine ⟨lookup_intern t s, ?_, ?_, ?_⟩
  · exact (h.distinct.intern s).find?_eq_some_iff.mpr ⟨slot_intern_lt t s, lookup_intern t s⟩
  · intro m hm
    rw [intern_of_find? hm]
    exact ⟨rfl, rfl⟩
  · intro hnew
    rw [intern_of_new hnew]
    exact ⟨rfl, rfl⟩

/-! ## Any number of steps -/

/-- What is not refused is interned. -/
theorem internAll_of_internEach {ss : List String} {ns : List Name}
    (h : internEach tryIntern t ss = .ok (ns, t')) : t.internAll ss = (ns, t') := by
  induction ss generalizing t ns with
  | nil => exact Except.ok.inj h
  | cons s ss ih =>
    obtain ⟨n, u, rest, rfl, hs, hss⟩ := internEach_cons_ok h
    rw [internAll_cons, intern_of_tryIntern hs, ih hss]

theorem grows_internEach {ss : List String} {ns : List Name}
    (h : internEach tryIntern t ss = .ok (ns, t')) : t.Grows t' := by
  simpa only [internAll_of_internEach h] using grows_internAll t ss

/-- Nothing is refused as long as there is a slot for all that the table comes to hold. -/
theorem internEach_of_room (t : Interner) (ss : List String)
    (h : (t.internAll ss).2.size ≤ maxSlot + 1) :
    internEach tryIntern t ss = .ok (t.internAll ss) := by
  induction ss generalizing t with
  | nil => rfl
  | cons s ss ih =>
    rw [internAll_cons] at h ⊢
    have hgrows : (t.intern s).2.size ≤ ((t.intern s).2.internAll ss).2.size :=
      (grows_internAll _ ss).size_le
    have hs : t.tryIntern s = .ok (t.intern s) := by
      obtain ⟨n, hf, hok⟩ | ⟨hf, -, hok⟩ | ⟨hf, hfull, -⟩ := t.tryIntern_cases s
      · rw [hok, intern_of_find? hf]
      · rw [hok, intern_of_new hf]
      · have hsize : (t.intern s).2.size = t.size + 1 := by
          rw [intern_of_new hf]
          exact Array.size_push ..
        have hle : (t.intern s).2.size ≤ maxSlot + 1 := Nat.le_trans hgrows h
        omega
    simp only [internEach, hs, ih _ h]

/-- A table that starts empty holds the texts interned, and the empty one. -/
theorem size_internAll_le (ss : List String) :
    (Interner.empty.internAll ss).2.size ≤ ss.dedup.length + 1 := by
  have hnodup : (Interner.empty.internAll ss).2.texts.toList.Nodup := distinct_empty.internAll ss
  have hsub : (Interner.empty.internAll ss).2.texts.toList ⊆ "" :: ss.dedup := by
    intro x hx
    rw [texts_internAll] at hx
    simp [Interner.empty] at hx ⊢
    tauto
  simpa [size] using (List.subperm_of_subset hnodup hsub).length_le

/-- **Any number of steps keep the invariant.** -/
theorem Proper.internAll (h : t.Proper) (ss : List String) : (t.internAll ss).2.Proper := by
  induction ss generalizing t with
  | nil => exact h
  | cons s ss ih => exact ih (h.intern s)

theorem Proper.of_internEach (h : t.Proper) {ss : List String} {ns : List Name}
    (hss : internEach tryIntern t ss = .ok (ns, t')) : t'.Proper := by
  simpa only [internAll_of_internEach hss] using h.internAll ss

/-- Every text of a sequence is found under the name that it was interned as. -/
theorem Proper.find?_internAll (h : t.Proper) (ss : List String) :
    List.Forall₂ (fun s n => (t.internAll ss).2.find? s = some n) ss (t.internAll ss).1 := by
  induction ss generalizing t with
  | nil => exact .nil
  | cons s ss ih =>
    rw [internAll_cons]
    have hgrows := grows_internAll (t.intern s).2 ss
    have hlt := slot_intern_lt t s
    refine .cons ?_ (ih (h.intern s))
    refine ((h.intern s).internAll ss).distinct.find?_eq_some_iff.mpr ⟨?_, ?_⟩
    · exact Nat.lt_of_lt_of_le hlt hgrows.size_le
    · rw [hgrows.lookup hlt, lookup_intern]

theorem Proper.serves (h : t.Proper) : t.Serves where
  step s := by
    obtain ⟨n, -, hok⟩ | ⟨-, -, hok⟩ | hfull := t.tryIntern_cases s
    · exact .inl ⟨n, t, hok, h.interned hok⟩
    · exact .inl ⟨_, _, hok, h.interned hok⟩
    · exact .inr hfull
  again n hn := by
    have hf : t.find? (t.lookup n) = some n := h.distinct.find?_eq_some_iff.mpr ⟨hn, rfl⟩
    simp [tryIntern, hf, intern_of_find? hf]
  keeps ss ns t' hss n hn := by
    exact (grows_internEach hss).lookup hn
  eq_iff s n u between ns v s' n' v' hs hbetween hs' := by
    have hu := h.interned hs
    have hv := (h.of_tryIntern hs).of_internEach hbetween
    have hv' := hv.interned hs'
    have hgrows := (grows_internEach hbetween).trans (grows_tryIntern hs')
    have hn := ((h.of_tryIntern hs).oneToOne.inverse s n).mp hu.find?_eq
    have hn' := ((hv.of_tryIntern hs').oneToOne.inverse s' n').mp hv'.find?_eq
    -- Both texts are read from the last table.
    rw [← (hv.of_tryIntern hs').distinct.lookup_inj (Nat.lt_of_lt_of_le hn.1 hgrows.size_le) hn'.1,
      hgrows.lookup hn.1, hn.2, hn'.2]

end Interner

/-! ## With an index -/

/-- A table that finds texts by an index. -/
structure IndexedTexts where
  /-- Slots by text. -/
  index : Std.HashMap String Nat
  /-- Texts by slot. -/
  slots : Array String

namespace IndexedTexts

def empty : IndexedTexts := ⟨(∅ : Std.HashMap String Nat).insert "" 0, #[""]⟩

/-- The index alone says whether a text is known. A new one is added to both. -/
def tryIntern (x : IndexedTexts) (s : String) : Except InternError (Name × IndexedTexts) :=
  match x.index[s]? with
  | some i => .ok (⟨i⟩, x)
  | none =>
    if Interner.maxSlot < x.slots.size then .error (.overflow x.slots.size)
    else .ok (⟨x.slots.size⟩, ⟨x.index.insert s x.slots.size, x.slots.push s⟩)

/-- The table without its index. -/
def table (x : IndexedTexts) : Interner := ⟨x.slots⟩

/-- **The invariant**: the index knows what going through the texts finds. -/
structure Agrees (x : IndexedTexts) : Prop where
  proper : x.table.Proper
  index : ∀ s, x.index[s]? = (x.table.find? s).map Name.slot

/-- **Inverse to each other**: the index and the texts by slot. -/
def Inverse (x : IndexedTexts) : Prop := ∀ (s : String) (i : Nat), x.index[s]? = some i ↔ x.slots[i]? = some s

variable {x y : IndexedTexts} {s : String} {n : Name}

theorem agrees_empty : IndexedTexts.empty.Agrees where
  proper := Interner.proper_empty
  index s := by
    show ((∅ : Std.HashMap String Nat).insert "" 0)[s]? = (Interner.empty.find? s).map Name.slot
    by_cases hs : "" = s <;>
      simp [Interner.find?, Interner.empty, List.findIdx?_cons, hs]

theorem Agrees.inverse (h : x.Agrees) : x.Inverse := by
  intro s i
  have hf : x.table.find? s = some ⟨i⟩ ↔ i < x.table.size ∧ x.table.lookup ⟨i⟩ = s :=
    h.proper.distinct.find?_eq_some_iff
  have hslot : (x.table.find? s).map Name.slot = some i ↔ x.table.find? s = some ⟨i⟩ := by
    cases x.table.find? s with
    | none => simp
    | some m => cases m; simp
  rw [h.index, hslot, hf, Array.getElem?_eq_some_iff]
  constructor
  · rintro ⟨hi, hs⟩
    have hi : i < x.slots.size := hi
    exact ⟨hi, by simpa [Interner.lookup, table, hi] using hs⟩
  · rintro ⟨hi, hs⟩
    exact ⟨hi, by simp [Interner.lookup, table, hi, hs]⟩

/-- **One step keeps it**, and does what is done without an index. -/
theorem Agrees.step (h : x.Agrees) (s : String) :
    (∃ n y, x.tryIntern s = .ok (n, y) ∧ x.table.tryIntern s = .ok (n, y.table) ∧ y.Agrees) ∨
    ∃ e, x.tryIntern s = .error e ∧ x.table.tryIntern s = .error e := by
  obtain ⟨n, hf, hok⟩ | ⟨hf, hroom, hok⟩ | ⟨hf, hfull, herr⟩ := x.table.tryIntern_cases s
  · have hindex : x.index[s]? = some n.slot := by rw [h.index, hf, Option.map_some]
    exact .inl ⟨n, x, by simp only [tryIntern, hindex], hok, h⟩
  · have hindex : x.index[s]? = none := by rw [h.index, hf, Option.map_none]
    have hroom : ¬ Interner.maxSlot < x.slots.size := Nat.not_lt_of_le hroom
    refine .inl ⟨⟨x.slots.size⟩, ⟨x.index.insert s x.slots.size, x.slots.push s⟩,
      by simp only [tryIntern, hindex, if_neg hroom], hok, h.proper.of_tryIntern hok, ?_⟩
    intro s'
    show (x.index.insert s x.slots.size)[s']? = (Interner.find? ⟨x.table.texts.push s⟩ s').map _
    rw [Std.HashMap.getElem?_insert]
    by_cases hs : s = s'
    · subst hs
      rw [(h.proper.interned hok).find?_eq]
      simp [table, Interner.size]
    · rw [Interner.find?_push_of_ne hs, ← h.index]
      simp [hs]
  · have hindex : x.index[s]? = none := by rw [h.index, hf, Option.map_none]
    have hfull : Interner.maxSlot < x.slots.size := hfull
    exact .inr ⟨_, by simp only [tryIntern, hindex, if_pos hfull, table, Interner.size], herr⟩

/-- **Any number of steps do what is done without an index.** -/
theorem Agrees.steps (h : x.Agrees) (ss : List String) :
    (∃ ns y, internEach tryIntern x ss = .ok (ns, y) ∧
      internEach Interner.tryIntern x.table ss = .ok (ns, y.table) ∧ y.Agrees) ∨
    ∃ e, internEach tryIntern x ss = .error e ∧
      internEach Interner.tryIntern x.table ss = .error e := by
  induction ss generalizing x with
  | nil => exact .inl ⟨[], x, rfl, rfl, h⟩
  | cons s ss ih =>
    obtain ⟨n, y, hx, ht, hy⟩ | ⟨e, hx, ht⟩ := h.step s
    · obtain ⟨ns, z, hxs, hts, hz⟩ | ⟨e, hxs, hts⟩ := ih hy
      · exact .inl ⟨n :: ns, z, by simp only [internEach, hx, hxs],
          by simp only [internEach, ht, hts], hz⟩
      · exact .inr ⟨e, by simp only [internEach, hx, hxs], by simp only [internEach, ht, hts]⟩
    · exact .inr ⟨e, by simp only [internEach, hx], by simp only [internEach, ht]⟩

end IndexedTexts

/-- **Texts and slots correspond.** Whatever is interned, of which there are slots for all, one
after another: no text is refused, with an index or without, and the names are the same; the table
holds the empty text and then the others in the order of their first use; each of them is found
under the name it was interned as; and the table is one to one, as are its index and its texts by
slot, and serves for good. -/
theorem slots_of_texts (ss : List String) (hss : ss.dedup.length ≤ Interner.maxSlot) :
    ∃ ns x, internEach IndexedTexts.tryIntern .empty ss = .ok (ns, x) ∧
      internEach Interner.tryIntern .empty ss = .ok (ns, x.table) ∧
      Interner.empty.internAll ss = (ns, x.table) ∧
      x.table.texts.toList = "" :: (ss.filter (· ≠ "")).eraseDups ∧
      List.Forall₂ (fun s n => x.table.find? s = some n) ss ns ∧
      x.Inverse ∧ x.table.OneToOne ∧ x.table.Serves := by
  have hroom := Interner.internEach_of_room .empty ss
    (Nat.le_trans (Interner.size_internAll_le ss) (Nat.succ_le_succ hss))
  obtain ⟨ns, x, hx, ht, hagrees⟩ | ⟨e, -, ht⟩ := IndexedTexts.agrees_empty.steps ss
  · have hall : Interner.empty.internAll ss = (ns, x.table) := Interner.internAll_of_internEach ht
    have htexts := Interner.texts_internAll .empty ss
    have hfound := Interner.proper_empty.find?_internAll ss
    rw [hall] at htexts hfound
    refine ⟨ns, x, hx, ht, hall, ?_, hfound, hagrees.inverse, hagrees.proper.oneToOne,
      hagrees.proper.serves⟩
    simpa [Interner.empty] using htexts
  · cases ht.symm.trans hroom

theorem slots_of_texts_repeated :
    ["b", "", "a", "b"].dedup.length ≤ Interner.maxSlot ∧
      ∃ ns x, internEach IndexedTexts.tryIntern .empty ["b", "", "a", "b"] = .ok (ns, x) ∧
        ns = [⟨1⟩, ⟨0⟩, ⟨2⟩, ⟨1⟩] ∧ x.table.texts.toList = ["", "b", "a"] ∧ x.Inverse := by
  have hss : ["b", "", "a", "b"].dedup.length ≤ Interner.maxSlot := by decide
  obtain ⟨ns, x, hx, -, hall, htexts, -, hinverse, -⟩ := slots_of_texts _ hss
  refine ⟨hss, ns, x, hx, ?_, ?_, hinverse⟩
  · rw [show ns = _ from (congrArg Prod.fst hall).symm]
    decide +kernel
  · rw [htexts]
    decide +kernel

end ClosureLang
