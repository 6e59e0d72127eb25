import ClosureLang.Interner
import Mathlib.Data.List.Forall2
import Mathlib.Data.List.Nodup

/-!
# Texts keep their names

A table of texts only grows, and no text occurs in it twice. So a name has the same text in every
later table, and two names of one table are equal exactly when their texts are. Names of two
different tables have nothing to do with each other but their texts; `SameText` says that they
have these in common. What is added to a table are the texts that it lacks, in the order of their
first use (`texts_internAll`).
-/

namespace ClosureLang
namespace Interner

variable {t t' t'' : Interner} {m n : Name}

/-! ## Growing -/

/-- The second table is the first one with further texts. -/
def Grows (t t' : Interner) : Prop := t.texts.toList <+: t'.texts.toList

theorem Grows.refl (t : Interner) : t.Grows t := List.prefix_refl _

theorem Grows.trans (h : t.Grows t') (h' : t'.Grows t'') : t.Grows t'' := List.IsPrefix.trans h h'

theorem Grows.size_le (h : t.Grows t') : t.size ≤ t'.size := by
  simpa [size] using h.length_le

theorem lookup_eq (t : Interner) (n : Name) : t.lookup n = t.texts.toList[n.slot]?.getD "" := by
  simp [lookup]

/-- **A name keeps its text.** -/
theorem Grows.lookup (h : t.Grows t') (hn : n.slot < t.size) : t'.lookup n = t.lookup n := by
  have hn' : n.slot < t.texts.toList.length := by simpa [size] using hn
  obtain ⟨added, hadded⟩ := h
  rw [lookup_eq, lookup_eq, ← hadded, List.getElem?_append_left hn']

theorem grows_intern (t : Interner) (s : String) : t.Grows (t.intern s).2 := by
  unfold intern
  cases t.find? s with
  | some n => exact .refl t
  | none => exact ⟨[s], by simp⟩

theorem grows_internAll (t : Interner) (ss : List String) : t.Grows (t.internAll ss).2 := by
  induction ss generalizing t with
  | nil => exact .refl t
  | cons s ss ih => exact (grows_intern t s).trans (ih _)

theorem internAll_cons (t : Interner) (s : String) (ss : List String) :
    t.internAll (s :: ss) = ((t.intern s).1 :: ((t.intern s).2.internAll ss).1,
      ((t.intern s).2.internAll ss).2) := rfl

theorem slot_lt_of_find? {s : String} (h : t.find? s = some n) : n.slot < t.size := by
  obtain ⟨i, hi, rfl⟩ := Option.map_eq_some_iff.1 h
  obtain ⟨hlt, -⟩ := List.findIdx?_eq_some_iff_getElem.1 hi
  simpa [size] using hlt

theorem slot_intern_lt (t : Interner) (s : String) : (t.intern s).1.slot < (t.intern s).2.size := by
  unfold intern
  cases h : t.find? s with
  | some n => exact slot_lt_of_find? h
  | none => simp [size]

/-- The name of a text stands for it in every later table. -/
theorem Grows.lookup_intern {s : String} (h : (t.intern s).2.Grows t') :
    t'.lookup (t.intern s).1 = s := by
  rw [h.lookup (slot_intern_lt t s), Interner.lookup_intern]

theorem Grows.lookup_internAll {ss : List String} (h : (t.internAll ss).2.Grows t') :
    (t.internAll ss).1.map t'.lookup = ss := by
  induction ss generalizing t with
  | nil => rfl
  | cons s ss ih =>
    have hs := ((grows_internAll (t.intern s).2 ss).trans h).lookup_intern
    rw [internAll_cons, List.map_cons, hs, ih (t := (t.intern s).2) h]

theorem length_internAll (t : Interner) (ss : List String) :
    (t.internAll ss).1.length = ss.length := by
  induction ss generalizing t with
  | nil => rfl
  | cons s ss ih => rw [internAll_cons, List.length_cons, ih, List.length_cons]

theorem internAll_append (t : Interner) (ss ss' : List String) :
    (t.internAll (ss ++ ss')).2 = ((t.internAll ss).2.internAll ss').2 := by
  induction ss generalizing t with
  | nil => rfl
  | cons s ss ih => exact ih _

/-! ## No text twice -/

/-- Every text has one slot at the most. -/
def Distinct (t : Interner) : Prop := t.texts.toList.Nodup

theorem distinct_empty : Interner.empty.Distinct := List.nodup_singleton ""

theorem Distinct.intern (h : t.Distinct) (s : String) : (t.intern s).2.Distinct := by
  unfold Interner.intern
  cases hf : t.find? s with
  | some n => exact h
  | none =>
    have hnew : ∀ x ∈ t.texts.toList, x ≠ s := by
      simpa [find?] using hf
    show (t.texts.push s).toList.Nodup
    rw [Array.toList_push, List.nodup_append]
    refine ⟨h, List.nodup_singleton s, ?_⟩
    intro x hx y hy
    rw [List.mem_singleton.1 hy]
    exact hnew x hx

theorem Distinct.internAll (h : t.Distinct) (ss : List String) : (t.internAll ss).2.Distinct := by
  induction ss generalizing t with
  | nil => exact h
  | cons s ss ih => exact ih (h.intern s)

/-- **Names of one table are equal when their texts are.** -/
theorem Distinct.lookup_inj (h : t.Distinct) (hm : m.slot < t.size) (hn : n.slot < t.size) :
    t.lookup m = t.lookup n ↔ m = n := by
  have hm' : m.slot < t.texts.toList.length := by simpa [size] using hm
  have hn' : n.slot < t.texts.toList.length := by simpa [size] using hn
  rw [lookup_eq, lookup_eq, List.getElem?_eq_getElem hm', List.getElem?_eq_getElem hn']
  simp only [Option.getD_some]
  rw [h.getElem_inj_iff]
  cases m
  cases n
  simp

/-! ## Finding texts -/

theorem find?_eq_none_iff {s : String} : t.find? s = none ↔ s ∉ t.texts.toList := by
  simp only [find?, Option.map_eq_none_iff, List.findIdx?_eq_none_iff, decide_eq_false_iff_not]
  exact ⟨fun h hs => h s hs rfl, fun h x hx he => h (he ▸ hx)⟩

theorem intern_of_find? {s : String} (h : t.find? s = some n) : t.intern s = (n, t) := by
  simp [Interner.intern, h]

theorem intern_of_new {s : String} (h : t.find? s = none) :
    t.intern s = (⟨t.size⟩, ⟨t.texts.push s⟩) := by
  simp [Interner.intern, h]

/-- **Finding a text undoes looking up its name.** -/
theorem Distinct.find?_eq_some_iff (h : t.Distinct) {s : String} :
    t.find? s = some n ↔ n.slot < t.size ∧ t.lookup n = s := by
  constructor
  · intro hs
    exact ⟨slot_lt_of_find? hs, lookup_of_find? hs⟩
  · rintro ⟨hlt, hs⟩
    cases hf : t.find? s with
    | some m =>
      have hmn : t.lookup m = t.lookup n := (lookup_of_find? hf).trans hs.symm
      rw [(h.lookup_inj (slot_lt_of_find? hf) hlt).mp hmn]
    | none =>
      have hlt : n.slot < t.texts.size := hlt
      refine absurd ?_ (find?_eq_none_iff.mp hf)
      rw [← hs, lookup, Array.getElem?_eq_getElem hlt, Option.getD_some]
      exact Array.getElem_mem_toList hlt

/-! ## What is added -/

theorem texts_intern (t : Interner) (s : String) : (t.intern s).2.texts.toList =
    t.texts.toList ++ if s ∈ t.texts.toList then [] else [s] := by
  cases hf : t.find? s with
  | some n =>
    have hs : s ∈ t.texts.toList := by
      rw [← not_not (a := s ∈ t.texts.toList), ← find?_eq_none_iff, hf]
      simp
    rw [intern_of_find? hf, if_pos hs, List.append_nil]
  | none => rw [intern_of_new hf, if_neg (find?_eq_none_iff.mp hf), Array.toList_push]

/-- **New texts are added in the order of their first use**, each once. -/
theorem texts_internAll (t : Interner) (ss : List String) : (t.internAll ss).2.texts.toList =
    t.texts.toList ++ (ss.filter (· ∉ t.texts.toList)).eraseDups := by
  induction ss generalizing t with
  | nil => simp [Interner.internAll]
  | cons s ss ih =>
    rw [internAll_cons, ih, texts_intern]
    by_cases hs : s ∈ t.texts.toList
    · rw [if_pos hs, List.append_nil, List.filter_cons_of_neg (by simpa using hs)]
    · have hrest : ss.filter (· ∉ t.texts.toList ++ [s]) =
          (ss.filter (· ∉ t.texts.toList)).filter fun x => !x == s := by
        rw [List.filter_filter]
        exact List.filter_congr fun x _ => by
          by_cases hx : x = s <;> simp [hx]
      rw [if_neg hs, hrest, List.filter_cons_of_pos (by simpa using hs), List.eraseDups_cons,
        List.append_assoc, List.singleton_append]

/-! ## Two tables -/

variable {t₁ t₂ u₁ u₂ : Interner}

/-- Names of two tables that stand for one text. -/
structure SameText (t₁ t₂ : Interner) (m n : Name) : Prop where
  left : m.slot < t₁.size
  right : n.slot < t₂.size
  text : t₁.lookup m = t₂.lookup n

theorem SameText.grows (h : SameText t₁ t₂ m n) (h₁ : t₁.Grows u₁) (h₂ : t₂.Grows u₂) :
    SameText u₁ u₂ m n where
  left := Nat.lt_of_lt_of_le h.left h₁.size_le
  right := Nat.lt_of_lt_of_le h.right h₂.size_le
  text := by rw [h₁.lookup h.left, h₂.lookup h.right, h.text]

/-- **Which names are equal does not depend on the table.** -/
theorem SameText.eq_iff {m' n' : Name} (h₁ : t₁.Distinct) (h₂ : t₂.Distinct)
    (h : SameText t₁ t₂ m n) (h' : SameText t₁ t₂ m' n') : m = m' ↔ n = n' := by
  rw [← h₁.lookup_inj h.left h'.left, ← h₂.lookup_inj h.right h'.right, h.text, h'.text]

theorem sameText_intern (t₁ t₂ : Interner) (s : String) :
    SameText (t₁.intern s).2 (t₂.intern s).2 (t₁.intern s).1 (t₂.intern s).1 where
  left := slot_intern_lt t₁ s
  right := slot_intern_lt t₂ s
  text := by rw [lookup_intern, lookup_intern]

theorem sameText_internAll (t₁ t₂ : Interner) (ss : List String) :
    List.Forall₂ (SameText (t₁.internAll ss).2 (t₂.internAll ss).2) (t₁.internAll ss).1
      (t₂.internAll ss).1 := by
  induction ss generalizing t₁ t₂ with
  | nil => exact .nil
  | cons s ss ih =>
    exact .cons ((sameText_intern t₁ t₂ s).grows (grows_internAll _ ss) (grows_internAll _ ss))
      (ih _ _)

end Interner
end ClosureLang
