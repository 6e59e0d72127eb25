import ClosureLang.Program.Draft
import ClosureLang.Proofs.Program.ReadBack

/-!
# Programs are stored as they were written

A builder puts nodes, lists and texts into tables that only grow. `programs_are_stored` says what
these hold after any number of calls, over a table of texts with anything in it: one node for each
form, at the position that was handed out for it; each is read back as the form that it was; lists
and parameters lie next to each other in the order of their forms (`Arena.Tiled`); and the texts
that are new come after the others in the order of their first use. When forms refer only to
positions handed out before, the program is well formed.
-/

namespace ClosureLang

/-- The lists, taken in the order of the nodes they belong to, are the table of lists from its
start to its end, with nothing left out and nothing in two of them. So are the parameters. -/
structure Arena.Tiled (a : Arena) : Prop where
  lists : (a.nodes.toList.flatMap Node.spans).flatMap Span.indices = List.range' 0 a.lists.size
  params : (a.nodes.toList.flatMap Node.definitions).flatMap (fun d => d.params.indices) =
    List.range' 0 a.params.size

namespace Builder

/-- The form that is added. -/
def Call.form? : Call → Option Form
  | add f => some f
  | name _ => none

/-- The texts that are interned. -/
def Call.texts : Call → List String
  | add f => f.texts
  | name s => [s]

def forms (calls : List Call) : List Form := calls.filterMap Call.form?

theorem forms_add (f : Form) (calls : List Call) : forms (.add f :: calls) = f :: forms calls := rfl

/-- The positions that are handed out for the forms. -/
def ids (b : Builder) : List Call → List ExprId
  | [] => []
  | .add f :: calls => (Draft.place f b).1 :: ids (Draft.place f b).2 calls
  | .name s :: calls => ids (b.apply (.name s)) calls

/-- Every form refers to positions that were handed out for forms before it. -/
def RefersBack (b : Builder) (calls : List Call) : Prop :=
  ∀ i f, (forms calls)[i]? = some f → ∀ j ∈ f.children, j ∈ (b.ids calls).take i

/-- **A program that holds what was written.** -/
structure Stores (names : Interner) (calls : List Call) (b : Builder) : Prop where
  size : b.arena.size = (forms calls).length
  /-- Texts may be looked up in any later table. -/
  read : ∀ t, b.names.Grows t → ∀ i, b.arena.read? t i = (forms calls)[i]?
  /-- Every child comes before its parent. -/
  wellFormed : b.arena.WellFormed
  /-- The table of lists holds the lists that were given, and is as long as they are together. -/
  lists : b.arena.lists.toList = (forms calls).flatMap Form.ids
  params : ∀ t, b.names.Grows t →
    b.arena.params.toList.map t.lookup = (forms calls).flatMap Form.params
  tiled : b.arena.Tiled
  texts : b.names.texts.toList = names.texts.toList ++
    ((calls.flatMap Call.texts).filter (· ∉ names.texts.toList)).eraseDups

variable {b : Builder} {calls : List Call}

/-! ## One call -/

theorem nodes_add (b : Builder) (f : Form) :
    (b.add f).arena.nodes = b.arena.nodes.push (b.node f).1 := by
  simp [add, Arena.push, nodes_node]

theorem next_add (b : Builder) (f : Form) : (b.add f).next = b.next + 1 := by
  simp [next, Arena.size, nodes_add]

theorem grows_apply (b : Builder) (c : Call) : b.arena.Grows (b.apply c).arena := by
  cases c with
  | add f => exact (b.grows_node f).trans (Arena.grows_push _ _)
  | name s => exact .refl _

theorem names_apply_eq (b : Builder) (c : Call) :
    (b.apply c).names = (b.names.internAll c.texts).2 := by
  cases c with
  | add f => exact b.names_node f
  | name s => rfl

/-- A form is read back from what it is added to. -/
theorem read?_add (b : Builder) (f : Form) {a : Arena} {t : Interner}
    (ha : (b.add f).arena.Grows a) (ht : (b.add f).names.Grows t) :
    a.read? t b.next = some f := by
  have hnode : (b.add f).arena.node? b.next = some (b.node f).1 := by
    simp [Arena.node?, nodes_add, next, Arena.size]
  have hgrows : (b.node f).2.arena.Grows a := (Arena.grows_push _ _).trans ha
  rw [Arena.read?, ha.node? hnode, Option.bind_some]
  exact b.form?_node f hgrows ht

theorem lists_size_add (b : Builder) (f : Form) :
    (b.add f).arena.lists.size = b.arena.lists.size + f.ids.length := by
  have h := congrArg List.length (b.lists_node f)
  rwa [List.length_append, Array.length_toList, Array.length_toList] at h

theorem params_size_add (b : Builder) (f : Form) :
    (b.add f).arena.params.size = b.arena.params.size + f.params.length := by
  obtain ⟨ns, hns, hlookup⟩ := b.params_node f
  have hlen : ns.length = f.params.length := by rw [← hlookup _ (.refl _), List.length_map]
  have h := congrArg List.length hns
  rwa [List.length_append, Array.length_toList, Array.length_toList, hlen] at h

theorem Tiled.add {b : Builder} (h : b.arena.Tiled) (f : Form) : (b.add f).arena.Tiled where
  lists := by
    rw [nodes_add, lists_size_add, Array.toList_push, List.flatMap_append, List.flatMap_append, h.lists,
      List.flatMap_singleton, spans_node, ← List.range'_append_1, Nat.zero_add]
  params := by
    rw [nodes_add, params_size_add, Array.toList_push, List.flatMap_append, List.flatMap_append, h.params,
      List.flatMap_singleton, definitions_node, ← List.range'_append_1, Nat.zero_add]

/-! ## Any number of calls -/

theorem ids_eq (b : Builder) (calls : List Call) :
    b.ids calls = List.range' b.next (forms calls).length := by
  induction calls generalizing b with
  | nil => rfl
  | cons c calls ih =>
    cases c with
    | add f =>
      show b.next :: (b.add f).ids calls = _
      rw [ih, next_add]
      rfl
    | name s => exact ih _

theorem next_applyAll (b : Builder) (calls : List Call) :
    (b.applyAll calls).next = b.next + (forms calls).length := by
  induction calls generalizing b with
  | nil => rfl
  | cons c calls ih =>
    show ((b.apply c).applyAll calls).next = _
    rw [ih]
    cases c with
    | add f =>
      show (b.add f).next + (forms calls).length = b.next + ((forms calls).length + 1)
      rw [next_add, Nat.add_assoc, Nat.add_comm 1]
    | name s => rfl

theorem arena_grows_applyAll (b : Builder) (calls : List Call) :
    b.arena.Grows (b.applyAll calls).arena := by
  induction calls generalizing b with
  | nil => exact .refl _
  | cons c calls ih => exact (b.grows_apply c).trans (ih _)

theorem names_applyAll (b : Builder) (calls : List Call) :
    (b.applyAll calls).names = (b.names.internAll (calls.flatMap Call.texts)).2 := by
  induction calls generalizing b with
  | nil => rfl
  | cons c calls ih =>
    rw [List.flatMap_cons, Interner.internAll_append, ← names_apply_eq]
    exact ih _

theorem lists_applyAll (b : Builder) (calls : List Call) :
    (b.applyAll calls).arena.lists.toList =
      b.arena.lists.toList ++ (forms calls).flatMap Form.ids := by
  induction calls generalizing b with
  | nil => simp [applyAll, forms]
  | cons c calls ih =>
    cases c with
    | add f =>
      have hf : (b.add f).arena.lists.toList = b.arena.lists.toList ++ f.ids := b.lists_node f
      rw [forms_add, List.flatMap_cons, ← List.append_assoc, ← hf]
      exact ih _
    | name s => exact ih _

theorem params_applyAll (b : Builder) (calls : List Call) {t : Interner}
    (ht : (b.applyAll calls).names.Grows t) :
    (b.applyAll calls).arena.params.toList.map t.lookup =
      b.arena.params.toList.map t.lookup ++ (forms calls).flatMap Form.params := by
  induction calls generalizing b with
  | nil => simp [applyAll, forms]
  | cons c calls ih =>
    cases c with
    | add f =>
      obtain ⟨ns, hns, hlookup⟩ := b.params_node f
      have hf : (b.add f).arena.params.toList = b.arena.params.toList ++ ns := hns
      have hps : ns.map t.lookup = f.params :=
        hlookup t ((grows_applyAll (b.add f) calls).trans ht)
      rw [forms_add, List.flatMap_cons, ← List.append_assoc, ← hps, ← List.map_append, ← hf]
      exact ih _ ht
    | name s => exact ih _ ht

theorem Tiled.applyAll {b : Builder} (h : b.arena.Tiled) (calls : List Call) :
    (b.applyAll calls).arena.Tiled := by
  induction calls generalizing b with
  | nil => exact h
  | cons c calls ih =>
    cases c with
    | add f => exact ih (Tiled.add h f)
    | name s => exact ih (b := b.apply (.name s)) h

/-- **What was written stays readable**, whatever is written after it. -/
theorem read?_applyAll (b : Builder) (calls : List Call) {t : Interner}
    (ht : (b.applyAll calls).names.Grows t) {i : Nat} {f : Form}
    (hf : (forms calls)[i]? = some f) :
    (b.applyAll calls).arena.read? t (b.next + i) = some f := by
  induction calls generalizing b i with
  | nil => simp [forms] at hf
  | cons c calls ih =>
    cases c with
    | name s => exact ih _ ht hf
    | add g =>
      cases i with
      | zero =>
        obtain rfl := Option.some.inj hf
        exact b.read?_add g (arena_grows_applyAll _ calls) ((grows_applyAll _ calls).trans ht)
      | succ i =>
        have hi := ih (b.add g) ht hf
        rwa [next_add, Nat.add_right_comm] at hi

/-! ## Whole programs -/

variable {names : Interner}

theorem size_build (names : Interner) (calls : List Call) :
    ((start names).applyAll calls).arena.size = (forms calls).length :=
  (next_applyAll (start names) calls).trans (Nat.zero_add _)

/-- What was handed out before is less. -/
theorem RefersBack.lt (h : RefersBack (start names) calls) {i : Nat} {f : Form}
    (hf : (forms calls)[i]? = some f) : ∀ j ∈ f.children, j < i := by
  intro j hj
  have hmem := h i f hf j hj
  rw [ids_eq, show (start names).next = 0 from rfl, ← List.range_eq_range', List.take_range] at hmem
  exact Nat.lt_of_lt_of_le (List.mem_range.mp hmem) (Nat.min_le_left _ _)

theorem read?_build (names : Interner) (calls : List Call) {t : Interner}
    (ht : ((start names).applyAll calls).names.Grows t) (i : Nat) :
    ((start names).applyAll calls).arena.read? t i = (forms calls)[i]? := by
  cases hf : (forms calls)[i]? with
  | some f =>
    have hi := read?_applyAll (start names) calls ht hf
    rwa [show (start names).next = 0 from rfl, Nat.zero_add] at hi
  | none =>
    have hi : ((start names).applyAll calls).arena.nodes.size ≤ i :=
      Nat.le_trans (Nat.le_of_eq (size_build names calls)) (List.getElem?_eq_none_iff.mp hf)
    rw [Arena.read?, Arena.node?, Array.getElem?_eq_none hi, Option.bind_none]

/-- Since nodes are read back as their forms, they refer to what these refer to. -/
theorem RefersBack.wellFormed (h : RefersBack (start names) calls) :
    ((start names).applyAll calls).arena.WellFormed := by
  have hrefers : ∀ {i : Nat} {n : Node}, ((start names).applyAll calls).arena.node? i = some n →
      ∃ f, (∀ j ∈ f.children, j < i) ∧ ((start names).applyAll calls).arena.Refers n f := by
    intro i n hn
    have hi : i < (forms calls).length := size_build names calls ▸ Arena.lt_size_of_node? hn
    have hf := List.getElem?_eq_getElem hi
    have hform := (read?_build names calls (.refl _) i).trans hf
    rw [Arena.read?, hn, Option.bind_some] at hform
    exact ⟨_, h.lt hf, Arena.refers_of_form? hform⟩
  constructor
  · intro i n hn j hj
    obtain ⟨f, hlt, hrefers⟩ := hrefers hn
    exact hlt j (hrefers.child j hj)
  · intro i n hn s hs
    obtain ⟨f, hlt, hrefers⟩ := hrefers hn
    obtain ⟨ids, hids, hmem⟩ := hrefers.list s hs
    exact ⟨ids, hids, fun j hj => hlt j (hmem j hj)⟩
  · intro i n hn d hd
    obtain ⟨f, -, hrefers⟩ := hrefers hn
    exact hrefers.params d hd

/-- **Programs are stored as they were written**, and the positions handed out for their forms are
0, 1, 2 and so on. -/
theorem programs_are_stored (names : Interner) (calls : List Call)
    (h : RefersBack (start names) calls) :
    (start names).ids calls = List.range (forms calls).length ∧
      Stores names calls ((start names).applyAll calls) := by
  refine ⟨?_, ?_⟩
  · rw [ids_eq, List.range_eq_range']
    rfl
  · exact {
      size := size_build names calls
      read := fun t ht i => read?_build names calls ht i
      wellFormed := h.wellFormed
      lists := lists_applyAll _ calls
      params := fun t ht => params_applyAll _ calls ht
      tiled := Tiled.applyAll (b := start names) ⟨rfl, rfl⟩ calls
      texts := by
        rw [names_applyAll, Interner.texts_internAll]
        rfl }

/-- A function of a parameter whose text the table holds, called twice over. -/
def twice : List Call := [.add (.ident "x"), .add (.function (some "f") ["x"] 0), .name "y",
  .add (.call 1 [0, 0]), .add (.block [2, 2])]

theorem programs_are_stored_twice :
    RefersBack (start (Interner.empty.intern "x").2) twice ∧
      let b := (start (Interner.empty.intern "x").2).applyAll twice
      b.names.texts.toList = ["", "x", "f", "y"] ∧
        b.arena.read? b.names 2 = some (.call 1 [0, 0]) := by
  have hback : RefersBack (start (Interner.empty.intern "x").2) twice := by
    intro i f hf
    match i, hf with
    | 0, hf | 1, hf | 2, hf | 3, hf =>
      obtain rfl := Option.some.inj hf
      decide
  have hstores := (programs_are_stored _ _ hback).2
  refine ⟨hback, ?_, hstores.read _ (.refl _) 2⟩
  rw [hstores.texts]
  decide +kernel

end Builder
end ClosureLang
