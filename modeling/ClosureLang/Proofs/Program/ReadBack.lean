import ClosureLang.Proofs.Program.Alike
import ClosureLang.Proofs.Program.WellFormed

/-!
# Reading programs back

`Arena.read?` reads a node as the form that an author would write for it: with the texts of its
names and with its lists in full. What a form becomes in a program under construction is read back
as that form (`Builder.form?_node`), in every program and over every table that have grown out of
these. So nothing that is built later has to be looked at.
-/

namespace ClosureLang

/-! ## Programs that grow -/

/-- The second program is the first one with more at the end of each of its tables. -/
structure Arena.Grows (a a' : Arena) : Prop where
  nodes : a.nodes.toList <+: a'.nodes.toList
  lists : a.lists.toList <+: a'.lists.toList
  params : a.params.toList <+: a'.params.toList

namespace Arena

variable {a a' a'' : Arena}

/-- A stretch that lies in a table is read the same in a longer one. -/
theorem slice?_of_prefix {α : Type} {table table' : Array α} (h : table.toList <+: table'.toList)
    {s : Span} {xs : List α} (hs : slice? table s = some xs) : slice? table' s = some xs := by
  obtain ⟨added, hadded⟩ := h
  have htable : table' = table ++ added.toArray := by
    rw [← Array.toList_inj, ← hadded, Array.toList_append]
  have hlen : s.start + s.len ≤ table.size := by
    by_contra hlen
    rw [slice?, if_neg hlen] at hs
    cases hs
  rw [htable, slice?_append_left _ hlen, hs]

namespace Grows

theorem refl (a : Arena) : a.Grows a := ⟨List.prefix_refl _, List.prefix_refl _, List.prefix_refl _⟩

theorem trans (h : a.Grows a') (h' : a'.Grows a'') : a.Grows a'' :=
  ⟨h.nodes.trans h'.nodes, h.lists.trans h'.lists, h.params.trans h'.params⟩

theorem node? (h : a.Grows a') {i : ExprId} {n : Node} (hn : a.node? i = some n) :
    a'.node? i = some n := by
  rw [Arena.node?, ← Array.getElem?_toList] at hn ⊢
  obtain ⟨hi, rfl⟩ := List.getElem?_eq_some_iff.mp hn
  exact List.prefix_iff_getElem?.mp h.nodes i hi

theorem list? (h : a.Grows a') {s : Span} {ids : List ExprId} (hs : a.list? s = some ids) :
    a'.list? s = some ids :=
  slice?_of_prefix h.lists hs

theorem params? (h : a.Grows a') {s : Span} {ns : List Name} (hs : a.params? s = some ns) :
    a'.params? s = some ns :=
  slice?_of_prefix h.params hs

end Grows

theorem grows_push (a : Arena) (n : Node) : a.Grows (a.push n) where
  nodes := by simp [push]
  lists := List.prefix_refl _
  params := List.prefix_refl _

theorem grows_pushList (a : Arena) (ids : List ExprId) : a.Grows (a.pushList ids).2 where
  nodes := List.prefix_refl _
  lists := by simp [pushList]
  params := List.prefix_refl _

theorem grows_pushParams (a : Arena) (ns : List Name) : a.Grows (a.pushParams ns).2 where
  nodes := List.prefix_refl _
  lists := List.prefix_refl _
  params := by simp [pushParams]

/-! ## Reading -/

/-- A node as a form. There is none when a list or the parameters lie outside the program. -/
def form? (a : Arena) (names : Interner) : Node → Option Form
  | .number x => some (.number x)
  | .bool b => some (.bool b)
  | .str n => some (.text (names.lookup n))
  | .void => some .void
  | .ident n => some (.ident (names.lookup n))
  | .letIn n init => some (.letIn (names.lookup n) init)
  | .assign n value => some (.assign (names.lookup n) value)
  | .compound op n value => some (.compound op (names.lookup n) value)
  | .binary op l r => some (.binary op l r)
  | .function d => (a.params? d.params).map fun ps =>
      .function (d.name.map names.lookup) (ps.map names.lookup) d.body
  | .call callee s => (a.list? s).map (.call callee)
  | .print s => (a.list? s).map .print
  | .block s => (a.list? s).map .block
  | .ifElse c t e => some (.ifElse c t e)
  | .ret v => some (.ret v)

/-- The form at a position. -/
def read? (a : Arena) (names : Interner) (i : ExprId) : Option Form :=
  (a.node? i).bind (a.form? names)

end Arena

namespace Form

/-- The list that a form gives. -/
def ids : Form → List ExprId
  | call _ ids | print ids | block ids => ids
  | _ => []

/-- The parameters that a form gives. -/
def params : Form → List String
  | function _ ps _ => ps
  | _ => []

/-- The positions that a form refers to. -/
def children : Form → List ExprId
  | letIn _ i | assign _ i | compound _ _ i => [i]
  | binary _ l r => [l, r]
  | function _ _ body => [body]
  | call callee ids => callee :: ids
  | print ids | block ids => ids
  | ifElse c t e => c :: t :: e.toList
  | ret v => v.toList
  | _ => []

end Form

/-- The entries of a stretch. -/
def Span.indices (s : Span) : List Nat := List.range' s.start s.len

/-- What is read back as a form refers to what the form refers to, and to nothing outside. -/
structure Arena.Refers (a : Arena) (n : Node) (f : Form) : Prop where
  child : ∀ j ∈ n.children, j ∈ f.children
  list : ∀ s ∈ n.spans, ∃ ids, a.list? s = some ids ∧ ∀ j ∈ ids, j ∈ f.children
  params : ∀ d ∈ n.definitions, ∃ ps, a.params? d.params = some ps

theorem Arena.refers_of_form? {a : Arena} {names : Interner} {n : Node} {f : Form}
    (h : a.form? names n = some f) : a.Refers n f := by
  cases n with
  | function d =>
    obtain ⟨ps, hps, rfl⟩ := Option.map_eq_some_iff.mp h
    exact ⟨by simp [Node.children, Form.children], by simp [Node.spans],
      by simp [Node.definitions, hps]⟩
  | call callee s =>
    obtain ⟨ids, hids, rfl⟩ := Option.map_eq_some_iff.mp h
    exact ⟨by simp [Node.children, Form.children], by simp +contextual [Node.spans, hids, Form.children],
      by simp [Node.definitions]⟩
  | print s | block s =>
    obtain ⟨ids, hids, rfl⟩ := Option.map_eq_some_iff.mp h
    exact ⟨by simp [Node.children], by simp [Node.spans, hids, Form.children],
      by simp [Node.definitions]⟩
  | _ =>
    obtain rfl := Option.some.inj h
    exact ⟨by simp [Node.children, Form.children], by simp [Node.spans],
      by simp [Node.definitions]⟩

namespace Builder

/-! ## What one form adds -/

theorem lists_node (b : Builder) (f : Form) :
    (b.node f).2.arena.lists.toList = b.arena.lists.toList ++ f.ids := by
  cases f with
  | function s ps i => cases s <;> simp [node, Arena.pushParams, Form.ids]
  | call f args | print args | block args => simp [node, Arena.pushList, Form.ids]
  | _ => simp [node, Form.ids]

theorem params_node (b : Builder) (f : Form) :
    ∃ ns, (b.node f).2.arena.params.toList = b.arena.params.toList ++ ns ∧
      ∀ names, (b.node f).2.names.Grows names → ns.map names.lookup = f.params := by
  cases f with
  | function s ps i =>
    cases s with
    | none =>
      exact ⟨(b.names.internAll ps).1, by simp [node, Arena.pushParams],
        fun _ h => Interner.Grows.lookup_internAll h⟩
    | some s =>
      exact ⟨((b.names.intern s).2.internAll ps).1, by simp [node, Arena.pushParams],
        fun _ h => Interner.Grows.lookup_internAll h⟩
  | _ => exact ⟨[], by simp [node, Arena.pushList], fun _ _ => rfl⟩

/-- The list of a form comes right after all lists before it. -/
theorem spans_node (b : Builder) (f : Form) :
    (b.node f).1.spans.flatMap Span.indices = List.range' b.arena.lists.size f.ids.length := by
  cases f with
  | function s ps i => cases s <;> rfl
  | call f args | print args | block args =>
    simp [node, Arena.pushList, Node.spans, Span.indices, Form.ids]
  | ifElse c t e => rfl
  | ret v => rfl
  | _ => rfl

/-- The parameters of a form come right after all parameters before them. -/
theorem definitions_node (b : Builder) (f : Form) :
    (b.node f).1.definitions.flatMap (fun d => d.params.indices) =
      List.range' b.arena.params.size f.params.length := by
  cases f with
  | function s ps i =>
    cases s <;>
      simp [node, Arena.pushParams, Node.definitions, Span.indices, Form.params,
        Interner.length_internAll]
  | _ => rfl

theorem grows_node (b : Builder) (f : Form) : b.arena.Grows (b.node f).2.arena := by
  cases f with
  | function s ps i => cases s <;> exact Arena.grows_pushParams _ _
  | call f args | print args | block args => exact Arena.grows_pushList _ _
  | _ => exact .refl _

/-- **A form is read back**, from everything that grows out of what it was added to. -/
theorem form?_node (b : Builder) (f : Form) {a : Arena} {names : Interner}
    (ha : (b.node f).2.arena.Grows a) (hnames : (b.node f).2.names.Grows names) :
    a.form? names (b.node f).1 = some f := by
  cases f with
  | text s | ident s | letIn s i | assign s i | compound op s i =>
    have hs : names.lookup (b.names.intern s).1 = s := Interner.Grows.lookup_intern hnames
    simp only [node, Arena.form?, hs]
  | function s ps i =>
    cases s with
    | none =>
      have hps : (b.names.internAll ps).1.map names.lookup = ps :=
        Interner.Grows.lookup_internAll hnames
      have hparams := ha.params? (b.arena.params?_pushParams (b.names.internAll ps).1)
      simp only [node, Arena.form?, hparams, Option.map_some, Option.map_none, hps]
    | some s =>
      have hps : ((b.names.intern s).2.internAll ps).1.map names.lookup = ps :=
        Interner.Grows.lookup_internAll hnames
      have hs : names.lookup (b.names.intern s).1 = s :=
        ((Interner.grows_internAll _ ps).trans hnames).lookup_intern
      have hparams := ha.params? (b.arena.params?_pushParams ((b.names.intern s).2.internAll ps).1)
      simp only [node, Arena.form?, hparams, Option.map_some, hps, hs]
  | call f args | print args | block args =>
    have hlist := ha.list? (b.arena.list?_pushList args)
    simp only [node, Arena.form?, hlist, Option.map_some]
  | _ => rfl

end Builder
end ClosureLang
