import ClosureLang.Program.Builder
import ClosureLang.Proofs.Eval.Correspondence
import ClosureLang.Proofs.Program.Interning

/-!
# One program over two tables of texts

What is built twice over different tables is alike: node by node the same, but that names have
other slots. Two such programs are compared by what they are made of (`Arena.Alike`), which does
not mention how they were built, so code that a run gets hold of can be compared as well. Tables
that grow leave programs alike, since names keep their texts.
-/

namespace ClosureLang

open Interner

theorem rel_getElem? {α β : Type} {R : α → β → Prop} {as : List α} {bs : List β}
    (h : List.Forall₂ R as bs) (i : Nat) : Option.Rel R as[i]? bs[i]? := by
  induction h generalizing i with
  | nil => simp
  | cons hab _ ih =>
    cases i with
    | zero => simpa using hab
    | succ i => simpa using ih i

/-- Function literals that differ at most in the slots of names. -/
structure FunctionDef.Alike (t₁ t₂ : Interner) (d e : FunctionDef) : Prop where
  name : Option.Rel (SameText t₁ t₂) d.name e.name
  params : d.params = e.params
  body : d.body = e.body

/-- Nodes that differ at most in the slots of names. -/
def Node.Alike (t₁ t₂ : Interner) : Node → Node → Prop :=
  Node.Match (SameText t₁ t₂) Eq Eq (FunctionDef.Alike t₁ t₂)

/-- Programs that differ at most in the slots of names. -/
structure Arena.Alike (t₁ t₂ : Interner) (a b : Arena) : Prop where
  nodes : List.Forall₂ (Node.Alike t₁ t₂) a.nodes.toList b.nodes.toList
  lists : a.lists = b.lists
  params : List.Forall₂ (SameText t₁ t₂) a.params.toList b.params.toList

/-- Code that differs at most in the slots of names. -/
structure FunctionCode.Alike (t₁ t₂ : Interner) (c d : FunctionCode) : Prop where
  arena : c.arena.Alike t₁ t₂ d.arena
  definition : c.definition.Alike t₁ t₂ d.definition
  name : c.name = d.name

variable {t₁ t₂ u₁ u₂ : Interner} {a b : Arena}

/-! ## Later tables -/

theorem FunctionDef.Alike.grows {d e : FunctionDef} (h : d.Alike t₁ t₂ e) (h₁ : t₁.Grows u₁)
    (h₂ : t₂.Grows u₂) : d.Alike u₁ u₂ e :=
  ⟨rel_imp h.name fun _ _ hm => hm.grows h₁ h₂, h.params, h.body⟩

theorem Arena.Alike.grows (h : a.Alike t₁ t₂ b) (h₁ : t₁.Grows u₁) (h₂ : t₂.Grows u₂) :
    a.Alike u₁ u₂ b where
  nodes := h.nodes.imp fun _ _ hn => hn.imp (fun _ _ hm => hm.grows h₁ h₂) (fun _ _ => id)
    (fun _ _ => id) fun _ _ hd => hd.grows h₁ h₂
  lists := h.lists
  params := h.params.imp fun _ _ hm => hm.grows h₁ h₂

/-! ## Reading programs that are alike -/

namespace Arena.Alike

theorem node? (h : a.Alike t₁ t₂ b) (i : ExprId) :
    Option.Rel (Node.Alike t₁ t₂) (a.node? i) (b.node? i) := by
  simpa [Arena.node?] using rel_getElem? h.nodes i

theorem list? (h : a.Alike t₁ t₂ b) (s : Span) : a.list? s = b.list? s := by
  rw [Arena.list?, Arena.list?, h.lists]

theorem params? (h : a.Alike t₁ t₂ b) (s : Span) :
    Option.Rel (List.Forall₂ (SameText t₁ t₂)) (a.params? s) (b.params? s) := by
  have hsize : a.params.size = b.params.size := by simpa using h.params.length_eq
  simp only [Arena.params?, Arena.slice?, hsize]
  split
  · refine .some ?_
    simpa using List.forall₂_take _ (List.forall₂_drop _ h.params)
  · exact .none

end Arena.Alike

/-! ## Building -/

namespace Arena.Alike

theorem empty (t₁ t₂ : Interner) : Arena.empty.Alike t₁ t₂ .empty := ⟨.nil, rfl, .nil⟩

theorem push (h : a.Alike t₁ t₂ b) {n n' : Node} (hn : n.Alike t₁ t₂ n') :
    (a.push n).Alike t₁ t₂ (b.push n') where
  nodes := by
    simp only [Arena.push, Array.toList_push]
    exact List.rel_append h.nodes (.cons hn .nil)
  lists := h.lists
  params := h.params

theorem pushList (h : a.Alike t₁ t₂ b) (ids : List ExprId) :
    (a.pushList ids).1 = (b.pushList ids).1 ∧
      (a.pushList ids).2.Alike t₁ t₂ (b.pushList ids).2 := by
  refine ⟨by simp [Arena.pushList, h.lists], h.nodes, ?_, h.params⟩
  simp [Arena.pushList, h.lists]

theorem pushParams (h : a.Alike t₁ t₂ b) {ns ms : List Name}
    (hn : List.Forall₂ (SameText t₁ t₂) ns ms) :
    (a.pushParams ns).1 = (b.pushParams ms).1 ∧
      (a.pushParams ns).2.Alike t₁ t₂ (b.pushParams ms).2 := by
  have hsize : a.params.size = b.params.size := by simpa using h.params.length_eq
  refine ⟨by simp [Arena.pushParams, hsize, hn.length_eq], h.nodes, h.lists, ?_⟩
  simpa [Arena.pushParams] using List.rel_append h.params hn

end Arena.Alike

/-- The texts that a form interns, in order. -/
def Form.texts : Form → List String
  | .text s | .ident s | .letIn s _ | .assign s _ | .compound _ s _ => [s]
  | .function s ps _ => s.toList ++ ps
  | _ => []

namespace Builder

/-- One thing that the author of a program does. -/
inductive Call where
  | add (f : Form)
  /-- Asks for the name of a text without using it. -/
  | name (s : String)

def apply (b : Builder) : Call → Builder
  | .add f => b.add f
  | .name s => { b with names := (b.names.intern s).2 }

def applyAll (b : Builder) (calls : List Call) : Builder := calls.foldl apply b

/-- Builders over two tables that have come to programs that are alike. -/
def Alike (b c : Builder) : Prop := b.arena.Alike b.names c.names c.arena

theorem names_node (b : Builder) (f : Form) :
    (b.node f).2.names = (b.names.internAll f.texts).2 := by
  cases f with
  | function s ps i => cases s <;> rfl
  | _ => rfl

/-- Building only adds texts to a table. -/
theorem names_apply (b : Builder) (c : Call) :
    ∃ ss, (b.apply c).names = (b.names.internAll ss).2 := by
  cases c with
  | add f => exact ⟨f.texts, b.names_node f⟩
  | name s => exact ⟨[s], rfl⟩

theorem grows_applyAll (b : Builder) (calls : List Call) :
    b.names.Grows (b.applyAll calls).names := by
  induction calls generalizing b with
  | nil => exact .refl _
  | cons c calls ih =>
    obtain ⟨ss, hss⟩ := b.names_apply c
    exact (hss ▸ grows_internAll b.names ss).trans (ih _)

theorem distinct_applyAll {b : Builder} (h : b.names.Distinct) (calls : List Call) :
    (b.applyAll calls).names.Distinct := by
  induction calls generalizing b with
  | nil => exact h
  | cons c calls ih =>
    obtain ⟨ss, hss⟩ := b.names_apply c
    exact ih (hss ▸ h.internAll ss)

namespace Alike

variable {b c : Builder}

theorem intern (h : b.Alike c) (s : String) :
    SameText (b.names.intern s).2 (c.names.intern s).2 (b.names.intern s).1
        (c.names.intern s).1 ∧
      b.arena.Alike (b.names.intern s).2 (c.names.intern s).2 c.arena :=
  ⟨sameText_intern _ _ s, Arena.Alike.grows h (grows_intern _ s) (grows_intern _ s)⟩

/-- The parameters of a literal. -/
theorem params {t₁ t₂ : Interner} {a b : Arena} (h : a.Alike t₁ t₂ b) (ps : List String) :
    (a.pushParams (t₁.internAll ps).1).1 = (b.pushParams (t₂.internAll ps).1).1 ∧
      (a.pushParams (t₁.internAll ps).1).2.Alike (t₁.internAll ps).2 (t₂.internAll ps).2
        (b.pushParams (t₂.internAll ps).1).2 :=
  (h.grows (grows_internAll t₁ ps) (grows_internAll t₂ ps)).pushParams (sameText_internAll t₁ t₂ ps)

/-- **A form becomes nodes that are alike.** -/
theorem node (h : b.Alike c) (f : Form) :
    (b.node f).1.Alike (b.node f).2.names (c.node f).2.names (c.node f).1 ∧
      (b.node f).2.Alike (c.node f).2 := by
  cases f with
  | number x => exact ⟨.number x, h⟩
  | bool x => exact ⟨.bool x, h⟩
  | text s => exact ⟨.str (h.intern s).1, (h.intern s).2⟩
  | void => exact ⟨.void, h⟩
  | ident s => exact ⟨.ident (h.intern s).1, (h.intern s).2⟩
  | letIn s i => exact ⟨.letIn (h.intern s).1 rfl, (h.intern s).2⟩
  | assign s i => exact ⟨.assign (h.intern s).1 rfl, (h.intern s).2⟩
  | compound op s i => exact ⟨.compound op (h.intern s).1 rfl, (h.intern s).2⟩
  | binary op l r => exact ⟨.binary op rfl rfl, h⟩
  | function s ps i =>
    cases s with
    | none =>
      obtain ⟨hs, ha⟩ := params h ps
      exact ⟨.function ⟨.none, hs, rfl⟩, ha⟩
    | some s =>
      obtain ⟨hn, ha⟩ := h.intern s
      obtain ⟨hs, ha⟩ := params ha ps
      exact ⟨.function ⟨.some (hn.grows (grows_internAll _ ps) (grows_internAll _ ps)), hs, rfl⟩, ha⟩
  | call f args =>
    obtain ⟨hs, ha⟩ := Arena.Alike.pushList h args
    exact ⟨.call rfl hs, ha⟩
  | print args =>
    obtain ⟨hs, ha⟩ := Arena.Alike.pushList h args
    exact ⟨.print hs, ha⟩
  | block stmts =>
    obtain ⟨hs, ha⟩ := Arena.Alike.pushList h stmts
    exact ⟨.block hs, ha⟩
  | ifElse i t e =>
    cases e with
    | none => exact ⟨.ifThen rfl rfl, h⟩
    | some e => exact ⟨.ifElse rfl rfl rfl, h⟩
  | ret v =>
    cases v with
    | none => exact ⟨.retVoid, h⟩
    | some i => exact ⟨.ret rfl, h⟩

theorem apply (h : b.Alike c) (call : Call) : (b.apply call).Alike (c.apply call) := by
  cases call with
  | add f =>
    obtain ⟨hn, ha⟩ := h.node f
    exact Arena.Alike.push ha hn
  | name s => exact (h.intern s).2

/-- **What is built over two tables is alike.** -/
theorem applyAll (h : b.Alike c) (calls : List Call) :
    (b.applyAll calls).Alike (c.applyAll calls) := by
  induction calls generalizing b c with
  | nil => exact h
  | cons call calls ih => exact ih (h.apply call)

end Alike

/-! ## Literals -/

theorem nodes_node (b : Builder) (f : Form) : (b.node f).2.arena.nodes = b.arena.nodes := by
  cases f with
  | function s ps i => cases s <;> rfl
  | _ => rfl

/-- A node stays at its position. -/
theorem node?_applyAll {b : Builder} {i : ExprId} {n : Node} (h : b.arena.node? i = some n)
    (calls : List Call) : (b.applyAll calls).arena.node? i = some n := by
  induction calls generalizing b with
  | nil => exact h
  | cons c calls ih =>
    refine ih ?_
    cases c with
    | name s => exact h
    | add f =>
      have hlt : i < b.arena.size := Arena.lt_size_of_node? h
      have hne : i ≠ (b.node f).2.arena.size := by
        rw [Arena.size, nodes_node]
        exact Nat.ne_of_lt hlt
      show ((b.node f).2.arena.push (b.node f).1).node? i = some n
      rw [Arena.node?_push, if_neg hne, Arena.node?, nodes_node]
      exact h

/-- **A text literal stands for its text**, in every later table. -/
theorem lookup_text (b : Builder) (s : String) (after : List Call) {t : Interner}
    (ht : ((b.add (.text s)).applyAll after).names.Grows t) :
    ∃ n, ((b.add (.text s)).applyAll after).arena.node? b.next = some (.str n) ∧
      t.lookup n = s := by
  have hnode : (b.add (.text s)).arena.node? b.next = some (.str (b.names.intern s).1) := by
    show (b.arena.push _).node? b.arena.size = _
    rw [Arena.node?_push, if_pos rfl]
    rfl
  have hgrows := ((b.add (.text s)).grows_applyAll after).trans ht
  refine ⟨_, node?_applyAll hnode after, ?_⟩
  rw [hgrows.lookup (slot_intern_lt b.names s)]
  exact lookup_intern b.names s

end Builder
end ClosureLang
