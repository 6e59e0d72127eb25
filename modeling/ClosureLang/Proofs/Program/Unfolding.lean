import ClosureLang.Proofs.Eval.Correspondence

/-!
# Programs as trees

A position of a program stands for a tree: its node, with the trees of the node's children in
place of their positions. Positions, the tables that lists lie in, and whether one node is the
child of several are gone in it. So two programs have an expression in common, however they are
laid out, where positions of them unfold to the same tree.

In a well-formed program every position unfolds, because its children come before it.
-/

namespace ClosureLang

/-- An expression with its subexpressions in place. -/
inductive Tree where
  | number (x : Float)
  | bool (b : Bool)
  | str (text : Name)
  | void
  | ident (name : Name)
  | letIn (name : Name) (init : Tree)
  | assign (name : Name) (value : Tree)
  | compound (op : BinaryOp) (name : Name) (value : Tree)
  | binary (op : BinaryOp) (left right : Tree)
  | function (name : Option Name) (params : List Name) (body : Tree)
  | call (callee : Tree) (args : List Tree)
  | print (args : List Tree)
  | block (stmts : List Tree)
  | ifElse (cond thenBranch : Tree) (elseBranch : Option Tree)
  | ret (value : Option Tree)

/-- A node of program `a` unfolds to a tree, where its children unfold as `child` says. -/
inductive Node.Unfolds (a : Arena) (child : ExprId → Tree → Prop) : Node → Tree → Prop
  | number (x : Float) : Unfolds a child (.number x) (.number x)
  | bool (b : Bool) : Unfolds a child (.bool b) (.bool b)
  | str (n : Name) : Unfolds a child (.str n) (.str n)
  | void : Unfolds a child .void .void
  | ident (n : Name) : Unfolds a child (.ident n) (.ident n)
  | letIn {n i t} (h : child i t) : Unfolds a child (.letIn n i) (.letIn n t)
  | assign {n i t} (h : child i t) : Unfolds a child (.assign n i) (.assign n t)
  | compound {op n i t} (h : child i t) : Unfolds a child (.compound op n i) (.compound op n t)
  | binary {op i j t u} (hl : child i t) (hr : child j u) :
      Unfolds a child (.binary op i j) (.binary op t u)
  | function {d ps t} (hps : a.params? d.params = some ps) (hbody : child d.body t) :
      Unfolds a child (.function d) (.function d.name ps t)
  | call {i s ids t ts} (hf : child i t) (hs : a.list? s = some ids)
      (hargs : List.Forall₂ child ids ts) : Unfolds a child (.call i s) (.call t ts)
  | print {s ids ts} (hs : a.list? s = some ids) (hargs : List.Forall₂ child ids ts) :
      Unfolds a child (.print s) (.print ts)
  | block {s ids ts} (hs : a.list? s = some ids) (hstmts : List.Forall₂ child ids ts) :
      Unfolds a child (.block s) (.block ts)
  | ifThen {i j t u} (hc : child i t) (ht : child j u) :
      Unfolds a child (.ifElse i j none) (.ifElse t u none)
  | ifElse {i j k t u v} (hc : child i t) (ht : child j u) (he : child k v) :
      Unfolds a child (.ifElse i j (some k)) (.ifElse t u (some v))
  | retVoid : Unfolds a child (.ret none) (.ret none)
  | ret {i t} (h : child i t) : Unfolds a child (.ret (some i)) (.ret (some t))

/-- A position of a program unfolds to a tree. -/
inductive Arena.Unfolds (a : Arena) : ExprId → Tree → Prop
  | node {i : ExprId} {n : Node} {t : Tree} (hn : a.node? i = some n)
      (h : n.Unfolds a (Arena.Unfolds a) t) : Unfolds a i t

/-- The literal that code is made of unfolds to a tree. -/
def FunctionCode.Unfolds (c : FunctionCode) : Tree → Prop :=
  Node.Unfolds c.arena c.arena.Unfolds (.function c.definition)

theorem forall₂_exists {α β : Type} {R : α → β → Prop} {as : List α} (h : ∀ a ∈ as, ∃ b, R a b) :
    ∃ bs, List.Forall₂ R as bs := by
  induction as with
  | nil => exact ⟨[], .nil⟩
  | cons a as ih =>
    obtain ⟨b, hb⟩ := h a (by simp)
    obtain ⟨bs, hbs⟩ := ih fun a' ha' => h a' (by simp [ha'])
    exact ⟨b :: bs, .cons hb hbs⟩

/-- A node unfolds when its children do, and its stretches lie in their tables. -/
theorem Node.exists_unfolds {a : Arena} {child : ExprId → Tree → Prop} {n : Node}
    (hchild : ∀ i ∈ n.children, ∃ t, child i t)
    (hlist : ∀ s ∈ n.spans, ∃ ids, a.list? s = some ids ∧ ∀ i ∈ ids, ∃ t, child i t)
    (hparams : ∀ d ∈ n.definitions, ∃ ps, a.params? d.params = some ps) :
    ∃ t, n.Unfolds a child t := by
  have hlists : ∀ s ∈ n.spans, ∃ ids ts, a.list? s = some ids ∧ List.Forall₂ child ids ts := by
    intro s hs
    obtain ⟨ids, hids, hall⟩ := hlist s hs
    obtain ⟨ts, hts⟩ := forall₂_exists hall
    exact ⟨ids, ts, hids, hts⟩
  cases n with
  | number x => exact ⟨_, .number x⟩
  | bool b => exact ⟨_, .bool b⟩
  | str n => exact ⟨_, .str n⟩
  | void => exact ⟨_, .void⟩
  | ident n => exact ⟨_, .ident n⟩
  | letIn n i =>
    obtain ⟨t, ht⟩ := hchild i (by simp [children])
    exact ⟨_, .letIn ht⟩
  | assign n i =>
    obtain ⟨t, ht⟩ := hchild i (by simp [children])
    exact ⟨_, .assign ht⟩
  | compound op n i =>
    obtain ⟨t, ht⟩ := hchild i (by simp [children])
    exact ⟨_, .compound ht⟩
  | binary op l r =>
    obtain ⟨t, ht⟩ := hchild l (by simp [children])
    obtain ⟨u, hu⟩ := hchild r (by simp [children])
    exact ⟨_, .binary ht hu⟩
  | function d =>
    obtain ⟨ps, hps⟩ := hparams d (by simp [definitions])
    obtain ⟨t, ht⟩ := hchild d.body (by simp [children])
    exact ⟨_, .function hps ht⟩
  | call i s =>
    obtain ⟨t, ht⟩ := hchild i (by simp [children])
    obtain ⟨ids, ts, hids, hts⟩ := hlists s (by simp [spans])
    exact ⟨_, .call ht hids hts⟩
  | print s =>
    obtain ⟨ids, ts, hids, hts⟩ := hlists s (by simp [spans])
    exact ⟨_, .print hids hts⟩
  | block s =>
    obtain ⟨ids, ts, hids, hts⟩ := hlists s (by simp [spans])
    exact ⟨_, .block hids hts⟩
  | ifElse i j k =>
    obtain ⟨t, ht⟩ := hchild i (by simp [children])
    obtain ⟨u, hu⟩ := hchild j (by simp [children])
    cases k with
    | none => exact ⟨_, .ifThen ht hu⟩
    | some k =>
      obtain ⟨v, hv⟩ := hchild k (by simp [children])
      exact ⟨_, .ifElse ht hu hv⟩
  | ret i =>
    cases i with
    | none => exact ⟨_, .retVoid⟩
    | some i =>
      obtain ⟨t, ht⟩ := hchild i (by simp [children])
      exact ⟨_, .ret ht⟩

/-- **Every position of a well-formed program unfolds.** -/
theorem Arena.WellFormed.exists_unfolds {a : Arena} (ha : a.WellFormed) {i : ExprId}
    (hi : i < a.size) : ∃ t, a.Unfolds i t := by
  induction i using Nat.strongRecOn with
  | ind i ih =>
    obtain ⟨n, hn⟩ := Arena.node?_of_lt hi
    have hbefore : ∀ j : Nat, j < i → ∃ t, a.Unfolds j t :=
      fun j hj => ih j hj (Nat.lt_trans hj hi)
    obtain ⟨t, ht⟩ := Node.exists_unfolds (fun j hj => hbefore j (ha.child_lt hn j hj))
      (fun s hs => by
        obtain ⟨ids, hids, hlt⟩ := ha.list_lt hn s hs
        exact ⟨ids, hids, fun j hj => hbefore j (hlt j hj)⟩)
      (ha.params hn)
    exact ⟨t, .node hn ht⟩

/-- It is the children of a node that matter to what it unfolds to. -/
theorem Node.Unfolds.imp {a : Arena} {C D : ExprId → Tree → Prop} {n : Node} {t : Tree}
    (h : n.Unfolds a C t) (hchild : ∀ i ∈ n.children, ∀ t, C i t → D i t)
    (hlist : ∀ s ∈ n.spans, ∀ ids, a.list? s = some ids → ∀ i ∈ ids, ∀ t, C i t → D i t) :
    n.Unfolds a D t := by
  cases h with
  | number x => exact .number x
  | bool b => exact .bool b
  | str n => exact .str n
  | void => exact .void
  | ident n => exact .ident n
  | letIn hi => exact .letIn (hchild _ (by simp [children]) _ hi)
  | assign hi => exact .assign (hchild _ (by simp [children]) _ hi)
  | compound hi => exact .compound (hchild _ (by simp [children]) _ hi)
  | binary hl hr =>
    exact .binary (hchild _ (by simp [children]) _ hl) (hchild _ (by simp [children]) _ hr)
  | function hps hbody => exact .function hps (hchild _ (by simp [children]) _ hbody)
  | call hf hs hargs =>
    exact .call (hchild _ (by simp [children]) _ hf) hs
      (forall₂_imp_mem hargs (hlist _ (by simp [spans]) _ hs))
  | print hs hargs => exact .print hs (forall₂_imp_mem hargs (hlist _ (by simp [spans]) _ hs))
  | block hs hstmts => exact .block hs (forall₂_imp_mem hstmts (hlist _ (by simp [spans]) _ hs))
  | ifThen hc ht =>
    exact .ifThen (hchild _ (by simp [children]) _ hc) (hchild _ (by simp [children]) _ ht)
  | ifElse hc ht he =>
    exact .ifElse (hchild _ (by simp [children]) _ hc) (hchild _ (by simp [children]) _ ht)
      (hchild _ (by simp [children]) _ he)
  | retVoid => exact .retVoid
  | ret hi => exact .ret (hchild _ (by simp [children]) _ hi)

/-- In a well-formed program a node's children come before it. -/
theorem Node.Unfolds.before {a : Arena} (ha : a.WellFormed) {i : Nat} {n : Node} {t : Tree}
    (hn : a.node? i = some n) (h : n.Unfolds a a.Unfolds t) :
    n.Unfolds a (fun j u => (j : Nat) < i ∧ a.Unfolds j u) t := by
  refine h.imp (fun j hj u hu => ⟨ha.child_lt hn j hj, hu⟩) fun s hs ids hids j hj u hu => ?_
  exact ⟨ha.lt_of_mem_list hn hs hids hj, hu⟩

/-! ## Nodes with one tree -/

theorem forall₂_common {α β γ : Type} {R : α → γ → Prop} {S : β → γ → Prop} {as : List α}
    {bs : List β} {cs : List γ} (h : List.Forall₂ R as cs) (h' : List.Forall₂ S bs cs) :
    List.Forall₂ (fun a b => ∃ c, R a c ∧ S b c) as bs := by
  induction h generalizing bs with
  | nil =>
    cases h'
    exact .nil
  | cons hac _ ih =>
    cases h' with
    | cons hbc hrest => exact .cons ⟨_, hac, hbc⟩ (ih hrest)

/-- **Nodes that unfold to one tree are of one kind, and their parts unfold to the same trees.** -/
theorem Node.Unfolds.node_match {a b : Arena} {C D : ExprId → Tree → Prop} {n n' : Node} {t : Tree}
    (h : n.Unfolds a C t) (h' : n'.Unfolds b D t) :
    Node.Match Eq (fun i j => ∃ u, C i u ∧ D j u)
      (fun s s' => ∃ ids ids', a.list? s = some ids ∧ b.list? s' = some ids' ∧
        List.Forall₂ (fun i j => ∃ u, C i u ∧ D j u) ids ids')
      (fun d e => ∃ u, Node.Unfolds a C (.function d) u ∧ Node.Unfolds b D (.function e) u)
      n n' := by
  have hlists : ∀ {s s' ids ids' ts}, a.list? s = some ids → b.list? s' = some ids' →
      List.Forall₂ C ids ts → List.Forall₂ D ids' ts →
      ∃ ids ids', a.list? s = some ids ∧ b.list? s' = some ids' ∧
        List.Forall₂ (fun i j => ∃ u, C i u ∧ D j u) ids ids' :=
    fun hs hs' hts hts' => ⟨_, _, hs, hs', forall₂_common hts hts'⟩
  cases h with
  | number x => cases h'; exact .number x
  | bool x => cases h'; exact .bool x
  | str n => cases h'; exact .str rfl
  | void => cases h'; exact .void
  | ident n => cases h'; exact .ident rfl
  | letIn hi => cases h' with | letIn hi' => exact .letIn rfl ⟨_, hi, hi'⟩
  | assign hi => cases h' with | assign hi' => exact .assign rfl ⟨_, hi, hi'⟩
  | compound hi => cases h' with | compound hi' => exact .compound _ rfl ⟨_, hi, hi'⟩
  | binary hl hr => cases h' with | binary hl' hr' => exact .binary _ ⟨_, hl, hl'⟩ ⟨_, hr, hr'⟩
  | @function d ps u hps hbody =>
    have hd : Node.Unfolds a C (.function d) (.function d.name ps u) := .function hps hbody
    generalize d.name = name at hd h'
    cases h' with
    | function hps' hbody' => exact .function ⟨_, hd, .function hps' hbody'⟩
  | call hf hs hargs =>
    cases h' with
    | call hf' hs' hargs' => exact .call ⟨_, hf, hf'⟩ (hlists hs hs' hargs hargs')
  | print hs hargs => cases h' with | print hs' hargs' => exact .print (hlists hs hs' hargs hargs')
  | block hs hstmts =>
    cases h' with
    | block hs' hstmts' => exact .block (hlists hs hs' hstmts hstmts')
  | ifThen hc ht => cases h' with | ifThen hc' ht' => exact .ifThen ⟨_, hc, hc'⟩ ⟨_, ht, ht'⟩
  | ifElse hc ht he =>
    cases h' with
    | ifElse hc' ht' he' => exact .ifElse ⟨_, hc, hc'⟩ ⟨_, ht, ht'⟩ ⟨_, he, he'⟩
  | retVoid => cases h'; exact .retVoid
  | ret hi => cases h' with | ret hi' => exact .ret ⟨_, hi, hi'⟩

theorem Node.Unfolds.function_inv {a : Arena} {C : ExprId → Tree → Prop} {d : FunctionDef}
    {t : Tree} (h : Node.Unfolds a C (.function d) t) :
    ∃ ps u, a.params? d.params = some ps ∧ C d.body u ∧ t = .function d.name ps u := by
  cases h with
  | function hps hbody => exact ⟨_, _, hps, hbody, rfl⟩

/-- Literals that unfold to one tree have one name, the same parameters and bodies that do. -/
theorem Node.Unfolds.function_parts {a b : Arena} {C D : ExprId → Tree → Prop} {d e : FunctionDef}
    {t : Tree} (h : Node.Unfolds a C (.function d) t) (h' : Node.Unfolds b D (.function e) t) :
    d.name = e.name ∧ (∃ ps, a.params? d.params = some ps ∧ b.params? e.params = some ps) ∧
      ∃ u, C d.body u ∧ D e.body u := by
  obtain ⟨ps, u, hps, hbody, rfl⟩ := h.function_inv
  obtain ⟨ps', u', hps', hbody', heq⟩ := h'.function_inv
  injection heq with hname hparams hu
  subst hparams hu
  exact ⟨hname, ⟨ps, hps, hps'⟩, u, hbody, hbody'⟩

end ClosureLang
