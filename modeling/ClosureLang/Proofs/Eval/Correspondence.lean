import ClosureLang.Proofs.Eval.Steps
import ClosureLang.Proofs.Program.WellFormed
import Mathlib.Data.List.Forall2
import Mathlib.Order.Defs.PartialOrder

/-!
# Two evaluations in step

Most of what there is to say about evaluation compares two runs: the same program in two heaps,
under two tables of texts, laid out in two arenas. A `Correspondence` says what the two runs have
in common, and nothing in this file knows which comparison it is. What two frames or two
closures have to do with one another may be decided as the runs go on, when a frame is created
on both sides, so the relations are indexed by a stage `s : σ` that only moves forward.

`Related s c₁ c₂ A x y` says of two pieces of evaluation that from corresponding worlds they end
alike: both with a value, and the values in `A`, or both left in the same way, and in either case
with worlds that correspond at a later stage. That each side keeps its context is part of it.
There is one rule for each way to put pieces together (`bind`, `inFrame`, `inScope`, `settle`),
and the primitives follow from `Lawful`, which lists what a correspondence has to satisfy. The
recursions of evaluation are closed once and for all in `Eval/Lockstep`.

Every law is about one operation on a heap or one table, so establishing `Lawful` for a concrete
correspondence involves no induction and no evaluation.
-/

namespace ClosureLang

/-! ## Values that match -/

/-- Values of one sort that differ at most in the closure. -/
inductive Value.Match (C : Closure → Closure → Prop) : Value → Value → Prop
  | void : Match C .void .void
  | number (x : Float) : Match C (.number x) (.number x)
  | bool (b : Bool) : Match C (.bool b) (.bool b)
  | str (s : String) : Match C (.str s) (.str s)
  | function {c d : Closure} (h : C c d) : Match C (.function c) (.function d)

namespace Value.Match

variable {C D : Closure → Closure → Prop} {v w v' w' : Value}

theorem mono (hCD : ∀ c d, C c d → D c d) (h : Match C v w) : Match D v w := by
  cases h with
  | void => exact .void
  | number x => exact .number x
  | bool b => exact .bool b
  | str s => exact .str s
  | function h => exact .function (hCD _ _ h)

theorem refl (hC : ∀ c, C c c) (v : Value) : Match C v v := by
  cases v with
  | void => exact .void
  | number x => exact .number x
  | bool b => exact .bool b
  | str s => exact .str s
  | function c => exact .function (hC c)

theorem eq_iff : Match (fun c d => c = d) v w ↔ v = w := by
  constructor
  · intro h
    cases h with
    | function h => exact congrArg Value.function h
    | _ => rfl
  · rintro rfl
    exact .refl (fun _ => rfl) v

theorem isTruthy_eq (h : Match C v w) : v.isTruthy = w.isTruthy := by
  cases h <;> rfl

theorem display_eq (hname : ∀ c d, C c d → c.name = d.name) (h : Match C v w) :
    v.display = w.display := by
  cases h with
  | function h => simp only [display, Closure.display, hname _ _ h]
  | _ => rfl

theorem beq_eq (heq : ∀ c d c' d', C c d → C c' d' → (c == c') = (d == d')) (h : Match C v w)
    (h' : Match C v' w') : (v == v') = (w == w') := by
  cases h with
  | function h =>
    cases h' with
    | function h' => exact heq _ _ _ _ h h'
    | _ => rfl
  | _ => cases h' <;> rfl

/-- **No operator tells matching operands apart.** -/
theorem apply_eq (hname : ∀ c d, C c d → c.name = d.name)
    (heq : ∀ c d c' d', C c d → C c' d' → (c == c') = (d == d')) (op : BinaryOp)
    (h : Match C v w) (h' : Match C v' w') : op.apply v v' = op.apply w w' := by
  have hb := beq_eq heq h h'
  have hd := display_eq hname h
  have hd' := display_eq hname h'
  cases op with
  | eq => simp only [BinaryOp.apply, hb]
  | ne => simp only [BinaryOp.apply, bne, hb]
  | add => cases h <;> cases h' <;> simp_all [BinaryOp.apply, BinaryOp.mismatch, typeName]
  | _ => cases h <;> cases h' <;> rfl

end Value.Match

/-- An operator makes no function. -/
theorem BinaryOp.apply_match {op : BinaryOp} {l r v : Value} (C : Closure → Closure → Prop)
    (h : op.apply l r = .ok v) : v.Match C v := by
  unfold BinaryOp.apply at h
  split at h <;> (try split at h) <;> cases h <;> first | exact .bool _ | exact .str _ | skip
  unfold onNumbers
  split <;> first | exact .number _ | exact .bool _

/-! ## What corresponds -/

theorem rel_cases {α β : Type} {A : α → β → Prop} {x : Option α} {y : Option β}
    (h : Option.Rel A x y) :
    (x = none ∧ y = none) ∨ ∃ a b, x = some a ∧ y = some b ∧ A a b := by
  cases h with
  | none => exact Or.inl ⟨rfl, rfl⟩
  | some h => exact Or.inr ⟨_, _, rfl, rfl, h⟩

theorem rel_imp {α β : Type} {A B : α → β → Prop} {x : Option α} {y : Option β}
    (h : Option.Rel A x y) (hAB : ∀ a b, A a b → B a b) : Option.Rel B x y := by
  cases h with
  | none => exact .none
  | some h => exact .some (hAB _ _ h)

theorem forall₂_imp_mem {α β : Type} {R S : α → β → Prop} {as : List α} {bs : List β}
    (h : List.Forall₂ R as bs) (hRS : ∀ a ∈ as, ∀ b, R a b → S a b) : List.Forall₂ S as bs := by
  have hmem : List.Forall₂ (fun a b => a ∈ as ∧ R a b) as bs :=
    (List.forall₂_and_left as bs).mpr ⟨fun _ ha => ha, h⟩
  exact hmem.imp fun a b hab => hRS a hab.1 b hab.2

/-- A position of a program, from which so many levels may be descended. -/
structure Spot where
  arena : Arena
  levels : Nat
  id : ExprId

/-- Nodes of one kind whose parts match. -/
inductive Node.Match (name : Name → Name → Prop) (child : ExprId → ExprId → Prop)
    (list : Span → Span → Prop) (code : FunctionDef → FunctionDef → Prop) : Node → Node → Prop
  | number (x : Float) : Match name child list code (.number x) (.number x)
  | bool (b : Bool) : Match name child list code (.bool b) (.bool b)
  | str {m n} (h : name m n) : Match name child list code (.str m) (.str n)
  | void : Match name child list code .void .void
  | ident {m n} (h : name m n) : Match name child list code (.ident m) (.ident n)
  | letIn {m n i j} (h : name m n) (hc : child i j) :
      Match name child list code (.letIn m i) (.letIn n j)
  | assign {m n i j} (h : name m n) (hc : child i j) :
      Match name child list code (.assign m i) (.assign n j)
  | compound {m n i j} (op : BinaryOp) (h : name m n) (hc : child i j) :
      Match name child list code (.compound op m i) (.compound op n j)
  | binary {i j i' j'} (op : BinaryOp) (hl : child i j) (hr : child i' j') :
      Match name child list code (.binary op i i') (.binary op j j')
  | function {d e} (h : code d e) : Match name child list code (.function d) (.function e)
  | call {i j s t} (hc : child i j) (hl : list s t) :
      Match name child list code (.call i s) (.call j t)
  | print {s t} (hl : list s t) : Match name child list code (.print s) (.print t)
  | block {s t} (hl : list s t) : Match name child list code (.block s) (.block t)
  | ifThen {i j i' j'} (hc : child i j) (ht : child i' j') :
      Match name child list code (.ifElse i i' none) (.ifElse j j' none)
  | ifElse {i j i' j' i'' j''} (hc : child i j) (ht : child i' j') (he : child i'' j'') :
      Match name child list code (.ifElse i i' (some i'')) (.ifElse j j' (some j''))
  | retVoid : Match name child list code (.ret none) (.ret none)
  | ret {i j} (hc : child i j) : Match name child list code (.ret (some i)) (.ret (some j))

/-- A node matches itself when its parts do. -/
theorem Node.Match.of_parts {name : Name → Name → Prop} {child : ExprId → ExprId → Prop}
    {list : Span → Span → Prop} {code : FunctionDef → FunctionDef → Prop} {n : Node}
    (hname : ∀ m, name m m) (hchild : ∀ i ∈ n.children, child i i)
    (hlist : ∀ s ∈ n.spans, list s s) (hcode : ∀ d ∈ n.definitions, code d d) :
    n.Match name child list code n := by
  cases n with
  | number x => exact .number x
  | bool b => exact .bool b
  | str t => exact .str (hname t)
  | void => exact .void
  | ident m => exact .ident (hname m)
  | letIn m i => exact .letIn (hname m) (hchild i (by simp [children]))
  | assign m i => exact .assign (hname m) (hchild i (by simp [children]))
  | compound op m i => exact .compound op (hname m) (hchild i (by simp [children]))
  | binary op i j =>
    exact .binary op (hchild i (by simp [children])) (hchild j (by simp [children]))
  | function d => exact .function (hcode d (by simp [definitions]))
  | call i s => exact .call (hchild i (by simp [children])) (hlist s (by simp [spans]))
  | print s => exact .print (hlist s (by simp [spans]))
  | block s => exact .block (hlist s (by simp [spans]))
  | ifElse i j e =>
    have hi := hchild i (by simp [children])
    have hj := hchild j (by simp [children])
    cases e with
    | none => exact .ifThen hi hj
    | some e => exact .ifElse hi hj (hchild e (by simp [children]))
  | ret v =>
    cases v with
    | none => exact .retVoid
    | some i => exact .ret (hchild i (by simp [children]))

/-- Nodes match when all that the one refers to has a match for another reason. -/
theorem Node.Match.imp_of_mem {name name' : Name → Name → Prop}
    {child child' : ExprId → ExprId → Prop} {list list' : Span → Span → Prop}
    {code code' : FunctionDef → FunctionDef → Prop} {n n' : Node}
    (hname : ∀ m m', name m m' → name' m m')
    (hchild : ∀ i ∈ n.children, ∀ j, child i j → child' i j)
    (hlist : ∀ s ∈ n.spans, ∀ t, list s t → list' s t) (hcode : ∀ d e, code d e → code' d e)
    (h : n.Match name child list code n') : n.Match name' child' list' code' n' := by
  cases h with
  | number x => exact .number x
  | bool b => exact .bool b
  | str h => exact .str (hname _ _ h)
  | void => exact .void
  | ident h => exact .ident (hname _ _ h)
  | letIn h hc => exact .letIn (hname _ _ h) (hchild _ (by simp [children]) _ hc)
  | assign h hc => exact .assign (hname _ _ h) (hchild _ (by simp [children]) _ hc)
  | compound op h hc => exact .compound op (hname _ _ h) (hchild _ (by simp [children]) _ hc)
  | binary op hl hr =>
    exact .binary op (hchild _ (by simp [children]) _ hl) (hchild _ (by simp [children]) _ hr)
  | function h => exact .function (hcode _ _ h)
  | call hc hl =>
    exact .call (hchild _ (by simp [children]) _ hc) (hlist _ (by simp [spans]) _ hl)
  | print hl => exact .print (hlist _ (by simp [spans]) _ hl)
  | block hl => exact .block (hlist _ (by simp [spans]) _ hl)
  | ifThen hc ht =>
    exact .ifThen (hchild _ (by simp [children]) _ hc) (hchild _ (by simp [children]) _ ht)
  | ifElse hc ht he =>
    exact .ifElse (hchild _ (by simp [children]) _ hc) (hchild _ (by simp [children]) _ ht)
      (hchild _ (by simp [children]) _ he)
  | retVoid => exact .retVoid
  | ret hc => exact .ret (hchild _ (by simp [children]) _ hc)

/-- Parts that match for one reason match for a weaker one. -/
theorem Node.Match.imp {name name' : Name → Name → Prop} {child child' : ExprId → ExprId → Prop}
    {list list' : Span → Span → Prop} {code code' : FunctionDef → FunctionDef → Prop} {n n' : Node}
    (hname : ∀ m m', name m m' → name' m m') (hchild : ∀ i j, child i j → child' i j)
    (hlist : ∀ s t, list s t → list' s t) (hcode : ∀ d e, code d e → code' d e)
    (h : n.Match name child list code n') : n.Match name' child' list' code' n' :=
  h.imp_of_mem hname (fun i _ => hchild i) (fun s _ => hlist s) hcode

/-- What two runs have in common, at each stage `s : σ` of them. -/
structure Correspondence (σ : Type) where
  world : σ → World → World → Prop
  closure : σ → Closure → Closure → Prop
  /-- Frames inside of which new frames may be created. -/
  captured : σ → FrameId → FrameId → Prop
  /-- Frames that may be the current scope. -/
  scope : σ → FrameId → FrameId → Prop
  name : Name → Name → Prop
  code : FunctionCode → FunctionCode → Prop
  /-- Positions that may be descended to. -/
  expr : Spot → Spot → Prop
  /-- So many levels of calls are allowed while these calls are in progress. -/
  calls : CallStack → Nat → Prop
  /-- Errors that may reach a context with these calls in progress. -/
  error : CallStack → EvalError → EvalError → Prop
  fault : Fault → Fault → Prop

namespace Correspondence

variable {σ : Type} {α α' β β' : Type} {names₁ names₂ : Interner} {c₁ c₂ : Context}

/-- Values correspond when their closures do. -/
def value (K : Correspondence σ) (s : σ) : Value → Value → Prop := Value.Match (K.closure s)

/-- Two answers of tables that match, or two faults. -/
def Found (K : Correspondence σ) (f g : Fault) (A : α → β → Prop) (x : Option α) (y : Option β) :
    Prop :=
  Option.Rel A x y ∧ (x = none → K.fault f g)

/-- Code that may be called on both sides. -/
structure CodeMatch (K : Correspondence σ) (c d : FunctionCode) : Prop where
  name : c.name = d.name
  params : K.Found (.noParams c.definition.params) (.noParams d.definition.params)
    (List.Forall₂ K.name) c.params? d.params?
  body : K.expr ⟨c.arena, c.body + 1, c.body⟩ ⟨d.arena, d.body + 1, d.body⟩

/-- Nodes of two programs whose children may be descended to. -/
def NodeMatch (K : Correspondence σ) (names₁ names₂ : Interner) (a b : Arena) (l k : Nat) :
    Node → Node → Prop :=
  Node.Match K.name (fun i j => K.expr ⟨a, l, i⟩ ⟨b, k, j⟩)
    (fun s t => K.Found (.noList s) (.noList t)
      (List.Forall₂ fun i j => K.expr ⟨a, l, i⟩ ⟨b, k, j⟩) (a.list? s) (b.list? t))
    (fun d e => K.code ⟨a, d, d.name.map names₁.lookup⟩ ⟨b, e, e.name.map names₂.lookup⟩)

/-! Where the two programs are one, code and nodes match themselves. -/

theorem Found.refl {K : Correspondence σ} {f : Fault} {A : α → α → Prop} (hfault : K.fault f f)
    (x : Option α) (hA : ∀ a, A a a) : K.Found f f A x x := by
  refine ⟨?_, fun _ => hfault⟩
  cases x with
  | none => exact .none
  | some a => exact .some (hA a)

theorem codeMatch_refl {K : Correspondence σ} (hname : ∀ n, K.name n n) (hexpr : ∀ x, K.expr x x)
    (hfault : ∀ f, K.fault f f) (c : FunctionCode) : K.CodeMatch c c :=
  ⟨rfl, .refl (hfault _) c.params? fun _ => List.forall₂_same.mpr fun n _ => hname n, hexpr _⟩

theorem expr_step_refl {K : Correspondence σ} (hname : ∀ n, K.name n n) (hexpr : ∀ x, K.expr x x)
    (hcode : ∀ c, K.code c c) (hfault : ∀ f, K.fault f f) (names : Interner) (x : Spot) :
    (x.levels = 0 ∧ x.levels = 0 ∧ K.fault .tooDeep .tooDeep) ∨
    ∃ l k, x.levels = l + 1 ∧ x.levels = k + 1 ∧
      K.Found (.noNode x.id) (.noNode x.id) (K.NodeMatch names names x.arena x.arena l k)
        (x.arena.node? x.id) (x.arena.node? x.id) := by
  cases hl : x.levels with
  | zero => exact .inl ⟨rfl, rfl, hfault _⟩
  | succ l =>
    refine .inr ⟨l, l, rfl, rfl, .refl (hfault _) _ fun n => ?_⟩
    exact .of_parts hname (fun _ _ => hexpr _)
      (fun s _ => .refl (hfault _) _ fun _ => List.forall₂_same.mpr fun _ _ => hexpr _)
      fun _ _ => hcode _

/-- Calls that are allowed whatever calls are in progress. -/
theorem enter_of_forall {K : Correspondence σ} (hcalls : ∀ k q, K.calls k q)
    (hfault : ∀ f, K.fault f f) (k : CallStack) (q : Nat) (n : CallFrame) :
    (q = 0 ∧ K.fault .tooManyCalls .tooManyCalls) ∨ ∃ p, q = p + 1 ∧ K.calls (k.enter n) p := by
  cases q with
  | zero => exact .inl ⟨rfl, hfault _⟩
  | succ q => exact .inr ⟨q, rfl, hcalls _ _⟩

/-- Two ways to leave an expression without its value. -/
inductive Unwinds (K : Correspondence σ) (k : CallStack) (s : σ) : Unwind → Unwind → Prop
  | error {e e' : EvalError} (h : K.error k e e') : Unwinds K k s (.error e) (.error e')
  | ret {v v' : Value} (h : K.value s v v') : Unwinds K k s (.ret v) (.ret v')
  | fault {f f' : Fault} (h : K.fault f f') : Unwinds K k s (.fault f) (.fault f')

/-- Two outcomes that correspond, results being in `A`. -/
inductive Ends (K : Correspondence σ) (k : CallStack) (s : σ) (A : σ → α → β → Prop) :
    Except Unwind α → Except Unwind β → Prop
  | ok {a : α} {b : β} (h : A s a b) : Ends K k s A (.ok a) (.ok b)
  | left {u u' : Unwind} (h : K.Unwinds k s u u') : Ends K k s A (.error u) (.error u')

/-- **Two pieces of evaluation in step**, in the contexts `c₁` and `c₂` and from the stage `s` on.
It is required from every later stage, which is what lets a piece be put behind another one. -/
def Related [Preorder σ] (K : Correspondence σ) (s : σ) (c₁ c₂ : Context) (A : σ → α → β → Prop)
    (x : Eval α) (y : Eval β) : Prop :=
  ∀ s' w₁ w₂, s ≤ s' → K.world s' w₁ w₂ → ∃ t r₁ r₂ w₁' w₂', s' ≤ t ∧ K.world t w₁' w₂' ∧
    x (c₁.machine w₁) = (r₁, c₁.machine w₁') ∧ y (c₂.machine w₂) = (r₂, c₂.machine w₂') ∧
    K.Ends c₁.stack t A r₁ r₂

/-! ## Putting pieces together -/

variable [Preorder σ] {K : Correspondence σ} {s t : σ} {A : σ → α → β → Prop}
  {B : σ → α' → β' → Prop} {x : Eval α} {y : Eval β}

theorem Related.later (h : K.Related s c₁ c₂ A x y) (hst : s ≤ t) : K.Related t c₁ c₂ A x y :=
  fun s' w₁ w₂ hs' hw => h s' w₁ w₂ (le_trans hst hs') hw

theorem Related.pure {a : α} {b : β} (h : ∀ t, s ≤ t → A t a b) :
    K.Related s c₁ c₂ A (pure a) (pure b) :=
  fun s' w₁ w₂ hs' hw => ⟨s', _, _, w₁, w₂, le_refl s', hw, rfl, rfl, .ok (h s' hs')⟩

theorem Related.fail {u u' : Unwind} (h : ∀ t, s ≤ t → K.Unwinds c₁.stack t u u') :
    K.Related s c₁ c₂ A (.fail u) (.fail u') :=
  fun s' w₁ w₂ hs' hw => ⟨s', _, _, w₁, w₂, le_refl s', hw, rfl, rfl, .left (h s' hs')⟩

theorem Related.bind {g : α → Eval α'} {g' : β → Eval β'} (h : K.Related s c₁ c₂ A x y)
    (hg : ∀ t a b, s ≤ t → A t a b → K.Related t c₁ c₂ B (g a) (g' b)) :
    K.Related s c₁ c₂ B (x >>= g) (y >>= g') := by
  intro s' w₁ w₂ hs' hw
  obtain ⟨t, r₁, r₂, w₁', w₂', ht, hw', hx, hy, hr⟩ := h s' w₁ w₂ hs' hw
  cases hr with
  | ok hab =>
    rw [Eval.bind_ok hx, Eval.bind_ok hy]
    obtain ⟨t', r₁, r₂, w₁'', w₂'', ht', hrest⟩ :=
      hg t _ _ (le_trans hs' ht) hab t w₁' w₂' (le_refl t) hw'
    exact ⟨t', r₁, r₂, w₁'', w₂'', le_trans ht ht', hrest⟩
  | left hu => exact ⟨t, _, _, w₁', w₂', ht, hw', Eval.bind_error hx, Eval.bind_error hy, .left hu⟩

theorem Related.inFrame {f g : FrameId} (h : K.Related s (c₁.inFrame f) (c₂.inFrame g) A x y) :
    K.Related s c₁ c₂ A (Eval.inFrame f x) (Eval.inFrame g y) := by
  intro s' w₁ w₂ hs' hw
  obtain ⟨t, r₁, r₂, w₁', w₂', ht, hw', hx, hy, hr⟩ := h s' w₁ w₂ hs' hw
  exact ⟨t, r₁, r₂, w₁', w₂', ht, hw', Eval.inFrame_machine hx, Eval.inFrame_machine hy, hr⟩

theorem Related.inScope {f g : FrameId} {a b : Arena}
    (h : K.Related s ⟨a, f, c₁.stack⟩ ⟨b, g, c₂.stack⟩ A x y) :
    K.Related s c₁ c₂ A (Eval.inScope f a x) (Eval.inScope g b y) := by
  intro s' w₁ w₂ hs' hw
  obtain ⟨t, r₁, r₂, w₁', w₂', ht, hw', hx, hy, hr⟩ := h s' w₁ w₂ hs' hw
  exact ⟨t, r₁, r₂, w₁', w₂', ht, hw', Eval.inScope_machine hx, Eval.inScope_machine hy, hr⟩

theorem Related.settle {x y : Eval Value} (h : K.Related s c₁ c₂ K.value x y) :
    K.Related s c₁ c₂ K.value (Eval.settle x) (Eval.settle y) := by
  intro s' w₁ w₂ hs' hw
  obtain ⟨t, r₁, r₂, w₁', w₂', ht, hw', hx, hy, hr⟩ := h s' w₁ w₂ hs' hw
  refine ⟨t, _, _, w₁', w₂', ht, hw', Eval.settle_machine hx, Eval.settle_machine hy, ?_⟩
  cases hr with
  | ok hv => exact .ok hv
  | left hu =>
    cases hu with
    | error he => exact .left (.error he)
    | ret hv => exact .ok hv
    | fault hf => exact .left (.fault hf)

/-! ## Laws -/

/-- **What a correspondence has to satisfy**, one law for each thing that evaluation does to a
world or asks of a program. An alternative with a fault in it is how a correspondence answers
for programs whose tables are not as a builder makes them. -/
structure Lawful (K : Correspondence σ) (names₁ names₂ : Interner) : Prop where
  closure_mono : ∀ {s t c d}, s ≤ t → K.closure s c d → K.closure t c d
  scope_mono : ∀ {s t f g}, s ≤ t → K.scope s f g → K.scope t f g
  closure_beq : ∀ {s c d c' d'}, K.closure s c d → K.closure s c' d' → (c == c') = (d == d')
  closure_code : ∀ {s c d}, K.closure s c d → K.code c.code d.code
  code_match : ∀ {c d}, K.code c d → K.CodeMatch c d
  closure_captured : ∀ {s c d}, K.closure s c d → K.captured s c.frame d.frame
  scope_captured : ∀ {s f g}, K.scope s f g → K.captured s f g
  /-- Corresponding names stand for one text. -/
  name_text : ∀ {m n}, K.name m n → names₁.lookup m = names₂.lookup n
  /-- Where no level is left there is none on either side; else there are matching nodes. -/
  expr_step : ∀ {x y}, K.expr x y →
    (x.levels = 0 ∧ y.levels = 0 ∧ K.fault .tooDeep .tooDeep) ∨
    ∃ l k, x.levels = l + 1 ∧ y.levels = k + 1 ∧
      K.Found (.noNode x.id) (.noNode y.id) (K.NodeMatch names₁ names₂ x.arena y.arena l k)
        (x.arena.node? x.id) (y.arena.node? y.id)
  /-- A name resolves on both sides or on neither; what its owners hold may be read and
  overwritten. -/
  resolve : ∀ {s w w' f g m n}, K.world s w w' → K.scope s f g → K.name m n →
    Option.Rel (fun o p => K.value s (w.heap.valueAt o m) (w'.heap.valueAt p n) ∧
      ∀ u v, K.value s u v → K.world s { w with heap := w.heap.overwrite o m u }
        { w' with heap := w'.heap.overwrite p n v })
      (w.heap.owner? f m) (w'.heap.owner? g n)
  define : ∀ {s w w' f g m n}, K.world s w w' → K.scope s f g → K.name m n →
    w.heap.binds f m = w'.heap.binds g n ∧ (w.heap.binds f m = false → ∀ u v, K.value s u v →
      K.world s { w with heap := w.heap.bind f m u } { w' with heap := w'.heap.bind g n v })
  child : ∀ {s w w' f g}, K.world s w w' → K.captured s f g → ∃ t, s ≤ t ∧
    K.world t { w with heap := (w.heap.child f).2 } { w' with heap := (w'.heap.child g).2 } ∧
    K.scope t w.heap.size w'.heap.size
  makeClosure : ∀ {s w w' f g c d}, K.world s w w' → K.scope s f g → K.code c d → ∃ t, s ≤ t ∧
    K.world t { w with heap := (w.heap.makeClosure c f).2 }
      { w' with heap := (w'.heap.makeClosure d g).2 } ∧
    K.closure t (w.heap.makeClosure c f).1 (w'.heap.makeClosure d g).1
  println : ∀ {s w w'} (line : String), K.world s w w' →
    K.world s { w with sink := w.sink.println line } { w' with sink := w'.sink.println line }
  /-- Any error may be raised anywhere. -/
  raise : ∀ (k : CallStack) (e : ErrorKind), K.error k (.ofKind e) (.ofKind e)
  /-- A call that the limit refuses. -/
  full : ∀ {k : CallStack}, k.maxDepth ≤ k.depth →
    K.error k (k.attachBacktrace (.ofKind (.stackOverflow k.maxDepth)))
      (k.attachBacktrace (.ofKind (.stackOverflow k.maxDepth)))
  /-- An error on its way out of a call. -/
  leave : ∀ {k : CallStack} {n e e'}, K.error (k.enter n) e e' →
    K.error k ((k.enter n).attachBacktrace e) ((k.enter n).attachBacktrace e')
  enter : ∀ {k : CallStack} {q} (n : CallFrame), K.calls k q → k.depth < k.maxDepth →
    (q = 0 ∧ K.fault .tooManyCalls .tooManyCalls) ∨ ∃ p, q = p + 1 ∧ K.calls (k.enter n) p

/-! ## Scopes to work in

Reading, overwriting, capturing and nesting ask less of two scopes than declaring does: there may
be names that the one scope would refuse and the other would not. The two demands are told apart,
and scopes that correspond meet both. -/

/-- From the stage `s` on, all may be done in the two scopes but declaring names. -/
structure Works (K : Correspondence σ) (s : σ) (f g : FrameId) : Prop where
  captured : ∀ {t}, s ≤ t → K.captured t f g
  resolve : ∀ {t w w' m n}, s ≤ t → K.world t w w' → K.name m n →
    Option.Rel (fun o p => K.value t (w.heap.valueAt o m) (w'.heap.valueAt p n) ∧
      ∀ u v, K.value t u v → K.world t { w with heap := w.heap.overwrite o m u }
        { w' with heap := w'.heap.overwrite p n v })
      (w.heap.owner? f m) (w'.heap.owner? g n)
  makeClosure : ∀ {t w w' c d}, s ≤ t → K.world t w w' → K.code c d → ∃ u, t ≤ u ∧
    K.world u { w with heap := (w.heap.makeClosure c f).2 }
      { w' with heap := (w'.heap.makeClosure d g).2 } ∧
    K.closure u (w.heap.makeClosure c f).1 (w'.heap.makeClosure d g).1

/-- From the stage `s` on, the two scopes both refuse to declare these names or neither does. -/
def Declares (K : Correspondence σ) (s : σ) (f g : FrameId) (m n : Name) : Prop :=
  ∀ t w w', s ≤ t → K.world t w w' →
    w.heap.binds f m = w'.heap.binds g n ∧ (w.heap.binds f m = false → ∀ u v, K.value t u v →
      K.world t { w with heap := w.heap.bind f m u } { w' with heap := w'.heap.bind g n v })

theorem Works.later {f g : FrameId} (h : K.Works s f g) (hst : s ≤ t) : K.Works t f g where
  captured ht := h.captured (le_trans hst ht)
  resolve ht := h.resolve (le_trans hst ht)
  makeClosure ht := h.makeClosure (le_trans hst ht)

theorem Declares.later {f g : FrameId} {m n : Name} (h : K.Declares s f g m n) (hst : s ≤ t) :
    K.Declares t f g m n :=
  fun u w w' ht => h u w w' (le_trans hst ht)

namespace Lawful

variable (L : K.Lawful names₁ names₂)
include L

theorem works {f g : FrameId} (hf : K.scope s f g) : K.Works s f g where
  captured ht := L.scope_captured (L.scope_mono ht hf)
  resolve ht hw := L.resolve hw (L.scope_mono ht hf)
  makeClosure ht hw := L.makeClosure hw (L.scope_mono ht hf)

theorem declares {f g : FrameId} {m n : Name} (hf : K.scope s f g) (hn : K.name m n) :
    K.Declares s f g m n :=
  fun _ _ _ ht hw => L.define hw (L.scope_mono ht hf) hn

theorem value_mono {s t : σ} {v w : Value} (hst : s ≤ t) (h : K.value s v w) : K.value t v w :=
  Value.Match.mono (fun _ _ hc => L.closure_mono hst hc) h

theorem values_mono {s t : σ} {vs ws : List Value} (hst : s ≤ t)
    (h : List.Forall₂ (K.value s) vs ws) : List.Forall₂ (K.value t) vs ws :=
  h.imp fun _ _ hv => L.value_mono hst hv

/-- Operators give corresponding operands one and the same result. -/
theorem apply_eq {s : σ} {v w v' w' : Value} (op : BinaryOp) (h : K.value s v w)
    (h' : K.value s v' w') : op.apply v v' = op.apply w w' :=
  Value.Match.apply_eq (fun _ _ hc => (L.code_match (L.closure_code hc)).name)
    (fun _ _ _ _ hc hd => L.closure_beq hc hd) op h h'

theorem raise_kind {k₁ k₂ : ErrorKind} (h : k₁ = k₂) :
    K.Related s c₁ c₂ A (Eval.raise (.ofKind k₁)) (Eval.raise (.ofKind k₂)) := by
  subst h
  exact Related.fail fun _ _ => .error (L.raise _ _)

/-! ### Primitives -/

theorem getVar {m n : Name} (hf : K.Works s c₁.frame c₂.frame) (hn : K.name m n) :
    K.Related s c₁ c₂ K.value (Eval.getVar names₁ m) (Eval.getVar names₂ n) := by
  intro s' w₁ w₂ hs hw
  rw [Eval.getVar_machine, Eval.getVar_machine]
  rcases rel_cases (hf.resolve hs hw hn) with ⟨h₁, h₂⟩ | ⟨o, p, h₁, h₂, hval, -⟩
  · rw [h₁, h₂, L.name_text hn]
    exact ⟨s', _, _, w₁, w₂, le_refl s', hw, rfl, rfl, .left (.error (L.raise _ _))⟩
  · rw [h₁, h₂]
    exact ⟨s', _, _, w₁, w₂, le_refl s', hw, rfl, rfl, .ok hval⟩

theorem defineVar {m n : Name} {v w : Value} (hd : K.Declares s c₁.frame c₂.frame m n)
    (hn : K.name m n) (hv : K.value s v w) :
    K.Related s c₁ c₂ (fun _ _ _ => True) (Eval.defineVar names₁ m v)
      (Eval.defineVar names₂ n w) := by
  intro s' w₁ w₂ hs hw
  obtain ⟨hb, hbind⟩ := hd s' w₁ w₂ hs hw
  rw [Eval.defineVar_machine, Eval.defineVar_machine, ← hb, L.name_text hn]
  cases h : w₁.heap.binds c₁.frame m with
  | true => exact ⟨s', _, _, w₁, w₂, le_refl s', hw, rfl, rfl, .left (.error (L.raise _ _))⟩
  | false =>
    exact ⟨s', _, _, _, _, le_refl s', hbind h v w (L.value_mono hs hv), rfl, rfl, .ok trivial⟩

theorem setVar {m n : Name} {v w : Value} (hf : K.Works s c₁.frame c₂.frame) (hn : K.name m n)
    (hv : K.value s v w) :
    K.Related s c₁ c₂ (fun _ _ _ => True) (Eval.setVar names₁ m v) (Eval.setVar names₂ n w) := by
  intro s' w₁ w₂ hs hw
  rw [Eval.setVar_machine, Eval.setVar_machine]
  rcases rel_cases (hf.resolve hs hw hn) with ⟨h₁, h₂⟩ | ⟨o, p, h₁, h₂, -, hset⟩
  · rw [h₁, h₂, L.name_text hn]
    exact ⟨s', _, _, w₁, w₂, le_refl s', hw, rfl, rfl, .left (.error (L.raise _ _))⟩
  · rw [h₁, h₂]
    exact ⟨s', _, _, _, _, le_refl s', hset v w (L.value_mono hs hv), rfl, rfl, .ok trivial⟩

theorem updateVar {m n : Name} {v w : Value} (op : BinaryOp) (hf : K.Works s c₁.frame c₂.frame)
    (hn : K.name m n) (hv : K.value s v w) :
    K.Related s c₁ c₂ (fun _ _ _ => True) (Eval.updateVar names₁ op m v)
      (Eval.updateVar names₂ op n w) := by
  intro s' w₁ w₂ hs hw
  rw [Eval.updateVar_machine, Eval.updateVar_machine]
  rcases rel_cases (hf.resolve hs hw hn) with ⟨h₁, h₂⟩ | ⟨o, p, h₁, h₂, hval, hset⟩
  · rw [h₁, h₂, L.name_text hn]
    exact ⟨s', _, _, w₁, w₂, le_refl s', hw, rfl, rfl, .left (.error (L.raise _ _))⟩
  · rw [h₁, h₂]
    dsimp only
    rw [← L.apply_eq op hval (L.value_mono hs hv)]
    cases ha : op.apply (w₁.heap.valueAt o m) v with
    | ok u =>
      exact ⟨s', _, _, _, _, le_refl s', hset u u (BinaryOp.apply_match _ ha), rfl, rfl, .ok trivial⟩
    | error e =>
      obtain rfl := BinaryOp.apply_error ha
      exact ⟨s', _, _, w₁, w₂, le_refl s', hw, rfl, rfl, .left (.error (L.raise _ _))⟩

theorem applyOp {l r l' r' : Value} (op : BinaryOp) (hl : K.value s l l') (hr : K.value s r r') :
    K.Related s c₁ c₂ K.value
      (match op.apply l r with | .ok v => pure v | .error e => Eval.raise e)
      (match op.apply l' r' with | .ok v => pure v | .error e => Eval.raise e) := by
  rw [← L.apply_eq op hl hr]
  cases ha : op.apply l r with
  | ok v => exact Related.pure fun t _ => BinaryOp.apply_match _ ha
  | error e =>
    obtain rfl := BinaryOp.apply_error ha
    exact L.raise_kind rfl

omit L in
theorem current : K.Related s c₁ c₂ (fun _ f g => f = c₁.frame ∧ g = c₂.frame) Eval.current
    Eval.current :=
  fun s' w₁ w₂ _ hw => ⟨s', _, _, w₁, w₂, le_refl s', hw, rfl, rfl, .ok ⟨rfl, rfl⟩⟩

theorem newChild {f g : FrameId} (h : ∀ t, s ≤ t → K.captured t f g) :
    K.Related s c₁ c₂ K.scope (Eval.newChild f) (Eval.newChild g) := by
  intro s' w₁ w₂ hs hw
  obtain ⟨t, ht, hw', hf⟩ := L.child hw (h s' hs)
  exact ⟨t, _, _, _, _, ht, hw', rfl, rfl, .ok hf⟩

omit L in
theorem makeFunction {d e : FunctionDef} (hf : K.Works s c₁.frame c₂.frame)
    (hc : K.code ⟨c₁.arena, d, d.name.map names₁.lookup⟩
      ⟨c₂.arena, e, e.name.map names₂.lookup⟩) :
    K.Related s c₁ c₂ K.value (Eval.makeFunction names₁ d) (Eval.makeFunction names₂ e) := by
  intro s' w₁ w₂ hs hw
  obtain ⟨t, ht, hw', hcl⟩ := hf.makeClosure hs hw hc
  rw [Eval.makeFunction_machine, Eval.makeFunction_machine]
  exact ⟨t, _, _, _, _, ht, hw', rfl, rfl, .ok (.function hcl)⟩

theorem printLine {vs ws : List Value} (h : List.Forall₂ (K.value s) vs ws) :
    K.Related s c₁ c₂ (fun _ _ _ => True) (Eval.printLine vs) (Eval.printLine ws) := by
  intro s' w₁ w₂ hs hw
  have hd : vs.map Value.display = ws.map Value.display := by
    induction h with
    | nil => rfl
    | cons hv _ ih =>
      rw [List.map_cons, List.map_cons, ih,
        Value.Match.display_eq (fun _ _ hc => (L.code_match (L.closure_code hc)).name) hv]
  rw [Eval.printLine_machine, Eval.printLine_machine, ← hd]
  exact ⟨s', _, _, _, _, le_refl s', L.println _ hw, rfl, rfl, .ok trivial⟩

omit L in
theorem list {u v : Span} {E : ExprId → ExprId → Prop}
    (h : K.Found (.noList u) (.noList v) (List.Forall₂ E) (c₁.arena.list? u) (c₂.arena.list? v)) :
    K.Related s c₁ c₂ (fun _ => List.Forall₂ E) (Eval.list u) (Eval.list v) := by
  intro s' w₁ w₂ hs hw
  obtain ⟨hr, hfault⟩ := h
  rw [Eval.list_machine, Eval.list_machine]
  rcases rel_cases hr with ⟨h₁, h₂⟩ | ⟨ids, ids', h₁, h₂, hids⟩
  · rw [h₁, h₂]
    exact ⟨s', _, _, w₁, w₂, le_refl s', hw, rfl, rfl, .left (.fault (hfault h₁))⟩
  · rw [h₁, h₂]
    exact ⟨s', _, _, w₁, w₂, le_refl s', hw, rfl, rfl, .ok hids⟩

omit L in
theorem node {i j : ExprId} {N : Node → Node → Prop}
    (h : K.Found (.noNode i) (.noNode j) N (c₁.arena.node? i) (c₂.arena.node? j)) :
    K.Related s c₁ c₂ (fun _ => N) (Eval.node i) (Eval.node j) := by
  intro s' w₁ w₂ hs hw
  obtain ⟨hr, hfault⟩ := h
  rw [Eval.node_machine, Eval.node_machine]
  rcases rel_cases hr with ⟨h₁, h₂⟩ | ⟨n, n', h₁, h₂, hn⟩
  · rw [h₁, h₂]
    exact ⟨s', _, _, w₁, w₂, le_refl s', hw, rfl, rfl, .left (.fault (hfault h₁))⟩
  · rw [h₁, h₂]
    exact ⟨s', _, _, w₁, w₂, le_refl s', hw, rfl, rfl, .ok hn⟩

/-! ### Lists of expressions -/

theorem runStmts {ev ev' : ExprId → Eval Value} {E : ExprId → ExprId → Prop}
    (hev : ∀ i j, E i j → K.Related s c₁ c₂ K.value (ev i) (ev' j)) {ids ids' : List ExprId}
    (h : List.Forall₂ E ids ids') : ∀ {t : σ} {last last' : Value}, s ≤ t →
      K.value t last last' →
      K.Related t c₁ c₂ K.value (Eval.runStmts ev last ids) (Eval.runStmts ev' last' ids') := by
  induction h with
  | nil => exact fun _ hl => Related.pure fun u hu => L.value_mono hu hl
  | cons hi _ ih =>
    intro t last last' hst _
    exact ((hev _ _ hi).later hst).bind fun u v v' hu hv => ih (le_trans hst hu) hv

theorem evalArgs {ev ev' : ExprId → Eval Value} {E : ExprId → ExprId → Prop}
    (hev : ∀ i j, E i j → K.Related s c₁ c₂ K.value (ev i) (ev' j)) {ids ids' : List ExprId}
    (h : List.Forall₂ E ids ids') : ∀ {t : σ}, s ≤ t →
      K.Related t c₁ c₂ (fun u => List.Forall₂ (K.value u)) (Eval.evalArgs ev ids)
        (Eval.evalArgs ev' ids') := by
  induction h with
  | nil => exact fun _ => Related.pure fun _ _ => .nil
  | cons hi _ ih =>
    intro t hst
    exact ((hev _ _ hi).later hst).bind fun u v v' hu hv =>
      (ih (le_trans hst hu)).bind fun u' vs vs' hu' hvs =>
        Related.pure fun t' ht' =>
          .cons (L.value_mono (le_trans hu' ht') hv) (L.values_mono ht' hvs)

end Lawful
end Correspondence
end ClosureLang
