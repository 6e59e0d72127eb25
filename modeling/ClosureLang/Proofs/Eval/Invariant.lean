import ClosureLang.Proofs.Eval.Lockstep

/-!
# What every evaluation preserves

A property of one run is a comparison of a run with itself. An `Invariant` lists predicates where
a `Correspondence` lists relations, and `diagonal` turns the one into the other: both sides are
equal, and the predicate holds of them. So the inductions of `Eval/Lockstep` serve here as well,
and what is left to show of a concrete invariant is `Invariant.Lawful`: that each operation on a
heap preserves it.

As there, predicates are indexed by a stage that only moves forward. The result to use is
`Lawful.eval` and `Lawful.invoke`: an evaluation and a call give the interpreter back as it was,
with an outcome and a world that satisfy the invariant.
-/

namespace ClosureLang

/-- The stage of an invariant that is the same throughout. -/
inductive Throughout where
  | stage

instance : Preorder Throughout where
  le _ _ := True
  le_refl _ := trivial
  le_trans _ _ _ _ _ := trivial

structure Invariant (σ : Type) where
  world : σ → World → Prop
  closure : σ → Closure → Prop
  captured : σ → FrameId → Prop
  scope : σ → FrameId → Prop
  code : FunctionCode → Prop
  expr : Spot → Prop
  calls : CallStack → Nat → Prop
  error : CallStack → EvalError → Prop
  fault : Fault → Prop

namespace Invariant

variable {σ : Type}

/-- Values satisfy an invariant when their closures do. -/
def value (I : Invariant σ) (s : σ) : Value → Prop
  | .function c => I.closure s c
  | _ => True

/-- A node of program `a` from which `l` levels may be descended. -/
structure NodeOk (I : Invariant σ) (names : Interner) (a : Arena) (l : Nat) (n : Node) : Prop where
  child : ∀ i ∈ n.children, I.expr ⟨a, l, i⟩
  noList : ∀ s ∈ n.spans, a.list? s = none → I.fault (.noList s)
  list : ∀ s ∈ n.spans, ∀ ids, a.list? s = some ids → ∀ i ∈ ids, I.expr ⟨a, l, i⟩
  code : ∀ d ∈ n.definitions, I.code ⟨a, d, d.name.map names.lookup⟩

/-- The comparison of a run with itself. -/
def diagonal (I : Invariant σ) : Correspondence σ where
  world s w w' := w = w' ∧ I.world s w
  closure s c d := c = d ∧ I.closure s c
  captured s f g := f = g ∧ I.captured s f
  scope s f g := f = g ∧ I.scope s f
  name m n := m = n
  code c d := c = d ∧ I.code c
  expr x y := x = y ∧ I.expr x
  calls := I.calls
  error k e e' := e = e' ∧ I.error k e
  fault f f' := f = f' ∧ I.fault f

theorem diagonal_value_iff {I : Invariant σ} {s : σ} {v w : Value} :
    I.diagonal.value s v w ↔ v = w ∧ I.value s v := by
  constructor
  · intro h
    cases h with
    | function h => exact ⟨congrArg Value.function h.1, h.2⟩
    | _ => exact ⟨rfl, trivial⟩
  · rintro ⟨rfl, h⟩
    cases v with
    | function c => exact .function ⟨rfl, h⟩
    | void => exact .void
    | number x => exact .number x
    | bool b => exact .bool b
    | str t => exact .str t

theorem diagonal_values {I : Invariant σ} {s : σ} :
    ∀ {vs : List Value}, (∀ v ∈ vs, I.value s v) → List.Forall₂ (I.diagonal.value s) vs vs
  | [], _ => .nil
  | v :: _, h =>
    .cons (diagonal_value_iff.mpr ⟨rfl, h v (by simp)⟩)
      (diagonal_values fun u hu => h u (by simp [hu]))

theorem NodeOk.diagonal {I : Invariant σ} {names : Interner} {a : Arena} {l : Nat} {n : Node}
    (h : I.NodeOk names a l n) : I.diagonal.NodeMatch names names a a l l n n := by
  refine .of_parts (fun _ => rfl) (fun i hi => ⟨rfl, h.child i hi⟩) (fun s hs => ?_)
    (fun d hd => ⟨rfl, h.code d hd⟩)
  refine ⟨?_, fun hn => ⟨rfl, h.noList s hs hn⟩⟩
  cases hids : a.list? s with
  | none => exact .none
  | some ids =>
    exact .some (List.forall₂_same.mpr fun i hi => ⟨rfl, h.list s hs ids hids i hi⟩)

/-! Where an invariant asks nothing of programs and calls, evaluation descends at will. -/

theorem descend_of_forall {I : Invariant σ} (hexpr : ∀ x, I.expr x) (hcode : ∀ c, I.code c)
    (hfault : ∀ f, I.fault f) (names : Interner) (x : Spot) :
    (x.levels = 0 ∧ I.fault .tooDeep) ∨
      ∃ l, x.levels = l + 1 ∧ (x.arena.node? x.id = none → I.fault (.noNode x.id)) ∧
        ∀ n, x.arena.node? x.id = some n → I.NodeOk names x.arena l n := by
  cases hl : x.levels with
  | zero => exact Or.inl ⟨rfl, hfault _⟩
  | succ l =>
    exact Or.inr ⟨l, rfl, fun _ => hfault _, fun n _ => ⟨fun _ _ => hexpr _,
      fun _ _ _ => hfault _, fun _ _ _ _ _ _ => hexpr _, fun _ _ => hcode _⟩⟩

theorem enter_of_forall {I : Invariant σ} (hcalls : ∀ k q, I.calls k q) (hfault : ∀ f, I.fault f)
    (k : CallStack) (q : Nat) (n : CallFrame) :
    (q = 0 ∧ I.fault .tooManyCalls) ∨ ∃ p, q = p + 1 ∧ I.calls (k.enter n) p := by
  cases q with
  | zero => exact Or.inl ⟨rfl, hfault _⟩
  | succ q => exact Or.inr ⟨q, rfl, hcalls _ _⟩

/-- **What an invariant has to satisfy.** -/
structure Lawful [Preorder σ] (I : Invariant σ) (names : Interner) : Prop where
  closure_mono : ∀ {s t c}, s ≤ t → I.closure s c → I.closure t c
  scope_mono : ∀ {s t f}, s ≤ t → I.scope s f → I.scope t f
  closure_code : ∀ {s c}, I.closure s c → I.code c.code
  noParams : ∀ {c}, I.code c → c.params? = none → I.fault (.noParams c.definition.params)
  body : ∀ {c}, I.code c → I.expr ⟨c.arena, c.body + 1, c.body⟩
  closure_captured : ∀ {s c}, I.closure s c → I.captured s c.frame
  scope_captured : ∀ {s f}, I.scope s f → I.captured s f
  expr_step : ∀ {x}, I.expr x → (x.levels = 0 ∧ I.fault .tooDeep) ∨
    ∃ l, x.levels = l + 1 ∧ (x.arena.node? x.id = none → I.fault (.noNode x.id)) ∧
      ∀ n, x.arena.node? x.id = some n → I.NodeOk names x.arena l n
  resolve : ∀ {s w f n o}, I.world s w → I.scope s f → w.heap.owner? f n = some o →
    I.value s (w.heap.valueAt o n) ∧
      ∀ v, I.value s v → I.world s { w with heap := w.heap.overwrite o n v }
  define : ∀ {s w f n}, I.world s w → I.scope s f → w.heap.binds f n = false →
    ∀ v, I.value s v → I.world s { w with heap := w.heap.bind f n v }
  child : ∀ {s w f}, I.world s w → I.captured s f → ∃ t, s ≤ t ∧
    I.world t { w with heap := (w.heap.child f).2 } ∧ I.scope t w.heap.size
  makeClosure : ∀ {s w f c}, I.world s w → I.scope s f → I.code c → ∃ t, s ≤ t ∧
    I.world t { w with heap := (w.heap.makeClosure c f).2 } ∧
    I.closure t (w.heap.makeClosure c f).1
  println : ∀ {s w} (line : String), I.world s w →
    I.world s { w with sink := w.sink.println line }
  raise : ∀ (k : CallStack) (e : ErrorKind), I.error k (.ofKind e)
  full : ∀ {k : CallStack}, k.maxDepth ≤ k.depth →
    I.error k (k.attachBacktrace (.ofKind (.stackOverflow k.maxDepth)))
  leave : ∀ {k : CallStack} {n e}, I.error (k.enter n) e →
    I.error k ((k.enter n).attachBacktrace e)
  enter : ∀ {k : CallStack} {q} (n : CallFrame), I.calls k q → k.depth < k.maxDepth →
    (q = 0 ∧ I.fault .tooManyCalls) ∨ ∃ p, q = p + 1 ∧ I.calls (k.enter n) p

variable [Preorder σ] {I : Invariant σ} {names : Interner}

theorem Lawful.diagonal (L : I.Lawful names) : I.diagonal.Lawful names names where
  closure_mono hst h := ⟨h.1, L.closure_mono hst h.2⟩
  scope_mono hst h := ⟨h.1, L.scope_mono hst h.2⟩
  closure_beq h h' := by rw [h.1, h'.1]
  closure_code h := ⟨congrArg Closure.code h.1, L.closure_code h.2⟩
  code_match := by
    rintro c _ ⟨rfl, h⟩
    refine ⟨rfl, ⟨?_, fun hp => ⟨rfl, L.noParams h hp⟩⟩, rfl, L.body h⟩
    cases c.params? with
    | none => exact .none
    | some ps => exact .some (List.forall₂_same.mpr fun _ _ => rfl)
  closure_captured h := ⟨congrArg Closure.frame h.1, L.closure_captured h.2⟩
  scope_captured h := ⟨h.1, L.scope_captured h.2⟩
  name_text h := by rw [show _ = _ from h]
  expr_step := by
    rintro x _ ⟨rfl, h⟩
    rcases L.expr_step h with ⟨hl, hf⟩ | ⟨l, hl, hnone, hsome⟩
    · exact Or.inl ⟨hl, hl, rfl, hf⟩
    · refine Or.inr ⟨l, l, hl, hl, ?_, fun hn => ⟨rfl, hnone hn⟩⟩
      cases hn : x.arena.node? x.id with
      | none => exact .none
      | some n => exact .some (hsome n hn).diagonal
  resolve := by
    rintro s w _ f _ m _ ⟨rfl, hw⟩ ⟨rfl, hf⟩ rfl
    cases ho : w.heap.owner? f m with
    | none => exact .none
    | some o =>
      obtain ⟨hv, hset⟩ := L.resolve hw hf ho
      refine .some ⟨diagonal_value_iff.mpr ⟨rfl, hv⟩, fun u v huv => ?_⟩
      obtain ⟨rfl, hu⟩ := diagonal_value_iff.mp huv
      exact ⟨rfl, hset u hu⟩
  define := by
    rintro s w _ f _ m _ ⟨rfl, hw⟩ ⟨rfl, hf⟩ rfl
    refine ⟨rfl, fun hb u v huv => ?_⟩
    obtain ⟨rfl, hu⟩ := diagonal_value_iff.mp huv
    exact ⟨rfl, L.define hw hf hb u hu⟩
  child := by
    rintro s w _ f _ ⟨rfl, hw⟩ ⟨rfl, hf⟩
    obtain ⟨t, ht, hw', hf'⟩ := L.child hw hf
    exact ⟨t, ht, ⟨rfl, hw'⟩, rfl, hf'⟩
  makeClosure := by
    rintro s w _ f _ c _ ⟨rfl, hw⟩ ⟨rfl, hf⟩ ⟨rfl, hc⟩
    obtain ⟨t, ht, hw', hcl⟩ := L.makeClosure hw hf hc
    exact ⟨t, ht, ⟨rfl, hw'⟩, rfl, hcl⟩
  println line h := ⟨by rw [h.1], L.println line h.2⟩
  raise k e := ⟨rfl, L.raise k e⟩
  full h := ⟨rfl, L.full h⟩
  leave h := ⟨by rw [h.1], L.leave h.2⟩
  enter n h hk := by
    rcases L.enter n h hk with ⟨hq, hf⟩ | h'
    · exact Or.inl ⟨hq, rfl, hf⟩
    · exact Or.inr h'

/-! ## What a host sees -/

def Outcome (I : Invariant σ) (k : CallStack) (s : σ) : ClosureLang.Outcome → Prop
  | .value v => I.value s v
  | .error e => I.error k e
  | .fault f => I.fault f

/-- The interpreter is as before, and outcome and world satisfy the invariant. -/
def Concluded (I : Invariant σ) (s : σ) (i : Interpreter)
    (out : ClosureLang.Outcome × Interpreter × World) : Prop :=
  ∃ t, s ≤ t ∧ out.2.1 = i ∧ I.Outcome i.stack t out.1 ∧ I.world t out.2.2

theorem Concluded.of_diagonal {s : σ} {i : Interpreter}
    {out : ClosureLang.Outcome × Interpreter × World} (h : I.diagonal.Concluded s i i out out) :
    I.Concluded s i out := by
  obtain ⟨t, ht, hi, -, hout, -, hw⟩ := h
  refine ⟨t, ht, hi, ?_, hw⟩
  revert hout
  generalize out.1 = o
  intro hout
  cases hout with
  | value hv => exact (diagonal_value_iff.mp hv).2
  | error he => exact he.2
  | fault hf => exact hf.2

variable (L : I.Lawful names) {s : σ} {i : Interpreter} {w : World}
include L

theorem Lawful.eval (hw : I.world s w) (hcalls : I.calls i.stack i.room)
    (hf : I.scope s i.frame) {root : ExprId} (he : I.expr ⟨i.arena, root + 1, root⟩) :
    I.Concluded s i (i.eval names root w) :=
  .of_diagonal (L.diagonal.eval ⟨rfl, hw⟩ rfl hcalls ⟨rfl, hf⟩ ⟨rfl, he⟩)

theorem Lawful.invoke (hw : I.world s w) (hcalls : I.calls i.stack i.room) {v : Value}
    (hv : I.value s v) {vs : List Value} (hvs : ∀ u ∈ vs, I.value s u) :
    I.Concluded s i (i.invoke names v vs w) :=
  .of_diagonal (L.diagonal.invoke ⟨rfl, hw⟩ rfl hcalls (diagonal_value_iff.mpr ⟨rfl, hv⟩)
    (diagonal_values hvs))

end Invariant
end ClosureLang
