import ClosureLang.Proofs.Eval.Correspondence
import ClosureLang.Proofs.Program.Occurrences

/-!
# Evaluation keeps corresponding runs in step

Here the recursions are closed. `evalNode` does not recur: its meanings of children and of calls
are parameters, so one node is kept in step by whatever keeps these in step. Descending into
children is then an induction on the levels allowed (`evalExpr_in`), and descending into the bodies
of called functions one on the number of further calls allowed (`callValue`). Both inductions
are about an arbitrary lawful correspondence, and no other proof about evaluation repeats them.

An expression need not be evaluated in scopes that correspond. It is enough that all may be done
there but declaring, and that the names of its own `let`s may be declared. The parts of a block run
in scopes that are new, and these correspond.

A call is kept in step whatever its two callers have in common besides the calls in progress
(`CallRelated` asks nothing of their scopes and programs): a body runs in the frame of its call,
in its own program.
-/

namespace ClosureLang
namespace Correspondence

variable {σ : Type} [Preorder σ] {K : Correspondence σ} {α β : Type} {names₁ names₂ : Interner}
  {c₁ c₂ : Context} {s : σ} {A : σ → α → β → Prop} {x : Eval α} {y : Eval β}

namespace Lawful

variable (L : K.Lawful names₁ names₂)
include L

/-! ### Calls -/

theorem defineAll {ps qs : List Name} {vs ws : List Value} (hf : K.scope s c₁.frame c₂.frame)
    (hn : List.Forall₂ K.name ps qs) (hv : List.Forall₂ (K.value s) vs ws) :
    K.Related s c₁ c₂ (fun _ _ _ => True) (Eval.defineAll names₁ ps vs)
      (Eval.defineAll names₂ qs ws) := by
  induction hn generalizing s vs ws with
  | nil => exact Related.pure fun _ _ => trivial
  | cons hn _ ih =>
    cases hv with
    | nil => exact Related.pure fun _ _ => trivial
    | cons hv hvs =>
      exact (L.defineVar (L.declares hf hn) hn hv).bind fun t _ _ ht _ =>
        ih (L.scope_mono ht hf) (L.values_mono ht hvs)

theorem activate {c d : Closure} {vs ws : List Value} (hc : K.closure s c d)
    (hv : List.Forall₂ (K.value s) vs ws) :
    K.Related s c₁ c₂ K.scope (Eval.activate names₁ c vs) (Eval.activate names₂ d ws) := by
  obtain ⟨hname, ⟨hps, hfault⟩, -⟩ := L.code_match (L.closure_code hc)
  have hdisplay : c.displayName = d.displayName := by
    simp only [Closure.displayName, Closure.name, hname]
  rw [Eval.activate_eq, Eval.activate_eq]
  rcases rel_cases hps with ⟨hp, hq⟩ | ⟨ps, qs, hp, hq, hps⟩
  · rw [hp, hq]
    exact Related.fail fun _ _ => .fault (hfault hp)
  · rw [hp, hq]
    dsimp only
    rw [← hps.length_eq, ← hv.length_eq, ← hdisplay]
    by_cases hlen : ps.length = vs.length
    · rw [if_pos hlen, if_pos hlen]
      refine (L.newChild fun t ht => L.closure_captured (L.closure_mono ht hc)).bind
        fun t f g ht hf => ?_
      exact (L.defineAll hf hps (L.values_mono ht hv)).inFrame.bind fun u _ _ hu _ =>
        Related.pure fun t' ht' => L.scope_mono (le_trans hu ht') hf
    · rw [if_neg hlen, if_neg hlen]
      exact L.raise_kind rfl

/-- A call is kept in step by its body, which runs with one more call in progress. -/
theorem duringCall {n : CallFrame} (hk : c₁.stack = c₂.stack)
    (h : c₁.stack.depth < c₁.stack.maxDepth → K.Related s ⟨c₁.arena, c₁.frame, c₁.stack.enter n⟩
      ⟨c₂.arena, c₂.frame, c₂.stack.enter n⟩ A x y) :
    K.Related s c₁ c₂ A (Eval.duringCall n x) (Eval.duringCall n y) := by
  intro s' w₁ w₂ hs hw
  by_cases hroom : c₁.stack.depth < c₁.stack.maxDepth
  · obtain ⟨t, r₁, r₂, w₁', w₂', ht, hw', hx, hy, hr⟩ := h hroom s' w₁ w₂ hs hw
    refine ⟨t, _, _, w₁', w₂', ht, hw', Eval.duringCall_machine hroom hx,
      Eval.duringCall_machine (hk ▸ hroom) hy, ?_⟩
    rw [← hk]
    cases hr with
    | ok hab => exact .ok hab
    | left hu =>
      cases hu with
      | error he => exact .left (.error (L.leave he))
      | ret hv => exact .left (.ret hv)
      | fault hf => exact .left (.fault hf)
  · have hfull := Nat.le_of_not_lt hroom
    refine ⟨s', _, _, w₁, w₂, le_refl s', hw, Eval.duringCall_full hfull,
      Eval.duringCall_full (hk ▸ hfull), ?_⟩
    rw [← hk]
    exact .left (.error (L.full hfull))

end Lawful

/-- Two meanings of an expression, kept in step in any two scopes that correspond. -/
def ExprRelated (K : Correspondence σ) (k : CallStack) (a b : Arena) (x y : Eval Value) : Prop :=
  ∀ s f g, K.scope s f g → K.Related s ⟨a, f, k⟩ ⟨b, g, k⟩ K.value x y

/-- Two meanings of calls, kept in step from any two callers. -/
def CallRelated (K : Correspondence σ) (k : CallStack)
    (call call' : Value → List Value → Eval Value) : Prop :=
  ∀ s c₁ c₂ v w vs ws, c₁.stack = k → c₂.stack = k → K.value s v w →
    List.Forall₂ (K.value s) vs ws → K.Related s c₁ c₂ K.value (call v vs) (call' w ws)

omit [Preorder σ] in
/-- What is found is found in the table. -/
theorem Found.with_left {α β : Type} {A : α → β → Prop} {x : Option α} {y : Option β}
    {f f' : Fault} (h : K.Found f f' A x y) : K.Found f f' (fun a b => x = some a ∧ A a b) x y := by
  obtain ⟨hr, hfault⟩ := h
  refine ⟨?_, hfault⟩
  rcases rel_cases hr with ⟨rfl, rfl⟩ | ⟨a, b, rfl, rfl, hab⟩
  · exact .none
  · exact .some ⟨rfl, hab⟩

omit [Preorder σ] in
/-- All that is descended to from a node, but for the body of a function literal, lies in it. -/
theorem NodeMatch.with_inner {a b : Arena} {l m : Nat} {nd nd' : Node}
    (h : K.NodeMatch names₁ names₂ a b l m nd nd') :
    let E := fun i j => K.expr ⟨a, l, i⟩ ⟨b, m, j⟩ ∧ i ∈ nd.inner a
    nd.Match K.name E
      (fun s t => K.Found (.noList s) (.noList t) (List.Forall₂ E) (a.list? s) (b.list? t))
      (fun d e => K.code ⟨a, d, d.name.map names₁.lookup⟩ ⟨b, e, e.name.map names₂.lookup⟩)
      nd' := by
  by_cases hfunction : ∃ d, nd = .function d
  · obtain ⟨d, rfl⟩ := hfunction
    cases h with
    | function h => exact .function h
  have hinner : nd.inner a = nd.children ++ nd.spans.flatMap fun s => (a.list? s).getD [] := by
    cases nd with
    | function d => exact absurd ⟨d, rfl⟩ hfunction
    | _ => rfl
  refine h.imp_of_mem (fun _ _ => id) (fun i hi j hij => ⟨hij, ?_⟩) (fun s hs t hst => ?_)
    fun _ _ => id
  · rw [hinner]
    exact List.mem_append_left _ hi
  · obtain ⟨hr, hfault⟩ := hst.with_left
    refine ⟨rel_imp hr fun ids ids' hids => ?_, hfault⟩
    refine forall₂_imp_mem hids.2 fun i hi j hij => ⟨hij, ?_⟩
    rw [hinner]
    exact List.mem_append_right _ (List.mem_flatMap.mpr ⟨s, hs, by rwa [hids.1]⟩)

namespace Lawful

variable (L : K.Lawful names₁ names₂)
include L

/-- **Calling a value is kept in step by running bodies.** -/
theorem applyValue {k : CallStack} {run run' : Closure → Eval Value}
    (hrun : k.depth < k.maxDepth → ∀ s c d, K.closure s c d →
      K.ExprRelated (k.enter ⟨c.name⟩) c.code.arena d.code.arena (run c) (run' d)) :
    K.CallRelated k (Eval.applyValue names₁ run) (Eval.applyValue names₂ run') := by
  intro s c₁ c₂ v w vs ws h₁ h₂ hv hvs
  cases hv with
  | function hc =>
    rename_i c d
    have hname : c.name = d.name := (L.code_match (L.closure_code hc)).name
    refine (L.activate hc hvs).bind fun t f g ht hf => ?_
    rw [← hname]
    refine L.duringCall (h₁.trans h₂.symm) fun hroom => Related.inScope (Related.settle ?_)
    rw [h₁] at hroom
    have hbody := hrun hroom t c d (L.closure_mono ht hc) t f g hf
    rw [h₁, h₂]
    exact hbody
  | _ => exact L.raise_kind rfl

variable {k : CallStack} {a b : Arena}

section Nodes

variable {f g : FrameId} {call call' : Value → List Value → Eval Value}
  {ev ev' : ExprId → Eval Value} {E : ExprId → ExprId → Prop} {n n' : Node}

/-- A block is kept in step by its statements, which run in scopes that are new. -/
theorem evalBlock {u v : Span} (hf : K.Works s f g)
    (hev : ∀ i j, E i j → K.ExprRelated k a b (ev i) (ev' j))
    (hl : K.Found (.noList u) (.noList v) (List.Forall₂ E) (a.list? u) (b.list? v)) :
    K.Related s ⟨a, f, k⟩ ⟨b, g, k⟩ K.value (Eval.evalNode names₁ call ev (.block u))
      (Eval.evalNode names₂ call' ev' (.block v)) := by
  refine (list hl).bind fun t ids ids' ht hids => ?_
  refine current.bind fun u f' g' hu hfg => ?_
  obtain ⟨rfl, rfl⟩ := hfg
  refine (L.newChild fun u' hu' => hf.captured (le_trans (le_trans ht hu) hu')).bind
    fun u' p q hu' hpq => Related.inFrame ?_
  exact L.runStmts (fun i j h => hev i j h u' p q hpq) hids (le_refl u') .void

/-- Any other node is kept in step by its children and by calls, in scopes where it may declare
what it declares. -/
theorem evalNode_of_children (hcall : K.CallRelated k call call') (hf : K.Works s f g)
    (hdeclare : ∀ m i, n = .letIn m i → ∀ m', K.name m m' → K.Declares s f g m m')
    (hev : ∀ i j, E i j → K.Related s ⟨a, f, k⟩ ⟨b, g, k⟩ K.value (ev i) (ev' j))
    (hblock : ∀ u, n ≠ .block u)
    (hn : n.Match K.name E
      (fun u v => K.Found (.noList u) (.noList v) (List.Forall₂ E) (a.list? u) (b.list? v))
      (fun d e => K.code ⟨a, d, d.name.map names₁.lookup⟩ ⟨b, e, e.name.map names₂.lookup⟩) n') :
    K.Related s ⟨a, f, k⟩ ⟨b, g, k⟩ K.value (Eval.evalNode names₁ call ev n)
      (Eval.evalNode names₂ call' ev' n') := by
  have hargs : ∀ {t : σ} {ids ids' : List ExprId}, s ≤ t → List.Forall₂ E ids ids' →
      K.Related t ⟨a, f, k⟩ ⟨b, g, k⟩ (fun u => List.Forall₂ (K.value u)) (Eval.evalArgs ev ids)
        (Eval.evalArgs ev' ids') :=
    fun ht hids => L.evalArgs hev hids ht
  cases hn with
  | number x => exact Related.pure fun _ _ => .number x
  | bool x => exact Related.pure fun _ _ => .bool x
  | str h =>
    refine Related.pure fun _ _ => ?_
    rw [L.name_text h]
    exact .str _
  | void => exact Related.pure fun _ _ => .void
  | ident h => exact L.getVar hf h
  | letIn h hc =>
    exact (hev _ _ hc).bind fun t v v' ht hv =>
      (L.defineVar (Declares.later (hdeclare _ _ rfl _ h) ht) h hv).bind fun _ _ _ _ _ =>
        Related.pure fun _ _ => .void
  | assign h hc =>
    exact (hev _ _ hc).bind fun t v v' ht hv =>
      (L.setVar (hf.later ht) h hv).bind fun _ _ _ _ _ => Related.pure fun _ _ => .void
  | compound op h hc =>
    exact (hev _ _ hc).bind fun t v v' ht hv =>
      (L.updateVar op (hf.later ht) h hv).bind fun _ _ _ _ _ => Related.pure fun _ _ => .void
  | binary op hl hr =>
    exact (hev _ _ hl).bind fun t v v' ht hv =>
      ((hev _ _ hr).later ht).bind fun u w w' hu hw => L.applyOp op (L.value_mono hu hv) hw
  | function h => exact makeFunction hf h
  | call hc hl =>
    refine (hev _ _ hc).bind fun t v v' ht hv => ?_
    refine (list hl).bind fun u ids ids' hu hids => ?_
    refine (hargs (le_trans ht hu) hids).bind fun u' vs vs' hu' hvs => ?_
    exact hcall u' _ _ v v' vs vs' rfl rfl (L.value_mono (le_trans hu hu') hv) hvs
  | print hl =>
    refine (list hl).bind fun u ids ids' hu hids => ?_
    exact (hargs hu hids).bind fun u' vs vs' hu' hvs =>
      (L.printLine hvs).bind fun _ _ _ _ _ => Related.pure fun _ _ => .void
  | block => exact absurd rfl (hblock _)
  | ifThen hc ht =>
    refine (hev _ _ hc).bind fun t v v' hst hv => ?_
    rw [← Value.Match.isTruthy_eq hv]
    cases v.isTruthy with
    | true => exact (hev _ _ ht).later hst
    | false => exact Related.pure fun _ _ => .void
  | ifElse hc ht he =>
    refine (hev _ _ hc).bind fun t v v' hst hv => ?_
    rw [← Value.Match.isTruthy_eq hv]
    cases v.isTruthy with
    | true => exact (hev _ _ ht).later hst
    | false => exact (hev _ _ he).later hst
  | retVoid => exact Related.fail fun _ _ => .ret .void
  | ret hc =>
    exact (hev _ _ hc).bind fun t v v' _ hv =>
      Related.fail fun u hu => .ret (L.value_mono hu hv)

end Nodes

/-- **An expression that may be descended to is kept in step wherever its own `let`s are.** -/
theorem evalExpr_in {call call' : Value → List Value → Eval Value}
    (hcall : K.CallRelated k call call') : ∀ {l m : Nat} {i j : ExprId} {s : σ} {f g : FrameId},
      K.expr ⟨a, l, i⟩ ⟨b, m, j⟩ → K.Works s f g →
      (∀ n n', a.OwnLet i n → K.name n n' → K.Declares s f g n n') →
      K.Related s ⟨a, f, k⟩ ⟨b, g, k⟩ K.value (Eval.evalExpr names₁ call l i)
        (Eval.evalExpr names₂ call' m j) := by
  intro l
  induction l with
  | zero =>
    intro m i j s f g h _ _
    rcases L.expr_step h with ⟨-, hm, hfault⟩ | ⟨l, m, hl, -⟩
    · obtain rfl : m = 0 := hm
      exact Related.fail fun _ _ => .fault hfault
    · exact absurd hl (Nat.succ_ne_zero l).symm
  | succ l ih =>
    intro m i j s f g h hf hlet
    rcases L.expr_step h with ⟨hl, -⟩ | ⟨l', m', hl, hm, hnode⟩
    · exact absurd hl (Nat.succ_ne_zero l)
    obtain rfl : l = l' := Nat.succ.inj hl
    obtain rfl : m = m' + 1 := hm
    refine (node hnode.with_left).bind fun t n n' ht hn => ?_
    obtain ⟨hi, hmatch⟩ := hn
    by_cases hblock : ∃ u, n = .block u
    · obtain ⟨u, rfl⟩ := hblock
      cases hmatch with
      | block hl =>
        -- The scope of the statements is one of those that correspond.
        exact L.evalBlock (hf.later ht) (fun i j h t p q hpq =>
          ih h (L.works hpq) fun _ _ _ hn => L.declares hpq hn) hl
    · have hblock' : ∀ u, n ≠ .block u := fun u hu => hblock ⟨u, hu⟩
      -- A part of this node shares the scope, and then so do the part's own `let`s.
      have hpart : ∀ i' j', K.expr ⟨a, l, i'⟩ ⟨b, m', j'⟩ ∧ i' ∈ n.inner a →
          K.Related t ⟨a, f, k⟩ ⟨b, g, k⟩ K.value (Eval.evalExpr names₁ call l i')
            (Eval.evalExpr names₂ call' m' j') :=
        fun i' j' h => (ih h.1 hf fun x x' hx =>
          hlet x x' (hx.of_inner hi hblock' h.2)).later ht
      refine L.evalNode_of_children hcall (hf.later ht) ?_ hpart hblock' hmatch.with_inner
      rintro x init rfl x' hx
      exact (hlet x x' (.of_letIn hi) hx).later ht

/-- The same for statements, in the scope itself. -/
theorem runStmts_in {call call' : Value → List Value → Eval Value}
    (hcall : K.CallRelated k call call') {f g : FrameId} (hf : K.Works s f g)
    {ids ids' : List ExprId}
    (hids : List.Forall₂ (fun i j => K.expr ⟨a, i + 1, i⟩ ⟨b, j + 1, j⟩) ids ids')
    (hlet : ∀ i ∈ ids, ∀ n n', a.OwnLet i n → K.name n n' → K.Declares s f g n n') :
    K.Related s ⟨a, f, k⟩ ⟨b, g, k⟩ K.value (Eval.runStmts (Eval.evalFrom names₁ call) .void ids)
      (Eval.runStmts (Eval.evalFrom names₂ call') .void ids') :=
  L.runStmts (fun _ _ hi => L.evalExpr_in hcall hi.1 hf (hlet _ hi.2))
    (forall₂_imp_mem hids fun _ hi _ hij => And.intro hij hi) (le_refl s) .void

/-- **Expressions that may be descended to are kept in step** in scopes that correspond. -/
theorem evalExpr {call call' : Value → List Value → Eval Value}
    (hcall : K.CallRelated k call call') {l m : Nat} {i j : ExprId}
    (h : K.expr ⟨a, l, i⟩ ⟨b, m, j⟩) :
    K.ExprRelated k a b (Eval.evalExpr names₁ call l i) (Eval.evalExpr names₂ call' m j) :=
  fun _ _ _ hf => L.evalExpr_in hcall h (L.works hf) fun _ _ _ hn => L.declares hf hn

theorem evalFrom {call call' : Value → List Value → Eval Value}
    (hcall : K.CallRelated k call call') {i j : ExprId}
    (h : K.expr ⟨a, i + 1, i⟩ ⟨b, j + 1, j⟩) :
    K.ExprRelated k a b (Eval.evalFrom names₁ call i) (Eval.evalFrom names₂ call' j) :=
  L.evalExpr hcall h

theorem runBody {call call' : Value → List Value → Eval Value}
    (hcall : K.CallRelated k call call') {i j : ExprId}
    (h : K.expr ⟨a, i + 1, i⟩ ⟨b, j + 1, j⟩) :
    K.ExprRelated k a b (Eval.runBody names₁ call i) (Eval.runBody names₂ call' j) := by
  intro s f g hf
  rcases L.expr_step h with ⟨hl, -⟩ | ⟨l, m, hl, hm, hnode⟩
  · exact absurd hl (Nat.succ_ne_zero i)
  obtain rfl : i = l := Nat.succ.inj hl
  obtain rfl : j = m := Nat.succ.inj hm
  refine (node hnode).bind fun t n n' ht hn => ?_
  have hfrom := L.evalFrom hcall h t f g (L.scope_mono ht hf)
  cases hn with
  | block hl =>
    refine (list hl).bind fun u ids ids' hu hids => ?_
    have hfu := L.scope_mono (le_trans ht hu) hf
    exact L.runStmts (fun i' j' (hi : K.expr ⟨a, i, i'⟩ ⟨b, j, j'⟩) =>
      L.evalExpr hcall hi u f g hfu) hids (le_refl u) .void
  | _ => exact hfrom

/-- **Calls are kept in step**, for as many further calls as the limit admits. -/
theorem callValue : ∀ {q : Nat} {k : CallStack}, K.calls k q →
    K.CallRelated k (Eval.callValue names₁ q) (Eval.callValue names₂ q) := by
  intro q
  induction q with
  | zero =>
    intro k hq
    refine L.applyValue fun hroom s c d _ t f g _ => ?_
    rcases L.enter ⟨c.name⟩ hq hroom with ⟨-, hfault⟩ | ⟨p, hp, -⟩
    · exact Related.fail fun _ _ => .fault hfault
    · exact absurd hp (Nat.succ_ne_zero p).symm
  | succ q ih =>
    intro k hq
    refine L.applyValue fun hroom s c d hc => ?_
    rcases L.enter ⟨c.name⟩ hq hroom with ⟨hz, -⟩ | ⟨p, hp, hk⟩
    · exact absurd hz (Nat.succ_ne_zero q)
    · obtain rfl : q = p := Nat.succ.inj hp
      exact L.runBody (ih hk) (L.code_match (L.closure_code hc)).body

end Lawful

end Correspondence

/-! ## What a host sees -/

/-- Outcomes that differ at most in which functions they are. -/
inductive Outcome.Alike (same : Closure → Closure → Prop) : Outcome → Outcome → Prop
  | value {v v' : Value} (h : v.Match same v') : Alike same (.value v) (.value v')
  | error (e : EvalError) : Alike same (.error e) (.error e)
  | fault (f : Fault) : Alike same (.fault f) (.fault f)

theorem Outcome.Alike.imp {C D : Closure → Closure → Prop} {o o' : Outcome}
    (hCD : ∀ c d, C c d → D c d) (h : o.Alike C o') : o.Alike D o' := by
  cases h with
  | value h => exact .value (h.mono hCD)
  | error e => exact .error e
  | fault f => exact .fault f

namespace Correspondence

variable {σ : Type} {K : Correspondence σ} {names₁ names₂ : Interner} {s : σ}

/-- Two outcomes for a host that correspond. -/
inductive Outcomes (K : Correspondence σ) (k : CallStack) (s : σ) : Outcome → Outcome → Prop
  | value {v w : Value} (h : K.value s v w) : Outcomes K k s (.value v) (.value w)
  | error {e e' : EvalError} (h : K.error k e e') : Outcomes K k s (.error e) (.error e')
  | fault {f f' : Fault} (h : K.fault f f') : Outcomes K k s (.fault f) (.fault f')

/-- Where errors and faults are the same on both sides, outcomes differ at most in functions. -/
theorem Outcomes.alike {k : CallStack} {o o' : Outcome} (h : K.Outcomes k s o o')
    (herror : ∀ k e e', K.error k e e' → e = e') (hfault : ∀ f f', K.fault f f' → f = f') :
    o.Alike (K.closure s) o' := by
  cases h with
  | value h => exact .value h
  | error h =>
    obtain rfl := herror _ _ _ h
    exact .error _
  | fault h =>
    obtain rfl := hfault _ _ h
    exact .fault _

variable [Preorder σ]

/-- The two interpreters are as before, and outcomes and worlds correspond. -/
def Concluded (K : Correspondence σ) (s : σ) (i j : Interpreter)
    (out out' : Outcome × Interpreter × World) : Prop :=
  ∃ t, s ≤ t ∧ out.2.1 = i ∧ out'.2.1 = j ∧ K.Outcomes i.stack t out.1 out'.1 ∧
    K.world t out.2.2 out'.2.2

theorem Related.perform {i j : Interpreter} {w w' : World} {x y : Eval Value}
    (h : K.Related s i.context j.context K.value x y) (hw : K.world s w w') :
    K.Concluded s i j (Interpreter.perform x i w) (Interpreter.perform y j w') := by
  obtain ⟨t, r₁, r₂, w₁, w₂, ht, hw', hx, hy, hr⟩ := h s w w' (le_refl s) hw
  rw [Interpreter.perform_machine hx, Interpreter.perform_machine hy]
  refine ⟨t, ht, rfl, rfl, ?_, hw'⟩
  cases hr with
  | ok hv => exact .value hv
  | left hu =>
    cases hu with
    | error he => exact .error he
    | ret hv => exact .value hv
    | fault hf => exact .fault hf

namespace Lawful

variable (L : K.Lawful names₁ names₂) {i j : Interpreter} {w w' : World}
include L

/-- **Corresponding interpreters evaluate alike.** -/
theorem eval (hw : K.world s w w') (hk : i.stack = j.stack) (hcalls : K.calls i.stack i.room)
    (hf : K.scope s i.frame j.frame) {root root' : ExprId}
    (he : K.expr ⟨i.arena, root + 1, root⟩ ⟨j.arena, root' + 1, root'⟩) :
    K.Concluded s i j (i.eval names₁ root w) (j.eval names₂ root' w') := by
  have hroom : i.room = j.room := by simp only [Interpreter.room, hk]
  have h := L.evalFrom (L.callValue hcalls) he s i.frame j.frame hf
  refine Related.perform ?_ hw
  rw [← hroom]
  simpa only [Interpreter.context, ← hk] using h

/-- **Corresponding interpreters call alike**, whatever their scopes and programs are. -/
theorem invoke (hw : K.world s w w') (hk : i.stack = j.stack) (hcalls : K.calls i.stack i.room)
    {v v' : Value} (hv : K.value s v v') {vs vs' : List Value}
    (hvs : List.Forall₂ (K.value s) vs vs') :
    K.Concluded s i j (i.invoke names₁ v vs w) (j.invoke names₂ v' vs' w') := by
  have hroom : i.room = j.room := by simp only [Interpreter.room, hk]
  refine Related.perform ?_ hw
  rw [← hroom]
  exact L.callValue hcalls s i.context j.context v v' vs vs' rfl hk.symm hv hvs

end Lawful
end Correspondence
end ClosureLang
