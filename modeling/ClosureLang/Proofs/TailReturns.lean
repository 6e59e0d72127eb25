import ClosureLang.Proofs.Eval.Correspondence
import ClosureLang.Proofs.Eval.Levels

/-!
# Returns at the end

A `return` ends a call from wherever it stands. Where nothing would come after it anyhow it may be
left out, and what does come after it is never evaluated. `Arena.Trims` relates a body to what
becomes of it when any number of such returns give way to their operands and any number of such
statements are left out, and `tail_returns_redundant` says that calls cannot tell the two apart.

Whether a position is at the end of a body is an index of the relation. At the end, two pieces of
evaluation need agree only as far as the boundary of the call sees (`Eval.Alike`), and there a
value is not told from a `return` with it; elsewhere they have to agree outright.

The body itself is the one place to take care. A body that is a block has no scope of its own, so
`return` in front of a block that is all of a body may not be left out.
-/

namespace ClosureLang

/-! ## Bodies that are trimmed -/

/-- Lists whose expressions are related one by one. -/
inductive Arena.SameList (a : Arena) (R : ExprId → ExprId → Prop) : Span → Span → Prop
  | mk {is js : List ExprId} {s t : Span} (hs : a.list? s = some is) (ht : a.list? t = some js)
      (h : List.Forall₂ R is js) : SameList a R s t

/-- Statements that are related one by one up to a `return`, and arbitrary after it. The last one
is at the end if the block is. -/
inductive Arena.Statements (a : Arena) (R : Bool → ExprId → ExprId → Prop) :
    List ExprId → List ExprId → Bool → Prop
  | nil {tail : Bool} : Statements a R [] [] tail
  | last {i j : ExprId} {tail : Bool} (h : R tail i j) : Statements a R [i] [j] tail
  | cons {i j : ExprId} {is js : List ExprId} {tail : Bool} (h : R false i j)
      (hs : Statements a R is js tail) : Statements a R (i :: is) (j :: js) tail
  | dead {i j : ExprId} {is js : List ExprId} {tail : Bool} {v : Option ExprId}
      (hi : a.node? i = some (.ret v)) (h : R false i j) : Statements a R (i :: is) (j :: js) tail
  /-- Without what comes after it, the `return` is the last statement. -/
  | deadLast {i j : ExprId} {is : List ExprId} {tail : Bool} {v : Option ExprId}
      (hi : a.node? i = some (.ret v)) (h : R tail i j) : Statements a R (i :: is) [j] tail

/-- **The second expression is the first one trimmed.** With `tail`, both are at the end of a body:
so is the last statement of a block that is, and so are both branches of a conditional that is.
Function literals are the same in both. -/
inductive Arena.Trims (a : Arena) : Bool → ExprId → ExprId → Prop
  | same {tail : Bool} (i : ExprId) : Trims a tail i i
  | kept {tail : Bool} {i j : ExprId} {n m : Node} (hi : a.node? i = some n)
      (hj : a.node? j = some m)
      (h : n.Match Eq (Trims a false) (a.SameList (Trims a false)) Eq m) : Trims a tail i j
  | block {tail : Bool} {i j : ExprId} {s t : Span} {is js : List ExprId}
      (hi : a.node? i = some (.block s)) (hj : a.node? j = some (.block t))
      (hs : a.list? s = some is) (ht : a.list? t = some js)
      (h : a.Statements (Trims a) is js tail) : Trims a tail i j
  | branches {i j c d x y : ExprId} {e f : Option ExprId} (hi : a.node? i = some (.ifElse c x e))
      (hj : a.node? j = some (.ifElse d y f)) (hc : Trims a false c d) (hx : Trims a true x y)
      (he : Option.Rel (Trims a true) e f) : Trims a true i j
  /-- `return e` becomes `e`. -/
  | value {tail : Bool} {i j e : ExprId} (hi : a.node? i = some (.ret (some e)))
      (h : Trims a tail e j) : Trims a true i j
  /-- A `return` without operand becomes void. -/
  | void {i j : ExprId} (hi : a.node? i = some (.ret none)) (hj : a.node? j = some .void) :
      Trims a true i j

theorem Arena.Statements.of_forall₂ {a : Arena} {R : Bool → ExprId → ExprId → Prop}
    {is js : List ExprId} {tail : Bool} (h : List.Forall₂ (R false) is js) :
    a.Statements R is js tail := by
  induction h with
  | nil => exact .nil
  | cons hij _ ih => exact .cons hij ih

/-- A block is trimmed by trimming its statements. -/
theorem Arena.Trims.of_block {a : Arena} {tail : Bool} {i j : ExprId} {s : Span}
    {is : List ExprId} (h : a.Trims tail i j) (hi : a.node? i = some (.block s))
    (hs : a.list? s = some is) : ∃ t js, a.node? j = some (.block t) ∧ a.list? t = some js ∧
      a.Statements a.Trims is js tail := by
  cases h with
  | same => exact ⟨s, is, hi, hs, .of_forall₂ (List.forall₂_same.mpr fun k _ => .same k)⟩
  | kept hi' hj h =>
    obtain rfl := Option.some.inj (hi.symm.trans hi')
    cases h with
    | block hl =>
      obtain ⟨hs', ht, hR⟩ := hl
      obtain rfl := Option.some.inj (hs.symm.trans hs')
      exact ⟨_, _, hj, ht, .of_forall₂ hR⟩
  | block hi' hj hs' ht hR =>
    obtain rfl := Node.block.inj (Option.some.inj (hi.symm.trans hi'))
    obtain rfl := Option.some.inj (hs.symm.trans hs')
    exact ⟨_, _, hj, ht, hR⟩
  | branches hi' => cases hi.symm.trans hi'
  | value hi' => cases hi.symm.trans hi'
  | void hi' => cases hi.symm.trans hi'

/-- Only a `return` becomes a block that was none. -/
theorem Arena.Trims.not_block {a : Arena} {tail : Bool} {i j : ExprId} (h : a.Trims tail i j)
    (hi : ∀ s, a.node? i ≠ some (.block s))
    (hret : ∀ e s, a.node? i = some (.ret (some e)) → a.node? j ≠ some (.block s)) :
    ∀ s, a.node? j ≠ some (.block s) := by
  intro s hj
  cases h with
  | same => exact hi s hj
  | kept hi' hj' h =>
    obtain rfl := Option.some.inj (hj.symm.trans hj')
    cases h with
    | block => exact hi _ hi'
  | block hi' => exact hi _ hi'
  | branches _ hj' => cases hj.symm.trans hj'
  | value hi' => exact hret _ s hi' hj
  | void _ hj' => cases hj.symm.trans hj'

/-- **Functions that differ in a body that is trimmed**, and not in the scope in which it runs:
where the body of the one is a `return`, that of the other is no block. -/
structure Closure.Trims (c d : Closure) : Prop where
  arena : d.code.arena = c.code.arena
  name : d.name = c.name
  params : d.code.params? = c.code.params?
  frame : d.frame = c.frame
  body : c.code.arena.Trims true c.code.body d.code.body
  scope : ∀ e s, c.code.arena.node? c.code.body = some (.ret (some e)) →
    c.code.arena.node? d.code.body ≠ some (.block s)

namespace Eval

variable {α β : Type} {names : Interner} {call : Value → List Value → Eval Value}
  {ev : ExprId → Eval Value} {a : Arena} {tail : Bool}

/-! ## Ending alike -/

/-- Two pieces of evaluation that do the same in one program. -/
def Same (a : Arena) (x y : Eval α) : Prop :=
  ∀ c : Context, c.arena = a → ∀ w, x (c.machine w) = y (c.machine w)

/-- What is seen of a piece of evaluation from outside of the call, if it is at the end of one. -/
def atEnd : Bool → Eval Value → Eval Value
  | true, x => settle x
  | false, x => x

/-- Two pieces of evaluation that do the same as far as is seen. -/
def Alike (tail : Bool) (a : Arena) (x y : Eval Value) : Prop := Same a (atEnd tail x) (atEnd tail y)

namespace Same

variable {x y z : Eval α} {f g : α → Eval β}

theorem refl (x : Eval α) : Same a x x := fun _ _ _ => rfl

theorem symm (h : Same a x y) : Same a y x := fun c hc w => (h c hc w).symm

theorem trans (h : Same a x y) (h' : Same a y z) : Same a x z :=
  fun c hc w => (h c hc w).trans (h' c hc w)

theorem bind (hx : x.Returns) (h : Same a x y) (hf : ∀ v, Same a (f v) (g v)) :
    Same a (x >>= f) (y >>= g) := by
  intro c hc w
  obtain ⟨r, w', -, hrun, -⟩ := hx c w
  have hy := (h c hc w).symm.trans hrun
  cases r with
  | ok v =>
    rw [bind_ok hrun, bind_ok hy]
    exact hf v c hc w'
  | error u => rw [bind_error hrun, bind_error hy]

theorem list {s : Span} {is : List ExprId} (hs : a.list? s = some is) (f : List ExprId → Eval β) :
    Same a (list s >>= f) (f is) := by
  rintro c rfl w
  rw [Attempt.bind_apply, list_machine, hs]

theorem evalArgs (hev : ∀ i, (ev i).Returns) {is js : List ExprId}
    (h : List.Forall₂ (fun i j => Same a (ev i) (ev j)) is js) :
    Same a (evalArgs ev is) (evalArgs ev js) := by
  induction h with
  | nil => exact .refl _
  | cons hij _ ih =>
    exact hij.bind (hev _) fun v => ih.bind (.evalArgs hev _) fun vs => .refl _

/-- Lists of expressions that are alike, looked up in two places of the program. -/
theorem args (hev : ∀ i, (ev i).Returns) {s t : Span}
    (h : a.SameList (fun i j => Same a (ev i) (ev j)) s t) {f g : List Value → Eval β}
    (hf : ∀ vs, Same a (f vs) (g vs)) :
    Same a (Eval.list s >>= fun is => Eval.evalArgs ev is >>= f)
      (Eval.list t >>= fun js => Eval.evalArgs ev js >>= g) := by
  obtain ⟨hs, ht, hR⟩ := h
  have hrun := (Same.evalArgs hev hR).bind (.evalArgs hev _) hf
  exact (Same.list hs fun is => Eval.evalArgs ev is >>= f).trans
    (hrun.trans (Same.list ht fun js => Eval.evalArgs ev js >>= g).symm)

end Same

theorem settle_of_eq {x y : Eval Value} {m m' : Machine} (h : x m = y m') :
    settle x m = settle y m' := by
  simp only [settle, h]

/-- At the boundary of a call it makes no difference whether a value was returned. -/
theorem settle_ret (x : Eval Value) (m : Machine) :
    settle (x >>= fun v => .fail (.ret v)) m = settle x m := by
  simp only [settle, Attempt.bind_apply]
  cases x m with
  | mk r m =>
    cases r with
    | ok v => rfl
    | error u => cases u <;> rfl

theorem settle_inFrame (x : Eval Value) (f : FrameId) (m : Machine) :
    settle (inFrame f x) m = inFrame f (settle x) m := by
  simp only [settle, inFrame]
  cases x { m with frame := f } with
  | mk r m =>
    cases r with
    | ok v => rfl
    | error u => cases u <;> rfl

namespace Alike

variable {x y z : Eval Value}

theorem of_same (h : Same a x y) : Alike tail a x y := by
  cases tail with
  | false => exact h
  | true => exact fun c hc w => settle_of_eq (h c hc w)

theorem trans (h : Alike tail a x y) (h' : Alike tail a y z) : Alike tail a x z :=
  Same.trans h h'

theorem bind {x y : Eval α} {f g : α → Eval Value} (hx : x.Returns) (h : Same a x y)
    (hf : ∀ v, Alike tail a (f v) (g v)) : Alike tail a (x >>= f) (y >>= g) := by
  cases tail with
  | false => exact Same.bind hx h hf
  | true =>
    intro c hc w
    obtain ⟨r, w', -, hrun, -⟩ := hx c w
    have hy := (h c hc w).symm.trans hrun
    cases r with
    | ok v =>
      have hsettled := hf v c hc w'
      exact (settle_of_eq (bind_ok hrun)).trans (hsettled.trans (settle_of_eq (bind_ok hy)).symm)
    | error u => exact settle_of_eq ((bind_error hrun).trans (bind_error hy).symm)

/-- **At the end, `return` adds nothing.** -/
theorem ret (h : Alike tail a x y) : Alike true a (x >>= fun v => .fail (.ret v)) y := by
  have hsettled : Alike true a x y := by
    cases tail with
    | false => exact .of_same h
    | true => exact h
  exact fun c hc w => (settle_ret x _).trans (hsettled c hc w)

theorem inFrame (h : Alike tail a x y) (f : FrameId) :
    Alike tail a (inFrame f x) (inFrame f y) := by
  intro c hc w
  have hxy := inFrame_congr (f := f) (h (c.inFrame f) hc w)
  cases tail with
  | false => exact hxy
  | true => exact (settle_inFrame x f _).trans (hxy.trans (settle_inFrame y f _).symm)

/-- Statements of which the trimmed ones do the same as the others. -/
theorem runStmts (hev : ∀ i, (ev i).Returns)
    (hret : ∀ i v, a.node? i = some (.ret v) → ∀ c : Context, c.arena = a → ∀ w,
      ∃ u w', ev i (c.machine w) = (.error u, c.machine w'))
    {R : Bool → ExprId → ExprId → Prop} {is js : List ExprId} (h : a.Statements R is js tail)
    (hR : ∀ t, ∀ i ∈ is, ∀ j, R t i j → Alike t a (ev i) (ev j)) (last : Value) :
    Alike tail a (runStmts ev last is) (runStmts ev last js) := by
  induction h generalizing last with
  | nil => exact .of_same (.refl _)
  | @last i j _ h =>
    rw [funext (runStmts_singleton ev last i), funext (runStmts_singleton ev last j)]
    exact hR _ i (by simp) j h
  | @cons i j is js _ h _ ih =>
    exact bind (hev i) (hR false i (by simp) j h)
      (ih fun t i hi => hR t i (List.mem_cons_of_mem _ hi))
  | @dead i j is js _ v hi h =>
    -- Neither of the two gets past its first statement.
    refine .of_same fun c hc w => ?_
    obtain ⟨u, w', hrun⟩ := hret i v hi c hc w
    have hj := (hR false i (by simp) j h c hc w).symm.trans hrun
    exact (bind_error hrun).trans (bind_error hj).symm
  | @deadLast i j is _ v hi h =>
    have hfirst : Same a (Eval.runStmts ev last (i :: is)) (ev i) := by
      intro c hc w
      obtain ⟨u, w', hrun⟩ := hret i v hi c hc w
      exact (bind_error hrun).trans hrun.symm
    rw [funext (runStmts_singleton ev last j)]
    exact (of_same hfirst).trans (hR _ i (by simp) j h)

end Alike

/-! ## Nodes -/

/-- Blocks do the same where their statements do. -/
theorem alike_block {s t : Span} {is js : List ExprId} (hs : a.list? s = some is)
    (ht : a.list? t = some js)
    (h : Alike tail a (runStmts ev .void is) (runStmts ev .void js)) :
    Alike tail a (evalNode names call ev (.block s)) (evalNode names call ev (.block t)) := by
  let scope (ids : List ExprId) : Eval Value :=
    current >>= fun f => newChild f >>= fun g => inFrame g (runStmts ev .void ids)
  have hrun : Alike tail a (scope is) (scope js) :=
    .bind (.primitive (.current : Primitive names _)) (.refl _) fun f =>
      .bind (.primitive (.newChild f : Primitive names _)) (.refl _) fun g => h.inFrame g
  exact .trans (.of_same (Same.list hs scope)) (hrun.trans (.of_same (Same.list ht scope).symm))

/-- Nodes of one kind do the same where their children do. -/
theorem same_evalNode (hev : ∀ i, (ev i).Returns) {n m : Node}
    (h : n.Match Eq (fun i j => Same a (ev i) (ev j)) (a.SameList fun i j => Same a (ev i) (ev j))
      Eq m) : Same a (evalNode names call ev n) (evalNode names call ev m) := by
  cases h with
  | number | bool | void | retVoid => exact .refl _
  | str h | ident h | function h =>
    subst h
    exact .refl _
  | letIn h hc | assign h hc | compound op h hc =>
    subst h
    exact hc.bind (hev _) fun v => .refl _
  | binary op hl hr => exact hl.bind (hev _) fun l => hr.bind (hev _) fun r => .refl _
  | call hc hl => exact hc.bind (hev _) fun f => .args hev hl fun vs => .refl _
  | print hl => exact .args hev hl fun vs => .refl _
  | block hl =>
    obtain ⟨hs, ht, h⟩ := hl
    have hrun := (Same.evalArgs hev h).bind (.evalArgs hev _)
      fun vs => .refl (pure (vs.getLastD Value.void))
    rw [← runStmts_eq, ← runStmts_eq] at hrun
    have hblock : Alike false a (evalNode names call ev _) (evalNode names call ev _) :=
      alike_block hs ht hrun
    exact hblock
  | ifThen hc ht =>
    refine hc.bind (hev _) fun v => ?_
    split
    · exact ht
    · exact .refl _
  | ifElse hc ht he =>
    refine hc.bind (hev _) fun v => ?_
    split
    · exact ht
    · exact he
  | ret hc => exact hc.bind (hev _) fun v => .refl _

theorem same_evalFrom (hcall : ∀ v vs, (call v vs).Returns) (hwf : a.WellFormed) {i : ExprId}
    {n : Node} (hn : a.node? i = some n) :
    Same a (evalFrom names call i) (evalNode names call (evalFrom names call) n) := by
  rintro c rfl w
  exact evalFrom_node hcall hwf hn w

/-- A `return` leaves the block that it stands in. -/
theorem evalFrom_ret (hcall : ∀ v vs, (call v vs).Returns) (hwf : a.WellFormed) {i : ExprId}
    {v : Option ExprId} (hi : a.node? i = some (.ret v)) (c : Context) (hc : c.arena = a)
    (w : World) : ∃ u w', evalFrom names call i (c.machine w) = (.error u, c.machine w') := by
  rw [same_evalFrom hcall hwf hi c hc w]
  cases v with
  | none => exact ⟨_, w, rfl⟩
  | some e =>
    have he : (evalFrom names call e).Returns := .evalExpr hcall (e + 1) e
    obtain ⟨r, w', -, hrun, -⟩ := he c w
    cases r with
    | ok v => exact ⟨_, w', bind_ok hrun⟩
    | error u => exact ⟨u, w', bind_error hrun⟩

/-! ## Expressions and bodies -/

/-- **An expression and what is trimmed of it do the same.** -/
theorem alike_of_trims (hcall : ∀ v vs, (call v vs).Returns) (hwf : a.WellFormed) {i j : ExprId}
    (h : a.Trims tail i j) : Alike tail a (evalFrom names call i) (evalFrom names call j) := by
  have hev : ∀ i, (evalFrom names call i).Returns := fun i => .evalExpr hcall (i + 1) i
  induction i using Nat.strongRecOn generalizing tail j with
  | ind i ih =>
    cases h with
    | same => exact .of_same (.refl _)
    | @kept _ _ _ n m hi hj hm =>
      have hnodes : Same a (evalNode names call (evalFrom names call) n)
          (evalNode names call (evalFrom names call) m) := by
        refine same_evalNode hev (hm.imp_of_mem (fun _ _ => id) ?_ ?_ fun _ _ => id)
        · intro k hk l hkl
          exact ih k (hwf.child_lt hi k hk) hkl
        · rintro s hs t ⟨hsl, htl, hR⟩
          exact ⟨hsl, htl, forall₂_imp_mem hR fun k hk l hkl =>
            ih k (hwf.lt_of_mem_list hi hs hsl hk) hkl⟩
      exact .of_same ((same_evalFrom hcall hwf hi).trans
        (hnodes.trans (same_evalFrom hcall hwf hj).symm))
    | @block _ _ _ s _ _ _ hi hj hs ht hR =>
      have hlt := fun k => hwf.lt_of_mem_list (j := k) hi (by simp [Node.spans]) hs
      have hrun := Alike.runStmts hev (fun k v hk => evalFrom_ret hcall hwf hk) hR
        (fun t k hk l hkl => ih k (hlt k hk) hkl) .void
      exact .trans (.of_same (same_evalFrom hcall hwf hi))
        (.trans (alike_block hs ht hrun) (.of_same (same_evalFrom hcall hwf hj).symm))
    | @branches _ _ k l x y e f hi hj hc hx he =>
      have hlt := hwf.child_lt hi
      have hrun : Alike true a (evalNode names call (evalFrom names call) (.ifElse k x e))
          (evalNode names call (evalFrom names call) (.ifElse l y f)) := by
        refine .bind (hev k) (ih k (hlt k (by simp [Node.children])) hc) fun v => ?_
        split
        · exact ih x (hlt x (by simp [Node.children])) hx
        · cases he with
          | none => exact .of_same (.refl _)
          | some he => exact ih _ (hlt _ (by simp [Node.children])) he
      exact .trans (.of_same (same_evalFrom hcall hwf hi))
        (hrun.trans (.of_same (same_evalFrom hcall hwf hj).symm))
    | @value _ _ _ e hi hR =>
      have hlt := hwf.child_lt hi e (by simp [Node.children])
      exact .trans (.of_same (same_evalFrom hcall hwf hi)) (ih e hlt hR).ret
    | void hi hj =>
      have hrun : Alike true a (evalNode names call (evalFrom names call) (.ret none))
          (evalNode names call (evalFrom names call) .void) := fun _ _ _ => rfl
      exact .trans (.of_same (same_evalFrom hcall hwf hi))
        (hrun.trans (.of_same (same_evalFrom hcall hwf hj).symm))

/-- A body that is no block is evaluated as an expression. -/
theorem same_runBody {b : ExprId} (hb : ∀ s, a.node? b ≠ some (.block s)) :
    Same a (runBody names call b) (evalFrom names call b) := by
  rintro c rfl w
  cases hn : c.arena.node? b with
  | none =>
    have hnode : node b (c.machine w) = (.error (.fault (.noNode b)), c.machine w) := by
      rw [node_machine, hn]
    exact (bind_error hnode).trans (bind_error hnode).symm
  | some n =>
    rw [runBody, Attempt.bind_apply, node_machine, hn]
    cases n with
    | block s => exact absurd hn (hb s)
    | _ => rfl

/-- The statements of a body that is a block run in the scope of the body. -/
theorem same_runBody_block (hcall : ∀ v vs, (call v vs).Returns) (hwf : a.WellFormed) {b : ExprId}
    {s : Span} {is : List ExprId} (hb : a.node? b = some (.block s)) (hs : a.list? s = some is) :
    Same a (runBody names call b) (runStmts (evalFrom names call) .void is) := by
  rintro c rfl w
  exact runBody_statements_from hcall hwf hb hs w

/-- **Bodies and what is trimmed of them do the same**, as far as callers see. -/
theorem alike_runBody (hcall : ∀ v vs, (call v vs).Returns) (hwf : a.WellFormed) {b b' : ExprId}
    (h : a.Trims true b b')
    (hscope : ∀ e s, a.node? b = some (.ret (some e)) → a.node? b' ≠ some (.block s)) :
    Alike true a (runBody names call b) (runBody names call b') := by
  have hev : ∀ i, (evalFrom names call i).Returns := fun i => .evalExpr hcall (i + 1) i
  by_cases hb : ∃ s, a.node? b = some (.block s)
  · obtain ⟨s, hb⟩ := hb
    obtain ⟨is, hs, -⟩ := hwf.list_lt hb s (by simp [Node.spans])
    obtain ⟨t, js, hb', ht, hR⟩ := h.of_block hb hs
    have hrun := Alike.runStmts hev (fun k v hk => evalFrom_ret hcall hwf hk) hR
      (fun t i _ j hij => alike_of_trims hcall hwf hij) .void
    exact .trans (.of_same (same_runBody_block hcall hwf hb hs))
      (hrun.trans (.of_same (same_runBody_block hcall hwf hb' ht).symm))
  · have hb : ∀ s, a.node? b ≠ some (.block s) := fun s hs => hb ⟨s, hs⟩
    exact .trans (.of_same (same_runBody hb)) ((alike_of_trims hcall hwf h).trans
      (.of_same (same_runBody (h.not_block hb hscope)).symm))

/-- **No call tells a function from one whose body is trimmed.** -/
theorem callValue_trims {c d : Closure} (hwf : c.code.WellFormed) (h : c.Trims d) (q : Nat)
    (args : List Value) :
    callValue names q (.function c) args = callValue names q (.function d) args := by
  have hact : activate names c args = activate names d args := by
    obtain ⟨ps, hps⟩ := hwf.params
    have hname : d.displayName = c.displayName := by rw [Closure.displayName, h.name]; rfl
    rw [activate_eq, activate_eq, h.params, hps, h.frame, hname]
  cases q with
  | zero => simp only [callValue, applyValue, hact, h.name, h.arena]
  | succ q =>
    have hbody : ∀ f, inScope f c.code.arena (settle (runBody names (callValue names q) c.code.body))
        = inScope f c.code.arena (settle (runBody names (callValue names q) d.code.body)) := by
      intro f
      funext m
      have halike : Alike true c.code.arena (runBody names (callValue names q) c.code.body)
          (runBody names (callValue names q) d.code.body) :=
        alike_runBody (.callValue q) hwf.arena h.body h.scope
      have hrun : settle (runBody names (callValue names q) c.code.body)
          { m with frame := f, arena := c.code.arena } =
          settle (runBody names (callValue names q) d.code.body)
          { m with frame := f, arena := c.code.arena } :=
        halike ⟨c.code.arena, f, m.stack⟩ rfl ⟨m.heap, m.sink⟩
      simp only [inScope, hrun]
    simp only [callValue, applyValue, hact, h.name, h.arena, hbody]

end Eval

/-- **Returns at the end and code after returns make no difference.** A function and one whose
body is trimmed end alike whenever they are called: with the same value, or the same error and
backtrace, the same output and the same heap. -/
theorem tail_returns_redundant (names : Interner) {c d : Closure} (hwf : c.code.WellFormed)
    (h : c.Trims d) (args : List Value) :
    (∀ q, Eval.callValue names q (.function c) args = Eval.callValue names q (.function d) args) ∧
    ∀ (i : Interpreter) (w : World),
      i.invoke names (.function c) args w = i.invoke names (.function d) args w := by
  have hcall : ∀ q, Eval.callValue names q (.function c) args =
      Eval.callValue names q (.function d) args := fun q => Eval.callValue_trims hwf h q args
  refine ⟨hcall, fun i w => ?_⟩
  simp only [Interpreter.invoke, hcall]

/-- A function of one parameter in two versions: both branches of a conditional are left by
`return`, one of them with a statement after it, or they just end. -/
def branching : Arena where
  nodes := #[.ident ⟨0⟩, .bool true, .ret (some 1), .void, .block ⟨0, 2⟩, .ret none,
    .ifElse 0 4 (some 5), .block ⟨2, 1⟩, .block ⟨3, 1⟩, .ifElse 0 8 (some 3), .block ⟨4, 1⟩]
  lists := #[2, 3, 6, 1, 9]
  params := #[⟨0⟩]

def branchingAt (body : ExprId) : Closure := ⟨0, ⟨branching, ⟨none, ⟨0, 1⟩, body⟩, none⟩, 0⟩

theorem trims_branching : (branchingAt 7).Trims (branchingAt 10) where
  arena := rfl
  name := rfl
  params := rfl
  frame := rfl
  body := by
    have hvalue : branching.Trims false 1 1 := .same 1
    have hthen : branching.Trims true 4 8 :=
      .block rfl rfl rfl rfl (.deadLast rfl (.value rfl hvalue))
    have helse : branching.Trims true 5 3 := .void rfl rfl
    exact .block rfl rfl rfl rfl (.last (.branches rfl rfl (.same 0) hthen (.some helse)))
  scope e s h := by cases h

theorem tail_returns_redundant_branching :
    (branchingAt 7).code.WellFormed ∧ (branchingAt 7).Trims (branchingAt 10) ∧
      (Interpreter.new branching 0 4).invoke .empty (.function (branchingAt 7)) [.bool true]
          ⟨Heap.empty.root.2, .silent⟩ =
        (Interpreter.new branching 0 4).invoke .empty (.function (branchingAt 10)) [.bool true]
          ⟨Heap.empty.root.2, .silent⟩ := by
  have hwf : (branchingAt 7).code.WellFormed := by decide
  exact ⟨hwf, trims_branching,
    (tail_returns_redundant .empty hwf trims_branching [.bool true]).2 _ _⟩

/-- A body that declares its parameter once more, which a scope of its own allows. -/
def redeclaring (body : ExprId) : Closure :=
  ⟨0, ⟨⟨#[.void, .letIn ⟨0⟩ 0, .block ⟨0, 1⟩, .ret (some 2)], #[1], #[⟨0⟩]⟩, ⟨none, ⟨0, 1⟩, body⟩,
    none⟩, 0⟩

/-- In front of a block that is all of a body, `return` makes a difference. -/
example :
    (Interpreter.new .empty 0 4 |>.invoke .empty (.function (redeclaring 3)) [.void]
        ⟨Heap.empty.root.2, .silent⟩).1.value? = some .void ∧
      (Interpreter.new .empty 0 4 |>.invoke .empty (.function (redeclaring 2)) [.void]
        ⟨Heap.empty.root.2, .silent⟩).1.value? = none :=
  ⟨rfl, rfl⟩

end ClosureLang
