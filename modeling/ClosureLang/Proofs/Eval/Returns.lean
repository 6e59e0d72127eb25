import ClosureLang.Proofs.Eval.Variants

/-!
# Evaluation returns to where it began

Whatever is evaluated, and whatever way it ends, the code, the scope and the calls in progress
are afterwards what they were before, and nothing that was printed is taken back. Scope and code
are switched by one means and the calls in progress by another, and both are left by values,
errors and `return` alike; here it is proved once that no nesting of them makes a difference.
-/

namespace ClosureLang

/-! ## What has been printed -/

namespace Sink

/-- All text that a destination has received; one that is silent receives none. -/
def text : Sink → String
  | stdout written => written
  | buffer held => held
  | silent => ""

/-- From `s` to `t`, the text `p` was printed. -/
def Printed (s : Sink) (p : String) (t : Sink) : Prop := t.text = s.text ++ p

theorem Printed.refl (s : Sink) : s.Printed "" s := by simp [Printed]

theorem Printed.trans {s t u : Sink} {p q : String} (h : s.Printed p t) (h' : t.Printed q u) :
    s.Printed (p ++ q) u := by
  unfold Printed at h h' ⊢
  rw [h', h, String.append_assoc]

theorem printed_println (s : Sink) (line : String) : ∃ p, s.Printed p (s.println line) := by
  cases s with
  | stdout written => exact ⟨line ++ "\n", by simp [Printed, text, println, String.append_assoc]⟩
  | buffer held => exact ⟨line ++ "\n", by simp [Printed, text, println, String.append_assoc]⟩
  | silent => exact ⟨"", .refl silent⟩

end Sink

/-! ## Contexts -/

/-- A piece of evaluation that ends in the context in which it began, and whose world differs by
further text at the most as far as printing goes. -/
def Eval.Returns {α : Type} (x : Eval α) : Prop :=
  ∀ c w, ∃ r w' p, x (c.machine w) = (r, Context.machine c w') ∧ w.sink.Printed p w'.sink

namespace Eval.Returns

variable {α β : Type} {x : Eval α} {names : Interner}

theorem primitive (hx : x.Primitive names) : x.Returns := by
  intro c w
  obtain ⟨r, w', hrun, hsink⟩ := hx.run c.arena c.frame w
  obtain ⟨p, hp⟩ : ∃ p, w.sink.Printed p w'.sink := by
    rcases hsink with h | ⟨line, h⟩
    · exact ⟨"", h ▸ .refl _⟩
    · exact h ▸ Sink.printed_println w.sink line
  exact ⟨r, w', p, hrun c.stack, hp⟩

theorem bind {g : α → Eval β} (hx : x.Returns) (hg : ∀ a, (g a).Returns) : (x >>= g).Returns := by
  intro c w
  obtain ⟨r, w', p, hrun, hp⟩ := hx c w
  cases r with
  | ok a =>
    obtain ⟨r, w'', q, hrun', hq⟩ := hg a c w'
    exact ⟨r, w'', p ++ q, by rw [bind_ok hrun, hrun'], hp.trans hq⟩
  | error u => exact ⟨.error u, w', p, bind_error hrun, hp⟩

theorem inFrame (hx : x.Returns) (f : FrameId) : (inFrame f x).Returns := by
  intro c w
  obtain ⟨r, w', p, hrun, hp⟩ := hx (c.inFrame f) w
  exact ⟨r, w', p, inFrame_machine hrun, hp⟩

theorem inScope (hx : x.Returns) (f : FrameId) (a : Arena) : (inScope f a x).Returns := by
  intro c w
  obtain ⟨r, w', p, hrun, hp⟩ := hx ⟨a, f, c.stack⟩ w
  exact ⟨r, w', p, inScope_machine hrun, hp⟩

theorem settle {x : Eval Value} (hx : x.Returns) : (settle x).Returns := by
  intro c w
  obtain ⟨r, w', p, hrun, hp⟩ := hx c w
  exact ⟨_, w', p, settle_machine hrun, hp⟩

theorem duringCall (hx : x.Returns) (n : CallFrame) : (duringCall n x).Returns := by
  intro c w
  by_cases hroom : c.stack.depth < c.stack.maxDepth
  · obtain ⟨r, w', p, hrun, hp⟩ := hx ⟨c.arena, c.frame, c.stack.enter n⟩ w
    exact ⟨_, w', p, duringCall_machine hroom hrun, hp⟩
  · exact ⟨_, w, "", duringCall_full (Nat.le_of_not_lt hroom), .refl _⟩

theorem compositional (names : Interner) :
    Compositional names fun _ {α} (X : Unit → Eval α) => (X ()).Returns where
  primitive hx := .primitive hx
  bind h hF := h.bind hF
  inFrame f h := h.inFrame f
  inScope f a h := h.inScope f a
  settle h := h.settle
  duringCall n h := h.duringCall n

theorem runBody {call : Value → List Value → Eval Value} (hcall : ∀ v vs, (call v vs).Returns)
    (body : ExprId) : (runBody names call body).Returns :=
  @Compositional.runBody _ names _ (.new 0) (fun _ => call) (compositional names) hcall body

theorem callValue (q : Nat) (v : Value) (vs : List Value) : (callValue names q v vs).Returns :=
  (compositional names).callValue (k := .new 0) q v vs

theorem evalExpr {call : Value → List Value → Eval Value} (hcall : ∀ v vs, (call v vs).Returns)
    (l : Nat) (i : ExprId) : (evalExpr names call l i).Returns :=
  @Compositional.evalExpr _ names _ (.new 0) (fun _ => call) (compositional names) hcall l i

theorem evalArgs {ev : ExprId → Eval Value} (hev : ∀ i, (ev i).Returns) (ids : List ExprId) :
    (evalArgs ev ids).Returns :=
  @Compositional.evalArgs _ .empty _ (.new 0) (fun _ => ev) (compositional _) hev ids

end Eval.Returns
end ClosureLang
