import ClosureLang.Proofs.Eval.Growth
import ClosureLang.Proofs.Eval.Preserved
import ClosureLang.Proofs.Heap.Kept

/-!
# The scope of a body

What begins in the course of a call begins in the body of some function: of the one called, or of
one called on the way (`During.inBody`). There the program is the one that the function lies in,
and the scope is new. A walk outwards from it leads through scopes made since the call began, and
gets to older frames only by the frame that the function has captured (`InBody.over_captured`).
Frames are added on the way and never moved.
-/

namespace ClosureLang

variable {names : Interner} {m n k : Moment} {calls : List String} {old : Nat} {c d : Closure}
  {vs : List Value}

/-- The frame of a call is new, and lies inside the one that the function captured. -/
theorem Eval.activate_ok {c : Context} {w w' : World} {g : FrameId}
    (h : activate names d vs (c.machine w) = (.ok g, c.machine w')) :
    g = w.heap.size ∧ (w.heap.child d.frame).2.GrownTo w'.heap := by
  rw [activate_eq] at h
  cases hps : d.code.params? with
  | none =>
    rw [hps] at h
    cases h
  | some ps =>
    rw [hps] at h
    dsimp only at h
    split at h
    · rw [bind_ok newChild_machine] at h
      have hgrown := (((Grows.defineAll ps vs).inFrame w.heap.size).bind
        fun _ => .pure w.heap.size).of_run h
      refine ⟨?_, hgrown⟩
      rw [Attempt.bind_apply] at h
      split at h <;> cases h
      rfl
    · cases h

/-! ## Bodies -/

/-- The scope at a moment is none of the frames of `h`, and lies inside `f`. -/
structure Moment.NewScope (h : Heap) (f : FrameId) (n : Moment) : Prop where
  size_le : h.size ≤ n.context.frame
  lt_size : n.context.frame < n.world.heap.size
  parent : n.world.heap.parent? n.context.frame = some f

/-- Within one body the program is the same, and so is the scope unless a block is entered. -/
theorem Begins.scope (h : Begins names m [] n) : n.context.arena = m.context.arena ∧
    (n.context.frame = m.context.frame ∨ n.NewScope m.world.heap m.context.frame) := by
  cases h with
  | statement hn hids hdone =>
    obtain ⟨hlt, hp⟩ := (Eval.evalArgs_grown hdone).child
    exact ⟨rfl, .inr ⟨le_refl _, hlt, hp⟩⟩
  | _ => exact ⟨rfl, .inl rfl⟩

/-- A body begins in its own program and in a scope inside the one that the function captured. -/
theorem Begins.enters (h : Begins names m calls n) (hm : m.task = .call (.function d) vs) :
    n.context.arena = d.code.arena ∧ n.NewScope m.world.heap d.frame := by
  cases h with
  | body hact hroom =>
    cases hm
    obtain ⟨rfl, hgrown⟩ := Eval.activate_ok hact
    obtain ⟨hlt, hp⟩ := hgrown.child
    exact ⟨rfl, le_refl _, hlt, hp⟩
  | _ => cases hm

theorem Begins.task_of_call (h : Begins names m calls n) (hm : m.task = .call (.function d) vs) :
    n.task = .body d.code.body := by
  cases h with
  | body hact hroom =>
    cases hm
    rfl
  | _ => cases hm

/-- What begins lies in the body of `d`, which was called in the course of `m`: no other body was
entered since. -/
def InBody (names : Interner) (m : Moment) (d : Closure) (n : Moment) : Prop :=
  ∃ k b vs calls, During names m calls k ∧ k.task = .call (.function d) vs ∧
    Begins names k [d.displayName] b ∧ During names b [] n

theorem InBody.later (h : Begins names m calls k) (hd : InBody names k d n) :
    InBody names m d n := by
  obtain ⟨k', b, vs, calls', hcall, hrest⟩ := hd
  exact ⟨k', b, vs, _, .later h hcall, hrest⟩

theorem InBody.of_enters (h : Begins names m calls k) (hm : m.task = .call (.function d) vs)
    (hrest : During names k [] n) : InBody names m d n := by
  cases h with
  | body hact hroom =>
    cases hm
    exact ⟨_, _, _, _, .here _, rfl, .body hact hroom, hrest⟩
  | _ => cases hm

/-- Where bodies were entered, one was last. -/
theorem During.inBody (h : During names m calls n) (hcalls : calls ≠ []) :
    ∃ d, InBody names m d n := by
  induction h with
  | here => exact absurd rfl hcalls
  | @later m k n calls inner h hrest ih =>
    by_cases hinner : inner = []
    · subst hinner
      cases h with
      | body hact hroom => exact ⟨_, .of_enters (.body hact hroom) rfl hrest⟩
      | _ => exact absurd rfl hcalls
    · obtain ⟨d, hd⟩ := ih hinner
      exact ⟨d, hd.later h⟩

/-- **All that begins in the course of a call begins in the body of a function**, and in that of
the function called if no other body was entered. -/
theorem During.inBody_of_call (h : During names m calls n) (hm : m.task = .call (.function c) vs) :
    n = m ∨ ∃ d, InBody names m d n ∧ (calls.length = 1 → d = c) := by
  cases h with
  | here => exact .inl rfl
  | @later _ k _ calls inner h hrest =>
    obtain ⟨f, rfl⟩ : ∃ f, calls = [f] := by
      cases h with
      | body => exact ⟨_, rfl⟩
      | _ => cases hm
    right
    by_cases hinner : inner = []
    · subst hinner
      exact ⟨c, .of_enters h hm hrest, fun _ => rfl⟩
    · obtain ⟨d, hd⟩ := hrest.inBody hinner
      refine ⟨d, hd.later h, fun hlen => ?_⟩
      simp [hinner] at hlen

/-! ## Walks outwards from a body -/

/-- The scope is no older than `old`, and what is older around it is around what `d` captured. -/
structure Moment.Over (old : Nat) (d : Closure) (n : Moment) : Prop where
  valid : ∃ s, n.Satisfies validInvariant s
  captured_lt : d.frame < n.world.heap.size
  scope_lt : n.context.frame < n.world.heap.size
  old_le : old ≤ n.context.frame
  chain : ∀ f ∈ n.world.heap.chain n.context.frame, f < old → f ∈ n.world.heap.chain d.frame

namespace Moment.Over

theorem nested (h : n.Over old d) : n.world.heap.Nested := by
  obtain ⟨s, hs⟩ := h.valid
  exact hs.world.1.nested

/-- A scope that was just made lies over what the scope around it does. -/
theorem of_newScope {h : Heap} {f : FrameId} (hvalid : ∃ s, n.Satisfies validInvariant s)
    (hcaptured : d.frame < n.world.heap.size) (hnew : n.NewScope h f) (hold : old ≤ h.size)
    (hchain : ∀ g ∈ n.world.heap.chain f, g < old → g ∈ n.world.heap.chain d.frame) :
    n.Over old d where
  valid := hvalid
  captured_lt := hcaptured
  scope_lt := hnew.lt_size
  old_le := Nat.le_trans hold hnew.size_le
  chain g hmem hg := by
    obtain ⟨s, hs⟩ := hvalid
    rw [Heap.chain_of_parent? hs.world.1.nested.grounded hnew.parent] at hmem
    rcases List.mem_cons.mp hmem with rfl | hmem
    · exact absurd hg (Nat.not_lt_of_le (Nat.le_trans hold hnew.size_le))
    · exact hchain g hmem hg

/-- **A step** within one body. -/
theorem step (hm : m.Over old d) (h : Begins names m [] n) : n.Over old d := by
  obtain ⟨s, hs⟩ := hm.valid
  obtain ⟨t, -, ht⟩ := h.satisfies (validInvariant_lawful names) hs
  have hgrown := h.grown
  have hcaptured := Nat.lt_of_lt_of_le hm.captured_lt hgrown.size_le
  have hchain : ∀ f ∈ n.world.heap.chain m.context.frame, f < old →
      f ∈ n.world.heap.chain d.frame := by
    rw [hgrown.chain_eq hm.nested hm.scope_lt, hgrown.chain_eq hm.nested hm.captured_lt]
    exact hm.chain
  obtain ⟨-, hf | hnew⟩ := h.scope
  · rw [← hf] at hchain
    exact ⟨⟨t, ht⟩, hcaptured, hf ▸ Nat.lt_of_lt_of_le hm.scope_lt hgrown.size_le,
      hf ▸ hm.old_le, hchain⟩
  · exact of_newScope ⟨t, ht⟩ hcaptured hnew
      (Nat.le_trans hm.old_le (Nat.le_of_lt hm.scope_lt)) hchain

/-- The start of a body. -/
theorem enter {s : Nat × Nat} (hm : m.Satisfies validInvariant s)
    (htask : m.task = .call (.function d) vs) (hold : old ≤ m.world.heap.size)
    (h : Begins names m calls n) : n.Over old d := by
  obtain ⟨t, -, ht⟩ := h.satisfies (validInvariant_lawful names) hm
  have hcaptured : d.frame < m.world.heap.size := by
    have hvalue := hm.task
    rw [htask] at hvalue
    rw [hm.world.2.1]
    exact hvalue.1.1
  exact of_newScope ⟨t, ht⟩ (Nat.lt_of_lt_of_le hcaptured h.grown.size_le) (h.enters htask).2 hold
    fun _ hmem _ => hmem

theorem during (h : During names m calls n) (hcalls : calls = []) (hm : m.Over old d) :
    n.Over old d := by
  induction h with
  | here => exact hm
  | later h _ ih =>
    obtain ⟨rfl, rfl⟩ := List.append_eq_nil_iff.mp hcalls
    exact ih rfl (hm.step h)

end Moment.Over

theorem During.arena_eq (h : During names m calls n) (hcalls : calls = []) :
    n.context.arena = m.context.arena := by
  induction h with
  | here => rfl
  | later h _ ih =>
    obtain ⟨rfl, rfl⟩ := List.append_eq_nil_iff.mp hcalls
    rw [ih rfl, h.scope.1]

namespace InBody

/-- **A body runs in its own program.** -/
theorem arena_eq (h : InBody names m d n) : n.context.arena = d.code.arena := by
  obtain ⟨k, b, vs, calls, -, htask, hbody, hwithin⟩ := h
  rw [hwithin.arena_eq rfl, (hbody.enters htask).1]

/-- **In a body, frames that are older than the call are around its scope only if they are around
what the function has captured.** -/
theorem over_captured {s : Nat × Nat} (h : InBody names m d n)
    (hm : m.Satisfies validInvariant s) : n.Over m.world.heap.size d := by
  obtain ⟨k, b, vs, calls, hcall, htask, hbody, hwithin⟩ := h
  obtain ⟨t, -, hk⟩ := hcall.satisfies (validInvariant_lawful names) hm
  exact (Moment.Over.enter hk htask hcall.grown.size_le hbody).during hwithin rfl

end InBody
end ClosureLang
