import ClosureLang.Proofs.Host.Balanced

/-!
# What holds of every run of a host

A host is balanced at the start, and every step takes a balanced state to another
(`Balanced.step`), so it is after every run. In a balanced state the frames that are alive are just
those that somebody holds.
-/

namespace ClosureLang.Host.State

variable {s t : State} {f g : FrameId}

namespace Balanced

theorem exact (hs : s.Balanced) : s.ledger.Exact s.heap s.roots := hs.store.exact

/-- What is held is alive. -/
theorem isAlive_of_held (hs : s.Balanced)
    (hf : f ∈ s.roots ∨ ∃ g, s.ledger.isAlive g = true ∧ f ∈ s.heap.links g) :
    s.ledger.isAlive f = true := by
  rcases hf with hf | ⟨g, hg, hf⟩
  · exact hs.exact.isAlive_of_mem hf
  · exact hs.exact.isAlive_of_link hg hf

/-- What is alive is held, by the host or by a frame that is alive. -/
theorem held_of_isAlive (hs : s.Balanced) (hf : s.ledger.isAlive f = true) :
    f ∈ s.roots ∨ ∃ g, s.ledger.isAlive g = true ∧ f ∈ s.heap.links g :=
  (Ledger.mem_handles.mp ((hs.exact.count_pos hf).mp (hs.store.settled f hf))).imp_right
    fun ⟨g, hg, hf⟩ => ⟨g, beq_iff_eq.mpr hg, hf⟩

/-- What is within reach of the host is alive. -/
theorem isAlive_of_reachable (hs : s.Balanced) (hf : s.heap.Reachable (· ∈ s.roots) f) :
    s.ledger.isAlive f = true := by
  induction hf with
  | root hf => exact hs.isAlive_of_held (.inl hf)
  | parent _ hp ih =>
    exact hs.isAlive_of_held (.inr ⟨_, ih, hs.coherent.heap.mem_links_iff.mpr (.inl hp)⟩)
  | stored _ hv hg ih =>
    exact hs.isAlive_of_held
      (.inr ⟨_, ih, hs.coherent.heap.mem_links_iff.mpr (.inr ⟨_, _, hv, hg⟩)⟩)

theorem lt_size (hs : s.Balanced) (hf : s.ledger.isAlive f = true) : f < s.heap.size :=
  hs.store.lt_size hf

end Balanced

/-! ## Steps and runs -/

theorem step_snd (c : Command) (s : State) : (s.step c).2 = (Action.serve c s).2 := by
  unfold step
  rcases Action.serve c s with ⟨_ | _, _⟩ <;> rfl

theorem balanced_start : start.Balanced where
  coherent :=
    ⟨.empty, List.nodup_nil, List.nodup_nil, List.nodup_nil, fun _ hv => absurd hv List.not_mem_nil,
      fun _ hr => absurd hr List.not_mem_nil⟩
  store := ⟨rfl, Ledger.exact_empty _, Ledger.settled_empty, Heap.Sound.empty.distinct⟩

/-- A command that a balanced host carries out. -/
theorem Balanced.step_midway (hs : s.Balanced) (c : Command) : Midway s [] (s.step c).2 := by
  rw [step_snd]
  exact Action.Ends.serve c hs.midway

/-- **A step keeps a host balanced.** -/
theorem Balanced.step (hs : s.Balanced) (c : Command) : (s.step c).2.Balanced :=
  (hs.step_midway c).balanced

/-- The dead do not come back: what lives after a step lived before it, or is new. -/
theorem Balanced.isAlive_of_step (hs : s.Balanced) {c : Command}
    (hf : (s.step c).2.ledger.isAlive f = true) (hlt : f < s.heap.size) :
    s.ledger.isAlive f = true :=
  (hs.step_midway c).later.alive f hlt hf

/-- **So does a run.** -/
theorem Balanced.run (hs : s.Balanced) (cs : List Command) : (s.run cs).Balanced := by
  induction cs generalizing s with
  | nil => exact hs
  | cons c cs ih => exact ih (hs.step c)

theorem Balanced.run_continues (hs : s.Balanced) (cs : List Command) :
    s.heap.Continues (s.run cs).heap := by
  induction cs generalizing s with
  | nil => exact .refl _
  | cons c cs ih => exact (hs.step_midway c).continues.trans (ih (hs.step c))

theorem run_append (s : State) (cs ds : List Command) : s.run (cs ++ ds) = (s.run cs).run ds :=
  List.foldl_append

end ClosureLang.Host.State
