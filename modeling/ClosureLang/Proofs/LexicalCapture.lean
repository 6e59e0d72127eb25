import ClosureLang.Proofs.Eval.Makes
import ClosureLang.Proofs.Eval.Occurrences
import ClosureLang.Proofs.FrameTrees

/-!
# Functions capture the scopes in which they are written

A function captures the scope that is current when its literal is evaluated, and which one that is
can be read off the program. Each block around the literal is one frame, and outside of them lies
the frame of the call, or the frame in which a host has begun (`Visits.outward`). A body that is a
block is no exception to the rule that a block around a literal is a frame: that frame is the one
of the call. What has been called in between, and how that has ended, makes no difference, since
nothing is asked about it.

No function comes into being otherwise. Whatever function a host finds when a run has ended, as the
outcome or bound in a frame, was there before or comes of a literal that the run has evaluated, and
then the frames around the one that it has captured are those of the text around the literal, in
the heap that the run has left (`Request.Finds.lexical`).
-/

namespace ClosureLang

namespace Heap

variable {h h' : Heap} {f g : FrameId}

/-- Frames that are there stay where they are, so the same steps lead to the same frame. -/
theorem outward_of_parent (hp : ∀ f < h.size, h'.parent? f = h.parent? f) (k : Nat)
    (ho : h.outward k f = some g) : h'.outward k f = some g := by
  induction k generalizing f with
  | zero => exact ho
  | succ k ih =>
    obtain ⟨p, hparent, ho⟩ := Option.bind_eq_some_iff.mp ho
    have hf : f < h.size := Nat.lt_of_not_le fun hle => by
      rw [parent?_eq_none_of_size_le hle] at hparent
      cases hparent
    rw [outward, hp f hf, hparent]
    exact ih ho

/-- Steps outwards lead to frames that are there, and each is one of depth. -/
theorem Sound.depth_of_outward (hs : h.Sound) (hf : f < h.size) {k : Nat}
    (ho : h.outward k f = some g) : g < h.size ∧ h.depth f = h.depth g + k := by
  induction k generalizing f with
  | zero =>
    obtain rfl := Option.some.inj ho
    exact ⟨hf, rfl⟩
  | succ k ih =>
    obtain ⟨p, hp, ho⟩ := Option.bind_eq_some_iff.mp ho
    obtain ⟨hg, hdepth⟩ := ih (Nat.lt_trans (hs.nested f p hp) hf) ho
    refine ⟨hg, ?_⟩
    rw [hs.depth_eq f hf, hp, Option.elim, hdepth]
    omega

end Heap

/-- **`f` captured what is written around it**: it was made from a literal that occurs in `root`,
enclosed by the expressions `above`, and from its frame one gets to `k` in as many steps outwards
as there are blocks among these. -/
structure CapturedIn (h : Heap) (a : Arena) (root : ExprId) (above : List ExprId) (k : FrameId)
    (f : Closure) : Prop where
  literal : ∃ lit, Occurs a root above lit ∧ a.node? lit = some (.function f.code.definition)
  outward : h.outward (a.blocks above) f.frame = some k
  depth : h.depth f.frame = h.depth k + a.blocks above

/-- It has captured it in every heap that comes after as well. -/
theorem CapturedIn.grown {h h' : Heap} {a : Arena} {root : ExprId} {above : List ExprId}
    {k : FrameId} {f : Closure} (hc : CapturedIn h a root above k f) (hg : h.GrownTo h')
    (hs : h'.Sound) (hf : f.frame < h.size) : CapturedIn h' a root above k f := by
  have houtward := Heap.outward_of_parent hg.parent _ hc.outward
  exact ⟨hc.literal, houtward, (hs.depth_of_outward (Nat.lt_of_lt_of_le hf hg.size_le) houtward).2⟩

variable {names : Interner} {m n s : Moment} {above : List ExprId} {l : Nat} {root : ExprId}
  {f : Closure} {h : Heap}

namespace Visits

/-- **As many blocks as there are around an expression, so many frames further in is its scope.** -/
theorem outward (h : Visits names m above n) :
    n.world.heap.outward (m.context.arena.blocks above) n.context.frame = some m.context.frame := by
  induction h with
  | here => rfl
  | @inner above n o l i h hn hb ih =>
    have hkept := Heap.outward_of_parent hb.grown.parent _ ih
    rcases hb.scope_of_expr hn with ⟨hblock, hnew⟩ | ⟨hblock, hframe⟩
    · rw [h.arena_eq] at hblock
      rw [Arena.blocks_cons_of_block hblock, Heap.outward, hnew.parent]
      exact hkept
    · rw [h.arena_eq] at hblock
      rw [Arena.blocks_cons_of_not_block hblock, hframe]
      exact hkept

/-- So the function that a literal is evaluated to captures what is written around the literal. -/
theorem capturedIn (hv : Visits names m above n) (hm : m.task = .expr l root)
    (hf : n.made? names = some f) (hs : n.world.heap.Sound)
    (hlt : n.context.frame < n.world.heap.size) (hc : n.world.heap.Continues h) :
    CapturedIn h m.context.arena root above m.context.frame f := by
  obtain ⟨d, ⟨l', lit, htask, hn⟩, rfl⟩ := Moment.exists_literal hf
  rw [hv.arena_eq] at hn
  obtain ⟨hk, hdepth⟩ := hs.depth_of_outward hlt hv.outward
  refine ⟨⟨lit, hv.occurs hm htask, hn⟩, Heap.outward_of_parent hc.parent _ hv.outward, ?_⟩
  exact (hc.depth _ hlt).trans (hdepth.trans (congrArg (· + _) (hc.depth _ hk).symm))

end Visits

namespace Request

/-- The frame and the values that a request starts with are such as there are. -/
def ValidIn (i : Interpreter) (h : Heap) : Request → Prop
  | eval _ => i.frame < h.size
  | invoke callee args => ∀ v ∈ callee :: args, v.ValidIn h

variable {r : Request} {i : Interpreter} {w : World} {calls : List String}

theorem satisfies_changes (hr : r.ValidIn i w.heap) :
    (r.start i w).Satisfies (changesInvariant w.heap) (w.heap.size, w.heap.stamps) := by
  cases r with
  | eval root => exact ⟨⟨.refl, rfl, rfl⟩, trivial, hr, trivial⟩
  | invoke callee args =>
    have hvalue : ∀ v ∈ callee :: args, (changesInvariant w.heap).value
        (w.heap.size, w.heap.stamps) v := fun v hv => changesInvariant_value_iff.mpr (hr v hv)
    exact ⟨⟨.refl, rfl, rfl⟩, trivial, hvalue callee List.mem_cons_self,
      fun v hv => hvalue v (List.mem_cons_of_mem _ hv)⟩

/-- At every moment of a run the heap is sound, and the scope of what is evaluated is there. -/
theorem sound_during (hs : w.heap.Sound) (hr : r.ValidIn i w.heap)
    (hn : During names (r.start i w) calls n) : n.world.heap.Sound ∧
      ∀ l j, n.task = .expr l j → n.context.frame < n.world.heap.size := by
  have L := changesInvariant_lawful hs names
  obtain ⟨t, -, hsat⟩ := hn.satisfies L (satisfies_changes hr)
  refine ⟨hsat.world.1.sound hs, fun l j htask => ?_⟩
  have hscope := hsat.task
  rw [htask] at hscope
  exact hsat.world.2.1 ▸ hscope.1

theorem sound_after (hs : w.heap.Sound) (hr : r.ValidIn i w.heap) :
    ((r.start i w).after names).heap.Sound := by
  obtain ⟨_, _, _, -, hrun, hworld, -⟩ :=
    (satisfies_changes hr).ends (changesInvariant_lawful hs names)
  rw [Moment.after_eq hrun]
  exact hworld.1.sound hs

/-- What is made in an activation of `c` captures what is written around it in a statement of the
body, and outside of that the frame of the call. -/
theorem capturedIn_body {c : Closure} {vs : List Value} {b : Moment} (hs : w.heap.Sound)
    (hr : r.ValidIn i w.heap) (hm : During names (r.start i w) calls m)
    (htask : m.task = .call (.function c) vs) (hb : Begins names m [c.displayName] b)
    (hstmt : Begins names b [] s) (hv : Visits names s above n) (hf : n.made? names = some f)
    (hc : n.world.heap.Continues h) :
    ∃ l ids root, c.code.arena.statements? c.code.body = some (l, ids) ∧ root ∈ ids ∧
      s.task = .expr l root ∧ CapturedIn h c.code.arena root above b.context.frame f ∧
      h.depth f.frame = h.depth c.frame + 1 + c.code.arena.blocks above := by
  obtain ⟨harena, hnew⟩ := hb.enters htask
  have hn : During names b [] n := .later hstmt hv.during
  obtain ⟨d, ⟨l, lit, hliteral, -⟩, -⟩ := Moment.exists_literal hf
  obtain ⟨hsound, hscope⟩ := sound_during hs hr (hm.trans (.later hb hn))
  obtain ⟨hcontext, l', ids, root, hids, hroot, hs'⟩ :=
    hstmt.statement_of_body (hb.task_of_call htask)
  have hcaptured := hv.capturedIn hs' hf hsound (hscope _ lit hliteral) hc
  rw [hcontext, harena] at hcaptured
  rw [harena] at hids
  refine ⟨l', ids, root, hids, hroot, hs', hcaptured, ?_⟩
  -- The frame of the call is one further in than the one that was captured.
  have hkept := hn.grown
  have hlt := Nat.lt_of_lt_of_le hnew.lt_size hkept.size_le
  have hparent := (hkept.parent _ hnew.lt_size).trans hnew.parent
  have hdepth : n.world.heap.depth b.context.frame = n.world.heap.depth c.frame + 1 := by
    rw [hsound.depth_eq _ hlt, hparent, Option.elim]
  rw [hcaptured.depth, hc.depth _ hlt, hdepth,
    hc.depth _ (Nat.lt_trans (hsound.nested _ _ hparent) hlt)]

/-- What is made in the activation in which a host evaluates an expression captures what is written
around it, and outside of that the frame of the host. -/
theorem capturedIn_root (hs : w.heap.Sound) (hr : (eval root).ValidIn i w.heap)
    (hv : Visits names ((eval root).start i w) above n) (hf : n.made? names = some f)
    (hc : n.world.heap.Continues h) : CapturedIn h i.arena root above i.frame f := by
  obtain ⟨d, ⟨l, lit, hliteral, -⟩, -⟩ := Moment.exists_literal hf
  obtain ⟨hsound, hscope⟩ := sound_during hs hr hv.during
  exact hv.capturedIn rfl hf hsound (hscope _ lit hliteral) hc

end Request

/-- **Closures capture the lexical frame chain.** Let the body of `c` be entered with the call
frame `k`, at any depth of a run: `k` is new and lies in the frame that `c` captured. Every function
that a literal is evaluated to in that activation comes from an occurrence of the literal in a
statement of the body, and if that lies under `j` blocks, then the `j`-th frame outwards from the
captured one is `k`, for good. Likewise with the frame in which a host evaluates an expression, and
the blocks under which the literal lies in the expression. -/
theorem closures_capture_lexical_frames (names : Interner) {r : Request} {i : Interpreter}
    {w : World} (hs : w.heap.Sound) (hr : r.ValidIn i w.heap) :
    (∀ calls m c vs b, During names (r.start i w) calls m → m.task = .call (.function c) vs →
      Begins names m [c.displayName] b →
      m.world.heap.size ≤ b.context.frame ∧
      b.world.heap.parent? b.context.frame = some c.frame ∧
      ∀ n f, During names b [] n → n.made? names = some f →
        (∃ s above, Begins names b [] s ∧ Visits names s above n) ∧
        ∀ s above h, Begins names b [] s → Visits names s above n → n.world.heap.Continues h →
          ∃ l ids root, c.code.arena.statements? c.code.body = some (l, ids) ∧ root ∈ ids ∧
            s.task = .expr l root ∧
            CapturedIn h c.code.arena root above b.context.frame f ∧
            h.depth f.frame = h.depth c.frame + 1 + c.code.arena.blocks above) ∧
    ∀ root n f, r = .eval root → During names (r.start i w) [] n → n.made? names = some f →
      (∃ above, Visits names (r.start i w) above n) ∧
      ∀ above h, Visits names (r.start i w) above n → n.world.heap.Continues h →
        CapturedIn h i.arena root above i.frame f := by
  constructor
  · intro calls m c vs b hm htask hb
    obtain ⟨-, hnew⟩ := hb.enters htask
    refine ⟨hnew.size_le, hnew.parent, fun n f hn hf => ?_⟩
    obtain ⟨d, ⟨l, lit, hliteral, -⟩, -⟩ := Moment.exists_literal hf
    exact ⟨hn.visits_statement rfl (hb.task_of_call htask) hliteral,
      fun s above h hstmt hv hc => Request.capturedIn_body hs hr hm htask hb hstmt hv hf hc⟩
  · rintro root n f rfl hn hf
    exact ⟨hn.visits rfl rfl, fun above h hv hc => Request.capturedIn_root hs hr hv hf hc⟩

/-- `function() { { function() { } } }`; the block inside of the body is at the position 2. -/
def nested : FunctionCode :=
  ⟨⟨#[.void, .function ⟨none, ⟨0, 0⟩, 0⟩, .block ⟨0, 1⟩, .block ⟨1, 1⟩], #[1, 2], #[]⟩,
    ⟨none, ⟨0, 0⟩, 3⟩, none⟩

/-- The inner function captures a frame inside the frame of the call, which lies inside the one
that the outer function captured. -/
theorem closures_capture_lexical_frames_nested :
    let c : Closure := ⟨0, nested, 0⟩
    let i := Interpreter.new .empty 0 8
    let w : World := ⟨(Heap.empty.root.2.makeClosure nested 0).2, .silent⟩
    let r := Request.invoke (.function c) []
    w.heap.Sound ∧ r.ValidIn i w.heap ∧ ∃ b n f,
      Begins .empty (r.start i w) [c.displayName] b ∧ During .empty b [] n ∧
      n.made? .empty = some f ∧ n.world.heap.outward 1 f.frame = some b.context.frame ∧
      n.world.heap.depth f.frame = n.world.heap.depth c.frame + 2 := by
  intro c i w r
  have hbecomes : Heap.empty.Becomes w.heap :=
    .tail (.single (.newFrame none (by simp))) (.makeClosure nested 0)
  have hs : w.heap.Sound := hbecomes.sound .empty
  have hr : r.ValidIn i w.heap := by
    intro v hv
    obtain rfl := List.mem_singleton.mp hv
    exact ⟨by decide, by decide⟩
  -- The body, its only statement, and the literal.
  let k : Context := ⟨nested.arena, 1, i.stack.enter ⟨none⟩⟩
  let b : Moment := ⟨7, .body 3, k, { w with heap := w.heap.withCallFrame 0 [] [] }⟩
  let s : Moment := ⟨7, .expr 3 2, k, b.world⟩
  let n : Moment := ⟨7, .expr 2 1, k.inFrame 2, { w with heap := (b.world.heap.child 1).2 }⟩
  have hact : Eval.activate .empty c [] (i.context.machine w) = _ :=
    Eval.activate_admitted (show nested.params? = some [] from rfl) rfl List.nodup_nil
  have hbody : Begins .empty (r.start i w) [c.displayName] b := .body hact (by decide)
  have hids : k.arena.statements? 3 = some (3, [] ++ 2 :: []) := rfl
  have hstmt : Begins .empty b [] s := .inBody hids rfl
  have hblock : k.arena.list? ⟨0, 1⟩ = some ([] ++ 1 :: []) := rfl
  have hlit : Begins .empty s [] n := .statement rfl hblock rfl
  have hmade : n.made? .empty = some _ := Moment.made?_literal rfl
  have hn : During .empty b [] n := .later hstmt (.later hlit (.here n))
  obtain ⟨-, -, hcaptures⟩ :=
    (closures_capture_lexical_frames .empty hs hr).1 _ _ c [] b (.here _) rfl hbody
  obtain ⟨_, _, _, -, -, -, hcaptured, hdepth⟩ := (hcaptures n _ hn hmade).2 s [2] _ hstmt
    (.inner .here rfl hlit) (.refl _)
  exact ⟨hs, hr, b, n, _, hbody, hn, hmade, hcaptured.outward, hdepth⟩

/-! ## The functions that are found after a run -/

/-- **`f` comes of a literal that is evaluated in the course of `m`**, in the activation with which
`m` begins or in that of a function which is called, and by `h` it has captured what is written
around the literal there. -/
inductive Lexical (names : Interner) (m : Moment) (h : Heap) (f : Closure) : Prop
  | atRoot {l : Nat} {root : ExprId} {above : List ExprId} {n : Moment}
      (hm : m.task = .expr l root) (hv : Visits names m above n) (hf : n.made? names = some f)
      (hc : CapturedIn h m.context.arena root above m.context.frame f)
  | inBody {calls : List String} {k b s n : Moment} {c : Closure} {vs : List Value} {l : Nat}
      {ids above : List ExprId} {root : ExprId} (hk : During names m calls k)
      (htask : k.task = .call (.function c) vs) (hb : Begins names k [c.displayName] b)
      (hids : c.code.arena.statements? c.code.body = some (l, ids)) (hroot : root ∈ ids)
      (hs : Begins names b [] s) (hstmt : s.task = .expr l root) (hv : Visits names s above n)
      (hf : n.made? names = some f) (hparent : h.parent? b.context.frame = some c.frame)
      (hc : CapturedIn h c.code.arena root above b.context.frame f)

namespace Request

/-- A host finds the function when the run has ended: as its outcome, or bound in a frame. -/
inductive Finds (names : Interner) (r : Request) (i : Interpreter) (w : World) (f : Closure) : Prop
  | outcome (h : (r.perform names i w).1 = .value (.function f))
  | bound {g : FrameId} {n : Name}
      (h : (r.perform names i w).2.2.heap.local? g n = some (.function f))

namespace Finds

variable {r : Request} {i : Interpreter} {w : World} {fs : List Closure}

/-- It was there before, or it was made in the course of the run. -/
theorem mem (h : r.Finds names i w f) (hfs : (r.start i w).Given fs) :
    f ∈ fs ++ (r.start i w).makes names := by
  have hend := ((r.start i w).accounts names fs hfs).2
  rw [Moment.eval_machine] at hend
  cases h with
  | bound h =>
    rw [perform_start] at h
    exact hend.heap.bound _ _ _ h f rfl
  | outcome h =>
    have hends := hend.ends
    rw [perform_start] at h
    cases hr : (r.start i w).result names with
    | ok v =>
      rw [hr] at h hends
      cases h
      exact hends f rfl
    | error u =>
      rw [hr] at h hends
      cases u with
      | ret v =>
        cases h
        exact hends f rfl
      | error e => cases h
      | fault e => cases h

/-- **Whatever function is found after a run was there before, or it comes of a literal that the run
has evaluated and has captured the scopes in which that is written.** -/
theorem lexical (h : r.Finds names i w f) (hs : w.heap.Sound) (hr : r.ValidIn i w.heap)
    (hfs : (r.start i w).Given fs) :
    f ∈ fs ∨ Lexical names (r.start i w) (r.perform names i w).2.2.heap f := by
  rcases List.mem_append.mp (h.mem hfs) with hmem | hmem
  · exact .inl hmem
  right
  obtain ⟨calls, n, hn, hf⟩ := Moment.mem_collect.mp hmem
  obtain ⟨d, ⟨l, lit, htask, -⟩, hmade⟩ := Moment.exists_literal hf
  have hlt : f.frame < n.world.heap.size := by
    rw [hmade]
    exact (sound_during hs hr hn).2 _ lit htask
  -- The frame that it captured, and those around it, are still there.
  have hgrown : n.world.heap.GrownTo ((r.start i w).after names).heap :=
    (n.grown names).trans hn.grown_end
  have hafter : ((r.start i w).after names).heap.Sound := sound_after hs hr
  rw [perform_start]
  by_cases hcalls : calls = []
  · cases r with
    | eval root =>
      obtain ⟨above, hv⟩ := hn.visits hcalls rfl
      exact .atRoot rfl hv hf ((capturedIn_root hs hr hv hf (.refl _)).grown hgrown hafter hlt)
    | invoke callee args =>
      obtain rfl := hn.eq_of_call hcalls rfl
      cases htask
  · obtain ⟨c, k, b, vs, _, hk, hcall, hb, hwithin⟩ := hn.inBody hcalls
    obtain ⟨s, above, hbegins, hv⟩ := hwithin.visits_statement rfl (hb.task_of_call hcall) htask
    obtain ⟨_, ids, root, hids, hroot, hstmt, hc, -⟩ :=
      capturedIn_body hs hr hk hcall hb hbegins hv hf (.refl _)
    obtain ⟨-, hnew⟩ := hb.enters hcall
    have hparent := ((hwithin.grown.trans hgrown).parent _ hnew.lt_size).trans hnew.parent
    exact .inBody hk hcall hb hids hroot hbegins hstmt hv hf hparent
      (hc.grown hgrown hafter hlt)

end Finds
end Request
end ClosureLang
