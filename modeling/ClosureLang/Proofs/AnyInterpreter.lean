import ClosureLang.Proofs.Eval.BodyScopes

/-!
# Any interpreter may run a closure

What a call does is decided by the closure, its arguments and the heap. The interpreter that runs
it contributes the table of texts, the limit on calls and the place where lines are printed, and
nothing else: neither its program nor its scopes make a difference (`any_interpreter`).

That its scopes are not even looked at is a statement about what lies between start and end. A
body looks names up in scopes of its own call and then in those that its function has captured.
The interpreter's scopes are among them only if that function captured them. The functions in
question are the one called and those called on the way, and each has captured what it has: an
argument may well lead to a scope that the function it is passed to cannot see
(`any_interpreter_passed`).
-/

namespace ClosureLang

/-- Prints lines, one after the other. -/
def Sink.printAll (s : Sink) (lines : List String) : Sink := lines.foldl println s

theorem Sink.printAll_concat (s : Sink) (lines : List String) (line : String) :
    s.printAll (lines ++ [line]) = (s.printAll lines).println line := by
  simp [printAll]

/-- Two runs of one program in one heap that print to different places. -/
def printing (s s' : Sink) : Correspondence Throughout where
  world _ w w' := w.heap = w'.heap ∧
    ∃ lines, w.sink = s.printAll lines ∧ w'.sink = s'.printAll lines
  closure _ c d := c = d
  captured _ f g := f = g
  scope _ f g := f = g
  name m n := m = n
  code c d := c = d
  expr x y := x = y
  calls _ _ := True
  error _ e e' := e = e'
  fault f f' := f = f'

theorem printing_value_iff {s s' : Sink} {t : Throughout} {v w : Value} :
    (printing s s').value t v w ↔ v = w := Value.Match.eq_iff

theorem printing_lawful (s s' : Sink) (names : Interner) :
    (printing s s').Lawful names names where
  closure_mono _ h := h
  scope_mono _ h := h
  closure_beq h h' := by rw [show _ = _ from h, show _ = _ from h']
  closure_code h := congrArg Closure.code h
  code_match := by
    rintro c _ rfl
    exact Correspondence.codeMatch_refl (fun _ => rfl) (fun _ => rfl) (fun _ => rfl) c
  closure_captured h := congrArg Closure.frame h
  scope_captured h := h
  name_text h := by rw [show _ = _ from h]
  expr_step := by
    rintro x _ rfl
    exact Correspondence.expr_step_refl (fun _ => rfl) (fun _ => rfl) (fun _ => rfl)
      (fun _ => rfl) names x
  resolve := by
    rintro _ ⟨h, k⟩ ⟨_, k'⟩ f _ n _ ⟨rfl, hk⟩ rfl rfl
    cases h.owner? f n with
    | none => exact .none
    | some o =>
      refine .some ⟨printing_value_iff.mpr rfl, fun u v huv => ?_⟩
      obtain rfl := printing_value_iff.mp huv
      exact ⟨rfl, hk⟩
  define := by
    rintro _ ⟨h, k⟩ ⟨_, k'⟩ f _ n _ ⟨rfl, hk⟩ rfl rfl
    refine ⟨rfl, fun _ u v huv => ?_⟩
    obtain rfl := printing_value_iff.mp huv
    exact ⟨rfl, hk⟩
  child := by
    rintro _ ⟨h, k⟩ ⟨_, k'⟩ f _ ⟨rfl, hk⟩ rfl
    exact ⟨.stage, trivial, ⟨rfl, hk⟩, rfl⟩
  makeClosure := by
    rintro _ ⟨h, k⟩ ⟨_, k'⟩ f _ c _ ⟨rfl, hk⟩ rfl rfl
    exact ⟨.stage, trivial, ⟨rfl, hk⟩, rfl⟩
  println := by
    rintro _ w w' line ⟨hheap, lines, hk, hk'⟩
    exact ⟨hheap, lines ++ [line], by rw [Sink.printAll_concat, hk],
      by rw [Sink.printAll_concat, hk']⟩
  raise _ _ := rfl
  full _ := rfl
  leave {k n _ _} h := congrArg (k.enter n).attachBacktrace h
  enter n _ _ := Correspondence.enter_of_forall (fun _ _ => trivial) (fun _ => rfl) _ _ n

/-- Outside of all calls, stacks differ at most in their limit. -/
theorem CallStack.eq_of_depth {k k' : CallStack} (hk : k.depth = 0) (hk' : k'.depth = 0)
    (hmax : k.maxDepth = k'.maxDepth) : k = k' := by
  obtain ⟨frames, max⟩ := k
  obtain ⟨frames', max'⟩ := k'
  obtain rfl : frames = #[] := Array.eq_empty_of_size_eq_zero hk
  obtain rfl : frames' = #[] := Array.eq_empty_of_size_eq_zero hk'
  obtain rfl : max = max' := hmax
  rfl

/-- **A call does the same through any interpreter** that allows it as many further calls, and
prints the same lines. -/
theorem Interpreter.invoke_printing (names : Interner) {i j : Interpreter}
    (hstack : i.stack = j.stack) (h : Heap) (v : Value) (args : List Value) (s s' : Sink) :
    ∃ o h' lines, i.invoke names v args ⟨h, s⟩ = (o, i, ⟨h', s.printAll lines⟩) ∧
      j.invoke names v args ⟨h, s'⟩ = (o, j, ⟨h', s'.printAll lines⟩) := by
  have hargs : List.Forall₂ ((printing s s').value .stage) args args :=
    List.forall₂_same.mpr fun _ _ => printing_value_iff.mpr rfl
  have hw : (printing s s').world .stage ⟨h, s⟩ ⟨h, s'⟩ := ⟨rfl, [], rfl, rfl⟩
  obtain ⟨_, -, hi, hj, hout, hheap, lines, hs, hs'⟩ := (printing_lawful s s' names).invoke hw
    hstack trivial (printing_value_iff.mpr (rfl : v = v)) hargs
  generalize i.invoke names v args ⟨h, s⟩ = out at *
  generalize j.invoke names v args ⟨h, s'⟩ = out' at *
  obtain ⟨o, _, h₁, _⟩ := out
  obtain ⟨o', _, _, _⟩ := out'
  dsimp only at hi hj hheap hs hs'
  subst hi hj hheap hs hs'
  refine ⟨o, h₁, lines, rfl, ?_⟩
  cases hout with
  | value hv =>
    obtain rfl := printing_value_iff.mp hv
    rfl
  | error he =>
    obtain rfl : _ = _ := he
    rfl
  | fault hf =>
    obtain rfl : _ = _ := hf
    rfl

/-- **Any interpreter may run a closure.** From outside of all calls, two interpreters under one
table of texts and one limit give the same answer, backtraces included, leave the same heap, and
print the same lines, whatever their programs and scopes are.

What begins in between begins in the body of some function, of the one called or of one called on
the way. There the program is that function's own and the scope was made since. Scopes that were
there before, like those of the interpreter, are on the chain along which names are looked up only
if they are on the chain of the scope that that function has captured. -/
theorem any_interpreter (names : Interner) (h : Heap) (c : Closure) (args : List Value)
    (i j : Interpreter) (hi : i.callDepth = 0) (hj : j.callDepth = 0)
    (hmax : i.stack.maxDepth = j.stack.maxDepth) :
    (∀ s s' : Sink, ∃ o h' lines,
      i.invoke names (.function c) args ⟨h, s⟩ = (o, i, ⟨h', s.printAll lines⟩) ∧
      j.invoke names (.function c) args ⟨h, s'⟩ = (o, j, ⟨h', s'.printAll lines⟩)) ∧
    ∀ s calls n, let m := (Request.invoke (.function c) args).start i ⟨h, s⟩
      During names m calls n → n = m ∨ ∃ d, InBody names m d n ∧ (calls.length = 1 → d = c) ∧
        n.context.arena = d.code.arena ∧
        (h.WellFormed → (∀ v ∈ .function c :: args, v.ValidIn h) → h.size ≤ n.context.frame ∧
          ∀ f < h.size, f ∈ n.world.heap.chain n.context.frame →
            f ∈ n.world.heap.chain d.frame) := by
  constructor
  · have hstack : i.stack = j.stack := CallStack.eq_of_depth hi hj hmax
    exact fun s s' => Interpreter.invoke_printing names hstack h _ args s s'
  · intro s calls n m hn
    rcases hn.inBody_of_call rfl with rfl | ⟨d, hd, hone⟩
    · exact .inl rfl
    · refine .inr ⟨d, hd, hone, hd.arena_eq, fun hh hvalid => ?_⟩
      have hm : m.Satisfies validInvariant (h.size, h.stamps) :=
        ⟨⟨hh, rfl, rfl⟩, trivial, validInvariant_value_iff.mpr (hvalid _ (by simp)),
          fun u hu => validInvariant_value_iff.mpr (hvalid u (by simp [hu]))⟩
      have hover := hd.over_captured hm
      exact ⟨hover.old_le, fun f hf hmem => hover.chain f hmem hf⟩

/-- `function (k) { k() }`, where `k` has slot 1. -/
def caller : FunctionCode :=
  ⟨⟨#[.ident ⟨1⟩, .call 0 ⟨0, 0⟩], #[], #[⟨1⟩]⟩, ⟨none, ⟨0, 1⟩, 1⟩, none⟩

/-- `function () { print(x) }`, where `x` has slot 2. -/
def reader : FunctionCode :=
  ⟨⟨#[.ident ⟨2⟩, .print ⟨0, 1⟩], #[0], #[]⟩, ⟨none, ⟨0, 0⟩, 1⟩, none⟩

/-- Two outermost scopes, and a function over each. In the first `x` is true, the second binds
nothing. -/
def twoRoots : Heap :=
  let h := (Heap.empty.root.2.bind 0 ⟨2⟩ (.bool true)).root.2
  ((h.makeClosure reader 0).2.makeClosure caller 1).2

def overFirst : Closure := ⟨0, reader, 0⟩

def overSecond : Closure := ⟨1, caller, 1⟩

theorem wellFormed_twoRoots : twoRoots.WellFormed := by
  have htrue : (Value.bool true).ValidIn Heap.empty.root.2 := trivial
  have hfirst : (Heap.empty.root.2.bind 0 ⟨2⟩ (.bool true)).WellFormed :=
    (Heap.WellFormed.empty.newFrame (by decide)).bind htrue 0 ⟨2⟩
  exact ((hfirst.newFrame (by decide)).makeClosure reader 0).makeClosure caller 1

/-- One host keeps what is printed, and the other passes it on. -/
theorem any_interpreter_twoHosts :
    let i := Interpreter.new .empty 0 8
    let j := Interpreter.new caller.arena 1 8
    let args : List Value := [.function overFirst]
    let m := (Request.invoke (.function overSecond) args).start i ⟨twoRoots, .buffer ""⟩
    (∃ o h lines,
      i.invoke .empty (.function overSecond) args ⟨twoRoots, .buffer ""⟩ =
        (o, i, ⟨h, (Sink.buffer "").printAll lines⟩) ∧
      j.invoke .empty (.function overSecond) args ⟨twoRoots, .stdout "so far\n"⟩ =
        (o, j, ⟨h, (Sink.stdout "so far\n").printAll lines⟩)) ∧
    ∀ calls n, During .empty m calls n → n = m ∨ ∃ d, InBody .empty m d n ∧
      (calls.length = 1 → d = overSecond) ∧
      ∀ f < 2, f ∈ n.world.heap.chain n.context.frame → f ∈ n.world.heap.chain d.frame := by
  intro i j args m
  have hvalid : ∀ v ∈ .function overSecond :: args, v.ValidIn twoRoots := by
    intro v hv
    rcases List.mem_cons.mp hv with rfl | hv
    · exact ⟨by decide, by decide⟩
    · obtain rfl := List.mem_singleton.mp hv
      exact ⟨by decide, by decide⟩
  obtain ⟨hsame, hbodies⟩ := any_interpreter .empty twoRoots overSecond args i j rfl rfl rfl
  refine ⟨hsame (.buffer "") (.stdout "so far\n"), fun calls n hn => ?_⟩
  rcases hbodies (.buffer "") calls n hn with h | ⟨d, hd, hone, -, hscope⟩
  · exact .inl h
  · exact .inr ⟨d, hd, hone, (hscope wellFormed_twoRoots hvalid).2⟩

/-- An argument that has captured the interpreter's outermost scope is called by a closure that
has not, and looks its name up there. -/
theorem any_interpreter_passed :
    let i := Interpreter.new .empty 0 8
    let r := Request.invoke (.function overSecond) [.function overFirst]
    let w : World := ⟨twoRoots, .buffer ""⟩
    i.callDepth = 0 ∧ w.heap.WellFormed ∧ i.globalFrame ∉ w.heap.chain overSecond.frame ∧
    (r.perform .empty i w).2.2.sink = .buffer "true\n" ∧
    ∃ calls n l x, During .empty (r.start i w) calls n ∧ n.task = .expr l 0 ∧
      n.context.arena.node? 0 = some (.ident x) ∧
      n.world.heap.owner? n.context.frame x = some i.globalFrame := by
  intro i r w
  let k₁ := i.stack.enter ⟨none⟩
  let c₁ : Context := ⟨caller.arena, 2, k₁⟩
  let w₁ : World := ⟨twoRoots.childWith 1 ⟨1⟩ (.function overFirst), .buffer ""⟩
  let c₂ : Context := ⟨reader.arena, 3, k₁.enter ⟨none⟩⟩
  let w₂ : World := ⟨(w₁.heap.child 0).2, .buffer ""⟩
  have houter : Begins .empty (r.start i w) _ ⟨7, .body 1, c₁, w₁⟩ := .body rfl (by decide)
  have hcall : Begins .empty ⟨7, .body 1, c₁, w₁⟩ _ ⟨7, .expr 2 1, c₁, w₁⟩ :=
    @Begins.inBody .empty 7 1 2 c₁ w₁ w₁ [] [] 1 [] rfl rfl
  have hpassed : Begins .empty ⟨7, .expr 2 1, c₁, w₁⟩ _
      ⟨7, .call (.function overFirst) [], c₁, w₁⟩ := .call rfl rfl rfl
  have hinner : Begins .empty ⟨7, .call (.function overFirst) [], c₁, w₁⟩ _
      ⟨6, .body 1, c₂, w₂⟩ := .body rfl (by decide)
  have hprint : Begins .empty ⟨6, .body 1, c₂, w₂⟩ _ ⟨6, .expr 2 1, c₂, w₂⟩ :=
    @Begins.inBody .empty 6 1 2 c₂ w₂ w₂ [] [] 1 [] rfl rfl
  have hname : Begins .empty ⟨6, .expr 2 1, c₂, w₂⟩ _ ⟨6, .expr 1 0, c₂, w₂⟩ :=
    @Begins.operand .empty 6 1 1 c₂ w₂ w₂ (.print ⟨0, 1⟩) [] [] 0 [] rfl rfl rfl
  have hreads : w₂.heap.owner? 3 ⟨2⟩ = some 0 := by decide
  exact ⟨rfl, wellFormed_twoRoots, by decide, by decide, _, _, 1, ⟨2⟩,
    .later houter (.later hcall (.later hpassed (.later hinner (.later hprint
      (.later hname (.here ⟨6, .expr 1 0, c₂, w₂⟩)))))), rfl, rfl, hreads⟩

end ClosureLang
