import ClosureLang.Proofs.Host.Runs
import Mathlib.Data.Set.Card

/-!
# Frames form trees

However a heap came about, the frame around a frame is older than it. So frames form trees, in
which the depth that a frame notes down is the number of frames that enclose it, and the loops by
which `get` and `update` go outwards look at no more frames than that, and the frame itself.
Function values do not matter for this: the frames that they captured may lead back to where they
are bound, and in the graph of all links there may be circles.
-/

namespace ClosureLang
namespace Heap

variable {h h' : Heap} {f p : FrameId} {n : Name} {α : Type}

/-! ## Going outwards -/

/-- Where so many steps outwards lead. -/
def outward (h : Heap) : Nat → FrameId → Option FrameId
  | 0, f => some f
  | k + 1, f => h.parent? f >>= h.outward k

/-- A frame around `f`, or around one that is, and so on. -/
def Enclosing (h : Heap) (f g : FrameId) : Prop :=
  Relation.TransGen (fun f p => h.parent? f = some p) f g

/-- The loop of `get` and `update`: from frame to frame outwards, up to the first that binds the
name. With so many looks it may not have ended, and then there is no result. -/
def search (h : Heap) (n : Name) (found : FrameId → α) (missing : α) : Nat → FrameId → Option α
  | 0, _ => none
  | looks + 1, f =>
    if h.binds f n then some (found f)
    else
      match h.parent? f with
      | some p => h.search n found missing looks p
      | none => some missing

/-- `get` with so many looks. -/
def getWithin (looks : Nat) (h : Heap) (f : FrameId) (n : Name) :
    Option (Except BindingError Value) :=
  h.search n (fun g => .ok (h.valueAt g n)) (.error (.unbound n)) looks f

/-- `update` with so many looks. -/
def updateWithin {ε : Type} (looks : Nat) (f : FrameId) (n : Name)
    (change : Value → Except ε Value) (h : Heap) :
    Option (Except BindingError (Except ε Value) × Heap) :=
  h.search n
    (fun g =>
      match change (h.valueAt g n) with
      | .error e => (.ok (.error e), h)
      | .ok v => (.ok (.ok v), h.overwrite g n v))
    (.error (.unbound n), h) looks f

/-! ## Trees -/

/-- The frames of a heap form trees, of the depths noted down, and loops along them end. -/
structure FrameTrees (h : Heap) : Prop where
  parent_older : ∀ f p, h.parent? f = some p → p < f
  acyclic : ∀ f, ¬ h.Enclosing f f
  ends : ∀ f < h.size, ∃ o < h.size, h.outward (h.depth f) f = some o ∧ h.parent? o = none
  ancestors : ∀ f < h.size, {g | h.Enclosing f g}.encard = h.depth f
  names_once : ∀ f fr, h.frame? f = some fr → (fr.bindings.map Prod.fst).Nodup
  get_ends : ∀ f < h.size, ∀ n, h.getWithin (h.depth f + 1) f n = some (h.get f n)
  update_ends : ∀ f < h.size, ∀ {ε : Type} n (change : Value → Except ε Value),
    h.updateWithin (h.depth f + 1) f n change = some (h.update f n change)

namespace Sound

theorem enclosing_lt (hs : h.Sound) (hg : h.Enclosing f p) : p < f := by
  induction hg with
  | single hp => exact hs.nested _ _ hp
  | tail _ hp ih => exact Nat.lt_trans (hs.nested _ _ hp) ih

/-- The depth of a frame by that of the frame around it. -/
theorem depth_cases (hs : h.Sound) (hf : f < h.size) :
    (h.parent? f = none ∧ h.depth f = 0) ∨
      ∃ p < f, p < h.size ∧ h.parent? f = some p ∧ h.depth f = h.depth p + 1 := by
  have hdepth := hs.depth_eq f hf
  cases hp : h.parent? f with
  | none => exact .inl ⟨rfl, by rw [hdepth, hp]; rfl⟩
  | some p =>
    have hpf : p < f := hs.nested f p hp
    exact .inr ⟨p, hpf, Nat.lt_trans hpf hf, rfl, by rw [hdepth, hp]; rfl⟩

theorem exists_outermost (hs : h.Sound) (hf : f < h.size) :
    ∃ o < h.size, h.outward (h.depth f) f = some o ∧ h.parent? o = none := by
  induction f using Nat.strong_induction_on with
  | _ f ih =>
    rcases hs.depth_cases hf with ⟨hp, hd⟩ | ⟨p, hpf, hps, hp, hd⟩
    · exact ⟨f, hf, by rw [hd]; rfl, hp⟩
    · obtain ⟨o, ho, hout, hnone⟩ := ih p hpf hps
      refine ⟨o, ho, ?_, hnone⟩
      rw [hd, outward, hp]
      exact hout

theorem enclosing_iff (hp : h.parent? f = some p) (g : FrameId) :
    h.Enclosing f g ↔ g = p ∨ h.Enclosing p g := by
  constructor
  · intro hg
    obtain ⟨q, hq, hqg⟩ := Relation.TransGen.head'_iff.mp hg
    obtain rfl : p = q := Option.some.inj (hp.symm.trans hq)
    exact Relation.reflTransGen_iff_eq_or_transGen.mp hqg
  · rintro (rfl | hg)
    · exact .single hp
    · exact .head hp hg

theorem encard_enclosing (hs : h.Sound) (hf : f < h.size) :
    {g | h.Enclosing f g}.encard = h.depth f := by
  induction f using Nat.strong_induction_on with
  | _ f ih =>
    rcases hs.depth_cases hf with ⟨hp, hd⟩ | ⟨p, hpf, hps, hp, hd⟩
    · have hempty : {g | h.Enclosing f g} = ∅ := by
        refine Set.eq_empty_of_forall_notMem fun g hg => ?_
        obtain ⟨q, hq, -⟩ := Relation.TransGen.head'_iff.mp hg
        rw [hp] at hq
        cases hq
      rw [hempty, hd, Set.encard_empty]
      rfl
    · have hinsert : {g | h.Enclosing f g} = insert p {g | h.Enclosing p g} :=
        Set.ext (enclosing_iff hp)
      have hnot : p ∉ {g | h.Enclosing p g} := fun hg => Nat.lt_irrefl p (hs.enclosing_lt hg)
      rw [hinsert, Set.encard_insert_of_notMem hnot, ih p hpf hps, hd]
      rfl

/-- A search ends within as many looks as there are frames on the way. -/
theorem search_eq (hs : h.Sound) (n : Name) (found : FrameId → α) (missing : α)
    (hf : f < h.size) :
    h.search n found missing (h.depth f + 1) f = some ((h.owner? f n).elim missing found) := by
  induction f using Nat.strong_induction_on with
  | _ f ih =>
    rw [search, owner?_eq hs.nested.grounded]
    split
    · rfl
    · rcases hs.depth_cases hf with ⟨hp, -⟩ | ⟨p, hpf, hps, hp, hd⟩
      · rw [hp]
        rfl
      · rw [hp, hd]
        exact ih p hpf hps

theorem frameTrees (hs : h.Sound) : h.FrameTrees where
  parent_older := hs.nested
  acyclic f hf := Nat.lt_irrefl f (hs.enclosing_lt hf)
  ends _ hf := hs.exists_outermost hf
  ancestors _ hf := hs.encard_enclosing hf
  names_once := hs.distinct
  get_ends f hf n := by
    rw [getWithin, hs.search_eq _ _ _ hf, get]
    cases h.owner? f n <;> rfl
  update_ends f hf _ n change := by
    rw [updateWithin, hs.search_eq _ _ _ hf, update]
    cases h.owner? f n <;> rfl

end Sound

/-! ## Whatever is done to a heap -/

/-- **What can be done to a heap**: each operation on frames and function values, and what an
interpreter, any at all, makes of a request. Frames and values given to it are such as the heap
has given out. Reading a variable leaves the heap alone and is not listed. -/
inductive Operation (h : Heap) : Heap → Prop
  | root : Operation h h.root.2
  | child {f : FrameId} (hf : f < h.size) : Operation h (h.child f).2
  | define {f : FrameId} {n : Name} {v : Value} (hf : f < h.size) (hv : v.ValidIn h) :
      Operation h (Heap.define f n v h).2
  | set {f : FrameId} {n : Name} {v : Value} (hf : f < h.size) (hv : v.ValidIn h) :
      Operation h (Heap.set f n v h).2
  | update {ε : Type} {f : FrameId} {n : Name} {change : Value → Except ε Value} (hf : f < h.size)
      (hchange : ∀ u v, u.ValidIn h → change u = .ok v → v.ValidIn h) :
      Operation h (Heap.update f n change h).2
  | makeClosure (code : FunctionCode) {f : FrameId} (hf : f < h.size) :
      Operation h (h.makeClosure code f).2
  | activate (names : Interner) {c : Closure} {params : List Name} {args : List Value}
      (hvs : ∀ v ∈ .function c :: args, v.ValidIn h) (hparams : c.code.params? = some params) :
      Operation h (c.activate names params args h).2
  | eval (names : Interner) {i : Interpreter} (sink : Sink) (root : ExprId)
      (hf : i.frame < h.size) : Operation h (i.eval names root ⟨h, sink⟩).2.2.heap
  | evalIn (names : Interner) (i : Interpreter) (sink : Sink) (root : ExprId) {f : FrameId}
      (hf : f < h.size) :
      Operation h (Interpreter.withFrame f (Interpreter.eval names root) i ⟨h, sink⟩).2.2.heap
  | invoke (names : Interner) (i : Interpreter) (sink : Sink) {callee : Value} {args : List Value}
      (hvs : ∀ v ∈ callee :: args, v.ValidIn h) :
      Operation h (i.invoke names callee args ⟨h, sink⟩).2.2.heap

/-- Any number of operations, one after the other. -/
def Operated : Heap → Heap → Prop := Relation.ReflTransGen Operation

theorem Operation.becomes (ho : Operation h h') (hs : h.Sound) : h.Becomes h' := by
  cases ho with
  | root => exact .single (.newFrame none (by simp))
  | child hf => exact .single (.newFrame (some _) (by simpa using hf))
  | define hf hv => exact .define hf hv
  | set hf hv => exact .set hv
  | update hf hchange => exact .update hs.toWellFormed hchange
  | makeClosure code hf => exact .single (.makeClosure code _)
  | activate names hvs hparams => exact Closure.activate_becomes hs names hvs hparams
  | eval names sink root hf =>
    exact (Interpreter.eval_yields (w := ⟨h, sink⟩) hs hf names root).becomes
  | evalIn names i sink root hf =>
    exact (Interpreter.eval_yields (i := { i with frame := _ }) (w := ⟨h, sink⟩) hs hf names
      root).becomes
  | invoke names i sink hvs =>
    exact (Interpreter.invoke_yields (w := ⟨h, sink⟩) hs names hvs).becomes

theorem Operated.becomes (ho : h.Operated h') (hs : h.Sound) : h.Becomes h' := by
  induction ho with
  | refl => exact .refl
  | tail _ hstep ih => exact ih.trans (hstep.becomes (ih.sound hs))

/-- **Frames form trees and keep their places in them.** This holds of every heap that comes about
by operations, whatever programs are run and however they end, and of every later one: a frame
that is there stays where it is, and binds what it bound. A host's heap is no exception, whatever
the host is told. -/
theorem frames_form_trees :
    (∀ h h', Heap.empty.Operated h → h.Operated h' → h.FrameTrees ∧ h.Continues h') ∧
      ∀ cs ds : List Host.Command, (Host.State.start.run cs).heap.FrameTrees ∧
        (Host.State.start.run cs).heap.Continues (Host.State.start.run (cs ++ ds)).heap := by
  refine ⟨fun h h' hmade hlater => ?_, fun cs ds => ?_⟩
  · have hs : h.Sound := (hmade.becomes .empty).sound .empty
    exact ⟨hs.frameTrees, (hlater.becomes hs).continues⟩
  · have hs := Host.State.balanced_start.run cs
    rw [Host.State.run_append]
    exact ⟨hs.coherent.heap.frameTrees, hs.run_continues ds⟩

/-- A function that does nothing, in a program of its own. -/
def idle : FunctionCode := ⟨⟨#[.void], #[], #[]⟩, ⟨none, ⟨0, 0⟩, 0⟩, none⟩

/-- One frame, which binds a function that captured it. -/
def circular : Heap :=
  (Heap.define 0 ⟨1⟩ (.function ⟨0, idle, 0⟩) (Heap.empty.root.2.makeClosure idle 0).2).2

/-- The frame holds itself and is nevertheless a tree, and so it stays when the function is
called, which adds a frame inside it. -/
theorem frames_form_trees_circular :
    Heap.empty.Operated circular ∧ 0 ∈ circular.links 0 ∧ circular.FrameTrees ∧
      circular.Continues ((Interpreter.new idle.arena 0 7).invoke .empty
        (.function ⟨0, idle, 0⟩) [] ⟨circular, .silent⟩).2.2.heap := by
  have hmade : Heap.empty.Operated circular :=
    .tail (.tail (.single .root) (.makeClosure idle (by decide)))
      (.define (by decide) ⟨by decide, by decide⟩)
  have hcall : circular.Operated ((Interpreter.new idle.arena 0 7).invoke .empty
      (.function ⟨0, idle, 0⟩) [] ⟨circular, .silent⟩).2.2.heap := by
    refine .single (.invoke .empty (.new idle.arena 0 7) .silent fun v hv => ?_)
    obtain rfl := List.mem_singleton.mp hv
    exact ⟨by decide, by decide⟩
  exact ⟨hmade, by decide, frames_form_trees.1 _ _ hmade hcall⟩

end Heap
end ClosureLang
