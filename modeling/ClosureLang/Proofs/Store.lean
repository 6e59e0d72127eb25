import ClosureLang.Proofs.Heap.Changes
import ClosureLang.Proofs.Ledger
import ClosureLang.Store

/-!
# Stores stay balanced

A store is `Balanced` by the handles that are held from outside: its ledger is exact and no frame is
left that nobody holds. Each operation of a store takes the handles that it is given and gives out
those that it yields, and the store it leaves is balanced by what is then held (`Later`). That
includes what an operation does where it fails: the value that could not be bound, the arguments
after it, and the frame that they were for.

What an operation yields, and what it does to the heap, is what the heap operation of the same name
yields and does (`Counts`).
-/

namespace ClosureLang

/-! ## The links of a frame -/

namespace Frame

variable {n : Name} {u v : Value}

theorem filterMap_captured?_cons (b : Name × Value) (bs : List (Name × Value)) :
    (b :: bs).filterMap (·.2.captured?) = b.2.handles ++ bs.filterMap (·.2.captured?) := by
  rw [List.filterMap_cons, Value.handles]
  cases b.2.captured? <;> rfl

theorem links_bind (f : Frame) (n : Name) (v : Value) :
    (f.bind n v).links.Perm (v.handles ++ f.links) := by
  rw [links, bind, filterMap_captured?_cons]
  exact List.perm_append_comm_assoc ..

/-- The handle that was in the slot makes way for the new one. -/
theorem links_overwrite {f : Frame} (hd : f.names.Nodup) (hu : f.lookup? n = some u) :
    (u.handles ++ (f.overwrite n v).links).Perm (v.handles ++ f.links) := by
  obtain ⟨before, after, hsplit, hbefore⟩ : ∃ before after,
      f.bindings = before ++ (n, u) :: after ∧ ∀ b ∈ before, b.1 ≠ n := by
    obtain ⟨⟨m, w⟩, hfind, rfl⟩ := Option.map_eq_some_iff.mp hu
    obtain ⟨hm, before, after, heq, hbefore⟩ := List.find?_eq_some_iff_append.mp hfind
    obtain rfl : m = n := by simpa using hm
    exact ⟨before, after, heq, fun b hb => by simpa using hbefore b hb⟩
  have hafter : ∀ b ∈ after, b.1 ≠ n := by
    rw [names, hsplit, List.map_append, List.map_cons] at hd
    have hnot : n ∉ after.map Prod.fst := (List.nodup_cons.mp (List.nodup_append.mp hd).2.1).1
    exact fun b hb hbn => hnot (List.mem_map.mpr ⟨b, hb, hbn⟩)
  have hkeep : ∀ bs : List (Name × Value), (∀ b ∈ bs, b.1 ≠ n) →
      bs.map (fun b => if b.1 = n then (n, v) else b) = bs :=
    fun bs hbs => (List.map_congr_left fun b hb => if_neg (hbs b hb)).trans (List.map_id' bs)
  simp only [links, overwrite, hsplit, List.map_append, List.map_cons, if_true, hkeep _ hbefore,
    hkeep _ hafter, List.filterMap_append, filterMap_captured?_cons]
  refine List.perm_iff_count.mpr fun g => ?_
  simp only [List.count_append]
  omega

end Frame

namespace Heap

variable {h : Heap} {f g o : FrameId} {n : Name} {u v : Value}

theorem mem_links_of_parent? (hp : h.parent? f = some g) : g ∈ h.links f := by
  obtain ⟨fr, hfr, hparent⟩ := Option.bind_eq_some_iff.mp hp
  simp [links, hfr, Frame.links, hparent]

theorem links_newFrame (p : Option FrameId) (h : Heap) (f : FrameId) :
    (h.newFrame p).2.links f = if f = h.size then p.toList else h.links f := by
  simp only [links, frame?_newFrame]
  split <;> simp [Frame.links]

theorem links_bind_of_ne (hgf : g ≠ f) (n : Name) (v : Value) :
    (h.bind f n v).links g = h.links g := by
  rw [links, frame?_bind, if_neg (Ne.symm hgf), links]

theorem links_overwrite_of_ne (hgf : g ≠ f) (n : Name) (v : Value) :
    (h.overwrite f n v).links g = h.links g := by
  rw [links, frame?_overwrite, if_neg (Ne.symm hgf), links]

theorem links_bind (hf : f < h.size) (n : Name) (v : Value) :
    ((h.bind f n v).links f).Perm (v.handles ++ h.links f) := by
  obtain ⟨fr, hfr⟩ := Option.isSome_iff_exists.mp (frame?_isSome_iff.mpr hf)
  rw [links, links, frame?_bind, if_pos rfl, hfr]
  exact fr.links_bind n v

theorem links_overwrite (hd : h.Distinct) (hu : h.local? o n = some u) :
    (u.handles ++ (h.overwrite o n v).links o).Perm (v.handles ++ h.links o) := by
  obtain ⟨fr, hfr, hlookup⟩ := Option.bind_eq_some_iff.mp hu
  rw [links, links, frame?_overwrite, if_pos rfl, hfr]
  exact Frame.links_overwrite (hd o fr hfr) hlookup

end Heap

namespace Store

variable {s t u : Store} {held fs : List FrameId} {f g : FrameId} {n : Name} {v : Value}

/-- **The numbers are right for these handles from outside.** -/
structure Balanced (s : Store) (held : List FrameId) : Prop where
  seen : s.ledger.alive.size = s.heap.size
  exact : s.ledger.Exact s.heap held
  settled : s.ledger.Settled
  distinct : s.heap.Distinct

/-- What came of `s`: a store balanced by these handles, in which no dead frame has come back. -/
structure Later (s : Store) (held : List FrameId) (t : Store) : Prop where
  balanced : t.Balanced held
  size_le : s.heap.size ≤ t.heap.size
  alive : ∀ f < s.heap.size, t.ledger.isAlive f = true → s.ledger.isAlive f = true

namespace Balanced

theorem perm {held' : List FrameId} (hs : s.Balanced held) (hp : held.Perm held') :
    s.Balanced held' :=
  ⟨hs.seen, hs.exact.perm hp, hs.settled, hs.distinct⟩

theorem later (hs : s.Balanced held) : Later s held s := ⟨hs, Nat.le_refl _, fun _ _ hf => hf⟩

theorem lt_size (hs : s.Balanced held) (hf : s.ledger.isAlive f = true) : f < s.heap.size :=
  hs.seen ▸ Ledger.lt_of_isAlive hf

/-- What encloses a living frame is alive. -/
theorem isAlive_of_around (hs : s.Balanced held) (hf : s.ledger.isAlive f = true)
    (hg : s.heap.Around f g) : s.ledger.isAlive g = true := by
  induction hg with
  | refl => exact hf
  | tail _ hp ih => exact hs.exact.isAlive_of_link ih (Heap.mem_links_of_parent? hp)

/-- So is the owner of a name. -/
theorem isAlive_owner (hs : s.Balanced held) (hf : s.ledger.isAlive f = true)
    (hg : s.heap.owner? f n = some g) : s.ledger.isAlive g = true :=
  hs.isAlive_of_around hf (Heap.around_of_mem_chainUpTo (List.mem_of_find?_eq_some hg))

/-- A function that a living frame binds captured a living frame. -/
theorem isAlive_stored (hs : s.Balanced held) (hf : s.ledger.isAlive f = true)
    (hv : s.heap.local? f n = some v) (hg : g ∈ v.handles) : s.ledger.isAlive g = true := by
  obtain ⟨fr, hfr, hlookup⟩ := Option.bind_eq_some_iff.mp hv
  refine hs.exact.isAlive_of_link hf ?_
  rw [Heap.links, hfr]
  exact List.mem_append_right _ (List.mem_filterMap.mpr
    ⟨(n, v), Frame.mem_of_lookup? hlookup, Option.mem_toList.mp hg⟩)

theorem retain (hs : s.Balanced held) (fs : List FrameId)
    (hfs : ∀ f ∈ fs, s.ledger.isAlive f = true) :
    Later s (fs ++ held) (s.retain fs) where
  balanced := by
    refine ⟨hs.seen, hs.exact.retain hfs, fun f hf => ?_, hs.distinct⟩
    have hlt : f < s.ledger.counts.size := hs.exact.size ▸ Ledger.lt_of_isAlive hf
    show 0 < (s.ledger.retain fs).count f
    rw [Ledger.count_retain hlt]
    exact Nat.lt_of_lt_of_le (hs.settled f hf) (Nat.le_add_right _ _)
  size_le := Nat.le_refl _
  alive _ _ hf := hf

/-- **Letting go of handles.** -/
theorem release (fs : List FrameId) (hs : s.Balanced (fs ++ held)) : Later s held (s.release fs) :=
  have hgo := Ledger.release_letGo hs.exact hs.settled hs.seen
  ⟨⟨hgo.size.trans hs.seen, hgo.exact, hgo.settled, hs.distinct⟩, Nat.le_refl _,
    fun f _ hf => hgo.alive f hf⟩

/-- Links of a living frame were exchanged for handles from outside. -/
theorem relink {h : Heap} {a b : List FrameId} (hs : s.Balanced (a ++ held))
    (hf : s.ledger.isAlive f = true) (hsize : h.size = s.heap.size) (hd : h.Distinct)
    (hlinks : (a ++ s.heap.links f).Perm (b ++ h.links f))
    (hrest : ∀ g, g ≠ f → h.links g = s.heap.links g) : Later s (b ++ held) ⟨h, s.ledger⟩ where
  balanced := ⟨hs.seen.trans hsize.symm, hs.exact.relink hf hlinks hrest, hs.settled, hd⟩
  size_le := Nat.le_of_eq hsize.symm
  alive _ _ hf := hf

end Balanced

namespace Later

theorem trans {held' : List FrameId} (h : Later s held t) (h' : Later t held' u) :
    Later s held' u where
  balanced := h'.balanced
  size_le := Nat.le_trans h.size_le h'.size_le
  alive f hf hu := h.alive f hf (h'.alive f (Nat.lt_of_lt_of_le hf h.size_le) hu)

theorem perm {held' : List FrameId} (h : Later s held t) (hp : held.Perm held') : Later s held' t :=
  ⟨h.balanced.perm hp, h.size_le, h.alive⟩

end Later

/-! ## The operations on variables, case by case -/

theorem get_eq (f : FrameId) (n : Name) (s : Store) : get f n s =
    (s.heap.get f n, s.retain ((s.heap.get f n).toOption.elim [] Value.handles)) := by
  unfold get
  cases s.heap.get f n <;> rfl

theorem define_eq (f : FrameId) (n : Name) (v : Value) (s : Store) :
    define f n v s = if s.heap.binds f n then (.error (.duplicate n), s.release v.handles)
      else (.ok (), ⟨s.heap.bind f n v, s.ledger⟩) := by
  simp only [define, Attempt.onFailure, onHeap, Heap.define]
  cases s.heap.binds f n <;> rfl

theorem set_eq (f : FrameId) (n : Name) (v : Value) (s : Store) :
    set f n v s = match s.heap.owner? f n with
      | none => (.error (.unbound n), s.release v.handles)
      | some o => (.ok (), release (slot f n s) ⟨s.heap.overwrite o n v, s.ledger⟩) := by
  simp only [set, Attempt.bind_apply, Attempt.read, Attempt.onFailure, onHeap, Heap.set]
  cases s.heap.owner? f n <;> rfl

theorem update_eq {ε : Type} (f : FrameId) (n : Name) (change : Value → Except ε Value)
    (s : Store) :
    update f n change s = match s.heap.owner? f n with
      | none => (.error (.unbound n), s)
      | some o =>
        match change (s.heap.valueAt o n) with
        | .error e => (.ok (.error e), s)
        | .ok v => (.ok (.ok v), release (slot f n s) ⟨s.heap.overwrite o n v, s.ledger⟩) := by
  simp only [update, Attempt.bind_apply, Attempt.read, onHeap, Heap.update]
  cases s.heap.owner? f n with
  | none => rfl
  | some o =>
    dsimp only
    cases change (s.heap.valueAt o n) <;> rfl

/-! ## What the operations do with handles -/

theorem newFrame_later {p : Option FrameId} (hs : s.Balanced held)
    (hp : ∀ f ∈ p, s.ledger.isAlive f = true) :
    Later s ((s.newFrame p).1 :: held) (s.newFrame p).2 := by
  have hretain := hs.retain p.toList fun f hf => hp f (Option.mem_toList.mp hf)
  have hsize : s.ledger.alive.size = s.heap.size := hs.seen
  have hexact : (s.ledger.retain p.toList).enroll.Exact (s.heap.newFrame p).2
      (s.heap.size :: held) := by
    rw [← hsize]
    refine hretain.balanced.exact.enroll ?_ fun f hf => ?_
    · rw [Heap.links_newFrame, ← hsize]
      exact if_pos rfl
    · rw [Heap.links_newFrame, ← hsize]
      exact if_neg (Nat.ne_of_lt (Ledger.lt_of_isAlive hf))
  refine ⟨⟨?_, hexact, fun f hf => ?_, hs.distinct.newFrame p⟩, ?_, fun f hlt hf => ?_⟩
  · show (s.ledger.alive.push true).size = (s.heap.newFrame p).2.size
    rw [Array.size_push, Heap.size_newFrame, hsize]
  · show 0 < (s.ledger.retain p.toList).enroll.count f
    rw [Ledger.count_enroll]
    split
    · exact Nat.one_pos
    · next hne =>
      have hold : f ≠ s.ledger.alive.size := fun h => hne (h.trans hretain.balanced.exact.size.symm)
      exact hretain.balanced.settled f ((Ledger.isAlive_enroll.mp hf).resolve_left hold)
  · show s.heap.size ≤ (s.heap.newFrame p).2.size
    rw [Heap.size_newFrame]
    exact Nat.le_succ _
  · exact (Ledger.isAlive_enroll.mp hf).resolve_left (Nat.ne_of_lt (hsize ▸ hlt))

theorem makeClosure_later (hs : s.Balanced held) (code : FunctionCode)
    (hf : s.ledger.isAlive f = true) :
    Later s (f :: held) (s.makeClosure code f).2 := by
  have hretain := hs.retain [f] (by simpa using hf)
  exact hretain.trans (hretain.balanced.relink (h := (s.heap.makeClosure code f).2) hf rfl
    hs.distinct (.refl _) fun _ _ => rfl)

/-- What is read is held twice from then on. -/
theorem get_later (hs : s.Balanced held) (hf : s.ledger.isAlive f = true) (n : Name) :
    Later s (((s.heap.get f n).toOption.elim [] Value.handles) ++ held) (get f n s).2 := by
  rw [get_eq]
  refine hs.retain _ fun g hg => ?_
  cases ho : s.heap.owner? f n with
  | none => simp [Heap.get, ho, Except.toOption] at hg
  | some o =>
    have hread : s.heap.get f n = .ok (s.heap.valueAt o n) := by rw [Heap.get, ho]
    rw [hread] at hg
    exact hs.isAlive_stored (hs.isAlive_owner hf ho) (Heap.local?_of_owner? ho) hg

theorem define_later (hs : s.Balanced (v.handles ++ held)) (hf : s.ledger.isAlive f = true)
    (n : Name) : Later s held (define f n v s).2 := by
  rw [define_eq]
  cases hb : s.heap.binds f n with
  | true => exact hs.release _
  | false =>
    refine hs.relink (b := []) hf (Heap.size_bind ..) (hs.distinct.bind hb v) ?_
      fun g hg => Heap.links_bind_of_ne hg n v
    exact (Heap.links_bind (hs.lt_size hf) n v).symm

/-- The owner of a name is overwritten, and the handle that was in its slot is let go of. -/
theorem overwrite_later {o : FrameId} (hs : s.Balanced (v.handles ++ held))
    (hf : s.ledger.isAlive f = true) (ho : s.heap.owner? f n = some o) :
    Later s held (release (slot f n s) ⟨s.heap.overwrite o n v, s.ledger⟩) := by
  have hslot : slot f n s = (s.heap.valueAt o n).handles := by rw [slot, ho]; rfl
  have hswap : Later s (slot f n s ++ held) ⟨s.heap.overwrite o n v, s.ledger⟩ := by
    rw [hslot]
    refine hs.relink (hs.isAlive_owner hf ho) (Heap.size_overwrite ..) (hs.distinct.overwrite o n v)
      ?_ fun g hg => Heap.links_overwrite_of_ne hg n v
    exact (Heap.links_overwrite hs.distinct (Heap.local?_of_owner? ho)).symm
  exact hswap.trans (hswap.balanced.release _)

theorem set_later (hs : s.Balanced (v.handles ++ held)) (hf : s.ledger.isAlive f = true)
    (n : Name) : Later s held (set f n v s).2 := by
  rw [set_eq]
  cases ho : s.heap.owner? f n with
  | none => exact hs.release _
  | some o => exact overwrite_later hs hf ho

/-- An update to what comes without a handle. -/
theorem update_later {ε : Type} {change : Value → Except ε Value} (hs : s.Balanced held)
    (hf : s.ledger.isAlive f = true) (n : Name)
    (hchange : ∀ u v, change u = .ok v → v.handles = []) :
    Later s held (update f n change s).2 := by
  rw [update_eq]
  cases ho : s.heap.owner? f n with
  | none => exact hs.later
  | some o =>
    cases hv : change (s.heap.valueAt o n) with
    | error e => simpa only [hv] using hs.later
    | ok v => simpa only [hv] using overwrite_later (v := v) (hchange _ v hv ▸ hs) hf ho

/-- **Passing arguments uses up their handles**, also where one of them cannot be bound. -/
theorem bindParams_later {vs : List Value}
    (hs : s.Balanced (Value.allHandles vs ++ f :: held)) (names : Interner) (ns : List Name) :
    Later s (f :: held) (bindParams names f ns vs s).2 := by
  induction ns generalizing s vs with
  | nil => exact hs.release _
  | cons n ns ih =>
    cases vs with
    | nil => exact hs.release _
    | cons v vs =>
      rw [Value.allHandles, List.flatMap_cons, List.append_assoc] at hs
      have hf : s.ledger.isAlive f = true := hs.exact.isAlive_of_mem (by simp)
      have hone : Later s (Value.allHandles vs ++ f :: held) (define f n v s).2 :=
        define_later hs hf n
      rw [bindParams, Attempt.bind_apply, Attempt.onFailure, Attempt.mapError]
      rcases hrun : define f n v s with ⟨e | _, t⟩ <;> rw [hrun] at hone
      · exact hone.trans (hone.balanced.release _)
      · exact hone.trans (ih hone.balanced)

/-- **The frame of a call**: its maker has the only handle from outside, or there is no frame, and
all that was to be in it has been let go of. -/
theorem activate_later {c : Closure} {args : List Value}
    (hs : s.Balanced (Value.allHandles args ++ held)) (hc : s.ledger.isAlive c.frame = true)
    (names : Interner) (params : List Name) :
    Later s ((activate c names params args s).1.toOption.toList ++ held)
      (activate c names params args s).2 := by
  unfold activate
  split
  · have hframe : Later s (s.heap.size :: (Value.allHandles args ++ held))
        (s.newFrame (some c.frame)).2 := newFrame_later hs (by simpa using hc)
    have hbind := hframe.trans (bindParams_later
      (hframe.balanced.perm List.perm_middle.symm) names params)
    have hnew : s.newFrame (some c.frame) = (s.heap.size, (s.newFrame (some c.frame)).2) := rfl
    rw [hnew]
    dsimp only
    rcases hrun : bindParams names s.heap.size params args (s.newFrame (some c.frame)).2
      with ⟨e | _, u⟩ <;> rw [hrun] at hbind
    · exact hbind.trans (hbind.balanced.release [s.heap.size])
    · exact hbind
  · exact hs.release _

/-! ## What the operations do otherwise -/

variable {ε α β : Type}

/-- With the numbers left out, the operation is one on heaps. -/
def Counts (x : Attempt Store ε α) (op : Attempt Heap ε α) : Prop :=
  ∀ s, ∃ l, x s = ((op s.heap).1, ⟨(op s.heap).2, l⟩)

namespace Counts

variable {x : Attempt Store ε α} {op : Attempt Heap ε α}

theorem bind {g : α → Attempt Store ε β} {k : α → Attempt Heap ε β} (hx : Counts x op)
    (hg : ∀ a, Counts (g a) (k a)) : Counts (x >>= g) (op >>= k) := by
  intro s
  obtain ⟨l, hl⟩ := hx s
  rw [Attempt.bind_apply, Attempt.bind_apply, hl]
  rcases op s.heap with ⟨e | a, h⟩
  · exact ⟨l, rfl⟩
  · exact hg a ⟨h, l⟩

theorem becomes (hx : Counts x op) (hb : s.heap.Becomes (op s.heap).2) :
    s.heap.Becomes (x s).2.heap := by
  obtain ⟨l, hl⟩ := hx s
  rw [hl]
  exact hb

theorem onFailure (hx : Counts x op) (fs : List FrameId) :
    Counts (.onFailure (release fs) x) op := by
  intro s
  obtain ⟨l, hl⟩ := hx s
  rw [Attempt.onFailure, hl]
  rcases op s.heap with ⟨e | a, h⟩ <;> exact ⟨_, rfl⟩

theorem mapError {ε' : Type} (hx : Counts x op) (e : ε → ε') :
    Counts (x.mapError e) (op.mapError e) := by
  intro s
  obtain ⟨l, hl⟩ := hx s
  rw [Attempt.mapError, Attempt.mapError, hl]
  rcases op s.heap with ⟨e | a, h⟩ <;> exact ⟨_, rfl⟩

theorem define (f : FrameId) (n : Name) (v : Value) :
    Counts (define f n v) (Heap.define f n v) :=
  onFailure (x := onHeap (Heap.define f n v)) (fun s => ⟨s.ledger, rfl⟩) v.handles

theorem set (f : FrameId) (n : Name) (v : Value) : Counts (set f n v) (Heap.set f n v) := by
  intro s
  rw [set_eq, Heap.set]
  cases s.heap.owner? f n <;> exact ⟨_, rfl⟩

theorem update {ε : Type} (f : FrameId) (n : Name) (change : Value → Except ε Value) :
    Counts (update f n change) (Heap.update f n change) := by
  intro s
  rw [update_eq, Heap.update]
  cases s.heap.owner? f n with
  | none => exact ⟨_, rfl⟩
  | some o =>
    dsimp only
    cases change (s.heap.valueAt o n) <;> exact ⟨_, rfl⟩

theorem bindParams (names : Interner) (f : FrameId) :
    ∀ ns vs, Counts (bindParams names f ns vs) (Closure.bindParams names f ns vs)
  | [], _ => fun _ => ⟨_, rfl⟩
  | _ :: _, [] => fun _ => ⟨_, rfl⟩
  | n :: ns, v :: vs => by
    rw [Store.bindParams, Closure.bindParams]
    exact (((define f n v).mapError _).onFailure _).bind fun _ => bindParams names f ns vs

theorem activate (c : Closure) (names : Interner) (params : List Name) (args : List Value) :
    Counts (activate c names params args) (c.activate names params args) := by
  intro s
  unfold Store.activate Closure.activate
  split
  · obtain ⟨l, hl⟩ := bindParams names s.heap.size params args (s.newFrame (some c.frame)).2
    have hnew : s.newFrame (some c.frame) = (s.heap.size, (s.newFrame (some c.frame)).2) := rfl
    have hchild : s.heap.child c.frame = (s.heap.size, (s.newFrame (some c.frame)).2.heap) := rfl
    rw [hnew, hchild]
    dsimp only
    rw [hl]
    rcases Closure.bindParams names s.heap.size params args (s.newFrame (some c.frame)).2.heap
      with ⟨e | a, h⟩ <;> exact ⟨_, rfl⟩
  · exact ⟨_, rfl⟩

end Counts
end Store
end ClosureLang
