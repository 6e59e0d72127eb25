import ClosureLang.Host.Serve
import Mathlib.Data.List.Nodup
import Mathlib.Data.List.Perm.Basic

/-!
# What a host looks up

Before a command does anything it looks up what it is about, and only that can fail. An action
`Looks` where it leaves the state alone, and what it yields is then a matter of that state.
-/

namespace ClosureLang

instance {σ ε : Type} : LawfulMonad (Attempt σ ε) :=
  .mk' (Attempt σ ε)
    (fun x => by
      funext s
      show Attempt.andThen x (fun a => .succeed a) s = x s
      unfold Attempt.andThen
      split <;> simp_all [Attempt.succeed])
    (fun _ _ => rfl)
    (fun x f g => by
      funext s
      show Attempt.andThen (.andThen x f) g s = Attempt.andThen x (fun a => .andThen (f a) g) s
      simp only [Attempt.andThen]
      rcases x s with ⟨_ | _, _⟩ <;> rfl)

namespace Host

/-! ## Registers -/

namespace Registers

variable {α : Type} {rs : Registers α} {r : String} {a b : α}

theorem mem_values_of_get? (h : rs.get? r = some a) : a ∈ rs.values := by
  obtain ⟨e, he, rfl⟩ := Option.map_eq_some_iff.mp h
  exact List.mem_map_of_mem (List.mem_of_find?_eq_some he)

theorem mem_values_of_erase (h : b ∈ (rs.erase r).values) : b ∈ rs.values := by
  obtain ⟨e, he, rfl⟩ := List.mem_map.mp h
  exact List.mem_map_of_mem (List.mem_filter.mp he).1

theorem mem_values_of_put (h : b ∈ (rs.put r a).values) : b = a ∨ b ∈ rs.values :=
  (List.mem_cons.mp h).imp_right mem_values_of_erase

theorem values_put (rs : Registers α) (r : String) (a : α) :
    (rs.put r a).values = a :: (rs.erase r).values := rfl

/-- No name occurs twice. -/
def Distinct (rs : Registers α) : Prop := (rs.map Prod.fst).Nodup

theorem Distinct.erase (hd : rs.Distinct) (r : String) : (rs.erase r).Distinct :=
  (hd.sublist ((List.filter_sublist).map Prod.fst))

theorem Distinct.put (hd : rs.Distinct) (r : String) (a : α) : (rs.put r a).Distinct := by
  refine List.nodup_cons.mpr ⟨fun hmem => ?_, hd.erase r⟩
  obtain ⟨e, he, hr⟩ := List.mem_map.mp hmem
  exact (of_decide_eq_true (List.mem_filter.mp he).2) hr

/-- What is in one register, and what is in the others. -/
theorem Distinct.values_perm (hd : rs.Distinct) (r : String) :
    rs.values.Perm ((rs.get? r).toList ++ (rs.erase r).values) := by
  induction rs with
  | nil => exact .refl _
  | cons e rs ih =>
    obtain ⟨hnot, hrest⟩ := List.nodup_cons.mp hd
    by_cases he : e.1 = r
    · have hnone : Registers.erase rs r = rs := by
        refine List.filter_eq_self.mpr fun e' he' => decide_eq_true fun hr => hnot ?_
        exact List.mem_map.mpr ⟨e', he', hr.trans he.symm⟩
      have hfirst : get? (e :: rs) r = some e.2 := by simp [get?, he]
      have hothers : Registers.erase (e :: rs) r = rs := by
        simpa [Registers.erase, he] using hnone
      rw [hfirst, hothers]
      exact .refl _
    · have hfirst : get? (e :: rs) r = get? rs r := by simp [get?, he]
      have hothers : Registers.erase (e :: rs) r = e :: Registers.erase rs r := by
        simp [Registers.erase, he]
      rw [hfirst, hothers]
      exact ((ih hrest).cons e.2).trans List.perm_middle.symm

/-- So it is with what comes with the things held. -/
theorem Distinct.flatMap_perm {β : Type} (hd : rs.Distinct) (r : String) (f : α → List β) :
    (rs.values.flatMap f).Perm ((rs.get? r).elim [] f ++ (rs.erase r).values.flatMap f) := by
  have hp := (hd.values_perm r).flatMap_right f
  cases hr : rs.get? r <;> simpa [hr] using hp

end Registers

/-! ## States -/

/-- The state in which an interaction leaves a host. -/
def State.resettle (s : State) (r : String) (q : Resident)
    (out : (Outcome × Interpreter × World) × Ledger) : State :=
  { s with
    heap := out.1.2.2.heap
    ledger := out.2
    residents := s.residents.put r { q with interpreter := out.1.2.1 }
    sinks := s.sinks.setIfInBounds q.sink out.1.2.2.sink }

/-- A value that a host can pass on: no function, or one that it holds. -/
def State.Offers (s : State) (v : Value) : Prop := v.asClosure? = none ∨ v ∈ s.values.values

namespace Action

variable {α β : Type} {s : State} {x : Action α} {k : α → Action β} {P : α → Prop} {Q : β → Prop}

/-! ## Actions that only look -/

/-- The action leaves this state alone, and what it yields there satisfies `P`. -/
def Looks (s : State) (x : Action α) (P : α → Prop) : Prop :=
  (x s).2 = s ∧ ∀ a, (x s).1 = .ok a → P a

theorem held_apply (view : State → Registers α) (r : String) (s : State) :
    held view r s = match (view s).get? r with
      | some a => (.ok a, s)
      | none => (.error r, s) := by
  simp only [held, Attempt.bind_apply, Attempt.read, require]
  cases (view s).get? r <;> rfl

namespace Looks

/-- It misses something and that is all, or it is as if what it yields were known. -/
theorem bind_cases (hx : Looks s x P) (k : α → Action β) :
    (∃ what, (x >>= k) s = (.error what, s)) ∨ ∃ a, P a ∧ (x >>= k) s = k a s := by
  obtain ⟨hstate, hP⟩ := hx
  rw [Attempt.bind_apply]
  rcases hrun : x s with ⟨what | a, t⟩ <;> rw [hrun] at hstate hP <;> obtain rfl : t = s := hstate
  · exact .inl ⟨what, rfl⟩
  · exact .inr ⟨a, hP a rfl, rfl⟩

theorem pure {a : α} (h : P a) : Looks s (pure a) P := ⟨rfl, fun b hb => by cases hb; exact h⟩

theorem fail {what : String} : Looks s (.fail what : Action α) P := ⟨rfl, fun _ hb => nomatch hb⟩

theorem bind (hx : Looks s x P) (hk : ∀ a, P a → Looks s (k a) Q) : Looks s (x >>= k) Q := by
  rcases hx.bind_cases k with ⟨what, h⟩ | ⟨a, ha, h⟩ <;> rw [Looks, h]
  · exact ⟨rfl, fun _ hb => nomatch hb⟩
  · exact hk a ha

theorem mono {P' : α → Prop} (hx : Looks s x P) (hP : ∀ a, P a → P' a) : Looks s x P' :=
  ⟨hx.1, fun a ha => hP a (hx.2 a ha)⟩

theorem read (view : State → α) : Looks s (.read view) (· = view s) :=
  ⟨rfl, fun a ha => by cases ha; rfl⟩

theorem require (o : Option α) (what : String) : Looks s (Action.require what o) (o = some ·) := by
  cases o with
  | none => exact fail
  | some a => exact pure rfl

theorem held (view : State → Registers α) (r : String) :
    Looks s (Action.held view r) ((view s).get? r = some ·) :=
  (read _).bind fun _ ha => ha ▸ require ..

theorem operand (o : Operand) : Looks s (Action.operand o) s.Offers := by
  cases o with
  | literal l => exact pure (.inl (by cases l <;> rfl))
  | held r => exact (held _ r).mono fun _ hv => .inr (Registers.mem_values_of_get? hv)

theorem operands (os : List Operand) :
    Looks s (os.mapM Action.operand) fun vs => ∀ v ∈ vs, s.Offers v := by
  induction os with
  | nil => exact pure fun v hv => absurd hv List.not_mem_nil
  | cons o os ih =>
    rw [List.mapM_cons]
    refine (operand o).bind fun v hv => ih.bind fun vs hvs => pure ?_
    exact List.forall_mem_cons.mpr ⟨hv, hvs⟩

theorem table (r : String) : Looks s (Action.table r) fun p => s.tables[p.1]? = some p.2 :=
  (held _ r).bind fun _ _ => (read _).bind fun _ ht => (require ..).bind fun _ hn =>
    pure (ht ▸ hn)

theorem arena (r : String) : Looks s (Action.arena r) fun _ => True :=
  (held _ r).bind fun _ _ => (read _).bind fun _ _ => (require ..).mono fun _ _ => trivial

theorem sink (i : Nat) : Looks s (Action.sink i) (s.sinks[i]? = some ·) :=
  (read _).bind fun _ hs => hs ▸ require ..

end Looks

/-- A reply with an outcome is that outcome, whatever becomes of the value. -/
theorem outcomeReply_fst (dest : Option String) (o : Outcome) (s : State) :
    (outcomeReply dest o s).1 = .ok (.outcome o) := by
  unfold outcomeReply
  cases o with
  | value v => cases dest <;> rfl
  | _ => rfl

/-! ## Requests -/

/-- What an interaction with a resident starts from. -/
def approach (r : String) : Action (Interner × Interpreter × World) := do
  let resident ← held State.residents r
  let names ← require r ((← .read State.tables)[resident.table]?)
  let sink ← sink resident.sink
  let heap ← .read State.heap
  pure (names, resident.interpreter, ⟨heap, sink⟩)

theorem Looks.approach (r : String) : Looks s (Action.approach r) fun a =>
    a.2.2.heap = s.heap ∧ ∃ q ∈ s.residents.values, q.interpreter = a.2.1 :=
  (held _ r).bind fun q hq => (read _).bind fun _ _ => (require ..).bind fun _ _ =>
    (sink _).bind fun _ _ => (read _).bind fun _ hh =>
      pure ⟨hh, q, Registers.mem_values_of_get? hq, rfl⟩

/-- An interaction either misses something, and nothing has happened, or is carried out. -/
theorem withInterpreter_cases (r : String) (act : Interner → CountedInteraction Outcome)
    (s : State) :
    (∃ what, approach r s = (.error what, s) ∧ withInterpreter r act s = (.error what, s)) ∨
      ∃ q names sink, s.residents.get? r = some q ∧
        approach r s = (.ok (names, q.interpreter, ⟨s.heap, sink⟩), s) ∧
        withInterpreter r act s =
          (.ok (act names q.interpreter ⟨s.heap, sink⟩ s.ledger).1.1,
            s.resettle r q (act names q.interpreter ⟨s.heap, sink⟩ s.ledger)) := by
  simp only [approach, withInterpreter, Attempt.bind_apply, held_apply, Attempt.read, sink]
  cases hr : s.residents.get? r with
  | none => exact .inl ⟨r, rfl, rfl⟩
  | some q =>
    cases hn : s.tables[q.table]? with
    | none => exact .inl ⟨r, by simp [require, Attempt.fail_apply, hn]⟩
    | some names =>
      cases hk : s.sinks[q.sink]? with
      | none =>
        exact .inl ⟨"handler", by simp [require, Attempt.fail_apply, Attempt.pure_apply, hn, hk]⟩
      | some k =>
        refine .inr ⟨q, names, k, rfl, ?_⟩
        simp only [require, hn, hk, Attempt.pure_apply]
        exact ⟨trivial, rfl⟩

end Action
end Host
end ClosureLang
