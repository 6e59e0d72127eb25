/-!
# Operations that may fail

An `Attempt` runs on a state and yields a result or an error, and in both cases a state. What a
failure leaves behind is thus part of what an operation means, and "a failing operation changes
nothing" is a statement about it rather than a consequence of its type.
-/

namespace ClosureLang

/-- An operation on states `σ` that yields an `α` or fails with an `ε`. -/
def Attempt (σ ε α : Type) := σ → Except ε α × σ

namespace Attempt

variable {σ ε ε' α β : Type}

/-- Yields a result and leaves the state alone. -/
@[always_inline, inline]
def succeed (a : α) : Attempt σ ε α := fun s => (.ok a, s)

@[always_inline, inline]
def fail (e : ε) : Attempt σ ε α := fun s => (.error e, s)

/-- Goes on with the result of `x`, in the state that `x` left; a failure of `x` is final. -/
@[always_inline, inline]
def andThen (x : Attempt σ ε α) (f : α → Attempt σ ε β) : Attempt σ ε β := fun s =>
  match x s with
  | (.ok a, s) => f a s
  | (.error e, s) => (.error e, s)

instance : Monad (Attempt σ ε) where
  pure := succeed
  bind := andThen

@[always_inline, inline]
def read (view : σ → α) : Attempt σ ε α := fun s => (.ok (view s), s)

@[always_inline, inline]
def modify (f : σ → σ) : Attempt σ ε Unit := fun s => (.ok (), f s)

/-- An operation that cannot fail. -/
@[always_inline, inline]
def act (f : σ → α × σ) : Attempt σ ε α := fun s =>
  let (a, s) := f s
  (.ok a, s)

/-- Runs `x`, then changes the state, whatever way `x` ended. -/
@[always_inline, inline]
def ensuring (change : σ → σ) (x : Attempt σ ε α) : Attempt σ ε α := fun s =>
  let (r, s) := x s
  (r, change s)

/-- Runs `x`, then changes the state if `x` failed. -/
@[always_inline, inline]
def onFailure (change : σ → σ) (x : Attempt σ ε α) : Attempt σ ε α := fun s =>
  match x s with
  | (.ok a, s) => (.ok a, s)
  | (.error e, s) => (.error e, change s)

/-- Renames the failures of an operation. -/
@[always_inline, inline]
def mapError (f : ε → ε') (x : Attempt σ ε α) : Attempt σ ε' α := fun s =>
  match x s with
  | (.ok a, s) => (.ok a, s)
  | (.error e, s) => (.error (f e), s)

theorem pure_apply (a : α) (s : σ) : (pure a : Attempt σ ε α) s = (.ok a, s) := rfl

theorem fail_apply (e : ε) (s : σ) : (fail e : Attempt σ ε α) s = (.error e, s) := rfl

theorem bind_apply (x : Attempt σ ε α) (f : α → Attempt σ ε β) (s : σ) :
    (x >>= f) s = match x s with
      | (.ok a, s) => f a s
      | (.error e, s) => (.error e, s) := rfl

end Attempt
end ClosureLang
