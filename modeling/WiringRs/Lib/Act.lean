import Mathlib.Data.Vector.Basic
import Mathlib.Data.Fin.Tuple.Basic

/-!
# Effectful calls

A call on a mutable object, as a function of the object's state: it ends with
a value or stops, and leaves a state behind either way. `Stop` keeps apart the
ways a call does not return a value: an error value, a panic, and an access
outside memory the caller owns.

The loops of a program are `times` (a value for each turn), `List.forM` (a
turn for each element), `iter` (an accumulator carried through the turns) and
`sequence` (one call for each index, with a type of its own). `turns` is `times`
without the values.
-/

namespace WiringRs

/-- Why a call did not return a value. -/
inductive Stop (ε : Type) where
  | err (e : ε)
  | panic
  /-- An out-of-bounds raw access: nothing after it is modelled. -/
  | ub
deriving DecidableEq, Repr

def Act (ε σ α : Type) : Type := σ → Except (Stop ε) α × σ

namespace Act

variable {ε σ α β : Type}

def ret (a : α) : Act ε σ α := fun s => (.ok a, s)

def bind (x : Act ε σ α) (f : α → Act ε σ β) : Act ε σ β := fun s =>
  match x s with
  | (.ok a, s') => f a s'
  | (.error e, s') => (.error e, s')

instance : Monad (Act ε σ) where
  pure := ret
  bind := bind

def stop (e : Stop ε) : Act ε σ α := fun s => (.error e, s)

def fail (e : ε) : Act ε σ α := stop (.err e)

def panic : Act ε σ α := stop .panic

/-- Lift a computation without state. -/
def lift (x : Except (Stop ε) α) : Act ε σ α := fun s => (x, s)

/-! ## Running a call -/

@[simp] theorem pure_apply (a : α) (s : σ) :
    (pure a : Act ε σ α) s = (.ok a, s) := rfl

@[simp] theorem stop_apply (e : Stop ε) (s : σ) :
    (stop e : Act ε σ α) s = (.error e, s) := rfl

@[simp] theorem fail_apply (e : ε) (s : σ) :
    (fail e : Act ε σ α) s = (.error (.err e), s) := rfl

@[simp] theorem panic_apply (s : σ) :
    (panic : Act ε σ α) s = (.error .panic, s) := rfl

@[simp] theorem lift_apply (x : Except (Stop ε) α) (s : σ) :
    (lift x : Act ε σ α) s = (x, s) := rfl

theorem bind_ok {x : Act ε σ α} {f : α → Act ε σ β} {s s' : σ} {a : α}
    (h : x s = (.ok a, s')) : (x >>= f) s = f a s' := by
  show bind x f s = _
  rw [bind, h]

theorem bind_error {x : Act ε σ α} {f : α → Act ε σ β} {s s' : σ}
    {e : Stop ε} (h : x s = (.error e, s')) :
    (x >>= f) s = (.error e, s') := by
  show bind x f s = _
  rw [bind, h]

theorem bind_eq_ok {x : Act ε σ α} {f : α → Act ε σ β} {s s'' : σ} {b : β} :
    (x >>= f) s = (.ok b, s'') ↔
      ∃ a s', x s = (.ok a, s') ∧ f a s' = (.ok b, s'') := by
  constructor
  · intro h
    rcases hx : x s with ⟨o, s'⟩
    cases o with
    | ok a => exact ⟨a, s', rfl, by rw [bind_ok hx] at h; exact h⟩
    | error e => rw [bind_error hx] at h; cases h
  · rintro ⟨a, s', hx, hf⟩
    rw [bind_ok hx]; exact hf

theorem bind_eq_error {x : Act ε σ α} {f : α → Act ε σ β} {s s'' : σ}
    {e : Stop ε} :
    (x >>= f) s = (.error e, s'') ↔ x s = (.error e, s'') ∨
      ∃ a s', x s = (.ok a, s') ∧ f a s' = (.error e, s'') := by
  constructor
  · intro h
    rcases hx : x s with ⟨o, s'⟩
    cases o with
    | ok a => exact Or.inr ⟨a, s', rfl, by rw [bind_ok hx] at h; exact h⟩
    | error e' =>
        rw [bind_error hx] at h
        cases h
        exact Or.inl rfl
  · rintro (hx | ⟨a, s', hx, hf⟩)
    · exact bind_error hx
    · rw [bind_ok hx]; exact hf

instance : LawfulMonad (Act ε σ) := LawfulMonad.mk' _
  (fun x => by
    funext s
    show bind x _ s = x s
    rw [bind]; rcases x s with ⟨_ | _, _⟩ <;> rfl)
  (fun _ _ => rfl)
  (fun x f g => by
    funext s
    show bind (bind x f) g s = bind x (fun a => bind (f a) g) s
    simp only [bind]
    rcases x s with ⟨_ | _, _⟩ <;> rfl)

/-! ## Staying in bounds -/

/-- The call makes no access outside memory the caller owns. -/
def InBounds (x : Act ε σ α) (s : σ) : Prop := (x s).1 ≠ .error .ub

theorem InBounds.of_ok {x : Act ε σ α} {s s' : σ} {a : α}
    (h : x s = (.ok a, s')) : InBounds x s := by
  rw [InBounds, h]; nofun

theorem InBounds.of_panic {x : Act ε σ α} {s s' : σ}
    (h : x s = (.error .panic, s')) : InBounds x s := by
  rw [InBounds, h]; nofun

theorem InBounds.of_err {x : Act ε σ α} {s s' : σ} {e : ε}
    (h : x s = (.error (.err e), s')) : InBounds x s := by
  rw [InBounds, h]; nofun

/-- Another call that stops in the same way is as much in bounds. -/
theorem InBounds.of_error {x : Act ε σ α} {y : Act ε σ β} {s s' : σ} {e : Stop ε}
    (hx : InBounds x s) (h : x s = (.error e, s')) (hy : y s = (.error e, s')) :
    InBounds y s := by
  rw [InBounds, hy]
  intro he
  cases he
  exact hx (by rw [h])

theorem InBounds.bind {x : Act ε σ α} {f : α → Act ε σ β} {s : σ}
    (hx : InBounds x s) (hf : ∀ a s', x s = (.ok a, s') → InBounds (f a) s') :
    InBounds (x >>= f) s := by
  rcases h : x s with ⟨o, s'⟩
  cases o with
  | ok a => rw [InBounds, bind_ok h]; exact hf a s' h
  | error e => exact hx.of_error h (bind_error h)

/-! ## Loops -/

/-- `for _ in 0..n`, collecting a value at each turn. -/
def times : (n : Nat) → Act ε σ α → Act ε σ (List.Vector α n)
  | 0, _ => pure List.Vector.nil
  | n + 1, x => do
      let a ← x
      let v ← times n x
      pure (a ::ᵥ v)

/-- `for _ in 0..n`, carrying an accumulator. -/
def iter : Nat → (α → Act ε σ α) → α → Act ε σ α
  | 0, _, a => pure a
  | n + 1, f, a => do
      let a' ← f a
      iter n f a'

/-- `n` calls, their values dropped. -/
def turns : Nat → Act ε σ α → Act ε σ Unit
  | 0, _ => pure ()
  | n + 1, x => do
      let _ ← x
      turns n x

/-- One call for each index, in order. -/
def sequence : (n : Nat) → {τ : Fin n → Type} → (∀ i, Act ε σ (τ i)) →
    Act ε σ (∀ i, τ i)
  | 0, _, _ => pure fun i => i.elim0
  | n + 1, _, f => do
      let a ← f 0
      let r ← sequence n fun i => f i.succ
      pure (Fin.cons a r)

@[simp] theorem times_zero (x : Act ε σ α) :
    times 0 x = pure List.Vector.nil := rfl

theorem times_succ (n : Nat) (x : Act ε σ α) :
    times (n + 1) x = (do let a ← x; let v ← times n x; pure (a ::ᵥ v)) := rfl

@[simp] theorem iter_zero (f : α → Act ε σ α) (a : α) :
    iter 0 f a = pure a := rfl

theorem turns_succ (n : Nat) (x : Act ε σ α) :
    turns (n + 1) x = x >>= fun _ => turns n x := rfl

theorem turns_add (m n : Nat) (x : Act ε σ α) :
    turns (m + n) x = turns m x >>= fun _ => turns n x := by
  induction m with
  | zero => rw [Nat.zero_add, turns, pure_bind]
  | succ m ih => rw [Nat.succ_add, turns_succ, turns_succ, ih, bind_assoc]

theorem times_bind (n : Nat) (x : Act ε σ α) (y : Act ε σ β) :
    (times n x >>= fun _ => y) = turns n x >>= fun _ => y := by
  induction n with
  | zero => rfl
  | succ n ih => simp only [times_succ, turns_succ, bind_assoc, pure_bind, ih]

theorem turns_times (n m : Nat) (x : Act ε σ α) :
    turns n (times m x) = turns (n * m) x := by
  induction n with
  | zero => rw [Nat.zero_mul]; rfl
  | succ n ih =>
      rw [turns_succ, times_bind, ih, Nat.succ_mul, Nat.add_comm, turns_add]

end Act

end WiringRs
