import WiringRs.Lib.Act

/-!
# One call on two objects

A call on one object does what another call does on an object that stands for it: from
related states both return the same value, and leave related states behind, or both stop,
and for the same reason. What the objects are like after a stop does not matter. There
may be reasons that are excused: for those the first call may stop where the second does
not.
-/

namespace WiringRs

namespace Act

variable {ε σ τ α β : Type}

def Simulates (R : σ → τ → Prop) (excused : Stop ε → Prop) (x : Act ε σ α) (y : Act ε τ α) :
    Prop :=
  ∀ s t, R s t → (∃ a s' t', x s = (.ok a, s') ∧ y t = (.ok a, t') ∧ R s' t') ∨
    (∃ e s' t', x s = (.error e, s') ∧ y t = (.error e, t')) ∨
    ∃ e s', x s = (.error e, s') ∧ excused e

namespace Simulates

variable {R : σ → τ → Prop} {E : Stop ε → Prop} {x x' : Act ε σ α} {y y' : Act ε τ α}

theorem pure (a : α) : Simulates R E (Pure.pure a : Act ε σ α) (Pure.pure a : Act ε τ α) :=
  fun s t h => Or.inl ⟨a, s, t, rfl, rfl, h⟩

theorem stop (e : Stop ε) : Simulates R E (Act.stop e : Act ε σ α) (Act.stop e : Act ε τ α) :=
  fun s t _ => Or.inr (Or.inl ⟨e, s, t, rfl, rfl⟩)

theorem lift (o : Except (Stop ε) α) :
    Simulates R E (Act.lift o : Act ε σ α) (Act.lift o : Act ε τ α) := by
  cases o with
  | ok a => exact pure a
  | error e => exact stop e

theorem bind {f : α → Act ε σ β} {g : α → Act ε τ β} (h : Simulates R E x y)
    (hf : ∀ a, Simulates R E (f a) (g a)) : Simulates R E (x >>= f) (y >>= g) := by
  intro s t hst
  rcases h s t hst with ⟨a, s1, t1, hx, hy, h1⟩ | ⟨e, s1, t1, hx, hy⟩ | ⟨e, s1, hx, he⟩
  · rw [Act.bind_ok hx, Act.bind_ok hy]
    exact hf a s1 t1 h1
  · exact Or.inr (Or.inl ⟨e, s1, t1, Act.bind_error hx, Act.bind_error hy⟩)
  · exact Or.inr (Or.inr ⟨e, s1, Act.bind_error hx, he⟩)

theorem map {f : α → β} (h : Simulates R E x y) :
    Simulates R E (do let a ← x; Pure.pure (f a)) (do let a ← y; Pure.pure (f a)) :=
  h.bind fun a => pure (f a)

theorem guard {p : Prop} [Decidable p] {x : p → Act ε σ α} {y : p → Act ε τ α} {e : Stop ε}
    (h : ∀ hp, Simulates R E (x hp) (y hp)) :
    Simulates R E (if hp : p then x hp else Act.stop e)
      (if hp : p then y hp else Act.stop e) := by
  by_cases hp : p
  · simpa only [hp, dif_pos] using h hp
  · simpa only [hp, dif_neg, not_false_iff] using stop e

theorem ite {p : Prop} [Decidable p] (h : Simulates R E x y) (h' : Simulates R E x' y') :
    Simulates R E (if p then x else x') (if p then y else y') := by
  by_cases hp : p
  · simpa only [hp, if_pos] using h
  · simpa only [hp, if_neg, not_false_iff] using h'

theorem times (h : Simulates R E x y) (n : Nat) :
    Simulates R E (Act.times n x) (Act.times n y) := by
  induction n with
  | zero => exact pure _
  | succ n ih => exact h.bind fun a => ih.map

theorem sequence {n : Nat} {ty : Fin n → Type} {x : ∀ i, Act ε σ (ty i)}
    {y : ∀ i, Act ε τ (ty i)} (h : ∀ i, Simulates R E (x i) (y i)) :
    Simulates R E (Act.sequence n x) (Act.sequence n y) := by
  induction n with
  | zero => exact pure _
  | succ n ih => exact (h 0).bind fun a => (ih fun i => h i.succ).map

end Simulates

end Act

end WiringRs
