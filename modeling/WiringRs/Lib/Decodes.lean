import Mathlib.Computability.Language
import Mathlib.Data.List.FinRange
import WiringRs.Lib.Act

/-!
# Self-delimiting decoders

`Decodes x l P`: in front of any rest, the call `x` takes exactly the tokens
`l` off a list and returns a value with `P`. A decoder built from such calls
takes the concatenation of their tokens, so a round trip is proved once for
each part of a format.

`Takes x e` is the other direction: whenever the call returns a value `a`, what it
has taken off the list is `e a`. `TakesWord x L` only says of which language it is
a word.
-/

namespace WiringRs

def Decodes {ε τ α : Type} (x : Act ε (List τ) α) (l : List τ) (P : α → Prop) :
    Prop := ∀ rest, ∃ a, x (l ++ rest) = (.ok a, rest) ∧ P a

namespace Decodes

variable {ε τ α β : Type} {x : Act ε (List τ) α} {l m : List τ} {P : α → Prop}
  {Q : β → Prop}

theorem mono {P' : α → Prop} (h : Decodes x l P) (hP : ∀ a, P a → P' a) :
    Decodes x l P' := by
  intro rest
  obtain ⟨a, hx, ha⟩ := h rest
  exact ⟨a, hx, hP a ha⟩

theorem pure {a : α} (h : P a) : Decodes (pure a : Act ε (List τ) α) [] P :=
  fun _ => ⟨a, rfl, h⟩

theorem bind {f : α → Act ε (List τ) β} (h : Decodes x l P)
    (hf : ∀ a, P a → Decodes (f a) m Q) : Decodes (x >>= f) (l ++ m) Q := by
  intro rest
  obtain ⟨a, hx, ha⟩ := h (m ++ rest)
  obtain ⟨b, hb, hQ⟩ := hf a ha rest
  refine ⟨b, ?_, hQ⟩
  rw [List.append_assoc, Act.bind_ok hx, hb]

theorem map {f : α → β} (h : Decodes x l P) (hf : ∀ a, P a → Q (f a)) :
    Decodes (do let a ← x; Pure.pure (f a)) l Q := by
  have := h.bind fun a ha => pure (ε := ε) (τ := τ) (hf a ha)
  rwa [List.append_nil] at this

theorem times {e : β → List τ} {R : α → β → Prop} {bs : List β}
    (h : ∀ b ∈ bs, Decodes x (e b) fun a => R a b) {n : Nat} (hn : bs.length = n) :
    Decodes (Act.times n x) (bs.flatMap e) fun v => List.Forall₂ R v.toList bs := by
  subst hn
  induction bs with
  | nil => exact pure List.Forall₂.nil
  | cons b bs ih =>
      have htail := ih fun b' hb' => h b' (List.mem_cons_of_mem b hb')
      refine (h b List.mem_cons_self).bind fun a ha => ?_
      exact htail.map fun v hv => by
        rw [List.Vector.toList_cons]
        exact List.Forall₂.cons ha hv

theorem sequence {n : Nat} {τ' : Fin n → Type} {x : ∀ i, Act ε (List τ) (τ' i)}
    {e : Fin n → List τ} {P : ∀ i, τ' i → Prop}
    (h : ∀ i, Decodes (x i) (e i) (P i)) :
    Decodes (Act.sequence n x) ((List.finRange n).flatMap e)
      fun f => ∀ i, P i (f i) := by
  induction n with
  | zero => exact pure fun i => i.elim0
  | succ n ih =>
      rw [List.finRange_succ, List.flatMap_cons, List.flatMap_map]
      refine (h 0).bind fun a ha => ?_
      exact (ih fun i => h i.succ).map fun f hf => Fin.cases ha hf

end Decodes

def Takes {ε τ α : Type} (x : Act ε (List τ) α) (e : α → List τ) : Prop :=
  ∀ s a r, x s = (.ok a, r) → s = e a ++ r

namespace Takes

variable {ε τ α β : Type} {x : Act ε (List τ) α} {e : α → List τ}

theorem pure {a : α} (h : e a = []) : Takes (Pure.pure a : Act ε (List τ) α) e := by
  intro s b r hx
  cases hx
  rw [h, List.nil_append]

theorem stop (k : Stop ε) : Takes (Act.stop k : Act ε (List τ) α) e := by
  rintro s a r ⟨⟩

/-- What is left after the first call goes to the second. -/
theorem bind {f : α → Act ε (List τ) β} {e' : β → List τ} (h : Takes x e)
    (hf : ∀ a s b r, f a s = (.ok b, r) → e a ++ s = e' b ++ r) :
    Takes (x >>= f) e' := by
  intro s b r hb
  obtain ⟨a, s', ha, hf'⟩ := Act.bind_eq_ok.mp hb
  rw [h s a s' ha, hf a s' b r hf']

theorem map {f : α → β} {e' : β → List τ} (h : Takes x e) (he : ∀ a, e' (f a) = e a) :
    Takes (do let a ← x; Pure.pure (f a)) e' := by
  refine h.bind fun a s b r hb => ?_
  cases hb
  rw [he]

theorem times (h : Takes x e) (n : Nat) :
    Takes (Act.times n x) fun v => v.toList.flatMap e := by
  induction n with
  | zero => exact pure rfl
  | succ n ih =>
      refine h.bind fun a s v r hv => ?_
      obtain ⟨w, s', hw, hp⟩ := Act.bind_eq_ok.mp hv
      cases hp
      rw [ih s w _ hw, List.Vector.toList_cons, List.flatMap_cons, List.append_assoc]

theorem sequence {n : Nat} {τ' : Fin n → Type} {x : ∀ i, Act ε (List τ) (τ' i)}
    {e : ∀ i, τ' i → List τ} (h : ∀ i, Takes (x i) (e i)) :
    Takes (Act.sequence n x) fun f => (List.finRange n).flatMap fun i => e i (f i) := by
  induction n with
  | zero => exact pure rfl
  | succ n ih =>
      refine (h 0).bind fun a s f r hf => ?_
      obtain ⟨g, s', hg, hp⟩ := Act.bind_eq_ok.mp hf
      cases hp
      rw [ih (fun i => h i.succ) s g _ hg, List.finRange_succ, List.flatMap_cons,
        List.flatMap_map, List.append_assoc]
      rfl

end Takes

def TakesWord {ε τ α : Type} (x : Act ε (List τ) α) (L : Language τ) : Prop :=
  ∀ s a r, x s = (.ok a, r) → ∃ l ∈ L, s = l ++ r

namespace TakesWord

variable {ε τ α β : Type} {x : Act ε (List τ) α} {L L' : Language τ}

theorem pure (a : α) : TakesWord (Pure.pure a : Act ε (List τ) α) 1 := by
  intro s b r hx
  cases hx
  exact ⟨[], Language.nil_mem_one, rfl⟩

theorem stop (k : Stop ε) : TakesWord (Act.stop k : Act ε (List τ) α) L := by
  intro s a r hx
  cases hx

theorem bind {f : α → Act ε (List τ) β} (h : TakesWord x L) (hf : ∀ a, TakesWord (f a) L') :
    TakesWord (x >>= f) (L * L') := by
  intro s b r hb
  obtain ⟨a, s', ha, hfa⟩ := Act.bind_eq_ok.mp hb
  obtain ⟨l, hl, rfl⟩ := h s a s' ha
  obtain ⟨m, hm, rfl⟩ := hf a s' b r hfa
  exact ⟨l ++ m, Language.append_mem_mul hl hm, (List.append_assoc ..).symm⟩

theorem map {f : α → β} (h : TakesWord x L) :
    TakesWord (do let a ← x; Pure.pure (f a)) L := by
  have := h.bind fun a => pure (ε := ε) (τ := τ) (f a)
  rwa [mul_one] at this

theorem guard {p : Prop} [Decidable p] {x : p → Act ε (List τ) α} {k : Stop ε}
    (h : ∀ hp, TakesWord (x hp) L) :
    TakesWord (if hp : p then x hp else Act.stop k) L := by
  by_cases hp : p
  · rw [dif_pos hp]
    exact h hp
  · rw [dif_neg hp]
    exact stop k

theorem times (h : TakesWord x L) (n : Nat) : TakesWord (Act.times n x) (L ^ n) := by
  induction n with
  | zero => exact pow_zero L ▸ pure _
  | succ n ih => exact pow_succ' L n ▸ h.bind fun a => ih.map

theorem sequence {n : Nat} {τ' : Fin n → Type} {x : ∀ i, Act ε (List τ) (τ' i)}
    {L : Fin n → Language τ} (h : ∀ i, TakesWord (x i) (L i)) :
    TakesWord (Act.sequence n x) ((List.finRange n).map L).prod := by
  induction n with
  | zero => exact pure _
  | succ n ih =>
      rw [List.finRange_succ, List.map_cons, List.prod_cons, List.map_map]
      exact (h 0).bind fun a => (ih fun i => h i.succ).map

end TakesWord

end WiringRs
