import Mathlib.Computability.Language
import WiringRs.Lib.Act

/-!
# Measuring words

A call that walks over a list of tokens and reports how many it has passed.
`Gauges x L E`: the call takes a word of the language `L` off the list and
reports its length, unless the list is in `E`, where it panics. `Counts k f L E`
is the same for a call that adds the length to a running total, in which `k`
tokens of the word are counted already.

Both are equivalences, so they say of every list whether the call returns,
panics or fails otherwise. They are closed under sequencing and loops: the
language of a loop is a power, and it panics where one of its turns does.

Where the total stays below a bound nothing panics (`Bounded`), provided that a list
starts with one word at most (`PrefixFree`). Whether there is a list of a given length on
which a loop panics can be told without lists from the words of its turns (`Within`).
-/

namespace WiringRs

variable {ε τ : Type}

structure Gauges (x : Act ε (List τ) Nat) (L : Language τ) (E : List τ → Prop) :
    Prop where
  ok_iff : ∀ {s t r}, x s = (.ok t, r) ↔
    ¬ E s ∧ ∃ l ∈ L, s = l ++ r ∧ t = l.length
  panic_iff : ∀ {s}, (x s).1 = .error .panic ↔ E s
  mono : ∀ {s} r, E s → E (s ++ r)

structure Counts (k : Nat) (f : Nat → Act ε (List τ) Nat) (L : Language τ)
    (E : Nat → List τ → Prop) : Prop where
  le : ∀ l ∈ L, k ≤ l.length
  ok_iff : ∀ {total s t r}, f total s = (.ok t, r) ↔
    ¬ E total s ∧ ∃ l ∈ L, s = l ++ r ∧ t + k = total + l.length
  panic_iff : ∀ {total s}, (f total s).1 = .error .panic ↔ E total s
  mono : ∀ {total s} r, E total s → E total (s ++ r)

/-- The first call panics, or the second one after a word of the first. -/
def SpillsThen (k : Nat) (L : Language τ) (E E' : Nat → List τ → Prop)
    (total : Nat) (s : List τ) : Prop :=
  E total s ∨ ∃ l ∈ L, ∃ r, s = l ++ r ∧ E' (total + l.length - k) r

/-- One of `n` turns panics. -/
def SpillsTimes (k : Nat) (L : Language τ) (E : Nat → List τ → Prop) :
    Nat → Nat → List τ → Prop
  | 0 => fun _ _ => False
  | n + 1 => SpillsThen k L E (SpillsTimes k L E n)

namespace Counts

variable {k k' : Nat} {f g : Nat → Act ε (List τ) Nat} {L L' : Language τ}
  {E E' : Nat → List τ → Prop}

theorem congr (h : Counts k f L E) (hL : ∀ l, l ∈ L' ↔ l ∈ L)
    (hE : ∀ total s, E' total s ↔ E total s) : Counts k f L' E' := by
  obtain rfl : L' = L := Language.ext hL
  obtain rfl : E' = E := funext fun total => funext fun s => propext (hE total s)
  exact h

theorem pure : Counts 0 (Pure.pure : Nat → Act ε (List τ) Nat) 1 fun _ _ => False where
  le _ _ := Nat.zero_le _
  ok_iff {total s t r} := by
    simp only [Act.pure_apply, Prod.mk.injEq, Except.ok.injEq, not_false_iff, true_and,
      Language.mem_one, exists_eq_left, List.nil_append, List.length_nil, Nat.add_zero]
    constructor
    · rintro ⟨rfl, rfl⟩
      exact ⟨rfl, rfl⟩
    · rintro ⟨rfl, rfl⟩
      exact ⟨rfl, rfl⟩
  panic_iff := by simp
  mono _ := id

/-- A word of the language that the call does not panic on is taken. -/
theorem ok (h : Counts k f L E) {total : Nat} {l r : List τ} (hE : ¬ E total (l ++ r))
    (hl : l ∈ L) : f total (l ++ r) = (.ok (total + l.length - k), r) := by
  have hle := h.le l hl
  exact h.ok_iff.mpr ⟨hE, l, hl, rfl, by omega⟩

/-- The call takes one word only. -/
theorem ok_unique (h : Counts k f L E) {total t : Nat} {s l r r' : List τ}
    (hx : f total s = (.ok t, r)) (hl : l ∈ L) (hs : s = l ++ r') :
    total + l.length - k = t ∧ r' = r := by
  subst hs
  have hE := (h.ok_iff.mp hx).1
  obtain ⟨ht, hr⟩ := Prod.mk.inj ((h.ok hE hl).symm.trans hx)
  exact ⟨Except.ok.inj ht, hr⟩

theorem bind (h : Counts k f L E) (h' : Counts k' g L' E') :
    Counts (k + k') (fun total => f total >>= g) (L * L') (SpillsThen k L E E') where
  le l hl := by
    obtain ⟨a, ha, b, hb, rfl⟩ := Language.mem_mul.mp hl
    have hle := h.le a ha
    have hle' := h'.le b hb
    rw [List.length_append]
    omega
  ok_iff {total s t r} := by
    rw [Act.bind_eq_ok]
    constructor
    · rintro ⟨t1, s1, h1, h2⟩
      obtain ⟨hE, a, ha, rfl, ht1⟩ := h.ok_iff.mp h1
      obtain ⟨hE', b, hb, rfl, ht⟩ := h'.ok_iff.mp h2
      refine ⟨?_, a ++ b, Language.append_mem_mul ha hb,
        (List.append_assoc ..).symm, ?_⟩
      · rintro (hpanic | ⟨c, hc, r', hs, hpanic⟩)
        · exact hE hpanic
        · obtain ⟨rfl, rfl⟩ := h.ok_unique h1 hc hs
          exact hE' hpanic
      · rw [List.length_append]
        omega
    · rintro ⟨hE, l, hl, rfl, ht⟩
      obtain ⟨a, ha, b, hb, rfl⟩ := Language.mem_mul.mp hl
      rw [List.append_assoc] at hE ⊢
      obtain ⟨hE1, hE2⟩ := not_or.mp hE
      have hle := h.le a ha
      rw [List.length_append] at ht
      refine ⟨_, _, h.ok hE1 ha, h'.ok_iff.mpr ⟨?_, b, hb, rfl, by omega⟩⟩
      exact fun hpanic => hE2 ⟨a, ha, _, rfl, hpanic⟩
  panic_iff {total s} := by
    by_cases hE : E total s
    · have hpanic := h.panic_iff.mpr hE
      rcases hx : f total s with ⟨o, s1⟩
      rw [hx] at hpanic
      cases hpanic
      rw [Act.bind_error hx]
      exact iff_of_true rfl (Or.inl hE)
    · rcases hx : f total s with ⟨e | t1, s1⟩
      · rw [Act.bind_error hx]
        refine iff_of_false ?_ ?_
        · intro he
          exact hE (h.panic_iff.mp (by rw [hx]; exact he))
        · rintro (hpanic | ⟨a, ha, r, rfl, -⟩)
          · exact hE hpanic
          · cases hx.symm.trans (h.ok hE ha)
      · rw [Act.bind_ok hx, h'.panic_iff]
        obtain ⟨-, a, ha, rfl, ht1⟩ := h.ok_iff.mp hx
        constructor
        · intro hpanic
          refine Or.inr ⟨a, ha, s1, rfl, ?_⟩
          rwa [← ht1, Nat.add_sub_cancel]
        · rintro (hpanic | ⟨b, hb, r, hs, hpanic⟩)
          · exact absurd hpanic hE
          · obtain ⟨rfl, rfl⟩ := h.ok_unique hx hb hs
            exact hpanic
  mono {total s} r := by
    rintro (hpanic | ⟨a, ha, r', rfl, hpanic⟩)
    · exact Or.inl (h.mono r hpanic)
    · exact Or.inr ⟨a, ha, r' ++ r, List.append_assoc .., h'.mono r hpanic⟩

theorem iter (h : Counts k f L E) (n : Nat) :
    Counts (n * k) (Act.iter n f) (L ^ n) (SpillsTimes k L E n) := by
  induction n with
  | zero =>
      rw [Nat.zero_mul, pow_zero]
      exact pure
  | succ n ih =>
      rw [Nat.succ_mul, Nat.add_comm, pow_succ']
      exact h.bind ih

/-- The total starts with what is counted already. -/
theorem start (h : Counts k f L E) : Gauges (f k) L (E k) where
  ok_iff {s t r} := by
    rw [h.ok_iff]
    refine and_congr_right fun _ => exists_congr fun l => and_congr_right fun _ =>
      and_congr_right fun _ => ?_
    omega
  panic_iff := h.panic_iff
  mono := h.mono

end Counts

namespace Gauges

variable {x : Act ε (List τ) Nat} {L L' : Language τ} {E E' : List τ → Prop}

theorem congr (h : Gauges x L E) (hL : ∀ l, l ∈ L' ↔ l ∈ L) (hE : ∀ s, E' s ↔ E s) :
    Gauges x L' E' := by
  obtain rfl : L' = L := Language.ext hL
  obtain rfl : E' = E := funext fun s => propext (hE s)
  exact h

theorem ok (h : Gauges x L E) {l r : List τ} (hE : ¬ E (l ++ r)) (hl : l ∈ L) :
    x (l ++ r) = (.ok l.length, r) := h.ok_iff.mpr ⟨hE, l, hl, rfl, rfl⟩

theorem ok_unique (h : Gauges x L E) {t : Nat} {s l r r' : List τ}
    (hx : x s = (.ok t, r)) (hl : l ∈ L) (hs : s = l ++ r') :
    l.length = t ∧ r' = r := by
  subst hs
  have hE := (h.ok_iff.mp hx).1
  obtain ⟨ht, hr⟩ := Prod.mk.inj ((h.ok hE hl).symm.trans hx)
  exact ⟨Except.ok.inj ht, hr⟩

/-- What the call has measured once, it measures without the rest of the list. -/
theorem alone (h : Gauges x L E) {s r : List τ} {t : Nat} (hx : x s = (.ok t, r)) :
    ∃ l, s = l ++ r ∧ l.length = t ∧ x l = (.ok t, []) := by
  obtain ⟨hE, l, hl, rfl, rfl⟩ := h.ok_iff.mp hx
  have hE' : ¬ E l := fun hpanic => hE (h.mono r hpanic)
  have hok := h.ok (r := []) (by rwa [List.append_nil]) hl
  rw [List.append_nil] at hok
  exact ⟨l, rfl, rfl, hok⟩

end Gauges

/-! ## Prefix codes -/

/-- A list starts with at most one word of the language. -/
structure PrefixFree (L : Language τ) : Prop where
  inj : ∀ {l l' r r'}, l ∈ L → l' ∈ L → l ++ r = l' ++ r' → l = l' ∧ r = r'

namespace PrefixFree

variable {L L' : Language τ}

theorem zero : PrefixFree (0 : Language τ) := ⟨fun hl => (Language.notMem_zero _ hl).elim⟩

theorem one : PrefixFree (1 : Language τ) where
  inj hl hl' h := by
    rw [Language.mem_one] at hl hl'
    subst hl hl'
    exact ⟨rfl, h⟩

theorem mul (h : PrefixFree L) (h' : PrefixFree L') : PrefixFree (L * L') where
  inj hl hl' heq := by
    obtain ⟨a, ha, b, hb, rfl⟩ := Language.mem_mul.mp hl
    obtain ⟨c, hc, d, hd, rfl⟩ := Language.mem_mul.mp hl'
    rw [List.append_assoc, List.append_assoc] at heq
    obtain ⟨rfl, hrest⟩ := h.inj ha hc heq
    obtain ⟨rfl, hr⟩ := h'.inj hb hd hrest
    exact ⟨rfl, hr⟩

theorem pow (h : PrefixFree L) (n : Nat) : PrefixFree (L ^ n) := by
  induction n with
  | zero =>
      rw [pow_zero]
      exact one
  | succ n ih =>
      rw [pow_succ']
      exact h.mul ih

theorem prod {ι : Type} {L : ι → Language τ} (h : ∀ i, PrefixFree (L i)) (is : List ι) :
    PrefixFree (is.map L).prod := by
  induction is with
  | nil => exact one
  | cons i is ih => exact (h i).mul ih

end PrefixFree

/-! ## Totals below a bound -/

/-- Nothing panics on the way past a word unless the total passes `B`. -/
structure Bounded (B k : Nat) (L : Language τ) (E : Nat → List τ → Prop) : Prop where
  le : ∀ l ∈ L, k ≤ l.length
  prefixFree : PrefixFree L
  not_panics : ∀ {total l} r, l ∈ L → total + l.length < B + k → ¬ E total (l ++ r)

namespace Bounded

variable {B k k' : Nat} {L L' : Language τ} {E E' : Nat → List τ → Prop}

theorem pure : Bounded B 0 (1 : Language τ) fun _ _ => False :=
  ⟨fun _ _ => Nat.zero_le _, .one, fun _ _ _ => id⟩

theorem bind (h : Bounded B k L E) (h' : Bounded B k' L' E') :
    Bounded B (k + k') (L * L') (SpillsThen k L E E') where
  le l hl := by
    obtain ⟨a, ha, b, hb, rfl⟩ := Language.mem_mul.mp hl
    have hle := h.le a ha
    have hle' := h'.le b hb
    rw [List.length_append]
    omega
  prefixFree := h.prefixFree.mul h'.prefixFree
  not_panics {total l} r hl hlt := by
    obtain ⟨a, ha, b, hb, rfl⟩ := Language.mem_mul.mp hl
    have hle := h.le a ha
    have hle' := h'.le b hb
    rw [List.length_append] at hlt
    rw [List.append_assoc]
    rintro (hpanic | ⟨c, hc, s, hs, hpanic⟩)
    · exact h.not_panics _ ha (by omega) hpanic
    · obtain ⟨rfl, rfl⟩ := h.prefixFree.inj ha hc hs
      exact h'.not_panics r hb (by omega) hpanic

theorem iter (h : Bounded B k L E) (n : Nat) :
    Bounded B (n * k) (L ^ n) (SpillsTimes k L E n) := by
  induction n with
  | zero =>
      rw [Nat.zero_mul, pow_zero]
      exact pure
  | succ n ih =>
      rw [Nat.succ_mul, Nat.add_comm, pow_succ']
      exact h.bind ih

end Bounded

/-! ## Lists within a bound -/

/-- Some list of at most `room` tokens is in `E`. -/
def Within (room : Nat) (E : List τ → Prop) : Prop := ∃ s, s.length ≤ room ∧ E s

namespace Within

variable {k room room' total : Nat} {L : Language τ} {F : List τ → Prop}
  {E E' : Nat → List τ → Prop}

theorem mono (h : room ≤ room') : Within room F → Within room' F := by
  rintro ⟨s, hs, hF⟩
  exact ⟨s, Nat.le_trans hs h, hF⟩

theorem of_forall {P : Prop} (h : ∀ s, F s ↔ P) : Within room F ↔ P := by
  constructor
  · rintro ⟨s, -, hF⟩
    exact (h s).mp hF
  · intro hp
    exact ⟨[], Nat.zero_le _, (h []).mpr hp⟩

theorem or {G : List τ → Prop} :
    Within room (fun s => F s ∨ G s) ↔ Within room F ∨ Within room G := by
  constructor
  · rintro ⟨s, hs, hF | hG⟩
    · exact .inl ⟨s, hs, hF⟩
    · exact .inr ⟨s, hs, hG⟩
  · rintro (⟨s, hs, hF⟩ | ⟨s, hs, hG⟩)
    · exact ⟨s, hs, .inl hF⟩
    · exact ⟨s, hs, .inr hG⟩

/-- A word stands in front of the list. -/
theorem append {E : List τ → List τ → Prop} :
    Within room (fun s => ∃ l ∈ L, ∃ r, s = l ++ r ∧ E l r) ↔
      ∃ l ∈ L, l.length ≤ room ∧ Within (room - l.length) (E l) := by
  constructor
  · rintro ⟨_, hs, l, hl, r, rfl, hE⟩
    rw [List.length_append] at hs
    exact ⟨l, hl, by omega, r, by omega, hE⟩
  · rintro ⟨l, hl, hle, r, hr, hE⟩
    exact ⟨l ++ r, by rw [List.length_append]; omega, l, hl, r, rfl, hE⟩

theorem spillsThen : Within room (SpillsThen k L E E' total) ↔ Within room (E total) ∨
    ∃ l ∈ L, l.length ≤ room ∧ Within (room - l.length) (E' (total + l.length - k)) :=
  or.trans (or_congr_right append)

/-- One of the turns panics, after some that do not. -/
theorem spillsTimes (hk : ∀ l ∈ L, k ≤ l.length) {n : Nat} :
    Within room (SpillsTimes k L E n total) ↔ ∃ m < n, ∃ l ∈ L ^ m, l.length ≤ room ∧
      Within (room - l.length) (E (total + l.length - k * m)) := by
  induction n generalizing total room with
  | zero =>
      refine iff_of_false ?_ ?_
      · rintro ⟨s, -, hF⟩
        exact hF
      · rintro ⟨m, hm, -⟩
        exact Nat.not_lt_zero m hm
  | succ n ih =>
      rw [SpillsTimes, spillsThen]
      simp only [ih]
      constructor
      · rintro (hfirst | ⟨a, ha, hale, m, hm, l, hl, hle, hlater⟩)
        · refine ⟨0, Nat.succ_pos n, [], ?_, Nat.zero_le _, ?_⟩
          · rw [pow_zero]
            exact Language.nil_mem_one
          · simpa using hfirst
        · refine ⟨m + 1, Nat.succ_lt_succ hm, a ++ l, ?_, ?_, ?_⟩
          · rw [pow_succ']
            exact Language.append_mem_mul ha hl
          · rw [List.length_append]
            omega
          · have hka := hk a ha
            rw [List.length_append, Nat.mul_succ, Nat.sub_add_eq room]
            rwa [show total + (a.length + l.length) - (k * m + k) =
              total + a.length - k + l.length - k * m by omega]
      · rintro ⟨m, hm, l, hl, hle, hpanics⟩
        cases m with
        | zero =>
            rw [pow_zero, Language.mem_one] at hl
            subst hl
            exact .inl (by simpa using hpanics)
        | succ m =>
            rw [pow_succ'] at hl
            obtain ⟨a, ha, b, hb, rfl⟩ := Language.mem_mul.mp hl
            have hka := hk a ha
            rw [List.length_append] at hle
            rw [List.length_append, Nat.mul_succ, Nat.sub_add_eq room] at hpanics
            refine .inr ⟨a, ha, by omega, m, Nat.lt_of_succ_lt_succ hm, b, hb, by omega, ?_⟩
            rwa [show total + (a.length + b.length) - (k * m + k) =
              total + a.length - k + b.length - k * m by omega] at hpanics

end Within

end WiringRs
