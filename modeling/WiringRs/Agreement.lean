import WiringRs.FixedSize

/-!
# The three encoders

The asynchronous encoders write a `#[fixed]` group as a `&[u8]`, whose length
goes before its bytes; the synchronous one writes the bytes alone. So the three
agree on a value exactly when encoding it meets no such group.
-/

namespace WiringRs

open Wiring

/-- How many `#[fixed]` groups the encoding of a value writes. -/
def WTy.groups : {α : Type} → {w : Wiring α} → @WTy α w → α → Nat
  | _, _, WTy.prim _, _ | _, _, WTy.usize, _ | _, _, WTy.char, _
  | _, _, WTy.unit, _ | _, _, WTy.bool, _ | _, _, WTy.string, _
  | _, _, WTy.str, _ | _, _, WTy.url _, _ | _, _, WTy.connectInfo _, _
  | _, _, WTy.wireInfo _, _ | _, _, WTy.unitStruct, _ => 0
  | _, _, WTy.slice T, s => (s.vec.toList.map T.groups).sum
  | _, _, WTy.arrayRef T _, a => (a.array.toList.map T.groups).sum
  | _, _, WTy.array T _, a => (a.toList.map T.groups).sum
  | _, _, WTy.vec T, v => (v.toList.map T.groups).sum
  | _, _, WTy.boxSlice T, b => (b.vec.toList.map T.groups).sum
  | _, _, WTy.hashSet T, s => (s.toList.map T.groups).sum
  | _, _, WTy.box T, b => T.groups b.inner
  | _, _, WTy.arc T, a => T.groups a.inner
  | _, _, WTy.option _, none => 0
  | _, _, WTy.option T, some t => T.groups t
  | _, _, WTy.pair T TT, p => T.groups p.1 + TT.groups p.2
  | _, _, WTy.triple T TT TTT, p =>
      T.groups p.fst + TT.groups p.snd + TTT.groups p.trd
  | _, _, WTy.wiringEvent T, .event e => T.groups e
  | _, _, WTy.wiringEvent _, .message _ _ _ => 0
  | _, _, WTy.wiringEvent _, .drop _ _ => 0
  | _, _, WTy.struct d T, s => (d.calls.syncWiringCalls.map fun
      | .field f => (T f).groups (s.field f)
      | .group _ _ => 1).sum
  | _, _, WTy.enum _ T, e =>
      ((List.finRange _).map fun i => (T e.variant i).groups (e.field i)).sum

/-! ## A group costs eight bytes -/

/-- `g` counts the eight-byte prefixes that are in `a` and not in `b`. -/
structure Prefixes (g : Nat) (a b : Bytes) : Prop where
  length_eq : a.length = b.length + 8 * g
  eq_of_zero : g = 0 → a = b

namespace Prefixes

theorem refl (a : Bytes) : Prefixes 0 a a := ⟨rfl, fun _ => rfl⟩

theorem append {g g' : Nat} {a b a' b' : Bytes} (h : Prefixes g a b)
    (h' : Prefixes g' a' b') : Prefixes (g + g') (a ++ a') (b ++ b') where
  length_eq := by
    rw [List.length_append, List.length_append, h.length_eq, h'.length_eq]; omega
  eq_of_zero hz := by rw [h.eq_of_zero (by omega), h'.eq_of_zero (by omega)]

theorem append_left {g : Nat} {a b : Bytes} (c : Bytes) (h : Prefixes g a b) :
    Prefixes g (c ++ a) (c ++ b) := by
  simpa using (refl c).append h

theorem flatMap {α : Type} {g : α → Nat} {e e' : α → Bytes} {l : List α}
    (h : ∀ v ∈ l, Prefixes (g v) (e v) (e' v)) :
    Prefixes (l.map g).sum (l.flatMap e) (l.flatMap e') := by
  induction l with
  | nil => exact refl []
  | cons v l ih =>
      exact (h v (List.mem_cons_self ..)).append
        (ih fun u hu => h u (List.mem_cons_of_mem _ hu))

theorem prefixed (a : Bytes) : Prefixes 1 (prefixed a) a where
  length_eq := by
    rw [WiringRs.prefixed, List.length_append, length_lenBytes]; omega
  eq_of_zero := nofun

theorem eq_iff {g : Nat} {a b : Bytes} (h : Prefixes g a b) : a = b ↔ g = 0 := by
  refine ⟨?_, h.eq_of_zero⟩
  intro hab
  have := h.length_eq
  rw [hab] at this
  omega

end Prefixes

theorem struct_prefixes {n : Nat} {d : StructDecl n} {ty : Fin n → Type}
    [∀ i, Wiring (ty i)] {T : ∀ i, WTy (ty i)}
    (h : ∀ i v, Prefixes ((T i).groups v) ((T i).encode true v)
      ((T i).encode false v)) (s : Struct d ty) :
    Prefixes ((WTy.struct d T).groups s) ((WTy.struct d T).encode true s)
      ((WTy.struct d T).encode false s) := by
  rw [WTy.groups, WTy.encode, WTy.encode]
  refine .flatMap fun c _ => ?_
  cases c with
  | field f => exact h f (s.field f)
  | group fs calls => exact .prefixed _

/-- The asynchronous format has one more prefix for each group. -/
theorem WTy.prefixes : {α : Type} → {w : Wiring α} → (T : @WTy α w) → (v : α) →
    Prefixes (T.groups v) (T.encode true v) (T.encode false v)
  | _, _, WTy.prim _, _ | _, _, WTy.usize, _ | _, _, WTy.char, _
  | _, _, WTy.unit, _ | _, _, WTy.bool, _ | _, _, WTy.string, _
  | _, _, WTy.str, _ | _, _, WTy.url _, _ | _, _, WTy.connectInfo _, _
  | _, _, WTy.wireInfo _, _ | _, _, WTy.unitStruct, _ => .refl _
  | _, _, WTy.slice T, _ => .append_left _ (.flatMap fun v _ => T.prefixes v)
  | _, _, WTy.arrayRef T _, _ => .flatMap fun v _ => T.prefixes v
  | _, _, WTy.array T _, _ => .flatMap fun v _ => T.prefixes v
  | _, _, WTy.vec T, _ => .append_left _ (.flatMap fun v _ => T.prefixes v)
  | _, _, WTy.boxSlice T, _ => .append_left _ (.flatMap fun v _ => T.prefixes v)
  | _, _, WTy.hashSet T, _ => .append_left _ (.flatMap fun v _ => T.prefixes v)
  | _, _, WTy.box T, b => T.prefixes b.inner
  | _, _, WTy.arc T, a => T.prefixes a.inner
  | _, _, WTy.option _, none => .refl _
  | _, _, WTy.option T, some t => (T.prefixes t).append_left [1]
  | _, _, WTy.pair T TT, p => (T.prefixes p.1).append (TT.prefixes p.2)
  | _, _, WTy.triple T TT TTT, p =>
      ((T.prefixes p.fst).append (TT.prefixes p.snd)).append (TTT.prefixes p.trd)
  | _, _, WTy.wiringEvent T, .event e => (T.prefixes e).append_left [0]
  | _, _, WTy.wiringEvent _, .message _ _ _ => .refl _
  | _, _, WTy.wiringEvent _, .drop _ _ => .refl _
  | _, _, WTy.struct _ T, s => struct_prefixes (fun i v => (T i).prefixes v) s
  | _, _, WTy.enum _ T, e => .append_left _
      (.flatMap fun i _ => (T e.variant i).prefixes (e.field i))

/-- The three encoders return and write the same bytes. -/
def Agree {α : Type} [Wiring α] (v : α) : Prop :=
  ∃ b, wiring v [] = (.ok (), b) ∧ wiringRef v [] = (.ok (), b) ∧
    syncWiring v ([] : Bytes) = (.ok (), b)

/-- **The three encoders agree exactly on the values whose encoding meets no
`#[fixed]` group.** -/
theorem agree_iff_no_groups {α : Type} [Wiring α] (T : WTy α) (v : α) :
    Agree v ↔ T.groups v = 0 := by
  have hw : wiring v [] = (.ok (), T.encode true v) :=
    (T.encoder.wiring_emits v).run []
  have hr : wiringRef v [] = (.ok (), T.encode true v) :=
    (T.encoder.wiringRef_emits v).run []
  have hs : syncWiring v ([] : Bytes) = (.ok (), T.encode false v) :=
    (T.encoder.syncWiring_emits v).run []
  rw [← (T.prefixes v).eq_iff]
  constructor
  · rintro ⟨b, hb, -, hb'⟩
    exact (congrArg Prod.snd (hw.symm.trans hb)).trans
      (congrArg Prod.snd (hs.symm.trans hb')).symm
  · intro heq
    exact ⟨_, hw, hr, heq ▸ hs⟩

/-- `struct Point { #[fixed] x: u32, y: u32 }` -/
def pointDecl : StructDecl 2 :=
  .ofChecked (fun i => if i = 0 then [.path] else []) Nat.two_pos _ rfl

/-- The asynchronous encoders of such a point write eight bytes more. -/
theorem point_not_agree :
    ¬ Agree (⟨fun _ => .ofNat 7⟩ : Struct pointDecl fun _ => U32) := by
  rintro ⟨b, hb, -, hb'⟩
  have h := (congrArg (fun p => p.2.length) hb).trans
    (congrArg (fun p => p.2.length) hb').symm
  exact absurd h (by decide)

end WiringRs
