import Mathlib.Algebra.BigOperators.Fin
import Mathlib.Algebra.Order.BigOperators.Group.Finset
import WiringRs.Lengths
import WiringRs.Lib.Decodes

/-!
# Elements of fixed size

The pre-pass of a `Vec` measures its elements one by one if their type is
`MIXED`, and else multiplies their number by `FIXED_SIZE`. The two constants are
independent of the decoder. They fit it exactly at the types of `UTy.ConstSize`:
the floats keep a `FIXED_SIZE` of zero, and a tuple is not `MIXED` when one of its
components is not, whatever the others are.
-/

namespace WiringRs

/-! ## Types -/

/-- Integers, floats, `bool`, `()`, `String`, `Option`, `Vec`, arrays, pairs, triples,
derived structs, unit structs and derived enums over these. -/
def UTy.Plain : {α : Type} → {r : RustType α} → {u : Unwiring α} →
    @UTy α r u → Prop
  | _, _, _, UTy.prim _ | _, _, _, UTy.unit | _, _, _, UTy.bool | _, _, _, UTy.string
  | _, _, _, UTy.unitStruct => True
  | _, _, _, UTy.array T _ | _, _, _, UTy.vec T | _, _, _, UTy.option T => T.Plain
  | _, _, _, UTy.pair T TT => T.Plain ∧ TT.Plain
  | _, _, _, UTy.triple T TT T3 => T.Plain ∧ TT.Plain ∧ T3.Plain
  | _, _, _, UTy.struct _ T => ∀ i, (T i).Plain
  | _, _, _, UTy.enum _ T => ∀ v i, (T v i).Plain
  | _, _, _, _ => False

/-- Outside of empty arrays, the type is built from integers only, by arrays, tuples
and structs. -/
def UTy.ConstSize : {α : Type} → {r : RustType α} → {u : Unwiring α} →
    @UTy α r u → Prop
  | _, _, _, UTy.prim t => t ≠ .f32 ∧ t ≠ .f64
  | _, _, _, UTy.unitStruct => True
  | _, _, _, UTy.array T N => N = 0 ∨ T.ConstSize
  | _, _, _, UTy.pair T TT => T.ConstSize ∧ TT.ConstSize
  | _, _, _, UTy.triple T TT T3 => T.ConstSize ∧ TT.ConstSize ∧ T3.ConstSize
  | _, _, _, UTy.struct _ T => ∀ i, (T i).ConstSize
  | _, _, _, _ => False

/-! ## Decoders of one length -/

theorem stretch_add (m n : Nat) : stretch m * stretch n = stretch (m + n) := by
  refine Language.ext fun l => ?_
  rw [Language.mem_mul, mem_stretch]
  constructor
  · rintro ⟨a, ha, b, hb, rfl⟩
    rw [List.length_append, mem_stretch.mp ha, mem_stretch.mp hb]
  · intro hl
    refine ⟨l.take m, ?_, l.drop m, ?_, List.take_append_drop ..⟩
    · rw [mem_stretch, List.length_take]
      omega
    · rw [mem_stretch, List.length_drop]
      omega

theorem stretch_zero : stretch 0 = 1 := by
  have h := stretch_pow 0 0
  rwa [pow_zero, Nat.mul_zero, eq_comm] at h

theorem stretch_prod {ι : Type} (size : ι → Nat) (l : List ι) :
    (l.map fun i => stretch (size i)).prod = stretch (l.map size).sum := by
  induction l with
  | nil => exact stretch_zero.symm
  | cons i l ih =>
      rw [List.map_cons, List.prod_cons, ih, stretch_add, List.map_cons, List.sum_cons]

theorem TakesWord.prim (t : PrimTy) :
    TakesWord (syncUnwiring : IoM Bytes (Prim t)) (stretch t.size) := by
  intro s v r h
  exact ⟨v.toBeBytes, v.length_toBeBytes, (ReadsPrim.syncUnwiring t).ok_iff.mp h⟩

theorem TakesWord.unit : TakesWord (syncUnwiring : IoM Bytes Unit) (stretch 1) := by
  have h := (TakesWord.prim .u8).bind fun n => show TakesWord
    (if n.toNat = 0 then Pure.pure () else
      Act.fail ⟨.invalidData, "Unexpected u8 unwiring data for ()"⟩) 1 by
    split
    · exact pure ()
    · exact stop _
  rw [mul_one] at h
  exact h

/-- **A type of constant size takes `FIXED_SIZE` bytes.** -/
theorem UTy.takesWord_constSize : {α : Type} → {r : RustType α} → {u : Unwiring α} →
    (T : @UTy α r u) → T.ConstSize →
    TakesWord (syncUnwiring : IoM Bytes α) (stretch (Unwiring.fixedSize α))
  | _, _, _, UTy.prim t, h => by
      have hprim := TakesWord.prim t
      cases t with
      | f32 => exact absurd rfl h.1
      | f64 => exact absurd rfl h.2
      | _ => exact hprim
  | _, _, _, UTy.unitStruct, _ => TakesWord.unit.map
  | _, _, _, @UTy.array α _ _ T N _, h => by
      show TakesWord (Act.times N _) (stretch (Unwiring.fixedSize α * N))
      rcases h with rfl | h
      · rw [Nat.mul_zero, stretch_zero]
        exact .pure _
      · rw [← stretch_pow]
        exact (T.takesWord_constSize h).times N
  | _, _, _, UTy.pair T TT, h => by
      have hword := (T.takesWord_constSize h.1).bind fun a =>
        (TT.takesWord_constSize h.2).map (f := fun b => (a, b))
      rw [stretch_add] at hword
      exact hword
  | _, _, _, UTy.triple T TT T3, h => by
      have hword := (T.takesWord_constSize h.1).bind fun a =>
        (TT.takesWord_constSize h.2.1).bind fun b =>
          (T3.takesWord_constSize h.2.2).map (f := fun c => Triple.mk a b c)
      rw [stretch_add, stretch_add, ← Nat.add_assoc] at hword
      exact hword
  | _, _, _, UTy.struct _ T, h => by
      have hword := TakesWord.sequence fun i => (T i).takesWord_constSize (h i)
      rw [stretch_prod] at hword
      exact hword.map

/-! ## A sample

Zero bytes decode at every type: as zeros, an empty string or vector, `None`, the
first variant. The sample is no shorter than `FIXED_SIZE`. -/

/-- The decoder takes `m` zero bytes. -/
abbrev DecodesZeros {α : Type} (x : IoM Bytes α) (m : Nat) : Prop :=
  Decodes x (List.replicate m 0) fun _ => True

namespace DecodesZeros

variable {α β : Type} {x : IoM Bytes α} {m k : Nat} {P : α → Prop}

theorem pure (a : α) : DecodesZeros (Pure.pure a) 0 := Decodes.pure trivial

theorem bind {f : α → IoM Bytes β} (h : Decodes x (List.replicate m 0) P)
    (hf : ∀ a, P a → DecodesZeros (f a) k) : DecodesZeros (x >>= f) (m + k) := by
  rw [DecodesZeros, List.replicate_add]
  exact h.bind hf

theorem map {f : α → β} (h : DecodesZeros x m) :
    DecodesZeros (do let a ← x; Pure.pure (f a)) m :=
  Decodes.map h fun _ => id

theorem times (h : DecodesZeros x m) (n : Nat) : DecodesZeros (Act.times n x) (m * n) := by
  induction n with
  | zero => exact pure _
  | succ n ih =>
      rw [Nat.mul_succ, Nat.add_comm (m * n) m]
      exact bind h fun a _ => ih.map

theorem sequence {n : Nat} {τ : Fin n → Type} {x : ∀ i, IoM Bytes (τ i)}
    {m : Fin n → Nat} (h : ∀ i, DecodesZeros (x i) (m i)) :
    DecodesZeros (Act.sequence n x) ((List.finRange n).map m).sum := by
  induction n with
  | zero => exact pure _
  | succ n ih =>
      rw [List.finRange_succ, List.map_cons, List.sum_cons, List.map_map]
      exact bind (h 0) fun a _ => (ih fun i => h i.succ).map

end DecodesZeros

theorem Decodes.zero (t : PrimTy) : Decodes (syncUnwiring : IoM Bytes (Prim t))
    (List.replicate t.size 0) fun v => v = .ofNat 0 := by
  intro rest
  refine ⟨.ofNat 0, (ReadsPrim.syncUnwiring t).ok_iff.mpr ?_, rfl⟩
  cases t <;> rfl

theorem Decodes.emptyString [RustType RString] :
    DecodesZeros (syncUnwiring : IoM Bytes RString) 8 := by
  refine DecodesZeros.bind (k := 0) (Decodes.zero .u64) fun len hlen rest => ?_
  subst hlen
  exact ⟨WiringRs.emptyString, readString_eq_ok.mpr
    ⟨Nat.zero_le _, fromUtf8_bytes WiringRs.emptyString, rfl⟩, trivial⟩

/-- **Every type has a sample**, and one of `FIXED_SIZE` bytes only if the type is of
constant size. -/
theorem UTy.sample : {α : Type} → {r : RustType α} → {u : Unwiring α} →
    (T : @UTy α r u) → T.Plain → ∃ m, DecodesZeros (syncUnwiring : IoM Bytes α) m ∧
      Unwiring.fixedSize α ≤ m ∧ (m = Unwiring.fixedSize α → T.ConstSize)
  | _, _, _, UTy.prim t, _ => by
      refine ⟨t.size, (Decodes.zero t).mono fun _ _ => trivial, ?_⟩
      cases t with
      | f32 | f64 => exact ⟨Nat.zero_le _, fun h => by cases h⟩
      | _ => exact ⟨Nat.le_refl _, fun _ => ⟨by decide, by decide⟩⟩
  | _, _, _, UTy.unit, _ => by
      refine ⟨1, DecodesZeros.bind (k := 0) (Decodes.zero .u8) fun n hn => ?_,
        Nat.zero_le _, fun h => by cases h⟩
      subst hn
      exact .pure ()
  | _, _, _, UTy.bool, _ =>
      ⟨1, (Decodes.zero .u8).map fun _ _ => trivial, Nat.zero_le _, fun h => by cases h⟩
  | _, _, _, UTy.string, _ =>
      ⟨8, Decodes.emptyString, Nat.zero_le _, fun h => by cases h⟩
  | _, _, _, @UTy.array α _ _ T N _, hplain => by
      obtain ⟨m, hzeros, hle, hconst⟩ := T.sample hplain
      refine ⟨m * N, hzeros.times N, Nat.mul_le_mul_right N hle, ?_⟩
      intro h
      rcases Nat.eq_zero_or_pos N with hN | hN
      · exact Or.inl hN
      · exact Or.inr (hconst (Nat.eq_of_mul_eq_mul_right hN h))
  | _, _, _, @UTy.vec α _ _ T _, _ => by
      refine ⟨8, DecodesZeros.bind (k := 0) (Decodes.zero .u64) fun len hlen => ?_,
        Nat.zero_le _, fun h => by cases h⟩
      subst hlen
      show DecodesZeros (collect 0 _) 0
      unfold collect
      rw [dif_pos ⟨Nat.zero_le _, by rw [Nat.zero_mul]; exact Nat.zero_le _⟩]
      exact .pure _
  | _, _, _, UTy.option T, _ => by
      refine ⟨1, DecodesZeros.bind (k := 0) (Decodes.zero .u8) fun variant hvariant => ?_,
        Nat.zero_le _, fun h => by cases h⟩
      subst hvariant
      exact .pure none
  | _, _, _, UTy.pair T TT, hplain => by
      obtain ⟨m, hzeros, hle, hconst⟩ := T.sample hplain.1
      obtain ⟨m', hzeros', hle', hconst'⟩ := TT.sample hplain.2
      refine ⟨m + m', .bind hzeros fun a _ => hzeros'.map, Nat.add_le_add hle hle', ?_⟩
      intro h
      change m + m' = Unwiring.fixedSize _ + Unwiring.fixedSize _ at h
      exact ⟨hconst (by omega), hconst' (by omega)⟩
  | _, _, _, UTy.triple T TT T3, hplain => by
      obtain ⟨m, hzeros, hle, hconst⟩ := T.sample hplain.1
      obtain ⟨m', hzeros', hle', hconst'⟩ := TT.sample hplain.2.1
      obtain ⟨m'', hzeros'', hle'', hconst''⟩ := T3.sample hplain.2.2
      refine ⟨m + (m' + m''),
        .bind hzeros fun a _ => .bind hzeros' fun b _ => hzeros''.map, ?_⟩
      change _ + _ + _ ≤ m + (m' + m'') ∧ (m + (m' + m'') = _ + _ + _ → _)
      refine ⟨by omega, fun h => ⟨hconst ?_, hconst' ?_, hconst'' ?_⟩⟩ <;> omega
  | _, _, _, @UTy.struct n _ ty _ _ T _, hplain => by
      choose m hzeros hle hconst using fun i => (T i).sample (hplain i)
      refine ⟨_, (DecodesZeros.sequence hzeros).map, ?_⟩
      change ((List.finRange n).map fun f => Unwiring.fixedSize (ty f)).sum ≤ _ ∧
        (_ = ((List.finRange n).map fun f => Unwiring.fixedSize (ty f)).sum → _)
      rw [← Fin.sum_univ_def, ← Fin.sum_univ_def]
      refine ⟨Finset.sum_le_sum fun i _ => hle i, ?_⟩
      intro hsum i
      have heq := (Finset.sum_eq_sum_iff_of_le fun i _ => hle i).mp hsum.symm
      exact hconst i (heq i (Finset.mem_univ i)).symm
  | _, _, _, UTy.unitStruct, _ => by
      refine ⟨1, DecodesZeros.map ?_, Nat.le_refl _, fun _ => trivial⟩
      refine DecodesZeros.bind (k := 0) (Decodes.zero .u8) fun n hn => ?_
      subst hn
      exact .pure ()
  | _, _, _, @UTy.enum d ty _ _ T _, hplain => by
      choose m hzeros _ _ using fun i => (T ⟨0, d.pos⟩ i).sample (hplain _ i)
      refine ⟨d.tag.size + ((List.finRange _).map m).sum,
        DecodesZeros.bind (Decodes.zero d.tag) fun taged htaged => ?_, Nat.zero_le _, ?_⟩
      · subst htaged
        have hzero : (Prim.ofNat 0 : Prim d.tag).toNat = 0 := Nat.zero_mod _
        unfold EnumDecl.matchTag
        simp only [hzero, d.pos, dif_pos]
        exact (DecodesZeros.sequence hzeros).map
      · intro h
        have hpos : 0 < d.tag.size := by cases d.tag <;> decide
        change d.tag.size + _ = 0 at h
        omega

/-! ## Fixed-size elements -/

/-- Every value takes exactly `FIXED_SIZE` bytes, so `count` elements of a `Vec` take the
`FIXED_SIZE * count` bytes that the pre-pass passes over. -/
structure FixedElements (α : Type) [RustType α] [Unwiring α] : Prop where
  decode : TakesWord (syncUnwiring : IoM Bytes α) (stretch (Unwiring.fixedSize α))
  elements : ∀ count, TakesWord (Act.times count (syncUnwiring : IoM Bytes α))
    (stretch (Unwiring.fixedSize α * count))

theorem UTy.fixedElements_iff {α : Type} [RustType α] [Unwiring α] (T : UTy α)
    (hplain : T.Plain) : FixedElements α ↔ T.ConstSize := by
  constructor
  · intro h
    obtain ⟨m, hzeros, -, hconst⟩ := T.sample hplain
    obtain ⟨v, hv, -⟩ := hzeros []
    obtain ⟨l, hl, hs⟩ := h.decode _ _ _ hv
    rw [List.append_nil, List.append_nil] at hs
    subst hs
    rw [mem_stretch, List.length_replicate] at hl
    exact hconst hl
  · intro h
    have hword := T.takesWord_constSize h
    refine ⟨hword, fun count => ?_⟩
    rw [← stretch_pow]
    exact hword.times count

/-- **A type that is not `MIXED` is of its `FIXED_SIZE` exactly when it is of constant
size.** -/
theorem not_mixed_fixedElements_iff {α : Type} [RustType α] [Unwiring α] (T : UTy α)
    (hplain : T.Plain) :
    (Unwiring.mixed α = false → FixedElements α) ↔
      (Unwiring.mixed α = false → T.ConstSize) :=
  forall_congr' fun _ => T.fixedElements_iff hplain

theorem not_mixed_fixedElements_u16 : FixedElements U16 :=
  (not_mixed_fixedElements_iff (.prim .u16) trivial).mpr (fun _ => ⟨by decide, by decide⟩) rfl

/-- A float is not `MIXED` and has a `FIXED_SIZE` of zero, but takes four bytes. -/
theorem f32_not_fixedElements :
    ¬ (Unwiring.mixed F32 = false → FixedElements F32) := by
  intro h
  obtain ⟨l, hl, hs⟩ := (h rfl).decode [0, 0, 0, 0] (.ofNat 0) [] rfl
  rw [List.append_nil] at hs
  subst hs
  cases hl

end WiringRs
