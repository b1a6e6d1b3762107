import WiringRs.ConcatArray
import WiringRs.Roundtrip

/-!
# Enum tags

A variant is written as its index, cast to the integer type of the tag, and found
again by a `match` on the number that is read. The cast is the identity up to the
256 values of a byte, or the 65536 of two.

`get_tag` lets an enum of more variants pass in two places: it holds the variants of a
`#[tag(u8)]` enum against the bound of `u16`, and those of an enum without the attribute
against none.
-/

namespace WiringRs

open Wiring

/-! ## What `get_tag` checks -/

/-- The last attribute gives the tag, and its bound holds. -/
theorem getTag_concat {attrs : List TagMeta} {attr : TagMeta} {len : Nat} {tag : PrimTy}
    (h : getTag (attrs ++ [attr]) len = some tag) :
    (attr = .u8 ∧ tag = .u8) ∨ (attr = .u16 ∧ tag = .u16 ∧ len < 2 ^ 16) ∨
      (attr = .u32 ∧ tag = .u32 ∧ len < 2 ^ 32) := by
  rw [getTag, List.foldlM_append] at h
  obtain ⟨t, -, h⟩ := Option.bind_eq_some_iff.mp h
  rw [List.foldlM_cons] at h
  obtain ⟨t', ht', h⟩ := Option.bind_eq_some_iff.mp h
  obtain rfl : t' = tag := Option.some.inj h
  cases attr with
  | u8 =>
      rw [tagMeta, Option.ite_none_left_eq_some] at ht'
      exact Or.inl ⟨rfl, (Option.some.inj ht'.2).symm⟩
  | u16 =>
      rw [tagMeta, Option.ite_none_left_eq_some] at ht'
      exact Or.inr (Or.inl ⟨rfl, (Option.some.inj ht'.2).symm, by omega⟩)
  | u32 =>
      rw [tagMeta, Option.ite_none_left_eq_some] at ht'
      exact Or.inr (Or.inr ⟨rfl, (Option.some.inj ht'.2).symm, by omega⟩)
  | other => cases ht'

/-- The tags suffice for the variants, but for the two cases that are not checked. -/
theorem EnumDecl.variants_le_iff (d : EnumDecl) : d.variants ≤ 256 ^ d.tag.size ↔
    (d.attrs = [] → d.variants ≤ 2 ^ 16) ∧
      (d.attrs.getLast? = some .u8 → d.variants ≤ 2 ^ 8) := by
  have htag := d.tag_eq
  rcases List.eq_nil_or_concat' d.attrs with hnil | ⟨attrs, attr, hattrs⟩
  · rw [hnil] at htag ⊢
    rw [← show PrimTy.u16 = d.tag from Option.some.inj htag]
    simp [PrimTy.size]
  · rw [hattrs] at htag ⊢
    rw [List.getLast?_concat]
    rcases getTag_concat htag with ⟨rfl, h⟩ | ⟨rfl, h, hlen⟩ | ⟨rfl, h, hlen⟩
    · rw [h]
      simp [PrimTy.size]
    · rw [h]
      simp [PrimTy.size]
      omega
    · rw [h]
      simp [PrimTy.size]
      omega

/-! ## Values and their tags -/

/-- What the asynchronous encoder writes for a value. -/
def wiringBytes {α : Type} [Wiring α] (v : α) : Bytes := (wiring v ([] : Bytes)).2

theorem WTy.wiringBytes_eq {α : Type} [Wiring α] (T : WTy α) (v : α) :
    wiringBytes v = T.encode true v :=
  congrArg Prod.snd ((T.encoder.wiring_emits v).run [])

/-- The decoder finds a variant whose index fits the tag. -/
theorem decodes_variant {d : EnumDecl}
    {ty : (v : Fin d.variants) → Fin (d.arity v) → Type}
    {readTag : IoM Bytes (Prim d.tag)} (htag : ReadsPrim readTag)
    {x : ∀ v i, IoM Bytes (ty v i)} (e : Enum d ty)
    (fits : e.variant.val < 256 ^ d.tag.size) {g : Fin (d.arity e.variant) → Bytes}
    (h : ∀ i, Decodes (x e.variant i) (g i) fun _ => True) :
    Decodes (do
        let taged ← readTag
        d.matchTag taged.toNat fun v => do
          let field ← Act.sequence (d.arity v) (x v)
          pure (Enum.mk v field))
      (e.idx.toBeBytes ++ (List.finRange _).flatMap g)
      fun e' : Enum d ty => e'.variant = e.variant := by
  refine (decodes_enum htag e fits h).mono ?_
  rintro e' ⟨field, rfl, -⟩
  rfl

section

variable {d : EnumDecl} {ty : (v : Fin d.variants) → Fin (d.arity v) → Type}
  [∀ v i, RustType (ty v i)] [∀ v i, Wiring (ty v i)] [∀ v i, Unwiring (ty v i)]
  [RustType (Enum d ty)]

variable (d ty) in
/-- The tag that is written for a variant stands for no other one. -/
structure UnambiguousTags : Prop where
  injective : Function.Injective fun v : Fin d.variants => (Prim.ofNat v : Prim d.tag)
  matchTag_eq : ∀ (v : Fin d.variants) (arm : Fin d.variants → IoM Bytes (Enum d ty)),
    d.matchTag (Prim.ofNat v : Prim d.tag).toNat arm = arm v
  /-- A value is decoded to its variant, once its fields are decoded. -/
  sync : ∀ e : Enum d ty,
    (∀ i, Decodes (syncUnwiring : IoM Bytes (ty e.variant i)) (syncBytes (e.field i))
      fun _ => True) →
    Decodes (syncUnwiring : IoM Bytes (Enum d ty)) (syncBytes e) fun e' =>
      e'.variant = e.variant
  async : ∀ e : Enum d ty,
    (∀ i, Decodes (unwiring : IoM Bytes (ty e.variant i)) (wiringBytes (e.field i))
      fun _ => True) →
    Decodes (unwiring : IoM Bytes (Enum d ty)) (wiringBytes e) fun e' =>
      e'.variant = e.variant

/-- **When tags are unambiguous.** Exactly where there are no more variants than values
of the tag: at most 256 with `#[tag(u8)]`, and 65536 without an attribute. -/
theorem unambiguousTags_iff (T : ∀ v i, WTy (ty v i)) : UnambiguousTags d ty ↔
    (d.attrs = [] → d.variants ≤ 2 ^ 16) ∧
      (d.attrs.getLast? = some .u8 → d.variants ≤ 2 ^ 8) := by
  rw [← d.variants_le_iff]
  constructor
  · intro h
    by_contra hlt
    have hlt : 256 ^ d.tag.size < d.variants := Nat.lt_of_not_le hlt
    -- the first index that does not fit is cast to that of the first variant
    have heq : (Prim.ofNat (256 ^ d.tag.size) : Prim d.tag) = .ofNat 0 :=
      Prim.ext (by simp [Prim.ofNat])
    have hzero := congrArg Fin.val (@h.injective ⟨_, hlt⟩ ⟨0, d.pos⟩ heq)
    exact absurd hzero (Nat.ne_of_gt (Nat.pow_pos (by decide)))
  · intro hle
    have fits (v : Fin d.variants) : v.val < 256 ^ d.tag.size :=
      Nat.lt_of_lt_of_le v.isLt hle
    have htoNat (v : Fin d.variants) : (Prim.ofNat v : Prim d.tag).toNat = v :=
      Prim.toNat_ofNat (fits v)
    refine ⟨fun v v' h => ?_, fun v arm => ?_, fun e h => ?_, fun e h => ?_⟩
    · have hval := congrArg Prim.toNat h
      rwa [htoNat, htoNat, Fin.val_inj] at hval
    · rw [htoNat, EnumDecl.matchTag_val]
    · rw [(WTy.enum d T).syncBytes_eq, WTy.encode]
      simp only [(T _ _).syncBytes_eq] at h
      exact decodes_variant (.syncUnwiring d.tag) e (fits _) h
    · rw [(WTy.enum d T).wiringBytes_eq, WTy.encode]
      simp only [(T _ _).wiringBytes_eq] at h
      show Decodes (unwiring (α := Prim d.tag) >>= _) _ _
      rw [unwiring_prim]
      exact decodes_variant .async e (fits _) h

end

/-- A `#[tag(u8)]` enum of 257 unit variants. -/
def wideDecl : EnumDecl where
  ident := "Wide"
  variants := 257
  arity _ := 0
  unit _ := true
  unit_arity _ _ := rfl
  pos := by decide
  attrs := [.u8]
  tag := .u8
  tag_eq := rfl

/-- Its last variant is decoded to the first one. -/
theorem wide_not_unambiguousTags :
    letI : RustType (Enum wideDecl fun _ _ => Unit) := ⟨2, "wide::Wide"⟩
    ¬ UnambiguousTags wideDecl fun _ _ => Unit := by
  let : RustType (Enum wideDecl fun _ _ => Unit) := ⟨2, "wide::Wide"⟩
  intro h
  obtain ⟨e, he, hvariant⟩ := h.sync ⟨⟨256, by decide⟩, fun _ => ()⟩ (fun i => i.elim0) []
  cases he
  cases hvariant

end WiringRs
