import WiringRs.Overruns
import WiringRs.Roundtrip

/-!
# One encoding for each value

What the synchronous decoder takes off a slice is what the synchronous encoder
writes for the value it returns, for the types in which no byte is read loosely: a
bool is true for every byte but zero, a hash set may be listed in any order, and
a URL is written in its normal form.
-/

namespace WiringRs

open Wiring

namespace Codec

/-- No bool, hash set or URL occurs in the type. -/
def Canonical : {α : Type} → {r : RustType α} → {w : Wiring α} → {u : Unwiring α} →
    @Codec α r w u → Prop
  | _, _, _, _, prim _ | _, _, _, _, unit | _, _, _, _, string
  | _, _, _, _, unitStruct => True
  | _, _, _, _, bool | _, _, _, _, url _ _ | _, _, _, _, hashSet _ => False
  | _, _, _, _, option T | _, _, _, _, vec T | _, _, _, _, boxSlice T
  | _, _, _, _, box T | _, _, _, _, arc T | _, _, _, _, array T _ => T.Canonical
  | _, _, _, _, pair T TT => T.Canonical ∧ TT.Canonical
  | _, _, _, _, triple T TT TTT => T.Canonical ∧ TT.Canonical ∧ TTT.Canonical
  | _, _, _, _, struct _ _ T => ∀ i, (T i).Canonical
  | _, _, _, _, enum _ _ T => ∀ v i, (T v i).Canonical

/-- A type with an encoder and a decoder is one with a decoder. -/
def dty : {α : Type} → {r : RustType α} → {w : Wiring α} → {u : Unwiring α} →
    @Codec α r w u → DTy α
  | _, _, _, _, prim t => .prim t
  | _, _, _, _, unit => .unit
  | _, _, _, _, bool => .bool
  | _, _, _, _, string => .string
  | _, _, _, _, url U _ => .url U
  | _, _, _, _, option T => .option T.dty
  | _, _, _, _, vec T => .vec T.dty
  | _, _, _, _, boxSlice T => .boxSlice T.dty
  | _, _, _, _, box T => .box T.dty
  | _, _, _, _, arc T => .arc T.dty
  | _, _, _, _, array T N => .array T.dty N
  | _, _, _, _, pair T TT => .pair T.dty TT.dty
  | _, _, _, _, triple T TT TTT => .triple T.dty TT.dty TTT.dty
  | _, _, _, _, hashSet T => .hashSet T.dty
  | _, _, _, _, struct d _ T => .struct d fun i => (T i).dty
  | _, _, _, _, unitStruct => .unitStruct
  | _, _, _, _, enum d _ T => .enum d fun v i => (T v i).dty

end Codec

/-! ## The parts of the format -/

theorem ReadsPrim.takes {t : PrimTy} {x : IoM Bytes (Prim t)} (hx : ReadsPrim x) :
    Takes x Prim.toBeBytes := by
  intro s v r h
  obtain ⟨hle, rfl, rfl⟩ := (hx ..).mp h
  rw [Prim.toBeBytes_fromBeBytes (by rw [List.length_take, Nat.min_eq_left hle]),
    List.take_append_drop]

theorem takes_len : Takes (Unwire.syncUnwireU64 : IoM Bytes U64)
    fun len => lenBytes len.toNat := by
  intro s len r h
  dsimp only
  rw [lenBytes, usizeU64, Prim.ofNat_toNat]
  exact (ReadsPrim.syncUnwiring .u64).takes s len r h

theorem takes_string : Takes (Unwire.syncUnwireString : IoM Bytes RString)
    fun str => prefixed str.bytes := by
  refine takes_len.bind (f := fun len => readString len.toNat) fun len s str r h => ?_
  obtain ⟨hle, hstr, rfl⟩ := readString_eq_ok.mp h
  have hbytes := fromUtf8_eq_ok hstr
  have hlen : str.bytes.length = len.toNat := by
    rw [hbytes, List.length_take, Nat.min_eq_left hle]
  rw [prefixed, hlen, hbytes, List.append_assoc, List.take_append_drop]

section

variable {α : Type} [RustType α] {x : IoM Bytes α} {e : α → Bytes}

theorem takes_collect (h : Takes x e) (n : Nat) :
    Takes (collect n x) fun v => v.toList.flatMap e := by
  unfold collect
  split
  · exact (h.times n).map fun _ => rfl
  · exact .stop _

theorem takes_vec (h : Takes x e) : Takes (do
      let len ← Unwire.syncUnwireU64
      collect len.toNat x)
    fun v => lenBytes v.toList.length ++ v.toList.flatMap e := by
  refine takes_len.bind fun len s v r hv => ?_
  have hlen : v.toList.length = len.toNat := by
    unfold collect at hv
    split at hv
    · obtain ⟨data, s', -, hp⟩ := Act.bind_eq_ok.mp hv
      cases hp
      exact data.toList_length
    · cases hv
  rw [hlen, takes_collect h _ s v r hv, List.append_assoc]

omit [RustType α] in
theorem takes_option [RustType (Option α)] (h : Takes x e) :
    Takes (do
        let variant ← Unwire.syncUnwireU8
        if variant.toNat = 0 then pure none
        else if variant.toNat = 1 then do
          let t ← x
          pure (some t)
        else Act.fail (unexpectedVariant (Option α)))
      fun v => match v with | none => [0] | some t => 1 :: e t := by
  refine (ReadsPrim.syncUnwiring .u8).takes.bind fun variant s v r hv => ?_
  rw [Prim.toBeBytes_u8, Prim.toByte]
  split at hv
  · rename_i h0
    cases hv
    rw [h0]
    rfl
  · split at hv
    · rename_i h1
      obtain ⟨t, s', ht, hp⟩ := Act.bind_eq_ok.mp hv
      cases hp
      rw [h1, h s t _ ht]
      rfl
    · cases hv

end

theorem takes_unit : Takes (syncUnwiring : IoM Bytes Unit) fun _ => [0] := by
  refine (ReadsPrim.syncUnwiring .u8).takes.bind fun n s v r hv => ?_
  rw [Prim.toBeBytes_u8, Prim.toByte]
  split at hv
  · rename_i h0
    cases hv
    rw [h0]
    rfl
  · cases hv

theorem takes_enum {d : EnumDecl} {ty : (v : Fin d.variants) → Fin (d.arity v) → Type}
    {x : ∀ v i, IoM Bytes (ty v i)} {e : ∀ v i, ty v i → Bytes}
    (h : ∀ v i, Takes (x v i) (e v i)) :
    Takes (do
        let taged ← syncUnwiring (α := Prim d.tag)
        d.matchTag taged.toNat fun v => do
          let field ← Act.sequence (d.arity v) (x v)
          pure (Enum.mk v field))
      fun en : Enum d ty => en.idx.toBeBytes ++
        (List.finRange _).flatMap fun i => e en.variant i (en.field i) := by
  refine (ReadsPrim.syncUnwiring d.tag).takes.bind fun taged s en r hen => ?_
  unfold EnumDecl.matchTag at hen
  split at hen
  · obtain ⟨field, s', hfield, hp⟩ := Act.bind_eq_ok.mp hen
    cases hp
    rw [Takes.sequence (h _) s field _ hfield, List.append_assoc, Enum.idx,
      Prim.ofNat_toNat]
  · cases hen

/-- What the decoder takes is the encoding of what it returns. -/
theorem Codec.takes : {α : Type} → {r : RustType α} → {w : Wiring α} →
    {u : Unwiring α} → (T : @Codec α r w u) → T.Canonical →
    Takes (syncUnwiring : IoM Bytes α) T.encode
  | _, _, _, _, prim t, _ => (ReadsPrim.syncUnwiring t).takes
  | _, _, _, _, Codec.unit, _ => takes_unit
  | _, _, _, _, Codec.string, _ => takes_string
  | _, _, _, _, option T, h => by
      intro s v r hv
      have hs := takes_option (T.takes h) s v r hv
      cases v with
      | none => exact hs
      | some t => exact hs
  | _, _, _, _, vec T, h => takes_vec (T.takes h)
  | _, _, _, _, boxSlice T, h => (takes_vec (T.takes h)).map fun _ => rfl
  | _, _, _, _, box T, h => (T.takes h).map fun _ => rfl
  | _, _, _, _, arc T, h => (T.takes h).map fun _ => rfl
  | _, _, _, _, array T N, h => (T.takes h).times N
  | _, _, _, _, pair T TT, h => by
      refine (T.takes h.1).bind fun a s p r hp => ?_
      obtain ⟨b, s', hb, hpure⟩ := Act.bind_eq_ok.mp hp
      cases hpure
      rw [TT.takes h.2 s b _ hb, ← List.append_assoc]
      rfl
  | _, _, _, _, triple T TT TTT, h => by
      refine (T.takes h.1).bind fun a s q r hq => ?_
      obtain ⟨b, s1, hb, hq⟩ := Act.bind_eq_ok.mp hq
      obtain ⟨c, s2, hc, hpure⟩ := Act.bind_eq_ok.mp hq
      cases hpure
      rw [TT.takes h.2.1 s b _ hb, TTT.takes h.2.2 _ c _ hc, ← List.append_assoc,
        ← List.append_assoc]
      rfl
  | _, _, _, _, struct d plain T, h => by
      refine (Takes.sequence fun i => (T i).takes (h i)).map fun field => ?_
      rw [encode, wty, struct_format, StructDecl.plain_calls plain, List.flatMap_map]
      rfl
  | _, _, _, _, Codec.unitStruct, _ => takes_unit.map fun _ => rfl
  | _, _, _, _, enum d _ T, h => takes_enum fun v i => (T v i).takes (h v i)

/-- **The encoding is canonical.** If the decoder accepts the front of a slice, that is
what the encoder writes for the value; it rejects every other slice with an error or a
panic; and no two slices decode to one value but those with the same front. -/
theorem canonical {α : Type} [RustType α] [Wiring α] [Unwiring α] (T : Codec α)
    (hT : T.Canonical) :
    (∀ s v r, (syncUnwiring : IoM Bytes α) s = (.ok v, r) →
      ∃ p, (syncWiring v : IoM Bytes Unit) [] = (.ok (), p) ∧ s = p ++ r) ∧
    (∀ s, (∀ v r, s ≠ T.encode v ++ r) →
      ∃ k, k ≠ .ub ∧ ((syncUnwiring : IoM Bytes α) s).1 = .error k) ∧
    ∀ s s' v r r', (syncUnwiring : IoM Bytes α) s = (.ok v, r) →
      (syncUnwiring : IoM Bytes α) s' = (.ok v, r') → ∃ p, s = p ++ r ∧ s' = p ++ r' := by
  have htakes := T.takes hT
  refine ⟨?_, ?_, ?_⟩
  · intro s v r h
    refine ⟨T.encode v, ?_, htakes s v r h⟩
    rw [(T.wty.encoder.syncWiring_emits v).run, List.nil_append]
  · intro s hs
    have hbounds := (T.dty.panicsIf false).inBounds s
    rcases hx : (syncUnwiring : IoM Bytes α) s with ⟨k | v, r⟩
    · exact ⟨k, fun hk => hbounds (by rw [← hk]; exact congrArg Prod.fst hx), rfl⟩
    · exact absurd (htakes s v r hx) (hs v r)
  · intro s s' v r r' h h'
    exact ⟨T.encode v, htakes s v r h, htakes s' v r' h'⟩

/-- A `u16` in front of another byte. -/
theorem canonical_u16 :
    ∃ p, (syncWiring (.ofNat 5 : U16) : IoM Bytes Unit) [] = (.ok (), p) ∧
      [0, 5, 9] = p ++ [9] :=
  (canonical (.prim .u16) trivial).1 [0, 5, 9] (.ofNat 5) [9] rfl

end WiringRs
