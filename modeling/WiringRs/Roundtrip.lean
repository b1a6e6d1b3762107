import Mathlib.Data.List.Forall2
import Mathlib.Data.Option.Basic
import WiringRs.Decoders
import WiringRs.Encoders
import WiringRs.Lib.Decodes

/-!
# Decoding undoes encoding

`Codec α` is the syntax of a type with both an encoder and a decoder. In front
of any rest, the synchronous decoder takes exactly the bytes the synchronous
encoder wrote and returns the value they stand for: the same value, but for
the order in which a hash set is iterated.
-/

namespace WiringRs

open Wiring

/-- `Url::from_str(u.as_str())` is `u`. -/
def UrlCrate.Lawful (U : UrlCrate) : Prop := ∀ u, U.fromStr (U.asStr u) = .ok u

theorem UrlCrate.Lawful.fromStr_asStr {U : UrlCrate} (lawful : U.Lawful) (u : Url U) :
    (Url.fromStr u.asStr : Except String (Url U)) = .ok u := by
  rw [Url.fromStr, Url.asStr, lawful]
  rfl

inductive Codec :
    (α : Type) → [RustType α] → [Wiring α] → [Unwiring α] → Type 1 where
  | prim (t : PrimTy) : Codec (Prim t)
  | unit : Codec Unit
  | bool : Codec Bool
  | string [RustType RString] : Codec RString
  | url (U : UrlCrate) (lawful : U.Lawful) [RustType RString] [RustType (Url U)] :
      Codec (Url U)
  | option {α : Type} [RustType α] [Wiring α] [Unwiring α] (T : Codec α)
      [RustType (Option α)] : Codec (Option α)
  | vec {α : Type} [RustType α] [Wiring α] [Unwiring α] (T : Codec α)
      [RustType (Vec α)] : Codec (Vec α)
  | boxSlice {α : Type} [RustType α] [Wiring α] [Unwiring α] (T : Codec α)
      [RustType (BoxSlice α)] : Codec (BoxSlice α)
  | box {α : Type} [RustType α] [Wiring α] [Unwiring α] (T : Codec α)
      [RustType (Box α)] : Codec (Box α)
  | arc {α : Type} [RustType α] [Wiring α] [Unwiring α] (T : Codec α)
      [RustType (Arc α)] : Codec (Arc α)
  | array {α : Type} [RustType α] [Wiring α] [Unwiring α] (T : Codec α) (N : Nat)
      [RustType (List.Vector α N)] : Codec (List.Vector α N)
  | pair {α β : Type} [RustType α] [RustType β] [Wiring α] [Wiring β]
      [Unwiring α] [Unwiring β] (T : Codec α) (TT : Codec β)
      [RustType (α × β)] : Codec (α × β)
  | triple {α β γ : Type} [RustType α] [RustType β] [RustType γ] [Wiring α]
      [Wiring β] [Wiring γ] [Unwiring α] [Unwiring β] [Unwiring γ] (T : Codec α)
      (TT : Codec β) (TTT : Codec γ) [RustType (Triple α β γ)] :
      Codec (Triple α β γ)
  | hashSet {α : Type} [RustType α] [Wiring α] [Unwiring α] (T : Codec α)
      [DecidableEq α] [RustType (HashSet α)] : Codec (HashSet α)
  | struct {n : Nat} (d : StructDecl n) (plain : ∀ i, d.attrs i = [])
      {ty : Fin n → Type} [∀ i, RustType (ty i)] [∀ i, Wiring (ty i)]
      [∀ i, Unwiring (ty i)] (T : ∀ i, Codec (ty i)) [RustType (Struct d ty)] :
      Codec (Struct d ty)
  | unitStruct [RustType UnitStruct] : Codec UnitStruct
  | enum (d : EnumDecl) (fits : d.variants ≤ 256 ^ d.tag.size)
      {ty : (v : Fin d.variants) → Fin (d.arity v) → Type}
      [∀ v i, RustType (ty v i)] [∀ v i, Wiring (ty v i)]
      [∀ v i, Unwiring (ty v i)] (T : ∀ v i, Codec (ty v i))
      [RustType (Enum d ty)] : Codec (Enum d ty)

namespace Codec

def wty : {α : Type} → {r : RustType α} → {w : Wiring α} → {u : Unwiring α} →
    @Codec α r w u → WTy α
  | _, _, _, _, prim t => .prim t
  | _, _, _, _, unit => .unit
  | _, _, _, _, bool => .bool
  | _, _, _, _, string => .string
  | _, _, _, _, url U _ => .url U
  | _, _, _, _, option T => .option T.wty
  | _, _, _, _, vec T => .vec T.wty
  | _, _, _, _, boxSlice T => .boxSlice T.wty
  | _, _, _, _, box T => .box T.wty
  | _, _, _, _, arc T => .arc T.wty
  | _, _, _, _, array T N => .array T.wty N
  | _, _, _, _, pair T TT => .pair T.wty TT.wty
  | _, _, _, _, triple T TT TTT => .triple T.wty TT.wty TTT.wty
  | _, _, _, _, hashSet T => .hashSet T.wty
  | _, _, _, _, struct d _ T => .struct d fun i => (T i).wty
  | _, _, _, _, unitStruct => .unitStruct
  | _, _, _, _, enum d _ T => .enum d fun v i => (T v i).wty

def uty : {α : Type} → {r : RustType α} → {w : Wiring α} → {u : Unwiring α} →
    @Codec α r w u → UTy α
  | _, _, _, _, prim t => .prim t
  | _, _, _, _, unit => .unit
  | _, _, _, _, bool => .bool
  | _, _, _, _, string => .string
  | _, _, _, _, url U _ => .url U
  | _, _, _, _, option T => .option T.uty
  | _, _, _, _, vec T => .vec T.uty
  | _, _, _, _, boxSlice T => .boxSlice T.uty
  | _, _, _, _, box T => .box T.uty
  | _, _, _, _, arc T => .arc T.uty
  | _, _, _, _, array T N => .array T.uty N
  | _, _, _, _, pair T TT => .pair T.uty TT.uty
  | _, _, _, _, triple T TT TTT => .triple T.uty TT.uty TTT.uty
  | _, _, _, _, hashSet T => .hashSet T.uty
  | _, _, _, _, struct d _ T => .struct d fun i => (T i).uty
  | _, _, _, _, unitStruct => .unitStruct
  | _, _, _, _, enum d _ T => .enum d fun v i => (T v i).uty

/-- The bytes `sync_wiring` writes for a value. -/
abbrev encode {α : Type} [RustType α] [Wiring α] [Unwiring α] (T : Codec α) :
    α → Bytes := T.wty.format false

/-- The same value, where hash sets are compared as sets. -/
def Same : {α : Type} → {r : RustType α} → {w : Wiring α} → {u : Unwiring α} →
    @Codec α r w u → α → α → Prop
  | _, _, _, _, prim _ | _, _, _, _, unit | _, _, _, _, bool
  | _, _, _, _, string | _, _, _, _, url _ _ | _, _, _, _, unitStruct =>
      fun v v' => v = v'
  | _, _, _, _, option T => Option.Rel T.Same
  | _, _, _, _, vec T => fun v v' => List.Forall₂ T.Same v.toList v'.toList
  | _, _, _, _, boxSlice T => fun b b' =>
      List.Forall₂ T.Same b.vec.toList b'.vec.toList
  | _, _, _, _, box T => fun b b' => T.Same b.inner b'.inner
  | _, _, _, _, arc T => fun a a' => T.Same a.inner a'.inner
  | _, _, _, _, array T _ => fun a a' => List.Forall₂ T.Same a.toList a'.toList
  | _, _, _, _, pair T TT => fun p p' => T.Same p.1 p'.1 ∧ TT.Same p.2 p'.2
  | _, _, _, _, triple T TT TTT => fun p p' =>
      T.Same p.fst p'.fst ∧ TT.Same p.snd p'.snd ∧ TTT.Same p.trd p'.trd
  | _, _, _, _, hashSet T => fun s s' =>
      (∀ a ∈ s.toList, ∃ b ∈ s'.toList, T.Same a b) ∧
        ∀ b ∈ s'.toList, ∃ a ∈ s.toList, T.Same a b
  | _, _, _, _, struct _ _ T => fun s s' => ∀ i, (T i).Same (s.field i) (s'.field i)
  | _, _, _, _, enum _ _ T => fun e e' =>
      ∃ field, e = ⟨e'.variant, field⟩ ∧
        ∀ i, (T e'.variant i).Same (field i) (e'.field i)

/-- No hash set occurs in the type, as in the type of a hash set's elements. -/
def NoSets : {α : Type} → {r : RustType α} → {w : Wiring α} → {u : Unwiring α} →
    @Codec α r w u → Prop
  | _, _, _, _, prim _ | _, _, _, _, unit | _, _, _, _, bool
  | _, _, _, _, string | _, _, _, _, url _ _ | _, _, _, _, unitStruct => True
  | _, _, _, _, option T | _, _, _, _, vec T | _, _, _, _, boxSlice T
  | _, _, _, _, box T | _, _, _, _, arc T | _, _, _, _, array T _ => T.NoSets
  | _, _, _, _, pair T TT => T.NoSets ∧ TT.NoSets
  | _, _, _, _, triple T TT TTT => T.NoSets ∧ TT.NoSets ∧ TTT.NoSets
  | _, _, _, _, hashSet _ => False
  | _, _, _, _, struct _ _ T => ∀ i, (T i).NoSets
  | _, _, _, _, enum _ _ T => ∀ v i, (T v i).NoSets

theorem forall₂_iff_eq {α : Type} {R : α → α → Prop} (h : ∀ a b, R a b ↔ a = b)
    {l l' : List α} : List.Forall₂ R l l' ↔ l = l' := by
  rw [funext fun a => funext fun b => propext (h a b), List.forall₂_eq_eq_eq]

/-- Without hash sets the same value is the value. -/
theorem same_iff_eq : {α : Type} → {r : RustType α} → {w : Wiring α} →
    {u : Unwiring α} → (T : @Codec α r w u) → T.NoSets → (v v' : α) →
    (T.Same v v' ↔ v = v')
  | _, _, _, _, prim _, _, _, _ | _, _, _, _, Codec.unit, _, _, _
  | _, _, _, _, Codec.bool, _, _, _ | _, _, _, _, Codec.string, _, _, _
  | _, _, _, _, url _ _, _, _, _ | _, _, _, _, Codec.unitStruct, _, _, _ => Iff.rfl
  | _, _, _, _, option T, h, v, v' => by
      have hT := T.same_iff_eq h
      cases v <;> cases v' <;> simp [Same, hT]
  | _, _, _, _, vec T, h, v, v' =>
      (forall₂_iff_eq (T.same_iff_eq h)).trans Vec.ext_iff.symm
  | _, _, _, _, boxSlice T, h, b, b' => by
      obtain ⟨v⟩ := b
      obtain ⟨v'⟩ := b'
      rw [BoxSlice.mk.injEq]
      exact (forall₂_iff_eq (T.same_iff_eq h)).trans Vec.ext_iff.symm
  | _, _, _, _, box T, h, b, b' => by
      obtain ⟨v⟩ := b
      obtain ⟨v'⟩ := b'
      rw [Box.mk.injEq]
      exact T.same_iff_eq h v v'
  | _, _, _, _, arc T, h, a, a' => by
      obtain ⟨v⟩ := a
      obtain ⟨v'⟩ := a'
      rw [Arc.mk.injEq]
      exact T.same_iff_eq h v v'
  | _, _, _, _, array T _, h, v, v' =>
      (forall₂_iff_eq (T.same_iff_eq h)).trans List.Vector.toList_injective.eq_iff
  | _, _, _, _, pair T TT, h, p, p' => by
      obtain ⟨v, w⟩ := p
      obtain ⟨v', w'⟩ := p'
      rw [Prod.mk.injEq]
      exact and_congr (T.same_iff_eq h.1 v v') (TT.same_iff_eq h.2 w w')
  | _, _, _, _, triple T TT TTT, h, p, p' => by
      obtain ⟨v, w, x⟩ := p
      obtain ⟨v', w', x'⟩ := p'
      rw [Triple.mk.injEq]
      exact and_congr (T.same_iff_eq h.1 v v') (and_congr
        (TT.same_iff_eq h.2.1 w w') (TTT.same_iff_eq h.2.2 x x'))
  | _, _, _, _, struct _ _ T, h, s, s' => by
      obtain ⟨f⟩ := s
      obtain ⟨f'⟩ := s'
      rw [Struct.mk.injEq, funext_iff]
      exact forall_congr' fun i => (T i).same_iff_eq (h i) (f i) (f' i)
  | _, _, _, _, enum _ _ T, h, e, e' => by
      obtain ⟨v', f'⟩ := e'
      constructor
      · rintro ⟨f, rfl, hf⟩
        have hff' : f = f' := funext fun i =>
          ((T v' i).same_iff_eq (h v' i) _ _).mp (hf i)
        rw [hff']
      · rintro rfl
        exact ⟨f', rfl, fun i => ((T v' i).same_iff_eq (h v' i) _ _).mpr rfl⟩

/-- Hash sets are the same when they have the same elements. -/
theorem same_hashSet_iff {α : Type} [RustType α] [Wiring α] [Unwiring α]
    [DecidableEq α] [RustType (HashSet α)] (T : Codec α) (h : T.NoSets)
    (s s' : HashSet α) :
    (hashSet T).Same s s' ↔ ∀ a, a ∈ s.toList ↔ a ∈ s'.toList := by
  have hT := T.same_iff_eq h
  constructor
  · rintro ⟨hss', hs's⟩ a
    constructor
    · intro ha
      obtain ⟨b, hb, hab⟩ := hss' a ha
      rwa [(hT a b).mp hab]
    · intro ha
      obtain ⟨b, hb, hba⟩ := hs's a ha
      rwa [← (hT b a).mp hba]
  · intro hmem
    exact ⟨fun a ha => ⟨a, (hmem a).mp ha, (hT a a).mpr rfl⟩,
      fun a ha => ⟨a, (hmem a).mpr ha, (hT a a).mpr rfl⟩⟩

end Codec

/-! ## The parts of the format -/

theorem ReadsPrim.decodes {t : PrimTy} {x : IoM Bytes (Prim t)} (hx : ReadsPrim x)
    (v : Prim t) : Decodes x v.toBeBytes (· = v) := by
  intro rest
  have hlen := v.length_toBeBytes
  refine ⟨v, (hx ..).mpr ⟨?_, ?_, ?_⟩, rfl⟩
  · rw [List.length_append, hlen]; exact Nat.le_add_right _ _
  · rw [List.take_left' hlen, Prim.fromBeBytes_toBeBytes]
  · rw [List.drop_left' hlen]

theorem ReadsPrim.decodes_len {x : IoM Bytes U64} (hx : ReadsPrim x) {n : Nat}
    (h : n ≤ usizeMax) : Decodes x (lenBytes n) fun len => len.toNat = n := by
  refine (hx.decodes _).mono ?_
  rintro len rfl
  exact Prim.toNat_ofNat (Nat.lt_of_le_of_lt h (by decide))

theorem decodes_len {n : Nat} (h : n ≤ usizeMax) :
    Decodes (Unwire.syncUnwireU64 : IoM Bytes U64) (lenBytes n)
      fun len => len.toNat = n :=
  (ReadsPrim.syncUnwiring .u64).decodes_len h

theorem decodes_string (str : RString) :
    Decodes (Unwire.syncUnwireString : IoM Bytes RString) (prefixed str.bytes)
      (· = str) := by
  have hfit : str.bytes.length ≤ usizeMax := Nat.le_trans str.fits (by decide)
  have hread (len : U64) (hlen : len.toNat = str.bytes.length) :
      Decodes (readString len.toNat) str.bytes (· = str) := by
    intro rest
    refine ⟨str, readString_eq_ok.mpr ⟨?_, ?_, ?_⟩, rfl⟩
    · rw [hlen, List.length_append]
      exact Nat.le_add_right _ _
    · rw [hlen, List.take_left, fromUtf8_bytes]
    · rw [hlen, List.drop_left]
  have h := (decodes_len hfit).bind hread
  exact h

section

variable {α : Type} [RustType α] {x : IoM Bytes α} {e : α → Bytes}
  {R : α → α → Prop}

theorem ReadsPrim.decodes_vec {readLen : IoM Bytes U64} (hlen : ReadsPrim readLen)
    (h : ∀ a, Decodes x (e a) fun a' => R a' a) (v : Vec α) :
    Decodes (do
        let len ← readLen
        collect len.toNat x)
      (lenBytes v.toList.length ++ v.toList.flatMap e)
      fun v' => List.Forall₂ R v'.toList v.toList := by
  refine (hlen.decodes_len v.fits.1).bind fun len hlen => ?_
  unfold collect
  rw [dif_pos (hlen ▸ v.fits)]
  exact (Decodes.times (fun a _ => h a) hlen.symm).map fun _ hl => hl

omit [RustType α] in
/-- Related lists have related elements. -/
theorem forall₂_covers {l l' : List α} (h : List.Forall₂ R l l') :
    (∀ a ∈ l, ∃ b ∈ l', R a b) ∧ ∀ b ∈ l', ∃ a ∈ l, R a b := by
  induction h with
  | nil => exact ⟨nofun, nofun⟩
  | cons hab _ ih =>
      simp only [List.mem_cons, forall_eq_or_imp, exists_eq_or_imp]
      exact ⟨⟨Or.inl hab, fun a ha => Or.inr (ih.1 a ha)⟩,
        Or.inl hab, fun b hb => Or.inr (ih.2 b hb)⟩

theorem decodes_hashSet [DecidableEq α]
    (h : ∀ a, Decodes x (e a) fun a' => R a' a) (s : HashSet α) :
    Decodes (do
        let len ← Unwire.syncUnwireU64
        collectSet len.toNat x)
      (lenBytes s.toList.length ++ s.toList.flatMap e)
      fun s' => (∀ a ∈ s'.toList, ∃ b ∈ s.toList, R a b) ∧
        ∀ b ∈ s.toList, ∃ a ∈ s'.toList, R a b := by
  refine (decodes_len s.fits.count_le).bind fun len hlen => ?_
  unfold collectSet
  rw [dif_pos (hlen ▸ s.fits)]
  refine (Decodes.times (fun a _ => h a) hlen.symm).map fun data hdata => ?_
  simpa only [mem_insertAll] using forall₂_covers hdata

end

/-! ## All types -/

theorem decodes_unit :
    Decodes (syncUnwiring : IoM Bytes Unit) [0] fun _ => True := by
  refine ((ReadsPrim.syncUnwiring .u8).decodes (.ofNat 0 : U8)).bind (m := []) ?_
  rintro _ rfl
  exact .pure trivial

theorem decodes_url {U : UrlCrate} (lawful : U.Lawful) [RustType RString]
    [RustType (Url U)] (u : Url U) :
    Decodes (syncUnwiring : IoM Bytes (Url U)) (prefixed u.asStr.bytes) (· = u) := by
  have h := (decodes_string u.asStr).bind (m := []) (Q := (· = u))
    (f := fun str => urlFromStr str id) (by
      rintro _ rfl
      unfold urlFromStr
      rw [lawful.fromStr_asStr]
      exact .pure rfl)
  rwa [List.append_nil] at h

theorem EnumDecl.matchTag_val {σ β : Type} (d : EnumDecl) (v : Fin d.variants)
    (arm : Fin d.variants → IoM σ β) : d.matchTag v arm = arm v :=
  dif_pos v.isLt

theorem decodes_option {α : Type} [RustType (Option α)] {x : IoM Bytes α}
    {e : α → Bytes} {R : α → α → Prop}
    (h : ∀ a, Decodes x (e a) fun a' => R a' a) (v : Option α) :
    Decodes (do
        let variant ← Unwire.syncUnwireU8
        if variant.toNat = 0 then pure none
        else if variant.toNat = 1 then do
          let t ← x
          pure (some t)
        else Act.fail (unexpectedVariant (Option α)))
      (match v with | none => [0] | some t => 1 :: e t)
      fun v' => Option.Rel R v' v := by
  have hread (n : U8) := (ReadsPrim.syncUnwiring .u8).decodes n
  cases v with
  | none =>
      refine (hread (.ofNat 0)).bind (m := []) ?_
      rintro _ rfl
      exact .pure .none
  | some t =>
      refine (hread (.ofNat 1)).bind ?_
      rintro _ rfl
      exact (h t).map fun t' ht => .some ht

/-- A variant with an index that fits the tag is the one that is decoded. -/
theorem decodes_enum {d : EnumDecl} {ty : (v : Fin d.variants) → Fin (d.arity v) → Type}
    {readTag : IoM Bytes (Prim d.tag)} (htag : ReadsPrim readTag)
    {x : ∀ v i, IoM Bytes (ty v i)} (e : Enum d ty)
    (fits : e.variant.val < 256 ^ d.tag.size) {g : Fin (d.arity e.variant) → Bytes}
    {P : ∀ i, ty e.variant i → Prop} (h : ∀ i, Decodes (x e.variant i) (g i) (P i)) :
    Decodes (do
        let taged ← readTag
        d.matchTag taged.toNat fun v => do
          let field ← Act.sequence (d.arity v) (x v)
          pure (Enum.mk v field))
      (e.idx.toBeBytes ++ (List.finRange _).flatMap g)
      fun e' => ∃ field, e' = ⟨e.variant, field⟩ ∧ ∀ i, P i (field i) := by
  refine (htag.decodes e.idx).bind ?_
  rintro taged rfl
  have hidx : e.idx.toNat = e.variant := Prim.toNat_ofNat fits
  rw [hidx, EnumDecl.matchTag_val]
  exact (Decodes.sequence h).map (f := Enum.mk e.variant) fun field hfield =>
    ⟨field, rfl, hfield⟩

/-- **The decoder takes what the encoder wrote.** -/
theorem Codec.decodes : {α : Type} → {r : RustType α} → {w : Wiring α} →
    {u : Unwiring α} → (T : @Codec α r w u) → (v : α) →
    Decodes (syncUnwiring : IoM Bytes α) (T.encode v) fun v' => T.Same v' v
  | _, _, _, _, prim t, v => (ReadsPrim.syncUnwiring t).decodes v
  | _, _, _, _, Codec.unit, _ => decodes_unit.mono fun _ _ => rfl
  | _, _, _, _, Codec.bool, b => by
      refine ((ReadsPrim.syncUnwiring .u8).decodes (boolU8 b)).map ?_
      rintro r rfl
      cases b <;> rfl
  | _, _, _, _, Codec.string, str => decodes_string str
  | _, _, _, _, url _ lawful, u => decodes_url lawful u
  | _, _, _, _, option T, v => by
      cases v with
      | none => exact decodes_option T.decodes none
      | some v => exact decodes_option T.decodes (some v)
  | _, _, _, _, vec T, v => (ReadsPrim.syncUnwiring .u64).decodes_vec T.decodes v
  | _, _, _, _, boxSlice T, b =>
      ((ReadsPrim.syncUnwiring .u64).decodes_vec T.decodes b.vec).map fun _ h => h
  | _, _, _, _, box T, b => (T.decodes b.inner).map fun _ h => h
  | _, _, _, _, arc T, a => (T.decodes a.inner).map fun _ h => h
  | _, _, _, _, array T N, a =>
      .times (fun v _ => T.decodes v) a.toList_length
  | _, _, _, _, pair T TT, p => (T.decodes p.1).bind fun _ h =>
      (TT.decodes p.2).map fun _ h' => ⟨h, h'⟩
  | _, _, _, _, triple T TT TTT, p => by
      have h := (T.decodes p.fst).bind fun a ha => (TT.decodes p.snd).bind fun b hb =>
        (TTT.decodes p.trd).map (f := fun c => Triple.mk a b c)
          (Q := fun q => (triple T TT TTT).Same q p) fun c hc => ⟨ha, hb, hc⟩
      rw [← List.append_assoc] at h
      exact h
  | _, _, _, _, hashSet T, s => decodes_hashSet T.decodes s
  | _, _, _, _, struct d plain T, s => by
      have h := (Decodes.sequence fun i => (T i).decodes (s.field i)).map
        (f := Struct.mk (d := d)) (Q := fun s' => (struct d plain T).Same s' s)
        fun field hfield => hfield
      have henc : (struct d plain T).encode s =
          (List.finRange _).flatMap fun i => (T i).encode (s.field i) := by
        rw [encode, wty, struct_format, StructDecl.plain_calls plain,
          List.flatMap_map]
        rfl
      rw [henc]
      exact h
  | _, _, _, _, Codec.unitStruct, _ => decodes_unit.map fun _ _ => rfl
  | _, _, _, _, enum d fits T, e =>
      decodes_enum (.syncUnwiring d.tag) (x := fun _ _ => syncUnwiring) e
        (Nat.lt_of_lt_of_le e.variant.isLt fits)
        fun i => (T e.variant i).decodes (e.field i)

/-- **Synchronous decoding undoes synchronous encoding.** Whatever was in the
`Vec<u8>` before and whatever follows the value in the slice, the encoder
appends `encode v` and the decoder takes it off again. -/
theorem sync_roundtrip {α : Type} [RustType α] [Wiring α] [Unwiring α]
    (T : Codec α) (v : α) (out rest : Bytes) :
    (syncWiring v : IoM Bytes Unit) out = (.ok (), out ++ T.encode v) ∧
      ∃ v', (syncUnwiring : IoM Bytes α) (T.encode v ++ rest) = (.ok v', rest) ∧
        T.Same v' v :=
  ⟨(T.wty.encoder.syncWiring_emits v).run out, T.decodes v rest⟩

end WiringRs
