import WiringRs.ConcatArray
import WiringRs.Roundtrip

/-!
# Types that understand each other

The peers of a connection need not use the same types. `Compat isAsync W U P R` says that
what the encoders of `W` write (the asynchronous ones or the synchronous one) for a value
that satisfies `P`, both decoders of `U` take off the stream, and that `R` relates the two
values. It holds of a type with an encoder and a decoder and itself; of the types that
only have an encoder (`&str`, `&[T]`, `usize`) with one that has a decoder; of the maps
and the tree sets, which only have a decoder, with the sequences; and through all type
constructors. `P` is about counts: an element may take more memory for the reader than
for the writer, and a hash table more than a vector, so the reader may have no room for
as many.
-/

namespace WiringRs

open Wiring

/-! ## Sequences -/

/-- The types that are wired as a count and their elements. -/
inductive Sequence : {α ε : Type} → [RustType ε] → [Wiring α] → [Wiring ε] →
    WTy α → WTy ε → (α → List ε) → Prop where
  | slice {ε : Type} [RustType ε] [Wiring ε] (T : WTy ε) :
      Sequence (.slice T) T fun s => s.vec.toList
  | vec {ε : Type} [RustType ε] [Wiring ε] (T : WTy ε) :
      Sequence (.vec T) T fun v => v.toList
  | boxSlice {ε : Type} [RustType ε] [Wiring ε] (T : WTy ε) :
      Sequence (.boxSlice T) T fun b => b.vec.toList
  | hashSet {ε : Type} [RustType ε] [Wiring ε] (T : WTy ε) :
      Sequence (.hashSet T) T fun s => s.toList

namespace Sequence

variable {α ε : Type} [RustType ε] [Wiring α] [Wiring ε] {W : WTy α} {E : WTy ε}
  {elems : α → List ε}

theorem encode_eq (h : Sequence W E elems) (isAsync : Bool) (a : α) :
    W.encode isAsync a =
      lenBytes (elems a).length ++ (elems a).flatMap (E.encode isAsync) := by
  cases h <;> rfl

theorem count_le (h : Sequence W E elems) (a : α) : (elems a).length ≤ usizeMax := by
  cases h with
  | slice => exact a.vec.fits.1
  | vec => exact a.fits.1
  | boxSlice => exact a.vec.fits.1
  | hashSet => exact a.fits.count_le

end Sequence

/-- The last value bound to the key. -/
def lastValue {κ ν : Type} [DecidableEq κ] (l : List (κ × ν)) (k : κ) : Option ν :=
  (l.reverse.find? fun e => e.1 = k).map Prod.snd

/-- The types that are unwired from a count and their elements, with the counts they
have room for. -/
inductive Collection : {β ε : Type} → [RustType β] → [RustType ε] → [Unwiring β] →
    [Unwiring ε] → UTy β → UTy ε → (Nat → Prop) → (List ε → β → Prop) → Prop where
  | vec {ε : Type} [RustType ε] [Unwiring ε] (T : UTy ε) [RustType (Vec ε)] :
      Collection (.vec T) T (CapacityFits ε) fun l v => v.toList = l
  | boxSlice {ε : Type} [RustType ε] [Unwiring ε] (T : UTy ε) [RustType (BoxSlice ε)] :
      Collection (.boxSlice T) T (CapacityFits ε) fun l b => b.vec.toList = l
  | hashSet {ε : Type} [RustType ε] [Unwiring ε] (T : UTy ε) [DecidableEq ε]
      [RustType (HashSet ε)] :
      Collection (.hashSet T) T (HashFits ε) fun l s => ∀ a, a ∈ s.toList ↔ a ∈ l
  | btreeSet {ε : Type} [RustType ε] [Unwiring ε] (T : UTy ε) [DecidableEq ε]
      [RustType (BTreeSet ε)] :
      Collection (.btreeSet T) T (fun _ => True) fun l s => ∀ a, a ∈ s.toList ↔ a ∈ l
  | hashMap {κ ν : Type} [RustType κ] [RustType ν] [Unwiring κ] [Unwiring ν] (K : UTy κ)
      (V : UTy ν) [DecidableEq κ] [RustType (κ × ν)] [RustType (HashMap κ ν)] :
      Collection (.hashMap K V) (.pair K V) (HashFits (κ × ν)) fun l m =>
        ∀ k, m.entries.lookup k = lastValue l k
  | btreeMap {κ ν : Type} [RustType κ] [RustType ν] [Unwiring κ] [Unwiring ν] (K : UTy κ)
      (V : UTy ν) [DecidableEq κ] [RustType (κ × ν)] [RustType (BTreeMap κ ν)] :
      Collection (.btreeMap K V) (.pair K V) (fun _ => True) fun l m =>
        ∀ k, m.entries.lookup k = lastValue l k

theorem lastValue_cons {κ ν : Type} [DecidableEq κ] (e : κ × ν) (l : List (κ × ν)) (k : κ) :
    lastValue (e :: l) k = (lastValue l k).or (if e.1 = k then some e.2 else none) := by
  rw [lastValue, List.reverse_cons, List.find?_append, Option.map_or, ← lastValue]
  by_cases h : e.1 = k <;> simp [h]

/-- A later entry replaces an earlier one with the same key. -/
theorem lookup_insertEntries {κ ν : Type} [DecidableEq κ] (l : List (κ × ν)) (k : κ) :
    (insertEntries l).lookup k = lastValue l k := by
  have hfold : ∀ map : AList fun _ : κ => ν,
      (l.foldl (fun map e => map.insert e.1 e.2) map).lookup k =
        (lastValue l k).or (map.lookup k) := by
    induction l with
    | nil => intro map; rfl
    | cons e l ih =>
        intro map
        rw [List.foldl_cons, ih, lastValue_cons, Option.or_assoc]
        by_cases h : e.1 = k
        · subst h
          rw [AList.lookup_insert, if_pos rfl, Option.some_or]
        · rw [AList.lookup_insert_ne (Ne.symm h), if_neg h, Option.none_or]
  rw [insertEntries, hfold, AList.lookup_empty, Option.or_none]

namespace Collection

variable {β ε : Type} [RustType β] [RustType ε] [Unwiring β] [Unwiring ε] {U : UTy β}
  {T : UTy ε} {F : Nat → Prop} {Q : List ε → β → Prop}

/-- The decoder of a collection, from what the decoder of its elements takes. -/
theorem decodes (h : Collection U T F Q) {n : Nat} (hn : n ≤ usizeMax) (hfits : F n)
    {b : Bytes} {P : List ε → Prop}
    (helems : Decodes (Act.times n T.decode) b fun data => P data.toList) :
    Decodes U.decode (lenBytes n ++ b) fun v => ∃ l, P l ∧ Q l v := by
  have hlen := (ReadsPrim.syncUnwiring .u64).decodes_len hn
  -- the count is read, and the elements are taken and put into the collection
  have hbind {x : IoM Bytes β} {f : Nat → IoM Bytes β}
      (hx : x = (do
        let len ← (syncUnwiring : IoM Bytes U64)
        f len.toNat))
      (hf : Decodes (f n) b fun v => ∃ l, P l ∧ Q l v) :
      Decodes x (lenBytes n ++ b) fun v => ∃ l, P l ∧ Q l v := by
    rw [hx]
    exact hlen.bind fun len hlen => by rw [hlen]; exact hf
  cases h with
  | vec =>
      refine hbind (f := fun len => collect len syncUnwiring) rfl ?_
      rw [collect, dif_pos hfits]
      exact helems.map fun data hdata => ⟨_, hdata, rfl⟩
  | boxSlice =>
      refine hbind (f := fun len => do let v ← collect len syncUnwiring; pure ⟨v⟩)
        (bind_assoc ..) ?_
      rw [collect, dif_pos hfits]
      simp only [bind_assoc, pure_bind]
      exact helems.map fun data hdata => ⟨_, hdata, rfl⟩
  | hashSet =>
      refine hbind (f := fun len => collectSet len syncUnwiring) rfl ?_
      rw [collectSet, dif_pos hfits]
      exact helems.map fun data hdata => ⟨_, hdata, fun a => mem_insertAll⟩
  | btreeSet =>
      refine hbind (f := fun len => do
        let data ← Act.times len syncUnwiring
        pure ⟨insertAll data.toList, insertAll_nodup _⟩) rfl ?_
      exact helems.map fun data hdata => ⟨_, hdata, fun a => mem_insertAll⟩
  | hashMap K V =>
      refine hbind (f := fun len => do
        let map ← collectMap len syncUnwiring syncUnwiring
        pure ⟨map⟩) rfl ?_
      rw [collectMap, if_pos hfits]
      simp only [bind_assoc, pure_bind]
      exact helems.map fun data hdata => ⟨_, hdata, lookup_insertEntries _⟩
  | btreeMap K V =>
      refine hbind (f := fun len => do
        let data ← Act.times len (entry syncUnwiring syncUnwiring)
        pure ⟨insertEntries data.toList⟩) rfl ?_
      exact helems.map fun data hdata => ⟨_, hdata, lookup_insertEntries _⟩

end Collection

/-! ## Compatible types -/

/-- What the encoders of one type write for a value with room at the reader, the decoders
of the other read. -/
inductive Compat (isAsync : Bool) : {α β : Type} → [Wiring α] → [RustType β] →
    [Unwiring β] → WTy α → UTy β → (α → Prop) → (α → β → Prop) → Prop where
  | prim (t : PrimTy) :
      Compat isAsync (.prim t) (.prim t) (fun _ => True) fun n m => m = n
  | usize :
      Compat isAsync .usize (.prim .u64) (fun _ => True) fun n m => m.toNat = n.toNat
  | char : Compat isAsync .char (.prim .u32) (fun _ => True) fun c n =>
      n.toNat = c.val.toNat
  | bool : Compat isAsync .bool .bool (fun _ => True) fun b b' => b' = b
  | unit : Compat isAsync .unit .unit (fun _ => True) fun _ _ => True
  | unitStruct [RustType UnitStruct] :
      Compat isAsync .unitStruct .unitStruct (fun _ => True) fun _ _ => True
  | string [RustType RString] :
      Compat isAsync .string .string (fun _ => True) fun s t => t = s
  | str [RustType RString] :
      Compat isAsync .str .string (fun _ => True) fun s t => t = s.str
  | url (U : UrlCrate) (lawful : U.Lawful) [RustType RString] [RustType (Url U)] :
      Compat isAsync (.url U) (.url U) (fun _ => True) fun u u' => u' = u
  | urlText (U : UrlCrate) [RustType RString] :
      Compat isAsync (.url U) .string (fun _ => True) fun u t => t = u.asStr
  | utf8 [RustType (Vec U8)] :
      Compat isAsync .string (.vec (.prim .u8)) (fun _ => True) fun s v =>
        v.toList.map Prim.toByte = s.bytes
  | seq {α β ε δ : Type} [RustType ε] [Wiring α] [Wiring ε] [RustType β] [RustType δ]
      [Unwiring β] [Unwiring δ] {W : WTy α} {E : WTy ε} {elems : α → List ε} {U : UTy β}
      {D : UTy δ} {F : Nat → Prop} {Q : List δ → β → Prop} {P : ε → Prop}
      {R : ε → δ → Prop} (w : Sequence W E elems) (u : Collection U D F Q)
      (h : Compat isAsync E D P R) :
      Compat isAsync W U (fun a => F (elems a).length ∧ ∀ e ∈ elems a, P e)
        fun a b => ∃ l, List.Forall₂ (flip R) l (elems a) ∧ Q l b
  | array {α β : Type} [Wiring α] [RustType β] [Unwiring β] {W : WTy α} {U : UTy β}
      {P : α → Prop} {R : α → β → Prop} (h : Compat isAsync W U P R) (N : Nat)
      [RustType (List.Vector β N)] :
      Compat isAsync (.array W N) (.array U N) (fun a => ∀ e ∈ a.toList, P e) fun a b =>
        List.Forall₂ (flip R) b.toList a.toList
  | arrayRef {α β : Type} [Wiring α] [RustType β] [Unwiring β] {W : WTy α} {U : UTy β}
      {P : α → Prop} {R : α → β → Prop} (h : Compat isAsync W U P R) (N : Nat)
      [RustType (List.Vector β N)] :
      Compat isAsync (.arrayRef W N) (.array U N) (fun a => ∀ e ∈ a.array.toList, P e)
        fun a b => List.Forall₂ (flip R) b.toList a.array.toList
  | box {α β : Type} [Wiring α] [RustType β] [Unwiring β] {W : WTy α} {U : UTy β}
      {P : α → Prop} {R : α → β → Prop} (h : Compat isAsync W U P R) :
      Compat isAsync (.box W) U (fun a => P a.inner) fun a b => R a.inner b
  | arc {α β : Type} [Wiring α] [RustType β] [Unwiring β] {W : WTy α} {U : UTy β}
      {P : α → Prop} {R : α → β → Prop} (h : Compat isAsync W U P R) :
      Compat isAsync (.arc W) U (fun a => P a.inner) fun a b => R a.inner b
  | boxed {α β : Type} [Wiring α] [RustType β] [Unwiring β] {W : WTy α} {U : UTy β}
      {P : α → Prop} {R : α → β → Prop} (h : Compat isAsync W U P R) [RustType (Box β)] :
      Compat isAsync W (.box U) P fun a b => R a b.inner
  | shared {α β : Type} [Wiring α] [RustType β] [Unwiring β] {W : WTy α} {U : UTy β}
      {P : α → Prop} {R : α → β → Prop} (h : Compat isAsync W U P R) [RustType (Arc β)] :
      Compat isAsync W (.arc U) P fun a b => R a b.inner
  | option {α β : Type} [Wiring α] [RustType β] [Unwiring β] {W : WTy α} {U : UTy β}
      {P : α → Prop} {R : α → β → Prop} (h : Compat isAsync W U P R)
      [RustType (Option β)] :
      Compat isAsync (.option W) (.option U) (fun o => ∀ a ∈ o, P a) (Option.Rel R)
  | pair {α β α' β' : Type} [Wiring α] [Wiring α'] [RustType β] [RustType β'] [Unwiring β]
      [Unwiring β'] {W : WTy α} {W' : WTy α'} {U : UTy β} {U' : UTy β'}
      {P : α → Prop} {P' : α' → Prop} {R : α → β → Prop} {R' : α' → β' → Prop}
      (h : Compat isAsync W U P R) (h' : Compat isAsync W' U' P' R') [RustType (β × β')] :
      Compat isAsync (.pair W W') (.pair U U') (fun p => P p.1 ∧ P' p.2)
        fun p q => R p.1 q.1 ∧ R' p.2 q.2
  | triple {α β α' β' α'' β'' : Type} [Wiring α] [Wiring α'] [Wiring α''] [RustType β]
      [RustType β'] [RustType β''] [Unwiring β] [Unwiring β'] [Unwiring β''] {W : WTy α}
      {W' : WTy α'} {W'' : WTy α''} {U : UTy β} {U' : UTy β'} {U'' : UTy β''}
      {P : α → Prop} {P' : α' → Prop} {P'' : α'' → Prop}
      {R : α → β → Prop} {R' : α' → β' → Prop} {R'' : α'' → β'' → Prop}
      (h : Compat isAsync W U P R) (h' : Compat isAsync W' U' P' R')
      (h'' : Compat isAsync W'' U'' P'' R'') [RustType (Triple β β' β'')] :
      Compat isAsync (.triple W W' W'') (.triple U U' U'')
        (fun p => P p.fst ∧ P' p.snd ∧ P'' p.trd)
        fun p q => R p.fst q.fst ∧ R' p.snd q.snd ∧ R'' p.trd q.trd
  /-- The attributes do not matter to the decoder. A group changes what the asynchronous
  encoders write, and its fields have to be copied into it. -/
  | struct {n : Nat} (d d' : StructDecl n) {ty ty' : Fin n → Type} [∀ i, Wiring (ty i)]
      [∀ i, RustType (ty' i)] [∀ i, Unwiring (ty' i)] {T : ∀ i, WTy (ty i)}
      {T' : ∀ i, UTy (ty' i)} {P : ∀ i, ty i → Prop} {R : ∀ i, ty i → ty' i → Prop}
      (groups : ∀ f, d.Grouped f → isAsync = false ∧ (T f).ConstSize ∧ (T f).Copied)
      (h : ∀ i, Compat isAsync (T i) (T' i) (P i) (R i)) [RustType (Struct d' ty')] :
      Compat isAsync (.struct d T) (.struct d' T') (fun s => ∀ i, P i (s.field i))
        fun s s' => ∀ i, R i (s.field i) (s'.field i)
  /-- The reader may know more variants. -/
  | enum (d d' : EnumDecl) (tag : d.tag = d'.tag) (fits : d.variants ≤ 256 ^ d.tag.size)
      (variants : d.variants ≤ d'.variants)
      (arity : ∀ v, d.arity v = d'.arity (v.castLE variants))
      {ty : (v : Fin d.variants) → Fin (d.arity v) → Type}
      {ty' : (v : Fin d'.variants) → Fin (d'.arity v) → Type}
      [∀ v i, Wiring (ty v i)] [∀ v i, RustType (ty' v i)] [∀ v i, Unwiring (ty' v i)]
      {T : ∀ v i, WTy (ty v i)} {T' : ∀ v i, UTy (ty' v i)} {P : ∀ v i, ty v i → Prop}
      {R : ∀ v i, ty v i → ty' (v.castLE variants) (i.cast (arity v)) → Prop}
      (h : ∀ v i, Compat isAsync (T v i) (T' (v.castLE variants) (i.cast (arity v)))
        (P v i) (R v i))
      [RustType (Enum d' ty')] :
      Compat isAsync (.enum d T) (.enum d' T') (fun e => ∀ i, P e.variant i (e.field i))
        fun e e' => ∃ field, e' = ⟨e.variant.castLE variants, field⟩ ∧
          ∀ i, R e.variant i (e.field i) (field (i.cast (arity e.variant)))
  | mono {α β : Type} [Wiring α] [RustType β] [Unwiring β] {W : WTy α} {U : UTy β}
      {P P' : α → Prop} {R R' : α → β → Prop} (h : Compat isAsync W U P R)
      (hP : ∀ a, P' a → P a) (hR : ∀ a b, R a b → R' a b) :
      Compat isAsync W U P' R'

/-- The fields of a struct are written in declaration order, without more between them. -/
theorem struct_encode_fields {isAsync : Bool} {n : Nat} {d : StructDecl n}
    {ty : Fin n → Type} [∀ i, Wiring (ty i)] {T : ∀ i, WTy (ty i)}
    (groups : ∀ f, d.Grouped f → isAsync = false ∧ (T f).ConstSize ∧ (T f).Copied)
    (s : Struct d ty) : (WTy.struct d T).encode isAsync s =
      (List.finRange n).flatMap fun f => (T f).encode isAsync (s.field f) := by
  cases isAsync with
  | false =>
      refine struct_encode_eq s (fun _ _ => rfl) fun f hf => ?_
      obtain ⟨-, hconst, hcopied⟩ := groups f hf
      exact ((T f).copied_iff hconst |>.mp hcopied _ _ length_zeros).symm
  | true =>
      obtain ⟨-, -, hcov⟩ := d.covers
      rw [← hcov.fields_eq, List.flatMap_assoc]
      refine (struct_format (T := T) true s).trans (List.flatMap_congr fun c hc => ?_)
      cases c with
      | field f =>
          rw [Call.fields, List.flatMap_singleton]
          rfl
      | group fs calls =>
          -- a group has a field
          obtain ⟨f, fs', g, rfl, -⟩ := hcov.filled _ hc
          have hgrouped : d.Grouped f := ⟨_, _, hc, by simp⟩
          cases (groups f hgrouped).1

theorem toBeBytes_ofNat_congr {t t' : PrimTy} (h : t = t') (n : Nat) :
    (Prim.ofNat n : Prim t).toBeBytes = (Prim.ofNat n : Prim t').toBeBytes := by
  subst h
  rfl

/-- The fields of a variant, written by a peer for whom it has `m` of them. -/
theorem decodes_fields {d : EnumDecl} {ty : (v : Fin d.variants) → Fin (d.arity v) → Type}
    [∀ v i, RustType (ty v i)] [∀ v i, Unwiring (ty v i)] (v : Fin d.variants) {m : Nat}
    (hm : m = d.arity v) {e : Fin m → Bytes} {P : ∀ i : Fin m, ty v (i.cast hm) → Prop}
    (h : ∀ i, Decodes (syncUnwiring : IoM Bytes (ty v (i.cast hm))) (e i) (P i)) :
    Decodes (do
        let field ← Act.sequence (d.arity v) fun i =>
          (syncUnwiring : IoM Bytes (ty v i))
        pure (Enum.mk v field))
      ((List.finRange m).flatMap e)
      fun e' => ∃ field, e' = ⟨v, field⟩ ∧ ∀ i, P i (field (i.cast hm)) := by
  subst hm
  exact (Decodes.sequence h).map fun field hfield => ⟨field, rfl, hfield⟩

/-- A string may be read as its bytes. -/
theorem decodes_utf8 [RustType (Vec U8)] (s : RString) :
    Decodes (syncUnwiring : IoM Bytes (Vec U8)) (prefixed s.bytes) fun v =>
      v.toList.map Prim.toByte = s.bytes := by
  have hbyte : s.bytes.map (Prim.toByte ∘ fun b => (Prim.ofNat b.toNat : U8)) = s.bytes := by
    refine List.map_id'' (fun b => ?_) _
    show UInt8.ofNat (Prim.ofNat b.toNat : U8).toNat = b
    rw [Prim.toNat_ofNat b.toNat_lt]
    exact UInt8.ofNat_toNat
  let v : Vec U8 := ⟨s.bytes.map fun b => .ofNat b.toNat, by
    have hfits := s.fits
    unfold isizeMax at hfits
    rw [List.length_map, CapacityFits, show memSize U8 = 1 from rfl, isizeMax, usizeMax]
    omega⟩
  have hv : lenBytes v.toList.length ++ v.toList.flatMap Prim.toBeBytes =
      prefixed s.bytes := by
    rw [prefixed, ← map_toByte, List.length_map, List.map_map, hbyte]
  have h := (ReadsPrim.syncUnwiring .u64).decodes_vec (R := Eq)
    (fun n => (ReadsPrim.syncUnwiring .u8).decodes n) v
  rw [hv] at h
  refine h.mono fun w hw => ?_
  rw [List.forall₂_eq_eq_eq] at hw
  rw [hw, List.map_map, hbyte]

namespace Compat

variable {isAsync : Bool} {α β : Type} [Wiring α] [RustType β] [Unwiring β] {W : WTy α}
  {U : UTy β} {P : α → Prop} {R : α → β → Prop}

/-- The synchronous decoder takes what was written. -/
theorem decodes (h : Compat isAsync W U P R) {v : α} (hv : P v) :
    Decodes U.decode (W.encode isAsync v) (R v) := by
  induction h with
  | prim t => exact (ReadsPrim.syncUnwiring t).decodes v
  | usize => exact (ReadsPrim.syncUnwiring .u64).decodes_len (Nat.le_of_lt_succ v.lt)
  | char =>
      refine ((ReadsPrim.syncUnwiring .u32).decodes (charU32 v)).mono ?_
      rintro _ rfl
      exact Prim.toNat_ofNat v.val.toNat_lt
  | bool =>
      refine ((ReadsPrim.syncUnwiring .u8).decodes (boolU8 v)).map ?_
      rintro _ rfl
      cases v <;> rfl
  | unit => exact decodes_unit
  | unitStruct => exact decodes_unit.map fun _ _ => trivial
  | string => exact decodes_string v
  | str => exact decodes_string v.str
  | url U lawful => exact decodes_url lawful v
  | urlText U => exact decodes_string v.asStr
  | utf8 => exact decodes_utf8 v
  | seq w u h ih =>
      rw [w.encode_eq]
      exact u.decodes (w.count_le v) hv.1 (.times (fun a ha => ih (hv.2 a ha)) rfl)
  | array h N ih => exact .times (fun a ha => ih (hv a ha)) v.toList_length
  | arrayRef h N ih => exact .times (fun a ha => ih (hv a ha)) v.array.toList_length
  | box h ih => exact ih hv
  | arc h ih => exact ih hv
  | boxed h ih => exact (ih hv).map fun _ hb => hb
  | shared h ih => exact (ih hv).map fun _ hb => hb
  | option h ih =>
      have hread (n : U8) := (ReadsPrim.syncUnwiring .u8).decodes n
      cases v with
      | none =>
          refine (hread (.ofNat 0)).bind (m := []) ?_
          rintro _ rfl
          exact .pure .none
      | some a =>
          refine (hread (.ofNat 1)).bind ?_
          rintro _ rfl
          exact (ih (hv a rfl)).map fun _ hb => .some hb
  | pair h h' ih ih' =>
      exact (ih hv.1).bind fun _ hb => (ih' hv.2).map fun _ hb' => ⟨hb, hb'⟩
  | triple h h' h'' ih ih' ih'' =>
      obtain ⟨hfst, hsnd, htrd⟩ := hv
      rw [WTy.encode, List.append_assoc]
      exact (ih hfst).bind fun a ha => (ih' hsnd).bind fun b hb =>
        (ih'' htrd).map fun c hc => ⟨ha, hb, hc⟩
  | struct d d' groups h ih =>
      rw [struct_encode_fields groups]
      exact (Decodes.sequence fun i => ih i (hv i)).map fun field hfield => hfield
  | enum d d' tag fits variants arity h ih =>
      let n : Prim d'.tag := .ofNat v.variant.val
      have hn : v.idx.toBeBytes = n.toBeBytes := toBeBytes_ofNat_congr tag _
      rw [WTy.encode, hn]
      refine ((ReadsPrim.syncUnwiring d'.tag).decodes n).bind ?_
      rintro _ rfl
      have hidx : n.toNat = (v.variant.castLE variants).val :=
        Prim.toNat_ofNat (Nat.lt_of_lt_of_le v.variant.isLt (tag ▸ fits))
      rw [hidx, EnumDecl.matchTag_val]
      exact decodes_fields _ (arity v.variant) fun i => ih v.variant i (hv i)
  | mono h hP hR ih => exact (ih (hP v hv)).mono (hR v)

/-- So does the asynchronous one. -/
theorem decodes_async (h : Compat isAsync W U P R) {v : α} (hv : P v) :
    Decodes (unwiring : IoM Bytes β) (W.encode isAsync v) (R v) := by
  intro rest
  obtain ⟨b, hb, hR⟩ := h.decodes hv rest
  exact ⟨b, U.twin.of_sync hb, hR⟩

end Compat

/-- A type with an encoder and a decoder understands itself, whatever the value. -/
theorem Codec.compat (isAsync : Bool) : {α : Type} → {r : RustType α} → {w : Wiring α} →
    {u : Unwiring α} → (T : @Codec α r w u) →
    Compat isAsync T.wty T.uty (fun _ => True) fun v v' => T.Same v' v
  | _, _, _, _, prim t => .prim t
  | _, _, _, _, Codec.unit => .mono .unit (fun _ _ => trivial) fun _ _ _ => rfl
  | _, _, _, _, Codec.bool => .bool
  | _, _, _, _, Codec.string => .string
  | _, _, _, _, url U lawful => .url U lawful
  | _, _, _, _, option T =>
      .mono (.option (T.compat isAsync)) (fun _ _ _ _ => trivial) fun _ _ h => by
        cases h with
        | none => exact .none
        | some h => exact .some h
  | _, _, _, _, vec T =>
      .mono (.seq (.vec _) (.vec _) (T.compat isAsync))
        (fun v _ => ⟨v.fits, fun _ _ => trivial⟩) fun _ _ h => by
          obtain ⟨l, hl, rfl⟩ := h
          exact hl
  | _, _, _, _, boxSlice T =>
      .mono (.seq (.boxSlice _) (.boxSlice _) (T.compat isAsync))
        (fun b _ => ⟨b.vec.fits, fun _ _ => trivial⟩) fun _ _ h => by
          obtain ⟨l, hl, rfl⟩ := h
          exact hl
  | _, _, _, _, box T => (Compat.box (T.compat isAsync)).boxed
  | _, _, _, _, arc T => (Compat.arc (T.compat isAsync)).shared
  | _, _, _, _, array T N =>
      .mono (.array (T.compat isAsync) N) (fun _ _ _ _ => trivial) fun _ _ h => h
  | _, _, _, _, pair T TT =>
      .mono (.pair (T.compat isAsync) (TT.compat isAsync)) (fun _ _ => ⟨trivial, trivial⟩)
        fun _ _ h => h
  | _, _, _, _, triple T TT TTT =>
      .mono (.triple (T.compat isAsync) (TT.compat isAsync) (TTT.compat isAsync))
        (fun _ _ => ⟨trivial, trivial, trivial⟩) fun _ _ h => h
  | _, _, _, _, hashSet T =>
      .mono (.seq (.hashSet _) (.hashSet _) (T.compat isAsync))
        (fun s _ => ⟨s.fits, fun _ _ => trivial⟩) fun _ _ h => by
          obtain ⟨l, hl, hs⟩ := h
          obtain ⟨hleft, hright⟩ := forall₂_covers hl
          refine ⟨fun a ha => hleft a ((hs a).mp ha), fun b hb => ?_⟩
          obtain ⟨a, ha, hab⟩ := hright b hb
          exact ⟨a, (hs a).mpr ha, hab⟩
  | _, _, _, _, struct d plain T =>
      .mono (.struct d d
        (fun f hf => by
          obtain ⟨fs, calls, hgroup, -⟩ := hf
          rw [StructDecl.plain_calls plain] at hgroup
          simp at hgroup)
        fun i => (T i).compat isAsync) (fun _ _ _ => trivial) fun _ _ h => h
  | _, _, _, _, Codec.unitStruct =>
      .mono .unitStruct (fun _ _ => trivial) fun _ _ _ => rfl
  | _, _, _, _, @enum d fits _ _ _ _ T _ =>
      show Compat isAsync (.enum d fun v i => (T v i).wty) (.enum d fun v i => (T v i).uty) _ _
        from .mono (.enum d d rfl fits (Nat.le_refl _) (fun _ => rfl)
          (R := fun v i a b => (T v i).Same b a) fun v i => (T v i).compat isAsync)
          (fun _ _ _ => trivial) fun _ _ h => h

/-! ## Streams of values -/

/-- A value on its way from a peer to one that has another type for it. -/
structure SentValue where
  α : Type
  β : Type
  [wiring : Wiring α]
  [rustType : RustType β]
  [unwiring : Unwiring β]
  W : WTy α
  U : UTy β
  P : α → Prop
  R : α → β → Prop
  isAsync : Bool
  compat : Compat isAsync W U P R
  /-- Of the two asynchronous encoders, the one that does not consume the value. -/
  byRef : Bool
  value : α
  fits : P value

attribute [instance] SentValue.wiring SentValue.rustType SentValue.unwiring

namespace SentValue

/-- `wire.wire(value)`, `wire.wire_ref(&value)` or `wire.sync_wire(&value)` -/
def write (v : SentValue) : IoM Bytes Unit :=
  if v.isAsync then
    if v.byRef then wiringRef v.value else Wiring.wiring v.value
  else syncWiring v.value

def bytes (v : SentValue) : Bytes := v.W.encode v.isAsync v.value

/-- The decoder returns what the value is for the reader. -/
def ReadBy (v : SentValue) (x : IoM Bytes v.β) (s s' : Bytes) : Prop :=
  ∃ b, x s = (.ok b, s') ∧ v.R v.value b

/-- Read one after another, each with either decoder, the values leave `rest`. -/
def Understood : List SentValue → Bytes → Bytes → Prop
  | [], s, rest => s = rest
  | v :: vs, s, rest => ∃ s', v.ReadBy WiringRs.unwiring s s' ∧
      v.ReadBy syncUnwiring s s' ∧ Understood vs s' rest

theorem write_emits (v : SentValue) : Emits v.write v.bytes := by
  unfold write bytes
  cases v.isAsync with
  | false => exact v.W.encoder.syncWiring_emits v.value
  | true =>
      cases v.byRef with
      | false => exact v.W.encoder.wiring_emits v.value
      | true => exact v.W.encoder.wiringRef_emits v.value

theorem understood (vs : List SentValue) (rest : Bytes) :
    Understood vs (vs.flatMap bytes ++ rest) rest := by
  induction vs with
  | nil => rfl
  | cons v vs ih =>
      rw [List.flatMap_cons, List.append_assoc]
      obtain ⟨b, hb, hR⟩ := v.compat.decodes v.fits (vs.flatMap bytes ++ rest)
      exact ⟨_, ⟨b, v.U.twin.of_sync hb, hR⟩, ⟨b, hb, hR⟩, ih⟩

end SentValue

/-- **Peers with compatible types understand each other.** Values of any types, written one
after another with any of the encoders, are read one after another with either decoder,
each at a type that is compatible with its own. -/
theorem values_understood (vs : List SentValue) (out rest : Bytes) :
    vs.forM SentValue.write out = (.ok (), out ++ vs.flatMap SentValue.bytes) ∧
      SentValue.Understood vs (vs.flatMap SentValue.bytes ++ rest) rest := by
  have hwrite : Emits (vs.forM SentValue.write) (vs.flatMap SentValue.bytes) :=
    .forM fun v _ => v.write_emits
  exact ⟨hwrite.run out, SentValue.understood vs rest⟩

end WiringRs
