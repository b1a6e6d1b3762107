import WiringRs.Unwiring

/-!
# Lengths on other targets

A length prefix is a `u64`; a `Vec` is counted in `usize`, which has 32 bits on some
targets. The sets and the maps convert the one to the other with `try_from`, and
refuse a length that does not fit. The other decoders convert with `as`, which drops
the high bits: they read fewer elements than are announced, and take what follows for
the next value.

The rest of the development is about 64 bits, where the two conversions agree.
-/

namespace WiringRs

/-- The width of a pointer, and of `usize`. -/
inductive Width where
  | w32 | w64

namespace Width

def bits : Width → Nat
  | .w32 => 32
  | .w64 => 64

def isizeMax (w : Width) : Nat := 2 ^ (w.bits - 1) - 1

/-- `n as usize` -/
def asUsize (w : Width) (n : U64) : Nat := n.toNat % 2 ^ w.bits

section

variable {σ : Type}

/-- `usize::try_from(n)`, with its error mapped to an `OutOfMemory`. -/
def tryFrom (w : Width) (n : U64) : IoM σ Nat :=
  if n.toNat < 2 ^ w.bits then pure n.toNat
  else Act.fail ⟨.outOfMemory, "out of range integral type conversion attempted"⟩

/-- `Vec::with_capacity(len)`, for elements of a size. -/
def reserve (w : Width) (size len : Nat) : IoM σ Unit :=
  if len * size ≤ w.isizeMax then pure () else Act.panic

/-- `with_capacity(len)` of a hash table. -/
def reserveTable (w : Width) (size len : Nat) : IoM σ Unit :=
  if TableFits w.bits size len then pure () else Act.panic

end

end Width

/-- The first length that does not fit 32 bits. -/
def pastU32 : U64 := .ofNat (2 ^ 32)

/-- Where a length is read: an asynchronous stream, or any reader that can come to
a length past 32 bits. -/
inductive LengthSource : Type → Type 1 where
  | stream : LengthSource Bytes
  | reader {σ : Type} [Unwire σ] (h : ∃ s s' : σ, Unwire.syncUnwireU64 s = (.ok pastU32, s')) :
      LengthSource σ

namespace LengthSource

def readLen : {σ : Type} → LengthSource σ → IoM σ U64
  | _, stream => asyncReadPrim .u64
  | _, reader _ => Unwire.syncUnwireU64

/-- `T::unwiring(wire)` or `T::sync_unwiring(wire)` -/
def decoder (α : Type) [RustType α] [Unwiring α] : {σ : Type} → LengthSource σ → IoM σ α
  | _, stream => unwiring
  | _, reader _ => syncUnwiring

theorem comes {σ : Type} (src : LengthSource σ) : ∃ s s', src.readLen s = (.ok pastU32, s') := by
  cases src with
  | stream => exact ⟨[0, 0, 0, 1, 0, 0, 0, 0], [], rfl⟩
  | reader h => exact h

/-- A slice, read with the `sync` methods. -/
def slice : LengthSource Bytes := reader ⟨[0, 0, 0, 1, 0, 0, 0, 0], [], rfl⟩

end LengthSource

/-! ## The decoders -/

namespace Width

section

variable {σ α β : Type} [RustType α] [RustType β]

/-- The body of `unwiring_vec` and of `sync_unwiring_vec`, for elements that `x` decodes. -/
def vecFrom (w : Width) (src : LengthSource σ) (x : IoM σ α) : IoM σ (Vec α) := do
  let len ← src.readLen
  w.reserve (memSize α) (w.asUsize len)
  collect (w.asUsize len) x

/-- The decoders of `HashSet`: the loop counts the `u64`. -/
def hashSetFrom [DecidableEq α] (w : Width) (src : LengthSource σ) (x : IoM σ α) :
    IoM σ (HashSet α) := do
  let len ← src.readLen
  let capacity ← w.tryFrom len
  w.reserveTable (memSize α) capacity
  collectSet len.toNat x

def hashMapFrom [DecidableEq α] [RustType (α × β)] (w : Width) (src : LengthSource σ)
    (x : IoM σ α) (y : IoM σ β) : IoM σ (HashMap α β) := do
  let len ← src.readLen
  let capacity ← w.tryFrom len
  w.reserveTable (memSize (α × β)) capacity
  let map ← collectMap len.toNat x y
  pure ⟨map⟩

def btreeMapFrom [DecidableEq α] (w : Width) (src : LengthSource σ) (x : IoM σ α)
    (y : IoM σ β) : IoM σ (BTreeMap α β) := do
  let len ← src.readLen
  let _ ← w.tryFrom len
  let data ← Act.times len.toNat (entry x y)
  pure ⟨insertEntries data.toList⟩

/-- `BTreeSet::new()`, then the insertions. -/
def btreeSetOf [DecidableEq α] (l : List α) : BTreeSet α := ⟨insertAll l, insertAll_nodup l⟩

def btreeSetFrom [DecidableEq α] (w : Width) (src : LengthSource σ) (x : IoM σ α) :
    IoM σ (BTreeSet α) := do
  let len ← src.readLen
  let _ ← w.tryFrom len
  let data ← Act.times len.toNat x
  pure (btreeSetOf data.toList)

end

/-- `sync_unwire_string` of the trait, which a slice keeps. -/
def syncUnwireString {σ : Type} [Unwire σ] (w : Width) : IoM σ RString := do
  let len ← Unwire.syncUnwireU64
  w.reserve 1 (w.asUsize len)
  let b ← Unwire.readExact (w.asUsize len)
  Act.lift (fromUtf8 b)

/-- `sync_unwire_string` of the unsafe reader. -/
def unsafeSyncUnwireString (w : Width) : IoM UnsafeReader RString := do
  let len ← UnsafeReader.unwirePrim .u64
  let slice ← UnsafeReader.unwireSlice (w.asUsize len)
  Act.lift (fromUtf8 slice)

/-- `advance_position` of a slice. -/
def advancePosition (w : Width) (amt : U64) : IoM Bytes Unit := do
  let _ ← splitSlice (w.asUsize amt) ⟨.unexpectedEof, "failed to advance the position"⟩
  pure ()

end Width

/-- The decoders of what is announced by a length, with those of the elements. -/
inductive Announced : Type → Type → Type 1 where
  | vec {σ α : Type} [RustType α] (src : LengthSource σ) (x : IoM σ α) : Announced σ (Vec α)
  | boxSlice {σ α : Type} [RustType α] (src : LengthSource σ) (x : IoM σ α) :
      Announced σ (BoxSlice α)
  | string : Announced Bytes RString
  | unsafeString : Announced UnsafeReader RString
  | hashSet {σ α : Type} [RustType α] [DecidableEq α] (src : LengthSource σ) (x : IoM σ α) :
      Announced σ (HashSet α)
  | hashMap {σ α β : Type} [RustType α] [RustType β] [RustType (α × β)] [DecidableEq α]
      (src : LengthSource σ) (x : IoM σ α) (y : IoM σ β) : Announced σ (HashMap α β)
  | btreeMap {σ α β : Type} [RustType α] [RustType β] [DecidableEq α]
      (src : LengthSource σ) (x : IoM σ α) (y : IoM σ β) : Announced σ (BTreeMap α β)
  | btreeSet {σ α : Type} [RustType α] [DecidableEq α] (src : LengthSource σ) (x : IoM σ α) :
      Announced σ (BTreeSet α)

namespace Announced

def readLen : {σ β : Type} → Announced σ β → IoM σ U64
  | _, _, vec src _ | _, _, boxSlice src _ | _, _, hashSet src _ | _, _, hashMap src _ _
  | _, _, btreeMap src _ _ | _, _, btreeSet src _ => src.readLen
  | _, _, string => Unwire.syncUnwireU64
  | _, _, unsafeString => UnsafeReader.unwirePrim .u64

def decode (w : Width) : {σ β : Type} → Announced σ β → IoM σ β
  | _, _, vec src x => w.vecFrom src x
  | _, _, boxSlice src x => do
      let vec ← w.vecFrom src x
      pure ⟨vec⟩
  | _, _, string => w.syncUnwireString
  | _, _, unsafeString => w.unsafeSyncUnwireString
  | _, _, hashSet src x => w.hashSetFrom src x
  | _, _, hashMap src x y => w.hashMapFrom src x y
  | _, _, btreeMap src x y => w.btreeMapFrom src x y
  | _, _, btreeSet src x => w.btreeSetFrom src x

end Announced

/-! ## Refusals -/

namespace Act

variable {ε σ α β : Type}

/-- The call ends with an error or a panic. -/
def Refuses (x : Act ε σ α) (s : σ) : Prop := ∃ e, (x s).1 = .error e ∧ e ≠ .ub

variable {x : Act ε σ α} {f : α → Act ε σ β} {s s' : σ}

theorem refuses_fail {e : ε} : (fail e : Act ε σ α).Refuses s := ⟨.err e, rfl, nofun⟩

theorem not_refuses_of_ok {a : α} (h : x s = (.ok a, s')) : ¬ x.Refuses s := by
  rintro ⟨e, he, -⟩
  rw [h] at he
  cases he

theorem refuses_bind_ok {a : α} (h : x s = (.ok a, s')) :
    (x >>= f).Refuses s ↔ (f a).Refuses s' := by
  rw [Refuses, Refuses, bind_ok h]

theorem Refuses.bind (h : x.Refuses s) : (x >>= f).Refuses s := by
  obtain ⟨e, he, hne⟩ := h
  have hx : x s = (.error e, (x s).2) := by rw [← he]
  exact ⟨e, by rw [bind_error hx], hne⟩

end Act

/-! ## Lengths that do not fit -/

namespace Announced

/-- An announced length that does not fit `usize` is refused. -/
def Kept (w : Width) {σ β : Type} (d : Announced σ β) (s : σ) : Prop :=
  ∀ len s', d.readLen s = (.ok len, s') → 2 ^ w.bits ≤ len.toNat → (d.decode w).Refuses s

/-- The sets and the maps. -/
def IsKeyed : {σ β : Type} → Announced σ β → Prop
  | _, _, vec _ _ | _, _, boxSlice _ _ | _, _, string | _, _, unsafeString => False
  | _, _, hashSet _ _ | _, _, hashMap _ _ _ | _, _, btreeMap _ _ _ | _, _, btreeSet _ _ => True

end Announced

theorem Width.tryFrom_refuses {σ β : Type} {w : Width} {len : U64} {s : σ}
    (h : 2 ^ w.bits ≤ len.toNat) {f : Nat → IoM σ β} : (w.tryFrom len >>= f).Refuses s := by
  rw [Width.tryFrom, if_neg (Nat.not_lt.mpr h)]
  exact Act.refuses_fail.bind

/-- Nothing is left of the first length past 32 bits. -/
theorem asUsize_pastU32 : Width.w32.asUsize pastU32 = 0 := by decide

/-- With 32 bits, a vector is read without an element there. -/
theorem vecFrom_pastU32 {σ α : Type} [RustType α] (src : LengthSource σ) (x : IoM σ α)
    {s s' : σ} (h : src.readLen s = (.ok pastU32, s')) :
    ∃ v, Width.w32.vecFrom src x s = (.ok v, s') := by
  have hfits : CapacityFits α 0 := Vec.empty.fits
  have hreserve : (Width.w32.reserve (memSize α) 0 : IoM σ Unit) = pure () :=
    if_pos (by rw [Nat.zero_mul]; exact Nat.zero_le _)
  have hcollect : collect 0 x = pure Vec.empty := by
    rw [collect, dif_pos hfits]
    rfl
  refine ⟨Vec.empty, ?_⟩
  rw [Width.vecFrom, Act.bind_ok h, asUsize_pastU32, hreserve, hcollect]
  rfl

namespace Announced

variable {σ β : Type}

/-- The sets and the maps ask `try_from`. -/
theorem IsKeyed.kept {d : Announced σ β} (hd : d.IsKeyed) (w : Width) (s : σ) :
    d.Kept w s := by
  intro len s' hread hlen
  cases d with
  | vec | boxSlice | string | unsafeString => exact hd.elim
  | hashSet | hashMap | btreeMap | btreeSet =>
      exact (Act.refuses_bind_ok hread).mpr (Width.tryFrom_refuses hlen)

/-- The others read the first length past 32 bits as none. -/
theorem not_kept {d : Announced σ β} (hd : ¬ d.IsKeyed) : ∃ s, ¬ d.Kept .w32 s := by
  have of_ok {s s' : σ} {v : β} (hread : d.readLen s = (.ok pastU32, s'))
      (hok : d.decode .w32 s = (.ok v, s')) : ∃ s, ¬ d.Kept .w32 s :=
    ⟨s, fun h => Act.not_refuses_of_ok hok (h _ _ hread (by decide))⟩
  cases d with
  | vec src x =>
      obtain ⟨s, s', hread⟩ := src.comes
      obtain ⟨v, hok⟩ := vecFrom_pastU32 src x hread
      exact of_ok hread hok
  | boxSlice src x =>
      obtain ⟨s, s', hread⟩ := src.comes
      obtain ⟨v, hok⟩ := vecFrom_pastU32 src x hread
      exact of_ok (v := ⟨v⟩) hread (Act.bind_ok hok)
  | string =>
      exact of_ok (s := [0, 0, 0, 1, 0, 0, 0, 0]) (v := emptyString) rfl (by rfl)
  | unsafeString =>
      exact of_ok (s := .new [0, 0, 0, 1, 0, 0, 0, 0]) (v := emptyString) rfl (by rfl)
  | hashSet | hashMap | btreeMap | btreeSet => exact absurd trivial hd

/-- On 64 bits every length fits. -/
theorem kept_w64 (d : Announced σ β) (s : σ) : d.Kept .w64 s :=
  fun len _ _ hlen => absurd len.lt (Nat.not_lt.mpr hlen)

theorem kept_iff (w : Width) (d : Announced σ β) :
    (∀ s, d.Kept w s) ↔ w = .w64 ∨ d.IsKeyed := by
  constructor
  · intro h
    cases w with
    | w32 =>
        refine .inr (by_contra fun hd => ?_)
        obtain ⟨s, hs⟩ := not_kept hd
        exact hs (h s)
    | w64 => exact .inl rfl
  · rintro (rfl | hd) s
    · exact d.kept_w64 s
    · exact hd.kept w s

end Announced

/-! ## 64 bits

Every length fits, and the decoders are those of the trait. -/

namespace Width

section

variable {σ α β : Type} [RustType α] [RustType β] [Unwiring α] [Unwiring β]

theorem asUsize_w64 (len : U64) : Width.w64.asUsize len = len.toNat := Nat.mod_eq_of_lt len.lt

theorem tryFrom_w64 (len : U64) : (Width.w64.tryFrom len : IoM σ Nat) = pure len.toNat :=
  if_pos len.lt

/-- What checks the capacity itself needs no check before. -/
theorem checked_bind {γ : Type} {P : Prop} [Decidable P] {check : IoM σ Unit} {x : IoM σ γ}
    (hcheck : check = if P then pure () else Act.panic) (h : ¬ P → x = Act.panic) :
    (do
      check
      x) = x := by
  by_cases hp : P
  · rw [hcheck, if_pos hp, pure_bind]
  · rw [hcheck, h hp, if_neg hp]
    rfl

theorem vecFrom_w64 [RustType (Vec α)] (src : LengthSource σ) :
    Width.w64.vecFrom src (src.decoder α) = src.decoder (Vec α) := by
  have h (len : U64) : (do
      Width.w64.reserve (memSize α) len.toNat
      collect len.toNat (src.decoder α)) = collect len.toNat (src.decoder α) :=
    checked_bind rfl fun hlt => dif_neg fun hfits => hlt hfits.2
  simp only [vecFrom, asUsize_w64, h]
  cases src <;> rfl

theorem boxSlice_w64 [RustType (Vec α)] [RustType (BoxSlice α)] (src : LengthSource σ) :
    (Announced.boxSlice src (src.decoder α)).decode .w64 = src.decoder (BoxSlice α) := by
  rw [Announced.decode, vecFrom_w64]
  cases src <;> rfl

theorem hashSetFrom_w64 [DecidableEq α] [RustType (HashSet α)] (src : LengthSource σ) :
    Width.w64.hashSetFrom src (src.decoder α) = src.decoder (HashSet α) := by
  have h (len : U64) : (do
      Width.w64.reserveTable (memSize α) len.toNat
      collectSet len.toNat (src.decoder α)) = collectSet len.toNat (src.decoder α) :=
    checked_bind rfl fun hn => dif_neg hn
  simp only [hashSetFrom, tryFrom_w64, pure_bind, h]
  cases src <;> rfl

theorem hashMapFrom_w64 [DecidableEq α] [RustType (α × β)] [RustType (HashMap α β)]
    (src : LengthSource σ) :
    Width.w64.hashMapFrom src (src.decoder α) (src.decoder β) = src.decoder (HashMap α β) := by
  have h (len : U64) (f : (AList fun _ : α => β) → IoM σ (HashMap α β)) : (do
      Width.w64.reserveTable (memSize (α × β)) len.toNat
      let map ← collectMap len.toNat (src.decoder α) (src.decoder β)
      f map) = collectMap len.toNat (src.decoder α) (src.decoder β) >>= f := by
    refine checked_bind rfl fun hn => ?_
    have hpanic : collectMap len.toNat (src.decoder α) (src.decoder β) = Act.panic := if_neg hn
    rw [hpanic]
    rfl
  simp only [hashMapFrom, tryFrom_w64, pure_bind, h]
  cases src <;> rfl

theorem btreeMapFrom_w64 [DecidableEq α] [RustType (BTreeMap α β)] (src : LengthSource σ) :
    Width.w64.btreeMapFrom src (src.decoder α) (src.decoder β) =
      src.decoder (BTreeMap α β) := by
  simp only [btreeMapFrom, tryFrom_w64, pure_bind]
  cases src <;> rfl

theorem btreeSetFrom_w64 [DecidableEq α] [RustType (BTreeSet α)] (src : LengthSource σ) :
    Width.w64.btreeSetFrom src (src.decoder α) = src.decoder (BTreeSet α) := by
  simp only [btreeSetFrom, tryFrom_w64, pure_bind]
  cases src <;> rfl

theorem syncUnwireString_w64 :
    (Width.w64.syncUnwireString : IoM Bytes RString) = Unwire.syncUnwireString := by
  simp only [syncUnwireString, asUsize_w64, reserve, Nat.mul_one]
  rfl

theorem unsafeSyncUnwireString_w64 :
    Width.w64.unsafeSyncUnwireString = (Unwire.syncUnwireString : IoM UnsafeReader RString) := by
  simp only [unsafeSyncUnwireString, asUsize_w64]
  rfl

theorem advancePosition_w64 (amt : U64) :
    Width.w64.advancePosition amt = (Unwire.advancePosition amt.toNat : IoM Bytes Unit) := by
  rw [advancePosition, asUsize_w64]
  rfl

end

end Width

/-! ## Prefixes and amounts -/

/-- An amount beyond the slice is refused. -/
def AdvanceKept (w : Width) (slice : Bytes) (amt : U64) : Prop :=
  slice.length < amt.toNat → (w.advancePosition amt).Refuses slice

theorem advancePosition_refuses_iff {w : Width} {slice : Bytes} {amt : U64} :
    (w.advancePosition amt).Refuses slice ↔ slice.length < w.asUsize amt := by
  rw [Width.advancePosition]
  by_cases hlt : slice.length < w.asUsize amt
  · have hsplit : (splitSlice (w.asUsize amt)
        ⟨.unexpectedEof, "failed to advance the position"⟩).Refuses slice :=
      ⟨.err _, congrArg Prod.fst (if_pos hlt), nofun⟩
    exact iff_of_true hsplit.bind hlt
  · have hsplit := splitSlice_eq_ok (e := ⟨.unexpectedEof, "failed to advance the position"⟩)
      |>.mpr ⟨Nat.le_of_not_lt hlt, rfl, rfl⟩
    exact iff_of_false (mt (Act.refuses_bind_ok hsplit).mp (Act.not_refuses_of_ok rfl)) hlt

theorem advanceKept_iff {w : Width} {slice : Bytes} {amt : U64} :
    AdvanceKept w slice amt ↔
      amt.toNat ≤ slice.length ∨ slice.length < amt.toNat % 2 ^ w.bits := by
  rw [AdvanceKept, advancePosition_refuses_iff, Width.asUsize]
  omega

/-- **When lengths are kept.** A decoder refuses every length prefix that does not fit
`usize` exactly with 64 bits, where there is none, or as the decoder of a set or a map.
The amounts beyond a slice are all refused exactly with 64 bits; with either width, a
given one is refused exactly where it stays beyond the slice when cut down. -/
theorem lengthsKept_iff (w : Width) :
    (∀ {σ β : Type} (d : Announced σ β), (∀ s, d.Kept w s) ↔ w = .w64 ∨ d.IsKeyed) ∧
    ((∀ slice amt, AdvanceKept w slice amt) ↔ w = .w64) ∧
    ∀ slice amt, AdvanceKept w slice amt ↔
      amt.toNat ≤ slice.length ∨ slice.length < amt.toNat % 2 ^ w.bits := by
  refine ⟨fun d => d.kept_iff w, ⟨fun h => ?_, ?_⟩, fun _ _ => advanceKept_iff⟩
  · cases w with
    | w32 => exact absurd (advanceKept_iff.mp (h [] pastU32)) (by decide)
    | w64 => rfl
  · rintro rfl slice amt
    have hlt : amt.toNat % 2 ^ Width.w64.bits = amt.toNat := Nat.mod_eq_of_lt amt.lt
    rw [advanceKept_iff, hlt]
    omega

/-- With 32 bits, the prefix 2^32 is read as an empty `Vec<u8>`, and the position is
advanced by 2^32 bytes within no bytes. -/
theorem lengths_not_kept :
    ¬ (Announced.vec .slice (syncUnwiring : IoM Bytes U8)).Kept .w32
        [0, 0, 0, 1, 0, 0, 0, 0] ∧
      ¬ AdvanceKept .w32 [] pastU32 := by
  constructor
  · intro h
    exact Act.not_refuses_of_ok rfl (h _ _ rfl (by decide))
  · intro h
    exact Act.not_refuses_of_ok rfl (h (by decide))

end WiringRs
