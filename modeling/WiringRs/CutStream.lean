import WiringRs.Compatible
import WiringRs.CursorReader

/-!
# Streams that are cut

A stream may end anywhere: in the middle of a value, if the other peer is gone. What a
decoder has decided before the end of its input it does not decide otherwise on more
input. So of a sequence of values that is cut at any byte, the values in front of the cut
are read as they were written, and then a decoder comes to the end of the stream; only a
string that is cut may be taken for a shorter one, by the asynchronous decoder.
-/

namespace WiringRs

open Act

/-! ## More input -/

/-- The first stream is what has come of the second one, of which `rest` is missing. -/
def CutOff (rest s t : Bytes) : Prop := t = s ++ rest

section

variable {rest : Bytes}

theorem readExactSlice_cut (n : Nat) :
    Simulates (CutOff rest) (· = .err eof) (readExactSlice n) (readExactSlice n) := by
  rintro s _ rfl
  unfold readExactSlice
  by_cases hle : n ≤ s.length
  · rw [if_pos hle, if_pos (by rw [List.length_append]; omega)]
    refine Or.inl ⟨_, _, _, rfl, ?_, rfl⟩
    rw [List.take_append_of_le_length hle, List.drop_append_of_le_length hle]
  · rw [if_neg hle]
    exact Or.inr (Or.inr ⟨_, _, rfl, rfl⟩)

theorem splitSlice_cut (n : Nat) :
    Simulates (CutOff rest) (· = .err eof) (splitSlice n eof) (splitSlice n eof) := by
  rintro s _ rfl
  unfold splitSlice
  by_cases hgt : n > s.length
  · rw [if_pos hgt]
    exact Or.inr (Or.inr ⟨_, _, rfl, rfl⟩)
  · have hle : n ≤ s.length := Nat.not_lt.mp hgt
    rw [if_neg hgt, if_neg (by rw [List.length_append]; omega)]
    refine Or.inl ⟨_, _, _, rfl, ?_, rfl⟩
    rw [List.take_append_of_le_length hle, List.drop_append_of_le_length hle]

theorem readsAlike_cut : ReadsAlike (CutOff rest) (· = .err eof) where
  readExact := readExactSlice_cut
  u8 := (readExactSlice_cut 1).map
  u16 := (readExactSlice_cut 2).map
  u32 := (readExactSlice_cut 4).map
  u64 := (splitSlice_cut 8).map
  f32 := (splitSlice_cut 4).map
  string := (splitSlice_cut 8).map.bind fun len =>
    (Simulates.ite (.pure ()) (.stop .panic)).bind fun _ =>
      (readExactSlice_cut len.toNat).bind fun b => .lift (fromUtf8 b)

end

/-- A value that was read stays the same when more comes. -/
theorem Act.Simulates.ok_append {α : Type} {rest : Bytes} {E : Stop IoError → Prop}
    {x : IoM Bytes α} (h : Simulates (CutOff rest) E x x) {s r : Bytes} {a : α}
    (hx : x s = (.ok a, r)) : x (s ++ rest) = (.ok a, r ++ rest) := by
  rcases h s (s ++ rest) rfl with ⟨b, r', t, hs, ht, rfl⟩ | ⟨e, r', t, hs, -⟩ | ⟨e, r', hs, -⟩
  · cases hx.symm.trans hs
    exact ht
  · cases hx.symm.trans hs
  · cases hx.symm.trans hs

section

variable {α : Type} [RustType α] [Unwiring α]

theorem UTy.decode_cut (T : UTy α) (rest : Bytes) :
    Simulates (CutOff rest) (· = .err eof) T.decode T.decode :=
  T.simulates readsAlike_cut

theorem UTy.unwiring_cut (T : UTy α) {s r : Bytes} {a : α}
    (h : (unwiring : IoM Bytes α) s = (.ok a, r)) (rest : Bytes) :
    (T.EndsInString s ∧ r = []) ∨ (unwiring : IoM Bytes α) (s ++ rest) = (.ok a, r ++ rest) := by
  rcases T.twin.of_async h with hsync | hends
  · exact Or.inr (T.twin.of_sync ((T.decode_cut rest).ok_append hsync))
  · exact Or.inl hends

/-- **More input changes nothing that is decided.** On any bytes, the synchronous decoder
comes to their end, or it returns the value, or the error, that it returns however they go
on, and has taken the same of them. A value of the asynchronous decoder is final too, unless
the stream ends inside a string. -/
theorem decode_append (T : UTy α) (s rest : Bytes) :
    ((T.decode s).1 = .error (.err eof) ∨
      (∃ a r, T.decode s = (.ok a, r) ∧ T.decode (s ++ rest) = (.ok a, r ++ rest)) ∨
      ∃ e, (T.decode s).1 = .error e ∧ (T.decode (s ++ rest)).1 = .error e) ∧
    ∀ a r, (unwiring : IoM Bytes α) s = (.ok a, r) →
      T.EndsInString s ∨ (unwiring : IoM Bytes α) (s ++ rest) = (.ok a, r ++ rest) := by
  refine ⟨?_, fun a r h => (T.unwiring_cut h rest).imp_left And.left⟩
  rcases T.decode_cut rest s (s ++ rest) rfl with
    ⟨a, r, t, hs, ht, rfl⟩ | ⟨e, r, t, hs, ht⟩ | ⟨e, r, hs, rfl⟩
  · exact Or.inr (Or.inl ⟨a, r, hs, ht⟩)
  · exact Or.inr (Or.inr ⟨e, congrArg Prod.fst hs, congrArg Prod.fst ht⟩)
  · exact Or.inl (congrArg Prod.fst hs)

end

/-! ## A sequence that is cut -/

namespace SentValue

/-- Of the bytes of the value only `s` has come. The synchronous decoder comes to their
end; the asynchronous one returns no value unless they end inside a string. -/
structure Cut (v : SentValue) (s : Bytes) : Prop where
  start : s <+: v.bytes
  missing : s ≠ v.bytes
  sync : (v.U.decode s).1 = .error (.err eof)
  async : ∀ b r, (WiringRs.unwiring : IoM Bytes v.β) s = (.ok b, r) → v.U.EndsInString s

/-- A value that has come in part. -/
theorem cut (v : SentValue) {s : Bytes} (hstart : s <+: v.bytes) (hmissing : s ≠ v.bytes) :
    v.Cut s := by
  obtain ⟨rest, hrest⟩ := hstart
  have hne : rest ≠ [] := by
    rintro rfl
    exact hmissing (by rw [← hrest, List.append_nil])
  -- the whole value is read to its last byte
  obtain ⟨b, hwhole, -⟩ := v.compat.decodes v.fits []
  rw [List.append_nil] at hwhole
  have hall : v.U.decode (s ++ rest) = (.ok b, []) := by rw [hrest]; exact hwhole
  have hnil {r : Bytes} (h : [] = r ++ rest) : False :=
    hne (List.append_eq_nil_iff.mp h.symm).2
  refine ⟨⟨rest, hrest⟩, hmissing, ?_, fun b' r hb' => ?_⟩
  · rcases v.U.decode_cut rest s (s ++ rest) rfl with
      ⟨b', r, t, -, hmore, rfl⟩ | ⟨e, r, t, -, hmore⟩ | ⟨e, r, hs, rfl⟩
    · exact (hnil (congrArg Prod.snd (hall.symm.trans hmore))).elim
    · cases hall.symm.trans hmore
    · exact congrArg Prod.fst hs
  · refine ((v.U.unwiring_cut hb' rest).resolve_right fun hmore => ?_).1
    exact hnil (congrArg Prod.snd ((v.U.twin.of_sync hall).symm.trans hmore))

/-- What is left of a sequence that was cut: nothing, or a part of its first value. -/
def CutIn : List SentValue → Bytes → Prop
  | [], s => s = []
  | v :: _, s => v.Cut s

end SentValue

/-- **A cut stream.** Values of any types, written one after another with any of the
encoders, are cut at any byte. The values whose bytes are all in front of the cut are read
with either decoder, each at a type that is compatible with its own; then the next read
comes to the end of the stream. -/
theorem cut_understood (vs : List SentValue) {s : Bytes} (h : s <+: vs.flatMap SentValue.bytes) :
    ∃ whole rest s', vs = whole ++ rest ∧ s = whole.flatMap SentValue.bytes ++ s' ∧
      SentValue.Understood whole s s' ∧ SentValue.CutIn rest s' := by
  induction vs generalizing s with
  | nil => exact ⟨[], [], s, rfl, rfl, rfl, List.prefix_nil.mp h⟩
  | cons v vs ih =>
      rw [List.flatMap_cons] at h
      by_cases hwhole : v.bytes <+: s
      · obtain ⟨s1, rfl⟩ := hwhole
        obtain ⟨whole, rest, s', rfl, rfl, -, hcut⟩ := ih ((List.prefix_append_right_inj _).mp h)
        refine ⟨v :: whole, rest, s', rfl, ?_, ?_, hcut⟩
        · rw [List.flatMap_cons, List.append_assoc]
        · have hread := SentValue.understood (v :: whole) s'
          rwa [List.flatMap_cons, List.append_assoc] at hread
      · have hstart : s <+: v.bytes :=
          (List.prefix_or_prefix_of_prefix h (List.prefix_append _ _)).resolve_right hwhole
        refine ⟨[], v :: vs, s, rfl, rfl, rfl, v.cut hstart ?_⟩
        rintro rfl
        exact hwhole List.prefix_rfl

local instance cutString : RustType RString := ⟨24, "alloc::string::String"⟩

/-- The number 7. -/
def seven : SentValue := ⟨_, _, _, _, _, _, true, .prim .u8, false, .ofNat 7, trivial⟩

def hiString : RString := .ofChars ['h', 'i'] (by decide)

/-- The string "hi". -/
def hi : SentValue := ⟨_, _, _, _, _, _, true, .string, false, hiString, trivial⟩

/-- The last byte of the string is missing. -/
theorem cut_understood_hi : ∃ whole rest s', [seven, hi] = whole ++ rest ∧
    [7, 0, 0, 0, 0, 0, 0, 0, 2, 0x68] = whole.flatMap SentValue.bytes ++ s' ∧
    SentValue.Understood whole [7, 0, 0, 0, 0, 0, 0, 0, 2, 0x68] s' ∧ SentValue.CutIn rest s' :=
  cut_understood [seven, hi] ⟨[0x69], by decide⟩

end WiringRs
