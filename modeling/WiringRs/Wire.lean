import WiringRs.Rust

/-!
# Wires

The synchronous side of the `Wire` trait: a sink of bytes, with the methods a
wire may override. Three sinks are modelled: a growable byte list (`Bytes`,
also what an async stream has been handed), a `Vec<u8>` with its capacity
(`VecWire`), and the `Unchecked` wrapper, which turns every `sync_wire_all`
into the one that does not check the capacity.

`LawfulWire` says when a sink accepts bytes (`room`), and `Emits` that a call
appends exactly the given bytes to any sink with room for them. Encoders are
generic over the sink, so they are proved once against `Emits`.
-/

namespace WiringRs

class Wire (σ : Type) where
  /-- The code that writes to it is compiled with overflow checks. -/
  overflowChecks : Bool := false
  /-- `std::io::Write::write_all` -/
  writeAll : Bytes → IoM σ Unit
  syncWireF32 : F32 → IoM σ Unit := fun n => writeAll n.toBeBytes
  syncWireU64 : U64 → IoM σ Unit := fun n => writeAll n.toBeBytes
  syncWireAll : Bool → Bytes → IoM σ Unit := fun _ bytes => writeAll bytes
  reserveCapacity : Nat → IoM σ Unit := fun _ => pure ()

/-- `a * b` for two `usize`, which wraps without overflow checks. -/
def usizeMul (checks : Bool) (a b : Nat) : Except (Stop IoError) Nat :=
  if a * b ≤ usizeMax then .ok (a * b)
  else if checks then .error .panic
  else .ok (a * b % 2 ^ 64)

/-! ## The sinks -/

/-- Append to the bytes handed over so far. -/
def emit (bytes : Bytes) : IoM Bytes Unit := fun out => (.ok (), out ++ bytes)

instance : Wire Bytes where
  writeAll := emit

/-- `Vec<u8>`, for code compiled with or without overflow checks. `grow` is the
allocator's policy: the capacity it picks when asked for a larger one, of which
only the lower bound is guaranteed. -/
structure VecWire (checks : Bool) (grow : Nat → Nat → Nat) where
  bytes : Bytes
  capacity : Nat
  len_le : bytes.length ≤ capacity
  fits : capacity ≤ isizeMax

namespace VecWire

variable {checks : Bool} {grow : Nat → Nat → Nat}

/-- `Vec::reserve` -/
def reserve (add : Nat) : IoM (VecWire checks grow) Unit := fun w =>
  if w.bytes.length + add ≤ w.capacity then (.ok (), w)
  else if h : w.bytes.length + add ≤ isizeMax then
    (.ok (), {
      bytes := w.bytes
      capacity := min isizeMax
        (max (w.bytes.length + add) (grow w.capacity (w.bytes.length + add)))
      len_le := by omega
      fits := Nat.min_le_left _ _ })
  else (.error .panic, w)

/-- Append without looking at the capacity: past it, the write is out of
bounds. -/
def pushUnchecked (bytes : Bytes) : IoM (VecWire checks grow) Unit := fun w =>
  if h : w.bytes.length + bytes.length ≤ w.capacity then
    (.ok (), { w with bytes := w.bytes ++ bytes, len_le := by simpa using h })
  else (.error .ub, w)

def extendFromSlice (bytes : Bytes) : IoM (VecWire checks grow) Unit := do
  reserve bytes.length
  pushUnchecked bytes

/-- `Vec::new` -/
def new : VecWire checks grow := ⟨[], 0, Nat.le_refl _, Nat.zero_le _⟩

instance : Wire (VecWire checks grow) where
  overflowChecks := checks
  writeAll := extendFromSlice
  syncWireF32 n := extendFromSlice n.toBeBytes
  syncWireU64 n := extendFromSlice n.toBeBytes
  syncWireAll check bytes :=
    if check then extendFromSlice bytes else pushUnchecked bytes
  reserveCapacity := reserve

end VecWire

structure Unchecked (σ : Type) where
  wire : σ

namespace Unchecked

variable {σ α : Type}

/-- A call on the wrapped wire. -/
def onWire (x : IoM σ α) : IoM (Unchecked σ) α := fun u =>
  ((x u.wire).1, ⟨(x u.wire).2⟩)

/-- Run a call on `Unchecked { wire }`. -/
def run (x : IoM (Unchecked σ) α) : IoM σ α := fun w =>
  ((x ⟨w⟩).1, (x ⟨w⟩).2.wire)

/-- `reserve_capacity` keeps its default and does nothing. -/
instance [Wire σ] : Wire (Unchecked σ) where
  overflowChecks := Wire.overflowChecks σ
  writeAll bytes := onWire (Wire.writeAll bytes)
  syncWireF32 n := onWire (Wire.syncWireF32 n)
  syncWireU64 n := onWire (Wire.syncWireU64 n)
  syncWireAll _ bytes := onWire (Wire.syncWireAll false bytes)

end Unchecked

/-! ## Lawful sinks -/

/-- What a sink has taken, and when it takes `n` more bytes. -/
class Sink (σ : Type) where
  bytes : σ → Bytes
  room : σ → Nat → Prop
  room_mono : ∀ {s m n}, m ≤ n → room s n → room s m

/-- With room for `b`, the call appends `b`, and only `b` uses up room. -/
def Emits {σ : Type} [Sink σ] (x : IoM σ Unit) (b : Bytes) : Prop :=
  ∀ s, Sink.room s b.length → ∃ s', x s = (.ok (), s')
    ∧ Sink.bytes s' = Sink.bytes s ++ b
    ∧ ∀ m, Sink.room s (b.length + m) → Sink.room s' m

class LawfulWire (σ : Type) [Wire σ] extends Sink σ where
  writeAll_emits : ∀ b, Emits (Wire.writeAll (σ := σ) b) b
  syncWireF32_emits : ∀ n, Emits (Wire.syncWireF32 (σ := σ) n) n.toBeBytes
  syncWireU64_emits : ∀ n, Emits (Wire.syncWireU64 (σ := σ) n) n.toBeBytes
  syncWireAll_emits : ∀ c b, Emits (Wire.syncWireAll (σ := σ) c b) b
  /-- Reserving room that is there changes nothing. -/
  reserve_room : ∀ (s : σ) n, Sink.room s n →
    Wire.reserveCapacity n s = (.ok (), s)
  /-- Where arithmetic is checked, room is counted in `usize`. -/
  room_le : Wire.overflowChecks σ = true → ∀ (s : σ) n, Sink.room s n → n ≤ usizeMax

section

variable {σ : Type} [Sink σ]

theorem Emits.pure : Emits (σ := σ) (pure ()) [] := fun s _ =>
  ⟨s, rfl, (List.append_nil _).symm, fun m h => by simpa using h⟩

theorem Emits.bind {x y : IoM σ Unit} {a b : Bytes} (hx : Emits x a)
    (hy : Emits y b) : Emits (x >>= fun _ => y) (a ++ b) := by
  intro s hs
  rw [List.length_append] at hs
  obtain ⟨s1, h1, hb1, hr1⟩ := hx s (Sink.room_mono (by omega) hs)
  obtain ⟨s2, h2, hb2, hr2⟩ := hy s1 (hr1 _ hs)
  refine ⟨s2, (Act.bind_ok h1).trans h2, ?_, fun m hm => hr2 m (hr1 _ ?_)⟩
  · rw [hb2, hb1, List.append_assoc]
  · rwa [List.length_append, Nat.add_assoc] at hm

theorem Emits.forM {α : Type*} {f : α → IoM σ Unit} {e : α → Bytes} {l : List α}
    (h : ∀ a ∈ l, Emits (f a) (e a)) : Emits (l.forM f) (l.flatMap e) := by
  induction l with
  | nil => exact Emits.pure
  | cons a l ih =>
      exact (h a (List.mem_cons_self ..)).bind
        (ih fun b hb => h b (List.mem_cons_of_mem _ hb))

/-- A call that emits `b` emits nothing else. -/
theorem Emits.congr {x : IoM σ Unit} {a b : Bytes} (h : Emits x a)
    (hab : a = b) : Emits x b := hab ▸ h

end

instance : LawfulWire Bytes where
  bytes out := out
  room _ _ := True
  room_mono _ _ := trivial
  writeAll_emits b s _ := ⟨s ++ b, rfl, rfl, fun _ _ => trivial⟩
  syncWireF32_emits n s _ := ⟨s ++ n.toBeBytes, rfl, rfl, fun _ _ => trivial⟩
  syncWireU64_emits n s _ := ⟨s ++ n.toBeBytes, rfl, rfl, fun _ _ => trivial⟩
  syncWireAll_emits _ b s _ := ⟨s ++ b, rfl, rfl, fun _ _ => trivial⟩
  reserve_room _ _ _ := rfl
  room_le := nofun

theorem emit_emits (b : Bytes) : Emits (emit b) b :=
  LawfulWire.writeAll_emits (σ := Bytes) b

theorem Emits.inBounds {σ : Type} [Sink σ] {x : IoM σ Unit} {b : Bytes}
    (h : Emits x b) {s : σ} (hs : Sink.room s b.length) : x.InBounds s := by
  obtain ⟨s', hx, -⟩ := h s hs
  exact .of_ok hx

/-- On the byte list, emitting is appending. -/
theorem Emits.run {x : IoM Bytes Unit} {b : Bytes} (h : Emits x b)
    (out : Bytes) : x out = (.ok (), out ++ b) := by
  obtain ⟨s', hx, hb, -⟩ := h out trivial
  have : s' = out ++ b := hb
  rw [hx, this]

namespace VecWire

variable {checks : Bool} {grow : Nat → Nat → Nat}

instance : Sink (VecWire checks grow) where
  bytes w := w.bytes
  room w n := w.bytes.length + n ≤ w.capacity
  room_mono h hn := Nat.le_trans (Nat.add_le_add_left h _) hn

theorem reserve_of_le {w : VecWire checks grow} {n : Nat}
    (h : w.bytes.length + n ≤ w.capacity) : reserve n w = (.ok (), w) := by
  rw [reserve, if_pos h]

/-- `reserve` panics, or there is room and the bytes are as they were. -/
theorem reserve_cases (n : Nat) (w : VecWire checks grow) :
    reserve n w = (.error .panic, w) ∨ ∃ w', reserve n w = (.ok (), w') ∧
      w'.bytes = w.bytes ∧ Sink.room w' n := by
  unfold reserve
  split
  · exact Or.inr ⟨w, rfl, rfl, ‹_›⟩
  · split
    · refine Or.inr ⟨_, rfl, rfl, ?_⟩
      show w.bytes.length + n ≤ min isizeMax (max _ _)
      omega
    · exact Or.inl rfl

theorem pushUnchecked_emits (b : Bytes) :
    Emits (pushUnchecked b : IoM (VecWire checks grow) Unit) b := by
  intro w hw
  have hw' : w.bytes.length + b.length ≤ w.capacity := hw
  refine ⟨{ w with bytes := w.bytes ++ b, len_le := by simpa using hw' },
    by rw [pushUnchecked, dif_pos hw'], rfl, ?_⟩
  intro m hm
  have hm' : w.bytes.length + (b.length + m) ≤ w.capacity := hm
  show (w.bytes ++ b).length + m ≤ w.capacity
  rw [List.length_append]; omega

theorem extendFromSlice_emits (b : Bytes) :
    Emits (extendFromSlice b : IoM (VecWire checks grow) Unit) b := by
  intro w hw
  obtain ⟨w', h⟩ := pushUnchecked_emits b w hw
  exact ⟨w', (Act.bind_ok (reserve_of_le hw)).trans h.1, h.2⟩

theorem reserve_inBounds (n : Nat) (w : VecWire checks grow) :
    (reserve n).InBounds w := by
  rcases reserve_cases n w with h | ⟨w1, h, -⟩
  · exact .of_panic h
  · exact .of_ok h

theorem extendFromSlice_bytes {b : Bytes} {w w' : VecWire checks grow}
    (h : extendFromSlice b w = (.ok (), w')) : w'.bytes = w.bytes ++ b := by
  rcases reserve_cases b.length w with hpanic | ⟨w1, hok, hbytes, hroom⟩
  · rw [extendFromSlice, Act.bind_error hpanic] at h
    cases h
  · obtain ⟨w2, h2, hbytes2, -⟩ := pushUnchecked_emits b w1 hroom
    rw [extendFromSlice, Act.bind_ok hok, h2] at h
    cases h
    exact hbytes2.trans (congrArg (· ++ b) hbytes)

/-- A checked write is never out of bounds. -/
theorem extendFromSlice_inBounds (b : Bytes) (w : VecWire checks grow) :
    (extendFromSlice b).InBounds w := by
  rcases reserve_cases b.length w with h | ⟨w1, h, -, hroom⟩
  · exact .of_panic (Act.bind_error h)
  · obtain ⟨w2, h2, -⟩ := pushUnchecked_emits b w1 hroom
    exact .of_ok ((Act.bind_ok h).trans h2)

instance : LawfulWire (VecWire checks grow) where
  writeAll_emits := extendFromSlice_emits
  syncWireF32_emits n := extendFromSlice_emits n.toBeBytes
  syncWireU64_emits n := extendFromSlice_emits n.toBeBytes
  syncWireAll_emits c b := by
    cases c with
    | true => exact extendFromSlice_emits b
    | false => exact pushUnchecked_emits b
  reserve_room _ _ h := reserve_of_le h
  room_le _ w n h := by
    have hroom : w.bytes.length + n ≤ w.capacity := h
    have hfits := w.fits
    rw [isizeMax] at hfits
    rw [usizeMax]
    omega

end VecWire

namespace Unchecked

variable {σ : Type}

instance [Sink σ] : Sink (Unchecked σ) where
  bytes u := Sink.bytes u.wire
  room u n := Sink.room u.wire n
  room_mono := Sink.room_mono

theorem onWire_emits [Sink σ] {x : IoM σ Unit} {b : Bytes} (h : Emits x b) :
    Emits (onWire x) b := by
  intro u hu
  obtain ⟨s', hx, hb, hr⟩ := h u.wire hu
  exact ⟨⟨s'⟩, by rw [onWire, hx], hb, hr⟩

theorem run_emits [Sink σ] {x : IoM (Unchecked σ) Unit} {b : Bytes}
    (h : Emits x b) : Emits (run x) b := by
  intro w hw
  obtain ⟨u, hx, hb, hr⟩ := h ⟨w⟩ hw
  exact ⟨u.wire, by rw [run, hx], hb, hr⟩

instance [Wire σ] [LawfulWire σ] : LawfulWire (Unchecked σ) where
  writeAll_emits b := onWire_emits (LawfulWire.writeAll_emits b)
  syncWireF32_emits n := onWire_emits (LawfulWire.syncWireF32_emits n)
  syncWireU64_emits n := onWire_emits (LawfulWire.syncWireU64_emits n)
  syncWireAll_emits _ b := onWire_emits (LawfulWire.syncWireAll_emits _ b)
  reserve_room _ _ _ := rfl
  room_le h u n hn := LawfulWire.room_le (σ := σ) h u.wire n hn

end Unchecked

end WiringRs
