import Mathlib.Tactic.Ring
import Mathlib.Algebra.Order.Ring.Nat

/-!
# Big-endian bytes

A natural as exactly `n` bytes, most significant first, and back. The two maps
are inverse on naturals below `256 ^ n` and on byte strings of length `n`.
-/

namespace WiringRs

def toBe : Nat → Nat → List UInt8
  | 0, _ => []
  | n + 1, k => UInt8.ofNat (k / 256 ^ n) :: toBe n (k % 256 ^ n)

def ofBe : List UInt8 → Nat
  | [] => 0
  | b :: bs => b.toNat * 256 ^ bs.length + ofBe bs

@[simp] theorem length_toBe (n k : Nat) : (toBe n k).length = n := by
  induction n generalizing k with
  | zero => rfl
  | succ n ih => simp [toBe, ih]

theorem ofBe_lt (bs : List UInt8) : ofBe bs < 256 ^ bs.length := by
  induction bs with
  | nil => simp [ofBe]
  | cons b bs ih =>
      rw [ofBe, List.length_cons, Nat.pow_succ]
      have hb : b.toNat ≤ 255 := Nat.le_of_lt_succ b.toNat_lt
      calc b.toNat * 256 ^ bs.length + ofBe bs
          < b.toNat * 256 ^ bs.length + 256 ^ bs.length :=
            Nat.add_lt_add_left ih _
        _ = (b.toNat + 1) * 256 ^ bs.length := by ring
        _ ≤ 256 * 256 ^ bs.length :=
            Nat.mul_le_mul_right _ (Nat.succ_le_succ hb)
        _ = 256 ^ bs.length * 256 := Nat.mul_comm _ _

theorem ofBe_toBe {n k : Nat} (h : k < 256 ^ n) : ofBe (toBe n k) = k := by
  induction n generalizing k with
  | zero => simp at h; simp [toBe, ofBe, h]
  | succ n ih =>
      have hpos : 0 < 256 ^ n := Nat.pow_pos (by decide)
      have hdigit : k / 256 ^ n < 256 := by
        rw [Nat.div_lt_iff_lt_mul hpos, Nat.mul_comm]
        rwa [Nat.pow_succ] at h
      have hb : (UInt8.ofNat (k / 256 ^ n)).toNat = k / 256 ^ n :=
        UInt8.toNat_ofNat_of_lt hdigit
      rw [toBe, ofBe, length_toBe, ih (Nat.mod_lt _ hpos), hb, Nat.mul_comm]
      exact Nat.div_add_mod k (256 ^ n)

theorem toBe_ofBe (bs : List UInt8) : toBe bs.length (ofBe bs) = bs := by
  induction bs with
  | nil => rfl
  | cons b bs ih =>
      have hpos : 0 < 256 ^ bs.length := Nat.pow_pos (by decide)
      have hlt := ofBe_lt bs
      have hdiv : (b.toNat * 256 ^ bs.length + ofBe bs) / 256 ^ bs.length
          = b.toNat := by
        rw [Nat.mul_comm, Nat.mul_add_div hpos, Nat.div_eq_of_lt hlt]; rfl
      have hmod : (b.toNat * 256 ^ bs.length + ofBe bs) % 256 ^ bs.length
          = ofBe bs := by
        rw [Nat.mul_comm, Nat.mul_add_mod, Nat.mod_eq_of_lt hlt]
      rw [List.length_cons, toBe, ofBe, hdiv, hmod, ih, UInt8.ofNat_toNat]

end WiringRs
