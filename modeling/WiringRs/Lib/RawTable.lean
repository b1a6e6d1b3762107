import Mathlib.Algebra.Order.Ring.Nat
import Mathlib.Data.Nat.Log

/-!
# The allocation of an open-addressing table

The table behind the hash maps of Rust: one control byte for each bucket and a
group of 16 control bytes after the last, in one allocation with the buckets,
which are a power of two and stay at most seven eighths full. Such a table is
refused long before its elements alone are too large for an allocation.
-/

namespace WiringRs

/-- The buckets of a table with room for `n` elements. -/
def tableBuckets (n : Nat) : Nat :=
  if n < 4 then 4
  else if n < 8 then 8
  else 2 ^ (Nat.log2 (n * 8 / 7 - 1) + 1)

/-- The buckets of `size` bytes each, filled up to the alignment of a group,
then the control bytes. -/
def tableBytes (size buckets : Nat) : Nat :=
  (size * buckets + 15) / 16 * 16 + (buckets + 16)

/-- Allocating a table with room for `n` elements of `size` bytes does not
panic, where a `usize` has `bits` bits. An alignment beyond that of a group
refuses nothing more: the size of a type is a multiple of its alignment. -/
def TableFits (bits size n : Nat) : Prop :=
  n = 0 ∨ n * 8 < 2 ^ bits ∧
    tableBytes size (tableBuckets n) + 15 ≤ 2 ^ (bits - 1) - 1

instance {bits size n : Nat} : Decidable (TableFits bits size n) :=
  inferInstanceAs (Decidable (_ ∨ _ ∧ _))

theorem tableBuckets_of_eight_le {n : Nat} (h : 8 ≤ n) :
    tableBuckets n = 2 ^ (Nat.log2 (n * 8 / 7 - 1) + 1) := by
  rw [tableBuckets, if_neg (by omega), if_neg (by omega)]

theorem tableBuckets_mono {m n : Nat} (h : m ≤ n) : tableBuckets m ≤ tableBuckets n := by
  by_cases hn : 8 ≤ n
  · rw [tableBuckets_of_eight_le hn]
    by_cases hm : 8 ≤ m
    · rw [tableBuckets_of_eight_le hm]
      refine Nat.pow_le_pow_right (by decide) (Nat.succ_le_succ ?_)
      rw [Nat.log2_eq_log_two, Nat.log2_eq_log_two]
      exact Nat.log_mono_right (by omega)
    · have hlog : 3 ≤ Nat.log2 (n * 8 / 7 - 1) := (Nat.le_log2 (by omega)).mpr (by omega)
      have hsmall : tableBuckets m ≤ 2 ^ 3 := by
        unfold tableBuckets
        split_ifs <;> omega
      exact Nat.le_trans hsmall (Nat.pow_le_pow_right (by decide) (by omega))
  · unfold tableBuckets
    split_ifs <;> omega

theorem tableBytes_mono {size m n : Nat} (h : m ≤ n) :
    tableBytes size m ≤ tableBytes size n := by
  have hmul : size * m ≤ size * n := Nat.mul_le_mul_left size h
  unfold tableBytes
  omega

namespace TableFits

variable {bits size m n : Nat}

theorem mono (h : m ≤ n) (hn : TableFits bits size n) : TableFits bits size m := by
  obtain rfl | ⟨hcount, hbytes⟩ := hn
  · exact .inl (Nat.le_zero.mp h)
  · have hbuckets : tableBytes size (tableBuckets m) ≤ tableBytes size (tableBuckets n) :=
      tableBytes_mono (tableBuckets_mono h)
    exact .inr ⟨by omega, by omega⟩

theorem count_le (h : TableFits bits size n) : n ≤ 2 ^ bits - 1 := by
  obtain rfl | ⟨hcount, _⟩ := h
  · exact Nat.zero_le _
  · omega

end TableFits

end WiringRs
