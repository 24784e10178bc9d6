/-
The indices that the tables compute from a key, over all of `lkey_t`.

On the LP64 build `lkey_t` is a signed 64-bit integer and `table_size` an unsigned int. The sum `key + i` and the products
`key * 269` and `key * 271` are signed 64-bit values (`long`). `table_size` is promoted to the signed type, so `%` gives the
remainder of signed division, which is not positive for a negative value; the return type reduces it modulo 2^32.
`Chained.hashCode` is `hashCode` of `Hash.c` and of `StripedHash.c`.

- `hashCode_lt_iff`: the index is inside the table for a value that is not negative, for a multiple of `table_size`, and
  where `table_size` is so large (above 2^31) that the wrapped remainder falls into it again.
- `indices_inside_iff`: the same for the four hash functions.
-/
import AlgorithmCollection.Hash.CuckooHash

namespace AlgorithmCollection.HashCodes

open Chained (long)

/-- the value is not negative, or a multiple of `table_size`, or its wrapped remainder is below `table_size` again -/
def Inside (x : ℤ) (tableSize : ℕ) : Prop :=
  0 ≤ x ∨ (tableSize : ℤ) ∣ x ∨ 2 ^ 32 - (tableSize : ℤ) < -x % tableSize

instance Inside.decidable (x : ℤ) (tableSize : ℕ) : Decidable (Inside x tableSize) := by
  unfold Inside; infer_instance

section Range

variable {x : ℤ} {n : ℕ}

/-- a negative value has the remainder of its negation, negated -/
theorem tmod_of_neg (hx : x < 0) : x.tmod n = -(-x % n) := by
  rw [← Int.tmod_eq_emod_of_nonneg (by omega), Int.neg_tmod, neg_neg]

/-- the unsigned int of a negative remainder -/
theorem hashCode_of_neg (hx : x < 0) (hn : 1 ≤ n) (hlt : n < 2 ^ 32) (hr : 0 < -x % n) :
    (Chained.hashCode x n : ℤ) = 2 ^ 32 - -x % n := by
  have hrn : -x % n < n := Int.emod_lt_of_pos _ (by omega)
  unfold Chained.hashCode
  rw [tmod_of_neg hx]
  generalize -x % (n : ℤ) = r at *
  omega

/-- **When the index is inside the table.** -/
theorem hashCode_lt_iff (hn : 1 ≤ n) (hlt : n < 2 ^ 32) : Chained.hashCode x n < n ↔ Inside x n := by
  unfold Inside
  rcases lt_or_ge x 0 with hx | hx
  · have h0 : 0 ≤ -x % (n : ℤ) := Int.emod_nonneg _ (by omega)
    rcases h0.eq_or_lt with hr | hr
    · -- a multiple
      have hd : (n : ℤ) ∣ x := (Int.dvd_neg).1 (Int.dvd_of_emod_eq_zero hr.symm)
      refine iff_of_true ?_ (.inr (.inl hd))
      have hz : Chained.hashCode x n = 0 := by
        unfold Chained.hashCode
        rw [tmod_of_neg hx, ← hr]
        rfl
      omega
    · have hnd : ¬ (n : ℤ) ∣ x := fun hd => by
        rw [Int.emod_eq_zero_of_dvd ((Int.dvd_neg).2 hd)] at hr
        exact lt_irrefl _ hr
      have hc := hashCode_of_neg hx hn hlt hr
      have hnx : ¬ 0 ≤ x := not_le.2 hx
      simp only [hnx, hnd, false_or]
      omega
  · exact iff_of_true (Chained.hashCode_lt hx hn hlt) (.inl hx)

end Range

/-- **When the hash functions index inside the table.** For every key, negative ones and the largest ones included, every
`table_size` and every probe offset, each of the four indices is below `table_size` exactly if the 64-bit value it is
computed from is `Inside`. -/
theorem indices_inside_iff (key : ℤ) (i n : ℕ) (hn : 1 ≤ n) (hlt : n < 2 ^ 32) :
    (Chained.hashCode key n < n ↔ Inside key n) ∧ (OpenAddressHash.hashCode key i n < n ↔ Inside (long (key + i)) n) ∧
      (CuckooHash.hashCode0 key n < n ↔ Inside (long (key * 269)) n) ∧
      (CuckooHash.hashCode1 key n < n ↔ Inside (long (key * 271)) n) :=
  ⟨hashCode_lt_iff hn hlt, hashCode_lt_iff hn hlt, hashCode_lt_iff hn hlt, hashCode_lt_iff hn hlt⟩

/-- a negative key that is a multiple of `table_size`, and the largest key, whose products wrap around -/
theorem indices_inside_ends :
    (Chained.hashCode (-8) 4 < 4 ↔ Inside (-8) 4) ∧ Inside (-8) 4 ∧
      (CuckooHash.hashCode0 (2 ^ 63 - 1) 4 < 4 ↔ Inside (long ((2 ^ 63 - 1) * 269)) 4) ∧
      Inside (long ((2 ^ 63 - 1) * 269)) 4 := by
  exact ⟨(indices_inside_iff (-8) 0 4 (by decide) (by decide)).1, by decide,
    (indices_inside_iff (2 ^ 63 - 1) 0 4 (by decide) (by decide)).2.2.1, by decide +kernel⟩

/-- **Negative keys are outside.** With four buckets, key -1 has the index 2^32 - 1 in the chained tables and in the first
probe of the open table, and indices outside the two tables of the cuckoo table. -/
theorem negative_key_outside :
    Chained.hashCode (-1) 4 = 2 ^ 32 - 1 ∧ OpenAddressHash.hashCode (-1) 0 4 = 2 ^ 32 - 1 ∧
      CuckooHash.hashCode0 (-1) 4 = 2 ^ 32 - 1 ∧ CuckooHash.hashCode1 (-1) 4 = 2 ^ 32 - 3 ∧
      ¬ Chained.hashCode (-1) 4 < 4 ∧ ¬ OpenAddressHash.hashCode (-1) 0 4 < 4 ∧ ¬ CuckooHash.hashCode0 (-1) 4 < 4 ∧
      ¬ CuckooHash.hashCode1 (-1) 4 < 4 := by
  decide +kernel

end AlgorithmCollection.HashCodes
