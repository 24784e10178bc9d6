/-
What the chained hash tables share: nodes, calls and their results, the finite map they implement, `hashCode` and `policy`.

`lkey_t` is a signed 64-bit integer and `table_size` an unsigned int, so `key % ht->table_size` is the remainder of signed
division, which the return type then reduces modulo 2^32. On non-negative keys and tables below 2^32 it is the remainder
of natural numbers (`hashCode_eq`): it is below the table size, and it is unchanged modulo any divisor of that size
(`hashCode_mod`), which is what fixes the lock stripe of a key. Sums and products of keys are signed 64-bit values too, which
wrap around where they do not fit (`long`).
-/
import AlgorithmCollection.Conc.Buckets
import AlgorithmCollection.Conc.Calls
import AlgorithmCollection.Conc.MapObject

namespace AlgorithmCollection.Chained

open Conc

def NULL : ℕ := 0

/-- `node_t` -/
structure Node where
  key : ℤ
  value : ℤ
  next : ℕ
deriving DecidableEq, Repr

/-- the calls on a table -/
inductive Op where
  | add (key val : ℤ)
  | delete (key : ℤ)
  | find (key : ℤ)
deriving DecidableEq, Repr

def Op.key : Op → ℤ
  | .add k _ | .delete k | .find k => k

/-- their results; `delete` returns true with the value it writes to *getval, or false -/
inductive Res where
  | add (ret : Bool)
  | delete (ret : Option ℤ)
  | find (ret : Bool)
deriving DecidableEq, Repr

/-! ## The finite map -/

/-- what a call does to the map, and its result -/
def mapStep (M : ℤ → Option ℤ) : Op → (ℤ → Option ℤ) × Res
  | .add k v => mapAdd .add M k v
  | .delete k => mapDelete .delete M k
  | .find k => (M, .find (M k).isSome)

/-- the map and the results after a sequence of calls -/
abbrev mapRun (M : ℤ → Option ℤ) (ops : List Op) : (ℤ → Option ℤ) × List Res := specRun mapStep M ops

/-! ## The functions of the source -/

/-- `hashCode`, the index of the bucket of a key -/
def hashCode (key : ℤ) (tableSize : ℕ) : ℕ := (key.tmod tableSize % 2 ^ 32).toNat

/-- a signed 64-bit value -/
@[irreducible] def long (x : ℤ) : ℤ := x.bmod (2 ^ 64)

/-- `policy`: `(int) (ht->setSize / ht->table_size) > 4` -/
def policy (setSize tableSize : ℕ) : Bool := decide (((setSize / tableSize : ℕ) : ℤ).bmod (2 ^ 32) > 4)

section HashCode

variable {k : ℤ} {n d : ℕ}

/-- a value that fits is itself -/
theorem long_eq (h0 : 0 ≤ k) (h : k < 2 ^ 63) : long k = k := by
  unfold long
  apply Int.bmod_eq_of_le
  · omega
  · omega

theorem hashCode_eq (hk : 0 ≤ k) (hn : 0 < n) (hlt : n < 2 ^ 32) : hashCode k n = k.toNat % n := by
  obtain ⟨j, rfl⟩ := Int.eq_ofNat_of_zero_le hk
  have h1 : j % n < 2 ^ 32 := lt_trans (Nat.mod_lt _ hn) hlt
  have h2 : (Int.ofNat j).tmod n = ((j % n : ℕ) : ℤ) := rfl
  have h3 : ((j % n : ℕ) : ℤ) % 2 ^ 32 = ((j % n : ℕ) : ℤ) := Int.emod_eq_of_lt (by omega) (by exact_mod_cast h1)
  unfold hashCode
  change ((Int.ofNat j).tmod n % 2 ^ 32).toNat = _
  rw [h2, h3]
  rfl

theorem hashCode_lt (hk : 0 ≤ k) (hn : 0 < n) (hlt : n < 2 ^ 32) : hashCode k n < n := by
  rw [hashCode_eq hk hn hlt]; exact Nat.mod_lt _ hn

theorem hashCode_mod (hk : 0 ≤ k) (hn : 0 < n) (hlt : n < 2 ^ 32) (hd : d ∣ n) : hashCode k n % d = k.toNat % d := by
  rw [hashCode_eq hk hn hlt, Nat.mod_mod_of_dvd _ hd]

/-- in the words of the source: the index is `key % table_size` -/
theorem hashCode_emod (hk : 0 ≤ k) (hn : 0 < n) (hlt : n < 2 ^ 32) : (hashCode k n : ℤ) = k % n := by
  rw [hashCode_eq hk hn hlt]
  conv_rhs => rw [← Int.toNat_of_nonneg hk]
  exact Int.natCast_mod _ _

end HashCode

end AlgorithmCollection.Chained
