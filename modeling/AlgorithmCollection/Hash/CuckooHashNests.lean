/-
What `add` of `CuckooHash` does when the slot of its key is taken.

Both calls of `swap_node` work on table 1, so a key has one slot only, table[1][hashCode1(key)]. `one_nest`: `add` of an
absent key returns true at the present `table_size` iff that slot is free; the slot in table 0 is always free and never
taken (`free_nest_unused`).

271 is odd and `table_size` a power of two, so two keys share a slot iff they agree modulo `table_size`. `addTry_free` and
`addTry_taken` follow the ten doublings. `rejected_unchanged_iff`: a call of `add` that is rejected leaves the table as it
was iff the key is stored or no stored key agrees with it modulo the last size that is tried. Otherwise the table has
grown for nothing, and after a few such calls `table_size` wraps around (`rejected_grows`).
-/
import AlgorithmCollection.Hash.CuckooHashMap

namespace AlgorithmCollection.CuckooHash

open Chained (Op Res)
open OpenAddressHash (Stat Node)

variable {j : ℕ}

/-! ## The sizes of the table -/

section Sizes

variable {ht ht' : Table} {M : ℤ → Option ℤ} {k k' v : ℤ}

theorem resize_tableSize (h : resize ht = .ok ht') : ht'.tableSize = ht.tableSize * 2 := by
  unfold resize at h
  split_ifs at h
  cases h
  exact (foldl_reinsert_kept _ _).1

/-- the tries of `add` double the table a number of times -/
theorem addTry_tableSize {node : Node} {n : ℕ} {r : Bool} (h : addTry ht node n = .ok (ht', r)) :
    ∃ m, ht'.tableSize = ht.tableSize * 2 ^ m := by
  have hkept := (swapRounds_kept ht node ht.tableSize).1
  induction n generalizing ht node with
  | zero =>
    unfold addTry at h
    cases h
    exact ⟨0, by rw [hkept, pow_zero, mul_one]⟩
  | succ n ih =>
    unfold addTry at h
    generalize swapRounds ht node ht.tableSize = x at h hkept
    obtain ⟨ht1, node1, _ | _⟩ := x
    · simp only at h hkept
      cases hr : resize ht1 with
      | error e =>
        rw [hr] at h
        cases h
      | ok ht2 =>
        rw [hr] at h
        obtain ⟨m, hm⟩ := ih h (swapRounds_kept ..).1
        refine ⟨m + 1, ?_⟩
        rw [hm, resize_tableSize hr, hkept, pow_succ]
        ring
    · cases h
      exact ⟨0, by rw [hkept, pow_zero, mul_one]⟩

theorem add_tableSize {r : Bool} (h : add ht k v = .ok (ht', r)) : ∃ m, ht'.tableSize = ht.tableSize * 2 ^ m := by
  unfold add at h
  split_ifs at h
  · cases h
    exact ⟨0, by rw [pow_zero, mul_one]⟩
  · exact addTry_tableSize h

theorem delete_tableSize (ht : Table) (k : ℤ) : (delete ht k).1.tableSize = ht.tableSize := by
  have hdel : ∀ p, (delOp ht p).tableSize = ht.tableSize := fun p => by unfold delOp; rfl
  unfold delete
  split
  · rfl
  · exact hdel _

theorem call_tableSize {op : Op} {r : Res} (h : call ht op = .ok (ht', r)) : ∃ m, ht'.tableSize = ht.tableSize * 2 ^ m := by
  cases op with
  | add k v =>
    change Except.map _ (add ht k v) = _ at h
    cases ha : add ht k v with
    | error e =>
      rw [ha] at h
      cases h
    | ok x =>
      rw [ha] at h
      cases h
      exact add_tableSize ha
  | delete k =>
    cases h
    exact ⟨0, by rw [delete_tableSize, pow_zero, mul_one]⟩
  | find k =>
    cases h
    exact ⟨0, by rw [pow_zero, mul_one]⟩

theorem run_tableSize {ops : List Op} {rs : List Res} (h : run ht ops = .ok (ht', rs)) :
    ∃ m, ht'.tableSize = ht.tableSize * 2 ^ m := by
  refine Conc.runCalls_inv (I := fun t => ∃ m, t.tableSize = ht.tableSize * 2 ^ m) (K := fun _ => True)
    (fun s op s' r hs _ hc => ?_) ⟨0, by rw [pow_zero, mul_one]⟩ (fun _ _ => trivial) h
  obtain ⟨m1, h1⟩ := hs
  obtain ⟨m2, h2⟩ := call_tableSize hc
  exact ⟨m1 + m2, by rw [h2, h1, pow_add, mul_assoc]⟩

/-- a table that a sequence of calls on non-negative keys with key * 271 not overflowing ends with -/
def Reached (ht : Table) : Prop :=
  ∃ size ops rs, (∀ op ∈ ops, IsKey (Op.key op)) ∧ run (initHashtable size) ops = .ok (ht, rs)

/-- such a table holds a map, and its size is a power of two -/
theorem Reached.holds (h : Reached ht) : ∃ M, Holds ht M ∧ ∃ j < 32, ht.tableSize = 2 ^ j := by
  obtain ⟨size, ops, rs, hk, hr⟩ := h
  rcases run_holds (init_holds size) hk with he | ⟨ht1, rs1, M, h1, -, h3⟩
  · rw [hr] at he
    cases he
  · rw [hr] at h1
    cases h1
    obtain ⟨m, hm⟩ := run_tableSize hr
    have hpow : ht.tableSize = 2 ^ ((if CH_DEFAULT_MAX_SIZE ≤ size then CH_DEFAULT_MAX_SIZE else size) + m) := by
      rw [hm, pow_add]
      rfl
    exact ⟨M, h3, _, (Nat.pow_lt_pow_iff_right Nat.one_lt_two).1 (hpow ▸ h3.lt), hpow⟩

end Sizes

/-! ## One nest -/

section Nests

variable {ht : Table} {M : ℤ → Option ℤ} {k v : ℤ}

/-- the slot of the key in table 0, or its slot in table 1, is not occupied -/
def NestFree (ht : Table) (k : ℤ) : Prop :=
  (ht.table 0 (hashCode0 k ht.tableSize)).stat ≠ .OCC ∨ (ht.table 1 (hashCode1 k ht.tableSize)).stat ≠ .OCC

/-- `add` returns true at the present size -/
def Takes (ht : Table) (k v : ℤ) : Prop := ∃ ht', add ht k v = .ok (ht', true) ∧ ht'.tableSize = ht.tableSize

theorem add_of_absent (h : Holds ht M) (hk : IsKey k) (hM : M k = none) : add ht k v = addTry ht ⟨k, v, .OCC⟩ 10 := by
  unfold add
  rw [findOp_eq h hk, hM]
  rfl

theorem takes_iff (h : Holds ht M) (hk : IsKey k) (hM : M k = none) :
    Takes ht k v ↔ (ht.table 1 (hashCode1 k ht.tableSize)).stat ≠ .OCC := by
  unfold Takes
  rw [add_of_absent h hk hM]
  constructor
  · rintro ⟨ht', hadd, hsize⟩ hocc
    -- the slot is taken: the table is doubled before the next try
    unfold addTry at hadd
    rw [swapRounds_taken h hk hocc] at hadd
    simp only at hadd
    cases hr : resize ht with
    | error e =>
      rw [hr] at hadd
      cases hadd
    | ok ht2 =>
      rw [hr] at hadd
      obtain ⟨m, hm⟩ := addTry_tableSize hadd
      have hpos := h.pos
      have hpow : 0 < 2 ^ m := Nat.two_pow_pos m
      rw [resize_tableSize hr, hsize] at hm
      nlinarith
  · intro hfree
    unfold addTry
    rw [swapRounds_free h.pos hfree]
    exact ⟨_, rfl, rfl⟩

/-- **One nest.** `add` of an absent key uses a free slot of the key, and keeps `table_size`, iff the free slot is the one
in table 1. -/
theorem one_nest (ht : Table) (hr : Reached ht) (k v : ℤ) (hk : IsKey k) (hn : find ht k = false) :
    (NestFree ht k → Takes ht k v) ↔ (ht.table 1 (hashCode1 k ht.tableSize)).stat ≠ .OCC := by
  obtain ⟨M, h, -⟩ := hr.holds
  have hM : M k = none := by
    rw [find, findOp_eq h hk] at hn
    simpa using hn
  rw [takes_iff h hk hM]
  exact ⟨fun hi => hi (.inl (h.unused _ (hashCode0_lt hk h.pos h.lt))), fun hf _ => hf⟩

/-- the table of two slots after one `add` -/
theorem one_nest_small :
    ∃ ht, Reached ht ∧ ((NestFree ht 1 → Takes ht 1 20) ↔ (ht.table 1 (hashCode1 1 ht.tableSize)).stat ≠ .OCC) := by
  have hrun : (match run (initHashtable 1) [.add 0 10] with
      | .ok x => decide (find x.1 1 = false)
      | .error _ => false) = true := by decide +kernel
  cases hr : run (initHashtable 1) [.add 0 10] with
  | error e =>
    rw [hr] at hrun
    cases hrun
  | ok x =>
    obtain ⟨ht, rs⟩ := x
    rw [hr] at hrun
    have hreach : Reached ht := ⟨1, [.add 0 10], rs, by decide, hr⟩
    exact ⟨ht, hreach, one_nest ht hreach 1 20 (by decide) (of_decide_eq_true hrun)⟩

/-- **A free nest that is not used.** Keys 0 and 2 share slot 0 of table 1. Slot 0 of table 0, the other slot of key 2, is
free, but `add(2)` doubles the table. -/
theorem free_nest_unused :
    ∃ ht rs, run (initHashtable 1) [.add 0 10] = .ok (ht, rs) ∧ find ht 2 = false ∧ NestFree ht 2 ∧ ¬ Takes ht 2 20 := by
  have hrun : (match run (initHashtable 1) [.add 0 10] with
      | .ok x => decide (find x.1 2 = false ∧ (x.1.table 0 (hashCode0 2 x.1.tableSize)).stat ≠ .OCC ∧
          (x.1.table 1 (hashCode1 2 x.1.tableSize)).stat = .OCC)
      | .error _ => false) = true := by decide +kernel
  cases hr : run (initHashtable 1) [.add 0 10] with
  | error e =>
    rw [hr] at hrun
    cases hrun
  | ok x =>
    obtain ⟨ht, rs⟩ := x
    rw [hr] at hrun
    obtain ⟨h1, h2, h3⟩ := of_decide_eq_true hrun
    obtain ⟨M, h, -⟩ := Reached.holds ⟨1, [.add 0 10], rs, by decide, hr⟩
    have hM : M 2 = none := by
      rw [find, findOp_eq h (by decide)] at h1
      simpa using h1
    exact ⟨ht, rs, rfl, h1, .inl h2, fun ht2 => (takes_iff h (by decide) hM).1 ht2 h3⟩

end Nests

/-! ## Rejected calls -/

section Rejected

variable {ht : Table} {M : ℤ → Option ℤ} {k k' v w : ℤ}

/-- **Keys share a slot** iff they agree modulo the size. -/
theorem hashCode1_eq_iff (hk : IsKey k) (hk' : IsKey k') (hj : j < 32) :
    hashCode1 k' (2 ^ j) = hashCode1 k (2 ^ j) ↔ k' ≡ k [ZMOD 2 ^ j] := by
  have hlt : 2 ^ j < 2 ^ 32 := Nat.pow_lt_pow_right Nat.one_lt_two hj
  have hc : IsCoprime ((2 : ℤ) ^ j) 271 := IsCoprime.pow_left (by norm_num)
  rw [← Int.natCast_inj, hashCode1_eq hk, hashCode1_eq hk', Chained.hashCode_emod hk.mul_nonneg (Nat.two_pow_pos j) hlt,
    Chained.hashCode_emod hk'.mul_nonneg (Nat.two_pow_pos j) hlt, Nat.cast_pow, Nat.cast_ofNat]
  change k' * 271 ≡ k * 271 [ZMOD 2 ^ j] ↔ _
  rw [Int.modEq_iff_dvd, Int.modEq_iff_dvd, ← sub_mul]
  exact ⟨hc.dvd_of_dvd_mul_right, fun hd => hd.mul_right 271⟩

variable (h : Holds ht M)

include h

/-- the slot of k is taken iff a stored key agrees with k modulo the size -/
theorem Holds.taken_iff (hj : j < 32) (hsize : ht.tableSize = 2 ^ j) (hk : IsKey k) :
    (ht.table 1 (hashCode1 k ht.tableSize)).stat = .OCC ↔ ∃ k' w, M k' = some w ∧ k' ≡ k [ZMOD 2 ^ j] := by
  constructor
  · intro hocc
    have hi := hashCode1_lt hk h.pos h.lt
    obtain ⟨h1, h2⟩ := h.placed _ hi hocc
    refine ⟨_, _, (h.rep _ _).2 ⟨_, hi, Node.eq_of_occ hocc⟩, ?_⟩
    rw [hsize] at h2
    rw [hsize] at h1 ⊢
    exact (hashCode1_eq_iff hk h1 hj).1 h2
  · rintro ⟨k', w, hM, hmod⟩
    obtain ⟨hk', e⟩ := h.slot.1 hM
    rw [hsize] at e ⊢
    rw [← (hashCode1_eq_iff hk hk' hj).2 hmod, e]

omit h in
/-- agreeing modulo a power of two, and modulo a smaller one -/
theorem modEq_of_le {i : ℕ} (hij : i ≤ j) (h : k' ≡ k [ZMOD 2 ^ j]) : k' ≡ k [ZMOD 2 ^ i] :=
  h.of_dvd (pow_dvd_pow 2 hij)

theorem resize_double (hj : j + 1 < 32) (hsize : ht.tableSize = 2 ^ j) :
    ∃ ht', resize ht = .ok ht' ∧ Holds ht' M ∧ ht'.tableSize = 2 ^ (j + 1) := by
  have hlt : 2 ^ (j + 1) < 2 ^ 32 := Nat.pow_lt_pow_right Nat.one_lt_two hj
  obtain ⟨ht', h1, h2⟩ := resize_holds h (by rw [hsize, ← pow_succ]; exact hlt)
  exact ⟨ht', h1, h2, by rw [resize_tableSize h1, hsize, pow_succ]⟩

theorem addTry_of_free (hfree : (ht.table 1 (hashCode1 k ht.tableSize)).stat ≠ .OCC) (n : ℕ) :
    ∃ ht', addTry ht ⟨k, v, .OCC⟩ n = .ok (ht', true) := by
  cases n with
  | zero | succ n =>
    unfold addTry
    rw [swapRounds_free h.pos hfree]
    exact ⟨_, rfl⟩

theorem addTry_of_taken (hk : IsKey k) (hocc : (ht.table 1 (hashCode1 k ht.tableSize)).stat = .OCC) (n : ℕ) :
    addTry ht ⟨k, v, .OCC⟩ 0 = .ok (ht, false) ∧
      addTry ht ⟨k, v, .OCC⟩ (n + 1) = (resize ht).bind fun ht2 => addTry ht2 ⟨k, v, .OCC⟩ n := by
  constructor
  · unfold addTry
    rw [swapRounds_taken h hk hocc]
  · conv_lhs => unfold addTry
    rw [swapRounds_taken h hk hocc]
    simp only
    cases resize ht <;> rfl

/-- **The key finds a slot** at one of the sizes that are tried: the last is 2^(j + n), or 2^31 if that is less. -/
theorem addTry_free (hj : j < 32) (hsize : ht.tableSize = 2 ^ j) (hk : IsKey k) (n : ℕ)
    (hn : ∀ k' w, M k' = some w → ¬ k' ≡ k [ZMOD 2 ^ min (j + n) 31]) :
    ∃ ht', addTry ht ⟨k, v, .OCC⟩ n = .ok (ht', true) := by
  induction n generalizing ht j with
  | zero =>
    refine addTry_of_free h (fun hocc => ?_) 0
    obtain ⟨k', w, hM, hmod⟩ := (h.taken_iff hj hsize hk).1 hocc
    exact hn k' w hM (modEq_of_le (min_le_left ..) hmod)
  | succ n ih =>
    by_cases hocc : (ht.table 1 (hashCode1 k ht.tableSize)).stat = .OCC
    · obtain ⟨k', w, hM, hmod⟩ := (h.taken_iff hj hsize hk).1 hocc
      have hj' : j + 1 < 32 := by
        by_contra hge
        exact hn k' w hM (modEq_of_le (by omega) hmod)
      obtain ⟨ht2, h1, h2, h3⟩ := resize_double h hj' hsize
      rw [(addTry_of_taken h hk hocc n).2, h1]
      refine ih h2 hj' h3 fun k' w hM => ?_
      rw [show j + 1 + n = j + (n + 1) by omega]
      exact hn k' w hM
    · exact addTry_of_free h hocc (n + 1)

/-- **The key finds no slot**: the table is doubled n times and the map kept, or `table_size` wraps around. -/
theorem addTry_taken (hj : j < 32) (hsize : ht.tableSize = 2 ^ j) (hk : IsKey k) (n : ℕ)
    (hM : M k' = some w) (hmod : k' ≡ k [ZMOD 2 ^ min (j + n) 31]) :
    (j + n < 32 → ∃ ht', addTry ht ⟨k, v, .OCC⟩ n = .ok (ht', false) ∧ Holds ht' M ∧ ht'.tableSize = 2 ^ (j + n)) ∧
      (32 ≤ j + n → addTry ht ⟨k, v, .OCC⟩ n = .error .wrap) := by
  have hocc : (ht.table 1 (hashCode1 k ht.tableSize)).stat = .OCC :=
    (h.taken_iff hj hsize hk).2 ⟨k', w, hM, modEq_of_le (by omega) hmod⟩
  induction n generalizing ht j with
  | zero =>
    refine ⟨fun _ => ⟨ht, (addTry_of_taken h hk hocc 0).1, h, hsize⟩, fun hge => ?_⟩
    omega
  | succ n ih =>
    rw [(addTry_of_taken h hk hocc n).2]
    by_cases hj' : j + 1 < 32
    · obtain ⟨ht2, h1, h2, h3⟩ := resize_double h hj' hsize
      rw [h1, show j + (n + 1) = j + 1 + n by omega]
      rw [show j + (n + 1) = j + 1 + n by omega] at hmod
      exact ih h2 hj' h3 hmod ((h2.taken_iff hj' h3 hk).2 ⟨k', w, hM, modEq_of_le (by omega) hmod⟩)
    · have hw : resize ht = .error .wrap := by
        refine if_neg ?_
        rw [hsize, ← pow_succ, show j + 1 = 32 by omega]
        exact lt_irrefl _
      rw [hw]
      exact ⟨fun hlt => by omega, fun _ => rfl⟩

omit h

/-- `table_size`, `setSize` and the slots are those of ht -/
structure Unchanged (ht ht' : Table) : Prop where
  tableSize : ht'.tableSize = ht.tableSize
  setSize : ht'.setSize = ht.setSize
  table : ∀ no < 2, ∀ i < ht.tableSize, ht'.table no i = ht.table no i

/-- `add` ends without a wrap of `table_size`, and changes nothing if it returns false -/
def Harmless (ht : Table) (k v : ℤ) : Prop := ∃ ht' r, add ht k v = .ok (ht', r) ∧ (r = false → Unchanged ht ht')

/-- **A rejected `add` changes nothing** iff the key is stored, or no stored key agrees with it modulo the last
size that is tried. -/
theorem rejected_unchanged_iff (ht : Table) (hr : Reached ht) (k v : ℤ) (hk : IsKey k) :
    Harmless ht k v ↔ find ht k = true ∨
      ∀ k' w, Stored ht k' w → ¬ k' ≡ k [ZMOD (min (ht.tableSize * 2 ^ 10) (2 ^ 31) : ℕ)] := by
  obtain ⟨M, h, j, hj, hsize⟩ := hr.holds
  have hmin : ((min (ht.tableSize * 2 ^ 10) (2 ^ 31) : ℕ) : ℤ) = 2 ^ min (j + 10) 31 := by
    have hmono : Monotone fun i : ℕ => 2 ^ i := fun _ _ hle => Nat.pow_le_pow_right Nat.two_pos hle
    rw [hsize, ← pow_add, ← hmono.map_min, Nat.cast_pow, Nat.cast_ofNat]
  simp only [hmin, h.stored]
  unfold Harmless find
  rw [findOp_eq h hk]
  cases hM : M k with
  | some w =>
    refine iff_of_true ⟨ht, false, ?_, fun _ => ⟨rfl, rfl, fun _ _ _ _ => rfl⟩⟩ (.inl rfl)
    unfold add
    rw [findOp_eq h hk, hM]
    rfl
  | none =>
    rw [add_of_absent h hk hM]
    constructor
    · rintro ⟨ht', r, hadd, hun⟩
      refine .inr fun k' w hM' hmod => ?_
      obtain ⟨h1, h2⟩ := addTry_taken (v := v) h hj hsize hk 10 hM' hmod
      by_cases hlt : j + 10 < 32
      · obtain ⟨ht1, h3, -, h4⟩ := h1 hlt
        rw [h3] at hadd
        cases hadd
        -- the table has been doubled ten times
        have hsame := (hun rfl).tableSize
        rw [h4, hsize] at hsame
        have := Nat.pow_right_injective le_rfl hsame
        omega
      · rw [h2 (by omega)] at hadd
        cases hadd
    · rintro (hs | hn)
      · cases hs
      · obtain ⟨ht', h1⟩ := addTry_free (v := v) h hj hsize hk 10 hn
        exact ⟨ht', true, h1, nofun⟩

/-- the table of one slot that holds key 0, and key 1 -/
theorem rejected_unchanged_small :
    ∃ ht, Reached ht ∧ (Harmless ht 1 20 ↔ find ht 1 = true ∨
      ∀ k' w, Stored ht k' w → ¬ k' ≡ 1 [ZMOD (min (ht.tableSize * 2 ^ 10) (2 ^ 31) : ℕ)]) := by
  have hok : (run (initHashtable 0) [.add 0 10]).isOk = true := by decide +kernel
  cases hr : run (initHashtable 0) [.add 0 10] with
  | error e =>
    rw [hr] at hok
    cases hok
  | ok x =>
    have hreach : Reached x.1 := ⟨0, [.add 0 10], x.2, by decide, hr⟩
    exact ⟨x.1, hreach, rejected_unchanged_iff x.1 hreach 1 20 (by decide)⟩

theorem add_taken (h : Holds ht M) (hj : j < 32) (hsize : ht.tableSize = 2 ^ j) (hk : IsKey k) (hn : M k = none)
    (hM : M k' = some w) (hmod : k' ≡ k [ZMOD 2 ^ min (j + 10) 31]) :
    (j + 10 < 32 → ∃ ht', add ht k v = .ok (ht', false) ∧ Holds ht' M ∧ ht'.tableSize = 2 ^ (j + 10)) ∧
      (32 ≤ j + 10 → add ht k v = .error .wrap) := by
  rw [add_of_absent h hk hn]
  exact addTry_taken h hj hsize hk 10 hM hmod

/-- **Rejected calls that change the table.** A table of one slot holds key 0. `add(1024)` returns false and leaves a table
of 1024 slots. Three calls of `add(2^31)` return false and leave 2^30 slots, and in the fourth `table_size` wraps
around to 0. -/
theorem rejected_grows :
    ∃ ht rs, run (initHashtable 0) [.add 0 10] = .ok (ht, rs) ∧ ht.tableSize = 1 ∧
      (∃ ht', add ht 1024 20 = .ok (ht', false) ∧ ht'.tableSize = 1024) ∧ ¬ Harmless ht 1024 20 ∧
      (∃ ht', run ht (List.replicate 3 (.add (2 ^ 31) 20)) = .ok (ht', List.replicate 3 (.add false)) ∧
        ht'.tableSize = 2 ^ 30) ∧
      run ht (List.replicate 4 (.add (2 ^ 31) 20)) = .error .wrap := by
  have hrun : (match run (initHashtable 0) [.add 0 10] with
      | .ok x => decide (find x.1 0 = true ∧ find x.1 1024 = false ∧ find x.1 (2 ^ 31) = false ∧ x.1.tableSize = 1)
      | .error _ => false) = true := by decide +kernel
  cases hr : run (initHashtable 0) [.add 0 10] with
  | error e =>
    rw [hr] at hrun
    cases hrun
  | ok x =>
    obtain ⟨ht, rs⟩ := x
    rw [hr] at hrun
    obtain ⟨h1, h2, h3, h4⟩ := of_decide_eq_true hrun
    obtain ⟨M, h, -⟩ := Reached.holds ⟨0, [.add 0 10], rs, by decide, hr⟩
    unfold find at h1 h2 h3
    rw [findOp_eq h (by decide)] at h1 h2 h3
    obtain ⟨w, hM⟩ := Option.isSome_iff_exists.1 h1
    replace h2 : M 1024 = none := by simpa using h2
    replace h3 : M (2 ^ 31) = none := by simpa using h3
    obtain ⟨ta, a1, a2, a3⟩ := (add_taken (v := 20) h (j := 0) (by decide) h4 (by decide) h2 hM (by decide)).1 (by decide)
    obtain ⟨t1, b1, b2, b3⟩ := (add_taken (v := 20) h (j := 0) (by decide) h4 (by decide) h3 hM (by decide)).1 (by decide)
    obtain ⟨t2, c1, c2, c3⟩ := (add_taken (v := 20) b2 (by decide) b3 (by decide) h3 hM (by decide)).1 (by decide)
    obtain ⟨t3, d1, d2, d3⟩ := (add_taken (v := 20) c2 (by decide) c3 (by decide) h3 hM (by decide)).1 (by decide)
    have e1 := (add_taken (v := 20) d2 (by decide) d3 (by decide) h3 hM (by decide)).2 (by decide)
    have hcall : ∀ {t t' : Table}, add t (2 ^ 31) 20 = .ok (t', false) →
        call t (.add (2 ^ 31) 20) = .ok (t', .add false) := fun {t t'} hadd => by
      change Except.map _ (add t (2 ^ 31) 20) = _
      rw [hadd]
      rfl
    refine ⟨ht, rs, rfl, h4, ⟨ta, a1, a3⟩, ?_, ⟨t3, ?_, d3⟩, ?_⟩
    · rintro ⟨ht', r, hadd, hun⟩
      rw [a1] at hadd
      cases hadd
      have hsame := (hun rfl).tableSize
      rw [a3, show ht.tableSize = 1 from h4] at hsame
      exact absurd hsame (by decide)
    · simp only [List.replicate, run, Conc.runCalls, hcall b1, hcall c1, hcall d1]
      rfl
    · have hlast : call t3 (.add (2 ^ 31) 20) = .error .wrap := by
        change Except.map _ (add t3 (2 ^ 31) 20) = _
        rw [e1]
        rfl
      simp only [List.replicate, run, Conc.runCalls, hcall b1, hcall c1, hcall d1, hlast]
      rfl

end Rejected

end AlgorithmCollection.CuckooHash
