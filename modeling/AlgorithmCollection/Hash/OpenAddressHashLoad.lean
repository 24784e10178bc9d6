/-
How full an `OpenAddressHash` gets, and how often it stores a key.

`never_full`: while `table_size` stays below 2^30 and no key overflows, after every call at most four fifths of the slots are
counted in `setSize`. So the loop of `add` always finds a slot, and so does every pass of the loop of `resize`. The
invariant is `Loaded`: one doubling is enough to get back under the limit, also from a table of one slot (`call_loaded`).
Where key + i overflows, the loops read and write outside the array (`probe_outside`).

The loop of `add` takes the first slot that is not occupied and compares no keys. `bag_of_keys`: every `add` returns true,
a `delete` frees one of the slots of the key, and the table stores every key at most once through a sequence of calls
iff each `add` in it is for a key that is not stored.
-/
import AlgorithmCollection.Hash.OpenAddressHashBag

namespace AlgorithmCollection.OpenAddressHash

open Conc
open Chained (Op Res)

/-! ## The load -/

/-- the loop of `add` and of `resize` finds a slot, and all slots it reads are slots of the table -/
def FindsSlot (ht : Table) (k : ℤ) : Prop :=
  ∃ i < ht.tableSize, freeSlot ht k = some (hashCode k i ht.tableSize) ∧
    (ht.bucket (hashCode k i ht.tableSize)).stat ≠ .OCC ∧ ∀ j ≤ i, hashCode k j ht.tableSize < ht.tableSize

/-- the loop of `resize` finds a slot for every occupied slot of the old table -/
def Reinserted (ht : Table) : Prop :=
  ∀ n < ht.tableSize, (ht.bucket n).stat = .OCC →
    FindsSlot ((List.range n).foldl reinsert (doubled ht)) (ht.bucket n).key

/-- `add` finds a slot, and `resize`, where `add` calls it, one for every old entry -/
structure Fits (ht : Table) (k v : ℤ) : Prop where
  slot : FindsSlot ht k
  slots : ∀ s, freeSlot ht k = some s → policy (addOp ht s k v) = true → Reinserted (addOp ht s k v)
  ret : (add ht k v).2 = true
  kept : pairs (add ht k v).1 = (k, v) ::ₘ pairs ht

/-- a table with the bag B that `policy` does not want to double -/
structure Loaded (N : ℕ) (ht : Table) (B : Multiset (ℤ × ℤ)) : Prop where
  holds : Holds N ht B
  le : ht.setSize ≤ ht.tableSize * 4 / 5

theorem belowMax_of_pre {ht : Table} {ops : List Op} (hT : ∀ pre, pre <+: ops → (run ht pre).1.tableSize < 2 ^ 30) :
    BelowMax ht ops := by
  induction ops generalizing ht with
  | nil => trivial
  | cons op ops ih =>
    have h0 : ht.tableSize < 2 ^ 30 := hT [] List.nil_prefix
    exact ⟨fun _ => by omega, ih fun pre hp => hT (op :: pre) (List.cons_prefix_cons.2 ⟨rfl, hp⟩)⟩

section Load

variable {N : ℕ} {ht : Table} {B : Multiset (ℤ × ℤ)} {k v : ℤ}

variable (h : Loaded N ht B)

include h

theorem Loaded.lt : ht.tableSize * 4 / 5 < ht.tableSize := by
  have := h.holds.pos
  omega

theorem Loaded.card_lt : B.card < ht.tableSize := by
  rw [← h.holds.count]
  exact h.le.trans_lt h.lt

omit h in
theorem Holds.findsSlot (h : Holds N ht B) (hB : B.card < ht.tableSize) (hk : IsKey N k) : FindsSlot ht k := by
  obtain ⟨i, hi, h1, h2, -⟩ := h.freeSlot hB hk
  exact ⟨i, hi, h1, h2, fun j hj => (h.probes hk).lt j (hj.trans_lt hi)⟩

omit h in
/-- every pass of the loop of `resize` finds a slot: at most n entries are in the new table after n passes -/
theorem Holds.reinserted (h : Holds N ht B) (hT : ht.tableSize < 2 ^ 31) (hN : ht.tableSize * 2 ≤ N) : Reinserted ht := by
  intro n hn ho
  have hc := copied h hT hN n hn.le
  have hcard : (Slots.contents occ (fun n => (n.key, n.value)) ht.bucket n).card ≤ n := Slots.card_contents_le
  have hsize : ((List.range n).foldl reinsert (doubled ht)).tableSize = ht.tableSize * 2 :=
    (foldl_reinsert_tableSize _ _).trans (Nat.mod_eq_of_lt (by omega))
  exact hc.findsSlot (by omega) (h.isKey n hn ho)

theorem Loaded.fits (hT : ht.tableSize < 2 ^ 31) (hk : IsKey N k) (hN : (add ht k v).1.tableSize ≤ N) : Fits ht k v := by
  obtain ⟨i, hi, h1, h2, h3⟩ := h.holds.freeSlot h.card_lt hk
  obtain ⟨ht', h4, h5, -⟩ := add_holds (v := v) h.holds h.card_lt hT hk hN
  refine ⟨h.holds.findsSlot h.card_lt hk, fun s hs hp => ?_, ?_, ?_⟩
  · rw [h1] at hs
    cases hs
    refine (h.holds.addOp hk hi h2 h3).reinserted hT ?_
    unfold add at hN
    simp only [h1, hp, if_true] at hN
    rwa [resize_tableSize, Nat.mod_eq_of_lt] at hN
    change ht.tableSize * 2 < 2 ^ 32
    omega
  · rw [h4]
  · rw [h4, h5.pairs, h.holds.pairs]

/-- **`add`** doubles the table once, and that is enough. -/
theorem add_loaded (hT : ht.tableSize < 2 ^ 30) (hk : IsKey N k) (hN : (add ht k v).1.tableSize ≤ N) :
    Loaded N (add ht k v).1 ((k, v) ::ₘ B) := by
  obtain ⟨ht1, h1, h2, h3⟩ := h.holds.add_eq (v := v) h.card_lt hk
  have hle := h.le
  have hpos := h.holds.pos
  rw [h.holds.count] at hle
  rw [h1] at hN ⊢
  by_cases hp : policy ht1 = true
  · rw [if_pos hp] at hN ⊢
    have hsize : (resize ht1).tableSize = ht.tableSize * 2 := by rw [resize_tableSize, h3, Nat.mod_eq_of_lt (by omega)]
    have hr := resize_holds h2 (by omega) (by rw [h3, ← hsize]; exact hN)
    refine ⟨hr, ?_⟩
    rw [hr.count, hsize, Multiset.card_cons]
    -- from one slot to two as well: the limit goes from 0 to 1
    rcases Nat.lt_or_ge ht.tableSize 2 with h2 | h2 <;> omega
  · rw [if_neg hp]
    refine ⟨h2, ?_⟩
    have hle1 : ht1.setSize ≤ ht1.tableSize * 4 % 2 ^ 32 / 5 := by simpa [policy] using hp
    rwa [Nat.mod_eq_of_lt (by omega)] at hle1

/-- **One call** leaves the table under the limit. -/
theorem call_loaded (hT : ht.tableSize < 2 ^ 30) {op : Op} (hk : IsKey N op.key) (hN : (call ht op).1.tableSize ≤ N) :
    ∃ B', Loaded N (call ht op).1 B' := by
  cases op with
  | add k v => exact ⟨_, add_loaded h hT hk hN⟩
  | delete k =>
    obtain ⟨ht', r, B', h1, h2, -, h4, h5⟩ := delete_holds h.holds (show IsKey N k from hk)
    refine ⟨B', ?_⟩
    change Loaded N (delete ht k).1 B'
    rw [h1]
    refine ⟨h2, ?_⟩
    have hle := h.le
    have hcard := Multiset.card_le_card h4
    rw [h.holds.count] at hle
    rw [h2.count, h5]
    exact hcard.trans hle
  | find k => exact ⟨B, h⟩

/-- **A whole run**, by induction on the calls. -/
theorem run_loaded {ops : List Op} (hk : ∀ op ∈ ops, IsKey N op.key)
    (hT : ∀ pre, pre <+: ops → (run ht pre).1.tableSize < 2 ^ 30) (hN : (run ht ops).1.tableSize ≤ N) :
    ∃ B', Loaded N (run ht ops).1 B' := by
  induction ops generalizing ht B with
  | nil => exact ⟨B, h⟩
  | cons op ops ih =>
    have hT' : ∀ pre, pre <+: ops → (run (call ht op).1 pre).1.tableSize < 2 ^ 30 := fun pre hp =>
      hT (op :: pre) (List.cons_prefix_cons.2 ⟨rfl, hp⟩)
    have hle : (call ht op).1.tableSize ≤ N := (run_tableSize_le (belowMax_of_pre hT')).trans hN
    obtain ⟨B1, h1⟩ := call_loaded h (hT [] List.nil_prefix) (hk op List.mem_cons_self) hle
    exact ih h1 (fun o ho => hk o (List.mem_cons_of_mem _ ho)) hT' hN

omit h

/-- **A whole run from `init_hashtable`.** -/
theorem init_loaded {size : ℕ} (hs : size < 32) {ops : List Op} (hk : ∀ op ∈ ops, IsKey N op.key)
    (hT : ∀ pre, pre <+: ops → (run (initHashtable size) pre).1.tableSize < 2 ^ 30)
    (hN : (run (initHashtable size) ops).1.tableSize ≤ N) : ∃ B, Loaded N (run (initHashtable size) ops).1 B := by
  have hI := init_holds hs ((run_tableSize_le (belowMax_of_pre hT)).trans hN)
  exact run_loaded ⟨hI, Nat.zero_le _⟩ hk hT hN

/-- **The table never fills up.** In every run in which `table_size` stays below 2^30 and key + `table_size` does not
overflow, `setSize` is at most four fifths of `table_size` after every call. If it does not overflow in the next `add`
either, this finds a slot, reads slots of the table only, returns true and drops no entry. -/
theorem never_full {size : ℕ} (hs : size < 32) (ops : List Op) (hk : ∀ op ∈ ops, 0 ≤ op.key)
    (hN : NoOverflow (initHashtable size) ops)
    (hT : ∀ pre, pre <+: ops → (run (initHashtable size) pre).1.tableSize < 2 ^ 30) :
    (run (initHashtable size) ops).1.setSize ≤ (run (initHashtable size) ops).1.tableSize * 4 / 5 ∧
      (run (initHashtable size) ops).1.tableSize * 4 / 5 < (run (initHashtable size) ops).1.tableSize ∧
      ∀ k v, 0 ≤ k → NoOverflow (initHashtable size) (ops ++ [.add k v]) → Fits (run (initHashtable size) ops).1 k v := by
  obtain ⟨B, h⟩ := init_loaded hs (hN.isKey hk) hT le_rfl
  have hlt : (run (initHashtable size) ops).1.tableSize < 2 ^ 30 := hT ops List.prefix_rfl
  refine ⟨h.le, h.lt, fun k v hk0 hN' => ?_⟩
  obtain ⟨hkeys, hkey, hle⟩ := hN'.snoc hk hk0 fun _ => by omega
  obtain ⟨B', h'⟩ := init_loaded hs hkeys hT hle
  exact h'.fits (by omega) hkey le_rfl

/-- from one slot, with two doublings and a key deleted in between -/
theorem never_full_small :
    (run (initHashtable 0) [.add 0 10, .delete 0, .add 4 20, .add 8 30]).1.setSize ≤
        (run (initHashtable 0) [.add 0 10, .delete 0, .add 4 20, .add 8 30]).1.tableSize * 4 / 5 ∧
      (run (initHashtable 0) [.add 0 10, .delete 0, .add 4 20, .add 8 30]).1.tableSize * 4 / 5 <
        (run (initHashtable 0) [.add 0 10, .delete 0, .add 4 20, .add 8 30]).1.tableSize ∧
      Fits (run (initHashtable 0) [.add 0 10, .delete 0, .add 4 20, .add 8 30]).1 1 40 := by
  have hall : ∀ pre ∈ List.inits [Op.add 0 10, .delete 0, .add 4 20, .add 8 30],
      (run (initHashtable 0) pre).1.tableSize < 2 ^ 30 := by decide +kernel
  obtain ⟨h1, h2, h3⟩ := never_full (show 0 < 32 by decide) [.add 0 10, .delete 0, .add 4 20, .add 8 30] (by decide)
    (by unfold NoOverflow; decide +kernel) fun pre hp => hall pre ((List.mem_inits _ _).2 hp)
  exact ⟨h1, h2, h3 1 40 (by decide) (by unfold NoOverflow; decide +kernel)⟩

/-- **A probe outside the array.** The key 2^63 - 1 is stored in the last and, after the sum has wrapped around, in the
first of eight slots. The third probe of the next `add` is at 2^32 - 7. -/
theorem probe_outside :
    (run (initHashtable 3) [.add (2 ^ 63 - 1) 10, .add (2 ^ 63 - 1) 20]).1.tableSize = 8 ∧
      freeSlot (run (initHashtable 3) [.add (2 ^ 63 - 1) 10, .add (2 ^ 63 - 1) 20]).1 (2 ^ 63 - 1) = some (2 ^ 32 - 7) ∧
      hashCode (2 ^ 63 - 1) 2 8 = 2 ^ 32 - 7 ∧
      ¬ Fits (run (initHashtable 3) [.add (2 ^ 63 - 1) 10, .add (2 ^ 63 - 1) 20]).1 (2 ^ 63 - 1) 30 := by
  have hsize : (run (initHashtable 3) [.add (2 ^ 63 - 1) 10, .add (2 ^ 63 - 1) 20]).1.tableSize = 8 := by decide +kernel
  have hfree : freeSlot (run (initHashtable 3) [.add (2 ^ 63 - 1) 10, .add (2 ^ 63 - 1) 20]).1 (2 ^ 63 - 1) =
      some (2 ^ 32 - 7) := by decide +kernel
  refine ⟨hsize, hfree, by decide +kernel, fun hf => ?_⟩
  obtain ⟨i, -, h1, -, h3⟩ := hf.slot
  have hin := h3 i le_rfl
  rw [hfree] at h1
  rw [← Option.some.inj h1, hsize] at hin
  exact absurd hin (by decide)

end Load

/-! ## Keys stored more than once -/

/-- an occupied slot holds the key -/
def Stored (ht : Table) (k : ℤ) : Prop := ∃ s < ht.tableSize, (ht.bucket s).stat = .OCC ∧ (ht.bucket s).key = k

/-- the keys in the occupied slots -/
def keys (ht : Table) : Multiset ℤ := Slots.contents occ Node.key ht.bucket ht.tableSize

/-- no two occupied slots hold the same key -/
def Once (ht : Table) : Prop :=
  ∀ s < ht.tableSize, ∀ s' < ht.tableSize, (ht.bucket s).stat = .OCC → (ht.bucket s').stat = .OCC →
    (ht.bucket s).key = (ht.bucket s').key → s = s'

/-- what a call does to a table that stores every key at most once -/
def OnceCall (ht : Table) : Op → Prop
  | .add k v => Once (add ht k v).1 ∧ ((add ht k v).2 = false ↔ Stored ht k)
  | .delete k => Once (delete ht k).1 ∧ ((delete ht k).2 ≠ none → find (delete ht k).1 k = false)
  | .find _ => Once ht

/-- every call of the sequence does that -/
def OnceCalls (ht : Table) : List Op → Prop
  | [] => True
  | op :: ops => OnceCall ht op ∧ OnceCalls (call ht op).1 ops

/-- every `add` is for a key that is not stored -/
def AddsAbsent (ht : Table) : List Op → Prop
  | [] => True
  | op :: ops => (∀ k v, op = .add k v → ¬ Stored ht k) ∧ AddsAbsent (call ht op).1 ops

section Keys

variable {N : ℕ} {ht : Table} {B : Multiset (ℤ × ℤ)} {k v : ℤ}

theorem mem_keys : k ∈ keys ht ↔ Stored ht k := by
  unfold keys Stored
  rw [Slots.mem_contents]
  simp only [occ_iff]

theorem nodup_keys : (keys ht).Nodup ↔ Once ht := by
  unfold keys Once
  rw [Slots.nodup_contents_iff]
  simp only [occ_iff]

variable (h : Holds N ht B)

include h

theorem Holds.keys : keys ht = B.map Prod.fst := by
  rw [← h.pairs]
  unfold OpenAddressHash.keys OpenAddressHash.pairs
  rw [Slots.map_contents]

omit h in
theorem notMem_map_fst : k ∉ B.map Prod.fst ↔ ∀ v, (k, v) ∉ B := by
  simp

theorem Holds.find_eq_false (hk : IsKey N k) : find ht k = false ↔ k ∉ OpenAddressHash.keys ht := by
  rw [h.keys, notMem_map_fst]
  have hstep := find_holds h hk
  generalize find ht k = r at hstep ⊢
  cases hstep with
  | found hm => simpa using ⟨_, hm⟩
  | notFound hn => simpa using hn

/-- `delete` takes one occurrence of the key away -/
theorem Holds.delete_keys (hk : IsKey N k) (hd : (delete ht k).2 = some v) :
    OpenAddressHash.keys ht = k ::ₘ OpenAddressHash.keys (delete ht k).1 := by
  obtain ⟨ht', r, B', h1, h2, h3, -⟩ := delete_holds h hk
  rw [h1] at hd ⊢
  subst hd
  rw [h.keys, h2.keys]
  cases h3 with
  | deleted hm => rw [← Multiset.map_cons Prod.fst (k, v), Multiset.cons_erase hm]

/-- **After `delete`** the key is gone iff it was stored once. -/
theorem Holds.find_delete (hk : IsKey N k) (hd : (delete ht k).2 = some v) :
    find (delete ht k).1 k = false ↔ (OpenAddressHash.keys ht).count k = 1 := by
  obtain ⟨ht', r, B', h1, h2, -⟩ := delete_holds h hk
  rw [h.delete_keys hk hd, Multiset.count_cons_self, Nat.add_eq_right, Multiset.count_eq_zero, h1]
  exact h2.find_eq_false hk

/-- **`add`** keeps every key stored once iff the key is not stored; either way it returns true. -/
theorem Holds.add_once (hB : B.card < ht.tableSize) (hT : ht.tableSize < 2 ^ 31) (hk : IsKey N k)
    (hN : (add ht k v).1.tableSize ≤ N) (ho : Once ht) : OnceCall ht (.add k v) ↔ ¬ Stored ht k := by
  obtain ⟨ht', h1, h2, -⟩ := add_holds (v := v) h hB hT hk hN
  change Once (add ht k v).1 ∧ ((add ht k v).2 = false ↔ Stored ht k) ↔ _
  rw [h1, ← nodup_keys, h2.keys, Multiset.map_cons, Multiset.nodup_cons, ← h.keys, nodup_keys, mem_keys]
  constructor
  · intro hc
    exact hc.1.1
  · intro hn
    exact ⟨⟨hn, ho⟩, by simpa using hn⟩

/-- **`delete`** keeps every key stored once. -/
theorem Holds.delete_once (hk : IsKey N k) (ho : Once ht) : OnceCall ht (.delete k) := by
  refine ⟨?_, fun hr => ?_⟩
  · obtain ⟨ht', r, B', h1, h2, -, h4, -⟩ := delete_holds h hk
    rw [h1, ← nodup_keys, h2.keys]
    rw [← nodup_keys, h.keys] at ho
    exact Multiset.nodup_of_le (Multiset.map_le_map h4) ho
  · obtain ⟨v, hv⟩ := Option.ne_none_iff_exists'.1 hr
    rw [h.find_delete hk hv]
    refine Multiset.count_eq_one_of_mem (nodup_keys.2 ho) ?_
    rw [h.delete_keys hk hv]
    exact Multiset.mem_cons_self _ _

/-- **One call.** -/
theorem onceCall_iff (hB : B.card < ht.tableSize) (ho : Once ht) {op : Op} (hk : IsKey N op.key)
    (hT : (∃ k v, op = .add k v) → ht.tableSize < 2 ^ 31) (hN : (call ht op).1.tableSize ≤ N) :
    OnceCall ht op ↔ ∀ k v, op = .add k v → ¬ Stored ht k := by
  cases op with
  | add k v =>
    rw [h.add_once hB (hT ⟨k, v, rfl⟩) (show IsKey N k from hk) hN ho]
    constructor
    · rintro hn _ _ ⟨⟩
      exact hn
    · intro hn
      exact hn k v rfl
  | delete k => exact iff_of_true (h.delete_once hk ho) nofun
  | find k => exact iff_of_true ho nofun

omit h in
theorem OnceCall.once {op : Op} (h : OnceCall ht op) : Once (call ht op).1 := by
  cases op with
  | add k v | delete k => exact h.1
  | find k => exact h

/-- **A whole run**, by induction on the calls. -/
theorem onceCalls_iff (hB : B.card < ht.tableSize) (ho : Once ht) {ops : List Op}
    (hk : ∀ op ∈ ops, IsKey N op.key) (hT : BelowMax ht ops) (hN : (run ht ops).1.tableSize ≤ N) :
    OnceCalls ht ops ↔ AddsAbsent ht ops := by
  induction ops generalizing ht B with
  | nil => exact Iff.rfl
  | cons op ops ih =>
    have hle : (call ht op).1.tableSize ≤ N := (run_tableSize_le hT.2).trans hN
    obtain ⟨B1, -, h2, h3⟩ := call_holds h hB (hk op List.mem_cons_self) hT.1 hle
    have hone := onceCall_iff h hB ho (hk op List.mem_cons_self) hT.1 hle
    unfold OnceCalls AddsAbsent
    rw [hone]
    refine and_congr_right fun hn => ?_
    exact ih h2 h3 (hone.2 hn).once (fun o ho => hk o (List.mem_cons_of_mem _ ho)) hT.2 hN

omit h

/-- **A bag of keys.** In every run in which key + `table_size` does not overflow and no `add` is called at `table_size`
2^31: the next `add` in which nothing overflows returns true, whether or not its key is stored; a `delete` that returns true
leaves the key in the table, unless it was stored once; and every key is stored at most once through the run iff each
`add` is for a key that is not stored. -/
theorem bag_of_keys {size : ℕ} (hs : size < 32) (ops : List Op) (hk : ∀ op ∈ ops, 0 ≤ op.key)
    (hN : NoOverflow (initHashtable size) ops) (hT : BelowMax (initHashtable size) ops) :
    (∀ k v, 0 ≤ k → NoOverflow (initHashtable size) (ops ++ [.add k v]) →
        (run (initHashtable size) ops).1.tableSize < 2 ^ 31 →
        (add (run (initHashtable size) ops).1 k v).2 = true ∧
        keys (add (run (initHashtable size) ops).1 k v).1 = k ::ₘ keys (run (initHashtable size) ops).1) ∧
      (∀ k v, 0 ≤ k → NoOverflow (initHashtable size) (ops ++ [.delete k]) →
        (delete (run (initHashtable size) ops).1 k).2 = some v →
        (find (delete (run (initHashtable size) ops).1 k).1 k = false ↔
          (keys (run (initHashtable size) ops).1).count k = 1)) ∧
      (OnceCalls (initHashtable size) ops ↔ AddsAbsent (initHashtable size) ops) := by
  have hI := init_holds hs (run_tableSize_le hT)
  have h0 : (0 : Multiset (ℤ × ℤ)).card < (initHashtable size).tableSize := hI.pos
  refine ⟨fun k v hk0 hN' hlt => ?_, fun k v hk0 hN' hd => ?_, onceCalls_iff hI h0 ?_ (hN.isKey hk) hT le_rfl⟩
  · obtain ⟨hkeys, hkey, hle⟩ := hN'.snoc hk hk0 fun _ => hlt
    obtain ⟨B, -, h1, hB⟩ := run_init hs hkeys hT hle
    obtain ⟨ht', h2, h3, -⟩ := add_holds (k := k) (v := v) h1 hB hlt hkey le_rfl
    rw [h2, h3.keys, Multiset.map_cons, h1.keys]
    exact ⟨rfl, rfl⟩
  · obtain ⟨hkeys, hkey, hle⟩ := hN'.snoc hk hk0 nofun
    obtain ⟨B, -, h1, -⟩ := run_init hs hkeys hT hle
    exact h1.find_delete hkey hd
  · rw [← nodup_keys, hI.keys]
    exact Multiset.nodup_zero

/-- the three parts for a sequence of two keys -/
theorem bag_of_two_keys :
    ((add (run (initHashtable 2) [.add 1 10, .add 5 20]).1 1 30).2 = true ∧
        keys (add (run (initHashtable 2) [.add 1 10, .add 5 20]).1 1 30).1 =
          1 ::ₘ keys (run (initHashtable 2) [.add 1 10, .add 5 20]).1) ∧
      (find (delete (run (initHashtable 2) [.add 1 10, .add 5 20]).1 1).1 1 = false ↔
          (keys (run (initHashtable 2) [.add 1 10, .add 5 20]).1).count 1 = 1) ∧
      (OnceCalls (initHashtable 2) [.add 1 10, .add 5 20] ↔ AddsAbsent (initHashtable 2) [.add 1 10, .add 5 20]) := by
  obtain ⟨h1, h2, h3⟩ := bag_of_keys (show 2 < 32 by decide) [.add 1 10, .add 5 20] (by decide)
    (by unfold NoOverflow; decide +kernel) ⟨fun _ => by decide +kernel, fun _ => by decide +kernel, trivial⟩
  exact ⟨h1 1 30 (by decide) (by unfold NoOverflow; decide +kernel) (by decide +kernel),
    h2 1 10 (by decide) (by unfold NoOverflow; decide +kernel) (by decide +kernel), h3⟩

/-- **A key stored twice.** Both `add`s return true, and after the `delete` the key is still found. -/
theorem key_stored_twice :
    (run (initHashtable 2) [.add 1 10, .add 1 20, .delete 1, .find 1]).2 =
        [.add true, .add true, .delete (some 10), .find true] ∧
      ¬ Once (run (initHashtable 2) [.add 1 10, .add 1 20]).1 ∧
      ¬ OnceCalls (initHashtable 2) [.add 1 10, .add 1 20] := by
  have hstored : Stored (run (initHashtable 2) [.add 1 10]).1 1 := ⟨1, by decide +kernel⟩
  have hret : (add (run (initHashtable 2) [.add 1 10]).1 1 20).2 = true := by decide +kernel
  refine ⟨by decide +kernel, fun ho => ?_, fun hc => ?_⟩
  · have := ho 1 (by decide +kernel) 2 (by decide +kernel) (by decide +kernel) (by decide +kernel) (by decide +kernel)
    omega
  · have := hc.2.1.2.2 hstored
    rw [show (add (call (initHashtable 2) (.add 1 10)).1 1 20).2 = true from hret] at this
    cases this

end Keys

end AlgorithmCollection.OpenAddressHash
