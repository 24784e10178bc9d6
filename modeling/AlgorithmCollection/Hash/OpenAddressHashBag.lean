/-
`OpenAddressHash` is a bag of pairs, as long as neither `table_size` nor key + `table_size` wraps around.

`Holds N ht B`: every occupied slot is behind used slots on its key's probe sequence, the occupied slots hold the bag B, and
`setSize` is its size. N bounds `table_size`, and no key overflows when it is added to a number up to N (`IsKey`).
`add_holds`, `delete_holds` and `find_holds` say what the calls do to it; `resize_holds` follows the loop of `resize` over
the old slots. `calls_bag`: whole runs in which no key overflows and no `add` is called at `table_size` 2^31.

At `table_size` 2^31 an `add` loses the table (`adds_lost`): there `table_size * 4` is 0, so `policy` asks for a resize,
and `table_size * 2` is 0, so `resize` copies nothing.
-/
import AlgorithmCollection.Hash.OpenAddressHash

namespace AlgorithmCollection.OpenAddressHash

open Conc
open Chained (Op Res)

/-! ## Hash codes -/

section HashCode

variable {N n i : ℕ} {k : ℤ}

/-- k + i does not overflow for the offsets i of tables of up to N slots -/
def IsKey (N : ℕ) (k : ℤ) : Prop := 0 ≤ k ∧ k + N ≤ 2 ^ 63

theorem hashCode_eq (hk : IsKey N k) (hn : n ≤ N) (hlt : n < 2 ^ 32) (hi : i < n) :
    hashCode k i n = (k.toNat + i) % n := by
  obtain ⟨h0, hmax⟩ := hk
  have hfit : Chained.long (k + i) = k + i := Chained.long_eq (by omega) (by omega)
  unfold hashCode
  rw [hfit, Chained.hashCode_eq (by omega) (by omega) hlt, show (k + (i : ℤ)).toNat = k.toNat + i by omega]

/-- the probe sequence of a key visits every slot once -/
theorem probes_hashCode (hk : IsKey N k) (hle : n ≤ N) (hn : 0 < n) (hlt : n < 2 ^ 32) :
    Slots.Probes n fun i => hashCode k i n := by
  apply (Slots.probes_linear k.toNat hn).congr
  intro i hi
  exact hashCode_eq hk hle hlt hi

end HashCode

/-! ## The table and its bag -/

structure Holds (N : ℕ) (ht : Table) (B : Multiset (ℤ × ℤ)) : Prop where
  pos : 0 < ht.tableSize
  lt : ht.tableSize < 2 ^ 32
  le : ht.tableSize ≤ N
  isKey : ∀ s < ht.tableSize, (ht.bucket s).stat = .OCC → IsKey N (ht.bucket s).key
  probed : Slots.Probed (fun k i => hashCode k i ht.tableSize) ht.tableSize emp occ Node.key ht.bucket
  pairs : pairs ht = B
  count : ht.setSize = B.card

section Calls

variable {N : ℕ} {ht : Table} {B : Multiset (ℤ × ℤ)} {k v : ℤ}

variable (h : Holds N ht B)

include h

theorem Holds.probes (hk : IsKey N k) : Slots.Probes ht.tableSize fun i => hashCode k i ht.tableSize :=
  probes_hashCode hk h.le h.pos h.lt

theorem Holds.card_le : B.card ≤ ht.tableSize := by
  rw [← h.pairs]; exact Slots.card_contents_le

/-- the loop of `add` finds a slot behind occupied ones -/
theorem Holds.freeSlot (hB : B.card < ht.tableSize) (hk : IsKey N k) :
    ∃ i < ht.tableSize, freeSlot ht k = some (hashCode k i ht.tableSize) ∧
      (ht.bucket (hashCode k i ht.tableSize)).stat ≠ .OCC ∧
      ∀ j < i, (ht.bucket (hashCode k j ht.tableSize)).stat = .OCC := by
  rw [← h.pairs] at hB
  obtain ⟨s, hs, hfree⟩ := Slots.exists_free hB
  obtain ⟨i0, hi0, e⟩ := (h.probes hk).surj hs
  obtain ⟨i, hfind⟩ : ∃ i, (List.range ht.tableSize).find?
      (fun i => (ht.bucket (hashCode k i ht.tableSize)).stat ≠ .OCC) = some i := by
    rw [← Option.isSome_iff_exists, List.find?_isSome]
    exact ⟨i0, List.mem_range.2 hi0, by rw [e]; simpa using occ_eq_false.1 hfree⟩
  obtain ⟨h1, h2, h3⟩ := List.find?_range_eq_some.1 hfind
  refine ⟨i, List.mem_range.1 h2, ?_, by simpa using h1, fun j hj => by simpa using h3 j hj⟩
  unfold OpenAddressHash.freeSlot
  rw [hfind]
  rfl

omit h in
theorem addOp_bucket (ht : Table) (s : ℕ) (k v : ℤ) : (addOp ht s k v).bucket = Function.update ht.bucket s ⟨k, v, .OCC⟩ := rfl

/-- **`add_op`** on that slot. -/
theorem Holds.addOp (hk : IsKey N k) {i : ℕ} (hi : i < ht.tableSize)
    (hfree : (ht.bucket (hashCode k i ht.tableSize)).stat ≠ .OCC)
    (hocc : ∀ j < i, (ht.bucket (hashCode k j ht.tableSize)).stat = .OCC) :
    Holds N (addOp ht (hashCode k i ht.tableSize) k v) ((k, v) ::ₘ B) := by
  have hused : ∀ j < i, emp (ht.bucket (hashCode k j ht.tableSize)) = false := fun j hj => by
    unfold emp
    rw [hocc j hj]
    rfl
  have hprobed := h.probed.put (x := ⟨k, v, .OCC⟩) (h.probes hk) hi hused rfl
  have hs := (h.probes hk).lt i hi
  simp only at hprobed hs
  generalize hashCode k i ht.tableSize = s at *
  refine ⟨h.pos, h.lt, h.le, fun s' hs' ho => ?_, hprobed, ?_, ?_⟩
  · rw [addOp_bucket] at ho ⊢
    by_cases e : s' = s
    · rw [e, Function.update_self]
      exact hk
    · rw [Function.update_of_ne e] at ho ⊢
      exact h.isKey s' hs' ho
  · rw [← h.pairs]
    exact Slots.contents_put (g := fun n : Node => (n.key, n.value)) hs (occ_eq_false.2 hfree) rfl
  · have hle := h.card_le
    have hlt := h.lt
    change (ht.setSize + 1) % 2 ^ 64 = _
    rw [h.count, Multiset.card_cons, Nat.mod_eq_of_lt (by omega)]

omit h

/-! ### `resize` -/

theorem reinsert_tableSize (ht : Table) (i : ℕ) : (reinsert ht i).tableSize = ht.tableSize := by
  unfold reinsert
  split_ifs
  · split <;> rfl
  · rfl

theorem reinsert_oldBucket (ht : Table) (i : ℕ) : (reinsert ht i).oldBucket = ht.oldBucket := by
  unfold reinsert
  split_ifs
  · split <;> rfl
  · rfl

theorem foldl_reinsert_tableSize (l : List ℕ) (ht : Table) : (l.foldl reinsert ht).tableSize = ht.tableSize := by
  induction l generalizing ht with
  | nil => rfl
  | cons i l ih => rw [List.foldl_cons, ih, reinsert_tableSize]

theorem foldl_reinsert_oldBucket (l : List ℕ) (ht : Table) : (l.foldl reinsert ht).oldBucket = ht.oldBucket := by
  induction l generalizing ht with
  | nil => rfl
  | cons i l ih => rw [List.foldl_cons, ih, reinsert_oldBucket]

theorem resize_tableSize (ht : Table) : (resize ht).tableSize = ht.tableSize * 2 % 2 ^ 32 :=
  foldl_reinsert_tableSize _ _

/-! ### The size of the table -/

theorem add_tableSize (ht : Table) (k v : ℤ) :
    (add ht k v).1.tableSize = ht.tableSize ∨ (add ht k v).1.tableSize = ht.tableSize * 2 % 2 ^ 32 := by
  unfold add
  cases freeSlot ht k with
  | none =>
    simp only
    split_ifs
    · exact .inr (resize_tableSize ht)
    · exact .inl rfl
  | some s =>
    simp only
    split_ifs
    · exact .inr (resize_tableSize (OpenAddressHash.addOp ht s k v))
    · exact .inl rfl

theorem delOp_tableSize (s : ℕ) : (delOp ht s).tableSize = ht.tableSize := by unfold delOp; rfl

theorem delete_tableSize (ht : Table) (k : ℤ) : (delete ht k).1.tableSize = ht.tableSize := by
  unfold delete
  cases OpenAddressHash.probe ht k with
  | none => rfl
  | some s =>
    simp only
    split_ifs
    · rfl
    · exact delOp_tableSize s

/-- the table does not get smaller, unless its size wraps around -/
theorem call_tableSize_le {op : Op} (hT : (∃ k v, op = .add k v) → ht.tableSize < 2 ^ 31) :
    ht.tableSize ≤ (call ht op).1.tableSize := by
  cases op with
  | add k v =>
    have hlt := hT ⟨k, v, rfl⟩
    change ht.tableSize ≤ (add ht k v).1.tableSize
    rcases add_tableSize ht k v with e | e <;> omega
  | delete k => exact (delete_tableSize ht k).symm.le
  | find k => exact le_rfl

/-! ### What `resize` keeps -/

include h

/-- the first n old slots have been copied -/
theorem copied (hT : ht.tableSize < 2 ^ 31) (hN : ht.tableSize * 2 ≤ N) (n : ℕ) (hn : n ≤ ht.tableSize) :
    Holds N ((List.range n).foldl reinsert (doubled ht))
      (Slots.contents occ (fun n => (n.key, n.value)) ht.bucket n) := by
  have hsize : ht.tableSize * 2 % 2 ^ 32 = ht.tableSize * 2 := Nat.mod_eq_of_lt (by omega)
  induction n with
  | zero =>
    refine ⟨?_, ?_, ?_, nofun, nofun, ?_, rfl⟩
    · change 0 < ht.tableSize * 2 % 2 ^ 32
      have := h.pos
      omega
    · change ht.tableSize * 2 % 2 ^ 32 < 2 ^ 32
      omega
    · exact hsize.le.trans hN
    · exact Slots.contents_of_none fun _ _ => rfl
  | succ n ih =>
    specialize ih (by omega)
    have hold : ((List.range n).foldl reinsert (doubled ht)).oldBucket = ht.bucket := foldl_reinsert_oldBucket _ _
    have htab : ((List.range n).foldl reinsert (doubled ht)).tableSize = ht.tableSize * 2 :=
      (foldl_reinsert_tableSize _ _).trans hsize
    rw [List.range_succ, List.foldl_append, List.foldl_cons, List.foldl_nil, Slots.contents_succ]
    generalize (List.range n).foldl reinsert (doubled ht) = ht' at *
    unfold reinsert
    rw [hold]
    by_cases ho : (ht.bucket n).stat = .OCC
    · rw [if_pos ho, if_pos (occ_iff.2 ho)]
      have hk := h.isKey n (by omega) ho
      have hcard : (Slots.contents occ (fun n => (n.key, n.value)) ht.bucket n).card ≤ n := Slots.card_contents_le
      obtain ⟨i, hi, h1, h2, h3⟩ := ih.freeSlot (by omega) hk
      rw [h1]
      exact ih.addOp hk hi h2 h3
    · rw [if_neg ho, if_neg fun e => ho (occ_iff.1 e)]
      exact ih

/-- **`resize`** keeps the bag, in twice as many slots. -/
theorem resize_holds (hT : ht.tableSize < 2 ^ 31) (hN : ht.tableSize * 2 ≤ N) : Holds N (resize ht) B := by
  have hc := copied h hT hN ht.tableSize le_rfl
  rwa [show Slots.contents occ (fun n => (n.key, n.value)) ht.bucket ht.tableSize = B from h.pairs] at hc

/-! ### `add`, `delete` and `find` -/

/-- `add` writes the pair to a free slot, and then the table may be full -/
theorem Holds.add_eq (hB : B.card < ht.tableSize) (hk : IsKey N k) :
    ∃ ht1, add ht k v = (if policy ht1 then resize ht1 else ht1, true) ∧ Holds N ht1 ((k, v) ::ₘ B) ∧
      ht1.tableSize = ht.tableSize := by
  obtain ⟨i, hi, h1, h2, h3⟩ := h.freeSlot hB hk
  refine ⟨OpenAddressHash.addOp ht (hashCode k i ht.tableSize) k v, ?_, h.addOp hk hi h2 h3, rfl⟩
  unfold add
  rw [h1]

/-- **`add`** puts the pair in, and leaves a free slot. -/
theorem add_holds (hB : B.card < ht.tableSize) (hT : ht.tableSize < 2 ^ 31) (hk : IsKey N k)
    (hN : (add ht k v).1.tableSize ≤ N) :
    ∃ ht', add ht k v = (ht', true) ∧ Holds N ht' ((k, v) ::ₘ B) ∧ ((k, v) ::ₘ B).card < ht'.tableSize := by
  obtain ⟨ht1, h1, h2, h3⟩ := h.add_eq (v := v) hB hk
  rw [← h3] at hB hT
  rw [h1] at hN ⊢
  by_cases hp : policy ht1 = true
  · rw [if_pos hp] at hN ⊢
    have hsize : (resize ht1).tableSize = ht1.tableSize * 2 := by rw [resize_tableSize, Nat.mod_eq_of_lt (by omega)]
    refine ⟨_, rfl, resize_holds h2 hT (hsize.symm.le.trans hN), ?_⟩
    rw [hsize, Multiset.card_cons]
    omega
  · rw [if_neg hp]
    refine ⟨_, rfl, h2, ?_⟩
    -- a slot is free while at most four fifths of them are occupied
    have hle : ht1.setSize ≤ ht1.tableSize * 4 % 2 ^ 32 / 5 := by simpa [policy] using hp
    have hpos := h2.pos
    have hmod : ht1.tableSize * 4 % 2 ^ 32 ≤ ht1.tableSize * 4 := Nat.mod_le _ _
    rw [← h2.count]
    omega

/-- the loop of `delete` and `find` stops at the key iff it is stored -/
theorem Holds.probe (hk : IsKey N k) :
    (∃ s < ht.tableSize, probe ht k = some s ∧ (ht.bucket s).stat = .OCC ∧ (ht.bucket s).key = k) ∨
      ((∀ v, (k, v) ∉ B) ∧ (probe ht k = none ∨ ∃ s, probe ht k = some s ∧ (ht.bucket s).stat = .EMP)) := by
  have htest : (fun i => decide ((ht.bucket (hashCode k i ht.tableSize)).stat = .EMP ∨
      (ht.bucket (hashCode k i ht.tableSize)).stat ≠ .DEL ∧ (ht.bucket (hashCode k i ht.tableSize)).key = k)) =
      fun i => emp (ht.bucket (hashCode k i ht.tableSize)) ||
        (occ (ht.bucket (hashCode k i ht.tableSize)) && (ht.bucket (hashCode k i ht.tableSize)).key == k) := by
    funext i
    cases hs : (ht.bucket (hashCode k i ht.tableSize)).stat <;> simp [emp, occ, hs, beq_eq_decide]
  unfold OpenAddressHash.probe
  simp only [htest]
  by_cases hv : ∀ v, (k, v) ∉ B
  · refine .inr ⟨hv, ?_⟩
    cases hf : (List.range ht.tableSize).find? _ with
    | none => exact .inl rfl
    | some i =>
      refine .inr ⟨_, rfl, ?_⟩
      obtain ⟨h1, h2, -⟩ := List.find?_range_eq_some.1 hf
      by_contra he
      have hemp : emp (ht.bucket (hashCode k i ht.tableSize)) = false := by simpa [emp] using he
      rw [hemp] at h1
      simp only [Bool.false_or, Bool.and_eq_true, beq_iff_eq] at h1
      refine hv (ht.bucket (hashCode k i ht.tableSize)).value ?_
      rw [← h.pairs]
      exact Slots.mem_contents.2 ⟨_, (h.probes hk).lt i (List.mem_range.1 h2), h1.1, by rw [h1.2]⟩
  · push Not at hv
    obtain ⟨v, hv⟩ := hv
    rw [← h.pairs] at hv
    obtain ⟨s, hs, ho, e⟩ := Slots.mem_contents.1 hv
    obtain ⟨i, hi, h1, h2, h3⟩ := h.probed.search (h.probes hk)
      (fun y hy => by simp [emp, occ_iff.1 hy]) hs ho (congrArg Prod.fst e)
    refine .inl ⟨_, (h.probes hk).lt i hi, ?_, occ_iff.1 h2, h3⟩
    rw [h1]
    rfl

/-- **`find`** is exact. -/
theorem find_holds (hk : IsKey N k) : BagStep B (.find k) (.find (find ht k)) B := by
  unfold find
  rcases h.probe hk with ⟨s, hs, h1, h2, h3⟩ | ⟨hv, h1 | ⟨s, h1, h2⟩⟩
  · have hmem : (k, (ht.bucket s).value) ∈ B := by
      rw [← h.pairs]; exact Slots.mem_contents.2 ⟨s, hs, occ_iff.2 h2, by rw [h3]⟩
    simp only [h1, h2, reduceCtorEq, if_false]
    exact .found hmem
  · rw [h1]; exact .notFound hv
  · simp only [h1, h2, if_true]
    exact .notFound hv

/-- `del_op` on an occupied slot -/
theorem Holds.delOp {s : ℕ} (hs : s < ht.tableSize) (ho : (ht.bucket s).stat = .OCC) :
    ((ht.bucket s).key, (ht.bucket s).value) ∈ B ∧
      Holds N (delOp ht s) (B.erase ((ht.bucket s).key, (ht.bucket s).value)) := by
  have hpairs : B = ((ht.bucket s).key, (ht.bucket s).value) ::ₘ OpenAddressHash.pairs (OpenAddressHash.delOp ht s) := by
    rw [← h.pairs]
    unfold OpenAddressHash.pairs
    rw [delOp_tableSize]
    exact Slots.contents_take (g := fun n : Node => (n.key, n.value)) (x := ⟨0, 0, .DEL⟩) hs (occ_iff.2 ho) rfl
  have hmem : ((ht.bucket s).key, (ht.bucket s).value) ∈ B := by rw [hpairs]; exact Multiset.mem_cons_self _ _
  refine ⟨hmem, ?_, ?_, ?_, fun s' hs' ho' => ?_, ?_, ?_, ?_⟩
  · rw [delOp_tableSize]; exact h.pos
  · rw [delOp_tableSize]; exact h.lt
  · rw [delOp_tableSize]; exact h.le
  · rw [delOp_tableSize] at hs'
    by_cases e : s' = s
    · rw [e, show (OpenAddressHash.delOp ht s).bucket s = ⟨0, 0, .DEL⟩ from Function.update_self ..] at ho'
      cases ho'
    · rw [show (OpenAddressHash.delOp ht s).bucket s' = ht.bucket s' from Function.update_of_ne e ..] at ho' ⊢
      exact h.isKey s' hs' ho'
  · rw [delOp_tableSize]
    exact h.probed.clear (x := ⟨0, 0, .DEL⟩) rfl rfl
  · conv_rhs => rw [hpairs, Multiset.erase_cons_head]
  · have hpos : 0 < B.card := Multiset.card_pos_iff_exists_mem.2 ⟨_, hmem⟩
    have hle := h.card_le
    have hlt := h.lt
    change (ht.setSize + 2 ^ 64 - 1) % 2 ^ 64 = _
    rw [h.count, Multiset.card_erase_of_mem hmem, Nat.pred_eq_sub_one,
      show B.card + 2 ^ 64 - 1 = (B.card - 1) + 2 ^ 64 by omega, Nat.add_mod_right, Nat.mod_eq_of_lt (by omega)]

/-- **`delete`** frees one slot of the key, and returns its value. -/
theorem delete_holds (hk : IsKey N k) :
    ∃ ht' r B', delete ht k = (ht', r) ∧ Holds N ht' B' ∧ BagStep B (.delete k) (.delete r) B' ∧ B' ≤ B ∧
      ht'.tableSize = ht.tableSize := by
  unfold delete
  rcases h.probe hk with ⟨s, hs, h1, h2, h3⟩ | ⟨hv, h1 | ⟨s, h1, h2⟩⟩
  · obtain ⟨hmem, hdel⟩ := h.delOp hs h2
    rw [h3] at hmem hdel
    rw [h1]
    refine ⟨OpenAddressHash.delOp ht s, some (ht.bucket s).value, _, ?_, hdel, .deleted hmem, Multiset.erase_le _ _,
      delOp_tableSize s⟩
    exact if_neg fun e => by rw [h2] at e; cases e
  · rw [h1]; exact ⟨ht, none, B, rfl, h, .notDeleted hv, le_rfl, rfl⟩
  · rw [h1]; exact ⟨ht, none, B, if_pos h2, h, .notDeleted hv, le_rfl, rfl⟩

end Calls

/-! ## Sequences of calls -/

section Runs

variable {N : ℕ} {ht : Table} {B : Multiset (ℤ × ℤ)}

theorem init_tableSize {size : ℕ} (hs : size < 32) : (initHashtable size).tableSize = 2 ^ size :=
  Nat.mod_eq_of_lt (Nat.pow_lt_pow_right Nat.one_lt_two hs)

/-- `init_hashtable` gives an empty bag. -/
theorem init_holds {size : ℕ} (hs : size < 32) (hN : (initHashtable size).tableSize ≤ N) : Holds N (initHashtable size) 0 := by
  have hsize := init_tableSize hs
  refine ⟨?_, ?_, hN, nofun, nofun, ?_, rfl⟩
  · rw [hsize]; exact Nat.two_pow_pos size
  · rw [hsize]; exact Nat.pow_lt_pow_right Nat.one_lt_two hs
  · exact Slots.contents_of_none fun _ _ => rfl

/-- no `add` is called when `table_size` is 2^31 or more -/
def BelowMax (ht : Table) : List Op → Prop
  | [] => True
  | op :: ops => ((∃ k v, op = .add k v) → ht.tableSize < 2 ^ 31) ∧ BelowMax (call ht op).1 ops

/-- key + `table_size` does not overflow, for the keys of the calls and the size that the table has after them, which is the
largest one -/
def NoOverflow (ht : Table) (ops : List Op) : Prop := ∀ op ∈ ops, op.key + (run ht ops).1.tableSize ≤ 2 ^ 63

theorem run_tableSize_le {ops : List Op} (hT : BelowMax ht ops) : ht.tableSize ≤ (run ht ops).1.tableSize := by
  induction ops generalizing ht with
  | nil => exact le_rfl
  | cons op ops ih => exact (call_tableSize_le hT.1).trans (ih hT.2)

theorem NoOverflow.isKey {ops : List Op} (h : NoOverflow ht ops) (hk : ∀ op ∈ ops, 0 ≤ op.key) (op : Op) (ho : op ∈ ops) :
    IsKey (run ht ops).1.tableSize op.key := ⟨hk op ho, h op ho⟩

theorem run_snoc (ht : Table) (ops : List Op) (op : Op) : (run ht (ops ++ [op])).1 = (call (run ht ops).1 op).1 := by
  induction ops generalizing ht with
  | nil => rfl
  | cons o ops ih => exact ih (call ht o).1

/-- nothing overflows in one more call: then neither do the keys so far, in the table after it -/
theorem NoOverflow.snoc {ops : List Op} {op : Op} (h : NoOverflow ht (ops ++ [op])) (hk : ∀ o ∈ ops, 0 ≤ o.key)
    (hk0 : 0 ≤ op.key) (hT : (∃ k v, op = .add k v) → (run ht ops).1.tableSize < 2 ^ 31) :
    (∀ o ∈ ops, IsKey (call (run ht ops).1 op).1.tableSize o.key) ∧ IsKey (call (run ht ops).1 op).1.tableSize op.key ∧
      (run ht ops).1.tableSize ≤ (call (run ht ops).1 op).1.tableSize := by
  unfold NoOverflow at h
  rw [run_snoc] at h
  refine ⟨fun o ho => ⟨hk o ho, h o (List.mem_append_left _ ho)⟩, ⟨hk0, h op (by simp)⟩, call_tableSize_le hT⟩

variable (h : Holds N ht B)

include h

/-- **One call** is a step of the bag, and leaves a free slot. -/
theorem call_holds (hB : B.card < ht.tableSize) {op : Op} (hk : IsKey N op.key)
    (hT : (∃ k v, op = .add k v) → ht.tableSize < 2 ^ 31) (hN : (call ht op).1.tableSize ≤ N) :
    ∃ B', BagStep B op (call ht op).2 B' ∧ Holds N (call ht op).1 B' ∧ B'.card < (call ht op).1.tableSize := by
  cases op with
  | add k v =>
    obtain ⟨ht', h1, h2, h3⟩ := add_holds (v := v) h hB (hT ⟨k, v, rfl⟩) (show IsKey N k from hk) hN
    refine ⟨(k, v) ::ₘ B, ?_⟩
    change BagStep B _ (.add (add ht k v).2) _ ∧ Holds N (add ht k v).1 _ ∧ _ < (add ht k v).1.tableSize
    rw [h1]
    exact ⟨.add, h2, h3⟩
  | delete k =>
    obtain ⟨ht', r, B', h1, h2, h3, h4, h5⟩ := delete_holds h (show IsKey N k from hk)
    refine ⟨B', ?_⟩
    change BagStep B _ (.delete (delete ht k).2) _ ∧ Holds N (delete ht k).1 _ ∧ _ < (delete ht k).1.tableSize
    rw [h1]
    exact ⟨h3, h2, by rw [h5]; exact lt_of_le_of_lt (Multiset.card_le_card h4) hB⟩
  | find k => exact ⟨B, find_holds h hk, h, hB⟩

/-- **A whole run** is a run of the bag, by induction on the calls. -/
theorem run_holds (hB : B.card < ht.tableSize) {ops : List Op} (hk : ∀ op ∈ ops, IsKey N op.key)
    (hT : BelowMax ht ops) (hN : (run ht ops).1.tableSize ≤ N) :
    ∃ B', BagRun B ops (run ht ops).2 B' ∧ Holds N (run ht ops).1 B' ∧ B'.card < (run ht ops).1.tableSize := by
  induction ops generalizing ht B with
  | nil => exact ⟨B, .nil, h, hB⟩
  | cons op ops ih =>
    have hle : (call ht op).1.tableSize ≤ N := (run_tableSize_le hT.2).trans hN
    obtain ⟨B1, h1, h2, h3⟩ := call_holds h hB (hk op List.mem_cons_self) hT.1 hle
    obtain ⟨B2, h4, h5⟩ := ih h2 h3 (fun o ho => hk o (List.mem_cons_of_mem _ ho)) hT.2 hN
    exact ⟨B2, .cons h1 h4, h5⟩

theorem Holds.reachable : Reachable ht := by
  intro s hs ho i hi e j hj
  have := h.probed s hs (occ_iff.2 ho) i hi e j hj
  simpa [emp] using this

theorem Holds.counted : Counted ht := by
  unfold Counted
  rw [h.count, ← h.pairs]
  exact Slots.card_contents

omit h

/-- **A whole run from `init_hashtable`.** -/
theorem run_init {size : ℕ} (hs : size < 32) {ops : List Op} (hk : ∀ op ∈ ops, IsKey N op.key)
    (hT : BelowMax (initHashtable size) ops) (hN : (run (initHashtable size) ops).1.tableSize ≤ N) :
    ∃ B, BagRun 0 ops (run (initHashtable size) ops).2 B ∧ Holds N (run (initHashtable size) ops).1 B ∧
      B.card < (run (initHashtable size) ops).1.tableSize := by
  have h0 : (0 : Multiset (ℤ × ℤ)).card < (initHashtable size).tableSize := by
    rw [init_tableSize hs]; exact Nat.two_pow_pos size
  exact run_holds (init_holds hs ((run_tableSize_le hT).trans hN)) h0 hk hT hN

/-- **Lookups are exact.** In every run in which key + `table_size` does not overflow and no `add` is called at
`table_size` 2^31: the calls are those of a bag of
pairs, which is the bag of the occupied slots; every occupied slot is preceded on its key's probe sequence only by slots
that are not empty; and `setSize` is the number of occupied slots. -/
theorem calls_bag {size : ℕ} (hs : size < 32) (ops : List Op) (hk : ∀ op ∈ ops, 0 ≤ op.key)
    (hN : NoOverflow (initHashtable size) ops) (hT : BelowMax (initHashtable size) ops) :
    BagRun 0 ops (run (initHashtable size) ops).2 (pairs (run (initHashtable size) ops).1) ∧
      Reachable (run (initHashtable size) ops).1 ∧ Counted (run (initHashtable size) ops).1 := by
  obtain ⟨B, h1, h2, -⟩ := run_init hs (hN.isKey hk) hT le_rfl
  rw [h2.pairs]
  exact ⟨h1, h2.reachable, h2.counted⟩

/-- colliding keys, a key stored twice, a tombstone on the way to a stored key, and two resizes -/
theorem calls_bag_collisions :
    BagRun 0 [.add 0 10, .add 8 20, .add 0 30, .delete 0, .find 8]
        (run (initHashtable 1) [.add 0 10, .add 8 20, .add 0 30, .delete 0, .find 8]).2
        (pairs (run (initHashtable 1) [.add 0 10, .add 8 20, .add 0 30, .delete 0, .find 8]).1) ∧
      Reachable (run (initHashtable 1) [.add 0 10, .add 8 20, .add 0 30, .delete 0, .find 8]).1 ∧
      Counted (run (initHashtable 1) [.add 0 10, .add 8 20, .add 0 30, .delete 0, .find 8]).1 := by
  refine calls_bag (by decide) _ (by decide) (by unfold NoOverflow; decide +kernel)
    ⟨fun _ => ?_, fun _ => ?_, fun _ => ?_, fun h => ?_, fun h => ?_, trivial⟩
  · decide +kernel
  · decide +kernel
  · decide +kernel
  · obtain ⟨k, v, e⟩ := h; cases e
  · obtain ⟨k, v, e⟩ := h; cases e

/-! ## At table size 2^31 -/

/-- with no slots, `resize` copies nothing -/
theorem foldl_reinsert_of_zero (l : List ℕ) (h : ht.tableSize = 0) : l.foldl reinsert ht = ht := by
  have hr : ∀ i, reinsert ht i = ht := fun i => by
    unfold reinsert freeSlot
    rw [h]
    split_ifs <;> rfl
  induction l with
  | nil => rfl
  | cons i l ih => rw [List.foldl_cons, hr, ih]

/-- **The table is lost**: `table_size * 2` wraps around to 0. -/
theorem resize_max (h : ht.tableSize = 2 ^ 31) : (resize ht).tableSize = 0 ∧ (resize ht).setSize = 0 := by
  have h0 : (doubled ht).tableSize = 0 := by
    change ht.tableSize * 2 % 2 ^ 32 = 0
    rw [h]
    decide
  unfold resize
  rw [foldl_reinsert_of_zero _ h0]
  exact ⟨h0, rfl⟩

/-- `table_size * 4` wraps around to 0, and `policy` holds for every table that is not empty -/
theorem policy_of_wrap (h : ht.tableSize * 4 % 2 ^ 32 = 0) (hs : 0 < ht.setSize) : policy ht = true := by
  unfold policy
  rw [h]
  simpa using hs

/-- **Two adds that return true, and then the table is empty.** The first `add` doubles the table to 2^31 slots, the
second one to 0. -/
theorem adds_lost :
    (run (initHashtable 30) [.add 1 10, .add 2 20, .find 1]).2 = [.add true, .add true, .find false] ∧
      pairs (run (initHashtable 30) [.add 1 10, .add 2 20]).1 = 0 ∧
      ¬ BagRun 0 [.add 1 10, .add 2 20, .find 1] (run (initHashtable 30) [.add 1 10, .add 2 20, .find 1]).2
        (pairs (run (initHashtable 30) [.add 1 10, .add 2 20, .find 1]).1) := by
  have hsize := init_tableSize (show 30 < 32 by decide)
  have hI : Holds (2 ^ 31) (initHashtable 30) 0 := init_holds (by decide) (by rw [hsize]; decide)
  obtain ⟨t1, e1, h1, hs1⟩ := hI.add_eq (k := 1) (v := 10) (by rw [hsize]; decide) ⟨by decide, by decide⟩
  have hp1 : policy t1 = true := policy_of_wrap (by rw [hs1, hsize]; decide) (by rw [h1.count]; decide)
  have hr1 := resize_holds h1 (by rw [hs1, hsize]; decide) (by rw [hs1, hsize]; decide)
  have ht1 : (resize t1).tableSize = 2 ^ 31 := by rw [resize_tableSize, hs1, hsize]; decide
  obtain ⟨t2, e2, h2, hs2⟩ := hr1.add_eq (k := 2) (v := 20) (by rw [ht1]; decide) ⟨by decide, by decide⟩
  have hp2 : policy t2 = true := policy_of_wrap (by rw [hs2, ht1]; decide) (by rw [h2.count]; decide)
  obtain ⟨hz, -⟩ := resize_max (hs2.trans ht1)
  rw [hp1, if_pos rfl] at e1
  rw [hp2, if_pos rfl] at e2
  have hrun : run (initHashtable 30) [.add 1 10, .add 2 20] = (resize t2, [.add true, .add true]) := by
    simp only [run, call, e1, e2]
  have hfind : find (resize t2) 1 = false := by
    unfold find probe
    rw [hz]
    rfl
  have hres : (run (initHashtable 30) [.add 1 10, .add 2 20, .find 1]).2 = [.add true, .add true, .find false] := by
    simp only [run, call, e1, e2, hfind]
  refine ⟨hres, ?_, ?_⟩
  · rw [hrun]
    unfold pairs
    rw [hz]
    rfl
  · rw [hres]
    rintro (_ | ⟨_ | _, _ | ⟨_ | _, _ | ⟨hn, _⟩⟩⟩)
    cases hn with
    | notFound h => exact h 10 (by simp)

end Runs

end AlgorithmCollection.OpenAddressHash
