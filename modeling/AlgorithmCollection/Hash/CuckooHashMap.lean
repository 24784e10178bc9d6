/-
`CuckooHash` never loses or corrupts a stored key.

`Holds ht M`: table 0 is unused, every node of table 1 is in the slot of its key, and together they hold the map M. A round
of `swap_node` calls on an occupied slot puts the new node in and takes it out again (`swapRounds_taken`), so
the slots only change when a free one is filled (`swapRounds_free`). Keys in different slots stay in different slots when
`table_size` doubles, so `resize` finds a free slot for each of them (`resize_holds`). `calls_kept`: whole runs.
-/
import AlgorithmCollection.Hash.CuckooHash

namespace AlgorithmCollection.CuckooHash

open Conc
open Function (update update_self update_of_ne)
open Chained (Op Res)
open OpenAddressHash (Stat Node occ occ_iff occ_eq_false)

/-! ## Hash codes -/

section HashCode

variable {k k' : ℤ} {n : ℕ}

theorem IsKey.mul_nonneg (hk : IsKey k) : 0 ≤ k * 271 := Int.mul_nonneg hk.1 (by decide)

theorem hashCode1_eq (hk : IsKey k) (n : ℕ) : hashCode1 k n = Chained.hashCode (k * 271) n := by
  unfold hashCode1
  rw [Chained.long_eq hk.mul_nonneg hk.2]

theorem hashCode1_lt (hk : IsKey k) (hn : 0 < n) (hlt : n < 2 ^ 32) : hashCode1 k n < n := by
  rw [hashCode1_eq hk]
  exact Chained.hashCode_lt hk.mul_nonneg hn hlt

theorem hashCode0_lt (hk : IsKey k) (hn : 0 < n) (hlt : n < 2 ^ 32) : hashCode0 k n < n := by
  obtain ⟨h0, hmax⟩ := hk
  unfold hashCode0
  rw [Chained.long_eq (by omega) (by omega)]
  exact Chained.hashCode_lt (by omega) hn hlt

/-- **Doubling the table separates keys, it never joins them.** -/
theorem hashCode1_of_double (hk : IsKey k) (hk' : IsKey k') (hn : 0 < n) (hlt : n * 2 < 2 ^ 32)
    (h : hashCode1 k (n * 2) = hashCode1 k' (n * 2)) : hashCode1 k n = hashCode1 k' n := by
  have hd : n ∣ n * 2 := Dvd.intro 2 rfl
  have h1 := Chained.hashCode_mod hk.mul_nonneg (by omega) hlt hd
  have h2 := Chained.hashCode_mod hk'.mul_nonneg (by omega) hlt hd
  rw [hashCode1_eq hk, hashCode1_eq hk'] at h ⊢
  rw [Chained.hashCode_eq hk.mul_nonneg hn (by omega), Chained.hashCode_eq hk'.mul_nonneg hn (by omega), ← h1, ← h2, h]

end HashCode

/-! ## The table and its map -/

structure Holds (ht : Table) (M : ℤ → Option ℤ) : Prop where
  pos : 0 < ht.tableSize
  lt : ht.tableSize < 2 ^ 32
  unused : ∀ i < ht.tableSize, (ht.table 0 i).stat ≠ .OCC
  placed : ∀ i < ht.tableSize, (ht.table 1 i).stat = .OCC → IsKey (ht.table 1 i).key ∧ hashCode1 (ht.table 1 i).key ht.tableSize = i
  rep : ∀ k v, M k = some v ↔ ∃ i < ht.tableSize, ht.table 1 i = ⟨k, v, .OCC⟩
  count : ht.setSize = (Slots.used occ (ht.table 1) ht.tableSize).card

section Tables

variable {ht : Table} {M : ℤ → Option ℤ} {k v : ℤ}

/-- a key is stored in its slot or not at all -/
theorem Holds.slot (h : Holds ht M) {w : ℤ} :
    M k = some w ↔ IsKey k ∧ ht.table 1 (hashCode1 k ht.tableSize) = ⟨k, w, .OCC⟩ := by
  rw [h.rep k w]
  constructor
  · rintro ⟨i, hi, e⟩
    obtain ⟨h1, h2⟩ := h.placed i hi (by rw [e])
    rw [e] at h1 h2
    exact ⟨h1, by rw [h2, e]⟩
  · rintro ⟨hk, e⟩
    exact ⟨_, hashCode1_lt hk h.pos h.lt, e⟩

theorem Holds.absent (h : Holds ht M)
    (hn : ¬((ht.table 1 (hashCode1 k ht.tableSize)).stat = .OCC ∧ (ht.table 1 (hashCode1 k ht.tableSize)).key = k)) :
    M k = none := by
  by_contra hM
  obtain ⟨w, hw⟩ := Option.ne_none_iff_exists'.1 hM
  obtain ⟨-, e⟩ := h.slot.1 hw
  exact hn ⟨by rw [e], by rw [e]⟩

theorem table_setNode (ht : Table) (no i : ℕ) (x : Node) :
    (setNode ht (no, i) x).table no = update (ht.table no) i x := update_self ..

theorem table_setNode_of_ne {no no' : ℕ} (i : ℕ) (x : Node) (h : no' ≠ no) :
    (setNode ht (no, i) x).table no' = ht.table no' := update_of_ne h ..

/-- writing a node and then what was there before -/
theorem setNode_back (ht : Table) (p : ℕ × ℕ) (x : Node) : setNode (setNode ht p x) p (ht.table p.1 p.2) = ht := by
  unfold setNode
  simp only [update_self, Function.update_idem, Function.update_eq_self]

/-- **A free slot is filled.** -/
theorem Holds.put (h : Holds ht M) (hk : IsKey k) (hfree : (ht.table 1 (hashCode1 k ht.tableSize)).stat ≠ .OCC) :
    Holds (incSize (setNode ht (1, hashCode1 k ht.tableSize) ⟨k, v, .OCC⟩)) (update M k (some v)) := by
  have hs := hashCode1_lt hk h.pos h.lt
  have hMk : M k = none := h.absent fun hn => hfree hn.1
  have htab : (incSize (setNode ht (1, hashCode1 k ht.tableSize) ⟨k, v, .OCC⟩)).table 1 =
      update (ht.table 1) (hashCode1 k ht.tableSize) ⟨k, v, .OCC⟩ :=
    table_setNode ht 1 (hashCode1 k ht.tableSize) ⟨k, v, .OCC⟩
  refine ⟨h.pos, h.lt, h.unused, fun i hi ho => ?_, fun k' w => ?_, ?_⟩
  · rw [htab] at ho ⊢
    by_cases e : i = hashCode1 k ht.tableSize
    · subst e
      rw [update_self]
      exact ⟨hk, rfl⟩
    · rw [update_of_ne e] at ho ⊢
      exact h.placed i hi ho
  · change _ ↔ ∃ i < ht.tableSize, _
    rw [htab]
    by_cases e : k' = k
    · subst e
      rw [update_self]
      constructor
      · intro hw
        cases hw
        exact ⟨_, hs, update_self ..⟩
      · rintro ⟨i, hi, hw⟩
        by_cases hik : i = hashCode1 k' ht.tableSize
        · rw [hik, update_self] at hw
          cases hw
          rfl
        · rw [update_of_ne hik] at hw
          exact absurd ((h.rep k' w).2 ⟨i, hi, hw⟩) (by rw [hMk]; simp)
    · rw [update_of_ne e, h.rep k' w]
      refine exists_congr fun i => and_congr_right fun hi => ?_
      by_cases hik : i = hashCode1 k ht.tableSize
      · rw [hik, update_self]
        refine iff_of_false (fun hw => hfree (by rw [hw])) fun hw => e ?_
        cases hw
        rfl
      · rw [update_of_ne hik]
  · have hnot : hashCode1 k ht.tableSize ∉ Slots.used occ (ht.table 1) ht.tableSize := fun hm =>
      hfree (occ_iff.1 (Slots.mem_used.1 hm).2)
    have hle : (Slots.used occ (ht.table 1) ht.tableSize).card ≤ ht.tableSize := Slots.card_used_le
    have hlt := h.lt
    change (ht.setSize + 1) % 2 ^ 64 = (Slots.used occ _ ht.tableSize).card
    rw [htab, Slots.used_put hs rfl, Finset.card_insert_of_notMem hnot, h.count, Nat.mod_eq_of_lt (by omega)]

/-! ## The rounds of `swap_node` -/

/-- the first call of a round fills a free slot -/
theorem swapRounds_free {n : ℕ} (hn : 0 < n) (hfree : (ht.table 1 (hashCode1 k ht.tableSize)).stat ≠ .OCC) :
    swapRounds ht ⟨k, v, .OCC⟩ n =
      (incSize (setNode ht (1, hashCode1 k ht.tableSize) ⟨k, v, .OCC⟩), ⟨k, v, .OCC⟩, true) := by
  have hswap : swapNode ht 1 ⟨k, v, .OCC⟩ = (setNode ht (1, hashCode1 k ht.tableSize) ⟨k, v, .OCC⟩,
      ht.table 1 (hashCode1 k ht.tableSize), true) := by
    unfold swapNode
    rw [show getNode ht 1 k = (1, hashCode1 k ht.tableSize) from rfl]
    simp only [decide_eq_true hfree]
  obtain ⟨n, rfl⟩ := Nat.exists_eq_succ_of_ne_zero hn.ne'
  unfold swapRounds
  rw [hswap]

/-- **A round on an occupied slot changes nothing**: the second call puts the node that was evicted back, since it
works on the same table. -/
theorem swapRounds_taken (h : Holds ht M) (hk : IsKey k)
    (hocc : (ht.table 1 (hashCode1 k ht.tableSize)).stat = .OCC) (n : ℕ) :
    swapRounds ht ⟨k, v, .OCC⟩ n = (ht, ⟨k, v, .OCC⟩, false) := by
  induction n with
  | zero => rfl
  | succ n ih =>
    obtain ⟨-, hplace⟩ := h.placed _ (hashCode1_lt hk h.pos h.lt) hocc
    generalize hs : hashCode1 k ht.tableSize = s at hocc hplace
    have hswap1 : swapNode ht 1 ⟨k, v, .OCC⟩ = (setNode ht (1, s) ⟨k, v, .OCC⟩, ht.table 1 s, false) := by
      unfold swapNode
      rw [show getNode ht 1 k = (1, s) from Prod.ext rfl hs]
      simp [hocc]
    have hswap2 : swapNode (setNode ht (1, s) ⟨k, v, .OCC⟩) 2 (ht.table 1 s) = (ht, ⟨k, v, .OCC⟩, false) := by
      unfold swapNode
      rw [show getNode (setNode ht (1, s) ⟨k, v, .OCC⟩) 2 (ht.table 1 s).key = (1, s) from Prod.ext rfl hplace]
      have hback := setNode_back ht (1, s) ⟨k, v, .OCC⟩
      rw [Node.eq_of_occ hocc] at hback
      simp [hback, table_setNode]
    unfold swapRounds
    rw [hswap1]
    simp only [hswap2]
    exact ih

/-! ## `resize` -/

theorem swapNode_kept (ht : Table) (no : ℕ) (node : Node) :
    (swapNode ht no node).1.tableSize = ht.tableSize ∧ (swapNode ht no node).1.oldTable = ht.oldTable := ⟨rfl, rfl⟩

/-- a round writes slots only -/
theorem swapRounds_kept (ht : Table) (node : Node) (n : ℕ) :
    (swapRounds ht node n).1.tableSize = ht.tableSize ∧ (swapRounds ht node n).1.oldTable = ht.oldTable := by
  induction n generalizing ht node with
  | zero => exact ⟨rfl, rfl⟩
  | succ n ih =>
    have h1 := swapNode_kept ht 1 node
    unfold swapRounds
    generalize swapNode ht 1 node = r1 at h1
    rcases r1 with ⟨ht1, tmp, _ | _⟩
    · have h2 := swapNode_kept ht1 2 tmp
      simp only
      generalize swapNode ht1 2 tmp = r2 at h2
      rcases r2 with ⟨ht2, node2, _ | _⟩
      · exact ⟨(ih ht2 node2).1.trans (h2.1.trans h1.1), (ih ht2 node2).2.trans (h2.2.trans h1.2)⟩
      · exact ⟨h2.1.trans h1.1, h2.2.trans h1.2⟩
    · exact h1

theorem reinsert_kept (ht : Table) (p : ℕ × ℕ) :
    (reinsert ht p).tableSize = ht.tableSize ∧ (reinsert ht p).oldTable = ht.oldTable := by
  unfold reinsert
  simp only
  split_ifs
  · exact swapRounds_kept ..
  · exact ⟨rfl, rfl⟩

theorem foldl_reinsert_kept (l : List (ℕ × ℕ)) (ht : Table) :
    (l.foldl reinsert ht).tableSize = ht.tableSize ∧ (l.foldl reinsert ht).oldTable = ht.oldTable := by
  induction l generalizing ht with
  | nil => exact ⟨rfl, rfl⟩
  | cons p l ih =>
    rw [List.foldl_cons]
    exact ⟨(ih _).1.trans (reinsert_kept ht p).1, (ih _).2.trans (reinsert_kept ht p).2⟩

/-- unused slots are passed over -/
theorem foldl_reinsert_unused (l : List (ℕ × ℕ)) (ht : Table) (h : ∀ p ∈ l, (ht.oldTable p.1 p.2).stat ≠ .OCC) :
    l.foldl reinsert ht = ht := by
  induction l with
  | nil => rfl
  | cons p l ih =>
    have hp : reinsert ht p = ht := by
      unfold reinsert
      exact if_neg (h p List.mem_cons_self)
    rw [List.foldl_cons, hp, ih fun q hq => h q (List.mem_cons_of_mem _ hq)]

/-- the part of the map that lies in the first n slots -/
def upTo (M : ℤ → Option ℤ) (tableSize n : ℕ) (k : ℤ) : Option ℤ := if hashCode1 k tableSize < n then M k else none

variable (h : Holds ht M)

include h

/-- the first n slots of table 1 have been copied -/
theorem copied (hT : ht.tableSize * 2 < 2 ^ 32) (n : ℕ) (hn : n ≤ ht.tableSize) :
    Holds (((List.range n).map fun j => (1, j)).foldl reinsert (doubled ht)) (upTo M ht.tableSize n) := by
  induction n with
  | zero =>
    refine ⟨?_, hT, nofun, nofun, fun k v => ?_, ?_⟩
    · have := h.pos
      change 0 < ht.tableSize * 2
      omega
    · refine iff_of_false (by simp [upTo]) ?_
      rintro ⟨i, _, e⟩
      cases e
    · rw [Slots.used_of_none fun _ _ => rfl]
      rfl
  | succ n ih =>
    specialize ih (by omega)
    obtain ⟨htab, hold⟩ := foldl_reinsert_kept ((List.range n).map fun j => (1, j)) (doubled ht)
    rw [List.range_succ, List.map_append, List.foldl_append, List.map_cons, List.map_nil, List.foldl_cons, List.foldl_nil]
    generalize ((List.range n).map fun j => (1, j)).foldl reinsert (doubled ht) = ht' at *
    replace htab : ht'.tableSize = ht.tableSize * 2 := htab
    replace hold : ht'.oldTable = ht.table := hold
    unfold reinsert
    simp only [hold]
    by_cases ho : (ht.table 1 n).stat = .OCC
    · rw [if_pos ho]
      obtain ⟨hk, hplace⟩ := h.placed n (by omega) ho
      have hMk : M (ht.table 1 n).key = some (ht.table 1 n).value :=
        (h.rep _ _).2 ⟨n, by omega, OpenAddressHash.Node.eq_of_occ ho⟩
      generalize hkey : (ht.table 1 n).key = k at hk hplace hMk
      generalize (ht.table 1 n).value = v at hMk
      -- a node in the new slot of k would come from the old slot of k, which is only copied now
      have hfree : (ht'.table 1 (hashCode1 k ht'.tableSize)).stat ≠ .OCC := by
        intro hn'
        obtain ⟨h1, h2⟩ := ih.placed _ (hashCode1_lt hk ih.pos ih.lt) hn'
        have hin := (ih.rep _ _).2 ⟨_, hashCode1_lt hk ih.pos ih.lt, OpenAddressHash.Node.eq_of_occ hn'⟩
        generalize (ht'.table 1 (hashCode1 k ht'.tableSize)).key = k' at h1 h2 hin
        rw [htab] at h2
        have hsame := hashCode1_of_double h1 hk h.pos hT h2
        unfold upTo at hin
        rw [hsame, hplace, if_neg (lt_irrefl n)] at hin
        cases hin
      rw [swapRounds_free ih.pos hfree]
      have hmap : upTo M ht.tableSize (n + 1) = update (upTo M ht.tableSize n) k (some v) := by
        funext k'
        unfold upTo
        by_cases e : k' = k
        · rw [e, update_self, hplace, if_pos (Nat.lt_succ_self n), hMk]
        · rw [update_of_ne e]
          by_cases hlt : hashCode1 k' ht.tableSize < n
          · rw [if_pos hlt, if_pos (by omega)]
          · rw [if_neg hlt]
            by_cases heq : hashCode1 k' ht.tableSize = n
            · rw [if_pos (by omega)]
              exact h.absent fun hn' => e (hn'.2.symm.trans (by rw [heq]; exact hkey))
            · rw [if_neg (by omega)]
      rw [hmap]
      exact ih.put hk hfree
    · rw [if_neg ho]
      have hmap : upTo M ht.tableSize (n + 1) = upTo M ht.tableSize n := by
        funext k
        unfold upTo
        by_cases heq : hashCode1 k ht.tableSize = n
        · rw [if_pos (by omega), if_neg (by omega)]
          exact h.absent fun hn' => ho (heq ▸ hn'.1)
        · by_cases hlt : hashCode1 k ht.tableSize < n
          · rw [if_pos hlt, if_pos (by omega)]
          · rw [if_neg hlt, if_neg (by omega)]
      rw [hmap]
      exact ih

/-- **`resize`** keeps the map: no two nodes meet in a slot of the larger table. -/
theorem resize_holds (hT : ht.tableSize * 2 < 2 ^ 32) : ∃ ht', resize ht = .ok ht' ∧ Holds ht' M := by
  have hzero : ((List.range ht.tableSize).map fun j => (0, j)).foldl reinsert (doubled ht) = doubled ht := by
    refine foldl_reinsert_unused _ _ fun p hp => ?_
    obtain ⟨j, hj, rfl⟩ := List.mem_map.1 hp
    exact h.unused j (List.mem_range.1 hj)
  have hmap : upTo M ht.tableSize ht.tableSize = M := by
    funext k
    unfold upTo
    by_cases hk : IsKey k
    · rw [if_pos (hashCode1_lt hk h.pos h.lt)]
    · have hMk : M k = none := by
        by_contra hM
        obtain ⟨w, hw⟩ := Option.ne_none_iff_exists'.1 hM
        exact hk (h.slot.1 hw).1
      rw [hMk, ite_self]
  have hc := copied h hT ht.tableSize le_rfl
  rw [hmap] at hc
  refine ⟨_, if_pos hT, ?_⟩
  rw [List.range_succ, List.range_one, List.flatMap_append, List.flatMap_singleton, List.flatMap_singleton, List.foldl_append,
    hzero]
  exact hc

/-! ## The calls -/

/-- the test on the slot of table 1 tells whether the key is stored -/
theorem Holds.test (hk : IsKey k) :
    decide ((ht.table 1 (hashCode1 k ht.tableSize)).stat = .OCC ∧ (ht.table 1 (hashCode1 k ht.tableSize)).key = k) =
      (M k).isSome := by
  by_cases hn : (ht.table 1 (hashCode1 k ht.tableSize)).stat = .OCC ∧ (ht.table 1 (hashCode1 k ht.tableSize)).key = k
  · have hs : M k = some (ht.table 1 (hashCode1 k ht.tableSize)).value :=
      h.slot.2 ⟨hk, (OpenAddressHash.Node.eq_of_occ hn.1).trans (by rw [hn.2])⟩
    rw [decide_eq_true hn, hs]
    rfl
  · rw [decide_eq_false hn, h.absent hn]
    rfl

theorem findOp_eq (hk : IsKey k) : findOp ht k = (M k).isSome := by
  have h0 := h.unused _ (hashCode0_lt hk h.pos h.lt)
  rw [← h.test hk]
  simp [findOp, List.range_succ, getNode, h0]

/-- **The tries of `add`**: the pair is put in, or the map is unchanged. -/
theorem addTry_holds (hk : IsKey k) (n : ℕ) :
    addTry ht ⟨k, v, .OCC⟩ n = .error .wrap ∨ ∃ ht' r, addTry ht ⟨k, v, .OCC⟩ n = .ok (ht', r) ∧
      Holds ht' (if r then update M k (some v) else M) := by
  induction n generalizing ht with
  | zero =>
    right
    unfold addTry
    by_cases hocc : (ht.table 1 (hashCode1 k ht.tableSize)).stat = .OCC
    · rw [swapRounds_taken h hk hocc]
      exact ⟨ht, false, rfl, h⟩
    · rw [swapRounds_free h.pos hocc]
      exact ⟨_, true, rfl, h.put hk hocc⟩
  | succ n ih =>
    unfold addTry
    by_cases hocc : (ht.table 1 (hashCode1 k ht.tableSize)).stat = .OCC
    · rw [swapRounds_taken h hk hocc]
      by_cases hT : ht.tableSize * 2 < 2 ^ 32
      · obtain ⟨ht2, h1, h2⟩ := resize_holds h hT
        simp only [h1]
        exact ih h2
      · left
        simp only [show resize ht = .error .wrap from if_neg hT]
    · rw [swapRounds_free h.pos hocc]
      exact .inr ⟨_, true, rfl, h.put hk hocc⟩

theorem add_holds (hk : IsKey k) :
    add ht k v = .error .wrap ∨ ∃ ht' r M', add ht k v = .ok (ht', r) ∧ MapStep M (.add k v) (.add r) M' ∧ Holds ht' M' := by
  unfold add
  rw [findOp_eq h hk]
  cases hM : M k with
  | some w => exact .inr ⟨ht, false, M, rfl, .notAdded, h⟩
  | none =>
    rcases addTry_holds (v := v) h hk 10 with he | ⟨ht', r, h1, h2⟩
    · exact .inl he
    · refine .inr ⟨ht', r, _, h1, ?_, h2⟩
      cases r with
      | true => exact .add hM
      | false => exact .notAdded

omit h in
theorem table_delOp (p : ℕ × ℕ) : (delOp ht p).table = (setNode ht p ⟨0, 0, .DEL⟩).table := by unfold delOp; rfl

/-- **A slot is cleared.** -/
theorem Holds.clear {w : ℤ} (hM : M k = some w) : Holds (delOp ht (1, hashCode1 k ht.tableSize)) (update M k none) := by
  obtain ⟨hk, e⟩ := h.slot.1 hM
  have hs := hashCode1_lt hk h.pos h.lt
  have htab : (delOp ht (1, hashCode1 k ht.tableSize)).table 1 =
      update (ht.table 1) (hashCode1 k ht.tableSize) ⟨0, 0, .DEL⟩ := by
    rw [table_delOp]
    exact table_setNode ht 1 (hashCode1 k ht.tableSize) ⟨0, 0, .DEL⟩
  have hsize : (delOp ht (1, hashCode1 k ht.tableSize)).tableSize = ht.tableSize := by unfold delOp; rfl
  have htab0 : (delOp ht (1, hashCode1 k ht.tableSize)).table 0 = ht.table 0 := by
    rw [table_delOp]
    exact table_setNode_of_ne _ _ Nat.zero_ne_one
  refine ⟨?_, ?_, fun i hi => ?_, fun i hi ho => ?_, fun k' v' => ?_, ?_⟩
  · rw [hsize]; exact h.pos
  · rw [hsize]; exact h.lt
  · rw [hsize] at hi
    rw [htab0]
    exact h.unused i hi
  · rw [hsize] at hi ⊢
    rw [htab] at ho ⊢
    by_cases hik : i = hashCode1 k ht.tableSize
    · rw [hik, update_self] at ho
      cases ho
    · rw [update_of_ne hik] at ho ⊢
      exact h.placed i hi ho
  · rw [hsize, htab]
    by_cases hkk : k' = k
    · rw [hkk, update_self]
      refine iff_of_false (by simp) ?_
      rintro ⟨i, hi, ei⟩
      by_cases hik : i = hashCode1 k ht.tableSize
      · rw [hik, update_self] at ei
        cases ei
      · rw [update_of_ne hik] at ei
        obtain ⟨-, hplace⟩ := h.placed i hi (by rw [ei])
        rw [ei] at hplace
        exact hik hplace.symm
    · rw [update_of_ne hkk, h.rep k' v']
      refine exists_congr fun i => and_congr_right fun hi => ?_
      by_cases hik : i = hashCode1 k ht.tableSize
      · rw [hik, update_self, e]
        refine iff_of_false (fun hw => hkk ?_) nofun
        cases hw
        rfl
      · rw [update_of_ne hik]
  · have hmem : hashCode1 k ht.tableSize ∈ Slots.used occ (ht.table 1) ht.tableSize :=
      Slots.mem_used.2 ⟨hs, by rw [e]; rfl⟩
    have hpos : 0 < (Slots.used occ (ht.table 1) ht.tableSize).card := Finset.card_pos.2 ⟨_, hmem⟩
    have hle : (Slots.used occ (ht.table 1) ht.tableSize).card ≤ ht.tableSize := Slots.card_used_le
    have hlt := h.lt
    rw [hsize, htab, Slots.used_take rfl, Finset.card_erase_of_mem hmem]
    change (ht.setSize + 2 ^ 64 - 1) % 2 ^ 64 = _
    rw [h.count]
    generalize (Slots.used occ (ht.table 1) ht.tableSize).card = c at *
    rw [show c + 2 ^ 64 - 1 = (c - 1) + 2 ^ 64 by omega, Nat.add_mod_right, Nat.mod_eq_of_lt (by omega)]

theorem delete_holds (hk : IsKey k) :
    ∃ ht' r M', delete ht k = (ht', r) ∧ MapStep M (.delete k) (.delete r) M' ∧ Holds ht' M' := by
  have h0 := h.unused _ (hashCode0_lt hk h.pos h.lt)
  have hf : (List.range 2).find? (fun i => decide ((ht.table (getNode ht i k).1 (getNode ht i k).2).key = k ∧
      (ht.table (getNode ht i k).1 (getNode ht i k).2).stat = .OCC)) = if (M k).isSome then some 1 else none := by
    have hp0 : decide ((ht.table 0 (hashCode0 k ht.tableSize)).stat = .OCC ∧
        (ht.table 0 (hashCode0 k ht.tableSize)).key = k) = false := decide_eq_false fun hn => h0 hn.1
    have hp1 := h.test hk
    rw [show List.range 2 = [0, 1] from rfl]
    simp only [List.find?_cons, getNode, if_true, Nat.one_ne_zero, if_false, hp0, and_comm (b := _ = Stat.OCC), hp1]
    cases (M k).isSome <;> rfl
  unfold delete
  simp only [hf]
  cases hM : M k with
  | none => exact ⟨ht, none, M, rfl, .notDeleted hM, h⟩
  | some w =>
    obtain ⟨-, e⟩ := h.slot.1 hM
    refine ⟨delOp ht (1, hashCode1 k ht.tableSize), some w, _, ?_, .deleted hM, h.clear hM⟩
    have hval : (ht.table 1 (hashCode1 k ht.tableSize)).value = w := by rw [e]
    rw [← hval]
    rfl

end Tables

/-! ## Sequences of calls -/

section Runs

variable {ht : Table} {M : ℤ → Option ℤ}

variable (h : Holds ht M)

include h

/-- **One call** is a step of the map. -/
theorem call_holds {op : Op} (hk : IsKey op.key) :
    call ht op = .error .wrap ∨ ∃ ht' r M', call ht op = .ok (ht', r) ∧ MapStep M op r M' ∧ Holds ht' M' := by
  cases op with
  | add k v =>
    rcases add_holds (k := k) (v := v) h hk with he | ⟨ht', r, M', h1, h2, h3⟩
    · left
      change Except.map _ (add ht k v) = _
      rw [he]
      rfl
    · refine .inr ⟨ht', .add r, M', ?_, h2, h3⟩
      change Except.map _ (add ht k v) = _
      rw [h1]
      rfl
  | delete k =>
    obtain ⟨ht', r, M', h1, h2, h3⟩ := delete_holds (k := k) h hk
    refine .inr ⟨ht', .delete r, M', ?_, h2, h3⟩
    change Except.ok ((delete ht k).1, Res.delete (delete ht k).2) = _
    rw [h1]
  | find k =>
    refine .inr ⟨ht, .find (M k).isSome, M, ?_, .find, h⟩
    change Except.ok (ht, Res.find (findOp ht k)) = _
    rw [findOp_eq (k := k) h hk]

/-- **A whole run** is a run of the map, by induction on the calls. -/
theorem run_holds {ops : List Op} (hk : ∀ op ∈ ops, IsKey op.key) :
    run ht ops = .error .wrap ∨ ∃ ht' rs M', run ht ops = .ok (ht', rs) ∧ MapRun M ops rs M' ∧ Holds ht' M' := by
  induction ops generalizing ht M with
  | nil => exact .inr ⟨ht, [], M, rfl, .nil, h⟩
  | cons op ops ih =>
    unfold run runCalls
    rcases call_holds h (hk op List.mem_cons_self) with he | ⟨ht1, r, M1, h1, h2, h3⟩
    · left
      rw [he]
    · rw [h1]
      rcases ih h3 fun o ho => hk o (List.mem_cons_of_mem _ ho) with he | ⟨ht2, rs, M2, h4, h5, h6⟩
      · left
        change Except.map _ (run ht1 ops) = _
        rw [he]
        rfl
      · refine .inr ⟨ht2, r :: rs, M2, ?_, .cons h2 h5, h6⟩
        change Except.map _ (run ht1 ops) = _
        rw [h4]
        rfl

omit h in
theorem init_holds (size : ℕ) : Holds (initHashtable size) fun _ => none := by
  have hsize : (initHashtable size).tableSize ≤ 2 ^ 10 := by
    refine Nat.pow_le_pow_right Nat.two_pos ?_
    split_ifs with hs
    · exact le_rfl
    · exact (not_le.1 hs).le
  refine ⟨Nat.two_pow_pos _, by omega, nofun, nofun, fun k v => ?_, ?_⟩
  · refine iff_of_false (by simp) ?_
    rintro ⟨i, _, e⟩
    cases e
  · rw [Slots.used_of_none fun _ _ => rfl]
    rfl

omit h in
theorem lt_two_cases {no : ℕ} (h : no < 2) : no = 0 ∨ no = 1 := by omega

theorem Holds.stored (k v : ℤ) : Stored ht k v ↔ M k = some v := by
  rw [h.rep k v]
  constructor
  · rintro ⟨no, hno, i, hi, e⟩
    rcases lt_two_cases hno with rfl | rfl
    · exact absurd (by rw [e]) (h.unused i hi)
    · exact ⟨i, hi, e⟩
  · rintro ⟨i, hi, e⟩
    exact ⟨1, Nat.one_lt_two, i, hi, e⟩

theorem Holds.noTwice : NoTwice ht := by
  intro no hno i hi no' hno' i' hi' ho ho' e
  rcases lt_two_cases hno with rfl | rfl
  · exact absurd ho (h.unused i hi)
  · rcases lt_two_cases hno' with rfl | rfl
    · exact absurd ho' (h.unused i' hi')
    · have h1 := (h.placed i hi ho).2
      have h2 := (h.placed i' hi' ho').2
      rw [e, h2] at h1
      exact ⟨rfl, h1.symm⟩

theorem Holds.counted : Counted ht := by
  have h0 : (Slots.used occ (ht.table 0) ht.tableSize).card = 0 := by
    rw [Slots.used_of_none fun i hi => occ_eq_false.2 (h.unused i hi)]
    rfl
  unfold Counted
  rw [h0, Nat.zero_add, h.count]

omit h

/-- **No stored key is lost or corrupted.** For every size and every sequence of calls on non-negative keys with
key * 271 not overflowing, unless `table_size` wraps around: the calls are those of a finite map, in which an `add` that
returns true puts an absent key in, an `add` that returns false changes nothing, `delete` takes out a stored key and returns
its value and `find` tells what is stored. The occupied slots hold that map, no key occupies two of them, and `setSize` is their number. -/
theorem calls_kept (size : ℕ) (ops : List Op) (hk : ∀ op ∈ ops, IsKey op.key)
    (hw : run (initHashtable size) ops ≠ .error .wrap) :
    ∃ ht rs M, run (initHashtable size) ops = .ok (ht, rs) ∧ MapRun (fun _ => none) ops rs M ∧
      (∀ k v, Stored ht k v ↔ M k = some v) ∧ NoTwice ht ∧ Counted ht := by
  obtain ⟨ht, rs, M, h1, h2, h3⟩ := (run_holds (init_holds size) hk).resolve_left hw
  exact ⟨ht, rs, M, h1, h2, h3.stored, h3.noTwice, h3.counted⟩

/-- two keys that meet in the slot of a table of one slot, so that the second `add` doubles it -/
theorem calls_kept_doubling :
    ∃ ht rs M, run (initHashtable 0) [.add 2 20, .add 3 30, .find 2, .delete 3, .find 3] = .ok (ht, rs) ∧
      MapRun (fun _ => none) [.add 2 20, .add 3 30, .find 2, .delete 3, .find 3] rs M ∧
      (∀ k v, Stored ht k v ↔ M k = some v) ∧ NoTwice ht ∧ Counted ht := by
  have hr : (run (initHashtable 0) [.add 2 20, .add 3 30, .find 2, .delete 3, .find 3]).isOk = true := by decide +kernel
  exact calls_kept 0 _ (by decide) fun he => by rw [he] at hr; cases hr

end Runs

end AlgorithmCollection.CuckooHash
