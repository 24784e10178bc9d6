/-
The indices that `ConcurrentCuckooHash` uses into its arrays, with one thread.

`Use`: an index into `mtx[i]`, `table[i]` or `old_table[i]`, and the number of elements that array has been allocated with.
`initMtxUses` and `initTablesUses` are the uses in one iteration of the loops of `init_hashtable`, and `uses` those of a step
of a call: in the order of the program, with the index as the code computes it.

- The mutex of a key is its hash code modulo `mtx_size`, and the loops of `aLock` and `aUnLock` end at `mtx_size`.
- The bucket of a key is its hash code modulo `table_size`. `relocate` uses buckets that it has computed before; with one
  thread there is no `resize` in between (`Window`). It keeps them in an int: `table_size` is a power of two below 2^32, so a
  bucket is below 2^31.
- The loop of `init_hashtable` over the mutexes ends at `i <= table_size`, one iteration too late.

`in_bounds_iff`: all uses but those of that iteration are in bounds.
-/
import AlgorithmCollection.Hash.ConcurrentCuckooHashMap

namespace AlgorithmCollection.ConcurrentCuckooHash

open Conc

/-- the arrays of `hashtable_t` -/
inductive Arr where
  | mtx (i : Fin 2)
  | table (i : Fin 2)
  | oldTable (i : Fin 2)
deriving DecidableEq, Repr

/-- an index into an array, and the number of elements of the array -/
structure Use where
  arr : Arr
  index : ℕ
  length : ℕ
deriving DecidableEq, Repr

def Use.InBounds (u : Use) : Prop := u.index < u.length

instance Use.InBounds.decidable (u : Use) : Decidable u.InBounds := inferInstanceAs (Decidable (_ < _))

/-! ## The uses of `init_hashtable` -/

/-- iteration i of the loop over the mutexes -/
def initMtxUses (P : Params) (i : ℕ) : List Use := [⟨.mtx 0, i, P.mtxSize⟩, ⟨.mtx 1, i, P.mtxSize⟩]

/-- iteration i of the loop of `init_tables(ht, n)` -/
def initTablesUses (n i : ℕ) : List Use := [⟨.table 0, i, n⟩, ⟨.table 1, i, n⟩]

/-! ## The uses of the calls -/

/-- `ht->mtx[i]` for a key -/
def mtxUse (P : Params) (i : Fin 2) (key : ℤ) : Use := ⟨.mtx i, stripe P i key, P.mtxSize⟩

/-- `ht->table[i]` for a key, in `get_list`, `add` and `resize` -/
def listUse (m : Mem) (i : Fin 2) (key : ℤ) : Use := ⟨.table i, bucket m i key, m.tableSize⟩

/-- `contains_op`, and the lookups of `delete`: the list in `table[1]` is looked up if the other does not have the key -/
def lookupUses (m : Mem) (key : ℤ) : List Use :=
  listUse m 0 key ::
    match searchList m (getList m 0 key) key with
    | .ok false => [listUse m 1 key]
    | _ => []

/-- the locked part of a call -/
def workUses (m : Mem) : Op → List Use
  | .add k _ =>
    lookupUses m k ++
      match containsOp m k with
      | .ok false => [listUse m 0 k, listUse m 1 k]
      | _ => []
  | .delete k | .contains k => lookupUses m k

/-- the innermost loop of `resize`, for n nodes at most -/
def moveNodesUses (P : Params) : ℕ → Mem → ℕ → List Use
  | 0, _, _ => []
  | n + 1, m, node =>
    if node = NULL then []
    else
      listUse m 0 (ky m node) :: listUse m 1 (ky m node) ::
        match reinsert P m node with
        | .error _ => []
        | .ok m' => moveNodesUses P n m' (nx m node)

/-- the loops of `resize` over the old lists -/
def moveListsUses (P : Params) : Mem → List ℕ → List Use
  | _, [] => []
  | m, l :: ls =>
    (if 0 < m.size l then moveNodesUses P m.fresh m (nx m l) else []) ++
      match moveList P m l with
      | .error _ => []
      | .ok m' => moveListsUses P m' ls

/-- `old_table[i][j]` in the loops of `resize` -/
def oldUses (m : Mem) : List Use :=
  (List.finRange 2).flatMap fun i => (List.range m.tableSize).map fun j => ⟨.oldTable i, j, m.tableSize⟩

/-- `resize` between `aLock` and `aUnLock`; where `table_size` wraps around to 0 the new tables have no elements, and the
first hash code modulo `table_size` stops the thread -/
def resizeUses (P : Params) (m : Mem) : List Use :=
  if m.tableSize * 2 < 2 ^ 32 then
    (List.range (m.tableSize * 2)).flatMap (initTablesUses (m.tableSize * 2)) ++ oldUses m ++
      moveListsUses P (doubled m) (oldLists m)
  else oldUses m

/-- the uses of the next step of a thread in call op -/
def uses (P : Params) (m : Mem) (op : Op) : Pc → List Use
  | .acquire0 j => [mtxUse P 0 (j.key op)]
  | .acquire1 j => [mtxUse P 1 (j.key op)]
  | .work _ => workUses m op
  | .take x => [⟨.table (1 - x.i), x.hj, m.tableSize⟩]
  | .release0 key _ => [mtxUse P 0 key]
  | .release1 key _ => [mtxUse P 1 key]
  | .table i hi _ => [⟨.table i, hi, m.tableSize⟩]
  | .aLock p _ => [⟨.mtx (lockAt p).1, (lockAt p).2, P.mtxSize⟩]
  | .aUnLock p _ => [⟨.mtx (unlockAt p).1, (unlockAt p).2, P.mtxSize⟩]
  | .resize _ => resizeUses P m
  | .idle | .ret _ | .fault _ | .put _ _ _ | .head _ _ _ _ | .bucket _ _ _ _ _ => []

/-! ## Hash codes -/

section Codes

variable {P : Params} {m m' : Mem}

theorem mtxUse_inBounds (P : Params) (i : Fin 2) (key : ℤ) : (mtxUse P i key).InBounds := stripe_lt P i key

theorem listUse_inBounds (h : 0 < m.tableSize) (i : Fin 2) (key : ℤ) : (listUse m i key).InBounds := Nat.mod_lt _ h

theorem lookupUses_inBounds (h : 0 < m.tableSize) (key : ℤ) : ∀ u ∈ lookupUses m key, u.InBounds := by
  unfold lookupUses
  refine List.forall_mem_cons.2 ⟨listUse_inBounds h 0 key, ?_⟩
  split
  · simpa using listUse_inBounds h 1 key
  · exact nofun

theorem workUses_inBounds (h : 0 < m.tableSize) (op : Op) : ∀ u ∈ workUses m op, u.InBounds := by
  cases op with
  | add k v =>
    refine List.forall_mem_append.2 ⟨lookupUses_inBounds h k, ?_⟩
    split
    · simpa using ⟨listUse_inBounds h 0 k, listUse_inBounds h 1 k⟩
    · exact nofun
  | delete k | contains k => exact lookupUses_inBounds h k

/-! ## `resize` -/

theorem addNodeAtTail_tableSize {l a : ℕ} (h : addNodeAtTail m l a = .ok m') : m'.tableSize = m.tableSize := by
  unfold addNodeAtTail at h
  split at h
  · cases h
  · cases h
    rfl

theorem reinsert_tableSize {a : ℕ} (h : reinsert P m a = .ok m') : m'.tableSize = m.tableSize := by
  unfold reinsert at h
  split at h
  · exact addNodeAtTail_tableSize h
  · cases h

theorem moveNodes_tableSize {n a : ℕ} (h : moveNodes P n m a = .ok m') : m'.tableSize = m.tableSize := by
  induction n generalizing m a with
  | zero => cases h
  | succ n ih =>
    rw [moveNodes] at h
    split_ifs at h
    · cases h
      rfl
    · split at h
      · cases h
      · exact (ih h).trans (reinsert_tableSize ‹_›)

theorem moveList_tableSize {l : ℕ} (h : moveList P m l = .ok m') : m'.tableSize = m.tableSize := by
  unfold moveList at h
  split_ifs at h
  · exact moveNodes_tableSize h
  · cases h
    rfl

theorem moveNodesUses_inBounds {n a : ℕ} (h : 0 < m.tableSize) : ∀ u ∈ moveNodesUses P n m a, u.InBounds := by
  induction n generalizing m a with
  | zero => nofun
  | succ n ih =>
    rw [moveNodesUses]
    split_ifs
    · nofun
    · refine List.forall_mem_cons.2 ⟨listUse_inBounds h 0 _, List.forall_mem_cons.2 ⟨listUse_inBounds h 1 _, ?_⟩⟩
      split
      · nofun
      · rename_i m' hm
        exact ih (reinsert_tableSize hm ▸ h)

theorem moveListsUses_inBounds {ls : List ℕ} (h : 0 < m.tableSize) : ∀ u ∈ moveListsUses P m ls, u.InBounds := by
  induction ls generalizing m with
  | nil => nofun
  | cons l ls ih =>
    rw [moveListsUses]
    refine List.forall_mem_append.2 ⟨?_, ?_⟩
    · split_ifs
      · exact moveNodesUses_inBounds h
      · nofun
    · split
      · nofun
      · rename_i m' hm
        exact ih (moveList_tableSize hm ▸ h)

theorem oldUses_inBounds (m : Mem) : ∀ u ∈ oldUses m, u.InBounds := by
  intro u hu
  obtain ⟨i, -, hu⟩ := List.mem_flatMap.1 hu
  obtain ⟨j, hj, rfl⟩ := List.mem_map.1 hu
  exact List.mem_range.1 hj

theorem initTablesUses_inBounds {n i : ℕ} (h : i < n) : ∀ u ∈ initTablesUses n i, u.InBounds := by
  simpa [initTablesUses] using ⟨h, h⟩

theorem resizeUses_inBounds (h : 0 < m.tableSize) : ∀ u ∈ resizeUses P m, u.InBounds := by
  unfold resizeUses
  split_ifs
  · have hpos : 0 < (doubled m).tableSize := Nat.mul_pos h Nat.zero_lt_two
    refine List.forall_mem_append.2 ⟨List.forall_mem_append.2 ⟨?_, oldUses_inBounds m⟩, moveListsUses_inBounds hpos⟩
    intro u hu
    obtain ⟨i, hi, hu⟩ := List.mem_flatMap.1 hu
    exact initTablesUses_inBounds (List.mem_range.1 hi) u hu
  · exact oldUses_inBounds m

/-- **The uses of a step** are in bounds, if what `relocate` has remembered is right. -/
theorem uses_inBounds {g : Ghost} {t : ℕ} {op : Op} {pc : Pc} (hI : Inv P g m) (hA : At P g t m ⟨op, pc⟩) :
    ∀ u ∈ uses P m op pc, u.InBounds := by
  have hpos := hI.holds.pos
  cases pc with
  | idle | ret r | fault f | put x jSet y | head i hi round iSet | bucket i hi round iSet lockKey => nofun
  | acquire0 j => exact List.forall_mem_singleton.2 (mtxUse_inBounds P 0 (j.key op))
  | acquire1 j => exact List.forall_mem_singleton.2 (mtxUse_inBounds P 1 (j.key op))
  | work nested => exact workUses_inBounds hpos op
  | take x =>
    have haim : Aimed m x := hA.window
    have hlt := hI.holds.live_place x.lockKey (1 - x.i)
    rw [haim.target] at hlt
    exact List.forall_mem_singleton.2 hlt
  | release0 key k => exact List.forall_mem_singleton.2 (mtxUse_inBounds P 0 key)
  | release1 key k => exact List.forall_mem_singleton.2 (mtxUse_inBounds P 1 key)
  | table i hi round =>
    have hlt : live m (i, hi) := hA.window
    exact List.forall_mem_singleton.2 hlt
  | aLock p k =>
    have hp := hA.owned.range p k (.inl rfl)
    have hlt : p / 2 < P.mtxSize := by omega
    exact List.forall_mem_singleton.2 hlt
  | aUnLock p k =>
    have hp := hA.owned.range p k (.inr rfl)
    have hlt : p / 2 < P.mtxSize := by omega
    exact List.forall_mem_singleton.2 hlt
  | resize k => exact resizeUses_inBounds hpos

end Codes

/-! ## One thread -/

/-- a step of a program with one thread: an iteration of a loop of `init_hashtable`, or the next step of the thread after
some actions -/
inductive Site (P : Params) where
  | initMtx (i : ℕ) (h : i ≤ P.mtxSize)
  | initTables (i : ℕ) (h : i < P.mtxSize)
  | call (as : List Act)

def Site.uses {P : Params} : Site P → List Use
  | .initMtx i _ => initMtxUses P i
  | .initTables i _ => initTablesUses P.mtxSize i
  | .call as => ConcurrentCuckooHash.uses P (aloneRun P as).sh ((aloneRun P as).loc 0).op ((aloneRun P as).loc 0).pc

/-- **In bounds** are the uses of all steps but one: the iteration i = `table_size` of the loop of `init_hashtable` over the
mutexes. -/
theorem in_bounds_iff (P : Params) (s : Site P) : (∀ u ∈ s.uses, u.InBounds) ↔ s ≠ .initMtx P.mtxSize le_rfl := by
  cases s with
  | initMtx i hi =>
    have huses : (∀ u ∈ initMtxUses P i, u.InBounds) ↔ i < P.mtxSize := by
      simp [initMtxUses, Use.InBounds]
    have hsite : Site.initMtx i hi ≠ Site.initMtx P.mtxSize le_rfl ↔ i ≠ P.mtxSize := by simp
    change (∀ u ∈ initMtxUses P i, u.InBounds) ↔ _
    rw [huses, hsite]
    omega
  | initTables i hi => exact iff_of_true (initTablesUses_inBounds hi) nofun
  | call as =>
    obtain ⟨g, hB, -⟩ := alone_found P as
    exact iff_of_true (uses_inBounds hB.inv (hB.threads 0)) nofun

/-- `init_hashtable(0, 1, 1)`: the arrays have one mutex, and the loop writes a second one -/
theorem init_overruns :
    ∃ u ∈ (Site.initMtx 1 (by decide) : Site ⟨0, 1, 1⟩).uses, u = ⟨.mtx 0, 1, 1⟩ ∧ ¬ u.InBounds := by
  decide

end AlgorithmCollection.ConcurrentCuckooHash
