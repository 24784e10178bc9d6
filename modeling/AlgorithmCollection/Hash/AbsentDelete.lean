/-
Deleting a key that is not stored, in the chained tables run by one thread.

`delete_node` walks along the bucket of the key to the first node whose key is not smaller, and then evaluates
`key == curr->key && curr != NULL`: it reads `curr->key` before it looks at curr. If the bucket has nodes and all of their
keys are smaller, curr is NULL there. `Stops keys k` is the other case: the bucket is empty, and `delete_node` has returned
before, or it has a larger key.

- `Hash`: a call is a function on the memory, and the read through NULL is its fault `null` (`Hash.harmless_iff`).
- `StripedHash`: the thread runs alone from a table at rest; no mutex is taken then, and each of the three tries walks along
  the same bucket (`Tries`). `StripedHash.harmless_iff`.
- `RefinableHash`: the same, but a `resize` has destroyed the mutexes of the lower half of the buckets, and a `delete` there
  does not get past its lock. `RefinableHash.harmless_iff`.
-/
import AlgorithmCollection.Hash.HashMap
import AlgorithmCollection.Hash.RefinableHashAlone
import AlgorithmCollection.Hash.StripedHashCount
import AlgorithmCollection.Hash.StripedHashLocks

namespace AlgorithmCollection

open Conc Chained

/-- a walk for k along a bucket with these keys ends before the end of the list, if it is made at all -/
def Chained.Stops (keys : List ℤ) (k : ℤ) : Prop := keys = [] ∨ ∃ k' ∈ keys, k < k'

instance Chained.Stops.decidable (keys : List ℤ) (k : ℤ) : Decidable (Stops keys k) := by
  unfold Stops; infer_instance

/-- `setSize` and the pairs of every bucket -/
structure Chained.Contents where
  tableSize : ℕ
  setSize : ℕ
  pairs : ℕ → List (ℤ × ℤ)

/-- no bucket has the key -/
def Chained.Contents.Absent (c : Contents) (k : ℤ) : Prop := ∀ b < c.tableSize, ∀ p ∈ c.pairs b, p.1 ≠ k

instance Chained.Contents.decidable (c : Contents) (k : ℤ) : Decidable (c.Absent k) := by unfold Absent; infer_instance

theorem Chained.Contents.Absent.node {c : Contents} {k : ℤ} {b a : ℕ} {l : List ℕ} {ky vl : ℕ → ℤ} (h : c.Absent k)
    (e : c.pairs b = l.map fun a => (ky a, vl a)) (hb : b < c.tableSize) (ha : a ∈ l) : ky a ≠ k :=
  h b hb (ky a, vl a) (e ▸ List.mem_map_of_mem ha)

/-- the sizes and the pairs of every bucket are the same -/
structure Chained.Contents.Same (c c' : Contents) : Prop where
  tableSize : c'.tableSize = c.tableSize
  setSize : c'.setSize = c.setSize
  pairs : ∀ b < c.tableSize, c'.pairs b = c.pairs b

theorem Chained.Contents.Same.refl (c : Contents) : c.Same c := ⟨rfl, rfl, fun _ _ => rfl⟩

/-- the next step does not evaluate `curr->key` for curr = NULL; `curr l` is the node whose key `delete` reads at l -/
def Chained.ReadsOk {M L : Type*} (curr : L → Option ℕ) (s : M × L) : Prop := curr s.2 ≠ some NULL

theorem Chained.readsOk {M L : Type*} {curr : L → Option ℕ} {m : M} {l : L} (h : curr l = none) : ReadsOk curr (m, l) := by
  unfold ReadsOk
  rw [h]
  simp

/-! ## Tries on one bucket -/

/-- `delete` of k by a thread that runs alone. A try with r more to come begins at `start r`, walks from `first r` on along
the list that hangs on h, and goes to `fail r` when it has not found the key; `curr->key` is read at `check`, for any curr. -/
structure Chained.Tries {σ : Type*} (f : σ → σ) (ok : σ → Prop) (nx : ℕ → ℕ) (ky : ℕ → ℤ) (k : ℤ) (h : ℕ)
    (start first fail : ℕ → σ) (test check : ℕ → ℕ → ℕ → σ) (next : ℕ → ℕ → σ) (done : σ) : Prop where
  starts : ∀ r, Path f ok (start r) (first r)
  ends : ∀ r, Path f ok (fail r) (if 0 < r then start (r - 1) else done)
  first_eq : ∀ r, f (first r) = if nx h = 0 then fail r else test r h (nx h)
  test_eq : ∀ r p c, f (test r p c) = if c ≠ 0 ∧ ky c < k then next r c else check r p c
  next_eq : ∀ r c, f (next r c) = test r c (nx c)
  check_eq : ∀ r p c, ky c ≠ k → f (check r p c) = fail r
  oks : (∀ r, ok (first r)) ∧ (∀ r p c, ok (test r p c)) ∧ ∀ r c, ok (next r c)
  reads : ∀ r p c, ok (check r p c) ↔ c ≠ 0

/-- the nodes xs of a bucket, which hang on h, do not have the key k -/
structure Chained.Lacks (nx : ℕ → ℕ) (ky : ℕ → ℤ) (k : ℤ) (h : ℕ) (xs : List ℕ) : Prop where
  ne : ∀ a ∈ xs, a ≠ 0
  chain : (h :: (xs ++ [0])).IsChain fun x y => nx x = y
  absent : ∀ a ∈ xs, ky a ≠ k

section Tries

variable {σ : Type*} {f : σ → σ} {ok : σ → Prop} {nx : ℕ → ℕ} {ky : ℕ → ℤ} {k : ℤ} {h : ℕ} {start first fail : ℕ → σ}
  {test check : ℕ → ℕ → ℕ → σ} {next : ℕ → ℕ → σ} {done : σ} {xs : List ℕ}

variable (T : Tries f ok nx ky k h start first fail test check next done) (B : Lacks nx ky k h xs)

include T B

/-- the walk of a try, along the nodes xs of the bucket: it comes to the test for the key, at the end of a list of smaller
keys or at a key that is not smaller -/
theorem Chained.Tries.walk (r : ℕ) (hxs : xs ≠ []) :
    ∃ p c, Path f ok (first r) (check r p c) ∧ ((c = 0 ∧ ∀ a ∈ xs, ky a < k) ∨ (c ∈ xs ∧ k ≤ ky c)) := by
  obtain ⟨p, c, h1, h2⟩ := Path.path_walk nx ky k (test r) (check r) (next r) (T.test_eq r) (T.next_eq r)
    ⟨T.oks.2.1 r, T.oks.2.2 r⟩ B.chain B.ne
  refine ⟨p, c, .cons (T.oks.1 r) ?_ h1, h2⟩
  have hfirst : nx h ≠ 0 := by
    obtain ⟨a, l, rfl⟩ := List.exists_cons_of_ne_nil hxs
    rw [(List.isChain_cons_cons.1 B.chain).1]
    exact B.ne a List.mem_cons_self
  rw [T.first_eq, if_neg hfirst]

/-- **A try** for an absent key, if the walk along its bucket stops in time. -/
theorem Chained.Tries.fails (r : ℕ) (hs : Stops (xs.map ky) k) :
    Path f ok (start r) (if 0 < r then start (r - 1) else done) := by
  suffices hw : Path f ok (first r) (fail r) from ((T.starts r).trans hw).trans (T.ends r)
  by_cases hxs : xs = []
  · subst hxs
    refine .cons (T.oks.1 r) ?_ .refl
    rw [T.first_eq, if_pos (List.isChain_cons_cons.1 B.chain).1]
  · obtain ⟨p, c, h1, h2⟩ := T.walk B r hxs
    obtain ⟨hc, hle⟩ : c ∈ xs ∧ k ≤ ky c := by
      rcases h2 with ⟨-, hall⟩ | h2
      · obtain ⟨k', hk', hlt⟩ := hs.resolve_left (by simpa using hxs)
        obtain ⟨a, ha, rfl⟩ := List.mem_map.1 hk'
        exact absurd (hall a ha) (not_lt.2 hlt.le)
      · exact h2
    exact h1.trans (.cons ((T.reads r p c).2 (B.ne c hc)) (T.check_eq r p c (B.absent c hc)) .refl)

/-- **`delete`** of an absent key, if the walk along its bucket stops in time: all tries fail. -/
theorem Chained.Tries.path (r : ℕ) (hs : Stops (xs.map ky) k) : Path f ok (start r) done := by
  induction r with
  | zero => exact T.fails B 0 hs
  | succ r ih => exact (T.fails B (r + 1) hs).trans ih

/-- and if the walk does not stop in time, the first try reads through NULL -/
theorem Chained.Tries.stops {r : ℕ} {y : σ} (hp : Path f ok (start r) y) (hy : f y = y) (hcheck : ∀ p c, check r p c ≠ y) :
    Stops (xs.map ky) k := by
  by_contra hs
  obtain ⟨p, c, h1, h2⟩ := T.walk B r fun e => hs (.inl (by rw [e]; rfl))
  have hc : c = 0 := by
    rcases h2 with ⟨h0, -⟩ | ⟨hc, hle⟩
    · exact h0
    · exact absurd (.inr ⟨_, List.mem_map.2 ⟨c, hc, rfl⟩, lt_of_le_of_ne hle (B.absent c hc).symm⟩) hs
  exact hp.not_of_bad (((T.starts r).trans h1).mono fun _ _ => trivial) (fun hok => (T.reads r p c).1 hok hc) hy
    (hcheck p c)

end Tries

/-! ## `Hash` -/

namespace Hash

def contents (m : Mem) : Contents := ⟨m.tableSize, m.setSize, fun b => (nodes m b).map fun a => (ky m a, vl m a)⟩

/-- `delete` returns false without a fault and changes nothing -/
def Harmless (m : Mem) (k : ℤ) : Prop := ∃ m', delete m k = .ok (m', none) ∧ (contents m).Same (contents m')

section Delete

variable {m : Mem} {M : ℤ → Option ℤ} {S : ℕ → Finset ℕ} {D : Finset ℕ} {k : ℤ}

theorem Holds.nodes_ne (h : Holds m M S D) {b a : ℕ} (hb : b < m.tableSize) (ha : a ∈ nodes m b) : a ≠ 0 :=
  ((h.live.mem_listNodes hb a).1 ha).2.2

/-- a bucket is empty iff its head has no next node -/
theorem Holds.nodes_nil (h : Holds m M S D) {b : ℕ} (hb : b < m.tableSize) :
    nodes m b = [] ↔ nx m (m.list m.bucket b) = NULL := by
  have hlink := h.live.listNodes_linked hb
  change (m.list m.bucket b :: (nodes m b ++ [0])).IsChain (fun x y => nx m x = y) at hlink
  have hne := fun a => h.nodes_ne (a := a) hb
  cases hn : nodes m b with
  | nil =>
    rw [hn] at hlink
    exact iff_of_true rfl (List.isChain_cons_cons.1 hlink).1
  | cons a l =>
    rw [hn] at hlink hne
    have hnext := (List.isChain_cons_cons.1 hlink).1
    exact iff_of_false (by simp) fun h0 => hne a List.mem_cons_self (hnext.symm.trans h0)

theorem Holds.delete_absent_eq (h : Holds m M S D) (hk : 0 ≤ k) (ha : (contents m).Absent k) :
    delete m k = if Stops ((nodes m (hashCode k m.tableSize)).map (ky m)) k then .ok (m, none) else .error .null := by
  have hb := h.bucket_lt hk
  unfold delete deleteNode
  by_cases he : nx m (m.list m.bucket (hashCode k m.tableSize)) = NULL
  · have hnil := (h.nodes_nil hb).2 he
    rw [if_pos he, if_pos (.inl (by rw [hnil]; rfl))]
  · obtain ⟨p, hs, -, -⟩ := h.search hk
    rw [if_neg he, hs]
    rcases BucketList.seek_stop (h.live.listNodes_linked hb) (fun a => h.nodes_ne hb) hs with ⟨h0, hall⟩ | ⟨hmem, hle⟩
    · have hno : ¬ Stops ((nodes m (hashCode k m.tableSize)).map (ky m)) k := by
        rintro (hnil | ⟨k', hk', hlt⟩)
        · exact he ((h.nodes_nil hb).1 (List.map_eq_nil_iff.1 hnil))
        · obtain ⟨a, haa, rfl⟩ := List.mem_map.1 hk'
          exact absurd (hall a haa) (by omega)
      rw [if_neg hno]
      simp only [show nx m p = NULL from h0, if_true]
    · have hne := ha.node rfl hb hmem
      have hlt : k < ky m (nx m p) := lt_of_le_of_ne hle hne.symm
      rw [if_pos (.inr ⟨_, List.mem_map.2 ⟨_, hmem, rfl⟩, hlt⟩)]
      simp only [show nx m p ≠ NULL from h.nodes_ne hb hmem, if_false, hne.symm]

theorem harmless_iff {n : ℕ} (hn : 1 ≤ n) (hlt : n < 2 ^ 32) {ops : List Op} (hops : ∀ op ∈ ops, 0 ≤ op.key)
    {rs : List Res} (hr : run (initHashtable n) ops = .ok (m, rs)) (hk : 0 ≤ k) (ha : (contents m).Absent k) :
    Harmless m k ↔ Stops ((nodes m (hashCode k m.tableSize)).map (ky m)) k := by
  obtain ⟨S0, h0⟩ := init_holds hn hlt
  have hload : (initHashtable n).setSize < 5 * (initHashtable n).tableSize := by
    change 0 < 5 * n
    omega
  obtain ⟨M, S, D, h, -⟩ := run_returned h0 hload hops hr
  unfold Harmless
  rw [h.delete_absent_eq hk ha]
  split_ifs with hs
  · exact iff_of_true ⟨m, rfl, .refl _⟩ hs
  · refine iff_of_false ?_ hs
    rintro ⟨m', hd, -⟩
    cases hd

end Delete

end Hash

/-! ## `StripedHash` -/

namespace StripedHash

def contents (m : Mem) : Contents := ⟨m.tableSize, m.setSize, fun b => (nodes m b).map fun a => (ky m a, vl m a)⟩

/-- the steps of thread 0 when the others take none -/
def alone (P : Params) (s : Mem × Loc) : Mem × Loc := exec P 0 s.1 s.2

/-- the node whose key `delete` is about to read -/
def checked : Loc → Option ℕ
  | .check (.delete _ _) _ _ curr => some curr
  | _ => none

/-- `delete` returns false without reading through NULL and changes nothing -/
def Harmless (P : Params) (m : Mem) (k : ℤ) : Prop :=
  ∃ m', Path (alone P) (ReadsOk checked) (m, start (.delete k)) (m', .ret (.delete k) (.delete none)) ∧
    (contents m).Same (contents m')

/-! ### The tries of `delete` -/

/-- thread 0 has the mutex of bucket b -/
abbrev taken (P : Params) (m : Mem) (b : ℕ) : Mem := setMtx m (lockKey P b) (some 0)

section Tries

variable {P : Params} {m : Mem} {k : ℤ} {b : ℕ}

/-- a try up to its walk -/
theorem try_start (hb : hashCode k m.tableSize = b) (hfree : m.mtx (lockKey P b) = none) (retry : ℕ) :
    Path (alone P) (ReadsOk checked) (m, .size (.delete k) retry) (taken P m b, .first (.delete k retry) b) := by
  have hsize : alone P (m, .size (.delete k) retry) = (m, .hash (.delete k) retry m.tableSize) := rfl
  have hhash : alone P (m, .hash (.delete k) retry m.tableSize) = (m, .lockB (.delete k) retry m.tableSize b) := by
    rw [← hb]; rfl
  have hlock : alone P (m, .lockB (.delete k) retry m.tableSize b) =
      (taken P m b, .recheck (.delete k) retry m.tableSize b) := if_pos hfree
  have hre : alone P (taken P m b, .recheck (.delete k) retry m.tableSize b) =
      (taken P m b, .first (.delete k retry) b) := if_pos rfl
  exact .cons (readsOk rfl) hsize (.cons (readsOk rfl) hhash
    (.cons (readsOk rfl) hlock (.cons (readsOk rfl) hre .refl)))

/-- the end of a try that has not found the key -/
theorem try_end (hfree : m.mtx (lockKey P b) = none) (retry : ℕ) :
    alone P (taken P m b, .unlockRetry (.delete k) retry b) =
      (m, if 0 < retry then .size (.delete k) (retry - 1) else .ret (.delete k) (.delete none)) := by
  have hback : unlock P (taken P m b) b = m := by
    unfold unlock taken setMtx
    simp only [Function.update_idem]
    rw [← hfree, Function.update_eq_self]
  change (unlock P (taken P m b) b, _) = _
  rw [hback]
  rfl

theorem tries (hb : hashCode k m.tableSize = b) (hfree : m.mtx (lockKey P b) = none) :
    Tries (alone P) (ReadsOk checked) (nx m) (ky m) k (m.list m.bucket b) (fun r => (m, .size (.delete k) r))
      (fun r => (taken P m b, .first (.delete k r) b))
      (fun r => (taken P m b, .unlockRetry (.delete k) r b))
      (fun r p c => (taken P m b, .test (.delete k r) b p c))
      (fun r p c => (taken P m b, .check (.delete k r) b p c))
      (fun r c => (taken P m b, .next (.delete k r) b c)) (m, .ret (.delete k) (.delete none)) where
  starts := try_start hb hfree
  ends r := .cons (readsOk rfl) ((try_end hfree r).trans (by split_ifs <;> rfl)) .refl
  first_eq r := by
    change (_, afterFirst (.delete k r) b (m.list m.bucket b) (nx m (m.list m.bucket b))) = _
    exact apply_ite (Prod.mk _) _ _ _
  test_eq r p c := rfl
  next_eq r c := rfl
  check_eq r p c hc := by
    change (_, afterCheck (.delete k r) b p c (decide (c ≠ NULL ∧ k = ky m c))) = _
    rw [decide_eq_false fun h => hc h.2.symm]
    rfl
  oks := ⟨fun _ => readsOk rfl, fun _ _ _ => readsOk rfl, fun _ _ => readsOk rfl⟩
  reads r p c := Option.some_injective _ |>.ne_iff

/-- **Harmless** iff the walk stops in time. -/
theorem Live.harmless_iff {g : Ghost} (hL : Live g m) (hb : b < m.tableSize) (hk : hashCode k m.tableSize = b)
    (hfree : m.mtx (lockKey P b) = none) (habs : (contents m).Absent k) :
    Harmless P m k ↔ Stops ((nodes m b).map (ky m)) k := by
  have hnodes : Lacks (nx m) (ky m) k (m.list m.bucket b) (nodes m b) :=
    ⟨fun a ha => ((hL.mem_nodes hb a).1 ha).2.2, hL.nodes_linked hb, fun _ => habs.node rfl hb⟩
  have T := tries (P := P) hk hfree
  constructor
  · rintro ⟨m', hp, -⟩
    exact T.stops hnodes hp rfl fun _ _ => nofun
  · intro hs
    exact ⟨m, T.path hnodes 2 hs, .refl _⟩

theorem harmless_iff (P : Params) (as : List Act) (hrest : ¬ table.Busy (((sys P).run (as.map fun a => (0, a))).loc 0))
    (hm : m = ((sys P).run (as.map fun a => (0, a))).sh) (hk : 0 ≤ k) (habs : (contents m).Absent k) :
    Harmless P m k ↔ Stops ((nodes m (hashCode k m.tableSize)).map (ky m)) k := by
  subst hm
  obtain ⟨g, hI, hA, -⟩ := inv_run (P := P) (as.map fun a => (0, a))
  have hidle : ∀ t, ¬ table.Busy (((sys P).run (as.map fun a => (0, a))).loc t) := by
    refine (sys P).run_loc_of_lt (Q := fun l => ¬ table.Busy l) (n := 1) (fun x hx => ?_) (fun ⟨op, h⟩ => nomatch h) ?_
    · obtain ⟨a, -, rfl⟩ := List.mem_map.1 hx
      exact Nat.zero_lt_one
    · intro t ht
      rw [Nat.lt_one_iff.1 ht]
      exact hrest
  have hL := hI.live (no_mig_of_rest hA fun t => not_resizing_of_not_busy (hidle t))
  exact hL.harmless_iff (hashCode_lt hk hI.pos hI.lt) rfl (unlocked_of_idle _ hidle _) habs

end Tries

end StripedHash

/-! ## `RefinableHash` -/

namespace RefinableHash

def contents (m : Mem) : Contents := ⟨m.tableSize, m.setSize, fun b => (nodes m b).map fun a => (ky m a, vl m a)⟩

/-- the steps of thread 0 when the others take none -/
def alone (s : Mem × Loc) : Mem × Loc := exec 0 s.1 s.2

/-- the node whose key `delete` is about to read -/
def checked : Loc → Option ℕ
  | .check (.delete _ _ _) _ _ curr => some curr
  | _ => none

/-- `delete` returns false without reading through NULL and changes nothing -/
def Harmless (m : Mem) (k : ℤ) : Prop :=
  ∃ m', Path alone (ReadsOk checked) (m, start (.delete k)) (m', .ret (.delete k) (.delete none)) ∧
    (contents m).Same (contents m')

/-- thread 0 has the mutex of bucket b -/
abbrev taken (m : Mem) (b : ℕ) : Mem := setMutex m (mtxOf m b) (.live (some 0))

section Tries

variable {m : Mem} {k : ℤ} {b : ℕ}

variable (hb : hashCode k m.tableSize = b)

include hb

/-- a try up to its lock -/
theorem try_lock (retry : ℕ) :
    Path alone (ReadsOk checked) (m, .size (.delete k) retry) (m, .lock3 (.upd (.delete k) retry m.tableSize) b (mtxOf m b)) := by
  have hsize : alone (m, .size (.delete k) retry) = (m, .hash (.delete k) retry m.tableSize) := rfl
  have hhash : alone (m, .hash (.delete k) retry m.tableSize) = (m, .lock1 (.upd (.delete k) retry m.tableSize) b) := by
    rw [← hb]; rfl
  have hlock1 : alone (m, .lock1 (.upd (.delete k) retry m.tableSize) b) =
      (m, .lock2 (.upd (.delete k) retry m.tableSize) b m.bucket) := rfl
  have hlock2 : alone (m, .lock2 (.upd (.delete k) retry m.tableSize) b m.bucket) =
      (m, .lock3 (.upd (.delete k) retry m.tableSize) b (mtxOf m b)) := rfl
  exact .cons (readsOk rfl) hsize (.cons (readsOk rfl) hhash
    (.cons (readsOk rfl) hlock1 (.cons (readsOk rfl) hlock2 .refl)))

variable (hfree : m.mutex (mtxOf m b) = .live none)

include hfree

/-- a try up to its walk -/
theorem try_start (retry : ℕ) : Path alone (ReadsOk checked) (m, .size (.delete k) retry)
      (taken m b, .first (.delete k retry (mtxOf m b)) b) := by
  have hlock : alone (m, .lock3 (.upd (.delete k) retry m.tableSize) b (mtxOf m b)) =
      (taken m b, .recheck (.delete k) retry m.tableSize b (mtxOf m b)) := if_pos hfree
  have hre : alone (taken m b, .recheck (.delete k) retry m.tableSize b (mtxOf m b)) =
      (taken m b, .first (.delete k retry (mtxOf m b)) b) := if_pos rfl
  exact (try_lock hb retry).trans (.cons (readsOk rfl) hlock (.cons (readsOk rfl) hre .refl))

omit hb in
/-- the end of a try that has not found the key -/
theorem try_end (retry : ℕ) :
    Path alone (ReadsOk checked) (taken m b, .unlock1 (.retry (.delete k) retry (mtxOf m b)) b)
      (m, if 0 < retry then .size (.delete k) (retry - 1) else .ret (.delete k) (.delete none)) := by
  have hback : setMutex (taken m b) (mtxOf m b) (.live none) = m := by
    unfold taken setMutex
    simp only [Function.update_idem]
    rw [← hfree, Function.update_eq_self]
  have hlive : (taken m b).mutex (mtxOf m b) = .live (some 0) := Function.update_self ..
  have hunlock : alone (taken m b,
      .unlock3 (.retry (.delete k) retry (mtxOf m b)) b (mtxOf m b)) =
      (m, if 0 < retry then .size (.delete k) (retry - 1) else .ret (.delete k) (.delete none)) := by
    simp only [alone, exec, unlock, hlive, hback]
    rfl
  have h1 : alone (taken m b, .unlock1 (.retry (.delete k) retry (mtxOf m b)) b) =
      (taken m b, .unlock2 (.retry (.delete k) retry (mtxOf m b)) b m.bucket) := rfl
  have h2 : alone (taken m b, .unlock2 (.retry (.delete k) retry (mtxOf m b)) b m.bucket) =
      (taken m b, .unlock3 (.retry (.delete k) retry (mtxOf m b)) b (mtxOf m b)) := rfl
  exact .cons (readsOk rfl) h1 (.cons (readsOk rfl) h2
    (.cons (readsOk rfl) hunlock .refl))

theorem tries : Tries alone (ReadsOk checked) (nx m) (ky m) k (m.list m.bucket b).head (fun r => (m, .size (.delete k) r))
      (fun r => (taken m b, .first (.delete k r (mtxOf m b)) b))
      (fun r => (taken m b, .unlock1 (.retry (.delete k) r (mtxOf m b)) b))
      (fun r p c => (taken m b, .test (.delete k r (mtxOf m b)) b p c))
      (fun r p c => (taken m b, .check (.delete k r (mtxOf m b)) b p c))
      (fun r c => (taken m b, .next (.delete k r (mtxOf m b)) b c))
      (m, .ret (.delete k) (.delete none)) where
  starts := try_start hb hfree
  ends r := by
    have hend := try_end (k := k) hfree r
    split_ifs at hend ⊢ <;> exact hend
  first_eq r := by
    change (_, afterFirst (.delete k r (mtxOf m b)) b (m.list m.bucket b).head (nx m (m.list m.bucket b).head)) = _
    exact apply_ite (Prod.mk _) _ _ _
  test_eq r p c := rfl
  next_eq r c := rfl
  check_eq r p c hc := by
    change (_, afterCheck (.delete k r (mtxOf m b)) b p c (decide (c ≠ NULL ∧ k = ky m c))) = _
    rw [decide_eq_false fun h => hc h.2.symm]
    rfl
  oks := ⟨fun _ => readsOk rfl, fun _ _ _ => readsOk rfl, fun _ _ => readsOk rfl⟩
  reads r p c := Option.some_injective _ |>.ne_iff

omit hfree

/-- in the lower half after a `resize`, `delete` does not get past its lock -/
theorem not_harmless_of_destroyed (hdead : m.mutex (mtxOf m b) = .destroyed) : ¬ Harmless m k := by
  rintro ⟨m', hp, -⟩
  have hstuck : alone (m, .lock3 (.upd (.delete k) 2 m.tableSize) b (mtxOf m b)) =
      (m, .lock3 (.upd (.delete k) 2 m.tableSize) b (mtxOf m b)) := if_neg (by rw [hdead]; exact nofun)
  refine hp.not_of_trap (fun s => s = (m, .lock3 (.upd (.delete k) 2 m.tableSize) b (mtxOf m b)))
    ((try_lock hb 2).mono fun _ _ => trivial) rfl (fun s hs => ?_) rfl nofun
  rw [hs]
  exact hstuck

omit hb

theorem harmless_iff (P : Params) (as : List Act) (hops : ∀ op, .invoke op ∈ as → 0 ≤ op.key)
    (hrest : outside (((sys P).run (as.map fun a => (0, a))).loc 0) = true)
    (hm : m = ((sys P).run (as.map fun a => (0, a))).sh) (hk : 0 ≤ k) (habs : (contents m).Absent k) :
    Harmless m k ↔ m.oldTableSize ≤ hashCode k m.tableSize ∧
      Stops ((nodes m (hashCode k m.tableSize)).map (ky m)) k := by
  obtain ⟨hT, hdead, hown, H, hL⟩ := alone_rest P as hops hrest
  rw [← hm] at hT hdead hown hL
  generalize hb : hashCode k m.tableSize = b
  have hlt : b < m.tableSize := hb ▸ hashCode_lt hk hT.pos hT.lt
  by_cases hup : m.oldTableSize ≤ b
  · have hfree : m.mutex (mtxOf m b) = .live none := by
      obtain ⟨-, o, ho⟩ := hT.live b hup hlt
      cases o with
      | none => exact ho
      | some o => exact absurd ho (hown _ o)
    have hnodes : Lacks (nx m) (ky m) k (m.list m.bucket b).head (nodes m b) :=
      ⟨Rising.walk_ne _, hL.rising.walk_linked _, fun _ => habs.node rfl hlt⟩
    have T := tries hb hfree
    constructor
    · rintro ⟨m', hp, -⟩
      exact ⟨hup, T.stops hnodes hp rfl fun _ _ => nofun⟩
    · rintro ⟨-, hs⟩
      exact ⟨m, T.path hnodes 2 hs, .refl _⟩
  · exact iff_of_false (not_harmless_of_destroyed hb (hdead b (not_le.1 hup))) fun h => hup h.1

end Tries

end RefinableHash

/-! ## The three tables -/

section Tables

/-- **Deleting an absent key** from a table at rest is harmless iff the walk along its bucket stops in time; in
`RefinableHash` the mutex of the bucket must not be one that a `resize` has destroyed. -/
theorem Chained.delete_absent_harmless_iff (k : ℤ) :
    (∀ n, 1 ≤ n → n < 2 ^ 32 → ∀ ops : List Op, (∀ op ∈ ops, 0 ≤ op.key) →
      ∀ m rs, Hash.run (Hash.initHashtable n) ops = .ok (m, rs) → 0 ≤ k → (Hash.contents m).Absent k →
      (Hash.Harmless m k ↔ Stops ((Hash.nodes m (hashCode k m.tableSize)).map (Hash.ky m)) k)) ∧
    (∀ (P : StripedHash.Params) (as : List StripedHash.Act),
      ¬ StripedHash.table.Busy (((StripedHash.sys P).run (as.map fun a => (0, a))).loc 0) →
      ∀ m, m = ((StripedHash.sys P).run (as.map fun a => (0, a))).sh → 0 ≤ k → (StripedHash.contents m).Absent k →
      (StripedHash.Harmless P m k ↔
        Stops ((StripedHash.nodes m (hashCode k m.tableSize)).map (StripedHash.ky m)) k)) ∧
    (∀ (P : RefinableHash.Params) (as : List RefinableHash.Act), (∀ op, .invoke op ∈ as → 0 ≤ op.key) →
      RefinableHash.outside (((RefinableHash.sys P).run (as.map fun a => (0, a))).loc 0) = true →
      ∀ m, m = ((RefinableHash.sys P).run (as.map fun a => (0, a))).sh → 0 ≤ k → (RefinableHash.contents m).Absent k →
      (RefinableHash.Harmless m k ↔ m.oldTableSize ≤ hashCode k m.tableSize ∧
        Stops ((RefinableHash.nodes m (hashCode k m.tableSize)).map (RefinableHash.ky m)) k)) := by
  refine ⟨?_, ?_, ?_⟩
  · intro n hn hlt ops hops m rs hr hk habs
    exact Hash.harmless_iff hn hlt hops hr hk habs
  · intro P as hrest m hm hk habs
    exact StripedHash.harmless_iff P as hrest hm hk habs
  · intro P as hops hrest m hm hk habs
    exact RefinableHash.harmless_iff P as hops hrest hm hk habs

theorem StripedHash.one_lt : 1 < 2 ^ 32 := by decide

/-- one bucket, and `add` of the key 1 -/
def StripedHash.oneAdded : Mem × Loc :=
  let s := (sys ⟨1, Nat.one_pos, one_lt⟩).run ((.invoke (.add 1 10) :: List.replicate 20 .step).map fun a => (0, a))
  (s.sh, s.loc 0)

/-- one bucket, and `add` of the key 1 -/
def RefinableHash.oneAdded : Mem × Loc :=
  let s := (sys oneBucket).run ((.invoke (.add 1 10) :: List.replicate 24 .step).map fun a => (0, a))
  (s.sh, s.loc 0)

/-- the bucket has the key 1 only, and `delete` of the key 0 stops there -/
theorem Chained.smaller_key_harmless :
    (∃ m rs, Hash.run (Hash.initHashtable 1) [.add 1 10] = .ok (m, rs) ∧ Hash.Harmless m 0) ∧
    StripedHash.Harmless ⟨1, by decide, by decide⟩ StripedHash.oneAdded.1 0 ∧
    RefinableHash.Harmless RefinableHash.oneAdded.1 0 := by
  obtain ⟨hash, striped, refinable⟩ := delete_absent_harmless_iff 0
  have hstop : ((Hash.run (Hash.initHashtable 1) [.add 1 10]).toOption.any fun x => decide ((Hash.contents x.1).Absent 0 ∧
      Stops ((Hash.nodes x.1 (hashCode 0 x.1.tableSize)).map (Hash.ky x.1)) 0)) = true := by decide +kernel
  have hrest : StripedHash.oneAdded.2 = .ret (.add 1 10) (.add true) := by decide +kernel
  refine ⟨?_, ?_, ?_⟩
  · cases hr : Hash.run (Hash.initHashtable 1) [.add 1 10] with
    | error e => rw [hr] at hstop; cases hstop
    | ok x =>
      rw [hr] at hstop
      obtain ⟨habs, hs⟩ := of_decide_eq_true hstop
      exact ⟨x.1, x.2, rfl, (hash 1 le_rfl (by decide) _ (by decide) x.1 x.2 hr le_rfl habs).2 hs⟩
  · refine (striped _ (.invoke (.add 1 10) :: List.replicate 20 .step) ?_ _ rfl le_rfl (by decide +kernel)).2
      (by decide +kernel)
    change ¬ StripedHash.table.Busy StripedHash.oneAdded.2
    rw [hrest]
    rintro ⟨op, h⟩
    cases h
  · exact (refinable RefinableHash.oneBucket (.invoke (.add 1 10) :: List.replicate 24 .step) (by simp [Op.key])
      (by decide +kernel) _ rfl le_rfl (by decide +kernel)).2 (by decide +kernel)

/-- the bucket has the key 1 only, and `delete` of the key 2 reads `curr->key` for curr = NULL -/
theorem Chained.delete_reads_null :
    (∃ m rs, Hash.run (Hash.initHashtable 1) [.add 1 10] = .ok (m, rs) ∧ (Hash.contents m).Absent 2 ∧
      Hash.delete m 2 = .error .null) ∧
    (StripedHash.oneAdded.2 = .ret (.add 1 10) (.add true) ∧ (StripedHash.contents StripedHash.oneAdded.1).Absent 2 ∧
      ((StripedHash.alone ⟨1, by decide, by decide⟩)^[8] (StripedHash.oneAdded.1, StripedHash.start (.delete 2))).2 =
        .check (.delete 2 2) 0 2 NULL) ∧
    (RefinableHash.oneAdded.2 = .ret (.add 1 10) (.add true) ∧ (RefinableHash.contents RefinableHash.oneAdded.1).Absent 2 ∧
      (RefinableHash.alone^[10] (RefinableHash.oneAdded.1, RefinableHash.start (.delete 2))).2 =
        .check (.delete 2 2 1) 0 2 NULL) := by
  have hash : (match Hash.run (Hash.initHashtable 1) [.add 1 10] with
      | .ok x => decide ((Hash.contents x.1).Absent 2) && (Hash.delete x.1 2 matches .error .null)
      | .error _ => false) = true := by
    decide +kernel
  refine ⟨?_, ?_⟩
  · cases hr : Hash.run (Hash.initHashtable 1) [.add 1 10] with
    | error e => rw [hr] at hash; cases hash
    | ok x =>
      rw [hr] at hash
      obtain ⟨habs, hd⟩ := (Bool.and_eq_true _ _).mp hash
      refine ⟨x.1, x.2, rfl, of_decide_eq_true habs, ?_⟩
      revert hd
      split
      · exact fun _ => by assumption
      · exact nofun
  · decide +kernel

end Tables

end AlgorithmCollection
