/-
How the stores of `StripedHash` change the table.

`Live.link` and `Live.unlink`: the store of `add` that links its node and the store of `delete` that unlinks one, in a
table nobody migrates, with the record of the pair. `Mig.start`, `Moving.take`, `Moving.put` and `Mig.finish`: a migration,
from the new array with its empty lists, over the node that leaves its old list and enters a new one, to the table with
the new array alone. The pairs stored do not change in a migration. The lists themselves are those of `Conc.Resting`
(`Live.resting`) and `Conc.Migrating` (`Mig.lists`).
-/
import AlgorithmCollection.Hash.StripedHashInv

namespace AlgorithmCollection.StripedHash

open Conc Chained
open Function (update update_self update_of_ne update_eq_self comp_update)

variable {y : Option ℕ}

/-! ## Memory -/

section Memory

variable {m m' : Mem} {a p : ℕ}

theorem nx_setNext : nx (setNext m a p) = update (nx m) a p := comp_update Node.next m.node a _

@[simp] theorem ky_setNext : ky (setNext m a p) = ky m :=
  (comp_update Node.key m.node a _).trans (update_eq_self a (ky m))

@[simp] theorem vl_setNext : vl (setNext m a p) = vl m :=
  (comp_update Node.value m.node a _).trans (update_eq_self a (vl m))

/-- a store of the value that is there -/
theorem setNext_self (h : nx m a = p) : setNext m a p = m := by
  subst h
  unfold setNext nx
  rw [update_eq_self]

/-- the nodes, the arrays and the history are the same; locks and counter may differ -/
structure SameData (m m' : Mem) : Prop where
  node : m'.node = m.node
  list : m'.list = m.list
  bucket : m'.bucket = m.bucket
  tableSize : m'.tableSize = m.tableSize
  fresh : m'.fresh = m.fresh
  arrays : m'.arrays = m.arrays
  hist : m'.hist = m.hist

theorem SameData.nx (h : SameData m m') : nx m' = nx m := by funext a; unfold StripedHash.nx; rw [h.node]

theorem SameData.ky (h : SameData m m') : ky m' = ky m := by funext a; unfold StripedHash.ky; rw [h.node]

theorem SameData.vl (h : SameData m m') : vl m' = vl m := by funext a; unfold StripedHash.vl; rw [h.node]

end Memory

/-! ## Tables -/

section Table

variable {P : Params} {g g' : Ghost} {t : ℕ} {m m' : Mem} {A n b p c x : ℕ} {k v : ℤ}

theorem Stored.sameData (h : Stored g m y) (hd : SameData m m') : Stored g m' y where
  lists := by rw [hd.nx, hd.ky, hd.fresh]; exact h.lists
  nonneg := by rw [hd.ky]; exact h.nonneg
  rep := by rw [hd.ky, hd.vl, hd.hist]; exact h.rep

theorem Live.sameData (h : Live g m) (hd : SameData m m') : Live g m' where
  stored := h.stored.sameData hd
  heads := by rw [h.heads, hd.bucket, hd.tableSize, hd.list]
  table := by rw [hd.bucket, hd.tableSize, hd.list, hd.ky]; exact h.table

theorem Inv.sameData (h : Inv P g m) (hd : SameData m m') (hm : ∀ r, g.mig = some r → ∀ i < P.lockSize, m'.mtx i = some r) :
    Inv P g m' where
  dvd := by rw [hd.tableSize]; exact h.dvd
  pos := by rw [hd.tableSize]; exact h.pos
  lt := by rw [hd.tableSize]; exact h.lt
  fresh := by rw [hd.fresh]; exact h.fresh
  bucket := by rw [hd.bucket, hd.arrays]; exact h.bucket
  live hg := (h.live hg).sameData hd
  held := hm

theorem Live.resting (hL : Live g m) : Resting (nx m) (ky m) m.fresh (m.list m.bucket) (fun k => hashCode k m.tableSize)
    m.tableSize g.S g.D := ⟨hL.heads ▸ hL.stored.lists, hL.table⟩

/-- the bucket list of a live table -/
theorem Live.chain (hL : Live g m) (hb : b < m.tableSize) :
    BucketList (nx m) (ky m) (m.list m.bucket b) (g.S (m.list m.bucket b)) := hL.resting.chain hb

/-- a key that is not in its bucket is not in the table -/
theorem Live.absent (hL : Live g m) (hb : b < m.tableSize) (hk : hashCode k m.tableSize = b) (hw : Walk g m b k p)
    (hs : nx m p = NULL ∨ k < ky m (nx m p)) : ∀ a ∈ g.D, ky m a ≠ k := hL.resting.absent hb hk hw hs

/-- the node at which a walk has stopped carries data -/
theorem Live.curr_data (hL : Live g m) (hb : b < m.tableSize) (ha : At g m b k p c) (hc : c ≠ NULL) :
    c ∈ g.S (m.list m.bucket b) ∧ c ∈ g.D := by
  obtain ⟨h1, h2⟩ := (hL.chain hb).succ ha.walk.mem ha.walk.ne
  rw [ha.next] at h1 h2
  exact ⟨h1, (hL.stored.lists.data c).2 (.inl ⟨_, hL.head_mem hb, h1, h2, hc⟩)⟩

/-- the ghost after n has been linked into the list of h -/
def Ghost.link (g : Ghost) (h n : ℕ) : Ghost :=
  { g with S := update g.S h (insert n (g.S h)), D := insert n g.D }

/-- the ghost after c has been unlinked from the list of h -/
def Ghost.unlink (g : Ghost) (h c : ℕ) : Ghost :=
  { g with S := update g.S h ((g.S h).erase c), D := g.D.erase c }

/-- **`pred->next = newNode` of `add`.** -/
theorem Live.link (hL : Live g m) (hb : b < m.tableSize) (hk : 0 ≤ k) (hh : hashCode k m.tableSize = b)
    (ho : Own g m n k v (nx m p)) (hw : Walk g m b k p) (hs : nx m p = NULL ∨ k < ky m (nx m p)) :
    Live (g.link (m.list m.bucket b) n) (addHist (setNext m p n) (.link k v)) := by
  have hH := hL.head_mem hb
  have hnew := hL.absent hb hh hw hs
  have hw' : Before (ky m) (m.list m.bucket b) (g.S (m.list m.bucket b)) (ky m n) p := ho.key ▸ hw
  have hne : n ≠ p := by
    rintro rfl
    rcases hL.stored.lists.mem_cases hH hw.mem with h1 | h1 | h1
    · exact ho.not_head (h1 ▸ hH)
    · exact ho.ne h1
    · exact ho.not_data h1
  have hB := hL.stored.lists.link hH hw' (ho.key ▸ hs) ho.ne ho.lt ho.not_data ho.not_head
    (fun a ha => ho.key ▸ hnew a ha)
    (show update (nx m) p n p = n from update_self ..)
    (show update (nx m) p n n = nx m p by rw [update_of_ne hne]; exact ho.next)
    fun a h1 _ => update_of_ne h1 ..
  have hky : ky (addHist (setNext m p n) (.link k v)) = ky m := ky_setNext
  have hvl : vl (addHist (setNext m p n) (.link k v)) = vl m := vl_setNext
  have hnx : nx (addHist (setNext m p n) (.link k v)) = update (nx m) p n := nx_setNext
  refine ⟨⟨?_, fun a ha => ?_, ?_⟩, hL.heads, ?_⟩
  · rw [hky, hnx]; exact hB
  · rw [hky]
    rcases Finset.mem_insert.1 ha with rfl | ha
    · rw [ho.key]; exact hk
    · exact hL.stored.nonneg a ha
  · rw [hky, hvl]
    change Rep (insert n g.D) (ky m) (vl m) (replay (m.hist ++ [.link k v]))
    rw [replay_snoc_link, ← ho.key, ← ho.val]
    exact hL.stored.rep.insert fun a ha => ho.key ▸ hnew a ha
  · rw [hky]
    exact hL.table.link hb (by rw [ho.key]; exact hh)

/-- **`pred->next = curr->next` of `delete`.** -/
theorem Live.unlink (hL : Live g m) (hb : b < m.tableSize) (ha : At g m b k p c) (hc : c ≠ NULL) (hk : ky m c = k) :
    Live (g.unlink (m.list m.bucket b) c) (addHist (setNext m p (nx m c)) (.unlink k)) := by
  have hH := hL.head_mem hb
  obtain ⟨-, hD⟩ := hL.curr_data hb ha hc
  obtain ⟨hw, rfl⟩ := ha
  have hB := hL.stored.lists.unlink hH hw.mem hw.ne hc
    (show update (nx m) p (nx m (nx m p)) p = _ from update_self ..)
    fun a h1 => update_of_ne h1 ..
  have hky : ky (addHist (setNext m p (nx m (nx m p))) (.unlink k)) = ky m := ky_setNext
  have hvl : vl (addHist (setNext m p (nx m (nx m p))) (.unlink k)) = vl m := vl_setNext
  have hnx : nx (addHist (setNext m p (nx m (nx m p))) (.unlink k)) = update (nx m) p (nx m (nx m p)) :=
    nx_setNext
  refine ⟨⟨?_, fun a ha => ?_, ?_⟩, hL.heads, ?_⟩
  · rw [hky, hnx]; exact hB
  · rw [hky]; exact hL.stored.nonneg a (Finset.mem_of_mem_erase ha)
  · rw [hky, hvl]
    change Rep (g.D.erase (nx m p)) (ky m) (vl m) (replay (m.hist ++ [.unlink k]))
    rw [replay_snoc_unlink, ← hk]
    exact hL.stored.rep.erase fun a ha e => hL.stored.lists.inj a ha _ hD e
  · exact hL.table.sub (fun _ _ => rfl) (fun _ _ _ _ => by rw [hky]) fun _ _ _ ha => Buckets.mem_of_unlink ha

/-- a store to a node in no list, or an allocation -/
theorem Stored.outside (h : Stored g m y) (hn : ∀ a < m.fresh, nx m' a = nx m a ∨ a ≠ NULL ∧ ∀ h ∈ g.H, a ∉ g.S h)
    (hk : ∀ a < m.fresh, ky m' a = ky m a) (hv : ∀ a < m.fresh, vl m' a = vl m a) (hf : m.fresh ≤ m'.fresh)
    (hh : m'.hist = m.hist) : Stored g m' y where
  lists := h.lists.congr (fun h' hh' a ha _ => (hn a (h.lists.lt h' hh' a ha)).resolve_right fun h1 => h1.2 h' hh' ha) hk hf
  nonneg a ha := by rw [hk a (h.lists.data_lt ha)]; exact h.nonneg a ha
  rep := by
    rw [hh]
    exact h.rep.congr (fun a ha => hk a (h.lists.data_lt ha)) fun a ha => hv a (h.lists.data_lt ha)

theorem Live.outside (hL : Live g m)
    (hn : ∀ a < m.fresh, nx m' a = nx m a ∨ a ≠ NULL ∧ ∀ h ∈ g.H, a ∉ g.S h)
    (hk : ∀ a < m.fresh, ky m' a = ky m a) (hv : ∀ a < m.fresh, vl m' a = vl m a) (hf : m.fresh ≤ m'.fresh)
    (hh : m'.hist = m.hist) (hl : m'.list = m.list) (hb : m'.bucket = m.bucket) (hs : m'.tableSize = m.tableSize) :
    Live g m' where
  stored := hL.stored.outside hn hk hv hf hh
  heads := by rw [hL.heads, hb, hs, hl]
  table := by
    rw [hb, hs]
    exact hL.table.sub (fun _ _ => by rw [hl]) (fun b hb a ha => hk a (hL.stored.lists.lt _ (hL.head_mem hb) a ha))
      fun _ _ _ ha => ha

end Table

/-! ## Migration -/

section Migration

variable {P : Params} {g : Ghost} {t a : ℕ} {m m' : Mem} {n b p c i pred : ℕ} {x : Option ℕ}

/-- everything but the links of nodes and the locks is the same -/
structure SameRest (m m' : Mem) : Prop where
  ky : ky m' = ky m
  vl : vl m' = vl m
  list : m'.list = m.list
  bucket : m'.bucket = m.bucket
  tableSize : m'.tableSize = m.tableSize
  oldBucket : m'.oldBucket = m.oldBucket
  oldTableSize : m'.oldTableSize = m.oldTableSize
  fresh : m'.fresh = m.fresh
  hist : m'.hist = m.hist

theorem sameRest_setNext {q : ℕ} : SameRest m (setNext m a q) :=
  ⟨ky_setNext, vl_setNext, rfl, rfl, rfl, rfl, rfl, rfl, rfl⟩

theorem SameRest.trans {m1 m2 m3 : Mem} (h : SameRest m1 m2) (h' : SameRest m2 m3) : SameRest m1 m3 :=
  ⟨h'.ky.trans h.ky, h'.vl.trans h.vl, h'.list.trans h.list, h'.bucket.trans h.bucket, h'.tableSize.trans h.tableSize,
    h'.oldBucket.trans h.oldBucket, h'.oldTableSize.trans h.oldTableSize, h'.fresh.trans h.fresh, h'.hist.trans h.hist⟩

/-- the lists of a migration, with new node sets S and the node y in no list -/
theorem Mig.update {S : ℕ → Finset ℕ} (hM : Mig g t m n i x) (hr : SameRest m m')
    (h : Migrating (nx m') (ky m) m.fresh (m.list m.oldBucket) (fun k => hashCode k m.oldTableSize) m.oldTableSize
      (m.list m.bucket) (fun k => hashCode k n) n i S g.D y) : Mig { g with S := S } t m' n i y where
  mig := hM.mig
  size := by rw [hr.oldTableSize]; exact hM.size
  pos := by rw [hr.oldTableSize]; exact hM.pos
  stored := ⟨by rw [hr.ky, hr.fresh, hM.heads]; exact h.lists, by rw [hr.ky]; exact hM.stored.nonneg,
    by rw [hr.ky, hr.vl, hr.hist]; exact hM.stored.rep⟩
  heads := by rw [hr.oldBucket, hr.oldTableSize, hr.bucket, hr.list]; exact hM.heads
  lists := by rw [hr.ky, hr.fresh, hr.oldBucket, hr.oldTableSize, hr.bucket, hr.list]; exact h

theorem Mig.old_mem (hM : Mig g t m n i x) (hi : i < m.oldTableSize) : m.list m.oldBucket i ∈ g.H :=
  hM.heads ▸ .inl ⟨i, hi, rfl⟩

theorem Mig.new_mem (hM : Mig g t m n i x) (hb : b < n) : m.list m.bucket b ∈ g.H := hM.heads ▸ .inr ⟨b, hb, rfl⟩

/-- **`pred->next = curr->next` of `resize`**: the first node of an old list is in no list now. -/
theorem Moving.take (hM : Moving g t m i pred none) (hc : nx m pred ≠ NULL) :
    Moving { g with S := update g.S pred ((g.S pred).erase (nx m pred)) } t
      (setNext m pred (nx m (nx m pred))) i pred (some (nx m pred)) := by
  obtain ⟨hM, hi, rfl⟩ := hM
  refine ⟨hM.update sameRest_setNext ?_, hi, rfl⟩
  rw [nx_setNext]
  exact hM.lists.take hi hc (update_self ..) fun a h1 => update_of_ne h1 ..

/-- **The node has been put into the bucket of its key** in the new array, after p. -/
theorem Moving.put (hM : Moving g t m i pred (some n)) (hb : b < m.tableSize) (hh : hashCode (ky m n) m.tableSize = b)
    (hw : Walk g m b (ky m n) p) (hs : nx m p = NULL ∨ ky m n < ky m (nx m p)) (hr : SameRest m m') (e1 : nx m' p = n)
    (e2 : nx m' n = nx m p) (e3 : ∀ a, a ≠ p → a ≠ n → nx m' a = nx m a) :
    Moving { g with S := update g.S (m.list m.bucket b) (insert n (g.S (m.list m.bucket b))) } t m' i pred
      none := by
  obtain ⟨hM, hi, hp⟩ := hM
  refine ⟨?_, by rw [hr.oldTableSize]; exact hi, by rw [hr.list, hr.oldBucket]; exact hp⟩
  rw [hr.tableSize]
  exact hM.update hr (hM.lists.put hb hh hw hs e1 e2 e3)

/-- a store to the node in no list -/
theorem Moving.setOut (hM : Moving g t m i pred (some n)) (q : ℕ) : Moving g t (setNext m n q) i pred (some n) := by
  obtain ⟨hM, hi, hp⟩ := hM
  refine ⟨hM.update sameRest_setNext (hM.lists.changed ?_ (fun _ _ _ ha => ha) hM.lists.hashedN), hi, hp⟩
  refine hM.lists.lists.congr (fun h hh a ha _ => ?_) (fun _ _ => rfl) le_rfl
  rw [nx_setNext, update_of_ne]
  rintro rfl
  exact (hM.lists.lists.out a rfl).2.2 h hh ha

/-- an old list is done when its head has no successor -/
theorem Moving.nextList (hM : Moving g t m i pred none) (he : nx m pred = NULL) : Mig g t m m.tableSize (i + 1) none := by
  obtain ⟨hM, hi, rfl⟩ := hM
  exact { hM with lists := hM.lists.nextList hi he }

/-- **All old lists are done**: the new array alone holds the pairs. -/
theorem Mig.finish (hM : Mig g t m m.tableSize i none) (hi : m.oldTableSize ≤ i) :
    Live { g with H := headSet (m.list m.bucket) m.tableSize, mig := none } m := by
  obtain ⟨hlists, hhashed⟩ := hM.lists.finish hi
  exact ⟨⟨hlists, hM.stored.nonneg, hM.stored.rep⟩, rfl, hhashed⟩

/-! ### The new array -/

theorem node_initBucket_lt (h : a < m.fresh) : (initBucket m n).node a = m.node a :=
  if_neg fun hn => absurd h (not_lt.2 hn.1)

theorem nx_initBucket_new (h1 : m.fresh ≤ a) (h2 : a < m.fresh + n) : nx (initBucket m n) a = NULL :=
  congrArg Node.next (show (initBucket m n).node a = ⟨0, 0, NULL⟩ from if_pos ⟨h1, h2⟩)

theorem list_initBucket_new : (initBucket m n).list m.arrays = fun b => m.fresh + b := update_self ..

/-- the ghost with empty lists for the n new heads -/
noncomputable def Ghost.grow (g : Ghost) (t : ℕ) (m : Mem) (n : ℕ) : Ghost :=
  { g with
    H := g.H ∪ headSet (fun b => m.fresh + b) n
    S := Buckets.withEmpty g.S m.fresh
    mig := some t }

/-- **`init_bucket` of `resize`**: the migration starts, with all nodes in the old array. -/
theorem Mig.start (hL : Live g m) (hpos : 0 < m.fresh) (hts : 0 < m.tableSize) (harr : m.bucket < m.arrays)
    (e1 : m.oldTableSize = m.tableSize) (e2 : m.oldBucket = m.bucket) :
    Mig (g.grow t m (m.tableSize * 2)) t (initBucket m (m.tableSize * 2)) (m.tableSize * 2) 0 none := by
  have hold : (initBucket m (m.tableSize * 2)).list m.bucket = m.list m.bucket := update_of_ne harr.ne ..
  have hky : ∀ a < m.fresh, ky (initBucket m (m.tableSize * 2)) a = ky m a := fun a ha => by
    unfold ky; rw [node_initBucket_lt ha]
  have hnx : ∀ a < m.fresh, nx (initBucket m (m.tableSize * 2)) a = nx m a := fun a ha => by
    unfold nx; rw [node_initBucket_lt ha]
  have h := hL.resting.start hpos (fun k => hashCode k (m.tableSize * 2)) hnx hky fun a h1 h2 => nx_initBucket_new h1 h2
  have hheads : (g.grow t m (m.tableSize * 2)).H =
      headSet (m.list m.bucket) m.tableSize ∪ headSet (fun b => m.fresh + b) (m.tableSize * 2) := by rw [← hL.heads]; rfl
  have hlt := fun a => hL.stored.lists.data_lt (a := a)
  refine ⟨rfl, by rw [← e1]; rfl, show 0 < m.oldTableSize from e1 ▸ hts, ⟨hheads ▸ h.lists, fun a ha => ?_, ?_⟩, ?_, ?_⟩
  · rw [hky a (hlt a ha)]; exact hL.stored.nonneg a ha
  · exact hL.stored.rep.congr (fun a ha => hky a (hlt a ha)) fun a ha => by unfold vl; rw [node_initBucket_lt (hlt a ha)]
  · change _ = headSet ((initBucket m _).list m.oldBucket) m.oldTableSize ∪ headSet ((initBucket m _).list m.arrays) _
    rw [hheads, e1, e2, hold, list_initBucket_new]
  · change Migrating _ _ _ ((initBucket m _).list m.oldBucket) (fun k => hashCode k m.oldTableSize) m.oldTableSize
      ((initBucket m _).list m.arrays) _ _ _ _ _ _
    rw [e1, e2, hold, list_initBucket_new]
    exact h

end Migration

end AlgorithmCollection.StripedHash
