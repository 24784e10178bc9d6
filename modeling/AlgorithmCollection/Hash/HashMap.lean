/-
`Hash` is a finite map under any sequential history.

`Holds m M S D`: the lists S of the live array hold the nodes D, which carry the pairs of the map M, and the counter is
their number. One lemma per function says what it does to that: `add_holds`, `delete_holds`, `find_holds`, and
`resize_holds`, which follows the two loops of `resize` (`moveList_spec`, `moveLists_spec`) through a `Migrating` table.
`calls_map`: any sequence of calls on non-negative keys that deletes only stored keys gives the results of the finite map and leaves
a well-formed table, unless `table_size` wraps around.
-/
import AlgorithmCollection.Hash.Hash

namespace AlgorithmCollection.Hash

open Conc Chained
open Function (update update_self update_of_ne update_eq_self comp_update)

/-! ## Memory -/

section Memory

variable {m m' : Mem} {a p : ℕ}

theorem nx_setNext : nx (setNext m a p) = update (nx m) a p := comp_update Node.next m.node a _

theorem ky_setNext : ky (setNext m a p) = ky m :=
  (comp_update Node.key m.node a _).trans (update_eq_self a (ky m))

theorem vl_setNext : vl (setNext m a p) = vl m :=
  (comp_update Node.value m.node a _).trans (update_eq_self a (vl m))

/-- everything but the links of nodes is the same -/
structure SameRest (m m' : Mem) : Prop where
  ky : ky m' = ky m
  vl : vl m' = vl m
  list : m'.list = m.list
  bucket : m'.bucket = m.bucket
  tableSize : m'.tableSize = m.tableSize
  oldBucket : m'.oldBucket = m.oldBucket
  oldTableSize : m'.oldTableSize = m.oldTableSize
  setSize : m'.setSize = m.setSize
  fresh : m'.fresh = m.fresh
  arrays : m'.arrays = m.arrays

theorem SameRest.refl (m : Mem) : SameRest m m := ⟨rfl, rfl, rfl, rfl, rfl, rfl, rfl, rfl, rfl, rfl⟩

theorem sameRest_setNext : SameRest m (setNext m a p) :=
  ⟨ky_setNext, vl_setNext, rfl, rfl, rfl, rfl, rfl, rfl, rfl, rfl⟩

theorem SameRest.trans {m1 m2 m3 : Mem} (h : SameRest m1 m2) (h' : SameRest m2 m3) : SameRest m1 m3 :=
  ⟨h'.ky.trans h.ky, h'.vl.trans h.vl, h'.list.trans h.list, h'.bucket.trans h.bucket, h'.tableSize.trans h.tableSize,
    h'.oldBucket.trans h.oldBucket, h'.oldTableSize.trans h.oldTableSize, h'.setSize.trans h.setSize,
    h'.fresh.trans h.fresh, h'.arrays.trans h.arrays⟩

end Memory

/-! ## `add_node_op` -/

section AddNodeOp

variable {m : Mem} {h x : ℕ} {T : Finset ℕ}

/-- the node x has been linked after p -/
structure Linked (m m' : Mem) (p x : ℕ) : Prop where
  rest : SameRest m m'
  here : nx m' p = x
  node : nx m' x = nx m p
  other : ∀ a, a ≠ p → a ≠ x → nx m' a = nx m a

/-- **`add_node_op`** links the node at the place of its key, or finds the key in the list. -/
theorem addNodeOp_spec (hc : BucketList (nx m) (ky m) h T) (hh : h ≠ 0) (hlt : ∀ a ∈ T, a < m.fresh) (hx : x ∉ T) :
    ∃ p, Before (ky m) h T (ky m x) p ∧
      ((nx m p ≠ 0 ∧ ky m (nx m p) = ky m x ∧ addNodeOp m h x = .ok (m, false)) ∨
        ((nx m p = 0 ∨ ky m x < ky m (nx m p)) ∧ ∃ m', addNodeOp m h x = .ok (m', true) ∧ Linked m m' p x)) := by
  have hne : ∀ {p}, p ∈ T → x ≠ p := fun hp e => hx (e ▸ hp)
  unfold addNodeOp
  by_cases he : nx m h = NULL
  · refine ⟨h, hc.before_head hh, .inr ⟨.inl he, _, if_pos he, sameRest_setNext.trans sameRest_setNext, ?_, ?_, ?_⟩⟩
    · rw [nx_setNext, update_of_ne (hne hc.head_mem).symm, nx_setNext, update_self]
    · rw [nx_setNext, update_self, he]
    · intro a h1 h2
      rw [nx_setNext, update_of_ne h2, nx_setNext, update_of_ne h1]
  · rw [if_neg he]
    obtain ⟨p, h1, h2, h3⟩ := hc.seek_head hh hlt (ky m x)
    refine ⟨p, h2, ?_⟩
    rw [h1]
    by_cases hs : nx m p = NULL ∨ ky m x ≠ ky m (nx m p)
    · right
      refine ⟨?_, _, if_pos hs, sameRest_setNext.trans sameRest_setNext, ?_, ?_, ?_⟩
      · rcases h3 with h3 | h3
        · exact .inl h3
        · rcases hs with hs | hs
          · exact .inl hs
          · exact .inr (lt_of_le_of_ne h3 hs)
      · rw [nx_setNext, update_self]
      · rw [nx_setNext, update_of_ne (hne h2.mem), nx_setNext, update_self]
      · intro a h4 h5
        rw [nx_setNext, update_of_ne h4, nx_setNext, update_of_ne h5]
    · left
      have hs' := not_or.1 hs
      exact ⟨hs'.1, (not_not.1 hs'.2).symm, if_neg hs⟩

end AddNodeOp

/-! ## The invariant -/

/-- the live array as a table of lists -/
abbrev Live (m : Mem) (S : ℕ → Finset ℕ) (D : Finset ℕ) : Prop :=
  Resting (nx m) (ky m) m.fresh (m.list m.bucket) (fun k => hashCode k m.tableSize) m.tableSize S D

/-- both arrays, while the first i old lists have been moved -/
abbrev Moving (m : Mem) (i : ℕ) (S : ℕ → Finset ℕ) (D : Finset ℕ) (x : Option ℕ) : Prop :=
  Migrating (nx m) (ky m) m.fresh (m.list m.oldBucket) (fun k => hashCode k m.oldTableSize) m.oldTableSize
    (m.list m.bucket) (fun k => hashCode k m.tableSize) m.tableSize i S D x

structure Sizes (m : Mem) : Prop where
  pos : 0 < m.tableSize
  lt : m.tableSize < 2 ^ 32
  fresh : 0 < m.fresh
  bucket : m.bucket < m.arrays

theorem Sizes.rest {m m' : Mem} (h : Sizes m) (hr : SameRest m m') : Sizes m' :=
  ⟨by rw [hr.tableSize]; exact h.pos, by rw [hr.tableSize]; exact h.lt, by rw [hr.fresh]; exact h.fresh,
    by rw [hr.bucket, hr.arrays]; exact h.bucket⟩

/-- the nodes D carry the pairs of M -/
structure Pairs (m : Mem) (M : ℤ → Option ℤ) (D : Finset ℕ) : Prop where
  nonneg : ∀ a ∈ D, 0 ≤ ky m a
  rep : Rep D (ky m) (vl m) M

theorem Pairs.rest {m m' : Mem} {M : ℤ → Option ℤ} {D : Finset ℕ} (h : Pairs m M D) (hr : SameRest m m') : Pairs m' M D :=
  ⟨by rw [hr.ky]; exact h.nonneg, by rw [hr.ky, hr.vl]; exact h.rep⟩

structure Holds (m : Mem) (M : ℤ → Option ℤ) (S : ℕ → Finset ℕ) (D : Finset ℕ) : Prop where
  sizes : Sizes m
  live : Live m S D
  pairs : Pairs m M D
  count : m.setSize = D.card
  load : m.setSize ≤ 5 * m.tableSize

/-! ## `resize` -/

section Resize

variable {m m' : Mem} {i b c : ℕ} {S : ℕ → Finset ℕ} {D : Finset ℕ} {M : ℤ → Option ℤ}

/-- the same arrays with other links -/
theorem Moving.rest {x : Option ℕ} (hr : SameRest m m')
    (h : Migrating (nx m') (ky m) m.fresh (m.list m.oldBucket) (fun k => hashCode k m.oldTableSize) m.oldTableSize
      (m.list m.bucket) (fun k => hashCode k m.tableSize) m.tableSize i S D x) : Moving m' i S D x := by
  unfold Moving
  rw [hr.ky, hr.fresh, hr.list, hr.oldBucket, hr.oldTableSize, hr.bucket, hr.tableSize]
  exact h

/-- one round of the `while` loop of `resize` -/
theorem moveNode_spec (hs : Sizes m) (hM : Moving m i S D none) (hp : Pairs m M D) (hi : i < m.oldTableSize)
    (hc : nx m (m.list m.oldBucket i) = c) (hc0 : c ≠ NULL) :
    ∃ m' S', addNodeOp (setNext m (m.list m.oldBucket i) (nx m c)) (m.list m.bucket (hashCode (ky m c) m.tableSize)) c =
        .ok (m', true) ∧ SameRest m m' ∧ Moving m' i S' D none ∧
      S' (m.list m.oldBucket i) = (S (m.list m.oldBucket i)).erase c := by
  subst hc
  -- the node leaves its old list
  have hr1 : SameRest m (setNext m (m.list m.oldBucket i) (nx m (nx m (m.list m.oldBucket i)))) := sameRest_setNext
  have hM1 : Migrating (nx (setNext m (m.list m.oldBucket i) (nx m (nx m (m.list m.oldBucket i))))) _ _ _ _ _ _ _ _ _ _ _ _ :=
    hM.take hi hc0 (by rw [nx_setNext, update_self]) fun a h1 => by rw [nx_setNext, update_of_ne h1]
  generalize hcc : nx m (m.list m.oldBucket i) = c at *
  generalize hmm : setNext m (m.list m.oldBucket i) (nx m c) = m1 at *
  have hcD : c ∈ D := (hM1.lists.data c).2 (.inr rfl)
  have hb : hashCode (ky m c) m.tableSize < m.tableSize := hashCode_lt (hp.nonneg c hcD) hs.pos hs.lt
  generalize hbb : hashCode (ky m c) m.tableSize = b at *
  have hH : m.list m.bucket b ∈ headSet (m.list m.oldBucket) m.oldTableSize ∪ headSet (m.list m.bucket) m.tableSize :=
    Migrating.new_mem hb
  -- and enters the bucket of its key, which it is not in
  obtain ⟨p, hw, hcase⟩ := addNodeOp_spec (m := m1) (x := c) (by rw [hr1.ky]; exact hM1.lists.chain _ hH)
    (hM1.lists.pos _ hH) (by rw [hr1.fresh]; exact hM1.lists.lt _ hH) ((hM1.lists.out c rfl).2.2 _ hH)
  rw [hr1.ky] at hw hcase
  rcases hcase with ⟨h1, h2, -⟩ | ⟨h1, m2, h2, h3⟩
  · obtain ⟨h4, h5⟩ := (hM1.lists.chain _ hH).succ hw.mem hw.ne
    exact absurd h2.symm (hM1.not_found hb h4 h5 h1)
  · have hM2 := hM1.put hb hbb hw h1 h3.here h3.node h3.other
    refine ⟨m2, _, h2, hr1.trans h3.rest, Moving.rest (hr1.trans h3.rest) hM2, ?_⟩
    rw [update_of_ne (hM.apart i hi b hb), update_self]

/-- **The `while` loop** empties old list i. -/
theorem moveList_spec (f : ℕ) (hs : Sizes m) (hM : Moving m i S D none) (hp : Pairs m M D) (hi : i < m.oldTableSize)
    (hf : (S (m.list m.oldBucket i)).card ≤ f) :
    ∃ m' S', moveList m (m.list m.oldBucket i) f = .ok m' ∧ SameRest m m' ∧ Moving m' (i + 1) S' D none := by
  induction f generalizing m S with
  | zero =>
    have : m.list m.oldBucket i ∈ S (m.list m.oldBucket i) := hM.lists.head_mem (Migrating.old_mem hi)
    exact absurd (Finset.card_pos.2 ⟨_, this⟩) (by omega)
  | succ f ih =>
    unfold moveList
    by_cases he : nx m (m.list m.oldBucket i) = NULL
    · rw [if_pos he]
      exact ⟨m, S, rfl, .refl m, hM.nextList hi he⟩
    · rw [if_neg he]
      obtain ⟨m1, S1, h1, h2, h3, h4⟩ := moveNode_spec hs hM hp hi rfl he
      have hmem : nx m (m.list m.oldBucket i) ∈ S (m.list m.oldBucket i) :=
        ((hM.lists.chain _ (Migrating.old_mem hi)).succ (hM.lists.head_mem (Migrating.old_mem hi))
          (hM.lists.pos _ (Migrating.old_mem hi))).1
      have hcard := Finset.card_erase_of_mem hmem
      have e1 : m1.list m1.oldBucket i = m.list m.oldBucket i := by rw [h2.list, h2.oldBucket]
      obtain ⟨m2, S2, h5, h6, h7⟩ := ih (hs.rest h2) h3 (hp.rest h2) (by rw [h2.oldTableSize]; exact hi)
        (by rw [e1, h4, hcard]; omega)
      rw [h1]
      rw [e1] at h5
      exact ⟨m2, S2, h5, h2.trans h6, h7⟩

/-- **The `for` loop** empties all old lists. -/
theorem moveLists_spec (n : ℕ) (hs : Sizes m) (hM : Moving m i S D none) (hp : Pairs m M D)
    (hn : i + n = m.oldTableSize) :
    ∃ m' S', moveLists m i n = .ok m' ∧ SameRest m m' ∧ Moving m' m.oldTableSize S' D none := by
  induction n generalizing m i S with
  | zero =>
    obtain rfl : i = m.oldTableSize := by omega
    exact ⟨m, S, rfl, .refl m, hM⟩
  | succ n ih =>
    have hi : i < m.oldTableSize := by omega
    have hcard : (S (m.list m.oldBucket i)).card ≤ m.fresh := by
      have hsub : S (m.list m.oldBucket i) ⊆ Finset.range m.fresh := fun a ha =>
        Finset.mem_range.2 (hM.lists.lt _ (Migrating.old_mem hi) a ha)
      simpa using Finset.card_le_card hsub
    obtain ⟨m1, S1, h1, h2, h3⟩ := moveList_spec m.fresh hs hM hp hi hcard
    obtain ⟨m2, S2, h4, h5, h6⟩ := ih (hs.rest h2) h3 (hp.rest h2) (by rw [h2.oldTableSize]; omega)
    unfold moveLists
    rw [h1]
    rw [h2.oldTableSize] at h6
    exact ⟨m2, S2, h4, h2.trans h5, h6⟩

/-- the memory at the beginning of the `for` loop -/
def doubled (m : Mem) : Mem :=
  { initBucket { m with oldTableSize := m.tableSize, oldBucket := m.bucket } (m.tableSize * 2) with
    tableSize := m.tableSize * 2 }

theorem node_doubled {a : ℕ} (ha : a < m.fresh) : (doubled m).node a = m.node a :=
  if_neg fun hn => absurd ha (not_lt.2 hn.1)

theorem nx_doubled_new {a : ℕ} (h1 : m.fresh ≤ a) (h2 : a < m.fresh + m.tableSize * 2) : nx (doubled m) a = 0 :=
  congrArg Node.next (show (doubled m).node a = ⟨0, 0, NULL⟩ from if_pos ⟨h1, h2⟩)

theorem list_doubled_old (h : m.bucket < m.arrays) : (doubled m).list (doubled m).oldBucket = m.list m.bucket :=
  update_of_ne h.ne ..

theorem list_doubled_new : (doubled m).list (doubled m).bucket = fun b => m.fresh + b := update_self ..

/-- **The new array** has empty lists, and all nodes are in the old one. -/
theorem doubled_moving (hs : Sizes m) (hL : Live m S D) : Moving (doubled m) 0 (Buckets.withEmpty S m.fresh) D none := by
  unfold Moving
  rw [list_doubled_old hs.bucket, list_doubled_new]
  refine hL.start hs.fresh _ (fun a ha => ?_) (fun a ha => ?_) fun a => nx_doubled_new
  · unfold nx; rw [node_doubled ha]
  · unfold ky; rw [node_doubled ha]

theorem Pairs.doubled (hL : Live m S D) (hp : Pairs m M D) : Pairs (doubled m) M D where
  nonneg a ha := by unfold ky; rw [node_doubled (hL.lists.data_lt ha)]; exact hp.nonneg a ha
  rep := hp.rep.congr (fun a ha => by unfold ky; rw [node_doubled (hL.lists.data_lt ha)])
    fun a ha => by unfold vl; rw [node_doubled (hL.lists.data_lt ha)]

/-- **`resize`** keeps every pair, in twice as many buckets. -/
theorem resize_holds (h : Holds m M S D) (hlt : m.tableSize * 2 < 2 ^ 32) :
    ∃ m' S', resize m = .ok m' ∧ Holds m' M S' D ∧ m'.tableSize = m.tableSize * 2 ∧ m'.setSize = m.setSize := by
  have hs : Sizes (doubled m) := by
    refine ⟨?_, hlt, ?_, Nat.lt_succ_self _⟩
    · have := h.sizes.pos
      change 0 < m.tableSize * 2
      omega
    · exact Nat.lt_of_lt_of_le h.sizes.fresh (Nat.le_add_right _ _)
  obtain ⟨m', S', h1, h2, h3⟩ := moveLists_spec m.tableSize hs (doubled_moving h.sizes h.live) (h.pairs.doubled h.live)
    (show 0 + m.tableSize = m.tableSize by omega)
  have hold : m'.oldTableSize = m.tableSize := h2.oldTableSize
  refine ⟨m', S', ?_, ⟨hs.rest h2, h3.finish hold.le, (h.pairs.doubled h.live).rest h2, ?_, ?_⟩, h2.tableSize,
    h2.setSize⟩
  · unfold resize
    rw [if_pos hlt]
    exact h1
  · rw [h2.setSize]; exact h.count
  · rw [h2.setSize, h2.tableSize]
    have := h.load
    change m.setSize ≤ 5 * (m.tableSize * 2)
    omega

end Resize

/-! ## The calls -/

section Calls

variable {m : Mem} {M : ℤ → Option ℤ} {S : ℕ → Finset ℕ} {D : Finset ℕ} {k v : ℤ}

variable (h : Holds m M S D)

include h

variable (hk : 0 ≤ k)

include hk

theorem Holds.bucket_lt : hashCode k m.tableSize < m.tableSize :=
  hashCode_lt hk h.sizes.pos h.sizes.lt

theorem Holds.chain : BucketList (nx m) (ky m) (m.list m.bucket (hashCode k m.tableSize))
      (S (m.list m.bucket (hashCode k m.tableSize))) := h.live.chain (h.bucket_lt hk)

theorem Holds.nodes_lt : ∀ a ∈ S (m.list m.bucket (hashCode k m.tableSize)), a < m.fresh :=
  h.live.lists.lt _ (Resting.head_mem (h.bucket_lt hk))

/-- a walk for k ends at its node, or k is not stored -/
theorem Holds.search :
    ∃ p, Chain.seek (nx m) (ky m) k m.fresh (m.list m.bucket (hashCode k m.tableSize)) = some (p, nx m p) ∧
      Before (ky m) (m.list m.bucket (hashCode k m.tableSize)) (S (m.list m.bucket (hashCode k m.tableSize))) k p ∧
      ((nx m p ≠ NULL ∧ ky m (nx m p) = k ∧ nx m p ∈ D ∧ M k = some (vl m (nx m p))) ∨
        ((nx m p = NULL ∨ ky m (nx m p) ≠ k) ∧ M k = none)) := by
  have hb := h.bucket_lt hk
  obtain ⟨p, h1, h2, h3⟩ := (h.chain hk).seek_head (h.live.head_ne hb) (h.nodes_lt hk) k
  refine ⟨p, h1, h2, ?_⟩
  by_cases hf : nx m p ≠ NULL ∧ ky m (nx m p) = k
  · have hD := h.live.found hb h2.mem h2.ne hf.1
    exact .inl ⟨hf.1, hf.2, hD, by have := h.pairs.rep.holds hD; rwa [hf.2] at this⟩
  · right
    have hstop : nx m p = 0 ∨ k < ky m (nx m p) := by
      rcases h3 with h3 | h3
      · exact .inl h3
      · by_cases h0 : nx m p = 0
        · exact .inl h0
        · exact .inr (lt_of_le_of_ne h3 fun e => hf ⟨h0, e.symm⟩)
    refine ⟨?_, h.pairs.rep.absent (h.live.absent hb rfl h2 hstop)⟩
    by_cases h0 : nx m p = NULL
    · exact .inl h0
    · exact .inr fun e => hf ⟨h0, e⟩

/-- an empty bucket has no keys -/
theorem Holds.absent_of_empty (he : nx m (m.list m.bucket (hashCode k m.tableSize)) = NULL) : M k = none := by
  have hb := h.bucket_lt hk
  exact h.pairs.rep.absent (h.live.absent hb rfl ((h.chain hk).before_head (h.live.head_ne hb)) (.inl he))

/-- **`find`** says whether the key is stored. -/
theorem find_holds : find m k = .ok (M k).isSome := by
  unfold find findNode
  by_cases he : nx m (m.list m.bucket (hashCode k m.tableSize)) = NULL
  · rw [if_pos he, h.absent_of_empty hk he]; rfl
  · rw [if_neg he]
    obtain ⟨p, h1, -, h3⟩ := h.search hk
    rw [h1]
    rcases h3 with ⟨h4, h5, -, h6⟩ | ⟨h4, h5⟩
    · have hd : ¬ (nx m p = NULL ∨ k ≠ ky m (nx m p)) := by simp [h4, h5]
      simp only [decide_eq_true hd, h6, Option.isSome_some]
    · have hd : ¬ ¬ (nx m p = NULL ∨ k ≠ ky m (nx m p)) := not_not.2 (h4.imp id Ne.symm)
      simp only [decide_eq_false hd, h5, Option.isSome_none]

omit hk in
omit h in
/-- the table after a change of the links and of the count -/
theorem Holds.relinked {m' : Mem} {z : ℕ} (hs : Sizes m) (hr : SameRest m m')
    (hL : Resting (nx m') (ky m) m.fresh (m.list m.bucket) (fun k => hashCode k m.tableSize) m.tableSize S D)
    (hp : Pairs m M D) (hc : z = D.card) (hz : z ≤ 5 * m.tableSize) : Holds { m' with setSize := z } M S D := by
  obtain ⟨h1, h2, h3, h4⟩ := hs.rest hr
  obtain ⟨h5, h6⟩ := hp.rest hr
  refine ⟨⟨h1, h2, h3, h4⟩, ?_, ⟨h5, h6⟩, hc, ?_⟩
  · change Live m' S D
    unfold Live
    rw [hr.ky, hr.fresh, hr.list, hr.bucket, hr.tableSize]
    exact hL
  · change z ≤ 5 * m'.tableSize
    rw [hr.tableSize]
    exact hz

/-- **`delete`** of a stored key returns its value. -/
theorem delete_holds (hM : M k ≠ none) : ∃ m' S' D', delete m k = .ok (m', M k) ∧ Holds m' (update M k none) S' D' ∧
      m'.tableSize = m.tableSize ∧ m'.setSize < m.setSize := by
  have hb := h.bucket_lt hk
  have he : nx m (m.list m.bucket (hashCode k m.tableSize)) ≠ NULL := fun he => hM (h.absent_of_empty hk he)
  obtain ⟨p, h1, h2, h3⟩ := h.search hk
  obtain ⟨h4, h5, h6, h7⟩ := h3.resolve_right fun hn => hM hn.2
  have hdel : deleteNode m (m.list m.bucket (hashCode k m.tableSize)) k =
      .ok (setNext m p (nx m (nx m p)), some (vl m (nx m p))) := by
    unfold deleteNode
    rw [if_neg he, h1]
    simp only [if_neg h4, if_pos h5.symm]
  have hL := h.live.unlink hb h2.mem h2.ne h4 (show nx (setNext m p (nx m (nx m p))) p = _ by
    rw [nx_setNext, update_self]) fun a h1 => by rw [nx_setNext, update_of_ne h1]
  have hpos : 0 < D.card := Finset.card_pos.2 ⟨_, h6⟩
  have hload := h.load
  have hsize : (m.setSize + 2 ^ 64 - 1) % 2 ^ 64 = m.setSize - 1 := by
    have hlt := h.sizes.lt
    have hc := h.count
    rw [show m.setSize + 2 ^ 64 - 1 = (m.setSize - 1) + 2 ^ 64 by omega, Nat.add_mod_right, Nat.mod_eq_of_lt (by omega)]
  have hp : Pairs m (update M k none) (D.erase (nx m p)) := by
    refine ⟨fun a ha => h.pairs.nonneg a (Finset.mem_of_mem_erase ha), ?_⟩
    rw [← h5]
    exact h.pairs.rep.erase fun a ha e => h.live.lists.inj a ha _ h6 e
  refine ⟨{ setNext m p (nx m (nx m p)) with setSize := (m.setSize + 2 ^ 64 - 1) % 2 ^ 64 }, _, _, ?_,
    .relinked h.sizes sameRest_setNext hL hp ?_ ?_, rfl, ?_⟩
  · unfold delete
    rw [hdel, h7]
    rfl
  · rw [hsize, Finset.card_erase_of_mem h6, h.count]
  · rw [hsize]
    omega
  · change (m.setSize + 2 ^ 64 - 1) % 2 ^ 64 < m.setSize
    rw [hsize, h.count]
    omega

/-- `delete` of an absent key changes nothing, if it does not read NULL. -/
theorem delete_absent (hM : M k = none) : delete m k = .error .null ∨ delete m k = .ok (m, none) := by
  unfold delete deleteNode
  by_cases he : nx m (m.list m.bucket (hashCode k m.tableSize)) = NULL
  · rw [if_pos he]
    exact .inr rfl
  · obtain ⟨p, h1, -, h3⟩ := h.search hk
    rw [if_neg he, h1]
    rcases h3 with ⟨-, -, -, h4⟩ | ⟨h4, -⟩
    · rw [hM] at h4; cases h4
    · by_cases h0 : nx m p = NULL
      · left
        simp only [h0, if_true]
      · have hne : k ≠ ky m (nx m p) := fun e => (h4.resolve_left h0) e.symm
        right
        simp only [if_neg h0, if_neg hne]

/-! ### `add` -/

omit hk in
/-- the memory with the node `add_node` creates -/
theorem Holds.create : Live (createNode m k v) S D ∧ Pairs (createNode m k v) M D ∧ m.fresh ∉ D ∧
      m.fresh ∉ headSet (m.list m.bucket) m.tableSize ∧ ky (createNode m k v) m.fresh = k ∧
      vl (createNode m k v) m.fresh = v := by
  have hne : ∀ a < m.fresh, (createNode m k v).node a = m.node a := fun a h => update_of_ne h.ne ..
  have hnew : (createNode m k v).node m.fresh = ⟨k, v, NULL⟩ := update_self ..
  have hky : ∀ a < m.fresh, ky (createNode m k v) a = ky m a := fun a h => by unfold ky; rw [hne a h]
  have hvl : ∀ a < m.fresh, vl (createNode m k v) a = vl m a := fun a h => by unfold vl; rw [hne a h]
  refine ⟨h.live.congr (fun b hb a ha _ => ?_) hky (Nat.le_succ _), ⟨fun a ha => ?_, ?_⟩,
    fun hD => lt_irrefl _ (h.live.lists.data_lt hD), fun hH => ?_, congrArg Node.key hnew, congrArg Node.value hnew⟩
  · unfold nx; rw [hne a (h.live.lists.lt _ (Resting.head_mem hb) a ha)]
  · rw [hky a (h.live.lists.data_lt ha)]; exact h.pairs.nonneg a ha
  · exact h.pairs.rep.congr (fun a ha => hky a (h.live.lists.data_lt ha)) fun a ha => hvl a (h.live.lists.data_lt ha)
  · exact lt_irrefl _ (h.live.lists.lt _ hH _ (h.live.lists.head_mem hH))

/-- **`add_node`** links a node for an absent key, and leaves the table alone otherwise. -/
theorem addNode_holds (hlt : m.setSize < 5 * m.tableSize) :
    ∃ m', addNode m (m.list m.bucket (hashCode k m.tableSize)) k v = .ok (m', !(M k).isSome) ∧
      m'.tableSize = m.tableSize ∧ m'.setSize = m.setSize ∧
      (M k ≠ none → ∃ S' D', Holds m' M S' D') ∧
      (M k = none → ∃ S' D', Holds { m' with setSize := (m'.setSize + 1) % 2 ^ 64 } (update M k (some v)) S' D') := by
  obtain ⟨hL, hp, hD, hH, hk1, hv1⟩ := h.create (k := k) (v := v)
  have hb := h.bucket_lt hk
  have hc := hL.chain hb
  have hmem : m.list m.bucket (hashCode k m.tableSize) ∈ headSet (m.list m.bucket) m.tableSize := Resting.head_mem hb
  have hx := hL.lists.not_mem_of h.sizes.fresh.ne' hD hH hmem
  obtain ⟨p, hw, hcase⟩ := addNodeOp_spec (x := m.fresh) hc (hL.head_ne hb) (hL.lists.lt _ hmem) hx
  unfold addNode
  rcases hcase with ⟨h1, h2, h3⟩ | ⟨h1, m2, h2, h3⟩
  · -- the key is in the list
    have hq := hL.found hb hw.mem hw.ne h1
    have hMk := hp.rep.holds hq
    rw [h2, hk1] at hMk
    refine ⟨createNode m k v, by rw [hMk]; exact h3, rfl, rfl, fun _ => ⟨S, D, ?_⟩, fun e => by rw [hMk] at e; cases e⟩
    exact ⟨⟨h.sizes.pos, h.sizes.lt, Nat.succ_pos _, h.sizes.bucket⟩, hL, hp, h.count, h.load⟩
  · have habs := hL.absent hb (congrArg (fun k => hashCode k m.tableSize) hk1) hw h1
    have hMk : M k = none := by
      have := hp.rep.absent habs
      rwa [hk1] at this
    have hL2 := hL.link hb (congrArg (fun k => hashCode k m.tableSize) hk1) hw h1 h.sizes.fresh.ne' (Nat.lt_succ_self _) hD
      hH h3.here h3.node h3.other
    have hr := h3.rest
    have hs : Sizes (createNode m k v) := ⟨h.sizes.pos, h.sizes.lt, Nat.succ_pos _, h.sizes.bucket⟩
    have hp2 : Pairs (createNode m k v) (update M k (some v)) (insert m.fresh D) := by
      have hrep := hp.rep.insert habs
      rw [hk1, hv1] at hrep
      refine ⟨fun a ha => ?_, hrep⟩
      rcases Finset.mem_insert.1 ha with rfl | ha
      · rw [hk1]; exact hk
      · exact hp.nonneg a ha
    have hsize : (m2.setSize + 1) % 2 ^ 64 = m.setSize + 1 := by
      have hslt := h.sizes.lt
      rw [show m2.setSize = m.setSize from hr.setSize, Nat.mod_eq_of_lt (by omega)]
    refine ⟨m2, by rw [hMk]; exact h2, hr.tableSize, hr.setSize, fun e => absurd hMk e, fun _ => ⟨_, _,
      .relinked hs hr hL2 hp2 ?_ ?_⟩⟩
    · rw [hsize, h.count, Finset.card_insert_of_notMem hD]
    · rw [hsize]
      exact hlt

omit hk in
omit h in
/-- the quotient is small, so the cast to int in `policy` does not change it -/
theorem policy_iff {a n : ℕ} (hn : 0 < n) (ha : a ≤ 5 * n) : policy a n = true ↔ 5 * n ≤ a := by
  have hq : a / n ≤ 5 := by
    have := Nat.div_le_div_right (c := n) ha
    rwa [Nat.mul_div_cancel _ hn] at this
  have hi : 5 ≤ a / n ↔ 5 * n ≤ a := Nat.le_div_iff_mul_le hn
  unfold policy
  rw [decide_eq_true_iff, ← hi]
  generalize a / n = q at hq
  rw [Int.bmod_eq_of_le (by omega) (by omega)]
  omega

/-- **`add`** puts the pair in iff its key is absent. A full table is doubled. -/
theorem add_holds (hlt : m.setSize < 5 * m.tableSize) : add m k v = .error .wrap ∨
      ∃ m' S' D', add m k v = .ok (m', !(M k).isSome) ∧ m'.setSize < 5 * m'.tableSize ∧
        Holds m' (if (M k).isSome then M else update M k (some v)) S' D' := by
  obtain ⟨m1, h1, h2, h3, h4, h5⟩ := addNode_holds (v := v) h hk hlt
  -- the table before the test of `policy`
  obtain ⟨m2, hm2, S2, D2, hH⟩ : ∃ m2, m2 = (if !(M k).isSome then { m1 with setSize := (m1.setSize + 1) % 2 ^ 64 } else m1) ∧
      ∃ S' D', Holds m2 (if (M k).isSome then M else update M k (some v)) S' D' := by
    refine ⟨_, rfl, ?_⟩
    cases hM : M k with
    | none => exact h5 hM
    | some w => exact h4 (by rw [hM]; simp)
  have hpol := policy_iff hH.sizes.pos hH.load
  unfold add
  rw [h1]
  dsimp only
  rw [← hm2]
  by_cases hp : policy m2.setSize m2.tableSize = true
  · rw [if_pos hp]
    by_cases hw : m2.tableSize * 2 < 2 ^ 32
    · obtain ⟨m3, S3, h6, h7, h8, h9⟩ := resize_holds hH hw
      refine .inr ⟨m3, S3, D2, by rw [h6], ?_, h7⟩
      have := hH.load
      have := hH.sizes.pos
      rw [h8, h9]
      omega
    · left
      unfold resize
      rw [if_neg hw]
  · rw [if_neg hp]
    exact .inr ⟨m2, S2, D2, rfl, by rw [hpol] at hp; omega, hH⟩

end Calls

/-! ## Sequences of calls -/

section Runs

variable {m : Mem} {M : ℤ → Option ℤ} {S : ℕ → Finset ℕ} {D : Finset ℕ}

/-- `init_hashtable` gives an empty table. -/
theorem init_holds {n : ℕ} (hn : 1 ≤ n) (hlt : n < 2 ^ 32) : ∃ S, Holds (initHashtable n) (fun _ => none) S ∅ := by
  have hnil : ∀ a, 1 ≤ a → a < 1 + n → nx (initHashtable n) a = 0 := fun a h1 h2 =>
    congrArg Node.next (show (initHashtable n).node a = ⟨0, 0, NULL⟩ from if_pos ⟨h1, h2⟩)
  obtain ⟨S, hS⟩ := Resting.empty (ky (initHashtable n)) (fun k => hashCode k n) Nat.one_pos hnil
  have hlist : (initHashtable n).list (initHashtable n).bucket = fun b => 1 + b := by
    simp [initHashtable, initBucket]
  refine ⟨S, ⟨hn, hlt, Nat.lt_of_lt_of_le Nat.one_pos (Nat.le_add_right _ _), Nat.one_pos⟩, ?_, ⟨?_, ?_⟩, rfl, Nat.zero_le _⟩
  · unfold Live
    rw [hlist]
    exact hS
  · exact fun a ha => absurd ha (Finset.notMem_empty a)
  · exact fun k v => iff_of_false (by simp) fun ⟨a, ha, _⟩ => Finset.notMem_empty a ha

/-- a call that the table may be given: a non-negative key, and `delete` only for a stored one -/
def Allowed (M : ℤ → Option ℤ) (op : Op) : Prop := 0 ≤ op.key ∧ (op = .delete op.key → M op.key ≠ none)

/-- a sequence of such calls -/
def AllAllowed (M : ℤ → Option ℤ) : List Op → Prop
  | [] => True
  | op :: ops => Allowed M op ∧ AllAllowed (mapStep M op).1 ops

variable (h : Holds m M S D)

include h

variable (hlt : m.setSize < 5 * m.tableSize)

include hlt

/-- **One call** has the result of the map, and leaves the table with the pairs of the map. -/
theorem call_holds {op : Op} (ha : Allowed M op) : call m op = .error .wrap ∨
      ∃ m' S' D', call m op = .ok (m', (mapStep M op).2) ∧ m'.setSize < 5 * m'.tableSize ∧
        Holds m' (mapStep M op).1 S' D' := by
  cases op with
  | add k v =>
    rcases add_holds (k := k) (v := v) h ha.1 hlt with he | ⟨m', S', D', h1, h2, h3⟩
    · left; change Except.map _ (add m k v) = _; rw [he]; rfl
    · refine .inr ⟨m', S', D', ?_, h2, ?_⟩
      · change Except.map _ (add m k v) = _
        rw [h1]
        rfl
      · exact h3
  | delete k =>
    obtain ⟨m', S', D', h1, h2, h3, h4⟩ := delete_holds (k := k) h ha.1 (ha.2 rfl)
    refine .inr ⟨m', S', D', ?_, by rw [h3]; exact lt_trans h4 hlt, h2⟩
    change Except.map _ (delete m k) = _
    rw [h1]
    rfl
  | find k =>
    refine .inr ⟨m, S, D, ?_, hlt, h⟩
    change Except.map _ (find m k) = _
    rw [find_holds (k := k) h ha.1]
    rfl

/-- **A whole run**, by induction on the calls. -/
theorem run_holds {ops : List Op} (ha : AllAllowed M ops) : run m ops = .error .wrap ∨
      ∃ m' S' D', run m ops = .ok (m', (mapRun M ops).2) ∧ m'.setSize < 5 * m'.tableSize ∧
        Holds m' (mapRun M ops).1 S' D' := by
  induction ops generalizing m M S D with
  | nil => exact .inr ⟨m, S, D, rfl, hlt, h⟩
  | cons op ops ih =>
    unfold run runCalls
    rcases call_holds h hlt ha.1 with he | ⟨m1, S1, D1, h1, h2, h3⟩
    · left; rw [he]
    · rw [h1]
      rcases ih h3 h2 ha.2 with he | ⟨m2, S2, D2, h4, h5, h6⟩
      · left; change Except.map _ (run m1 ops) = _; rw [he]; rfl
      · refine .inr ⟨m2, S2, D2, ?_, h5, h6⟩
        change Except.map _ (run m1 ops) = _
        rw [h4]
        rfl

/-- a call that returns leaves a table of pairs -/
theorem call_returned {op : Op} (hk : 0 ≤ op.key) {m' : Mem} {r : Res} (hr : call m op = .ok (m', r)) :
    ∃ M' S' D', Holds m' M' S' D' ∧ m'.setSize < 5 * m'.tableSize := by
  by_cases ha : Allowed M op
  · rcases call_holds h hlt ha with he | ⟨m1, S1, D1, h1, h2, h3⟩
    · rw [hr] at he; cases he
    · rw [hr] at h1
      cases h1
      exact ⟨_, S1, D1, h3, h2⟩
  · -- only the deletion of an absent key is not allowed
    obtain ⟨hd, hM⟩ : op = .delete op.key ∧ M op.key = none := by
      by_contra hn
      exact ha ⟨hk, fun hd hM => hn ⟨hd, hM⟩⟩
    have hc : call m op = (delete m op.key).map fun x => (x.1, .delete x.2) := by rw [hd]; rfl
    rw [hc] at hr
    rcases delete_absent h hk hM with he | he
    · rw [he] at hr; cases hr
    · rw [he] at hr
      cases hr
      exact ⟨M, S, D, h, hlt⟩

/-- **Every table that calls leave** is a table of pairs with less than five of them per bucket. -/
theorem run_returned {ops : List Op}
    (hk : ∀ op ∈ ops, 0 ≤ op.key) {m' : Mem} {rs : List Res} (hr : run m ops = .ok (m', rs)) :
    ∃ M' S' D', Holds m' M' S' D' ∧ m'.setSize < 5 * m'.tableSize := by
  refine runCalls_inv (I := fun m => ∃ M S D, Holds m M S D ∧ m.setSize < 5 * m.tableSize) (fun s op s' r hs hop hc => ?_)
    ⟨M, S, D, h, hlt⟩ hk hr
  obtain ⟨M1, S1, D1, h1, h2⟩ := hs
  exact call_returned h1 h2 hop hc

theorem Holds.wellFormed : WellFormed m where
  linked _ hb := h.live.listNodes_linked hb
  sorted _ hb := h.live.listNodes_sorted hb
  placed b hb a ha := by
    have h0 := h.pairs.nonneg a ((h.live.mem_data a).2 ⟨b, hb, ha⟩)
    rw [← hashCode_emod h0 h.sizes.pos h.sizes.lt, h.live.listNodes_hash hb ha]
  count := h.count.trans h.live.tableNodes_length.symm
  load := hlt

omit hlt

omit h

/-- **The chained table is a finite map.** For every initial table size and every sequence of calls with non-negative keys
in which only stored keys are deleted, unless `table_size` wraps around: the calls return what the finite map returns, and
the table they leave is well formed and stores exactly the pairs of the map. -/
theorem calls_map {n : ℕ} (hn : 1 ≤ n) (hlt : n < 2 ^ 32) (ops : List Op) (ha : AllAllowed (fun _ => none) ops)
    (hw : run (initHashtable n) ops ≠ .error .wrap) :
    ∃ m, run (initHashtable n) ops = .ok (m, (mapRun (fun _ => none) ops).2) ∧ WellFormed m ∧
      ∀ k v, (∃ a ∈ allNodes m, ky m a = k ∧ vl m a = v) ↔ (mapRun (fun _ => none) ops).1 k = some v := by
  obtain ⟨S, hS⟩ := init_holds hn hlt
  have h0 : (initHashtable n).setSize < 5 * (initHashtable n).tableSize := by
    change 0 < 5 * n
    omega
  obtain ⟨m, S', D, h1, h2, h3⟩ := (run_holds hS h0 ha).resolve_left hw
  refine ⟨m, h1, h3.wellFormed h2, fun k v => ?_⟩
  rw [h3.pairs.rep k v]
  exact exists_congr fun a => and_congr_left' (h3.live.mem_tableNodes a)

/-- a run that doubles a table of one bucket: five adds, a find and a delete -/
theorem calls_map_doubling :
    ∃ m, run (initHashtable 1) [.add 3 30, .add 1 10, .add 4 40, .add 0 7, .add 5 50, .find 4, .delete 3] =
        .ok (m, [.add true, .add true, .add true, .add true, .add true, .find true, .delete (some 30)]) ∧
      WellFormed m := by
  have hr : (run (initHashtable 1)
      [.add 3 30, .add 1 10, .add 4 40, .add 0 7, .add 5 50, .find 4, .delete 3]).isOk = true := by decide +kernel
  obtain ⟨m, h1, h2, -⟩ := calls_map (n := 1) le_rfl (by decide)
    [.add 3 30, .add 1 10, .add 4 40, .add 0 7, .add 5 50, .find 4, .delete 3]
    (by simp [AllAllowed, Allowed, mapStep, mapAdd, Op.key, update]) fun he => by rw [he] at hr; cases hr
  exact ⟨m, h1, h2⟩

end Runs

end AlgorithmCollection.Hash
