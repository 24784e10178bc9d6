/-
Tables of bucket lists: every node is in the list its key hashes to.

`Resting`: the lists of the n heads `head b` are the lists in use, they are sorted and disjoint, and the nodes of list b are
those with `hash key = b`. So a key that is not in its own list is not in the table (`Resting.absent`), and a node is
linked and unlinked without touching the other lists (`Resting.link`, `Resting.unlink`).
`Migrating`: the lists of an old and a new table are in use, the first i old lists are empty, and x is a node that is in no
list. A migration goes from a resting table and new empty lists (`Resting.start`) over the nodes that leave the old lists
(`take`) and enter the new ones (`put`) to a resting table with the new lists alone (`finish`). The nodes that carry
data are the same all the time.
-/
import AlgorithmCollection.Conc.Buckets

namespace AlgorithmCollection.Conc

open Function (update update_of_ne)

variable {K : Type*} [LinearOrder K]

/-- the heads of n lists -/
def headSet (head : ℕ → ℕ) (n : ℕ) : Set ℕ := {h | ∃ b < n, head b = h}

/-- different heads, and every node in the list of its key -/
structure Hashed (head : ℕ → ℕ) (hash : K → ℕ) (n : ℕ) (key : ℕ → K) (S : ℕ → Finset ℕ) : Prop where
  inj : ∀ b < n, ∀ b' < n, head b = head b' → b = b'
  placed : ∀ b < n, ∀ a ∈ S (head b), a ≠ head b → a ≠ 0 → hash (key a) = b

section Hashed

variable {head head' : ℕ → ℕ} {hash : K → ℕ} {n b x : ℕ} {key key' : ℕ → K} {S S' : ℕ → Finset ℕ}

omit [LinearOrder K] in
/-- fewer nodes in the lists -/
theorem Hashed.sub (h : Hashed head hash n key S) (hh : ∀ b < n, head' b = head b)
    (hk : ∀ b < n, ∀ a ∈ S (head b), key' a = key a) (hS : ∀ b < n, ∀ a ∈ S' (head b), a ∈ S (head b)) :
    Hashed head' hash n key' S' where
  inj b hb b' hb' e := h.inj b hb b' hb' (by rwa [hh b hb, hh b' hb'] at e)
  placed b hb a ha h1 h2 := by
    rw [hh b hb] at ha h1
    rw [hk b hb a (hS b hb a ha)]
    exact h.placed b hb a (hS b hb a ha) h1 h2

omit [LinearOrder K] in
/-- a node more, in the list of its key -/
theorem Hashed.link (h : Hashed head hash n key S) (hb : b < n) (hx : hash (key x) = b) :
    Hashed head hash n key (update S (head b) (insert x (S (head b)))) where
  inj := h.inj
  placed b' hb' a ha h1 h2 := by
    by_cases hne : b' = b
    · subst hne
      rw [Function.update_self] at ha
      rcases Finset.mem_insert.1 ha with rfl | ha
      · exact hx
      · exact h.placed b' hb' a ha h1 h2
    · rw [update_of_ne fun e => hne (h.inj b' hb' b hb e)] at ha
      exact h.placed b' hb' a ha h1 h2

end Hashed

/-! ## A table at rest -/

structure Resting (next : ℕ → ℕ) (key : ℕ → K) (lim : ℕ) (head : ℕ → ℕ) (hash : K → ℕ) (n : ℕ) (S : ℕ → Finset ℕ)
    (D : Finset ℕ) : Prop where
  lists : Buckets next key lim (headSet head n) S D none
  hashed : Hashed head hash n key S

namespace Resting

variable {next next' : ℕ → ℕ} {key key' : ℕ → K} {lim lim' : ℕ} {head : ℕ → ℕ} {hash : K → ℕ} {n b p x : ℕ}
  {S : ℕ → Finset ℕ} {D : Finset ℕ} {k : K}

theorem head_mem (hb : b < n) : head b ∈ headSet head n := ⟨b, hb, rfl⟩

variable (hT : Resting next key lim head hash n S D)

include hT

variable (hb : b < n)

include hb

theorem chain : BucketList next key (head b) (S (head b)) :=
  hT.lists.chain _ (head_mem hb)

theorem head_ne : head b ≠ 0 := hT.lists.pos _ (head_mem hb)

omit hb in
/-- the nodes of list b that carry data -/
theorem data_iff (a : ℕ) : a ∈ D ↔ ∃ b < n, a ∈ S (head b) ∧ a ≠ head b ∧ a ≠ 0 := by
  rw [hT.lists.data a]
  constructor
  · rintro (⟨h, ⟨b, hb, rfl⟩, h1⟩ | h1)
    · exact ⟨b, hb, h1⟩
    · cases h1
  · rintro ⟨b, hb, h1⟩; exact .inl ⟨_, head_mem hb, h1⟩

/-- **A key that is not in its list is not in the table.** -/
theorem absent (hk : hash k = b)
    (hw : Before key (head b) (S (head b)) k p) (hs : next p = 0 ∨ k < key (next p)) : ∀ a ∈ D, key a ≠ k := by
  intro a ha e
  obtain ⟨b', hb', h1, h2, h3⟩ := (hT.data_iff a).1 ha
  obtain rfl : b' = b := by rw [← hT.hashed.placed b' hb' a h1 h2 h3, ← hk, e]
  exact (hT.chain hb').absent hw hs h1 h2 h3 e

/-- the node at which a search stops carries data -/
theorem found (hp : p ∈ S (head b)) (hp0 : p ≠ 0) (hc : next p ≠ 0) : next p ∈ D := by
  obtain ⟨h1, h2⟩ := (hT.chain hb).succ hp hp0
  exact (hT.data_iff _).2 ⟨b, hb, h1, h2, hc⟩

omit hb in
/-- only the links and keys of the nodes of the lists matter -/
theorem congr
    (hn : ∀ b < n, ∀ a ∈ S (head b), a ≠ 0 → next' a = next a) (hk : ∀ a < lim, key' a = key a) (hl : lim ≤ lim') :
    Resting next' key' lim' head hash n S D where
  lists := hT.lists.congr (fun h ⟨b, hb, e⟩ a ha => by subst e; exact hn b hb a ha) hk hl
  hashed := hT.hashed.sub (fun _ _ => rfl) (fun b hb a ha => hk a (hT.lists.lt _ (head_mem hb) a ha)) fun _ _ _ ha => ha

/-- **Linking a new node** into the list of its key. -/
theorem link (hx : hash (key x) = b)
    (hw : Before key (head b) (S (head b)) (key x) p) (hs : next p = 0 ∨ key x < key (next p)) (hx0 : x ≠ 0)
    (hlt : x < lim) (hD : x ∉ D) (hH : x ∉ headSet head n) (e1 : next' p = x) (e2 : next' x = next p)
    (e3 : ∀ a, a ≠ p → a ≠ x → next' a = next a) :
    Resting next' key lim head hash n (update S (head b) (insert x (S (head b)))) (insert x D) where
  lists := hT.lists.link (head_mem hb) hw hs hx0 hlt hD hH (hT.absent hb hx hw hs) e1 e2 e3
  hashed := hT.hashed.link hb hx

/-- **Unlinking** the successor of p. -/
theorem unlink (hp : p ∈ S (head b)) (hp0 : p ≠ 0)
    (hc : next p ≠ 0) (e1 : next' p = next (next p)) (e2 : ∀ a, a ≠ p → next' a = next a) :
    Resting next' key lim head hash n (update S (head b) ((S (head b)).erase (next p))) (D.erase (next p)) where
  lists := hT.lists.unlink (head_mem hb) hp hp0 hc e1 e2
  hashed := hT.hashed.sub (fun _ _ => rfl) (fun _ _ _ _ => rfl) fun _ _ _ ha => Buckets.mem_of_unlink ha

/-! ### The nodes of the table, list by list -/

/-- the nodes met from head b on -/
def listNodes (next : ℕ → ℕ) (lim : ℕ) (head : ℕ → ℕ) (b : ℕ) : List ℕ := walk next (fun a => a = 0) lim (next (head b))

theorem mem_listNodes (a : ℕ) : a ∈ listNodes next lim head b ↔ a ∈ S (head b) ∧ a ≠ head b ∧ a ≠ 0 :=
  (hT.chain hb).mem_nodes (hT.head_ne hb) (hT.lists.lt _ (head_mem hb)) a

theorem listNodes_linked : (head b :: (listNodes next lim head b ++ [0])).IsChain fun x y => next x = y :=
  (hT.chain hb).nodes_linked (hT.head_ne hb) (hT.lists.lt _ (head_mem hb))

theorem listNodes_sorted : (listNodes next lim head b).Pairwise fun x y => key x < key y :=
  (hT.chain hb).nodes_sorted (hT.head_ne hb) (hT.lists.lt _ (head_mem hb))

theorem listNodes_hash {a : ℕ} (ha : a ∈ listNodes next lim head b) : hash (key a) = b := by
  obtain ⟨h1, h2, h3⟩ := (hT.mem_listNodes hb a).1 ha
  exact hT.hashed.placed b hb a h1 h2 h3

omit hb

/-- the nodes that carry data are the nodes of the lists -/
theorem mem_data (a : ℕ) : a ∈ D ↔ ∃ b < n, a ∈ listNodes next lim head b := by
  rw [hT.data_iff a]
  exact exists_congr fun b => and_congr_right fun hb => (hT.mem_listNodes hb a).symm

/-- all nodes of the table -/
def tableNodes (next : ℕ → ℕ) (lim : ℕ) (head : ℕ → ℕ) (n : ℕ) : List ℕ :=
  (List.range n).flatMap (listNodes next lim head)

theorem mem_tableNodes (a : ℕ) : a ∈ tableNodes next lim head n ↔ a ∈ D := by
  unfold tableNodes
  rw [List.mem_flatMap, hT.mem_data a]
  simp only [List.mem_range]

/-- **No key is twice in the table**: lists are sorted, and a key has only one list. -/
theorem keys_nodup : ((tableNodes next lim head n).map key).Nodup := by
  unfold tableNodes
  rw [List.map_flatMap, List.nodup_flatMap]
  refine ⟨fun b hb => ?_, ?_⟩
  · exact List.pairwise_map.2 ((hT.listNodes_sorted (List.mem_range.1 hb)).imp fun h => h.ne)
  · refine List.Pairwise.imp_of_mem (fun {b b'} hb hb' hne => ?_) (List.nodup_range (n := n))
    intro k h1 h2
    obtain ⟨a, ha, rfl⟩ := List.mem_map.1 h1
    obtain ⟨a', ha', e⟩ := List.mem_map.1 h2
    have h3 := hT.listNodes_hash (List.mem_range.1 hb) ha
    have h4 := hT.listNodes_hash (List.mem_range.1 hb') ha'
    rw [e, h3] at h4
    exact hne h4

theorem tableNodes_length : (tableNodes next lim head n).length = D.card := by
  have hnd : (tableNodes next lim head n).Nodup := List.Nodup.of_map _ hT.keys_nodup
  rw [← List.toFinset_card_of_nodup hnd]
  congr 1
  ext a
  rw [List.mem_toFinset, hT.mem_tableNodes a]

end Resting

/-! ## A migration -/

structure Migrating (next : ℕ → ℕ) (key : ℕ → K) (lim : ℕ) (old : ℕ → ℕ) (hashO : K → ℕ) (nO : ℕ) (new : ℕ → ℕ)
    (hashN : K → ℕ) (nN i : ℕ) (S : ℕ → Finset ℕ) (D : Finset ℕ) (x : Option ℕ) : Prop where
  lists : Buckets next key lim (headSet old nO ∪ headSet new nN) S D x
  hashedO : Hashed old hashO nO key S
  hashedN : Hashed new hashN nN key S
  apart : ∀ b < nO, ∀ b' < nN, old b ≠ new b'
  empty : ∀ j < nO, j < i → ∀ a ∈ S (old j), a = old j ∨ a = 0

namespace Migrating

variable {next next' : ℕ → ℕ} {key : ℕ → K} {lim : ℕ} {old new : ℕ → ℕ} {hashO hashN : K → ℕ} {nO nN i b p c : ℕ}
  {S S' : ℕ → Finset ℕ} {D : Finset ℕ} {x y : Option ℕ}

theorem old_mem (hi : i < nO) : old i ∈ headSet old nO ∪ headSet new nN := .inl ⟨i, hi, rfl⟩

theorem new_mem (hb : b < nN) : new b ∈ headSet old nO ∪ headSet new nN := .inr ⟨b, hb, rfl⟩

/-- new node sets that leave the old lists alone or make them smaller -/
theorem changed (hM : Migrating next key lim old hashO nO new hashN nN i S D x)
    (hB : Buckets next' key lim (headSet old nO ∪ headSet new nN) S' D y)
    (hold : ∀ j < nO, ∀ a ∈ S' (old j), a ∈ S (old j)) (hnew : Hashed new hashN nN key S') :
    Migrating next' key lim old hashO nO new hashN nN i S' D y where
  lists := hB
  hashedO := hM.hashedO.sub (fun _ _ => rfl) (fun _ _ _ _ => rfl) hold
  hashedN := hnew
  apart := hM.apart
  empty j hj hji a ha := hM.empty j hj hji a (hold j hj a ha)

variable (hM : Migrating next key lim old hashO nO new hashN nN i S D none)

include hM

/-- **The first node leaves old list i.** -/
theorem take (hi : i < nO) (hc : next (old i) ≠ 0)
    (e1 : next' (old i) = next (next (old i))) (e2 : ∀ a, a ≠ old i → next' a = next a) :
    Migrating next' key lim old hashO nO new hashN nN i
      (update S (old i) ((S (old i)).erase (next (old i)))) D (some (next (old i))) := by
  have hH : old i ∈ headSet old nO ∪ headSet new nN := old_mem hi
  exact hM.changed (hM.lists.take hH (hM.lists.head_mem hH) (hM.lists.pos _ hH) hc e1 e2)
    (fun _ _ _ ha => Buckets.mem_of_unlink ha)
    (hM.hashedN.sub (fun _ _ => rfl) (fun _ _ _ _ => rfl) fun _ _ _ ha => Buckets.mem_of_unlink ha)

omit hM in
/-- **The node enters the new list of its key.** -/
theorem put (hM : Migrating next key lim old hashO nO new hashN nN i S D (some c)) (hb : b < nN)
    (hh : hashN (key c) = b) (hw : Before key (new b) (S (new b)) (key c) p) (hs : next p = 0 ∨ key c < key (next p))
    (e1 : next' p = c) (e2 : next' c = next p) (e3 : ∀ a, a ≠ p → a ≠ c → next' a = next a) :
    Migrating next' key lim old hashO nO new hashN nN i (update S (new b) (insert c (S (new b)))) D none := by
  refine hM.changed (hM.lists.put (new_mem hb) hw hs e1 e2 e3) (fun j hj a ha => ?_) (hM.hashedN.link hb hh)
  rwa [update_of_ne (hM.apart j hj b hb)] at ha

omit hM in
/-- the key of the node in no list is not in the new lists, which have other keys -/
theorem not_found (hM : Migrating next key lim old hashO nO new hashN nN i S D (some c)) (hb : b < nN) {q : ℕ}
    (hq : q ∈ S (new b)) (hqh : q ≠ new b) (hq0 : q ≠ 0) : key c ≠ key q := hM.lists.out_ne (new_mem hb) hq hqh hq0

/-- an old list is done when its head has no successor -/
theorem nextList (hi : i < nO)
    (he : next (old i) = 0) : Migrating next key lim old hashO nO new hashN nN (i + 1) S D none := by
  refine { hM with empty := fun j hj hji a ha => ?_ }
  rcases Nat.lt_succ_iff_lt_or_eq.1 hji with hlt | rfl
  · exact hM.empty j hj hlt a ha
  · have hH : old j ∈ headSet old nO ∪ headSet new nN := old_mem hi
    exact (hM.lists.chain _ hH).empty (hM.lists.pos _ hH) he ha

/-- **All old lists are done.** -/
theorem finish (hi : nO ≤ i) : Resting next key lim new hashN nN S D where
  lists := by
    refine hM.lists.shrink Set.subset_union_right fun h hh hn a ha => ?_
    obtain ⟨j, hj, rfl⟩ := hh.resolve_right hn
    exact hM.empty j hj (lt_of_lt_of_le hj hi) a ha
  hashed := hM.hashedN

end Migrating

/-- **New lists**: n empty lists whose heads are the next n addresses. -/
theorem Resting.start {next next' : ℕ → ℕ} {key key' : ℕ → K} {lim : ℕ} {head : ℕ → ℕ} {hash : K → ℕ} {nO nN : ℕ}
    {S : ℕ → Finset ℕ} {D : Finset ℕ} (hT : Resting next key lim head hash nO S D) (hpos : 0 < lim) (hashN : K → ℕ)
    (hn : ∀ a < lim, next' a = next a) (hk : ∀ a < lim, key' a = key a)
    (hnil : ∀ a, lim ≤ a → a < lim + nN → next' a = 0) :
    Migrating next' key' (lim + nN) head hash nO (fun b => lim + b) hashN nN 0 (Buckets.withEmpty S lim) D none := by
  have hlt : ∀ b < nO, head b < lim := fun b hb => hT.lists.lt _ (head_mem hb) _ (hT.lists.head_mem (head_mem hb))
  have hS : ∀ b < nO, Buckets.withEmpty S lim (head b) = S (head b) := fun b hb => by
    unfold Buckets.withEmpty; rw [if_pos (hlt b hb)]
  have hnew : ∀ b a, a ∈ Buckets.withEmpty S lim (lim + b) → a = lim + b ∨ a = 0 := fun b a ha => by
    unfold Buckets.withEmpty at ha
    rw [if_neg (by omega)] at ha
    simpa using ha
  refine ⟨hT.lists.grow hpos ?_ ?_ (Nat.le_add_right _ _) hn hk, ?_, ⟨fun b _ b' _ e => Nat.add_left_cancel e, ?_⟩, ?_, ?_⟩
  · rintro h ⟨b, hb, rfl⟩; exact ⟨Nat.le_add_right _ _, Nat.add_lt_add_left hb lim⟩
  · rintro h ⟨b, hb, rfl⟩; exact hnil _ (Nat.le_add_right _ _) (Nat.add_lt_add_left hb lim)
  · exact hT.hashed.sub (fun _ _ => rfl) (fun b hb a ha => hk a (hT.lists.lt _ (head_mem hb) a ha))
      fun b hb a ha => hS b hb ▸ ha
  · intro b hb a ha h1 h2
    exact absurd (hnew b a ha) (by simp [h1, h2])
  · intro b hb b' _
    have := hlt b hb
    omega
  · intro j _ hj
    exact absurd hj (Nat.not_lt_zero _)

/-- **An empty table** of n lists is a table of no lists to which n new ones were added. -/
theorem Resting.empty {next : ℕ → ℕ} (key : ℕ → K) {lim n : ℕ} (hash : K → ℕ) (hpos : 0 < lim)
    (hnil : ∀ a, lim ≤ a → a < lim + n → next a = 0) :
    ∃ S, Resting next key (lim + n) (fun b => lim + b) hash n S ∅ := by
  have h0 : ∀ h, h ∉ headSet (fun b => b) 0 := fun h ⟨b, hb, _⟩ => Nat.not_lt_zero b hb
  have hT : Resting next key lim (fun b => b) hash 0 (fun _ => ∅) ∅ := by
    refine ⟨⟨fun h hh => absurd hh (h0 h), fun h hh => absurd hh (h0 h), fun h hh => absurd hh (h0 h),
      fun h hh => absurd hh (h0 h), fun a => ?_, nofun, fun a ha => ?_⟩,
      ⟨fun b hb => absurd hb (Nat.not_lt_zero b), fun b hb => absurd hb (Nat.not_lt_zero b)⟩⟩
    · refine iff_of_false (Finset.notMem_empty a) ?_
      rintro (⟨h, hh, -⟩ | e)
      · exact h0 h hh
      · cases e
    · exact absurd ha (Finset.notMem_empty a)
  exact ⟨_, (hT.start hpos hash (fun _ _ => rfl) (fun _ _ => rfl) hnil).finish le_rfl⟩

end AlgorithmCollection.Conc
