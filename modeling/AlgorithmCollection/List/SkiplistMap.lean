/-
`Skiplist` keeps its representation invariant and is a finite map.

`Holds m N lo hi M D`: the nodes D form a skip list of N levels between head and tail, whose keys are lo and hi, and carry the pairs of
the map M. `search_spec`: one descending pass finds the last node below the key at every level, and a level where the key
is met iff it is stored. `add_holds`, `delete_holds` and `find_holds`: the calls, whatever the tower heights are. `levels_map`:
whole runs.
-/
import AlgorithmCollection.List.Skiplist

namespace AlgorithmCollection.Skiplist

open Conc
open Function (update update_self update_of_ne update_eq_self update_idem comp_update)

/-! ## Memory -/

section Memory

variable {m m' : Mem} {a b level : ℕ}

theorem nx_setNext : nx (setNext m a level b) = update (nx m) level (update (nx m level) a b) := by
  funext l x
  by_cases hl : l = level
  · subst hl
    by_cases hx : x = a
    · subst hx; simp [nx, setNext]
    · simp [nx, setNext, hx]
  · by_cases hx : x = a
    · subst hx; simp [nx, setNext, hl]
    · simp [nx, setNext, hx, hl]

theorem ky_setNext : ky (setNext m a level b) = ky m :=
  (comp_update Node.key m.node a _).trans (update_eq_self a (ky m))

theorem vl_setNext : vl (setNext m a level b) = vl m :=
  (comp_update Node.val m.node a _).trans (update_eq_self a (vl m))

theorem tp_setNext : tp (setNext m a level b) = tp m :=
  (comp_update Node.topLevel m.node a _).trans (update_eq_self a (tp m))

/-- the two memories differ only in the links, and in the arrays of `search` -/
abbrev SameRest (m m' : Mem) : Prop :=
  SameData (ky m) (ky m') (vl m) (vl m') (tp m) (tp m') m.maxLevel m'.maxLevel m.head m'.head m.tail m'.tail m.fresh m'.fresh

theorem sameRest_setNext : SameRest m (setNext m a level b) := ⟨ky_setNext, vl_setNext, tp_setNext, rfl, rfl, rfl, rfl⟩

theorem sameRest_foldl (step : Mem → ℕ → Mem) (h : ∀ m level, SameRest m (step m level)) (l : List ℕ) (m : Mem) :
    SameRest m (l.foldl step m) := foldl_related (fun _ => .refl) (fun _ _ _ => .trans) h l m

end Memory

/-! ## The list and its map -/

abbrev Holds (m : Mem) (N : ℕ) (lo hi : ℤ) (M : ℤ → Option ℤ) (D : Finset ℕ) : Prop :=
  Listed (nx m) (ky m) (vl m) (tp m) m.head m.tail m.maxLevel m.fresh N lo hi M D

/-- the node set of a level -/
abbrev levelOf (m : Mem) (D : Finset ℕ) (L : ℕ) : Finset ℕ := level m.head m.tail (tp m) D L

section Calls

variable {m : Mem} {N : ℕ} {lo hi k v : ℤ} {M : ℤ → Option ℤ} {D : Finset ℕ}

variable (h : Holds m N lo hi M D)

include h

/-- the inner loop of `search` stops -/
theorem Holds.seek (hk : k < hi) {L p : ℕ} (hL : L < m.maxLevel) (hp : p ∈ levelOf m D L) (hlt : ky m p < k) :
    ∃ q, Chain.seek (nx m L) (ky m) k m.fresh p = some (q, nx m L q) ∧ nx m L q ≠ NULL ∧
      Around (nx m L) (ky m) m.tail (levelOf m D L) k q :=
  (h.towers.chain L hL).seek_around (fun h0 => (h.toSkipMap.level_addr h0).1 rfl) (by rw [h.tail_key]; exact hk.le) _ hp hlt
    (Chain.card_from_le _ (fun _ ha => (h.toSkipMap.level_addr ha).2) _)

/-- what `search` leaves in its arrays -/
structure Found (m : Mem) (D : Finset ℕ) (k : ℤ) (n : ℕ) (preds succs : ℕ → ℕ) : Prop where
  around : ∀ L < n, Around (nx m L) (ky m) m.tail (levelOf m D L) k (preds L)
  succ : ∀ L < n, succs L = nx m L (preds L)

/-- **The descending pass**, by induction on the levels to go: the node reached at a level is a node of the next one. -/
theorem searchFrom_spec (hk : k < hi) (n : ℕ) (hn : n ≤ m.maxLevel) (lFound : Option ℕ) {p : ℕ}
    (hp : ∀ L < n, p ∈ levelOf m D L) (hlt : ky m p < k) :
    ∃ preds succs lF, searchFrom k n m p lFound = .ok ({ m with preds := preds, succs := succs }, lF) ∧
      Found m D k n preds succs ∧ (∀ L, n ≤ L → preds L = m.preds L ∧ succs L = m.succs L) ∧
      (lF = none → lFound = none ∧ ∀ L < n, ky m (succs L) ≠ k) ∧
      (∀ l, lF = some l → lFound = some l ∨ (l < n ∧ ky m (succs l) = k)) := by
  induction n generalizing m p lFound with
  | zero =>
    exact ⟨m.preds, m.succs, lFound, rfl, ⟨fun L hL => absurd hL (Nat.not_lt_zero L), fun L hL => absurd hL (Nat.not_lt_zero L)⟩,
      fun _ _ => ⟨rfl, rfl⟩, fun e => ⟨e, fun L hL => absurd hL (Nat.not_lt_zero L)⟩, fun l e => .inl e⟩
  | succ n ih =>
    obtain ⟨q, h1, hne, h2⟩ := h.seek hk (L := n) (by omega) (hp n (Nat.lt_succ_self n)) hlt
    -- the levels are nested
    have hq : ∀ L < n, q ∈ levelOf m D L := fun L hL => level_subset hL.le h2.mem
    have h' : Holds { m with preds := update m.preds n q, succs := update m.succs n (nx m n q) } N lo hi M D := h
    obtain ⟨preds, succs, lF, h3, h4, h5, h6, h7⟩ :=
      ih h' (Nat.le_of_succ_le hn) (if lFound = none ∧ k = ky m (nx m n q) then some n else lFound) hq h2.lt
    obtain ⟨h8, h9⟩ := h5 n le_rfl
    replace h8 : preds n = q := h8.trans (update_self ..)
    replace h9 : succs n = nx m n q := h9.trans (update_self ..)
    refine ⟨preds, succs, lF, ?_, ⟨fun L hL => ?_, fun L hL => ?_⟩, fun L hL => ?_, fun e => ?_, fun l e => ?_⟩
    · unfold searchFrom
      rw [h1]
      simp only [if_neg hne]
      exact h3
    · rcases Nat.lt_succ_iff_lt_or_eq.1 hL with hL | rfl
      · exact h4.around L hL
      · rw [h8]; exact h2
    · rcases Nat.lt_succ_iff_lt_or_eq.1 hL with hL | rfl
      · exact h4.succ L hL
      · rw [h8, h9]
    · obtain ⟨e1, e2⟩ := h5 L (by omega)
      exact ⟨e1.trans (update_of_ne (by omega) ..), e2.trans (update_of_ne (by omega) ..)⟩
    · obtain ⟨e1, e2⟩ := h6 e
      have hno : ¬(lFound = none ∧ k = ky m (nx m n q)) := fun hc => by rw [if_pos hc] at e1; cases e1
      rw [if_neg hno] at e1
      refine ⟨e1, fun L hL => ?_⟩
      rcases Nat.lt_succ_iff_lt_or_eq.1 hL with hL | rfl
      · exact e2 L hL
      · rw [h9]; exact fun ek => hno ⟨e1, ek.symm⟩
    · rcases h7 l e with e1 | ⟨e1, e2⟩
      · split_ifs at e1 with hc
        · cases e1
          exact .inr ⟨Nat.lt_succ_self n, by rw [h9]; exact hc.2.symm⟩
        · exact .inl e1
      · exact .inr ⟨by omega, e2⟩

/-- **`search`** finds a node around the key at every level, and the key iff it is stored. -/
theorem search_spec (h1 : lo < k) (h2 : k < hi) :
    ∃ preds succs lF, search m k = .ok ({ m with preds := preds, succs := succs }, lF) ∧
      Found m D k m.maxLevel preds succs ∧
      ((lF = none ∧ (∀ L < m.maxLevel, ky m (nx m L (preds L)) ≠ k) ∧ M k = none) ∨
        ∃ l x, lF = some l ∧ succs l = x ∧ x ∈ D ∧ ky m x = k ∧ M k = some (vl m x)) := by
  obtain ⟨preds, succs, lF, h3, h4, -, h6, h7⟩ := searchFrom_spec h h2 m.maxLevel le_rfl none
    (fun L _ => mem_level.2 (.inl rfl)) (by rw [h.head_key]; exact h1)
  refine ⟨preds, succs, lF, h3, h4, ?_⟩
  cases hlF : lF with
  | none =>
    have hne : ∀ L < m.maxLevel, ky m (nx m L (preds L)) ≠ k := fun L hL => by
      rw [← h4.succ L hL]; exact (h6 hlF).2 L hL
    exact .inl ⟨rfl, hne, (h.toSkipMap.miss (h4.around 0 h.pos) (hne 0 h.pos)).2⟩
  | some l =>
    obtain ⟨e1, e2⟩ := (h7 l hlF).resolve_left (by simp)
    rw [h4.succ l e1] at e2
    obtain ⟨hD, hM⟩ := h.toSkipMap.hit e1 (h4.around l e1) e2 (by rw [h.tail_key]; exact h2)
    refine .inr ⟨l, succs l, rfl, rfl, ?_⟩
    rw [h4.succ l e1]
    exact ⟨hD, e2, hM⟩

/-- the arrays of `search` are not part of the list -/
theorem Holds.arrays (preds succs : ℕ → ℕ) : Holds { m with preds := preds, succs := succs } N lo hi M D := h

theorem find_holds (h1 : lo < k) (h2 : k < hi) : ∃ m', find m k = .ok (m', (M k).getD 0) ∧ Holds m' N lo hi M D := by
  obtain ⟨preds, succs, lF, h3, h4, h5⟩ := search_spec h h1 h2
  unfold find
  rw [h3]
  refine ⟨_, ?_, h.arrays preds succs⟩
  rcases h5 with ⟨rfl, -, hM⟩ | ⟨l, x, rfl, -, hD, rfl, hM⟩
  · rw [hM]; rfl
  · rw [hM]
    have hx : nx m 0 (preds 0) = x := h.towers.hit h.pos hD (Nat.zero_le _) (h4.around 0 h.pos)
    change Except.ok (_, vl m (nx m 0 (preds 0))) = _
    rw [hx]
    rfl

/-! ### `add` -/

omit h in
theorem nx_link (x : ℕ) (preds succs : ℕ → ℕ) (m : Mem) (L : ℕ) : nx (link x preds succs m L) =
    update (nx m) L (update (update (nx m L) x (succs L)) (preds L) x) := by
  unfold link
  rw [nx_setNext, nx_setNext, update_idem, update_self]

omit h in
theorem sameRest_link (x : ℕ) (preds succs : ℕ → ℕ) (m : Mem) (L : ℕ) : SameRest m (link x preds succs m L) :=
  sameRest_setNext.trans sameRest_setNext

/-- **The loop of `add`** links a new node of any height between the nodes that `search` found. -/
theorem linked_holds {preds succs : ℕ → ℕ} (hf : Found m D k m.maxLevel preds succs)
    (hne : ∀ L < m.maxLevel, ky m (nx m L (preds L)) ≠ k) (t : ℕ) :
    Holds ((List.range (t + 1)).foldl (link m.fresh preds succs) (createNode m t k v)) N lo hi (update M k (some v))
      (insert m.fresh D) := by
  have hrow := foldl_rows nx (fun L r => update (update r m.fresh (succs L)) (preds L) m.fresh)
    (nx_link m.fresh preds succs) (List.range (t + 1)) List.nodup_range (createNode m t k v)
  have hr : SameRest (createNode m t k v) _ := sameRest_foldl _ (sameRest_link m.fresh preds succs) (List.range (t + 1)) _
  generalize (List.range (t + 1)).foldl (link m.fresh preds succs) (createNode m t k v) = m2 at hrow hr
  -- `create_node` writes at the address m.fresh only
  have hnx : ∀ L, nx (createNode m t k v) L = update (nx m L) m.fresh NULL := fun L =>
    comp_update (fun n : Node => n.next L) ..
  have hky : ky m2 = update (ky m) m.fresh k := hr.ky.trans (comp_update Node.key ..)
  have hvl : vl m2 = update (vl m) m.fresh v := hr.vl.trans (comp_update Node.val ..)
  have htp : tp m2 = update (tp m) m.fresh t := hr.tp.trans (comp_update Node.topLevel ..)
  unfold Holds
  rw [hky, hvl, htp, hr.head, hr.tail, hr.maxLevel, hr.fresh]
  refine h.insert (h.toSkipMap.insert preds hf.around hne (fun L hL hLt => ?_) fun L hL hLt => ⟨NULL, ?_⟩)
  · rw [hrow L, if_pos (List.mem_range.2 (Nat.lt_succ_of_le hLt)), hnx, update_idem, hf.succ L hL]
  · rw [hrow L, if_neg fun hm => absurd (List.mem_range.1 hm) (by omega), hnx]

theorem add_holds (h1 : lo < k) (h2 : k < hi) (r : ℕ) : ∃ m' D', add m k v r = .ok (m', !(M k).isSome) ∧
      Holds m' N lo hi (if (M k).isSome then M else update M k (some v)) D' := by
  obtain ⟨preds, succs, lF, h3, h4, h5⟩ := search_spec h h1 h2
  unfold add
  rw [h3]
  rcases h5 with ⟨rfl, hne, hM⟩ | ⟨l, x, rfl, -, hD, -, hM⟩
  · rw [hM]
    exact ⟨_, _, rfl, linked_holds (h.arrays preds succs) ⟨h4.around, h4.succ⟩ hne _⟩
  · rw [hM]
    exact ⟨_, D, rfl, h.arrays preds succs⟩

/-! ### `delete` -/

omit h in
theorem nx_unlink (x : ℕ) (preds : ℕ → ℕ) (m : Mem) (L : ℕ) :
    nx (unlink x preds m L) = update (nx m) L (update (nx m L) (preds L) (nx m L x)) := nx_setNext

/-- **The loop of `delete`** unlinks the node at all levels of its tower. -/
theorem unlinked_holds {preds succs : ℕ → ℕ} {x : ℕ} (hx : x ∈ D) (hf : Found m D (ky m x) m.maxLevel preds succs) :
    Holds ((List.range (tp m x + 1)).reverse.foldl (unlink x preds) m) N lo hi (update M (ky m x) none) (D.erase x) ∧
      vl ((List.range (tp m x + 1)).reverse.foldl (unlink x preds) m) x = vl m x := by
  have hrow := foldl_rows nx (fun L r => update r (preds L) (r x)) (nx_unlink x preds)
    (List.range (tp m x + 1)).reverse (List.nodup_reverse.2 List.nodup_range) m
  have hr : SameRest m _ := sameRest_foldl (unlink x preds) (fun _ _ => sameRest_setNext)
    (List.range (tp m x + 1)).reverse m
  generalize (List.range (tp m x + 1)).reverse.foldl (unlink x preds) m = m2 at hrow hr
  refine ⟨?_, congrFun hr.vl x⟩
  unfold Holds
  rw [hr.ky, hr.vl, hr.tp, hr.head, hr.tail, hr.maxLevel, hr.fresh]
  refine ⟨h.toSkipMap.erase preds hx hf.around fun L _ => ?_, h.levels, h.head_key, h.tail_key⟩
  rw [hrow L]
  simp only [List.mem_reverse, List.mem_range, Nat.lt_succ_iff]

theorem delete_holds (h1 : lo < k) (h2 : k < hi) :
    ∃ m' D', delete m k = .ok (m', M k) ∧ Holds m' N lo hi (update M k none) D' := by
  obtain ⟨preds, succs, lF, h3, h4, h5⟩ := search_spec h h1 h2
  unfold delete
  rw [h3]
  rcases h5 with ⟨rfl, -, hM⟩ | ⟨l, x, rfl, rfl, hD, rfl, hM⟩
  · rw [hM]
    refine ⟨_, D, rfl, ?_⟩
    rw [← hM, update_eq_self]
    exact h.arrays preds succs
  · obtain ⟨h6, h7⟩ := unlinked_holds (h.arrays preds succs) hD ⟨h4.around, h4.succ⟩
    refine ⟨_, _, ?_, h6⟩
    rw [hM]
    exact congrArg (fun w => Except.ok (_, some w)) h7

end Calls

/-! ## Sequences of calls -/

section Runs

variable {m : Mem} {N : ℕ} {lo hi : ℤ} {M : ℤ → Option ℤ} {D : Finset ℕ}

/-- `init_list` gives an empty skip list. -/
theorem init_holds {maxLevel : ℕ} (hn : 1 ≤ maxLevel) (hlt : lo < hi) :
    Holds (initList maxLevel lo hi) maxLevel lo hi (fun _ => none) ∅ :=
  have hsentinel : (1 ≠ 0 ∧ 1 < 3) ∧ 2 ≠ 0 ∧ 2 < 3 := by decide
  ⟨.empty hsentinel.1 hsentinel.2 hlt (fun L hL => if_pos hL) hn, rfl, rfl, rfl⟩

/-- **One call** has the result of the map. -/
theorem call_holds (m : Mem) (M : ℤ → Option ℤ) (op : Op) (h : ∃ D, Holds m N lo hi M D)
    (hk : lo < op.key ∧ op.key < hi) :
    ∃ m', call m op = .ok (m', (mapStep M op).2) ∧ ∃ D, Holds m' N lo hi (mapStep M op).1 D := by
  obtain ⟨D, h⟩ := h
  obtain ⟨h1, h2⟩ := hk
  cases op with
  | add k v r =>
    obtain ⟨m', D', h3, h4⟩ := add_holds (k := k) (v := v) h h1 h2 r
    refine ⟨m', ?_, D', h4⟩
    change Except.map _ (add m k v r) = _
    rw [h3]
    rfl
  | delete k =>
    obtain ⟨m', D', h3, h4⟩ := delete_holds (k := k) h h1 h2
    refine ⟨m', ?_, D', h4⟩
    change Except.map _ (delete m k) = _
    rw [h3]
    rfl
  | find k =>
    obtain ⟨m', h3, h4⟩ := find_holds (k := k) h h1 h2
    refine ⟨m', ?_, D, h4⟩
    change Except.map _ (find m k) = _
    rw [h3]
    rfl

theorem Holds.wellFormed (h : Holds m N lo hi M D) (hlt : lo < hi) : WellFormed m where
  linked _ hL := h.toSkipMap.walk_linked (h.key_lt hlt) hL
  sorted _ hL := h.toSkipMap.walk_sorted (h.key_lt hlt) hL
  towers _ hL := h.toSkipMap.walk_towers (h.key_lt hlt) hL

/-- **The skip list keeps its representation and is a finite map.** For every number of levels, every sequence of calls
with keys strictly between min and max, and all tower heights: the calls return what the finite map returns, every
level of the list they leave is a strictly increasing chain from head to tail over exactly the nodes whose towers reach it,
and the nodes hold exactly the pairs of the map. -/
theorem levels_map {maxLevel : ℕ} (hn : 1 ≤ maxLevel) {min max : ℤ} (hlt : min < max) (ops : List Op)
    (hk : ∀ op ∈ ops, min < op.key ∧ op.key < max) :
    ∃ m, run (initList maxLevel min max) ops = .ok (m, (mapRun (fun _ => none) ops).2) ∧ WellFormed m ∧
      m.maxLevel = maxLevel ∧
      ∀ k v, (∃ a ∈ nodes m 0, ky m a = k ∧ vl m a = v) ↔ (mapRun (fun _ => none) ops).1 k = some v := by
  obtain ⟨m, h1, D, h2⟩ := runCalls_spec (R := fun m M => ∃ D, Holds m maxLevel min max M D) call_holds ⟨∅, init_holds hn hlt⟩ hk
  exact ⟨m, h1, h2.wellFormed hlt, h2.levels, h2.toSkipMap.walk_pairs (h2.key_lt hlt)⟩

/-- three levels, towers of different heights, and a node deleted from the middle of all levels -/
theorem levels_map_towers :
    ∃ m, run (initList 3 (-100) 100) [.add 5 50 2, .add 7 70 0, .add 3 30 4, .find 7, .delete 5, .find 5, .add 7 1 1] =
        .ok (m, [.add true, .add true, .add true, .find 70, .delete (some 50), .find 0, .add false]) ∧
      WellFormed m ∧ m.maxLevel = 3 := by
  obtain ⟨m, h1, h2, h3, -⟩ := levels_map (show 1 ≤ 3 by decide) (show (-100 : ℤ) < 100 by decide)
    [.add 5 50 2, .add 7 70 0, .add 3 30 4, .find 7, .delete 5, .find 5, .add 7 1 1] (by decide)
  exact ⟨m, h1, h2, h3⟩

end Runs

end AlgorithmCollection.Skiplist
