/-
`find` of `LockFreeSkiplist`, on the lists that one thread builds.

`_find` starts at level `sl->maxLevel`. The links of head are set for the levels below `maxLevel` only: that of level
`maxLevel` is the NULL of calloc, and no call ever writes it (`SameAbove`). So the first `curr->tower[level]` of every call
follows NULL. From any lower level on the loops are right: nothing is marked between calls, each level is left around the
key (`findLevel_spec`), and the last one decides (`findFrom_spec`).
-/
import AlgorithmCollection.List.LockFreeSkiplistMap

namespace AlgorithmCollection.LockFreeSkiplist

open Conc

section Levels

variable {m : Mem} {N : ℕ} {lo hi k : ℤ} {M : ℤ → Option ℤ} {D S : Finset ℕ} {head tail L p : ℕ}

/-- **One level** without marks is left around the key. -/
theorem findLevel_spec (hc : Chain (nx m L) (ky m) head tail S) (h0 : 0 ∉ S) (hk : k < ky m tail)
    (hmk : ∀ a ∈ S, mk m L a = .UNMARKED) (f : ℕ) (hp : p ∈ S) (hlt : ky m p < k)
    (hf : (Chain.from_ S (ky m) p).card ≤ f) :
    ∃ q, findLevel m k L f p (nx m L p) = some (q, nx m L q) ∧ Around (nx m L) (ky m) tail S k q := by
  induction f generalizing p with
  | zero =>
    have hself : p ∈ Chain.from_ S (ky m) p := Finset.mem_filter.2 ⟨hp, le_rfl⟩
    exact absurd (Finset.card_pos.2 ⟨p, hself⟩) (by omega)
  | succ f ih =>
    have hpt : p ≠ tail := fun e => absurd hlt (not_lt.2 (e ▸ hk.le))
    have hm := hc.next_mem p hp hpt
    have hn0 : nx m L p ≠ NULL := fun e => h0 (by rw [e] at hm; exact hm)
    unfold findLevel
    rw [if_neg hn0, if_neg (by rw [hmk _ hm]; simp)]
    by_cases hn : ky m (nx m L p) < k
    · rw [if_pos hn]
      have hcard := hc.card_next hp hpt
      exact ih hm hn (by omega)
    · rw [if_neg hn]
      exact ⟨p, rfl, hp, hpt, hlt, not_lt.1 hn⟩

/-- level n of the list -/
theorem Holds.findLevel_level (h : Holds m N lo hi M D) (h2 : k < hi) {n : ℕ} (hn : n < m.maxLevel)
    (hp : p ∈ levelOf m D n) (hlt : ky m p < k) :
    ∃ q, findLevel m k n (m.fresh + 1) p (nx m n p) = some (q, nx m n q) ∧
      Around (nx m n) (ky m) m.tail (levelOf m D n) k q := by
  have haddr : ∀ a ∈ levelOf m D n, a ≠ 0 ∧ a < m.fresh := fun a ha => h.toSkipMap.level_addr ha
  have hcard := Chain.card_from_le (ky m) (fun a ha => (haddr a ha).2) p
  exact findLevel_spec (h.towers.chain n hn) (fun h0 => (haddr 0 h0).1 rfl) (by rw [h.tail_key]; exact h2)
    (h.unmarked n hn) (m.fresh + 1) hp hlt (hcard.trans (Nat.le_succ _))

/-- **The levels below n + 1**, by induction on n: the answer is that of the map. -/
theorem Holds.findFrom_spec (h : Holds m N lo hi M D) (h2 : k < hi) (n : ℕ) (hn : n < m.maxLevel)
    (hp : p ∈ levelOf m D n) (hlt : ky m p < k) (c : ℕ) : findFrom m k (n + 1) p c = .ok (M k).isSome := by
  induction n generalizing p c with
  | zero =>
    obtain ⟨q, hq, ha⟩ := h.findLevel_level h2 hn hp hlt
    simp only [findFrom, hq]
    by_cases e : ky m (nx m 0 q) = k
    · have hD := (h.towers.found hn ha e (by rw [h.tail_key]; exact h2)).1
      have hM := h.rep.holds hD
      rw [e] at hM
      rw [hM, decide_eq_true e]
      rfl
    · rw [h.rep.absent (h.towers.absent hn ha e), decide_eq_false e]
      rfl
  | succ n ih =>
    obtain ⟨q, hq, ha⟩ := h.findLevel_level h2 hn hp hlt
    rw [findFrom, hq]
    exact ih (by omega) (level_subset (Nat.le_succ n) ha.mem) ha.lt _

end Levels

/-- the loops do not read `sl->maxLevel` -/
theorem findFrom_levels (m : Mem) (top : ℕ) (k : ℤ) (n p c : ℕ) :
    findFrom { m with maxLevel := top } k n p c = findFrom m k n p c := by
  have hlevel : ∀ L f p c, findLevel { m with maxLevel := top } k L f p c = findLevel m k L f p c := fun L f => by
    induction f with
    | zero => exact fun _ _ => rfl
    | succ f ih =>
      intro p c
      unfold findLevel
      rw [ih, ih]
      rfl
  induction n generalizing p c with
  | zero => rfl
  | succ n ih =>
    have hn : findLevel { m with maxLevel := top } k n (({ m with maxLevel := top } : Mem).fresh + 1) p
        (nx { m with maxLevel := top } n p) = findLevel m k n (m.fresh + 1) p (nx m n p) := hlevel ..
    unfold findFrom
    rw [hn]
    cases findLevel m k n (m.fresh + 1) p (nx m n p) with
    | none => rfl
    | some x => exact ih _ _

/-- **`find` is never right: it starts at a level that head has no link for.** For every number of levels, every list that
one thread builds with keys strictly between min and max, and every such key: `find` does not return whether the key is
present, and with `top` in the place of `sl->maxLevel` it does, without following NULL, iff top is below the number of
levels given to `init_list`. -/
theorem find_right_iff {maxLevel : ℕ} (hn : 1 ≤ maxLevel) {min max : ℤ} (hlt : min < max) (ws : Workspace) (ops : List Op)
    (hops : ∀ op ∈ ops, min < op.key ∧ op.key < max) {m : Mem} {rs : List Res}
    (hrun : run (initList maxLevel min max) ws ops = .ok (m, rs)) {k : ℤ} (hk : min < k ∧ k < max) :
    find m k ≠ .ok ((mapRun (fun _ => none) ops).1 k).isSome ∧
      ∀ top, find { m with maxLevel := top } k = .ok ((mapRun (fun _ => none) ops).1 k).isSome ↔ top < maxLevel := by
  obtain ⟨m', D, h1, h, hsame⟩ := run_holds (init_holds hn hlt) ws hops
  obtain ⟨rfl, -⟩ := Prod.mk.inj (Except.ok.inj (hrun.symm.trans h1))
  suffices hiff : ∀ top, find { m with maxLevel := top } k = .ok ((mapRun (fun _ => none) ops).1 k).isSome ↔ top < maxLevel from
    ⟨fun hok => absurd ((hiff m.maxLevel).1 hok) (by rw [h.levels]; exact lt_irrefl maxLevel), hiff⟩
  intro top
  have hfind : find { m with maxLevel := top } k = findFrom m k (top + 1) m.head NULL := findFrom_levels m top k ..
  rw [hfind]
  constructor
  · intro hok
    by_contra htop
    have hnull : ref m top m.head = ⟨.MARKED, NULL⟩ := (hsame top (not_lt.1 htop)).trans (if_neg htop)
    unfold findFrom at hok
    rw [show nx m top m.head = NULL from congrArg Ref.next hnull] at hok
    unfold findLevel at hok
    cases hok
  · intro htop
    have hhead : ky m m.head < k := by rw [h.head_key]; exact hk.1
    exact h.findFrom_spec hk.2 top (by rw [h.levels]; exact htop) (mem_level.2 (.inl rfl)) hhead NULL

/-- two levels; from the upper one on the key is found -/
theorem find_right_below : ∃ m rs, run (initList 2 (-100) 100) ⟨fun _ => NULL, fun _ => NULL⟩ [.add 5 50 1] = .ok (m, rs) ∧
    find m 5 ≠ .ok true ∧ find { m with maxLevel := 1 } 5 = .ok true := by
  have hk : ∀ op ∈ [Op.add 5 50 1], (-100 : ℤ) < op.key ∧ op.key < 100 := by decide
  obtain ⟨m, D, h1, -⟩ := run_holds (init_holds (show 1 ≤ 2 by decide) (show (-100 : ℤ) < 100 by decide))
    ⟨fun _ => NULL, fun _ => NULL⟩ hk
  obtain ⟨hnever, hiff⟩ := find_right_iff (k := 5) (by decide) (by decide) _ _ hk h1 (by decide)
  exact ⟨m, _, h1, hnever, (hiff 1).2 (by decide)⟩

/-- `find` itself, on the empty list and after an `add` of the key: it follows NULL -/
theorem find_follows_null :
    find (initList 1 (-100) 100) 5 = .error .stuck ∧
    ∃ m, run (initList 2 (-100) 100) ⟨fun _ => NULL, fun _ => NULL⟩ [.add 5 50 1] = .ok (m, [.add true]) ∧
      find m 5 = .error .stuck := by
  refine ⟨rfl, ?_⟩
  have hk : ∀ op ∈ [Op.add 5 50 1], (-100 : ℤ) < op.key ∧ op.key < 100 := by decide
  obtain ⟨m, D, h1, h, hsame⟩ := run_holds (init_holds (show 1 ≤ 2 by decide) (show (-100 : ℤ) < 100 by decide))
    ⟨fun _ => NULL, fun _ => NULL⟩ hk
  refine ⟨m, h1, ?_⟩
  have hnull : nx m 2 m.head = NULL := congrArg Ref.next (hsame 2 le_rfl)
  unfold find
  rw [h.levels]
  unfold findFrom
  rw [hnull]
  rfl

end AlgorithmCollection.LockFreeSkiplist
