/-
The growth of the tables in an `add` of `ConcurrentCuckooHash`, with one thread.

Both hash codes are the key times an odd number, and the size of the tables is a power of two. So the two lists of a key hold
exactly the stored keys that are congruent to it modulo the size of the tables (`Holds.congruent_eq`), and `relocate` moves
nodes between these two lists only. `add` calls it when both lists have reached the threshold; then there is no list below
the threshold to move a node to, and `relocate` returns false (`relocate_path`). So every `add` that finds both lists at the
threshold doubles the tables, and one that finds them full calls itself after that.

`resize` fills the lists of the new tables in a fixed order (`Filled`): whether the next try finds room depends on the number
of stored keys congruent to the key modulo the new size. Keys that are congruent modulo 2^31 stay together up to the
largest tables.

- `returns_iff_congruent`, `largest_iff`: when a try returns, up to half of the largest tables and at the largest ones.
- `add_returns_iff`: `add` returns iff there are few enough stored keys congruent to the key modulo 2^30 or 2^31; at the
  largest tables, iff one of the lists of the key is below the threshold.
- `add_congruent_wraps`: three keys that are congruent modulo 2^32.
-/
import AlgorithmCollection.Conc.Solo
import AlgorithmCollection.Hash.ConcurrentCuckooHashBounds
import AlgorithmCollection.Hash.ConcurrentCuckooHashCount

namespace AlgorithmCollection.ConcurrentCuckooHash

open Conc
open Function (update_self update_of_ne)

/-- the keys in the lists -/
def storedKeys (m : Mem) : Finset ℤ := (places m).biUnion fun q => ((nodes m q).map (ky m)).toFinset

/-- the number of stored keys that are congruent to the key modulo 2^e -/
def congruent (m : Mem) (e : ℕ) (key : ℤ) : ℕ := ((storedKeys m).filter fun k => (2 : ℤ) ^ e ∣ k - key).card

/-! ## The lists of a key -/

section Lists

variable {P : Params} {m m' : Mem} {cont cont' : Fin 2 × ℕ → List ℕ} {M : ℤ → Option ℤ} {key : ℤ} {e : ℕ}

variable (h : Holds P m cont ∅ M)

include h

theorem Holds.mem_storedKeys : key ∈ storedKeys m ↔ M key ≠ none := by
  simp only [storedKeys, Finset.mem_biUnion, List.mem_toFinset, List.mem_map]
  constructor
  · rintro ⟨q, hq, x, hx, rfl⟩
    rw [h.nodes_eq (mem_places.1 hq)] at hx
    rw [h.map_eq (mem_data (mem_places.1 hq) hx)]
    exact Option.some_ne_none _
  · intro hk
    obtain ⟨i, x, hx, hkx⟩ := h.stored nofun hk
    have hl := h.live_place key i
    rw [← h.nodes_eq hl] at hx
    exact ⟨_, mem_places.2 hl, x, hx, hkx⟩

theorem storedKeys_eq (h' : Holds P m' cont' ∅ M) : storedKeys m' = storedKeys m := by
  ext k
  rw [h'.mem_storedKeys, h.mem_storedKeys]

theorem congruent_eq_of_map (h' : Holds P m' cont' ∅ M) (e : ℕ) : congruent m' e key = congruent m e key := by
  unfold congruent
  rw [storedKeys_eq h h']

omit h in
theorem congruent_antitone (m : Mem) (key : ℤ) {e e' : ℕ} (h : e ≤ e') : congruent m e' key ≤ congruent m e key := by
  refine Finset.card_le_card fun k hk => ?_
  obtain ⟨h1, h2⟩ := Finset.mem_filter.1 hk
  exact Finset.mem_filter.2 ⟨h1, (pow_dvd_pow 2 h).trans h2⟩

omit h in
/-- the lists of a key are the lists of the keys congruent to it -/
theorem place_eq_iff (hsize : m.tableSize = 2 ^ e) (he : e ≤ 64) (i : Fin 2) (k : ℤ) :
    place m k i = place m key i ↔ (2 : ℤ) ^ e ∣ k - key := by
  unfold place bucket
  rw [hsize, Prod.mk.injEq, bucket_eq_iff he]
  exact and_iff_right rfl

/-- **The two lists of a key** hold the stored keys that are congruent to it. -/
theorem Holds.congruent_eq (hsize : m.tableSize = 2 ^ e) (he : e ≤ 64) (key : ℤ) :
    congruent m e key = (cont (place m key 0)).length + (cont (place m key 1)).length := by
  have hl := h.live_place key
  have hkey : ∀ i, ∀ x ∈ cont (place m key i), (2 : ℤ) ^ e ∣ ky m x - key := fun i x hx => by
    rw [← place_eq_iff hsize he i]
    exact h.place_eq (hl i) hx
  have hinj : ((cont (place m key 0) ++ cont (place m key 1)).map (ky m)).Nodup := by
    have hdata : ∀ x ∈ cont (place m key 0) ++ cont (place m key 1), x ∈ data m cont ∅ := fun x hx => by
      rcases List.mem_append.1 hx with hx | hx
      · exact mem_data (hl 0) hx
      · exact mem_data (hl 1) hx
    refine List.Nodup.map_on (fun x hx y hy => h.keys x (hdata x hx) y (hdata y hy)) (List.nodup_append.2 ⟨?_, ?_, ?_⟩)
    · exact (h.lists.seg _ (hl 0)).nodup
    · exact (h.lists.seg _ (hl 1)).nodup
    · rintro x hx y hy rfl
      have hq := h.lists.apart _ (hl 0) _ (hl 1) x hx hy
      cases congrArg Prod.fst hq
  have hset : (storedKeys m).filter (fun k => (2 : ℤ) ^ e ∣ k - key) =
      ((cont (place m key 0) ++ cont (place m key 1)).map (ky m)).toFinset := by
    ext k
    rw [Finset.mem_filter, h.mem_storedKeys, List.mem_toFinset, List.mem_map]
    constructor
    · rintro ⟨hk, hdvd⟩
      obtain ⟨i, x, hx, rfl⟩ := h.stored nofun hk
      rw [(place_eq_iff hsize he i _).2 hdvd] at hx
      refine ⟨x, List.mem_append.2 ?_, rfl⟩
      fin_cases i
      · exact .inl hx
      · exact .inr hx
    · rintro ⟨x, hx, rfl⟩
      rcases List.mem_append.1 hx with hx | hx
      · exact ⟨by rw [h.map_eq (mem_data (hl 0) hx)]; exact Option.some_ne_none _, hkey 0 x hx⟩
      · exact ⟨by rw [h.map_eq (mem_data (hl 1) hx)]; exact Option.some_ne_none _, hkey 1 x hx⟩
  unfold congruent
  rw [hset, List.toFinset_card_of_nodup hinj, List.length_map, List.length_append]

theorem Holds.size_eq (key : ℤ) (i : Fin 2) :
    m.size (getList m i key) = (cont (place m key i)).length := h.lists.size _ (h.live_place key i)

end Lists

/-! ## The order in which `resize` fills the lists -/

/-- the list of a key in `table[1]` is used when the other has reached the threshold, and no list goes beyond the threshold
before both have reached it -/
def Filled (P : Params) (m : Mem) : Prop :=
  ∀ key, (m.size (getList m 0 key) < P.threshold → m.size (getList m 1 key) = 0) ∧
    (m.size (getList m 1 key) < P.threshold → m.size (getList m 0 key) ≤ P.threshold)

section Filled

variable {P : Params} {m m' : Mem} {e : ℕ}

/-- what the loops of `resize` need of the tables -/
structure Sized (e : ℕ) (m : Mem) : Prop where
  size : m.tableSize = 2 ^ e
  exp : e ≤ 64
  inj : ∀ q, live m q → ∀ r, live m r → headOf m q = headOf m r → q = r

theorem Sized.live_place (h : Sized e m) (key : ℤ) (i : Fin 2) : live m (place m key i) := by
  refine Nat.mod_lt _ ?_
  rw [h.size]
  exact Nat.two_pow_pos e

/-- two keys share both lists or none -/
theorem Sized.lists_eq (h : Sized e m) {i j : Fin 2} {key key' : ℤ} (hl : getList m i key = getList m j key') :
    i = j ∧ ∀ i, getList m i key = getList m i key' := by
  have hq : place m key i = place m key' j := h.inj _ (h.live_place key i) _ (h.live_place key' j) hl
  obtain rfl : i = j := congrArg Prod.fst hq
  rw [place_eq_iff h.size h.exp] at hq
  exact ⟨rfl, fun i => congrArg (headOf m) ((place_eq_iff h.size h.exp i key).2 hq)⟩

theorem addNodeAtTail_tables {l a : ℕ} (h : addNodeAtTail m l a = .ok m') :
    m'.table = m.table ∧ m'.tableSize = m.tableSize ∧ m'.size = Function.update m.size l (m.size l + 1) := by
  unfold addNodeAtTail at h
  split at h
  · cases h
  · cases h
    exact ⟨rfl, rfl, rfl⟩

theorem reinsert_filled (hs : Sized e m) (hf : Filled P m) {a : ℕ} (h : reinsert P m a = .ok m') :
    Sized e m' ∧ Filled P m' := by
  unfold reinsert at h
  split at h
  swap
  · cases h
  rename_i i b hc
  obtain ⟨htab, hz, hsize⟩ := addNodeAtTail_tables h
  have hget : ∀ i key, getList m' i key = getList m i key := fun i key => by
    simp only [getList, bucket, htab, hz]
  refine ⟨⟨hz.trans hs.size, hs.exp, ?_⟩, fun key => ?_⟩
  · simpa only [live, headOf, htab, hz] using hs.inj
  rw [hget, hget, hsize]
  have hk := hf (ky m a)
  by_cases hl : ∃ j, getList m j key = getList m i (ky m a)
  · -- a key with the same lists
    obtain ⟨j, hj⟩ := hl
    have hall := (hs.lists_eq hj).2
    rw [hall 0, hall 1]
    have hne : getList m 0 (ky m a) ≠ getList m 1 (ky m a) := fun e => by cases (hs.lists_eq e).1
    unfold chooseList choose at hc
    split_ifs at hc with h0 h1 h2 h3
    all_goals
      cases hc
      simp only [update_self, update_of_ne hne, update_of_ne hne.symm]
      omega
  · -- a key with other lists
    have hne : ∀ j, getList m j key ≠ getList m i (ky m a) := fun j hj => hl ⟨j, hj⟩
    rw [update_of_ne (hne 0), update_of_ne (hne 1)]
    exact hf key

theorem moveNodes_filled {n a : ℕ} (hs : Sized e m) (hf : Filled P m) (h : moveNodes P n m a = .ok m') :
    Sized e m' ∧ Filled P m' := by
  induction n generalizing m a with
  | zero => cases h
  | succ n ih =>
    rw [moveNodes] at h
    split_ifs at h
    · cases h
      exact ⟨hs, hf⟩
    · split at h
      · cases h
      · rename_i m1 h1
        obtain ⟨hs1, hf1⟩ := reinsert_filled hs hf h1
        exact ih hs1 hf1 h

theorem moveLists_filled {ls : List ℕ} (hs : Sized e m) (hf : Filled P m) (h : moveLists P m ls = .ok m') :
    Filled P m' := by
  induction ls generalizing m with
  | nil =>
    cases h
    exact hf
  | cons l ls ih =>
    rw [moveLists] at h
    split at h
    · cases h
    · rename_i m1 h1
      unfold moveList at h1
      split_ifs at h1
      · obtain ⟨hs1, hf1⟩ := moveNodes_filled hs hf h1
        exact ih hs1 hf1 h
      · cases h1
        exact ih hs hf h

/-- **`resize`** leaves lists filled in this order. -/
theorem resize_filled (hsize : m.tableSize = 2 ^ e) (h : resize P m = .ok m') : Filled P m' := by
  unfold resize at h
  split_ifs at h with hlt
  have he : e + 1 ≤ 64 := by
    have h2 : 2 ^ (e + 1) < 2 ^ 32 := by rw [pow_succ, ← hsize]; exact hlt
    have := (Nat.pow_lt_pow_iff_right (by norm_num : 1 < 2)).1 h2
    omega
  have hhead : ∀ q, headOf (doubled m) q = m.fresh + 2 * q.2 + q.1 := fun _ => rfl
  have hs : Sized (e + 1) (doubled m) := by
    refine ⟨?_, he, fun q _ r _ hqr => ?_⟩
    · change m.tableSize * 2 = _
      rw [hsize, pow_succ]
    · rw [hhead, hhead] at hqr
      have h1 := q.1.isLt
      have h2 := r.1.isLt
      exact Prod.ext (Fin.ext (by omega)) (by omega)
  have hempty : ∀ i key, (doubled m).size (getList (doubled m) i key) = 0 := fun i key => by
    have hl : (place (doubled m) key i).2 < m.tableSize * 2 := hs.live_place key i
    have h1 := i.isLt
    refine if_pos ?_
    change m.fresh ≤ headOf (doubled m) (place (doubled m) key i) ∧ headOf (doubled m) (place (doubled m) key i) < _
    rw [hhead]
    change m.fresh ≤ m.fresh + 2 * (place (doubled m) key i).2 + i ∧ _
    omega
  refine moveLists_filled hs (fun key => ?_) h
  rw [hempty, hempty]
  omega

end Filled

/-! ## The steps of one thread -/

/-- the steps of thread 0 in call op when the others take none -/
def alone (P : Params) (op : Op) (s : Mem × Pc) : Mem × Pc := exec P 0 s.1 op s.2

/-- a thread alone comes from one state to the other -/
abbrev Goes (P : Params) (op : Op) (x y : Mem × Pc) : Prop := Path (alone P op) (fun _ => True) x y

/-- the call returns, if the thread goes on alone from there -/
def Returns (P : Params) (op : Op) (x : Mem × Pc) : Prop := ∃ m r, Goes P op x (m, .ret r)

/-- all mutexes are free -/
def Free (m : Mem) : Prop := ∀ i b, m.mtx i b = none

def withMtx (m : Mem) (mtx : Fin 2 → ℕ → Option ℕ) : Mem := { m with mtx := mtx }

/-- the memory with all mutexes free -/
def freed (m : Mem) : Mem := withMtx m fun _ _ => none

section Steps

variable {P : Params} {op : Op} {m m' : Mem} {pc pc' : Pc} {x y : Mem × Pc}

theorem Goes.step (h : exec P 0 m op pc = y) (t : Goes P op y x) : Goes P op (m, pc) x := .cons trivial h t

theorem returns_iff (h : Goes P op x y) : Returns P op x ↔ Returns P op y := by
  constructor
  · rintro ⟨m, r, hp⟩
    exact ⟨m, r, hp.rest h rfl⟩
  · rintro ⟨m, r, hp⟩
    exact ⟨m, r, h.trans hp⟩

theorem returns_ret (m : Mem) (r : Res) : Returns P op (m, .ret r) := ⟨m, r, .refl⟩

theorem not_returns_fault (m : Mem) (f : Fault) : ¬ Returns P op (m, .fault f) := by
  rintro ⟨m', r, hp⟩
  exact hp.not_of_trap (fun s => s = (m, .fault f)) .refl rfl (fun s hs => by rw [hs]; rfl) rfl nofun

/-! ### Mutexes -/

theorem withMtx_self {mtx : Fin 2 → ℕ → Option ℕ} (h : ∀ i b, mtx i b = m.mtx i b) : withMtx m mtx = m := by
  obtain rfl : mtx = m.mtx := funext fun i => funext fun b => h i b
  rfl

theorem setMtx_withMtx {mtx mtx' : Fin 2 → ℕ → Option ℕ} {i : Fin 2} {b : ℕ} {o : Option ℕ}
    (h : ∀ j c, (if j = i ∧ c = b then o else mtx j c) = mtx' j c) :
    setMtx (withMtx m mtx) i b o = withMtx m mtx' := by
  obtain rfl : (setMtx (withMtx m mtx) i b o).mtx = mtx' := funext fun j => funext fun c => by
    rw [mtx_setMtx]
    exact h j c
  rfl

/-- the memory with both mutexes of a key taken -/
def held (P : Params) (m : Mem) (key : ℤ) : Mem :=
  setMtx (setMtx m 0 (stripe P 0 key) (some 0)) 1 (stripe P 1 key) (some 0)

variable (op) in
theorem acquire_path (hfree : Free m) (j : Job) : Goes P op (m, .acquire0 j) (held P m (j.key op), j.next) := by
  have h0 : exec P 0 m op (.acquire0 j) = (setMtx m 0 (stripe P 0 (j.key op)) (some 0), .acquire1 j) :=
    if_pos (hfree 0 _)
  have hone : (setMtx m 0 (stripe P 0 (j.key op)) (some 0)).mtx 1 (stripe P 1 (j.key op)) = none := by
    rw [mtx_setMtx, if_neg (fun h => nomatch h.1)]
    exact hfree 1 _
  have h1 : exec P 0 (setMtx m 0 (stripe P 0 (j.key op)) (some 0)) op (.acquire1 j) = (held P m (j.key op), j.next) :=
    if_pos hone
  exact Goes.step h0 (Goes.step h1 .refl)

theorem free_freed (m : Mem) : Free (freed m) := fun _ _ => rfl

theorem release_path (hfree : Free m) {key : ℤ} (hm : m'.mtx = (held P m key).mtx) (k : Cont) :
    Goes P op (m', .release0 key k) (k.next 0 (freed m') op) := by
  have hall : setMtx (setMtx m' 0 (stripe P 0 key) none) 1 (stripe P 1 key) none = freed m' := by
    refine setMtx_withMtx (m := m') fun i b => ?_
    change (if i = 1 ∧ b = stripe P 1 key then none else (setMtx m' 0 (stripe P 0 key) none).mtx i b) = none
    rw [mtx_setMtx, hm]
    split_ifs with h1 h0
    · rfl
    · rfl
    · unfold held
      rw [mtx_setMtx, mtx_setMtx, if_neg h1, if_neg h0]
      exact hfree i b
  have h0 : exec P 0 m' op (.release0 key k) = (setMtx m' 0 (stripe P 0 key) none, .release1 key k) := rfl
  have h1 : exec P 0 (setMtx m' 0 (stripe P 0 key) none) op (.release1 key k) = k.next 0 (freed m') op := by
    rw [← hall]
    rfl
  exact Goes.step h0 (Goes.step h1 .refl)

variable (op) in
/-- the locked part of a call, with its mutexes -/
theorem call_path (hfree : Free m) {nested : Bool} {k : Cont} (hw : work P (held P m op.key) nested op = .ok (m', k)) :
    Goes P op (m, .acquire0 (.call nested)) (k.next 0 (freed m') op) := by
  have hwork : exec P 0 (held P m op.key) op (.work nested) = (m', .release0 op.key k) := by
    simp only [exec, hw, locked]
  have hm : m'.mtx = (held P m op.key).mtx := work_mtx hw
  exact (acquire_path op hfree (.call nested)).trans (Goes.step hwork (release_path hfree hm k))

/-- the mutexes below p are taken, in the order of `aLock` -/
def heldBelow (m : Mem) (p : ℕ) : Mem := withMtx m fun i b => if 2 * b + i < p then some 0 else none

/-- the mutexes from p on are still taken, in the order of `aUnLock` -/
def heldFrom (P : Params) (m : Mem) (p : ℕ) : Mem :=
  withMtx m fun i b => if b < P.mtxSize ∧ p ≤ 2 * b + (1 - i : ℕ) then some 0 else none

theorem unlockAt_iff (p : ℕ) (i : Fin 2) (b : ℕ) : i = (unlockAt p).1 ∧ b = (unlockAt p).2 ↔ 2 * b + (1 - i : ℕ) = p := by
  unfold unlockAt
  fin_cases i <;> split_ifs <;> simp <;> omega

theorem heldBelow_succ (m : Mem) (p : ℕ) :
    setMtx (heldBelow m p) (lockAt p).1 (lockAt p).2 (some 0) = heldBelow m (p + 1) := by
  refine setMtx_withMtx fun i b => ?_
  simp only [lockAt_iff]
  split_ifs <;> first | rfl | omega

theorem heldFrom_succ (P : Params) (m : Mem) (p : ℕ) :
    setMtx (heldFrom P m p) (unlockAt p).1 (unlockAt p).2 none = heldFrom P m (p + 1) := by
  refine setMtx_withMtx fun i b => ?_
  simp only [unlockAt_iff]
  split_ifs <;> first | rfl | omega

theorem aLock_path (hfree : Free m) (k : Then) : Goes P op (m, .aLock 0 k) (heldBelow m (2 * P.mtxSize), .resize k) := by
  have hstart : heldBelow m 0 = m := withMtx_self fun i b => (if_neg (Nat.not_lt_zero _)).trans (hfree i b).symm
  have hstep : ∀ p, exec P 0 (heldBelow m p) op (.aLock p k) =
      (heldBelow m (p + 1), if p + 1 < 2 * P.mtxSize then .aLock (p + 1) k else .resize k) := by
    intro p
    have hnone : (heldBelow m p).mtx (lockAt p).1 (lockAt p).2 = none := by
      have hp := (lockAt_iff p (lockAt p).1 (lockAt p).2).1 ⟨rfl, rfl⟩
      refine if_neg ?_
      omega
    rw [← heldBelow_succ]
    exact if_pos hnone
  have hrun : ∀ n p, p + n + 1 = 2 * P.mtxSize →
      Goes P op (heldBelow m p, .aLock p k) (heldBelow m (2 * P.mtxSize), .resize k) := by
    intro n
    induction n with
    | zero =>
      intro p hp
      have h := hstep p
      rw [if_neg (by omega), show p + 1 = 2 * P.mtxSize by omega] at h
      exact Goes.step h .refl
    | succ n ih =>
      intro p hp
      have h := hstep p
      rw [if_pos (by omega)] at h
      exact Goes.step h (ih (p + 1) (by omega))
  have hpos := mtxSize_pos P
  have := hrun (2 * P.mtxSize - 1) 0 (by omega)
  rwa [hstart] at this

theorem aUnLock_path (hm : ∀ i b, m.mtx i b = if b < P.mtxSize then some 0 else none) (k : Then) :
    Goes P op (m, .aUnLock 0 k) (k.next 0 (freed m) op) := by
  have hstart : heldFrom P m 0 = m := withMtx_self fun i b => by
    rw [hm i b]
    simp
  have hend : heldFrom P m (2 * P.mtxSize) = freed m := by
    unfold heldFrom freed
    congr 1
    funext i b
    have := i.isLt
    exact if_neg (by omega)
  have hstep : ∀ p, exec P 0 (heldFrom P m p) op (.aUnLock p k) =
      if p + 1 < 2 * P.mtxSize then (heldFrom P m (p + 1), .aUnLock (p + 1) k)
      else k.next 0 (heldFrom P m (p + 1)) op := by
    intro p
    rw [← heldFrom_succ]
    rfl
  have hrun : ∀ n p, p + n + 1 = 2 * P.mtxSize → Goes P op (heldFrom P m p, .aUnLock p k) (k.next 0 (freed m) op) := by
    intro n
    induction n with
    | zero =>
      intro p hp
      have h := hstep p
      rw [if_neg (by omega), show p + 1 = 2 * P.mtxSize by omega, hend] at h
      exact Goes.step h .refl
    | succ n ih =>
      intro p hp
      have h := hstep p
      rw [if_pos (by omega)] at h
      exact Goes.step h (ih (p + 1) (by omega))
  have hpos := mtxSize_pos P
  have := hrun (2 * P.mtxSize - 1) 0 (by omega)
  rwa [hstart] at this

end Steps

/-! ## The parts of `add` -/

/-- between the parts of a call: the nodes are in the lists, and no mutex is taken -/
structure Rest (P : Params) (m : Mem) (cont : Fin 2 × ℕ → List ℕ) (M : ℤ → Option ℤ) : Prop where
  holds : Holds P m cont ∅ M
  free : Free m

section Parts

variable {P : Params} {op : Op} {m m' : Mem} {cont cont' : Fin 2 × ℕ → List ℕ} {H : Set ℕ} {M : ℤ → Option ℤ}
  {key val : ℤ} {e : ℕ} {i : Fin 2}

theorem Holds.withMtx (h : Holds P m cont H M) (mtx : Fin 2 → ℕ → Option ℕ) : Holds P (withMtx m mtx) cont H M :=
  h.mem_eq rfl rfl rfl rfl rfl

theorem Holds.held (h : Holds P m cont H M) (key : ℤ) : Holds P (held P m key) cont H M := h.mem_eq rfl rfl rfl rfl rfl

theorem Holds.rest (h : Holds P m cont ∅ M) : Rest P (freed m) cont M := ⟨h.withMtx _, free_freed m⟩

/-! ### The locked part -/

variable (h : Rest P m cont M)

include h

/-- the key is stored -/
theorem try_stored (hk : M key ≠ none) (nested : Bool) : Returns P (.add key val) (m, .acquire0 (.call nested)) := by
  have hc := (h.holds.held key).containsOp_eq key nofun
  rw [Option.isSome_iff_ne_none.2 hk] at hc
  have hw : work P (held P m key) nested (.add key val) = .ok (held P m key, .ret (.add nested)) := by
    simp only [work, addWork, hc]
  exact (returns_iff (call_path (.add key val) h.free hw)).2 (returns_ret _ _)

variable (val) in
/-- there is room for the key in table i -/
theorem try_room (hk : M key = none) {probing : Bool} (hc : chooseList P m key = some (i, probing)) (nested : Bool) :
    ∃ m', Goes P (.add key val) (m, .acquire0 (.call nested))
        ((if probing then .relocate i (bucket m i key) 0 else Cont.ret (.add true)).next 0 m' (.add key val)) ∧
      Rest P m' (Function.update cont (place m key i) (cont (place m key i) ++ [m.fresh])) (Function.update M key (some val)) ∧
      m'.tableSize = m.tableSize := by
  have hh := h.holds.held key
  have hcon := hh.containsOp_eq key nofun
  rw [hk] at hcon
  have hc' : chooseList P (held P m key) key = some (i, probing) := hc
  obtain ⟨m', e, hg, hh'⟩ := hh.add_list val hk hc'
  have hw : work P (held P m key) nested (.add key val) =
      .ok (m', if probing then .relocate i (bucket m i key) 0 else .ret (.add true)) := by
    have hnew : chooseList P (createNode (held P m key) key val) key = some (i, probing) := hc
    simp only [work, addWork, hcon, Option.isSome_none, hnew, e]
    rfl
  exact ⟨freed m', call_path (.add key val) h.free hw, hh'.rest, hg.tableSize⟩

variable (val) in
/-- both lists are full -/
theorem try_full (hk : M key = none) (hc : chooseList P m key = none) (nested : Bool) :
    ∃ m', Goes P (.add key val) (m, .acquire0 (.call nested)) (m', .aLock 0 .again) ∧ Rest P m' cont M ∧
      m'.tableSize = m.tableSize := by
  have hh := h.holds.held key
  have hcon := hh.containsOp_eq key nofun
  rw [hk] at hcon
  have hw : work P (held P m key) nested (.add key val) =
      .ok (createNode (held P m key) key val, .resize .again) := by
    have hnew : chooseList P (createNode (held P m key) key val) key = none := hc
    simp only [work, addWork, hcon, Option.isSome_none, hnew]
  exact ⟨freed (createNode (held P m key) key val), call_path (.add key val) h.free hw, (hh.add_full hk).rest, rfl⟩

/-! ### `resize` -/

variable (op) in
/-- `resize`, where the tables can be doubled -/
theorem resize_path (hlt : m.tableSize * 2 < 2 ^ 32) (k : Then) :
    ∃ m' cont', Goes P op (m, .aLock 0 k) (k.next 0 m' op) ∧ Rest P m' cont' M ∧ m'.tableSize = m.tableSize * 2 ∧
      Filled P m' := by
  have hh : Holds P (heldBelow m (2 * P.mtxSize)) cont ∅ M := h.holds.withMtx _
  obtain ⟨e, he⟩ := hh.pow
  rcases hh.resize_ok with ⟨-, hge⟩ | ⟨m', cont', hr, hh', hsame⟩
  · exact absurd hlt hge
  have hex : exec P 0 (heldBelow m (2 * P.mtxSize)) op (.resize k) = (m', .aUnLock 0 k) := by
    simp only [exec, hr]
  have hmtx : ∀ i b, m'.mtx i b = if b < P.mtxSize then some 0 else none := by
    intro i b
    rw [hsame.mtx]
    change (if 2 * b + (i : ℕ) < 2 * P.mtxSize then some 0 else none) = _
    have hi := i.isLt
    have hb : 2 * b + (i : ℕ) < 2 * P.mtxSize ↔ b < P.mtxSize := by omega
    simp only [hb]
  exact ⟨freed m', cont', (aLock_path h.free k).trans (Goes.step hex (aUnLock_path hmtx k)), hh'.rest, hsame.tableSize,
    fun key => resize_filled he hr key⟩

/-- `resize`, where `table_size` would become 0 -/
theorem resize_wraps (hge : ¬ m.tableSize * 2 < 2 ^ 32) (k : Then) : ¬ Returns P op (m, .aLock 0 k) := by
  have hex : exec P 0 (heldBelow m (2 * P.mtxSize)) op (.resize k) =
      (heldBelow m (2 * P.mtxSize), .fault .wrap) := by
    have hr : resize P (heldBelow m (2 * P.mtxSize)) = .error .wrap := if_neg hge
    simp only [exec, hr]
  rw [returns_iff ((aLock_path h.free k).trans (Goes.step hex .refl))]
  exact not_returns_fault _ _

/-- an `add` that only has to double the tables -/
theorem done_iff : Returns P op (m, .aLock 0 .done) ↔ m.tableSize * 2 < 2 ^ 32 := by
  by_cases hlt : m.tableSize * 2 < 2 ^ 32
  · obtain ⟨m', cont', hp, -⟩ := resize_path op h hlt .done
    exact iff_of_true ((returns_iff hp).2 (returns_ret _ _)) hlt
  · exact iff_of_false (resize_wraps h hlt .done) hlt

/-! ### `relocate` -/

omit h in
/-- the node goes to a list of its key -/
theorem Holds.put_node {y : ℕ} {q : Fin 2 × ℕ} (h : Holds P m cont (insert y ∅) M) (hq : live m q)
    (hb : bucket m q.1 (ky m y) = q.2) (hr : (cont q).length < cap P) :
    ∃ m', addNodeAtTail m (headOf m q) y = .ok m' ∧ Holds P m' (Function.update cont q (cont q ++ [y])) ∅ M ∧
      Same m m' := by
  obtain ⟨m', e, hsame, hh, -⟩ := h.addNodeAtTail_ok hq (Set.mem_insert y ∅) hb hr
  rw [Set.insert_sdiff_self_of_notMem (Set.notMem_empty y)] at hh
  exact ⟨m', e, hh, hsame⟩

variable (op) in
/-- a round of `relocate` up to the choice of the list, with the first node y of the list -/
theorem round_start {q : Fin 2 × ℕ} (hq : live m q) {y : ℕ} {ys : List ℕ} (hy : cont q = y :: ys) (round : ℕ) :
    ∃ m' l, Goes P op (m, .table q.1 q.2 round)
        (m', .put ⟨q.1, q.2, round, headOf m q, ky m y, bucket m (1 - q.1) (ky m y)⟩
          (headOf m (1 - q.1, bucket m (1 - q.1) (ky m y))) y) ∧
      Same (held P m (ky m y)) m' ∧ Holds P m' (Function.update cont q l) (insert y ∅) M ∧ l.length + 1 = (cont q).length := by
  have hseg := h.holds.lists.seg q hq
  rw [hy] at hseg
  obtain ⟨hnx, hne, -⟩ := hseg
  have h1 : exec P 0 m op (.table q.1 q.2 round) = (m, .head q.1 q.2 round (headOf m q)) := rfl
  have h2 : exec P 0 m op (.head q.1 q.2 round (headOf m q)) = (m, .bucket q.1 q.2 round (headOf m q) (ky m y)) := by
    rw [← hnx]
    exact if_neg (by rw [hnx]; exact hne)
  generalize hx : (⟨q.1, q.2, round, headOf m q, ky m y, bucket m (1 - q.1) (ky m y)⟩ : Move) = x
  have h3 : exec P 0 m op (.bucket q.1 q.2 round (headOf m q) (ky m y)) = (m, .acquire0 (.move x)) := by
    rw [← hx]; rfl
  have hkey : Job.key op (.move x) = ky m y := by rw [← hx]; rfl
  have h4 := acquire_path (P := P) op h.free (.move x)
  rw [hkey] at h4
  have hky : ky (held P m (ky m y)) y = ky m y := rfl
  obtain ⟨m', ys', zs', hsplit, hd, hsame, hh⟩ := (h.holds.held (ky m y)).deleteNode_ok (q := q) hq
    (by rw [hy]; exact List.mem_cons_self) hky
  have h5 : exec P 0 (held P m (ky m y)) op (.take x) =
      (m', .put x (headOf m (1 - q.1, bucket m (1 - q.1) (ky m y))) y) := by
    have hd' : deleteNode (held P m (ky m y)) x.iSet x.lockKey = .ok (m', y) := by rw [← hx]; exact hd
    simp only [exec, hd']
    rw [← hx]
    rfl
  refine ⟨m', ys' ++ zs', Goes.step h1 (Goes.step h2 (Goes.step h3 (h4.trans (Goes.step h5 .refl)))), hsame, hh, ?_⟩
  rw [hsplit]
  simp only [List.length_append, List.length_cons]
  omega

/-- both lists of the key have reached the threshold, and that in table i is beyond it -/
structure Over (P : Params) (m : Mem) (cont : Fin 2 × ℕ → List ℕ) (key : ℤ) (i : Fin 2) : Prop where
  ne : cont (place m key i) ≠ []
  source : P.threshold < (cont (place m key i)).length
  target : P.threshold ≤ (cont (place m key (1 - i))).length

omit h in
theorem one_sub_one_sub (i : Fin 2) : 1 - (1 - i) = i := by fin_cases i <;> rfl

omit h in
theorem place_ne (m : Mem) (key : ℤ) (i : Fin 2) : place m key (1 - i) ≠ place m key i := by
  intro h
  have := congrArg Prod.fst h
  fin_cases i <;> cases this

omit h in
/-- the lists of the key, in tables of the same size -/
theorem place_same (h : m'.tableSize = m.tableSize) (key : ℤ) (i : Fin 2) : place m' key i = place m key i := by
  simp only [place, bucket, h]

variable (op) in
/-- **A round of `relocate`** finds no list below the threshold: it is the last one, or the node goes to the other list. -/
theorem round_path (hsize : m.tableSize = 2 ^ e) (he : e ≤ 64) (ho : Over P m cont key i) (round : ℕ) :
    ∃ m' cont', Rest P m' cont' M ∧ m'.tableSize = m.tableSize ∧
      (Goes P op (m, .table i (bucket m i key) round) (m', .aLock 0 .done) ∨
        round + 1 < LIMIT ∧ Over P m' cont' key (1 - i) ∧
          Goes P op (m, .table i (bucket m i key) round) (m', .table (1 - i) (bucket m' (1 - i) key) (round + 1))) := by
  have hlive := h.holds.live_place key
  obtain ⟨y, ys, hy⟩ := List.exists_cons_of_ne_nil ho.ne
  obtain ⟨m1, l, hgo, hsame, hh, hl⟩ := round_start op h (hlive i) hy round
  -- the lists of y are those of the key
  have hplace : place m (ky m y) i = place m key i :=
    h.holds.place_eq (hlive i) (by rw [hy]; exact List.mem_cons_self)
  have hdvd := (place_eq_iff hsize he i (ky m y)).1 hplace
  have hother : place m (ky m y) (1 - i) = place m key (1 - i) := (place_eq_iff hsize he (1 - i) (ky m y)).2 hdvd
  have hz : m1.tableSize = m.tableSize := hsame.tableSize
  have hky : ky m1 y = ky m y := congrFun hsame.ky y
  have hhead : ∀ q, headOf m1 q = headOf m q := fun q => congrFun hsame.headOf q
  have hlive1 : ∀ i, live m1 (place m key i) := fun i => by unfold live; rw [hz]; exact hlive i
  have hb : ∀ j, bucket m1 (place m key j).1 (ky m1 y) = (place m key j).2 := fun j => by
    have hj := congrArg Prod.snd ((place_eq_iff hsize he j (ky m y)).2 hdvd)
    rw [hky]
    exact (congrArg Prod.snd (place_same hz (ky m y) j)).trans hj
  have hlen : (Function.update cont (place m key i) l (place m key i)).length < cap P := by
    have := h.holds.room _ (hlive i)
    rw [update_self]
    omega
  have hlen' : Function.update cont (place m key i) l (place m key (1 - i)) = cont (place m key (1 - i)) :=
    update_of_ne (place_ne m key i) ..
  -- the size of the other list
  set x : Move := ⟨i, bucket m i key, round, headOf m (place m key i), ky m y, bucket m (1 - i) (ky m y)⟩ with hx
  set jSet := headOf m (1 - i, bucket m (1 - i) (ky m y)) with hjSet
  have hjSet' : jSet = headOf m1 (place m key (1 - i)) := by rw [hhead, ← hother]; rfl
  have hjsize : m1.size jSet = (cont (place m key (1 - i))).length := by
    rw [hjSet', hh.lists.size _ (hlive1 _), hlen']
  have hnot : ¬ m1.size jSet < P.threshold := by
    rw [hjsize]
    exact not_lt.2 ho.target
  have hend : ∀ {m2 : Mem} {k : Cont}, putWork P m1 x jSet y = .ok (m2, k) →
      Goes P op (m, .table i (bucket m i key) round) (k.next 0 (freed m2) op) := by
    intro m2 k hw
    have hput : exec P 0 m1 op (.put x jSet y) = (m2, .release0 (ky m y) k) := by
      simp only [exec, hw, locked]
      rfl
    have hm2 : m2.mtx = (held P m (ky m y)).mtx := (putWork_mtx hw).trans hsame.mtx
    exact hgo.trans (Goes.step hput (release_path h.free hm2 k))
  by_cases hprobe : m1.size jSet < P.probeSize
  · -- to the other list
    have hroom : (Function.update cont (place m key i) l (place m key (1 - i))).length < cap P := by
      rw [hlen']
      rw [hjsize] at hprobe
      unfold cap
      omega
    obtain ⟨m2, hadd, hh2, hsame2⟩ := hh.put_node (hlive1 (1 - i)) (hb (1 - i)) hroom
    rw [← hjSet'] at hadd
    have hz2 : m2.tableSize = m.tableSize := hsame2.tableSize.trans hz
    have hw : putWork P m1 x jSet y =
        .ok (m2, if round + 1 < LIMIT then .relocate (1 - i) (bucket m (1 - i) (ky m y)) (round + 1) else .resize .done) := by
      unfold putWork
      rw [if_neg hnot, if_pos hprobe, hadd]
    have hgo2 := hend hw
    refine ⟨freed m2, _, hh2.rest, hz2, ?_⟩
    by_cases hround : round + 1 < LIMIT
    · right
      rw [if_pos hround] at hgo2
      have hsame2 : ∀ j, place (freed m2) key j = place m key j := place_same hz2 key
      have hbucket : bucket m (1 - i) (ky m y) = bucket (freed m2) (1 - i) key :=
        (congrArg Prod.snd hother).trans (congrArg Prod.snd (hsame2 (1 - i))).symm
      rw [hbucket] at hgo2
      refine ⟨hround, ?_, hgo2⟩
      have hsrc := ho.source
      constructor
      · rw [hsame2, update_self]
        simp
      · rw [hsame2, update_self, hlen', List.length_append, List.length_singleton]
        have := ho.target
        omega
      · rw [one_sub_one_sub, hsame2, update_of_ne (place_ne m key i).symm,
          update_self]
        omega
    · left
      rw [if_neg hround] at hgo2
      exact hgo2
  · -- back to its list
    obtain ⟨m2, hadd, hh2, hsame2⟩ := hh.put_node (hlive1 i) (hb i) hlen
    rw [hhead] at hadd
    have hw : putWork P m1 x jSet y = .ok (m2, .resize .done) := by
      unfold putWork
      rw [if_neg hnot, if_neg hprobe, hadd]
    exact ⟨freed m2, _, hh2.rest, hsame2.tableSize.trans hz, .inl (hend hw)⟩

variable (op) in
/-- **`relocate` returns false** when both lists have reached the threshold. -/
theorem relocate_path (hsize : m.tableSize = 2 ^ e) (he : e ≤ 64) (ho : Over P m cont key i) (round : ℕ) :
    ∃ m' cont', Goes P op (m, .table i (bucket m i key) round) (m', .aLock 0 .done) ∧ Rest P m' cont' M ∧
      m'.tableSize = m.tableSize := by
  -- the number of rounds that are left
  obtain ⟨n, hn⟩ : ∃ n, n = LIMIT - round := ⟨_, rfl⟩
  induction n generalizing m cont i round with
  | zero =>
    obtain ⟨m', cont', hr, hz, hgo | ⟨hlt, -⟩⟩ := round_path op h hsize he ho round
    · exact ⟨m', cont', hgo, hr, hz⟩
    · omega
  | succ n ih =>
    obtain ⟨m', cont', hr, hz, hgo | ⟨hlt, ho', hgo⟩⟩ := round_path op h hsize he ho round
    · exact ⟨m', cont', hgo, hr, hz⟩
    · obtain ⟨m2, cont2, hgo2, hr2, hz2⟩ := ih hr (hz.trans hsize) ho' (round + 1) (by omega)
      exact ⟨m2, cont2, hgo.trans hgo2, hr2, hz2.trans hz⟩

end Parts

/-! ## Tries -/

section Tries

variable {P : Params} {m : Mem} {cont : Fin 2 × ℕ → List ℕ} {M : ℤ → Option ℤ} {key val : ℤ} {e : ℕ} {nested : Bool}

/-- where a node goes, by the sizes of its lists -/
theorem choose_cases (P : Params) (size : Fin 2 → ℤ) :
    ((∃ i, size i < P.threshold) ∧ ∃ i, choose P (size 0) (size 1) = some (i, false)) ∨
      (∀ i, P.threshold ≤ size i) ∧
        ((∃ i, size i < P.probeSize ∧ choose P (size 0) (size 1) = some (i, true)) ∨
          (∀ i, P.probeSize ≤ size i) ∧ choose P (size 0) (size 1) = none) := by
  simp only [Fin.exists_fin_two, Fin.forall_fin_two]
  unfold choose
  split_ifs with h0 h1 h2 h3
  · exact .inl ⟨.inl h0, .inl rfl⟩
  · exact .inl ⟨.inr h1, .inr rfl⟩
  · exact .inr ⟨⟨not_lt.1 h0, not_lt.1 h1⟩, .inl (.inl ⟨h2, rfl⟩)⟩
  · exact .inr ⟨⟨not_lt.1 h0, not_lt.1 h1⟩, .inl (.inr ⟨h3, rfl⟩)⟩
  · exact .inr ⟨⟨not_lt.1 h0, not_lt.1 h1⟩, .inr ⟨⟨not_lt.1 h2, not_lt.1 h3⟩, rfl⟩⟩

variable (h : Rest P m cont M)

include h

variable (hk : M key = none)

include hk

/-- a list below the threshold -/
theorem below_returns {i : Fin 2}
    (hc : chooseList P m key = some (i, false)) : Returns P (.add key val) (m, .acquire0 (.call nested)) := by
  obtain ⟨m', hgo, -⟩ := try_room val h hk hc nested
  exact (returns_iff hgo).2 (returns_ret _ _)

/-- no list below the threshold, and one below `probe_size`: the tables are doubled once -/
theorem probing_iff (hsize : m.tableSize = 2 ^ e) (he : e ≤ 64)
    (hT : ∀ i, P.threshold ≤ m.size (getList m i key)) {i : Fin 2} (hc : chooseList P m key = some (i, true)) :
    Returns P (.add key val) (m, .acquire0 (.call nested)) ↔ m.tableSize * 2 < 2 ^ 32 := by
  simp only [h.holds.size_eq] at hT
  obtain ⟨m1, hgo, hr, hz⟩ := try_room val h hk hc nested
  have hover : Over P m1 (Function.update cont (place m key i) (cont (place m key i) ++ [m.fresh])) key i := by
    constructor
    · rw [place_same hz, update_self]
      simp
    · rw [place_same hz, update_self, List.length_append, List.length_singleton]
      have := hT i
      omega
    · rw [place_same hz, update_of_ne (place_ne m key i)]
      exact hT (1 - i)
  obtain ⟨m2, cont2, hgo2, hr2, hz2⟩ := relocate_path (.add key val) hr (hz.trans hsize) he hover 0
  have hstart : (Cont.relocate i (bucket m i key) 0).next 0 m1 (.add key val) = (m1, .table i (bucket m1 i key) 0) :=
    congrArg (fun b => (m1, Pc.table i b 0)) (congrArg Prod.snd (place_same hz key i)).symm
  rw [if_pos rfl, hstart] at hgo
  rw [returns_iff (hgo.trans hgo2), done_iff hr2, hz2, hz]

variable (val nested) in
/-- both lists are full: another try after a `resize` -/
theorem full_iff (hlt : m.tableSize * 2 < 2 ^ 32) (hc : chooseList P m key = none) :
    ∃ m' cont', Rest P m' cont' M ∧ m'.tableSize = m.tableSize * 2 ∧ Filled P m' ∧
      (Returns P (.add key val) (m, .acquire0 (.call nested)) ↔
        Returns P (.add key val) (m', .acquire0 (.call true))) := by
  obtain ⟨m1, hgo, hr, hz⟩ := try_full val h hk hc nested
  obtain ⟨m2, cont2, hgo2, hr2, hz2, hf⟩ := resize_path (.add key val) hr (by rw [hz]; exact hlt) .again
  exact ⟨m2, cont2, hr2, hz2.trans (by rw [hz]), hf, returns_iff (hgo.trans hgo2)⟩

/-- **At the largest tables** `add` returns iff one of the lists is below the threshold. -/
theorem largest_iff (hsize : m.tableSize = 2 ^ 31) :
    Returns P (.add key val) (m, .acquire0 (.call nested)) ↔ ∃ i, m.size (getList m i key) < P.threshold := by
  have hwrap : ¬ m.tableSize * 2 < 2 ^ 32 := by rw [hsize]; norm_num
  rcases choose_cases P fun i => m.size (getList m i key) with ⟨hbelow, i, hc⟩ | ⟨hT, hrest⟩
  · exact iff_of_true (below_returns h hk hc) hbelow
  have hno : ¬ ∃ i, m.size (getList m i key) < P.threshold := fun ⟨i, hi⟩ => absurd (hT i) (not_le.2 hi)
  rcases hrest with ⟨i, -, hc⟩ | ⟨-, hc⟩
  · exact iff_of_false (fun hret => hwrap ((probing_iff h hk hsize (by norm_num) hT hc).1 hret)) hno
  · refine iff_of_false (fun hret => ?_) hno
    obtain ⟨m1, hgo, hr, hz⟩ := try_full val h hk hc nested
    exact resize_wraps hr (by rw [hz]; exact hwrap) .again ((returns_iff hgo).1 hret)

omit hk in
omit h in
/-- after a `resize`, one of the lists is below the threshold iff there are few congruent keys -/
theorem Filled.below_iff (hf : Filled P m) (h : Rest P m cont M) (hsize : m.tableSize = 2 ^ e) (he : e ≤ 64) :
    (∃ i, m.size (getList m i key) < P.threshold) ↔ (congruent m e key : ℤ) < 2 * P.threshold := by
  have hkey := hf key
  rw [h.holds.congruent_eq hsize he, Fin.exists_fin_two]
  rw [h.holds.size_eq, h.holds.size_eq] at hkey ⊢
  push_cast
  omega

/-- one try at tables that can be doubled, given when the next one returns -/
theorem try_iff (hsize : m.tableSize = 2 ^ e) (he : e ≤ 30)
    (hnext : ∀ m' cont', Rest P m' cont' M → m'.tableSize = 2 ^ (e + 1) → Filled P m' →
      (Returns P (.add key val) (m', .acquire0 (.call true)) ↔
        (e ≠ 30 ∧ (congruent m' 30 key : ℤ) < 2 * max P.threshold P.probeSize) ∨
          (congruent m' 31 key : ℤ) < 2 * P.threshold)) :
    Returns P (.add key val) (m, .acquire0 (.call nested)) ↔
      (congruent m 30 key : ℤ) < 2 * max P.threshold P.probeSize ∨ (congruent m 31 key : ℤ) < 2 * P.threshold := by
  have hlt : m.tableSize * 2 < 2 ^ 32 := by
    rw [hsize, ← pow_succ]
    exact Nat.pow_lt_pow_right (by norm_num) (by omega)
  have hcount := h.holds.congruent_eq hsize (by omega) key
  have hle := congruent_antitone m key he
  have hcap : ∀ i, (cont (place m key i)).length ≤ cap P := fun i => h.holds.room _ (h.holds.live_place key i)
  have h0 := hcap 0
  have h1 := hcap 1
  unfold cap at h0 h1
  rcases choose_cases P fun i => m.size (getList m i key) with ⟨hbelow, i, hc⟩ | ⟨hT, hrest⟩
  · refine iff_of_true (below_returns h hk hc) (.inl ?_)
    simp only [h.holds.size_eq, Fin.exists_fin_two] at hbelow
    omega
  rcases hrest with ⟨i, hi, hc⟩ | ⟨hS, hc⟩
  · refine iff_of_true ((probing_iff h hk hsize (by omega) hT hc).2 hlt) (.inl ?_)
    have hone : ∃ i, m.size (getList m i key) < P.probeSize := ⟨i, hi⟩
    simp only [h.holds.size_eq, Fin.exists_fin_two] at hone
    omega
  · obtain ⟨m', cont', hr, hz, hf, hiff⟩ := full_iff val nested h hk hlt hc
    rw [hiff, hnext m' cont' hr (by rw [hz, hsize, pow_succ]) hf, congruent_eq_of_map h.holds hr.holds,
      congruent_eq_of_map h.holds hr.holds]
    by_cases he' : e = 30
    · -- both lists are full, and there are no larger tables to count in
      subst he'
      simp only [h.holds.size_eq, Fin.forall_fin_two] at hT hS
      have hfull : ¬ (congruent m 30 key : ℤ) < 2 * max P.threshold P.probeSize := by omega
      simp [hfull]
    · simp [he']

/-- **Up to half of the largest tables** `add` returns iff there are few enough keys congruent to the key. -/
theorem returns_iff_congruent (hsize : m.tableSize = 2 ^ e) (he : e ≤ 30) :
    Returns P (.add key val) (m, .acquire0 (.call nested)) ↔
      (congruent m 30 key : ℤ) < 2 * max P.threshold P.probeSize ∨ (congruent m 31 key : ℤ) < 2 * P.threshold := by
  -- induction on the number of times the tables can be doubled before they have half of the largest size
  obtain ⟨n, hn⟩ : ∃ n, n = 30 - e := ⟨_, rfl⟩
  induction n generalizing m cont e nested with
  | zero =>
    obtain rfl : e = 30 := by omega
    refine try_iff h hk hsize le_rfl fun m' cont' hr hz hf => ?_
    rw [largest_iff hr hk hz, hf.below_iff hr hz (by norm_num)]
    simp
  | succ n ih =>
    refine try_iff h hk hsize he fun m' cont' hr hz hf => ?_
    have hne : e ≠ 30 := by omega
    rw [ih hr hz (by omega) (by omega)]
    simp [hne]

end Tries

/-! ## Tables that one thread reaches -/

/-- `add` returns; where `table_size` would become 0 the thread stops, so a call that returns has not come to that -/
def AddReturns (P : Params) (m : Mem) (key val : ℤ) : Prop :=
  Returns P (.add key val) (m, .acquire0 (.call false))

/-- the key is stored, or there is a size of the tables up to 2^31 at which it has room -/
def Fits (P : Params) (m : Mem) (key : ℤ) : Prop :=
  key ∈ storedKeys m ∨
    (m.tableSize ≤ 2 ^ 30 ∧
      ((congruent m 30 key : ℤ) < 2 * max P.threshold P.probeSize ∨ (congruent m 31 key : ℤ) < 2 * P.threshold)) ∨
    (2 ^ 30 < m.tableSize ∧ ∃ i, m.size (getList m i key) < P.threshold)

instance Fits.decidable (P : Params) (m : Mem) (key : ℤ) : Decidable (Fits P m key) := by unfold Fits; infer_instance

section Reached

variable {P : Params} {m : Mem} {cont : Fin 2 × ℕ → List ℕ} {M : ℤ → Option ℤ} {key val : ℤ}

theorem moveLists_tableSize {m' : Mem} {ls : List ℕ} (h : moveLists P m ls = .ok m') : m'.tableSize = m.tableSize := by
  induction ls generalizing m with
  | nil =>
    cases h
    rfl
  | cons l ls ih =>
    rw [moveLists] at h
    split at h
    · cases h
    · exact (ih h).trans (moveList_tableSize ‹_›)

theorem exec_resize_lt (hlt : m.tableSize < 2 ^ 32) (op : Op) (k : Then) :
    (exec P 0 m op (.resize k)).1.tableSize < 2 ^ 32 := by
  simp only [exec]
  split
  · exact hlt
  · rename_i m' hr
    unfold resize at hr
    split_ifs at hr with hdouble
    rw [moveLists_tableSize hr]
    exact hdouble

/-- the tables never have 2^32 lists -/
theorem alone_tableSize_lt (P : Params) (as : List Act) : (aloneRun P as).sh.tableSize < 2 ^ 32 := by
  induction as using List.reverseRecOn with
  | nil =>
    have hmtx : P.mtxSize ≤ 2 ^ 16 := Nat.pow_le_pow_right Nat.zero_lt_two (min_le_right _ _)
    exact hmtx.trans_lt (by norm_num)
  | append_singleton as a ih =>
    obtain ⟨g, hB, -⟩ := alone_found P as
    have hrun : aloneRun P (as ++ [a]) = (sys P).next (aloneRun P as) (0, a) := by
      unfold aloneRun
      rw [List.map_append, List.map_singleton, Sys.run_snoc]
    rw [hrun, Sys.next_sh]
    change (step P 0 (aloneRun P as).sh ((aloneRun P as).loc 0) a).1.tableSize < 2 ^ 32
    obtain ⟨g', hst⟩ := step_step hB.inv (hB.threads 0) a
    cases hpc : isResize ((aloneRun P as).loc 0).pc with
    | false =>
      rw [(hst.tables hpc).2]
      exact ih
    | true =>
      cases a with
      | invoke op => exact ih
      | step =>
        change (exec P 0 (aloneRun P as).sh ((aloneRun P as).loc 0).op ((aloneRun P as).loc 0).pc).1.tableSize < 2 ^ 32
        generalize ((aloneRun P as).loc 0).pc = pc at hpc
        cases pc with
        | resize k => exact exec_resize_lt ih _ k
        | _ => cases hpc

theorem alone_rest (P : Params) (as : List Act) (ho : outside ((aloneRun P as).loc 0).pc = true) :
    ∃ cont M, Rest P (aloneRun P as).sh cont M := by
  obtain ⟨g, hB, -⟩ := alone_found P as
  have hh := hB.inv.holds
  rw [alone_hands P as hB (handOf_outside ho)] at hh
  refine ⟨g.cont, g.map, hh, fun i b => ?_⟩
  cases hm : (aloneRun P as).sh.mtx i b with
  | none => rfl
  | some u =>
    have hout : outside ((aloneRun P as).loc u).pc = true := by
      by_cases hu : u = 0
      · rw [hu]; exact ho
      · rw [alone_loc P as hu]; rfl
    have hown := (hB.threads u).owned.owns
    rcases outside_cases hout with hpc | ⟨r, hpc⟩
    · rw [hpc] at hown
      exact ((hown nofun i b).1 hm).elim
    · rw [hpc] at hown
      exact ((hown nofun i b).1 hm).elim

theorem Rest.addReturns_iff (h : Rest P m cont M) (hlt : m.tableSize < 2 ^ 32) : AddReturns P m key val ↔ Fits P m key := by
  obtain ⟨e, he⟩ := h.holds.pow
  have he31 : e ≤ 31 := by
    rw [he] at hlt
    have := (Nat.pow_lt_pow_iff_right (by norm_num : 1 < 2)).1 hlt
    omega
  unfold AddReturns Fits
  rw [h.holds.mem_storedKeys]
  by_cases hk : M key = none
  · by_cases hhalf : e ≤ 30
    · have hle : m.tableSize ≤ 2 ^ 30 := by
        rw [he]
        exact Nat.pow_le_pow_right (by norm_num) hhalf
      rw [returns_iff_congruent h hk he hhalf]
      simp only [hk, hle, not_lt.2 hle, ne_eq, not_true_eq_false, false_or, true_and, false_and, or_false]
    · obtain rfl : e = 31 := by omega
      have hgt : ¬ m.tableSize ≤ 2 ^ 30 := by rw [he]; norm_num
      rw [largest_iff h hk he]
      simp only [hk, hgt, not_le.1 hgt, ne_eq, not_true_eq_false, false_or, true_and, false_and]
  · exact iff_of_true (try_stored h hk false) (.inl hk)

end Reached

/-- **`add` returns**, on a table that one thread reaches, iff the key fits. -/
theorem add_returns_iff (P : Params) (as : List Act) (ho : outside ((aloneRun P as).loc 0).pc = true) (key val : ℤ) :
    AddReturns P (aloneRun P as).sh key val ↔ Fits P (aloneRun P as).sh key := by
  obtain ⟨cont, M, h⟩ := alone_rest P as ho
  exact h.addReturns_iff (alone_tableSize_lt P as)

/-- two lists with room for one node each, and two keys in them -/
def twoKeys : List Act := oneCall (.add 0 10) 5 ++ oneCall (.add (2 ^ 32) 20) 5

theorem add_returns_iff_odd : AddReturns ⟨0, 1, 1⟩ (aloneRun ⟨0, 1, 1⟩ twoKeys).sh 1 30 :=
  (add_returns_iff ⟨0, 1, 1⟩ twoKeys (by decide +kernel) 1 30).2 (by decide +kernel)

/-- a third key that is congruent to them modulo 2^32 -/
theorem add_congruent_wraps :
    outside ((aloneRun ⟨0, 1, 1⟩ twoKeys).loc 0).pc = true ∧
      ¬ AddReturns ⟨0, 1, 1⟩ (aloneRun ⟨0, 1, 1⟩ twoKeys).sh (2 ^ 33) 30 := by
  have ho : outside ((aloneRun ⟨0, 1, 1⟩ twoKeys).loc 0).pc = true := by decide +kernel
  obtain ⟨cont, M, h⟩ := alone_rest ⟨0, 1, 1⟩ twoKeys ho
  refine ⟨ho, ?_⟩
  rw [h.addReturns_iff (alone_tableSize_lt _ _)]
  decide +kernel

end AlgorithmCollection.ConcurrentCuckooHash
