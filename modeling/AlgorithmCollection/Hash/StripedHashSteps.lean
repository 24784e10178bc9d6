/-
Every step of `StripedHash` keeps the invariant.

Five kinds of steps, by what they may do to the other threads: reads (`Guar.quiet`), locks and the counter
(`Guar.sync`), stores by a thread that holds the lock of the bucket (`Guar.write`), and stores by a thread that holds
every lock (`Guar.all`). `step_guar` says that each step is one of these, and `inv_run` that the invariant holds in every
reachable state.
-/
import AlgorithmCollection.Hash.StripedHashTable

namespace AlgorithmCollection.StripedHash

open Conc Chained
open Function (update update_self update_of_ne)

/-! ## The kinds of steps -/

section Kinds

variable {P : Params} {g g' : Ghost} {t : ℕ} {m m' : Mem} {l l' : Loc} {b : ℕ}

theorem SameTable.refl : SameTable m m := ⟨rfl, rfl, rfl, rfl, rfl⟩

/-- a step that only reads -/
theorem Guar.quiet (hI : Inv P g m) (ha : Asrt P g t m l) (hr : resizing l = true → resizing l' = true)
    (ho : ∀ n, owns l' = some n → owns l = some n) (hA : AsrtAt P g t m l') : Guar P g t m l g m l' where
  inv := hI
  asrt := ⟨hA, fun e => hr (ha.mig e)⟩
  mtx _ _ _ := Iff.rfl
  size := le_rfl
  table := .inl .refl
  frozen := .inl ⟨rfl, rfl⟩
  lists _ _ _ _ := ⟨rfl, fun _ _ _ => rfl⟩
  next _ _ := .inl rfl
  data _ _ := ⟨rfl, rfl⟩
  fresh := le_rfl
  newD _ h := .inl h
  newH _ h := .inl h
  owned n h := .inl (ho n h)
  mig _ _ h := h

/-- a step that changes locks or the counter, while nobody migrates -/
theorem Guar.sync (hI : Inv P g m) (hg : g.mig = none) (hd : SameData m m') (h1 : m'.oldTableSize = m.oldTableSize)
    (h2 : m'.oldBucket = m.oldBucket) (hm : ∀ i u, u ≠ t → (m'.mtx i = some u ↔ m.mtx i = some u))
    (hf : ∃ i < P.lockSize, m.mtx i = none ∨ m.mtx i = some t) (ho : ∀ n, owns l' = some n → owns l = some n)
    (hA : AsrtAt P g t m' l') : Guar P g t m l g m' l' where
  inv := hI.sameData hd fun r e => by rw [hg] at e; cases e
  asrt := ⟨hA, fun e => by rw [hg] at e; cases e⟩
  mtx := hm
  size := hd.tableSize.ge
  table := .inl ⟨hd.tableSize, hd.bucket, hd.list, h1, h2⟩
  frozen := .inr hf
  lists _ _ _ _ := ⟨rfl, fun _ _ _ => by rw [hd.nx]⟩
  next _ _ := .inl (by rw [hd.nx])
  data _ _ := ⟨by rw [hd.ky], by rw [hd.vl]⟩
  fresh := hd.fresh.ge
  newD _ h := .inl h
  newH _ h := .inl h
  owned n h := .inl (ho n h)
  mig _ _ h := h

/-- what a store to nodes keeps -/
structure SameFields (m m' : Mem) : Prop where
  list : m'.list = m.list
  bucket : m'.bucket = m.bucket
  tableSize : m'.tableSize = m.tableSize
  oldTableSize : m'.oldTableSize = m.oldTableSize
  oldBucket : m'.oldBucket = m.oldBucket
  mtx : m'.mtx = m.mtx
  arrays : m'.arrays = m.arrays

theorem sameFields_setNext {a p : ℕ} : SameFields m (setNext m a p) := ⟨rfl, rfl, rfl, rfl, rfl, rfl, rfl⟩

/-- a store by a thread that holds the lock of bucket b, to nodes of that bucket or to its own node -/
theorem Guar.write (hI : Inv P g m) (ha : Asrt P g t m l) (hg : g.mig = none) (hh : Hold P t m b) (hb : b < m.tableSize)
    (hs : SameFields m m') (hL : Live g' m') (hg' : g'.mig = none) (hH : g'.H = g.H)
    (hS : ∀ h, h ≠ m.list m.bucket b → g'.S h = g.S h)
    (hn : ∀ a < m.fresh, nx m' a = nx m a ∨ owns l = some a ∨ a ∈ g.S (m.list m.bucket b))
    (hd : ∀ a < m.fresh, ky m' a = ky m a ∧ vl m' a = vl m a) (hf : m.fresh ≤ m'.fresh)
    (hD : ∀ a ∈ g'.D, a ∈ g.D ∨ owns l = some a) (h0 : nx m' NULL = nx m NULL)
    (ho : ∀ n, owns l' = some n → owns l = some n ∨ n = m.fresh) (hA : AsrtAt P g' t m' l') :
    Guar P g t m l g' m' l' := by
  have hLm := hI.live hg
  have hHb := hLm.head_mem hb
  refine ⟨?_, ⟨hA, fun e => by rw [hg'] at e; cases e⟩, fun _ _ _ => by rw [hs.mtx], hs.tableSize.ge,
    .inl ⟨hs.tableSize, hs.bucket, hs.list, hs.oldTableSize, hs.oldBucket⟩,
    .inr ⟨_, lockKey_lt P b, .inr hh⟩, fun _ b' hb' hn' => ?_, fun a hlt => ?_, hd, hf, hD,
    fun a h => .inl (hH ▸ h), ho, fun u _ e => by rw [hg'] at e; cases e⟩
  · exact ⟨by rw [hs.tableSize]; exact hI.dvd, by rw [hs.tableSize]; exact hI.pos, by rw [hs.tableSize]; exact hI.lt,
      lt_of_lt_of_le hI.fresh hf, by rw [hs.bucket, hs.arrays]; exact hI.bucket, fun _ => hL,
      fun r e => by rw [hg'] at e; cases e⟩
  · -- another stripe: its lists are different ones
    have hne : m.list m.bucket b' ≠ m.list m.bucket b := fun e => hn' (hLm.table.inj b' hb' b hb e ▸ hh)
    refine ⟨hS _ hne, fun a h1 h2 => ?_⟩
    rcases hn a (hLm.stored.lists.lt _ (hLm.head_mem hb') a h1) with h | h | h
    · exact h
    · have := ha.owned h
      exact absurd h1 (hLm.stored.lists.not_mem_of h2 this.2.1 this.2.2 (hLm.head_mem hb'))
    · exact absurd (hLm.stored.lists.disj _ (hLm.head_mem hb') _ hHb hne a h1 h) h2
  · rcases hn a hlt with h | h | h
    · exact .inl h
    · exact .inr (.inl h)
    · rcases hLm.stored.lists.mem_cases hHb h with h | h | h
      · exact .inr (.inr (.inr (h ▸ hHb)))
      · exact .inl (by rw [h]; exact h0)
      · exact .inr (.inr (.inl h))

/-- a step of a thread that holds every lock -/
theorem Guar.all (ha : HoldFrom P t m 0) (hI : Inv P g' m') (hA : Asrt P g' t m' l') (hm : m'.mtx = m.mtx)
    (hs : m.tableSize ≤ m'.tableSize) (hn : ∀ a < m.fresh, nx m' a = nx m a ∨ a ∈ g.D ∨ a ∈ g.H)
    (hd : ∀ a < m.fresh, ky m' a = ky m a ∧ vl m' a = vl m a) (hf : m.fresh ≤ m'.fresh) (hD : g'.D = g.D)
    (hH : ∀ a ∈ g'.H, a ∈ g.H ∨ m.fresh ≤ a) (ho : owns l' = none) (hg : g'.mig = none ∨ g'.mig = some t) :
    Guar P g t m l g' m' l' where
  inv := hI
  asrt := hA
  mtx _ _ _ := by rw [hm]
  size := hs
  table := .inr ha
  frozen := .inr ⟨_, P.pos, .inr (ha 0 le_rfl P.pos)⟩
  lists _ b _ hn := absurd (ha.hold b) hn
  next a hlt := (hn a hlt).imp id .inr
  data := hd
  fresh := hf
  newD a h := .inl (hD ▸ h)
  newH := hH
  owned n h := by rw [ho] at h; cases h
  mig u hu e := by
    rcases hg with hg | hg
    · rw [hg] at e; cases e
    · rw [hg] at e; exact absurd (Option.some.inj e).symm hu

end Kinds

/-! ## The steps -/

section Steps

variable {P : Params} {g : Ghost} {t : ℕ} {m : Mem} {l l' : Loc} {b i pred : ℕ} {k : ℤ}

/-- the step of thread t at l -/
def Ok (P : Params) (g : Ghost) (t : ℕ) (m : Mem) (l : Loc) (r : Mem × Loc) : Prop := ∃ g', Guar P g t m l g' r.1 r.2

/-! ### Locks -/

variable {c : Call} {o : Option ℕ} {n p q retry : ℕ} {v : ℤ}

theorem setMtx_other {j u : ℕ} (hu : u ≠ t) (ho : o = none ∨ o = some t)
    (hm : m.mtx i = none ∨ m.mtx i = some t) : (setMtx m i o).mtx j = some u ↔ m.mtx j = some u := by
  have hne : ∀ {x : Option ℕ}, x = none ∨ x = some t → x ≠ some u := by
    rintro x (rfl | rfl) e
    · cases e
    · exact hu (Option.some.inj e).symm
  unfold setMtx
  by_cases hj : j = i
  · subst hj
    simp only [update_self]
    exact ⟨fun e => absurd e (hne ho), fun e => absurd e (hne hm)⟩
  · simp only [update_of_ne hj]

theorem sameData_setMtx : SameData m (setMtx m i o) := ⟨rfl, rfl, rfl, rfl, rfl, rfl, rfl⟩

variable (hI : Inv P g m)

include hI

/-- `lock(ht, b)` -/
theorem ok_lock (ha : Asrt P g t m l) (ho : owns l' = none)
    (hA : m.mtx (lockKey P b) = none → AsrtAt P g t (setMtx m (lockKey P b) (some t)) l') :
    Ok P g t m l (lock P t m b l l') := by
  unfold lock
  by_cases hfree : m.mtx (lockKey P b) = none
  · rw [if_pos hfree]
    have hg : g.mig = none := by
      cases e : g.mig with
      | none => rfl
      | some r => have := hI.held r e _ (lockKey_lt P b); rw [hfree] at this; cases this
    exact ⟨g, .sync hI hg sameData_setMtx rfl rfl (fun j u hu => setMtx_other hu (.inr rfl) (.inl hfree))
      ⟨_, lockKey_lt P b, .inl hfree⟩ (fun n e => by rw [ho] at e; cases e) (hA hfree)⟩
  · rw [if_neg hfree]
    exact ⟨g, .quiet hI ha id (fun _ => id) ha.at_⟩

/-- `unlock(ht, b)` -/
theorem ok_unlock (ha : Asrt P g t m l) (hr : resizing l = false) (hh : Hold P t m b)
    (ho : owns l' = none) (hA : AsrtAt P g t (unlock P m b) l') : Ok P g t m l (unlock P m b, l') :=
  ⟨g, .sync hI (hI.no_mig ha hr hh) sameData_setMtx rfl rfl (fun j u hu => setMtx_other hu (.inl rfl) (.inr hh))
    ⟨_, lockKey_lt P b, .inr hh⟩ (fun n e => by rw [ho] at e; cases e) hA⟩

omit hI in
theorem hold_lock : Hold P t (setMtx m (lockKey P b) (some t)) b := update_self ..

omit hI in
theorem mtx_setMtx_ne {j : ℕ} (h : j ≠ i) : (setMtx m i o).mtx j = m.mtx j := update_of_ne h ..

theorem ok_rLock {size : ℕ} (ha : Asrt P g t m (.rLock c size i)) :
    Ok P g t m (.rLock c size i) (exec P t m (.rLock c size i)) := by
  simp only [exec]
  by_cases hi : i < P.lockSize
  · rw [if_pos hi]
    refine ok_lock hI ha rfl fun _ j h1 h2 => ?_
    rw [lockKey_of_lt hi]
    by_cases hj : j = i
    · rw [hj]; exact update_self ..
    · rw [mtx_setMtx_ne hj]; exact ha.at_ j (by omega) h2
  · rw [if_neg hi]
    exact ⟨g, .quiet hI ha (nofun) (nofun) fun j _ h2 => ha.at_ j (by omega) h2⟩

/-- a lock of the unlock loops of `resize` -/
theorem ok_unlockLoop (ha : Asrt P g t m l) (hr : resizing l = false) (hh : HoldFrom P t m i)
    (hi : i < P.lockSize) (ho : owns l' = none)
    (hA : HoldFrom P t (unlock P m i) (i + 1) → AsrtAt P g t (unlock P m i) l') : Ok P g t m l (unlock P m i, l') := by
  have hhold : Hold P t m i := by unfold Hold; rw [lockKey_of_lt hi]; exact hh i le_rfl hi
  refine ok_unlock hI ha hr hhold ho (hA fun j h1 h2 => ?_)
  unfold unlock
  rw [lockKey_of_lt hi, mtx_setMtx_ne (by omega)]
  exact hh j (by omega) h2

theorem ok_rQuit (ha : Asrt P g t m (.rQuit c i)) : Ok P g t m (.rQuit c i) (exec P t m (.rQuit c i)) := by
  simp only [exec]
  by_cases hi : i < P.lockSize
  · rw [if_pos hi]
    exact ok_unlockLoop hI ha rfl ha.at_ hi rfl id
  · rw [if_neg hi]
    exact ⟨g, .quiet hI ha (nofun) (nofun) trivial⟩

theorem ok_rUnlock (ha : Asrt P g t m (.rUnlock c i)) : Ok P g t m (.rUnlock c i) (exec P t m (.rUnlock c i)) := by
  simp only [exec]
  by_cases hi : i < P.lockSize
  · rw [if_pos hi]
    exact ok_unlockLoop hI ha rfl ha.at_ hi rfl id
  · rw [if_neg hi]
    exact ⟨g, .quiet hI ha (nofun) (nofun) trivial⟩

/-! ### The bucket of a key -/

theorem ok_recheck {u : Upd} {size : ℕ} (ha : Asrt P g t m (.recheck u retry size b)) :
    Ok P g t m (.recheck u retry size b) (exec P t m (.recheck u retry size b)) := by
  obtain ⟨⟨hk, s, h1, h2, h3⟩, hh⟩ := ha.at_
  simp only [exec]
  by_cases hs : size = m.tableSize
  · -- the size is the one the bucket was computed from
    obtain rfl : s = m.tableSize := by omega
    rw [if_pos hs]
    have hours : Ours P t m u.op.key b := ⟨hh, hk, h3⟩
    cases u with
    | add k v | delete k => exact ⟨g, .quiet hI ha (nofun) (nofun) hours⟩
  · rw [if_neg hs]
    exact ⟨g, .quiet hI ha (nofun) (nofun) ⟨hk, hh⟩⟩

/-! ### Walks -/

/-- bucket b of `ht->bucket` is one of the lists in use -/
structure InUse (g : Ghost) (m : Mem) (b : ℕ) : Prop where
  mem : m.list m.bucket b ∈ g.H
  stored : ∃ x, Stored g m x

omit hI in
theorem InUse.chain (h : InUse g m b) :
    BucketList (nx m) (ky m) (m.list m.bucket b) (g.S (m.list m.bucket b)) ∧ m.list m.bucket b ≠ NULL := by
  obtain ⟨hm, x, hs⟩ := h
  exact ⟨hs.lists.chain _ hm, hs.lists.pos _ hm⟩

omit hI in
theorem Moving.inUse (hM : Moving g t m i pred (some n)) (hI : Inv P g m)
    (hh : hashCode (ky m n) m.tableSize = b) : b < m.tableSize ∧ InUse g m b := by
  have hn : n ∈ g.D := (hM.mig.stored.lists.data n).2 (.inr rfl)
  have hb : b < m.tableSize := hh ▸ hashCode_lt (hM.mig.stored.nonneg n hn) hI.pos hI.lt
  exact ⟨hb, hM.mig.new_mem hb, _, hM.mig.stored⟩

theorem ContOk.inUse {c : Cont} (ha : Asrt P g t m l) (hr : resizing l = c.moves)
    (hc : ContOk P g t m b c) : InUse g m b := by
  cases hm : c.moves with
  | false =>
    obtain ⟨h1, h2⟩ := hc.hold hm hI
    have hL := hI.live (hI.no_mig ha (hr.trans hm) h1)
    exact ⟨hL.head_mem h2, _, hL.stored⟩
  | true =>
    cases c with
    | ins c => cases c with
      | add k v r n => cases hm
      | move c i p n => exact (hc.1.inUse hI hc.2).2
    | delete k r | find k => cases hm

theorem ok_first {c : Cont} (ha : Asrt P g t m (.first c b)) : Ok P g t m (.first c b) (exec P t m (.first c b)) := by
  have hc : ContOk P g t m b c := ha.at_
  obtain ⟨hC, h0⟩ := (hc.inUse hI ha rfl).chain
  simp only [exec, afterFirst]
  by_cases he : (m.node (m.list m.bucket b)).next = NULL
  · rw [if_pos he]
    cases c with
    | ins c => exact ⟨g, .quiet hI ha id (fun _ => id) ⟨hc, rfl, he⟩⟩
    | delete k r => exact ⟨g, .quiet hI ha id (fun _ => id) ⟨Ours.nonneg hc, Ours.hold hc⟩⟩
    | find k => exact ⟨g, .quiet hI ha id (fun _ => id) hc.1⟩
  · rw [if_neg he]
    exact ⟨g, .quiet hI ha id (fun _ => id) ⟨hc, hC.before_head h0, rfl⟩⟩

theorem ok_test {c : Cont} (ha : Asrt P g t m (.test c b p q)) :
    Ok P g t m (.test c b p q) (exec P t m (.test c b p q)) := by
  obtain ⟨hc, hw, rfl⟩ := ha.at_
  obtain ⟨hC, -⟩ := (hc.inUse hI ha rfl).chain
  simp only [exec]
  by_cases hs : nx m p ≠ NULL ∧ (m.node (nx m p)).key < c.key m
  · rw [if_pos hs]
    exact ⟨g, .quiet hI ha id (fun _ => id) ⟨hc, hC.before_succ hw hs.1 hs.2⟩⟩
  · rw [if_neg hs]
    refine ⟨g, .quiet hI ha id (fun _ => id) ⟨hc, ⟨hw, rfl⟩, ?_⟩⟩
    by_cases h0 : nx m p = NULL
    · exact .inl h0
    · exact .inr (not_lt.1 fun h => hs ⟨h0, h⟩)

omit hI in
/-- the node `resize` moves is not in the new table yet, so `add_node_op` does not find its key there -/
theorem Moving.not_found (hM : Moving g t m i pred (some n)) (hU : InUse g m b)
    (ha : At g m b (ky m n) p q) (hq : q ≠ NULL) : ky m n ≠ ky m q := by
  obtain ⟨h1, h2⟩ := hU.chain.1.succ ha.walk.mem ha.walk.ne
  rw [ha.next] at h1 h2
  exact hM.mig.stored.lists.out_ne hU.mem h1 h2 hq

theorem ok_check {c : Cont} (ha : Asrt P g t m (.check c b p q)) :
    Ok P g t m (.check c b p q) (exec P t m (.check c b p q)) := by
  obtain ⟨hc, hw, hle⟩ := ha.at_
  have hU := hc.inUse hI ha rfl
  simp only [exec]
  by_cases hf : q ≠ NULL ∧ c.key m = (m.node q).key
  · rw [decide_eq_true hf]
    cases c with
    | ins c => cases c with
      | add k v r n => exact ⟨g, .quiet hI ha id (nofun) ⟨hc.1.nonneg, hc.1.hold⟩⟩
      | move c i p' n => exact absurd hf.2 (hc.1.not_found hU hw hf.1)
    | delete k r => exact ⟨g, .quiet hI ha id (fun _ => id) ⟨hc, hw, hf.1, hf.2.symm⟩⟩
    | find k => exact ⟨g, .quiet hI ha id (fun _ => id) hc.1⟩
  · rw [decide_eq_false hf]
    cases c with
    | ins c =>
      refine ⟨g, .quiet hI ha id (fun _ => id) ⟨hc, hw, ?_⟩⟩
      rcases hle with h | h
      · exact .inl h
      · by_cases h0 : q = NULL
        · exact .inl h0
        · exact .inr (lt_of_le_of_ne h fun e => hf ⟨h0, e⟩)
    | delete k r => exact ⟨g, .quiet hI ha id (fun _ => id) ⟨Ours.nonneg hc, Ours.hold hc⟩⟩
    | find k => exact ⟨g, .quiet hI ha id (fun _ => id) hc.1⟩

/-! ### Stores of `add` and `delete` -/

theorem ok_create (ha : Asrt P g t m (.create k v retry b)) :
    Ok P g t m (.create k v retry b) (exec P t m (.create k v retry b)) := by
  have hu : Ours P t m k b := ha.at_
  have hg := hI.no_mig ha rfl hu.hold
  have hL := hI.live hg
  have hne : ∀ a < m.fresh, (createNode m k v).node a = m.node a := fun a h => update_of_ne h.ne ..
  have hnew : (createNode m k v).node m.fresh = ⟨k, v, NULL⟩ := update_self ..
  have hnx : ∀ a < m.fresh, nx (createNode m k v) a = nx m a := fun a h => by unfold nx; rw [hne a h]
  have hky : ∀ a < m.fresh, ky (createNode m k v) a = ky m a := fun a h => by unfold ky; rw [hne a h]
  have hvl : ∀ a < m.fresh, vl (createNode m k v) a = vl m a := fun a h => by unfold vl; rw [hne a h]
  have hL' : Live g (createNode m k v) :=
    hL.outside (fun a h => .inl (hnx a h)) hky hvl (Nat.le_succ _) rfl rfl rfl rfl
  have ho : Own g (createNode m k v) m.fresh k v NULL := by
    refine ⟨hI.fresh.ne', Nat.lt_succ_self _, fun h => absurd (hL.stored.lists.data_lt h) (lt_irrefl _), fun h => ?_,
      congrArg Node.key hnew, congrArg Node.value hnew, congrArg Node.next hnew⟩
    exact absurd (hL.stored.lists.lt _ h _ (hL.stored.lists.head_mem h)) (lt_irrefl _)
  refine ⟨g, .write hI ha hg hu.hold (hu.lt hI) ⟨rfl, rfl, rfl, rfl, rfl, rfl, rfl⟩ hL' hg rfl (fun _ _ => rfl)
    (fun a h => .inl (hnx a h)) (fun a h => ⟨hky a h, hvl a h⟩) (Nat.le_succ _) (fun a h => .inl h)
    (hnx _ hI.fresh) (fun n h => .inr (Option.some.inj h).symm) ⟨⟨hu.hold, hu.nonneg, hu.hash⟩, ho⟩⟩

/-- a store that links the node of `add` after p -/
theorem guar_link (ha : Asrt P g t m l) (hr : resizing l = false)
    (hu : Ours P t m k b) (ho : Own g m n k v (nx m p)) (hl : owns l = some n) (hw : Walk g m b k p)
    (hs : nx m p = NULL ∨ k < ky m (nx m p)) (hl' : owns l' = none)
    (hA : AsrtAt P (g.link (m.list m.bucket b) n) t (addHist (setNext m p n) (.link k v)) l') :
    Guar P g t m l (g.link (m.list m.bucket b) n) (addHist (setNext m p n) (.link k v)) l' := by
  have hg := hI.no_mig ha hr hu.hold
  have hb := hu.lt hI
  have hky : ky (addHist (setNext m p n) (.link k v)) = ky m := ky_setNext
  have hvl : vl (addHist (setNext m p n) (.link k v)) = vl m := vl_setNext
  have hnx : nx (addHist (setNext m p n) (.link k v)) = update (nx m) p n := nx_setNext
  refine .write hI ha hg hu.hold hb ⟨rfl, rfl, rfl, rfl, rfl, rfl, rfl⟩
    ((hI.live hg).link hb hu.nonneg hu.hash ho hw hs) hg rfl (fun h hne => update_of_ne hne ..)
    (fun a _ => ?_) (fun a _ => ⟨by rw [hky], by rw [hvl]⟩) le_rfl (fun a h => ?_) ?_ (fun x h => by rw [hl'] at h; cases h)
    hA
  · rw [hnx]
    by_cases h : a = p
    · exact .inr (.inr (h ▸ hw.mem))
    · exact .inl (update_of_ne h ..)
  · rcases Finset.mem_insert.1 h with rfl | h
    · exact .inr hl
    · exact .inl h
  · rw [hnx]; exact update_of_ne hw.ne.symm ..

theorem ok_addEmpty1_add {head : ℕ} (ha : Asrt P g t m (.addEmpty1 (.add k v retry n) b head)) :
    Ok P g t m (.addEmpty1 (.add k v retry n) b head) (exec P t m (.addEmpty1 (.add k v retry n) b head)) := by
  obtain ⟨⟨hu, ho⟩, rfl, he⟩ := ha.at_
  have hg := hI.no_mig ha rfl hu.hold
  have hH := (hI.live hg).head_mem (hu.lt hI)
  have hpos := (hI.live hg).stored.lists.pos _ hH
  have hw : Walk g m b k (m.list m.bucket b) := ((hI.live hg).chain (hu.lt hI)).before_head hpos
  have hne : n ≠ m.list m.bucket b := fun e => ho.not_head (e ▸ hH)
  have hS : n ∈ (g.link (m.list m.bucket b) n).S (m.list m.bucket b) := by
    change n ∈ update g.S _ _ _
    rw [update_self]; exact Finset.mem_insert_self _ _
  have hnx : nx (setNext m (m.list m.bucket b) n) n = NULL := by
    rw [nx_setNext, update_of_ne hne]; exact ho.next
  exact ⟨_, guar_link hI ha rfl hu (he.symm ▸ ho) rfl hw (.inl he) rfl
    ⟨⟨hu.hold, hu.nonneg, hu.hash⟩, hS, ho.ne, hnx⟩⟩

theorem ok_link2_add (ha : Asrt P g t m (.link2 (.add k v retry n) b p q)) :
    Ok P g t m (.link2 (.add k v retry n) b p q) (exec P t m (.link2 (.add k v retry n) b p q)) := by
  obtain ⟨⟨hu, ho⟩, -, ⟨hw, rfl⟩, hs⟩ := ha.at_
  have hk : ky m n = k := ho.key
  change Walk g m b (ky m n) p at hw
  change nx m p = NULL ∨ ky m n < ky m (nx m p) at hs
  rw [hk] at hw hs
  exact ⟨_, guar_link hI ha rfl hu ho rfl hw hs rfl hu.hold⟩

theorem ok_addEmpty2_add (ha : Asrt P g t m (.addEmpty2 (.add k v retry n) b)) :
    Ok P g t m (.addEmpty2 (.add k v retry n) b) (exec P t m (.addEmpty2 (.add k v retry n) b)) := by
  obtain ⟨hu, -, -, he⟩ := ha.at_
  -- the node was created with this link
  have hm : (exec P t m (.addEmpty2 (.add k v retry n) b)) = (m, .count1 (.add ⟨k, v, true⟩) b) :=
    Prod.ext (setNext_self he) rfl
  rw [hm]
  exact ⟨g, .quiet hI ha id (fun _ => id) hu.hold⟩

theorem ok_link1_add (ha : Asrt P g t m (.link1 (.add k v retry n) b p q)) :
    Ok P g t m (.link1 (.add k v retry n) b p q) (exec P t m (.link1 (.add k v retry n) b p q)) := by
  obtain ⟨⟨hu, ho⟩, hat, hs⟩ := ha.at_
  have hg := hI.no_mig ha rfl hu.hold
  have hL := hI.live hg
  have hout : ∀ h ∈ g.H, n ∉ g.S h := fun h hh => hL.stored.lists.not_mem_of ho.ne ho.not_data ho.not_head hh
  have hnx : ∀ a, a ≠ n → nx (setNext m n q) a = nx m a := fun a h => by rw [nx_setNext, update_of_ne h]
  have hq : nx (setNext m n q) n = q := by rw [nx_setNext, update_self]
  have hL' : Live g (setNext m n q) := by
    refine hL.outside (fun a _ => ?_) (fun a _ => by rw [ky_setNext]) (fun a _ => by rw [vl_setNext]) le_rfl rfl rfl rfl rfl
    by_cases h : a = n
    · exact .inr (h ▸ ⟨ho.ne, hout⟩)
    · exact .inl (hnx a h)
  have hky : ky (setNext m n q) = ky m := ky_setNext
  have hne : p ≠ n := fun e => hout _ (hL.head_mem (hu.lt hI)) (e ▸ hat.walk.mem)
  refine ⟨g, ?_⟩
  change Guar P g t m _ g (setNext m n q) (.link2 (.add k v retry n) b p q)
  refine .write hI ha hg hu.hold (hu.lt hI) sameFields_setNext hL' hg rfl (fun _ _ => rfl) (fun a _ => ?_)
    (fun a _ => ⟨by rw [ky_setNext], by rw [vl_setNext]⟩) le_rfl (fun a h => .inl h) (hnx _ ho.ne.symm)
    (fun x h => .inl h) ⟨⟨⟨hu.hold, hu.nonneg, hu.hash⟩, ?_⟩, hq, ⟨?_, (hnx p hne).trans hat.next⟩, ?_⟩
  · by_cases h : a = n
    · exact .inr (.inl (h ▸ rfl))
    · exact .inl (hnx a h)
  · exact ⟨ho.ne, ho.lt, ho.not_data, ho.not_head, by rw [hky]; exact ho.key, by rw [vl_setNext]; exact ho.val, hq⟩
  · change Before (ky (setNext m n q)) (m.list m.bucket b) (g.S (m.list m.bucket b)) (ky (setNext m n q) n) p
    rw [hky]; exact hat.walk
  · change q = NULL ∨ ky (setNext m n q) n < ky (setNext m n q) q
    rw [hky]; exact hs

theorem ok_del3 {s : ℕ} (ha : Asrt P g t m (.del3 k b p q v s)) :
    Ok P g t m (.del3 k b p q v s) (exec P t m (.del3 k b p q v s)) := by
  obtain ⟨hu, hat, hq, hk, -, rfl⟩ := ha.at_
  have hg := hI.no_mig ha rfl hu.hold
  have hky : ky (addHist (setNext m p (nx m q)) (.unlink k)) = ky m := ky_setNext
  have hvl : vl (addHist (setNext m p (nx m q)) (.unlink k)) = vl m := vl_setNext
  have hnx : nx (addHist (setNext m p (nx m q)) (.unlink k)) = update (nx m) p (nx m q) := nx_setNext
  refine ⟨g.unlink (m.list m.bucket b) q, ?_⟩
  change Guar P g t m _ _ (addHist (setNext m p (nx m q)) (.unlink k)) (.count1 (.delete k (some v)) b)
  refine .write hI ha hg hu.hold (hu.lt hI) ⟨rfl, rfl, rfl, rfl, rfl, rfl, rfl⟩
    ((hI.live hg).unlink (hu.lt hI) hat hq hk) hg rfl (fun h hne => update_of_ne hne ..) (fun a _ => ?_)
    (fun a _ => ⟨by rw [hky], by rw [hvl]⟩) le_rfl (fun a h => .inl (Finset.mem_of_mem_erase h)) ?_
    (nofun) hu.hold
  · rw [hnx]
    by_cases h : a = p
    · exact .inr (.inr (h ▸ hat.walk.mem))
    · exact .inl (update_of_ne h ..)
  · rw [hnx]; exact update_of_ne hat.walk.ne.symm ..

theorem ok_count2 {d : Done} (ha : Asrt P g t m (.count2 d b n)) :
    Ok P g t m (.count2 d b n) (exec P t m (.count2 d b n)) := by
  have hh : Hold P t m b := ha.at_
  exact ⟨g, .sync hI (hI.no_mig ha rfl hh) ⟨rfl, rfl, rfl, rfl, rfl, rfl, rfl⟩ rfl rfl (fun _ _ _ => Iff.rfl)
    ⟨_, lockKey_lt P b, .inr hh⟩ (fun _ => id) hh⟩

/-! ### Migration -/

theorem Inv.holdFrom (hg : g.mig = some t) : HoldFrom P t m 0 := fun j _ h => hI.held t hg j h

/-- a store of the migrating thread to the link of a node of the table -/
theorem guar_move {S : ℕ → Finset ℕ} {a : ℕ} (hg : g.mig = some t) (hw : a ∈ g.D ∨ a ∈ g.H)
    (hr : resizing l' = true) (ho : owns l' = none) (hA : AsrtAt P { g with S := S } t (setNext m a q) l') :
    Guar P g t m l { g with S := S } (setNext m a q) l' := by
  refine .all (hI.holdFrom hg) ⟨hI.dvd, hI.pos, hI.lt, hI.fresh, hI.bucket, fun h => ?_, hI.held⟩ ⟨hA, fun _ => hr⟩ rfl
    le_rfl (fun x _ => ?_) (fun x _ => ⟨by rw [ky_setNext], by rw [vl_setNext]⟩) le_rfl rfl (fun x h => .inl h) ho
    (.inr hg)
  · change g.mig = none at h
    rw [hg] at h; cases h
  · by_cases hx : x = a
    · exact .inr (hx ▸ hw)
    · rw [nx_setNext]; exact .inl (update_of_ne hx ..)

theorem ok_addEmpty1_move {head : ℕ} (ha : Asrt P g t m (.addEmpty1 (.move c i pred n) b head)) :
    Ok P g t m (.addEmpty1 (.move c i pred n) b head) (exec P t m (.addEmpty1 (.move c i pred n) b head)) := by
  obtain ⟨⟨hM, hh⟩, rfl, he⟩ := ha.at_
  obtain ⟨hb, hU⟩ := hM.inUse hI hh
  have hB := hM.mig.stored.lists
  have hne : n ≠ m.list m.bucket b := fun e => (hB.out n rfl).2.2 _ hU.mem (e.symm ▸ hB.head_mem hU.mem)
  have hput : Moving { g with S := update g.S (m.list m.bucket b) (insert n (g.S (m.list m.bucket b))) } t
      (setNext (setNext m (m.list m.bucket b) n) n NULL) i pred none := hM.put hb hh
    (hU.chain.1.before_head hU.chain.2) (.inl he) (sameRest_setNext.trans sameRest_setNext)
    (by rw [nx_setNext, update_of_ne hne.symm, nx_setNext]; exact update_self ..)
    (by rw [nx_setNext, update_self]; exact he.symm)
    fun a h1 h2 => by rw [nx_setNext, update_of_ne h2, nx_setNext]; exact update_of_ne h1 ..
  exact ⟨_, guar_move hI hM.mig.mig (Or.inr hU.mem) rfl rfl ⟨hput, (hB.data n).2 (.inr rfl)⟩⟩

theorem ok_addEmpty2_move (ha : Asrt P g t m (.addEmpty2 (.move c i pred n) b)) :
    Ok P g t m (.addEmpty2 (.move c i pred n) b) (exec P t m (.addEmpty2 (.move c i pred n) b)) := by
  obtain ⟨hM, hn⟩ := ha.at_
  exact ⟨_, guar_move hI hM.mig.mig (.inl hn) rfl rfl hM⟩

theorem ok_link1_move (ha : Asrt P g t m (.link1 (.move c i pred n) b p q)) :
    Ok P g t m (.link1 (.move c i pred n) b p q) (exec P t m (.link1 (.move c i pred n) b p q)) := by
  obtain ⟨⟨hM, hh⟩, hat, hs⟩ := ha.at_
  obtain ⟨-, hU⟩ := hM.inUse hI hh
  have hB := hM.mig.stored.lists
  have hne : p ≠ n := fun e => (hB.out n rfl).2.2 _ hU.mem (e ▸ hat.walk.mem)
  have hky : ky (setNext m n q) = ky m := ky_setNext
  refine ⟨_, guar_move hI hM.mig.mig (.inl ((hB.data n).2 (.inr rfl))) rfl rfl
    ⟨⟨hM.setOut q, ?_⟩, ?_, ⟨?_, ?_⟩, ?_⟩⟩
  · change hashCode (ky (setNext m n q) n) m.tableSize = b
    rw [hky]; exact hh
  · change nx (setNext m n q) n = q
    rw [nx_setNext]; exact update_self ..
  · change Before (ky (setNext m n q)) (m.list m.bucket b) (g.S (m.list m.bucket b)) (ky (setNext m n q) n) p
    rw [hky]; exact hat.walk
  · change nx (setNext m n q) p = q
    rw [nx_setNext, update_of_ne hne]; exact hat.next
  · change q = NULL ∨ ky (setNext m n q) n < ky (setNext m n q) q
    rw [hky]; exact hs

theorem ok_link2_move (ha : Asrt P g t m (.link2 (.move c i pred n) b p q)) :
    Ok P g t m (.link2 (.move c i pred n) b p q) (exec P t m (.link2 (.move c i pred n) b p q)) := by
  obtain ⟨⟨hM, hh⟩, hn, ⟨hw, rfl⟩, hs⟩ := ha.at_
  obtain ⟨hb, hU⟩ := hM.inUse hI hh
  have hB := hM.mig.stored.lists
  have hne : n ≠ p := fun e => (hB.out n rfl).2.2 _ hU.mem (e ▸ hw.mem)
  have hp : p ∈ g.D ∨ p ∈ g.H := by
    rcases hB.mem_cases hU.mem hw.mem with h | h | h
    · exact .inr (h ▸ hU.mem)
    · exact absurd h hw.ne
    · exact .inl h
  have hput : Moving { g with S := update g.S (m.list m.bucket b) (insert n (g.S (m.list m.bucket b))) } t
      (setNext m p n) i pred none := hM.put hb hh hw hs sameRest_setNext
    (by rw [nx_setNext]; exact update_self ..) (by rw [nx_setNext, update_of_ne hne]; exact hn)
    fun a h1 _ => by rw [nx_setNext]; exact update_of_ne h1 ..
  exact ⟨_, guar_move hI hM.mig.mig hp rfl rfl hput⟩

theorem ok_rTake2 {s : ℕ} (ha : Asrt P g t m (.rTake2 c i pred q s)) :
    Ok P g t m (.rTake2 c i pred q s) (exec P t m (.rTake2 c i pred q s)) := by
  obtain ⟨hM, rfl, hq, rfl⟩ := ha.at_
  have hH : pred ∈ g.H := by rw [hM.pred]; exact hM.mig.old_mem hM.lt
  exact ⟨_, guar_move hI hM.mig.mig (.inr hH) rfl rfl (hM.take hq)⟩

omit hI in
/-- a thread with every lock that has not started to migrate: nobody does -/
theorem Asrt.no_mig_all (ha : Asrt P g t m l) (hI : Inv P g m) (hr : resizing l = false) (hh : HoldFrom P t m 0) :
    g.mig = none := hI.no_mig ha hr (hh.hold 0)

theorem ok_rOld1 (ha : Asrt P g t m (.rOld1 c)) : Ok P g t m (.rOld1 c) (exec P t m (.rOld1 c)) := by
  have hh : HoldFrom P t m 0 := ha.at_
  have hg := ha.no_mig_all hI rfl hh
  exact ⟨g, .all hh (hI.sameData ⟨rfl, rfl, rfl, rfl, rfl, rfl, rfl⟩ hI.held)
    ⟨⟨hh, rfl⟩, fun e => by rw [hg] at e; cases e⟩ rfl le_rfl (fun _ _ => .inl rfl) (fun _ _ => ⟨rfl, rfl⟩) le_rfl rfl
    (fun _ h => .inl h) rfl (.inl hg)⟩

theorem ok_rOld2 (ha : Asrt P g t m (.rOld2 c)) : Ok P g t m (.rOld2 c) (exec P t m (.rOld2 c)) := by
  obtain ⟨hh, he⟩ := ha.at_
  have hg := ha.no_mig_all hI rfl hh
  exact ⟨g, .all hh (hI.sameData ⟨rfl, rfl, rfl, rfl, rfl, rfl, rfl⟩ hI.held)
    ⟨⟨hh, he, rfl⟩, fun e => by rw [hg] at e; cases e⟩ rfl le_rfl (fun _ _ => .inl rfl) (fun _ _ => ⟨rfl, rfl⟩) le_rfl
    rfl (fun _ h => .inl h) rfl (.inl hg)⟩

theorem ok_rInit (ha : Asrt P g t m (.rInit c)) : Ok P g t m (.rInit c) (exec P t m (.rInit c)) := by
  obtain ⟨hh, e1, e2⟩ := ha.at_
  have hg := ha.no_mig_all hI rfl hh
  simp only [exec]
  by_cases hlt : m.tableSize * 2 < 2 ^ 32
  · rw [if_pos hlt]
    refine ⟨g.grow t m (m.tableSize * 2), ?_⟩
    change Guar P g t m _ _ (initBucket m (m.tableSize * 2)) (.rDouble c)
    have hM := Mig.start (t := t) (hI.live hg) hI.fresh hI.pos hI.bucket e1 e2
    refine .all hh ⟨hI.dvd, hI.pos, hI.lt, Nat.lt_of_lt_of_le hI.fresh (Nat.le_add_right _ _), Nat.lt_succ_self _,
      nofun, fun r h i hi => ?_⟩ ⟨⟨hM, hlt⟩, fun _ => rfl⟩ rfl le_rfl (fun a h => .inl ?_) (fun a h => ?_)
      (Nat.le_add_right _ _) rfl (fun a h => ?_) rfl (.inr rfl)
    · cases h; exact hh i (Nat.zero_le _) hi
    · unfold nx; rw [node_initBucket_lt h]
    · unfold ky vl; rw [node_initBucket_lt h]; exact ⟨rfl, rfl⟩
    · rcases h with h | ⟨b, -, rfl⟩
      · exact .inl h
      · exact .inr (Nat.le_add_right _ _)
  · rw [if_neg hlt]
    exact ⟨g, .quiet hI ha id (fun _ => id) ha.at_⟩

theorem ok_rDouble (ha : Asrt P g t m (.rDouble c)) : Ok P g t m (.rDouble c) (exec P t m (.rDouble c)) := by
  obtain ⟨hM, hlt⟩ := ha.at_
  refine ⟨g, ?_⟩
  change Guar P g t m _ g { m with tableSize := m.tableSize * 2 } (.rList c 0)
  have hM' : Mig g t { m with tableSize := m.tableSize * 2 } (m.tableSize * 2) 0 none :=
    ⟨hM.mig, hM.size, hM.pos, ⟨hM.stored.lists, hM.stored.nonneg, hM.stored.rep⟩, hM.heads, hM.lists⟩
  have hle : m.tableSize ≤ m.tableSize * 2 := by omega
  exact .all (hI.holdFrom hM.mig) ⟨Dvd.dvd.mul_right hI.dvd 2, lt_of_lt_of_le hI.pos hle, hlt, hI.fresh, hI.bucket,
    fun h => (by rw [hM.mig] at h; cases h), hI.held⟩ ⟨hM', fun _ => rfl⟩ rfl hle (fun _ _ => .inl rfl)
    (fun _ _ => ⟨rfl, rfl⟩) le_rfl rfl (fun _ h => .inl h) rfl (Or.inr hM.mig)

theorem ok_rList (ha : Asrt P g t m (.rList c i)) : Ok P g t m (.rList c i) (exec P t m (.rList c i)) := by
  have hM : Mig g t m m.tableSize i none := ha.at_
  simp only [exec]
  by_cases hi : i < m.oldTableSize
  · rw [if_pos hi]
    exact ⟨g, .quiet hI ha id (fun _ => id) ⟨⟨hM, hi, rfl⟩, rfl⟩⟩
  · -- the migration is over
    rw [if_neg hi]
    have hh := hI.holdFrom hM.mig
    exact ⟨{ g with H := headSet (m.list m.bucket) m.tableSize, mig := none }, .all hh
      ⟨hI.dvd, hI.pos, hI.lt, hI.fresh, hI.bucket, fun _ => hM.finish (not_lt.1 hi), nofun⟩
      ⟨hh, nofun⟩ rfl le_rfl (fun _ _ => .inl rfl) (fun _ _ => ⟨rfl, rfl⟩) le_rfl rfl
      (fun a h => .inl (by rw [hM.heads]; exact .inr h)) rfl (.inl rfl)⟩

theorem ok_rTest (ha : Asrt P g t m (.rTest c i pred q)) :
    Ok P g t m (.rTest c i pred q) (exec P t m (.rTest c i pred q)) := by
  obtain ⟨hM, rfl⟩ := ha.at_
  simp only [exec]
  by_cases hq : nx m pred ≠ NULL
  · rw [if_pos hq]
    exact ⟨g, .quiet hI ha id (fun _ => id) ⟨hM, rfl, hq⟩⟩
  · rw [if_neg hq]
    exact ⟨g, .quiet hI ha id (fun _ => id) (hM.nextList (not_not.1 hq))⟩

/-! ### All steps -/

theorem exec_ok (ha : Asrt P g t m l) : Ok P g t m l (exec P t m l) := by
  cases l with
  | idle | ret op r | policy1 c | rFree1 c | rFree2 c A => exact ⟨g, .quiet hI ha id (fun _ => id) trivial⟩
  | size u r => exact ⟨g, .quiet hI ha id (fun _ => id) ⟨ha.at_, le_rfl⟩⟩
  | hash u r s => exact ⟨g, .quiet hI ha id (fun _ => id) ⟨ha.at_.1, _, ha.at_.2, le_rfl, rfl⟩⟩
  | lockB u r s b => exact ok_lock hI ha rfl fun _ => ⟨ha.at_, hold_lock⟩
  | recheck u r s b => exact ok_recheck hI ha
  | create k v r b => exact ok_create hI ha
  | findHash k => exact ⟨g, .quiet hI ha id (fun _ => id) (hashCode_lt ha.at_ hI.pos hI.lt)⟩
  | findLock k b => exact ok_lock hI ha rfl fun _ => ⟨hold_lock, ha.at_⟩
  | first c b => exact ok_first hI ha
  | addEmpty1 c b h => cases c with
    | add k v r n => exact ok_addEmpty1_add hI ha
    | move c i p n => exact ok_addEmpty1_move hI ha
  | addEmpty2 c b => cases c with
    | add k v r n => exact ok_addEmpty2_add hI ha
    | move c i p n => exact ok_addEmpty2_move hI ha
  | test c b p q => exact ok_test hI ha
  | next c b p => exact ⟨g, .quiet hI ha id (fun _ => id) ⟨ha.at_.1, ha.at_.2, rfl⟩⟩
  | check c b p q => exact ok_check hI ha
  | link1 c b p q => cases c with
    | add k v r n => exact ok_link1_add hI ha
    | move c i p' n => exact ok_link1_move hI ha
  | link2 c b p q => cases c with
    | add k v r n => exact ok_link2_add hI ha
    | move c i p' n => exact ok_link2_move hI ha
  | del1 k b p q =>
    obtain ⟨h1, h2, h3, h4⟩ := ha.at_
    exact ⟨g, .quiet hI ha id (fun _ => id) ⟨h1, h2, h3, h4, rfl⟩⟩
  | del2 k b p q v =>
    obtain ⟨h1, h2, h3, h4, h5⟩ := ha.at_
    exact ⟨g, .quiet hI ha id (fun _ => id) ⟨h1, h2, h3, h4, h5, rfl⟩⟩
  | del3 k b p q v s => exact ok_del3 hI ha
  | count1 d b => exact ⟨g, .quiet hI ha id (fun _ => id) ha.at_⟩
  | count2 d b n => exact ok_count2 hI ha
  | unlockOk d b => cases d <;> exact ok_unlock hI ha rfl ha.at_ rfl trivial
  | unlockRetry u r b =>
    simp only [exec]
    split_ifs
    · exact ok_unlock hI ha rfl ha.at_.2 rfl ha.at_.1
    · cases u <;> exact ok_unlock hI ha rfl ha.at_.2 rfl trivial
  | findUnlock k b r => exact ok_unlock hI ha rfl ha.at_ rfl trivial
  | policy2 c n =>
    simp only [exec]
    split_ifs <;> exact ⟨g, .quiet hI ha id (fun _ => id) trivial⟩
  | rSize c => exact ⟨g, .quiet hI ha id (fun _ => id) fun j h => absurd h (Nat.not_lt_zero _)⟩
  | rLock c s i => exact ok_rLock hI ha
  | rCheck c s =>
    simp only [exec]
    split_ifs <;> exact ⟨g, .quiet hI ha id (fun _ => id) ha.at_⟩
  | rOld1 c => exact ok_rOld1 hI ha
  | rOld2 c => exact ok_rOld2 hI ha
  | rInit c => exact ok_rInit hI ha
  | rDouble c => exact ok_rDouble hI ha
  | rList c i => exact ok_rList hI ha
  | rTest c i p q => exact ok_rTest hI ha
  | rTake1 c i p q =>
    obtain ⟨h1, h2, h3⟩ := ha.at_
    exact ⟨g, .quiet hI ha id (fun _ => id) ⟨h1, h2, h3, rfl⟩⟩
  | rTake2 c i p q s => exact ok_rTake2 hI ha
  | rHash c i p q => exact ⟨g, .quiet hI ha (fun _ => rfl) (nofun) ⟨ha.at_, rfl⟩⟩
  | rNext c i p => exact ⟨g, .quiet hI ha id (fun _ => id) ⟨ha.at_, rfl⟩⟩
  | rQuit c i => exact ok_rQuit hI ha
  | rUnlock c i => exact ok_rUnlock hI ha

omit hI in
/-- a call starts from a thread that is in none -/
theorem canInvoke_idle {op : Op} (h : canInvoke l op = true) : 0 ≤ op.key ∧ resizing l = false ∧ ¬ table.Busy l := by
  cases l with
  | idle | ret op r => exact ⟨of_decide_eq_true h, rfl, fun ⟨_, h⟩ => (by cases h)⟩
  | _ => cases h

/-- **What every step guarantees.** -/
theorem step_guar (ha : Asrt P g t m l) (a : Act) : Ok P g t m l (step P t m l a) := by
  cases a with
  | step => exact exec_ok hI ha
  | invoke op =>
    simp only [step]
    by_cases hc : canInvoke l op = true
    · rw [if_pos hc]
      obtain ⟨hk, hr, -⟩ := canInvoke_idle hc
      refine ⟨g, .quiet hI ha (fun h => by rw [hr] at h; cases h) (fun n h => ?_) ?_⟩
      · cases op <;> cases h
      · cases op <;> exact hk
    · rw [if_neg hc]
      exact ⟨g, .quiet hI ha id (fun _ => id) ha.at_⟩

end Steps

/-! ## All runs -/

section Run

variable {P : Params}

theorem inv_init : ∃ g, Inv P g (sys P).sh ∧ ∀ t, Asrt P g t (sys P).sh (sys P).loc := by
  have hnil : ∀ a, 1 ≤ a → a < 1 + P.lockSize → nx (initHashtable P) a = 0 := fun a h1 h2 => nx_initBucket_new h1 h2
  obtain ⟨S, hS⟩ := Resting.empty (ky (initHashtable P)) (fun k => hashCode k P.lockSize) Nat.one_pos hnil
  have hlist : (initHashtable P).list 0 = fun b => 1 + b := list_initBucket_new
  have hrep : Rep ∅ (ky (initHashtable P)) (vl (initHashtable P)) (replay []) := fun k v => by simp [replay]
  refine ⟨⟨headSet (fun b => 1 + b) P.lockSize, S, ∅, none⟩, ⟨dvd_rfl, P.pos, P.lt, ?_, Nat.zero_lt_one, fun _ =>
    ⟨⟨hS.lists, nofun, hrep⟩, ?_, ?_⟩, nofun⟩, fun t => ⟨trivial, nofun⟩⟩
  · change 0 < 1 + P.lockSize
    omega
  · exact (congrArg (headSet · P.lockSize) hlist).symm
  · change Hashed ((initHashtable P).list 0) _ _ _ _
    rw [hlist]
    exact hS.hashed

theorem Guar.stepOk {g g' : Ghost} {m : Mem} {l : Loc} {t : ℕ} {a : Act} (hI : Inv P g m)
    (hg : Guar P g t m l g' (step P t m l a).1 (step P t m l a).2) :
    Sys.StepOk (sys P) (Inv P) (Asrt P) Disj g t m l a := by
  exact ⟨g', hg.inv, hg.asrt, fun u l2 hu h2 hd hd' =>
    ⟨h2.stable hg hI hu hd', Sys.owned_disj hg.owned hd fun _ hn => (h2.owned hn).1⟩⟩

/-- **The invariant holds in every reachable state.** -/
theorem inv_run (ls : List (ℕ × Act)) : Sys.Good (Inv P) (Asrt P) Disj ((sys P).run ls) := by
  refine Sys.run_inv (sys P) _ _ _ inv_init nofun ?_ ls
  intro g t m l a hI ha
  obtain ⟨g', hg⟩ := step_guar hI ha a
  exact hg.stepOk hI

end Run

end AlgorithmCollection.StripedHash
