/-
The locks of `LazySkiplist`: which ones a thread holds and how often, and that the threads never wait in a circle.

`held l` lists the mutexes a thread at l has locked and not unlocked, each as often as it has locked it: the victim a
`_delete` has marked, and the preds of the levels the thread has come to. `_add` releases up to `topLevel`, the retries up to
`highestLocked` and `_delete` up to `lFound`; these are the levels that were locked, as a `_delete` that searches again finds
its victim at its top level again (`hind_run`).
A search goes to the right, so preds has smaller and smaller keys from the bottom up (`Desc`), and the victim's key is larger.
So a thread that waits, waits for a node with a smaller key than those of the nodes it holds.
-/
import AlgorithmCollection.Conc.LockOrder
import AlgorithmCollection.List.LazySkiplistFind

namespace AlgorithmCollection.LazySkiplist

open Conc
open Function (update update_self update_of_ne)

/-! ## Recursive mutexes -/

/-- how often t has locked a and not unlocked it -/
def lockCount (m : Mem) (t a : ℕ) : ℕ :=
  match m.mtx a with
  | some (u, n) => if u = t then n else 0
  | none => 0

section Mutex

variable {m m' : Mem} {t u a b : ℕ}

theorem lockCount_congr (h : m'.mtx = m.mtx) (t b : ℕ) : lockCount m' t b = lockCount m t b := by
  unfold lockCount; rw [h]

theorem lockCount_acquire (hc : canLock m t a = true) (b : ℕ) :
    lockCount (acquire m t a) t b = lockCount m t b + if b = a then 1 else 0 := by
  by_cases hb : b = a
  · subst hb
    unfold canLock at hc
    cases hm : m.mtx b with
    | none => simp [lockCount, acquire, hm]
    | some x =>
      rw [hm] at hc
      have hx : x.1 = t := of_decide_eq_true hc
      simp [lockCount, acquire, hm, hx]
  · simp [lockCount, acquire, hb]

theorem lockCount_acquire_ne (hc : canLock m t a = true) (hu : u ≠ t) (b : ℕ) :
    lockCount (acquire m t a) u b = lockCount m u b := by
  by_cases hb : b = a
  · subst hb
    unfold canLock at hc
    cases hm : m.mtx b with
    | none => simp [lockCount, acquire, hm, hu.symm]
    | some x =>
      rw [hm] at hc
      have hx : x.1 = t := of_decide_eq_true hc
      simp [lockCount, acquire, hm, hx, hu.symm]
  · simp [lockCount, acquire, hb]

theorem lockCount_release (hp : 0 < lockCount m t a) (b : ℕ) :
    lockCount (release m t a) t b + (if b = a then 1 else 0) = lockCount m t b := by
  unfold lockCount at hp
  cases hm : m.mtx a with
  | none => rw [hm] at hp; exact absurd hp (lt_irrefl 0)
  | some x =>
    obtain ⟨w, n⟩ := x
    rw [hm] at hp
    by_cases hw : w = t
    · subst hw
      have hn : 0 < n := by simpa using hp
      by_cases hb : b = a
      · subst hb
        simp only [lockCount, release, hm, if_true, update_self]
        split_ifs with h1
        · change 0 + 1 = n; omega
        · change (if w = w then n - 1 else 0) + 1 = n
          rw [if_pos rfl]; omega
      · simp [lockCount, release, hm, hb]
    · simp [hw] at hp

theorem lockCount_release_ne (hu : u ≠ t) (b : ℕ) : lockCount (release m t a) u b = lockCount m u b := by
  unfold release
  cases hm : m.mtx a with
  | none => rfl
  | some x =>
    obtain ⟨w, n⟩ := x
    by_cases hw : w = t
    · subst hw
      by_cases hb : b = a
      · subst hb
        simp only [lockCount, hm, if_true, update_self, if_neg hu.symm]
        split_ifs <;> simp [hu.symm]
      · simp [lockCount, hb]
    · simp [hw]

/-- no mutex is counted as held zero times -/
def Counted (m : Mem) : Prop := ∀ a u n, m.mtx a = some (u, n) → 0 < n

theorem Counted.owner (h : Counted m) (hm : (m.mtx a).map Prod.fst = some u) : 0 < lockCount m u a := by
  cases e : m.mtx a with
  | none => rw [e] at hm; cases hm
  | some x =>
    obtain ⟨w, n⟩ := x
    rw [e] at hm
    cases hm
    unfold lockCount
    rw [e]
    simpa using h a w n e

end Mutex

/-! ## What a thread holds -/

/-- the victim that `_delete` has marked -/
def Ctx.held : Ctx → List ℕ
  | .delete _ (some mk) => [mk.victim]
  | .delete _ none | .add _ _ _ | .find _ => []

/-- n entries of preds from level i on -/
def span (ws : Ws) (i n : ℕ) : List ℕ := (List.range' i n).map ws.preds

/-- the mutexes locked and not unlocked, each as often as it was locked -/
def held : Loc → List ℕ
  | .load c _ _ _ _ | .test c _ _ _ _ _ | .found c _ _ => c.held
  | .lockPred j ws lv => j.ctx.held ++ span ws 0 lv
  | .valid1 j ws lv | .valid2 j ws lv | .valid3 j ws lv => j.ctx.held ++ span ws 0 (lv + 1)
  | .retry j ws h i => j.ctx.held ++ span ws i (h + 1 - i)
  | .assert1 _ _ top ws _ | .assert2 _ _ top ws _ | .create _ _ top ws | .link1 _ _ top ws _ _ | .link2 _ _ top ws _ _
  | .full _ _ top ws _ => span ws 0 (top + 1)
  | .addUnlock _ _ top ws lv => span ws lv (top + 1 - lv)
  | .flag1 k mark _ _ _ | .flag2 k mark _ _ _ | .flag3 k mark _ _ _ => (Ctx.delete k mark).held
  | .recheck _ _ _ victim _ | .mark _ _ _ victim _ | .giveUp _ victim => [victim]
  | .unlink1 _ _ ws f victim _ | .unlink2 _ _ ws f victim _ _ | .unlockVictim _ _ ws f victim => victim :: span ws 0 (f + 1)
  | .delUnlock _ _ ws f _ i => span ws i (f + 1 - i)
  | _ => []

/-- the mutex the next step locks -/
def locksAt : Loc → Option ℕ
  | .lockPred _ ws lv => some (ws.preds lv)
  | .lockVictim _ _ _ victim _ => some victim
  | _ => none

/-- the mutex the next step unlocks -/
def unlocksAt : Loc → Option ℕ
  | .retry _ ws _ i | .addUnlock _ _ _ ws i | .delUnlock _ _ ws _ _ i => some (ws.preds i)
  | .giveUp _ victim | .unlockVictim _ _ _ _ victim => some victim
  | _ => none

/-- the loops that unlock have not gone past their bounds -/
def InLoop : Loc → Prop
  | .addUnlock _ _ top _ lv => lv ≤ top
  | .delUnlock _ _ _ f _ i => i ≤ f
  | _ => True

/-- what a step does to the mutexes: nothing, one is locked, or one is unlocked -/
inductive Locking (t : ℕ) (m : Mem) (l : Loc) (m' : Mem) (l' : Loc) : Prop where
  | keep : m'.mtx = m.mtx → (∀ b, (held l').count b = (held l).count b) →
      (∀ a, locksAt l = some a → canLock m t a = false) → unlocksAt l = none → Locking t m l m' l'
  | lock (a : ℕ) : locksAt l = some a → unlocksAt l = none → canLock m t a = true → m'.mtx = (acquire m t a).mtx →
      (∀ b, (held l').count b = (held l).count b + if b = a then 1 else 0) → Locking t m l m' l'
  | unlock (a : ℕ) : unlocksAt l = some a → locksAt l = none → m'.mtx = (release m t a).mtx →
      (∀ b, (held l').count b + (if b = a then 1 else 0) = (held l).count b) → Locking t m l m' l'

section Held

variable {P : Params} {g : Ghost} {t : ℕ} {m m' : Mem} {l l' : Loc}

theorem Locking.of_eq (h1 : m'.mtx = m.mtx) (h2 : held l' = held l) (h3 : locksAt l = none) (h4 : unlocksAt l = none) :
    Locking t m l m' l' :=
  .keep h1 (fun b => by rw [h2]) (fun a h => by rw [h3] at h; cases h) h4

theorem span_succ (ws : Ws) (n : ℕ) : span ws 0 (n + 1) = span ws 0 n ++ [ws.preds n] := by
  unfold span
  rw [List.range'_1_concat, List.map_append, Nat.zero_add]
  rfl

theorem span_cons (ws : Ws) {i h : ℕ} (hi : i ≤ h) : span ws i (h + 1 - i) = ws.preds i :: span ws (i + 1) (h - i) := by
  unfold span
  rw [Nat.succ_sub hi, List.range'_succ]
  rfl

theorem count_snoc (L : List ℕ) (a b : ℕ) : (L ++ [a]).count b = L.count b + if b = a then 1 else 0 := by
  rw [List.count_append]
  by_cases e : b = a
  · rw [if_pos e, e, List.count_singleton_self]
  · rw [if_neg e, List.count_eq_zero_of_not_mem fun h => e (List.mem_singleton.1 h)]

theorem count_cons_eq (L : List ℕ) (a b : ℕ) : L.count b + (if b = a then 1 else 0) = (a :: L).count b := by
  by_cases e : b = a
  · rw [if_pos e, e, List.count_cons_self]
  · rw [if_neg e, List.count_cons_of_ne (Ne.symm e)]
    rfl

/-- a lock step -/
theorem locking_lock {a : ℕ} (h1 : locksAt l = some a) (h2 : unlocksAt l = none)
    (h3 : ∀ b, (held l').count b = (held l).count b + if b = a then 1 else 0) :
    Locking t m l (lock t m a l l').1 (lock t m a l l').2 := by
  unfold LazySkiplist.lock
  by_cases hc : canLock m t a = true
  · rw [if_pos hc]
    exact .lock a h1 h2 hc rfl h3
  · rw [if_neg hc]
    refine .keep rfl (fun _ => rfl) (fun a' h => ?_) h2
    rw [h1] at h
    cases h
    exact Bool.eq_false_iff.2 hc

/-- one round of a loop that unlocks preds -/
theorem locking_span {ws : Ws} {i h : ℕ} {L : List ℕ} (hi : i ≤ h) (h1 : unlocksAt l = some (ws.preds i))
    (h2 : locksAt l = none) (h3 : held l = L ++ span ws i (h + 1 - i)) (h4 : held l' = L ++ span ws (i + 1) (h - i)) :
    Locking t m l (release m t (ws.preds i)) l' := by
  refine .unlock _ h1 h2 rfl fun b => ?_
  rw [h3, h4, span_cons ws hi, List.count_append, List.count_append, add_assoc, count_cons_eq]

/-- **What a step of a thread does to the mutexes.** -/
theorem exec_locking (ha : AsrtAt P g t m l) (hh : Hind l) (hloop : InLoop l) (hborn : m.mtx m.fresh = none) :
    Locking t m l (exec P t m l).1 (exec P t m l).2 := by
  cases l with
  | test c ws lf lv p q =>
    simp only [exec]
    split_ifs
    · exact .of_eq rfl rfl rfl rfl
    · cases lv <;> exact .of_eq rfl rfl rfl rfl
  | found c ws lf =>
    cases c with
    | add k v top | find k => cases lf <;> exact .of_eq rfl rfl rfl rfl
    | delete k mark =>
      cases lf with
      | some f => exact .of_eq rfl rfl rfl rfl
      | none =>
        cases mark with
        | none => exact .of_eq rfl rfl rfl rfl
        | some mk => cases hh.1
  | lockPred j ws lv =>
    refine locking_lock rfl rfl fun b => ?_
    change (j.ctx.held ++ span ws 0 (lv + 1)).count b = (j.ctx.held ++ span ws 0 lv).count b + _
    rw [span_succ, ← List.append_assoc, count_snoc]
  | lockVictim k ws f v top => exact locking_lock rfl rfl fun b => count_snoc [] v b
  | valid1 j ws lv =>
    simp only [exec]
    split_ifs
    · exact .of_eq rfl rfl rfl rfl
    · cases j <;> exact .of_eq rfl rfl rfl rfl
  | valid2 j ws lv | chkMarked k v top n | spin k v n | link2 k v top ws n lv | recheck k ws f v top | find1 k ws f
  | find2 k ws f => simp only [exec]; split_ifs <;> exact .of_eq rfl rfl rfl rfl
  | valid3 j ws lv =>
    simp only [exec]
    unfold afterValid
    split_ifs with h1 h2
    · exact .of_eq rfl rfl rfl rfl
    · -- all levels are locked
      obtain ⟨hj, hlv, -⟩ := ha
      have htop : lv = j.topLevel := le_antisymm hlv (not_lt.1 h2)
      cases j with
      | add k v top =>
        cases htop
        exact .of_eq rfl rfl rfl rfl
      | delete k mk victim f =>
        obtain ⟨hv, hf⟩ := hj.same
        refine .of_eq rfl ?_ rfl rfl
        change victim :: span ws 0 (f + 1) = mk.victim :: span ws 0 (lv + 1)
        rw [hv, hf, htop]
        rfl
    · exact .of_eq rfl rfl rfl rfl
  | retry j ws h i =>
    obtain ⟨-, hi, -⟩ := ha
    refine locking_span hi rfl rfl rfl ?_
    by_cases hlt : i < h
    · simp only [exec]
      rw [if_pos hlt]
      change j.ctx.held ++ span ws (i + 1) (h + 1 - (i + 1)) = _
      rw [Nat.add_sub_add_right]
    · simp only [exec]
      rw [if_neg hlt, Nat.sub_eq_zero_of_le (not_lt.1 hlt)]
      exact (List.append_nil _).symm
  | addUnlock k v top ws lv =>
    refine locking_span (L := []) hloop rfl rfl rfl ?_
    by_cases hlt : lv < top
    · simp only [exec]
      rw [if_pos hlt]
      change span ws (lv + 1) (top + 1 - (lv + 1)) = _
      rw [Nat.add_sub_add_right]
      rfl
    · simp only [exec]
      rw [if_neg hlt, Nat.sub_eq_zero_of_le (not_lt.1 hlt)]
      rfl
  | delUnlock k mk ws f v i =>
    refine locking_span (L := []) hloop rfl rfl rfl ?_
    by_cases hlt : i < f
    · simp only [exec]
      rw [if_pos hlt]
      change span ws (i + 1) (f + 1 - (i + 1)) = _
      rw [Nat.add_sub_add_right]
      rfl
    · simp only [exec]
      rw [if_neg hlt, Nat.sub_eq_zero_of_le (not_lt.1 hlt)]
      rfl
  | assert1 k v top ws lv =>
    simp only [exec]
    rw [if_neg (Bool.eq_false_iff.1 (ha.2.2 lv ha.2.1).unmarked)]
    exact .of_eq rfl rfl rfl rfl
  | assert2 k v top ws lv =>
    simp only [exec]
    rw [if_pos (ha.2.2 lv ha.2.1).next]
    split_ifs <;> exact .of_eq rfl rfl rfl rfl
  | create k v top ws =>
    refine .of_eq ?_ rfl rfl rfl
    change update m.mtx m.fresh none = m.mtx
    rw [← hborn, Function.update_eq_self]
  | flag1 k mark ws f v | flag2 k mark ws f v =>
    simp only [exec]
    split_ifs
    · exact .of_eq rfl rfl rfl rfl
    · cases mark <;> exact .of_eq rfl rfl rfl rfl
  | flag3 k mark ws f v =>
    change Locking t m _ m (afterFlag m k mark ws f v (!(m.node v).marked))
    cases mark with
    | some mk => exact .of_eq rfl rfl rfl rfl
    | none => cases !(m.node v).marked <;> exact .of_eq rfl rfl rfl rfl
  | giveUp k v => exact .unlock v rfl rfl rfl fun b => count_cons_eq [] v b
  | unlink2 k mk ws f v lv s => cases lv <;> exact .of_eq rfl rfl rfl rfl
  | unlockVictim k mk ws f v => exact .unlock v rfl rfl rfl fun b => count_cons_eq _ v b
  | _ => exact .of_eq rfl rfl rfl rfl

/-- the loops keep their bounds -/
theorem exec_inLoop (hloop : InLoop l) : InLoop (exec P t m l).2 := by
  cases l with
  | test c ws lf lv p q =>
    simp only [exec]
    split_ifs
    · trivial
    · cases lv <;> trivial
  | found c ws lf => cases c <;> cases lf <;> trivial
  | lockPred j ws lv | lockVictim k ws f v top => simp only [exec, LazySkiplist.lock]; split_ifs <;> trivial
  | valid1 j ws lv =>
    simp only [exec]
    split_ifs
    · trivial
    · cases j <;> trivial
  | valid2 j ws lv | retry j ws h i | chkMarked k v top n | spin k v n | assert1 k v top ws lv | assert2 k v top ws lv
  | link2 k v top ws n lv | recheck k ws f v top | find1 k ws f
  | find2 k ws f => simp only [exec]; split_ifs <;> trivial
  | valid3 j ws lv =>
    simp only [exec, afterValid]
    split_ifs
    · trivial
    · cases j <;> trivial
    · trivial
  | addUnlock k v top ws lv | delUnlock k mk ws f v i =>
    simp only [exec]
    split_ifs with hlt
    · exact hlt
    · trivial
  | full k v top ws n => exact Nat.zero_le top
  | flag1 k mark ws f v | flag2 k mark ws f v =>
    simp only [exec]
    split_ifs
    · trivial
    · cases mark <;> trivial
  | flag3 k mark ws f v =>
    change InLoop (afterFlag m k mark ws f v (!(m.node v).marked))
    cases mark with
    | some mk => trivial
    | none => cases !(m.node v).marked <;> trivial
  | unlink2 k mk ws f v lv s => cases lv <;> trivial
  | unlockVictim k mk ws f v => exact Nat.zero_le f
  | _ => trivial

end Held

/-! ## The order of preds -/

/-- p is q or has a smaller key -/
def Below (kf : ℕ → ℤ) (p q : ℕ) : Prop := p = q ∨ kf p < kf q

/-- from level lo on preds has smaller and smaller keys -/
def Desc (P : Params) (kf : ℕ → ℤ) (ws : Ws) (lo : ℕ) : Prop :=
  ∀ i j, lo ≤ i → i < j → j < P.maxLevel → Below kf (ws.preds j) (ws.preds i)

/-- the search has come from preds to pred -/
structure Come (P : Params) (kf : ℕ → ℤ) (ws : Ws) (lv pred : ℕ) : Prop where
  desc : Desc P kf ws (lv + 1)
  below : ∀ j, lv < j → j < P.maxLevel → Below kf (ws.preds j) pred

/-- the order of preds in the calls that search and lock -/
def Ordered (P : Params) (kf : ℕ → ℤ) : Loc → Prop
  | .load _ ws _ lv pred => Come P kf ws lv pred
  | .test _ ws _ lv pred curr => Come P kf ws lv pred ∧ kf pred < kf curr
  | .found _ ws _ | .lockPred _ ws _ | .valid1 _ ws _ | .valid2 _ ws _ | .valid3 _ ws _ | .flag1 _ _ ws _ _
  | .flag2 _ _ ws _ _ | .flag3 _ _ ws _ _ | .lockVictim _ ws _ _ _ | .recheck _ ws _ _ _ | .mark _ ws _ _ _ => Desc P kf ws 0
  | _ => True

section Order

variable {P : Params} {g : Ghost} {kf kf' : ℕ → ℤ} {t : ℕ} {m m' : Mem} {l : Loc} {ws : Ws}

theorem Below.congr {p q : ℕ} (h : Below kf p q) (hp : kf' p = kf p) (hq : kf' q = kf q) : Below kf' p q := by
  unfold Below
  rw [hp, hq]
  exact h

theorem Desc.congr {lo : ℕ} (h : Desc P kf ws lo) (hk : ∀ i, lo ≤ i → i < P.maxLevel → kf' (ws.preds i) = kf (ws.preds i)) :
    Desc P kf' ws lo := fun i j hi hij hj =>
  (h i j hi hij hj).congr (hk j (hi.trans hij.le) hj) (hk i hi (hij.trans hj))

theorem come_search : Come P kf Ws.init (P.maxLevel - 1) head :=
  ⟨fun i j hi hij hj => by omega, fun j h1 h2 => by omega⟩

/-- the walk goes on at the same level -/
theorem Come.step {lv p q : ℕ} (h : Come P kf ws lv p) (hlt : kf p < kf q) : Come P kf ws lv q where
  desc := h.desc
  below j h1 h2 := by
    rcases h.below j h1 h2 with e | hj
    · exact .inr (e ▸ hlt)
    · exact .inr (hj.trans hlt)

/-- the walk ends at one level -/
theorem Come.endLevel {lv p q : ℕ} (h : Come P kf ws lv p) :
    Desc P kf (ws.set lv p q) lv ∧ ∀ j, lv ≤ j → j < P.maxLevel → Below kf ((ws.set lv p q).preds j) p := by
  have hself : (ws.set lv p q).preds lv = p := by simp [Ws.set]
  have hne : ∀ j, lv < j → (ws.set lv p q).preds j = ws.preds j := fun j hj => by
    simp [Ws.set, update_of_ne hj.ne']
  constructor
  · intro i j hi hij hj
    rw [hne j (lt_of_le_of_lt hi hij)]
    rcases hi.eq_or_lt with rfl | hi
    · rw [hself]
      exact h.below j hij hj
    · rw [hne i hi]
      exact h.desc i j hi hij hj
  · intro j hj1 hj2
    rcases hj1.eq_or_lt with rfl | hj1
    · exact .inl hself
    · rw [hne j hj1]
      exact h.below j hj1 hj2

/-- the keys of linked nodes do not change, so the order stays -/
theorem Ordered.congr (h : Ordered P (key m) l) (ha : AsrtAt P g t m l)
    (hk : ∀ i < P.maxLevel, ∀ a ∈ g.L i, key m' a = key m a) : Ordered P (key m') l := by
  have hdesc : ∀ {ws : Ws} {k : ℤ} {lf : Option ℕ} {lo : ℕ}, Searched P g (key m) k ws lf lo → Desc P (key m) ws lo →
      Desc P (key m') ws lo := fun hs hd => hd.congr fun i h1 h2 => hk i h2 _ (hs.near i h1 h2).pred_mem
  have hcome : ∀ {ws : Ws} {k : ℤ} {lf : Option ℕ} {lv p : ℕ}, lv < P.maxLevel → p ∈ g.L lv →
      Searched P g (key m) k ws lf (lv + 1) → Come P (key m) ws lv p → Come P (key m') ws lv p := by
    intro ws k lf lv p hlv hp hs hc
    refine ⟨hdesc hs hc.desc, fun j h1 h2 => (hc.below j h1 h2).congr (hk j h2 _ (hs.near j h1 h2).pred_mem) (hk lv hlv p hp)⟩
  cases l with
  | load c ws lf lv p => exact hcome ha.2.1 ha.2.2.1 ha.2.2.2.2 h
  | test c ws lf lv p q =>
    refine ⟨hcome ha.2.1 ha.2.2.1 ha.2.2.2.2.1 h.1, ?_⟩
    rw [hk lv ha.2.1 p ha.2.2.1, hk lv ha.2.1 q ha.2.2.2.2.2]
    exact h.2
  | found c ws lf => exact hdesc ha.2 h
  | lockPred j ws lv | valid1 j ws lv | valid2 j ws lv | valid3 j ws lv | lockVictim k ws f v top | recheck k ws f v top
  | mark k ws f v top => exact hdesc ha.1.searched h
  | flag1 k mark ws f v | flag2 k mark ws f v | flag3 k mark ws f v => exact hdesc ha.2.1.searched h
  | _ => trivial

/-- a step of the thread keeps the order -/
theorem exec_ordered (hI : Inv P g m) (ha : AsrtAt P g t m l) (h : Ordered P (key m) l) :
    Ordered P (key (exec P t m l).1) (exec P t m l).2 := by
  cases l with
  | load c ws lf lv p =>
    refine ⟨h, ?_⟩
    obtain ⟨-, hlv, hp, hlt, hs⟩ := ha
    exact ((hI.level lv hlv).edge p hp (hI.ne_tail hs.range hlt)).2
  | test c ws lf lv p q =>
    simp only [exec]
    split_ifs
    · exact h.1.step h.2
    · have hend := Come.endLevel (q := q) h.1
      cases lv with
      | zero => exact hend.1
      | succ lv => exact ⟨hend.1, hend.2⟩
  | found c ws lf => cases c <;> cases lf <;> first | exact h | trivial
  | lockPred j ws lv | lockVictim k ws f v top => simp only [exec, LazySkiplist.lock]; split_ifs <;> exact h
  | valid1 j ws lv =>
    simp only [exec]
    split_ifs
    · trivial
    · cases j <;> exact h
  | valid2 j ws lv | recheck k ws f v top =>
    simp only [exec]
    split_ifs
    · trivial
    · exact h
  | valid3 j ws lv =>
    simp only [exec, afterValid]
    split_ifs
    · exact h
    · cases j <;> trivial
    · trivial
  | retry j ws hi i =>
    simp only [exec]
    split_ifs
    · trivial
    · exact come_search
  | chkMarked k v top n =>
    simp only [exec]
    split_ifs
    · exact come_search
    · trivial
  | flag1 k mark ws f v | flag2 k mark ws f v =>
    simp only [exec]
    split_ifs
    · exact h
    · cases mark <;> first | exact h | trivial
  | flag3 k mark ws f v =>
    change Ordered P (key m) (afterFlag m k mark ws f v (!(m.node v).marked))
    cases mark with
    | some mk => exact h
    | none => cases !(m.node v).marked <;> first | exact h | trivial
  | mark k ws f v top =>
    have hkey : key (setMarked m v) = key m := by
      funext a
      by_cases e : a = v
      · simp [key, setMarked, setNode, e]
      · simp [key, setMarked, setNode, e]
    change Desc P (key (setMarked m v)) ws 0
    rw [hkey]
    exact h
  | spin k v n | assert1 k v top ws lv | assert2 k v top ws lv | link2 k v top ws n lv | addUnlock k v top ws lv
  | delUnlock k mk ws f v i | find1 k ws f | find2 k ws f => simp only [exec]; split_ifs <;> trivial
  | unlink2 k mk ws f v lv s => cases lv <;> trivial
  | _ => trivial

/-- a thread locks nodes that have been linked -/
theorem locksAt_mem (hI : Inv P g m) (ha : AsrtAt P g t m l) {a : ℕ} (hl : locksAt l = some a) : a ∈ g.L 0 := by
  cases l with
  | lockPred j ws lv =>
    cases hl
    have hlv := lt_of_le_of_lt ha.2.1 ha.1.top
    exact hI.downL hlv (ha.1.near hlv).pred_mem 0 (Nat.zero_le _)
  | lockVictim k ws f v top => cases hl; exact (ha.1.mem hI).2.2.1
  | _ => cases hl

/-- **A thread that has to wait holds only nodes with larger keys** than the one it waits for. -/
theorem held_above (hI : Inv P g m) (ha : AsrtAt P g t m l) (ho : Ordered P (key m) l) {a b : ℕ} (hl : locksAt l = some a)
    (hb : b ∈ held l) (hne : b ≠ a) : b ∈ g.L 0 ∧ key m a < key m b := by
  cases l with
  | lockVictim k ws f v top => cases hb
  | lockPred j ws lv =>
    cases hl
    obtain ⟨hj, hlv, -⟩ := ha
    have hlt : lv < P.maxLevel := lt_of_le_of_lt hlv hj.top
    rcases List.mem_append.1 hb with hb | hb
    · -- the victim has the key, and preds are before it
      cases j with
      | add k v top => cases hb
      | delete k mk victim f =>
        rw [List.mem_singleton.1 hb]
        have hv : Victim P g t m k mk := hj.ctx
        refine ⟨(hI.bot).sub (hv.mem 0 (Nat.zero_le _)), ?_⟩
        rw [hv.key]
        exact (hj.near hlt).lt
    · obtain ⟨i, hi, rfl⟩ := List.mem_map.1 hb
      have hi : i < lv := by simpa using hi
      refine ⟨hI.downL (hi.trans hlt) (hj.near (hi.trans hlt)).pred_mem 0 (Nat.zero_le _), ?_⟩
      exact (ho i lv (Nat.zero_le _) hi hlt).resolve_left (Ne.symm hne)
  | _ => cases hl

end Order

/-! ## The run -/

/-- the mutexes are as the threads' places in the program say -/
structure Discipline (P : Params) (s : St Mem Loc) : Prop where
  counted : Counted s.sh
  unborn : ∀ a, s.sh.fresh ≤ a → s.sh.mtx a = none
  inLoop : ∀ t, InLoop (s.loc t)
  ordered : ∀ t, Ordered P (key s.sh) (s.loc t)
  held : ∀ t a, lockCount s.sh t a = (held (s.loc t)).count a

section Run

variable {P : Params} {g g' : Ghost} {t u : ℕ} {m m' : Mem} {l l' : Loc}

theorem Counted.acquire (h : Counted m) (t a : ℕ) : Counted (acquire m t a) := by
  intro b u n hb
  by_cases e : b = a
  · subst e
    simp only [LazySkiplist.acquire, update_self, Option.some.injEq, Prod.mk.injEq] at hb
    obtain ⟨-, rfl⟩ := hb
    split <;> omega
  · simp only [LazySkiplist.acquire, update_of_ne e] at hb
    exact h b u n hb

/-- unlocking does nothing, or counts down the mutex that t holds -/
theorem release_cases (m : Mem) (t a : ℕ) : (release m t a).mtx = m.mtx ∨
    ∃ n, m.mtx a = some (t, n) ∧ (release m t a).mtx = update m.mtx a (if n ≤ 1 then none else some (t, n - 1)) := by
  unfold release
  cases hm : m.mtx a with
  | none => exact .inl rfl
  | some x =>
    obtain ⟨w, n⟩ := x
    by_cases hw : w = t
    · subst hw
      simp only [if_true]
      exact .inr ⟨n, rfl, rfl⟩
    · simp only [if_neg hw]
      exact .inl trivial

theorem Counted.release (h : Counted m) (t a : ℕ) : Counted (release m t a) := by
  rcases release_cases m t a with e | ⟨n, hn, e⟩
  · unfold Counted
    rw [e]
    exact h
  · intro b u k hb
    rw [e] at hb
    by_cases hba : b = a
    · rw [hba, update_self] at hb
      by_cases h1 : n ≤ 1
      · rw [if_pos h1] at hb; cases hb
      · rw [if_neg h1] at hb
        cases hb
        omega
    · rw [update_of_ne hba] at hb
      exact h b u k hb

theorem release_none {a b : ℕ} (hb : m.mtx b = none) : (release m t a).mtx b = none := by
  rcases release_cases m t a with e | ⟨n, hn, e⟩
  · rw [e, hb]
  · have hne : b ≠ a := fun h => by rw [h, hn] at hb; cases hb
    rw [e, update_of_ne hne, hb]

/-- `Counted` only looks at the mutexes -/
theorem Counted.congr (h : Counted m) (e : m'.mtx = m.mtx) : Counted m' := by
  unfold Counted
  rw [e]
  exact h

/-- a step keeps count of the mutexes of all threads -/
theorem Locking.counts (h : Locking t m l m' l') (hc : Counted m) (hheld : ∀ b, lockCount m t b = (held l).count b) :
    Counted m' ∧ (∀ b, lockCount m' t b = (held l').count b) ∧
      ∀ u b, u ≠ t → lockCount m' u b = lockCount m u b := by
  cases h with
  | keep hmtx hcount _ _ =>
    refine ⟨hc.congr hmtx, fun b => ?_, fun u b _ => lockCount_congr hmtx u b⟩
    rw [lockCount_congr hmtx, hheld, hcount]
  | lock a _ _ hcan hmtx hcount =>
    refine ⟨(hc.acquire t a).congr hmtx, fun b => ?_, fun u b hu => ?_⟩
    · rw [lockCount_congr hmtx, lockCount_acquire hcan, hheld, hcount]
    · rw [lockCount_congr hmtx, lockCount_acquire_ne hcan hu]
  | unlock a _ _ hmtx hcount =>
    -- the mutex is one of those it holds
    have hpos : 0 < lockCount m t a := by
      rw [hheld, ← hcount a, if_pos rfl]
      exact Nat.succ_pos _
    refine ⟨(hc.release t a).congr hmtx, fun b => ?_, fun u b hu => ?_⟩
    · have h1 := lockCount_release hpos b
      have h2 := hcount b
      rw [lockCount_congr hmtx]
      rw [hheld, ← h2] at h1
      exact Nat.add_right_cancel h1
    · rw [lockCount_congr hmtx, lockCount_release_ne hu]

/-- nodes that are not allocated are not locked -/
theorem Locking.unborn (h : Locking t m l m' l') (hI : Inv P g m) (ha : AsrtAt P g t m l) (hf : m.fresh ≤ m'.fresh)
    (hm : ∀ a, m.fresh ≤ a → m.mtx a = none) {a : ℕ} (hle : m'.fresh ≤ a) : m'.mtx a = none := by
  have hnone := hm a (hf.trans hle)
  cases h with
  | keep hmtx _ _ _ => rw [hmtx, hnone]
  | lock b hl _ _ hmtx _ =>
    have hlt := hI.lt_fresh P.pos (locksAt_mem hI ha hl)
    have hne : a ≠ b := fun e => absurd (e ▸ hf.trans hle) (not_le.2 hlt)
    rw [hmtx]
    simp only [acquire, update_of_ne hne, hnone]
  | unlock b _ _ hmtx _ => rw [hmtx, release_none hnone]

theorem held_of_canInvoke (h : canInvoke l = true) : held l = [] := by
  cases l with
  | idle | ret _ _ | retFind _ _ => rfl
  | _ => cases h

theorem held_entry (op : ValidOp P) (r : ℕ) : held (entry P r op.1) = [] := by cases op.1 <;> rfl

/-- one step of thread t, as seen from t -/
theorem step_discipline (hI : Inv P g m) (ha : AsrtAt P g t m l) (hh : Hind l) (hloop : InLoop l)
    (ho : Ordered P (key m) l) (hc : Counted m) (hm : ∀ a, m.fresh ≤ a → m.mtx a = none)
    (hheld : ∀ b, lockCount m t b = (held l).count b) (a : Act P) :
    (Counted (step P t m l a).1 ∧ (∀ b, lockCount (step P t m l a).1 t b = (held (step P t m l a).2).count b) ∧
      ∀ u b, u ≠ t → lockCount (step P t m l a).1 u b = lockCount m u b) ∧
    InLoop (step P t m l a).2 ∧ Ordered P (key (step P t m l a).1) (step P t m l a).2 ∧
    ∀ b, (step P t m l a).1.fresh ≤ b → (step P t m l a).1.mtx b = none := by
  cases a with
  | step =>
    have hl := exec_locking ha hh hloop (hm _ le_rfl)
    obtain ⟨g', hg, -⟩ := step_guar hI ha hh .step
    exact ⟨hl.counts hc hheld, exec_inLoop hloop, exec_ordered hI ha ho, fun b hb => hl.unborn hI ha hg.fresh hm hb⟩
  | invoke op r =>
    simp only [step]
    by_cases hinv : canInvoke l = true
    · rw [if_pos hinv]
      rw [held_of_canInvoke hinv] at hheld
      rw [held_entry]
      refine ⟨⟨hc, hheld, fun u b _ => trivial⟩, ?_, ?_, hm⟩
      · cases op.1 <;> trivial
      · cases op.1 <;> first | exact come_search | trivial
    · rw [if_neg hinv]
      exact ⟨⟨hc, hheld, fun u b _ => trivial⟩, hloop, ho, hm⟩

/-- **In every reachable state a thread holds exactly the mutexes its place in the program says**, as often as it says. -/
theorem discipline_run (ls : List (ℕ × Act P)) : Discipline P ((sys P).run ls) := by
  induction ls using List.reverseRecOn with
  | nil =>
    refine ⟨nofun, fun a _ => rfl, fun t => trivial, fun t => trivial, fun t a => rfl⟩
  | append_singleton ls x ih =>
    obtain ⟨g, hI, hA, -⟩ := inv_run ls
    obtain ⟨t, a⟩ := x
    obtain ⟨g', hg, -⟩ := step_guar hI (hA t) (hind_run ls t) a
    obtain ⟨⟨hc, hself, hothers⟩, hloop, ho, hunborn⟩ := step_discipline hI (hA t) (hind_run ls t) (ih.inLoop t)
      (ih.ordered t) ih.counted ih.unborn (ih.held t) a
    rw [Sys.run_snoc]
    refine ⟨hc, hunborn, fun u => ?_, fun u => ?_, fun u b => ?_⟩
    · by_cases hu : u = t
      · rw [hu, Sys.next_loc_self]; exact hloop
      · rw [Sys.next_loc_ne _ _ _ hu]; exact ih.inLoop u
    · by_cases hu : u = t
      · rw [hu, Sys.next_loc_self, Sys.next_sh]; exact ho
      · -- the keys of linked nodes stay
        rw [Sys.next_loc_ne _ _ _ hu, Sys.next_sh]
        exact (ih.ordered u).congr (hA u) fun i hi b hb => hg.key_eq hI hi hb
    · by_cases hu : u = t
      · rw [hu, Sys.next_loc_self, Sys.next_sh]; exact hself b
      · rw [Sys.next_loc_ne _ _ _ hu, Sys.next_sh]
        exact (hothers u b hu).trans (ih.held u b)

end Run

/-! ## The results -/

/-- the mutex a thread has to wait for: the one its next step locks, if another thread holds it -/
def waits (m : Mem) (t : ℕ) (l : Loc) : Option ℕ := (locksAt l).filter fun a => !canLock m t a

/-- the thread that holds a mutex -/
def owner (m : Mem) (a : ℕ) : Option ℕ := (m.mtx a).map Prod.fst

def Act.isStep {P : Params} : Act P → Bool
  | .step => true
  | .invoke _ _ => false

/-- how often thread t has locked the mutex of a in a run -/
def locked (P : Params) (t a : ℕ) (ls : List (ℕ × Act P)) : ℕ :=
  (sys P).tally (fun u m l x => x.isStep && decide (u = t ∧ locksAt l = some a ∧ canLock m u a = true)) ls

/-- how often thread t has unlocked the mutex of a in a run -/
def unlocked (P : Params) (t a : ℕ) (ls : List (ℕ × Act P)) : ℕ :=
  (sys P).tally (fun u _ l x => x.isStep && decide (u = t ∧ unlocksAt l = some a)) ls

section Results

variable {P : Params} {t : ℕ} {m : Mem} {l : Loc}

theorem waits_eq {a : ℕ} (h : waits m t l = some a) : locksAt l = some a ∧ canLock m t a = false := by
  unfold waits at h
  rw [Option.filter_eq_some_iff] at h
  exact ⟨h.1, by simpa using h.2⟩

/-- a mutex that t holds does not stop t -/
theorem canLock_of_owner {a : ℕ} (h : owner m a = some t) : canLock m t a = true := by
  unfold owner at h
  unfold canLock
  cases hm : m.mtx a with
  | none => rfl
  | some x =>
    rw [hm] at h
    exact decide_eq_true (Option.some.inj h)

/-- the waiting threads wait for smaller and smaller keys -/
theorem no_circle (ls : List (ℕ × Act P)) :
    ¬ Deadlock (fun t => waits ((sys P).run ls).sh t (((sys P).run ls).loc t)) (owner ((sys P).run ls).sh) := by
  obtain ⟨g, hI, hA, -⟩ := inv_run ls
  have hD := discipline_run ls
  refine no_deadlock_of_mem (fun a => -key ((sys P).run ls).sh a) (g.L 0) fun t p q hp hq => ?_
  obtain ⟨hl, hcan⟩ := waits_eq hp
  have hheld : q ∈ held (((sys P).run ls).loc t) := by
    rw [← List.count_pos_iff, ← hD.held]
    exact hD.counted.owner hq
  have hne : q ≠ p := by
    rintro rfl
    rw [canLock_of_owner hq] at hcan
    cases hcan
  obtain ⟨hL, hlt⟩ := held_above hI (hA t) (hD.ordered t) hl hheld hne
  exact ⟨hL, neg_lt_neg hlt⟩

/-- what t has locked and not unlocked in a run -/
theorem balance_run (ls : List (ℕ × Act P)) (t a : ℕ) :
    locked P t a ls = unlocked P t a ls + (held (((sys P).run ls).loc t)).count a := by
  induction ls using List.reverseRecOn with
  | nil => rfl
  | append_singleton ls x ih =>
    obtain ⟨u, b⟩ := x
    unfold locked unlocked at ih ⊢
    rw [Sys.tally_snoc, Sys.tally_snoc, ih, Sys.run_snoc]
    by_cases hu : u = t
    swap
    · rw [Sys.next_loc_ne _ _ _ (Ne.symm hu)]
      simp [hu]
    subst hu
    rw [Sys.next_loc_self]
    cases b with
    | invoke op r =>
      -- a call starts with no mutex
      have hheld : held (step P u ((sys P).run ls).sh (((sys P).run ls).loc u) (.invoke op r)).2 =
          held (((sys P).run ls).loc u) := by
        simp only [step]
        split_ifs with hinv
        · rw [held_of_canInvoke hinv, held_entry]
        · rfl
      change _ = _ + (held (step P u _ _ (.invoke op r)).2).count a
      rw [hheld]
      simp [Act.isStep]
    | step =>
      obtain ⟨g, hI, hA, -⟩ := inv_run ls
      have hD := discipline_run ls
      have hl := exec_locking (hA u) (hind_run ls u) (hD.inLoop u) (hD.unborn _ le_rfl)
      change _ = _ + (held (exec P u ((sys P).run ls).sh (((sys P).run ls).loc u)).2).count a
      cases hl with
      | keep _ hcount hlock hunlock =>
        have hno : ¬ (locksAt (((sys P).run ls).loc u) = some a ∧ canLock ((sys P).run ls).sh u a = true) := by
          rintro ⟨h1, h2⟩
          rw [hlock a h1] at h2
          cases h2
        rw [hcount a]
        simp [Act.isStep, hunlock, hno]
      | lock c hlock hunlock hcan _ hcount =>
        rw [hcount a]
        by_cases e : a = c
        · subst e
          simp [Act.isStep, hlock, hunlock, hcan]
          omega
        · simp [Act.isStep, hlock, hunlock, e, Ne.symm e]
      | unlock c hunlock hlock _ hcount =>
        rw [← hcount a]
        by_cases e : a = c
        · subst e
          simp [Act.isStep, hlock, hunlock]
          omega
        · simp [Act.isStep, hlock, hunlock, e, Ne.symm e]

/-- **Lock discipline.** For any number of threads, valid keys, any outcomes of `rand()` and any interleaving: no circle of
threads each waiting for a mutex that the next one holds; and a thread that is in no call holds no mutex and has unlocked each
mutex as often as it has locked it, so that this holds of every call that has returned, from its start at instant k on. -/
theorem lock_discipline (P : Params) (ls : List (ℕ × Act P)) :
    ¬ Deadlock (fun t => waits ((sys P).run ls).sh t (((sys P).run ls).loc t)) (owner ((sys P).run ls).sh) ∧
      ∀ t, canInvoke (((sys P).run ls).loc t) = true → ∀ a,
        owner ((sys P).run ls).sh a ≠ some t ∧ locked P t a ls = unlocked P t a ls ∧
          ∀ k, canInvoke (((sys P).run (ls.take k)).loc t) = true →
            locked P t a ls - locked P t a (ls.take k) = unlocked P t a ls - unlocked P t a (ls.take k) := by
  have hbalance : ∀ (ks : List (ℕ × Act P)) (t a : ℕ), canInvoke (((sys P).run ks).loc t) = true →
      locked P t a ks = unlocked P t a ks := by
    intro ks t a hret
    rw [balance_run, held_of_canInvoke hret]
    rfl
  refine ⟨no_circle ls, fun t hret a => ⟨fun hown => ?_, hbalance ls t a hret, fun k hk => ?_⟩⟩
  · have hD := discipline_run ls
    have hpos := hD.counted.owner hown
    rw [hD.held, held_of_canInvoke hret] at hpos
    exact absurd hpos (lt_irrefl 0)
  · rw [hbalance ls t a hret, hbalance _ t a hk]

end Results

end AlgorithmCollection.LazySkiplist
