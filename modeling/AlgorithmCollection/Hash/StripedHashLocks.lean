/-
The stripe locks of `StripedHash` cannot deadlock, and no call leaves one taken.

What a thread has locked is known at every point of its program (`Owned`, `exec_owned`). So a thread that waits holds no mutex
or is in `resize`, which locks them in the order of their numbers.
-/
import AlgorithmCollection.Conc.LockOrder
import AlgorithmCollection.Hash.StripedHashSteps

namespace AlgorithmCollection.StripedHash

open Conc

/-- the mutex that the next step locks -/
def waits (P : Params) : Loc → Option ℕ
  | .lockB _ _ _ b | .findLock _ b => some (lockKey P b)
  | .rLock _ _ i => if i < P.lockSize then some (lockKey P i) else none
  | _ => none

/-- a thread at l has taken mutex i -/
def holdsAt (P : Params) (i : ℕ) : Loc → Prop
  | .recheck _ _ _ b | .create _ _ _ b | .del1 _ b _ _ | .del2 _ b _ _ _ | .del3 _ b _ _ _ _ | .count1 _ b | .count2 _ b _
  | .unlockOk _ b | .unlockRetry _ _ b | .findUnlock _ b _ => i = lockKey P b
  | .first c b | .test c b _ _ | .next c b _ | .check c b _ _ => c.moves = true ∨ i = lockKey P b
  | .addEmpty1 c b _ | .addEmpty2 c b | .link1 c b _ _ | .link2 c b _ _ => c.moves = true ∨ i = lockKey P b
  | .rLock _ _ j => i < j
  | .rCheck _ _ | .rOld1 _ | .rOld2 _ | .rInit _ | .rDouble _ | .rList _ _ | .rTest _ _ _ _ | .rTake1 _ _ _ _
  | .rTake2 _ _ _ _ _ | .rHash _ _ _ _ | .rNext _ _ _ => True
  | .rQuit _ j | .rUnlock _ j => j ≤ i
  | _ => False

/-- thread t at l has taken only the mutexes that its place in the program says -/
def Owned (P : Params) (t : ℕ) (m : Mem) (l : Loc) : Prop := ∀ i, m.mtx i = some t → i < P.lockSize ∧ holdsAt P i l

section Locks

variable {P : Params} {t : ℕ} {m m' : Mem} {l l' : Loc} {b : ℕ}

theorem Owned.keep (h : Owned P t m l) (hm : m'.mtx = m.mtx) (hl : ∀ i < P.lockSize, holdsAt P i l → holdsAt P i l') :
    Owned P t m' l' := by
  intro i hi
  rw [hm] at hi
  obtain ⟨h1, h2⟩ := h i hi
  exact ⟨h1, hl i h1 h2⟩

theorem Owned.lock (h : Owned P t m l) (hl : ∀ i, holdsAt P i l → holdsAt P i l') (hb : holdsAt P (lockKey P b) l') :
    Owned P t (lock P t m b l l').1 (lock P t m b l l').2 := by
  unfold StripedHash.lock
  split_ifs
  · intro i hi
    by_cases e : i = lockKey P b
    · rw [e]
      exact ⟨lockKey_lt P b, hb⟩
    · have hm : (setMtx m (lockKey P b) (some t)).mtx i = m.mtx i := mtx_setMtx_ne e
      obtain ⟨h1, h2⟩ := h i (by rw [← hm]; exact hi)
      exact ⟨h1, hl i h2⟩
  · exact h

theorem Owned.unlock (h : Owned P t m l) (hl : ∀ i < P.lockSize, holdsAt P i l → i = lockKey P b ∨ holdsAt P i l') :
    Owned P t (unlock P m b) l' := by
  intro i hi
  have hne : i ≠ lockKey P b := by
    rintro rfl
    rw [show (StripedHash.unlock P m b).mtx (lockKey P b) = none from Function.update_self ..] at hi
    cases hi
  have hm : (StripedHash.unlock P m b).mtx i = m.mtx i := mtx_setMtx_ne hne
  obtain ⟨h1, h2⟩ := h i (by rw [← hm]; exact hi)
  exact ⟨h1, (hl i h1 h2).resolve_left hne⟩

theorem holdsAt_ok {c : Ins} {i : ℕ} (h : c.moves = true ∨ i = lockKey P b) : holdsAt P i (c.ok b) := by
  cases c with
  | add k v retry n => exact h.resolve_left (by simp [Ins.moves])
  | move c j pred n => trivial

theorem holdsAt_fail {c : Ins} {i : ℕ} (h : c.moves = true ∨ i = lockKey P b) : holdsAt P i (c.fail b) := by
  cases c with
  | add k v retry n => exact h.resolve_left (by simp [Ins.moves])
  | move c j pred n => trivial

theorem holdsAt_afterFirst {c : Cont} {i head curr : ℕ} (h : c.moves = true ∨ i = lockKey P b) :
    holdsAt P i (afterFirst c b head curr) := by
  unfold afterFirst
  split_ifs
  · cases c with
    | ins c => exact h
    | delete k retry | find k => exact h.resolve_left (by simp [Cont.moves])
  · exact h

theorem holdsAt_afterCheck {c : Cont} {i pred curr : ℕ} {found : Bool} (h : c.moves = true ∨ i = lockKey P b) :
    holdsAt P i (afterCheck c b pred curr found) := by
  cases c with
  | ins c => cases found with
    | false => exact h
    | true => exact holdsAt_fail h
  | delete k retry =>
    have hi : i = lockKey P b := h.resolve_left (by simp [Cont.moves])
    cases found <;> exact hi
  | find k => exact h.resolve_left (by simp [Cont.moves])

/-- the loops that release all mutexes -/
theorem next_unlocked {i j : ℕ} (hj : j < P.lockSize) (h : j ≤ i) : i = lockKey P j ∨ j + 1 ≤ i := by
  rw [lockKey_of_lt hj]
  omega

/-- **One step**: what is taken is recorded, what is released is forgotten. -/
theorem exec_owned (h : Owned P t m l) : Owned P t (exec P t m l).1 (exec P t m l).2 := by
  cases l with
  | lockB u retry size b => exact h.lock (fun _ hi => hi.elim) rfl
  | findLock k b => exact h.lock (fun _ hi => hi.elim) (.inr rfl)
  | recheck u retry size b =>
    simp only [exec]
    split_ifs
    · cases u with
      | add k v => exact h.keep rfl fun i _ hi => hi
      | delete k => exact h.keep rfl fun i _ hi => .inr hi
    · exact h.keep rfl fun i _ hi => hi
  | create k v retry b => exact h.keep rfl fun i _ hi => .inr hi
  | first c b => exact h.keep rfl fun i _ hi => holdsAt_afterFirst hi
  | addEmpty1 c b head => exact h.keep (by cases c <;> rfl) fun i _ hi => hi
  | addEmpty2 c b => exact h.keep rfl fun i _ hi => holdsAt_ok hi
  | test c b pred curr | policy2 c n | rTest c j pred curr =>
    simp only [exec]
    split_ifs <;> exact h.keep rfl fun i _ hi => hi
  | check c b pred curr => exact h.keep rfl fun i _ hi => holdsAt_afterCheck hi
  | link2 c b pred curr => exact h.keep (by cases c <;> rfl) fun i _ hi => holdsAt_ok hi
  | unlockOk d b | unlockRetry u retry b | findUnlock k b r => exact h.unlock fun i _ hi => .inl hi
  | rSize c | rFree2 c A => exact h.keep rfl fun i _ hi => hi.elim
  | rLock c size j =>
    simp only [exec]
    split_ifs with hj
    · refine h.lock (fun i hi => ?_) ?_
      · exact Nat.lt_succ_of_lt hi
      · change lockKey P j < j + 1
        rw [lockKey_of_lt hj]
        exact Nat.lt_succ_self j
    · exact h.keep rfl fun i _ _ => trivial
  | rCheck c size =>
    simp only [exec]
    split_ifs
    · exact h.keep rfl fun i _ _ => Nat.zero_le i
    · exact h.keep rfl fun i _ hi => hi
  | rInit c =>
    simp only [exec]
    split_ifs
    · exact h.keep rfl fun i _ _ => trivial
    · exact h
  | rList c j =>
    simp only [exec]
    split_ifs
    · exact h.keep rfl fun i _ hi => hi
    · exact h.keep rfl fun i _ _ => Nat.zero_le i
  | rHash c j pred curr => exact h.keep rfl fun i _ _ => .inl rfl
  | rQuit c j | rUnlock c j =>
    simp only [exec]
    split_ifs with hj
    · exact h.unlock fun i _ hi => next_unlocked hj hi
    · exact h.keep rfl fun i hi hle => absurd (lt_of_le_of_lt hle hi) hj
  | _ => exact h.keep rfl fun i _ hi => hi

theorem step_owned (h : Owned P t m l) (a : Act) : Owned P t (step P t m l a).1 (step P t m l a).2 := by
  cases a with
  | invoke op =>
    simp only [step]
    split_ifs with hc
    · refine h.keep rfl fun i _ hi => ?_
      rcases not_busy_cases (canInvoke_idle hc).2.2 with rfl | ⟨op, r, rfl⟩ <;> exact hi.elim
    · exact h
  | step => exact exec_owned h

/-- **A thread has only the mutexes that its place in the program says.** -/
theorem owned_run (ls : List (ℕ × Act)) (t : ℕ) : Owned P t ((sys P).run ls).sh (((sys P).run ls).loc t) := by
  induction ls using List.reverseRecOn generalizing t with
  | nil => exact fun i hi => nomatch hi
  | append_singleton ls x ih =>
    obtain ⟨g, hI, hA, -⟩ := inv_run (P := P) ls
    obtain ⟨u, a⟩ := x
    rw [Sys.run_snoc, Sys.next_sh]
    by_cases htu : t = u
    · subst htu
      rw [Sys.next_loc_self]
      exact step_owned (ih t) a
    · obtain ⟨g', hg⟩ := step_guar hI (hA u) a
      rw [Sys.next_loc_ne _ _ _ htu]
      exact fun i hi => ih t i ((hg.mtx i t htu).1 hi)

/-- a thread that is in no call has no mutex -/
theorem idle_owns_none (ls : List (ℕ × Act)) (ht : ¬ table.Busy (((sys P).run ls).loc t)) (i : ℕ) :
    ((sys P).run ls).sh.mtx i ≠ some t := by
  intro hi
  have hat := (owned_run ls t i hi).2
  rcases not_busy_cases ht with e | ⟨op, r, e⟩ <;> rw [e] at hat <;> exact hat

/-- **At rest no mutex is taken.** -/
theorem unlocked_of_idle (ls : List (ℕ × Act)) (hidle : ∀ t, ¬ table.Busy (((sys P).run ls).loc t)) (i : ℕ) :
    ((sys P).run ls).sh.mtx i = none := by
  by_contra hi
  obtain ⟨t, ht⟩ := Option.ne_none_iff_exists'.1 hi
  exact idle_owns_none ls (hidle t) i ht

/-- a thread that waits holds at most the mutexes with smaller numbers -/
theorem waits_above {p q : ℕ} (hp : waits P l = some p) (hq : holdsAt P q l) : q < p := by
  cases l with
  | rLock c size i => grind [waits, holdsAt, lockKey_of_lt]
  | lockB u retry size b | findLock k b => exact hq.elim
  | _ => cases hp

end Locks

/-- **No deadlock and no leaked lock.** In every reachable state in which some call is not finished, some call that is not
finished does not wait for a mutex that is taken; and a thread that is in no call owns no mutex. -/
theorem stripes_unblocked (P : Params) (ls : List (ℕ × Act)) :
    ((∃ t, table.Busy (((sys P).run ls).loc t)) → ∃ t, table.Busy (((sys P).run ls).loc t) ∧
      ∀ i, waits P (((sys P).run ls).loc t) = some i → ((sys P).run ls).sh.mtx i = none) ∧
    ∀ t, ¬ table.Busy (((sys P).run ls).loc t) → ∀ i, ((sys P).run ls).sh.mtx i ≠ some t := by
  have hholds := owned_run (P := P) ls
  have hleak := fun t => idle_owns_none (P := P) ls (t := t)
  generalize (sys P).run ls = s at hholds hleak ⊢
  have hord := fun t p q hp hq => waits_above (p := p) hp (hholds t q hq).2
  refine ⟨fun hbusy => ?_, hleak⟩
  exact exists_unblocked (T := {t | table.Busy (s.loc t)})
    (no_deadlock_of_mem id (.range P.lockSize) fun t p q hp hq => ⟨Finset.mem_range.2 (hholds t q hq).1, hord t p q hp hq⟩)
    hbusy (fun i u hu => by_contra fun hidle => hleak u hidle i hu) fun t p hw hm => lt_irrefl _ (hord t p p hw hm)

end AlgorithmCollection.StripedHash
