/-
Deadlock in `ConcurrentCuckooHash`.

`acquire` locks a mutex of `mtx[0]` and then one of `mtx[1]`, at indices that have nothing to do with each other, and `aLock`
locks `mtx[0][0]`, `mtx[1][0]`, `mtx[0][1]` and so on. With a key whose index in `mtx[0]` is the larger one the two can wait
for each other: `acquire_aLock_deadlock`. `no_deadlock_ordered`: there is no deadlock in runs in which every key of a call has
its index in `mtx[0]` not above that in `mtx[1]`, and `relocate` is left undisturbed. Then the keys that `relocate` reads from
nodes are keys of the table, so keys of calls (`run_keys`), and the order of `aLock` is a lock order for all threads.
-/
import AlgorithmCollection.Conc.LockOrder
import AlgorithmCollection.Hash.ConcurrentCuckooHashRelocate

namespace AlgorithmCollection.ConcurrentCuckooHash

open Conc

/-- the mutex whose lock is the next step -/
def waits (P : Params) (l : Loc) : Option (Fin 2 × ℕ) :=
  match l.pc with
  | .acquire0 j => some (0, stripe P 0 (j.key l.op))
  | .acquire1 j => some (1, stripe P 1 (j.key l.op))
  | .aLock p _ => some (lockAt p)
  | _ => none

/-- some threads wait for each other -/
def Deadlocked (P : Params) (s : St Mem Loc) : Prop :=
  Deadlock (fun t => waits P (s.loc t)) fun q => s.sh.mtx q.1 q.2

/-- the index of the key in `mtx[0]` is not above that in `mtx[1]` -/
def Ordered (P : Params) (key : ℤ) : Prop := stripe P 0 key ≤ stripe P 1 key

instance Ordered.decidable (P : Params) (key : ℤ) : Decidable (Ordered P key) := inferInstanceAs (Decidable (_ ≤ _))

section Deadlock

variable {P : Params} {Q : ℤ → Prop} {ls : List (ℕ × Act)}

/-- **The keys of the calls are all there are**: what holds of the keys of all calls, holds of the keys in the table. -/
theorem run_keys (hU : (sys P).Meets (Sys.Beside Undisturbed) ls) (h0 : Q 0)
    (hls : ∀ x ∈ ls, ∀ op, x.2 = .invoke op → Q op.key) :
    ∃ g, Found P g ((sys P).run ls) ∧ (∀ k, g.map k ≠ none → Q k) ∧ ∀ t, Q (((sys P).run ls).loc t).op.key := by
  induction ls using List.reverseRecOn with
  | nil => exact ⟨_, init_found P, fun _ h => absurd rfl h, fun _ => h0⟩
  | append_singleton ls x ih =>
    obtain ⟨hU', hx⟩ := ((sys P).meets_snoc _ ls x).1 hU
    obtain ⟨g, hF, hM, hop⟩ := ih hU' fun y hy => hls y (by simp [hy])
    obtain ⟨g', hF', hins⟩ := found_next hF hx
    rw [Sys.run_snoc]
    have hop' : ∀ t, Q (((sys P).next ((sys P).run ls) x).loc t).op.key := by
      obtain ⟨u, a⟩ := x
      intro t
      by_cases ht : t = u
      · subst ht
        rw [Sys.next_loc_self]
        cases a with
        | step => exact hop t
        | invoke op =>
          simp only [sys, step]
          split_ifs
          · exact hls (t, .invoke op) (by simp) op rfl
          · exact hop t
      · rw [Sys.next_loc_ne _ _ _ ht]
        exact hop t
    refine ⟨g', hF', fun k hk => ?_, hop'⟩
    by_cases e : g.map k = none
    · rw [hins k e hk]
      exact hop' x.1
    · exact hM k e

/-- `acquire` is called with the key of a call, or with a key of the table -/
theorem Found.acquires {g : Ghost} {s : St Mem Loc} {t : ℕ} {j : Job} (h : Found P g s) (hM : ∀ k, g.map k ≠ none → Q k)
    (hop : Q (s.loc t).op.key) (e : (s.loc t).pc = .acquire0 j ∨ (s.loc t).pc = .acquire1 j) :
    Q (j.key (s.loc t).op) := by
  cases j with
  | call nested => exact hop
  | move x =>
    have hspot : ∃ y ∈ g.cont (x.i, x.hi), ky s.sh y = x.lockKey := by
      have := h.spotted t
      rcases e with e | e <;> rw [e] at this <;> exact this
    have htarget : target (s.loc t).pc = some (x.i, x.hi) := by rcases e with e | e <;> rw [e] <;> rfl
    obtain ⟨y, hy, hk⟩ := hspot
    have hlive := (h.base.threads t).live_target h.base.inv htarget
    refine hM _ ?_
    change g.map x.lockKey ≠ none
    rw [← hk, h.base.inv.holds.map_eq (mem_data hlive hy)]
    nofun

theorem ordered_zero (P : Params) : Ordered P 0 := by
  simp [Ordered, stripe, hashCode, hashCode0, hashCode1]

/-! ### The order of the mutexes -/

/-- `aLock` takes the mutexes in the order of this number -/
def rank (q : Fin 2 × ℕ) : ℕ := 2 * q.2 + q.1

theorem rank_lockAt (p : ℕ) : rank (lockAt p) = p := (lockAt_iff p _ _).1 ⟨rfl, rfl⟩

/-- a thread waits in `acquire` or in `aLock` -/
theorem waits_cases {l : Loc} {q : Fin 2 × ℕ} (h : waits P l = some q) :
    (∃ j, l.pc = .acquire0 j ∧ q = (0, stripe P 0 (j.key l.op))) ∨
      (∃ j, l.pc = .acquire1 j ∧ q = (1, stripe P 1 (j.key l.op))) ∨ ∃ p k, l.pc = .aLock p k ∧ q = lockAt p := by
  unfold waits at h
  split at h
  · rename_i j e
    exact .inl ⟨j, e, (Option.some.inj h).symm⟩
  · rename_i j e
    exact .inr (.inl ⟨j, e, (Option.some.inj h).symm⟩)
  · rename_i p k e
    exact .inr (.inr ⟨p, k, e, (Option.some.inj h).symm⟩)
  · cases h

section Order

variable {t : ℕ} {m : Mem} {l : Loc} {q r : Fin 2 × ℕ}

theorem Owned.rank_lt (h : Owned P t m l) (hq : waits P l = some q) : rank q < 2 * P.mtxSize := by
  rcases waits_cases hq with ⟨j, -, rfl⟩ | ⟨j, -, rfl⟩ | ⟨p, k, e, rfl⟩
  · have hlt := stripe_lt P 0 (j.key l.op)
    simp only [rank, Fin.val_zero]
    omega
  · have hlt := stripe_lt P 1 (j.key l.op)
    simp only [rank, Fin.val_one]
    omega
  · rw [rank_lockAt]
    exact h.range p k (.inl e)

/-- **The lock order**: a thread waits for a mutex above those it holds, if its key is ordered. -/
theorem Owned.rank_order (h : Owned P t m l) (hkey : ∀ j, l.pc = .acquire1 j → Ordered P (j.key l.op))
    (hq : waits P l = some q) (hr : m.mtx r.1 r.2 = some t) : rank r < rank q := by
  have hholds : (∀ f, l.pc ≠ .fault f) → holds P l.op l.pc r.1 r.2 := fun hf => (h.owns hf r.1 r.2).1 hr
  rcases waits_cases hq with ⟨j, e, -⟩ | ⟨j, e, rfl⟩ | ⟨p, k, e, rfl⟩
  · rw [e] at hholds
    exact (hholds (by simp)).elim
  · have hle : stripe P 0 (j.key l.op) ≤ stripe P 1 (j.key l.op) := hkey j e
    rw [e] at hholds
    obtain ⟨h1, h2⟩ := hholds (by simp)
    simp only [rank, h1, h2, Fin.val_zero, Fin.val_one]
    omega
  · rw [e] at hholds
    rw [rank_lockAt]
    exact hholds (by simp)

end Order

/-- **No deadlock with ordered keys.** In every run in which every key of a call has its index in `mtx[0]` not above that in
`mtx[1]`, and in which `relocate` is left undisturbed, in every state reached: no set of threads wait for each other. -/
theorem no_deadlock_ordered (P : Params) (ls : List (ℕ × Act)) (hU : (sys P).Meets (Sys.Beside Undisturbed) ls)
    (hls : ∀ x ∈ ls, ∀ op, x.2 = .invoke op → Ordered P op.key) : ¬ Deadlocked P ((sys P).run ls) := by
  obtain ⟨g, hF, hM, hop⟩ := run_keys hU (ordered_zero P) hls
  have howned : ∀ t, Owned P t ((sys P).run ls).sh (((sys P).run ls).loc t) := fun t => (hF.base.threads t).owned
  apply no_deadlock rank (2 * P.mtxSize)
  · intro t q hq
    exact (howned t).rank_lt hq
  · intro t q r hq hr
    exact (howned t).rank_order (fun j e => hF.acquires hM (hop t) (.inr e)) hq hr

end Deadlock

/-- with tables of two lists: thread 0 has to double the tables, and has locked all mutexes but the last one; thread 1 waits
for the first of its two -/
def waitForResize : List (ℕ × Act) :=
  callSteps 0 (.add 4 40) 5 ++ callSteps 0 (.add 8 80) 5 ++ callSteps 0 (.add 12 120) 8 ++ callSteps 1 (.contains 1) 1

theorem no_deadlock_waiting :
    (((sys ⟨1, 1, 1⟩).run waitForResize).loc 0).pc = .aLock 3 .again ∧
      waits ⟨1, 1, 1⟩ (((sys ⟨1, 1, 1⟩).run waitForResize).loc 1) = some (0, 1) ∧
      ((sys ⟨1, 1, 1⟩).run waitForResize).sh.mtx 0 1 = some 0 ∧
      ¬ Deadlocked ⟨1, 1, 1⟩ ((sys ⟨1, 1, 1⟩).run waitForResize) := by
  have hkeys : ∀ x ∈ waitForResize, ∀ op, x.2 = .invoke op → Ordered ⟨1, 1, 1⟩ op.key := by
    intro x hx op e
    have h : ∀ x ∈ waitForResize, x.2 = .step ∨ x.2 = .invoke (.add 4 40) ∨ x.2 = .invoke (.add 8 80) ∨
        x.2 = .invoke (.add 12 120) ∨ x.2 = .invoke (.contains 1) := by decide +kernel
    rcases h x hx with h | h | h | h | h <;> rw [h] at e <;> cases e <;> decide +kernel
  have hU : (sys ⟨1, 1, 1⟩).Meets (Sys.Beside Undisturbed) waitForResize := Sys.meets_of_check _ _ (n := 2) (by decide +kernel)
  exact ⟨by decide +kernel, by decide +kernel, by decide +kernel, no_deadlock_ordered _ _ hU hkeys⟩

/-- with tables of four lists, keys 4, 8 and 12 fall into the same ones: thread 0 has to double the tables for key 12. Key 1
has its mutexes at indices 3 and 1: thread 1 locks `mtx[0][3]`, thread 0 locks the mutexes of the indices 0 to 2 -/
def crossedLocks : List (ℕ × Act) :=
  callSteps 0 (.add 4 40) 5 ++ callSteps 0 (.add 8 80) 5 ++ callSteps 0 (.add 12 120) 5 ++ callSteps 1 (.contains 1) 1 ++
    List.replicate 6 (0, .step)

/-- **A resize and a lookup wait for each other.** -/
theorem acquire_aLock_deadlock : Deadlocked ⟨2, 1, 1⟩ ((sys ⟨2, 1, 1⟩).run crossedLocks) := by
  refine ⟨{0, 1}, ⟨0, by simp⟩, fun t ht => ?_⟩
  rcases ht with rfl | rfl
  · exact ⟨(0, 3), 1, by decide +kernel, by decide +kernel, by simp, by decide⟩
  · exact ⟨(1, 1), 0, by decide +kernel, by decide +kernel, by simp, by decide⟩

end AlgorithmCollection.ConcurrentCuckooHash
