/-
Deadlocks, and the lock order that rules them out.

A deadlock is a non-empty set of threads each of which waits for a lock that another thread of the set holds. If the locks
can be numbered such that a thread only waits for a lock with a number above those of the locks it holds, the numbers the
threads of such a set wait for grow without a bound (`no_deadlock`). The locks may also be ordered in another way, if those
that are waited for are in a finite set (`no_deadlock_of_mem`). Without a deadlock, and if no thread waits for a lock of its
own, some thread that is not finished does not wait (`exists_unblocked`).
-/
import Mathlib.Tactic

namespace AlgorithmCollection.Conc

variable {L : Type*} {waits : ℕ → Option L} {owner : L → Option ℕ}

/-- every thread of some non-empty set waits for a lock that another thread of the set holds -/
def Deadlock (waits : ℕ → Option L) (owner : L → Option ℕ) : Prop :=
  ∃ T : Set ℕ, T.Nonempty ∧ ∀ t ∈ T, ∃ p u, waits t = some p ∧ owner p = some u ∧ u ∈ T ∧ u ≠ t

theorem no_deadlock (rank : L → ℕ) (n : ℕ) (hb : ∀ t p, waits t = some p → rank p < n)
    (hord : ∀ t p q, waits t = some p → owner q = some t → rank q < rank p) : ¬ Deadlock waits owner := by
  rintro ⟨T, ⟨t0, ht0⟩, hT⟩
  have grow : ∀ k, ∃ t ∈ T, ∃ p, waits t = some p ∧ k ≤ rank p := by
    intro k
    induction k with
    | zero =>
      obtain ⟨p, _, hp, -⟩ := hT t0 ht0
      exact ⟨t0, ht0, p, hp, Nat.zero_le _⟩
    | succ k ih =>
      -- the thread that holds the lock waits for a larger one
      obtain ⟨t, ht, p, hp, hk⟩ := ih
      obtain ⟨p', u, hp', hu, huT, -⟩ := hT t ht
      obtain rfl : p = p' := Option.some.inj (hp.symm.trans hp')
      obtain ⟨q, _, hq, -⟩ := hT u huT
      exact ⟨u, huT, q, hq, hk.trans_lt (hord u q p hq hu)⟩
  obtain ⟨t, -, p, hp, hn⟩ := grow n
  exact absurd (hb t p hp) (by omega)

/-- the locks are numbered by how many of S are before them -/
theorem no_deadlock_of_mem {R : Type*} [Preorder R] (rank : L → R)
    (S : Finset L) (hord : ∀ t p q, waits t = some p → owner q = some t → q ∈ S ∧ rank q < rank p) :
    ¬ Deadlock waits owner := by
  classical
  refine no_deadlock (fun p => (S.filter fun q => rank q < rank p).card) (S.card + 1) (fun t p _ => ?_)
    fun t p q hp hq => ?_
  · exact Nat.lt_succ_of_le (Finset.card_filter_le _ _)
  · obtain ⟨hqS, hlt⟩ := hord t p q hp hq
    refine Finset.card_lt_card (Finset.ssubset_iff_of_subset (fun r hr => ?_) |>.2 ⟨q, ?_, ?_⟩)
    · rw [Finset.mem_filter] at hr ⊢
      exact ⟨hr.1, hr.2.trans hlt⟩
    · exact Finset.mem_filter.2 ⟨hqS, hlt⟩
    · exact fun hq => lt_irrefl _ (Finset.mem_filter.1 hq).2

/-- without a deadlock, one of the threads of T, which are all that hold locks, waits for no lock that is taken -/
theorem exists_unblocked (h : ¬ Deadlock waits owner) {T : Set ℕ}
    (hT : T.Nonempty) (hown : ∀ p u, owner p = some u → u ∈ T) (hself : ∀ t p, waits t = some p → owner p ≠ some t) :
    ∃ t ∈ T, ∀ p, waits t = some p → owner p = none := by
  by_contra hno
  refine h ⟨T, hT, fun t ht => ?_⟩
  have hblocked : ∃ p, waits t = some p ∧ owner p ≠ none := by
    by_contra hfree
    refine hno ⟨t, ht, fun p hp => ?_⟩
    by_contra hne
    exact hfree ⟨p, hp, hne⟩
  obtain ⟨p, hp, hne⟩ := hblocked
  obtain ⟨u, hu⟩ := Option.ne_none_iff_exists'.1 hne
  exact ⟨p, u, hp, hu, hown p u hu, fun e => hself t p hp (e ▸ hu)⟩

end AlgorithmCollection.Conc
