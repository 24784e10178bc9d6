/-
The locks of `FineGrainedSynchroList`: which ones a thread holds, and that the threads never wait in a circle.

`holds l` are the nodes whose mutexes a thread at l has locked and not unlocked. `locks_run`: in every reachable state these are
exactly the mutexes it owns, so a call that has returned owns none. A thread that waits holds at most the node before the
one it waits for, and that node is in the list; so the nodes along a chain of waiting threads come later and later in the
list (`no_deadlock_run`), and some call that is not finished can go on (`progress_and_no_leak`).
-/
import AlgorithmCollection.Conc.LockOrder
import AlgorithmCollection.List.FineGrainedSynchroListInv

namespace AlgorithmCollection.FineGrainedSynchroList

open Conc

/-- the nodes whose mutexes are locked -/
def holds : Loc → List ℕ
  | .idle | .ret _ _ | .create _ _ | .lockHead _ => []
  | .first _ | .lockFirst _ _ => [head]
  | .addEmpty1 _ _ _ | .addEmpty2 _ _ _ => [head, tail]
  | .test _ pred curr | .unlockPred _ pred curr | .check _ pred curr | .link1 _ _ _ pred curr | .link2 _ _ _ pred curr
  | .del1 _ pred curr | .del2 _ pred curr _ | .del3 _ pred curr _ _ | .find1 _ pred curr => [pred, curr]
  | .next _ curr => [curr]
  | .lockCurr _ pred _ => [pred]
  | .unlock1 _ _ a b => [a, b]
  | .unlock2 _ _ b => [b]

/-- the node whose mutex the next step locks -/
def waits : Loc → Option ℕ
  | .lockHead _ => some head
  | .lockFirst _ curr | .lockCurr _ _ curr => some curr
  | _ => none

/-! ## Which locks a thread owns -/

/-- t owns exactly the mutexes of the nodes of H -/
def Owns (t : ℕ) (m : Mem) (H : List ℕ) : Prop := ∀ a, m.mtx a = some t ↔ a ∈ H

section Owns

variable {g : Ghost} {t : ℕ} {m : Mem} {l : Loc} {H H' : List ℕ} {a : ℕ}

theorem Owns.lock (h : Owns t m H) (hH : ∀ b, b ∈ H' ↔ b = a ∨ b ∈ H) : Owns t (setMtx m a (some t)) H' := by
  intro b
  rw [hH b]
  by_cases e : b = a
  · simp [setMtx, e]
  · rw [setMtx_ne m _ e, h b]; simp [e]

theorem Owns.unlock (h : Owns t m H) (hH : ∀ b, b ∈ H' ↔ b ≠ a ∧ b ∈ H) : Owns t (setMtx m a none) H' := by
  intro b
  rw [hH b]
  by_cases e : b = a
  · simp [setMtx, e]
  · rw [setMtx_ne m _ e, h b]; simp [e]

/-- of two locks the first is given back -/
theorem Owns.unlock_first {b : ℕ} (h : Owns t m [a, b]) (hne : a ≠ b) : Owns t (setMtx m a none) [b] := by
  refine h.unlock fun c => ?_
  rw [List.mem_singleton, List.mem_cons, List.mem_singleton]
  constructor
  · rintro rfl; exact ⟨hne.symm, .inr rfl⟩
  · rintro ⟨h1, h2⟩; exact h2.resolve_left h1

/-- a lock step that succeeds adds its node, and one that does not changes nothing -/
theorem owns_lock {l' : Loc} (h : Owns t m (holds l)) (hH : ∀ b, b ∈ holds l' ↔ b = a ∨ b ∈ holds l) :
    Owns t (lock t m a l l').1 (holds (lock t m a l l').2) := by
  unfold FineGrainedSynchroList.lock
  split_ifs with hm
  · exact h.lock hH
  · exact h

/-- one step of thread t keeps `holds` right for t -/
theorem exec_owns (hI : Inv g m) (ha : Asrt g t m l) (h : Owns t m (holds l)) :
    Owns t (exec t m l).1 (holds (exec t m l).2) := by
  have hAt := ha.at_
  cases l with
  | lockHead c => exact owns_lock h fun b => by simp [holds]
  | lockFirst c curr =>
    refine owns_lock h fun b => ?_
    unfold afterFirst
    split_ifs with e
    · cases c <;> simp [holds, e] <;> tauto
    · simp [holds]; tauto
  | lockCurr c p q => exact owns_lock h fun b => by simp [holds]; tauto
  | test c p q => simp only [exec]; split_ifs <;> exact h
  | unlockPred c p q =>
    exact Owns.unlock_first h (hAt.2.1.ne hI (hAt.2.1.front.no_pend hI ha rfl))
  | check c p q =>
    change Owns t m (holds (afterCheck c p q (decide (q ≠ tail ∧ c.key = (m.node q).key))))
    generalize decide (q ≠ tail ∧ c.key = (m.node q).key) = f
    cases c <;> cases f <;> exact h
  | del3 k p q v s => exact fun b => (h b).trans (by simp [holds, exec, or_comm])
  | unlock1 op r a b =>
    exact Owns.unlock_first h hAt.2.2
  | unlock2 op r b => exact h.unlock fun c => by simp [holds, exec]
  | _ => exact h

theorem step_owns (hI : Inv g m) (ha : Asrt g t m l) (h : Owns t m (holds l)) (a : Act) :
    Owns t (step t m l a).1 (holds (step t m l a).2) := by
  cases a with
  | step => exact exec_owns hI ha h
  | invoke op =>
    simp only [step]
    by_cases hc : canInvoke l = true
    · rw [if_pos hc]
      have hnone : holds l = [] := by
        cases l with
        | idle | ret _ _ => rfl
        | _ => cases hc
      rw [hnone] at h
      cases op <;> exact h
    · rw [if_neg hc]
      exact h
  | oom =>
    cases l with
    | _ => exact h

end Owns

/-- **In every reachable state a thread owns exactly the mutexes its place in the program says.** -/
theorem locks_run (ls : List (ℕ × Act)) (t : ℕ) : Owns t (sys.run ls).sh (holds ((sys.run ls).loc t)) := by
  induction ls using List.reverseRecOn generalizing t with
  | nil => exact fun a => ⟨nofun, nofun⟩
  | append_singleton ls x ih =>
    obtain ⟨g, hI, hA, -⟩ := inv_run ls
    obtain ⟨u, a⟩ := x
    rw [Sys.run_snoc]
    by_cases htu : t = u
    · subst htu
      rw [Sys.next_loc_self, Sys.next_sh]
      exact step_owns hI (hA t) (ih t) a
    · -- the others' mutexes stay theirs
      obtain ⟨g', hg, -⟩ := step_guar hI (hA u) a
      rw [Sys.next_loc_ne _ _ _ htu, Sys.next_sh]
      intro b
      rw [← ih t b]
      exact hg.mtx b t htu

/-! ## Waiting -/

section Waiting

variable {g : Ghost} {t : ℕ} {m : Mem} {l : Loc}

/-- a thread that waits holds at most the node before the one it waits for, which is in the list -/
theorem waits_above (hI : Inv g m) (ha : Asrt g t m l) {p q : ℕ} (hp : waits l = some p) (hq : q ∈ holds l) :
    q ∈ g.S ∧ rank m q < rank m p := by
  have hAt := ha.at_
  have hnext : ∀ {a : ℕ}, a ∈ g.S → a ≠ tail → m.mtx a = some t → between l = false → rank m a < rank m (m.node a).next := by
    intro a hS hne hm hb
    have hlt := hI.chain.lt_next a hS hne
    rwa [link_eq (hI.no_pend hS hm (ha.no_pend hb))] at hlt
  cases l with
  | lockHead c => cases hq
  | lockFirst c curr =>
    cases hp
    rw [List.mem_singleton.1 hq]
    refine ⟨hI.chain.head_mem, ?_⟩
    have hlt := hnext hI.chain.head_mem head_ne_tail hAt.2.1 rfl
    rwa [hAt.2.2] at hlt
  | lockCurr c pred curr =>
    cases hp
    rw [List.mem_singleton.1 hq]
    refine ⟨hAt.2.1.mem, ?_⟩
    have hlt := hnext hAt.2.1.mem hAt.2.1.ne hAt.2.1.mtx rfl
    rwa [hAt.2.2] at hlt
  | _ => cases hp

/-- a call that does not wait for a taken mutex goes on -/
theorem exec_moves (hb : map.Busy l) (hw : ∀ a, waits l = some a → m.mtx a = none) : (exec t m l).2 ≠ l := by
  cases l with
  | idle | ret op r => obtain ⟨_, ⟨⟩⟩ := hb
  | lockHead c =>
    simp only [exec, lock]
    rw [if_pos (hw head rfl)]
    rintro ⟨⟩
  | lockFirst c curr =>
    simp only [exec, lock]
    rw [if_pos (hw curr rfl)]
    unfold afterFirst
    split_ifs
    · cases c <;> rintro ⟨⟩
    · rintro ⟨⟩
  | lockCurr c p q =>
    simp only [exec, lock]
    rw [if_pos (hw q rfl)]
    rintro ⟨⟩
  | test c p q => simp only [exec]; split_ifs <;> rintro ⟨⟩
  | check c p q =>
    change afterCheck c p q (decide (q ≠ tail ∧ c.key = (m.node q).key)) ≠ _
    generalize decide (q ≠ tail ∧ c.key = (m.node q).key) = f
    cases c <;> cases f <;> rintro ⟨⟩
  | _ => rintro ⟨⟩

end Waiting

theorem holds_of_not_busy {l : Loc} (h : ¬ map.Busy l) : holds l = [] := by
  cases l with
  | idle | ret op r => rfl
  | _ => exact absurd ⟨_, rfl⟩ h

/-- no circle of threads each waiting for a mutex that the next one owns -/
theorem no_deadlock_run (ls : List (ℕ × Act)) :
    ¬ Deadlock (fun t => waits ((sys.run ls).loc t)) (sys.run ls).sh.mtx := by
  obtain ⟨g, hI, hA, -⟩ := inv_run ls
  exact no_deadlock_of_mem (rank (sys.run ls).sh) g.S fun t p q hp hq =>
    waits_above hI (hA t) hp ((locks_run ls t q).1 hq)

/-- **No deadlock and no leaked lock.** For any number of threads, arbitrary keys and any interleaving: in every reachable
state in which some call is not finished, some call that is not finished waits for no mutex that is taken and moves on with its
next step; and a thread that is in no call owns no mutex. -/
theorem progress_and_no_leak (ls : List (ℕ × Act)) :
    ((∃ t, map.Busy ((sys.run ls).loc t)) →
        ∃ t, map.Busy ((sys.run ls).loc t) ∧ (∀ a, waits ((sys.run ls).loc t) = some a → (sys.run ls).sh.mtx a = none) ∧
          (exec t (sys.run ls).sh ((sys.run ls).loc t)).2 ≠ (sys.run ls).loc t) ∧
      ∀ t, ¬ map.Busy ((sys.run ls).loc t) → ∀ a, (sys.run ls).sh.mtx a ≠ some t := by
  have hleak : ∀ t, ¬ map.Busy ((sys.run ls).loc t) → ∀ a, (sys.run ls).sh.mtx a ≠ some t := by
    intro t ht a ha
    have hmem := (locks_run ls t a).1 ha
    rw [holds_of_not_busy ht] at hmem
    cases hmem
  refine ⟨fun hbusy => ?_, hleak⟩
  obtain ⟨g, hI, hA, -⟩ := inv_run ls
  obtain ⟨t, ht, hfree⟩ := exists_unblocked (T := {t | map.Busy ((sys.run ls).loc t)}) (no_deadlock_run ls) hbusy
    (fun a u hu => by
      by_contra hidle
      exact hleak u hidle a hu)
    fun t a hw hm => lt_irrefl _ (waits_above hI (hA t) hw ((locks_run ls t a).1 hm)).2
  exact ⟨t, ht, hfree, exec_moves ht hfree⟩

end AlgorithmCollection.FineGrainedSynchroList
