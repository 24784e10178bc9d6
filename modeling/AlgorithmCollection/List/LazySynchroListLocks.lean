/-
The locks of `LazySynchroList` cannot deadlock, and no call leaves one taken.

`add` and `delete` choose pred and curr without locks and validate them only afterwards. A thread that waits for curr holds
only pred, which has the smaller key, also when both have been unlinked meanwhile.
-/
import AlgorithmCollection.Conc.LockOrder
import AlgorithmCollection.List.LazySynchroListInv

namespace AlgorithmCollection.LazySynchroList

open Conc

variable {g : Ghost} {t : ℕ} {m : Mem} {l : Loc}

/-- the nodes whose mutexes a thread has locked -/
def holds : Loc → List ℕ
  | .lockCurr _ p _ => [p]
  | .recheck _ p q | .assert _ p q | .valid1 _ p q | .valid2 _ p q | .valid3 _ p q | .body _ p q | .link1 _ _ _ p q
  | .link2 _ _ _ p q | .del1 _ p q | .del2 _ p q | .del3 _ p q _ | .del4 _ p q _ _ | .unlock1 _ p q => [p, q]
  | .unlock2 _ q => [q]
  | _ => []

/-- the node whose mutex the next step locks -/
def waits : Loc → Option ℕ
  | .lockPred _ pred _ => some pred
  | .lockCurr _ _ curr => some curr
  | _ => none

/-- thread t, at l, has no other mutexes than these -/
def Holds (t : ℕ) (m : Mem) (l : Loc) : Prop := ∀ a, m.mtx a = some t → a ∈ holds l

theorem setMtx_mtx (m : Mem) (a : ℕ) (o : Option ℕ) (b : ℕ) : (setMtx m a o).mtx b = if b = a then o else m.mtx b := by
  simp [setMtx, Function.update_apply]

theorem holds_afterBody (c : Ctx) (p q : ℕ) (f : Bool) : holds (afterBody c p q f) = [p, q] := by
  cases c <;> cases f <;> rfl

theorem step_holds (ha : AsrtAt g t m l) (h : Holds t m l) (a : Act) : Holds t (step t m l a).1 (step t m l a).2 := by
  cases a with
  | oom => cases l <;> exact h
  | invoke op =>
    have hop : holds (entry op.1) = [] := by cases op.1 <;> rfl
    cases l with
    | idle | ret _ _ => exact fun a hm => hop.symm ▸ h a hm
    | _ => exact h
  | step =>
    cases l with
    | lockPred c p q | lockCurr c p q | unlock1 c p q =>
      cases c <;> grind [Holds, step, exec, holds, lock, setMtx_mtx, afterLocks]
    | unlock2 w q => grind [Holds, step, exec, holds, setMtx_mtx]
    | start c => cases c <;> simp only [step, exec, afterStart] <;> (try split_ifs) <;> exact h
    | body c p q => exact fun a hm => (holds_afterBody c p q _).symm ▸ h a hm
    | assert c p q => simp only [step, exec]; rw [if_pos ⟨ha.2.lt, ha.2.le⟩]; exact h
    | test c p q | recheck c p q | valid1 c p q | valid2 c p q | valid3 c p q | fTest k q =>
      simp only [step, exec]; split_ifs <;> exact h
    | _ => exact h

/-- **A thread has only the mutexes that its place in the program says.** -/
theorem holds_run (ls : List (ℕ × Act)) (t : ℕ) : Holds t (sys.run ls).sh ((sys.run ls).loc t) := by
  induction ls using List.reverseRecOn generalizing t with
  | nil => intro a h; cases h
  | append_singleton ls x ih =>
    obtain ⟨g, hI, hA, -⟩ := inv_run ls
    obtain ⟨u, a⟩ := x
    rw [Sys.run_snoc, Sys.next_sh]
    by_cases htu : t = u
    · subst htu
      rw [Sys.next_loc_self]
      exact step_holds (hA t) (ih t) a
    · obtain ⟨g', hg, -⟩ := step_guar hI (hA u) a
      rw [Sys.next_loc_ne _ _ _ htu]
      exact fun b hb => ih t b ((hg.mtx b t htu).1 hb)

/-- a thread that waits holds at most the node before the one it waits for -/
theorem waits_above (ha : AsrtAt g t m l) {p q : ℕ} (hp : waits l = some p) (hq : q ∈ holds l) :
    q ∈ g.L ∧ key m q < key m p := by
  cases l with
  | lockCurr c pred curr =>
    cases hp
    rw [List.mem_singleton.1 hq]
    exact ⟨ha.2.1.pred_mem, ha.2.1.lt_curr⟩
  | lockPred c pred curr => cases hq
  | _ => cases hp

/-- **No deadlock and no leaked lock.** In every reachable state in which some call is not finished, some call that is not
finished does not wait for a mutex that is taken; and a thread that is in no call owns no mutex. -/
theorem unblocked_and_no_leak (ls : List (ℕ × Act)) :
    ((∃ t, map.Busy ((sys.run ls).loc t)) → ∃ t, map.Busy ((sys.run ls).loc t) ∧
      ∀ a, waits ((sys.run ls).loc t) = some a → (sys.run ls).sh.mtx a = none) ∧
    ∀ t, ¬ map.Busy ((sys.run ls).loc t) → ∀ a, (sys.run ls).sh.mtx a ≠ some t := by
  obtain ⟨g, -, hA, -⟩ := inv_run ls
  have hholds := holds_run ls
  generalize sys.run ls = s at hA hholds ⊢
  have hleak : ∀ t, ¬ map.Busy (s.loc t) → ∀ a, s.sh.mtx a ≠ some t := by
    intro t ht a ha
    have hmem := hholds t a ha
    generalize s.loc t = l at ht hmem
    cases l with
    | idle | ret _ _ | aborted => cases hmem
    | unlock1 w _ _ | unlock2 w _ => cases w <;> exact ht ⟨_, rfl⟩
    | _ => exact ht ⟨_, rfl⟩
  have hord := fun t p q hp hq => waits_above (p := p) (hA t) hp (hholds t q hq)
  refine ⟨fun hbusy => ?_, hleak⟩
  exact exists_unblocked (T := {t | map.Busy (s.loc t)}) (no_deadlock_of_mem _ g.L hord) hbusy
    (fun a u hu => by_contra fun hidle => hleak u hidle a hu) fun t a hw hm => lt_irrefl _ (hord t a a hw hm).2

end AlgorithmCollection.LazySynchroList
