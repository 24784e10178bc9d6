/-
What `find`, and the `add` and `delete` that return false, of `StripedHash` have seen.

`find` computes its bucket before it has the lock and does not look at `table_size` again. `find_missed`: a `resize` in
between moves the key away, and `find` returns false for a key that is in the table all the time. `find_seen`: in runs in
which no `resize` doubles `table_size` while another thread is between the two, the result of every `find` is right at some
instant of the call.

`add` and `delete` look again, three times at most. `add_spurious`: with a `resize` in every attempt, `add` returns false for
a key that is never in the table. `fails_seen`: in runs in which no `resize` doubles `table_size` while another thread is
between its load of it and the lock in its last attempt, an `add` returns false only if its key was in the table at some
instant of the call, and a `delete` only if it was not.

Both are instances of `fit_run`: what a thread knows about `table_size` stays true while it has a lock, or while nobody
doubles it.
-/
import AlgorithmCollection.Hash.StripedHashMap

namespace AlgorithmCollection.StripedHash

open Conc Chained

/-! ## The table size -/

/-- `ht->table_size *= 2` -/
def doubles : Loc → Bool
  | .rDouble _ => true
  | _ => false

/-- this thread does not double `table_size` while the other is in W -/
def Unresized (W : Loc → Bool) (_ : Mem) (l : Loc) (_ : Act) (o : Loc) : Prop := doubles l = true → W o = false

instance Unresized.decidable (W : Loc → Bool) (m : Mem) (l : Loc) (a : Act) (o : Loc) : Decidable (Unresized W m l a o) :=
  inferInstanceAs (Decidable (_ → _))

section Fit

variable {P : Params} {F : ℕ → Loc → Prop} {W : Loc → Bool}

theorem exec_tableSize {t : ℕ} {m : Mem} {l : Loc} (h : doubles l = false) : (exec P t m l).1.tableSize = m.tableSize := by
  have hlock : ∀ b l l', (lock P t m b l l').1.tableSize = m.tableSize := by
    intro b l l'
    unfold lock
    split_ifs <;> rfl
  have hrec : ∀ (c : Ins) m', (c.record m').tableSize = m'.tableSize := by
    intro c m'
    cases c <;> rfl
  cases l with
  | lockB u r s b | findLock k b => exact hlock ..
  | recheck u r s b =>
    simp only [exec]
    split_ifs
    · cases u <;> rfl
    · rfl
  | test c b p q | rInit c | rList c i | rQuit c i | rUnlock c i => simp only [exec]; split_ifs <;> rfl
  | addEmpty1 c b h' | link2 c b p q => exact hrec ..
  | rLock c s i =>
    simp only [exec]
    split_ifs
    · exact hlock ..
    · rfl
  | rDouble c => cases h
  | _ => rfl

theorem step_tableSize {t : ℕ} {m : Mem} {l : Loc} (h : doubles l = false) (a : Act) :
    (step P t m l a).1.tableSize = m.tableSize := by
  cases a with
  | step => exact exec_tableSize h
  | invoke op => simp only [step]; split_ifs <;> rfl

/-- **What a thread knows about `table_size`.** It stays true if the thread is in W, where nobody doubles it, or has a lock. -/
theorem fit_run (h0 : F P.lockSize .idle)
    (hown : ∀ t m l a, F m.tableSize l → F (step P t m l a).1.tableSize (step P t m l a).2)
    (hW : ∀ l, W l = true ∨ (∀ n, F n l) ∨ ∀ g t m, Asrt P g t m l → resizing l = false ∧ ∃ b, Hold P t m b)
    (ls : List (ℕ × Act)) (hls : (sys P).Meets (Sys.Beside (Unresized W)) ls) (t : ℕ) :
    F ((sys P).run ls).sh.tableSize (((sys P).run ls).loc t) := by
  induction ls using List.reverseRecOn generalizing t with
  | nil => exact h0
  | append_singleton ls x ih =>
    obtain ⟨hmeets, hx⟩ := (Sys.meets_snoc (sys P) _ ls x).1 hls
    obtain ⟨u, a⟩ := x
    have hF := ih hmeets t
    rw [Sys.run_snoc]
    by_cases ht : t = u
    · subst ht
      rw [Sys.next_loc_self, Sys.next_sh]
      exact hown _ _ _ _ hF
    · rw [Sys.next_loc_ne _ _ _ ht, Sys.next_sh]
      change F (step P u _ _ a).1.tableSize _
      cases hd : doubles (((sys P).run ls).loc u) with
      | false =>
        rw [step_tableSize hd]
        exact hF
      | true =>
        -- the other thread is not in W and, since u has all locks, has none
        rcases hW (((sys P).run ls).loc t) with h | h | h
        · have := hx t ht hd
          rw [h] at this
          cases this
        · exact h _
        · obtain ⟨g, hI, hA, -⟩ := inv_run (P := P) ls
          obtain ⟨hr, b, hb⟩ := h g t _ (hA t)
          have hmig : resizing (((sys P).run ls).loc u) = true := by
            cases e : ((sys P).run ls).loc u with
            | rDouble c => rfl
            | _ => rw [e] at hd; cases hd
          have := hI.no_mig (hA t) hr hb
          rw [(hA u).migrates hmig] at this
          cases this

end Fit

/-! ## Find -/

/-- between the computation of its bucket and the lock -/
def findWaits : Loc → Bool
  | .findLock _ _ => true
  | _ => false

/-- `find` has the bucket of its key in a table of n buckets -/
def FindFit (n : ℕ) : Loc → Prop
  | .findLock k b => hashCode k n = b
  | .first (.find k) b | .test (.find k) b _ _ | .next (.find k) b _ | .check (.find k) b _ _ => hashCode k n = b
  | _ => True

section Find

variable {P : Params} {g : Ghost} {t : ℕ} {m : Mem} {l : Loc} {b : ℕ} {k : ℤ}

theorem exec_findFit (h : FindFit m.tableSize l) : FindFit (exec P t m l).1.tableSize (exec P t m l).2 := by
  cases l with
  | findHash k => exact rfl
  | findLock k b =>
    simp only [exec, lock]
    split_ifs
    · exact h
    · exact h
  | lockB u r s b | rLock c s i => simp only [exec, lock]; split_ifs <;> trivial
  | recheck u r s b =>
    simp only [exec]
    split_ifs
    · cases u <;> trivial
    · trivial
  | first c b =>
    simp only [exec, afterFirst]
    split_ifs
    · cases c <;> trivial
    · cases c with
      | find k => exact h
      | _ => trivial
  | test c b p q =>
    simp only [exec]
    cases c with
    | find k => split_ifs <;> exact h
    | _ => split_ifs <;> trivial
  | next c b p =>
    cases c with
    | find k => exact h
    | _ => trivial
  | check c b p q =>
    change FindFit m.tableSize (afterCheck c b p q (decide (q ≠ NULL ∧ c.key m = (m.node q).key)))
    generalize decide (q ≠ NULL ∧ c.key m = (m.node q).key) = f
    cases c with
    | ins c => cases f <;> cases c <;> trivial
    | _ => cases f <;> trivial
  | addEmpty2 c b | link2 c b p q => cases c <;> trivial
  | unlockOk d b => cases d <;> trivial
  | unlockRetry u r b =>
    simp only [exec]
    split_ifs
    · trivial
    · cases u <;> trivial
  | policy2 c n =>
    simp only [exec]
    cases policy n m.tableSize <;> trivial
  | rCheck c s | rInit c | rList c i | rTest c i p q | rQuit c i
  | rUnlock c i => simp only [exec]; split_ifs <;> trivial
  | _ => trivial

theorem findFit_run (ls : List (ℕ × Act)) (hls : (sys P).Meets (Sys.Beside (Unresized findWaits)) ls) (t : ℕ) :
    FindFit ((sys P).run ls).sh.tableSize (((sys P).run ls).loc t) := by
  refine fit_run trivial (fun t m l a h => ?_) (fun l => ?_) ls hls t
  · cases a with
    | step => exact exec_findFit h
    | invoke op =>
      simp only [step]
      split_ifs
      · cases op <;> trivial
      · exact h
  · cases l with
    | findLock k b => exact .inl rfl
    | first c b | test c b p q | next c b p | check c b p q =>
      cases c with
      | find k =>
        refine .inr (.inr fun g t m ha => ⟨rfl, b, ?_⟩)
        first | exact ha.at_.1.1 | exact ha.at_.1
      | _ => exact .inr (.inl fun _ => trivial)
    | _ => exact .inr (.inl fun _ => trivial)

end Find

/-! ## Add and delete -/

/-- between the load of `table_size` and the lock, in the last attempt -/
def lastWaits : Loc → Bool
  | .hash _ 0 _ | .lockB _ 0 _ _ => true
  | _ => false

def Done.succeeded : Done → Prop
  | .add c => c.ret = true
  | .delete _ r => r ≠ none

/-- the last attempt has the table size, n, and a call that leaves its loop with `break` has done its work -/
def UpdFit (n : ℕ) : Loc → Prop
  | .hash _ 0 size | .lockB _ 0 size _ | .recheck _ 0 size _ => size = n
  | .count1 d _ | .count2 d _ _ | .unlockOk d _ => d.succeeded
  | _ => True

section Upd

variable {P : Params} {g : Ghost} {t : ℕ} {m : Mem} {l : Loc} {b : ℕ} {k : ℤ}

theorem exec_updFit (h : UpdFit m.tableSize l) : UpdFit (exec P t m l).1.tableSize (exec P t m l).2 := by
  cases l with
  | size u r => cases r <;> trivial
  | hash u r s =>
    cases r with
    | zero => exact h
    | succ r => trivial
  | lockB u r s b =>
    simp only [exec, lock]
    cases r with
    | zero => split_ifs <;> exact h
    | succ r => split_ifs <;> trivial
  | findLock k b | rLock c s i => simp only [exec, lock]; split_ifs <;> trivial
  | recheck u r s b =>
    simp only [exec]
    split_ifs
    · cases u <;> trivial
    · trivial
  | first c b =>
    simp only [exec, afterFirst]
    split_ifs
    · cases c <;> trivial
    · trivial
  | test c b p q | rCheck c s | rInit c | rList c i | rTest c i p q | rQuit c i
  | rUnlock c i => simp only [exec]; split_ifs <;> trivial
  | check c b p q =>
    change UpdFit m.tableSize (afterCheck c b p q (decide (q ≠ NULL ∧ c.key m = (m.node q).key)))
    generalize decide (q ≠ NULL ∧ c.key m = (m.node q).key) = f
    cases c with
    | ins c => cases f <;> cases c <;> trivial
    | _ => cases f <;> trivial
  | addEmpty2 c b =>
    cases c with
    | add k v r n => exact rfl
    | move c i p n => trivial
  | link2 c b p q =>
    cases c with
    | add k v r n => exact rfl
    | move c i p n => trivial
  | del3 k b p q v s => exact Option.some_ne_none v
  | count1 d b | count2 d b n => exact h
  | unlockOk d b => cases d <;> trivial
  | unlockRetry u r b =>
    simp only [exec]
    split_ifs
    · trivial
    · cases u <;> trivial
  | policy2 c n =>
    simp only [exec]
    cases policy n m.tableSize <;> trivial
  | _ => trivial

theorem updFit_run (ls : List (ℕ × Act)) (hls : (sys P).Meets (Sys.Beside (Unresized lastWaits)) ls) (t : ℕ) :
    UpdFit ((sys P).run ls).sh.tableSize (((sys P).run ls).loc t) := by
  refine fit_run trivial (fun t m l a h => ?_) (fun l => ?_) ls hls t
  · cases a with
    | step => exact exec_updFit h
    | invoke op =>
      simp only [step]
      split_ifs
      · cases op <;> trivial
      · exact h
  · cases l with
    | hash u r s | lockB u r s b =>
      cases r with
      | zero => exact .inl rfl
      | succ r => exact .inr (.inl fun _ => trivial)
    | recheck u r s b => exact .inr (.inr fun g t m ha => ⟨rfl, b, ha.at_.2⟩)
    | count1 d b | count2 d b n | unlockOk d b => exact .inr (.inr fun g t m ha => ⟨rfl, b, ha.at_⟩)
    | _ => exact .inr (.inl fun _ => trivial)

end Upd

/-! ## Verdicts -/

def Call.verdict (c : Call) : Option (Op × Res) := if c.ret then none else some (.add c.key c.val, .add false)

def Ins.verdict : Ins → Option (Op × Res)
  | .add _ _ _ _ => none
  | .move c _ _ _ => c.verdict

def Cont.verdict : Cont → Option (Op × Res)
  | .ins c => c.verdict
  | _ => none

/-- the result that a call which changes nothing is certain to return -/
def verdict : Loc → Option (Op × Res)
  | .unlockRetry u 0 _ => some (u.op, u.fail.res)
  | .findUnlock k _ r => some (.find k, .find r)
  | .first c _ | .test c _ _ _ | .next c _ _ | .check c _ _ _ => c.verdict
  | .addEmpty1 c _ _ | .addEmpty2 c _ | .link1 c _ _ _ | .link2 c _ _ _ => c.verdict
  | .policy1 c | .policy2 c _ | .rSize c | .rLock c _ _ | .rCheck c _ | .rOld1 c | .rOld2 c | .rInit c | .rDouble c
  | .rList c _ | .rTest c _ _ _ | .rTake1 c _ _ _ | .rTake2 c _ _ _ _ | .rHash c _ _ _ | .rNext c _ _ | .rQuit c _
  | .rUnlock c _ | .rFree1 c | .rFree2 c _ => c.verdict
  | _ => none

/-- the result is right for the map M -/
def Right (M : ℤ → Option ℤ) : Op × Res → Prop
  | (.find k, .find r) => (M k).isSome = r
  | (.add k _, .add false) => M k ≠ none
  | (.delete k, .delete none) => M k = none
  | _ => False

section Verdict

variable {P : Params} {g : Ghost} {t : ℕ} {m : Mem} {l : Loc} {b p q : ℕ} {k : ℤ}

/-- a walk has come to its end in the bucket of its key -/
theorem Live.found_iff (hL : Live g m) (hb : b < m.tableSize) (hk : hashCode k m.tableSize = b) (ha : At g m b k p q)
    (hle : q = NULL ∨ k ≤ ky m q) : (q ≠ NULL ∧ k = ky m q) ↔ replay m.hist k ≠ none := by
  constructor
  · intro ⟨hq, e⟩
    have := hL.stored.rep.holds (hL.curr_data hb ha hq).2
    rw [e, this]
    nofun
  · intro hne
    by_contra hno
    refine hne (hL.stored.rep.absent (hL.absent hb hk ha.walk ?_))
    rw [ha.next]
    rcases hle with h | h
    · exact .inl h
    · by_cases hq : q = NULL
      · exact .inl hq
      · exact .inr (lt_of_le_of_ne h fun e => hno ⟨hq, e⟩)

/-- the bucket of the key is empty -/
theorem Live.empty_absent (hL : Live g m) (hb : b < m.tableSize) (hk : hashCode k m.tableSize = b)
    (he : nx m (m.list m.bucket b) = NULL) : replay m.hist k = none :=
  hL.stored.rep.absent (hL.absent hb hk ((hL.chain hb).before_head (hL.stored.lists.pos _ (hL.head_mem hb))) (.inl he))

/-- what the thread has to know for the verdict x -/
def VerdictFit (x : Op × Res) (n : ℕ) (l : Loc) : Prop :=
  match x.1 with
  | .find _ => FindFit n l
  | _ => UpdFit n l

variable {x : Op × Res}

theorem Call.verdict_op {c : Call} (h : c.verdict = some x) : c.ret = false ∧ x.1 = .add c.key c.val := by
  unfold Call.verdict at h
  split_ifs at h with hr
  cases h
  exact ⟨by simpa using hr, rfl⟩

theorem VerdictFit.upd {u : Upd} {r : Res} {n : ℕ} (h : VerdictFit (u.op, r) n l) : UpdFit n l := by
  cases u <;> exact h

/-- the first node of the bucket has been read -/
theorem first_verdict {c : Cont} (hI : Inv P g m) (ha : Asrt P g t m (.first c b))
    (hx : verdict (exec P t m (.first c b)).2 = some x) (hfit : VerdictFit x m.tableSize (.first c b)) :
    c.verdict = some x ∨ (table.Busy (.first c b) ∧ Right (replay m.hist) x) := by
  simp only [exec, afterFirst] at hx
  by_cases he : (m.node (m.list m.bucket b)).next = NULL
  · rw [if_pos he] at hx
    cases c with
    | ins c => exact .inl hx
    | delete k r =>
      have hu : Ours P t m k b := ha.at_
      cases r with
      | zero =>
        cases hx
        exact .inr ⟨⟨_, rfl⟩, (hI.live (hI.no_mig ha rfl hu.hold)).empty_absent (hu.lt hI) hu.hash he⟩
      | succ r => cases hx
    | find k =>
      cases hx
      obtain ⟨hh, hb⟩ : Hold P t m b ∧ b < m.tableSize := ha.at_
      refine .inr ⟨⟨_, rfl⟩, ?_⟩
      change (replay m.hist k).isSome = false
      rw [(hI.live (hI.no_mig ha rfl hh)).empty_absent hb hfit he]
      rfl
  · rw [if_neg he] at hx
    exact .inl hx

/-- the walk is over -/
theorem check_verdict {c : Cont} (hI : Inv P g m) (ha : Asrt P g t m (.check c b p q))
    (hx : verdict (exec P t m (.check c b p q)).2 = some x) (hfit : VerdictFit x m.tableSize (.check c b p q)) :
    c.verdict = some x ∨ (table.Busy (.check c b p q) ∧ Right (replay m.hist) x) := by
  have hat := ha.at_
  change verdict (afterCheck c b p q (decide (q ≠ NULL ∧ c.key m = ky m q))) = some x at hx
  cases c with
  | ins c =>
    cases c with
    | move c i p' n =>
      cases hf : decide (q ≠ NULL ∧ (Cont.ins (.move c i p' n)).key m = ky m q) with
      | true | false => rw [hf] at hx; exact .inl hx
    | add k v r n =>
      obtain ⟨⟨hu, ho⟩, hw, hle⟩ := hat
      have hkey : (Cont.ins (.add k v r n)).key m = k := ho.key
      rw [hkey] at hx hw hle
      have hfound := (hI.live (hI.no_mig ha rfl hu.hold)).found_iff (hu.lt hI) hu.hash hw hle
      by_cases hf : q ≠ NULL ∧ k = ky m q
      · rw [decide_eq_true hf] at hx
        cases r with
        | zero =>
          cases hx
          exact .inr ⟨⟨_, rfl⟩, hfound.1 hf⟩
        | succ r => cases hx
      · rw [decide_eq_false hf] at hx
        cases hx
  | delete k r =>
    obtain ⟨hu, hw, hle⟩ : Ours P t m k b ∧ _ := hat
    have hfound := (hI.live (hI.no_mig ha rfl hu.hold)).found_iff (hu.lt hI) hu.hash hw hle
    by_cases hf : q ≠ NULL ∧ k = ky m q
    · change verdict (afterCheck _ b p q (decide (q ≠ NULL ∧ k = ky m q))) = some x at hx
      rw [decide_eq_true hf] at hx
      cases hx
    · change verdict (afterCheck _ b p q (decide (q ≠ NULL ∧ k = ky m q))) = some x at hx
      rw [decide_eq_false hf] at hx
      cases r with
      | zero =>
        cases hx
        exact .inr ⟨⟨_, rfl⟩, not_not.1 fun h => hf (hfound.2 h)⟩
      | succ r => cases hx
  | find k =>
    obtain ⟨⟨hh, hb⟩, hw, hle⟩ := hat
    cases hx
    have hfound := (hI.live (hI.no_mig ha rfl hh)).found_iff hb hfit hw hle
    refine .inr ⟨⟨_, rfl⟩, ?_⟩
    change (replay m.hist k).isSome = decide (q ≠ NULL ∧ k = ky m q)
    rw [Bool.eq_iff_iff, decide_eq_true_iff, hfound]
    exact Option.isSome_iff_ne_none

/-- **A verdict is right when it is reached.** -/
theorem exec_verdict (hI : Inv P g m) (ha : Asrt P g t m l) (hx : verdict (exec P t m l).2 = some x)
    (hfit : VerdictFit x m.tableSize l) : verdict l = some x ∨ (table.Busy l ∧ Right (replay m.hist) x) := by
  cases l with
  | lockB u r s b | findLock k b => simp only [exec, lock] at hx; split_ifs at hx <;> cases hx
  | recheck u r s b =>
    simp only [exec] at hx
    split_ifs at hx with hs
    · cases u <;> cases hx
    · cases r with
      | zero =>
        cases hx
        exact absurd hfit.upd hs
      | succ r => cases hx
  | first c b => exact first_verdict hI ha hx hfit
  | test c b p q | rCheck c s | rInit c | rList c i | rTest c i p q
  | rUnlock c i => simp only [exec] at hx; split_ifs at hx <;> exact .inl hx
  | check c b p q => exact check_verdict hI ha hx hfit
  | addEmpty2 c b =>
    cases c with
    | add k v r n => cases hx
    | move c i p n => exact .inl hx
  | link2 c b p q =>
    cases c with
    | add k v r n => cases hx
    | move c i p n => exact .inl hx
  | unlockOk d b =>
    cases d with
    | add c =>
      obtain ⟨hr, hop⟩ := Call.verdict_op hx
      unfold VerdictFit at hfit
      rw [hop] at hfit
      have hok : c.ret = true := hfit
      rw [hr] at hok
      cases hok
    | delete k r => cases hx
  | unlockRetry u r b =>
    cases r with
    | zero =>
      cases u with
      | add k v => exact .inl hx
      | delete k => cases hx
    | succ r => cases hx
  | policy2 c n =>
    simp only [exec] at hx
    cases hp : policy n m.tableSize with
    | true => rw [hp] at hx; exact .inl hx
    | false => rw [hp] at hx; cases hx
  | rLock c s i => simp only [exec, lock] at hx; split_ifs at hx <;> exact .inl hx
  | rQuit c i =>
    simp only [exec] at hx
    split_ifs at hx
    · exact .inl hx
    · cases hx
  | idle | ret op r | size u r | hash u r s | create k v r b | findHash k | del1 k b p q | del2 k b p q v
  | del3 k b p q v s | count1 d b | count2 d b n | findUnlock k b r | rFree2 c A => cases hx
  | _ => exact .inl hx

theorem verdict_busy (h : verdict l = some x) : table.Busy l := by
  cases l with
  | idle | ret op r => cases h
  | _ => exact ⟨_, rfl⟩

/-- **A verdict was right at some instant of the call.** -/
theorem verdict_since {W : Loc → Bool}
    (hfit : ∀ ls, (sys P).Meets (Sys.Beside (Unresized W)) ls → ∀ t,
      VerdictFit x ((sys P).run ls).sh.tableSize (((sys P).run ls).loc t))
    (ls : List (ℕ × Act)) (hls : (sys P).Meets (Sys.Beside (Unresized W)) ls) (t : ℕ)
    (hx : verdict (((sys P).run ls).loc t) = some x) :
    (sys P).Since table.Busy t (fun s => Right (replay s.sh.hist) x) ls := by
  refine Sys.Since.remember_while (sys P) ((sys P).Meets (Sys.Beside (Unresized W)))
    (fun ls x h => ((Sys.meets_snoc _ _ ls x).1 h).1) (fun l (_ : Unit) => verdict l = some x)
    (fun _ s => Right (replay s.sh.hist) x) nofun (fun l _ h => verdict_busy h) ?_ ls hls t () hx
  intro ls t a _ hmeets hd
  obtain ⟨hls, -⟩ := (Sys.meets_snoc _ _ ls _).1 hmeets
  obtain ⟨g, hI, hA, -⟩ := inv_run (P := P) ls
  cases a with
  | step =>
    rcases exec_verdict hI (hA t) hd (hfit ls hls t) with h | h
    · exact .inl h
    · exact .inr (.inl h)
  | invoke op =>
    change verdict (step P t _ _ _).2 = some x at hd
    simp only [step] at hd
    split_ifs at hd
    · cases op <;> cases hd
    · exact .inl hd

/-- the next step of thread t returns r from its call op -/
def Returns (P : Params) (s : St Mem Loc) (t : ℕ) (op : Op) (r : Res) : Prop :=
  table.Busy (s.loc t) ∧ (exec P t s.sh (s.loc t)).2 = .ret op r

/-- a call returns its verdict, or the result of its change -/
theorem exec_ret {op : Op} {r : Res} (hb : table.Busy l) (h : (exec P t m l).2 = .ret op r) :
    verdict l = some (op, r) ∨ r = .add true ∨ ∃ k v b, l = .unlockOk (.delete k v) b ∧ op = .delete k ∧ r = .delete v := by
  have hcall : ∀ c : Call, Loc.ret (.add c.key c.val) (.add c.ret) = .ret op r → c.verdict = some (op, r) ∨ r = .add true := by
    intro c e
    cases e
    unfold Call.verdict
    cases c.ret with
    | true => exact .inr rfl
    | false => exact .inl rfl
  have hcall' : ∀ c : Call, Loc.ret (.add c.key c.val) (.add c.ret) = .ret op r →
      c.verdict = some (op, r) ∨ r = .add true ∨
        ∃ k v b, l = .unlockOk (.delete k v) b ∧ op = .delete k ∧ r = .delete v := fun c e =>
    (hcall c e).imp id .inl
  cases l with
  | idle | ret op r => exact absurd hb (fun ⟨_, h⟩ => nomatch h)
  | lockB u r s b | findLock k b | rLock c s i => simp only [exec, lock] at h; split_ifs at h
  | recheck u r s b =>
    simp only [exec] at h
    split_ifs at h
    cases u <;> cases h
  | first c b =>
    simp only [exec, afterFirst] at h
    split_ifs at h
    cases c <;> cases h
  | test c b p q | rCheck c s | rInit c | rList c i | rTest c i p q
  | rUnlock c i => simp only [exec] at h; split_ifs at h
  | check c b p q =>
    change afterCheck c b p q (decide (q ≠ NULL ∧ c.key m = ky m q)) = _ at h
    generalize decide (q ≠ NULL ∧ c.key m = ky m q) = f at h
    cases c with
    | ins c => cases f <;> cases c <;> cases h
    | _ => cases f <;> cases h
  | addEmpty2 c b | link2 c b p q => cases c <;> cases h
  | unlockOk d b =>
    cases d with
    | add c => cases h
    | delete k v =>
      cases h
      exact .inr (.inr ⟨k, v, b, rfl, rfl, rfl⟩)
  | unlockRetry u r b =>
    cases r with
    | zero =>
      cases u with
      | add k v => cases h
      | delete k => cases h; exact .inl rfl
    | succ r => cases h
  | findUnlock k b r => cases h; exact .inl rfl
  | policy2 c n =>
    simp only [exec] at h
    cases hp : policy n m.tableSize with
    | true => rw [hp] at h; cases h
    | false => rw [hp] at h; exact hcall' c h
  | rQuit c i =>
    simp only [exec] at h
    split_ifs at h
    exact hcall' c h
  | rFree2 c A => exact hcall' c h
  | _ => cases h

end Verdict

/-! ## The results -/

/-- the key an event puts in -/
def Ev.linked : Ev → Option ℤ
  | .link k _ => some k
  | .unlink _ => none

/-- **`find` is right at some instant of the call**, in runs in which nobody doubles `table_size` while another thread is between
the computation of its bucket and the lock. So it returns true for a key that is in the table all the time. -/
theorem find_seen (P : Params) (ls : List (ℕ × Act)) (hls : (sys P).Meets (Sys.Beside (Unresized findWaits)) ls) (t : ℕ)
    (k : ℤ) (r : Bool) (hret : Returns P ((sys P).run ls) t (.find k) (.find r)) :
    (sys P).Since table.Busy t (fun s => (replay s.sh.hist k).isSome = r) ls ∧
      ((∀ j ≤ ls.length, (∀ i, j ≤ i → i ≤ ls.length → table.Busy (((sys P).run (ls.take i)).loc t)) →
        (replay ((sys P).run (ls.take j)).sh.hist k).isSome = true) → r = true) := by
  have hv : verdict (((sys P).run ls).loc t) = some (.find k, .find r) := by
    rcases exec_ret hret.1 hret.2 with h | h | ⟨_, _, _, _, h, _⟩
    · exact h
    · cases h
    · cases h
  have hsince := verdict_since (x := (.find k, .find r)) (fun ls hls t => findFit_run ls hls t) ls hls t hv
  refine ⟨hsince, fun hall => ?_⟩
  obtain ⟨j, hj, hright, hbusy⟩ := hsince
  have hr : (replay ((sys P).run (ls.take j)).sh.hist k).isSome = r := hright
  rw [← hr]
  exact hall j hj hbusy

/-- a table of one bucket and one lock, with four nodes: the next `add` doubles it -/
def fourAdds : List (ℕ × Act) :=
  callSteps 1 (.add 5 50) 13 ++ callSteps 1 (.add 4 40) 15 ++ callSteps 1 (.add 3 30) 15 ++ callSteps 1 (.add 2 20) 15

/-- thread 1 doubles the table before thread 0 has computed its bucket -/
def findAfter : List (ℕ × Act) :=
  fourAdds ++ callSteps 0 (.find 5) 0 ++ callSteps 1 (.add 1 10) 84 ++ List.replicate 9 (0, .step)

theorem find_seen_after :
    Returns ⟨1, by decide, by decide⟩ ((sys ⟨1, by decide, by decide⟩).run findAfter) 0 (.find 5) (.find true) ∧
      (sys ⟨1, by decide, by decide⟩).Since table.Busy 0 (fun s => (replay s.sh.hist 5).isSome = true) findAfter := by
  have hret : Returns ⟨1, by decide, by decide⟩ ((sys ⟨1, by decide, by decide⟩).run findAfter) 0 (.find 5) (.find true) :=
    ⟨⟨.find 5, by decide +kernel⟩, by decide +kernel⟩
  exact ⟨hret, (find_seen _ _ (Sys.meets_of_check _ _ (n := 2) (by decide +kernel)) 0 5 true hret).1⟩

/-- thread 0 has computed the bucket of key 5 when thread 1 doubles the table -/
def findMeanwhile : List (ℕ × Act) :=
  callSteps 0 (.find 5) 1 ++ callSteps 1 (.add 1 10) 84 ++ List.replicate 8 (0, .step)

def findBefore : List (ℕ × Act) := fourAdds ++ findMeanwhile

/-- `find(5)` returns false, and key 5 is in the table all the time -/
theorem find_missed :
    Returns ⟨1, by decide, by decide⟩ ((sys ⟨1, by decide, by decide⟩).run findBefore) 0 (.find 5) (.find false) ∧
      ∀ j ≤ findBefore.length,
        (∀ i, j ≤ i → i ≤ findBefore.length →
          table.Busy (((sys ⟨1, by decide, by decide⟩).run (findBefore.take i)).loc 0)) →
        (replay ((sys ⟨1, by decide, by decide⟩).run (findBefore.take j)).sh.hist 5).isSome = true := by
  refine ⟨⟨⟨.find 5, by decide +kernel⟩, by decide +kernel⟩, fun j hj hbusy => ?_⟩
  -- thread 0 has not called `find` before key 5 is in the table
  have hlate : fourAdds.length ≤ j := by
    by_contra hlt
    obtain ⟨op, hop⟩ := hbusy fourAdds.length (by omega) (by decide +kernel)
    rw [findBefore, List.take_left] at hop
    have hidle : ((sys ⟨1, by decide, by decide⟩).run fourAdds).loc 0 = .idle := by decide +kernel
    rw [hidle] at hop
    cases hop
  obtain ⟨ks, hks⟩ := run_hist_le (P := ⟨1, by decide, by decide⟩) fourAdds
    (findMeanwhile.take (j - fourAdds.length))
  have htake : findBefore.take j = fourAdds ++ findMeanwhile.take (j - fourAdds.length) := by
    rw [findBefore, List.take_append, List.take_of_length_le hlate]
  -- and nobody takes it out
  have hle := run_hist_le (P := ⟨1, by decide, by decide⟩) (findBefore.take j) (findBefore.drop j)
  rw [List.take_append_drop, htake, ← hks] at hle
  have hunlink : Ev.unlink 5 ∉ ((sys ⟨1, by decide, by decide⟩).run findBefore).sh.hist := by decide +kernel
  rw [htake, ← hks]
  refine replay_isSome_append (by decide +kernel) fun hmem => hunlink (hle.subset (List.mem_append_right _ hmem))

/-- **An `add` or `delete` returns false for a reason**, in runs in which nobody doubles `table_size` while another thread is
between the load of it and the lock in its last attempt. -/
theorem fails_seen (P : Params) (ls : List (ℕ × Act)) (hls : (sys P).Meets (Sys.Beside (Unresized lastWaits)) ls) (t : ℕ)
    (k : ℤ) :
    (∀ v, Returns P ((sys P).run ls) t (.add k v) (.add false) →
        (sys P).Since table.Busy t (fun s => replay s.sh.hist k ≠ none) ls) ∧
      (Returns P ((sys P).run ls) t (.delete k) (.delete none) →
        (sys P).Since table.Busy t (fun s => replay s.sh.hist k = none) ls) := by
  refine ⟨fun v hret => ?_, fun hret => ?_⟩
  · have hv : verdict (((sys P).run ls).loc t) = some (.add k v, .add false) := by
      rcases exec_ret hret.1 hret.2 with h | h | ⟨_, _, _, _, h, _⟩
      · exact h
      · cases h
      · cases h
    exact verdict_since (x := (.add k v, .add false)) (fun ls hls t => updFit_run ls hls t) ls hls t hv
  · have hv : verdict (((sys P).run ls).loc t) = some (.delete k, .delete none) := by
      rcases exec_ret hret.1 hret.2 with h | h | ⟨k', v, b, hl, -, h⟩
      · exact h
      · cases h
      · -- `break` is reached with a value
        cases h
        have hfit := updFit_run ls hls t
        rw [hl] at hfit
        exact absurd rfl hfit
    exact verdict_since (x := (.delete k, .delete none)) (fun ls hls t => updFit_run ls hls t) ls hls t hv

/-- thread 0 has computed the bucket of key 5 in its first attempt when thread 1 doubles the table -/
def addOnce : List (ℕ × Act) :=
  fourAdds ++ callSteps 0 (.add 5 0) 2 ++ callSteps 1 (.add 1 10) 84 ++ List.replicate 30 (0, .step)

theorem fails_seen_once :
    Returns ⟨1, by decide, by decide⟩ ((sys ⟨1, by decide, by decide⟩).run addOnce) 0 (.add 5 0) (.add false) ∧
      (sys ⟨1, by decide, by decide⟩).Since table.Busy 0 (fun s => replay s.sh.hist 5 ≠ none) addOnce := by
  have hret : Returns ⟨1, by decide, by decide⟩ ((sys ⟨1, by decide, by decide⟩).run addOnce) 0 (.add 5 0) (.add false) :=
    ⟨⟨.add 5 0, by decide +kernel⟩, by decide +kernel⟩
  exact ⟨hret, (fails_seen _ _ (Sys.meets_of_check _ _ (n := 2) (by decide +kernel)) 0 5).1 0 hret⟩

/-- thread 1 adds k keys from n downwards -/
def addsDown (n k : ℕ) : List (ℕ × Act) := (List.range k).flatMap fun i => callSteps 1 (.add (n - i) 0) 15

/-- thread 0 has computed its bucket each time thread 1 doubles the table -/
def addThrice : List (ℕ × Act) :=
  callSteps 1 (.add 20 0) 13 ++ addsDown 19 3 ++ callSteps 0 (.add 100 0) 2 ++ callSteps 1 (.add 16 0) 84 ++
    List.replicate 5 (0, .step) ++ addsDown 15 4 ++ callSteps 1 (.add 11 0) 140 ++ List.replicate 5 (0, .step) ++
    addsDown 10 9 ++ callSteps 1 (.add 1 0) 252 ++ List.replicate 4 (0, .step)

/-- `add(100)` returns false, and key 100 is never in the table -/
theorem add_spurious :
    Returns ⟨1, by decide, by decide⟩ ((sys ⟨1, by decide, by decide⟩).run addThrice) 0 (.add 100 0) (.add false) ∧
      ∀ j, replay ((sys ⟨1, by decide, by decide⟩).run (addThrice.take j)).sh.hist 100 = none := by
  refine ⟨⟨⟨.add 100 0, by decide +kernel⟩, by decide +kernel⟩, fun j => replay_eq_none fun v hv => ?_⟩
  have hle := run_hist_le (P := ⟨1, by decide, by decide⟩) (addThrice.take j) (addThrice.drop j)
  rw [List.take_append_drop] at hle
  have hlinks : ∀ e ∈ ((sys ⟨1, by decide, by decide⟩).run addThrice).sh.hist, ∀ k ∈ e.linked, k ≠ 100 := by
    decide +kernel
  exact hlinks _ (hle.subset hv) 100 rfl rfl

end AlgorithmCollection.StripedHash
