/-
`search` of `NonBlockingList` under concurrency: which pointer it follows as *pred, and what it returns.

`search` assigns *pred and pred_next together, and only when the node behind t is unmarked, so pred_next is NULL exactly
as long as the call has not assigned *pred. Two things go wrong.
- `pred_unassigned`: the first node is marked and its key is not below the key looked for. `search` skips the assignment,
  clears the mark, leaves the loop, and follows the NULL that its caller passed (step 3).
- The loop goes on behind t, whose key is not below the key, because t_next is marked; another `search` clears that mark
  before the test is made again at the top of the loop; then *pred becomes t.
`search_safe` is about the runs in which other threads do neither (`Undisturbed`): no call of `search` starts while the
first node is marked, and no other thread sets or clears the mark of the node that a `search` is about to test. Then, for any
number of threads, `search` only follows a *pred that it has assigned, and it returns a pred and a curr with
pred->key < key <= curr->key. Deletes may mark any other node while searches pass, and searches may clear these marks.

The proof needs nothing of the shape of the list: pointers lead to allocated nodes and keys do not change (`Grows`).
-/
import AlgorithmCollection.List.NonBlockingListUpdates

namespace AlgorithmCollection.NonBlockingList

open Conc

/-! ## Safety of `search`, and what the other threads do -/

/-- `search` is about to return curr with *pred, to its caller -/
def returning (m : Mem) : Loc → Option (Caller × ℕ × ℕ)
  | .adjacent c pred pn curr =>
    if pn = curr ∧ ¬(curr ≠ tail ∧ mark m curr = .MARKED) then some (c, pred, curr) else none
  | .check c pred curr => if nx m pred = curr then some (c, pred, curr) else none
  | _ => none

/-- a thread that is about to follow *pred has assigned it in this call of `search`, and a thread that is about to return
from `search` has the key between pred and curr -/
structure SearchSafe (m : Mem) (l : Loc) : Prop where
  snip : ∀ c pred pn curr, l = .snip c pred pn curr → pn ≠ NULL ∧ pred ≠ NULL
  check : ∀ c pred curr, l = .check c pred curr → pred ≠ NULL
  keys : ∀ c pred curr, returning m l = some (c, pred, curr) → ky m pred < c.key ∧ c.key ≤ ky m curr

/-- the node whose mark is tested next, at the top of the loop of `search` -/
def comesTo : Loc → Option ℕ
  | .advance _ _ _ _ tn => some tn
  | _ => none

/-- a call of `search` starts, or starts over without *pred -/
def starts : Loc → Bool
  | .first _ _ pn => pn = NULL
  | _ => false

/-- the step does not start a `search` while the first node is marked; and beside a thread at o that is about to test the
mark of a node it does not set or clear that mark -/
def Undisturbed (m : Mem) (l : Loc) (a : Act) (o : Loc) : Prop :=
  (a = .step → starts l = true → mark m (nx m head) = .UNMARKED) ∧ ∀ b ∈ comesTo o, mark (step 0 m l a).1 b = mark m b

instance Undisturbed.decidable (m : Mem) (l : Loc) (a : Act) (o : Loc) : Decidable (Undisturbed m l a o) :=
  inferInstanceAs (Decidable (_ ∧ _))

/-! ## Invariant -/

/-- links lead to allocated nodes -/
structure Bounded (m : Mem) : Prop where
  next : ∀ a, nx m a < m.fresh
  fresh : 2 < m.fresh
  low : ky m head = INT_MIN
  high : ky m tail = INT_MAX

/-- m' comes after m: nodes are only added, and keys stay as they are -/
structure Grows (m m' : Mem) : Prop where
  fresh : m.fresh ≤ m'.fresh
  key : ∀ a < m.fresh, ky m' a = ky m a

theorem Grows.refl (m : Mem) : Grows m m := ⟨le_rfl, fun _ _ => rfl⟩

/-- the key of the call is in range, and its new node is allocated -/
structure Caller.Fits (m : Mem) (c : Caller) : Prop where
  low : INT_MIN < c.key
  high : c.key < INT_MAX
  new : ∀ n, c.newNode = some n → n < m.fresh

/-- p can stand for *pred -/
structure Before (m : Mem) (k : ℤ) (p : ℕ) : Prop where
  ne : p ≠ NULL
  lt : p < m.fresh
  key : ky m p < k

/-- *pred, once it is assigned -/
def Assigned (m : Mem) (c : Caller) (pred pn : ℕ) : Prop := pn ≠ NULL → Before m c.key pred

/-- the loop comes from t to t_next; the mark is one that lets it assign *pred, or pass a t that is not below the key -/
structure Coming (m : Mem) (c : Caller) (pred pn t tn : ℕ) : Prop where
  fits : c.Fits m
  pred : Assigned m c pred pn
  ne : t ≠ NULL
  lt : t < m.fresh
  next : tn < m.fresh
  first : pn = NULL → mark m tn = .UNMARKED
  behind : c.key ≤ ky m t → mark m tn = .MARKED

/-- the loop is at t, and *pred is assigned -/
structure Passing (m : Mem) (c : Caller) (pred pn t : ℕ) : Prop where
  fits : c.Fits m
  pred : Before m c.key pred
  assigned : pn ≠ NULL
  ne : t ≠ NULL
  lt : t < m.fresh

/-- the loop has ended at curr -/
structure Ended (m : Mem) (c : Caller) (pred curr : ℕ) : Prop where
  fits : c.Fits m
  pred : Before m c.key pred
  lt : curr < m.fresh
  key : c.key ≤ ky m curr

/-- the node that `delete` has found -/
structure Target (m : Mem) (k : ℤ) (pred curr : ℕ) : Prop where
  low : INT_MIN < k
  high : k < INT_MAX
  pred : pred < m.fresh
  lt : curr < m.fresh
  key : ky m curr = k

/-- what a thread knows at each of its points -/
def Knows (m : Mem) : Loc → Prop
  | .idle | .ret _ | .abort => True
  | .create k _ => INT_MIN < k ∧ k < INT_MAX
  | .first c pred pn => c.Fits m ∧ Assigned m c pred pn
  | .advance c pred pn t tn => Coming m c pred pn t tn
  | .unmark c pred pn t | .load c pred pn t => Passing m c pred pn t
  | .test c pred pn t tn => Passing m c pred pn t ∧ tn < m.fresh
  | .adjacent c pred pn curr | .snip c pred pn curr | .snipped c pred pn curr => Ended m c pred curr ∧ pn ≠ NULL
  | .check c pred curr => Ended m c pred curr
  | .fill k v n pred curr | .link k v n pred curr => (Caller.add k v n).Fits m ∧ pred < m.fresh ∧ curr < m.fresh
  | .del1 k pred curr => Target m k pred curr
  | .del2 k pred curr cn | .del3 k pred curr cn | .del6 k pred curr cn => Target m k pred curr ∧ cn < m.fresh
  | .del4 k pred curr cn np => Target m k pred curr ∧ cn < m.fresh ∧ np < m.fresh
  | .del5 k pred curr cn old => Target m k pred curr ∧ cn < m.fresh ∧ old.ptr < m.fresh

/-! ## Stability -/

namespace Grows

variable {m m' : Mem} {c : Caller} {k : ℤ} {pred pn curr t : ℕ}

variable (h : Grows m m')

include h

theorem fits (hc : c.Fits m) : c.Fits m' :=
  ⟨hc.low, hc.high, fun n hn => (hc.new n hn).trans_le h.fresh⟩

theorem before (hp : Before m k pred) : Before m' k pred :=
  ⟨hp.ne, hp.lt.trans_le h.fresh, by rw [h.key pred hp.lt]; exact hp.key⟩

theorem assigned (ha : Assigned m c pred pn) : Assigned m' c pred pn := fun e => h.before (ha e)

theorem passing (hp : Passing m c pred pn t) : Passing m' c pred pn t :=
  ⟨h.fits hp.fits, h.before hp.pred, hp.assigned, hp.ne, hp.lt.trans_le h.fresh⟩

theorem ended (he : Ended m c pred curr) : Ended m' c pred curr :=
  ⟨h.fits he.fits, h.before he.pred, he.lt.trans_le h.fresh, by rw [h.key curr he.lt]; exact he.key⟩

theorem target (ht : Target m k pred curr) : Target m' k pred curr :=
  ⟨ht.low, ht.high, ht.pred.trans_le h.fresh, ht.lt.trans_le h.fresh, by rw [h.key curr ht.lt]; exact ht.key⟩

/-- what a thread knows is kept by every step that leaves the mark it is about to test as it is -/
theorem knows {l : Loc} (hm : ∀ b ∈ comesTo l, mark m' b = mark m b) (hl : Knows m l) : Knows m' l := by
  have lt := fun {a : ℕ} (ha : a < m.fresh) => ha.trans_le h.fresh
  cases l with
  | idle | ret r | abort => trivial
  | create k v => exact hl
  | first c pred pn => exact ⟨h.fits hl.1, h.assigned hl.2⟩
  | advance c pred pn t tn =>
    refine ⟨h.fits hl.fits, h.assigned hl.pred, hl.ne, lt hl.lt, lt hl.next, fun e => ?_, fun e => ?_⟩
    · rw [hm tn rfl]; exact hl.first e
    · rw [h.key t hl.lt] at e
      rw [hm tn rfl]; exact hl.behind e
  | unmark c pred pn t | load c pred pn t => exact h.passing hl
  | test c pred pn t tn => exact ⟨h.passing hl.1, lt hl.2⟩
  | adjacent c pred pn curr | snip c pred pn curr | snipped c pred pn curr => exact ⟨h.ended hl.1, hl.2⟩
  | check c pred curr => exact h.ended hl
  | fill k v n pred curr | link k v n pred curr => exact ⟨h.fits hl.1, lt hl.2.1, lt hl.2.2⟩
  | del1 k pred curr => exact h.target hl
  | del2 k pred curr cn | del3 k pred curr cn | del6 k pred curr cn => exact ⟨h.target hl.1, lt hl.2⟩
  | del4 k pred curr cn np | del5 k pred curr cn old => exact ⟨h.target hl.1, lt hl.2.1, lt hl.2.2⟩

end Grows

/-! ## The writes -/

section Writes

variable {m : Mem}

theorem Bounded.setRef (h : Bounded m) (a : ℕ) {r : Ref} (hr : r.ptr < m.fresh) :
    Bounded (setRef m a r) ∧ Grows m (setRef m a r) := by
  refine ⟨⟨fun b => ?_, h.fresh, by rw [ky_setRef]; exact h.low, by rw [ky_setRef]; exact h.high⟩,
    le_rfl, fun b _ => by rw [ky_setRef]⟩
  rw [nx_setRef]
  by_cases e : b = a
  · rw [e, Function.update_self]; exact hr
  · rw [Function.update_of_ne e]; exact h.next b

theorem Bounded.record (h : Bounded m) (u : Update ℤ ℤ) : Bounded (record m u) ∧ Grows m (record m u) :=
  ⟨⟨h.next, h.fresh, h.low, h.high⟩, le_rfl, fun _ _ => rfl⟩

theorem Bounded.create (h : Bounded m) (k v : ℤ) : Bounded (createNode m k v) ∧ Grows m (createNode m k v) := by
  have hne : ∀ a, a ≠ m.fresh → (createNode m k v).node a = m.node a := fun a ha => Function.update_of_ne ha ..
  have hky : ∀ a < m.fresh, ky (createNode m k v) a = ky m a := fun a ha => by unfold ky; rw [hne a ha.ne]
  have hf := h.fresh
  refine ⟨⟨fun a => ?_, Nat.lt_succ_of_lt h.fresh, ?_, ?_⟩, Nat.le_succ _, hky⟩
  · change _ < m.fresh + 1
    by_cases e : a = m.fresh
    · rw [e]
      have hnew : nx (createNode m k v) m.fresh = NULL := by simp [nx, ref, createNode]
      rw [hnew]
      exact Nat.succ_pos _
    · have hold : nx (createNode m k v) a = nx m a := by unfold nx ref; rw [hne a e]
      rw [hold]
      exact Nat.lt_succ_of_lt (h.next a)
  · rw [hky head (by unfold head; omega)]; exact h.low
  · rw [hky tail hf]; exact h.high

theorem Grows.trans {m1 m2 m3 : Mem} (h : Grows m1 m2) (h' : Grows m2 m3) : Grows m1 m3 :=
  ⟨h.fresh.trans h'.fresh, fun a ha => (h'.key a (ha.trans_le h.fresh)).trans (h.key a ha)⟩

end Writes

/-! ## One step -/

/-- what one step of a thread gives -/
structure Safely (m : Mem) (y : Mem × Loc) : Prop where
  bounded : Bounded y.1
  grows : Grows m y.1
  knows : Knows y.1 y.2

section Steps

variable {m : Mem} {l : Loc}

theorem Safely.read (h : Bounded m) (hl : Knows m l) : Safely m (m, l) := ⟨h, .refl m, hl⟩

theorem Safely.write {m' : Mem} (h : Bounded m' ∧ Grows m m') (hn : comesTo l = none) (hl : Knows m l) :
    Safely m (m', l) := ⟨h.1, h.2, h.2.knows (fun b e => by rw [hn] at e; cases e) hl⟩

/-- `search` returns -/
theorem Ended.next {c : Caller} {pred curr : ℕ} (h : Bounded m) (he : Ended m c pred curr) :
    Safely m (c.next m pred curr) := by
  have hp : ky m pred < c.key := he.pred.key
  have hk : c.key ≤ ky m curr := he.key
  cases c with
  | add k v n =>
    simp only [Caller.next, if_pos (show ky m pred < k ∧ k ≤ ky m curr from ⟨hp, hk⟩)]
    split
    · exact .read h trivial
    · exact .read h ⟨he.fits, he.pred.lt, he.lt⟩
  | delete k =>
    simp only [Caller.next, if_pos (show ky m pred < k ∧ k ≤ ky m curr from ⟨hp, hk⟩)]
    split
    · exact .read h trivial
    · rename_i hne
      rw [not_or, not_not] at hne
      exact .read h ⟨he.fits.low, he.fits.high, he.pred.lt, he.lt, hne.2⟩
  | again k => exact .write (h.record _) rfl trivial
  | find k => exact .read h trivial

/-- **One step** of a thread. -/
theorem exec_safely (h : Bounded m) (hl : Knows m l) {o : Loc} (hC : Undisturbed m l .step o) : Safely m (exec m l) := by
  have hrange : ∀ {k pred curr}, Target m k pred curr → ∀ c : Caller, c.key = k → c.newNode = none →
      c.Fits m ∧ Assigned m c pred NULL := fun ht c e hn =>
    ⟨⟨e ▸ ht.low, e ▸ ht.high, fun n e' => by rw [hn] at e'; cases e'⟩, fun e' => absurd rfl e'⟩
  cases l with
  | idle | ret r | abort => exact .read h trivial
  | create k v =>
    obtain ⟨h1, h2⟩ := h.create k v
    refine ⟨h1, h2, ⟨hl.1, hl.2, fun n hn => ?_⟩, fun e => absurd rfl e⟩
    obtain rfl := Option.some.inj hn
    exact Nat.lt_succ_self _
  | first c pred pn =>
    have hf := h.fresh
    refine .read h ⟨hl.1, hl.2, by decide, by unfold head; omega, h.next head, fun e => ?_, fun e => ?_⟩
    · subst e
      exact hC.1 rfl rfl
    · rw [h.low] at e
      exact absurd hl.1.low (not_lt.2 e)
  | advance c pred pn t tn =>
    simp only [exec]
    split_ifs with h0
    · exact .read h trivial
    · split
      · -- *pred becomes t, which is below the key since t_next is not marked
        rename_i hm
        have hkey : ky m t < c.key := by
          by_contra hge
          rw [hl.behind (not_lt.1 hge)] at hm
          cases hm
        exact .read h ⟨hl.fits, ⟨hl.ne, hl.lt, hkey⟩, h0, h0, hl.next⟩
      · rename_i hm
        have hpn : pn ≠ NULL := fun e => by
          rw [hl.first e] at hm
          cases hm
        exact .read h ⟨hl.fits, hl.pred hpn, hpn, h0, hl.next⟩
  | unmark c pred pn t =>
    have hw := h.setRef t (r := ⟨.UNMARKED, nx m t⟩) (h.next t)
    simp only [exec]
    split_ifs with ht
    · have hkey : c.key ≤ ky m t := by rw [ht, h.high]; exact hl.fits.high.le
      exact .write hw rfl ⟨⟨hl.fits, hl.pred, hl.lt, hkey⟩, hl.assigned⟩
    · exact .write hw rfl hl
  | load c pred pn t => exact .read h ⟨hl, h.next t⟩
  | test c pred pn t tn =>
    obtain ⟨hp, htn⟩ := hl
    have hfirst : pn = NULL → mark m tn = .UNMARKED := fun e => absurd e hp.assigned
    simp only [exec]
    split_ifs with hlt h0
    · exact .read h ⟨hp.fits, fun _ => hp.pred, hp.ne, hp.lt, htn, hfirst, fun hge => absurd hlt (not_lt.2 hge)⟩
    · exact .read h trivial
    · split
      · rename_i hm
        exact .read h ⟨hp.fits, fun _ => hp.pred, hp.ne, hp.lt, htn, hfirst, fun _ => hm⟩
      · exact .read h ⟨⟨hp.fits, hp.pred, hp.lt, not_lt.1 hlt⟩, hp.assigned⟩
  | adjacent c pred pn curr =>
    obtain ⟨he, hpn⟩ := hl
    simp only [exec]
    split_ifs
    · exact .read h ⟨he.fits, fun _ => he.pred⟩
    · exact he.next h
    · exact .read h ⟨he, hpn⟩
  | snip c pred pn curr =>
    obtain ⟨he, hpn⟩ := hl
    simp only [exec, if_neg he.pred.ne, NonBlockingList.cas]
    split_ifs
    · exact .write (h.setRef pred he.lt) (l := .snipped c pred pn curr) rfl ⟨he, hpn⟩
    · exact .read h (l := .first c pred pn) ⟨he.fits, fun _ => he.pred⟩
  | snipped c pred pn curr =>
    obtain ⟨he, hpn⟩ := hl
    simp only [exec]
    split_ifs
    · exact .read h ⟨he.fits, fun _ => he.pred⟩
    · exact .read h he
  | check c pred curr =>
    simp only [exec]
    split_ifs
    · exact Ended.next h hl
    · exact .read h trivial
  | fill k v n pred curr => exact .write (h.setRef n hl.2.2) rfl hl
  | link k v n pred curr =>
    obtain ⟨hc, hp, hcurr⟩ := hl
    simp only [exec, NonBlockingList.cas]
    split_ifs
    · have h1 := h.setRef pred (r := ⟨.UNMARKED, n⟩) (hc.new n rfl)
      have h2 := h1.1.record (.add k v)
      exact .write (l := .ret _) ⟨h2.1, h1.2.trans h2.2⟩ rfl trivial
    · exact .read h (l := .first _ pred NULL) ⟨hc, fun e => absurd rfl e⟩
  | del1 k pred curr => exact .read h ⟨hl, h.next curr⟩
  | del2 k pred curr cn =>
    simp only [exec]
    split_ifs
    · exact .read h trivial
    · split
      · exact .read h hl
      · exact .read h (hrange hl.1 (.delete k) rfl rfl)
  | del3 k pred curr cn => exact .read h ⟨hl.1, hl.2, h.next curr⟩
  | del4 k pred curr cn np => exact .read h hl
  | del5 k pred curr cn old =>
    obtain ⟨ht, hcn, hold⟩ := hl
    simp only [exec, NonBlockingList.cas]
    split_ifs
    · exact .write (h.setRef curr hold) (l := .del6 k pred curr cn) rfl ⟨ht, hcn⟩
    · exact .read h (l := .first _ pred NULL) (hrange ht (.delete k) rfl rfl)
  | del6 k pred curr cn =>
    obtain ⟨ht, hcn⟩ := hl
    simp only [exec, NonBlockingList.cas]
    split_ifs
    · have h1 := h.setRef pred (r := ⟨.UNMARKED, cn⟩) hcn
      have h2 := h1.1.record (.delete k (vl m curr))
      exact .write (l := .ret _) ⟨h2.1, h1.2.trans h2.2⟩ rfl trivial
    · exact .read h (l := .first _ pred NULL) (hrange ht (.again (ky m curr)) ht.key rfl)

theorem start_knows {op : Op} (h : INT_MIN < op.key ∧ op.key < INT_MAX) : Knows m (start op) := by
  cases op with
  | add k v => exact h
  | delete k | find k => exact ⟨⟨h.1, h.2, fun n e => (nomatch e)⟩, fun e => absurd rfl e⟩

theorem step_safely (h : Bounded m) (hl : Knows m l) (t : ℕ) (a : Act) {o : Loc} (hC : Undisturbed m l a o) :
    Safely m (step t m l a) := by
  cases a with
  | step => exact exec_safely h hl hC
  | invoke op =>
    simp only [step]
    split_ifs with hi
    · have hkey : INT_MIN < op.key ∧ op.key < INT_MAX := by
        simp only [canInvoke, Bool.and_eq_true, decide_eq_true_eq] at hi
        exact hi.2
      exact .read h (start_knows hkey)
    · exact .read h hl

theorem Knows.searchSafe (hl : Knows m l) : SearchSafe m l where
  snip c pred pn curr e := by subst e; exact ⟨hl.2, hl.1.pred.ne⟩
  check c pred curr e := by subst e; exact Before.ne (Ended.pred hl)
  keys c pred curr e := by
    cases l with
    | adjacent c' pred' pn' curr' =>
      simp only [returning] at e
      split_ifs at e
      obtain ⟨rfl, rfl, rfl⟩ : c' = c ∧ pred' = pred ∧ curr' = curr := by simpa using e
      exact ⟨hl.1.pred.key, hl.1.key⟩
    | check c' pred' curr' =>
      simp only [returning] at e
      split_ifs at e
      obtain ⟨rfl, rfl, rfl⟩ : c' = c ∧ pred' = pred ∧ curr' = curr := by simpa using e
      exact ⟨Before.key (Ended.pred hl), Ended.key hl⟩
    | _ => cases e

end Steps

/-! ## Runs -/

theorem init_bounded : Bounded initList := by
  refine ⟨fun a => ?_, by decide, rfl, rfl⟩
  unfold nx ref initList
  dsimp only
  split_ifs <;> decide

/-- **`search` is safe** in every run in which the other threads leave it undisturbed: any number of threads, in every state
reached. -/
theorem search_safe (ls : List (ℕ × Act)) (h : sys.Meets (Sys.Beside Undisturbed) ls) (t : ℕ) :
    SearchSafe (sys.run ls).sh ((sys.run ls).loc t) := by
  have hinv := sys.meets_inv _ (fun s => Bounded s.sh ∧ ∀ t, Knows s.sh (s.loc t)) ⟨init_bounded, fun _ => trivial⟩
    (fun s x hs hC => ?_) ls h
  · exact (hinv.2 t).searchSafe
  · obtain ⟨u, a⟩ := x
    obtain ⟨hb, hk⟩ := hs
    have hstep : Safely s.sh (sys.step u s.sh (s.loc u) a) := step_safely hb (hk u) u a (hC (u + 1) (Nat.succ_ne_self u))
    refine ⟨hstep.bounded, fun v => ?_⟩
    by_cases e : v = u
    · rw [e, Sys.next_loc_self]; exact hstep.knows
    · rw [Sys.next_loc_ne _ _ _ e]; exact hstep.grows.knows (hC v e).2 (hk v)

/-- a find that overlaps a delete of the node before its own: it comes by the marked node and assigns *pred behind it -/
def findBehind : List (ℕ × Act) :=
  callSteps 0 (.add 5 50) 7 ++ callSteps 0 (.add 7 70) 12 ++ callSteps 0 (.add 9 90) 16 ++ callSteps 0 (.delete 7) 15 ++
    callSteps 1 (.find 9) 13

theorem search_safe_findBehind :
    mark (sys.run (findBehind.take 54)).sh 4 = .MARKED ∧
      returning (sys.run findBehind).sh ((sys.run findBehind).loc 1) = some (.find 9, 4, 5) ∧
      SearchSafe (sys.run findBehind).sh ((sys.run findBehind).loc 1) := by
  have hc : sys.Check Undisturbed 2 sys.init findBehind := by decide +kernel
  exact ⟨by decide +kernel, by decide +kernel, search_safe _ (sys.meets_of_check _ hc) 1⟩

/-- key 5 is the first node; a delete has marked it and not unlinked it yet; then find(5) is called -/
def findMarked : List (ℕ × Act) :=
  callSteps 0 (.add 5 50) 7 ++ callSteps 0 (.delete 5) 11 ++ callSteps 1 (.find 5) 6

/-- **`search` follows the NULL of its caller.** -/
theorem pred_unassigned :
    (sys.run findMarked).loc 1 = .snip (.find 5) NULL NULL 3 ∧
      ¬ SearchSafe (sys.run findMarked).sh ((sys.run findMarked).loc 1) := by
  have hl : (sys.run findMarked).loc 1 = .snip (.find 5) NULL NULL 3 := by decide +kernel
  exact ⟨hl, fun h => (h.snip _ _ _ _ hl).1 rfl⟩

end AlgorithmCollection.NonBlockingList
