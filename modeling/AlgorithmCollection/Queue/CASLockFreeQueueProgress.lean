/-
`CASLockFreeQueue` is lock-free.

A thread may repeat the loop of `enq` or `deq` any number of times, but only if other calls take effect meanwhile.
- `dist` bounds the steps a call still takes if the queue stays as it is, by where it is and by whether its copies are
  current: every step of the call brings it nearer to its return or is a cas that succeeds (`exec_nearer`).
- Cas on `q->tail` only help. While no node is linked the tail moves on once at most, and `left` has the steps that a call may
  lose by that.
-/
import AlgorithmCollection.Queue.CASLockFreeQueueCounts

namespace AlgorithmCollection.CASLockFreeQueue

open Conc

/-- the count of `q->head`, `q->tail` and the number of nodes ever linked -/
structure Ends where
  head : ℕ
  tail : Pointer
  size : ℕ

/-- the steps that a copy costs if it is not current -/
def late (current : Prop) [Decidable current] : ℕ := if current then 0 else 10

/-- how many steps a call takes at most to its return or to a cas that succeeds, if the queue stays as it is -/
def dist (q : Ends) : Loc → ℕ
  | .idle | .ret _ _ => 0
  | .enq0 _ => 8
  | .enq1 _ _ => 7
  | .enq2 _ _ c => 6 + late (c = q.tail.count)
  | .enq3 _ _ tail => 5 + late (tail.count = q.tail.count)
  | .enq4 _ _ tail _ => 4 + late (tail.count = q.tail.count)
  | .enq5 _ _ tail next => 3 + late (tail.count = q.tail.count ∧ (next.ptr = NULL → tail.count + 1 = q.size))
  | .enq6 _ _ tail next => 2 + late (tail.count = q.tail.count ∧ (next.ptr = NULL → tail.count + 1 = q.size))
  | .enq7 _ _ tail _ => 1 + late (tail.count + 1 = q.size)
  | .enq8 _ _ tail _ => 1 + late (tail.count = q.tail.count)
  | .enq9 _ _ _ => 1
  | .deq1 => 10
  | .deq2 c => 9 + late (c = q.head)
  | .deq3 head => 8 + late (head.count = q.head)
  | .deq4 head c => 7 + late (head.count = q.head ∧ c = q.tail.count)
  | .deq5 head tail => 6 + late (head.count = q.head ∧ tail = q.tail)
  | .deq6 head tail _ => 5 + late (head.count = q.head ∧ tail = q.tail)
  | .deq7 head tail _ => 4 + late (head.count = q.head ∧ tail = q.tail)
  | .deq8 head tail _ => 3 + late (head.count = q.head ∧ tail = q.tail)
  | .deq9 _ tail _ => 1 + late (tail = q.tail)
  | .deq10 head _ => 2 + late (head.count = q.head)
  | .deq11 head _ _ => 1 + late (head.count = q.head)

theorem dist_lt (q : Ends) (l : Loc) : dist q l < 20 := by
  cases l <;> grind [dist, late]

variable {L : List ℕ} {m : Mem} {l : Loc}

/-- a copy of an end of the queue with the current count is current -/
theorem pointer_eq {a b : Pointer} (ha : L[a.count]? = some a.ptr) (hb : L[b.count]? = some b.ptr)
    (hc : a.count = b.count) : a = b := by
  cases a; cases b
  simp_all

/-- **One step of a call** is a cas that succeeds or brings the call nearer to its return. -/
theorem exec_nearer (h : Inv L m) (ha : Asrt L m l) (hb : queue.Busy l) (hh : (exec m l).1.head.count = m.head.count)
    (ht : (exec m l).1.tail = m.tail) (hn : linkedNode m l .step = none) :
    dist ⟨m.head.count, m.tail, L.length⟩ (exec m l).2 < dist ⟨m.head.count, m.tail, L.length⟩ l := by
  cases l with
  | idle | ret _ _ => obtain ⟨_, ⟨⟩⟩ := hb
  | enq4 v n tail c =>
    -- NULL behind a current tail is behind the last node
    have hlast := fun hc hn => (h.last_of_null (ha.2.1.2.2 hc) hn).1
    grind [dist, exec, late]
  | enq7 v n tail next =>
    have hnext : tail.count + 1 = L.length → (m.node tail.ptr).next = next := fun e => by
      rw [h.next _ _ ha.2.1, succOf_none (by simp [e]), ha.2.2.2]
    grind [dist, exec, linkedNode, late]
  | enq6 v n tail next | enq8 v n tail next =>
    have htail := pointer_eq ha.2.1 h.tail
    grind [dist, exec, late, casTail]
  | deq4 head c =>
    have htail : c = m.tail.count → (⟨c, m.tail.ptr⟩ : Pointer) = m.tail := fun e => by rw [e]
    grind [dist, exec, late]
  | deq9 head tail next =>
    -- the count written is the head's, and head and tail are at the same node
    have hpos := fun e : tail = m.tail => pos_inj h.nodup ha.1 (ha.2.1 ▸ e ▸ h.tail)
    grind [dist, exec, late, casTail]
  | deq8 head _ _ | deq11 head _ _ =>
    have hhead := pointer_eq ha.1 h.head
    grind [dist, exec, late, setHead]
  | _ => grind [dist, exec, late]

/-- `Ends` after a run -/
def ends (ls : List (ℕ × Act)) : Ends := ⟨(sys.run ls).sh.head.count, (sys.run ls).sh.tail, (chain ls).length⟩

/-- one step of a run, of thread t or of another one, by which no cas succeeds -/
theorem dist_snoc {ls : List (ℕ × Act)} {x : ℕ × Act} {t : ℕ} (hb : queue.Busy ((sys.run ls).loc t))
    (hb' : queue.Busy ((sys.run (ls ++ [x])).loc t)) (he : ends (ls ++ [x]) = ends ls) :
    dist (ends ls) ((sys.run (ls ++ [x])).loc t) + (decide (x = (t, .step))).toNat ≤
      dist (ends ls) ((sys.run ls).loc t) := by
  obtain ⟨h, hA, -⟩ := chain_good ls
  obtain ⟨u, a⟩ := x
  rw [Sys.run_snoc] at hb' ⊢
  by_cases htu : t = u
  · subst htu
    rw [Sys.next_loc_self] at hb' ⊢
    cases a with
    | step =>
      simp only [ends, Ends.mk.injEq, chain_snoc, Sys.run_snoc] at he
      rw [decide_eq_true rfl]
      exact exec_nearer h (hA t) hb he.1 he.2.1 (by simpa using he.2.2)
    | invoke op | oom =>
      -- a thread inside a call ignores them, but for the `calloc` of `enq`
      rw [decide_eq_false (by simp)]
      generalize (sys.run ls).loc t = l at *
      cases l <;> first | exact le_rfl | cases hb.choose_spec | cases hb'.choose_spec
  · rw [Sys.next_loc_ne _ _ _ htu]
    simp [Ne.symm htu]

/-- `dist`, and the steps that a call may take after the tail has moved on -/
def left (q : Ends) (l : Loc) : ℕ := dist q l + 20 * (q.size - 1 - q.tail.count)

/-- one step of a run by which no value is linked or taken -/
theorem left_snoc {ls : List (ℕ × Act)} {x : ℕ × Act} {t : ℕ} (hb : queue.Busy ((sys.run ls).loc t))
    (hb' : queue.Busy ((sys.run (ls ++ [x])).loc t)) (he : enqueued (ls ++ [x]) = enqueued ls)
    (hd : dequeued (ls ++ [x]) = dequeued ls) :
    left (ends (ls ++ [x])) ((sys.run (ls ++ [x])).loc t) + (decide (x = (t, .step))).toNat ≤
      left (ends ls) ((sys.run ls).loc t) := by
  obtain ⟨h, hA, -⟩ := chain_good ls
  obtain ⟨L, hg, heff⟩ := step_guar x.1 x.2 h (hA x.1)
  have hchain := (chain_snoc ls x).trans (hg.chain_eq heff).symm
  have hm : (sys.run (ls ++ [x])).sh = (step x.1 (sys.run ls).sh ((sys.run ls).loc x.1) x.2).1 := by
    rw [Sys.run_snoc]; rfl
  rw [← hm] at hg heff
  simp only [enqueued, dequeued, Sys.trace_snoc, List.append_right_eq_self, Option.toList_eq_nil_iff] at he hd
  rcases heff with ⟨rfl, hhead, -⟩ | ⟨v, n, -, -, -, hl, -⟩ | ⟨v, n, -, -, -, -, -, hl⟩
  · by_cases htail : (sys.run (ls ++ [x])).sh.tail = (sys.run ls).sh.tail
    · have hends : ends (ls ++ [x]) = ends ls := by rw [ends, hchain, htail, hhead]; rfl
      have hdist := dist_snoc hb hb' hends
      rw [hends]
      unfold left
      omega
    · -- whatever the call has lost, the tail is nearer to the last node
      have hgt := hg.ext.tail.lt_of_ne' fun e => htail (pointer_eq hg.inv.tail h.tail e)
      have hlt := lt_of_get hg.inv.tail
      have hone := Bool.toNat_le (decide (x = (t, .step)))
      have hdist := dist_lt (ends (ls ++ [x])) ((sys.run (ls ++ [x])).loc t)
      simp only [left, ends, hchain] at hdist ⊢
      omega
  · cases hl.symm.trans he
  · cases hl.symm.trans hd

/-- **Lock-freedom.** In every stretch of a run a thread takes fewer than 40 steps, or at some instant of it the thread is in no
call, or some thread has linked or taken a value. -/
theorem lock_free (ls ls' : List (ℕ × Act)) (t : ℕ) : ls'.countP (fun x => x = (t, .step)) < 40 ∨
    ∃ k ≤ ls'.length, ¬ queue.Busy ((sys.run (ls ++ ls'.take k)).loc t) ∨
      enqueued (ls ++ ls'.take k) ≠ enqueued ls ∨ dequeued (ls ++ ls'.take k) ≠ dequeued ls := by
  rw [or_iff_not_imp_left, not_lt]
  intro hn
  refine comes_within _
    (fun ks => ¬ queue.Busy ((sys.run ks).loc t) ∨ enqueued ks ≠ enqueued ls ∨ dequeued ks ≠ dequeued ls)
    (fun ks => left (ends ks) ((sys.run ks).loc t)) (fun ks x hks hks' => ?_) ls ls' (lt_of_lt_of_le ?_ hn)
  · simp only [not_or, not_not, ne_eq] at hks hks'
    exact left_snoc hks.1 hks'.1 (hks'.2.1.trans hks.2.1.symm) (hks'.2.2.trans hks.2.2.symm)
  · have hdist := dist_lt (ends ls) ((sys.run ls).loc t)
    have hlag := (chain_good ls).1.lag
    simp only [left, ends] at hdist ⊢
    omega

end AlgorithmCollection.CASLockFreeQueue
