/-
`CASLockFreeQueue` is a linearizable FIFO queue.

- `enqueued_eq`: in every run the values linked so far are the values taken so far followed by the contents of the
  queue, all in order. So the values taken are a prefix of the values linked and nothing is lost, duplicated or invented.
- `sawEmpty_run`: a `deq` that is about to return false read `next.ptr == NULL` behind the head node at an instant at
  which the head was still its copy of it, so the queue was empty then.
- `queue_linearizable_fifo`: the whole statement, with linearization points: the cas on `tail.ptr->next`, the cas on `q->head`, and
  for a failing `deq` the load of `head.ptr->next.ptr`.
-/
import AlgorithmCollection.Queue.CASLockFreeQueueInv

namespace AlgorithmCollection.CASLockFreeQueue

open Conc

/-! ## The contents of the queue -/

variable {a : Act} {L : List ℕ} {l : Loc} {m : Mem} {t : ℕ}

/-- the queue holds the values of the nodes behind the head's position -/
theorem contents_eq (h : Inv L m) :
    contents m = (L.drop (m.head.count + 1)).map fun a => (m.node a).val := by
  have hnext : ∀ i a, L[i]? = some a → (m.node a).next.ptr = (L[i + 1]?).getD NULL := fun i a ha => by
    rw [h.next i a ha, succOf_ptr]
  have hlen := length_le_of_lt h.nodup fun a ha => (h.addr a ha).2
  rw [contents, hnext _ _ h.head]
  exact congrArg _ (walk_drop (fun a ha => (h.addr a ha).1.ne') _ (fun i a _ => hnext i a) (by omega))

/-- a step leaves the contents alone, appends the value it links, or removes the value it takes -/
theorem Effect.fifoStep {L' : List ℕ} {m' : Mem} {l' : Loc} (h : Inv L m)
    (hg : Guar L m l L' m' l') (he : Effect L m l L' m' a) :
    FifoStep (contents m) (contents m') (linkEvent m l a) (takeEvent m l a) := by
  have hval : ∀ k, (L.drop k).map (fun a => (m'.node a).val) = (L.drop k).map fun a => (m.node a).val := fun k =>
    List.map_congr_left fun a ha => hg.ext.val a (List.mem_of_mem_drop ha)
  rcases he with ⟨rfl, hh, h1, h2⟩ | ⟨v, n, rfl, hh, hv, h1, h2⟩ | ⟨v, n, rfl, hh, hn, hv, h1, h2⟩
  · exact .inl ⟨by rw [contents_eq h, contents_eq hg.inv, hh, hval], h1, h2⟩
  · refine .inr (.inl ⟨v, ?_, h1, h2⟩)
    have hlt : m.head.count < L.length := lt_of_get h.head
    rw [contents_eq h, contents_eq hg.inv, hh, List.drop_append_of_le_length hlt, List.map_append, hval,
      List.map_singleton, hv]
  · refine .inr (.inr ⟨v, ?_, h1, h2⟩)
    obtain ⟨hlt, hget⟩ := List.getElem?_eq_some_iff.1 hn
    rw [contents_eq h, contents_eq hg.inv, hh, hval, List.drop_eq_getElem_cons hlt, List.map_cons, hget, hv]

/-- one more step of a run -/
theorem contents_snoc (ls : List (ℕ × Act)) (t : ℕ) (a : Act) :
    FifoStep (contents (sys.run ls).sh) (contents (sys.run (ls ++ [(t, a)])).sh)
      (linkEvent (sys.run ls).sh ((sys.run ls).loc t) a) (takeEvent (sys.run ls).sh ((sys.run ls).loc t) a) := by
  obtain ⟨L, h, hA, -⟩ := inv_run ls
  obtain ⟨L', hg, he⟩ := step_guar t a h (hA t)
  rw [Sys.run_snoc, Sys.next_sh]
  exact he.fifoStep h hg

theorem enqueued_eq (ls : List (ℕ × Act)) : enqueued ls = dequeued ls ++ contents (sys.run ls).sh :=
  trace_fifo sys contents linkEvent takeEvent rfl contents_snoc ls

/-! ## The failing `deq` -/

/-- the queue was empty at some instant inside the current call of t -/
def WasEmpty (t : ℕ) (ls : List (ℕ × Act)) : Prop := sys.Since queue.Busy t (fun s => contents s.sh = []) ls

/-- a `deq` that read `next.ptr == NULL` and whose head copy is current saw an empty queue -/
def SawEmpty (t : ℕ) (ls : List (ℕ × Act)) : Prop :=
  match (sys.run ls).loc t with
  | .deq7 head _ next => (sys.run ls).sh.head.count = head.count → next.ptr = NULL → WasEmpty t ls
  | .deq8 _ _ next => next.ptr = NULL → WasEmpty t ls
  | _ => True

/-- a step that leaves the local state of t as it is keeps `SawEmpty`: the head count never returns to an old value -/
theorem sawEmpty_keep {ls : List (ℕ × Act)} {u : ℕ} (h : SawEmpty t ls)
    (hl : (sys.run (ls ++ [(u, a)])).loc t = (sys.run ls).loc t) : SawEmpty t (ls ++ [(u, a)]) := by
  unfold SawEmpty at h ⊢
  rw [hl]
  obtain ⟨L, hI, hA, -⟩ := inv_run ls
  obtain ⟨L', hg, -⟩ := step_guar u a hI (hA u)
  have hAt := hA t
  cases e : (sys.run ls).loc t with
  | deq7 head tail next =>
    rw [e] at h hAt
    intro h1 h2
    refine Sys.Since.snoc (h ?_ h2) ⟨.deq, by rw [hl, e]; rfl⟩
    rw [Sys.run_snoc, Sys.next_sh] at h1
    exact hAt.1.current hg.ext h1
  | deq8 head tail next =>
    rw [e] at h
    exact fun h2 => Sys.Since.snoc (h h2) ⟨.deq, by rw [hl, e]; rfl⟩
  | _ => trivial

theorem contents_nil_of_null (h : Inv L m) (hn : (m.node m.head.ptr).next.ptr = NULL) :
    contents m = [] := by
  rw [contents_eq h, List.drop_eq_nil_of_le (h.last_of_null h.head hn).1.ge, List.map_nil]

/-- the only way to the re-check of the head count is the load of `head.ptr->next.ptr` -/
theorem step_deq7 {head tail next : Pointer}
    (h : (step t m l a).2 = .deq7 head tail next) :
    l = .deq7 head tail next ∨
      ∃ c, a = .step ∧ l = .deq6 head tail c ∧ next = ⟨c, (m.node head.ptr).next.ptr⟩ := by
  cases a with
  | invoke op =>
    simp only [step] at h
    split_ifs at h
    · cases op <;> cases h
    · exact .inl h
  | oom =>
    simp only [step] at h
    split at h
    · cases h
    · exact .inl h
  | step =>
    cases l
    case deq6 head tail c => cases h; exact .inr ⟨c, rfl, rfl, rfl⟩
    all_goals first
      | cases h
      | (simp only [step, exec] at h; split_ifs at h)

/-- the only way to the re-check of the head pointer is a passed re-check of the count -/
theorem step_deq8 {head tail next : Pointer}
    (h : (step t m l a).2 = .deq8 head tail next) :
    l = .deq8 head tail next ∨ (l = .deq7 head tail next ∧ m.head.count = head.count) := by
  cases a with
  | invoke op =>
    simp only [step] at h
    split_ifs at h
    · cases op <;> cases h
    · exact .inl h
  | oom =>
    simp only [step] at h
    split at h
    · cases h
    · exact .inl h
  | step =>
    cases l
    case deq7 head tail next =>
      simp only [step, exec] at h
      split_ifs at h with hc
      cases h
      exact .inr ⟨rfl, hc.symm⟩
    all_goals first
      | cases h
      | (simp only [step, exec] at h; split_ifs at h)

/-- **Every failing `deq` saw an empty queue**: the invariant over runs -/
theorem sawEmpty_run (ls : List (ℕ × Act)) (t : ℕ) : SawEmpty t ls := by
  induction ls using List.reverseRecOn with
  | nil => trivial
  | append_singleton ls x ih =>
    obtain ⟨u, a⟩ := x
    by_cases hu : t = u
    swap
    · exact sawEmpty_keep ih (by rw [Sys.run_snoc, Sys.next_loc_ne sys _ _ hu])
    subst hu
    have hl : (sys.run (ls ++ [(t, a)])).loc t = (step t (sys.run ls).sh ((sys.run ls).loc t) a).2 := by
      rw [Sys.run_snoc, Sys.next_loc_self]; rfl
    obtain ⟨L, hI, hA, -⟩ := inv_run ls
    have hAt := hA t
    cases e : (sys.run (ls ++ [(t, a)])).loc t with
    | deq7 head tail next =>
      rcases step_deq7 (hl.symm.trans e) with h6 | ⟨c, rfl, h6, rfl⟩
      · exact sawEmpty_keep ih (e.trans h6.symm)
      · -- the load itself: if the head copy is current now, its node is the head node and it is the last one
        rw [h6] at hAt
        have hm : (sys.run (ls ++ [(t, .step)])).sh = (sys.run ls).sh := by
          rw [Sys.run_snoc, Sys.next_sh]; simp only [h6]; rfl
        unfold SawEmpty
        rw [e]
        intro h1 h2
        refine Sys.Since.now ⟨.deq, by rw [e]; rfl⟩ ?_
        rw [hm] at h1 ⊢
        have hptr : (sys.run ls).sh.head.ptr = head.ptr := by
          have h3 := hAt.1.2.2 h1
          rw [← h1, hI.head] at h3
          exact Option.some.inj h3
        exact contents_nil_of_null hI (by rw [hptr]; exact h2)
    | deq8 head tail next =>
      rcases step_deq8 (hl.symm.trans e) with h7 | ⟨h7, hc⟩
      · exact sawEmpty_keep ih (e.trans h7.symm)
      · unfold SawEmpty at ih ⊢
        rw [h7] at ih
        rw [e]
        exact fun h2 => Sys.Since.snoc (ih hc h2) ⟨.deq, by rw [e]; rfl⟩
    | _ => unfold SawEmpty; rw [e]; trivial

/-! ## Linearization points -/

/-- after its node is linked, an `enq` is committed to returning true -/
def committed : Loc → Option Res
  | .enq9 _ _ _ => some (.enq true)
  | _ => none

/-- the kinds of steps inside a call, by what they do to the queue -/
inductive ExecKind (m : Mem) (l : Loc) : Op → Prop where
  | quiet (op : Op) : linkEvent m l .step = none → takeEvent m l .step = none →
      status (exec m l).2 = .busy op → committed (exec m l).2 = none → committed l = none → ExecKind m l op
  | link (v : ℤ) : linkEvent m l .step = some v → takeEvent m l .step = none → committed l = none →
      status (exec m l).2 = .busy (.enq v) → committed (exec m l).2 = some (.enq true) → ExecKind m l (.enq v)
  | enqRet (v : ℤ) : linkEvent m l .step = none → takeEvent m l .step = none → committed l = some (.enq true) →
      status (exec m l).2 = .done (.enq v) (.enq true) → ExecKind m l (.enq v)
  | take (v : ℤ) : linkEvent m l .step = none → takeEvent m l .step = some v → committed l = none →
      status (exec m l).2 = .done .deq (.deq (some v)) → ExecKind m l .deq
  | deqFail (head tail next : Pointer) : linkEvent m l .step = none → takeEvent m l .step = none → committed l = none →
      l = .deq8 head tail next → next.ptr = NULL → status (exec m l).2 = .done .deq (.deq none) → ExecKind m l .deq

theorem exec_kind {op : Op} (hb : status l = .busy op) : ExecKind m l op := by
  cases l with
  | idle | ret _ _ => cases hb
  | enq5 v n tail next | enq6 v n tail next | deq7 head tail next =>
    cases hb; refine .quiet _ rfl rfl ?_ ?_ rfl <;> simp only [exec] <;> split_ifs <;> rfl
  | enq7 v n tail next =>
    cases hb
    by_cases e : (m.node tail.ptr).next = next
    · exact .link v (by simp [linkEvent, e]) rfl rfl (by simp [exec, e, status]) (by simp [exec, e, committed])
    · exact .quiet _ (by simp [linkEvent, e]) rfl (by simp [exec, e, status]) (by simp [exec, e, committed]) rfl
  | enq9 v n tail => cases hb; exact .enqRet v rfl rfl rfl rfl
  | deq8 head tail next =>
    cases hb
    by_cases h : head.ptr = m.head.ptr ∧ head.ptr = tail.ptr ∧ next.ptr = NULL
    · refine .deqFail head tail next rfl rfl rfl rfl h.2.2 ?_
      simp only [exec, if_pos h.1, if_pos h.2.1, if_pos h.2.2]; rfl
    · refine .quiet _ rfl rfl ?_ ?_ rfl <;> simp only [exec] <;> split_ifs <;> first | rfl | tauto
  | deq11 head next v =>
    cases hb
    by_cases e : m.head = head
    · exact .take v rfl (by simp [takeEvent, e]) rfl (by simp [exec, e, status])
    · exact .quiet _ rfl (by simp [takeEvent, e]) (by simp [exec, e, status]) (by simp [exec, e, committed]) rfl
  | _ => cases hb; exact .quiet _ rfl rfl rfl rfl rfl

theorem not_busy_of_canInvoke (h : canInvoke l) : ¬ queue.Busy l := by
  rintro ⟨op, hop⟩
  cases l with
  | idle | ret _ _ => cases hop
  | _ => cases h

theorem loc_snoc (ls : List (ℕ × Act)) (t : ℕ) (a : Act) :
    (sys.run (ls ++ [(t, a)])).loc t = (step t (sys.run ls).sh ((sys.run ls).loc t) a).2 := by
  rw [Sys.run_snoc, Sys.next_loc_self]; rfl

/-- **Every step is of one of the kinds.** -/
theorem lpStep (ls : List (ℕ × Act)) (t : ℕ) (a : Act) : queue.LPStep sys (fun _ => committed) ls t a := by
  have hl := loc_snoc ls t a
  obtain ⟨l, hl0⟩ : ∃ l, (sys.run ls).loc t = l := ⟨_, rfl⟩
  rw [hl0] at hl
  cases a with
  | invoke op =>
    have hv := (contents_snoc ls t (.invoke op)).quiet rfl rfl
    by_cases hc : canInvoke l
    · refine .outside (by rw [hl0]; exact not_busy_of_canInvoke hc) hv fun _ => ?_
      rw [hl]; simp only [step, hc, if_true]
      cases op <;> rfl
    · exact Object.lpStep_stutter (by rw [hl, hl0]; simp [step, hc]) (by rw [Sys.run_snoc, Sys.next_sh]; rfl)
  | oom =>
    have hv := (contents_snoc ls t .oom).quiet rfl rfl
    cases l with
    | enq0 v =>
      have hb : queue.status ((sys.run ls).loc t) = .busy (.enq v) := by rw [hl0]; rfl
      exact .ret (.enq v) (.enq false) hb hv (by rw [hl]; rfl) (.inr ⟨by rw [hl0]; rfl, Sys.Since.now ⟨_, hb⟩ rfl⟩)
    | _ => exact Object.lpStep_stutter (by rw [hl, hl0]; rfl) (by rw [Sys.run_snoc, Sys.next_sh, hl0]; rfl)
  | step =>
    cases hs : status l with
    | idle
    | done op r =>
      cases l <;> cases hs; exact Object.lpStep_stutter (by rw [hl, hl0]; rfl) (by rw [Sys.run_snoc, Sys.next_sh, hl0]; rfl)
    | busy op =>
      have hb : queue.status ((sys.run ls).loc t) = .busy op := hl0 ▸ hs
      have hc := contents_snoc ls t .step
      simp only [hl0] at hc
      cases exec_kind (m := (sys.run ls).sh) hs with
      | quiet _ h1 h2 h3 h4 h5 => exact .inside op hb (hc.quiet h1 h2) (hl ▸ h3) ((hl ▸ h4).trans (hl0 ▸ h5).symm)
      | enqRet v h1 h2 h3 h4 => exact .ret _ _ hb (hc.quiet h1 h2) (hl ▸ h4) (.inl (hl0 ▸ h3))
      | link v h1 h2 h3 h4 h5 =>
        exact .commit _ (.enq true) hb (hl0 ▸ h3) (hc.link_ne h1) (hc.link h1) (hl ▸ h4) (hl ▸ h5)
      | take v h1 h2 h3 h4 => exact .commitRet _ (.deq (some v)) hb (hl0 ▸ h3) (hc.take_ne h2) (hc.take h2) (hl ▸ h4)
      | deqFail head tail next h1 h2 h3 h4 h5 h6 =>
        refine .ret _ (.deq none) hb (hc.quiet h1 h2) (hl ▸ h6) (.inr ⟨hl0 ▸ h3, ?_⟩)
        have hsaw := sawEmpty_run ls t
        unfold SawEmpty at hsaw
        rw [hl0, h4] at hsaw
        exact (hsaw h5).imp fun k _ hk => ⟨hk, rfl⟩

theorem queue_linearizable : queue.Linearizable sys :=
  Object.linearizable_of_lpStep (fun ⟨_, h⟩ => by cases h) (fun _ _ _ _ _ _ => rfl) lpStep

/-- a value is taken exactly by the step at which a `deq` returns it -/
theorem takeEvent_iff (ls : List (ℕ × Act)) (t : ℕ) (a : Act) (v : ℤ) :
    takeEvent (sys.run ls).sh ((sys.run ls).loc t) a = some v ↔
      status ((sys.run ls).loc t) = .busy .deq ∧
        status ((sys.run (ls ++ [(t, a)])).loc t) = .done .deq (.deq (some v)) := by
  rw [loc_snoc]
  generalize (sys.run ls).loc t = l
  generalize (sys.run ls).sh = m
  constructor
  · intro h
    cases a <;> cases l <;> try cases h
    case step.deq11 head next w =>
      simp only [takeEvent] at h
      split_ifs at h with e
      cases h
      exact ⟨rfl, by simp [step, exec, e, status]⟩
  · rintro ⟨h1, h2⟩
    cases a with
    | invoke op =>
      have hc : canInvoke l = false := by
        by_contra hc
        exact not_busy_of_canInvoke (by simpa using hc) ⟨_, h1⟩
      simp only [step, hc, Bool.false_eq_true, if_false] at h2
      rw [h1] at h2; cases h2
    | oom =>
      simp only [step] at h2
      split at h2
      · cases h1
      · rw [h1] at h2; cases h2
    | step =>
      cases exec_kind (m := m) h1 with
      | quiet _ _ _ h3 => rw [show step t m l .step = exec m l from rfl, h3] at h2; cases h2
      | take w _ h3 _ h4 =>
        rw [show step t m l .step = exec m l from rfl, h4] at h2
        cases h2; exact h3
      | deqFail _ _ _ _ _ _ _ _ h4 =>
        rw [show step t m l .step = exec m l from rfl, h4] at h2
        cases h2

/-- **The queue is a linearizable FIFO queue.** For any number of threads and any interleaving: every call takes effect
at one instant inside it as on a sequential queue; the values taken, in the order of their cas on `q->head`, are a
prefix of the values linked, in the order of their cas on `tail.ptr->next`, and the rest are the contents; the
values taken are exactly the ones `deq` calls return; and a `deq` that returns false has an instant inside the call at
which every linked value had been taken. -/
theorem queue_linearizable_fifo :
    queue.Linearizable sys ∧ ∀ ls : List (ℕ × Act),
      dequeued ls <+: enqueued ls ∧ enqueued ls = dequeued ls ++ contents (sys.run ls).sh ∧
      (∀ t a v, takeEvent (sys.run ls).sh ((sys.run ls).loc t) a = some v ↔
        status ((sys.run ls).loc t) = .busy .deq ∧
          status ((sys.run (ls ++ [(t, a)])).loc t) = .done .deq (.deq (some v))) ∧
      ∀ t a, status ((sys.run ls).loc t) = .busy .deq →
        status ((sys.run (ls ++ [(t, a)])).loc t) = .done .deq (.deq none) →
        ∃ k ≤ ls.length, dequeued (ls.take k) = enqueued (ls.take k) ∧
          ∀ j, k ≤ j → j ≤ ls.length → queue.Busy ((sys.run (ls.take j)).loc t) := by
  refine ⟨queue_linearizable, fun ls => ⟨⟨_, (enqueued_eq ls).symm⟩, enqueued_eq ls, takeEvent_iff ls, ?_⟩⟩
  intro t a hb hd
  -- the call changed nothing and was right about an empty queue at some instant
  rcases queue_linearizable.ret ls t a .deq (.deq none) hb hd with ⟨k, hk, hspec⟩ | ⟨-, k, hk, hempty, hin⟩
  · have hmem : k ∈ queue.Changes sys (ls ++ [(t, a)]) t := by rw [hk]; rfl
    exact absurd hspec.2 hmem.2.2.1
  · refine ⟨k, hk, ?_, hin⟩
    rw [enqueued_eq, show contents (sys.run (ls.take k)).sh = [] from hempty.1, List.append_nil]

end AlgorithmCollection.CASLockFreeQueue
