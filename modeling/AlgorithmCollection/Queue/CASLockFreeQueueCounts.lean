/-
The counters of `CASLockFreeQueue` index the chain of its nodes.

`chain` is read off the run: the dummy node of `init_queue`, then the node of every successful cas on `tail.ptr->next`, in
the order of these steps. `chain_good` says that the ghost list of the invariant is this list, and `run_ext` that the
chain and both counters only grow along a run. `counts_index_chain` puts together what the re-checks of `enq` and `deq`
rest on: the counts are the positions of the nodes they stand beside, the tail is at or before the last node and at most
one node behind it, the head is not ahead of the tail, the count `deq` writes into `q->tail` is the right one although it
is computed from the head's, and the node whose value `deq` reads is never NULL.
-/
import AlgorithmCollection.Queue.CASLockFreeQueueInv

namespace AlgorithmCollection.CASLockFreeQueue

open Conc

/-! ## The chain of nodes ever linked -/

/-- the node linked by this step, if it is a successful `cas` on `tail.ptr->next` -/
def linkedNode (m : Mem) (l : Loc) (a : Act) : Option ℕ :=
  match a, l with
  | .step, .enq7 _ n tail next => if (m.node tail.ptr).next = next then some n else none
  | _, _ => none

/-- the dummy node and the nodes linked in a run, in the order in which they were linked -/
def chain (ls : List (ℕ × Act)) : List ℕ := 1 :: sys.trace linkedNode ls

/-- the position of a node in the chain; the dummy node is at 0 -/
def position (ls : List (ℕ × Act)) (p : ℕ) : ℕ := (chain ls).idxOf p

/-- the node linked last -/
def last (ls : List (ℕ × Act)) : ℕ := (chain ls).getLast (List.cons_ne_nil _ _)

theorem chain_snoc (ls : List (ℕ × Act)) (x : ℕ × Act) :
    chain (ls ++ [x]) = chain ls ++ (linkedNode (sys.run ls).sh ((sys.run ls).loc x.1) x.2).toList := by
  unfold chain
  rw [Sys.trace_snoc, List.cons_append]

/-- a step that links a value links the node its thread owns, and no other step links a node -/
theorem linkedNode_eq {m : Mem} {l : Loc} {a : Act} :
    linkedNode m l a = if (linkEvent m l a).isSome then owns l else none := by
  cases a with
  | step =>
    cases l with
    | enq7 v n tail next =>
      by_cases h : (m.node tail.ptr).next = next
      · simp [linkedNode, linkEvent, h, owns]
      · simp [linkedNode, linkEvent, h]
    | _ => rfl
  | _ => rfl

/-- the chain after a step is the chain before it and the node the step links -/
theorem Guar.chain_eq {L L' : List ℕ} {m m' : Mem} {l l' : Loc} {a : Act} (hg : Guar L m l L' m' l')
    (he : Effect L m l L' m' a) : L' = L ++ (linkedNode m l a).toList := by
  rw [linkedNode_eq]
  rcases he with ⟨rfl, -, hl, -⟩ | ⟨v, n, rfl, -, -, hl, -⟩ | ⟨v, n, rfl, -, -, -, hl, -⟩
  · rw [hl]
    exact (List.append_nil _).symm
  · have hn : n ∉ L := (List.disjoint_of_nodup_append hg.inv.nodup · (List.mem_singleton_self n))
    rw [hl, hg.linked n (List.mem_append_right _ (List.mem_singleton_self n)) hn]
    rfl
  · rw [hl]
    exact (List.append_nil _).symm

/-- one more step of a run, with the chain of the run as the ghost -/
theorem step_chain {ls : List (ℕ × Act)} (h : Inv (chain ls) (sys.run ls).sh)
    (hA : ∀ t, Asrt (chain ls) (sys.run ls).sh ((sys.run ls).loc t)) (x : ℕ × Act) :
    Guar (chain ls) (sys.run ls).sh ((sys.run ls).loc x.1) (chain (ls ++ [x])) (sys.run (ls ++ [x])).sh
      ((sys.run (ls ++ [x])).loc x.1) := by
  obtain ⟨t, a⟩ := x
  obtain ⟨L', hg, he⟩ := step_guar t a h (hA t)
  obtain rfl := (hg.chain_eq he).trans (chain_snoc ls (t, a)).symm
  rw [Sys.run_snoc, Sys.next_loc_self]
  exact hg

/-- **The ghost of the invariant is the chain of the run.** -/
theorem chain_good (ls : List (ℕ × Act)) :
    Inv (chain ls) (sys.run ls).sh ∧ (∀ t, Asrt (chain ls) (sys.run ls).sh ((sys.run ls).loc t)) ∧
      ∀ t u, t ≠ u → Disj ((sys.run ls).loc t) ((sys.run ls).loc u) := by
  induction ls using List.reverseRecOn with
  | nil => exact ⟨inv_init, fun _ => trivial, nofun⟩
  | append_singleton ls x ih =>
    obtain ⟨h, hA, hD⟩ := ih
    have hg := step_chain h hA x
    obtain ⟨t, a⟩ := x
    rw [Sys.run_snoc, Sys.next_loc_self] at hg
    obtain ⟨hA', hO⟩ := hg.others
    rw [Sys.run_snoc]
    exact ⟨hg.inv, Sys.next_parts sys (fun L _ => Asrt L) Disj hD hA' fun u hu =>
      hO u _ hu (hA u) (hD t u (Ne.symm hu)) (hD u t hu)⟩

/-! ## Positions and counts -/

/-- what holds between the states of a run and those of a longer one -/
theorem run_ext (ls ls' : List (ℕ × Act)) : chain ls <+: chain (ls ++ ls') ∧
    (sys.run ls).sh.head.count ≤ (sys.run (ls ++ ls')).sh.head.count ∧
    (sys.run ls).sh.tail.count ≤ (sys.run (ls ++ ls')).sh.tail.count := by
  induction ls' using List.reverseRecOn with
  | nil => rw [List.append_nil]; exact ⟨List.prefix_refl _, le_rfl, le_rfl⟩
  | append_singleton ls' x ih =>
    obtain ⟨h1, h2, h3⟩ := ih
    obtain ⟨h, hA, -⟩ := chain_good (ls ++ ls')
    have he := (step_chain h hA x).ext
    rw [← List.append_assoc]
    exact ⟨h1.trans he.grows, h2.trans he.head, h3.trans he.tail⟩

theorem position_eq {ls : List (ℕ × Act)} {i p : ℕ} (h : (chain ls)[i]? = some p) : position ls p = i := by
  obtain ⟨hlt, rfl⟩ := List.getElem?_eq_some_iff.1 h
  exact (chain_good ls).1.nodup.idxOf_getElem i hlt

theorem position_last (ls : List (ℕ × Act)) : position ls (last ls) = (chain ls).length - 1 := by
  refine position_eq ?_
  rw [last, ← List.getLast?_eq_getElem?]
  exact List.getLast?_eq_some_getLast _

/-- **The counters index the chain.** In every reachable state: the chain has no node twice and is what the `next` fields
link, with NULL behind the last node; `q->head.count` and `q->tail.count` are the positions of `q->head.ptr` and
`q->tail.ptr`, in the order head, tail, last, with at most one node behind the tail; where the cas of `deq` on `q->tail`
succeeds, the count it writes is the position of the node it writes and one more than the count it replaces; neither count
ever decreases; and where `deq` reads `next.ptr->val`, and from there to its cas on `q->head`, `next.ptr` is not NULL. -/
theorem counts_index_chain (ls : List (ℕ × Act)) :
    (chain ls).Nodup ∧
    (∀ i p, (chain ls)[i]? = some p → ((sys.run ls).sh.node p).next.ptr = (chain ls)[i + 1]?.getD NULL) ∧
    ((sys.run ls).sh.head.ptr ∈ chain ls ∧ (sys.run ls).sh.head.count = position ls (sys.run ls).sh.head.ptr) ∧
    ((sys.run ls).sh.tail.ptr ∈ chain ls ∧ (sys.run ls).sh.tail.count = position ls (sys.run ls).sh.tail.ptr) ∧
    (position ls (sys.run ls).sh.head.ptr ≤ position ls (sys.run ls).sh.tail.ptr ∧
      position ls (sys.run ls).sh.tail.ptr ≤ position ls (last ls) ∧
      position ls (last ls) ≤ position ls (sys.run ls).sh.tail.ptr + 1) ∧
    (∀ t head tail next, (sys.run ls).loc t = .deq9 head tail next → (sys.run ls).sh.tail = tail →
      next.ptr ∈ chain ls ∧ head.count + 1 = position ls next.ptr ∧ head.count + 1 = tail.count + 1) ∧
    (∀ ls', (sys.run ls).sh.head.count ≤ (sys.run (ls ++ ls')).sh.head.count ∧
      (sys.run ls).sh.tail.count ≤ (sys.run (ls ++ ls')).sh.tail.count) ∧
    ∀ t head next, ((sys.run ls).loc t = .deq10 head next ∨ ∃ v, (sys.run ls).loc t = .deq11 head next v) →
      next.ptr ≠ NULL := by
  obtain ⟨h, hA, -⟩ := chain_good ls
  have hhead := position_eq h.head
  have htail := position_eq h.tail
  have hlast := position_last ls
  have hlt : (sys.run ls).sh.tail.count < (chain ls).length := lt_of_get h.tail
  refine ⟨h.nodup, ?_, ⟨mem_of_get h.head, hhead.symm⟩, ⟨mem_of_get h.tail, htail.symm⟩, ?_, ?_, ?_, ?_⟩
  · intro i p hp
    rw [h.next i p hp, succOf_ptr]
  · have hle := h.head_le
    have hlag := h.lag
    rw [hhead, htail, hlast]
    omega
  · intro t head tail next hl ht
    have ha := hA t
    rw [hl] at ha
    -- the tail read is the current one and the same node as the head read, so their counts agree
    have hpos := h.tail
    rw [ht, ha.2.1] at hpos
    exact ⟨mem_of_get ha.2.2, (position_eq ha.2.2).symm, by rw [pos_inj h.nodup ha.1 hpos]⟩
  · intro ls'
    exact (run_ext ls ls').2
  · intro t head next hl
    have ha := hA t
    have hn : next.ptr ∈ chain ls := by
      rcases hl with hl | ⟨v, hl⟩
      · rw [hl] at ha
        exact mem_of_get ha.2.1
      · rw [hl] at ha
        exact mem_of_get ha.2.1
    exact (h.addr _ hn).1.ne'

end AlgorithmCollection.CASLockFreeQueue
