/-
`NonBlockingList` used by one thread is a finite map.

With no other thread in a call the chain is sorted and unmarked (`Core` with no node between the two cas of its delete), so
of the three ways out of `search` only the first is taken: every node behind t is unmarked, *pred follows one node behind,
and the loop ends with pred_next == curr (`search_path`, by induction on the nodes to go). The writes of the traversal
store the mark that is there, and both cas of `delete` and the cas of `add` succeed at once.

`Returns m op m' r`: the thread goes from the start of the call to its return without a failed assertion and without
following NULL (`abort`). `one_thread_map`: every sequence of calls.
-/
import AlgorithmCollection.Conc.Calls
import AlgorithmCollection.Conc.Solo
import AlgorithmCollection.Conc.Tower
import AlgorithmCollection.List.NonBlockingListUpdates

namespace AlgorithmCollection.NonBlockingList

open Conc
open Function (update update_self update_of_ne)

/-! ## Calls and the map -/

/-- the steps of a thread that runs alone, as far as it is not stopped -/
abbrev Alone : Mem × Loc → Mem × Loc → Prop := Path (fun x => exec x.1 x.2) fun x => x.2 ≠ .abort

/-- the call returns r and leaves m' -/
def Returns (m : Mem) (op : Op) (m' : Mem) (r : Res) : Prop := Alone (m, start op) (m', .ret r)

/-- what a call does to the map, and its result -/
def mapStep (M : ℤ → Option ℤ) : Op → (ℤ → Option ℤ) × Res
  | .add k v => mapAdd .add M k v
  | .delete k => mapDelete .delete M k
  | .find k => (M, .find (M k).isSome)

/-- the chain from head has strictly increasing keys and ends at tail, its links are unmarked, and it holds the pairs of
the map -/
structure IsMap (m : Mem) (M : ℤ → Option ℤ) : Prop where
  linked : (head :: (nodes m ++ [tail])).IsChain fun x y => nx m x = y
  sorted : (head :: (nodes m ++ [tail])).Pairwise fun x y => ky m x < ky m y
  unmarked : ∀ a ∈ head :: (nodes m ++ [tail]), mark m a = .UNMARKED
  holds : ∀ k v, (∃ a ∈ nodes m, ky m a = k ∧ vl m a = v) ↔ M k = some v

/-! ## The search -/

section Search

variable {m : Mem} {S : Finset ℕ} {M : ℤ → Option ℤ} {c : Caller} {k : ℤ} {q : ℕ}

/-- the search has ended behind q -/
abbrev Stops (m : Mem) (S : Finset ℕ) (k : ℤ) (q : ℕ) : Prop := Around (nx m) (ky m) tail S k q

variable (h : Core m S M none)

include h

/-- **The loop of `search`** from a node below the key. -/
theorem advance_path (hk : c.key < INT_MAX) (f p pn : ℕ) {t : ℕ} (ht : Below m S c.key t)
    (hf : (Chain.from_ S (ky m) t).card ≤ f) :
    ∃ q, Alone (m, .advance c p pn t (nx m t)) (m, .adjacent c q (nx m q) (nx m q)) ∧ Stops m S c.key q := by
  induction f generalizing t p pn with
  | zero =>
    have hpos : 0 < (Chain.from_ S (ky m) t).card := Finset.card_pos.2 ⟨t, Finset.mem_filter.2 ⟨ht.mem, le_rfl⟩⟩
    omega
  | succ f ih =>
    have hn := h.chain.next_mem t ht.mem ht.ne
    have h1 : exec m (.advance c p pn t (nx m t)) = (m, .unmark c t (nx m t) (nx m t)) := by
      simp only [exec, if_neg (h.addr _ hn).1, h.unmarked hn]
    have h2 : exec m (.unmark c t (nx m t) (nx m t)) =
        (m, if nx m t = tail then .adjacent c t (nx m t) (nx m t) else .load c t (nx m t) (nx m t)) := by
      simp only [exec, unmark_eq (h.unmarked hn)]
    by_cases e : nx m t = tail
    · rw [if_pos e] at h2
      refine ⟨t, .cons (by simp) h1 (.cons (by simp) h2 .refl), ht.mem, ht.ne, ht.lt, ?_⟩
      rw [e, h.high]
      exact hk.le
    · rw [if_neg e] at h2
      have hnn := h.chain.next_mem _ hn e
      have h3 : exec m (.load c t (nx m t) (nx m t)) = (m, .test c t (nx m t) (nx m t) (nx m (nx m t))) := rfl
      by_cases hlt : ky m (nx m t) < c.key
      · have h4 : exec m (.test c t (nx m t) (nx m t) (nx m (nx m t))) =
            (m, .advance c t (nx m t) (nx m t) (nx m (nx m t))) := by
          simp only [exec, if_pos hlt]
        have hcard := h.chain.card_next ht.mem ht.ne
        obtain ⟨q, hq, hs⟩ := ih t (nx m t) (t := nx m t) ⟨hn, e, hlt⟩ (by omega)
        exact ⟨q, .cons (by simp) h1 (.cons (by simp) h2 (.cons (by simp) h3 (.cons (by simp) h4 hq))), hs⟩
      · have h4 : exec m (.test c t (nx m t) (nx m t) (nx m (nx m t))) = (m, .adjacent c t (nx m t) (nx m t)) := by
          simp only [exec, if_neg hlt, if_neg (h.addr _ hnn).1, h.unmarked hnn]
        exact ⟨t, .cons (by simp) h1 (.cons (by simp) h2 (.cons (by simp) h3 (.cons (by simp) h4 .refl))),
          ht.mem, ht.ne, ht.lt, not_lt.1 hlt⟩

/-- **`search`** leaves the memory as it is and returns the two nodes around the key. -/
theorem search_path (hk : INT_MIN < c.key ∧ c.key < INT_MAX) (p pn : ℕ) :
    ∃ q, Alone (m, .first c p pn) (c.next m q (nx m q)) ∧ Stops m S c.key q := by
  have hlow : ky m head < c.key := by rw [h.low]; exact hk.1
  obtain ⟨q, hq, hs⟩ := advance_path h hk.2 m.fresh p pn
    ⟨h.chain.head_mem, Core.head_ne_tail, hlow⟩ (Chain.card_from_le _ (fun a ha => (h.addr a ha).2) _)
  refine ⟨q, .cons (by simp) rfl (hq.trans (.cons (by simp) ?_ .refl)), hs⟩
  have hm := h.unmarked (h.chain.next_mem q hs.mem hs.ne)
  simp only [exec, if_true, hm, reduceCtorEq, and_false, if_false]

theorem Core.next_ne_tail (hk : k < INT_MAX) (e : ky m (nx m q) = k) : nx m q ≠ tail := fun e' => by
  rw [e', h.high] at e
  exact absurd hk (not_lt.2 e.le)

/-- the node behind q decides -/
theorem Core.hit (hk : k < INT_MAX) (hs : Stops m S k q) (e : ky m (nx m q) = k) : M k = some (vl m (nx m q)) := by
  rw [← e]
  exact h.rep.holds (Finset.mem_erase.2 ⟨h.next_ne_tail hk e,
    Finset.mem_erase.2 ⟨h.chain.next_ne_head hs.mem hs.ne, h.chain.next_mem q hs.mem hs.ne⟩⟩)

theorem Core.miss (hs : Stops m S k q) (e : ky m (nx m q) ≠ k) : M k = none :=
  h.rep.absent fun _ ha =>
    h.chain.not_between hs.mem hs.ne hs.lt (lt_of_le_of_ne hs.le e.symm)
      (Finset.mem_of_mem_erase (Finset.mem_of_mem_erase ha))

end Search

/-! ## The calls -/

section Calls

variable {m : Mem} {S : Finset ℕ} {M : ℤ → Option ℤ} {k v : ℤ}

variable (h : Core m S M none)

include h

theorem find_returns (hk : INT_MIN < k ∧ k < INT_MAX) : Returns m (.find k) m (.find (M k).isSome) := by
  obtain ⟨q, hq, hs⟩ := search_path (c := .find k) h hk NULL NULL
  change Stops m S k q at hs
  have hres : (Caller.find k).next m q (nx m q) = (m, .ret (.find (M k).isSome)) := by
    by_cases e : ky m (nx m q) = k
    · rw [h.hit hk.2 hs e]
      simp [Caller.next, e, h.next_ne_tail hk.2 e]
    · rw [h.miss hs e]
      simp [Caller.next, e]
  rw [hres] at hq
  exact hq

theorem add_returns (hk : INT_MIN < k ∧ k < INT_MAX) (v : ℤ) :
    ∃ m' S', Returns m (.add k v) m' (mapStep M (.add k v)).2 ∧ Core m' S' (mapStep M (.add k v)).1 none := by
  obtain ⟨h1, -, ho⟩ := h.create k v none
  obtain ⟨q, hq, hs⟩ := search_path (c := .add k v m.fresh) h1 hk NULL NULL
  change Stops (createNode m k v) S k q at hs
  have hstart : Alone (m, start (.add k v)) (createNode m k v, .first (.add k v m.fresh) NULL NULL) :=
    .cons (by simp [start]) rfl .refl
  have hsearch := hstart.trans hq
  have hcond : ky (createNode m k v) q < k ∧ k ≤ ky (createNode m k v) (nx (createNode m k v) q) := ⟨hs.lt, hs.le⟩
  by_cases e : ky (createNode m k v) (nx (createNode m k v) q) = k
  · have hstep : mapStep M (.add k v) = (M, .add false) := by simp [mapStep, mapAdd, h1.hit hk.2 hs e]
    rw [hstep]
    refine ⟨_, S, ?_, h1⟩
    simp only [Caller.next, if_pos hcond, if_pos (And.intro (h1.next_ne_tail hk.2 e) e)] at hsearch
    exact hsearch
  · have hstep : mapStep M (.add k v) = (update M k (some v), .add true) := by simp [mapStep, mapAdd, h1.miss hs e]
    rw [hstep]
    simp only [Caller.next, if_pos hcond, if_neg (fun hc => e hc.2 : ¬(_ ∧ _))] at hsearch
    -- the new node is filled in and linked
    obtain ⟨h2, -⟩ := h1.fill ho.notMem ⟨.UNMARKED, nx (createNode m k v) q⟩
    have hqn : q ≠ m.fresh := fun e' => ho.notMem (e' ▸ hs.mem)
    have hown : Own (setRef (createNode m k v) m.fresh ⟨.UNMARKED, nx (createNode m k v) q⟩) S k v m.fresh :=
      ⟨ho.ne, ho.lt, ho.notMem, by rw [ky_setRef]; exact ho.key, by rw [vl_setRef]; exact ho.val⟩
    have hrefq : ref (setRef (createNode m k v) m.fresh ⟨.UNMARKED, nx (createNode m k v) q⟩) q =
        ⟨.UNMARKED, nx (createNode m k v) q⟩ := by
      rw [ref_setRef, update_of_ne hqn]
      exact congrArg₂ Ref.mk (h1.unmarked hs.mem) rfl
    have hbelow : Below (setRef (createNode m k v) m.fresh ⟨.UNMARKED, nx (createNode m k v) q⟩) S k q :=
      ⟨hs.mem, hs.ne, by rw [ky_setRef]; exact hs.lt⟩
    obtain ⟨h3, -⟩ := h2.link hown hbelow
      (by rw [ky_setRef]; exact lt_of_le_of_ne hs.le fun e' => e e'.symm) (by rw [ref_setRef, update_self]) hrefq
    have hfill : exec (createNode m k v) (.fill k v m.fresh q (nx (createNode m k v) q)) =
        (setRef (createNode m k v) m.fresh ⟨.UNMARKED, nx (createNode m k v) q⟩,
          .link k v m.fresh q (nx (createNode m k v) q)) := rfl
    refine ⟨_, _, hsearch.trans (.cons (by simp) hfill (.cons (by simp) ?_ .refl)), h3⟩
    simp only [exec, NonBlockingList.cas, if_pos hrefq]

theorem delete_returns (hk : INT_MIN < k ∧ k < INT_MAX) :
    ∃ m' S', Returns m (.delete k) m' (.delete (M k)) ∧ Core m' S' (update M k none) none := by
  obtain ⟨q, hq, hs⟩ := search_path (c := .delete k) h hk NULL NULL
  change Stops m S k q at hs
  have hcond : ky m q < k ∧ k ≤ ky m (nx m q) := ⟨hs.lt, hs.le⟩
  by_cases e : ky m (nx m q) = k
  · have ht := h.next_ne_tail hk.2 e
    have hc := h.chain.next_mem q hs.mem hs.ne
    have hcn := h.chain.next_mem _ hc ht
    have hqc : q ≠ nx m q := fun e' => by
      have := hs.lt
      rw [e', e] at this
      exact lt_irrefl _ this
    simp only [Caller.next, if_pos hcond, if_neg (not_or.2 ⟨ht, not_not.2 e⟩)] at hq
    rw [h.hit hk.2 hs e]
    -- the two cas
    have hmark := h.marked (nx m q)
    have hv : Victim (setRef m (nx m q) ⟨.MARKED, nx m (nx m q)⟩) S k q (nx m q) :=
      ⟨⟨hs.mem, hs.ne, by rw [ky_setRef]; exact hs.lt⟩, by rw [nx_setRef, update_of_ne hqc], ht,
        by rw [ky_setRef]; exact e⟩
    have hrefq : ref (setRef m (nx m q) ⟨.MARKED, nx m (nx m q)⟩) q = ⟨.UNMARKED, nx m q⟩ := by
      rw [ref_setRef, update_of_ne hqc]
      exact congrArg₂ Ref.mk (h.unmarked hs.mem) rfl
    have hnx : nx (setRef m (nx m q) ⟨.MARKED, nx m (nx m q)⟩) (nx m q) = nx m (nx m q) := by
      rw [nx_setRef, update_self]
    have hunlink := hmark.unlink hv
    rw [hnx, vl_setRef] at hunlink
    have hdel2 : exec m (.del2 k q (nx m q) (nx m (nx m q))) = (m, .del3 k q (nx m q) (nx m (nx m q))) := by
      simp only [exec, if_neg (h.addr _ hcn).1, h.unmarked hcn]
    have hdel5 : exec m (.del5 k q (nx m q) (nx m (nx m q)) ⟨mark m (nx m q), nx m (nx m q)⟩) =
        (setRef m (nx m q) ⟨.MARKED, nx m (nx m q)⟩, .del6 k q (nx m q) (nx m (nx m q))) := by
      have href : ref m (nx m q) = ⟨mark m (nx m q), nx m (nx m q)⟩ := rfl
      simp only [exec, NonBlockingList.cas, if_pos href]
    have hdel1 : exec m (.del1 k q (nx m q)) = (m, .del2 k q (nx m q) (nx m (nx m q))) := rfl
    have hdel3 : exec m (.del3 k q (nx m q) (nx m (nx m q))) =
        (m, .del4 k q (nx m q) (nx m (nx m q)) (nx m (nx m q))) := rfl
    have hdel4 : exec m (.del4 k q (nx m q) (nx m (nx m q)) (nx m (nx m q))) =
        (m, .del5 k q (nx m q) (nx m (nx m q)) ⟨mark m (nx m q), nx m (nx m q)⟩) := rfl
    refine ⟨_, _, hq.trans (.cons (by simp) hdel1 (.cons (by simp) hdel2 (.cons (by simp) hdel3 (.cons (by simp) hdel4
      (.cons (by simp) hdel5 (.cons (by simp) ?_ .refl)))))), hunlink⟩
    simp only [exec, NonBlockingList.cas, if_pos hrefq, vl_setRef]
  · rw [h.miss hs e]
    refine ⟨m, S, ?_, ?_⟩
    · simp only [Caller.next, if_pos hcond, if_pos (.inr e : nx m q = tail ∨ _)] at hq
      exact hq
    · have hM := h.miss hs e
      rw [← hM, Function.update_eq_self]
      exact h

end Calls

/-! ## Sequences of calls -/

theorem Core.isMap {m : Mem} {S : Finset ℕ} {M : ℤ → Option ℤ} (h : Core m S M none) : IsMap m M where
  linked := h.chain.walk_head_linked (fun b _ => by simp) Core.head_ne_tail fun a ha => (h.addr a ha).2
  sorted := h.chain.walk_head_sorted (fun b _ => by simp) Core.head_ne_tail fun a ha => (h.addr a ha).2
  unmarked a ha := by
    refine h.unmarked ?_
    rcases List.mem_cons.1 ha with rfl | ha
    · exact h.chain.head_mem
    · rcases List.mem_append.1 ha with ha | ha
      · exact Finset.mem_of_mem_erase (Finset.mem_of_mem_erase ((h.mem_nodes a).1 ha))
      · rw [List.mem_singleton.1 ha]; exact h.chain.tail_mem
  holds k v := by
    rw [h.rep k v]
    exact exists_congr fun a => and_congr_left' (h.mem_nodes a)

/-- **One call** has the result of the map. -/
theorem call_core {m : Mem} {M : ℤ → Option ℤ} (op : Op) (h : ∃ S, Core m S M none)
    (hk : INT_MIN < op.key ∧ op.key < INT_MAX) :
    ∃ m', Returns m op m' (mapStep M op).2 ∧ ∃ S, Core m' S (mapStep M op).1 none := by
  obtain ⟨S, h⟩ := h
  cases op with
  | add k v =>
    obtain ⟨m', S', h1, h2⟩ := add_returns h hk v
    exact ⟨m', h1, S', h2⟩
  | delete k =>
    obtain ⟨m', S', h1, h2⟩ := delete_returns h hk
    exact ⟨m', h1, S', h2⟩
  | find k => exact ⟨m, find_returns h hk, S, h⟩

/-- **One thread has a finite map.** For every sequence of calls with keys strictly between INT_MIN and INT_MAX: every call
returns, without a failed assertion, what the map returns, and after every call the chain from head is strictly increasing,
ends at tail, has unmarked links only and holds the pairs of the map. -/
theorem one_thread_map (ops : List Op) (hk : ∀ op ∈ ops, INT_MIN < op.key ∧ op.key < INT_MAX) :
    Follows Returns mapStep IsMap initList (fun _ => none) ops := by
  refine follows_of_step (R := fun m M => ∃ S, Core m S M none)
    (C := fun _ (op : Op) => INT_MIN < op.key ∧ op.key < INT_MAX) (fun m M ⟨S, h⟩ => h.isMap)
    (fun m M op h hC => call_core op h hC) ⟨_, init_good.core⟩ ?_
  exact CallsMeet.of_forall _ hk _

theorem one_thread_map_again :
    Follows Returns mapStep IsMap initList (fun _ => none)
      [.add 5 50, .add 7 70, .add 5 1, .find 5, .delete 5, .delete 5, .find 5, .add 5 51, .delete 7] :=
  one_thread_map _ (by decide)

end AlgorithmCollection.NonBlockingList
