/-
`FineGrainedSynchroList` refines an atomic map.

- Linearization points: the store that links the new node (`list->head->next = newNode` on an empty list, else
  `pred->next = newNode`), the store that unlinks a node, and for the calls that change nothing the test at the end of
  the traversal, made while the locks of pred and curr are held (`decides`).
- `chain_sorted`: unless an `add` to an empty list is between its two stores, the chain from head ends at tail and has
  strictly increasing keys.
- `map_refined`: the whole statement.
-/
import AlgorithmCollection.List.FineGrainedSynchroListInv

namespace AlgorithmCollection.FineGrainedSynchroList

open Conc

/-! ## Linearization points -/

/-- the result a call is committed to by its own effect -/
def effect (_m : Mem) : Loc → Option Res
  | .addEmpty2 _ _ _ => some (.add true)
  | .unlock1 _ r _ _ | .unlock2 _ r _ => if r.changes then some r else none
  | _ => none

/-- the result a call has decided on without an effect -/
def decided : Loc → Op → Res → Prop
  | .unlock1 op r _ _, op', r' | .unlock2 op r _, op', r' => op' = op ∧ r' = r ∧ r.changes = false
  | _, _, _ => False

theorem busy_of_decided {l : Loc} {op : Op} {r : Res} (h : decided l op r) : map.Busy l := by
  cases l with
  | unlock1 op' _ _ _ | unlock2 op' _ _ => exact ⟨op', rfl⟩
  | _ => cases h

section

variable {g : Ghost} {t : ℕ} {m : Mem} {l : Loc}

/-- with the locks of pred and curr held, a key between them is absent -/
theorem Held.absent (h : Inv g m) (ha : Asrt g t m l) (hb : between l = false) {k : ℤ} {p q : ℕ}
    (hh : Held g t m k p q) (hq : q = tail ∨ k < (m.node q).key) : contents m k = none := by
  have hp := hh.front.no_pend h ha hb
  have hlink : link g m p = q := by rw [link_eq hp]; exact hh.next
  exact h.absent hh.front.mem hh.front.ne hh.front.lt (by rw [hlink]; exact hh.lt_curr h hp hq)

/-- with the lock of curr held, its pair is in the map -/
theorem Held.present (h : Inv g m) (ha : Asrt g t m l) (hb : between l = false) {k : ℤ} {p q : ℕ}
    (hh : Held g t m k p q) (hq : q ≠ tail) (hk : (m.node q).key = k) : contents m k = some (m.node q).val := by
  have hp := hh.front.no_pend h ha hb
  have hlink : link g m p = q := by rw [link_eq hp]; exact hh.next
  have := h.present (hh.curr_mem h hp) (hlink ▸ h.chain.next_ne_head hh.front.mem hh.front.ne) hq
  rwa [hk] at this

/-- on an empty list every key is absent -/
theorem absent_of_empty (h : Inv g m) (hl : link g m head = tail) (k : ℤ) : contents m k = none :=
  h.absent h.chain.head_mem head_ne_tail (sentinelRank_lt.2 (.inl rfl))
    (by rw [hl]; exact lt_sentinelRank.2 ⟨head_ne_tail.symm, .inl rfl⟩)

/-- **The test decides rightly**: a result without effect is right for the map at the step that decides on it -/
theorem decides (h : Inv g m) (ha : Asrt g t m l) {op : Op} {r : Res} (hd : decided (exec t m l).2 op r) :
    decided l op r ∨ (map.Busy l ∧ mapSpec op r (contents m) (contents m)) := by
  have hAt := ha.at_
  cases l with
  | lockHead c | lockCurr c p q => simp only [exec, lock] at hd; split_ifs at hd <;> cases hd
  | lockFirst c curr =>
    simp only [exec, lock] at hd
    split_ifs at hd
    · refine .inr ⟨⟨_, rfl⟩, ?_⟩
      have hp : g.pend = none := h.no_pend h.chain.head_mem hAt.2.1 (ha.no_pend rfl)
      simp only [afterFirst] at hd
      split_ifs at hd with hct
      · have habs := absent_of_empty h (by rw [link_eq hp]; exact hAt.2.2.trans hct)
        cases c with
        | add k v n => cases hd
        | delete k | find k => obtain ⟨rfl, rfl, -⟩ := hd; exact ⟨habs k, rfl⟩
      · cases hd
    · cases hd
  | test c p q => simp only [exec] at hd; split_ifs at hd <;> cases hd
  | check c p q =>
    refine .inr ⟨⟨_, rfl⟩, ?_⟩
    change decided (afterCheck c p q (decide (q ≠ tail ∧ c.key = (m.node q).key))) op r at hd
    by_cases hf : q ≠ tail ∧ c.key = (m.node q).key
    · rw [decide_eq_true hf] at hd
      have hpres := hAt.2.1.present h ha rfl hf.1 hf.2.symm
      cases c with
      | add k v n =>
        obtain ⟨rfl, rfl, -⟩ := hd
        exact ⟨fun e => (by rw [show contents m k = some _ from hpres] at e; cases e), rfl⟩
      | delete k | find k => cases hd
    · rw [decide_eq_false hf] at hd
      have hlt : q = tail ∨ c.key < (m.node q).key := by
        rcases hAt.2.2 with hq | hle
        · exact .inl hq
        · by_cases hq : q = tail
          · exact .inl hq
          · exact .inr (lt_of_le_of_ne hle fun e => hf ⟨hq, e⟩)
      have habs := hAt.2.1.absent h ha rfl hlt
      cases c with
      | add k v n => cases hd
      | delete k | find k => obtain ⟨rfl, rfl, -⟩ := hd; exact ⟨habs, rfl⟩
  | find1 k p q =>
    obtain ⟨rfl, rfl, -⟩ := hd
    exact .inr ⟨⟨_, rfl⟩, hAt.1.present h ha rfl hAt.2.1 hAt.2.2, rfl⟩
  | addEmpty2 k v n | link2 k v n p q | del3 k p q v s => cases hd.2.2
  | unlock1 op' r' a b => exact .inl hd
  | _ => cases hd

end

theorem not_busy_of_canInvoke {l : Loc} (h : canInvoke l) : ¬ map.Busy l := by
  rintro ⟨op, hop⟩
  cases l with
  | idle | ret _ _ => cases hop
  | _ => cases h

/-- the kind of a step inside a call -/
theorem exec_kind {t : ℕ} {m : Mem} {l : Loc} (he : Effect m l (exec t m l).1) :
    map.StepKind effect (decided l) m l (exec t m l).1 (exec t m l).2 := by
  cases l with
  | idle | ret _ _ => exact .stutter
  | lockHead c | lockCurr c p q =>
    revert he; simp only [exec, lock]; split_ifs
    · exact fun he => .inside _ rfl he rfl rfl
    · exact fun _ => .stutter
  | lockFirst c curr =>
    revert he; simp only [exec, lock, afterFirst]; split_ifs
    · intro he; cases c <;> exact .inside _ rfl he rfl rfl
    · exact fun he => .inside _ rfl he rfl rfl
    · exact fun _ => .stutter
  | test c p q => simp only [exec]; split_ifs <;> exact .inside _ rfl rfl rfl rfl
  | check c p q =>
    show map.StepKind effect _ m _ m (afterCheck c p q (decide (q ≠ tail ∧ c.key = (m.node q).key)))
    cases decide (q ≠ tail ∧ c.key = (m.node q).key) <;> cases c <;> exact .inside _ rfl rfl rfl rfl
  | addEmpty1 k v n | link2 k v n p q =>
    refine .commit (.add k v) (.add true) rfl rfl ?_ he rfl rfl
    show contents _ ≠ contents m
    rw [he.2]; exact update_some_ne he.1
  | del3 k p q v s =>
    refine .commit (.delete k) (.delete (some v)) rfl rfl ?_ he rfl rfl
    show contents _ ≠ contents m
    rw [he.2]; exact update_none_ne he.1
  | unlock2 op r b =>
    refine .ret op r rfl he rfl ?_
    cases hc : r.changes with
    | true => exact .inl (by simp [effect, hc])
    | false => exact .inr ⟨by simp [effect, hc], rfl, rfl, hc⟩
  | _ => exact .inside _ rfl he rfl rfl

/-- the kind of a step -/
theorem step_kind {t : ℕ} {m : Mem} {l : Loc} {a : Act} (he : ActEffect m l a (step t m l a).1) :
    map.StepKind effect (fun op r => decided l op r ∨ mapSpec op r (contents m) (contents m)) m l (step t m l a).1
      (step t m l a).2 := by
  cases a with
  | invoke op =>
    simp only [step]
    split_ifs with hi
    · exact .outside (not_busy_of_canInvoke hi) rfl fun _ => by cases op <;> rfl
    · exact .stutter
  | oom =>
    cases l with
    | create k v => exact .ret (.add k v) .oom rfl rfl rfl (.inr ⟨rfl, .inr rfl⟩)
    | _ => exact .stutter
  | step => exact (exec_kind he).imp fun _ _ _ => .inl

theorem map_linearizable : map.Linearizable sys := by
  refine Object.linearizable_of_steps effect decided (fun ⟨_, h⟩ => by cases h)
    (fun _ _ _ _ _ _ => rfl) (fun _ _ _ => busy_of_decided) (fun ls t a op r hd => ?_) fun ls t a => ?_
  · obtain ⟨g, h, hA, -⟩ := inv_run ls
    cases a with
    | invoke op' =>
      simp only [sys, step] at hd
      split_ifs at hd
      · cases op' <;> cases hd
      · exact .inl hd
    | oom =>
      change decided (step t _ _ .oom).2 op r at hd
      cases hl : (sys.run ls).loc t with
      | create k v => rw [hl] at hd; cases hd
      | _ => rw [hl] at hd; exact .inl hd
    | step =>
      rcases decides h (hA t) hd with h1 | h1
      · exact .inl h1
      · exact .inr (.inl h1)
  · obtain ⟨g, h, hA, -⟩ := inv_run ls
    obtain ⟨g', -, he⟩ := step_guar h (hA t) a
    exact step_kind he

/-! ## The shape of the list -/

/-- a pending node belongs to a thread between its two stores -/
theorem pend_none {ls : List (ℕ × Act)} {g : Ghost}
    (hb : ∀ t, between ((sys.run ls).loc t) = false)
    (hp : ∀ n u, g.pend = some (n, u) → between ((sys.run ls).loc u) = true) : g.pend = none := by
  cases e : g.pend with
  | none => rfl
  | some x =>
    have := hp x.1 x.2 e
    rw [hb] at this; cases this

/-- without a pending node the chain from head follows the links to tail, in the order of the keys -/
theorem Inv.chain_sorted {g : Ghost} {m : Mem} (h : Inv g m) (hp : g.pend = none) :
    (head :: (nodes m ++ [tail])).IsChain (fun a b => (m.node a).next = b) ∧
      (nodes m).Pairwise (fun a b => (m.node a).key < (m.node b).key) := by
  have hc := h.chain
  rw [link_eq hp] at hc
  have hstop : ∀ b ∈ g.S, decide (b = tail ∨ b = NULL) = true ↔ b = tail := fun b hb => by
    simp [show b ≠ NULL from (h.addr b hb).1.ne']
  have hlt : ∀ b ∈ g.S, b < m.fresh := fun b hb => (h.addr b hb).2
  refine ⟨hc.walk_head_linked hstop head_ne_tail hlt, ?_⟩
  have hs := (List.pairwise_append.1 (List.pairwise_cons.1 (hc.walk_head_sorted hstop head_ne_tail hlt)).2).1
  refine hs.imp_of_mem fun {a b} ha hb hlt => ?_
  have ha' := mem_data.1 ((mem_nodes h a).1 ha)
  have hb' := mem_data.1 ((mem_nodes h b).1 hb)
  exact (sentinelRank_node_lt ha'.2 hb'.2).1 hlt

/-- **The list refines an atomic map.** For any number of threads, arbitrary keys and any interleaving: every call takes
effect at one instant inside it on the map of the keys reachable from head; and in every reachable state in which no
`add` to an empty list is between its two pointer stores, the chain from head ends at tail and has strictly increasing
keys. -/
theorem map_refined :
    map.Linearizable sys ∧ ∀ ls : List (ℕ × Act), (∀ t, between ((sys.run ls).loc t) = false) →
      (head :: (nodes (sys.run ls).sh ++ [tail])).IsChain (fun a b => ((sys.run ls).sh.node a).next = b) ∧
      (nodes (sys.run ls).sh).Pairwise (fun a b => ((sys.run ls).sh.node a).key < ((sys.run ls).sh.node b).key) := by
  refine ⟨map_linearizable, fun ls hb => ?_⟩
  obtain ⟨g, h, hA, -⟩ := inv_run ls
  exact h.chain_sorted (pend_none hb fun n u e => (hA u).pend n e)

end AlgorithmCollection.FineGrainedSynchroList
