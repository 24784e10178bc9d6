/-
`LazySynchroList` refines an atomic map, and its `find` is right without any lock.

- Linearization points: `add` at the store `pred->next = newNode`, `delete` at the store `curr->marked = true`; an `add`
  or `delete` that changes nothing at the test in its critical section, or at the load of an empty list's first link.
- `find` returns at no particular point: the instant that justifies its result is the one `walk_run` has found.
- `updates_linearizable`: every call takes effect at one instant, and the list is well formed in every reachable state.
- `find_linearizable`: what a result of `find` says about the list during the call, and that the walk ends.
-/
import AlgorithmCollection.List.LazySynchroListFind

namespace AlgorithmCollection.LazySynchroList

open Conc

/-! ## Linearization points -/

def After.effect : After → Option Res
  | .ret _ r => if r.changes then some r else none
  | .again _ => none

/-- the result a call is committed to by its own effect: a `delete` that has marked its node returns its value -/
def effect (m : Mem) : Loc → Option Res
  | .del2 _ _ curr => some (.delete (some (m.node curr).val))
  | .del3 _ _ _ v | .del4 _ _ _ v _ => some (.delete (some v))
  | .unlock1 w _ _ | .unlock2 w _ => w.effect
  | _ => none

/-- the result a call has decided on without an effect -/
def decided : Loc → Op → Res → Prop
  | .unlock1 w _ _, op, r | .unlock2 w _, op, r => w = .ret op r ∧ r.changes = false
  | _, _, _ => False

variable {ls : List (ℕ × Act)} {l : Loc} {m : Mem} {t : ℕ} {k : ℤ} {op : Op} {r : Res}

theorem busy_of_decided (h : decided l op r) : map.Busy l := by
  cases l with
  | unlock1 w _ _ | unlock2 w _ => exact ⟨op, by rw [h.1]; rfl⟩
  | _ => cases h

section

variable {g : Ghost} {t : ℕ} {m : Mem} {l : Loc}

/-- between pred and curr, adjacent and reachable, there is no key -/
theorem Valid.absent (h : Inv g m) {p q : ℕ} (hv : Valid g t m k p q) (hk : k ≠ key m q) : contents m k = none :=
  h.absent (hv.pred_mem_S h) (hv.pred_ne_tail h) hv.lt (by rw [hv.next]; exact lt_of_le_of_ne hv.le hk)

/-- an unmarked linked node with a valid key is in the map -/
theorem Inv.unmarked_present (h : Inv g m) {a : ℕ} (ha : a ∈ g.L) (hm : (m.node a).marked = false)
    (hr : inRange (key m a)) : contents m (key m a) = some (m.node a).val := by
  refine h.present (mem_live.2 ⟨h.unmarked a ha hm, ?_, ?_, hm⟩)
  · rintro rfl
    rw [h.key_head] at hr; exact lt_irrefl _ hr.1
  · rintro rfl
    rw [h.key_tail] at hr; exact lt_irrefl _ hr.2

/-- on an empty list a valid key is absent -/
theorem Inv.absent_of_empty (h : Inv g m) (hn : (m.node head).next = tail) (hr : inRange k) : contents m k = none :=
  h.absent h.toChain.head_mem head_ne_tail (by rw [h.key_head]; exact hr.1) (by rw [hn, h.key_tail]; exact hr.2)

/-- **The test decides rightly**: a result without effect is right for the map at the step that decides on it -/
theorem decides (h : Inv g m) (ha : AsrtAt g t m l) (hd : decided (exec t m l).2 op r) :
    decided l op r ∨ (map.Busy l ∧ mapSpec op r (contents m) (contents m)) := by
  cases l with
  | start c => cases c <;> simp only [exec, afterStart] at hd <;> (try split_ifs at hd) <;> cases hd
  | test c p q | assert c p q | fTest k q => simp only [exec] at hd; split_ifs at hd <;> cases hd
  | lockPred c p q => simp only [exec, lock] at hd; split_ifs at hd <;> cases hd
  | lockCurr c p q => cases c <;> simp only [exec, lock, afterLocks] at hd <;> split_ifs at hd <;> cases hd
  | recheck c p q | valid3 c p q => simp only [exec] at hd; split_ifs at hd; exacts [absurd hd id, (by cases hd.1)]
  | valid1 c p q | valid2 c p q => simp only [exec] at hd; split_ifs at hd; exacts [(by cases hd.1), absurd hd id]
  | body c p q =>
    obtain ⟨hc, hv, hm⟩ := ha
    refine .inr ⟨⟨_, rfl⟩, ?_⟩
    change decided (afterBody c p q (decide (c.key = key m q))) op r at hd
    by_cases hk : c.key = key m q
    · rw [decide_eq_true hk] at hd
      cases c with
      | add k v n =>
        obtain ⟨h1, -⟩ := hd
        cases h1
        have hp := h.unmarked_present hv.curr_mem hm (hk ▸ hv.range)
        refine ⟨fun e => ?_, rfl⟩
        rw [← show k = key m q from hk, e] at hp; cases hp
      | delete k => cases hd
    · rw [decide_eq_false hk] at hd
      cases c with
      | add k v n => cases hd
      | delete k =>
        obtain ⟨h1, -⟩ := hd
        cases h1
        exact ⟨hv.absent h hk, rfl⟩
  | link2 k v n p q | del4 k p q v s => obtain ⟨h1, h2⟩ := hd; cases h1; cases h2
  | unlock1 w p q => exact .inl hd
  | unlock2 w q => cases w <;> cases hd
  | _ => cases hd

end

theorem not_busy_of_canInvoke (h : canInvoke l) : ¬ map.Busy l := by
  rintro ⟨op, hop⟩
  cases l with
  | idle | ret _ _ => cases hop
  | _ => cases h

/-- **The result of a call without effect** was decided on, or is right for the map at some instant of the call -/
theorem ret_right (hb : map.Busy ((sys.run ls).loc t)) (hr : (exec t (sys.run ls).sh ((sys.run ls).loc t)).2 = .ret op r)
    (he : effect (sys.run ls).sh ((sys.run ls).loc t) = none) :
    decided ((sys.run ls).loc t) op r ∨
      sys.Since map.Busy t (fun s => mapSpec op r (contents s.sh) (contents s.sh)) ls := by
  obtain ⟨g, h, hA, -⟩ := inv_run ls
  have hAt := hA t
  have hw := walk_run ls t
  -- a result that is right now
  have now : mapSpec op r (contents (sys.run ls).sh) (contents (sys.run ls).sh) →
      sys.Since map.Busy t (fun s => mapSpec op r (contents s.sh) (contents s.sh)) ls := fun hs => Sys.Since.now hb hs
  generalize hl : (sys.run ls).loc t = l at *
  cases l with
  | start c =>
    simp only [exec, afterStart] at hr
    cases c with
    | add k v n => cases hr
    | delete k =>
      split_ifs at hr with hn
      cases hr
      exact .inr (now ⟨h.absent_of_empty hn hAt, rfl⟩)
  | test c p q | recheck c p q | assert c p q | valid1 c p q | valid2 c p q
  | valid3 c p q => simp only [exec] at hr; split_ifs at hr
  | lockPred c p q => simp only [exec, lock] at hr; split_ifs at hr
  | lockCurr c p q => cases c <;> simp only [exec, lock, afterLocks] at hr <;> split_ifs at hr
  | body c p q =>
    change afterBody c p q (decide (c.key = key (sys.run ls).sh q)) = _ at hr
    generalize decide (c.key = key (sys.run ls).sh q) = found at hr
    cases found <;> cases c <;> cases hr
  | unlock2 w q =>
    cases w with
    | ret op' r' =>
      cases hr
      refine .inl ⟨rfl, ?_⟩
      cases hc : r.changes with
      | true => simp [effect, After.effect, hc] at he
      | false => rfl
    | again c => cases hr
  | fTest k q =>
    simp only [exec] at hr
    split_ifs at hr with h1 h2
    cases hr
    -- the walk is past the key
    have hlt : k < key (sys.run ls).sh q := lt_of_le_of_ne (not_lt.1 h1) (Ne.symm h2)
    exact .inr ((hw.2 hlt).imp fun j _ e => ⟨by rw [e]; rfl, rfl⟩)
  | fMark k q =>
    obtain ⟨hk, hq, hkey⟩ := hAt
    cases hr
    cases hm : ((sys.run ls).sh.node q).marked with
    | true =>
      have := marked_absent hw hm
      rw [hkey] at this
      exact .inr (this.imp fun j _ e => ⟨by rw [e]; rfl, rfl⟩)
    | false =>
      rw [hm] at now
      have hp := h.unmarked_present hq hm (by rw [hkey]; exact hk)
      rw [hkey] at hp
      exact .inr (now ⟨by rw [hp]; rfl, rfl⟩)
  | ret op' r' => obtain ⟨_, hb⟩ := hb; cases hb
  | _ => cases hr

/-- the kind of a step inside a call; `was` holds of what a call without effect returns -/
theorem exec_kind {was : Op → Res → Prop} (he : Effect m l (exec t m l).1)
    (hab : (exec t m l).2 ≠ .aborted)
    (hw : ∀ op r, map.Busy l → (exec t m l).2 = .ret op r → effect m l = none → was op r) :
    map.StepKind effect was m l (exec t m l).1 (exec t m l).2 := by
  cases l with
  | idle | ret _ _ | aborted => exact .stutter
  | start c =>
    revert hw; simp only [exec, afterStart]
    cases c with
    | add k v n => exact fun _ => .inside _ rfl rfl rfl rfl
    | delete k =>
      dsimp only
      split_ifs
      · exact fun hw => .ret _ _ rfl rfl rfl (.inr ⟨rfl, hw _ _ ⟨_, rfl⟩ rfl rfl⟩)
      · exact fun _ => .inside _ rfl rfl rfl rfl
  | test c p q | recheck c p q | valid1 c p q | valid2 c p q
  | valid3 c p q => simp only [exec]; split_ifs <;> exact .inside _ rfl rfl rfl rfl
  | lockPred c p q =>
    revert he; simp only [exec, lock]; split_ifs
    · exact fun he => .inside _ rfl he rfl rfl
    · exact fun _ => .stutter
  | lockCurr c p q =>
    revert he; simp only [exec, lock, afterLocks]; split_ifs
    · intro he; cases c <;> exact .inside _ rfl he rfl rfl
    · exact fun _ => .stutter
  | assert c p q =>
    revert hab; simp only [exec]; split_ifs
    · exact fun _ => .inside _ rfl rfl rfl rfl
    · exact fun hab => absurd rfl hab
  | body c p q =>
    show map.StepKind effect _ m _ m (afterBody c p q (decide (c.key = key m q)))
    cases decide (c.key = key m q) <;> cases c <;> exact .inside _ rfl rfl rfl rfl
  | link2 k v n p q =>
    refine .commit (.add k v) (.add true) rfl rfl ?_ he rfl rfl
    show contents _ ≠ contents m
    rw [he.2]; exact update_some_ne he.1
  | del1 k p q =>
    refine .commit (.delete k) (.delete (some (m.node q).val)) rfl rfl ?_ he rfl ?_
    · show contents _ ≠ contents m
      rw [he.2]; exact update_none_ne he.1
    · simp [exec, effect, setMarked]
  | unlock1 w p q => cases w <;> exact .inside _ rfl he rfl rfl
  | unlock2 w q =>
    cases w with
    | ret op r =>
      refine .ret op r rfl he rfl ?_
      cases hc : r.changes with
      | true => exact .inl (by simp [effect, After.effect, hc])
      | false =>
        have hn : effect m (.unlock2 (.ret op r) q) = none := by simp [effect, After.effect, hc]
        exact .inr ⟨hn, hw op r ⟨_, rfl⟩ rfl hn⟩
    | again c => exact .inside _ rfl he rfl rfl
  | fTest k q =>
    revert hw; simp only [exec]
    split_ifs
    · exact fun _ => .inside _ rfl rfl rfl rfl
    · exact fun _ => .inside _ rfl rfl rfl rfl
    · exact fun hw => .ret _ _ rfl rfl rfl (.inr ⟨rfl, hw _ _ ⟨_, rfl⟩ rfl rfl⟩)
  | fMark k q => exact .ret _ _ rfl rfl rfl (.inr ⟨rfl, hw _ _ ⟨_, rfl⟩ rfl rfl⟩)
  | _ => exact .inside _ rfl he rfl rfl

/-- the kind of a step -/
theorem step_kind (ls : List (ℕ × Act)) (t : ℕ) (a : Act) :
    map.StepKind effect
      (fun op r => decided ((sys.run ls).loc t) op r ∨
        sys.Since map.Busy t (fun s => mapSpec op r (contents s.sh) (contents s.sh)) ls)
      (sys.run ls).sh ((sys.run ls).loc t) (step t (sys.run ls).sh ((sys.run ls).loc t) a).1
      (step t (sys.run ls).sh ((sys.run ls).loc t) a).2 := by
  obtain ⟨g, h, hA, -⟩ := inv_run ls
  obtain ⟨g', hg, he⟩ := step_guar h (hA t) a
  cases a with
  | invoke op =>
    simp only [step]
    split_ifs with hi
    · exact .outside (not_busy_of_canInvoke hi) rfl fun _ => by cases op.1 <;> rfl
    · exact .stutter
  | oom =>
    cases hl : (sys.run ls).loc t with
    | create k v =>
      have hb : map.Busy ((sys.run ls).loc t) := ⟨.add k v, by rw [hl]; rfl⟩
      exact .ret (.add k v) .oom rfl rfl rfl (.inr ⟨rfl, .inr (Sys.Since.now hb rfl)⟩)
    | _ => exact .stutter
  | step =>
    refine exec_kind he (fun e => ?_) fun op r hb hr hn => ret_right hb hr hn
    have := hg.asrt
    change AsrtAt g' t _ (exec t _ _).2 at this
    rw [e] at this; exact this

/-- what a `delete` that has marked its node will return does not change -/
theorem effect_stable : map.EffectStable sys effect := by
  intro ls u a t hu _
  obtain ⟨g, h, hA, -⟩ := inv_run ls
  obtain ⟨g', hg, -⟩ := step_guar h (hA u) a
  have hAt := hA t
  rw [Sys.run_snoc, Sys.next_sh]
  generalize (sys.run ls).loc t = l at *
  cases l with
  | del2 k p q =>
    have hv := (hg.data q (h.addr q hAt.1.curr_mem).2).2
    simp only [effect]
    exact congrArg (fun v => some (MapRes.delete (some v))) hv
  | _ => rfl

theorem map_linearizable : map.Linearizable sys := by
  refine Object.linearizable_of_since effect decided (fun ⟨_, h⟩ => by cases h) effect_stable
    (fun _ _ _ => busy_of_decided) (fun ls t a op r hd => ?_) step_kind
  obtain ⟨g, h, hA, -⟩ := inv_run ls
  cases a with
  | invoke op' =>
    simp only [sys, step] at hd
    split_ifs at hd
    · cases e : op'.1 <;> rw [e] at hd <;> cases hd
    · exact .inl hd
  | oom =>
    change decided (step t _ _ .oom).2 op r at hd
    cases hl : (sys.run ls).loc t with
    | create k v => rw [hl] at hd; cases hd
    | _ => rw [hl] at hd; exact .inl hd
  | step =>
    rcases decides h (hA t) hd with h1 | h1
    · exact .inl h1
    · exact .inr (.inl h1)

/-! ## Linked nodes -/

/-- after the store `pred->next = newNode` the new node is reachable -/
theorem reach_link {g : Ghost} {v : ℤ} {n p q : ℕ} (h : Inv g m) (ha : AsrtAt g t m (.link2 k v n p q)) :
    reach (exec t m (.link2 k v n p q)).1 n ∧ n ≠ head ∧ n ≠ tail := by
  obtain ⟨g', hg, -⟩ := exec_safe h ha
  obtain ⟨ho, hv, -⟩ := ha
  have hp : p ∈ g'.S := by
    by_contra hp
    have := hg.keep p (hv.pred_mem_S h) hp
    rw [hv.unmarked] at this; cases this
  have hn : n ∈ g'.S := by
    have := hg.inv.toChain.next_mem p hp (hv.pred_ne_tail h)
    rwa [show ((exec t m (.link2 k v n p q)).1.node p).next = n from setNext_self m p n] at this
  refine ⟨(reach_iff hg.inv n).2 hn, ?_, ?_⟩
  · rintro rfl; exact ho.not_mem (h.sub h.toChain.head_mem)
  · rintro rfl; exact ho.not_mem (h.sub h.toChain.tail_mem)

theorem linked_goodAt (ls : List (ℕ × Act)) :
    ∀ n ∈ linked ls, GoodAt n (sys.run ls) ∧ n ≠ head ∧ n ≠ tail := by
  induction ls using List.reverseRecOn with
  | nil => intro n hn; cases hn
  | append_singleton ls x ih =>
    intro n hn
    rw [linked, Sys.trace_snoc] at hn
    rcases List.mem_append.1 hn with hn | hn
    · exact ⟨(ih n hn).1.next x, (ih n hn).2⟩
    · -- n is linked by this step
      obtain ⟨t, a⟩ := x
      obtain ⟨g, h, hA, -⟩ := inv_run ls
      have hAt := hA t
      have hsh : (sys.run (ls ++ [(t, a)])).sh = (step t (sys.run ls).sh ((sys.run ls).loc t) a).1 := by
        rw [Sys.run_snoc]; rfl
      cases a with
      | invoke op | oom => cases hn
      | step =>
        generalize (sys.run ls).loc t = l at *
        cases l with
        | link2 k v n' p q =>
          obtain rfl : n = n' := by simpa [linkEvent] using hn
          obtain ⟨hr, h1⟩ := reach_link h hAt
          obtain ⟨g2, h2, hA2, hD2⟩ := inv_run (ls ++ [(t, .step)])
          refine ⟨⟨g2, ⟨h2, h2.sub ((reach_iff h2 n).1 ?_)⟩, hA2, hD2⟩, h1⟩
          rw [hsh]; exact hr
        | _ => cases hn

theorem linked_unmarked {n : ℕ} (hn : n ∈ linked ls)
    (hm : ((sys.run ls).sh.node n).marked = false) : n ∈ nodes (sys.run ls).sh := by
  obtain ⟨⟨g, ⟨h, hL⟩, -⟩, h1⟩ := linked_goodAt ls n hn
  exact (mem_nodes h n).2 ⟨h.unmarked n hL hm, h1⟩

/-- **The list refines an atomic map.** For any number of threads with valid keys and any interleaving: every call takes
effect at one instant inside it on the map of the keys of the reachable unmarked nodes; and in every reachable state the
chain from head ends at tail with strictly increasing keys, every linked node that is not marked is reachable, and no
assert has failed. -/
theorem updates_linearizable :
    map.Linearizable sys ∧ ∀ ls : List (ℕ × Act),
      (head :: (nodes (sys.run ls).sh ++ [tail])).IsChain (fun a b => ((sys.run ls).sh.node a).next = b) ∧
      (head :: (nodes (sys.run ls).sh ++ [tail])).Pairwise
        (fun a b => ((sys.run ls).sh.node a).key < ((sys.run ls).sh.node b).key) ∧
      (∀ n ∈ linked ls, ((sys.run ls).sh.node n).marked = false → n ∈ nodes (sys.run ls).sh) ∧
      ∀ t, (sys.run ls).loc t ≠ .aborted := by
  refine ⟨map_linearizable, fun ls => ?_⟩
  obtain ⟨g, h, hA, -⟩ := inv_run ls
  refine ⟨h.chain_sorted.1, h.chain_sorted.2, fun n => linked_unmarked, fun t e => ?_⟩
  have := hA t
  rw [e] at this; exact this

/-! ## `find` -/

/-- some reachable unmarked node holds the key -/
def Held (k : ℤ) (m : Mem) : Prop := ∃ n ∈ nodes m, (m.node n).key = k ∧ (m.node n).marked = false

theorem held_iff {g : Ghost} (h : Inv g m) (k : ℤ) : Held k m ↔ (contents m k).isSome = true := by
  rw [Option.isSome_iff_ne_none, Ne, (rep_contents h).absent_iff]
  constructor
  · rintro ⟨n, hn, hk, hm⟩ hall
    have := (mem_nodes h n).1 hn
    exact hall n (mem_live.2 ⟨this.1, this.2.1, this.2.2, hm⟩) hk
  · intro hall
    by_contra hno
    refine hall fun n hn hk => hno ⟨n, ?_, hk, (mem_live.1 hn).2.2.2⟩
    have := mem_live.1 hn
    exact (mem_nodes h n).2 ⟨this.1, this.2.1, this.2.2.1⟩

/-- **What a result of `find` says**: at some instant of the call the key was held, or was not -/
theorem find_result {a : Act} {b : Bool} (hb : status ((sys.run ls).loc t) = .busy (.contains k))
    (hd : status ((sys.run (ls ++ [(t, a)])).loc t) = .done (.contains k) (.contains b)) :
    sys.Since map.Busy t (fun s => Held k s.sh ↔ b = true) ls := by
  rcases map_linearizable.ret ls t a _ _ hb hd with ⟨j, hj, hs⟩ | ⟨-, hs⟩
  · -- `contains` does not change the map
    have hmem : j ∈ map.Changes sys (ls ++ [(t, a)]) t := by rw [hj]; exact Set.mem_singleton j
    exact absurd hs.2 hmem.2.2.1
  · refine hs.imp fun j _ e => ?_
    obtain ⟨g, h, -⟩ := inv_run (ls.take j)
    rw [held_iff h]
    exact e.1 ▸ Iff.rfl

/-- **`find` is linearizable without locks.** For any number of threads with valid keys and any interleaving: a result
of `find` is right at some instant of the call; the walk is always at a node of the list that was allocated, reads
`next` of no node but those before tail, and takes at most two steps for each key up to the one sought. -/
theorem find_linearizable :
    (∀ (ls : List (ℕ × Act)) (t : ℕ) (a : Act) (k : ℤ) (b : Bool),
      status ((sys.run ls).loc t) = .busy (.contains k) →
      status ((sys.run (ls ++ [(t, a)])).loc t) = .done (.contains k) (.contains b) →
      sys.Since map.Busy t (fun s => Held k s.sh ↔ b = true) ls) ∧
    (∀ (ls : List (ℕ × Act)) (t : ℕ) (k : ℤ) (curr : ℕ),
      ((sys.run ls).loc t = .fTest k curr ∨ (sys.run ls).loc t = .fMark k curr →
        curr ≠ NULL ∧ curr < (sys.run ls).sh.fresh) ∧
      ((sys.run ls).loc t = .fNext k curr →
        curr ≠ NULL ∧ curr < (sys.run ls).sh.fresh ∧ curr ≠ tail ∧ ((sys.run ls).sh.node curr).key < k)) ∧
    ∀ (ls ls' : List (ℕ × Act)) (t : ℕ) (k : ℤ),
      (∀ j ≤ ls'.length, status ((sys.run (ls ++ ls'.take j)).loc t) = .busy (.contains k)) →
      ownSteps t ls' ≤ 2 * (k - INT_MIN).toNat + 2 := by
  refine ⟨fun ls t a k b => find_result, fun ls t k curr => ?_, fun ls ls' t k hb => ?_⟩
  · obtain ⟨g, h, hA, -⟩ := inv_run ls
    have hAt := hA t
    have addr : ∀ {q}, q ∈ g.L → q ≠ NULL ∧ q < (sys.run ls).sh.fresh := fun hq => ⟨(h.addr _ hq).1.ne', (h.addr _ hq).2⟩
    refine ⟨?_, fun e => ?_⟩
    · rintro (e | e) <;> rw [e] at hAt
      · exact addr hAt.2
      · exact addr hAt.2.1
    · rw [e] at hAt
      exact ⟨(addr hAt.2.1).1, (addr hAt.2.1).2, (h.step_up hAt.1 hAt.2.1 hAt.2.2).1, hAt.2.2⟩
  · obtain ⟨g, h, hA, -⟩ := inv_run ls
    have h0 := hb 0 (Nat.zero_le _)
    rw [List.take_zero, List.append_nil] at h0
    exact (Nat.le_of_add_right_le (find_steps_le ls ls' t k hb)).trans (stepsLeft_le h (hA t) h0)

end AlgorithmCollection.LazySynchroList
