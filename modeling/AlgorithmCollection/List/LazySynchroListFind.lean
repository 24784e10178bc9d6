/-
The walk of `find` in `LazySynchroList`: what a thread without locks may conclude in hindsight.

A node that a walk has met was reachable from head at some instant of the call (`Met`), though perhaps not any more.
- `hindsight`: if a was met, then at some instant of the call a was reachable and its link was what it is now. Either
  this is now, or it is the instant at which a was unlinked, after which its link does not change.
- `met_next`: so the node its link leads to has been met too, and a key between the two was absent at that instant.
- `marked_absent`: if a was met and is marked now, then its key was absent at some instant of the call: when a was met,
  if it was marked then, else when it was marked.
`walk_run`: this is what a thread inside `find` knows, in every run. `find_steps_le`: `find` takes a bounded number of
steps, since the keys on its way increase.
-/
import AlgorithmCollection.List.LazySynchroListInv

namespace AlgorithmCollection.LazySynchroList

open Conc

/-! ## Nodes that have been linked -/

/-- the invariant, with a node known to be linked -/
abbrev GoodAt (a : ℕ) (s : St Mem Loc) : Prop := Sys.Good (fun g m => Inv g m ∧ a ∈ g.L) AsrtAt Disj s

variable {g : Ghost} {ls : List (ℕ × Act)} {l : Loc} {m : Mem} {a t : ℕ}

theorem GoodAt.next (h : GoodAt a (sys.run ls)) (x : ℕ × Act) :
    GoodAt a (sys.run (ls ++ [x])) := by
  rw [Sys.run_snoc]
  refine Sys.next_good sys _ _ _ _ x.1 x.2 (fun g hI hA => ?_) h
  obtain ⟨g', hg, -⟩ := step_guar hI.1 hA x.2
  exact ⟨g', ⟨hg.inv, hg.grows hI.2⟩, hg.asrt, hg.others hI.1 hA⟩

/-! ## Reachable nodes -/

/-- a is on the chain from head to tail -/
def reach (m : Mem) (a : ℕ) : Prop := a = head ∨ a = tail ∨ a ∈ nodes m

theorem reach_iff (h : Inv g m) (a : ℕ) : reach m a ↔ a ∈ g.S := by
  unfold reach
  rw [mem_nodes h]
  constructor
  · rintro (rfl | rfl | h1)
    · exact h.toChain.head_mem
    · exact h.toChain.tail_mem
    · exact h1.1
  · intro h1
    by_cases h2 : a = head
    · exact .inl h2
    · by_cases h3 : a = tail
      · exact .inr (.inl h3)
      · exact .inr (.inr ⟨h1, h2, h3⟩)

/-- a was reachable at some instant of the current call of t -/
def Met (t a : ℕ) (ls : List (ℕ × Act)) : Prop := sys.Since map.Busy t (fun s => reach s.sh a) ls

theorem Met.snoc {x : ℕ × Act} (h : Met t a ls)
    (hb : map.Busy ((sys.run (ls ++ [x])).loc t)) : Met t a (ls ++ [x]) := Sys.Since.snoc h hb

theorem Met.goodAt (h : Met t a ls) : GoodAt a (sys.run ls) := by
  induction ls using List.reverseRecOn with
  | nil =>
    obtain ⟨k, hk, hr, -⟩ := h
    obtain rfl : k = 0 := by simpa using hk
    obtain ⟨g, hI, hA, hD⟩ := inv_run []
    exact ⟨g, ⟨hI, hI.sub ((reach_iff hI a).1 hr)⟩, hA, hD⟩
  | append_singleton ls x ih =>
    rcases Sys.Since.of_snoc h with hr | h'
    · obtain ⟨g, hI, hA, hD⟩ := inv_run (ls ++ [x])
      exact ⟨g, ⟨hI, hI.sub ((reach_iff hI a).1 hr)⟩, hA, hD⟩
    · exact (ih h').next x

/-- what one step of a run does, with the ghosts before and after -/
theorem guar_snoc (h : GoodAt a (sys.run ls)) (u : ℕ) (b : Act) :
    ∃ g g', Inv g (sys.run ls).sh ∧ a ∈ g.L ∧ AsrtAt g u (sys.run ls).sh ((sys.run ls).loc u) ∧
      Guar g u (sys.run ls).sh ((sys.run ls).loc u) g' (sys.run (ls ++ [(u, b)])).sh
        (step u (sys.run ls).sh ((sys.run ls).loc u) b).2 := by
  obtain ⟨g, ⟨hI, ha⟩, hA, -⟩ := h
  obtain ⟨g', hg, -⟩ := step_guar hI (hA u) b
  refine ⟨g, g', hI, ha, hA u, ?_⟩
  rw [Sys.run_snoc, Sys.next_sh]
  exact hg

/-- **Hindsight.** If a has been met, then at some instant of the call a was reachable with the link it has now. -/
theorem hindsight (h : Met t a ls) (hat : a ≠ tail) :
    sys.Since map.Busy t (fun s => reach s.sh a ∧
      ((s.sh.node a).next, key s.sh a, key s.sh (s.sh.node a).next) =
        (((sys.run ls).sh.node a).next, key (sys.run ls).sh a, key (sys.run ls).sh ((sys.run ls).sh.node a).next)) ls := by
  refine Sys.Since.settled sys (fun _ => True) (fun _ _ _ => trivial)
    (fun s => ((s.sh.node a).next, key s.sh a, key s.sh (s.sh.node a).next)) (fun ls x _ h hr => ?_) ls trivial h
  obtain ⟨u, b⟩ := x
  obtain ⟨g, g', hI, haL, hA, hg⟩ := guar_snoc (Met.goodAt h) u b
  rw [reach_iff hg.inv] at hr
  -- a is not in the chain after this step, so the step did not write its link
  have hnext : ((sys.run (ls ++ [(u, b)])).sh.node a).next = ((sys.run ls).sh.node a).next := by
    rcases hg.next a (hI.addr a haL).2 with h1 | h1 | h1
    · exact h1
    · exact absurd h1.2.2 hr
    · exact absurd haL (hA.owned h1).1
  rw [hnext, hg.key_eq hI haL, hg.key_eq hI (hI.edge a haL hat).1]

/-- **The next node has been met**, and a key strictly between the two was absent at an instant of the call -/
theorem met_next (h : Met t a ls) (hat : a ≠ tail) :
    Met t ((sys.run ls).sh.node a).next ls ∧
      ∀ k, key (sys.run ls).sh a < k → k < key (sys.run ls).sh ((sys.run ls).sh.node a).next →
        sys.Since map.Busy t (fun s => contents s.sh k = none) ls := by
  have he := hindsight h hat
  refine ⟨he.imp fun j _ hj => ?_, fun k h1 h2 => he.imp fun j _ hj => ?_⟩
  · obtain ⟨hr, hn⟩ := hj
    simp only [Prod.mk.injEq] at hn
    obtain ⟨g, hI, -⟩ := inv_run (ls.take j)
    rw [reach_iff hI] at hr ⊢
    exact hn.1 ▸ hI.toChain.next_mem a hr hat
  · obtain ⟨hr, hn⟩ := hj
    simp only [Prod.mk.injEq] at hn
    obtain ⟨g, hI, -⟩ := inv_run (ls.take j)
    rw [reach_iff hI] at hr
    exact hI.absent hr hat (by rw [hn.2.1]; exact h1) (by rw [hn.2.2]; exact h2)

/-- **A met node that is marked**: its key was absent at an instant of the call. -/
theorem marked_absent (h : Met t a ls)
    (hm : ((sys.run ls).sh.node a).marked = true) :
    sys.Since map.Busy t (fun s => contents s.sh (key (sys.run ls).sh a) = none) ls := by
  -- reachable and marked at the same instant: the key is absent then
  have now : ∀ ls', Met t a ls' → reach (sys.run ls').sh a → ((sys.run ls').sh.node a).marked = true →
      sys.Since map.Busy t (fun s => contents s.sh (key (sys.run ls').sh a) = none) ls' := by
    intro ls' h' hr hm'
    obtain ⟨g, hI, -⟩ := inv_run ls'
    exact Sys.Since.now h'.here (hI.absent_marked ((reach_iff hI a).1 hr) hm')
  induction ls using List.reverseRecOn with
  | nil =>
    obtain ⟨k, hk, hr, -⟩ := id h
    obtain rfl : k = 0 := by simpa using hk
    exact now [] h hr hm
  | append_singleton ls x ih =>
    by_cases hr : reach (sys.run (ls ++ [x])).sh a
    · exact now _ h hr hm
    · have hmet : Met t a ls := (Sys.Since.of_snoc h).resolve_left hr
      obtain ⟨u, b⟩ := x
      obtain ⟨g, g', hI, haL, hA, hg⟩ := guar_snoc hmet.goodAt u b
      rw [reach_iff hg.inv] at hr
      have hlt := (hI.addr a haL).2
      rw [hg.key_eq hI haL]
      refine Sys.Since.snoc (ih hmet ?_) h.here
      cases e : ((sys.run ls).sh.node a).marked with
      | true => rfl
      | false =>
        -- an unmarked linked node is reachable, and the step that marks it does not unlink it
        have haS := hI.unmarked a haL e
        rcases hg.marked a hlt with h1 | h1
        · rw [h1, e] at hm; cases hm
        · rw [h1.2.2] at hr; exact absurd haS hr

/-! ## What a thread inside `find` knows -/

/-- the key was absent at some instant of the current call of t -/
def WasAbsent (t : ℕ) (k : ℤ) (ls : List (ℕ × Act)) : Prop :=
  sys.Since map.Busy t (fun s => contents s.sh k = none) ls

/-- the node a walk is at has been met, and if it is past the key, the key was absent -/
def Walk (t : ℕ) (ls : List (ℕ × Act)) : Loc → Prop
  | .fTest k curr => Met t curr ls ∧ (k < key (sys.run ls).sh curr → WasAbsent t k ls)
  | .fNext _ curr | .fMark _ curr => Met t curr ls
  | _ => True

/-- a step that leaves the local state of t as it is -/
theorem Walk.keep {u : ℕ} {b : Act} (h : Walk t ls ((sys.run ls).loc t))
    (hl : (sys.run (ls ++ [(u, b)])).loc t = (sys.run ls).loc t) :
    Walk t (ls ++ [(u, b)]) ((sys.run (ls ++ [(u, b)])).loc t) := by
  rw [hl]
  have hbusy : map.Busy ((sys.run ls).loc t) → map.Busy ((sys.run (ls ++ [(u, b)])).loc t) := fun h => hl ▸ h
  cases e : (sys.run ls).loc t with
  | fTest k curr =>
    rw [e] at h hbusy
    have hb := hbusy ⟨_, rfl⟩
    obtain ⟨g, g', hI, haL, -, hg⟩ := guar_snoc h.1.goodAt u b
    refine ⟨h.1.snoc hb, fun hk => ?_⟩
    rw [hg.key_eq hI haL] at hk
    exact (h.2 hk).snoc hb
  | fNext k curr | fMark k curr => rw [e] at h hbusy; exact Met.snoc h (hbusy ⟨_, rfl⟩)
  | _ => trivial

theorem loc_snoc (ls : List (ℕ × Act)) (t : ℕ) (a : Act) :
    (sys.run (ls ++ [(t, a)])).loc t = (step t (sys.run ls).sh ((sys.run ls).loc t) a).2 := by
  rw [Sys.run_snoc, Sys.next_loc_self]; rfl

/-- only `find` has the points of its walk -/
def isFind : Loc → Bool
  | .fTest _ _ | .fNext _ _ | .fMark _ _ => true
  | _ => false

theorem walk_of_not_find (h : isFind l = false) : Walk t ls l := by
  cases l <;> trivial

/-- the steps of `exec` that lead into the walk start inside it -/
theorem exec_isFind (h : isFind l = false) : isFind (exec t m l).2 = false := by
  cases l with
  | start c => cases c <;> simp only [exec, afterStart] <;> first | rfl | (split_ifs <;> rfl)
  | lockPred c p q => simp only [exec, lock]; split_ifs <;> rfl
  | lockCurr c p q => cases c <;> simp only [exec, lock, afterLocks] <;> split_ifs <;> rfl
  | test c p q | recheck c p q | assert c p q | valid1 c p q | valid2 c p q
  | valid3 c p q => simp only [exec]; split_ifs <;> rfl
  | body c p q =>
    show isFind (afterBody c p q (decide (c.key = (m.node q).key))) = false
    cases decide (c.key = (m.node q).key) <;> cases c <;> rfl
  | unlock2 w q => cases w <;> rfl
  | fTest _ _ | fNext _ _ | fMark _ _ => cases h
  | _ => rfl

/-- one step of the walk -/
theorem Walk.step_self (h : Walk t ls ((sys.run ls).loc t)) :
    Walk t (ls ++ [(t, .step)]) ((sys.run (ls ++ [(t, .step)])).loc t) := by
  obtain ⟨g, hI, hA, -⟩ := inv_run ls
  have hAt := hA t
  have hl := loc_snoc ls t .step
  cases e : (sys.run ls).loc t with
  | fTest k curr =>
    rw [e] at h hl
    simp only [step, exec] at hl
    split_ifs at hl
    · rw [hl]; exact h.1.snoc ⟨_, by rw [hl]; rfl⟩
    · rw [hl]; exact h.1.snoc ⟨_, by rw [hl]; rfl⟩
    · rw [hl]; trivial
  | fNext k curr =>
    rw [e] at h hl hAt
    change _ = Loc.fTest k ((sys.run ls).sh.node curr).next at hl
    obtain ⟨hat, hnL, -⟩ := hI.step_up hAt.1 hAt.2.1 hAt.2.2
    obtain ⟨h1, h2⟩ := met_next h hat
    have hb : map.Busy ((sys.run (ls ++ [(t, .step)])).loc t) := ⟨_, by rw [hl]; rfl⟩
    have hsh : (sys.run (ls ++ [(t, .step)])).sh = (sys.run ls).sh := by
      rw [Sys.run_snoc, Sys.next_sh, e]; rfl
    rw [hl]
    refine ⟨h1.snoc hb, fun hk => Sys.Since.snoc (h2 k hAt.2.2 ?_) hb⟩
    rwa [hsh] at hk
  | fMark k curr =>
    rw [e] at hl
    rw [hl]; trivial
  | _ =>
    refine walk_of_not_find ?_
    rw [hl, e]
    exact exec_isFind rfl

/-- **The walk of `find`, in every run.** -/
theorem walk_run (ls : List (ℕ × Act)) (t : ℕ) : Walk t ls ((sys.run ls).loc t) := by
  induction ls using List.reverseRecOn with
  | nil => trivial
  | append_singleton ls x ih =>
    obtain ⟨u, b⟩ := x
    by_cases hu : t = u
    swap
    · exact ih.keep (by rw [Sys.run_snoc, Sys.next_loc_ne sys _ _ hu])
    subst hu
    have hl := loc_snoc ls t b
    cases b with
    | step => exact ih.step_self
    | oom =>
      cases e : (sys.run ls).loc t with
      | create k v =>
        rw [e] at hl
        rw [hl]; trivial
      | _ => exact ih.keep (by rw [hl, e]; rfl)
    | invoke op =>
      simp only [step] at hl
      split_ifs at hl with hi
      · -- the walk starts at head, which is reachable and before every valid key
        obtain ⟨op, hop⟩ := op
        cases op with
        | contains k =>
          have hb : map.Busy ((sys.run (ls ++ [(t, .invoke ⟨.contains k, hop⟩)])).loc t) := ⟨_, by rw [hl]; rfl⟩
          obtain ⟨g, hI, -⟩ := inv_run (ls ++ [(t, .invoke ⟨.contains k, hop⟩)])
          rw [hl]
          refine ⟨Sys.Since.now hb (.inl rfl), fun hk => ?_⟩
          rw [hI.key_head] at hk
          exact absurd hk (not_lt.2 hop.1.le)
        | _ => rw [hl]; trivial
      · exact ih.keep hl

/-! ## The walk ends -/

/-- a bound on the steps left: two for each key between the node of the walk and the key sought -/
def stepsLeft (m : Mem) : Loc → ℕ
  | .fTest k curr => 2 * (k - key m curr).toNat + 2
  | .fNext k curr => 2 * (k - key m curr).toNat + 1
  | .fMark _ _ => 1
  | _ => 0

/-- the steps of t in a part of a run -/
def ownSteps (t : ℕ) (ls : List (ℕ × Act)) : ℕ :=
  (ls.filter fun x => x.1 = t ∧ x.2 matches .step).length

theorem stepsLeft_congr {m' : Mem} (ha : AsrtAt g t m l)
    (hk : ∀ a ∈ g.L, key m' a = key m a) : stepsLeft m' l = stepsLeft m l := by
  cases l with
  | fTest k curr => simp only [stepsLeft, hk curr ha.2]
  | fNext k curr => simp only [stepsLeft, hk curr ha.2.1]
  | _ => rfl

/-- an own step of the walk uses up one of the steps left -/
theorem stepsLeft_exec (h : Inv g m) (ha : AsrtAt g t m l)
    (hf : isFind l = true) : stepsLeft m (exec t m l).2 + 1 ≤ stepsLeft m l := by
  cases l with
  | fTest k curr =>
    simp only [exec]
    split_ifs
    · exact le_rfl
    · simp only [stepsLeft]; omega
    · simp only [stepsLeft]; omega
  | fNext k curr =>
    -- the key of the next node is greater than the key of curr, which is less than k
    have hlt : key m curr < key m (m.node curr).next := (h.edge curr ha.2.1 (h.step_up ha.1 ha.2.1 ha.2.2).1).2
    have hk : key m curr < k := ha.2.2
    simp only [exec, stepsLeft]
    omega
  | fMark k curr => exact le_rfl
  | _ => cases hf

/-- inside `find` a thread is in its walk -/
theorem isFind_of_busy {k : ℤ} (ha : AsrtAt g t m l)
    (hb : status l = .busy (.contains k)) : isFind l = true := by
  have hc : ∀ c : Ctx, c.op ≠ .contains k := fun c e => by cases c <;> cases e
  have hw : ∀ w : After, AfterOk g m w → w.status ≠ .busy (.contains k) := by
    intro w hw e
    cases w with
    | ret op r => injection e with e; exact hw k e
    | again c => injection e with e; exact hc c e
  cases l with
  | fTest _ _ | fNext _ _ | fMark _ _ => rfl
  | unlock1 w p q | unlock2 w q => exact absurd hb (hw w ha.1)
  | start c | test c p q | next c p | lockPred c p q | lockCurr c p q | recheck c p q | assert c p q | valid1 c p q
  | valid2 c p q | valid3 c p q | body c p q => injection hb with e; exact absurd e (hc c)
  | _ => cases hb

/-- the walk starts at a node with at least the key of head -/
theorem stepsLeft_le {k : ℤ} (h : Inv g m) (ha : AsrtAt g t m l)
    (hb : status l = .busy (.contains k)) : stepsLeft m l ≤ 2 * (k - INT_MIN).toNat + 2 := by
  cases l with
  | fTest k' curr =>
    have := h.low curr ha.2
    cases hb
    simp only [stepsLeft]; omega
  | fNext k' curr =>
    have := h.low curr ha.2.1
    cases hb
    simp only [stepsLeft]; omega
  | fMark k' curr => simp only [stepsLeft]; omega
  | _ => exact Nat.zero_le _

theorem exec_find_sh (hf : isFind l = true) : (exec t m l).1 = m := by
  cases l with
  | fTest _ _ | fNext _ _ | fMark _ _ => rfl
  | _ => cases hf

/-- one step of any thread: the steps left to t and the steps it has taken -/
theorem stepsLeft_snoc (x : ℕ × Act) (hf : isFind ((sys.run ls).loc t) = true) :
    stepsLeft (sys.run (ls ++ [x])).sh ((sys.run (ls ++ [x])).loc t) + ownSteps t [x] ≤
      stepsLeft (sys.run ls).sh ((sys.run ls).loc t) := by
  obtain ⟨u, b⟩ := x
  obtain ⟨g, h, hA, -⟩ := inv_run ls
  obtain ⟨g', hg, -⟩ := step_guar h (hA u) b
  have hsh : (sys.run (ls ++ [(u, b)])).sh = (step u (sys.run ls).sh ((sys.run ls).loc u) b).1 := by
    rw [Sys.run_snoc]; rfl
  by_cases hu : t = u
  · subst hu
    rw [loc_snoc, hsh]
    cases b with
    | step =>
      have hown : ownSteps t [(t, .step)] = 1 := by simp [ownSteps]
      rw [hown, show (step t (sys.run ls).sh ((sys.run ls).loc t) .step).1 = _ from exec_find_sh hf]
      exact stepsLeft_exec h (hA t) hf
    | invoke op =>
      have hi : canInvoke ((sys.run ls).loc t) = false := by
        cases e : (sys.run ls).loc t <;> rw [e] at hf <;> first | rfl | cases hf
      simp [ownSteps, step, hi]
    | oom =>
      cases e : (sys.run ls).loc t with
      | create k v => rw [e] at hf; cases hf
      | _ => simp [ownSteps, step]
  · have hl : (sys.run (ls ++ [(u, b)])).loc t = (sys.run ls).loc t := by
      rw [Sys.run_snoc, Sys.next_loc_ne sys _ _ hu]
    have hown : ownSteps t [(u, b)] = 0 := by simp [ownSteps, Ne.symm hu]
    rw [hl, hown, hsh, stepsLeft_congr (hA t) fun a => hg.key_eq h]
    exact le_rfl

/-- **`find` ends**: whatever the other threads do, a thread inside `find(k)` takes a bounded number of steps. -/
theorem find_steps_le (ls ls' : List (ℕ × Act)) (t : ℕ) (k : ℤ)
    (hb : ∀ j ≤ ls'.length, status ((sys.run (ls ++ ls'.take j)).loc t) = .busy (.contains k)) :
    ownSteps t ls' + stepsLeft (sys.run (ls ++ ls')).sh ((sys.run (ls ++ ls')).loc t) ≤
      stepsLeft (sys.run ls).sh ((sys.run ls).loc t) := by
  induction ls' using List.reverseRecOn with
  | nil => simp [ownSteps]
  | append_singleton ls' x ih =>
    have hb' : ∀ j ≤ ls'.length, status ((sys.run (ls ++ ls'.take j)).loc t) = .busy (.contains k) := by
      intro j hj
      have := hb j (by simp; omega)
      rwa [List.take_append_of_le_length hj] at this
    have hbusy := hb' ls'.length le_rfl
    rw [List.take_length] at hbusy
    obtain ⟨g, h, hA, -⟩ := inv_run (ls ++ ls')
    have h1 := stepsLeft_snoc x (isFind_of_busy (hA t) hbusy)
    have h2 := ih hb'
    have h3 : ownSteps t (ls' ++ [x]) = ownSteps t ls' + ownSteps t [x] := by
      simp only [ownSteps, List.filter_append, List.length_append]
    rw [List.append_assoc] at h1
    omega

end AlgorithmCollection.LazySynchroList
