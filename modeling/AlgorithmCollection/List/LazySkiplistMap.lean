/-
`LazySkiplist` refines an atomic map.

- Linearization points: `_add` at the store `newNode->fullyLinked = true`, `_delete` at the store `victim->marked = true`.
  After its store a `_delete` may search many times, but it finds its victim each time (`hind_run`) and returns true.
- Calls that change nothing have no fixed point. `_add` returns false when it sees a fully linked node that it has seen
  unmarked; `_delete` returns false when the search, or one of the tests on the node it found, fails. The instant that
  justifies the result is the one the walk remembers (`ret_right`).
- `skiplist_linearizable`: the whole statement, with the shape of the levels in every reachable state.
-/
import AlgorithmCollection.List.LazySkiplistFind

namespace AlgorithmCollection.LazySkiplist

open Conc

variable {P : Params} {k : ℤ} {g' : Ghost}

/-! ## Linearization points -/

def Ctx.mark : Ctx → Option Mark
  | .delete _ mark => mark
  | _ => none

/-- what the `_delete` at this point has marked -/
def markOf : Loc → Option Mark
  | .load c _ _ _ _ | .test c _ _ _ _ _ | .found c _ _ => c.mark
  | .lockPred j _ _ | .valid1 j _ _ | .valid2 j _ _ | .valid3 j _ _ | .retry j _ _ _ => j.ctx.mark
  | .flag1 _ mark _ _ _ | .flag2 _ mark _ _ _ | .flag3 _ mark _ _ _ => mark
  | .unlink1 _ mk _ _ _ _ | .unlink2 _ mk _ _ _ _ _ | .unlockVictim _ mk _ _ _ | .delUnlock _ mk _ _ _ _
  | .getVal _ mk _ => some mk
  | _ => none

/-- an `_add` has linked its node -/
def added : Loc → Bool
  | .addUnlock _ _ _ _ _ => true
  | _ => false

/-- the result a call is committed to by its own effect: a `_delete` returns the value of the node it has marked -/
def effect (m : Mem) (l : Loc) : Option Res :=
  if added l then some (.add true) else (markOf l).map fun mk => .delete (some (m.node mk.victim).val)

section

variable {g : Ghost} {t : ℕ} {m : Mem} {l : Loc}

variable {mk : Mark}

theorem Victim.linked (h : Inv P g m) (hv : Victim P g t m k mk) : mk.victim ∈ g.L 0 :=
  h.bot.sub (hv.mem 0 (Nat.zero_le _))

theorem CtxOk.linked (h : Inv P g m) {c : Ctx} (hc : CtxOk P g t m c) (hm : c.mark = some mk) :
    mk.victim ∈ g.L 0 := by
  cases c with
  | delete k mark => cases hm; exact Victim.linked h hc
  | _ => cases hm

/-- a marked victim has been linked -/
theorem AsrtAt.linked (h : Inv P g m) (ha : AsrtAt P g t m l) (hm : markOf l = some mk) :
    mk.victim ∈ g.L 0 := by
  cases l with
  | load c _ _ _ _ | test c _ _ _ _ _ | found c _ _ | flag1 k mark _ _ _ | flag2 k mark _ _ _
  | flag3 k mark _ _ _ => exact ha.1.linked h hm
  | lockPred j _ _ | valid1 j _ _ | valid2 j _ _ | valid3 j _ _ | retry j _ _ _ => exact ha.1.ctx.linked h hm
  | unlink1 k mk ws f v lv => cases hm; exact ha.same ▸ h.bot.sub (ha.mem 0 (Nat.zero_le _))
  | unlink2 k mk ws f v lv s => cases hm; exact ha.1.same ▸ h.bot.sub (ha.1.mem 0 (Nat.zero_le _))
  | unlockVictim k mk ws f v | delUnlock k mk ws f v i | getVal k mk v => cases hm; exact ha.1 ▸ ha.2
  | _ => cases hm

/-- the value a `_delete` will return does not change -/
theorem effect_eq {m' : Mem} {u : ℕ} {l1 l2 l' : Loc} (h : Inv P g m) (ha : AsrtAt P g t m l)
    (hg : Guar P g u m l1 g' m' l2) (hm : markOf l' = markOf l) (hadd : added l' = added l) :
    effect m' l' = effect m l := by
  unfold effect
  rw [hm, hadd]
  cases hmk : markOf l with
  | none => rfl
  | some mk =>
    have hv := (hg.data _ (h.addr _ (ha.linked h hmk)).2).2.1
    simp only [Option.map_some, hv]

end

variable {g : Ghost} {ls : List (ℕ × Act P)} {l : Loc} {m : Mem} {t : ℕ}

theorem not_busy_of_canInvoke (h : canInvoke l) : ¬ map.Busy l := by
  rintro ⟨op, hop⟩
  cases l with
  | idle | ret _ _ | retFind _ _ => cases hop
  | _ => cases h

/-! ## Results without effect -/

/-- a key that was skipped at the bottom level was absent then -/
theorem wasAbsent_of_gap (hF : Fine P ls) (h : Gap P map.Busy t 0 k ls) : WasAbsent P t k ls := by
  refine Sys.Since.imp h fun j hj hb => ?_
  obtain ⟨g, hI, -⟩ := (hF j hj).1
  exact hI.absent fun a ha => hb a ((reach_iff hI P.pos a).2 ha)

/-- the tests of a first search: the node was met, and was not live at some instant -/
theorem wasAbsent_of_test {ws : Ws} {f v : ℕ} (hF : Fine P ls)
    (hI : Inv P g ((sys P).run ls).sh) (hf : Found P g ((sys P).run ls).sh k ws f v) (h1 : Met P map.Busy t 0 v ls)
    (h2 : (sys P).Since map.Busy t (fun s => ¬ Live v s) ls) : WasAbsent P t k ls := by
  have := absent_of_met hF h1 h2
  rwa [(hf.mem hI).2.2.2] at this

/-- **The result of a call without effect** is right for the map at some instant of the call. -/
theorem ret_right {op : Op} {r : Res} (hb : map.Busy (((sys P).run ls).loc t))
    (hr : (exec P t ((sys P).run ls).sh (((sys P).run ls).loc t)).2 = .ret op r)
    (he : effect ((sys P).run ls).sh (((sys P).run ls).loc t) = none) :
    (sys P).Since map.Busy t (fun s => mapSpec op r (contents s.sh) (contents s.sh)) ls := by
  obtain ⟨hF, hW⟩ := fine_run ls
  obtain ⟨g, hI, hA, -⟩ := hF.good
  have hAt := hA t
  have hh := hind_run ls t
  have hw := hW t
  have absent : ∀ {k : ℤ}, op = .delete k → r = .delete none → WasAbsent P t k ls →
      (sys P).Since map.Busy t (fun s => mapSpec op r (contents s.sh) (contents s.sh)) ls := by
    rintro k rfl rfl h
    exact Sys.Since.imp h fun _ _ e => ⟨e, rfl⟩
  generalize hl : ((sys P).run ls).loc t = l at *
  cases l with
  | ret op' r' => obtain ⟨_, hb⟩ := hb; cases hb
  | test c ws lf lv p q =>
    simp only [exec] at hr
    split_ifs at hr
    cases lv <;> cases hr
  | found c ws lf =>
    change afterSearch ws c lf = _ at hr
    cases c with
    | add k v top | find k => cases lf <;> cases hr
    | delete k mark =>
      cases lf with
      | some f => cases hr
      | none =>
        cases mark with
        | some mk => cases hh.1
        | none =>
          cases hr
          refine absent rfl rfl (wasAbsent_of_gap hF ?_)
          refine Sys.Since.weaken ((hw 0 P.pos).gap (hAt.2.hit 0 le_rfl P.pos)) fun l => busy_of_within fun _ e => ?_
          cases e
  | lockPred j ws lv | lockVictim k ws f v top =>
    simp only [exec, lock] at hr
    split_ifs at hr
  | valid1 j ws lv =>
    simp only [exec] at hr
    split_ifs at hr
    cases j <;> cases hr
  | valid2 j ws lv | assert1 k v top ws lv | assert2 k v top ws lv | link2 k v top ws n lv | recheck k ws f v top
  | delUnlock k mk ws f v i | find1 k ws f | find2 k ws f => simp only [exec] at hr; split_ifs at hr
  | valid3 j ws lv =>
    simp only [exec, afterValid] at hr
    split_ifs at hr
    cases j <;> cases hr
  | retry j ws hl i | chkMarked k v top n => simp only [exec] at hr; split_ifs at hr; cases hr
  | spin k v n =>
    simp only [exec] at hr
    split_ifs at hr with hf
    cases hr
    have hw' : (((sys P).run ls).sh.node n).fullyLinked = false ∨ _ := hw
    rcases hw' with h1 | h1
    · rw [hf] at h1; cases h1
    · exact Sys.Since.imp h1 fun _ _ e => ⟨e, rfl⟩
  | addUnlock k v top ws lv | getVal k mk v => cases he
  | flag1 k mark ws f v =>
    simp only [exec] at hr
    split_ifs at hr with hf
    cases mark with
    | some mk => cases hr
    | none =>
      cases hr
      refine absent rfl rfl (wasAbsent_of_test hF hI hAt.2.1 hw.1 (Sys.Since.now (by rw [hl]; exact hb) fun hlive => ?_))
      exact hf hlive.2.1
  | flag2 k mark ws f v =>
    simp only [exec] at hr
    split_ifs at hr with hf
    cases mark with
    | some mk => cases hr
    | none =>
      cases hr
      exact absent rfl rfl (wasAbsent_of_test hF hI hAt.2.1 hw.1 (hw.2 hf))
  | flag3 k mark ws f v =>
    change afterFlag _ k mark ws f v (!(((sys P).run ls).sh.node v).marked) = _ at hr
    cases mark with
    | some mk => cases hr
    | none =>
      cases hm : (((sys P).run ls).sh.node v).marked with
      | false => rw [hm] at hr; cases hr
      | true =>
        rw [hm] at hr
        cases hr
        refine absent rfl rfl (wasAbsent_of_test hF hI hAt.2.1 hw.1 (Sys.Since.now (by rw [hl]; exact hb) fun hlive => ?_))
        have := hlive.2.2
        rw [hm] at this; cases this
  | giveUp k v =>
    cases hr
    exact absent rfl rfl hw
  | unlink2 k mk ws f v lv s => cases lv <;> cases hr
  | _ => cases hr

/-! ## Kinds of steps -/

/-- a step inside a call, or inside `find`, that commits nothing and does not return -/
theorem kind_same {m' : Mem} {l' : Loc} {was : Op → Res → Prop} (h : Inv P g m)
    (ha : AsrtAt P g t m l) (hg : Guar P g t m l g' m' l') (hv : contents m' = contents m) (hs : status l' = status l)
    (hm : markOf l' = markOf l) (hadd : added l' = added l) : map.StepKind effect was m l m' l' :=
  .same hs hv (effect_eq h ha hg hm hadd)

/-- the kind of a step inside a call; `was` holds of what a call without effect returns -/
theorem exec_kind {was : Op → Res → Prop} (h : Inv P g m)
    (ha : AsrtAt P g t m l) (hh : Hind l) (hg : Guar P g t m l g' (exec P t m l).1 (exec P t m l).2)
    (he : Effect m l (exec P t m l).1)
    (hw : ∀ op r, map.Busy l → (exec P t m l).2 = .ret op r → effect m l = none → was op r) :
    map.StepKind effect was m l (exec P t m l).1 (exec P t m l).2 := by
  -- the return of a call without effect
  have ret : ∀ {op : Op} {r : Res}, status l = .busy op → (exec P t m l).2 = .ret op r →
      contents (exec P t m l).1 = contents m → effect m l = none →
      map.StepKind effect was m l (exec P t m l).1 (exec P t m l).2 := fun {op r} hs hr hv hn =>
    .ret op r hs hv (by rw [hr]; rfl) (.inr ⟨hn, hw op r ⟨op, hs⟩ hr hn⟩)
  cases l with
  | idle | ret _ _ | retFind _ _ | aborted => exact .stutter
  | test c ws lf lv p q =>
    refine kind_same h ha hg rfl ?_ ?_ ?_ <;> simp only [exec] <;> split_ifs <;> first | rfl | (cases lv <;> rfl)
  | found c ws lf =>
    cases c with
    | add k v top | find k => cases lf <;> exact kind_same h ha hg rfl rfl rfl rfl
    | delete k mark =>
      cases lf with
      | some f => exact kind_same h ha hg rfl rfl rfl rfl
      | none =>
        cases mark with
        | some mk => cases hh.1
        | none => exact ret rfl rfl rfl rfl
  | lockPred j ws lv | lockVictim k ws f v top =>
    revert hg he
    simp only [exec, lock]
    split_ifs
    · exact fun hg he => kind_same h ha hg he rfl rfl rfl
    · exact fun _ _ => .stutter
  | valid1 j ws lv =>
    refine kind_same h ha hg rfl ?_ ?_ ?_ <;> simp only [exec] <;> split_ifs <;> first | rfl | (cases j <;> rfl)
  | valid2 j ws lv | chkMarked k v top n | recheck k ws f v top | find1 k ws f | find2 k ws f =>
    refine kind_same h ha hg rfl ?_ ?_ ?_ <;> simp only [exec] <;> split_ifs <;> rfl
  | valid3 j ws lv =>
    refine kind_same h ha hg rfl ?_ ?_ ?_ <;> simp only [exec, afterValid] <;> split_ifs <;>
      first | rfl | (cases j <;> rfl)
  | retry j ws hl i | link2 k v top ws n lv | delUnlock k mk ws f v i =>
    refine kind_same h ha hg he ?_ ?_ ?_ <;> simp only [exec] <;> split_ifs <;> rfl
  | spin k v n =>
    by_cases hf : (m.node n).fullyLinked = true
    · exact ret (r := .add false) rfl (by simp only [exec, if_pos hf]) rfl rfl
    · have e : (exec P t m (.spin k v n)).2 = .spin k v n := by simp only [exec, if_neg hf]
      rw [e]; exact .stutter
  | assert1 k v top ws lv =>
    refine kind_same h ha hg rfl ?_ ?_ ?_ <;> simp only [exec, (ha.2.2 lv ha.2.1).unmarked] <;> rfl
  | assert2 k v top ws lv =>
    refine kind_same h ha hg rfl ?_ ?_ ?_ <;> simp only [exec, if_pos (ha.2.2 lv ha.2.1).next] <;> split_ifs <;> rfl
  | full k v top ws n =>
    refine .commit (.add k v) (.add true) rfl rfl ?_ he rfl rfl
    show contents _ ≠ contents m
    rw [he.2]; exact update_some_ne he.1
  | addUnlock k v top ws lv =>
    by_cases hc : lv < top
    · refine kind_same h ha hg he ?_ ?_ ?_ <;> simp only [exec, if_pos hc] <;> rfl
    · exact .ret (.add k v) (.add true) rfl he (by simp only [exec, if_neg hc]; rfl) (.inl rfl)
  | flag1 k mark ws f v =>
    by_cases hf : (m.node v).fullyLinked = true
    · refine kind_same h ha hg rfl ?_ ?_ ?_ <;> simp only [exec, if_pos hf] <;> rfl
    · cases mark with
      | some mk => refine kind_same h ha hg rfl ?_ ?_ ?_ <;> simp only [exec, if_neg hf] <;> rfl
      | none => exact ret rfl (by simp only [exec, if_neg hf]; rfl) rfl rfl
  | flag2 k mark ws f v =>
    by_cases hf : (m.node v).topLevel = f
    · refine kind_same h ha hg rfl ?_ ?_ ?_ <;> simp only [exec, if_pos hf] <;> rfl
    · cases mark with
      | some mk => refine kind_same h ha hg rfl ?_ ?_ ?_ <;> simp only [exec, if_neg hf] <;> rfl
      | none => exact ret rfl (by simp only [exec, if_neg hf]; rfl) rfl rfl
  | flag3 k mark ws f v =>
    cases mark with
    | some mk => exact kind_same h ha hg rfl rfl rfl rfl
    | none =>
      cases hm : (m.node v).marked with
      | false => refine kind_same h ha hg rfl ?_ ?_ ?_ <;> simp only [exec, hm] <;> rfl
      | true => exact ret rfl (by simp only [exec, hm]; rfl) rfl rfl
  | giveUp k v => exact ret rfl rfl he rfl
  | mark k ws f v top =>
    refine .commit (.delete k) (.delete (some (m.node v).val)) rfl rfl ?_ he rfl ?_
    · show contents _ ≠ contents m
      rw [he.2]; exact update_none_ne he.1
    · simp [exec, effect, added, markOf, Job.ctx, Ctx.mark, setMarked, setNode]
  | unlink2 k mk ws f v lv s => cases lv <;> exact kind_same h ha hg he rfl rfl rfl
  | getVal k mk v =>
    refine .ret (.delete k) (.delete (some (m.node v).val)) rfl rfl rfl (.inl ?_)
    rw [ha.1]; rfl
  | _ => exact kind_same h ha hg he rfl rfl rfl

/-- the kind of a step -/
theorem step_kind (ls : List (ℕ × Act P)) (t : ℕ) (a : Act P) :
    map.StepKind effect
      (fun op r => (sys P).Since map.Busy t (fun s => mapSpec op r (contents s.sh) (contents s.sh)) ls)
      ((sys P).run ls).sh (((sys P).run ls).loc t) (step P t ((sys P).run ls).sh (((sys P).run ls).loc t) a).1
      (step P t ((sys P).run ls).sh (((sys P).run ls).loc t) a).2 := by
  obtain ⟨g, h, hA, -⟩ := inv_run ls
  obtain ⟨g', hg, he⟩ := step_guar h (hA t) (hind_run ls t) a
  cases a with
  | invoke op r =>
    simp only [step]
    split_ifs with hi
    · exact .outside (not_busy_of_canInvoke hi) rfl fun _ => by cases op.1 <;> rfl
    · exact .stutter
  | step => exact exec_kind h (hA t) (hind_run ls t) hg he fun op r hb hr hn => ret_right hb hr hn

theorem effect_stable : map.EffectStable (sys P) effect := by
  intro ls u a t hu _
  obtain ⟨g, h, hA, -⟩ := inv_run ls
  obtain ⟨g', hg, -⟩ := step_guar h (hA u) (hind_run ls u) a
  rw [Sys.run_snoc, Sys.next_sh]
  exact effect_eq h (hA t) hg rfl rfl

theorem map_linearizable : map.Linearizable (sys P) :=
  Object.linearizable_of_lpStep (fun ⟨_, h⟩ => by cases h) effect_stable fun ls t a => (step_kind ls t a).lpStep

/-! ## The shape of the skiplist -/

/-- **The levels.** Each level is a sorted chain from head to tail, the levels are nested, and keys are unique. -/
theorem Inv.shape (h : Inv P g m) :
    (∀ i < P.maxLevel, (head :: (nodes m i ++ [tail])).IsChain (fun a b => (m.node a).next i = b) ∧
      (head :: (nodes m i ++ [tail])).Pairwise (fun a b => (m.node a).key < (m.node b).key)) ∧
    (∀ i, i + 1 < P.maxLevel → ∀ a ∈ nodes m (i + 1), a ∈ nodes m i) ∧
    ∀ i < P.maxLevel, ∀ j < P.maxLevel, ∀ a ∈ nodes m i, ∀ b ∈ nodes m j, (m.node a).key = (m.node b).key → a = b := by
  refine ⟨fun i hi => h.chain_sorted hi, fun i hi a ha => ?_, fun i hi j hj a ha b hb e => ?_⟩
  · rw [mem_nodes h hi] at ha
    exact (mem_nodes h (Nat.lt_of_succ_lt hi) a).2 ⟨h.nest i hi ha.1, ha.2⟩
  · rw [mem_nodes h hi] at ha
    rw [mem_nodes h hj] at hb
    exact h.bot.inj a (h.down hi ha.1 0 (Nat.zero_le i)) b (h.down hj hb.1 0 (Nat.zero_le j)) e

/-- **The skiplist refines an atomic map and keeps its shape.** For any number of threads with valid keys, any outcomes of
`rand()` and any interleaving: every `add` and `delete` takes effect at one instant inside the call on the map of the
fully linked unmarked nodes; and in every reachable state each level's chain from head is strictly sorted and ends at
tail, every node of a level is in the level below, and no two reachable nodes have the same key. -/
theorem skiplist_linearizable (P : Params) :
    map.Linearizable (sys P) ∧ ∀ ls : List (ℕ × Act P),
      (∀ i < P.maxLevel,
        (head :: (nodes ((sys P).run ls).sh i ++ [tail])).IsChain (fun a b => (((sys P).run ls).sh.node a).next i = b) ∧
        (head :: (nodes ((sys P).run ls).sh i ++ [tail])).Pairwise
          (fun a b => (((sys P).run ls).sh.node a).key < (((sys P).run ls).sh.node b).key)) ∧
      (∀ i, i + 1 < P.maxLevel → ∀ a ∈ nodes ((sys P).run ls).sh (i + 1), a ∈ nodes ((sys P).run ls).sh i) ∧
      (∀ i < P.maxLevel, ∀ j < P.maxLevel, ∀ a ∈ nodes ((sys P).run ls).sh i, ∀ b ∈ nodes ((sys P).run ls).sh j,
        (((sys P).run ls).sh.node a).key = (((sys P).run ls).sh.node b).key → a = b) ∧
      ∀ t, ((sys P).run ls).loc t ≠ .aborted := by
  refine ⟨map_linearizable, fun ls => ?_⟩
  obtain ⟨g, h, hA, -⟩ := inv_run ls
  obtain ⟨h1, h2, h3⟩ := h.shape
  refine ⟨h1, h2, h3, fun t e => ?_⟩
  have := hA t
  rw [e] at this; exact this

end AlgorithmCollection.LazySkiplist
