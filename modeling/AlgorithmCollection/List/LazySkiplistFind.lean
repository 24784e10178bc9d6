/-
The search of `LazySkiplist`: what a thread without locks may conclude in hindsight.

A node met by a search at level i was reachable at that level at some instant of the search (`Met`).
- `hindsight`, `met_next`: so the node its link leads to has been met too, and a key between the two was not reachable at
  level i at some instant of the search (`Gap`).
- `absent_of_met`: if a node was reachable at one instant of a call and not live at one, its key was absent at some
  instant of the call: both its first and its last reachable instants are ones at which it is not live.
- `hind_of_walk`: a `_delete` that searches again finds its victim, at its top level. The victim is reachable at all its
  levels during the whole search, so no gap can skip it, and no other node with its key can be met.
The invariant of the states and the facts about the searches need each other, so `fine_run` proves them together, along
the run. `Fine` is the part about states.
-/
import AlgorithmCollection.List.LazySkiplistSteps

namespace AlgorithmCollection.LazySkiplist

open Conc

variable {P : Params}

/-! ## Good states -/

/-- the invariant, with a node known to have been linked at level i -/
abbrev GoodAt (P : Params) (i a : ℕ) (s : St Mem Loc) : Prop :=
  Sys.Good (fun g m => Inv P g m ∧ a ∈ g.L i) (AsrtAt P) Disj s

/-- the invariant at every instant of the run, and before the last one also the premise of `step_guar` -/
def Fine (P : Params) (ls : List (ℕ × Act P)) : Prop :=
  ∀ j ≤ ls.length, Sys.Good (Inv P) (AsrtAt P) Disj ((sys P).run (ls.take j)) ∧
    (j < ls.length → ∀ t, Hind (((sys P).run (ls.take j)).loc t))

section Fine

variable {ls : List (ℕ × Act P)} {x : ℕ × Act P}

theorem Fine.good (h : Fine P ls) : Sys.Good (Inv P) (AsrtAt P) Disj ((sys P).run ls) := by
  have := (h ls.length le_rfl).1
  rwa [List.take_length] at this

theorem Fine.prev (h : Fine P (ls ++ [x])) : Fine P ls := by
  intro j hj
  have := h j (by simp; omega)
  rw [Sys.run_take_snoc _ ls x hj] at this
  exact ⟨this.1, fun hlt => this.2 (by simp; omega)⟩

theorem Fine.hind (h : Fine P (ls ++ [x])) : ∀ t, Hind (((sys P).run ls).loc t) := by
  have := (h ls.length (by simp)).2 (by simp)
  rwa [Sys.run_take_snoc _ ls x le_rfl, Sys.run_take_length] at this

theorem Fine.snoc (h : Fine P ls) (hh : ∀ t, Hind (((sys P).run ls).loc t))
    (hg : Sys.Good (Inv P) (AsrtAt P) Disj ((sys P).run (ls ++ [x]))) : Fine P (ls ++ [x]) := by
  intro j hj
  rcases Nat.lt_or_ge ls.length j with hlt | hge
  · obtain rfl : j = (ls ++ [x]).length := by simp at hj ⊢; omega
    rw [List.take_length]
    exact ⟨hg, fun h => absurd h (lt_irrefl _)⟩
  · rw [Sys.run_take_snoc _ ls x hge]
    refine ⟨(h j hge).1, fun _ => ?_⟩
    rcases Nat.lt_or_ge j ls.length with h1 | h1
    · exact (h j hge).2 h1
    · obtain rfl : j = ls.length := le_antisymm hge h1
      rwa [Sys.run_take_length]

/-- what one step of a run does, with the ghosts before and after -/
theorem Fine.guar (h : Fine P (ls ++ [x])) (hg : ∃ g, Inv P g ((sys P).run ls).sh ∧
      ∀ t, AsrtAt P g t ((sys P).run ls).sh (((sys P).run ls).loc t)) : ∃ g g', Inv P g ((sys P).run ls).sh ∧
      (∀ t, AsrtAt P g t ((sys P).run ls).sh (((sys P).run ls).loc t)) ∧
      Guar P g x.1 ((sys P).run ls).sh (((sys P).run ls).loc x.1) g' ((sys P).run (ls ++ [x])).sh
        (((sys P).run (ls ++ [x])).loc x.1) := by
  obtain ⟨g, hI, hA⟩ := hg
  obtain ⟨g', hg, -⟩ := step_guar hI (hA x.1) (h.hind x.1) x.2
  refine ⟨g, g', hI, hA, ?_⟩
  rw [Sys.run_snoc, Sys.next_sh, Sys.next_loc_self]
  exact hg

theorem Fine.goodAt_next (h : Fine P (ls ++ [x])) {i a : ℕ} (hi : i < P.maxLevel) (hg : GoodAt P i a ((sys P).run ls)) :
    GoodAt P i a ((sys P).run (ls ++ [x])) := by
  rw [Sys.run_snoc]
  refine Sys.next_good (sys P) _ _ _ _ x.1 x.2 (fun g hI hA => ?_) hg
  obtain ⟨g', hg, -⟩ := step_guar hI.1 hA (h.hind x.1) x.2
  exact ⟨g', ⟨hg.inv, hg.grows i hi hI.2⟩, hg.asrt, hg.others hI.1 hA⟩

end Fine

/-! ## Reachable nodes -/

/-- a is on the chain of level i from head to tail -/
def reach (m : Mem) (i a : ℕ) : Prop := a = head ∨ a = tail ∨ a ∈ nodes m i

theorem reach_iff {g : Ghost} {m : Mem} (h : Inv P g m) {i : ℕ} (hi : i < P.maxLevel) (a : ℕ) :
    reach m i a ↔ a ∈ g.S i := by
  unfold reach
  rw [mem_nodes h hi]
  constructor
  · rintro (rfl | rfl | h1)
    · exact (h.level i hi).head_mem
    · exact (h.level i hi).tail_mem
    · exact h1.1
  · intro h1
    by_cases h2 : a = head
    · exact .inl h2
    · by_cases h3 : a = tail
      · exact .inr (.inl h3)
      · exact .inr (.inr ⟨h1, h2, h3⟩)

section Met

variable {B : Loc → Prop} {t : ℕ} {ls : List (ℕ × Act P)}

/-- a was reachable at level i at some instant since t entered B -/
def Met (P : Params) (B : Loc → Prop) (t i a : ℕ) (ls : List (ℕ × Act P)) : Prop :=
  (sys P).Since B t (fun s => reach s.sh i a) ls

/-- no node reachable at level i had the key k at some instant since t entered B -/
def Gap (P : Params) (B : Loc → Prop) (t i : ℕ) (k : ℤ) (ls : List (ℕ × Act P)) : Prop :=
  (sys P).Since B t (fun s => ∀ b, reach s.sh i b → key s.sh b ≠ k) ls

variable {a i : ℕ} {x : ℕ × Act P}

theorem Met.snoc (h : Met P B t i a ls) (hB : B (((sys P).run (ls ++ [x])).loc t)) :
    Met P B t i a (ls ++ [x]) := Sys.Since.snoc h hB

variable (hi : i < P.maxLevel)

include hi

theorem goodAt_of_reach (hF : Fine P ls) (hr : reach ((sys P).run ls).sh i a) : GoodAt P i a ((sys P).run ls) := by
  obtain ⟨g, hI, hA, hD⟩ := hF.good
  exact ⟨g, ⟨hI, (hI.level i hi).sub ((reach_iff hI hi a).1 hr)⟩, hA, hD⟩

theorem Met.goodAt (hF : Fine P ls) (h : Met P B t i a ls) : GoodAt P i a ((sys P).run ls) := by
  induction ls using List.reverseRecOn with
  | nil =>
    obtain ⟨k, hk, hr, -⟩ := h
    obtain rfl : k = 0 := by simpa using hk
    exact goodAt_of_reach hi hF hr
  | append_singleton ls x ih =>
    rcases Sys.Since.of_snoc h with hr | h'
    · exact goodAt_of_reach hi hF hr
    · exact hF.goodAt_next hi (ih hF.prev h')

/-- the step after a run in which a was met -/
theorem Met.guar (hF : Fine P (ls ++ [x])) (h : Met P B t i a ls) : ∃ g g', Inv P g ((sys P).run ls).sh ∧ a ∈ g.L i ∧
      AsrtAt P g x.1 ((sys P).run ls).sh (((sys P).run ls).loc x.1) ∧
      Guar P g x.1 ((sys P).run ls).sh (((sys P).run ls).loc x.1) g' ((sys P).run (ls ++ [x])).sh
        (((sys P).run (ls ++ [x])).loc x.1) := by
  obtain ⟨g, ⟨hI, ha⟩, hA, -⟩ := h.goodAt hi hF.prev
  obtain ⟨g', hg, -⟩ := step_guar hI (hA x.1) (hF.hind x.1) x.2
  refine ⟨g, g', hI, ha, hA x.1, ?_⟩
  rw [Sys.run_snoc, Sys.next_sh, Sys.next_loc_self]
  exact hg

theorem Met.key_eq (hF : Fine P (ls ++ [x])) (h : Met P B t i a ls) :
    key ((sys P).run (ls ++ [x])).sh a = key ((sys P).run ls).sh a := by
  obtain ⟨g, g', hI, ha, -, hg⟩ := h.guar hi hF
  exact hg.key_eq hI hi ha

theorem Met.top_eq (hF : Fine P (ls ++ [x])) (h : Met P B t i a ls) :
    (((sys P).run (ls ++ [x])).sh.node a).topLevel = (((sys P).run ls).sh.node a).topLevel := by
  obtain ⟨g, g', hI, ha, -, hg⟩ := h.guar hi hF
  exact (hg.data a (hI.lt_fresh hi ha)).2.2

/-- the key and the level of a reachable node stay as they are -/
theorem data_at {j : ℕ} (hF : Fine P ls) (hj : j ≤ ls.length) (hr : reach ((sys P).run (ls.take j)).sh i a) :
    key ((sys P).run ls).sh a = key ((sys P).run (ls.take j)).sh a ∧
      (((sys P).run ls).sh.node a).topLevel = (((sys P).run (ls.take j)).sh.node a).topLevel := by
  induction ls using List.reverseRecOn with
  | nil => simp
  | append_singleton ls x ih =>
    rcases Nat.lt_or_ge ls.length j with hlt | hge
    · obtain rfl : j = (ls ++ [x]).length := by simp at hj ⊢; omega
      rw [List.take_length]
      exact ⟨rfl, rfl⟩
    · rw [Sys.run_take_snoc _ ls x hge] at hr ⊢
      have hmet : Met P (fun _ => True) 0 i a ls := ⟨j, hge, hr, fun _ _ _ => trivial⟩
      obtain ⟨h1, h2⟩ := ih hF.prev hge hr
      exact ⟨(hmet.key_eq hi hF).trans h1, (hmet.top_eq hi hF).trans h2⟩

/-- **Hindsight.** If a has been met, then at some instant it was reachable with the link it has now. -/
theorem hindsight (hF : Fine P ls) (h : Met P B t i a ls) (hat : a ≠ tail) : (sys P).Since B t (fun s => reach s.sh i a ∧
      ((s.sh.node a).next i, key s.sh a, key s.sh ((s.sh.node a).next i)) =
        ((((sys P).run ls).sh.node a).next i, key ((sys P).run ls).sh a,
          key ((sys P).run ls).sh ((((sys P).run ls).sh.node a).next i))) ls := by
  refine Sys.Since.settled (sys P) (Fine P) (fun _ _ => Fine.prev)
    (fun s => ((s.sh.node a).next i, key s.sh a, key s.sh ((s.sh.node a).next i))) (fun ls x hF h hr => ?_) ls hF h
  obtain ⟨g, g', hI, haL, hA, hg⟩ := Met.guar hi hF h
  rw [reach_iff hg.inv hi] at hr
  -- a is not in the chain after this step, so the step did not write its link
  have hnext : (((sys P).run (ls ++ [x])).sh.node a).next i = (((sys P).run ls).sh.node a).next i := by
    rcases hg.next a (hI.lt_fresh hi haL) i hi with h1 | h1 | h1
    · exact h1
    · exact absurd h1.2.2 hr
    · exact absurd haL ((hA.owned h1.1).2.1 i h1.2 hi)
  rw [hnext, hg.key_eq hI hi haL, hg.key_eq hI hi ((hI.level i hi).edge a haL hat).1]

/-- **The next node has been met**, and a key strictly between the two was skipped rightly -/
theorem met_next (hF : Fine P ls) (h : Met P B t i a ls) (hat : a ≠ tail) :
    Met P B t i ((((sys P).run ls).sh.node a).next i) ls ∧
      ∀ k, key ((sys P).run ls).sh a < k → k < key ((sys P).run ls).sh ((((sys P).run ls).sh.node a).next i) →
        Gap P B t i k ls := by
  have he := hindsight hi hF h hat
  refine ⟨he.imp fun j hj e => ?_, fun k h1 h2 => he.imp fun j hj e b hb => ?_⟩
  · obtain ⟨hr, hn⟩ := e
    simp only [Prod.mk.injEq] at hn
    obtain ⟨g, hI, -⟩ := (hF j hj).1
    rw [reach_iff hI hi] at hr ⊢
    exact hn.1 ▸ (hI.level i hi).next_mem a hr hat
  · obtain ⟨hr, hn⟩ := e
    simp only [Prod.mk.injEq] at hn
    obtain ⟨g, hI, -⟩ := (hF j hj).1
    rw [reach_iff hI hi] at hr hb
    exact (hI.level i hi).not_between hr hat (by rw [hn.2.1]; exact h1) (by rw [hn.2.2]; exact h2) hb

/-- a node met at a level has been met at the levels below -/
theorem Met.down {j : ℕ} (hji : j ≤ i) (hF : Fine P ls) (h : Met P B t i a ls) : Met P B t j a ls := by
  refine Sys.Since.imp h fun n hn hr => ?_
  obtain ⟨g, hI, -⟩ := (hF n hn).1
  rw [reach_iff hI hi] at hr
  exact (reach_iff hI (hji.trans_lt hi) a).2 (hI.down hi hr j hji)

omit hi

/-! ## Live nodes -/

/-- a is fully linked, not marked and reachable -/
def Live (a : ℕ) (s : St Mem Loc) : Prop :=
  reach s.sh 0 a ∧ (s.sh.node a).fullyLinked = true ∧ (s.sh.node a).marked = false

theorem absent_now (hF : Fine P ls) (hr : reach ((sys P).run ls).sh 0 a) (hl : ¬ Live a ((sys P).run ls)) :
    contents ((sys P).run ls).sh (key ((sys P).run ls).sh a) = none := by
  obtain ⟨g, hI, -⟩ := hF.good
  refine hI.absent_of_not_live ((reach_iff hI P.pos a).1 hr) fun h => hl ⟨hr, ?_⟩
  exact (mem_live.1 h).2.2.2

/-- **A node met and not live, at instants of the same call**: its key was absent at an instant of the call. -/
theorem absent_of_met (hF : Fine P ls) (h1 : Met P B t 0 a ls)
    (h2 : (sys P).Since B t (fun s => ¬ Live a s) ls) :
    (sys P).Since B t (fun s => contents s.sh (key ((sys P).run ls).sh a) = none) ls := by
  induction ls using List.reverseRecOn with
  | nil =>
    obtain ⟨k, hk, hr, -⟩ := id h1
    obtain ⟨k', hk', hn, -⟩ := id h2
    obtain rfl : k = 0 := by simpa using hk
    obtain rfl : k' = 0 := by simpa using hk'
    exact Sys.Since.now h1.here (absent_now hF hr hn)
  | append_singleton ls x ih =>
    by_cases hr : reach ((sys P).run (ls ++ [x])).sh 0 a
    · by_cases hn : Live a ((sys P).run (ls ++ [x]))
      swap
      · exact Sys.Since.now h1.here (absent_now hF hr hn)
      · -- a is live now, so it was not live before this step
        have h2' : (sys P).Since B t (fun s => ¬ Live a s) ls := (Sys.Since.of_snoc h2).resolve_left fun e => e hn
        by_cases hr' : reach ((sys P).run ls).sh 0 a
        · have h1' : Met P B t 0 a ls := Sys.Since.now h2'.here hr'
          rw [Met.key_eq P.pos hF h1']
          exact (ih hF.prev h1' h2').snoc h1.here
        · -- a node is not fully linked when it is linked at the bottom level
          obtain ⟨g0, hI0, hA0, -⟩ := hF.prev.good
          obtain ⟨g, g', hI, hA, hg⟩ := hF.guar ⟨g0, hI0, hA0⟩
          rw [reach_iff hI P.pos] at hr'
          rw [reach_iff hg.inv P.pos] at hr
          obtain ⟨hlt, -, -, hnf⟩ := (hA x.1).owned (hg.new 0 P.pos a hr hr')
          rcases hg.full a hlt with h3 | h3
          · rw [hn.2.1, hnf] at h3; cases h3
          · rw [h3.2.2] at hr; exact absurd hr hr'
    · have h1' : Met P B t 0 a ls := (Sys.Since.of_snoc h1).resolve_left hr
      -- an unlinked node was marked before, so it was not live
      have hnl : ¬ Live a ((sys P).run ls) := by
        rintro ⟨hr', -, hm⟩
        obtain ⟨g, g', hI, ha, hA, hg⟩ := Met.guar P.pos hF h1'
        rw [reach_iff hI P.pos] at hr'
        rw [reach_iff hg.inv P.pos] at hr
        have := (hg.keep 0 P.pos a hr' hr).1
        rw [hm] at this; cases this
      rw [Met.key_eq P.pos hF h1']
      exact (ih hF.prev h1' (Sys.Since.now h1'.here hnl)).snoc h1.here

end Met

/-! ## What a thread knows about its search -/

def searching : Loc → Option Ctx
  | .load c _ _ _ _ | .test c _ _ _ _ _ | .found c _ _ => some c
  | _ => none

/-- inside a search of c -/
def within (c : Ctx) (l : Loc) : Prop := searching l = some c

theorem busy_of_within {c : Ctx} (hc : ∀ k, c ≠ .find k) {l : Loc} (h : within c l) : map.Busy l := by
  have hb : map.Busy l ∨ ∃ k, c = .find k := by
    cases l with
    | load c' _ _ _ _ | test c' _ _ _ _ _ | found c' _ _ => cases h; cases c with
      | find k => exact .inr ⟨k, rfl⟩
      | _ => exact .inl ⟨_, rfl⟩
    | _ => cases h
  exact hb.resolve_right fun ⟨k, e⟩ => hc k e

theorem ctx_of_within {g : Ghost} {t : ℕ} {m : Mem} {c : Ctx} {l : Loc} (ha : AsrtAt P g t m l) (hw : within c l) :
    CtxOk P g t m c := by
  cases l with
  | load c' _ _ _ _ | test c' _ _ _ _ _ | found c' _ _ => cases hw; exact ha.1
  | _ => cases hw

/-- a finished level: succs has been met, and if it is past the key, the key was not reachable at this level -/
structure Done (P : Params) (t : ℕ) (ls : List (ℕ × Act P)) (c : Ctx) (ws : Ws) (i : ℕ) : Prop where
  met : Met P (within c) t i (ws.succs i) ls
  gap : c.key < key ((sys P).run ls).sh (ws.succs i) → Gap P (within c) t i c.key ls

/-- the key was absent at some instant of the current call of t -/
def WasAbsent (P : Params) (t : ℕ) (k : ℤ) (ls : List (ℕ × Act P)) : Prop :=
  (sys P).Since map.Busy t (fun s => contents s.sh k = none) ls

theorem WasAbsent.snoc {t : ℕ} {k : ℤ} {ls : List (ℕ × Act P)} {x : ℕ × Act P} (h : WasAbsent P t k ls)
    (hB : map.Busy (((sys P).run (ls ++ [x])).loc t)) : WasAbsent P t k (ls ++ [x]) := Sys.Since.snoc h hB

def Walk (P : Params) (t : ℕ) (ls : List (ℕ × Act P)) : Loc → Prop
  | .load c ws _ lv p => Met P (within c) t lv p ls ∧ ∀ i, lv < i → i < P.maxLevel → Done P t ls c ws i
  | .test c ws _ lv p q =>
    Met P (within c) t lv p ls ∧ Met P (within c) t lv q ls ∧
      (c.key < key ((sys P).run ls).sh q → Gap P (within c) t lv c.key ls) ∧
      ∀ i, lv < i → i < P.maxLevel → Done P t ls c ws i
  | .found c ws _ => ∀ i < P.maxLevel, Done P t ls c ws i
  | .spin k _ n =>
    (((sys P).run ls).sh.node n).fullyLinked = false ∨
      (sys P).Since map.Busy t (fun s => contents s.sh k ≠ none) ls
  | .flag1 _ none _ f v | .flag2 _ none _ f v | .flag3 _ none _ f v =>
    Met P map.Busy t 0 v ls ∧
      ((((sys P).run ls).sh.node v).topLevel ≠ f → (sys P).Since map.Busy t (fun s => ¬ Live v s) ls)
  | .lockVictim _ _ _ v _ | .recheck _ _ _ v _ => Met P map.Busy t 0 v ls
  | .giveUp k _ => WasAbsent P t k ls
  | _ => True

section Walk

variable {t : ℕ} {ls : List (ℕ × Act P)} {x : ℕ × Act P}

variable {c : Ctx} {g : Ghost} {ws : Ws}

theorem Done.snoc {i : ℕ} (hi : i < P.maxLevel) (hF : Fine P (ls ++ [x])) (h : Done P t ls c ws i)
    (hw : within c (((sys P).run (ls ++ [x])).loc t)) : Done P t (ls ++ [x]) c ws i := by
  refine ⟨h.met.snoc hw, fun hk => ?_⟩
  rw [h.met.key_eq hi hF] at hk
  exact (h.gap hk).snoc hw

/-- a node that becomes fully linked is live then -/
theorem present_of_full {g' : Ghost} {m m' : Mem} {l l' : Loc} {u n : ℕ} (hI : Inv P g m)
    (hg : Guar P g u m l g' m' l') (hn : n ∈ g.L 0) (hr : inRange P (key m n)) (h0 : (m.node n).fullyLinked = false)
    (h1 : (m'.node n).fullyLinked = true) : contents m' (key m n) ≠ none := by
  have hlt := (hI.addr n hn).2
  have hm : (m.node n).marked = false := by
    cases e : (m.node n).marked with
    | false => rfl
    | true => rw [hI.mark n hn e] at h0; cases h0
  have hm' : (m'.node n).marked = false := by
    rcases hg.marked n hlt with h2 | h2
    · exact h2.trans hm
    · rw [h2.2.2.1] at h0; cases h0
  have hk := hg.key_eq hI P.pos hn
  have hnode := hg.inv.node_of_key hr hk
  have hlive : n ∈ live g' m' :=
    mem_live.2 ⟨hg.inv.bot.unmarked n (hg.grows 0 P.pos hn) hm', hnode.1, hnode.2, h1, hm'⟩
  rw [← hk, hg.inv.present hlive]
  exact nofun

theorem loc_snoc (ls : List (ℕ × Act P)) (t : ℕ) (a : Act P) :
    ((sys P).run (ls ++ [(t, a)])).loc t = (step P t ((sys P).run ls).sh (((sys P).run ls).loc t) a).2 := by
  rw [Sys.run_snoc, Sys.next_loc_self]; rfl

theorem sh_snoc (ls : List (ℕ × Act P)) (t : ℕ) (a : Act P) :
    ((sys P).run (ls ++ [(t, a)])).sh = (step P t ((sys P).run ls).sh (((sys P).run ls).loc t) a).1 := by
  rw [Sys.run_snoc]; rfl

/-- a step that leaves the local state of t as it is -/
theorem Walk.keep (hF : Fine P (ls ++ [x])) (h : Walk P t ls (((sys P).run ls).loc t))
    (hl : ((sys P).run (ls ++ [x])).loc t = ((sys P).run ls).loc t) :
    Walk P t (ls ++ [x]) (((sys P).run (ls ++ [x])).loc t) := by
  obtain ⟨g, g', hI, hA, hg⟩ := hF.guar (hF.prev.good.imp fun g hg => ⟨hg.1, hg.2.1⟩)
  have hAt := hA t
  rw [hl]
  have hw : ∀ {B : Loc → Prop}, B (((sys P).run ls).loc t) → B (((sys P).run (ls ++ [x])).loc t) := fun h => hl ▸ h
  cases e : ((sys P).run ls).loc t with
  | load c ws lf lv p =>
    rw [e] at h hw
    exact ⟨h.1.snoc (hw (B := within c) rfl), fun i h1 h2 => (h.2 i h1 h2).snoc h2 hF (hw (B := within c) rfl)⟩
  | test c ws lf lv p q =>
    rw [e] at h hw hAt
    obtain ⟨h1, h2, h3, h4⟩ := h
    refine ⟨h1.snoc (hw (B := within c) rfl), h2.snoc (hw (B := within c) rfl), fun hk => ?_,
      fun i h5 h6 => (h4 i h5 h6).snoc h6 hF (hw (B := within c) rfl)⟩
    rw [Met.key_eq hAt.2.1 hF h2] at hk
    exact (h3 hk).snoc (hw (B := within c) rfl)
  | found c ws lf =>
    rw [e] at h hw
    exact fun i hi => (h i hi).snoc hi hF (hw (B := within c) rfl)
  | spin k v n =>
    rw [e] at h hw hAt
    have hb := hw (B := map.Busy) ⟨_, rfl⟩
    rcases h with h | h
    · cases hf : (((sys P).run (ls ++ [x])).sh.node n).fullyLinked with
      | false => exact .inl hf
      | true =>
        obtain ⟨hr, hn, hk⟩ := hAt
        have := present_of_full hI hg hn (hk ▸ hr) h hf
        rw [hk] at this
        exact .inr (Sys.Since.now hb this)
    · exact .inr (h.snoc hb)
  | flag1 k mark ws f v | flag2 k mark ws f v | flag3 k mark ws f v =>
    cases mark with
    | some mk => trivial
    | none =>
      rw [e] at h hw
      have hb := hw (B := map.Busy) ⟨_, rfl⟩
      refine ⟨h.1.snoc hb, fun ht => ?_⟩
      rw [Met.top_eq P.pos hF h.1] at ht
      exact (h.2 ht).snoc hb
  | lockVictim k ws f v top | recheck k ws f v top => rw [e] at h hw; exact Met.snoc h (hw (B := map.Busy) ⟨_, rfl⟩)
  | giveUp k v => rw [e] at h hw; exact WasAbsent.snoc h (hw (B := map.Busy) ⟨_, rfl⟩)
  | _ => trivial

/-- a search starts at head, at the highest level -/
theorem walk_search (hl : ((sys P).run ls).loc t = search P c) : Walk P t ls (search P c) := by
  refine ⟨Sys.Since.now (by rw [hl]; rfl) (.inl rfl), fun i h1 h2 => ?_⟩
  omega

/-- a step that leads to a level finished, or not: `endLevel` -/
theorem walk_endLevel {lf : Option ℕ} {lv p q : ℕ} (hlv : lv < P.maxLevel) (hF : Fine P ls)
    (hp : Met P (within c) t lv p ls) (hq : Met P (within c) t lv q ls)
    (hgap : c.key < key ((sys P).run ls).sh q → Gap P (within c) t lv c.key ls)
    (hd : ∀ i, lv < i → i < P.maxLevel → Done P t ls c ws i) :
    Walk P t ls (endLevel ((sys P).run ls).sh c ws lf lv p q) := by
  have hd' : ∀ i, lv ≤ i → i < P.maxLevel → Done P t ls c (ws.set lv p q) i := by
    intro i h1 h2
    by_cases hi : i = lv
    · subst hi
      have e : (ws.set i p q).succs i = q := by simp [Ws.set]
      exact ⟨by rw [e]; exact hq, by rw [e]; exact hgap⟩
    · have e : (ws.set lv p q).succs i = ws.succs i := by simp [Ws.set, Function.update_of_ne hi]
      have hdi := hd i (by omega) h2
      exact ⟨by rw [e]; exact hdi.met, by rw [e]; exact hdi.gap⟩
  cases lv with
  | zero => exact fun i hi => hd' i (Nat.zero_le _) hi
  | succ l => exact ⟨hp.down hlv (Nat.le_succ l) hF, fun i h1 h2 => hd' i h1 h2⟩

/-- what a `_delete` knows about the victim it has found first -/
theorem walk_victim {k : ℤ} {f : ℕ} (hF : Fine P ls) (hI : Inv P g ((sys P).run ls).sh)
    (hs : Searched P g (key ((sys P).run ls).sh) k ws (some f) 0)
    (hd : ∀ i < P.maxLevel, Done P t ls (.delete k none) ws i) :
    Met P map.Busy t 0 (ws.succs f) ls ∧
      ((((sys P).run ls).sh.node (ws.succs f)).topLevel ≠ f →
        (sys P).Since map.Busy t (fun s => ¬ Live (ws.succs f) s) ls) := by
  have hbusy : ∀ l, within (.delete k none) l → map.Busy l := fun l => busy_of_within fun _ e => by cases e
  obtain ⟨hlt, hvf, hv0, hk⟩ := Found.mem hI (show Found P g _ k ws f (ws.succs f) from ⟨hs, rfl⟩)
  have hmet := (hd f hlt).met.down hlt (Nat.zero_le f) hF
  refine ⟨Sys.Since.weaken hmet hbusy, fun hne => ?_⟩
  -- the search did not see the victim at its top level, so at some instant it was not linked there
  have hn := hI.node_of_key hs.range hk
  have hgt : f < (((sys P).run ls).sh.node (ws.succs f)).topLevel :=
    lt_of_le_of_ne (hI.top f hlt _ hvf) (Ne.symm hne)
  have htop := hI.short _ hv0 hn.1 hn.2
  have hgap := (hd _ htop).gap (hs.hit.2.2.2 _ hgt htop)
  refine Sys.Since.weaken (Sys.Since.imp hgap fun j hj hb hlive => ?_) hbusy
  obtain ⟨g', hI', -⟩ := (hF j hj).1
  obtain ⟨hr, hfull, hm⟩ := hlive
  obtain ⟨hkey, htl⟩ := data_at P.pos hF hj hr
  have hL := hI'.full _ htop _ (hI'.bot.sub ((reach_iff hI' P.pos _).1 hr)) hfull htl.le
  exact hb _ ((reach_iff hI' htop _).2 ((hI'.level _ htop).unmarked _ hL hm)) (hkey.symm.trans hk)

/-- **A `_delete` that searches again finds its victim**, at its top level. -/
theorem hind_of_walk (hF : Fine P ls)
    (ha : AsrtAt P g t ((sys P).run ls).sh (((sys P).run ls).loc t)) (h : Walk P t ls (((sys P).run ls).loc t)) :
    Hind (((sys P).run ls).loc t) := by
  cases e : ((sys P).run ls).loc t with
  | found c ws lf =>
    rw [e] at ha h
    obtain ⟨hc, hs⟩ := ha
    cases c with
    | add k v top | find k => trivial
    | delete k mark =>
      cases mark with
      | none => trivial
      | some mk =>
        have hv : Victim P g t _ k mk := hc
        -- during the whole search the victim is reachable, at its levels and no others
        have vic : ∀ j ≤ ls.length, within (.delete k (some mk)) (((sys P).run (ls.take j)).loc t) →
            ∃ g', Inv P g' ((sys P).run (ls.take j)).sh ∧ Victim P g' t ((sys P).run (ls.take j)).sh k mk := by
          intro j hj hw
          obtain ⟨g', hI', hA', -⟩ := (hF j hj).1
          exact ⟨g', hI', ctx_of_within (hA' t) hw⟩
        have same : ∀ i < P.maxLevel, key ((sys P).run ls).sh (ws.succs i) = k → i ≤ mk.topLevel ∧
            ws.succs i = mk.victim := by
          intro i hi hk
          obtain ⟨j, hj, hr, hin⟩ := (h i hi).met
          obtain ⟨g', hI', hv'⟩ := vic j hj (hin j le_rfl hj)
          have hkj := (data_at hi hF hj hr).1.symm.trans hk
          rw [reach_iff hI' hi] at hr
          have heq : ws.succs i = mk.victim :=
            hI'.bot.inj _ (hI'.down hi hr 0 (Nat.zero_le i)) _ (hv'.mem 0 (Nat.zero_le _)) (hkj.trans hv'.key.symm)
          have htop := hI'.top i hi _ ((hI'.level i hi).sub hr)
          rw [heq, hv'.top] at htop
          exact ⟨htop, heq⟩
        have hit : key ((sys P).run ls).sh (ws.succs mk.topLevel) = k := by
          by_contra hne
          have hlt := lt_of_le_of_ne (hs.near _ (Nat.zero_le _) hv.lt).le (Ne.symm hne)
          obtain ⟨j, hj, hb, hin⟩ := (h _ hv.lt).gap hlt
          obtain ⟨g', hI', hv'⟩ := vic j hj (hin j le_rfl hj)
          exact hb _ ((reach_iff hI' hv.lt _).2 (hv'.mem _ le_rfl)) hv'.key
        have hh := hs.hit
        cases lf with
        | none => exact absurd hit (hh _ (Nat.zero_le _) hv.lt).ne'
        | some f =>
          obtain ⟨-, hf, hkf, habove⟩ := hh
          have h1 : ¬ f < mk.topLevel := fun hlt => absurd hit (habove _ hlt hv.lt).ne'
          obtain rfl : f = mk.topLevel := le_antisymm (same f hf hkf).1 (not_lt.1 h1)
          exact ⟨rfl, (same _ hf hkf).2⟩
  | _ => trivial

/-- one own step -/
theorem Walk.step_self (hF : Fine P (ls ++ [(t, Act.step)])) (h : Walk P t ls (((sys P).run ls).loc t)) :
    Walk P t (ls ++ [(t, Act.step)]) (((sys P).run (ls ++ [(t, Act.step)])).loc t) := by
  obtain ⟨g, hI, hA, -⟩ := hF.prev.good
  have hAt := hA t
  have hl := loc_snoc ls t (.step : Act P)
  have hsh := sh_snoc ls t (.step : Act P)
  cases e : ((sys P).run ls).loc t with
  | load c ws lf lv p =>
    rw [e] at h hl hsh hAt
    change _ = Loc.test c ws lf lv p _ at hl
    change _ = ((sys P).run ls).sh at hsh
    obtain ⟨-, hlv, hp, hlt, hs⟩ := hAt
    have hw : within c (((sys P).run (ls ++ [(t, Act.step)])).loc t) := by rw [hl]; rfl
    obtain ⟨h1, h2⟩ := met_next hlv hF.prev h.1 (hI.ne_tail hs.range hlt)
    rw [hl]
    refine ⟨h.1.snoc hw, h1.snoc hw, fun hk => ?_, fun i h3 h4 => (h.2 i h3 h4).snoc h4 hF hw⟩
    rw [hsh] at hk
    exact Sys.Since.snoc (h2 c.key hlt hk) hw
  | test c ws lf lv p q =>
    rw [e] at h hl hsh hAt
    obtain ⟨h1, h2, h3, h4⟩ := h
    change _ = (if _ then _ else _) at hl
    change _ = ((sys P).run ls).sh at hsh
    have hlv := hAt.2.1
    have hw : within c (((sys P).run (ls ++ [(t, Act.step)])).loc t) := by
      rw [hl]
      split_ifs
      · rfl
      · cases lv <;> rfl
    have hd : ∀ i, lv < i → i < P.maxLevel → Done P t (ls ++ [(t, Act.step)]) c ws i := fun i h5 h6 =>
      (h4 i h5 h6).snoc h6 hF hw
    rw [hl]
    split_ifs with hk
    · exact ⟨h2.snoc hw, hd⟩
    · rw [← hsh]
      refine walk_endLevel hlv hF (h1.snoc hw) (h2.snoc hw) (fun hk => ?_) hd
      rw [hsh] at hk
      exact Sys.Since.snoc (h3 hk) hw
  | found c ws lf =>
    rw [e] at h hl hsh hAt
    change _ = afterSearch ws c lf at hl
    change _ = ((sys P).run ls).sh at hsh
    rw [hl]
    cases c with
    | add k v top | find k => cases lf <;> trivial
    | delete k mark =>
      cases lf with
      | none => trivial
      | some f =>
        cases mark with
        | some mk => trivial
        | none =>
          have hb : map.Busy (((sys P).run (ls ++ [(t, Act.step)])).loc t) := by rw [hl]; exact ⟨_, rfl⟩
          obtain ⟨h1, h2⟩ := walk_victim hF.prev hI hAt.2 h
          refine ⟨h1.snoc hb, fun hne => ?_⟩
          rw [hsh] at hne
          exact (h2 hne).snoc hb
  | chkMarked k v top n =>
    rw [e] at hl hsh hAt
    change _ = (if _ then _ else _) at hl
    change _ = ((sys P).run ls).sh at hsh
    split_ifs at hl with hm
    · rw [hl]; exact walk_search hl
    · rw [hl]
      show _ = false ∨ _
      rw [hsh]
      cases hf : (((sys P).run ls).sh.node n).fullyLinked with
      | false => exact .inl rfl
      | true =>
        -- fully linked and not marked: the key is there now
        obtain ⟨hr, -, hn, hk⟩ := hAt
        have hnode := hI.node_of_key hr hk
        have hm' : (((sys P).run ls).sh.node n).marked = false := by simpa using hm
        have hp := hI.present (mem_live.2 ⟨hI.bot.unmarked n hn hm', hnode.1, hnode.2, hf, hm'⟩)
        refine .inr (Sys.Since.now ⟨.add k v, by rw [hl]; rfl⟩ ?_)
        rw [hsh, ← hk, hp]
        exact nofun
  | spin k v n =>
    by_cases hf : (((sys P).run ls).sh.node n).fullyLinked = true
    · rw [e] at hl
      change _ = (if _ then _ else _) at hl
      rw [if_pos hf] at hl
      rw [hl]; trivial
    · refine h.keep hF ?_
      rw [e] at hl ⊢
      change _ = (if _ then _ else _) at hl
      rwa [if_neg hf] at hl
  | retry j ws hh i =>
    rw [e] at hl
    change _ = (if _ then _ else _) at hl
    split_ifs at hl with hi
    · rw [hl]; trivial
    · rw [hl]; exact walk_search hl
  | flag1 k mark ws f v | flag2 k mark ws f v =>
    rw [e] at h hl hsh hAt
    change _ = (if _ then _ else _) at hl
    change _ = ((sys P).run ls).sh at hsh
    rw [hl]
    cases mark with
    | some mk => split_ifs <;> trivial
    | none =>
      split_ifs with hf
      · have hb : map.Busy (((sys P).run (ls ++ [(t, Act.step)])).loc t) := by rw [hl, if_pos hf]; exact ⟨_, rfl⟩
        refine ⟨h.1.snoc hb, fun ht => ?_⟩
        rw [hsh] at ht
        exact (h.2 ht).snoc hb
      · trivial
  | flag3 k mark ws f v =>
    rw [e] at h hl
    change _ = afterFlag _ _ _ _ _ _ _ at hl
    rw [hl]
    cases mark with
    | some mk => trivial
    | none =>
      generalize hfl : (!(((sys P).run ls).sh.node v).marked) = flag at hl ⊢
      cases flag with
      | true => exact h.1.snoc (by rw [hl]; exact ⟨_, rfl⟩)
      | false => trivial
  | lockVictim k ws f v top =>
    by_cases hc : canLock ((sys P).run ls).sh t v
    · rw [e] at h hl
      change _ = (lock t _ v _ _).2 at hl
      unfold lock at hl
      rw [if_pos hc] at hl
      rw [hl]
      exact Met.snoc h (by rw [hl]; exact ⟨_, rfl⟩)
    · refine h.keep hF ?_
      rw [e] at hl ⊢
      change _ = (lock t _ v _ _).2 at hl
      unfold lock at hl
      rwa [if_neg hc] at hl
  | recheck k ws f v top =>
    rw [e] at h hl hAt
    change _ = (if _ then _ else _) at hl
    split_ifs at hl with hm
    · have hb : map.Busy (((sys P).run (ls ++ [(t, Act.step)])).loc t) := by rw [hl]; exact ⟨_, rfl⟩
      have hmet : Met P map.Busy t 0 v ls := h
      have habs := absent_of_met hF.prev hmet (Sys.Since.now hmet.here fun hlive => by
        have := hlive.2.2
        rw [hm] at this; cases this)
      rw [(hAt.1.mem hI).2.2.2] at habs
      rw [hl]
      exact WasAbsent.snoc habs hb
    · rw [hl]; trivial
  | lockPred j ws lv =>
    rw [e] at hl
    change _ = (lock t _ _ _ _).2 at hl
    unfold lock at hl
    rw [hl]
    split_ifs <;> trivial
  | valid1 j ws lv =>
    rw [e] at hl
    change _ = (if _ then _ else _) at hl
    rw [hl]
    split_ifs
    · trivial
    · cases j <;> trivial
  | valid3 j ws lv =>
    rw [e] at hl
    change _ = (if _ then _ else _) at hl
    rw [hl]
    unfold afterValid
    split_ifs <;> first | trivial | (cases j <;> trivial)
  | unlink2 k mk ws f v lv s =>
    rw [e] at hl
    rw [hl]
    cases lv <;> trivial
  | _ =>
    rw [e] at hl
    rw [hl]
    simp only [step, exec]
    try split_ifs
    all_goals trivial

/-- **The invariant and the walks, in every run.** -/
theorem fine_run (ls : List (ℕ × Act P)) : Fine P ls ∧ ∀ t, Walk P t ls (((sys P).run ls).loc t) := by
  induction ls using List.reverseRecOn with
  | nil =>
    refine ⟨fun j hj => ?_, fun t => trivial⟩
    obtain rfl : j = 0 := by simpa using hj
    refine ⟨⟨_, inv_init P, fun t => trivial, fun _ _ _ n hn => ?_⟩, fun h => ?_⟩
    · cases hn
    · simp at h
  | append_singleton ls x ih =>
    obtain ⟨hF, hW⟩ := ih
    obtain ⟨g, -, hA, -⟩ := hF.good
    have hh : ∀ t, Hind (((sys P).run ls).loc t) := fun t => hind_of_walk hF (hA t) (hW t)
    have hF' : Fine P (ls ++ [x]) := by
      refine hF.snoc hh ?_
      rw [Sys.run_snoc]
      refine Sys.next_good (sys P) _ _ _ _ x.1 x.2 (fun g hI hA => ?_) hF.good
      obtain ⟨g', hg, -⟩ := step_guar hI hA (hh x.1) x.2
      exact ⟨g', hg.inv, hg.asrt, hg.others hI hA⟩
    refine ⟨hF', fun t => ?_⟩
    obtain ⟨u, b⟩ := x
    by_cases hu : t = u
    swap
    · exact (hW t).keep hF' (by rw [Sys.run_snoc, Sys.next_loc_ne (sys P) _ _ hu])
    subst hu
    cases b with
    | step => exact (hW t).step_self hF'
    | invoke op r =>
      have hl := loc_snoc ls t (.invoke op r)
      simp only [step] at hl
      split_ifs at hl
      · rw [hl]
        cases e : op.1 with
        | contains k => trivial
        | _ => rw [e] at hl; exact walk_search hl
      · exact (hW t).keep hF' hl

/-- the invariant holds in every reachable state -/
theorem inv_run (ls : List (ℕ × Act P)) : Sys.Good (Inv P) (AsrtAt P) Disj ((sys P).run ls) := (fine_run ls).1.good

theorem hind_run (ls : List (ℕ × Act P)) (t : ℕ) : Hind (((sys P).run ls).loc t) := by
  obtain ⟨hF, hW⟩ := fine_run ls
  obtain ⟨g, -, hA, -⟩ := hF.good
  exact hind_of_walk hF (hA t) (hW t)

end Walk

end AlgorithmCollection.LazySkiplist
