/-
The upper levels of `LockFreeSkiplist` as an index of the bottom level.

`_add` fills in the whole tower of a new node before it links it anywhere. When the cas of an upper level fails, it searches
again and takes the new predecessor and successor, but the link of the new node still leads to the successor of the first
search: a node that has been linked in between is dropped from the level. `index_incomplete` is such a run of two threads.
`_delete` marks an upper level by two plain stores, the first of which puts back the successor read before, with the same
effect on a node linked behind the victim in between; and a search that stands between its reads of a successor and of the
mark snips a node linked behind the marked one in between.

`index_complete` is about the runs in which none of these happens (`InOrder`). In these, whenever no call is in progress, the
unmarked nodes on the chain of a level are exactly the unmarked nodes of the bottom chain whose towers reach the level, in
the order of their keys.

`On` is what a thread knows about the levels at each of its points, on top of what `At` says of the bottom level; `exec_levels`
says that a step keeps the description `Levels` of the chains, and `Grows.on` that it keeps what the other threads know. That
no node stays half linked or half marked is `Indexing.adds` and `Indexing.dels`: some call is at work on it.
-/
import AlgorithmCollection.List.LockFreeSkiplistLevels

namespace AlgorithmCollection.LockFreeSkiplist

open Conc
open Function (update update_self update_of_ne)

variable {c : Caller} {key : ℤ}

/-! ## What is observed -/

/-- the nodes on the chain of a level that are not marked there -/
def unmarked (m : Mem) (L : ℕ) : List ℕ := (nodes m L).filter fun a => mk m L a = .UNMARKED

/-- the chain of level L ends at tail, and its unmarked nodes are those of the bottom level whose towers reach level L, in
the order of their keys -/
structure LevelIndexed (m : Mem) (L : ℕ) : Prop where
  linked : (m.head :: (nodes m L ++ [m.tail])).IsChain fun x y => nx m L x = y
  complete : ∀ a, a ∈ unmarked m L ↔ a ∈ unmarked m 0 ∧ L ≤ tp m a
  sorted : (unmarked m L).Pairwise fun x y => ky m x < ky m y

def Indexed (m : Mem) : Prop := ∀ L < m.maxLevel, LevelIndexed m L

/-- the thread is in no call -/
def outside : Loc → Bool
  | .idle | .ret _ => true
  | _ => false

/-- no call is in progress -/
def AtRest (s : St Shared Loc) : Prop := ∀ t, outside (s.loc t) = true

/-! ## The condition -/

/-- what a thread at l is about to store is up to date: at a cas that links a node, the link of that node is the successor
the cas expects; and the successor `_delete` puts back is still there -/
def Current (s : Shared) : Loc → Prop
  | .link _ _ top ws n level =>
    level ≤ top → ref s.mem level (ws.preds level) = ⟨.UNMARKED, ws.succs level⟩ → nx s.mem level n = ws.succs level
  | .dPut1 _ _ victim level succ => nx s.mem level victim = succ
  | _ => True

/-- a thread at l does not mark the link above the bottom level that a thread at o is reading -/
def Clear (s : Shared) : Loc → Loc → Prop
  | .dPut2 _ _ victim level, .mark _ _ level' _ curr _ =>
    mk s.mem level victim = .UNMARKED → level' = level → curr ≠ victim
  | _, _ => True

/-- action a of a thread at l is in order beside a thread at o -/
def InOrder (s : Shared) (l : Loc) (a : Act) (o : Loc) : Prop :=
  Allowed s l a o ∧
    match a with
    | .invoke _ => True
    | .step => Current s l ∧ Clear s l o

instance Current.decidable (s : Shared) (l : Loc) : Decidable (Current s l) := by
  unfold Current; split <;> infer_instance

instance Clear.decidable (s : Shared) (l o : Loc) : Decidable (Clear s l o) := by
  unfold Clear; split <;> infer_instance

instance InOrder.decidable (s : Shared) (l : Loc) (a : Act) (o : Loc) : Decidable (InOrder s l a o) :=
  decidable_of_iff (Allowed s l a o ∧ (a = .step → Current s l ∧ Clear s l o)) (by cases a <;> simp [InOrder])

/-! ## What a thread knows about the levels -/

section Assertions

variable (P : Params) (lk : ℕ → Set ℕ) (m : Mem)

/-- what a search for the key has found on the levels from j on -/
def Located (key : ℤ) (ws : Workspace) (j : ℕ) : Prop :=
  ∀ L, j ≤ L → L < m.maxLevel →
    (ws.preds L ∈ lk L ∧ ky m (ws.preds L) < key) ∧ ws.succs L ∈ lk L ∧ key ≤ ky m (ws.succs L)

/-- n is linked on the levels below `level`, the others of its tower are to be linked -/
structure Linking (key : ℤ) (top n level : ℕ) : Prop where
  key : ky m n = key
  top : tp m n = top
  pos : 0 < level
  mem : ∀ L < level, n ∈ lk L

/-- the levels of victim above `level` are marked -/
structure Deleting (key : ℤ) (ws : Workspace) (victim level : ℕ) : Prop where
  mem : victim ∈ lk 0
  key : ky m victim = key
  eq : ws.succs 0 = victim
  above : ∀ L, level < L → L ≤ tp m victim → mk m L victim = .MARKED

def Caller.On (c : Caller) : Prop :=
  InRange P c.key ∧
    match c with
    | .add _ _ top => top < m.maxLevel
    | .link k _ top n level => Linking lk m k top n level
    | _ => True

/-- a search that has come to pred on level L -/
structure Walking (c : Caller) (ws : Workspace) (L pred : ℕ) : Prop where
  caller : c.On P lk m
  found : Located lk m c.key ws (L + 1)
  lt : L < m.maxLevel
  mem : pred ∈ lk L
  key : ky m pred < c.key

/-- n is filled in with the successors found -/
structure Filled (key : ℤ) (top : ℕ) (ws : Workspace) (n : ℕ) : Prop where
  made : Made m n
  links : ∀ L ≤ top, ref m L n = ⟨.UNMARKED, ws.succs L⟩
  key : ky m n = key
  top : tp m n = top

def On : Loc → Prop
  | .idle | .ret _ | .dVal _ => True
  | .start c _ => c.On P lk m
  | .first c ws L pred => Walking P lk m c ws L pred
  | .succ c ws L pred curr => Walking P lk m c ws L pred ∧ curr ∈ lk L
  | .mark c ws L pred curr succ =>
    Walking P lk m c ws L pred ∧ curr ∈ lk L ∧ (curr ≠ m.tail → succ ∈ lk L) ∧
      (mk m L curr = .MARKED → nx m L curr = succ)
  | .snip c ws L pred curr succ =>
    Walking P lk m c ws L pred ∧ curr ∈ lk L ∧ mk m L curr = .MARKED ∧ nx m L curr = succ
  | .create k _ top ws => (InRange P k ∧ top < m.maxLevel) ∧ Located lk m k ws 0 ∧ k < ky m (ws.succs 0)
  | .bottom k _ top ws n => (InRange P k ∧ top < m.maxLevel) ∧ Located lk m k ws 0 ∧ Filled m k top ws n
  | .link k _ top ws n level => InRange P k ∧ Located lk m k ws 0 ∧ Linking lk m k top n level
  | .dSucc k ws victim level | .dMark k ws victim level _ | .dPut1 k ws victim level _ | .dPut2 k ws victim level =>
    InRange P k ∧ Deleting lk m k ws victim level
  | .dCas k ws victim _ => InRange P k ∧ Deleting lk m k ws victim 0
  | .dRe1 k ws victim ok | .dRe2 k ws victim _ ok =>
    (InRange P k ∧ Deleting lk m k ws victim 0) ∧ (ok = true → mk m 0 victim = .MARKED)

end Assertions

/-! ## What the other threads keep -/

namespace Grows

variable {P : Params} {m m' : Mem} {lk lk' : ℕ → Set ℕ} {vic : Option (ℕ × ℕ)} (h : Levels P m lk)
  (hg : Grows m m' lk lk' vic)

include h hg

variable {ws : Workspace} {L : ℕ}

theorem ky_eq {a : ℕ} (ha : a ∈ lk L) : ky m' a = ky m a := (hg.node a (h.made L a ha).1).1

theorem marked {K a : ℕ} (ha : a ∈ lk K) (hm : LockFreeSkiplist.mk m L a = .MARKED) :
    LockFreeSkiplist.mk m' L a = .MARKED ∧ nx m' L a = nx m L a := by
  unfold LockFreeSkiplist.mk nx
  rw [hg.frozen a (h.made K a ha).1 L hm]
  exact ⟨hm, rfl⟩

theorem located {j : ℕ} (hf : Located lk m key ws j) : Located lk' m' key ws j := by
  intro L hj hL
  rw [hg.maxLevel] at hL
  obtain ⟨⟨h1, h2⟩, h3, h4⟩ := hf L hj hL
  rw [hg.ky_eq h h1, hg.ky_eq h h3]
  exact ⟨⟨hg.sub L h1, h2⟩, hg.sub L h3, h4⟩

theorem linking {top n level : ℕ} (hl : Linking lk m key top n level) : Linking lk' m' key top n level := by
  have hn := hg.node n (h.made 0 n (hl.mem 0 hl.pos)).1
  refine ⟨?_, ?_, hl.pos, fun L hL => hg.sub L (hl.mem L hL)⟩
  · rw [hn.1]; exact hl.key
  · rw [hn.2]; exact hl.top

theorem deleting {victim level : ℕ} (hd : Deleting lk m key ws victim level) : Deleting lk' m' key ws victim level := by
  have hn := hg.node victim (h.made 0 victim hd.mem).1
  refine ⟨hg.sub 0 hd.mem, ?_, hd.eq, fun L hL hLt => ?_⟩
  · rw [hn.1]; exact hd.key
  · rw [hn.2] at hLt
    exact (hg.marked h hd.mem (hd.above L hL hLt)).1

theorem caller (hc : c.On P lk m) : c.On P lk' m' := by
  cases c with
  | add k v top => exact ⟨hc.1, by rw [hg.maxLevel]; exact hc.2⟩
  | link k v top n level => exact ⟨hc.1, hg.linking h hc.2⟩
  | delete k | clean k victim => exact hc

theorem walking {pred : ℕ} (hw : Walking P lk m c ws L pred) : Walking P lk' m' c ws L pred where
  caller := hg.caller h hw.caller
  found := hg.located h hw.found
  lt := by rw [hg.maxLevel]; exact hw.lt
  mem := hg.sub L hw.mem
  key := by rw [hg.ky_eq h hw.mem]; exact hw.key

omit h in
theorem filled {top : ℕ} {n : ℕ} (hf : Filled m key top ws n) (hn : n ∉ lk 0) : Filled m' key top ws n where
  made := ⟨hf.made.1, hf.made.2.trans_le hg.fresh⟩
  links L hL := by rw [hg.rest n hf.made hn L]; exact hf.links L hL
  key := by rw [(hg.node n hf.made).1]; exact hf.key
  top := by rw [(hg.node n hf.made).2]; exact hf.top

/-- **What the others know is stable**, if the step marks no link between whose reads this thread stands. -/
theorem on {l : Loc} (hl : On P lk m l) (hn : ∀ n, newNode l = some n → n ∉ lk 0)
    (hm : ∀ c ws L pred curr succ, l = .mark c ws L pred curr succ → vic ≠ some (curr, L)) : On P lk' m' l := by
  cases l with
  | idle | ret r | dVal victim => trivial
  | start c ws => exact hg.caller h hl
  | first c ws L pred => exact hg.walking h hl
  | succ c ws L pred curr => exact ⟨hg.walking h hl.1, hg.sub L hl.2⟩
  | mark c ws L pred curr succ =>
    obtain ⟨hw, hc, hs, hf⟩ := hl
    refine ⟨hg.walking h hw, hg.sub L hc, fun ht => hg.sub L (hs (by rwa [← hg.tail])), fun hmk => ?_⟩
    cases hold : LockFreeSkiplist.mk m L curr with
    | MARKED =>
      rw [(hg.marked h hc hold).2]
      exact hf hold
    | UNMARKED => exact absurd (hg.marks curr (h.made L curr hc).1 L hold hmk) (hm c ws L pred curr succ rfl)
  | snip c ws L pred curr succ =>
    obtain ⟨hw, hc, hmk, hs⟩ := hl
    obtain ⟨h1, h2⟩ := hg.marked h hc hmk
    exact ⟨hg.walking h hw, hg.sub L hc, h1, h2.trans hs⟩
  | create k v top ws =>
    obtain ⟨hk, hf, hlt⟩ := hl
    refine ⟨by rwa [hg.maxLevel], hg.located h hf, ?_⟩
    rwa [hg.ky_eq h (hf 0 le_rfl h.frame.pos).2.1]
  | bottom k v top ws n =>
    obtain ⟨hk, hf, hfill⟩ := hl
    exact ⟨by rwa [hg.maxLevel], hg.located h hf, hg.filled hfill (hn n rfl)⟩
  | link k v top ws n level => exact ⟨hl.1, hg.located h hl.2.1, hg.linking h hl.2.2⟩
  | dSucc k ws victim level | dMark k ws victim level succ | dPut1 k ws victim level succ | dPut2 k ws victim level
  | dCas k ws victim succ => exact ⟨hl.1, hg.deleting h hl.2⟩
  | dRe1 k ws victim ok
  | dRe2 k ws victim succ ok => exact ⟨⟨hl.1.1, hg.deleting h hl.1.2⟩, fun e => (hg.marked h hl.1.2.mem (hl.2 e)).1⟩

end Grows

/-! ## One step of a thread -/

/-- the step of a thread at l marks level L of a -/
def Marks (s : Shared) (a L : ℕ) : Loc → Prop
  | .dPut2 _ _ victim level => mk s.mem level victim = .UNMARKED ∧ victim = a ∧ level = L
  | .dCas _ _ victim succ => ref s.mem 0 victim = ⟨.UNMARKED, succ⟩ ∧ victim = a ∧ 0 = L
  | _ => False

/-- what a step of a thread from l is known to do to the levels -/
structure Leveled (P : Params) (lk : ℕ → Set ℕ) (s : Shared) (l : Loc) (x : Shared × Loc) (lk' : ℕ → Set ℕ)
    (vic : Option (ℕ × ℕ)) : Prop where
  levels : Levels P x.1.mem lk'
  known : ∀ a, a ∈ lk' 0 ↔ Known x.1 a
  grows : Grows s.mem x.1.mem lk lk' vic
  own : On P lk' x.1.mem x.2
  vic : ∀ a L, vic = some (a, L) → Marks s a L l

section Steps

variable {P : Params} {lk : ℕ → Set ℕ} {s : Shared} {m : Mem} {l l' : Loc}

/-- a step that only reads -/
theorem Leveled.read (h : Levels P s.mem lk) (hk : ∀ a, a ∈ lk 0 ↔ Known s a) (hl : On P lk s.mem l') :
    Leveled P lk s l (s, l') lk none :=
  ⟨h, hk, Grows.refl _ _, hl, nofun⟩

variable {ws : Workspace} {L : ℕ}

/-- where a search goes when it has found a place on every level -/
theorem On.next (h : Levels P m lk) (hc : c.On P lk m) (hf : Located lk m c.key ws 0) :
    On P lk m (c.next m ws (decide (ky m (ws.succs 0) = c.key))) := by
  obtain ⟨-, hs, hle⟩ := hf 0 le_rfl h.frame.pos
  cases c with
  | add k v top =>
    simp only [Caller.next]
    split
    · trivial
    · rename_i hne
      exact ⟨hc, hf, lt_of_le_of_ne hle fun e => hne (decide_eq_true e.symm)⟩
  | link k v top n level => exact ⟨hc.1, hf, hc.2⟩
  | delete k =>
    simp only [Caller.next]
    split
    · rename_i he
      exact ⟨hc.1, hs, of_decide_eq_true he, rfl, fun L hL hLt => absurd hLt (not_le.2 hL)⟩
    · trivial
  | clean k victim => trivial

/-- the end of a round of the search, at an unmarked node -/
theorem On.advance (h : Levels P m lk) {pred curr succ : ℕ}
    (hw : Walking P lk m c ws L pred) (hc : curr ∈ lk L) (hs : curr ≠ m.tail → succ ∈ lk L) :
    On P lk m (advance m c ws L pred curr succ) := by
  have hk : InRange P c.key := hw.caller.1
  unfold LockFreeSkiplist.advance
  split
  · rename_i hlt
    exact ⟨⟨hw.caller, hw.found, hw.lt, hc, hlt⟩, hs (h.frame.ne_tail_of_lt hk hlt)⟩
  · rename_i hle
    have hf : Located lk m c.key ⟨update ws.preds L pred, update ws.succs L curr⟩ L := by
      intro K hK hKm
      by_cases e : K = L
      · subst e
        simp only [update_self]
        exact ⟨⟨hw.mem, hw.key⟩, hc, not_lt.1 hle⟩
      · simp only [update_of_ne e]
        exact hw.found K (by omega) hKm
    cases L with
    | zero =>
      have hnext := On.next h hw.caller hf
      simpa only [update_self] using hnext
    | succ L => exact ⟨hw.caller, hf, by have := hw.lt; omega, h.down L hw.mem, hw.key⟩

/-- a cas that links n behind a node found by a search -/
theorem link_levels (h : Levels P m lk) {k : ℤ} {n : ℕ} (hk : InRange P k) (hf : Located lk m k ws 0)
    (hkey : ky m n = k) (hn : Made m n) (hT : Tall m L n) (hbelow : ∀ K < L, n ∈ lk K)
    (href : ref m L (ws.preds L) = ⟨.UNMARKED, ws.succs L⟩) (hc : nx m L n = ws.succs L) :
    Levels P (setRef m (ws.preds L) L ⟨.UNMARKED, n⟩) (update lk L (insert n (lk L))) ∧
      Grows m (setRef m (ws.preds L) L ⟨.UNMARKED, n⟩) lk (update lk L (insert n (lk L))) none := by
  obtain ⟨⟨hp, hlt⟩, -⟩ := hf L (Nat.zero_le L) hT.1
  have hm : mk m L (ws.preds L) = .UNMARKED := congrArg Ref.mark href
  refine ⟨h.link hp href hn hT hbelow (by rw [hkey]; exact hlt) (h.frame.ne_tail_of_lt hk hlt) hc, ?_⟩
  refine .store (h.mem_of_le hp (Nat.zero_le L)) (fun e => ?_) (nofun) fun K => ?_
  · rw [hm] at e; cases e
  · by_cases e : K = L
    · rw [e, update_self]; exact Set.subset_insert n _
    · rw [update_of_ne e]

/-- a store or a cas that marks a level of the node to be deleted -/
theorem mark_levels (h : Levels P m lk) {k : ℤ} {victim : ℕ} (hr : InRange P k)
    (hd : Deleting lk m k ws victim L) :
    Levels P (setRef m victim L ⟨.MARKED, nx m L victim⟩) lk ∧
      Grows m (setRef m victim L ⟨.MARKED, nx m L victim⟩) lk lk (some (victim, L)) := by
  have hrv : InRange P (ky m victim) := by rw [hd.key]; exact hr
  constructor
  · refine h.mark ⟨h.frame.ne_head hrv, h.frame.ne_tail hrv⟩ ?_
    rintro rfl K hK hT
    exact hd.above K hK hT.2
  · exact .store hd.mem (fun e => ref_eq e rfl) (fun _ => rfl) fun K => subset_rfl

/-- **One step.** -/
theorem exec_levels (h : Levels P s.mem lk) (hk : ∀ a, a ∈ lk 0 ↔ Known s a) (hl : On P lk s.mem l) (hcur : Current s l) :
    ∃ lk' vic, Leveled P lk s l (exec s l) lk' vic := by
  cases l with
  | idle | ret r | dVal victim => exact ⟨lk, none, .read h hk trivial⟩
  | start c ws =>
    have hpos := h.frame.pos
    refine ⟨lk, none, .read h hk ⟨hl, fun L hL hLm => ?_, by omega, (h.head _ (by omega)).1, ?_⟩⟩
    · omega
    · rw [h.frame.head]; exact hl.1.1
  | first c ws L pred =>
    have hp := h.made L pred hl.mem
    have hne := h.frame.ne_tail_of_lt hl.caller.1 hl.key
    exact ⟨lk, none, .read h hk ⟨hl, (h.next pred hp.1 hne L hp.2).1⟩⟩
  | succ c ws L pred curr =>
    simp only [exec]
    split
    · exact ⟨lk, none, .read h hk hl⟩
    · have hc := h.made L curr hl.2
      exact ⟨lk, none, .read h hk ⟨hl.1, hl.2, fun ht => (h.next curr hc.1 ht L hc.2).1, fun _ => rfl⟩⟩
  | mark c ws L pred curr succ =>
    obtain ⟨hw, hc, hs, hf⟩ := hl
    simp only [exec]
    split
    · rename_i hm
      exact ⟨lk, none, .read h hk ⟨hw, hc, hm, hf hm⟩⟩
    · exact ⟨lk, none, .read h hk (On.advance h hw hc hs)⟩
  | snip c ws L pred curr succ =>
    obtain ⟨hw, hc, hm, hs⟩ := hl
    simp only [exec, cas]
    by_cases href : ref s.mem L pred = ⟨.UNMARKED, curr⟩
    · rw [if_pos href]
      have hlev := h.snip hw.mem (h.frame.ne_tail_of_lt hw.caller.1 hw.key) href hm hs
      have hpm : mk s.mem L pred = .UNMARKED := congrArg Ref.mark href
      have hg : Grows s.mem (setRef s.mem pred L ⟨.UNMARKED, succ⟩) lk lk none := by
        refine .store (h.mem_of_le hw.mem (Nat.zero_le L)) (fun e => ?_) (by simp) fun K => subset_rfl
        rw [hpm] at e; cases e
      exact ⟨lk, none, hlev, hk, hg, hg.walking h hw, by simp⟩
    · rw [if_neg href]
      exact ⟨lk, none, .read h hk hw.caller⟩
  | create k v top ws =>
    obtain ⟨⟨hr, ht⟩, hf, h0⟩ := hl
    have hr' := newTower_rest s.mem top k v ws.succs
    have hlev := h.create (v := v) hr ht (fun L hL => (hf L (Nat.zero_le L) (by omega)).2) h0
    have hg : Grows s.mem (newTower s.mem top k v ws.succs) lk lk none := .create
    refine ⟨lk, none, hlev, fun a => ?_, hg, ⟨⟨hr, ?_⟩, hg.located h hf, ?_, fun L hL => ?_, newTower_new.1, newTower_new.2⟩,
      (by simp)⟩
    · rw [hk]
      simp only [exec, Known, hr'.head, hr'.tail]
      rfl
    · exact hr'.maxLevel.symm ▸ ht
    · have hpos := (h.made 0 _ (h.head 0 h.frame.pos).1).1.2
      exact ⟨(Nat.zero_lt_of_lt hpos).ne', (Nat.lt_succ_self _).trans_eq hr'.fresh.symm⟩
    · simp only [exec]
      rw [ref_newTower, if_pos rfl, if_pos hL]
  | bottom k v top ws n =>
    obtain ⟨⟨hr, ht⟩, hf, hn⟩ := hl
    simp only [exec, cas]
    by_cases href : ref s.mem 0 (ws.preds 0) = ⟨.UNMARKED, ws.succs 0⟩
    · rw [if_pos href]
      have hc : nx s.mem 0 n = ws.succs 0 := congrArg Ref.next (hn.links 0 (Nat.zero_le top))
      obtain ⟨hlev, hg⟩ := link_levels h hr hf hn.key hn.made ⟨h.frame.pos, Nat.zero_le _⟩ (fun K hK => by omega) href hc
      refine ⟨_, none, hlev, fun a => ?_, hg, ⟨hr, hg.located h hf, ?_, ?_, Nat.one_pos, fun L hL => ?_⟩,
        (by simp)⟩
      · rw [update_self, Set.mem_insert_iff, hk]
        simp only [Known, List.mem_cons]
        exact ⟨fun h => by tauto, fun h => by tauto⟩
      · exact (hg.node n hn.made).1.trans hn.key
      · exact (hg.node n hn.made).2.trans hn.top
      · obtain rfl : L = 0 := by omega
        rw [update_self]; exact Set.mem_insert n _
    · rw [if_neg href]
      exact ⟨lk, none, .read h hk ⟨hr, ht⟩⟩
  | link k v top ws n level =>
    obtain ⟨hr, hf, hn⟩ := hl
    have hmem := hn.mem 0 hn.pos
    have hmade := (h.made 0 n hmem).1
    simp only [exec, cas]
    split
    · rename_i hle
      by_cases href : ref s.mem level (ws.preds level) = ⟨.UNMARKED, ws.succs level⟩
      · rw [if_pos href]
        have hrn : InRange P (ky s.mem n) := by rw [hn.key]; exact hr
        have htp := (h.frame.node n hmade (h.frame.ne_head hrn) (h.frame.ne_tail hrn)).2
        have hT : Tall s.mem level n := ⟨by rw [hn.top] at htp; omega, by rw [hn.top]; exact hle⟩
        obtain ⟨hlev, hg⟩ := link_levels h hr hf hn.key hmade hT hn.mem href (hcur hle href)
        have hl' := hg.linking h hn
        refine ⟨_, none, hlev, fun a => ?_, hg, ⟨hr, hg.located h hf, hl'.key, hl'.top, Nat.succ_pos _, fun L hL => ?_⟩,
          (by simp)⟩
        · rw [update_of_ne hn.pos.ne]; exact hk a
        · rcases Nat.lt_succ_iff_lt_or_eq.1 hL with hL | rfl
          · exact hl'.mem L hL
          · rw [update_self]; exact Set.mem_insert n _
      · rw [if_neg href]
        exact ⟨lk, none, .read h hk ⟨hr, hn⟩⟩
    · exact ⟨lk, none, .read h hk trivial⟩
  | dSucc k ws victim level =>
    cases level with
    | zero | succ level => exact ⟨lk, none, .read h hk hl⟩
  | dMark k ws victim level succ =>
    simp only [exec]
    split
    · exact ⟨lk, none, .read h hk hl⟩
    · rename_i hm
      refine ⟨lk, none, .read h hk ⟨hl.1, hl.2.mem, hl.2.key, hl.2.eq, fun L hL hLt => ?_⟩⟩
      rcases Nat.lt_or_ge level L with hlt | hge
      · exact hl.2.above L hlt hLt
      · rwa [show L = level by omega]
  | dPut1 k ws victim level succ =>
    -- the successor is still there, so the store changes nothing
    have hcur : nx s.mem level victim = succ := hcur
    have e : exec s (.dPut1 k ws victim level succ) = (s, .dPut2 k ws victim level) := by
      simp only [exec, ← hcur]
      rw [show (⟨mk s.mem level victim, nx s.mem level victim⟩ : Ref) = ref s.mem level victim from rfl, setRef_self]
    rw [e]
    exact ⟨lk, none, .read h hk hl⟩
  | dPut2 k ws victim level =>
    cases hm : mk s.mem level victim with
    | UNMARKED =>
      obtain ⟨hlev, hg⟩ := mark_levels h hl.1 hl.2
      refine ⟨lk, some (victim, level), hlev, hk, hg, ⟨hl.1, hg.deleting h hl.2⟩, ?_⟩
      rintro a L ⟨⟩
      exact ⟨hm, rfl, rfl⟩
    | MARKED =>
      have e : exec s (.dPut2 k ws victim level) = (s, .dSucc k ws victim level) := by
        simp only [exec]
        rw [← hm, show (⟨mk s.mem level victim, nx s.mem level victim⟩ : Ref) = ref s.mem level victim from rfl, setRef_self]
      rw [e]
      exact ⟨lk, none, .read h hk hl⟩
  | dCas k ws victim succ =>
    simp only [exec, cas]
    by_cases href : ref s.mem 0 victim = ⟨.UNMARKED, succ⟩
    · rw [if_pos href]
      obtain ⟨hlev, hg⟩ := mark_levels h hl.1 hl.2
      rw [show nx s.mem 0 victim = succ from congrArg Ref.next href] at hlev hg
      refine ⟨lk, some (victim, 0), hlev, hk, hg, ⟨⟨hl.1, hg.deleting h hl.2⟩, fun _ => ?_⟩, ?_⟩
      · rw [mk_setRef, update_self]
      · rintro a L ⟨⟩
        exact ⟨href, rfl, rfl⟩
    · rw [if_neg href]
      exact ⟨lk, none, .read h hk ⟨hl, by simp⟩⟩
  | dRe1 k ws victim ok => exact ⟨lk, none, .read h hk hl⟩
  | dRe2 k ws victim succ ok =>
    simp only [exec]
    split
    · exact ⟨lk, none, .read h hk ⟨hl.1.1, trivial⟩⟩
    · split
      · exact ⟨lk, none, .read h hk trivial⟩
      · exact ⟨lk, none, .read h hk hl.1⟩

end Steps

/-! ## Calls at work on a node -/

/-- the node whose upper levels are still to be linked -/
def Caller.node : Caller → Option ℕ
  | .link _ _ _ n _ => some n
  | _ => none

def adding : Loc → Option ℕ
  | .start c _ | .first c _ _ _ | .succ c _ _ _ _ | .mark c _ _ _ _ _ | .snip c _ _ _ _ _ => c.node
  | .link _ _ _ _ n _ => some n
  | _ => none

/-- the node whose levels are being marked -/
def deleting : Loc → Option ℕ
  | .dSucc _ _ victim _ | .dMark _ _ victim _ _ | .dPut1 _ _ victim _ _ | .dPut2 _ _ victim _ | .dCas _ _ victim _
  | .dRe1 _ _ victim _ | .dRe2 _ _ victim _ _ => some victim
  | _ => none

section Work

variable {P : Params} {lk : ℕ → Set ℕ} {s : Shared} {l : Loc} {a : ℕ}

theorem adding_advance {m : Mem} (hc : c.node = some a) (ws : Workspace) (L pred curr succ : ℕ) :
    adding (advance m c ws L pred curr succ) = some a := by
  unfold advance
  split
  · exact hc
  · cases L with
    | zero =>
      cases c with
      | link k v top n level => exact hc
      | _ => cases hc
    | succ L => exact hc

/-- a call goes on linking its node until it is linked on all its levels -/
theorem exec_adding (hl : On P lk s.mem l) (ha : adding l = some a) :
    adding (exec s l).2 = some a ∨ ∀ L ≤ tp s.mem a, a ∈ lk L := by
  cases l with
  | start c ws | first c ws L pred => exact .inl ha
  | succ c ws L pred curr | snip c ws L pred curr succ =>
    simp only [exec]
    split <;> exact .inl ha
  | mark c ws L pred curr succ =>
    simp only [exec]
    split
    · exact .inl ha
    · exact .inl (adding_advance ha _ _ _ _ _)
  | link k v top ws n level =>
    obtain ⟨-, -, hn⟩ := hl
    obtain rfl : n = a := Option.some.inj ha
    simp only [exec]
    split
    · split <;> exact .inl rfl
    · rename_i hle
      exact .inr fun L hL => hn.mem L (by have := hn.top; omega)
  | _ => cases ha

/-- a node that is added is new, and the call that adds it goes on to link it -/
theorem exec_added (ha : a ∈ (exec s l).1.added) :
    a ∈ s.added ∨ (adding (exec s l).2 = some a ∧ ∃ k v top ws, l = .bottom k v top ws a) := by
  revert ha
  fun_cases exec s l with
  | case12 k v top ws n m hc =>
    intro ha
    rcases List.mem_cons.1 ha with rfl | ha
    · exact .inr ⟨rfl, k, v, top, ws, rfl⟩
    · exact .inl ha
  | _ => exact fun ha => .inl ha

/-- a call goes on deleting its node until the bottom level is marked -/
theorem exec_deleting (hl : On P lk s.mem l) (ha : deleting l = some a) :
    deleting (exec s l).2 = some a ∨ mk s.mem 0 a = .MARKED := by
  cases l with
  | dSucc k ws victim level => cases level <;> exact .inl ha
  | dMark k ws victim level succ | dCas k ws victim succ =>
    simp only [exec]
    split <;> exact .inl ha
  | dPut1 k ws victim level succ | dPut2 k ws victim level | dRe1 k ws victim ok => exact .inl ha
  | dRe2 k ws victim succ ok =>
    obtain ⟨⟨-, hd⟩, hok⟩ := hl
    obtain rfl : victim = a := Option.some.inj ha
    simp only [exec]
    split
    · rename_i e
      exact .inr (hok e)
    · split
      · rename_i hm
        rw [hd.eq] at hm
        exact .inr hm
      · exact .inl rfl
  | _ => cases ha

/-- a step that marks a node goes on deleting it -/
theorem Marks.deleting {L : ℕ} (h : Marks s a L l) : deleting (exec s l).2 = some a := by
  cases l with
  | dPut2 k ws victim level =>
    obtain ⟨-, rfl, -⟩ := h
    rfl
  | dCas k ws victim succ =>
    obtain ⟨-, rfl, -⟩ := h
    simp only [exec]
    split <;> rfl
  | _ => exact absurd h id

/-- a step in order marks no link that another thread is reading -/
theorem InOrder.not_reading {o : Loc} {L : ℕ} (h : InOrder s l .step o) (hm : Marks s a L l) :
    ∀ c ws pred succ, o ≠ .mark c ws L pred a succ := by
  rintro c ws pred succ rfl
  cases l with
  | dPut2 k ws' victim level =>
    obtain ⟨h1, rfl, rfl⟩ := hm
    exact h.2.2 h1 rfl rfl
  | dCas k ws' victim succ' =>
    obtain ⟨h1, rfl, rfl⟩ := hm
    exact h.1 h1 rfl
  | _ => exact absurd hm id

end Work

/-! ## Runs -/

structure Indexing (P : Params) (s : St Shared Loc) (lk : ℕ → Set ℕ) : Prop where
  levels : Levels P s.sh.mem lk
  known : ∀ a, a ∈ lk 0 ↔ Known s.sh a
  own : ∀ t, On P lk s.sh.mem (s.loc t)
  adds : ∀ a ∈ s.sh.added, (∀ L ≤ tp s.sh.mem a, a ∈ lk L) ∨ ∃ t, adding (s.loc t) = some a
  dels : ∀ a ∈ s.sh.added, mk s.sh.mem 0 a = .UNMARKED →
    (∀ L ≤ tp s.sh.mem a, mk s.sh.mem L a = .UNMARKED) ∨ ∃ t, deleting (s.loc t) = some a

theorem init_indexing (P : Params) (hlt : P.min < P.max) :
    Indexing P (sys P).init fun L => {a | L < P.maxLevel ∧ (a = 1 ∨ a = 2)} := by
  have hhead : ∀ L < P.maxLevel, ref (sys P).init.sh.mem L 1 = ⟨.UNMARKED, 2⟩ := by
    intro L hL
    simp [Sys.init, sys, ref, initList, hL]
  have htail : ∀ L < P.maxLevel, ref (sys P).init.sh.mem L 2 = ⟨.UNMARKED, NULL⟩ := by
    intro L hL
    simp [Sys.init, sys, ref, initList, hL]
  have hnull : ∀ L a, a ≠ 1 → nx (sys P).init.sh.mem L a = NULL := by
    intro L a ha
    simp only [Sys.init, sys, nx, ref, initList, if_neg ha]
    split <;> rfl
  have hmade : ∀ a, Made (sys P).init.sh.mem a → a = 1 ∨ a = 2 := by
    intro a ha
    have h1 : a ≠ 0 := ha.1
    have h2 : a < 3 := ha.2
    omega
  have hky : ky (sys P).init.sh.mem 1 = P.min ∧ ky (sys P).init.sh.mem 2 = P.max := by simp [Sys.init, sys, ky, initList]
  refine ⟨⟨⟨P.pos, hlt, hky.1, hky.2, fun a ha h1 h2 => ?_⟩, fun L a ha => ?_, fun L a ha => ?_, fun L hL => ?_, fun L hL => ?_,
    fun L => ?_, fun a ha hat L hL => ?_, fun L a ha hm => ?_, fun a ha hm L hL => ?_⟩, fun a => ?_, fun _ => trivial,
    fun a ha => ?_, fun a ha => ?_⟩
  · rcases hmade a ha with rfl | rfl
    · exact absurd rfl h1
    · exact absurd rfl h2
  · rcases ha with ⟨hL, rfl | rfl⟩
    · exact ⟨⟨by decide, (by decide : 1 < 3)⟩, hL, hL.le⟩
    · exact ⟨⟨by decide, (by decide : 2 < 3)⟩, hL, hL.le⟩
  · exact ⟨Nat.lt_of_succ_lt ha.1, ha.2⟩
  · exact ⟨⟨hL, .inl rfl⟩, congrArg Ref.mark (hhead L hL)⟩
  · exact ⟨⟨hL, .inr rfl⟩, congrArg Ref.mark (htail L hL)⟩
  · exact ⟨hnull L 2 (by decide), hnull L NULL (by decide)⟩
  · rcases hmade a ha with rfl | rfl
    · have e : nx (sys P).init.sh.mem L 1 = 2 := congrArg Ref.next (hhead L hL.1)
      rw [e]
      exact ⟨⟨hL.1, .inr rfl⟩, Below.of_ky (by rw [hky.1, hky.2]; exact hlt)⟩
    · exact absurd rfl hat
  · rcases ha with ⟨hL, rfl | rfl⟩
    · exact Reach.refl _ _
    · have e : nx (sys P).init.sh.mem L 1 = 2 := congrArg Ref.next (hhead L hL)
      have hstep := (Reach.refl (nx (sys P).init.sh.mem L) 1).step
      rwa [e] at hstep
  · have hm' : mk (sys P).init.sh.mem 0 a = .UNMARKED := by
      rcases hmade a ha with rfl | rfl
      · exact congrArg Ref.mark (hhead 0 P.pos)
      · exact congrArg Ref.mark (htail 0 P.pos)
    rw [hm'] at hm; cases hm
  · constructor
    · rintro ⟨-, rfl | rfl⟩
      · exact .inl rfl
      · exact .inr (.inl rfl)
    · rintro (rfl | rfl | ha)
      · exact ⟨P.pos, .inl rfl⟩
      · exact ⟨P.pos, .inr rfl⟩
      · exact absurd ha List.not_mem_nil
  · exact absurd ha List.not_mem_nil
  · exact absurd ha List.not_mem_nil

section Next

variable {P : Params} {s : St Shared Loc} {lk : ℕ → Set ℕ} {t : ℕ}

/-- a call begins -/
theorem begin_on {m : Mem} (h : Levels P m lk) {op : Op} (hk : InRange P op.key) : On P lk m (begin m op) := by
  cases op with
  | add k v r => exact ⟨hk, Nat.mod_lt r h.frame.pos⟩
  | delete k => exact ⟨hk, trivial⟩

theorem invoke_indexing (h : Indexing P s lk) (op : Op) : Indexing P ((sys P).next s (t, .invoke op)) lk := by
  by_cases hi : canInvoke P (s.loc t) op = true
  · have e : (sys P).step t s.sh (s.loc t) (.invoke op) = (s.sh, begin s.sh.mem op) := by
      simp only [sys, step, hi, if_true]
    have hsh : ((sys P).next s (t, .invoke op)).sh = s.sh := by rw [Sys.next_sh, e]
    -- the thread is at work on no node
    have hout : InRange P op.key ∧ adding (s.loc t) = none ∧ deleting (s.loc t) = none := by
      unfold canInvoke at hi
      unfold InRange
      split at hi
      · rename_i hl; rw [hl]; exact ⟨of_decide_eq_true hi, rfl, rfl⟩
      · rename_i hl; rw [hl]; exact ⟨of_decide_eq_true hi, rfl, rfl⟩
      · cases hi
    refine ⟨hsh ▸ h.levels, hsh ▸ h.known, fun u => ?_, fun a ha => ?_, fun a ha hm => ?_⟩
    · rw [hsh]
      by_cases hu : u = t
      · rw [hu, Sys.next_loc_self, e]
        exact begin_on h.levels hout.1
      · rw [Sys.next_loc_ne _ _ _ hu]; exact h.own u
    · rw [hsh] at ha ⊢
      refine (h.adds a ha).imp_right fun hw => ?_
      refine ((sys P).exists_next (fun l => adding l = some a) hw (t, .invoke op)).resolve_right fun hw => ?_
      rw [hout.2.1] at hw; cases hw
    · rw [hsh] at ha hm ⊢
      refine (h.dels a ha hm).imp_right fun hw => ?_
      refine ((sys P).exists_next (fun l => deleting l = some a) hw (t, .invoke op)).resolve_right fun hw => ?_
      rw [hout.2.2] at hw; cases hw
  · have e : (sys P).step t s.sh (s.loc t) (.invoke op) = (s.sh, s.loc t) := by
      simp only [sys, step, hi, if_false, Bool.false_eq_true]
    rw [(sys P).next_eq_self e]; exact h

theorem step_indexing (hG : Good s) (h : Indexing P s lk) (hC : Sys.Beside InOrder s (t, .step)) :
    ∃ lk', Indexing P ((sys P).next s (t, .step)) lk' := by
  have hcur : Current s.sh (s.loc t) := (hC (t + 1) (Nat.succ_ne_self t)).2.1
  obtain ⟨lk', vic, hx⟩ := exec_levels h.levels h.known (h.own t) hcur
  have hg := hx.grows
  -- a new node is on no level
  have hnew : ∀ u n, newNode (s.loc u) = some n → n ∉ lk 0 := by
    intro u n hn hm
    have hat := hG.own u
    cases hu : s.loc u with
    | bottom k v top ws n' =>
      rw [hu] at hn hat
      obtain rfl := Option.some.inj hn
      exact hat.2.2.unknown ((h.known n').1 hm)
    | _ => rw [hu] at hn; cases hn
  have hmade : ∀ a ∈ s.sh.added, Made s.sh.mem a := fun a ha =>
    (h.levels.made 0 a ((h.known a).2 (.inr (.inr ha)))).1
  have hself : ((sys P).next s (t, .step)).loc t = (exec s.sh (s.loc t)).2 := (sys P).next_loc_self s t .step
  refine ⟨lk', hx.levels, hx.known, fun u => ?_, fun a ha => ?_, fun a ha hm => ?_⟩
  · by_cases hu : u = t
    · rw [hu, hself]; exact hx.own
    · rw [Sys.next_loc_ne _ _ _ hu]
      refine hg.on h.levels (h.own u) (hnew u) ?_
      intro c ws L pred curr succ hl hv
      exact (hC u hu).not_reading (hx.vic curr L hv) c ws pred succ hl
  · rcases exec_added ha with ha | ⟨ha, -⟩
    · have hdone : (∀ L ≤ tp s.sh.mem a, a ∈ lk L) → ∀ L ≤ tp (exec s.sh (s.loc t)).1.mem a, a ∈ lk' L := by
        intro hall L hL
        rw [(hg.node a (hmade a ha)).2] at hL
        exact hg.sub L (hall L hL)
      rcases h.adds a ha with hall | hw
      · exact .inl (hdone hall)
      · rcases (sys P).exists_next (fun l => adding l = some a) hw (t, .step) with hw | hw
        · exact .inr hw
        · rcases exec_adding (h.own t) hw with hw | hall
          · exact .inr ⟨t, by rwa [hself]⟩
          · exact .inl (hdone hall)
    · exact .inr ⟨t, by rwa [hself]⟩
  · change mk (exec s.sh (s.loc t)).1.mem 0 a = .UNMARKED at hm
    rcases exec_added ha with ha | ⟨-, k, v, top, ws, hl⟩
    · have hold : mk s.sh.mem 0 a = .UNMARKED := by
        cases hold : mk s.sh.mem 0 a with
        | UNMARKED => rfl
        | MARKED =>
          unfold mk at hm hold
          rw [hg.frozen a (hmade a ha) 0 hold, hold] at hm
          cases hm
      rcases h.dels a ha hold with hall | hw
      · by_cases hv : ∃ L, vic = some (a, L)
        · obtain ⟨L, hv⟩ := hv
          exact .inr ⟨t, by rw [hself]; exact (hx.vic a L hv).deleting⟩
        · refine .inl fun L hL => ?_
          rw [Sys.next_sh] at hL ⊢
          change L ≤ tp (exec s.sh (s.loc t)).1.mem a at hL
          rw [(hg.node a (hmade a ha)).2] at hL
          cases hnow : mk (exec s.sh (s.loc t)).1.mem L a with
          | UNMARKED => exact hnow
          | MARKED => exact absurd ⟨L, hg.marks a (hmade a ha) L (hall L hL) hnow⟩ hv
      · rcases (sys P).exists_next (fun l => deleting l = some a) hw (t, .step) with hw | hw
        · exact .inr hw
        · rcases exec_deleting (h.own t) hw with hw | hw
          · exact .inr ⟨t, by rwa [hself]⟩
          · rw [hold] at hw; cases hw
    · -- the new node was filled in with unmarked links
      have hon := h.own t
      have hn := hnew t a (by rw [hl]; rfl)
      rw [hl] at hon
      obtain ⟨-, -, hf⟩ := hon
      have hf' := hg.filled hf hn
      refine .inl fun L hL => ?_
      change L ≤ tp (exec s.sh (s.loc t)).1.mem a at hL
      rw [hf'.top] at hL
      exact congrArg Ref.mark (hf'.links L hL)

theorem next_indexing (x : ℕ × Act) (hG : Good s) (h : ∃ lk, Indexing P s lk) (hC : Sys.Beside InOrder s x) :
    ∃ lk', Indexing P ((sys P).next s x) lk' := by
  obtain ⟨t, a⟩ := x
  obtain ⟨lk, h⟩ := h
  cases a with
  | invoke op => exact ⟨lk, invoke_indexing h op⟩
  | step => exact step_indexing hG h hC

end Next

/-- what holds in every state of a run in order -/
theorem run_indexing (P : Params) (hlt : P.min < P.max) (ls : List (ℕ × Act)) (hls : (sys P).Meets (Sys.Beside InOrder) ls) :
    ∃ lk, Indexing P ((sys P).run ls) lk := by
  have hboth := (sys P).meets_inv _ (fun s => Good s ∧ ∃ lk, Indexing P s lk) ⟨init_good P, _, init_indexing P hlt⟩ ?_ ls hls
  · exact hboth.2
  · intro s x h hC
    exact ⟨next_good P s x h.1 fun u hu => (hC u hu).1, next_indexing x h.1 h.2 hC⟩

/-! ## The index at rest -/

section Rest

variable {P : Params} {s : St Shared Loc} {lk : ℕ → Set ℕ}

theorem outside_idle {l : Loc} (h : outside l = true) : adding l = none ∧ deleting l = none := by
  cases l with
  | idle | ret r => exact ⟨rfl, rfl⟩
  | _ => cases h

theorem mem_unmarked {m : Mem} (h : Levels P m lk) {a L : ℕ} (hL : L < m.maxLevel) :
    a ∈ unmarked m L ↔ (a ∈ lk L ∧ mk m L a = .UNMARKED) ∧ a ≠ m.head ∧ a ≠ m.tail := by
  unfold unmarked
  rw [List.mem_filter, h.mem_nodes hL, decide_eq_true_iff]
  constructor
  · rintro ⟨⟨-, h1, h2⟩, h3⟩
    exact ⟨⟨h1, h3⟩, h2⟩
  · rintro ⟨⟨h1, h3⟩, h2⟩
    exact ⟨⟨h.reach L a h1 h3, h1, h2⟩, h3⟩

theorem indexed_of_rest (h : Indexing P s lk) (hrest : AtRest s) : Indexed s.sh.mem := by
  have hlev := h.levels
  intro L hL
  have hcomplete : ∀ a, a ∈ unmarked s.sh.mem L ↔ a ∈ unmarked s.sh.mem 0 ∧ L ≤ tp s.sh.mem a := by
    intro a
    rw [mem_unmarked hlev hL, mem_unmarked hlev hlev.frame.pos]
    constructor
    · rintro ⟨⟨h1, h2⟩, h3⟩
      obtain ⟨hmade, hT⟩ := hlev.made L a h1
      refine ⟨⟨⟨hlev.mem_of_le h1 (Nat.zero_le L), ?_⟩, h3⟩, hT.2⟩
      cases hm : mk s.sh.mem 0 a with
      | UNMARKED => rfl
      | MARKED => rw [hlev.marks a hmade hm L hT] at h2; cases h2
    · rintro ⟨⟨⟨h1, h2⟩, h3⟩, hLa⟩
      have ha : a ∈ s.sh.added := (((h.known a).1 h1).resolve_left h3.1).resolve_left h3.2
      -- no call is at work on a
      have hl : ∀ K ≤ tp s.sh.mem a, a ∈ lk K := by
        refine (h.adds a ha).resolve_right ?_
        rintro ⟨t, ht⟩
        rw [(outside_idle (hrest t)).1] at ht; cases ht
      have hm : ∀ K ≤ tp s.sh.mem a, mk s.sh.mem K a = .UNMARKED := by
        refine (h.dels a ha h2).resolve_right ?_
        rintro ⟨t, ht⟩
        rw [(outside_idle (hrest t)).2] at ht; cases ht
      exact ⟨⟨hl L hLa, hm L hLa⟩, h3⟩
  refine ⟨(hlev.climb hL).walk_linked (hlev.head L hL).1 hlev.frame.ne, hcomplete, ?_⟩
  -- two nodes of one key would both be on the bottom level
  have hbottom : (nodes s.sh.mem 0).Pairwise fun x y => ky s.sh.mem x ≠ ky s.sh.mem y :=
    (hlev.climb_bottom.walk_sorted (hlev.head 0 hlev.frame.pos).1 hlev.frame.ne).imp fun hxy => hxy.ne
  have hsymm : Std.Symm fun x y => ky s.sh.mem x ≠ ky s.sh.mem y := ⟨fun x y hxy => hxy.symm⟩
  have hsort : (unmarked s.sh.mem L).Pairwise fun x y => rank s.sh.mem x < rank s.sh.mem y :=
    ((hlev.climb hL).walk_sorted (hlev.head L hL).1 hlev.frame.ne).filter _
  refine hsort.imp_of_mem fun hx hy hxy => ?_
  have hx0 := List.mem_of_mem_filter ((hcomplete _).1 hx).1
  have hy0 := List.mem_of_mem_filter ((hcomplete _).1 hy).1
  refine (rank_lt_iff.1 hxy).resolve_right ?_
  rintro ⟨e, hlt⟩
  exact hbottom.forall hx0 hy0 hlt.ne' e

end Rest

/-- if no key lies between min and max there are no calls -/
theorem run_of_no_key (P : Params) (hlt : ¬ P.min < P.max) (ls : List (ℕ × Act)) : (sys P).run ls = (sys P).init := by
  induction ls using List.reverseRecOn with
  | nil => rfl
  | append_singleton ls x ih =>
    obtain ⟨t, a⟩ := x
    rw [Sys.run_snoc, ih]
    refine (sys P).next_eq_self ?_
    cases a with
    | invoke op =>
      have hno : canInvoke P .idle op = false := decide_eq_false fun h => hlt (h.1.trans h.2)
      simp only [sys, Sys.init, step, hno, Bool.false_eq_true, if_false]
    | step => rfl

theorem init_indexed (P : Params) : Indexed (sys P).init.sh.mem := by
  intro L hL
  have hL' : L < P.maxLevel := hL
  have hnodes : ∀ K < P.maxLevel, nodes (sys P).init.sh.mem K = [] := by
    intro K hK
    simp [nodes, walk, nx, ref, sys, Sys.init, initList, hK]
  have hempty : ∀ K < P.maxLevel, unmarked (sys P).init.sh.mem K = [] := by
    intro K hK
    unfold unmarked
    rw [hnodes K hK, List.filter_nil]
  refine ⟨?_, fun a => ?_, ?_⟩
  · rw [hnodes L hL']
    simp [nx, ref, sys, Sys.init, initList, hL']
  · rw [hempty L hL', hempty 0 P.pos]
    simp
  · rw [hempty L hL']; exact List.Pairwise.nil

/-- **The index is complete.** In every run under the condition, whenever no call is in progress, the unmarked nodes on the
chain of each level are the unmarked nodes of the bottom chain whose towers reach the level, in the order of their keys. -/
theorem index_complete (P : Params) (ls : List (ℕ × Act)) (hls : (sys P).Meets (Sys.Beside InOrder) ls)
    (hrest : AtRest ((sys P).run ls)) : Indexed ((sys P).run ls).sh.mem := by
  by_cases hlt : P.min < P.max
  · obtain ⟨lk, h⟩ := run_indexing P hlt ls hls
    exact indexed_of_rest h hrest
  · rw [run_of_no_key P hlt]; exact init_indexed P

/-! ## A node dropped from a level -/

def twoLevels : Params := ⟨2, by decide, 0, 10⟩

/-- `add(5)` of thread 0 has linked its node at the bottom level when thread 1 adds 3, with a tower of one level; thread 0 links
its node above, and thread 1 deletes 3 -/
def linkedFirst : List (ℕ × Act) :=
  callSteps 0 (.add 5 0 1) 9 ++ callSteps 1 (.add 3 0 0) 10 ++ List.replicate 2 (0, .step) ++ callSteps 1 (.delete 3) 23

theorem index_complete_linkedFirst :
    unmarked ((sys twoLevels).run linkedFirst).sh.mem 1 = [3] ∧ Indexed ((sys twoLevels).run linkedFirst).sh.mem := by
  have hc : (sys twoLevels).Check InOrder 2 (sys twoLevels).init linkedFirst := by decide +kernel
  have hrest : AtRest ((sys twoLevels).run linkedFirst) :=
    Sys.run_loc_of_lt (Q := fun l => outside l = true) _ (n := 2) (by decide +kernel) rfl (by decide +kernel)
  exact ⟨by decide +kernel, index_complete twoLevels _ (Sys.meets_of_check _ _ hc) hrest⟩

/-- `add(3)` of thread 0 has linked its node at the bottom level when thread 1 adds 5; both towers have two levels. The cas of
thread 0 at level 1 fails, and it searches again -/
def linkedLast : List (ℕ × Act) :=
  callSteps 0 (.add 3 0 1) 9 ++ callSteps 1 (.add 5 0 1) 13 ++ List.replicate 10 (0, .step)

/-- **A node is dropped from a level.** Thread 0 links its node, at address 3, at level 1 before the one of thread 1, at address
4, but its link is the one filled in at first, to tail. Both calls have returned, node 4 has a tower of two levels, and it is
not on level 1. -/
theorem index_incomplete :
    AtRest ((sys twoLevels).run linkedLast) ∧
      unmarked ((sys twoLevels).run linkedLast).sh.mem 0 = [3, 4] ∧ tp ((sys twoLevels).run linkedLast).sh.mem 4 = 1 ∧
      unmarked ((sys twoLevels).run linkedLast).sh.mem 1 = [3] ∧ ¬ Indexed ((sys twoLevels).run linkedLast).sh.mem := by
  have h0 : unmarked ((sys twoLevels).run linkedLast).sh.mem 0 = [3, 4] := by decide +kernel
  have h1 : unmarked ((sys twoLevels).run linkedLast).sh.mem 1 = [3] := by decide +kernel
  have htp : tp ((sys twoLevels).run linkedLast).sh.mem 4 = 1 := by decide +kernel
  refine ⟨Sys.run_loc_of_lt (Q := fun l => outside l = true) _ (n := 2) (by decide +kernel) rfl (by decide +kernel),
    h0, htp, h1, fun h => ?_⟩
  have hmem := ((h 1 (by decide +kernel)).complete 4).2 ⟨by simp [h0], htp.ge⟩
  rw [h1] at hmem
  exact absurd hmem (by decide)

end AlgorithmCollection.LockFreeSkiplist
