/-
The invariant of `LazySkiplist`, for any number of threads and any interleaving.

The ghost gives for each level i the set S i of the nodes reachable from head at that level, sentinels included, and the
set L i of the nodes ever linked there. Each level is a sorted chain with lazy deletion (`LazyChain`), and the levels are
nested. A node that is not marked is in S i for every level i it has been linked at; a fully linked node has been linked
at all its levels.
- An `_add` owns its new node at the levels that are not linked yet (`Own`): nobody else reads or writes those links.
- A `_delete` that has marked its victim holds the lock of the victim until it is unlinked, and nobody else unlinks it
  (`Victim`). Locked and validated preds are reachable and lead to what was validated (`Lev`).
- What a step can do to nodes is written down once in `Guar`.
A `_delete` that searches again relies on finding the same victim. This is not a fact about the state but about the walk,
so it is a premise of the step after the search (`Hind`); `LazySkiplistFind` proves it.
-/
import AlgorithmCollection.Conc.LazyChain
import AlgorithmCollection.List.LazySkiplist

namespace AlgorithmCollection.LazySkiplist

open Conc

variable {lf : Option ℕ}

structure Ghost where
  S : ℕ → Finset ℕ
  L : ℕ → Finset ℕ

def key (m : Mem) (a : ℕ) : ℤ := (m.node a).key

/-- thread t holds the mutex of a -/
def holds (m : Mem) (t a : ℕ) : Prop := (m.mtx a).map Prod.fst = some t

variable {g : Ghost} {m : Mem} {P : Params} {t n : ℕ} {j : Job}

theorem holds.unique {u a : ℕ} (h : holds m t a) (h' : holds m u a) : t = u :=
  Option.some.inj (h.symm.trans h')

structure Inv (P : Params) (g : Ghost) (m : Mem) : Prop where
  level : ∀ i < P.maxLevel,
    LazyChain (fun a => (m.node a).next i) (key m) (fun a => (m.node a).marked) head tail (g.S i) (g.L i)
  nest : ∀ i, i + 1 < P.maxLevel → g.S (i + 1) ⊆ g.S i
  nestL : ∀ i, i + 1 < P.maxLevel → g.L (i + 1) ⊆ g.L i
  addr : ∀ a ∈ g.L 0, 0 < a ∧ a < m.fresh
  top : ∀ i < P.maxLevel, ∀ a ∈ g.L i, i ≤ (m.node a).topLevel
  full : ∀ i < P.maxLevel, ∀ a ∈ g.L 0, (m.node a).fullyLinked = true → i ≤ (m.node a).topLevel → a ∈ g.L i
  mark : ∀ a ∈ g.L 0, (m.node a).marked = true → (m.node a).fullyLinked = true
  short : ∀ a ∈ g.L 0, a ≠ head → a ≠ tail → (m.node a).topLevel < P.maxLevel
  key_head : key m head = P.min
  key_tail : key m tail = P.max
  sentinel : (m.node head).marked = false ∧ (m.node tail).marked = false

section Levels

variable {P : Params} {g : Ghost} {m : Mem}

variable (h : Inv P g m)

include h

theorem Inv.bot : LazyChain (fun a => (m.node a).next 0) (key m) (fun a => (m.node a).marked) head tail
    (g.S 0) (g.L 0) := h.level 0 P.pos

variable {a i : ℕ}

theorem Inv.down (hi : i < P.maxLevel) (ha : a ∈ g.S i) : ∀ j ≤ i, a ∈ g.S j := by
  induction i with
  | zero => intro j hj; rwa [Nat.le_zero.1 hj]
  | succ i ih =>
    intro j hj
    rcases Nat.lt_or_ge i j with hij | hij
    · rwa [show j = i + 1 by omega]
    · exact ih (by omega) (h.nest i hi ha) j hij

theorem Inv.downL (hi : i < P.maxLevel) (ha : a ∈ g.L i) : ∀ j ≤ i, a ∈ g.L j := by
  induction i with
  | zero => intro j hj; rwa [Nat.le_zero.1 hj]
  | succ i ih =>
    intro j hj
    rcases Nat.lt_or_ge i j with hij | hij
    · rwa [show j = i + 1 by omega]
    · exact ih (by omega) (h.nestL i hi ha) j hij

theorem Inv.lt_fresh (hi : i < P.maxLevel) (ha : a ∈ g.L i) : a < m.fresh :=
  (h.addr a (h.downL hi ha 0 (Nat.zero_le _))).2

/-- a node with a valid key is no sentinel -/
theorem Inv.node_of_key {k : ℤ} (hr : inRange P k) (hk : key m a = k) : a ≠ head ∧ a ≠ tail := by
  constructor
  · rintro rfl
    rw [h.key_head] at hk; exact absurd hr.1 (by rw [hk]; exact lt_irrefl _)
  · rintro rfl
    rw [h.key_tail] at hk; exact absurd hr.2 (by rw [hk]; exact lt_irrefl _)

theorem Inv.ne_tail {k : ℤ} (hr : inRange P k) (hk : key m a < k) : a ≠ tail := by
  rintro rfl
  rw [h.key_tail] at hk
  exact absurd hr.2 (not_lt.2 hk.le)

end Levels

/-! ## Local assertions -/

/-- the node of this `_add` is linked at the levels below lv, and not above -/
structure Own (P : Params) (g : Ghost) (m : Mem) (n : ℕ) (k v : ℤ) (top lv : ℕ) : Prop where
  linked : ∀ i < lv, n ∈ g.L i
  not_linked : ∀ i, lv ≤ i → i < P.maxLevel → n ∉ g.L i
  pos : 0 < n
  lt : n < m.fresh
  ne : n ≠ head ∧ n ≠ tail
  key : (m.node n).key = k
  val : (m.node n).val = v
  topLevel : (m.node n).topLevel = top
  marked : (m.node n).marked = false
  not_full : (m.node n).fullyLinked = false

/-- what the walk at level i has found, in terms of the keys of nodes -/
structure Near (g : Ghost) (kf : ℕ → ℤ) (k : ℤ) (ws : Ws) (i : ℕ) : Prop where
  pred_mem : ws.preds i ∈ g.L i
  succ_mem : ws.succs i ∈ g.L i
  lt : kf (ws.preds i) < k
  le : k ≤ kf (ws.succs i)

/-- lFound is the highest level from lo on at which the key was found -/
def HitOk (P : Params) (kf : ℕ → ℤ) (k : ℤ) (ws : Ws) (lo : ℕ) : Option ℕ → Prop
  | none => ∀ i, lo ≤ i → i < P.maxLevel → k < kf (ws.succs i)
  | some f => lo ≤ f ∧ f < P.maxLevel ∧ kf (ws.succs f) = k ∧ ∀ i, f < i → i < P.maxLevel → k < kf (ws.succs i)

/-- the search has finished the levels from lo on -/
structure Searched (P : Params) (g : Ghost) (kf : ℕ → ℤ) (k : ℤ) (ws : Ws) (lFound : Option ℕ) (lo : ℕ) : Prop where
  range : inRange P k
  near : ∀ i, lo ≤ i → i < P.maxLevel → Near g kf k ws i
  hit : HitOk P kf k ws lo lFound

section Mono

variable {P : Params} {g g' : Ghost} {kf kf' : ℕ → ℤ} {k : ℤ} {ws : Ws}

theorem Near.mono {i : ℕ} (h : Near g kf k ws i) (hL : g.L i ⊆ g'.L i) (hk : ∀ a ∈ g.L i, kf' a = kf a) :
    Near g' kf' k ws i :=
  ⟨hL h.pred_mem, hL h.succ_mem, by rw [hk _ h.pred_mem]; exact h.lt, by rw [hk _ h.succ_mem]; exact h.le⟩

/-- the result of a search stays right while nodes are linked, as keys do not change -/
theorem Searched.mono {lo : ℕ} (h : Searched P g kf k ws lf lo) (hL : ∀ i < P.maxLevel, g.L i ⊆ g'.L i)
    (hk : ∀ i < P.maxLevel, ∀ a ∈ g.L i, kf' a = kf a) : Searched P g' kf' k ws lf lo := by
  have hs : ∀ i, lo ≤ i → i < P.maxLevel → kf' (ws.succs i) = kf (ws.succs i) := fun i h1 h2 =>
    hk i h2 _ (h.near i h1 h2).succ_mem
  refine ⟨h.range, fun i h1 h2 => (h.near i h1 h2).mono (hL i h2) (hk i h2), ?_⟩
  have hh := h.hit
  cases lf with
  | none => intro i h1 h2; rw [hs i h1 h2]; exact hh i h1 h2
  | some f =>
    obtain ⟨h1, h2, h3, h4⟩ := hh
    exact ⟨h1, h2, (hs f h1 h2).trans h3, fun i h5 h6 => by rw [hs i (h1.trans h5.le) h6]; exact h4 i h5 h6⟩

/-- the search finishes one more level -/
theorem Searched.endLevel {lv p q : ℕ} (h : Searched P g kf k ws lf (lv + 1)) (hlv : lv < P.maxLevel)
    (hp : p ∈ g.L lv) (hq : q ∈ g.L lv) (h1 : kf p < k) (h2 : k ≤ kf q) :
    Searched P g kf k (ws.set lv p q) (if lf = none ∧ k = kf q then some lv else lf) lv := by
  have hself : (ws.set lv p q).preds lv = p ∧ (ws.set lv p q).succs lv = q := by simp [Ws.set]
  have hne : ∀ i, i ≠ lv → (ws.set lv p q).preds i = ws.preds i ∧ (ws.set lv p q).succs i = ws.succs i := fun i hi => by
    simp [Ws.set, Function.update_of_ne hi]
  have hh := h.hit
  refine ⟨h.range, fun i h3 h4 => ?_, ?_⟩
  · by_cases hi : i = lv
    · subst hi
      exact ⟨by rwa [hself.1], by rwa [hself.2], by rwa [hself.1], by rwa [hself.2]⟩
    · have hn := h.near i (by omega) h4
      obtain ⟨e1, e2⟩ := hne i hi
      exact ⟨by rw [e1]; exact hn.pred_mem, by rw [e2]; exact hn.succ_mem, by rw [e1]; exact hn.lt,
        by rw [e2]; exact hn.le⟩
  · cases lf with
    | none =>
      have habove : ∀ i, lv < i → i < P.maxLevel → k < kf ((ws.set lv p q).succs i) := fun i h3 h4 => by
        rw [(hne i (by omega)).2]; exact hh i h3 h4
      by_cases hk : k = kf q
      · rw [if_pos ⟨rfl, hk⟩]
        exact ⟨le_rfl, hlv, by rw [hself.2]; exact hk.symm, habove⟩
      · rw [if_neg fun e => hk e.2]
        intro i h3 h4
        rcases Nat.lt_or_ge lv i with h5 | h5
        · exact habove i h5 h4
        · obtain rfl : i = lv := by omega
          rw [hself.2]; exact lt_of_le_of_ne h2 hk
    | some f =>
      obtain ⟨h3, h4, h5, h6⟩ := hh
      rw [if_neg fun e => by cases e.1]
      exact ⟨by omega, h4, by rw [(hne f (by omega)).2]; exact h5,
        fun i h7 h8 => by rw [(hne i (by omega)).2]; exact h6 i h7 h8⟩

end Mono

/-- a victim marked by t: locked by t and linked at all its levels -/
structure Victim (P : Params) (g : Ghost) (t : ℕ) (m : Mem) (k : ℤ) (mk : Mark) : Prop where
  lt : mk.topLevel < P.maxLevel
  mem : ∀ i ≤ mk.topLevel, mk.victim ∈ g.S i
  key : key m mk.victim = k
  top : (m.node mk.victim).topLevel = mk.topLevel
  marked : (m.node mk.victim).marked = true
  held : holds m t mk.victim

def CtxOk (P : Params) (g : Ghost) (t : ℕ) (m : Mem) : Ctx → Prop
  | .add _ _ top => top < P.maxLevel
  | .delete k (some mk) => Victim P g t m k mk
  | .delete _ none | .find _ => True

def Job.lFound : Job → Option ℕ
  | .add _ _ _ => none
  | .delete _ _ _ f => some f

/-- the victim found again is the one that was marked -/
def Job.same : Job → Prop
  | .add _ _ _ => True
  | .delete _ mk victim f => victim = mk.victim ∧ f = mk.topLevel

structure JobOk (P : Params) (g : Ghost) (t : ℕ) (m : Mem) (j : Job) (ws : Ws) : Prop where
  ctx : CtxOk P g t m j.ctx
  searched : Searched P g (key m) j.key ws j.lFound 0
  same : j.same

theorem JobOk.top {ws : Ws} (h : JobOk P g t m j ws) : j.topLevel < P.maxLevel := by
  have hc := h.ctx
  cases j with
  | add k v top => exact hc
  | delete k mk victim f => exact Victim.lt hc

theorem JobOk.near {ws : Ws} (h : JobOk P g t m j ws) {i : ℕ}
    (hi : i < P.maxLevel) : Near g (key m) j.key ws i := h.searched.near i (Nat.zero_le _) hi

/-- preds[i] is locked by t, not marked, and leads to s -/
structure Lev (t : ℕ) (m : Mem) (ws : Ws) (i s : ℕ) : Prop where
  held : holds m t (ws.preds i)
  unmarked : (m.node (ws.preds i)).marked = false
  next : (m.node (ws.preds i)).next i = s

/-- a victim found and not marked yet by t -/
structure Found (P : Params) (g : Ghost) (m : Mem) (k : ℤ) (ws : Ws) (f victim : ℕ) : Prop where
  searched : Searched P g (key m) k ws (some f) 0
  victim_eq : victim = ws.succs f

/-- the victim is linked at the levels up to lv and not above, and preds of these levels lead to it -/
structure Going (P : Params) (g : Ghost) (t : ℕ) (m : Mem) (k : ℤ) (mk : Mark) (ws : Ws) (victim lv : ℕ) : Prop where
  lt : mk.topLevel < P.maxLevel
  le : lv ≤ mk.topLevel
  same : victim = mk.victim
  near : ∀ i < P.maxLevel, Near g (key m) k ws i
  range : inRange P k
  mem : ∀ i ≤ lv, victim ∈ g.S i
  gone : ∀ i, lv < i → i < P.maxLevel → victim ∉ g.S i
  key : key m victim = k
  marked : (m.node victim).marked = true
  held : holds m t victim
  lev : ∀ i ≤ lv, Lev t m ws i victim

def AsrtAt (P : Params) (g : Ghost) (t : ℕ) (m : Mem) : Loc → Prop
  | .idle | .ret _ _ | .retFind _ _ => True
  | .aborted => False
  | .load c ws lf lv pred =>
    CtxOk P g t m c ∧ lv < P.maxLevel ∧ pred ∈ g.L lv ∧ key m pred < c.key ∧ Searched P g (key m) c.key ws lf (lv + 1)
  | .test c ws lf lv pred curr =>
    CtxOk P g t m c ∧ lv < P.maxLevel ∧ pred ∈ g.L lv ∧ key m pred < c.key ∧ Searched P g (key m) c.key ws lf (lv + 1) ∧
      curr ∈ g.L lv
  | .found c ws lf => CtxOk P g t m c ∧ Searched P g (key m) c.key ws lf 0
  | .lockPred j ws lv => JobOk P g t m j ws ∧ lv ≤ j.topLevel ∧ ∀ i < lv, Lev t m ws i (j.succ ws i)
  | .valid1 j ws lv =>
    JobOk P g t m j ws ∧ lv ≤ j.topLevel ∧ (∀ i < lv, Lev t m ws i (j.succ ws i)) ∧ holds m t (ws.preds lv)
  | .valid2 j ws lv | .valid3 j ws lv =>
    JobOk P g t m j ws ∧ lv ≤ j.topLevel ∧ (∀ i < lv, Lev t m ws i (j.succ ws i)) ∧ holds m t (ws.preds lv) ∧
      (m.node (ws.preds lv)).marked = false
  | .retry j ws h i => JobOk P g t m j ws ∧ i ≤ h ∧ h < P.maxLevel
  | .chkMarked k _ top n => inRange P k ∧ top < P.maxLevel ∧ n ∈ g.L 0 ∧ key m n = k
  | .spin k _ n => inRange P k ∧ n ∈ g.L 0 ∧ key m n = k
  | .assert1 k v top ws lv | .assert2 k v top ws lv =>
    JobOk P g t m (.add k v top) ws ∧ lv ≤ top ∧ ∀ i ≤ top, Lev t m ws i (ws.succs i)
  | .create k v top ws => JobOk P g t m (.add k v top) ws ∧ ∀ i ≤ top, Lev t m ws i (ws.succs i)
  | .link1 k v top ws n lv =>
    JobOk P g t m (.add k v top) ws ∧ Own P g m n k v top lv ∧ lv ≤ top ∧
      ∀ i, lv ≤ i → i ≤ top → Lev t m ws i (ws.succs i)
  | .link2 k v top ws n lv =>
    JobOk P g t m (.add k v top) ws ∧ Own P g m n k v top lv ∧ lv ≤ top ∧
      (∀ i, lv ≤ i → i ≤ top → Lev t m ws i (ws.succs i)) ∧ (m.node n).next lv = ws.succs lv
  | .full k v top _ n => top < P.maxLevel ∧ inRange P k ∧ Own P g m n k v top (top + 1)
  | .addUnlock _ _ _ _ _ => True
  | .flag1 k mark ws f victim =>
    CtxOk P g t m (.delete k mark) ∧ Found P g m k ws f victim ∧
      (∀ mk, mark = some mk → victim = mk.victim ∧ f = mk.topLevel)
  | .flag2 k mark ws f victim =>
    CtxOk P g t m (.delete k mark) ∧ Found P g m k ws f victim ∧
      (∀ mk, mark = some mk → victim = mk.victim ∧ f = mk.topLevel) ∧ (m.node victim).fullyLinked = true
  | .flag3 k mark ws f victim =>
    CtxOk P g t m (.delete k mark) ∧ Found P g m k ws f victim ∧
      (∀ mk, mark = some mk → victim = mk.victim ∧ f = mk.topLevel) ∧ (m.node victim).fullyLinked = true ∧
      (m.node victim).topLevel = f
  | .lockVictim k ws f victim top =>
    Found P g m k ws f victim ∧ (m.node victim).fullyLinked = true ∧ (m.node victim).topLevel = f ∧ top = f
  | .recheck k ws f victim top =>
    Found P g m k ws f victim ∧ (m.node victim).fullyLinked = true ∧ (m.node victim).topLevel = f ∧ top = f ∧
      holds m t victim
  | .giveUp _ _ => True
  | .mark k ws f victim top =>
    Found P g m k ws f victim ∧ (m.node victim).fullyLinked = true ∧ (m.node victim).topLevel = f ∧ top = f ∧
      holds m t victim ∧ (m.node victim).marked = false
  | .unlink1 k mk ws _ victim lv => Going P g t m k mk ws victim lv
  | .unlink2 k mk ws _ victim lv succ => Going P g t m k mk ws victim lv ∧ (m.node victim).next lv = succ
  | .unlockVictim _ mk _ _ victim | .delUnlock _ mk _ _ victim _ | .getVal _ mk victim =>
    victim = mk.victim ∧ victim ∈ g.L 0
  | .find1 _ _ _ | .find2 _ _ _ | .find3 _ _ | .find4 _ _ => True

/-- the node a thread has created and not fully linked yet -/
def owns : Loc → Option ℕ
  | .link1 _ _ _ _ n _ | .link2 _ _ _ _ n _ | .full _ _ _ _ n => some n
  | _ => none

/-- the levels of that node from here on are not linked -/
def progress : Loc → ℕ
  | .link1 _ _ _ _ _ lv | .link2 _ _ _ _ _ lv => lv
  | .full _ _ top _ _ => top + 1
  | _ => 0

/-- different threads own different nodes -/
def Disj (l l' : Loc) : Prop := ∀ n, owns l = some n → owns l' ≠ some n

/-- an owned node is allocated, not linked from its progress on, not marked and not fully linked -/
theorem AsrtAt.owned {l : Loc} (h : AsrtAt P g t m l)
    (hn : owns l = some n) : n < m.fresh ∧ (∀ i, progress l ≤ i → i < P.maxLevel → n ∉ g.L i) ∧
      (m.node n).marked = false ∧ (m.node n).fullyLinked = false := by
  cases l with
  | link1 k v top ws n lv
  | link2 k v top ws n lv => cases hn; exact ⟨h.2.1.lt, h.2.1.not_linked, h.2.1.marked, h.2.1.not_full⟩
  | full k v top ws n => cases hn; exact ⟨h.2.2.lt, h.2.2.not_linked, h.2.2.marked, h.2.2.not_full⟩
  | _ => cases hn

/-! ## What a step guarantees to the other threads -/

structure Guar (P : Params) (g : Ghost) (t : ℕ) (m : Mem) (l : Loc) (g' : Ghost) (m' : Mem) (l' : Loc) : Prop where
  inv : Inv P g' m'
  asrt : AsrtAt P g' t m' l'
  mtx : ∀ a < m.fresh, ∀ u ≠ t, holds m u a → holds m' u a
  next : ∀ a < m.fresh, ∀ i < P.maxLevel, (m'.node a).next i = (m.node a).next i ∨
    (holds m t a ∧ a ∈ g.S i ∧ a ∈ g'.S i) ∨ (owns l = some a ∧ progress l ≤ i)
  marked : ∀ a < m.fresh, (m'.node a).marked = (m.node a).marked ∨
    (holds m t a ∧ (m'.node a).marked = true ∧ (m.node a).fullyLinked = true ∧ g'.S = g.S)
  full : ∀ a < m.fresh, (m'.node a).fullyLinked = (m.node a).fullyLinked ∨
    (owns l = some a ∧ (m'.node a).fullyLinked = true ∧ g'.S = g.S)
  data : ∀ a < m.fresh, (m'.node a).key = (m.node a).key ∧ (m'.node a).val = (m.node a).val ∧
    (m'.node a).topLevel = (m.node a).topLevel
  fresh : m.fresh ≤ m'.fresh
  keep : ∀ i < P.maxLevel, ∀ a ∈ g.S i, a ∉ g'.S i → (m.node a).marked = true ∧ holds m t a
  new : ∀ i < P.maxLevel, ∀ a ∈ g'.S i, a ∉ g.S i → owns l = some a
  grows : ∀ i < P.maxLevel, g.L i ⊆ g'.L i
  newL : ∀ i < P.maxLevel, ∀ a ∈ g'.L i, a ∉ g.L i → owns l = some a
  owned : ∀ n, owns l' = some n → owns l = some n ∨ n = m.fresh

section Stable

variable {P : Params} {g g' : Ghost} {t u : ℕ} {m m' : Mem} {l l' l2 : Loc}

variable {ws : Ws} {a i lv victim : ℕ} {k : ℤ}

variable (h : Guar P g t m l g' m' l')

include h

variable (hI : Inv P g m)

include hI

theorem Guar.key_eq (hi : i < P.maxLevel) (ha : a ∈ g.L i) : key m' a = key m a := (h.data a (hI.lt_fresh hi ha)).1

/-- a linked node locked by another thread keeps its lock, its mark and its links at the levels it is linked at -/
theorem Guar.locked (ha : AsrtAt P g t m l) (hu : u ≠ t) (hi : i < P.maxLevel) (haL : a ∈ g.L i) (hm : holds m u a) :
    holds m' u a ∧ (m'.node a).next i = (m.node a).next i ∧ (m'.node a).marked = (m.node a).marked := by
  have hlt := hI.lt_fresh hi haL
  have hne : ¬ holds m t a := fun e => hu (hm.unique e)
  refine ⟨h.mtx a hlt u hu hm, ?_, ?_⟩
  · rcases h.next a hlt i hi with h1 | h1 | h1
    · exact h1
    · exact absurd h1.1 hne
    · exact absurd haL ((ha.owned h1.1).2.1 i h1.2 hi)
  · rcases h.marked a hlt with h1 | h1
    · exact h1
    · exact absurd h1.1 hne

theorem Searched.stable {lo : ℕ} (hs : Searched P g (key m) k ws lf lo) : Searched P g' (key m') k ws lf lo :=
  hs.mono h.grows fun _ hi _ => h.key_eq hI hi

theorem Victim.stable (ha : AsrtAt P g t m l) (hu : u ≠ t)
    {mk : Mark} (hv : Victim P g u m k mk) : Victim P g' u m' k mk := by
  have hL := hI.bot.sub (hv.mem 0 (Nat.zero_le _))
  obtain ⟨h1, -, h3⟩ := h.locked hI ha hu P.pos hL hv.held
  refine ⟨hv.lt, fun i hi => ?_, (h.key_eq hI P.pos hL).trans hv.key,
    (h.data _ (hI.lt_fresh P.pos hL)).2.2.trans hv.top, h3.trans hv.marked, h1⟩
  by_contra hno
  exact hu (hv.held.unique (h.keep i (hi.trans_lt hv.lt) _ (hv.mem i hi) hno).2)

theorem CtxOk.stable (ha : AsrtAt P g t m l) (hu : u ≠ t) {c : Ctx} (hc : CtxOk P g u m c) : CtxOk P g' u m' c := by
  cases c with
  | add k v top => exact hc
  | delete k mark =>
    cases mark with
    | none => trivial
    | some mk => exact Victim.stable h hI ha hu hc
  | find k => trivial

theorem JobOk.stable (ha : AsrtAt P g t m l) (hu : u ≠ t) (hj : JobOk P g u m j ws) : JobOk P g' u m' j ws :=
  ⟨hj.ctx.stable h hI ha hu, hj.searched.stable h hI, hj.same⟩

theorem Lev.stable (ha : AsrtAt P g t m l) (hu : u ≠ t)
    {s : ℕ} (hi : i < P.maxLevel) (hp : ws.preds i ∈ g.L i) (hl : Lev u m ws i s) : Lev u m' ws i s := by
  obtain ⟨h1, h2, h3⟩ := h.locked hI ha hu hi hp hl.held
  exact ⟨h1, h3.trans hl.unmarked, h2.trans hl.next⟩

omit hI in
theorem Own.stable {v : ℤ} {top : ℕ} (hlv : lv ≤ P.maxLevel)
    (ho : Own P g m n k v top lv) (hd : owns l ≠ some n) : Own P g' m' n k v top lv := by
  refine ⟨fun i hi => h.grows i (hi.trans_le hlv) (ho.linked i hi),
    fun i h1 h2 hL => hd (h.newL i h2 n hL (ho.not_linked i h1 h2)), ho.pos, lt_of_lt_of_le ho.lt h.fresh, ho.ne,
    (h.data n ho.lt).1.trans ho.key, (h.data n ho.lt).2.1.trans ho.val, (h.data n ho.lt).2.2.trans ho.topLevel, ?_, ?_⟩
  · rcases h.marked n ho.lt with h1 | h1
    · exact h1.trans ho.marked
    · rw [ho.not_full] at h1; cases h1.2.2.1
  · rcases h.full n ho.lt with h1 | h1
    · exact h1.trans ho.not_full
    · exact absurd h1.1 hd

theorem Own.next_stable {v : ℤ} {top : ℕ} (hlv : lv < P.maxLevel) (ho : Own P g m n k v top lv) (hd : owns l ≠ some n) :
    (m'.node n).next lv = (m.node n).next lv := by
  rcases h.next n ho.lt lv hlv with h1 | h1 | h1
  · exact h1
  · exact absurd ((hI.level lv hlv).sub h1.2.1) (ho.not_linked lv le_rfl hlv)
  · exact absurd h1.1 hd

omit h in
theorem Found.mem {f : ℕ} (hf : Found P g m k ws f victim) :
    f < P.maxLevel ∧ victim ∈ g.L f ∧ victim ∈ g.L 0 ∧ key m victim = k := by
  obtain ⟨-, h1, h2, -⟩ := hf.searched.hit
  have hL : victim ∈ g.L f := by
    rw [hf.victim_eq]; exact (hf.searched.near f (Nat.zero_le _) h1).succ_mem
  exact ⟨h1, hL, hI.downL h1 hL 0 (Nat.zero_le _), by rw [hf.victim_eq]; exact h2⟩

theorem Found.stable {f : ℕ}
    (hf : Found P g m k ws f victim) : Found P g' m' k ws f victim := ⟨hf.searched.stable h hI, hf.victim_eq⟩

omit hI in
/-- a fully linked node stays fully linked, and its level does not change -/
theorem Guar.full_mono (ha : a < m.fresh) (hf : (m.node a).fullyLinked = true) : (m'.node a).fullyLinked = true := by
  rcases h.full a ha with h1 | h1
  · exact h1.trans hf
  · exact h1.2.1

theorem Going.stable (ha : AsrtAt P g t m l) (hu : u ≠ t) {mk : Mark} (hg : Going P g u m k mk ws victim lv) :
    Going P g' u m' k mk ws victim lv ∧ (m'.node victim).next lv = (m.node victim).next lv := by
  have hlv : lv < P.maxLevel := hg.le.trans_lt hg.lt
  have hL : ∀ i ≤ lv, victim ∈ g.L i := fun i hi => (hI.level i (hi.trans_lt hlv)).sub (hg.mem i hi)
  obtain ⟨h1, -, h3⟩ := h.locked hI ha hu P.pos (hL 0 (Nat.zero_le _)) hg.held
  refine ⟨⟨hg.lt, hg.le, hg.same, fun i hi => (hg.near i hi).mono (h.grows i hi) fun _ => h.key_eq hI hi, hg.range,
    fun i hi => ?_, fun i h4 h5 h6 => ?_,
    (h.key_eq hI P.pos (hL 0 (Nat.zero_le _))).trans hg.key, h3.trans hg.marked, h1, fun i hi => ?_⟩,
    (h.locked hI ha hu hlv (hL lv le_rfl) hg.held).2.1⟩
  · by_contra hno
    exact hu (hg.held.unique (h.keep i (hi.trans_lt hlv) _ (hg.mem i hi) hno).2)
  · -- a marked node is not owned by another `_add`, so it is not linked again
    have := (ha.owned (h.new i h5 _ h6 (hg.gone i h4 h5))).2.2.1
    rw [hg.marked] at this; cases this
  · exact (hg.lev i hi).stable h hI ha hu (hi.trans_lt hlv) (hg.near i (hi.trans_lt hlv)).pred_mem

/-- **Stability.** The assertion of another thread is kept by every step. -/
theorem AsrtAt.stable (ha : AsrtAt P g t m l) (hu : u ≠ t)
    (hl : AsrtAt P g u m l2) (hd : ∀ n, owns l2 = some n → owns l ≠ some n) : AsrtAt P g' u m' l2 := by
  -- locked levels of a job
  have lev : ∀ {j : Job} {ws : Ws} {i s : ℕ}, JobOk P g u m j ws → i < P.maxLevel → Lev u m ws i s → Lev u m' ws i s :=
    fun hj hi hl => hl.stable h hI ha hu hi (hj.near hi).pred_mem
  have job : ∀ {j : Job} {ws : Ws}, JobOk P g u m j ws → JobOk P g' u m' j ws := fun hj => hj.stable h hI ha hu
  have top : ∀ {j : Job} {ws : Ws}, JobOk P g u m j ws → j.topLevel < P.maxLevel := fun hj => hj.top
  -- the victim of a `_delete`
  have vic : ∀ {k ws f victim}, Found P g m k ws f victim → victim < m.fresh := fun hf =>
    hI.lt_fresh P.pos (hf.mem hI).2.2.1
  cases l2 with
  | idle | ret _ _ | retFind _ _ | addUnlock _ _ _ _ _ | giveUp _ _ | find1 _ _ _ | find2 _ _ _ | find3 _ _
  | find4 _ _ => trivial
  | aborted => exact hl
  | load c ws lf lv p =>
    obtain ⟨h1, h2, h3, h4, h5⟩ := hl
    exact ⟨h1.stable h hI ha hu, h2, h.grows lv h2 h3, by rw [h.key_eq hI h2 h3]; exact h4, h5.stable h hI⟩
  | test c ws lf lv p q =>
    obtain ⟨h1, h2, h3, h4, h5, h6⟩ := hl
    exact ⟨h1.stable h hI ha hu, h2, h.grows lv h2 h3, by rw [h.key_eq hI h2 h3]; exact h4, h5.stable h hI,
      h.grows lv h2 h6⟩
  | found c ws lf => exact ⟨hl.1.stable h hI ha hu, hl.2.stable h hI⟩
  | lockPred j ws lv =>
    obtain ⟨h1, h2, h3⟩ := hl
    exact ⟨job h1, h2, fun i hi => lev h1 ((hi.trans_le h2).trans (top h1)) (h3 i hi)⟩
  | valid1 j ws lv =>
    obtain ⟨h1, h2, h3, h4⟩ := hl
    have hp := (h1.near (h2.trans_lt (top h1))).pred_mem
    exact ⟨job h1, h2, fun i hi => lev h1 ((hi.trans_le h2).trans (top h1)) (h3 i hi),
      (h.locked hI ha hu (h2.trans_lt (top h1)) hp h4).1⟩
  | valid2 j ws lv | valid3 j ws lv =>
    obtain ⟨h1, h2, h3, h4, h5⟩ := hl
    have hp := (h1.near (h2.trans_lt (top h1))).pred_mem
    obtain ⟨h6, -, h7⟩ := h.locked hI ha hu (h2.trans_lt (top h1)) hp h4
    exact ⟨job h1, h2, fun i hi => lev h1 ((hi.trans_le h2).trans (top h1)) (h3 i hi), h6, h7.trans h5⟩
  | retry j ws hh i => exact ⟨job hl.1, hl.2⟩
  | chkMarked k v top n =>
    obtain ⟨h1, h2, h3, h4⟩ := hl
    exact ⟨h1, h2, h.grows 0 P.pos h3, (h.key_eq hI P.pos h3).trans h4⟩
  | spin k v n =>
    obtain ⟨h1, h3, h4⟩ := hl
    exact ⟨h1, h.grows 0 P.pos h3, (h.key_eq hI P.pos h3).trans h4⟩
  | assert1 k v tp ws lv | assert2 k v tp ws lv =>
    obtain ⟨h1, h2, h3⟩ := hl
    exact ⟨job h1, h2, fun i hi => lev h1 (hi.trans_lt (top h1)) (h3 i hi)⟩
  | create k v tp ws =>
    obtain ⟨h1, h3⟩ := hl
    exact ⟨job h1, fun i hi => lev h1 (hi.trans_lt (top h1)) (h3 i hi)⟩
  | link1 k v tp ws n lv =>
    obtain ⟨h1, h2, h3, h4⟩ := hl
    exact ⟨job h1, h2.stable h (h3.trans (top h1).le) (hd n rfl), h3,
      fun i h5 hi => lev h1 (hi.trans_lt (top h1)) (h4 i h5 hi)⟩
  | link2 k v tp ws n lv =>
    obtain ⟨h1, h2, h3, h4, h5⟩ := hl
    exact ⟨job h1, h2.stable h (h3.trans (top h1).le) (hd n rfl), h3,
      fun i h5 hi => lev h1 (hi.trans_lt (top h1)) (h4 i h5 hi),
      (h2.next_stable h hI (h3.trans_lt (top h1)) (hd n rfl)).trans h5⟩
  | full k v tp ws n => exact ⟨hl.1, hl.2.1, hl.2.2.stable h hl.1 (hd n rfl)⟩
  | flag1 k mark ws f v => exact ⟨hl.1.stable h hI ha hu, hl.2.1.stable h hI, hl.2.2⟩
  | flag2 k mark ws f v =>
    exact ⟨hl.1.stable h hI ha hu, hl.2.1.stable h hI, hl.2.2.1, h.full_mono (vic hl.2.1) hl.2.2.2⟩
  | flag3 k mark ws f v =>
    exact ⟨hl.1.stable h hI ha hu, hl.2.1.stable h hI, hl.2.2.1, h.full_mono (vic hl.2.1) hl.2.2.2.1,
      (h.data v (vic hl.2.1)).2.2.trans hl.2.2.2.2⟩
  | lockVictim k ws f v tp =>
    exact ⟨hl.1.stable h hI, h.full_mono (vic hl.1) hl.2.1, (h.data v (vic hl.1)).2.2.trans hl.2.2.1, hl.2.2.2⟩
  | recheck k ws f v tp =>
    exact ⟨hl.1.stable h hI, h.full_mono (vic hl.1) hl.2.1, (h.data v (vic hl.1)).2.2.trans hl.2.2.1, hl.2.2.2.1,
      h.mtx v (vic hl.1) u hu hl.2.2.2.2⟩
  | mark k ws f v tp =>
    obtain ⟨h1, h2, h3, h4, h5, h6⟩ := hl
    obtain ⟨h7, -, h8⟩ := h.locked hI ha hu P.pos (h1.mem hI).2.2.1 h5
    exact ⟨h1.stable h hI, h.full_mono (vic h1) h2, (h.data v (vic h1)).2.2.trans h3, h4, h7, h8.trans h6⟩
  | unlink1 k mk ws f v lv => exact (Going.stable h hI ha hu hl).1
  | unlink2 k mk ws f v lv s =>
    obtain ⟨h1, h2⟩ := hl.1.stable h hI ha hu
    exact ⟨h1, h2.trans hl.2⟩
  | unlockVictim k mk ws f v | delUnlock k mk ws f v i | getVal k mk v => exact ⟨hl.1, h.grows 0 P.pos hl.2⟩

end Stable

end AlgorithmCollection.LazySkiplist
