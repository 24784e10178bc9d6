/-
The invariant of `LazySynchroList`, for any number of threads and any interleaving.

The ghost is the set S of the nodes reachable from head, sentinels included, and the set L of all nodes ever linked.
S is a sorted chain from head to tail. A node of L that is not marked is in S, and the link of a node of L leads to a
node of L with a larger key, also from nodes that have been unlinked (`LazyChain.edge`): so a walk without locks moves up in
the order and ends at tail at the latest.
- A thread that holds the lock of a node knows that the node is not marked and its link is not changed by others.
  `validate` under both locks therefore gives a node of S and its successor in S (`Valid.pred_mem_S`).
- What a step can do to nodes is written down once in `Guar`: links change only at unmarked nodes of S, a node leaves
  S only when marked, and then keeps its link. The arguments about walks without locks use only this.
`inv_run`: the invariant holds in every reachable state.
-/
import AlgorithmCollection.Conc.LazyChain
import AlgorithmCollection.List.LazySynchroList

namespace AlgorithmCollection.LazySynchroList

open Conc
open Function (update update_of_ne)

structure Ghost where
  S : Finset ℕ
  L : Finset ℕ

def key (m : Mem) (a : ℕ) : ℤ := (m.node a).key

structure Inv (g : Ghost) (m : Mem) : Prop
    extends LazyChain (fun a => (m.node a).next) (key m) (fun a => (m.node a).marked) head tail g.S g.L where
  addr : ∀ a ∈ g.L, 0 < a ∧ a < m.fresh
  low : ∀ a ∈ g.L, INT_MIN ≤ key m a
  key_head : key m head = INT_MIN
  key_tail : key m tail = INT_MAX
  sentinel : (m.node head).marked = false ∧ (m.node tail).marked = false
  unborn : ∀ a, m.fresh ≤ a → m.mtx a = none

/-! ## Local assertions -/

/-- the node created by this `add` is not linked -/
structure Own (g : Ghost) (m : Mem) (n : ℕ) (k v : ℤ) : Prop where
  not_mem : n ∉ g.L
  pos : 0 < n
  lt : n < m.fresh
  key : (m.node n).key = k
  val : (m.node n).val = v
  marked : (m.node n).marked = false
  free : m.mtx n = none

def CtxOk (g : Ghost) (m : Mem) : Ctx → Prop
  | .add k v n => inRange k ∧ Own g m n k v
  | .delete k => inRange k

theorem CtxOk.range {g : Ghost} {m : Mem} {c : Ctx} (h : CtxOk g m c) : inRange c.key := by
  cases c with
  | add k v n => exact h.1
  | delete k => exact h

/-- a walk has come from pred, before the key, to curr -/
structure Trav (g : Ghost) (m : Mem) (k : ℤ) (pred curr : ℕ) : Prop where
  range : inRange k
  pred_mem : pred ∈ g.L
  curr_mem : curr ∈ g.L
  lt : key m pred < k
  lt_curr : key m pred < key m curr

/-- and ended there -/
structure Ended (g : Ghost) (m : Mem) (k : ℤ) (pred curr : ℕ) : Prop extends Trav g m k pred curr where
  le : k ≤ key m curr

structure Locked (g : Ghost) (t : ℕ) (m : Mem) (k : ℤ) (pred curr : ℕ) : Prop extends Ended g m k pred curr where
  mtx_pred : m.mtx pred = some t
  mtx_curr : m.mtx curr = some t

/-- both locked, pred unmarked and before curr: what `validate` has established -/
structure Valid (g : Ghost) (t : ℕ) (m : Mem) (k : ℤ) (pred curr : ℕ) : Prop extends Locked g t m k pred curr where
  unmarked : (m.node pred).marked = false
  next : (m.node pred).next = curr

/-- `find` never unlocks -/
def AfterOk (g : Ghost) (m : Mem) : After → Prop
  | .ret op _ => ∀ k, op ≠ .contains k
  | .again c => CtxOk g m c

def AsrtAt (g : Ghost) (t : ℕ) (m : Mem) : Loc → Prop
  | .idle | .ret _ _ => True
  | .aborted => False
  | .create k _ => inRange k
  | .start c => CtxOk g m c
  | .test c pred curr => CtxOk g m c ∧ Trav g m c.key pred curr
  | .next c pred => CtxOk g m c ∧ pred ∈ g.L ∧ pred ≠ tail ∧ key m pred < c.key
  | .lockPred c pred curr => CtxOk g m c ∧ Ended g m c.key pred curr
  | .lockCurr c pred curr => CtxOk g m c ∧ Ended g m c.key pred curr ∧ m.mtx pred = some t
  | .recheck c pred curr | .assert c pred curr | .valid1 c pred curr => CtxOk g m c ∧ Locked g t m c.key pred curr
  | .valid2 c pred curr => CtxOk g m c ∧ Locked g t m c.key pred curr ∧ (m.node pred).marked = false
  | .valid3 c pred curr =>
    CtxOk g m c ∧ Locked g t m c.key pred curr ∧ (m.node pred).marked = false ∧ (m.node curr).marked = false
  | .body c pred curr => CtxOk g m c ∧ Valid g t m c.key pred curr ∧ (m.node curr).marked = false
  | .link1 k v n pred curr => Own g m n k v ∧ Valid g t m k pred curr ∧ k ≠ key m curr
  | .link2 k v n pred curr =>
    Own g m n k v ∧ Valid g t m k pred curr ∧ k ≠ key m curr ∧ (m.node n).next = curr
  | .del1 k pred curr => Valid g t m k pred curr ∧ (m.node curr).marked = false ∧ k = key m curr
  | .del2 k pred curr => Valid g t m k pred curr ∧ (m.node curr).marked = true ∧ k = key m curr
  | .del3 k pred curr v =>
    Valid g t m k pred curr ∧ (m.node curr).marked = true ∧ k = key m curr ∧ (m.node curr).val = v
  | .del4 k pred curr v succ =>
    Valid g t m k pred curr ∧ (m.node curr).marked = true ∧ k = key m curr ∧ (m.node curr).val = v ∧
      (m.node curr).next = succ
  | .unlock1 w pred curr => AfterOk g m w ∧ m.mtx pred = some t ∧ m.mtx curr = some t ∧ pred ≠ curr
  | .unlock2 w curr => AfterOk g m w ∧ m.mtx curr = some t
  | .fTest k curr => inRange k ∧ curr ∈ g.L
  | .fNext k curr => inRange k ∧ curr ∈ g.L ∧ key m curr < k
  | .fMark k curr => inRange k ∧ curr ∈ g.L ∧ key m curr = k

def Ctx.owns : Ctx → Option ℕ
  | .add _ _ n => some n
  | .delete _ => none

def After.owns : After → Option ℕ
  | .ret _ _ => none
  | .again c => c.owns

/-- the node a thread has created and not linked yet -/
def owns : Loc → Option ℕ
  | .start c | .test c _ _ | .next c _ | .lockPred c _ _ | .lockCurr c _ _ | .recheck c _ _ | .assert c _ _
  | .valid1 c _ _ | .valid2 c _ _ | .valid3 c _ _ | .body c _ _ => c.owns
  | .link1 _ _ n _ _ | .link2 _ _ n _ _ => some n
  | .unlock1 w _ _ | .unlock2 w _ => w.owns
  | _ => none

/-- different threads own different nodes -/
def Disj (l l' : Loc) : Prop := ∀ n, owns l = some n → owns l' ≠ some n

section Owned

variable {g : Ghost} {t : ℕ} {m : Mem}

variable {n : ℕ}

theorem CtxOk.owned {c : Ctx} (h : CtxOk g m c) (hn : c.owns = some n) :
    n ∉ g.L ∧ n < m.fresh ∧ m.mtx n = none := by
  cases c with
  | add k v n => cases hn; exact ⟨h.2.not_mem, h.2.lt, h.2.free⟩
  | delete k => cases hn

theorem AfterOk.owned {w : After} (h : AfterOk g m w) (hn : w.owns = some n) :
    n ∉ g.L ∧ n < m.fresh ∧ m.mtx n = none := by
  cases w with
  | ret op r => cases hn
  | again c => exact CtxOk.owned h hn

/-- an owned node is allocated, not linked and not locked -/
theorem AsrtAt.owned {l : Loc} (h : AsrtAt g t m l) (hn : owns l = some n) :
    n ∉ g.L ∧ n < m.fresh ∧ m.mtx n = none := by
  cases l with
  | start c => exact CtxOk.owned h hn
  | test c _ _ | next c _ | lockPred c _ _ | lockCurr c _ _ | recheck c _ _ | assert c _ _ | valid1 c _ _ | valid2 c _ _
  | valid3 c _ _ | body c _ _ | unlock1 w _ _ | unlock2 w _ => exact h.1.owned hn
  | link1 _ _ n _ _ | link2 _ _ n _ _ => cases hn; exact ⟨h.1.not_mem, h.1.lt, h.1.free⟩
  | _ => cases hn

end Owned

/-! ## What a step guarantees to the other threads -/

structure Guar (g : Ghost) (t : ℕ) (m : Mem) (l : Loc) (g' : Ghost) (m' : Mem) (l' : Loc) : Prop where
  inv : Inv g' m'
  asrt : AsrtAt g' t m' l'
  mtx : ∀ a u, u ≠ t → (m'.mtx a = some u ↔ m.mtx a = some u)
  acquired : ∀ a, m'.mtx a = some t → m.mtx a = some t ∨ a ∈ g.L
  next : ∀ a < m.fresh, (m'.node a).next = (m.node a).next ∨
    (m.mtx a = some t ∧ a ∈ g.S ∧ a ∈ g'.S) ∨ owns l = some a
  marked : ∀ a < m.fresh, (m'.node a).marked = (m.node a).marked ∨
    (m.mtx a = some t ∧ (m'.node a).marked = true ∧ g'.S = g.S)
  data : ∀ a < m.fresh, (m'.node a).key = (m.node a).key ∧ (m'.node a).val = (m.node a).val
  fresh : m.fresh ≤ m'.fresh
  keep : ∀ a ∈ g.S, a ∉ g'.S → (m.node a).marked = true
  grows : g.L ⊆ g'.L
  newL : ∀ a ∈ g'.L, a ∉ g.L → owns l = some a
  owned : ∀ n, owns l' = some n → owns l = some n ∨ n = m.fresh

section Stable

variable {g g' : Ghost} {t u : ℕ} {m m' : Mem} {l l' l2 : Loc}

variable {p q : ℕ} {k : ℤ}

variable (h : Guar g t m l g' m' l')

include h

theorem Guar.key_eq (hI : Inv g m) {a : ℕ} (ha : a ∈ g.L) : key m' a = key m a :=
  (h.data a (hI.addr a ha).2).1

/-- a linked node locked by another thread keeps its lock, its link and its mark -/
theorem Guar.locked (hI : Inv g m) (ha : AsrtAt g t m l) (hu : u ≠ t) {a : ℕ} (haL : a ∈ g.L) (hm : m.mtx a = some u) :
    m'.mtx a = some u ∧ (m'.node a).next = (m.node a).next ∧ (m'.node a).marked = (m.node a).marked := by
  have hlt := (hI.addr a haL).2
  have hne : m.mtx a ≠ some t := by
    rw [hm]; exact fun e => hu (Option.some.inj e)
  refine ⟨(h.mtx a u hu).2 hm, ?_, ?_⟩
  · rcases h.next a hlt with h1 | h1 | h1
    · exact h1
    · exact absurd h1.1 hne
    · exact absurd haL (ha.owned h1).1
  · rcases h.marked a hlt with h1 | h1
    · exact h1
    · exact absurd h1.1 hne

theorem Own.stable {n : ℕ} {v : ℤ} (ho : Own g m n k v)
    (hd : owns l ≠ some n) : Own g' m' n k v ∧ (m'.node n).next = (m.node n).next := by
  refine ⟨⟨fun hL => hd (h.newL n hL ho.not_mem), ho.pos, lt_of_lt_of_le ho.lt h.fresh, (h.data n ho.lt).1.trans ho.key,
    (h.data n ho.lt).2.trans ho.val, ?_, ?_⟩, ?_⟩
  · rcases h.marked n ho.lt with h1 | h1
    · exact h1.trans ho.marked
    · rw [ho.free] at h1; cases h1.1
  · cases e : m'.mtx n with
    | none => rfl
    | some w =>
      by_cases hw : w = t
      · subst hw
        rcases h.acquired n e with h1 | h1
        · rw [ho.free] at h1; cases h1
        · exact absurd h1 ho.not_mem
      · have := (h.mtx n w hw).1 e
        rw [ho.free] at this; cases this
  · rcases h.next n ho.lt with h1 | h1 | h1
    · exact h1
    · rw [ho.free] at h1; cases h1.1
    · exact absurd h1 hd

theorem CtxOk.stable {c : Ctx} (hc : CtxOk g m c) (hd : ∀ n, c.owns = some n → owns l ≠ some n) : CtxOk g' m' c := by
  cases c with
  | add k v n => exact ⟨hc.1, (hc.2.stable h (hd n rfl)).1⟩
  | delete k => exact hc

theorem AfterOk.stable {w : After} (hw : AfterOk g m w)
    (hd : ∀ n, w.owns = some n → owns l ≠ some n) : AfterOk g' m' w := by
  cases w with
  | ret op r => exact hw
  | again c => exact CtxOk.stable h hw hd

theorem Trav.stable (hI : Inv g m) (ht : Trav g m k p q) : Trav g' m' k p q :=
  ⟨ht.range, h.grows ht.pred_mem, h.grows ht.curr_mem, by rw [h.key_eq hI ht.pred_mem]; exact ht.lt,
    by rw [h.key_eq hI ht.pred_mem, h.key_eq hI ht.curr_mem]; exact ht.lt_curr⟩

theorem Ended.stable (hI : Inv g m) (he : Ended g m k p q) :
    Ended g' m' k p q := ⟨he.toTrav.stable h hI, by rw [h.key_eq hI he.curr_mem]; exact he.le⟩

theorem Locked.stable (hI : Inv g m) (hu : u ≠ t) (hk : Locked g u m k p q) : Locked g' u m' k p q :=
  ⟨hk.toEnded.stable h hI, (h.mtx p u hu).2 hk.mtx_pred, (h.mtx q u hu).2 hk.mtx_curr⟩

theorem Valid.stable (hI : Inv g m) (ha : AsrtAt g t m l) (hu : u ≠ t) (hv : Valid g u m k p q) : Valid g' u m' k p q := by
  obtain ⟨-, h2, h3⟩ := h.locked hI ha hu hv.pred_mem hv.mtx_pred
  exact ⟨hv.toLocked.stable h hI hu, h3.trans hv.unmarked, h2.trans hv.next⟩

/-- **Stability.** The assertion of another thread is kept by every step. -/
theorem AsrtAt.stable (hI : Inv g m) (ha : AsrtAt g t m l) (hu : u ≠ t)
    (hl : AsrtAt g u m l2) (hd : ∀ n, owns l2 = some n → owns l ≠ some n) : AsrtAt g' u m' l2 := by
  have hkey : ∀ {a}, a ∈ g.L → key m' a = key m a := fun {a} => h.key_eq hI
  have hcurr : ∀ {k p q}, Locked g u m k p q → (m'.node q).marked = (m.node q).marked ∧
      (m'.node q).next = (m.node q).next ∧ (m'.node q).val = (m.node q).val ∧ key m' q = key m q := fun {k p q} hk =>
    have hq := h.locked hI ha hu hk.curr_mem hk.mtx_curr
    ⟨hq.2.2, hq.2.1, (h.data q (hI.addr q hk.curr_mem).2).2, hkey hk.curr_mem⟩
  cases l2 with
  | idle | ret _ _ => trivial
  | aborted | create _ _ => exact hl
  | start c => exact CtxOk.stable h hl hd
  | test c p q | lockPred c p q => exact ⟨hl.1.stable h hd, hl.2.stable h hI⟩
  | next c p => exact ⟨hl.1.stable h hd, h.grows hl.2.1, hl.2.2.1, by rw [hkey hl.2.1]; exact hl.2.2.2⟩
  | lockCurr c p q => exact ⟨hl.1.stable h hd, hl.2.1.stable h hI, (h.mtx p u hu).2 hl.2.2⟩
  | recheck c p q | assert c p q | valid1 c p q => exact ⟨hl.1.stable h hd, hl.2.stable h hI hu⟩
  | valid2 c p q =>
    obtain ⟨-, -, h3⟩ := h.locked hI ha hu hl.2.1.pred_mem hl.2.1.mtx_pred
    exact ⟨hl.1.stable h hd, hl.2.1.stable h hI hu, h3.trans hl.2.2⟩
  | valid3 c p q =>
    obtain ⟨-, -, h3⟩ := h.locked hI ha hu hl.2.1.pred_mem hl.2.1.mtx_pred
    exact ⟨hl.1.stable h hd, hl.2.1.stable h hI hu, h3.trans hl.2.2.1, (hcurr hl.2.1).1.trans hl.2.2.2⟩
  | body c p q =>
    exact ⟨hl.1.stable h hd, hl.2.1.stable h hI ha hu, (hcurr hl.2.1.toLocked).1.trans hl.2.2⟩
  | link1 k v n p q =>
    exact ⟨(hl.1.stable h (hd n rfl)).1, hl.2.1.stable h hI ha hu, by rw [hkey hl.2.1.curr_mem]; exact hl.2.2⟩
  | link2 k v n p q =>
    obtain ⟨h1, h2⟩ := hl.1.stable h (hd n rfl)
    exact ⟨h1, hl.2.1.stable h hI ha hu, by rw [hkey hl.2.1.curr_mem]; exact hl.2.2.1, h2.trans hl.2.2.2⟩
  | del1 k p q | del2 k p q =>
    obtain ⟨h1, -, -, h4⟩ := hcurr hl.1.toLocked
    exact ⟨hl.1.stable h hI ha hu, h1.trans hl.2.1, hl.2.2.trans h4.symm⟩
  | del3 k p q v =>
    obtain ⟨h1, -, h3, h4⟩ := hcurr hl.1.toLocked
    exact ⟨hl.1.stable h hI ha hu, h1.trans hl.2.1, hl.2.2.1.trans h4.symm, h3.trans hl.2.2.2⟩
  | del4 k p q v s =>
    obtain ⟨h1, h2, h3, h4⟩ := hcurr hl.1.toLocked
    exact ⟨hl.1.stable h hI ha hu, h1.trans hl.2.1, hl.2.2.1.trans h4.symm, h3.trans hl.2.2.2.1, h2.trans hl.2.2.2.2⟩
  | unlock1 w p q =>
    exact ⟨hl.1.stable h hd, (h.mtx p u hu).2 hl.2.1, (h.mtx q u hu).2 hl.2.2.1, hl.2.2.2⟩
  | unlock2 w q => exact ⟨hl.1.stable h hd, (h.mtx q u hu).2 hl.2⟩
  | fTest k q => exact ⟨hl.1, h.grows hl.2⟩
  | fNext k q | fMark k q => exact ⟨hl.1, h.grows hl.2.1, by rw [hkey hl.2.1]; exact hl.2.2⟩

end Stable

/-! ## The map -/

section Contents

variable {g g' : Ghost} {m m' : Mem}

theorem head_ne_tail : head ≠ tail := by decide

variable (h : Inv g m)

include h

theorem Inv.stop : ∀ b ∈ g.S, decide (b = tail ∨ b = NULL) = true ↔ b = tail := fun b hb => by
  simp [show b ≠ NULL from (h.addr b (h.sub hb)).1.ne']

theorem Inv.lt_fresh : ∀ b ∈ g.S, b < m.fresh := fun b hb => (h.addr b (h.sub hb)).2

/-- the nodes reachable from head are the nodes of S without the sentinels -/
theorem mem_nodes (a : ℕ) : a ∈ nodes m ↔ a ∈ g.S ∧ a ≠ head ∧ a ≠ tail :=
  h.toChain.mem_walk_head h.stop head_ne_tail h.lt_fresh a

/-- **The chain from head ends at tail, and its keys increase.** -/
theorem Inv.chain_sorted : (head :: (nodes m ++ [tail])).IsChain (fun a b => (m.node a).next = b) ∧
      (head :: (nodes m ++ [tail])).Pairwise (fun a b => (m.node a).key < (m.node b).key) :=
  ⟨h.toChain.walk_head_linked h.stop head_ne_tail h.lt_fresh, h.toChain.walk_head_sorted h.stop head_ne_tail h.lt_fresh⟩

/-- the nodes that carry the map -/
def live (g : Ghost) (m : Mem) : Finset ℕ := g.S.filter fun a => a ≠ head ∧ a ≠ tail ∧ (m.node a).marked = false

variable {a : ℕ} {k : ℤ}

omit h in
theorem mem_live : a ∈ live g m ↔ a ∈ g.S ∧ a ≠ head ∧ a ≠ tail ∧ (m.node a).marked = false :=
  Finset.mem_filter

/-- **The map holds the pairs of the unmarked nodes of S.** -/
theorem rep_contents : Rep (live g m) (key m) (fun a => (m.node a).val) (contents m) := by
  refine rep_lookup (fun a => ?_) fun a ha b hb e => h.toChain.inj a (mem_live.1 ha).1 b (mem_live.1 hb).1 e
  rw [List.mem_filter, mem_nodes h, mem_live]
  simp only [Bool.not_eq_true']
  tauto

theorem live_lt {a : ℕ} (ha : a ∈ live g m) : a < m.fresh := (h.addr a (h.sub (mem_live.1 ha).1)).2

/-- the nodes of m have the same data in m' -/
abbrev SameData (m m' : Mem) : Prop :=
  ∀ a < m.fresh, (m'.node a).key = (m.node a).key ∧ (m'.node a).val = (m.node a).val

/-- the map depends on the set of live nodes and their data only -/
theorem contents_same (h' : Inv g' m') (hS : ∀ a, a ∈ live g' m' ↔ a ∈ live g m) (hd : SameData m m') :
    contents m' = contents m := (rep_contents h).same (rep_contents h') hS fun a ha => hd a (live_lt h ha)

/-- linking a node with a new key -/
theorem contents_insert (h' : Inv g' m') {n : ℕ} {k v : ℤ} (hk : (m'.node n).key = k)
    (hv : (m'.node n).val = v) (hS : ∀ a, a ∈ live g' m' ↔ a = n ∨ a ∈ live g m) (hd : SameData m m')
    (habs : contents m k = none) : contents m' = update (contents m) k (some v) :=
  (rep_contents h).added (rep_contents h') hk hv hS (fun a ha => hd a (live_lt h ha)) habs

/-- marking a node -/
theorem contents_erase (h' : Inv g' m') {c : ℕ} {k : ℤ} (hc : c ∈ live g m) (hk : key m c = k)
    (hS : ∀ a, a ∈ live g' m' ↔ a ≠ c ∧ a ∈ live g m) (hd : SameData m m') :
    contents m' = update (contents m) k none :=
  (rep_contents h).removed (rep_contents h') hc hk
    (fun a ha => h.toChain.inj a (mem_live.1 ha).1 c (mem_live.1 hc).1) hS fun a ha => hd a (live_lt h ha)

theorem Inv.present (ha : a ∈ live g m) : contents m (key m a) = some (m.node a).val :=
  (rep_contents h).holds ha

/-- a key strictly between a node of S and its successor is not in the map -/
theorem Inv.absent {p : ℕ} (hp : p ∈ g.S) (hpt : p ≠ tail) (h1 : key m p < k)
    (h2 : k < key m (m.node p).next) : contents m k = none :=
  (rep_contents h).absent fun _ ha => h.toChain.not_between hp hpt h1 h2 (mem_live.1 ha).1

/-- nor is the key of a marked node of S -/
theorem Inv.absent_marked (ha : a ∈ g.S) (hm : (m.node a).marked = true) : contents m (key m a) = none := by
  refine (rep_contents h).absent fun b hb e => ?_
  obtain ⟨hb1, -, -, hb2⟩ := mem_live.1 hb
  rw [h.toChain.inj b hb1 a ha e, hm] at hb2; cases hb2

end Contents

/-! ## One step -/

/-- the call and the result of the step from l, if it is the one at which the map changes -/
def commits (m : Mem) : Loc → Option (Op × Res)
  | .link2 k v _ _ _ => some (.add k v, .add true)
  | .del1 k _ curr => some (.delete k, .delete (some (m.node curr).val))
  | _ => none

/-- what a step does to the map: nothing, or the operation it commits -/
def Effect (m : Mem) (l : Loc) (m' : Mem) : Prop := MapEffect (contents m) (contents m') (commits m l)

def Safe (g : Ghost) (t : ℕ) (m : Mem) (l : Loc) (m' : Mem) (l' : Loc) : Prop :=
  ∃ g', Guar g t m l g' m' l' ∧ Effect m l m'

/-- the next step of thread t at l is safe -/
abbrev ExecSafe (g : Ghost) (t : ℕ) (m : Mem) (l : Loc) : Prop := Safe g t m l (exec t m l).1 (exec t m l).2

section Steps

variable {g g' : Ghost} {t : ℕ} {m : Mem} {l k : Loc}

theorem Safe.load (h : Inv g m) (ha : AsrtAt g t m k) (ho : ∀ n, owns k = some n → owns l = some n)
    (hc : commits m l = none) : Safe g t m l m k := by
  refine ⟨g, ⟨h, ha, fun _ _ _ => Iff.rfl, fun _ h => .inl h, fun _ _ => .inl rfl, fun _ _ => .inl rfl,
    fun _ _ => ⟨rfl, rfl⟩, le_rfl, fun _ => absurd, subset_rfl, fun _ => absurd, fun n hn => .inl (ho n hn)⟩, ?_⟩
  unfold Effect; rw [hc]; rfl

variable {c : Ctx} {a b n p q : ℕ}

theorem inv_setMtx (h : Inv g m) {o : Option ℕ} (ha : a ∈ g.L ∨ o = none) : Inv g (setMtx m a o) := by
  refine ⟨h.toLazyChain, h.addr, h.low, h.key_head, h.key_tail, h.sentinel, fun b hb => ?_⟩
  by_cases hba : b = a
  · subst hba
    rcases ha with ha | rfl
    · exact absurd (h.addr b ha).2 (not_lt.2 hb)
    · simp [setMtx]
  · simp only [setMtx, update_of_ne hba]; exact h.unborn b hb

/-- a step on a mutex: taking a free one of a linked node, or releasing one -/
theorem Safe.mutex {o : Option ℕ} (h : Inv g m) (ha : AsrtAt g t (setMtx m a o) k)
    (ho : ∀ n, owns k = some n → owns l = some n) (hc : commits m l = none)
    (hold : (m.mtx a = none ∧ a ∈ g.L ∧ o = some t) ∨ (m.mtx a = some t ∧ o = none)) :
    Safe g t m l (setMtx m a o) k := by
  have hI : Inv g (setMtx m a o) := inv_setMtx h (hold.imp (fun h => h.2.1) (fun h => h.2))
  refine ⟨g, ⟨hI, ha, fun b u hu => ?_, fun b hb => ?_, fun _ _ => .inl rfl, fun _ _ => .inl rfl,
    fun _ _ => ⟨rfl, rfl⟩, le_rfl, fun _ => absurd, subset_rfl, fun _ => absurd, fun n hn => .inl (ho n hn)⟩, ?_⟩
  · by_cases hb : b = a
    · subst hb
      rcases hold with ⟨h1, -, rfl⟩ | ⟨h1, rfl⟩
      · simp [setMtx, h1, hu.symm]
      · simp [setMtx, h1, hu.symm]
    · simp [setMtx, update_of_ne hb]
  · by_cases hba : b = a
    · subst hba
      rcases hold with ⟨-, h2, -⟩ | ⟨h1, -⟩
      · exact .inr h2
      · exact .inl h1
    · simp only [setMtx, update_of_ne hba] at hb
      exact .inl hb
  · unfold Effect; rw [hc]
    exact contents_same h hI (fun _ => Iff.rfl) fun _ _ => ⟨rfl, rfl⟩

theorem CtxOk.setMtx (hc : CtxOk g m c) (ha : a ∈ g.L ∨ ∃ u, m.mtx a = some u) (o : Option ℕ) :
    CtxOk g (setMtx m a o) c := by
  cases c with
  | add k v n =>
    obtain ⟨hr, ho⟩ := hc
    have hna : n ≠ a := by
      rintro rfl
      rcases ha with ha | ⟨u, ha⟩
      · exact ho.not_mem ha
      · rw [ho.free] at ha; cases ha
    refine ⟨hr, ho.not_mem, ho.pos, ho.lt, ho.key, ho.val, ho.marked, ?_⟩
    show update m.mtx a o n = none
    rw [update_of_ne hna, ho.free]
  | delete k => exact hc

theorem AfterOk.setMtx {w : After} (hw : AfterOk g m w) (ha : ∃ u, m.mtx a = some u) (o : Option ℕ) :
    AfterOk g (setMtx m a o) w := by
  cases w with
  | ret op r => exact hw
  | again c => exact CtxOk.setMtx hw (.inr ha) o

@[simp] theorem setMtx_self (m : Mem) (a : ℕ) (o : Option ℕ) : (setMtx m a o).mtx a = o := Function.update_self _ _ _

theorem setMtx_ne (m : Mem) (o : Option ℕ) (h : b ≠ a) : (setMtx m a o).mtx b = m.mtx b :=
  update_of_ne h _ _

/-- a lock step: blocked, or the mutex is taken and the thread goes on at k -/
theorem lock_safe (h : Inv g m) (ha : AsrtAt g t m l) (hc : commits m l = none) (haL : a ∈ g.L)
    (ho : ∀ n, owns k = some n → owns l = some n)
    (hk : m.mtx a = none → AsrtAt g t (setMtx m a (some t)) k) :
    Safe g t m l (lock t m a l k).1 (lock t m a l k).2 := by
  unfold lock
  split_ifs with hm
  · exact Safe.mutex h (hk hm) ho hc (.inl ⟨hm, haL, rfl⟩)
  · exact Safe.load h ha (fun _ => id) hc

/-! ### Creating a node -/

theorem createNode_old (m : Mem) (k v : ℤ) (ha : a < m.fresh) : (createNode m k v).node a = m.node a :=
  update_of_ne ha.ne _ _

theorem inv_createNode (h : Inv g m) (k v : ℤ) : Inv g (createNode m k v) := by
  have hold : ∀ a ∈ g.L, (createNode m k v).node a = m.node a := fun a ha => createNode_old m k v (h.addr a ha).2
  have hkey : ∀ a ∈ g.L, key (createNode m k v) a = key m a := fun a ha => by unfold key; rw [hold a ha]
  have hh := h.sub h.toChain.head_mem
  have ht := h.sub h.toChain.tail_mem
  refine ⟨h.toLazyChain.congr (fun a ha _ => ?_) hkey fun a ha hm => ?_, fun a ha => ?_,
    fun a ha => (by rw [hkey a ha]; exact h.low a ha), (hkey _ hh).trans h.key_head,
    (hkey _ ht).trans h.key_tail, ?_, fun a ha => h.unborn a ((Nat.le_succ _).trans ha)⟩
  · show ((createNode m k v).node a).next = _; rw [hold a ha]
  · rwa [hold a ha] at hm
  · exact ⟨(h.addr a ha).1, (h.addr a ha).2.trans (Nat.lt_succ_self _)⟩
  · rw [hold _ hh, hold _ ht]; exact h.sentinel

theorem exec_create (h : Inv g m) {key val : ℤ} (ha : AsrtAt g t m (.create key val)) :
    ExecSafe g t m (.create key val) := by
  have hown : Own g (createNode m key val) m.fresh key val := by
    refine ⟨fun hL => lt_irrefl _ (h.addr _ hL).2, (Nat.zero_le _).trans_lt (h.addr _ (h.sub h.toChain.tail_mem)).2,
      Nat.lt_succ_self _, ?_, ?_, ?_, h.unborn _ le_rfl⟩ <;> simp [createNode]
  have hI := inv_createNode h key val
  have hd : ∀ a < m.fresh, (createNode m key val).node a = m.node a := fun a => createNode_old m key val
  have hdata : ∀ a < m.fresh, ((createNode m key val).node a).key = (m.node a).key ∧
      ((createNode m key val).node a).val = (m.node a).val := fun a hlt => by rw [hd a hlt]; exact ⟨rfl, rfl⟩
  have hlive : ∀ a, a ∈ live g (createNode m key val) ↔ a ∈ live g m := fun a => by
    rw [mem_live, mem_live]
    refine and_congr_right fun ha => ?_
    rw [hd a (h.addr a (h.sub ha)).2]
  refine ⟨g, ⟨hI, ⟨ha, hown⟩, fun _ _ _ => Iff.rfl, fun _ h => .inl h, fun a hlt => .inl ?_,
    fun a hlt => .inl ?_, hdata, Nat.le_succ _, fun _ => absurd, subset_rfl, fun _ => absurd,
    fun n hn => .inr (Option.some.inj hn).symm⟩, ?_⟩
  · show ((createNode m key val).node a).next = _; rw [hd a hlt]
  · show ((createNode m key val).node a).marked = _; rw [hd a hlt]
  · exact contents_same h hI hlive hdata

/-! ### Stores -/

theorem setNext_data (m : Mem) (a p b : ℕ) :
    ((setNext m a p).node b).key = (m.node b).key ∧ ((setNext m a p).node b).val = (m.node b).val := by
  by_cases hb : b = a
  · subst hb; simp [setNext]
  · simp [setNext, update_of_ne hb]

@[simp] theorem setNext_key (m : Mem) (a p b : ℕ) : key (setNext m a p) b = key m b := (setNext_data m a p b).1

@[simp] theorem setNext_marked (m : Mem) (a p b : ℕ) : ((setNext m a p).node b).marked = (m.node b).marked := by
  by_cases hb : b = a
  · subst hb; simp [setNext]
  · simp [setNext, update_of_ne hb]

@[simp] theorem setNext_self (m : Mem) (a p : ℕ) : ((setNext m a p).node a).next = p := by simp [setNext]

theorem setNext_ne (m : Mem) (p : ℕ) (h : b ≠ a) : ((setNext m a p).node b).next = (m.node b).next := by
  simp [setNext, update_of_ne h]

/-- a store to the link of a node that t owns, or has locked and that stays in S -/
theorem Safe.store (hI' : Inv g' (setNext m a p)) (ha : AsrtAt g' t (setNext m a p) k)
    (hown : (m.mtx a = some t ∧ a ∈ g.S ∧ a ∈ g'.S) ∨ owns l = some a)
    (hkeep : ∀ b ∈ g.S, b ∉ g'.S → (m.node b).marked = true)
    (hL : g.L ⊆ g'.L) (hnewL : ∀ b ∈ g'.L, b ∉ g.L → owns l = some b)
    (ho : ∀ n, owns k = some n → owns l = some n) (he : Effect m l (setNext m a p)) :
    Safe g t m l (setNext m a p) k := by
  refine ⟨g', ⟨hI', ha, fun _ _ _ => Iff.rfl, fun _ h => .inl h, fun b _ => ?_, fun b _ => .inl (setNext_marked m a p b),
    fun b _ => setNext_data m a p b, le_rfl, hkeep, hL, hnewL, fun n hn => .inl (ho n hn)⟩, he⟩
  by_cases hb : b = a
  · subst hb; exact .inr hown
  · exact .inl (setNext_ne m p hb)

variable (h : Inv g m)

include h

/-- what `validate` gives: pred is in S, and curr is its successor -/
theorem Valid.pred_mem_S {k : ℤ} (hv : Valid g t m k p q) : p ∈ g.S :=
  h.unmarked p hv.pred_mem hv.unmarked

theorem Trav.pred_ne_tail {k : ℤ} (ht : Trav g m k p q) : p ≠ tail := by
  rintro rfl
  have := ht.lt
  rw [h.key_tail] at this
  exact absurd ht.range.2 (not_lt.2 this.le)

theorem Valid.curr_mem_S {k : ℤ} (hv : Valid g t m k p q) : q ∈ g.S :=
  hv.next ▸ h.toChain.next_mem p (hv.pred_mem_S h) (hv.pred_ne_tail h)

omit h in
theorem Trav.pred_ne_curr {k : ℤ} (ht : Trav g m k p q) : p ≠ q := by
  rintro rfl; exact lt_irrefl _ ht.lt_curr

/-- `newNode->next = curr`, before newNode is linked -/
theorem exec_link1 {key val : ℤ} (ha : AsrtAt g t m (.link1 key val n p q)) : ExecSafe g t m (.link1 key val n p q) := by
  obtain ⟨ho, hv, hne⟩ := ha
  have hnL : ∀ b ∈ g.L, b ≠ n := fun b hb e => ho.not_mem (e ▸ hb)
  have hI : Inv g (setNext m n q) := by
    refine ⟨h.toLazyChain.congr (fun b hb _ => setNext_ne m q (hnL b hb)) (fun b _ => setNext_key m n q b)
      fun b _ hm => (by simpa using hm), h.addr, fun b hb => (by simpa using h.low b hb), by simpa using h.key_head,
      by simpa using h.key_tail, by simpa using h.sentinel, h.unborn⟩
  have hv' : Valid g t (setNext m n q) key p q := by
    refine ⟨⟨⟨⟨hv.range, hv.pred_mem, hv.curr_mem, by simpa using hv.lt, by simpa using hv.lt_curr⟩, by simpa using hv.le⟩,
      hv.mtx_pred, hv.mtx_curr⟩, by simpa using hv.unmarked, ?_⟩
    rw [setNext_ne m q (hnL p hv.pred_mem)]; exact hv.next
  refine Safe.store hI ⟨?_, hv', by simpa using hne, setNext_self m n q⟩ (.inr rfl) (fun _ => absurd)
    subset_rfl (fun _ => absurd) (fun _ => id) ?_
  · exact ⟨ho.not_mem, ho.pos, ho.lt, (setNext_data m n q n).1.trans ho.key, (setNext_data m n q n).2.trans ho.val,
      by simpa using ho.marked, ho.free⟩
  · exact contents_same h hI (fun b => by rw [mem_live, mem_live, setNext_marked]) fun b _ => setNext_data m n q b

theorem Own.node {key val : ℤ} (ho : Own g m n key val) : n ≠ head ∧ n ≠ tail :=
  ⟨fun e => ho.not_mem (h.sub (e ▸ h.toChain.head_mem)), fun e => ho.not_mem (h.sub (e ▸ h.toChain.tail_mem))⟩

/-- `pred->next = newNode`: the node is linked between pred and curr -/
theorem exec_link2 {k v : ℤ} (ha : AsrtAt g t m (.link2 k v n p q)) : ExecSafe g t m (.link2 k v n p q) := by
  obtain ⟨ho, hv, hne, hnext⟩ := ha
  have hn := ho.node h
  have hpS := hv.pred_mem_S h
  have hpt := hv.pred_ne_tail h
  have hnL : ∀ b ∈ g.L, b ≠ n := fun b hb e => ho.not_mem (e ▸ hb)
  have hkn : key m n = k := ho.key
  have hlt : k < key m q := lt_of_le_of_ne hv.le hne
  have hc : LazyChain (fun a => ((setNext m p n).node a).next) (key m) (fun a => (m.node a).marked) head tail
      (insert n g.S) (insert n g.L) := by
    refine h.toLazyChain.insert hpS hpt ?_ ?_ (setNext_self m p n) ?_ fun b hb hbp _ => setNext_ne m n hbp
    · rw [hkn]; exact hv.lt
    · rw [hkn]; simp only [hv.next]; exact hlt
    · exact (setNext_ne m n (hnL p hv.pred_mem).symm).trans (hnext.trans hv.next.symm)
  have hI : Inv ⟨insert n g.S, insert n g.L⟩ (setNext m p n) := by
    refine ⟨hc.congr (fun _ _ _ => rfl) (fun b _ => setNext_key m p n b) fun b _ hm => (by simpa using hm), fun b hb => ?_,
      fun b hb => ?_, by simpa using h.key_head, by simpa using h.key_tail, by simpa using h.sentinel, h.unborn⟩
    · rcases Finset.mem_insert.1 hb with rfl | hb
      · exact ⟨ho.pos, ho.lt⟩
      · exact h.addr b hb
    · rw [setNext_key]
      rcases Finset.mem_insert.1 hb with rfl | hb
      · rw [hkn]; exact (h.low p hv.pred_mem).trans hv.lt.le
      · exact h.low b hb
  have habs : contents m k = none := h.absent hpS hpt hv.lt (by rw [hv.next]; exact hlt)
  have hlive : ∀ b, b ∈ live ⟨insert n g.S, insert n g.L⟩ (setNext m p n) ↔ b = n ∨ b ∈ live g m := by
    intro b
    rw [mem_live, mem_live, setNext_marked]
    simp only [Finset.mem_insert]
    constructor
    · rintro ⟨h1 | h1, h2⟩
      · exact .inl h1
      · exact .inr ⟨h1, h2⟩
    · rintro (rfl | h1)
      · exact ⟨.inl rfl, hn.1, hn.2, ho.marked⟩
      · exact ⟨Or.inr h1.1, h1.2⟩
  refine Safe.store hI ⟨nofun, hv.mtx_pred, hv.mtx_curr, hv.pred_ne_curr⟩
    (.inl ⟨hv.mtx_pred, hpS, Finset.mem_insert_of_mem hpS⟩) (fun b hb hb' => absurd (Finset.mem_insert_of_mem hb) hb')
    (Finset.subset_insert _ _) (fun b hb hb' => congrArg some ((Finset.mem_insert.1 hb).resolve_right hb').symm) nofun ?_
  exact ⟨habs, contents_insert h hI ((setNext_data m p n n).1.trans ho.key) ((setNext_data m p n n).2.trans ho.val) hlive
    (fun b _ => setNext_data m p n b) habs⟩

omit h

/-! ### Marking -/

theorem setMarked_data (m : Mem) (a b : ℕ) :
    ((setMarked m a).node b).key = (m.node b).key ∧ ((setMarked m a).node b).val = (m.node b).val := by
  by_cases hb : b = a
  · subst hb; simp [setMarked]
  · simp [setMarked, update_of_ne hb]

@[simp] theorem setMarked_key (m : Mem) (a b : ℕ) : key (setMarked m a) b = key m b := (setMarked_data m a b).1

@[simp] theorem setMarked_next (m : Mem) (a b : ℕ) : ((setMarked m a).node b).next = (m.node b).next := by
  by_cases hb : b = a
  · subst hb; simp [setMarked]
  · simp [setMarked, update_of_ne hb]

@[simp] theorem setMarked_self (m : Mem) (a : ℕ) : ((setMarked m a).node a).marked = true := by simp [setMarked]

theorem setMarked_ne (m : Mem) (h : b ≠ a) : ((setMarked m a).node b).marked = (m.node b).marked := by
  simp [setMarked, update_of_ne h]

include h

/-- curr is between pred and the key, so it is neither sentinel -/
theorem Valid.curr_node {k : ℤ} (hv : Valid g t m k p q) (hk : k = key m q) : q ≠ head ∧ q ≠ tail := by
  constructor
  · rintro rfl
    have := hv.range.1
    rw [hk, h.key_head] at this; exact lt_irrefl _ this
  · rintro rfl
    have := hv.range.2
    rw [hk, h.key_tail] at this; exact lt_irrefl _ this

/-- `curr->marked = true`: the key leaves the map -/
theorem exec_del1 {k : ℤ} (ha : AsrtAt g t m (.del1 k p q)) : ExecSafe g t m (.del1 k p q) := by
  obtain ⟨hv, hm, hk⟩ := ha
  have hq := hv.curr_node h hk
  have hqS := hv.curr_mem_S h
  have hne := hv.pred_ne_curr
  have hI : Inv g (setMarked m q) := by
    refine ⟨h.toLazyChain.congr (fun b _ _ => setMarked_next m q b) (fun b _ => setMarked_key m q b) fun b _ hbm => ?_,
      h.addr, fun b hb => (by simpa using h.low b hb), by simpa using h.key_head, by simpa using h.key_tail, ?_, h.unborn⟩
    · by_cases hbq : b = q
      · subst hbq; exact hm
      · rwa [setMarked_ne m hbq] at hbm
    · rw [setMarked_ne m hq.1.symm, setMarked_ne m hq.2.symm]; exact h.sentinel
  have hv' : Valid g t (setMarked m q) k p q :=
    ⟨⟨⟨⟨hv.range, hv.pred_mem, hv.curr_mem, by simpa using hv.lt, by simpa using hv.lt_curr⟩, by simpa using hv.le⟩,
      hv.mtx_pred, hv.mtx_curr⟩, by rw [setMarked_ne m hne]; exact hv.unmarked, by simpa using hv.next⟩
  have hqlive : q ∈ live g m := mem_live.2 ⟨hqS, hq.1, hq.2, hm⟩
  have hlive : ∀ b, b ∈ live g (setMarked m q) ↔ b ≠ q ∧ b ∈ live g m := by
    intro b
    rw [mem_live, mem_live]
    by_cases hbq : b = q
    · subst hbq; simp
    · rw [setMarked_ne m hbq]; simp [hbq]
  refine ⟨g, ⟨hI, ⟨hv', setMarked_self m q, hk.trans (setMarked_key m q q).symm⟩, fun _ _ _ => Iff.rfl, fun _ h => .inl h,
    fun b _ => .inl (setMarked_next m q b), fun b _ => ?_, fun b _ => setMarked_data m q b, le_rfl,
    fun _ => absurd, subset_rfl, fun _ => absurd, nofun⟩, ?_⟩
  · by_cases hbq : b = q
    · subst hbq; exact .inr ⟨hv.mtx_curr, setMarked_self m b, rfl⟩
    · exact .inl (setMarked_ne m hbq)
  · refine ⟨?_, contents_erase h hI hqlive hk.symm hlive fun b _ => setMarked_data m q b⟩
    rw [hk]; exact h.present hqlive

/-- `pred->next = curr->next`: the marked node is unlinked -/
theorem exec_del4 {k v : ℤ} {s : ℕ} (ha : AsrtAt g t m (.del4 k p q v s)) : ExecSafe g t m (.del4 k p q v s) := by
  obtain ⟨hv, hm, hk, hval, hs⟩ := ha
  have hq := hv.curr_node h hk
  have hqS := hv.curr_mem_S h
  have hpS := hv.pred_mem_S h
  have hpt := hv.pred_ne_tail h
  have hne := hv.pred_ne_curr
  have hc : LazyChain (fun a => ((setNext m p s).node a).next) (key m) (fun a => (m.node a).marked) head tail
      (g.S.erase q) g.L := by
    have hcq : (m.node p).next ≠ tail := hv.next ▸ hq.2
    rw [← hv.next]
    refine h.toLazyChain.erase hpS hpt hcq ?_ ?_ fun b _ hbp _ => setNext_ne m s hbp
    · simp only [hv.next, hm]
    · simp only [hv.next, hs]; exact setNext_self m p s
  have hI : Inv ⟨g.S.erase q, g.L⟩ (setNext m p s) :=
    ⟨hc.congr (fun _ _ _ => rfl) (fun b _ => setNext_key m p s b) fun b _ hm => (by simpa using hm), h.addr,
      fun b hb => (by simpa using h.low b hb), by simpa using h.key_head, by simpa using h.key_tail,
      by simpa using h.sentinel, h.unborn⟩
  have hlive : ∀ b, b ∈ live ⟨g.S.erase q, g.L⟩ (setNext m p s) ↔ b ∈ live g m := by
    intro b
    rw [mem_live, mem_live, setNext_marked]
    simp only [Finset.mem_erase]
    constructor
    · rintro ⟨h1, h2⟩; exact ⟨h1.2, h2⟩
    · rintro ⟨h1, h2⟩
      refine ⟨⟨?_, h1⟩, h2⟩
      rintro rfl
      rw [hm] at h2; cases h2.2.2
  refine Safe.store hI ⟨nofun, hv.mtx_pred, hv.mtx_curr, hne⟩
    (.inl ⟨hv.mtx_pred, hpS, Finset.mem_erase.2 ⟨hne, hpS⟩⟩) (fun b hb hb' => ?_)
    subset_rfl (fun _ => absurd) nofun ?_
  · obtain rfl : b = q := by_contra fun e => hb' (Finset.mem_erase.2 ⟨e, hb⟩)
    exact hm
  · exact contents_same h hI hlive fun b _ => setNext_data m p s b

/-! ### The walk and the checks -/

/-- a node of L before a valid key is not tail, and its link leads up in L -/
theorem Inv.step_up {k : ℤ} (hk : inRange k) (ha : a ∈ g.L) (hlt : key m a < k) :
    a ≠ tail ∧ (m.node a).next ∈ g.L ∧ key m a < key m (m.node a).next := by
  have hat : a ≠ tail := by
    rintro rfl
    rw [h.key_tail] at hlt
    exact absurd hk.2 (not_lt.2 hlt.le)
  exact ⟨hat, h.edge a ha hat⟩

theorem exec_start (ha : AsrtAt g t m (.start c)) : ExecSafe g t m (.start c) := by
  have hc : CtxOk g m c := ha
  have hL := h.sub h.toChain.head_mem
  have hlt : key m head < c.key := h.key_head ▸ hc.range.1
  obtain ⟨-, h1, h2⟩ := h.step_up hc.range hL hlt
  have hT : Trav g m c.key head (m.node head).next := ⟨hc.range, hL, h1, hlt, h2⟩
  show Safe g t m _ m (afterStart c (m.node head).next)
  cases c with
  | add k v n => exact Safe.load h ⟨hc, hT⟩ (fun _ => id) rfl
  | delete k =>
    unfold afterStart
    split_ifs
    · exact Safe.load h (k := .ret _ _) trivial (fun _ hn => hn) rfl
    · exact Safe.load h ⟨hc, hT⟩ (fun _ => id) rfl

theorem exec_test (ha : AsrtAt g t m (.test c p q)) : ExecSafe g t m (.test c p q) := by
  obtain ⟨hc, hT⟩ := ha
  simp only [ExecSafe, exec]
  split_ifs with hq
  · exact Safe.load h ⟨hc, hT.curr_mem, hq.2, hq.1⟩ (fun _ => id) rfl
  · refine Safe.load h ⟨hc, hT, ?_⟩ (fun _ => id) rfl
    rw [not_and_or, not_lt, not_not] at hq
    rcases hq with hq | rfl
    · exact hq
    · rw [h.key_tail]; exact hT.range.2.le

theorem exec_next (ha : AsrtAt g t m (.next c p)) : ExecSafe g t m (.next c p) := by
  obtain ⟨hc, hL, hpt, hlt⟩ := ha
  obtain ⟨h1, h2⟩ := h.edge p hL hpt
  exact Safe.load h ⟨hc, hc.range, hL, h1, hlt, h2⟩ (fun _ => id) rfl

theorem exec_lockPred (ha : AsrtAt g t m (.lockPred c p q)) : ExecSafe g t m (.lockPred c p q) := by
  refine lock_safe h ha rfl ha.2.pred_mem (fun _ => id) fun _ => ?_
  exact ⟨ha.1.setMtx (Or.inl ha.2.pred_mem) _, ⟨⟨ha.2.range, ha.2.pred_mem, ha.2.curr_mem, ha.2.lt, ha.2.lt_curr⟩, ha.2.le⟩,
    setMtx_self m p _⟩

theorem exec_lockCurr (ha : AsrtAt g t m (.lockCurr c p q)) : ExecSafe g t m (.lockCurr c p q) := by
  have hc := ha.1
  have he := ha.2.1
  have hL : Locked g t (setMtx m q (some t)) c.key p q :=
    ⟨⟨⟨he.range, he.pred_mem, he.curr_mem, he.lt, he.lt_curr⟩, he.le⟩,
      (setMtx_ne m _ he.pred_ne_curr).trans ha.2.2, setMtx_self m q _⟩
  have hc' := hc.setMtx (Or.inl he.curr_mem) (some t)
  refine lock_safe h ha rfl he.curr_mem ?_ fun _ => ?_
  · cases c <;> exact fun _ => id
  · cases c with
    | add k v n | delete k => exact ⟨hc', hL⟩

omit h in
/-- **The check and the assert after the two locks always succeed.** -/
theorem Locked.bracket (hk : Locked g t m c.key p q) : bracket m c p q := ⟨hk.lt, hk.le⟩

omit h in
theorem asrt_again (hc : CtxOk g m c) (hk : Locked g t m c.key p q) :
    AsrtAt g t m (.unlock1 (.again c) p q) := ⟨hc, hk.mtx_pred, hk.mtx_curr, hk.pred_ne_curr⟩

theorem exec_valid (hl : l = .valid1 c p q ∨ l = .valid2 c p q ∨ l = .valid3 c p q)
    (ha : AsrtAt g t m l) : ExecSafe g t m l := by
  rcases hl with rfl | rfl | rfl
  · simp only [ExecSafe, exec]
    split_ifs with hm
    · exact Safe.load h (asrt_again ha.1 ha.2) (fun _ => id) rfl
    · exact Safe.load h ⟨ha.1, ha.2, by simpa using hm⟩ (fun _ => id) rfl
  · simp only [ExecSafe, exec]
    split_ifs with hm
    · exact Safe.load h (asrt_again ha.1 ha.2.1) (fun _ => id) rfl
    · exact Safe.load h ⟨ha.1, ha.2.1, ha.2.2, by simpa using hm⟩ (fun _ => id) rfl
  · simp only [ExecSafe, exec]
    split_ifs with hn
    · exact Safe.load h ⟨ha.1, ⟨ha.2.1, ha.2.2.1, hn⟩, ha.2.2.2⟩ (fun _ => id) rfl
    · exact Safe.load h (asrt_again ha.1 ha.2.1) (fun _ => id) rfl

theorem exec_body (ha : AsrtAt g t m (.body c p q)) : ExecSafe g t m (.body c p q) := by
  obtain ⟨hc, hv, hm⟩ := ha
  have hop : ∀ k, c.op ≠ .contains k := fun k e => (by cases c <;> cases e)
  have hun : AsrtAt g t m (.unlock1 (.ret c.op (.add false)) p q) := ⟨hop, hv.mtx_pred, hv.mtx_curr, hv.pred_ne_curr⟩
  show Safe g t m _ m (afterBody c p q (decide (c.key = key m q)))
  by_cases hk : c.key = key m q
  · rw [decide_eq_true hk]
    cases c with
    | add k v n => exact Safe.load h (k := .unlock1 _ _ _) hun nofun rfl
    | delete k => exact Safe.load h (k := .del1 _ _ _) ⟨hv, hm, hk⟩ (fun _ => id) rfl
  · rw [decide_eq_false hk]
    cases c with
    | add k v n => exact Safe.load h (k := .link1 _ _ _ _ _) ⟨hc.2, hv, hk⟩ (fun _ => id) rfl
    | delete k => exact Safe.load h (k := .unlock1 _ _ _) hun nofun rfl

theorem exec_unlock {w : After} (ha : AsrtAt g t m (.unlock2 w q)) : ExecSafe g t m (.unlock2 w q) := by
  have hw := ha.1.setMtx ⟨t, ha.2⟩ none
  refine Safe.mutex h ?_ ?_ rfl (.inr ⟨ha.2, rfl⟩)
  · cases w with
    | ret op r => trivial
    | again c => exact hw
  · cases w <;> exact fun _ => id

theorem exec_fTest {k : ℤ} (ha : AsrtAt g t m (.fTest k q)) : ExecSafe g t m (.fTest k q) := by
  simp only [ExecSafe, exec]
  split_ifs with h1 h2
  · exact Safe.load h ⟨ha.1, ha.2, h1⟩ (fun _ => id) rfl
  · exact Safe.load h ⟨ha.1, ha.2, h2⟩ (fun _ => id) rfl
  · exact Safe.load h (k := .ret _ _) trivial (fun _ => id) rfl

/-- **One step inside a call**, at each program point -/
theorem exec_safe (ha : AsrtAt g t m l) : ExecSafe g t m l := by
  cases l with
  | idle | ret op r => exact Safe.load h ha (fun _ => id) rfl
  | aborted => exact absurd ha id
  | create key val => exact exec_create h ha
  | start c => exact exec_start h ha
  | test c p q => exact exec_test h ha
  | next c p => exact exec_next h ha
  | lockPred c p q => exact exec_lockPred h ha
  | lockCurr c p q => exact exec_lockCurr h ha
  | recheck c p q | assert c p q =>
    simp only [ExecSafe, exec, if_pos ha.2.bracket]
    exact Safe.load h ⟨ha.1, ha.2⟩ (fun _ => id) rfl
  | valid1 c p q => exact exec_valid h (.inl rfl) ha
  | valid2 c p q => exact exec_valid h (.inr (.inl rfl)) ha
  | valid3 c p q => exact exec_valid h (.inr (.inr rfl)) ha
  | body c p q => exact exec_body h ha
  | link1 k v n p q => exact exec_link1 h ha
  | link2 k v n p q => exact exec_link2 h ha
  | del1 k p q => exact exec_del1 h ha
  | del2 k p q => exact Safe.load h ⟨ha.1, ha.2.1, ha.2.2, rfl⟩ (fun _ => id) rfl
  | del3 k p q v => exact Safe.load h ⟨ha.1, ha.2.1, ha.2.2.1, ha.2.2.2, rfl⟩ (fun _ => id) rfl
  | del4 k p q v s => exact exec_del4 h ha
  | unlock1 w p q =>
    refine Safe.mutex h ⟨ha.1.setMtx ⟨t, ha.2.1⟩ none, ?_⟩ (fun _ => id) rfl (.inr ⟨ha.2.1, rfl⟩)
    exact (setMtx_ne m _ ha.2.2.2.symm).trans ha.2.2.1
  | unlock2 w q => exact exec_unlock h ha
  | fTest k q => exact exec_fTest h ha
  | fNext k q => exact Safe.load h ⟨ha.1, (h.step_up ha.1 ha.2.1 ha.2.2).2.1⟩ (fun _ => id) rfl
  | fMark k q => exact Safe.load h (k := .ret _ _) trivial (fun _ => id) rfl

/-- what a step with any action does to the map -/
def ActEffect (m : Mem) (l : Loc) (a : Act) (m' : Mem) : Prop :=
  match a with
  | .step => Effect m l m'
  | _ => m' = m

omit h in
theorem asrt_entry {op : Op} (hop : opInRange op) (h : Inv g m) : AsrtAt g t m (entry op) := by
  cases op with
  | add k v | delete k => exact hop
  | find k => exact absurd hop id
  | contains k => exact ⟨hop, h.sub h.toChain.head_mem⟩

/-- **One step**, whatever the action -/
theorem step_guar (ha : AsrtAt g t m l) (a : Act) :
    ∃ g', Guar g t m l g' (step t m l a).1 (step t m l a).2 ∧ ActEffect m l a (step t m l a).1 := by
  have hmove : ∀ l', AsrtAt g t m l' → (l' = l ∨ owns l' = none) → Guar g t m l g m l' := by
    intro l' h1 h2
    refine ⟨h, h1, fun _ _ _ => Iff.rfl, fun _ h => .inl h, fun _ _ => .inl rfl, fun _ _ => .inl rfl,
      fun _ _ => ⟨rfl, rfl⟩, le_rfl, fun _ => absurd, subset_rfl, fun _ => absurd, fun n hn => .inl ?_⟩
    rcases h2 with rfl | h2
    · exact hn
    · rw [h2] at hn; cases hn
  cases a with
  | invoke op =>
    refine ⟨g, ?_, rfl⟩
    simp only [step]
    split_ifs
    · refine hmove _ (asrt_entry op.2 h) (.inr ?_)
      cases op.1 <;> rfl
    · exact hmove l ha (.inl rfl)
  | oom =>
    cases l with
    | create key val => exact ⟨g, hmove _ trivial (.inr rfl), rfl⟩
    | _ => exact ⟨g, hmove _ ha (.inl rfl), rfl⟩
  | step => exact exec_safe h ha

end Steps

/-! ## Every run -/

theorem inv_init : Inv ⟨{head, tail}, {head, tail}⟩ initList := by
  have hcases : ∀ a ∈ ({head, tail} : Finset ℕ), a = head ∨ a = tail := fun a ha => by simpa using ha
  refine ⟨lazyChain_init (by decide) rfl, fun a ha => ?_, fun a ha => ?_, rfl, rfl, ⟨rfl, rfl⟩, fun _ _ => rfl⟩
  · rcases hcases a ha with rfl | rfl <;> decide
  · rcases hcases a ha with rfl | rfl <;> decide

/-- one step keeps the assertions of the other threads and the disjointness of private nodes -/
theorem Guar.others {g g' : Ghost} {m m' : Mem} {l l' : Loc} {t : ℕ} (h : Inv g m) (ha : AsrtAt g t m l)
    (hg : Guar g t m l g' m' l') (u : ℕ) (l2 : Loc) (hu : u ≠ t) (h2 : AsrtAt g u m l2) (hd : Disj l l2)
    (hd' : Disj l2 l) : AsrtAt g' u m' l2 ∧ Disj l' l2 ∧ Disj l2 l' :=
  ⟨AsrtAt.stable hg h ha hu h2 hd', Sys.owned_disj hg.owned hd fun _ hn => (h2.owned hn).2.1⟩

/-- **The invariant holds in every reachable state.** -/
theorem inv_run (ls : List (ℕ × Act)) : Sys.Good Inv AsrtAt Disj (sys.run ls) := by
  refine Sys.run_inv sys _ _ _ ⟨_, inv_init, fun _ => trivial⟩ nofun ?_ ls
  intro g t m l a h ha
  obtain ⟨g', hg, -⟩ := step_guar h ha a
  exact ⟨g', hg.inv, hg.asrt, hg.others h ha⟩

end AlgorithmCollection.LazySynchroList
