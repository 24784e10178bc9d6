/-
The invariant of `StripedHash`, for any number of threads and any interleaving.

The ghost is the set H of the heads of the lists in use, the nodes `S h` of each list, the nodes D that carry data, and
the thread that is migrating the table, if any (`mig`).
- Without a migration the table is `Live`: the heads are those of `ht->bucket`, the lists are sorted and disjoint, and a
  node is in the bucket its key hashes to. Every store of `add` and `delete` keeps this.
- A migrating thread holds every lock, so no other thread can write anything (`Guar.frozen`), and what is true of the
  half-moved table is an assertion of that thread alone (`Mig`): the lists of both arrays are in use, every node is placed
  right for the array it is in, the first i old lists are empty, and at most one node is in no list.
- A thread that holds the lock of a stripe knows that the table is not replaced and that the lists of that stripe do not
  change (`Guar.table`, `Guar.lists`).
`Asrt.stable`: the assertion of a thread is kept by the steps of the others.
-/
import AlgorithmCollection.Conc.HashTable
import AlgorithmCollection.Hash.StripedHash

namespace AlgorithmCollection.StripedHash

open Conc Chained

structure Ghost where
  H : Set ℕ
  S : ℕ → Finset ℕ
  D : Finset ℕ
  mig : Option ℕ

abbrev nx (m : Mem) (a : ℕ) : ℕ := (m.node a).next

abbrev ky (m : Mem) (a : ℕ) : ℤ := (m.node a).key

abbrev vl (m : Mem) (a : ℕ) : ℤ := (m.node a).value

/-- the lists in use, with the node x in none of them, hold the recorded pairs -/
structure Stored (g : Ghost) (m : Mem) (x : Option ℕ) : Prop where
  lists : Buckets (nx m) (ky m) m.fresh g.H g.S g.D x
  nonneg : ∀ a ∈ g.D, 0 ≤ ky m a
  rep : Rep g.D (ky m) (vl m) (replay m.hist)

/-- the table while nobody migrates it -/
structure Live (g : Ghost) (m : Mem) : Prop where
  stored : Stored g m none
  heads : g.H = headSet (m.list m.bucket) m.tableSize
  table : Hashed (m.list m.bucket) (fun k => hashCode k m.tableSize) m.tableSize (ky m) g.S

structure Inv (P : Params) (g : Ghost) (m : Mem) : Prop where
  dvd : P.lockSize ∣ m.tableSize
  pos : 0 < m.tableSize
  lt : m.tableSize < 2 ^ 32
  fresh : 0 < m.fresh
  bucket : m.bucket < m.arrays
  live : g.mig = none → Live g m
  held : ∀ r, g.mig = some r → ∀ i < P.lockSize, m.mtx i = some r

/-- thread t moves the nodes of the old array to the n buckets of the new one; the first i old lists are done -/
structure Mig (g : Ghost) (t : ℕ) (m : Mem) (n i : ℕ) (x : Option ℕ) : Prop where
  mig : g.mig = some t
  size : n = m.oldTableSize * 2
  pos : 0 < m.oldTableSize
  stored : Stored g m x
  heads : g.H = headSet (m.list m.oldBucket) m.oldTableSize ∪ headSet (m.list m.bucket) n
  lists : Migrating (nx m) (ky m) m.fresh (m.list m.oldBucket) (fun k => hashCode k m.oldTableSize) m.oldTableSize
    (m.list m.bucket) (fun k => hashCode k n) n i g.S g.D x

/-! ## Local assertions -/

/-- t holds the lock of bucket b -/
def Hold (P : Params) (t : ℕ) (m : Mem) (b : ℕ) : Prop := m.mtx (lockKey P b) = some t

/-- t holds the lock of bucket b, which is the bucket of key k -/
structure Ours (P : Params) (t : ℕ) (m : Mem) (k : ℤ) (b : ℕ) : Prop where
  hold : Hold P t m b
  nonneg : 0 ≤ k
  hash : hashCode k m.tableSize = b

/-- the node created by this `add` is in no list -/
structure Own (g : Ghost) (m : Mem) (n : ℕ) (k v : ℤ) (next : ℕ) : Prop where
  ne : n ≠ NULL
  lt : n < m.fresh
  not_data : n ∉ g.D
  not_head : n ∉ g.H
  key : ky m n = k
  val : vl m n = v
  next : nx m n = next

/-- t is at old bucket i, whose head is pred -/
structure Moving (g : Ghost) (t : ℕ) (m : Mem) (i pred : ℕ) (x : Option ℕ) : Prop where
  mig : Mig g t m m.tableSize i x
  lt : i < m.oldTableSize
  pred : pred = m.list m.oldBucket i

def InsOk (P : Params) (g : Ghost) (t : ℕ) (m : Mem) (b next : ℕ) : Ins → Prop
  | .add k v _ n => Ours P t m k b ∧ Own g m n k v next
  | .move _ i pred n => Moving g t m i pred (some n) ∧ hashCode (ky m n) m.tableSize = b

def ContOk (P : Params) (g : Ghost) (t : ℕ) (m : Mem) (b : ℕ) : Cont → Prop
  | .ins c => InsOk P g t m b NULL c
  | .delete k _ => Ours P t m k b
  | .find _ => Hold P t m b ∧ b < m.tableSize

/-- a walk for key k along bucket b has come to pred -/
def Walk (g : Ghost) (m : Mem) (b : ℕ) (k : ℤ) (pred : ℕ) : Prop :=
  Before (ky m) (m.list m.bucket b) (g.S (m.list m.bucket b)) k pred

/-- and has read the node after it -/
structure At (g : Ghost) (m : Mem) (b : ℕ) (k : ℤ) (pred curr : ℕ) : Prop where
  walk : Walk g m b k pred
  next : nx m pred = curr

/-- all locks from i on -/
def HoldFrom (P : Params) (t : ℕ) (m : Mem) (i : ℕ) : Prop := ∀ j, i ≤ j → j < P.lockSize → m.mtx j = some t

/-- the bucket was computed from a table size between the one read before it and the present one -/
def Guess (m : Mem) (k : ℤ) (size b : ℕ) : Prop :=
  0 ≤ k ∧ ∃ s, size ≤ s ∧ s ≤ m.tableSize ∧ hashCode k s = b

def AsrtAt (P : Params) (g : Ghost) (t : ℕ) (m : Mem) : Loc → Prop
  | .idle | .ret _ _ => True
  | .size u _ => 0 ≤ u.op.key
  | .hash u _ size => 0 ≤ u.op.key ∧ size ≤ m.tableSize
  | .lockB u _ size b => Guess m u.op.key size b
  | .recheck u _ size b => Guess m u.op.key size b ∧ Hold P t m b
  | .create k _ _ b => Ours P t m k b
  | .findHash k => 0 ≤ k
  | .findLock _ b => b < m.tableSize
  | .first c b => ContOk P g t m b c
  | .addEmpty1 c b head => InsOk P g t m b NULL c ∧ head = m.list m.bucket b ∧ nx m head = NULL
  | .addEmpty2 (.add k _ _ n) b => Ours P t m k b ∧ n ∈ g.S (m.list m.bucket b) ∧ n ≠ NULL ∧ nx m n = NULL
  | .addEmpty2 (.move _ i pred n) _ => Moving g t (setNext m n NULL) i pred none ∧ n ∈ g.D
  | .test c b pred curr => ContOk P g t m b c ∧ At g m b (c.key m) pred curr
  | .next c b pred => ContOk P g t m b c ∧ Walk g m b (c.key m) pred
  | .check c b pred curr =>
    ContOk P g t m b c ∧ At g m b (c.key m) pred curr ∧ (curr = NULL ∨ c.key m ≤ ky m curr)
  | .link1 c b pred curr =>
    InsOk P g t m b NULL c ∧ At g m b (ky m c.newNode) pred curr ∧ (curr = NULL ∨ ky m c.newNode < ky m curr)
  | .link2 c b pred curr =>
    InsOk P g t m b curr c ∧ nx m c.newNode = curr ∧ At g m b (ky m c.newNode) pred curr ∧
      (curr = NULL ∨ ky m c.newNode < ky m curr)
  | .del1 k b pred curr => Ours P t m k b ∧ At g m b k pred curr ∧ curr ≠ NULL ∧ ky m curr = k
  | .del2 k b pred curr v => Ours P t m k b ∧ At g m b k pred curr ∧ curr ≠ NULL ∧ ky m curr = k ∧ vl m curr = v
  | .del3 k b pred curr v succ =>
    Ours P t m k b ∧ At g m b k pred curr ∧ curr ≠ NULL ∧ ky m curr = k ∧ vl m curr = v ∧ nx m curr = succ
  | .count1 _ b | .count2 _ b _ | .unlockOk _ b | .findUnlock _ b _ => Hold P t m b
  | .unlockRetry u _ b => 0 ≤ u.op.key ∧ Hold P t m b
  | .policy1 _ | .policy2 _ _ | .rSize _ | .rFree1 _ | .rFree2 _ _ => True
  | .rLock _ _ i => ∀ j < i, j < P.lockSize → m.mtx j = some t
  | .rCheck _ _ | .rOld1 _ => HoldFrom P t m 0
  | .rOld2 _ => HoldFrom P t m 0 ∧ m.oldTableSize = m.tableSize
  | .rInit _ => HoldFrom P t m 0 ∧ m.oldTableSize = m.tableSize ∧ m.oldBucket = m.bucket
  | .rDouble _ => Mig g t m (m.tableSize * 2) 0 none ∧ m.tableSize * 2 < 2 ^ 32
  | .rList _ i => Mig g t m m.tableSize i none
  | .rTest _ i pred curr => Moving g t m i pred none ∧ nx m pred = curr
  | .rTake1 _ i pred curr => Moving g t m i pred none ∧ nx m pred = curr ∧ curr ≠ NULL
  | .rTake2 _ i pred curr succ => Moving g t m i pred none ∧ nx m pred = curr ∧ curr ≠ NULL ∧ nx m curr = succ
  | .rHash _ i pred curr => Moving g t m i pred (some curr)
  | .rNext _ i pred => Moving g t m i pred none
  | .rQuit _ i | .rUnlock _ i => HoldFrom P t m i

/-- the assertion of thread t at l; a migration belongs to a thread that is resizing -/
structure Asrt (P : Params) (g : Ghost) (t : ℕ) (m : Mem) (l : Loc) : Prop where
  at_ : AsrtAt P g t m l
  mig : g.mig = some t → resizing l = true

def Ins.owns : Ins → Option ℕ
  | .add _ _ _ n => some n
  | .move _ _ _ _ => none

def Cont.owns : Cont → Option ℕ
  | .ins c => c.owns
  | .delete _ _ => none
  | .find _ => none

/-- the node a thread has created and not linked yet -/
def owns : Loc → Option ℕ
  | .first c _ | .test c _ _ _ | .next c _ _ | .check c _ _ _ => c.owns
  | .addEmpty1 c _ _ | .link1 c _ _ _ | .link2 c _ _ _ => c.owns
  | _ => none

/-- different threads own different nodes -/
def Disj (l l' : Loc) : Prop := ∀ n, owns l = some n → owns l' ≠ some n

/-! ## What a step guarantees to the other threads -/

/-- the table has not been replaced -/
structure SameTable (m m' : Mem) : Prop where
  size : m'.tableSize = m.tableSize
  bucket : m'.bucket = m.bucket
  list : m'.list = m.list
  oldSize : m'.oldTableSize = m.oldTableSize
  oldBucket : m'.oldBucket = m.oldBucket

structure Guar (P : Params) (g : Ghost) (t : ℕ) (m : Mem) (l : Loc) (g' : Ghost) (m' : Mem) (l' : Loc) : Prop where
  inv : Inv P g' m'
  asrt : Asrt P g' t m' l'
  mtx : ∀ i u, u ≠ t → (m'.mtx i = some u ↔ m.mtx i = some u)
  size : m.tableSize ≤ m'.tableSize
  table : SameTable m m' ∨ HoldFrom P t m 0
  frozen : (m' = m ∧ g' = g) ∨ ∃ i < P.lockSize, m.mtx i = none ∨ m.mtx i = some t
  lists : g.mig = none → ∀ b < m.tableSize, ¬ Hold P t m b →
    g'.S (m.list m.bucket b) = g.S (m.list m.bucket b) ∧ ∀ a ∈ g.S (m.list m.bucket b), a ≠ NULL → nx m' a = nx m a
  next : ∀ a < m.fresh, nx m' a = nx m a ∨ owns l = some a ∨ a ∈ g.D ∨ a ∈ g.H
  data : ∀ a < m.fresh, ky m' a = ky m a ∧ vl m' a = vl m a
  fresh : m.fresh ≤ m'.fresh
  newD : ∀ a ∈ g'.D, a ∈ g.D ∨ owns l = some a
  newH : ∀ a ∈ g'.H, a ∈ g.H ∨ m.fresh ≤ a
  owned : ∀ n, owns l' = some n → owns l = some n ∨ n = m.fresh
  mig : ∀ u, u ≠ t → g'.mig = some u → g.mig = some u

section Facts

variable {P : Params} {g g' : Ghost} {t u : ℕ} {m m' : Mem} {l l' l2 : Loc} {k : ℤ} {b : ℕ}

theorem lockKey_lt (P : Params) (b : ℕ) : lockKey P b < P.lockSize := Nat.mod_lt _ P.pos

theorem lockKey_of_lt {i : ℕ} (h : i < P.lockSize) : lockKey P i = i := Nat.mod_eq_of_lt h

theorem HoldFrom.hold (h : HoldFrom P t m 0) (b : ℕ) : Hold P t m b := h _ (Nat.zero_le _) (lockKey_lt P b)

theorem HoldFrom.unique (h : HoldFrom P t m 0) (hu : Hold P u m b) : u = t := by
  have := h.hold b
  unfold Hold at this hu
  rw [this] at hu; exact (Option.some.inj hu).symm

theorem Ours.lt (h : Ours P t m k b) (hI : Inv P g m) : b < m.tableSize :=
  h.hash ▸ hashCode_lt h.nonneg hI.pos hI.lt

/-- a thread with a lock that is not resizing: nobody migrates the table -/
theorem Inv.no_mig (hI : Inv P g m) (ha : Asrt P g u m l) (hl : resizing l = false) (hh : Hold P u m b) :
    g.mig = none := by
  cases e : g.mig with
  | none => rfl
  | some r =>
    have hr : u = r := by
      have := hI.held r e _ (lockKey_lt P b)
      unfold Hold at hh
      rw [this] at hh; exact (Option.some.inj hh).symm
    have := ha.mig (hr ▸ e)
    rw [hl] at this; cases this

theorem InsOk.owned {c : Ins} {next n : ℕ} (h : InsOk P g t m b next c) (hn : c.owns = some n) :
    n < m.fresh ∧ n ∉ g.D ∧ n ∉ g.H := by
  cases c with
  | add k v r n => cases hn; exact ⟨h.2.lt, h.2.not_data, h.2.not_head⟩
  | move c i p n => cases hn

theorem ContOk.owned {c : Cont} {n : ℕ} (h : ContOk P g t m b c) (hn : c.owns = some n) :
    n < m.fresh ∧ n ∉ g.D ∧ n ∉ g.H := by
  cases c with
  | ins c => exact InsOk.owned h hn
  | delete k r | find k => cases hn

/-- an owned node is allocated and in no list -/
theorem Asrt.owned (h : Asrt P g t m l) {n : ℕ} (hn : owns l = some n) : n < m.fresh ∧ n ∉ g.D ∧ n ∉ g.H := by
  obtain ⟨h, -⟩ := h
  cases l with
  | first c b => exact ContOk.owned h hn
  | test c b p q | next c b p | check c b p q | addEmpty1 c b p | link1 c b p q | link2 c b p q => exact h.1.owned hn
  | _ => cases hn

theorem InsOk.mig {c : Ins} {next : ℕ} (h : InsOk P g t m b next c) (hm : c.moves = true) : g.mig = some t := by
  cases c with
  | add k v r n => cases hm
  | move c i p n => exact h.1.mig.mig

theorem ContOk.mig {c : Cont} (h : ContOk P g t m b c) (hm : c.moves = true) : g.mig = some t := by
  cases c with
  | ins c => exact InsOk.mig h hm
  | delete k r | find k => cases hm

/-- a resizing thread is the one that migrates -/
theorem Asrt.migrates (h : Asrt P g t m l) (hl : resizing l = true) : g.mig = some t := by
  obtain ⟨h, -⟩ := h
  cases l with
  | first c b => exact ContOk.mig h hl
  | test c b p q | next c b p | check c b p q | addEmpty1 c b p | link1 c b p q | link2 c b p q => exact h.1.mig hl
  | addEmpty2 c b => cases c with
    | add k v r n => cases hl
    | move c i p n => exact h.1.mig.mig
  | rDouble c => exact h.1.mig
  | rList c i => exact Mig.mig h
  | rTest c i p q | rTake1 c i p q | rTake2 c i p q s => exact h.1.mig.mig
  | rHash c i p q | rNext c i p => exact h.mig.mig
  | _ => cases hl

end Facts

/-! ## Stability -/

section Stable

variable {P : Params} {g g' : Ghost} {t u : ℕ} {m m' : Mem} {l l' l2 : Loc} {k : ℤ} {b : ℕ}

variable (h : Guar P g t m l g' m' l')

include h

theorem Guar.hold (hu : u ≠ t) (hh : Hold P u m b) : Hold P u m' b :=
  (h.mtx _ u hu).2 hh

/-- while another thread holds a lock, the table is not replaced -/
theorem Guar.same (hu : u ≠ t) (hh : Hold P u m b) : SameTable m m' :=
  h.table.resolve_right fun hall => hu (hall.unique hh)

theorem Guar.ours (hu : u ≠ t) (ho : Ours P u m k b) : Ours P u m' k b :=
  ⟨h.hold hu ho.hold, ho.nonneg, by rw [(h.same hu ho.hold).size]; exact ho.hash⟩

/-- the list of a bucket whose lock another thread holds -/
theorem Guar.list_eq (hu : u ≠ t) (hg : g.mig = none) (hb : b < m.tableSize)
    (hh : Hold P u m b) : m'.list m'.bucket b = m.list m.bucket b ∧
      g'.S (m.list m.bucket b) = g.S (m.list m.bucket b) ∧
      ∀ a ∈ g.S (m.list m.bucket b), a ≠ NULL → nx m' a = nx m a := by
  have hs := h.same hu hh
  have hn : ¬ Hold P t m b := fun ht => by
    unfold Hold at hh ht
    rw [ht] at hh; exact hu (Option.some.inj hh).symm
  exact ⟨by rw [hs.list, hs.bucket], h.lists hg b hb hn⟩

theorem Guar.own {n next : ℕ} {v : ℤ} (ho : Own g m n k v next) (hd : owns l ≠ some n) : Own g' m' n k v next where
  ne := ho.ne
  lt := lt_of_lt_of_le ho.lt h.fresh
  not_data hD := (h.newD n hD).elim ho.not_data hd
  not_head hH := (h.newH n hH).elim ho.not_head fun hle => absurd ho.lt (not_lt.2 hle)
  key := (h.data n ho.lt).1.trans ho.key
  val := (h.data n ho.lt).2.trans ho.val
  next := by
    rcases h.next n ho.lt with h1 | h1 | h1 | h1
    · exact h1.trans ho.next
    · exact absurd h1 hd
    · exact absurd h1 ho.not_data
    · exact absurd h1 ho.not_head

omit h in
theorem Live.head_mem (hL : Live g m) (hb : b < m.tableSize) : m.list m.bucket b ∈ g.H := hL.heads ▸ ⟨b, hb, rfl⟩

theorem Guar.walk (hI : Inv P g m) (hu : u ≠ t) (hg : g.mig = none) (hb : b < m.tableSize)
    (hh : Hold P u m b) {p : ℕ} (hw : Walk g m b k p) : Walk g' m' b k p := by
  obtain ⟨e1, e2, -⟩ := h.list_eq hu hg hb hh
  have hL := hI.live hg
  unfold Walk
  rw [e1, e2]
  exact Before.congr hw (h.data p (hL.stored.lists.lt _ (hL.head_mem hb) p hw.mem)).1

theorem Guar.at_ (hI : Inv P g m) (hu : u ≠ t) (hg : g.mig = none) (hb : b < m.tableSize)
    (hh : Hold P u m b) {p q : ℕ} (ha : At g m b k p q) : At g' m' b k p q :=
  ⟨h.walk hI hu hg hb hh ha.walk, ((h.list_eq hu hg hb hh).2.2 p ha.walk.mem ha.walk.ne).trans ha.next⟩

/-- the node after pred is a node of the list, so its data do not change, and as it is in a list of this thread its
link does not either -/
theorem Guar.curr (hI : Inv P g m) (hu : u ≠ t) (hg : g.mig = none) (hb : b < m.tableSize)
    (hh : Hold P u m b) {p q : ℕ} (ha : At g m b k p q) :
    ky m' q = ky m q ∧ vl m' q = vl m q ∧ (q ≠ NULL → nx m' q = nx m q) := by
  have hL := hI.live hg
  have hH := hL.head_mem hb
  have hq : q ∈ g.S (m.list m.bucket b) := ha.next ▸ ((hL.stored.lists.chain _ hH).succ ha.walk.mem ha.walk.ne).1
  have hd := h.data q (hL.stored.lists.lt _ hH q hq)
  exact ⟨hd.1, hd.2, (h.list_eq hu hg hb hh).2.2 q hq⟩

omit h in
/-- outside a migration the operation has the lock of its bucket -/
theorem ContOk.hold {c : Cont} (hc : ContOk P g u m b c) (hs : c.moves = false) (hI : Inv P g m) :
    Hold P u m b ∧ b < m.tableSize := by
  cases c with
  | ins c => cases c with
    | add k v r n => exact ⟨hc.1.hold, hc.1.lt hI⟩
    | move c i p n => cases hs
  | delete k r => exact ⟨Ours.hold hc, Ours.lt hc hI⟩
  | find k => exact hc

theorem Guar.contOk (hu : u ≠ t) {c : Cont} (hs : c.moves = false)
    (hd : ∀ n, c.owns = some n → owns l ≠ some n) (hc : ContOk P g u m b c) :
    ContOk P g' u m' b c ∧ c.key m' = c.key m := by
  cases c with
  | ins c => cases c with
    | add k v r n => exact ⟨⟨h.ours hu hc.1, h.own hc.2 (hd n rfl)⟩, (h.data n hc.2.lt).1⟩
    | move c i p n => cases hs
  | delete k r => exact ⟨h.ours hu hc, rfl⟩
  | find k =>
    exact ⟨⟨h.hold hu hc.1, by rw [(h.same hu hc.1).size]; exact hc.2⟩, rfl⟩

omit h in
theorem Guess.mono {size : ℕ} (hg : Guess m k size b) (h : m.tableSize ≤ m'.tableSize) : Guess m' k size b := by
  obtain ⟨h0, s, h1, h2, h3⟩ := hg
  exact ⟨h0, s, h1, h2.trans h, h3⟩

/-- **Stability.** The assertion of another thread is kept by every step. -/
theorem Asrt.stable (hI : Inv P g m) (hu : u ≠ t) (hl : Asrt P g u m l2)
    (hd : ∀ n, owns l2 = some n → owns l ≠ some n) : Asrt P g' u m' l2 := by
  refine ⟨?_, fun e => hl.mig (h.mig u hu e)⟩
  have hAt := hl.at_
  by_cases hr : resizing l2 = true
  · -- all locks are with u, so nothing has changed
    have hmig := hl.migrates hr
    rcases h.frozen with ⟨rfl, rfl⟩ | ⟨i, hi, hn⟩
    · exact hAt
    · have := hI.held u hmig i hi
      rw [this] at hn
      rcases hn with hn | hn
      · cases hn
      · exact absurd (Option.some.inj hn) hu
  have hf : resizing l2 = false := by simpa using hr
  have hno : ∀ {b}, Hold P u m b → g.mig = none := fun {b} => hI.no_mig hl hf
  have hcont : ∀ {c : Cont} {b}, c.moves = false → (∀ n, c.owns = some n → owns l ≠ some n) → ContOk P g u m b c →
      ContOk P g' u m' b c ∧ c.key m' = c.key m ∧ g.mig = none ∧ b < m.tableSize ∧ Hold P u m b := by
    intro c b hs hd hc
    obtain ⟨h1, h2⟩ := hc.hold hs hI
    exact ⟨(h.contOk hu hs hd hc).1, (h.contOk hu hs hd hc).2, hno h1, h2, h1⟩
  have hall : ∀ {i}, HoldFrom P u m i → HoldFrom P u m' i := fun {i} hh j h1 h2 => (h.mtx j u hu).2 (hh j h1 h2)
  cases l2 with
  | idle | ret _ _ | policy1 c | policy2 c n | rSize c | rFree1 c | rFree2 c A => trivial
  | size u' r | findHash k => exact hAt
  | hash u' r s => exact ⟨hAt.1, hAt.2.trans h.size⟩
  | lockB u' r s b => exact Guess.mono hAt h.size
  | recheck u' r s b => exact ⟨hAt.1.mono h.size, h.hold hu hAt.2⟩
  | create k v r b => exact h.ours hu hAt
  | findLock k b => exact lt_of_lt_of_le hAt h.size
  | first c b =>
    exact (hcont hf hd hAt).1
  | test c b p q =>
    obtain ⟨h1, h2, h3, h4, h5⟩ := hcont hf hd hAt.1
    exact ⟨h1, h2 ▸ h.at_ hI hu h3 h4 h5 hAt.2⟩
  | next c b p =>
    obtain ⟨h1, h2, h3, h4, h5⟩ := hcont hf hd hAt.1
    exact ⟨h1, h2 ▸ h.walk hI hu h3 h4 h5 hAt.2⟩
  | check c b p q =>
    obtain ⟨h1, h2, h3, h4, h5⟩ := hcont hf hd hAt.1
    refine ⟨h1, h2 ▸ h.at_ hI hu h3 h4 h5 hAt.2.1, ?_⟩
    rw [h2, (h.curr hI hu h3 h4 h5 hAt.2.1).1]; exact hAt.2.2
  | addEmpty1 c b p => cases c with
    | move c i q n => exact absurd rfl hr
    | add k v r n =>
      obtain ⟨⟨h1, h2⟩, h3, h4⟩ := hAt
      have hb := h1.lt hI
      have hg := hno h1.hold
      obtain ⟨e1, -, e3⟩ := h.list_eq hu hg hb h1.hold
      have hL := hI.live hg
      have hH := hL.head_mem hb
      refine ⟨⟨h.ours hu h1, h.own h2 (hd n rfl)⟩, h3.trans e1.symm, ?_⟩
      rw [h3, e3 _ (hL.stored.lists.head_mem hH) (hL.stored.lists.pos _ hH), ← h3]; exact h4
  | addEmpty2 c b => cases c with
    | move c i q n => exact absurd rfl hr
    | add k v r n =>
      obtain ⟨h1, h2, h3, h4⟩ := hAt
      obtain ⟨e1, e2, e3⟩ := h.list_eq hu (hno h1.hold) (h1.lt hI) h1.hold
      exact ⟨h.ours hu h1, by rw [e1, e2]; exact h2, h3, (e3 n h2 h3).trans h4⟩
  | link1 c b p q => cases c with
    | move c i p n => exact absurd rfl hr
    | add k v r n =>
      obtain ⟨⟨h1, h2⟩, h3, h4⟩ := hAt
      have hb := h1.lt hI
      have hg := hno h1.hold
      have hk : ky m' n = ky m n := (h.data n h2.lt).1
      refine ⟨⟨h.ours hu h1, h.own h2 (hd n rfl)⟩, ?_, ?_⟩
      · change At g' m' b (ky m' n) p q
        rw [hk]; exact h.at_ hI hu hg hb h1.hold h3
      · change q = NULL ∨ ky m' n < ky m' q
        rw [hk, (h.curr hI hu hg hb h1.hold h3).1]; exact h4
  | link2 c b p q => cases c with
    | move c i p n => exact absurd rfl hr
    | add k v r n =>
      obtain ⟨⟨h1, h2⟩, -, h3, h4⟩ := hAt
      have hb := h1.lt hI
      have hg := hno h1.hold
      have hk : ky m' n = ky m n := (h.data n h2.lt).1
      have ho := h.own h2 (hd n rfl)
      refine ⟨⟨h.ours hu h1, ho⟩, ho.next, ?_, ?_⟩
      · change At g' m' b (ky m' n) p q
        rw [hk]; exact h.at_ hI hu hg hb h1.hold h3
      · change q = NULL ∨ ky m' n < ky m' q
        rw [hk, (h.curr hI hu hg hb h1.hold h3).1]; exact h4
  | del1 k b p q =>
    obtain ⟨h1, h2, h3, h4⟩ := hAt
    have hc := h.curr hI hu (hno h1.hold) (h1.lt hI) h1.hold h2
    exact ⟨h.ours hu h1, h.at_ hI hu (hno h1.hold) (h1.lt hI) h1.hold h2, h3, hc.1.trans h4⟩
  | del2 k b p q v =>
    obtain ⟨h1, h2, h3, h4, h5⟩ := hAt
    have hc := h.curr hI hu (hno h1.hold) (h1.lt hI) h1.hold h2
    exact ⟨h.ours hu h1, h.at_ hI hu (hno h1.hold) (h1.lt hI) h1.hold h2, h3, hc.1.trans h4, hc.2.1.trans h5⟩
  | del3 k b p q v s =>
    obtain ⟨h1, h2, h3, h4, h5, h6⟩ := hAt
    have hc := h.curr hI hu (hno h1.hold) (h1.lt hI) h1.hold h2
    exact ⟨h.ours hu h1, h.at_ hI hu (hno h1.hold) (h1.lt hI) h1.hold h2, h3, hc.1.trans h4, hc.2.1.trans h5,
      (hc.2.2 h3).trans h6⟩
  | count1 d b | count2 d b n | unlockOk d b | findUnlock k b r => exact h.hold hu hAt
  | unlockRetry u' r b => exact ⟨hAt.1, h.hold hu hAt.2⟩
  | rLock c s i => exact fun j h1 h2 => (h.mtx j u hu).2 (hAt j h1 h2)
  | rCheck c s | rOld1 c | rQuit c i | rUnlock c i => exact hall hAt
  | rOld2 c =>
    have hs := h.same hu (hAt.1.hold 0)
    exact ⟨hall hAt.1, by rw [hs.oldSize, hs.size]; exact hAt.2⟩
  | rInit c =>
    have hs := h.same hu (hAt.1.hold 0)
    exact ⟨hall hAt.1, by rw [hs.oldSize, hs.size]; exact hAt.2.1, by rw [hs.oldBucket, hs.bucket]; exact hAt.2.2⟩
  | _ => exact absurd rfl hr

end Stable

end AlgorithmCollection.StripedHash
