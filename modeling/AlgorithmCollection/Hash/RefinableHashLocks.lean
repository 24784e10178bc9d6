/-
Which mutexes the threads of `RefinableHash` lock and unlock.

`resize` gives the lower half of the new bucket array the mutexes of the old array and then destroys them, so the first
call after a `resize` that comes to the lower half locks a destroyed mutex (`find_locks_destroyed`, one thread, table_size
1). While no bucket of that kind is used all is well: `locks_sound` is about the runs in which

- the keys are not negative;
- a `resize` starts at most once, when no other call is in progress, and no call starts until it has returned;
- a call that starts after it has its bucket in the upper half, at `old_table_size` or above.

In these runs every mutex that is locked or unlocked is live, and a call unlocks what it locked. The invariant has two
forms: either no thread is in `resize`, and the mutexes of the buckets that may be used are live (`Table`), or one thread
is, and then what it has done to the two arrays and to their mutexes is known at each of its points (`Busy`).
-/
import AlgorithmCollection.Hash.RefinableHash

namespace AlgorithmCollection.RefinableHash

open Conc Chained
open Function (update update_of_ne)

/-! ## The condition -/

def LockFor.resizes : LockFor → Bool
  | .resize _ _ _ => true
  | _ => false

def UnlockFor.resizes : UnlockFor → Bool
  | .quit _ _ _ | .resize _ _ => true
  | _ => false

def Ins.moves : Ins → Bool
  | .add _ _ _ _ _ => false
  | .move _ _ _ _ _ => true

def Cont.moves : Cont → Bool
  | .ins c => c.moves
  | _ => false

/-- the thread is in `resize` -/
def resizing : Loc → Bool
  | .lock1 w _ | .lock2 w _ _ | .lock3 w _ _ => w.resizes
  | .unlock1 w _ | .unlock2 w _ _ | .unlock3 w _ _ => w.resizes
  | .first c _ | .test c _ _ _ | .next c _ _ | .check c _ _ _ => c.moves
  | .addEmpty1 c _ _ | .addEmpty2 c _ | .link1 c _ _ _ | .link2 c _ _ => c.moves
  | .rSize _ | .rLock _ _ _ _ | .rCheck _ _ _ | .rQuit _ _ _ _ | .rOld1 _ _ | .rOld2 _ _ | .rInit _ _
  | .rHead _ _ _ _ _ | .rMtx _ _ _ _ _ | .rShare _ _ _ _ _ | .rDouble _ _ | .rList _ _ _ | .rTest _ _ _ _ _
  | .rTake1 _ _ _ _ _ | .rTake2 _ _ _ _ _ _ | .rHash _ _ _ _ _ | .rNext _ _ _ _ | .rUnlock _ _ _ | .rFree _ _ _ _ => true
  | _ => false

/-- action a of a thread at l is allowed beside a thread at o -/
def Allowed (m : Mem) (l : Loc) (a : Act) (o : Loc) : Prop :=
  match a, l with
  | .invoke op, _ => 0 ≤ op.key ∧ m.oldTableSize ≤ hashCode op.key m.tableSize ∧ resizing o = false
  | .step, .policy2 _ n => policy n m.tableSize = true → m.oldTableSize = 0 ∧ outside o = true
  | .step, _ => True

instance Allowed.decidable (m : Mem) (l : Loc) (a : Act) (o : Loc) : Decidable (Allowed m l a o) := by
  unfold Allowed; split <;> infer_instance

/-! ## The table outside `resize` -/

/-- the buckets from `old_table_size` on have live mutexes; before the first `resize` these are all buckets -/
structure Table (m : Mem) : Prop where
  pos : 0 < m.tableSize
  lt : m.tableSize < 2 ^ 32
  live : ∀ b, m.oldTableSize ≤ b → b < m.tableSize → Live m (mtxOf m b)
  array : m.oldTableSize = 0 → m.bucket < m.arrays
  alloc : m.oldTableSize = 0 → ∀ b < m.tableSize, mtxOf m b < m.mutexes

/-- b is the bucket of key k, one of those that may be used -/
def Aim (m : Mem) (k : ℤ) (b : ℕ) : Prop := 0 ≤ k ∧ m.oldTableSize ≤ b ∧ b = hashCode k m.tableSize

/-- a call on key k has locked mutex mx for bucket b -/
def Held (m : Mem) (k : ℤ) (b mx : ℕ) : Prop := Aim m k b ∧ mx = mtxOf m b

def LockFor.Aims (m : Mem) (b : ℕ) : LockFor → Prop
  | .upd u _ _ => Aim m u.key b
  | .find k => Aim m k b
  | .resize _ _ _ => False

def UnlockFor.Aims (m : Mem) (b : ℕ) : UnlockFor → Prop
  | .done d mx => Held m d.key b mx
  | .retry u _ mx => Held m u.key b mx
  | .find k _ mx => Held m k b mx
  | .quit _ _ _ | .resize _ _ => False

def Ins.Aims (m : Mem) (b : ℕ) : Ins → Prop
  | .add k _ _ _ mx => Held m k b mx
  | .move _ _ _ _ _ => False

def Cont.Aims (m : Mem) (b : ℕ) : Cont → Prop
  | .ins c => c.Aims m b
  | .delete k _ mx => Held m k b mx
  | .find k mx => Held m k b mx

/-- what a thread that is not in `resize` knows at each of its points -/
def At (m : Mem) : Loc → Prop
  | .idle | .ret _ _ | .policy1 _ | .policy2 _ _ => True
  | .size u _ | .hash u _ _ => Aim m u.key (hashCode u.key m.tableSize)
  | .findHash k => Aim m k (hashCode k m.tableSize)
  | .lock1 w b => w.Aims m b
  | .lock2 w b A => w.Aims m b ∧ A = m.bucket
  | .lock3 w b p => w.Aims m b ∧ p = mtxOf m b
  | .unlock1 w b => w.Aims m b
  | .unlock2 w b A => w.Aims m b ∧ A = m.bucket
  | .unlock3 w b p => w.Aims m b ∧ p = mtxOf m b
  | .recheck u _ _ b mx => Held m u.key b mx
  | .create k _ _ b mx | .del1 k b _ _ mx | .del2 k b _ _ _ mx | .del3 k b _ _ _ mx => Held m k b mx
  | .first c b | .test c b _ _ | .next c b _ | .check c b _ _ => c.Aims m b
  | .addEmpty1 c b _ | .addEmpty2 c b | .link1 c b _ _ | .link2 c b _ => c.Aims m b
  | .count1 d b mx | .count2 d b _ mx => Held m d.key b mx
  | _ => False

/-! ## What does not touch the arrays -/

/-- the step leaves the table, the arrays and the state of the mutexes, apart from who holds them -/
structure SameTable (m m' : Mem) : Prop where
  list : m'.list = m.list
  bucket : m'.bucket = m.bucket
  tableSize : m'.tableSize = m.tableSize
  oldBucket : m'.oldBucket = m.oldBucket
  oldTableSize : m'.oldTableSize = m.oldTableSize
  arrays : m'.arrays = m.arrays
  mutexes : m'.mutexes = m.mutexes
  live : ∀ p, Live m p → Live m' p

namespace SameTable

variable {m m' : Mem}

protected theorem refl (m : Mem) : SameTable m m := ⟨rfl, rfl, rfl, rfl, rfl, rfl, rfl, fun _ h => h⟩

theorem setNext (m : Mem) (a p : ℕ) : SameTable m (setNext m a p) := ⟨rfl, rfl, rfl, rfl, rfl, rfl, rfl, fun _ h => h⟩

theorem createNode (m : Mem) (k v : ℤ) : SameTable m (createNode m k v) :=
  ⟨rfl, rfl, rfl, rfl, rfl, rfl, rfl, fun _ h => h⟩

theorem setSize (m : Mem) (n : ℕ) : SameTable m { m with setSize := n } :=
  ⟨rfl, rfl, rfl, rfl, rfl, rfl, rfl, fun _ h => h⟩

theorem setMutex (m : Mem) (p : ℕ) (o : Option ℕ) : SameTable m (setMutex m p (.live o)) := by
  refine ⟨rfl, rfl, rfl, rfl, rfl, rfl, rfl, fun q hq => ⟨hq.1, ?_⟩⟩
  by_cases h : q = p
  · exact ⟨o, by simp [RefinableHash.setMutex, h]⟩
  · obtain ⟨o', ho⟩ := hq.2
    exact ⟨o', by simp [RefinableHash.setMutex, update_of_ne h, ho]⟩

theorem lock (t : ℕ) (m : Mem) (p : ℕ) (l l' : Loc) : SameTable m (lock t m p l l').1 := by
  unfold RefinableHash.lock
  split
  · exact setMutex m p _
  · exact SameTable.refl m

theorem unlock (m : Mem) (p : ℕ) (l l' : Loc) : SameTable m (unlock m p l l').1 := by
  unfold RefinableHash.unlock
  split
  · exact setMutex m p _
  · exact SameTable.refl m

variable (h : SameTable m m')

include h

theorem mtxOf : mtxOf m' = mtxOf m := by
  funext b; simp only [RefinableHash.mtxOf, h.list, h.bucket]

theorem aim : Aim m' = Aim m := by
  funext k b; simp only [Aim, h.oldTableSize, h.tableSize]

theorem held : Held m' = Held m := by
  funext k b mx; simp only [Held, h.aim, h.mtxOf]

theorem lockFor : LockFor.Aims m' = LockFor.Aims m := by
  funext b w; cases w <;> simp only [LockFor.Aims, h.aim]

theorem unlockFor : UnlockFor.Aims m' = UnlockFor.Aims m := by
  funext b w; cases w <;> simp only [UnlockFor.Aims, h.held]

theorem ins : Ins.Aims m' = Ins.Aims m := by
  funext b c; cases c <;> simp only [Ins.Aims, h.held]

theorem cont : Cont.Aims m' = Cont.Aims m := by
  funext b c; cases c <;> simp only [Cont.Aims, h.held, h.ins]

theorem at_eq (l : Loc) : At m' l = At m l := by
  cases l <;> simp only [At, h.aim, h.held, h.mtxOf, h.bucket, h.tableSize, h.lockFor, h.unlockFor, h.ins, h.cont]

theorem table (hT : Table m) : Table m' where
  pos := by rw [h.tableSize]; exact hT.pos
  lt := by rw [h.tableSize]; exact hT.lt
  live := by
    rw [h.tableSize, h.oldTableSize, h.mtxOf]
    exact fun b h1 h2 => h.live _ (hT.live b h1 h2)
  array := by rw [h.oldTableSize, h.bucket, h.arrays]; exact hT.array
  alloc := by rw [h.oldTableSize, h.tableSize, h.mtxOf, h.mutexes]; exact hT.alloc

end SameTable

/-! ## A step outside `resize` -/

section Calm

variable {m : Mem} {b p : ℕ}

variable {l : Loc}

theorem At.done {d : Done} : At m d.next := by cases d <;> trivial

theorem At.call {c : Call} : At m c.next := trivial

theorem At.locked {w : LockFor} (h : w.Aims m b) (hp : p = mtxOf m b) : At m (w.next b p) := by
  cases w with
  | upd u retry size | find k => exact ⟨h, hp⟩
  | resize c size ms => exact h.elim

theorem At.unlocked {w : UnlockFor} (h : w.Aims m b) : At m (w.next b) := by
  cases w with
  | done d mx => exact At.done
  | retry u n mx =>
    simp only [UnlockFor.next]
    obtain ⟨⟨h0, h1, rfl⟩, -⟩ := h
    split
    · exact ⟨h0, h1, rfl⟩
    · exact At.done
  | find k r mx => trivial
  | quit c size ms | resize c ms => exact h.elim

theorem At.ok {c : Ins} (h : c.Aims m b) : At m (c.ok b) := by
  cases c with
  | add k v retry n mx => exact h
  | move c i pred n ms => exact h.elim

theorem At.fail {c : Ins} (h : c.Aims m b) : At m (c.fail b) := by
  cases c with
  | add k v retry n mx => exact h
  | move c i pred n ms => exact h.elim

theorem At.afterFirst {c : Cont} (h : c.Aims m b) (head curr : ℕ) : At m (afterFirst c b head curr) := by
  unfold RefinableHash.afterFirst
  split
  · cases c <;> exact h
  · exact h

theorem At.afterCheck {c : Cont} (h : c.Aims m b) (pred curr : ℕ) (found : Bool) :
    At m (afterCheck c b pred curr found) := by
  cases c with
  | ins c => cases found with
    | false => exact h
    | true => exact At.fail h
  | delete k retry mx => cases found <;> exact h
  | find k mx => exact h

theorem At.lock {t : ℕ} {l' : Loc} (h : At m l) (h' : At m l') : At m (lock t m p l l').2 := by
  unfold RefinableHash.lock; split
  · exact h'
  · exact h

theorem At.unlock {l' : Loc} (h : At m l) (h' : At m l') : At m (unlock m p l l').2 := by
  unfold RefinableHash.unlock; split
  · exact h'
  · exact h

/-- a step of a thread that does not start `resize` leaves the arrays, and the thread knows what it has to know -/
theorem calm_step (t : ℕ) (h : At m l) (hp : ∀ c n, l = .policy2 c n → policy n m.tableSize = false) :
    SameTable m (exec t m l).1 ∧ At m (exec t m l).2 := by
  cases l with
  | idle | ret op r | policy1 c => exact ⟨SameTable.refl m, trivial⟩
  | size u retry | hash u retry size | findHash k | next c b pred | del1 k b pred curr mx | del2 k b pred curr v mx
  | count1 d b mx => exact ⟨SameTable.refl m, h⟩
  | lock1 w b | unlock1 w b => exact ⟨SameTable.refl m, h, rfl⟩
  | lock2 w b A | unlock2 w b A =>
    obtain ⟨h1, rfl⟩ := h
    exact ⟨SameTable.refl m, h1, rfl⟩
  | lock3 w b p => exact ⟨SameTable.lock t m p _ _, At.lock h (At.locked h.1 h.2)⟩
  | unlock3 w b p => exact ⟨SameTable.unlock m p _ _, At.unlock h (At.unlocked h.1)⟩
  | recheck u retry size b mx =>
    simp only [exec]
    split
    · cases u <;> exact ⟨SameTable.refl m, h⟩
    · exact ⟨SameTable.refl m, h⟩
  | create k v retry b mx => exact ⟨SameTable.createNode m k v, h⟩
  | first c b => exact ⟨SameTable.refl m, At.afterFirst h _ _⟩
  | addEmpty1 c b head | link1 c b pred curr | del3 k b pred v succ mx => exact ⟨SameTable.setNext m _ _, h⟩
  | addEmpty2 c b | link2 c b pred => exact ⟨SameTable.setNext m _ _, At.ok h⟩
  | test c b pred curr => simp only [exec]; split <;> exact ⟨SameTable.refl m, h⟩
  | check c b pred curr => exact ⟨SameTable.refl m, At.afterCheck h _ _ _⟩
  | count2 d b n mx => exact ⟨SameTable.setSize m _, h⟩
  | policy2 c n => simp only [exec, hp c n rfl]; exact ⟨SameTable.refl m, At.call⟩
  | _ => exact h.elim

end Calm

/-! ## The thread in `resize` -/

/-- `resize` begins: all buckets have live mutexes, and these are the ones it has to lock -/
structure Begin (m : Mem) : Prop where
  pos : 0 < m.tableSize
  lt : m.tableSize < 2 ^ 32
  live : ∀ b < m.tableSize, Live m (mtxOf m b)
  array : m.bucket < m.arrays
  alloc : ∀ b < m.tableSize, mtxOf m b < m.mutexes

/-- the first i buckets of the new array are made: those of the lower half share the mutexes ms of the old array, those of
the upper half have live mutexes of their own -/
structure Filling (m : Mem) (ms : List ℕ) (i : ℕ) : Prop where
  pos : 0 < m.oldTableSize
  lt : m.oldTableSize * 2 < 2 ^ 32
  other : m.oldBucket ≠ m.bucket
  old : ms = (List.range m.oldTableSize).map fun b => (m.list m.oldBucket b).mtx
  oldLive : ∀ p ∈ ms, Live m p ∧ p < m.mutexes
  lower : ∀ b < i, b < m.oldTableSize → mtxOf m b = (m.list m.oldBucket b).mtx
  upper : ∀ b < i, m.oldTableSize ≤ b → Live m (mtxOf m b) ∧ mtxOf m b < m.mutexes ∧ mtxOf m b ∉ ms

/-- the buckets of the upper half have live mutexes that the old array does not have -/
structure Split (m : Mem) : Prop where
  pos : 0 < m.oldTableSize
  lt : m.oldTableSize * 2 < 2 ^ 32
  double : m.tableSize = m.oldTableSize * 2
  upper : ∀ b < m.tableSize, m.oldTableSize ≤ b →
    Live m (mtxOf m b) ∧ ∀ i < m.oldTableSize, mtxOf m b ≠ (m.list m.oldBucket i).mtx

/-- all buckets are made and the table is doubled -/
def Filled (m : Mem) (ms : List ℕ) : Prop := Filling m ms (m.oldTableSize * 2) ∧ m.tableSize = m.oldTableSize * 2

/-- the mutexes of the first i buckets -/
def firstMutexes (m : Mem) (i : ℕ) : List ℕ := (List.range i).map (mtxOf m)

def Ins.Busy (m : Mem) : Ins → Prop
  | .add _ _ _ _ _ => False
  | .move _ _ _ _ ms => Filled m ms

def Cont.Busy (m : Mem) : Cont → Prop
  | .ins c => c.Busy m
  | _ => False

def LockFor.Busy (m : Mem) (b : ℕ) : LockFor → Prop
  | .resize _ size ms => Begin m ∧ size = m.tableSize ∧ b < size ∧ ms = firstMutexes m b
  | _ => False

def UnlockFor.Busy (m : Mem) (b : ℕ) : UnlockFor → Prop
  | .resize _ ms => Filled m ms ∧ b < m.oldTableSize
  | _ => False

/-- what the thread in `resize` knows at each of its points -/
def Busy (m : Mem) : Loc → Prop
  | .rSize _ => Begin m
  | .rLock _ size i ms => Begin m ∧ size = m.tableSize ∧ i ≤ size ∧ ms = firstMutexes m i
  | .lock1 w b => w.Busy m b
  | .lock2 w b A => w.Busy m b ∧ A = m.bucket
  | .lock3 w b p => w.Busy m b ∧ p = mtxOf m b
  | .rCheck _ size ms => Begin m ∧ size = m.tableSize ∧ ms = firstMutexes m size
  | .rOld1 _ ms => Begin m ∧ ms = firstMutexes m m.tableSize
  | .rOld2 _ ms => Begin m ∧ ms = firstMutexes m m.tableSize ∧ m.oldTableSize = m.tableSize
  | .rInit _ ms => Begin m ∧ ms = firstMutexes m m.tableSize ∧ m.oldTableSize = m.tableSize ∧ m.oldBucket = m.bucket
  | .rHead _ old new i ms =>
    Filling m ms i ∧ m.tableSize = m.oldTableSize ∧ old = m.oldTableSize ∧ new = m.oldTableSize * 2 ∧ i ≤ new
  | .rMtx _ old new i ms =>
    Filling m ms i ∧ m.tableSize = m.oldTableSize ∧ old = m.oldTableSize ∧ new = m.oldTableSize * 2 ∧ i < new
  | .rShare _ old new i ms =>
    (Filling m ms i ∧ m.tableSize = m.oldTableSize ∧ old = m.oldTableSize ∧ new = m.oldTableSize * 2 ∧ i < new) ∧
      mtxOf m i < m.mutexes ∧ mtxOf m i ∉ ms ∧ mtxOf m i ≠ NULL
  | .rDouble _ ms => Filling m ms (m.oldTableSize * 2) ∧ m.tableSize = m.oldTableSize
  | .rList _ _ ms | .rTest _ _ _ _ ms | .rTake1 _ _ _ _ ms | .rTake2 _ _ _ _ _ ms | .rHash _ _ _ _ ms | .rNext _ _ _ ms
  | .rUnlock _ _ ms => Filled m ms
  | .first c _ | .test c _ _ _ | .next c _ _ | .check c _ _ _ => c.Busy m
  | .addEmpty1 c _ _ | .addEmpty2 c _ | .link1 c _ _ _ | .link2 c _ _ => c.Busy m
  | .unlock1 w b => w.Busy m b
  | .unlock2 w b A => w.Busy m b ∧ A = m.bucket
  | .unlock3 w b p => w.Busy m b ∧ p = mtxOf m b
  | .rFree _ A n _ => Split m ∧ A = m.oldBucket ∧ n = m.oldTableSize
  | _ => False

namespace SameTable

variable {m m' : Mem}

variable (h : SameTable m m')

include h

theorem starts (hB : Begin m) : Begin m' where
  pos := by rw [h.tableSize]; exact hB.pos
  lt := by rw [h.tableSize]; exact hB.lt
  live := by rw [h.tableSize, h.mtxOf]; exact fun b hb => h.live _ (hB.live b hb)
  array := by rw [h.bucket, h.arrays]; exact hB.array
  alloc := by rw [h.tableSize, h.mtxOf, h.mutexes]; exact hB.alloc

theorem filling {ms : List ℕ} {i : ℕ} (hF : Filling m ms i) : Filling m' ms i where
  pos := by rw [h.oldTableSize]; exact hF.pos
  lt := by rw [h.oldTableSize]; exact hF.lt
  other := by rw [h.oldBucket, h.bucket]; exact hF.other
  old := by rw [h.oldTableSize, h.list, h.oldBucket]; exact hF.old
  oldLive := by rw [h.mutexes]; exact fun p hp => ⟨h.live p (hF.oldLive p hp).1, (hF.oldLive p hp).2⟩
  lower := by rw [h.oldTableSize, h.mtxOf, h.list, h.oldBucket]; exact hF.lower
  upper := by
    rw [h.oldTableSize, h.mtxOf, h.mutexes]
    exact fun b hb hn => ⟨h.live _ (hF.upper b hb hn).1, (hF.upper b hb hn).2⟩

theorem filled {ms : List ℕ} (hF : Filled m ms) : Filled m' ms := by
  refine ⟨?_, ?_⟩
  · rw [h.oldTableSize]; exact h.filling hF.1
  · rw [h.tableSize, h.oldTableSize]; exact hF.2

theorem firstMutexes : firstMutexes m' = firstMutexes m := by
  funext i; simp only [RefinableHash.firstMutexes, h.mtxOf]

theorem insBusy {c : Ins} (hc : c.Busy m) : c.Busy m' := by
  cases c with
  | add k v retry n mx => exact hc
  | move c i pred n ms => exact h.filled hc

end SameTable

section Resize

variable {m : Mem} {ms : List ℕ} {i : ℕ}

theorem firstMutexes_succ (m : Mem) (i : ℕ) : firstMutexes m (i + 1) = firstMutexes m i ++ [mtxOf m i] := by
  simp [firstMutexes, List.range_succ]

theorem Busy.ok {c : Ins} (b : ℕ) (h : c.Busy m) : Busy m (c.ok b) := by
  cases c with
  | add k v retry n mx => exact h.elim
  | move c i pred n ms => exact h

theorem Busy.fail {c : Ins} (b : ℕ) (h : c.Busy m) : Busy m (c.fail b) := by
  cases c with
  | add k v retry n mx => exact h.elim
  | move c i pred n ms => exact h

theorem Busy.afterFirst {c : Cont} (h : c.Busy m) (b head curr : ℕ) : Busy m (afterFirst c b head curr) := by
  unfold RefinableHash.afterFirst
  split
  · cases c with
    | ins c => exact h
    | delete k retry mx | find k mx => exact h.elim
  · exact h

theorem Busy.afterCheck {c : Cont} (h : c.Busy m) (b pred curr : ℕ) (found : Bool) :
    Busy m (afterCheck c b pred curr found) := by
  cases c with
  | ins c => cases found with
    | false => exact h
    | true => exact Busy.fail b h
  | delete k retry mx | find k mx => exact h.elim

/-- the mutex pointer of the i-th bucket is the i-th one locked -/
theorem Filled.mutex (h : Filled m ms) (hi : i < m.oldTableSize) : Live m (mtxOf m i) ∧ ms[i]? = some (mtxOf m i) := by
  have hget : ms[i]? = some (mtxOf m i) := by
    rw [h.1.lower i (by omega) hi, h.1.old, List.getElem?_map, List.getElem?_range hi]; rfl
  exact ⟨(h.1.oldLive _ (List.mem_of_getElem? hget)).1, hget⟩

theorem Filled.split (h : Filled m ms) : Split m where
  pos := h.1.pos
  lt := h.1.lt
  double := h.2
  upper b hb hn := by
    obtain ⟨h1, -, h2⟩ := h.1.upper b (by rw [← h.2]; exact hb) hn
    refine ⟨h1, fun i hi heq => h2 ?_⟩
    rw [h.1.old, heq]
    exact List.mem_map.2 ⟨i, List.mem_range.2 hi, rfl⟩

theorem Split.table (h : Split m) : Table m where
  pos := by have := h.pos; have := h.double; omega
  lt := by rw [h.double]; exact h.lt
  live b h1 h2 := (h.upper b h2 h1).1
  array h0 := absurd h0 h.pos.ne'
  alloc h0 := absurd h0 h.pos.ne'

/-- destroying a mutex of the old array leaves those of the upper half -/
theorem Split.destroy (h : Split m) (hi : i < m.oldTableSize) :
    Split (setMutex m (m.list m.oldBucket i).mtx .destroyed) where
  pos := h.pos
  lt := h.lt
  double := h.double
  upper b hb hn := by
    obtain ⟨⟨h1, o, ho⟩, h2⟩ := h.upper b hb hn
    refine ⟨⟨h1, o, ?_⟩, h2⟩
    change update m.mutex _ _ (mtxOf m b) = _
    rw [update_of_ne (h2 i hi), ho]

/-- the new array is published with nothing in it -/
theorem Begin.publish (h : Begin m) (hms : ms = firstMutexes m m.tableSize) (hsz : m.oldTableSize = m.tableSize)
    (hold : m.oldBucket = m.bucket) (hlt : m.tableSize * 2 < 2 ^ 32) :
    Filling { m with bucket := m.arrays, arrays := m.arrays + 1,
                     list := update m.list m.arrays fun _ => ⟨NULL, NULL⟩ } ms 0 := by
  have hne : m.bucket ≠ m.arrays := h.array.ne
  have hget : ∀ p ∈ ms, ∃ b < m.tableSize, mtxOf m b = p := by
    intro p hp
    rw [hms] at hp
    simpa [firstMutexes] using hp
  refine ⟨?_, ?_, ?_, ?_, ?_, fun b hb => absurd hb (by omega), fun b hb => absurd hb (by omega)⟩
  · change 0 < m.oldTableSize; rw [hsz]; exact h.pos
  · change m.oldTableSize * 2 < _; rw [hsz]; exact hlt
  · change m.oldBucket ≠ m.arrays; rw [hold]; exact hne
  · rw [hms]
    simp only [firstMutexes, hsz, hold, update_of_ne hne]
    rfl
  · intro p hp
    obtain ⟨b, hb, rfl⟩ := hget p hp
    exact ⟨h.live b hb, h.alloc b hb⟩

/-- what happens to the other buckets of the new array and to mutexes not allocated yet does not matter -/
theorem Filling.keep {m' : Mem} (h : Filling m ms i) (hb : m'.bucket = m.bucket) (ho : m'.oldBucket = m.oldBucket)
    (hs : m'.oldTableSize = m.oldTableSize) (hl : m'.list m.oldBucket = m.list m.oldBucket)
    (hm : ∀ b < i, mtxOf m' b = mtxOf m b) (hx : m.mutexes ≤ m'.mutexes)
    (hlive : ∀ p < m.mutexes, Live m p → Live m' p) : Filling m' ms i where
  pos := by rw [hs]; exact h.pos
  lt := by rw [hs]; exact h.lt
  other := by rw [ho, hb]; exact h.other
  old := by rw [hs, ho, hl]; exact h.old
  oldLive p hp := by
    obtain ⟨h1, h2⟩ := h.oldLive p hp
    exact ⟨hlive p h2 h1, by omega⟩
  lower b hb' hn := by rw [hm b hb', ho, hl]; exact h.lower b hb' (by rw [← hs]; exact hn)
  upper b hb' hn := by
    obtain ⟨h1, h2, h3⟩ := h.upper b hb' (by rw [← hs]; exact hn)
    rw [hm b hb']
    exact ⟨hlive _ h2 h1, by omega, h3⟩

/-- `mutexes` is not NULL: the old array has a mutex -/
theorem Filling.mutexes_pos (h : Filling m ms i) : 0 < m.mutexes := by
  have hmem : (m.list m.oldBucket 0).mtx ∈ ms := by
    rw [h.old]; exact List.mem_map.2 ⟨0, List.mem_range.2 h.pos, rfl⟩
  have := (h.oldLive _ hmem).2
  omega

theorem setBucket_old (h : m.oldBucket ≠ m.bucket) (b : ℕ) (x : Bucket) :
    (setBucket m m.bucket b x).list m.oldBucket = m.list m.oldBucket := by
  simp [setBucket, update_of_ne h]

theorem mtxOf_setBucket (m : Mem) (b j : ℕ) (x : Bucket) :
    mtxOf (setBucket m m.bucket b x) j = if j = b then x.mtx else mtxOf m j := by
  unfold mtxOf setBucket
  by_cases h : j = b <;> simp [h]

theorem Filling.initHead (h : Filling m ms i) : Filling (initHead m i) ms i := by
  refine h.keep rfl rfl rfl (setBucket_old h.other _ _) (fun b hb => ?_) le_rfl (fun _ _ hp => hp)
  exact (mtxOf_setBucket m i b _).trans (if_neg (by omega))

theorem Filling.initMtx (h : Filling m ms i) :
    Filling (initMtx m i) ms i ∧ mtxOf (initMtx m i) i = m.mutexes := by
  refine ⟨h.keep rfl rfl rfl (setBucket_old h.other _ _) (fun b hb => ?_) (Nat.le_succ _) ?_, ?_⟩
  · exact (mtxOf_setBucket m i b _).trans (if_neg (by omega))
  · rintro p hp ⟨h0, o, ho⟩
    refine ⟨h0, o, ?_⟩
    change update m.mutex m.mutexes .raw p = _
    rw [update_of_ne hp.ne, ho]
  · exact (mtxOf_setBucket m i i _).trans (if_pos rfl)

theorem Filling.shareMtx (h : Filling m ms i) (h1 : mtxOf m i < m.mutexes) (h2 : mtxOf m i ∉ ms)
    (h3 : mtxOf m i ≠ NULL) : Filling (shareMtx m m.oldTableSize i) ms (i + 1) := by
  unfold RefinableHash.shareMtx
  split
  · -- the lower half: the pointer of the old bucket is copied
    rename_i hi
    have hk : Filling (setBucket m m.bucket i { m.list m.bucket i with mtx := (m.list m.oldBucket i).mtx }) ms i := by
      refine h.keep rfl rfl rfl (setBucket_old h.other _ _) (fun b hb => ?_) le_rfl (fun _ _ hp => hp)
      exact (mtxOf_setBucket m i b _).trans (if_neg (by omega))
    refine ⟨hk.pos, hk.lt, hk.other, hk.old, hk.oldLive, fun b hb hn => ?_, fun b hb hn => ?_⟩
    · rcases Nat.lt_succ_iff_lt_or_eq.1 hb with hb | rfl
      · exact hk.lower b hb hn
      · change _ = ((setBucket m m.bucket b _).list m.oldBucket b).mtx
        rw [setBucket_old h.other]
        exact (mtxOf_setBucket m b b _).trans (if_pos rfl)
    · change m.oldTableSize ≤ b at hn
      exact hk.upper b (by omega) hn
  · -- the upper half: its own mutex is initialised
    rename_i hi
    have hS := SameTable.setMutex m (mtxOf m i) none
    have hk := hS.filling h
    refine ⟨hk.pos, hk.lt, hk.other, hk.old, hk.oldLive, fun b hb hn => ?_, fun b hb hn => ?_⟩
    · change b < m.oldTableSize at hn
      exact hk.lower b (by omega) hn
    · rcases Nat.lt_succ_iff_lt_or_eq.1 hb with hb | rfl
      · exact hk.upper b hb hn
      · rw [hS.mtxOf]
        exact ⟨⟨h3, none, by simp [setMutex]⟩, h1, h2⟩

theorem Filling.double (h : Filling m ms (m.oldTableSize * 2)) (hs : m.tableSize = m.oldTableSize) :
    Filled { m with tableSize := m.tableSize * 2 } ms := by
  refine ⟨h.keep rfl rfl rfl rfl (fun _ _ => rfl) le_rfl (fun _ _ hp => hp), ?_⟩
  change m.tableSize * 2 = m.oldTableSize * 2
  rw [hs]

/-- **One step of `resize`.** The thread stays in `resize` and knows what it has to know, or it has returned and the
buckets of the upper half have live mutexes. -/
theorem busy_step (t : ℕ) {l : Loc} (h : Busy m l) :
    Busy (exec t m l).1 (exec t m l).2 ∨ Table (exec t m l).1 ∧ outside (exec t m l).2 = true := by
  cases l with
  | rSize c => exact .inl ⟨h, rfl, Nat.zero_le _, rfl⟩
  | rLock c size i ms =>
    obtain ⟨hB, rfl, hi, rfl⟩ := h
    refine .inl ?_
    simp only [exec]
    split
    · rename_i hlt; exact ⟨hB, rfl, hlt, rfl⟩
    · rename_i hge
      obtain rfl : i = m.tableSize := by omega
      exact ⟨hB, rfl, rfl⟩
  | lock1 w b | unlock1 w b => exact .inl ⟨h, rfl⟩
  | lock2 w b A | unlock2 w b A =>
    obtain ⟨h1, rfl⟩ := h
    exact .inl ⟨h1, rfl⟩
  | lock3 w b p =>
    obtain ⟨hw, rfl⟩ := h
    cases w with
    | upd u retry size | find k => exact hw.elim
    | resize c size ms =>
      obtain ⟨hB, rfl, hb, rfl⟩ := hw
      refine .inl ?_
      simp only [exec, lock]
      split
      · have hS := SameTable.setMutex m (mtxOf m b) (some t)
        refine ⟨hS.starts hB, hS.tableSize.symm, hb, ?_⟩
        rw [hS.firstMutexes, firstMutexes_succ]
      · exact ⟨⟨hB, rfl, hb, rfl⟩, rfl⟩
  | rCheck c size ms =>
    obtain ⟨hB, rfl, rfl⟩ := h
    refine .inl ?_
    simp only [exec, ne_eq, not_true_eq_false, if_false]
    exact ⟨hB, rfl⟩
  | rOld1 c ms =>
    obtain ⟨hB, hms⟩ := h
    exact .inl ⟨⟨hB.pos, hB.lt, hB.live, hB.array, hB.alloc⟩, hms, rfl⟩
  | rOld2 c ms =>
    obtain ⟨hB, hms, hsz⟩ := h
    exact .inl ⟨⟨hB.pos, hB.lt, hB.live, hB.array, hB.alloc⟩, hms, hsz, rfl⟩
  | rInit c ms =>
    obtain ⟨hB, hms, hsz, hold⟩ := h
    refine .inl ?_
    simp only [exec]
    split
    · rename_i hlt
      exact ⟨hB.publish hms hsz hold hlt, hsz.symm, hsz.symm, by rw [← hsz], Nat.zero_le _⟩
    · exact ⟨hB, hms, hsz, hold⟩
  | rHead c old new i ms =>
    obtain ⟨hF, hsz, rfl, rfl, hi⟩ := h
    refine .inl ?_
    simp only [exec]
    split
    · rename_i hlt; exact ⟨hF.initHead, hsz, rfl, rfl, hlt⟩
    · rename_i hge
      obtain rfl : i = m.oldTableSize * 2 := by omega
      exact ⟨hF, hsz⟩
  | rMtx c old new i ms =>
    obtain ⟨hF, hsz, rfl, rfl, hi⟩ := h
    obtain ⟨hF', hnew⟩ := hF.initMtx
    refine .inl ⟨⟨hF', hsz, rfl, rfl, hi⟩, ?_⟩
    simp only [exec]
    rw [hnew]
    exact ⟨Nat.lt_succ_self _, fun hm => absurd (hF.oldLive _ hm).2 (lt_irrefl _), hF.mutexes_pos.ne'⟩
  | rShare c old new i ms =>
    obtain ⟨⟨hF, hsz, rfl, rfl, hi⟩, h1, h2, h3⟩ := h
    have hF' := hF.shareMtx h1 h2 h3
    refine .inl ?_
    simp only [exec]
    have e1 : (shareMtx m m.oldTableSize i).tableSize = m.tableSize := by unfold shareMtx; split <;> rfl
    have e2 : (shareMtx m m.oldTableSize i).oldTableSize = m.oldTableSize := by unfold shareMtx; split <;> rfl
    refine ⟨hF', ?_, e2.symm, ?_, hi⟩
    · rw [e1, e2]; exact hsz
    · rw [e2]
  | rDouble c ms => exact .inl (h.1.double h.2)
  | rList c i ms | rTest c i pred curr ms | test c b pred curr => refine .inl ?_; simp only [exec]; split <;> exact h
  | rTake1 c i pred curr ms | rHash c i pred curr ms | rNext c i pred ms | next c b pred => exact .inl h
  | rTake2 c i pred curr succ ms => exact .inl ((SameTable.setNext m pred succ).filled h)
  | first c b => exact .inl (Busy.afterFirst h _ _ _)
  | addEmpty1 c b head | link1 c b pred curr => exact .inl ((SameTable.setNext m _ _).insBusy h)
  | addEmpty2 c b | link2 c b pred => exact .inl (Busy.ok b ((SameTable.setNext m _ _).insBusy h))
  | check c b pred curr => exact .inl (Busy.afterCheck h _ _ _ _)
  | rUnlock c i ms =>
    refine .inl ?_
    simp only [exec]
    split
    · rename_i hlt; exact ⟨h, hlt⟩
    · exact ⟨h.split, rfl, rfl⟩
  | unlock3 w b p =>
    obtain ⟨hw, rfl⟩ := h
    cases w with
    | done d mx | retry u n mx | find k r mx | quit c size ms => exact hw.elim
    | resize c ms =>
      refine .inl ?_
      simp only [exec, unlock]
      split
      · exact (SameTable.setMutex m _ _).filled hw.1
      · exact ⟨hw, rfl⟩
  | rFree c A n i =>
    obtain ⟨hS, rfl, rfl⟩ := h
    simp only [exec]
    split
    · rename_i hi; exact .inl ⟨hS.destroy hi, rfl, rfl⟩
    · exact .inr ⟨hS.table, rfl⟩
  | _ => exact h.elim

end Resize

/-! ## Runs -/

/-- no thread is in `resize`, or one is and the others are in no call -/
def Inv (s : St Mem Loc) : Prop :=
  (Table s.sh ∧ ∀ t, At s.sh (s.loc t)) ∨ ∃ t, Busy s.sh (s.loc t) ∧ ∀ u, u ≠ t → outside (s.loc u) = true

variable {l : Loc} {m : Mem} {b : ℕ}

theorem outside_cases (h : outside l = true) : l = .idle ∨ ∃ op r, l = .ret op r := by
  unfold outside at h
  split at h <;> simp_all

theorem At.outside (h : outside l = true) : At m l := by
  rcases outside_cases h with rfl | ⟨op, r, rfl⟩ <;> trivial

theorem exec_outside (t : ℕ) (m : Mem) (h : outside l = true) : exec t m l = (m, l) := by
  rcases outside_cases h with rfl | ⟨op, r, rfl⟩ <;> rfl

theorem Cont.Busy.moves {c : Cont} (h : c.Busy m) : c.moves = true := by
  obtain ⟨_ | _⟩ | _ | _ := c <;> first | exact h.elim | rfl

theorem Ins.Busy.moves {c : Ins} (h : c.Busy m) : c.moves = true := by
  cases c <;> first | exact h.elim | rfl

theorem LockFor.Busy.resizes {w : LockFor} (h : w.Busy m b) : w.resizes = true := by
  cases w <;> first | exact h.elim | rfl

theorem UnlockFor.Busy.resizes {w : UnlockFor} (h : w.Busy m b) : w.resizes = true := by
  cases w <;> first | exact h.elim | rfl

theorem Busy.resizing (h : Busy m l) : resizing l = true := by
  cases l with
  | lock1 w b => exact LockFor.Busy.resizes h
  | lock2 w b A | lock3 w b p => exact LockFor.Busy.resizes h.1
  | unlock1 w b => exact UnlockFor.Busy.resizes h
  | unlock2 w b A | unlock3 w b p => exact UnlockFor.Busy.resizes h.1
  | first c b | test c b pred curr | next c b pred | check c b pred curr => exact Cont.Busy.moves h
  | addEmpty1 c b head | addEmpty2 c b | link1 c b pred curr | link2 c b pred => exact Ins.Busy.moves h
  | _ => first | rfl | exact h.elim

theorem Busy.not_outside (h : Busy m l) : RefinableHash.outside l = false := by
  by_contra hl
  rcases outside_cases (by simpa using hl) with rfl | ⟨op, r, rfl⟩ <;> exact h

/-- the only step that takes a thread from outside `resize` into it -/
theorem policy_step (t : ℕ) (hT : Table m) (h0 : m.oldTableSize = 0) (c : Call) (n : ℕ)
    (h : policy n m.tableSize = true) : exec t m (.policy2 c n) = (m, .rSize c) ∧ Begin m :=
  ⟨by simp only [exec, h, if_true], hT.pos, hT.lt, fun b hb => hT.live b (by omega) hb, hT.array h0, hT.alloc h0⟩

theorem start_at {op : Op} (h0 : 0 ≤ op.key) (h1 : m.oldTableSize ≤ hashCode op.key m.tableSize) :
    At m (start op) := by
  cases op <;> exact ⟨h0, h1, rfl⟩

theorem sys_step (P : Params) (t : ℕ) (m : Mem) (l : Loc) : (sys P).step t m l .step = exec t m l := rfl

theorem init_inv (P : Params) : Inv (sys P).init := by
  refine .inl ⟨⟨P.pos, P.lt, fun b _ hb => ?_, fun _ => Nat.zero_lt_one, fun _ b hb => ?_⟩, fun _ => trivial⟩
  · have hb' : b < P.tableSize := hb
    have e : mtxOf (initHashtable P) b = b + 1 := by simp [mtxOf, initHashtable, hb']
    change Live (initHashtable P) (mtxOf (initHashtable P) b)
    rw [e]
    exact ⟨Nat.succ_ne_zero b, none, by simp [initHashtable]; omega⟩
  · have hb' : b < P.tableSize := hb
    change mtxOf (initHashtable P) b < P.tableSize + 1
    have e : mtxOf (initHashtable P) b = b + 1 := by simp [mtxOf, initHashtable, hb']
    omega

/-- a step from a state in which no thread is in `resize` -/
theorem calm_next (P : Params) (s : St Mem Loc) (t : ℕ) (a : Act) (hT : Table s.sh) (hA : ∀ u, At s.sh (s.loc u))
    (hC : Sys.Beside Allowed s (t, a)) : Inv ((sys P).next s (t, a)) := by
  -- what is known if the step leaves the arrays
  have calm : SameTable s.sh ((sys P).next s (t, a)).sh → At s.sh (((sys P).next s (t, a)).loc t) →
      Inv ((sys P).next s (t, a)) := by
    intro hS hat
    refine .inl ⟨hS.table hT, fun u => ?_⟩
    rw [hS.at_eq]
    by_cases hu : u = t
    · rw [hu]; exact hat
    · rw [Sys.next_loc_ne _ _ _ hu]; exact hA u
  have hne : t + 1 ≠ t := Nat.succ_ne_self t
  cases a with
  | invoke op =>
    obtain ⟨h0, h1, -⟩ := hC (t + 1) hne
    refine calm (SameTable.refl _) ?_
    rw [Sys.next_loc_self]
    change At s.sh (if outside (s.loc t) then start op else s.loc t)
    split
    · exact start_at h0 h1
    · exact hA t
  | step =>
    by_cases hp : ∃ c n, s.loc t = .policy2 c n ∧ policy n s.sh.tableSize = true
    · obtain ⟨c, n, hl, hpol⟩ := hp
      have hall : ∀ u, u ≠ t → s.sh.oldTableSize = 0 ∧ outside (s.loc u) = true := by
        intro u hu
        have := hC u hu
        rw [hl] at this
        exact this hpol
      refine .inr ⟨t, ?_, fun u hu => ?_⟩
      · rw [Sys.next_loc_self, Sys.next_sh]
        obtain ⟨he, hB⟩ := policy_step t hT (hall _ hne).1 c n hpol
        simp only [sys_step, hl, he]
        exact hB
      · rw [Sys.next_loc_ne _ _ _ hu]; exact (hall u hu).2
    · obtain ⟨h1, h2⟩ := calm_step (m := s.sh) t (hA t) (fun c n hl => by
        by_contra hpol; exact hp ⟨c, n, hl, by simpa using hpol⟩)
      exact calm h1 (by rw [Sys.next_loc_self]; exact h2)

/-- a step from a state in which thread v is in `resize` -/
theorem busy_next (P : Params) (s : St Mem Loc) (t : ℕ) (a : Act) {v : ℕ} (hB : Busy s.sh (s.loc v))
    (hO : ∀ u, u ≠ v → outside (s.loc u) = true) (hC : Sys.Beside Allowed s (t, a)) :
    Inv ((sys P).next s (t, a)) := by
  by_cases ht : t = v
  · subst ht
    have hO' : ∀ u, u ≠ t → outside (((sys P).next s (t, a)).loc u) = true := by
      intro u hu
      rw [Sys.next_loc_ne _ _ _ hu]; exact hO u hu
    cases a with
    | invoke op =>
      refine .inr ⟨t, ?_, hO'⟩
      rw [Sys.next_loc_self]
      change Busy s.sh (if outside (s.loc t) then start op else s.loc t)
      rw [if_neg (by simp [hB.not_outside])]
      exact hB
    | step =>
      rcases busy_step t hB with h | ⟨hT, hout⟩
      · refine .inr ⟨t, ?_, hO'⟩
        rw [Sys.next_loc_self]; exact h
      · refine .inl ⟨hT, fun u => At.outside ?_⟩
        by_cases hu : u = t
        · rw [hu, Sys.next_loc_self]; exact hout
        · exact hO' u hu
  · -- another thread is outside and may not start a call
    have hid : (sys P).step t s.sh (s.loc t) a = (s.sh, s.loc t) := by
      cases a with
      | invoke op =>
        obtain ⟨-, -, h⟩ := hC v (Ne.symm ht)
        rw [hB.resizing] at h
        exact absurd h (by decide)
      | step => exact exec_outside t s.sh (hO t ht)
    rw [(sys P).next_eq_self hid]
    exact .inr ⟨v, hB, hO⟩

/-- outside `resize`, the mutex of a bucket that is used is live -/
theorem Table.aim (h : Table m) {k : ℤ} (ha : Aim m k b) : Live m (mtxOf m b) := by
  obtain ⟨h0, h1, rfl⟩ := ha
  exact h.live _ h1 (hashCode_lt h0 h.pos h.lt)

theorem Table.sound (hT : Table m) (h : At m l) : Sound m l := by
  constructor
  · rintro w b p rfl
    obtain ⟨hw, rfl⟩ := h
    cases w with
    | upd u retry size | find k => exact hT.aim hw
    | resize c size ms => exact hw.elim
  · rintro w b p rfl
    obtain ⟨hw, rfl⟩ := h
    cases w with
    | done d mx | retry u n mx | find k r mx => exact ⟨hT.aim hw.1, congrArg some hw.2⟩
    | quit c size ms | resize c ms => exact hw.elim

theorem Busy.sound (h : Busy m l) : Sound m l := by
  constructor
  · rintro w b p rfl
    obtain ⟨hw, rfl⟩ := h
    cases w with
    | upd u retry size | find k => exact hw.elim
    | resize c size ms =>
      obtain ⟨hB, rfl, hb, -⟩ := hw
      exact hB.live b hb
  · rintro w b p rfl
    obtain ⟨hw, rfl⟩ := h
    cases w with
    | resize c ms => exact hw.1.mutex hw.2
    | _ => exact hw.elim

theorem Sound.outside (h : outside l = true) : Sound m l := by
  rcases outside_cases h with rfl | ⟨op, r, rfl⟩ <;> exact ⟨nofun, nofun⟩

theorem Inv.sound {s : St Mem Loc} (h : Inv s) (t : ℕ) : Sound s.sh (s.loc t) := by
  rcases h with ⟨hT, hA⟩ | ⟨v, hB, hO⟩
  · exact hT.sound (hA t)
  · by_cases ht : t = v
    · rw [ht]; exact hB.sound
    · exact Sound.outside (hO t ht)

/-- **Live mutexes.** In every run under the condition, in every state reached, whatever pointer a call is about to lock is
that of a live mutex, and whatever it is about to unlock is live and what it locked. -/
theorem locks_sound (P : Params) (ls : List (ℕ × Act)) (h : (sys P).Meets (Sys.Beside Allowed) ls) (t : ℕ) :
    Sound ((sys P).run ls).sh (((sys P).run ls).loc t) := by
  refine Inv.sound ((sys P).meets_inv _ Inv (init_inv P) ?_ ls h) t
  rintro s ⟨u, a⟩ (⟨hT, hA⟩ | ⟨v, hB, hO⟩) hC
  · exact calm_next P s u a hT hA hC
  · exact busy_next P s u a hB hO hC

/-! ## The mutexes of the lower half after a `resize` -/

def oneBucket : Params := ⟨1, by decide, by decide⟩

/-- one thread fills a table of one bucket with five nodes; the last `add` doubles it -/
def fiveAdds : List (ℕ × Act) :=
  callSteps 0 (.add 4 0) 22 ++ callSteps 0 (.add 3 0) 22 ++ callSteps 0 (.add 2 0) 22 ++ callSteps 0 (.add 1 0) 22 ++
    callSteps 0 (.add 0 0) 150

/-- after them a `find` in the upper half comes to its lock; the run meets the condition -/
theorem locks_sound_upper :
    ((sys oneBucket).run (fiveAdds ++ callSteps 0 (.find 1) 3)).loc 0 = .lock3 (.find 1) 1 3 ∧
      Sound ((sys oneBucket).run (fiveAdds ++ callSteps 0 (.find 1) 3)).sh
        (((sys oneBucket).run (fiveAdds ++ callSteps 0 (.find 1) 3)).loc 0) := by
  have hc : (sys oneBucket).Check Allowed 1 (sys oneBucket).init (fiveAdds ++ callSteps 0 (.find 1) 3) := by
    decide +kernel
  have hm := Sys.meets_of_check (sys oneBucket) Allowed hc
  exact ⟨by decide +kernel, locks_sound oneBucket _ hm 0⟩

/-- **A destroyed mutex.** After the five calls have returned, `find(0)` locks the mutex that `resize` destroyed. -/
theorem find_locks_destroyed :
    outside (((sys oneBucket).run fiveAdds).loc 0) = true ∧
      ((sys oneBucket).run (fiveAdds ++ callSteps 0 (.find 0) 3)).loc 0 = .lock3 (.find 0) 0 1 ∧
      ((sys oneBucket).run (fiveAdds ++ callSteps 0 (.find 0) 3)).sh.mutex 1 = .destroyed ∧
      ¬ Sound ((sys oneBucket).run (fiveAdds ++ callSteps 0 (.find 0) 3)).sh
        (((sys oneBucket).run (fiveAdds ++ callSteps 0 (.find 0) 3)).loc 0) := by
  have hl : ((sys oneBucket).run (fiveAdds ++ callSteps 0 (.find 0) 3)).loc 0 = .lock3 (.find 0) 0 1 := by
    decide +kernel
  have hm : ((sys oneBucket).run (fiveAdds ++ callSteps 0 (.find 0) 3)).sh.mutex 1 = .destroyed := by
    decide +kernel
  refine ⟨by decide +kernel, hl, hm, ?_⟩
  intro hs
  obtain ⟨-, o, ho⟩ := hs.lock _ _ _ hl
  rw [hm] at ho
  exact absurd ho (by simp)

end AlgorithmCollection.RefinableHash
