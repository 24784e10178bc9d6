/-
`resize` when memory runs out, in the four tables that double: `Hash`, `OpenAddressHash`, `StripedHash`, `CuckooHash`.

The other modules assume that allocation succeeds. Here `alloc i` says whether allocation i of `init_bucket`, or of
`init_tables`, returns memory: allocation 0 is the bucket array (table 0 of the cuckoo table), allocation i + 1 of the
chained tables the head of bucket i, allocation 1 of the cuckoo table its table 1. Each `resize` stores what the first
allocation returns in the field the calls read, `ht->bucket` or `ht->table`, and returns when an allocation fails; the old
array stays in `ht->old_bucket`, which no call reads. `After` is the table this leaves: the field is NULL, or an array some
of whose heads are NULL, or memory that has been released.

- `failSafe_iff` of each table: a failed `resize` leaves the table as it was exactly if no allocation fails, so there is no
  point at which it may fail.
- `Hash.find_failed`: afterwards no key is found any more, whichever allocation failed.
- `StripedHash.held_failed`: the thread returns with every stripe lock.
- `resizeWith_all`: where no allocation fails, this is the `resize` of the other modules.
-/
import AlgorithmCollection.Hash.HashMap
import AlgorithmCollection.Hash.OpenAddressHashBag
import AlgorithmCollection.Hash.CuckooHash
import AlgorithmCollection.Hash.StripedHashSteps

namespace AlgorithmCollection.FailedResize

open Chained (Op Res)

/-- the first bucket below n whose head is not allocated -/
def failedHead (alloc : ℕ → Bool) (n : ℕ) : Option ℕ := (List.range n).find? fun i => !alloc (i + 1)

theorem failedHead_eq_none {alloc : ℕ → Bool} {n : ℕ} : failedHead alloc n = none ↔ ∀ i < n, alloc (i + 1) = true := by
  simp [failedHead]

/-- the array and the heads are allocated -/
theorem all_alloc_iff {alloc : ℕ → Bool} {n : ℕ} :
    (∀ i ≤ n, alloc i = true) ↔ alloc 0 = true ∧ failedHead alloc n = none := by
  rw [failedHead_eq_none]
  refine ⟨fun h => ⟨h 0 (Nat.zero_le n), fun i hi => h (i + 1) hi⟩, fun h i hi => ?_⟩
  cases i with
  | zero => exact h.1
  | succ i => exact h.2 i hi

/-- a table after `resize`; `null` says that `ht->bucket` is NULL -/
structure After (T : Type) where
  mem : T
  null : Bool

/-- `init_bucket` of a chained table m, with its result: `done` is the table with the new array, `heads i` the one whose loop
stopped at head i -/
def initBucketWith {T : Type} (m done : T) (heads : ℕ → T) (n : ℕ) (alloc : ℕ → Bool) : After T × Bool :=
  if alloc 0 then
    match failedHead alloc n with
    | none => (⟨done, false⟩, true)
    | some i => (⟨heads i, false⟩, false)
  else (⟨m, true⟩, false)

/-- the new array of a loop that stopped at head i: the heads from there on are NULL -/
def headsBelow (list : ℕ → ℕ → ℕ) (arrays fresh i : ℕ) : ℕ → ℕ → ℕ :=
  Function.update list arrays fun b => if b < i then fresh + b else Chained.NULL

/-- the pairs in the buckets that have a head -/
def headed (tableSize : ℕ) (head : ℕ → ℕ) (pairs : ℕ → List (ℤ × ℤ)) : Multiset (ℤ × ℤ) :=
  (((List.range tableSize).filter fun b => head b ≠ Chained.NULL).flatMap pairs : List (ℤ × ℤ))

section InitBucket

variable {T : Type} {m done : T} {heads : ℕ → T} {n : ℕ} {alloc : ℕ → Bool}

theorem initBucketWith_all (h : ∀ i ≤ n, alloc i = true) :
    initBucketWith m done heads n alloc = (⟨done, false⟩, true) := by
  obtain ⟨h0, hh⟩ := all_alloc_iff.1 h
  unfold initBucketWith
  rw [if_pos h0, hh]

/-- the ways to fail: NULL for the array, or a NULL head -/
theorem initBucketWith_failed (m done : T) (heads : ℕ → T) (h : ¬ ∀ i ≤ n, alloc i = true) :
    ∃ t, initBucketWith m done heads n alloc = (t, false) ∧ (t = ⟨m, true⟩ ∨ ∃ i, t = ⟨heads i, false⟩) := by
  unfold initBucketWith
  cases h0 : alloc 0 with
  | false => exact ⟨_, rfl, .inl rfl⟩
  | true =>
    cases hh : failedHead alloc n with
    | some i => exact ⟨_, rfl, .inr ⟨i, rfl⟩⟩
    | none => exact absurd (all_alloc_iff.2 ⟨h0, hh⟩) h

end InitBucket

/-- a later call that does not add -/
inductive Later where
  | find (key : ℤ)
  | delete (key : ℤ)
deriving DecidableEq, Repr

def Later.op : Later → Op
  | .find k => .find k
  | .delete k => .delete k

/-- the results of later calls in turn; a call that ends the process has none, and there are no calls after it -/
def answers {T E : Type} (call : T → Later → Except E (T × Res)) (t : T) : List Later → List (Option Res)
  | [] => []
  | l :: ls =>
    match call t l with
    | .error _ => [none]
    | .ok (t', r) => some r :: answers call t' ls

/-- what is seen of a table between two calls -/
structure View where
  tableSize : ℕ
  setSize : ℕ
  pairs : Multiset (ℤ × ℤ)
  answers : List Later → List (Option Res)

/-- the table is as it was, and later calls do not see a difference -/
structure Intact (before after : View) : Prop where
  tableSize : after.tableSize = before.tableSize
  setSize : after.setSize = before.setSize
  pairs : after.pairs = before.pairs
  answers : after.answers = before.answers

/-- reading through a pointer that is no table -/
inductive BadPointer where
  | null
  | freed
deriving DecidableEq, Repr

end AlgorithmCollection.FailedResize

/-! ## `Hash` -/

namespace AlgorithmCollection.Hash

open Conc Chained FailedResize

/-- `resize` up to `init_bucket` -/
def saveOld (m : Mem) : Mem := { m with oldTableSize := m.tableSize, oldBucket := m.bucket }

/-- the loop of `init_bucket` stopped at head i -/
def initHeads (m : Mem) (i : ℕ) : Mem := { initBucket m i with list := headsBelow m.list m.arrays m.fresh i }

/-- `resize`, with the result of `init_bucket` -/
def resizeWith (m : Mem) (alloc : ℕ → Bool) : Except Fault (After Mem × Bool) :=
  match initBucketWith (saveOld m) (initBucket (saveOld m) (m.tableSize * 2 % 2 ^ 32)) (initHeads (saveOld m))
      (m.tableSize * 2 % 2 ^ 32) alloc with
  | (t, false) => .ok (t, false)
  | (t, true) =>
    if m.tableSize * 2 < 2 ^ 32 then
      (moveLists { t.mem with tableSize := m.tableSize * 2 } 0 m.tableSize).map fun m' => (⟨m', false⟩, true)
    else .error .wrap

/-- `find` and `delete`: `&ht->bucket[myBucket]` and the read of its head, where the call ends if either is NULL -/
def callAfter (t : After Mem) (l : Later) : Except Fault (After Mem × Res) :=
  if t.null ∨ t.mem.list t.mem.bucket (hashCode l.op.key t.mem.tableSize) = NULL then .error .null
  else (call t.mem l.op).map fun x => (⟨x.1, false⟩, x.2)

def pairs (m : Mem) (b : ℕ) : List (ℤ × ℤ) := (nodes m b).map fun a => (ky m a, vl m a)

def viewAfter (t : After Mem) : View :=
  ⟨t.mem.tableSize, t.mem.setSize,
    if t.null then 0 else headed t.mem.tableSize (t.mem.list t.mem.bucket) (pairs t.mem), answers callAfter t⟩

/-- the table before `resize` -/
def view (m : Mem) : View :=
  ⟨m.tableSize, m.setSize, ((List.range m.tableSize).flatMap (pairs m) : List (ℤ × ℤ)),
    answers (fun m (l : Later) => call m l.op) m⟩

/-- `ht->setSize++` in `add`, if `add_node` returns true -/
def countNode (m : Mem) (ret : Bool) : Mem := if ret then { m with setSize := (m.setSize + 1) % 2 ^ 64 } else m

/-- `add` up to `resize`, if it calls it -/
def addUpToResize (m : Mem) (key val : ℤ) : Option Mem :=
  match addNode m (m.list m.bucket (hashCode key m.tableSize)) key val with
  | .error _ => none
  | .ok (m1, ret) =>
    if policy (countNode m1 ret).setSize (countNode m1 ret).tableSize then some (countNode m1 ret) else none

/-- if `resize` fails, it leaves the table as it was -/
def FailSafe (m : Mem) (alloc : ℕ → Bool) : Prop :=
  ∀ t, resizeWith m alloc = .ok (t, false) → Intact (view m) (viewAfter t)

section Failed

variable {m : Mem} {alloc : ℕ → Bool} {t : After Mem} {k v : ℤ}

/-- the table on which `add` calls `resize` -/
theorem addUpToResize_eq {m2 : Mem} (h : addUpToResize m k v = some m2) :
    ∃ m1 ret, addNode m (m.list m.bucket (hashCode k m.tableSize)) k v = .ok (m1, ret) ∧ m2 = countNode m1 ret ∧
      policy m2.setSize m2.tableSize = true := by
  unfold addUpToResize at h
  cases hn : addNode m (m.list m.bucket (hashCode k m.tableSize)) k v with
  | error e => rw [hn] at h; cases h
  | ok x =>
    obtain ⟨m1, ret⟩ := x
    rw [hn] at h
    generalize hm : countNode m1 ret = m' at h
    simp only [hm] at h
    split_ifs at h with hp
    rw [Option.some.injEq] at h
    exact ⟨m1, ret, rfl, by rw [hm, h], by rw [← h]; exact hp⟩

/-- Where memory does not run out, `resize` is the one of the other modules. -/
theorem resizeWith_all (h : ∀ i ≤ m.tableSize * 2 % 2 ^ 32, alloc i = true) :
    resizeWith m alloc = (resize m).map fun m' => (⟨m', false⟩, true) := by
  unfold resizeWith resize
  rw [initBucketWith_all h]
  by_cases hw : m.tableSize * 2 < 2 ^ 32
  · simp only [if_pos hw, Nat.mod_eq_of_lt hw, saveOld]
  · simp only [if_neg hw, Except.map]

/-- an allocation that fails makes `resize` fail -/
theorem resizeWith_failed (h : ¬ ∀ i ≤ m.tableSize * 2 % 2 ^ 32, alloc i = true) :
    ∃ t, resizeWith m alloc = .ok (t, false) ∧ (t.null = true ∨ ∃ i, t = ⟨initHeads (saveOld m) i, false⟩) := by
  obtain ⟨t, h1, h2⟩ := initBucketWith_failed (saveOld m) (initBucket (saveOld m) (m.tableSize * 2 % 2 ^ 32))
    (initHeads (saveOld m)) h
  refine ⟨t, ?_, h2.imp_left fun e => by rw [e]⟩
  unfold resizeWith
  rw [h1]

/-- a head that `init_bucket` allocated before it failed has no nodes -/
theorem nx_initHeads {i b : ℕ} (hb : b < i) : nx (initHeads m i) (m.fresh + b) = NULL := by
  have hn : (initHeads m i).node (m.fresh + b) = ⟨0, 0, NULL⟩ := if_pos ⟨Nat.le_add_right _ _, by omega⟩
  unfold nx
  rw [hn]

theorem list_initHeads {i b : ℕ} :
    (initHeads m i).list (initHeads m i).bucket b = if b < i then m.fresh + b else NULL := by
  have hl : (initHeads m i).list m.arrays = fun b => if b < i then m.fresh + b else NULL := Function.update_self ..
  exact congrFun hl b

/-- **After a failed `resize` no key is found**: the call reads NULL, or the list is a new one. -/
theorem find_failed (h : t.null = true ∨ ∃ i, t = ⟨initHeads m i, false⟩) (k : ℤ) :
    answers callAfter t [.find k] ≠ [some (.find true)] := by
  intro hf
  have hcall : ∀ t', callAfter t (.find k) ≠ .ok (t', .find true) := by
    intro t' hc
    unfold callAfter at hc
    rcases h with hn | ⟨i, rfl⟩
    · simp [hn] at hc
    · by_cases h0 : (initHeads m i).list (initHeads m i).bucket (hashCode k (initHeads m i).tableSize) = NULL
      · simp [h0, Later.op, Op.key] at hc
      · have hb : hashCode k (initHeads m i).tableSize < i := by
          by_contra hb
          exact h0 (list_initHeads.trans (if_neg hb))
        have hfind : find (initHeads m i) k = .ok false := by
          unfold find findNode
          rw [list_initHeads, if_pos hb, if_pos (nx_initHeads hb)]
        simp [h0, Later.op, Op.key, call, hfind, Except.map] at hc
  unfold answers at hf
  cases hc : callAfter t (.find k) with
  | error e => simp [hc] at hf
  | ok x =>
    obtain ⟨t', r⟩ := x
    simp only [hc, answers, List.cons.injEq, Option.some.injEq, and_true] at hf
    exact hcall t' (by rw [hc, hf])

/-- a table with a key is not left as it was -/
theorem failSafe_iff (hk : find m k = .ok true) :
    FailSafe m alloc ↔ ∀ i ≤ m.tableSize * 2 % 2 ^ 32, alloc i = true := by
  constructor
  · intro hs
    by_contra hn
    obtain ⟨t, ht, hfail⟩ := resizeWith_failed hn
    have hbefore : (view m).answers [.find k] = [some (.find true)] := by
      simp [view, answers, Later.op, call, hk, Except.map]
    refine find_failed hfail k ?_
    rw [← hbefore, ← (hs t ht).answers]
    rfl
  · intro ha t ht
    rw [resizeWith_all ha] at ht
    cases hr : resize m <;> simp [hr, Except.map] at ht

/-- where `add` calls `resize`, the table is full -/
theorem exists_key_of_resize {M : ℤ → Option ℤ} {S : ℕ → Finset ℕ} {D : Finset ℕ} {m2 : Mem} (h : Holds m M S D)
    (hlt : m.setSize < 5 * m.tableSize) (hk : 0 ≤ k) (h2 : addUpToResize m k v = some m2) :
    ∃ k', find m2 k' = .ok true := by
  obtain ⟨m1, h1, h3, h4, h5, h6⟩ := addNode_holds (v := v) h hk hlt
  obtain ⟨m1', ret, h1', hm2, hp⟩ := addUpToResize_eq h2
  rw [h1, Except.ok.injEq, Prod.mk.injEq] at h1'
  rw [← h1'.1, ← h1'.2] at hm2
  obtain ⟨M', S', D', hH⟩ : ∃ M' S' D', Holds m2 M' S' D' := by
    rw [hm2]
    cases hM : M k with
    | none => exact ⟨_, h6 hM⟩
    | some w => exact ⟨_, h5 (by rw [hM]; simp)⟩
  -- five nodes per bucket: there is one
  have hload := (policy_iff hH.sizes.pos hH.load).1 hp
  have hpos : 0 < D'.card := by
    have := hH.sizes.pos
    rw [← hH.count]
    omega
  obtain ⟨a, ha⟩ := Finset.card_pos.1 hpos
  refine ⟨ky m2 a, ?_⟩
  rw [find_holds hH (hH.pairs.nonneg a ha), hH.pairs.rep.holds ha]
  rfl

end Failed

end AlgorithmCollection.Hash

/-! ## `OpenAddressHash` -/

namespace AlgorithmCollection.OpenAddressHash

open Conc FailedResize
open Chained (Op Res)

/-- `resize`, with the result of `init_bucket` -/
def resizeWith (ht : Table) (alloc : ℕ → Bool) : After Table × Bool :=
  if alloc 0 then (⟨resize ht, false⟩, true)
  else (⟨{ ht with oldTableSize := ht.tableSize, oldBucket := ht.bucket }, true⟩, false)

/-- `find` and `delete`: the first round of their loop reads a slot -/
def callAfter (t : After Table) (l : Later) : Except BadPointer (After Table × Res) :=
  if t.null ∧ 0 < t.mem.tableSize then .error .null
  else .ok (⟨(call t.mem l.op).1, t.null⟩, (call t.mem l.op).2)

def viewAfter (t : After Table) : View :=
  ⟨t.mem.tableSize, t.mem.setSize, if t.null then 0 else pairs t.mem, answers callAfter t⟩

/-- the table before `resize` -/
def view (ht : Table) : View :=
  ⟨ht.tableSize, ht.setSize, pairs ht, answers (E := Empty) (fun ht (l : Later) => .ok (call ht l.op)) ht⟩

/-- if `resize` fails, it leaves the table as it was -/
def FailSafe (ht : Table) (alloc : ℕ → Bool) : Prop :=
  ∀ t, resizeWith ht alloc = (t, false) → Intact (view ht) (viewAfter t)

/-- `add` up to `resize`, if it calls it -/
def addUpToResize (ht : Table) (key val : ℤ) : Option Table :=
  let ht1 := match freeSlot ht key with
    | some s => addOp ht s key val
    | none => ht
  if policy ht1 then some ht1 else none

/-- a table whose size has wrapped around to 0 has lost what it held -/
def Sized (ht : Table) : Prop := ht.tableSize = 0 → ht.setSize = 0

variable {ht : Table}

theorem freeSlot_of_empty (h : ht.tableSize = 0) (k : ℤ) : freeSlot ht k = none := by
  unfold freeSlot
  rw [h]
  rfl

theorem probe_of_empty (h : ht.tableSize = 0) (k : ℤ) : probe ht k = none := by
  unfold probe
  rw [h]
  rfl

theorem sized_resize (ht : Table) : Sized (resize ht) := by
  intro h0
  have hd : (doubled ht).tableSize = 0 := by rw [← h0, resize_tableSize]; rfl
  unfold resize
  rw [foldl_reinsert_of_zero _ hd]
  rfl

theorem Sized.call (h : Sized ht) (op : Op) : Sized (call ht op).1 := by
  cases op with
  | add k v =>
    change Sized (add ht k v).1
    unfold add
    cases hs : freeSlot ht k with
    | none =>
      simp only
      split_ifs with hp
      · exact sized_resize ht
      · exact h
    | some s =>
      simp only
      split_ifs with hp
      · exact sized_resize _
      · intro h0
        have hts : ht.tableSize = 0 := h0
        rw [freeSlot_of_empty hts] at hs
        cases hs
  | delete k =>
    intro h0
    change (delete ht k).1.tableSize = 0 at h0
    have hts : ht.tableSize = 0 := by rw [← h0, delete_tableSize]
    change (delete ht k).1.setSize = 0
    unfold delete
    rw [probe_of_empty hts]
    exact h hts
  | find k => exact h

theorem Sized.run (h : Sized ht) (ops : List Op) : Sized (run ht ops).1 := by
  induction ops generalizing ht with
  | nil => exact h
  | cons op ops ih => exact ih (h.call op)

/-- `add` does not call `resize` on a table of size 0 -/
theorem Sized.pos_of_resize {ht1 : Table} {k v : ℤ} (h : Sized ht) (h1 : addUpToResize ht k v = some ht1) :
    0 < ht1.tableSize := by
  by_contra hn
  have h0 : ht1.tableSize = 0 := by omega
  unfold addUpToResize at h1
  cases hs : freeSlot ht k with
  | none =>
    simp only [hs] at h1
    split_ifs at h1 with hp
    rw [Option.some.injEq] at h1
    rw [h1] at hp h
    unfold policy at hp
    rw [h h0] at hp
    simp at hp
  | some s =>
    simp only [hs] at h1
    split_ifs at h1 with hp
    rw [Option.some.injEq] at h1
    have hts : ht.tableSize = 0 := by rw [← h0, ← h1]; rfl
    rw [freeSlot_of_empty hts] at hs
    cases hs

/-- no slot can be read after a failed `resize` -/
theorem failSafe_iff {alloc : ℕ → Bool} (hpos : 0 < ht.tableSize) : FailSafe ht alloc ↔ alloc 0 = true := by
  unfold FailSafe resizeWith
  cases h0 : alloc 0 with
  | true => simp
  | false =>
    simp only [Bool.false_eq_true, if_false, iff_false]
    intro hs
    have ha := congrFun (hs _ rfl).answers [.find 0]
    simp [view, viewAfter, answers, callAfter, hpos] at ha

end AlgorithmCollection.OpenAddressHash

/-! ## `CuckooHash` -/

namespace AlgorithmCollection.CuckooHash

open Conc FailedResize
open Chained (Op Res)
open OpenAddressHash (Stat Node occ)

/-- the tables after `resize`; `bad no` says why `ht->table[no]` is no table, if it is none -/
structure AfterTables where
  table : Table
  bad : ℕ → Option BadPointer

/-- `init_tables`, with its result: table 0 is released again if there is no table 1 -/
def initTablesWith (ht : Table) (alloc : ℕ → Bool) : AfterTables × Bool :=
  if alloc 0 then
    if alloc 1 then (⟨initTables ht, fun _ => none⟩, true)
    else (⟨ht, fun no => if no = 0 then some .freed else some .null⟩, false)
  else (⟨ht, fun no => if no = 0 then some .null else none⟩, false)

/-- `resize`, with the result of `init_tables` -/
def resizeWith (ht : Table) (alloc : ℕ → Bool) : Except Fault (AfterTables × Bool) :=
  match initTablesWith { ht with oldTableSize := ht.tableSize, oldTable := ht.table } alloc with
  | (t, false) => .ok (t, false)
  | (_, true) => (resize ht).map fun ht' => (⟨ht', fun _ => none⟩, true)

/-- the read of a slot -/
def AfterTables.node (t : AfterTables) (p : ℕ × ℕ) : Except BadPointer Node :=
  match t.bad p.1 with
  | some e => .error e
  | none => .ok (t.table.table p.1 p.2)

/-- the loop of `find_op` and of `delete`: the slot of the key -/
def AfterTables.search (t : AfterTables) (key : ℤ) : Except BadPointer (Option (ℕ × ℕ)) :=
  match t.node (getNode t.table 0 key) with
  | .error e => .error e
  | .ok n0 =>
    if n0.stat = .OCC ∧ n0.key = key then .ok (some (getNode t.table 0 key))
    else
      match t.node (getNode t.table 1 key) with
      | .error e => .error e
      | .ok n1 => .ok (if n1.stat = .OCC ∧ n1.key = key then some (getNode t.table 1 key) else none)

/-- `find` and `delete` -/
def AfterTables.call (t : AfterTables) : Later → Except BadPointer (AfterTables × Res)
  | .find k => (t.search k).map fun p => (t, .find p.isSome)
  | .delete k => (t.search k).map fun
    | none => (t, .delete none)
    | some p => (⟨delOp t.table p, t.bad⟩, .delete (some (t.table.table p.1 p.2).value))

/-- the pairs in the tables that are there -/
def AfterTables.pairs (t : AfterTables) : Multiset (ℤ × ℤ) :=
  ((List.range 2).map fun no =>
    if t.bad no = none then Slots.contents occ (fun n => (n.key, n.value)) (t.table.table no) t.table.tableSize else 0).sum

def AfterTables.view (t : AfterTables) : View := ⟨t.table.tableSize, t.table.setSize, t.pairs, answers AfterTables.call t⟩

/-- the table before `resize` -/
def view (ht : Table) : View :=
  ⟨ht.tableSize, ht.setSize, (⟨ht, fun _ => none⟩ : AfterTables).pairs, answers (fun ht (l : Later) => call ht l.op) ht⟩

/-- if `resize` fails, it leaves the table as it was -/
def FailSafe (ht : Table) (alloc : ℕ → Bool) : Prop :=
  ∀ t, resizeWith ht alloc = .ok (t, false) → Intact (view ht) t.view

section Failed

variable {ht : Table} {alloc : ℕ → Bool} {t : AfterTables}

/-- Where memory does not run out, `resize` is the one of the other modules. -/
theorem resizeWith_all (h0 : alloc 0 = true) (h1 : alloc 1 = true) :
    resizeWith ht alloc = (resize ht).map fun ht' => (⟨ht', fun _ => none⟩, true) := by
  unfold resizeWith initTablesWith
  rw [if_pos h0, if_pos h1]

/-- both ways to fail spoil table 0 -/
theorem bad_failed (h : initTablesWith ht alloc = (t, false)) : t.bad 0 ≠ none := by
  unfold initTablesWith at h
  split_ifs at h with h0 h1
  · cases h
  · cases h
    simp
  · cases h
    simp

/-- a call reads table 0 first -/
theorem search_failed (h : t.bad 0 ≠ none) (k : ℤ) : ∃ e, t.search k = .error e := by
  obtain ⟨e, he⟩ := Option.ne_none_iff_exists'.1 h
  refine ⟨e, ?_⟩
  have hn : t.node (getNode t.table 0 k) = .error e := by
    unfold AfterTables.node
    rw [show (getNode t.table 0 k).1 = 0 from rfl, he]
  unfold AfterTables.search
  rw [hn]

theorem failSafe_iff : FailSafe ht alloc ↔ alloc 0 = true ∧ alloc 1 = true := by
  constructor
  · intro hs
    by_contra hn
    obtain ⟨t, ht'⟩ : ∃ t, initTablesWith { ht with oldTableSize := ht.tableSize, oldTable := ht.table } alloc =
        (t, false) := by
      unfold initTablesWith
      cases h0 : alloc 0 with
      | false => exact ⟨_, rfl⟩
      | true =>
        cases h1 : alloc 1 with
        | false => exact ⟨_, rfl⟩
        | true => exact absurd ⟨h0, h1⟩ hn
    have hr : resizeWith ht alloc = .ok (t, false) := by
      unfold resizeWith
      rw [ht']
    obtain ⟨e, he⟩ := search_failed (bad_failed ht') 0
    have ha := congrFun (hs t hr).answers [.find 0]
    simp [view, AfterTables.view, answers, AfterTables.call, he, Except.map, Later.op, call] at ha
  · rintro ⟨h0, h1⟩ t hr
    rw [resizeWith_all h0 h1] at hr
    cases hres : resize ht <;> simp [hres, Except.map] at hr

end Failed

end AlgorithmCollection.CuckooHash

/-! ## `StripedHash` -/

namespace AlgorithmCollection.StripedHash

open Conc Chained FailedResize

/-- the loop of `init_bucket` stopped at head i -/
def initHeads (m : Mem) (i : ℕ) : Mem := { initBucket m i with list := headsBelow m.list m.arrays m.fresh i }

/-- `add` returns -/
def Call.done (c : Call) : Loc := .ret (.add c.key c.val) (.add c.ret)

/-- the step of `resize` that calls `init_bucket`: it returns if that fails, and with it `add` -/
def rInitWith (m : Mem) (c : Call) (alloc : ℕ → Bool) : After Mem × Loc :=
  match initBucketWith m (initBucket m (m.tableSize * 2 % 2 ^ 32)) (initHeads m) (m.tableSize * 2 % 2 ^ 32) alloc with
  | (a, true) => (a, .rDouble c)
  | (a, false) => (a, c.done)

/-- a step on such a table; a thread that reads NULL for a bucket array or a head goes no further -/
def stepAfter (P : Params) (t : ℕ) (a : After Mem) (l : Loc) (act : Act) : After Mem × Loc :=
  match act, l with
  | .step, .first _ b =>
    if a.null ∨ a.mem.list a.mem.bucket b = NULL then (a, l)
    else (⟨(step P t a.mem l act).1, a.null⟩, (step P t a.mem l act).2)
  | .step, .rInit _ => (⟨(step P t a.mem l act).1, false⟩, (step P t a.mem l act).2)
  | _, _ => (⟨(step P t a.mem l act).1, a.null⟩, (step P t a.mem l act).2)

def afterSys (P : Params) : Sys (After Mem) Loc Act := ⟨⟨initHashtable P, false⟩, .idle, stepAfter P⟩

def pairs (m : Mem) (b : ℕ) : List (ℤ × ℤ) := (nodes m b).map fun a => ((m.node a).key, (m.node a).value)

/-- the state in which the thread would be had `add` not called `resize`: the table as it is, and no lock held -/
def uncalled (s : St Mem Loc) (t : ℕ) (c : Call) : St Mem Loc :=
  ⟨{ s.sh with mtx := fun _ => none }, Function.update s.loc t c.done⟩

/-- later calls are `find` and `delete` -/
def NoAdds (ls : List (ℕ × Act)) : Prop := ∀ x ∈ ls, ∀ op, x.2 = .invoke op → ∃ l : Later, op = l.op

/-- `resize` by thread t, called in state s, leaves the table as it was and no lock held, and in every later run of
`find` and `delete` every thread is where it would be without it -/
structure Intact (P : Params) (s : St Mem Loc) (t : ℕ) (c : Call) (a : After Mem) : Prop where
  tableSize : a.mem.tableSize = s.sh.tableSize
  setSize : a.mem.setSize = s.sh.setSize
  pairs : (if a.null then 0 else headed a.mem.tableSize (a.mem.list a.mem.bucket) (pairs a.mem)) =
    ((List.range s.sh.tableSize).flatMap (pairs s.sh) : List (ℤ × ℤ))
  later : ∀ ls, NoAdds ls → ∀ u, (ls.foldl (afterSys P).next ⟨a, Function.update s.loc t c.done⟩).loc u =
    (ls.foldl (sys P).next (uncalled s t c)).loc u
  unlocked : ∀ i < P.lockSize, a.mem.mtx i = none

/-- if the `resize` of thread t fails, it leaves the table as it was -/
def FailSafe (P : Params) (s : St Mem Loc) (t : ℕ) (c : Call) (alloc : ℕ → Bool) : Prop :=
  ∀ a, rInitWith s.sh c alloc = (a, c.done) → Intact P s t c a

section Failed

variable {P : Params} {m : Mem} {alloc : ℕ → Bool} {c : Call}

/-- an allocation that fails makes `resize` return -/
theorem exists_failed (h : ¬ ∀ i ≤ m.tableSize * 2 % 2 ^ 32, alloc i = true) :
    ∃ a, rInitWith m c alloc = (a, c.done) ∧ a.mem.mtx = m.mtx := by
  obtain ⟨a, h1, h2⟩ := initBucketWith_failed m (initBucket m (m.tableSize * 2 % 2 ^ 32)) (initHeads m) h
  refine ⟨a, ?_, ?_⟩
  · unfold rInitWith
    rw [h1]
  · rcases h2 with rfl | ⟨i, rfl⟩ <;> rfl

/-- **A failed `resize` keeps every lock.** In every run, a thread whose `init_bucket` fails returns from `add` and
holds all stripe locks. -/
theorem held_failed {ls : List (ℕ × Act)} {t : ℕ} (hl : ((sys P).run ls).loc t = .rInit c)
    (h : ¬ ∀ i ≤ ((sys P).run ls).sh.tableSize * 2 % 2 ^ 32, alloc i = true) :
    ∃ a, rInitWith ((sys P).run ls).sh c alloc = (a, c.done) ∧ ∀ i < P.lockSize, a.mem.mtx i = some t := by
  obtain ⟨g, -, hA, -⟩ := inv_run (P := P) ls
  have hat := (hA t).at_
  rw [hl] at hat
  obtain ⟨a, h1, h2⟩ := exists_failed (c := c) h
  refine ⟨a, h1, fun i hi => ?_⟩
  rw [h2]
  exact hat.1 i (Nat.zero_le i) hi

theorem failSafe_iff {ls : List (ℕ × Act)} {t : ℕ} (hl : ((sys P).run ls).loc t = .rInit c) :
    FailSafe P ((sys P).run ls) t c alloc ↔ ∀ i ≤ ((sys P).run ls).sh.tableSize * 2 % 2 ^ 32, alloc i = true := by
  constructor
  · intro hs
    by_contra hn
    obtain ⟨a, h1, h2⟩ := held_failed hl hn
    have hfree := (hs a h1).unlocked 0 P.pos
    rw [h2 0 P.pos] at hfree
    cases hfree
  · intro h a ha
    unfold rInitWith at ha
    rw [initBucketWith_all h] at ha
    cases congrArg Prod.snd ha

end Failed

end AlgorithmCollection.StripedHash

/-! ## All four tables -/

namespace AlgorithmCollection.FailedResize

open Chained (Op Res)

/-- **`resize` cannot fail safely.** For every table of `Hash` (after calls with non-negative keys) and of
`OpenAddressHash` on which `add` calls `resize`, for every run of threads on `StripedHash` and every thread in it that calls
`init_bucket`, for every table of `CuckooHash`, and whatever allocation does: if `resize` fails then it leaves the table
as it was, exactly if every allocation succeeds. -/
theorem failSafe_iff_allocated (alloc : ℕ → Bool) :
    (∀ n ops m rs k v m2, 1 ≤ n → n < 2 ^ 32 → (∀ op ∈ ops, 0 ≤ Op.key op) → 0 ≤ k →
      Hash.run (Hash.initHashtable n) ops = .ok (m, rs) → Hash.addUpToResize m k v = some m2 →
      (Hash.FailSafe m2 alloc ↔ ∀ i ≤ m2.tableSize * 2 % 2 ^ 32, alloc i = true)) ∧
    (∀ size ops k v ht1, OpenAddressHash.addUpToResize
        (OpenAddressHash.run (OpenAddressHash.initHashtable size) ops).1 k v = some ht1 →
      (OpenAddressHash.FailSafe ht1 alloc ↔ alloc 0 = true)) ∧
    (∀ P ls t c, ((StripedHash.sys P).run ls).loc t = .rInit c →
      (StripedHash.FailSafe P ((StripedHash.sys P).run ls) t c alloc ↔
        ∀ i ≤ ((StripedHash.sys P).run ls).sh.tableSize * 2 % 2 ^ 32, alloc i = true)) ∧
    ∀ ht, CuckooHash.FailSafe ht alloc ↔ alloc 0 = true ∧ alloc 1 = true := by
  refine ⟨?_, fun size ops k v ht1 h => ?_, fun P ls t c h => StripedHash.failSafe_iff h,
    fun ht => CuckooHash.failSafe_iff⟩
  rotate_left
  · have hs : OpenAddressHash.Sized (OpenAddressHash.initHashtable size) := fun _ => rfl
    exact OpenAddressHash.failSafe_iff ((hs.run ops).pos_of_resize h)
  intro n ops m rs k v m2 hn hlt hops hk hrun hadd
  obtain ⟨S, hS⟩ := Hash.init_holds hn hlt
  have h0 : (Hash.initHashtable n).setSize < 5 * (Hash.initHashtable n).tableSize := by
    change 0 < 5 * n
    omega
  obtain ⟨M, S', D, hH, hload⟩ := Hash.run_returned hS h0 hops hrun
  obtain ⟨k', hk'⟩ := Hash.exists_key_of_resize hH hload hk hadd
  exact Hash.failSafe_iff hk'

/-- a table of one bucket on which the fifth `add` calls `resize`; it has the key 3 -/
theorem full_bucket : ∃ m rs m2,
    Hash.run (Hash.initHashtable 1) [.add 3 30, .add 1 10, .add 4 40, .add 0 7] = .ok (m, rs) ∧
      Hash.addUpToResize m 5 50 = some m2 ∧ Hash.find m2 3 = .ok true := by
  have hr : ((Hash.run (Hash.initHashtable 1) [.add 3 30, .add 1 10, .add 4 40, .add 0 7]).toOption.bind fun x =>
      (Hash.addUpToResize x.1 5 50).map fun m2 => decide (Hash.find m2 3 = .ok true)) = some true := by decide +kernel
  cases hrun : Hash.run (Hash.initHashtable 1) [.add 3 30, .add 1 10, .add 4 40, .add 0 7] with
  | error e => rw [hrun] at hr; cases hr
  | ok x =>
    rw [hrun] at hr
    obtain ⟨m2, h1, h2⟩ := Option.map_eq_some_iff.1 (show (Hash.addUpToResize x.1 5 50).map _ = some true from hr)
    exact ⟨x.1, x.2, m2, rfl, h1, of_decide_eq_true h2⟩

/-- one thread adds five keys to a table of one bucket; the last `add` is about to call `init_bucket` -/
def fiveAdds : List (ℕ × StripedHash.Act) := [4, 3, 2, 1, 0].flatMap fun k => Conc.callSteps 0 (.add k 0) 21

/-- no allocation succeeds: each of the four tables is reached, and is not left as it was -/
theorem no_memory_not_failSafe :
    (∃ m rs m2, Hash.run (Hash.initHashtable 1) [.add 3 30, .add 1 10, .add 4 40, .add 0 7] = .ok (m, rs) ∧
      Hash.addUpToResize m 5 50 = some m2 ∧ ¬ Hash.FailSafe m2 fun _ => false) ∧
    (∃ ht1, OpenAddressHash.addUpToResize (OpenAddressHash.run (OpenAddressHash.initHashtable 1) [.add 3 30]).1 1 10 =
      some ht1 ∧ ¬ OpenAddressHash.FailSafe ht1 fun _ => false) ∧
    (((StripedHash.sys ⟨1, by decide, by decide⟩).run fiveAdds).loc 0 = .rInit ⟨0, 0, true⟩ ∧
      ¬ StripedHash.FailSafe ⟨1, by decide, by decide⟩ ((StripedHash.sys ⟨1, by decide, by decide⟩).run fiveAdds) 0
        ⟨0, 0, true⟩ fun _ => false) ∧
    ¬ CuckooHash.FailSafe (CuckooHash.initHashtable 1) fun _ => false := by
  obtain ⟨hash, openAddress, striped, cuckoo⟩ := failSafe_iff_allocated fun _ => false
  obtain ⟨m, rs, m2, hrun, hadd, -⟩ := full_bucket
  obtain ⟨ht1, h1⟩ : ∃ ht1, OpenAddressHash.addUpToResize
      (OpenAddressHash.run (OpenAddressHash.initHashtable 1) [.add 3 30]).1 1 10 = some ht1 :=
    Option.isSome_iff_exists.1 (by decide +kernel)
  have hloc : ((StripedHash.sys ⟨1, by decide, by decide⟩).run fiveAdds).loc 0 = .rInit ⟨0, 0, true⟩ := by decide +kernel
  refine ⟨⟨m, rs, m2, hrun, hadd, fun h => ?_⟩, ⟨ht1, h1, fun h => ?_⟩, ⟨hloc, fun h => ?_⟩, fun h => ?_⟩
  · have hall := (hash 1 _ m rs 5 50 m2 (by decide) (by decide) (by decide) (by decide) hrun hadd).1 h
    exact Bool.false_ne_true (hall 0 (Nat.zero_le _))
  · exact Bool.false_ne_true ((openAddress _ _ 1 10 ht1 h1).1 h)
  · exact Bool.false_ne_true ((striped _ _ 0 _ hloc).1 h 0 (Nat.zero_le _))
  · exact Bool.false_ne_true ((cuckoo _).1 h).1

/-- **A table that loses its keys.** Four pairs are added to a table of one bucket and the fifth `add` calls `resize`, whose
array is not allocated: key 3, which is there, is looked for through NULL. -/
theorem keys_lost : ∃ m rs m2,
    Hash.run (Hash.initHashtable 1) [.add 3 30, .add 1 10, .add 4 40, .add 0 7] = .ok (m, rs) ∧
      Hash.addUpToResize m 5 50 = some m2 ∧ Hash.find m2 3 = .ok true ∧ ¬ Hash.FailSafe m2 fun _ => false := by
  obtain ⟨m, rs, m2, hrun, hadd, hfind⟩ := full_bucket
  refine ⟨m, rs, m2, hrun, hadd, hfind, fun hs => ?_⟩
  exact Bool.false_ne_true ((Hash.failSafe_iff hfind).1 hs 0 (Nat.zero_le _))

end AlgorithmCollection.FailedResize
