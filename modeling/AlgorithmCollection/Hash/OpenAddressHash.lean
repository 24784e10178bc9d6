/-
`OpenAddressHash`: a table of slots with linear probing, `src/hash/OpenAddressHash.c`.

`table_size` is an unsigned int, so `table_size * 4` in `policy` and `table_size * 2` in `resize` are taken modulo 2^32.
`setSize` is an unsigned long. `lkey_t` is signed and `i` unsigned: the sum in `(key + i) % table_size` wraps around, the
remainder is that of signed division, and the return type reduces it modulo 2^32. The two `for` loops of
the source, the one that looks for a slot to write and the one that looks for a key, are searches over the indices below
`table_size`: they stop at the first index that meets the test. `bucket` is a function on all indices; a read or write at
`table_size` or above is one outside the array, where the source has no result. The mutex of the table is held during each
call, so calls do not overlap and the model has none. Allocation succeeds.
-/
import AlgorithmCollection.Conc.Slots
import AlgorithmCollection.Hash.Chained

namespace AlgorithmCollection.OpenAddressHash

open Conc
open Chained (Op Res long)

/-- `node_stat` -/
inductive Stat where
  | EMP
  | DEL
  | OCC
deriving DecidableEq, Repr

/-- `node_t` -/
structure Node where
  key : ℤ
  value : ℤ
  stat : Stat
deriving DecidableEq, Repr

/-- `hashtable_t` -/
structure Table where
  setSize : ℕ
  bucket : ℕ → Node
  tableSize : ℕ
  oldBucket : ℕ → Node
  oldTableSize : ℕ

/-- `hashCode` -/
def hashCode (key : ℤ) (i tableSize : ℕ) : ℕ := Chained.hashCode (long (key + i)) tableSize

/-- `add_op` on slot s -/
def addOp (ht : Table) (s : ℕ) (key val : ℤ) : Table :=
  { ht with bucket := Function.update ht.bucket s ⟨key, val, .OCC⟩, setSize := (ht.setSize + 1) % 2 ^ 64 }

/-- `del_op` on slot s -/
def delOp (ht : Table) (s : ℕ) : Table :=
  { ht with bucket := Function.update ht.bucket s ⟨0, 0, .DEL⟩, setSize := (ht.setSize + 2 ^ 64 - 1) % 2 ^ 64 }

/-- the loop of `add` and of `resize`: the first slot on the key's probe sequence that is not occupied -/
def freeSlot (ht : Table) (key : ℤ) : Option ℕ :=
  ((List.range ht.tableSize).find? fun i => (ht.bucket (hashCode key i ht.tableSize)).stat ≠ .OCC).map
    fun i => hashCode key i ht.tableSize

/-- the loop of `delete` and of `find`: the first slot that is empty or holds the key -/
def probe (ht : Table) (key : ℤ) : Option ℕ :=
  ((List.range ht.tableSize).find? fun i =>
      let node := ht.bucket (hashCode key i ht.tableSize)
      node.stat = .EMP ∨ node.stat ≠ .DEL ∧ node.key = key).map
    fun i => hashCode key i ht.tableSize

/-- `init_bucket` -/
def initBucket (ht : Table) : Table := { ht with bucket := fun _ => ⟨0, 0, .EMP⟩, setSize := 0 }

/-- `init_hashtable` -/
def initHashtable (size : ℕ) : Table :=
  initBucket ⟨0, fun _ => ⟨0, 0, .EMP⟩, 2 ^ size % 2 ^ 32, fun _ => ⟨0, 0, .EMP⟩, 0⟩

/-- `policy` -/
def policy (ht : Table) : Bool := decide (ht.tableSize * 4 % 2 ^ 32 / 5 < ht.setSize)

/-- the body of the loop of `resize` over the old slots -/
def reinsert (ht : Table) (i : ℕ) : Table :=
  if (ht.oldBucket i).stat = .OCC then
    match freeSlot ht (ht.oldBucket i).key with
    | some s => addOp ht s (ht.oldBucket i).key (ht.oldBucket i).value
    | none => ht
  else ht

/-- `resize` up to its loop -/
def doubled (ht : Table) : Table :=
  { initBucket { ht with oldTableSize := ht.tableSize, oldBucket := ht.bucket } with
    tableSize := ht.tableSize * 2 % 2 ^ 32 }

/-- `resize` -/
def resize (ht : Table) : Table := (List.range ht.tableSize).foldl reinsert (doubled ht)

/-- `add` -/
def add (ht : Table) (key val : ℤ) : Table × Bool :=
  let (ht1, ret) := match freeSlot ht key with
    | some s => (addOp ht s key val, true)
    | none => (ht, false)
  (if policy ht1 then resize ht1 else ht1, ret)

/-- `delete`, with the value it writes to *getval -/
def delete (ht : Table) (key : ℤ) : Table × Option ℤ :=
  match probe ht key with
  | none => (ht, none)
  | some s => if (ht.bucket s).stat = .EMP then (ht, none) else (delOp ht s, some (ht.bucket s).value)

/-- `find` -/
def find (ht : Table) (key : ℤ) : Bool :=
  match probe ht key with
  | none => false
  | some s => if (ht.bucket s).stat = .EMP then false else true

/-- one call -/
def call (ht : Table) : Op → Table × Res
  | .add k v => ((add ht k v).1, .add (add ht k v).2)
  | .delete k => ((delete ht k).1, .delete (delete ht k).2)
  | .find k => (ht, .find (find ht k))

/-- a sequence of calls, with their results -/
def run (ht : Table) : List Op → Table × List Res
  | [] => (ht, [])
  | op :: ops => ((run (call ht op).1 ops).1, (call ht op).2 :: (run (call ht op).1 ops).2)

/-! ## What is observed -/

def emp (n : Node) : Bool := n.stat = .EMP

def occ (n : Node) : Bool := n.stat = .OCC

theorem occ_iff {n : Node} : occ n = true ↔ n.stat = .OCC := by simp [occ]

theorem occ_eq_false {n : Node} : occ n = false ↔ n.stat ≠ .OCC := by simp [occ]

theorem Node.eq_of_occ {n : Node} (h : n.stat = .OCC) : n = ⟨n.key, n.value, .OCC⟩ := by rw [← h]

/-- the pairs in the occupied slots -/
def pairs (ht : Table) : Multiset (ℤ × ℤ) := Slots.contents occ (fun n => (n.key, n.value)) ht.bucket ht.tableSize

/-- the table as a bag of pairs: what a call may return, and what it does to the bag -/
inductive BagStep : Multiset (ℤ × ℤ) → Op → Res → Multiset (ℤ × ℤ) → Prop
  | add {B k v} : BagStep B (.add k v) (.add true) ((k, v) ::ₘ B)
  | deleted {B k v} (h : (k, v) ∈ B) : BagStep B (.delete k) (.delete (some v)) (B.erase (k, v))
  | notDeleted {B k} (h : ∀ v, (k, v) ∉ B) : BagStep B (.delete k) (.delete none) B
  | found {B k v} (h : (k, v) ∈ B) : BagStep B (.find k) (.find true) B
  | notFound {B k} (h : ∀ v, (k, v) ∉ B) : BagStep B (.find k) (.find false) B

/-- a sequence of calls on the bag -/
inductive BagRun : Multiset (ℤ × ℤ) → List Op → List Res → Multiset (ℤ × ℤ) → Prop
  | nil {B} : BagRun B [] [] B
  | cons {B B' B'' op ops r rs} (h : BagStep B op r B') (t : BagRun B' ops rs B'') : BagRun B (op :: ops) (r :: rs) B''

/-- every occupied slot is preceded on its key's probe sequence only by slots that are not empty -/
def Reachable (ht : Table) : Prop :=
  ∀ s < ht.tableSize, (ht.bucket s).stat = .OCC → ∀ i < ht.tableSize, hashCode (ht.bucket s).key i ht.tableSize = s →
    ∀ j < i, (ht.bucket (hashCode (ht.bucket s).key j ht.tableSize)).stat ≠ .EMP

/-- `setSize` is the number of occupied slots -/
def Counted (ht : Table) : Prop := ht.setSize = (Slots.used occ ht.bucket ht.tableSize).card

end AlgorithmCollection.OpenAddressHash
