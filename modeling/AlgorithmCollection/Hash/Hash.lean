/-
Model of `hash/Hash.c`, the chained table under one lock, as functions on its memory.

Every call holds `ht->mtx` from beginning to end, so calls are sequential. Nodes and bucket arrays live in a heap of
addresses; `list A b` is the head of bucket b of array A. Walks along a bucket are `seek` over the links in memory, with
as much fuel as there are addresses. A call ends with a fault if it dereferences NULL (`delete_node` reads `curr->key`
before it looks at curr), if a walk does not end, or if `table_size * 2` wraps around. Allocation succeeds; memory that
is released is not used again.
-/
import AlgorithmCollection.Hash.Chained
import AlgorithmCollection.Conc.HashTable

namespace AlgorithmCollection.Hash

open Conc Chained
open Function (update)

/-- `hashtable_t`, the nodes and bucket arrays, and what `calloc` returns next -/
structure Mem where
  node : ℕ → Node
  list : ℕ → ℕ → ℕ
  bucket : ℕ
  tableSize : ℕ
  oldBucket : ℕ
  oldTableSize : ℕ
  setSize : ℕ
  fresh : ℕ
  arrays : ℕ

inductive Fault where
  | null
  | endless
  | wrap
deriving DecidableEq, Repr

abbrev nx (m : Mem) (a : ℕ) : ℕ := (m.node a).next

abbrev ky (m : Mem) (a : ℕ) : ℤ := (m.node a).key

abbrev vl (m : Mem) (a : ℕ) : ℤ := (m.node a).value

def setNext (m : Mem) (a p : ℕ) : Mem := { m with node := update m.node a { m.node a with next := p } }

/-- `create_node` -/
def createNode (m : Mem) (key val : ℤ) : Mem :=
  { m with node := update m.node m.fresh ⟨key, val, NULL⟩, fresh := m.fresh + 1 }

/-- `init_bucket`: a new array of n buckets, each with a zeroed head -/
def initBucket (m : Mem) (n : ℕ) : Mem :=
  { m with
    node := fun a => if m.fresh ≤ a ∧ a < m.fresh + n then ⟨0, 0, NULL⟩ else m.node a
    list := update m.list m.arrays fun b => m.fresh + b
    bucket := m.arrays
    fresh := m.fresh + n
    arrays := m.arrays + 1 }

/-- `init_hashtable` -/
def initHashtable (n : ℕ) : Mem :=
  initBucket ⟨fun _ => ⟨0, 0, NULL⟩, fun _ _ => NULL, 0, n, 0, 0, 0, 1, 0⟩ n

/-! ## Lists -/

/-- `add_node_op` on the list of head -/
def addNodeOp (m : Mem) (head newNode : ℕ) : Except Fault (Mem × Bool) :=
  if nx m head = NULL then .ok (setNext (setNext m head newNode) newNode NULL, true)
  else
    match Chain.seek (nx m) (ky m) (ky m newNode) m.fresh head with
    | none => .error .endless
    | some (pred, curr) =>
      if curr = NULL ∨ ky m newNode ≠ ky m curr then .ok (setNext (setNext m newNode curr) pred newNode, true)
      else .ok (m, false)

/-- `add_node` -/
def addNode (m : Mem) (head : ℕ) (key val : ℤ) : Except Fault (Mem × Bool) :=
  addNodeOp (createNode m key val) head m.fresh

/-- `delete_node`, with the value it writes to *getval -/
def deleteNode (m : Mem) (head : ℕ) (key : ℤ) : Except Fault (Mem × Option ℤ) :=
  if nx m head = NULL then .ok (m, none)
  else
    match Chain.seek (nx m) (ky m) key m.fresh head with
    | none => .error .endless
    | some (pred, curr) =>
      if curr = NULL then .error .null
      else if key = ky m curr then .ok (setNext m pred (nx m curr), some (vl m curr))
      else .ok (m, none)

/-- `find_node` -/
def findNode (m : Mem) (head : ℕ) (key : ℤ) : Except Fault Bool :=
  if nx m head = NULL then .ok false
  else
    match Chain.seek (nx m) (ky m) key m.fresh head with
    | none => .error .endless
    | some (_, curr) => .ok (decide ¬ (curr = NULL ∨ key ≠ ky m curr))

/-! ## The table -/

/-- the `while` loop of `resize`: the nodes of an old list, whose head is pred, go to the buckets of their keys -/
def moveList (m : Mem) (pred : ℕ) : ℕ → Except Fault Mem
  | 0 => .error .endless
  | f + 1 =>
    if nx m pred = NULL then .ok m
    else
      match addNodeOp (setNext m pred (nx m (nx m pred))) (m.list m.bucket (hashCode (ky m (nx m pred)) m.tableSize))
          (nx m pred) with
      | .error e => .error e
      | .ok (m', _) => moveList m' pred f

/-- the `for` loop of `resize`, from list i on, with n lists to go -/
def moveLists (m : Mem) (i : ℕ) : ℕ → Except Fault Mem
  | 0 => .ok m
  | n + 1 =>
    match moveList m (m.list m.oldBucket i) m.fresh with
    | .error e => .error e
    | .ok m' => moveLists m' (i + 1) n

/-- `resize` -/
def resize (m : Mem) : Except Fault Mem :=
  if m.tableSize * 2 < 2 ^ 32 then
    moveLists { initBucket { m with oldTableSize := m.tableSize, oldBucket := m.bucket } (m.tableSize * 2) with
      tableSize := m.tableSize * 2 } 0 m.tableSize
  else .error .wrap

/-- `add` -/
def add (m : Mem) (key val : ℤ) : Except Fault (Mem × Bool) :=
  match addNode m (m.list m.bucket (hashCode key m.tableSize)) key val with
  | .error e => .error e
  | .ok (m1, ret) =>
    let m2 := if ret then { m1 with setSize := (m1.setSize + 1) % 2 ^ 64 } else m1
    if policy m2.setSize m2.tableSize then
      match resize m2 with
      | .error e => .error e
      | .ok m3 => .ok (m3, ret)
    else .ok (m2, ret)

/-- `delete` -/
def delete (m : Mem) (key : ℤ) : Except Fault (Mem × Option ℤ) :=
  match deleteNode m (m.list m.bucket (hashCode key m.tableSize)) key with
  | .error e => .error e
  | .ok (m1, none) => .ok (m1, none)
  | .ok (m1, some v) => .ok ({ m1 with setSize := (m1.setSize + 2 ^ 64 - 1) % 2 ^ 64 }, some v)

/-- `find` -/
def find (m : Mem) (key : ℤ) : Except Fault Bool := findNode m (m.list m.bucket (hashCode key m.tableSize)) key

/-- one call -/
def call (m : Mem) : Op → Except Fault (Mem × Res)
  | .add k v => (add m k v).map fun x => (x.1, .add x.2)
  | .delete k => (delete m k).map fun x => (x.1, .delete x.2)
  | .find k => (find m k).map fun r => (m, .find r)

/-- a sequence of calls, with their results -/
abbrev run (m : Mem) (ops : List Op) : Except Fault (Mem × List Res) := runCalls call m ops

/-! ## What is observed -/

/-- the nodes of bucket b, from its head on -/
def nodes (m : Mem) (b : ℕ) : List ℕ := Resting.listNodes (nx m) m.fresh (m.list m.bucket) b

/-- all nodes, bucket by bucket -/
def allNodes (m : Mem) : List ℕ := Resting.tableNodes (nx m) m.fresh (m.list m.bucket) m.tableSize

/-- every bucket ends with NULL, is strictly sorted and holds the keys that hash to it, `setSize` is the number of nodes, and
there are less than five nodes per bucket -/
structure WellFormed (m : Mem) : Prop where
  linked : ∀ b < m.tableSize, (m.list m.bucket b :: (nodes m b ++ [NULL])).IsChain fun x y => nx m x = y
  sorted : ∀ b < m.tableSize, (nodes m b).Pairwise fun x y => ky m x < ky m y
  placed : ∀ b < m.tableSize, ∀ a ∈ nodes m b, ky m a % m.tableSize = b
  count : m.setSize = (allNodes m).length
  load : m.setSize < 5 * m.tableSize

end AlgorithmCollection.Hash
