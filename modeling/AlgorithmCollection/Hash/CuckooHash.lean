/-
`CuckooHash`: two tables of slots, `src/hash/CuckooHash.c`.

`get_node` takes table 0 for the number 0 and table 1 for every other number. `add` and `resize` pass 1 and 2 to
`swap_node`, so both of its calls work on table 1 and table 0 is never written: the model keeps the numbers as the source
passes them. `setSize` is an unsigned long and `table_size` an unsigned int; `resize` ends with the fault `wrap`
when `table_size * 2` does not fit. The products in the hash codes wrap around; where key * 271 does not overflow (`IsKey`),
the hash codes are remainders of natural numbers and index slots of the tables, and the results are about such keys. The
mutex is held during each call, and allocation succeeds.
-/
import AlgorithmCollection.Hash.OpenAddressHash

namespace AlgorithmCollection.CuckooHash

open Conc
open Function (update)
open Chained (Op Res long)
open OpenAddressHash (Stat Node occ)

/-- `hashtable_t`; `table no i` is slot i of table no -/
structure Table where
  setSize : ℕ
  table : ℕ → ℕ → Node
  tableSize : ℕ
  oldTable : ℕ → ℕ → Node
  oldTableSize : ℕ

/-- `table_size * 2` wrapped around -/
inductive Fault where
  | wrap
deriving DecidableEq, Repr

/-- `hashCode0` -/
def hashCode0 (key : ℤ) (tableSize : ℕ) : ℕ := Chained.hashCode (long (key * 269)) tableSize

/-- `hashCode1` -/
def hashCode1 (key : ℤ) (tableSize : ℕ) : ℕ := Chained.hashCode (long (key * 271)) tableSize

/-- a key whose products do not overflow -/
def IsKey (key : ℤ) : Prop := 0 ≤ key ∧ key * 271 < 2 ^ 63

instance IsKey.decidable (key : ℤ) : Decidable (IsKey key) := by unfold IsKey; infer_instance

/-- `get_node`, the place of the node: table and slot -/
def getNode (ht : Table) (no : ℕ) (key : ℤ) : ℕ × ℕ :=
  if no = 0 then (0, hashCode0 key ht.tableSize) else (1, hashCode1 key ht.tableSize)

/-- `set_node` -/
def setNode (ht : Table) (p : ℕ × ℕ) (node : Node) : Table :=
  { ht with table := update ht.table p.1 (update (ht.table p.1) p.2 node) }

/-- `swap_node`, with the node it writes to *next -/
def swapNode (ht : Table) (no : ℕ) (node : Node) : Table × Node × Bool :=
  let p := getNode ht no node.key
  let next := ht.table p.1 p.2
  (setNode ht p ⟨node.key, node.value, .OCC⟩, next, decide (next.stat ≠ .OCC))

def incSize (ht : Table) : Table := { ht with setSize := (ht.setSize + 1) % 2 ^ 64 }

/-- the inner loop of `add` and of `resize`, with n rounds to go; it ends with the node in hand and ret -/
def swapRounds (ht : Table) (node : Node) : ℕ → Table × Node × Bool
  | 0 => (ht, node, false)
  | n + 1 =>
    match swapNode ht 1 node with
    | (ht1, _, true) => (incSize ht1, node, true)
    | (ht1, tmp, false) =>
      match swapNode ht1 2 tmp with
      | (ht2, node2, true) => (incSize ht2, node2, true)
      | (ht2, node2, false) => swapRounds ht2 node2 n

/-- `init_tables` -/
def initTables (ht : Table) : Table := { ht with table := fun _ _ => ⟨0, 0, .EMP⟩, setSize := 0 }

def CH_DEFAULT_MAX_SIZE : ℕ := 10

/-- `init_hashtable` -/
def initHashtable (size : ℕ) : Table :=
  let s := if CH_DEFAULT_MAX_SIZE ≤ size then CH_DEFAULT_MAX_SIZE else size
  initTables ⟨0, fun _ _ => ⟨0, 0, .EMP⟩, 2 ^ s, fun _ _ => ⟨0, 0, .EMP⟩, 0⟩

/-- the body of the loops of `resize` over the old slots -/
def reinsert (ht : Table) (p : ℕ × ℕ) : Table :=
  let old := ht.oldTable p.1 p.2
  if old.stat = .OCC then (swapRounds ht ⟨old.key, old.value, .OCC⟩ ht.tableSize).1 else ht

/-- `resize` up to its loops -/
def doubled (ht : Table) : Table :=
  { initTables { ht with oldTableSize := ht.tableSize, oldTable := ht.table } with tableSize := ht.tableSize * 2 }

/-- `resize` -/
def resize (ht : Table) : Except Fault Table :=
  if ht.tableSize * 2 < 2 ^ 32 then
    .ok (((List.range 2).flatMap fun i => (List.range ht.tableSize).map fun j => (i, j)).foldl reinsert (doubled ht))
  else .error .wrap

/-- `find_op` -/
def findOp (ht : Table) (key : ℤ) : Bool :=
  (List.range 2).any fun i =>
    let p := getNode ht i key
    (ht.table p.1 p.2).stat = .OCC ∧ (ht.table p.1 p.2).key = key

/-- `add` from `retry:` on, with the remaining tries -/
def addTry (ht : Table) (node : Node) : ℕ → Except Fault (Table × Bool)
  | 0 =>
    match swapRounds ht node ht.tableSize with
    | (ht1, _, ret) => .ok (ht1, ret)
  | try' + 1 =>
    match swapRounds ht node ht.tableSize with
    | (ht1, _, true) => .ok (ht1, true)
    | (ht1, node1, false) =>
      match resize ht1 with
      | .error e => .error e
      | .ok ht2 => addTry ht2 node1 try'

/-- `add` -/
def add (ht : Table) (key val : ℤ) : Except Fault (Table × Bool) :=
  if findOp ht key then .ok (ht, false) else addTry ht ⟨key, val, .OCC⟩ 10

/-- `del_op` -/
def delOp (ht : Table) (p : ℕ × ℕ) : Table :=
  { setNode ht p ⟨0, 0, .DEL⟩ with setSize := (ht.setSize + 2 ^ 64 - 1) % 2 ^ 64 }

/-- `delete`, with the value it writes to *getval -/
def delete (ht : Table) (key : ℤ) : Table × Option ℤ :=
  match (List.range 2).find? fun i =>
      let p := getNode ht i key
      (ht.table p.1 p.2).key = key ∧ (ht.table p.1 p.2).stat = .OCC with
  | none => (ht, none)
  | some i => (delOp ht (getNode ht i key), some (ht.table (getNode ht i key).1 (getNode ht i key).2).value)

/-- `find` -/
def find (ht : Table) (key : ℤ) : Bool := findOp ht key

/-- one call -/
def call (ht : Table) : Op → Except Fault (Table × Res)
  | .add k v => (add ht k v).map fun x => (x.1, .add x.2)
  | .delete k => .ok ((delete ht k).1, .delete (delete ht k).2)
  | .find k => .ok (ht, .find (find ht k))

/-- a sequence of calls, with their results -/
abbrev run (ht : Table) (ops : List Op) : Except Fault (Table × List Res) := runCalls call ht ops

/-! ## What is observed -/

/-- slot i of table no holds the key with the value -/
def Stored (ht : Table) (key val : ℤ) : Prop :=
  ∃ no < 2, ∃ i < ht.tableSize, ht.table no i = ⟨key, val, .OCC⟩

/-- no key occupies two slots -/
def NoTwice (ht : Table) : Prop :=
  ∀ no < 2, ∀ i < ht.tableSize, ∀ no' < 2, ∀ i' < ht.tableSize, (ht.table no i).stat = .OCC → (ht.table no' i').stat = .OCC →
    (ht.table no i).key = (ht.table no' i').key → no = no' ∧ i = i'

/-- `setSize` is the number of occupied slots over both tables -/
def Counted (ht : Table) : Prop :=
  ht.setSize = (Slots.used occ (ht.table 0) ht.tableSize).card + (Slots.used occ (ht.table 1) ht.tableSize).card

/-- the table as a map: what a call may return, and what it does to the map. An `add` may fail, and then it changes nothing. -/
inductive MapStep : (ℤ → Option ℤ) → Op → Res → (ℤ → Option ℤ) → Prop
  | add {M k v} (h : M k = none) : MapStep M (.add k v) (.add true) (update M k (some v))
  | notAdded {M k v} : MapStep M (.add k v) (.add false) M
  | deleted {M k v} (h : M k = some v) : MapStep M (.delete k) (.delete (some v)) (update M k none)
  | notDeleted {M k} (h : M k = none) : MapStep M (.delete k) (.delete none) M
  | find {M k} : MapStep M (.find k) (.find (M k).isSome) M

/-- a sequence of calls on the map -/
inductive MapRun : (ℤ → Option ℤ) → List Op → List Res → (ℤ → Option ℤ) → Prop
  | nil {M} : MapRun M [] [] M
  | cons {M M' M'' op ops r rs} (h : MapStep M op r M') (t : MapRun M' ops rs M'') : MapRun M (op :: ops) (r :: rs) M''

end AlgorithmCollection.CuckooHash
