/-
Model of `hash/ConcurrentCuckooHash.c`, two tables of unsorted lists with an array of mutexes each, as a system of threads.

A key has a list in each table. `add` puts a node at the tail of a list of fewer than `threshold` nodes, or else of fewer
than `probe_size` nodes; after that it releases its mutexes and calls `relocate`, which moves nodes from the front of the
list to the other list of their key, for eight rounds at most. If both lists are full `add` releases its mutexes, doubles
the tables and calls itself; the result of this call is dropped. `relocate` looks for its node without any mutex, with the
table number and index that `add` computed before.

Atomic steps: every operation on a mutex; every load that `relocate` makes without a mutex (`ht->table[i][hi]`, the first
node of that list and its key, `ht->table_size`); each of the two halves of the locked part of `relocate` (`delete_node`,
and the choice of the list with `add_node_atTail`); the locked part of `add`, `delete` and `contains`; the part of `resize`
between `aLock` and `aUnLock`. What is accessed in a locked part is not changed by other threads meanwhile, and each of these
steps but that of `resize` makes one write that the loads without a mutex can see. `resize` makes several, all with every
mutex held.

A node and a list are addresses, and a list has the address of its head node. Nodes keep their contents when they are
freed, and are not used again. `relocate` loads the first node, then its key for `lock_key`, and its key again for `hj`; here
they are one load. Both differ from the code only if another thread takes nodes from that list meanwhile (without
`Undisturbed`): then the node may be freed, and its key be anything. A thread that follows NULL, that walks along a cyclic
list, that calls `exit`, or whose `resize` would make `table_size` wrap around, stops there (`Fault`). Allocation succeeds.
`probe_size`, `threshold` and `mtx_size` do not change after `init_hashtable`.

`returned` is a history variable: the calls that have returned, with their threads and results. No step reads it.
-/
import AlgorithmCollection.Conc.Threads
import AlgorithmCollection.Conc.TailList

namespace AlgorithmCollection.ConcurrentCuckooHash

open Conc

/-- the literals of `Fin 2`, the numbers of the two tables -/
scoped instance two_ne_zero : NeZero 2 := ⟨by decide⟩

def NULL : ℕ := 0

def CH_DEFAULT_MAX_SIZE : ℕ := 16

def LIMIT : ℕ := 8

/-- `init_hashtable(size, probe_size, threshold)` -/
structure Params where
  size : ℕ
  probeSize : ℤ
  threshold : ℤ

/-- `ht->mtx_size`, which is also the first `table_size` -/
def Params.mtxSize (P : Params) : ℕ := 2 ^ min P.size CH_DEFAULT_MAX_SIZE

/-- `node_t` -/
structure Node where
  key : ℤ
  value : ℤ
  next : ℕ
deriving DecidableEq, Repr

/-- the calls on a table -/
inductive Op where
  | add (key val : ℤ)
  | delete (key : ℤ)
  | contains (key : ℤ)
deriving DecidableEq, Repr

def Op.key : Op → ℤ
  | .add k _ | .delete k | .contains k => k

/-- their results; `delete` returns true with the value it writes to *getval, or false -/
inductive Res where
  | add (ret : Bool)
  | delete (ret : Option ℤ)
  | contains (ret : Bool)
deriving DecidableEq, Repr

/-- why a thread stops: it follows NULL, walks along a cycle, calls `exit`, or `table_size` wraps around -/
inductive Fault where
  | null
  | cycle
  | exit
  | wrap
deriving DecidableEq, Repr

/-- `hashtable_t`, the lists and nodes, the holders of the mutexes, and what `calloc` returns next -/
structure Mem where
  node : ℕ → Node
  size : ℕ → ℤ
  table : Fin 2 → ℕ → ℕ
  tableSize : ℕ
  setSize : ℕ
  mtx : Fin 2 → ℕ → Option ℕ
  fresh : ℕ
  returned : List (ℕ × Op × Res)

def nx (m : Mem) (a : ℕ) : ℕ := (m.node a).next

def ky (m : Mem) (a : ℕ) : ℤ := (m.node a).key

def vl (m : Mem) (a : ℕ) : ℤ := (m.node a).value

/-- `hashCode0` -/
def hashCode0 (key : ℤ) : ℕ := (key * 65699 % 2 ^ 64).toNat

/-- `hashCode1` -/
def hashCode1 (key : ℤ) : ℕ := (key * 65701 % 2 ^ 64).toNat

/-- the hash code for table i -/
def hashCode (i : Fin 2) (key : ℤ) : ℕ := if i = 0 then hashCode0 key else hashCode1 key

/-! ## Lists -/

def setNext (m : Mem) (a p : ℕ) : Mem := { m with node := Function.update m.node a { m.node a with next := p } }

/-- `ht->setSize++` of an unsigned long -/
def incSize (m : Mem) : Mem := { m with setSize := (m.setSize + 1) % 2 ^ 64 }

/-- `ht->setSize--` -/
def decSize (m : Mem) : Mem := { m with setSize := (m.setSize + 2 ^ 64 - 1) % 2 ^ 64 }

/-- `add_node_atTail`, and `setSize++` that follows every call -/
def addNodeAtTail (m : Mem) (l newNode : ℕ) : Except Fault Mem :=
  match lastNode (nx m) m.fresh l with
  | none => .error .cycle
  | some curr =>
    .ok (incSize { setNext (setNext m curr newNode) newNode NULL with size := Function.update m.size l (m.size l + 1) })

/-- `create_node`, at address `fresh` -/
def createNode (m : Mem) (key val : ℤ) : Mem :=
  { m with node := Function.update m.node m.fresh ⟨key, val, NULL⟩, fresh := m.fresh + 1 }

/-- `delete_node`, with the node it returns; where the key is not in the list, curr is NULL and `curr->next` is read -/
def deleteNode (m : Mem) (l : ℕ) (key : ℤ) : Except Fault (Mem × ℕ) :=
  match seekNode (nx m) (fun a => ky m a = key) m.fresh l with
  | none => .error .cycle
  | some (_, 0) => .error .null
  | some (pred, curr) =>
    .ok ({ setNext m pred (nx m curr) with size := Function.update m.size l (m.size l - 1) }, curr)

/-- `search_list` -/
def searchList (m : Mem) (l : ℕ) (key : ℤ) : Except Fault Bool :=
  if 0 < m.size l then
    match seekNode (nx m) (fun a => ky m a = key) m.fresh l with
    | none => .error .cycle
    | some (_, curr) => .ok (decide (curr ≠ NULL))
  else .ok false

/-- the bucket of a key in table i -/
def bucket (m : Mem) (i : Fin 2) (key : ℤ) : ℕ := hashCode i key % m.tableSize

/-- `get_list` -/
def getList (m : Mem) (i : Fin 2) (key : ℤ) : ℕ := m.table i (bucket m i key)

/-! ## The table -/

/-- `init_tables(ht, n)` -/
def initTables (m : Mem) (n : ℕ) : Mem :=
  { m with
    node := fun a => if m.fresh ≤ a ∧ a < m.fresh + 2 * n then ⟨0, 0, NULL⟩ else m.node a
    size := fun a => if m.fresh ≤ a ∧ a < m.fresh + 2 * n then 0 else m.size a
    table := fun i b => m.fresh + 2 * b + i
    fresh := m.fresh + 2 * n }

/-- `init_hashtable` -/
def initHashtable (P : Params) : Mem :=
  initTables ⟨fun _ => ⟨0, 0, NULL⟩, fun _ => 0, fun _ _ => NULL, P.mtxSize, 0, fun _ _ => none, 1, []⟩ P.mtxSize

/-- where `add` and `resize` put a node, given the sizes of its two lists: the table, and whether its list has no fewer than
`threshold` nodes already -/
def choose (P : Params) (size0 size1 : ℤ) : Option (Fin 2 × Bool) :=
  if size0 < P.threshold then some (0, false)
  else if size1 < P.threshold then some (1, false)
  else if size0 < P.probeSize then some (0, true)
  else if size1 < P.probeSize then some (1, true)
  else none

/-- `choose` for a key -/
def chooseList (P : Params) (m : Mem) (key : ℤ) : Option (Fin 2 × Bool) :=
  choose P (m.size (getList m 0 key)) (m.size (getList m 1 key))

/-- the body of the innermost loop of `resize` -/
def reinsert (P : Params) (m : Mem) (node : ℕ) : Except Fault Mem :=
  match chooseList P m (ky m node) with
  | some (i, _) => addNodeAtTail m (getList m i (ky m node)) node
  | none => .error .exit

/-- the innermost loop of `resize`, for n nodes at most -/
def moveNodes (P : Params) : ℕ → Mem → ℕ → Except Fault Mem
  | 0, _, _ => .error .cycle
  | n + 1, m, node =>
    if node = NULL then .ok m
    else
      match reinsert P m node with
      | .error f => .error f
      | .ok m' => moveNodes P n m' (nx m node)

/-- the body of the loops of `resize` over the old lists -/
def moveList (P : Params) (m : Mem) (oldList : ℕ) : Except Fault Mem :=
  if 0 < m.size oldList then moveNodes P m.fresh m (nx m oldList) else .ok m

def moveLists (P : Params) : Mem → List ℕ → Except Fault Mem
  | m, [] => .ok m
  | m, l :: ls =>
    match moveList P m l with
    | .error f => .error f
    | .ok m' => moveLists P m' ls

/-- the old lists in the order of the loops of `resize` -/
def oldLists (m : Mem) : List ℕ := (List.finRange 2).flatMap fun i => (List.range m.tableSize).map (m.table i)

/-- `resize` between `aLock` and `aUnLock` -/
def resize (P : Params) (m : Mem) : Except Fault Mem :=
  if m.tableSize * 2 < 2 ^ 32 then
    moveLists P { initTables m (m.tableSize * 2) with tableSize := m.tableSize * 2 } (oldLists m)
  else .error .wrap

/-- `contains_op` -/
def containsOp (m : Mem) (key : ℤ) : Except Fault Bool :=
  match searchList m (getList m 0 key) key with
  | .error f => .error f
  | .ok true => .ok true
  | .ok false => searchList m (getList m 1 key) key

/-! ## Threads -/

/-- the variables of a round of `relocate` -/
structure Move where
  i : Fin 2
  hi : ℕ
  round : ℕ
  iSet : ℕ
  lockKey : ℤ
  hj : ℕ
deriving DecidableEq, Repr

/-- the caller of `acquire`: a call (`nested` if it is the `add` at the end of an `add`), or a round of `relocate` -/
inductive Job where
  | call (nested : Bool)
  | move (x : Move)
deriving DecidableEq, Repr

/-- what follows a `resize`: `add` returns true, or calls itself first -/
inductive Then where
  | done
  | again
deriving DecidableEq, Repr

/-- what follows a `release` -/
inductive Cont where
  | ret (r : Res)
  | relocate (i : Fin 2) (hi round : ℕ)
  | resize (k : Then)
deriving DecidableEq, Repr

inductive Pc where
  | idle
  | ret (r : Res)
  | fault (f : Fault)
  | acquire0 (j : Job)                                    -- pthread_mutex_lock(&ht->mtx[0][i])
  | acquire1 (j : Job)                                    -- pthread_mutex_lock(&ht->mtx[1][j])
  | work (nested : Bool)                                  -- the locked part of a call
  | take (x : Move)                                       -- y = delete_node(iSet, lock_key)
  | put (x : Move) (jSet y : ℕ)                           -- the choice of the list, add_node_atTail
  | release0 (key : ℤ) (k : Cont)                         -- pthread_mutex_unlock(&ht->mtx[0][i])
  | release1 (key : ℤ) (k : Cont)                         -- pthread_mutex_unlock(&ht->mtx[1][j])
  | table (i : Fin 2) (hi round : ℕ)                      -- iSet = ht->table[i][hi]
  | head (i : Fin 2) (hi round iSet : ℕ)                  -- y = get_head_node(iSet); lock_key = y->key
  | bucket (i : Fin 2) (hi round iSet : ℕ) (lockKey : ℤ)  -- hj = .. % ht->table_size
  | aLock (p : ℕ) (k : Then)                              -- pthread_mutex_lock(&ht->mtx[p % 2][p / 2])
  | resize (k : Then)
  | aUnLock (p : ℕ) (k : Then)                            -- pthread_mutex_unlock(&ht->mtx[1 - p % 2][p / 2])
deriving DecidableEq, Repr

/-- the call of a thread with its arguments, and where the thread is -/
structure Loc where
  op : Op
  pc : Pc
deriving DecidableEq, Repr

abbrev Act := Conc.Act Op

/-- the mutex of a key in `mtx[i]` -/
def stripe (P : Params) (i : Fin 2) (key : ℤ) : ℕ := hashCode i key % P.mtxSize

/-- mutex number p of `aLock` -/
def lockAt (p : ℕ) : Fin 2 × ℕ := (if p % 2 = 0 then 0 else 1, p / 2)

/-- mutex number p of `aUnLock` -/
def unlockAt (p : ℕ) : Fin 2 × ℕ := (if p % 2 = 0 then 1 else 0, p / 2)

def setMtx (m : Mem) (i : Fin 2) (b : ℕ) (o : Option ℕ) : Mem :=
  { m with mtx := Function.update m.mtx i (Function.update (m.mtx i) b o) }

/-- the key of `acquire` -/
def Job.key (op : Op) : Job → ℤ
  | .call _ => op.key
  | .move x => x.lockKey

/-- after both mutexes are taken -/
def Job.next : Job → Pc
  | .call nested => .work nested
  | .move x => .take x

/-- the call returns -/
def finish (t : ℕ) (m : Mem) (op : Op) (r : Res) : Mem × Pc :=
  ({ m with returned := m.returned ++ [(t, op, r)] }, .ret r)

/-- after `release` -/
def Cont.next (t : ℕ) (m : Mem) (op : Op) : Cont → Mem × Pc
  | .ret r => finish t m op r
  | .relocate i hi round => (m, .table i hi round)
  | .resize k => (m, .aLock 0 k)

/-- after `resize` -/
def Then.next (t : ℕ) (m : Mem) (op : Op) : Then → Mem × Pc
  | .done => finish t m op (.add true)
  | .again => (m, .acquire0 (.call true))

/-- `add` between `acquire` and `release`; the outer `add` returns true whatever a nested one returns -/
def addWork (P : Params) (m : Mem) (key val : ℤ) (nested : Bool) : Except Fault (Mem × Cont) :=
  match containsOp m key with
  | .error f => .error f
  | .ok true => .ok (m, .ret (.add nested))
  | .ok false =>
    let m1 := createNode m key val
    match chooseList P m1 key with
    | none => .ok (m1, .resize .again)
    | some (i, probing) =>
      match addNodeAtTail m1 (getList m1 i key) m.fresh with
      | .error f => .error f
      | .ok m2 => .ok (m2, if probing then .relocate i (bucket m1 i key) 0 else .ret (.add true))

/-- `delete_node` in `delete`, with the value and `setSize--` -/
def deleteFrom (m : Mem) (l : ℕ) (key : ℤ) : Except Fault (Mem × Cont) :=
  match deleteNode m l key with
  | .error f => .error f
  | .ok (m', node) =>
    .ok (decSize m', .ret (.delete (some (vl m node))))

/-- `delete` between `acquire` and `release` -/
def deleteWork (m : Mem) (key : ℤ) : Except Fault (Mem × Cont) :=
  match searchList m (getList m 0 key) key with
  | .error f => .error f
  | .ok true => deleteFrom m (getList m 0 key) key
  | .ok false =>
    match searchList m (getList m 1 key) key with
    | .error f => .error f
    | .ok true => deleteFrom m (getList m 1 key) key
    | .ok false => .ok (m, .ret (.delete none))

/-- `contains` between `acquire` and `release` -/
def containsWork (m : Mem) (key : ℤ) : Except Fault (Mem × Cont) :=
  match containsOp m key with
  | .error f => .error f
  | .ok b => .ok (m, .ret (.contains b))

/-- the locked part of a call -/
def work (P : Params) (m : Mem) (nested : Bool) : Op → Except Fault (Mem × Cont)
  | .add k v => addWork P m k v nested
  | .delete k => deleteWork m k
  | .contains k => containsWork m k

/-- `relocate` after `delete_node` has returned y -/
def putWork (P : Params) (m : Mem) (x : Move) (jSet y : ℕ) : Except Fault (Mem × Cont) :=
  if m.size jSet < P.threshold then
    match addNodeAtTail m jSet y with
    | .error f => .error f
    | .ok m' => .ok (m', .ret (.add true))
  else if m.size jSet < P.probeSize then
    match addNodeAtTail m jSet y with
    | .error f => .error f
    | .ok m' => .ok (m', if x.round + 1 < LIMIT then .relocate (1 - x.i) x.hj (x.round + 1) else .resize .done)
  else
    match addNodeAtTail m x.iSet y with
    | .error f => .error f
    | .ok m' => .ok (m', .resize .done)

/-- the end of a locked part -/
def locked (key : ℤ) (m : Mem) : Except Fault (Mem × Cont) → Mem × Pc
  | .error f => (m, .fault f)
  | .ok (m', k) => (m', .release0 key k)

/-- `pthread_mutex_lock(&ht->mtx[i][b])` by thread t at l, going on at l' -/
def lock (t : ℕ) (m : Mem) (i : Fin 2) (b : ℕ) (l l' : Pc) : Mem × Pc :=
  if m.mtx i b = none then (setMtx m i b (some t), l') else (m, l)

/-- the atomic step of thread t in call op at each point of its program -/
def exec (P : Params) (t : ℕ) (m : Mem) (op : Op) : Pc → Mem × Pc
  | .idle => (m, .idle)
  | .ret r => (m, .ret r)
  | .fault f => (m, .fault f)
  | .acquire0 j => lock t m 0 (stripe P 0 (j.key op)) (.acquire0 j) (.acquire1 j)
  | .acquire1 j => lock t m 1 (stripe P 1 (j.key op)) (.acquire1 j) j.next
  | .work nested => locked op.key m (work P m nested op)
  | .take x =>
    match deleteNode m x.iSet x.lockKey with
    | .error f => (m, .fault f)
    | .ok (m', y) => (m', .put x (m.table (1 - x.i) x.hj) y)
  | .put x jSet y => locked x.lockKey m (putWork P m x jSet y)
  | .release0 key k => (setMtx m 0 (stripe P 0 key) none, .release1 key k)
  | .release1 key k => k.next t (setMtx m 1 (stripe P 1 key) none) op
  | .table i hi round => (m, .head i hi round (m.table i hi))
  | .head i hi round iSet =>
    if nx m iSet = NULL then (m, .fault .null) else (m, .bucket i hi round iSet (ky m (nx m iSet)))
  | .bucket i hi round iSet lockKey =>
    (m, .acquire0 (.move ⟨i, hi, round, iSet, lockKey, bucket m (1 - i) lockKey⟩))
  | .aLock p k =>
    lock t m (lockAt p).1 (lockAt p).2 (.aLock p k) (if p + 1 < 2 * P.mtxSize then .aLock (p + 1) k else .resize k)
  | .resize k =>
    match resize P m with
    | .error f => (m, .fault f)
    | .ok m' => (m', .aUnLock 0 k)
  | .aUnLock p k =>
    let m' := setMtx m (unlockAt p).1 (unlockAt p).2 none
    if p + 1 < 2 * P.mtxSize then (m', .aUnLock (p + 1) k) else k.next t m' op

/-- the thread is in no call -/
def outside : Pc → Bool
  | .idle | .ret _ => true
  | _ => false

def step (P : Params) (t : ℕ) (m : Mem) (l : Loc) : Act → Mem × Loc
  | .invoke op => (m, if outside l.pc then ⟨op, .acquire0 (.call false)⟩ else l)
  | .step => ((exec P t m l.op l.pc).1, ⟨l.op, (exec P t m l.op l.pc).2⟩)

def sys (P : Params) : Sys Mem Loc Act := ⟨initHashtable P, ⟨.contains 0, .idle⟩, step P⟩

end AlgorithmCollection.ConcurrentCuckooHash
