/-
Model of `hash/RefinableHash.c`, the chained table whose buckets each have a mutex of their own, as a system of threads.

The mutex of bucket b is reached through `ht->bucket[b].mtx` every time it is locked or unlocked. `resize` locks the
mutexes of all buckets, makes a new bucket array of twice the size whose lower half points to the SAME mutexes as the old
array, moves the nodes, unlocks the lower half, and then `free_bucket` destroys the mutexes of the old array.

Atomic steps: every load and store of a field of the table, of a bucket or of a node, and every operation on a mutex. A
lock that is taken blocks (the step changes nothing). `lock(ht->bucket[b].mtx)` is three steps: the load of `ht->bucket`,
the load of the pointer in that array, the lock. The head of a bucket and the link of that head are read in one step, and
`create_node` fills memory no other thread can reach in one step. Bucket arrays are named by numbers; an array and the
nodes keep their contents when they are released. Allocation succeeds, and a `resize` that would make `table_size` wrap
around does not go on. `delete_node` reads `curr->key` even when curr is NULL; that is read as "not found". What the code
does with a mutex that is not initialised or is destroyed is undefined: the model stops the thread there.

The number mx (a list ms in `resize`) is a history variable of the thread: the mutexes it has locked. No step reads it.
-/
import AlgorithmCollection.Hash.Chained
import AlgorithmCollection.Conc.Threads

namespace AlgorithmCollection.RefinableHash

open Conc Chained
open Function (update)

/-- `init_hashtable(table_size)` -/
structure Params where
  tableSize : ℕ
  pos : 0 < tableSize
  lt : tableSize < 2 ^ 32

/-- a `pthread_mutex_t`: zeroed memory, initialised (and who holds it), or destroyed -/
inductive Mutex where
  | raw
  | live (owner : Option ℕ)
  | destroyed
deriving DecidableEq, Repr

/-- `list_t` -/
structure Bucket where
  head : ℕ
  mtx : ℕ
deriving DecidableEq, Repr

/-- `hashtable_t`, the nodes, bucket arrays and mutexes, and what `calloc` returns next for each -/
structure Mem where
  node : ℕ → Node
  list : ℕ → ℕ → Bucket
  mutex : ℕ → Mutex
  bucket : ℕ
  tableSize : ℕ
  oldBucket : ℕ
  oldTableSize : ℕ
  setSize : ℕ
  fresh : ℕ
  arrays : ℕ
  mutexes : ℕ

/-- the calls with a retry loop -/
inductive Upd where
  | add (key val : ℤ)
  | delete (key : ℤ)
deriving DecidableEq, Repr

def Upd.key : Upd → ℤ
  | .add k _ | .delete k => k

/-- an `add` that has left its loop with this result -/
structure Call where
  key : ℤ
  val : ℤ
  ret : Bool
deriving DecidableEq, Repr

/-- an update that has left its loop -/
inductive Done where
  | add (c : Call)
  | delete (key : ℤ) (ret : Option ℤ)
deriving DecidableEq, Repr

def Done.key : Done → ℤ
  | .add c => c.key
  | .delete k _ => k

/-- the loop ends without success -/
def Upd.fail : Upd → Done
  | .add k v => .add ⟨k, v, false⟩
  | .delete k => .delete k none

/-- the caller of `add_node_op`: `add` with a new node, or `resize` with a node of old bucket i, whose head is pred -/
inductive Ins where
  | add (key val : ℤ) (retry newNode mx : ℕ)
  | move (c : Call) (i pred curr : ℕ) (ms : List ℕ)
deriving DecidableEq, Repr

def Ins.newNode : Ins → ℕ
  | .add _ _ _ n _ => n
  | .move _ _ _ n _ => n

/-- the caller of a walk along a bucket -/
inductive Cont where
  | ins (c : Ins)
  | delete (key : ℤ) (retry mx : ℕ)
  | find (key : ℤ) (mx : ℕ)
deriving DecidableEq, Repr

/-- the caller of `lock` -/
inductive LockFor where
  | upd (u : Upd) (retry size : ℕ)
  | find (key : ℤ)
  | resize (c : Call) (size : ℕ) (ms : List ℕ)
deriving DecidableEq, Repr

/-- the caller of `unlock` -/
inductive UnlockFor where
  | done (d : Done) (mx : ℕ)
  | retry (u : Upd) (retry mx : ℕ)
  | find (key : ℤ) (ret : Bool) (mx : ℕ)
  | quit (c : Call) (size : ℕ) (ms : List ℕ)
  | resize (c : Call) (ms : List ℕ)
deriving DecidableEq, Repr

inductive Loc where
  | idle
  | ret (op : Op) (r : Res)
  | size (u : Upd) (retry : ℕ)                              -- table_size = ht->table_size
  | hash (u : Upd) (retry size : ℕ)                         -- myBucket = hashCode(key, ht)
  | findHash (key : ℤ)                                      -- myBucket = hashCode(key, ht)
  | lock1 (w : LockFor) (b : ℕ)                             -- ht->bucket
  | lock2 (w : LockFor) (b A : ℕ)                           -- ht->bucket[b].mtx
  | lock3 (w : LockFor) (b p : ℕ)                           -- lock(ht->bucket[b].mtx)
  | unlock1 (w : UnlockFor) (b : ℕ)                         -- ht->bucket
  | unlock2 (w : UnlockFor) (b A : ℕ)                       -- ht->bucket[b].mtx
  | unlock3 (w : UnlockFor) (b p : ℕ)                       -- unlock(ht->bucket[b].mtx)
  | recheck (u : Upd) (retry size b mx : ℕ)                 -- if (table_size == ht->table_size)
  | create (key val : ℤ) (retry b mx : ℕ)                   -- newNode = create_node(key, val)
  | first (c : Cont) (b : ℕ)                                -- pred = l->head; curr = pred->next
  | addEmpty1 (c : Ins) (b head : ℕ)                        -- l->head->next = newNode
  | addEmpty2 (c : Ins) (b : ℕ)                             -- newNode->next = NULL
  | test (c : Cont) (b pred curr : ℕ)                       -- while (curr != NULL && curr->key < key)
  | next (c : Cont) (b pred : ℕ)                            -- pred = curr; curr = curr->next
  | check (c : Cont) (b pred curr : ℕ)                      -- the test for the key after the loop
  | link1 (c : Ins) (b pred curr : ℕ)                       -- newNode->next = curr
  | link2 (c : Ins) (b pred : ℕ)                            -- pred->next = newNode
  | del1 (key : ℤ) (b pred curr mx : ℕ)                     -- *getval = curr->value
  | del2 (key : ℤ) (b pred curr : ℕ) (val : ℤ) (mx : ℕ)     -- curr->next
  | del3 (key : ℤ) (b pred : ℕ) (val : ℤ) (succ mx : ℕ)     -- pred->next = curr->next
  | count1 (d : Done) (b mx : ℕ)                            -- ht->setSize++ or --, the load
  | count2 (d : Done) (b setSize mx : ℕ)                    -- ht->setSize++ or --, the store
  | policy1 (c : Call)                                      -- ht->setSize
  | policy2 (c : Call) (setSize : ℕ)                        -- (int) (ht->setSize / ht->table_size) > 4
  | rSize (c : Call)                                        -- table_size = ht->table_size
  | rLock (c : Call) (size i : ℕ) (ms : List ℕ)             -- for (i = 0; i < table_size; i++) lock(..)
  | rCheck (c : Call) (size : ℕ) (ms : List ℕ)              -- if (table_size != ht->table_size)
  | rQuit (c : Call) (size i : ℕ) (ms : List ℕ)             -- for (i = 0; i < table_size; i++) unlock(..); return
  | rOld1 (c : Call) (ms : List ℕ)                          -- ht->old_table_size = ht->table_size
  | rOld2 (c : Call) (ms : List ℕ)                          -- ht->old_bucket = ht->bucket
  | rInit (c : Call) (ms : List ℕ)                          -- init_bucket(ht, ht->table_size, ht->table_size * 2)
  | rHead (c : Call) (old new i : ℕ) (ms : List ℕ)          -- for (i = 0; i < new_table_size; i++) l->head = calloc(..)
  | rMtx (c : Call) (old new i : ℕ) (ms : List ℕ)           -- l->mtx = calloc(..)
  | rShare (c : Call) (old new i : ℕ) (ms : List ℕ)         -- ht->bucket[i].mtx = ht->old_bucket[i].mtx, or mutex_init
  | rDouble (c : Call) (ms : List ℕ)                        -- ht->table_size *= 2
  | rList (c : Call) (i : ℕ) (ms : List ℕ)                  -- l = &ht->old_bucket[i]; pred = l->head; curr = pred->next
  | rTest (c : Call) (i pred curr : ℕ) (ms : List ℕ)        -- while (curr != NULL)
  | rTake1 (c : Call) (i pred curr : ℕ) (ms : List ℕ)       -- curr->next
  | rTake2 (c : Call) (i pred curr succ : ℕ) (ms : List ℕ)  -- pred->next = curr->next
  | rHash (c : Call) (i pred curr : ℕ) (ms : List ℕ)        -- myBucket = hashCode(curr->key, ht)
  | rNext (c : Call) (i pred : ℕ) (ms : List ℕ)             -- curr = pred->next
  | rUnlock (c : Call) (i : ℕ) (ms : List ℕ)                -- for (i = 0; i < ht->old_table_size; i++) unlock(..)
  | rFree (c : Call) (A n i : ℕ)                            -- for (i = 0; i < table_size; i++) destroy(bucket[i].mtx)
deriving DecidableEq, Repr

abbrev Act := Conc.Act Op

/-! ## Memory -/

def setNext (m : Mem) (a p : ℕ) : Mem := { m with node := update m.node a { m.node a with next := p } }

def setMutex (m : Mem) (p : ℕ) (x : Mutex) : Mem := { m with mutex := update m.mutex p x }

def setBucket (m : Mem) (A b : ℕ) (x : Bucket) : Mem :=
  { m with list := update m.list A (update (m.list A) b x) }

/-- `create_node` -/
def createNode (m : Mem) (key val : ℤ) : Mem :=
  { m with node := update m.node m.fresh ⟨key, val, NULL⟩, fresh := m.fresh + 1 }

/-- `init_hashtable`: array 0 with a zeroed head and an initialised mutex for each bucket -/
def initHashtable (P : Params) : Mem where
  node := fun _ => ⟨0, 0, NULL⟩
  list := fun A b => if A = 0 ∧ b < P.tableSize then ⟨b + 1, b + 1⟩ else ⟨NULL, NULL⟩
  mutex := fun p => if 0 < p ∧ p ≤ P.tableSize then .live none else .raw
  bucket := 0
  tableSize := P.tableSize
  oldBucket := 0
  oldTableSize := 0
  setSize := 0
  fresh := P.tableSize + 1
  arrays := 1
  mutexes := P.tableSize + 1

/-- `ht->bucket[b].mtx` -/
def mtxOf (m : Mem) (b : ℕ) : ℕ := (m.list m.bucket b).mtx

/-- `list_init(&ht->bucket[i])`, the head -/
def initHead (m : Mem) (i : ℕ) : Mem :=
  { setBucket m m.bucket i { m.list m.bucket i with head := m.fresh } with
    node := update m.node m.fresh ⟨0, 0, NULL⟩, fresh := m.fresh + 1 }

/-- `list_init(&ht->bucket[i])`, the memory of the mutex -/
def initMtx (m : Mem) (i : ℕ) : Mem :=
  { setBucket m m.bucket i { m.list m.bucket i with mtx := m.mutexes } with
    mutex := update m.mutex m.mutexes .raw, mutexes := m.mutexes + 1 }

/-- `init_bucket`, the mutex of bucket i: that of the old bucket i if there is one, or its own, which is initialised -/
def shareMtx (m : Mem) (old i : ℕ) : Mem :=
  if i < old then setBucket m m.bucket i { m.list m.bucket i with mtx := (m.list m.oldBucket i).mtx }
  else setMutex m (mtxOf m i) (.live none)

/-! ## The steps of the functions -/

/-- the key a walk compares with: `newNode->key`, or the argument -/
def Cont.key (m : Mem) : Cont → ℤ
  | .ins c => (m.node c.newNode).key
  | .delete k _ _ => k
  | .find k _ => k

/-- after its loop, `add` goes on with `policy` and `delete` returns -/
def Done.next : Done → Loc
  | .add c => .policy1 c
  | .delete k r => .ret (.delete k) (.delete r)

def Call.next (c : Call) : Loc := .ret (.add c.key c.val) (.add c.ret)

/-- after mutex p of bucket b has been locked -/
def LockFor.next (b p : ℕ) : LockFor → Loc
  | .upd u retry size => .recheck u retry size b p
  | .find k => .first (.find k p) b
  | .resize c size ms => .rLock c size (b + 1) (ms ++ [p])

/-- after the mutex of bucket b has been unlocked -/
def UnlockFor.next (b : ℕ) : UnlockFor → Loc
  | .done d _ => d.next
  | .retry u n _ => if 0 < n then .size u (n - 1) else u.fail.next
  | .find k r _ => .ret (.find k) (.find r)
  | .quit c size ms => .rQuit c size (b + 1) ms
  | .resize c ms => .rUnlock c (b + 1) ms

/-- `add_node_op` returns true -/
def Ins.ok (b : ℕ) : Ins → Loc
  | .add k v _ _ mx => .count1 (.add ⟨k, v, true⟩) b mx
  | .move c i pred _ ms => .rNext c i pred ms

/-- `add_node_op` returns false; `resize` does not look at the result -/
def Ins.fail (b : ℕ) : Ins → Loc
  | .add k v retry _ mx => .unlock1 (.retry (.add k v) retry mx) b
  | .move c i pred _ ms => .rNext c i pred ms

/-- the first node of the bucket has been read -/
def afterFirst (c : Cont) (b head curr : ℕ) : Loc :=
  if curr = NULL then
    match c with
    | .ins c => .addEmpty1 c b head
    | .delete k retry mx => .unlock1 (.retry (.delete k) retry mx) b
    | .find k mx => .unlock1 (.find k false mx) b
  else .test c b head curr

/-- the end of the walk, where `found` says that curr has the key -/
def afterCheck (c : Cont) (b pred curr : ℕ) (found : Bool) : Loc :=
  match c, found with
  | .ins c, false => .link1 c b pred curr
  | .ins c, true => c.fail b
  | .delete k _ mx, true => .del1 k b pred curr mx
  | .delete k retry mx, false => .unlock1 (.retry (.delete k) retry mx) b
  | .find k mx, found => .unlock1 (.find k found mx) b

/-- `ht->setSize++` after `add`, `ht->setSize--` after `delete`, of an unsigned long -/
def Done.count (n : ℕ) : Done → ℕ
  | .add _ => (n + 1) % 2 ^ 64
  | .delete _ _ => (n + 2 ^ 64 - 1) % 2 ^ 64

/-- `pthread_mutex_lock(p)` by thread t at l, going on at l' -/
def lock (t : ℕ) (m : Mem) (p : ℕ) (l l' : Loc) : Mem × Loc :=
  if m.mutex p = .live none then (setMutex m p (.live (some t)), l') else (m, l)

/-- `pthread_mutex_unlock(p)` -/
def unlock (m : Mem) (p : ℕ) (l l' : Loc) : Mem × Loc :=
  match m.mutex p with
  | .live _ => (setMutex m p (.live none), l')
  | _ => (m, l)

/-- the atomic step of thread t at each point of its program -/
def exec (t : ℕ) (m : Mem) : Loc → Mem × Loc
  | .idle => (m, .idle)
  | .ret op r => (m, .ret op r)
  | .size u retry => (m, .hash u retry m.tableSize)
  | .hash u retry size => (m, .lock1 (.upd u retry size) (hashCode u.key m.tableSize))
  | .findHash k => (m, .lock1 (.find k) (hashCode k m.tableSize))
  | .lock1 w b => (m, .lock2 w b m.bucket)
  | .lock2 w b A => (m, .lock3 w b (m.list A b).mtx)
  | .lock3 w b p => lock t m p (.lock3 w b p) (w.next b p)
  | .unlock1 w b => (m, .unlock2 w b m.bucket)
  | .unlock2 w b A => (m, .unlock3 w b (m.list A b).mtx)
  | .unlock3 w b p => unlock m p (.unlock3 w b p) (w.next b)
  | .recheck u retry size b mx =>
    if size = m.tableSize then
      match u with
      | .add k v => (m, .create k v retry b mx)
      | .delete k => (m, .first (.delete k retry mx) b)
    else (m, .unlock1 (.retry u retry mx) b)
  | .create k v retry b mx => (createNode m k v, .first (.ins (.add k v retry m.fresh mx)) b)
  | .first c b => (m, afterFirst c b (m.list m.bucket b).head (m.node (m.list m.bucket b).head).next)
  | .addEmpty1 c b head => (setNext m head c.newNode, .addEmpty2 c b)
  | .addEmpty2 c b => (setNext m c.newNode NULL, c.ok b)
  | .test c b pred curr =>
    if curr ≠ NULL ∧ (m.node curr).key < c.key m then (m, .next c b curr) else (m, .check c b pred curr)
  | .next c b pred => (m, .test c b pred (m.node pred).next)
  | .check c b pred curr => (m, afterCheck c b pred curr (decide (curr ≠ NULL ∧ c.key m = (m.node curr).key)))
  | .link1 c b pred curr => (setNext m c.newNode curr, .link2 c b pred)
  | .link2 c b pred => (setNext m pred c.newNode, c.ok b)
  | .del1 k b pred curr mx => (m, .del2 k b pred curr (m.node curr).value mx)
  | .del2 k b pred curr v mx => (m, .del3 k b pred v (m.node curr).next mx)
  | .del3 k b pred v succ mx => (setNext m pred succ, .count1 (.delete k (some v)) b mx)
  | .count1 d b mx => (m, .count2 d b m.setSize mx)
  | .count2 d b n mx => ({ m with setSize := d.count n }, .unlock1 (.done d mx) b)
  | .policy1 c => (m, .policy2 c m.setSize)
  | .policy2 c n => (m, if policy n m.tableSize then .rSize c else c.next)
  | .rSize c => (m, .rLock c m.tableSize 0 [])
  | .rLock c size i ms => (m, if i < size then .lock1 (.resize c size ms) i else .rCheck c size ms)
  | .rCheck c size ms => (m, if size ≠ m.tableSize then .rQuit c size 0 ms else .rOld1 c ms)
  | .rQuit c size i ms => (m, if i < size then .unlock1 (.quit c size ms) i else c.next)
  | .rOld1 c ms => ({ m with oldTableSize := m.tableSize }, .rOld2 c ms)
  | .rOld2 c ms => ({ m with oldBucket := m.bucket }, .rInit c ms)
  | .rInit c ms =>
    if m.tableSize * 2 < 2 ^ 32 then
      ({ m with bucket := m.arrays, arrays := m.arrays + 1, list := update m.list m.arrays fun _ => ⟨NULL, NULL⟩ },
        .rHead c m.tableSize (m.tableSize * 2) 0 ms)
    else (m, .rInit c ms)
  | .rHead c old new i ms => if i < new then (initHead m i, .rMtx c old new i ms) else (m, .rDouble c ms)
  | .rMtx c old new i ms => (initMtx m i, .rShare c old new i ms)
  | .rShare c old new i ms => (shareMtx m old i, .rHead c old new (i + 1) ms)
  | .rDouble c ms => ({ m with tableSize := m.tableSize * 2 }, .rList c 0 ms)
  | .rList c i ms =>
    if i < m.oldTableSize then
      (m, .rTest c i (m.list m.oldBucket i).head (m.node (m.list m.oldBucket i).head).next ms)
    else (m, .rUnlock c 0 ms)
  | .rTest c i pred curr ms => (m, if curr ≠ NULL then .rTake1 c i pred curr ms else .rList c (i + 1) ms)
  | .rTake1 c i pred curr ms => (m, .rTake2 c i pred curr (m.node curr).next ms)
  | .rTake2 c i pred curr succ ms => (setNext m pred succ, .rHash c i pred curr ms)
  | .rHash c i pred curr ms => (m, .first (.ins (.move c i pred curr ms)) (hashCode (m.node curr).key m.tableSize))
  | .rNext c i pred ms => (m, .rTest c i pred (m.node pred).next ms)
  | .rUnlock c i ms =>
    (m, if i < m.oldTableSize then .unlock1 (.resize c ms) i else .rFree c m.oldBucket m.oldTableSize 0)
  | .rFree c A n i =>
    if i < n then (setMutex m (m.list A i).mtx .destroyed, .rFree c A n (i + 1)) else (m, c.next)

/-- the first point of a call -/
def start : Op → Loc
  | .add k v => .size (.add k v) 2
  | .delete k => .size (.delete k) 2
  | .find k => .findHash k

/-- the thread is in no call -/
def outside : Loc → Bool
  | .idle | .ret _ _ => true
  | _ => false

def step (t : ℕ) (m : Mem) (l : Loc) : Act → Mem × Loc
  | .invoke op => (m, if outside l then start op else l)
  | .step => exec t m l

def sys (P : Params) : Sys Mem Loc Act := ⟨initHashtable P, .idle, step⟩

/-! ## What is observed -/

/-- the mutexes the caller of `unlock` has locked and the place among them of the one it is about to unlock -/
def UnlockFor.locked (b : ℕ) : UnlockFor → List ℕ × ℕ
  | .done _ mx | .retry _ _ mx | .find _ _ mx => ([mx], 0)
  | .quit _ _ ms | .resize _ ms => (ms, b)

/-- p points to a mutex that is initialised and not destroyed -/
def Live (m : Mem) (p : ℕ) : Prop := p ≠ NULL ∧ ∃ o, m.mutex p = .live o

/-- a thread about to lock has a pointer to a live mutex; one about to unlock has the pointer to the mutex it locked, which
is live -/
structure Sound (m : Mem) (l : Loc) : Prop where
  lock : ∀ w b p, l = .lock3 w b p → Live m p
  unlock : ∀ w b p, l = .unlock3 w b p → Live m p ∧ (w.locked b).1[(w.locked b).2]? = some p

end AlgorithmCollection.RefinableHash
