/-
Model of `hash/StripedHash.c`, the chained table with one lock per stripe, as a system of threads.

There are `lock_size` mutexes, as many as the table had buckets at first; bucket b is protected by mutex b % lock_size, and
the table doubles while the mutexes stay. `add` and `delete` compute their bucket before they have its lock, and look
again at `ht->table_size` under the lock; `resize` takes all locks, replaces the bucket array and moves every node.
`add_node_op` is called both by `add`, with a new node, and by `resize`, with a node of the old array (`Ins`); the
walk along a bucket is the same for all operations (`Cont`).

Atomic steps: every lock and unlock, and every load and store of a field of a node or of the table. A lock that is taken
blocks (the step changes nothing). The head of a bucket and the link of that head are read in one step, and
`init_bucket` and `create_node` fill memory no other thread can reach and are one step each. Bucket arrays are named by
numbers, `list A b` is the head of bucket b of array A. Allocation succeeds, and a `resize` that would make `table_size` wrap
around does not go on. Memory that is released keeps its contents and is not used again; `frees` says which steps call
`free_bucket`, and with what. `delete_node` reads `curr->key` even when curr is NULL; that is read as "not found".

`hist` is a history variable: the pairs linked by `add` and the keys unlinked by `delete` so far. No step reads it.
-/
import AlgorithmCollection.Hash.Chained
import AlgorithmCollection.Conc.Linearizable

namespace AlgorithmCollection.StripedHash

open Conc Chained
open Function (update update_self update_of_ne)

/-- `init_hashtable(table_size)`, which is also the number of locks -/
structure Params where
  lockSize : ℕ
  pos : 0 < lockSize
  lt : lockSize < 2 ^ 32

/-- what `add` and `delete` do to the table -/
inductive Ev where
  | link (key val : ℤ)
  | unlink (key : ℤ)
deriving DecidableEq, Repr

/-- `hashtable_t`, the nodes and bucket arrays, the thread holding each mutex, and what `calloc` returns next -/
structure Mem where
  node : ℕ → Node
  list : ℕ → ℕ → ℕ
  bucket : ℕ
  tableSize : ℕ
  oldBucket : ℕ
  oldTableSize : ℕ
  setSize : ℕ
  mtx : ℕ → Option ℕ
  fresh : ℕ
  arrays : ℕ
  hist : List Ev

/-- the calls with a retry loop -/
inductive Upd where
  | add (key val : ℤ)
  | delete (key : ℤ)
deriving DecidableEq, Repr

def Upd.op : Upd → Op
  | .add k v => .add k v
  | .delete k => .delete k

/-- an `add` that has left its loop with this result -/
structure Call where
  key : ℤ
  val : ℤ
  ret : Bool
deriving DecidableEq, Repr

/-- an update that has left its loop -/
inductive Done where
  | add (c : Call)
  | delete (key : ℤ) (ret : Option ℤ)
deriving DecidableEq, Repr

def Done.op : Done → Op
  | .add c => .add c.key c.val
  | .delete k _ => .delete k

def Done.res : Done → Res
  | .add c => .add c.ret
  | .delete _ r => .delete r

/-- the loop ends without success -/
def Upd.fail : Upd → Done
  | .add k v => .add ⟨k, v, false⟩
  | .delete k => .delete k none

/-- the caller of `add_node_op`: `add` with a new node, or `resize` with a node of old bucket i, whose head is pred -/
inductive Ins where
  | add (key val : ℤ) (retry newNode : ℕ)
  | move (c : Call) (i pred curr : ℕ)
deriving DecidableEq, Repr

def Ins.newNode : Ins → ℕ
  | .add _ _ _ n => n
  | .move _ _ _ n => n

/-- the caller of a walk along a bucket -/
inductive Cont where
  | ins (c : Ins)
  | delete (key : ℤ) (retry : ℕ)
  | find (key : ℤ)
deriving DecidableEq, Repr

inductive Loc where
  | idle
  | ret (op : Op) (r : Res)
  | size (u : Upd) (retry : ℕ)                             -- table_size = ht->table_size
  | hash (u : Upd) (retry size : ℕ)                        -- myBucket = hashCode(key, ht)
  | lockB (u : Upd) (retry size b : ℕ)                     -- lock(ht, myBucket)
  | recheck (u : Upd) (retry size b : ℕ)                   -- if (table_size == ht->table_size)
  | create (key val : ℤ) (retry b : ℕ)                     -- newNode = create_node(key, val)
  | findHash (key : ℤ)                                     -- myBucket = hashCode(key, ht)
  | findLock (key : ℤ) (b : ℕ)                             -- lock(ht, myBucket)
  | first (c : Cont) (b : ℕ)                               -- pred = l->head; curr = pred->next
  | addEmpty1 (c : Ins) (b head : ℕ)                       -- l->head->next = newNode
  | addEmpty2 (c : Ins) (b : ℕ)                            -- newNode->next = NULL
  | test (c : Cont) (b pred curr : ℕ)                      -- while (curr != NULL && curr->key < key)
  | next (c : Cont) (b pred : ℕ)                           -- pred = curr; curr = curr->next
  | check (c : Cont) (b pred curr : ℕ)                     -- the test for the key after the loop
  | link1 (c : Ins) (b pred curr : ℕ)                      -- newNode->next = curr
  | link2 (c : Ins) (b pred curr : ℕ)                      -- pred->next = newNode
  | del1 (key : ℤ) (b pred curr : ℕ)                       -- *getval = curr->value
  | del2 (key : ℤ) (b pred curr : ℕ) (val : ℤ)             -- curr->next
  | del3 (key : ℤ) (b pred curr : ℕ) (val : ℤ) (succ : ℕ)  -- pred->next = curr->next
  | count1 (d : Done) (b : ℕ)                              -- ht->setSize++ or --, the load
  | count2 (d : Done) (b setSize : ℕ)                      -- ht->setSize++ or --, the store
  | unlockOk (d : Done) (b : ℕ)                            -- unlock(ht, myBucket); break
  | unlockRetry (u : Upd) (retry b : ℕ)                    -- unlock(ht, myBucket); while (retry-- > 0)
  | findUnlock (key : ℤ) (b : ℕ) (ret : Bool)              -- unlock(ht, myBucket)
  | policy1 (c : Call)                                     -- ht->setSize
  | policy2 (c : Call) (setSize : ℕ)                       -- (int) (ht->setSize / ht->table_size) > 4
  | rSize (c : Call)                                       -- table_size = ht->table_size
  | rLock (c : Call) (size i : ℕ)                          -- for (i = 0; i < ht->lock_size; i++) lock(ht, i)
  | rCheck (c : Call) (size : ℕ)                           -- if (table_size != ht->table_size)
  | rOld1 (c : Call)                                       -- ht->old_table_size = ht->table_size
  | rOld2 (c : Call)                                       -- ht->old_bucket = ht->bucket
  | rInit (c : Call)                                       -- init_bucket(ht, ht->table_size * 2)
  | rDouble (c : Call)                                     -- ht->table_size *= 2
  | rList (c : Call) (i : ℕ)                               -- l = &ht->old_bucket[i]; pred = l->head; curr = pred->next
  | rTest (c : Call) (i pred curr : ℕ)                     -- while (curr != NULL)
  | rTake1 (c : Call) (i pred curr : ℕ)                    -- curr->next
  | rTake2 (c : Call) (i pred curr succ : ℕ)               -- pred->next = curr->next
  | rHash (c : Call) (i pred curr : ℕ)                     -- myBucket = hashCode(curr->key, ht)
  | rNext (c : Call) (i pred : ℕ)                          -- curr = pred->next
  | rQuit (c : Call) (i : ℕ)                               -- for (i = 0; ..) unlock(ht, i); return
  | rUnlock (c : Call) (i : ℕ)                             -- for (i = 0; i < ht->lock_size; i++) unlock(ht, i)
  | rFree1 (c : Call)                                      -- ht->old_bucket
  | rFree2 (c : Call) (A : ℕ)                              -- free_bucket(ht->old_bucket, ht->old_table_size)
deriving DecidableEq, Repr

abbrev Act := Conc.Act Op

/-! ## Memory -/

def setNext (m : Mem) (a p : ℕ) : Mem := { m with node := update m.node a { m.node a with next := p } }

def setMtx (m : Mem) (i : ℕ) (o : Option ℕ) : Mem := { m with mtx := update m.mtx i o }

def addHist (m : Mem) (e : Ev) : Mem := { m with hist := m.hist ++ [e] }

/-- `create_node` -/
def createNode (m : Mem) (key val : ℤ) : Mem :=
  { m with node := update m.node m.fresh ⟨key, val, NULL⟩, fresh := m.fresh + 1 }

/-- `init_bucket`: a new array of n buckets, each with a zeroed head -/
def initBucket (m : Mem) (n : ℕ) : Mem :=
  { m with
    node := fun a => if m.fresh ≤ a ∧ a < m.fresh + n then ⟨0, 0, NULL⟩ else m.node a
    list := update m.list m.arrays fun b => m.fresh + b
    bucket := m.arrays
    fresh := m.fresh + n
    arrays := m.arrays + 1 }

/-- `init_hashtable` -/
def initHashtable (P : Params) : Mem :=
  initBucket ⟨fun _ => ⟨0, 0, NULL⟩, fun _ _ => NULL, 0, P.lockSize, 0, 0, 0, fun _ => none, 1, 0, []⟩ P.lockSize

/-- `lockKey` -/
def lockKey (P : Params) (hashkey : ℕ) : ℕ := hashkey % P.lockSize

/-- `lock(ht, hashkey)` by thread t at l, going on at l' -/
def lock (P : Params) (t : ℕ) (m : Mem) (hashkey : ℕ) (l l' : Loc) : Mem × Loc :=
  if m.mtx (lockKey P hashkey) = none then (setMtx m (lockKey P hashkey) (some t), l') else (m, l)

/-- `unlock(ht, hashkey)` -/
def unlock (P : Params) (m : Mem) (hashkey : ℕ) : Mem := setMtx m (lockKey P hashkey) none

/-! ## The steps of the functions -/

/-- the key a walk compares with: `newNode->key`, or the argument -/
def Cont.key (m : Mem) : Cont → ℤ
  | .ins c => (m.node c.newNode).key
  | .delete k _ => k
  | .find k => k

/-- after its loop, `add` goes on with `policy` and `delete` returns -/
def Done.next : Done → Loc
  | .add c => .policy1 c
  | .delete k r => .ret (.delete k) (.delete r)

/-- `add_node_op` returns true -/
def Ins.ok (b : ℕ) : Ins → Loc
  | .add k v _ _ => .count1 (.add ⟨k, v, true⟩) b
  | .move c i pred _ => .rNext c i pred

/-- `add_node_op` returns false; `resize` does not look at the result -/
def Ins.fail (b : ℕ) : Ins → Loc
  | .add k v retry _ => .unlockRetry (.add k v) retry b
  | .move c i pred _ => .rNext c i pred

/-- the store that links the node of `add` is recorded -/
def Ins.record (m : Mem) : Ins → Mem
  | .add k v _ _ => addHist m (.link k v)
  | .move _ _ _ _ => m

/-- the first node of the bucket has been read -/
def afterFirst (c : Cont) (b head curr : ℕ) : Loc :=
  if curr = NULL then
    match c with
    | .ins c => .addEmpty1 c b head
    | .delete k retry => .unlockRetry (.delete k) retry b
    | .find k => .findUnlock k b false
  else .test c b head curr

/-- the end of the walk, where `found` says that curr has the key -/
def afterCheck (c : Cont) (b pred curr : ℕ) (found : Bool) : Loc :=
  match c, found with
  | .ins c, false => .link1 c b pred curr
  | .ins c, true => c.fail b
  | .delete k _, true => .del1 k b pred curr
  | .delete k retry, false => .unlockRetry (.delete k) retry b
  | .find k, found => .findUnlock k b found

/-- `ht->setSize++` after `add`, `ht->setSize--` after `delete`, of an unsigned long -/
def Done.count (n : ℕ) : Done → ℕ
  | .add _ => (n + 1) % 2 ^ 64
  | .delete _ _ => (n + 2 ^ 64 - 1) % 2 ^ 64

/-- the atomic step of thread t at each point of its program -/
def exec (P : Params) (t : ℕ) (m : Mem) : Loc → Mem × Loc
  | .idle => (m, .idle)
  | .ret op r => (m, .ret op r)
  | .size u retry => (m, .hash u retry m.tableSize)
  | .hash u retry size => (m, .lockB u retry size (hashCode u.op.key m.tableSize))
  | .lockB u retry size b => lock P t m b (.lockB u retry size b) (.recheck u retry size b)
  | .recheck u retry size b =>
    if size = m.tableSize then
      match u with
      | .add k v => (m, .create k v retry b)
      | .delete k => (m, .first (.delete k retry) b)
    else (m, .unlockRetry u retry b)
  | .create k v retry b => (createNode m k v, .first (.ins (.add k v retry m.fresh)) b)
  | .findHash k => (m, .findLock k (hashCode k m.tableSize))
  | .findLock k b => lock P t m b (.findLock k b) (.first (.find k) b)
  | .first c b => (m, afterFirst c b (m.list m.bucket b) (m.node (m.list m.bucket b)).next)
  | .addEmpty1 c b head => (c.record (setNext m head c.newNode), .addEmpty2 c b)
  | .addEmpty2 c b => (setNext m c.newNode NULL, c.ok b)
  | .test c b pred curr =>
    if curr ≠ NULL ∧ (m.node curr).key < c.key m then (m, .next c b curr) else (m, .check c b pred curr)
  | .next c b pred => (m, .test c b pred (m.node pred).next)
  | .check c b pred curr => (m, afterCheck c b pred curr (decide (curr ≠ NULL ∧ c.key m = (m.node curr).key)))
  | .link1 c b pred curr => (setNext m c.newNode curr, .link2 c b pred curr)
  | .link2 c b pred _ => (c.record (setNext m pred c.newNode), c.ok b)
  | .del1 k b pred curr => (m, .del2 k b pred curr (m.node curr).value)
  | .del2 k b pred curr v => (m, .del3 k b pred curr v (m.node curr).next)
  | .del3 k b pred _ v succ => (addHist (setNext m pred succ) (.unlink k), .count1 (.delete k (some v)) b)
  | .count1 d b => (m, .count2 d b m.setSize)
  | .count2 d b n => ({ m with setSize := d.count n }, .unlockOk d b)
  | .unlockOk d b => (unlock P m b, d.next)
  | .unlockRetry u retry b => (unlock P m b, if 0 < retry then .size u (retry - 1) else u.fail.next)
  | .findUnlock k b r => (unlock P m b, .ret (.find k) (.find r))
  | .policy1 c => (m, .policy2 c m.setSize)
  | .policy2 c n => (m, if policy n m.tableSize then .rSize c else .ret (.add c.key c.val) (.add c.ret))
  | .rSize c => (m, .rLock c m.tableSize 0)
  | .rLock c size i => if i < P.lockSize then lock P t m i (.rLock c size i) (.rLock c size (i + 1)) else (m, .rCheck c size)
  | .rCheck c size => (m, if size ≠ m.tableSize then .rQuit c 0 else .rOld1 c)
  | .rOld1 c => ({ m with oldTableSize := m.tableSize }, .rOld2 c)
  | .rOld2 c => ({ m with oldBucket := m.bucket }, .rInit c)
  | .rInit c => if m.tableSize * 2 < 2 ^ 32 then (initBucket m (m.tableSize * 2), .rDouble c) else (m, .rInit c)
  | .rDouble c => ({ m with tableSize := m.tableSize * 2 }, .rList c 0)
  | .rList c i =>
    if i < m.oldTableSize then (m, .rTest c i (m.list m.oldBucket i) (m.node (m.list m.oldBucket i)).next)
    else (m, .rUnlock c 0)
  | .rTest c i pred curr => (m, if curr ≠ NULL then .rTake1 c i pred curr else .rList c (i + 1))
  | .rTake1 c i pred curr => (m, .rTake2 c i pred curr (m.node curr).next)
  | .rTake2 c i pred curr succ => (setNext m pred succ, .rHash c i pred curr)
  | .rHash c i pred curr => (m, .first (.ins (.move c i pred curr)) (hashCode (m.node curr).key m.tableSize))
  | .rNext c i pred => (m, .rTest c i pred (m.node pred).next)
  | .rQuit c i =>
    if i < P.lockSize then (unlock P m i, .rQuit c (i + 1)) else (m, .ret (.add c.key c.val) (.add c.ret))
  | .rUnlock c i => if i < P.lockSize then (unlock P m i, .rUnlock c (i + 1)) else (m, .rFree1 c)
  | .rFree1 c => (m, .rFree2 c m.oldBucket)
  | .rFree2 c _ => (m, .ret (.add c.key c.val) (.add c.ret))

/-- the first point of a call -/
def start : Op → Loc
  | .add k v => .size (.add k v) 2
  | .delete k => .size (.delete k) 2
  | .find k => .findHash k

/-- a call starts when the thread is in none, on a non-negative key -/
def canInvoke (l : Loc) (op : Op) : Bool :=
  match l with
  | .idle | .ret _ _ => decide (0 ≤ op.key)
  | _ => false

def step (P : Params) (t : ℕ) (m : Mem) (l : Loc) : Act → Mem × Loc
  | .invoke op => if canInvoke l op then (m, start op) else (m, l)
  | .step => exec P t m l

def sys (P : Params) : Sys Mem Loc Act := ⟨initHashtable P, .idle, step P⟩

/-- the call of `free_bucket` that a step is: the array and the number of its buckets -/
def frees (m : Mem) (l : Loc) (a : Act) : Option (ℕ × ℕ) :=
  match a, l with
  | .step, .rFree2 _ A => some (A, m.oldTableSize)
  | _, _ => none

/-! ## What is observed -/

/-- the nodes of bucket b, from its head on -/
def nodes (m : Mem) (b : ℕ) : List ℕ :=
  walk (fun a => (m.node a).next) (fun a => a = NULL) m.fresh (m.node (m.list m.bucket b)).next

/-- the map the recorded links and unlinks make -/
def replay (h : List Ev) : ℤ → Option ℤ :=
  h.foldl (fun M e => match e with
    | .link k v => update M k (some v)
    | .unlink k => update M k none) fun _ => none

theorem replay_snoc_link (h : List Ev) (k v : ℤ) :
    replay (h ++ [.link k v]) = update (replay h) k (some v) := by
  unfold replay; rw [List.foldl_append]; rfl

theorem replay_snoc_unlink (h : List Ev) (k : ℤ) : replay (h ++ [.unlink k]) = update (replay h) k none := by
  unfold replay; rw [List.foldl_append]; rfl

/-- a key that was never linked is not in the table -/
theorem replay_eq_none {h : List Ev} {k : ℤ} (hk : ∀ v, Ev.link k v ∉ h) : replay h k = none := by
  induction h using List.reverseRecOn with
  | nil => rfl
  | append_singleton h e ih =>
    have hh := ih fun v hv => hk v (List.mem_append_left _ hv)
    cases e with
    | link k' v' =>
      have hne : k ≠ k' := fun e => hk v' (List.mem_append_right _ (by rw [e]; exact List.mem_singleton_self _))
      rw [replay_snoc_link, update_of_ne hne, hh]
    | unlink k' =>
      rw [replay_snoc_unlink]
      by_cases e : k = k'
      · rw [e, update_self]
      · rw [update_of_ne e, hh]

/-- a key that is not unlinked any more stays in the table -/
theorem replay_isSome_append {h h' : List Ev} {k : ℤ} (hk : (replay h k).isSome = true) (hn : Ev.unlink k ∉ h') :
    (replay (h ++ h') k).isSome = true := by
  induction h' using List.reverseRecOn with
  | nil => rwa [List.append_nil]
  | append_singleton h' e ih =>
    have hh := ih fun he => hn (List.mem_append_left _ he)
    rw [← List.append_assoc]
    cases e with
    | link k' v' =>
      rw [replay_snoc_link]
      by_cases e : k = k'
      · rw [e, update_self]; rfl
      · rwa [update_of_ne e]
    | unlink k' =>
      have hne : k ≠ k' := fun e => hn (List.mem_append_right _ (by rw [e]; exact List.mem_singleton_self _))
      rwa [replay_snoc_unlink, update_of_ne hne]

def Ins.moves : Ins → Bool
  | .add _ _ _ _ => false
  | .move _ _ _ _ => true

def Cont.moves : Cont → Bool
  | .ins c => c.moves
  | _ => false

/-- the thread is between the first change that `resize` makes to the table and its last one -/
def resizing : Loc → Bool
  | .first c _ | .test c _ _ _ | .next c _ _ | .check c _ _ _ => c.moves
  | .addEmpty1 c _ _ | .addEmpty2 c _ | .link1 c _ _ _ | .link2 c _ _ _ => c.moves
  | .rDouble _ | .rList _ _ | .rTest _ _ _ _ | .rTake1 _ _ _ _ | .rTake2 _ _ _ _ _ | .rHash _ _ _ _ | .rNext _ _ _ => true
  | _ => false

def Ins.op : Ins → Op
  | .add k v _ _ => .add k v
  | .move c _ _ _ => .add c.key c.val

def Cont.op : Cont → Op
  | .ins c => c.op
  | .delete k _ => .delete k
  | .find k => .find k

def status : Loc → Status Op Res
  | .idle => .idle
  | .ret op r => .done op r
  | .size u _ | .hash u _ _ | .lockB u _ _ _ | .recheck u _ _ _ | .unlockRetry u _ _ => .busy u.op
  | .create k v _ _ => .busy (.add k v)
  | .findHash k | .findLock k _ | .findUnlock k _ _ => .busy (.find k)
  | .first c _ | .test c _ _ _ | .next c _ _ | .check c _ _ _ => .busy c.op
  | .addEmpty1 c _ _ | .addEmpty2 c _ | .link1 c _ _ _ | .link2 c _ _ _ => .busy c.op
  | .del1 k _ _ _ | .del2 k _ _ _ _ | .del3 k _ _ _ _ _ => .busy (.delete k)
  | .count1 d _ | .count2 d _ _ | .unlockOk d _ => .busy d.op
  | .policy1 c | .policy2 c _ | .rSize c | .rLock c _ _ | .rCheck c _ | .rOld1 c | .rOld2 c | .rInit c | .rDouble c
  | .rList c _ | .rTest c _ _ _ | .rTake1 c _ _ _ | .rTake2 c _ _ _ _ | .rHash c _ _ _ | .rNext c _ _ | .rQuit c _
  | .rUnlock c _ | .rFree1 c | .rFree2 c _ => .busy (.add c.key c.val)

/-- the table's promise about its contents: an `add` that returns true puts its pair in, where no pair with that key was;
a `delete` that returns true takes out the pair it reports; no other call changes anything -/
def updSpec : Op → Res → (ℤ → Option ℤ) → (ℤ → Option ℤ) → Prop
  | .add k v, .add true, M, M' => M k = none ∧ M' = update M k (some v)
  | .add _ _, .add false, M, M' => M' = M
  | .delete k, .delete (some v), M, M' => M k = some v ∧ M' = update M k none
  | .delete _, .delete none, M, M' => M' = M
  | .find _, .find _, M, M' => M' = M
  | _, _, _, _ => False

/-- the table as a concurrent object: the pairs linked by `add` and not unlinked by `delete` -/
def table : Object Mem Loc Op Res (ℤ → Option ℤ) := ⟨status, fun m => replay m.hist, updSpec⟩

theorem not_busy_cases {l : Loc} (h : ¬ table.Busy l) : l = .idle ∨ ∃ op r, l = .ret op r := by
  cases l with
  | idle => exact .inl rfl
  | ret op r => exact .inr ⟨op, r, rfl⟩
  | _ => exact absurd ⟨_, rfl⟩ h

end AlgorithmCollection.StripedHash
