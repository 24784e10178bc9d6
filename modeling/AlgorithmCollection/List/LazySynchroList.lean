/-
Model of `list/LazySynchroList.c`, the sorted list with lazy synchronization, as a system of threads.

`add` and `delete` walk without locks, lock pred and curr, and go on only if `validate` finds both unmarked and still
adjacent; else they start over. `delete` marks a node before it unlinks it. `find` takes no lock at all.

Atomic steps: every lock and unlock, and every load and store of a field of a shared node (keys and values never
change after `create_node`, so tests on them are one step with the load). A lock that is taken blocks; locking does not
fail otherwise, so the two branches for a failed lock are left out. `list->head` and `list->tail` are the constants
`head` and `tail`, with keys INT_MIN and INT_MAX. Callers use keys strictly between these two (`ValidOp`). A failed
`assert` leads to the point `aborted`. `create_node` is one step on a node no other thread can see; action `oom` is a
`calloc` that fails there. `free_node` is empty in this build.
-/
import AlgorithmCollection.Conc.Chain
import AlgorithmCollection.Conc.Linearizable
import AlgorithmCollection.Conc.MapObject

namespace AlgorithmCollection.LazySynchroList

open Conc
open Function (update)

def NULL : ℕ := 0

/-- `l->head` -/
def head : ℕ := 1

/-- `l->tail` -/
def tail : ℕ := 2

def INT_MIN : ℤ := -2147483648

def INT_MAX : ℤ := 2147483647

/-- `node_t`; the mutex is in `Mem.mtx` -/
structure Node where
  key : ℤ
  val : ℤ
  next : ℕ
  marked : Bool
deriving DecidableEq, Repr

/-- shared memory: the nodes, the thread holding each mutex, and the next address `calloc` returns -/
structure Mem where
  node : ℕ → Node
  mtx : ℕ → Option ℕ
  fresh : ℕ

abbrev Op := MapOp ℤ ℤ

abbrev Res := MapRes ℤ

/-- a key callers may use -/
def inRange (k : ℤ) : Prop := INT_MIN < k ∧ k < INT_MAX

instance (k : ℤ) : Decidable (inRange k) := inferInstanceAs (Decidable (_ ∧ _))

/-- the operations of this list: `find` only tells whether the key is there, so it is `contains` -/
def opInRange : Op → Prop
  | .add k _ | .delete k | .contains k => inRange k
  | .find _ => False

abbrev ValidOp := { op : Op // opInRange op }

/-- the updating call a thread is in, with the node `add` has created -/
inductive Ctx where
  | add (key val : ℤ) (newNode : ℕ)
  | delete (key : ℤ)
deriving DecidableEq, Repr

def Ctx.key : Ctx → ℤ
  | .add k _ _ | .delete k => k

def Ctx.op : Ctx → Op
  | .add k v _ => .add k v
  | .delete k => .delete k

/-- what follows the two unlocks: the call returns, or it starts over -/
inductive After where
  | ret (op : Op) (r : Res)
  | again (c : Ctx)
deriving DecidableEq, Repr

inductive Loc where
  | idle
  | ret (op : Op) (r : Res)
  | aborted                                              -- an assert has failed
  | create (key val : ℤ)                                 -- newNode = create_node(key, val)
  | start (c : Ctx)                                      -- pred = l->head; curr = pred->next
  | test (c : Ctx) (pred curr : ℕ)                       -- while (curr->key < key && curr != l->tail)
  | next (c : Ctx) (pred : ℕ)                            -- curr = pred->next
  | lockPred (c : Ctx) (pred curr : ℕ)                   -- lock(&pred->mtx)
  | lockCurr (c : Ctx) (pred curr : ℕ)                   -- lock(&curr->mtx)
  | recheck (c : Ctx) (pred curr : ℕ)                    -- delete: if (!(pred->key < key) || !(key <= curr->key))
  | assert (c : Ctx) (pred curr : ℕ)                     -- assert ((pred->key < key) && (key <= curr->key))
  | valid1 (c : Ctx) (pred curr : ℕ)                     -- validate: !pred->marked
  | valid2 (c : Ctx) (pred curr : ℕ)                     -- validate: !curr->marked
  | valid3 (c : Ctx) (pred curr : ℕ)                     -- validate: pred->next == curr
  | body (c : Ctx) (pred curr : ℕ)                       -- if (key == curr->key)
  | link1 (key val : ℤ) (newNode pred curr : ℕ)          -- newNode->next = curr
  | link2 (key val : ℤ) (newNode pred curr : ℕ)          -- pred->next = newNode
  | del1 (key : ℤ) (pred curr : ℕ)                       -- curr->marked = true
  | del2 (key : ℤ) (pred curr : ℕ)                       -- *val = curr->val
  | del3 (key : ℤ) (pred curr : ℕ) (val : ℤ)             -- curr->next
  | del4 (key : ℤ) (pred curr : ℕ) (val : ℤ) (succ : ℕ)  -- pred->next = curr->next
  | unlock1 (w : After) (pred curr : ℕ)                  -- unlock(&pred->mtx)
  | unlock2 (w : After) (curr : ℕ)                       -- unlock(&curr->mtx)
  | fTest (key : ℤ) (curr : ℕ)                           -- find: while (curr->key < key), curr->key == key
  | fNext (key : ℤ) (curr : ℕ)                           -- find: curr = curr->next
  | fMark (key : ℤ) (curr : ℕ)                           -- find: !curr->marked
deriving DecidableEq, Repr

abbrev Act := AllocAct ValidOp

def setNext (m : Mem) (a p : ℕ) : Mem := { m with node := update m.node a { m.node a with next := p } }

def setMarked (m : Mem) (a : ℕ) : Mem := { m with node := update m.node a { m.node a with marked := true } }

def setMtx (m : Mem) (a : ℕ) (o : Option ℕ) : Mem := { m with mtx := update m.mtx a o }

/-- `create_node` -/
def createNode (m : Mem) (key val : ℤ) : Mem :=
  { m with node := update m.node m.fresh ⟨key, val, NULL, false⟩, fresh := m.fresh + 1 }

/-- `lock(a->mtx)` by thread t at l, going on at l' -/
def lock (t : ℕ) (m : Mem) (a : ℕ) (l l' : Loc) : Mem × Loc :=
  if m.mtx a = none then (setMtx m a (some t), l') else (m, l)

/-- after the first load of `curr`: `delete` returns false on an empty list -/
def afterStart (c : Ctx) (curr : ℕ) : Loc :=
  match c with
  | .add _ _ _ => .test c head curr
  | .delete k => if curr = tail then .ret (.delete k) (.delete none) else .test c head curr

/-- after both locks: `delete` has an additional check before the assert -/
def afterLocks (c : Ctx) (pred curr : ℕ) : Loc :=
  match c with
  | .add _ _ _ => .assert c pred curr
  | .delete _ => .recheck c pred curr

/-- the condition of the check and of the assert -/
def bracket (m : Mem) (c : Ctx) (pred curr : ℕ) : Prop := (m.node pred).key < c.key ∧ c.key ≤ (m.node curr).key

instance (m : Mem) (c : Ctx) (pred curr : ℕ) : Decidable (bracket m c pred curr) :=
  inferInstanceAs (Decidable (_ ∧ _))

/-- inside the critical section, where `found` is `key == curr->key` -/
def afterBody (c : Ctx) (pred curr : ℕ) (found : Bool) : Loc :=
  match c, found with
  | .add k v _, true => .unlock1 (.ret (.add k v) (.add false)) pred curr
  | .add k v n, false => .link1 k v n pred curr
  | .delete k, true => .del1 k pred curr
  | .delete k, false => .unlock1 (.ret (.delete k) (.delete none)) pred curr

def After.loc : After → Loc
  | .ret op r => .ret op r
  | .again c => .start c

/-- the next atomic step of thread t -/
def exec (t : ℕ) (m : Mem) : Loc → Mem × Loc
  | .idle => (m, .idle)
  | .ret op r => (m, .ret op r)
  | .aborted => (m, .aborted)
  | .create k v => (createNode m k v, .start (.add k v m.fresh))
  | .start c => (m, afterStart c (m.node head).next)
  | .test c pred curr =>
    (m, if (m.node curr).key < c.key ∧ curr ≠ tail then .next c curr else .lockPred c pred curr)
  | .next c pred => (m, .test c pred (m.node pred).next)
  | .lockPred c pred curr => lock t m pred (.lockPred c pred curr) (.lockCurr c pred curr)
  | .lockCurr c pred curr => lock t m curr (.lockCurr c pred curr) (afterLocks c pred curr)
  | .recheck c pred curr => (m, if bracket m c pred curr then .assert c pred curr else .unlock1 (.again c) pred curr)
  | .assert c pred curr => (m, if bracket m c pred curr then .valid1 c pred curr else .aborted)
  | .valid1 c pred curr => (m, if (m.node pred).marked then .unlock1 (.again c) pred curr else .valid2 c pred curr)
  | .valid2 c pred curr => (m, if (m.node curr).marked then .unlock1 (.again c) pred curr else .valid3 c pred curr)
  | .valid3 c pred curr => (m, if (m.node pred).next = curr then .body c pred curr else .unlock1 (.again c) pred curr)
  | .body c pred curr => (m, afterBody c pred curr (c.key = (m.node curr).key))
  | .link1 k v n pred curr => (setNext m n curr, .link2 k v n pred curr)
  | .link2 k v n pred curr => (setNext m pred n, .unlock1 (.ret (.add k v) (.add true)) pred curr)
  | .del1 k pred curr => (setMarked m curr, .del2 k pred curr)
  | .del2 k pred curr => (m, .del3 k pred curr (m.node curr).val)
  | .del3 k pred curr v => (m, .del4 k pred curr v (m.node curr).next)
  | .del4 k pred curr v succ => (setNext m pred succ, .unlock1 (.ret (.delete k) (.delete (some v))) pred curr)
  | .unlock1 w pred curr => (setMtx m pred none, .unlock2 w curr)
  | .unlock2 w curr => (setMtx m curr none, w.loc)
  | .fTest k curr =>
    (m, if (m.node curr).key < k then .fNext k curr
      else if (m.node curr).key = k then .fMark k curr else .ret (.contains k) (.contains false))
  | .fNext k curr => (m, .fTest k (m.node curr).next)
  | .fMark k curr => (m, .ret (.contains k) (.contains (!(m.node curr).marked)))

def entry : Op → Loc
  | .add k v => .create k v
  | .delete k => .start (.delete k)
  | .contains k => .fTest k head
  | .find _ => .idle

/-- a thread can start a call when it is not inside one -/
def canInvoke : Loc → Bool
  | .idle | .ret _ _ => true
  | _ => false

def step (t : ℕ) (m : Mem) (l : Loc) : Act → Mem × Loc
  | .invoke op => (m, if canInvoke l then entry op.1 else l)
  | .step => exec t m l
  | .oom =>
    match l with
    | .create k v => (m, .ret (.add k v) .oom)
    | l => (m, l)

/-- `init_list` -/
def initList : Mem where
  node := fun a =>
    if a = head then ⟨INT_MIN, 0, tail, false⟩ else if a = tail then ⟨INT_MAX, 0, NULL, false⟩ else ⟨0, 0, NULL, false⟩
  mtx := fun _ => none
  fresh := 3

def sys : Sys Mem Loc Act := ⟨initList, .idle, step⟩

/-! ## What is observed of a run -/

def After.status : After → Status Op Res
  | .ret op _ => .busy op
  | .again c => .busy c.op

def status : Loc → Status Op Res
  | .idle | .aborted => .idle
  | .ret op r => .done op r
  | .create k v | .link1 k v _ _ _ | .link2 k v _ _ _ => .busy (.add k v)
  | .start c | .test c _ _ | .next c _ | .lockPred c _ _ | .lockCurr c _ _ | .recheck c _ _ | .assert c _ _
  | .valid1 c _ _ | .valid2 c _ _ | .valid3 c _ _ | .body c _ _ => .busy c.op
  | .del1 k _ _ | .del2 k _ _ | .del3 k _ _ _ | .del4 k _ _ _ _ => .busy (.delete k)
  | .unlock1 w _ _ | .unlock2 w _ => w.status
  | .fTest k _ | .fNext k _ | .fMark k _ => .busy (.contains k)

/-- the nodes reachable from head, up to tail or NULL -/
def nodes (m : Mem) : List ℕ :=
  walk (fun a => (m.node a).next) (fun a => a = tail ∨ a = NULL) m.fresh (m.node head).next

/-- the map of the keys of the reachable unmarked nodes -/
def contents (m : Mem) : ℤ → Option ℤ :=
  lookup ((nodes m).filter fun a => !(m.node a).marked) (fun a => (m.node a).key) (fun a => (m.node a).val)

def map : Object Mem Loc Op Res (ℤ → Option ℤ) := ⟨status, contents, mapSpec⟩

/-- the node linked by this step, if it is the store `pred->next = newNode` -/
def linkEvent (_m : Mem) (l : Loc) (a : Act) : Option ℕ :=
  match a, l with
  | .step, .link2 _ _ n _ _ => some n
  | _, _ => none

/-- the nodes linked in a run -/
def linked (ls : List (ℕ × Act)) : List ℕ := sys.trace linkEvent ls

end AlgorithmCollection.LazySynchroList
