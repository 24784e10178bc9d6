/-
Model of `list/FineGrainedSynchroList.c`, the sorted list with hand-over-hand locking, as a system of threads.

Every node has a mutex. `add`, `delete` and `find` lock `list->head` and its successor and then move down the list,
always holding the locks of pred and curr when they look at curr. The three functions share the traversal and differ in
what they do at its end and on an empty list (`Ctx`).

Atomic steps: every lock and unlock, and every load and store of a field of a shared node. A lock that is taken blocks
(the step changes nothing); the mutexes are not recursive. `list->head` and `list->tail` are set once by `init_list`, so
they are the constants `head` and `tail`; their keys are never looked at (tail is told by its address), and keys are
arbitrary integers. `create_node` works on a node no other thread can see and is one step; action `oom` is a `calloc`
that fails there. `free_node` is empty in this build.
-/
import AlgorithmCollection.Conc.Chain
import AlgorithmCollection.Conc.Linearizable
import AlgorithmCollection.Conc.MapObject

namespace AlgorithmCollection.FineGrainedSynchroList

open Conc
open Function (update)

def NULL : ℕ := 0

/-- `list->head` -/
def head : ℕ := 1

/-- `list->tail` -/
def tail : ℕ := 2

/-- `node_t`; the mutex is in `Mem.mtx` -/
structure Node where
  key : ℤ
  val : ℤ
  next : ℕ
deriving DecidableEq, Repr

/-- shared memory: the nodes, the thread holding each mutex, and the next address `calloc` returns -/
structure Mem where
  node : ℕ → Node
  mtx : ℕ → Option ℕ
  fresh : ℕ

abbrev Op := MapOp ℤ ℤ

abbrev Res := MapRes ℤ

/-- the call a thread is in, with the node `add` has created -/
inductive Ctx where
  | add (key val : ℤ) (newNode : ℕ)
  | delete (key : ℤ)
  | find (key : ℤ)
deriving DecidableEq, Repr

def Ctx.key : Ctx → ℤ
  | .add k _ _ | .delete k | .find k => k

def Ctx.op : Ctx → Op
  | .add k v _ => .add k v
  | .delete k => .delete k
  | .find k => .find k

inductive Loc where
  | idle
  | ret (op : Op) (r : Res)
  | create (key val : ℤ)                                 -- newNode = create_node(key, val)
  | lockHead (c : Ctx)                                   -- lock(list->head->mtx)
  | first (c : Ctx)                                      -- pred = list->head; curr = pred->next
  | lockFirst (c : Ctx) (curr : ℕ)                       -- lock(curr->mtx); if (curr == list->tail)
  | addEmpty1 (key val : ℤ) (newNode : ℕ)                -- list->head->next = newNode
  | addEmpty2 (key val : ℤ) (newNode : ℕ)                -- newNode->next = list->tail
  | test (c : Ctx) (pred curr : ℕ)                       -- while (curr != list->tail && curr->key < key)
  | unlockPred (c : Ctx) (pred curr : ℕ)                 -- unlock(pred->mtx)
  | next (c : Ctx) (curr : ℕ)                            -- pred = curr; curr = curr->next
  | lockCurr (c : Ctx) (pred curr : ℕ)                   -- lock(curr->mtx)
  | check (c : Ctx) (pred curr : ℕ)                      -- if (curr != list->tail && key == curr->key)
  | link1 (key val : ℤ) (newNode pred curr : ℕ)          -- newNode->next = curr
  | link2 (key val : ℤ) (newNode pred curr : ℕ)          -- pred->next = newNode
  | del1 (key : ℤ) (pred curr : ℕ)                       -- *val = curr->val
  | del2 (key : ℤ) (pred curr : ℕ) (val : ℤ)             -- curr->next
  | del3 (key : ℤ) (pred curr : ℕ) (val : ℤ) (succ : ℕ)  -- pred->next = curr->next
  | find1 (key : ℤ) (pred curr : ℕ)                      -- *val = curr->val
  | unlock1 (op : Op) (r : Res) (a b : ℕ)                -- unlock(a->mtx), then b
  | unlock2 (op : Op) (r : Res) (b : ℕ)                  -- unlock(b->mtx)
deriving DecidableEq, Repr

abbrev Act := AllocAct Op

def setNext (m : Mem) (a p : ℕ) : Mem := { m with node := update m.node a { m.node a with next := p } }

def setMtx (m : Mem) (a : ℕ) (o : Option ℕ) : Mem := { m with mtx := update m.mtx a o }

/-- `create_node` -/
def createNode (m : Mem) (key val : ℤ) : Mem :=
  { m with node := update m.node m.fresh ⟨key, val, NULL⟩, fresh := m.fresh + 1 }

/-- `lock(a->mtx)` by thread t at l, going on at l' -/
def lock (t : ℕ) (m : Mem) (a : ℕ) (l l' : Loc) : Mem × Loc :=
  if m.mtx a = none then (setMtx m a (some t), l') else (m, l)

/-- what follows the first two locks: on an empty list `add` links its node and the others return false -/
def afterFirst (c : Ctx) (curr : ℕ) : Loc :=
  if curr = tail then
    match c with
    | .add k v n => .addEmpty1 k v n
    | .delete k => .unlock1 (.delete k) (.delete none) head curr
    | .find k => .unlock1 (.find k) (.find none) head curr
  else .test c head curr

/-- the end of the traversal, where `found` is the outcome of the test for the key -/
def afterCheck (c : Ctx) (pred curr : ℕ) (found : Bool) : Loc :=
  match c, found with
  | .add k v _, true => .unlock1 (.add k v) (.add false) pred curr
  | .add k v n, false => .link1 k v n pred curr
  | .delete k, true => .del1 k pred curr
  | .delete k, false => .unlock1 (.delete k) (.delete none) pred curr
  | .find k, true => .find1 k pred curr
  | .find k, false => .unlock1 (.find k) (.find none) pred curr

/-- the next atomic step of thread t -/
def exec (t : ℕ) (m : Mem) : Loc → Mem × Loc
  | .idle => (m, .idle)
  | .ret op r => (m, .ret op r)
  | .create k v => (createNode m k v, .lockHead (.add k v m.fresh))
  | .lockHead c => lock t m head (.lockHead c) (.first c)
  | .first c => (m, .lockFirst c (m.node head).next)
  | .lockFirst c curr => lock t m curr (.lockFirst c curr) (afterFirst c curr)
  | .addEmpty1 k v n => (setNext m head n, .addEmpty2 k v n)
  | .addEmpty2 k v n => (setNext m n tail, .unlock1 (.add k v) (.add true) head tail)
  | .test c pred curr =>
    (m, if curr ≠ tail ∧ (m.node curr).key < c.key then .unlockPred c pred curr else .check c pred curr)
  | .unlockPred c pred curr => (setMtx m pred none, .next c curr)
  | .next c curr => (m, .lockCurr c curr (m.node curr).next)
  | .lockCurr c pred curr => lock t m curr (.lockCurr c pred curr) (.test c pred curr)
  | .check c pred curr => (m, afterCheck c pred curr (curr ≠ tail ∧ c.key = (m.node curr).key))
  | .link1 k v n pred curr => (setNext m n curr, .link2 k v n pred curr)
  | .link2 k v n pred curr => (setNext m pred n, .unlock1 (.add k v) (.add true) pred curr)
  | .del1 k pred curr => (m, .del2 k pred curr (m.node curr).val)
  | .del2 k pred curr v => (m, .del3 k pred curr v (m.node curr).next)
  -- `delete` releases curr first
  | .del3 k pred curr v succ => (setNext m pred succ, .unlock1 (.delete k) (.delete (some v)) curr pred)
  | .find1 k pred curr => (m, .unlock1 (.find k) (.find (some (m.node curr).val)) pred curr)
  | .unlock1 op r a b => (setMtx m a none, .unlock2 op r b)
  | .unlock2 op r b => (setMtx m b none, .ret op r)

/-- `find` is the only lookup of this list, so `contains` is not an operation of it -/
def entry : Op → Loc
  | .add k v => .create k v
  | .delete k => .lockHead (.delete k)
  | .find k => .lockHead (.find k)
  | .contains _ => .idle

/-- a thread can start a call when it is not inside one -/
def canInvoke : Loc → Bool
  | .idle | .ret _ _ => true
  | _ => false

def step (t : ℕ) (m : Mem) (l : Loc) : Act → Mem × Loc
  | .invoke op => (m, if canInvoke l then entry op else l)
  | .step => exec t m l
  | .oom =>
    match l with
    | .create k v => (m, .ret (.add k v) .oom)
    | l => (m, l)

/-- `init_list` -/
def initList : Mem where
  node := fun a => if a = head then ⟨0, 0, tail⟩ else ⟨0, 0, NULL⟩
  mtx := fun _ => none
  fresh := 3

def sys : Sys Mem Loc Act := ⟨initList, .idle, step⟩

/-! ## What is observed of a run -/

def status : Loc → Status Op Res
  | .idle => .idle
  | .ret op r => .done op r
  | .create k v | .addEmpty1 k v _ | .addEmpty2 k v _ | .link1 k v _ _ _ | .link2 k v _ _ _ => .busy (.add k v)
  | .lockHead c | .first c | .lockFirst c _ | .test c _ _ | .unlockPred c _ _ | .next c _ | .lockCurr c _ _
  | .check c _ _ => .busy c.op
  | .del1 k _ _ | .del2 k _ _ _ | .del3 k _ _ _ _ => .busy (.delete k)
  | .find1 k _ _ => .busy (.find k)
  | .unlock1 op _ _ _ | .unlock2 op _ _ => .busy op

/-- the nodes reachable from head, up to tail or NULL -/
def nodes (m : Mem) : List ℕ :=
  walk (fun a => (m.node a).next) (fun a => a = tail ∨ a = NULL) m.fresh (m.node head).next

/-- the map of the keys reachable from head -/
def contents (m : Mem) : ℤ → Option ℤ := lookup (nodes m) (fun a => (m.node a).key) (fun a => (m.node a).val)

def map : Object Mem Loc Op Res (ℤ → Option ℤ) := ⟨status, contents, mapSpec⟩

/-- an `add` to an empty list between its two pointer stores -/
def between : Loc → Bool
  | .addEmpty2 _ _ _ => true
  | _ => false

end AlgorithmCollection.FineGrainedSynchroList
