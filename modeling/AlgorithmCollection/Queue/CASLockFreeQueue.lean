/-
Model of `queue/CASLockFreeQueue.c`, the unbounded lock-free queue, as a system of threads.

Atomic steps: every load and store of one word is a step, and so is every `cas` (cmpxchg16b on the two words of a
`pointer_t`). A `pointer_t` is copied field by field in declaration order (count, then ptr), so a copy may be torn, and
each comparison of the re-check `tail.count == q->tail.count && tail.ptr == q->tail.ptr` is a load of its own. Local
computation is part of the step before it. Build: `_FREE_` is not defined, so `free_node` does nothing and no node is
ever freed; counts are natural numbers (they do not wrap). `calloc` may fail (action `oom`); then `enq` returns false.

Addresses are natural numbers and `NULL` is 0. `calloc` hands out the addresses 1, 2, 3, ... in order: nothing in the
program compares or computes with addresses except for equality.

`Loc` has one constructor per program point between two accesses to shared memory, with the local variables that are
live there; the comment names the access that comes next.
-/
import AlgorithmCollection.Conc.Chain
import AlgorithmCollection.Conc.Fifo
import AlgorithmCollection.Conc.Linearizable

namespace AlgorithmCollection.CASLockFreeQueue

open Conc

def NULL : ℕ := 0

/-- `pointer_t` -/
structure Pointer where
  count : ℕ
  ptr : ℕ
deriving DecidableEq, Repr

/-- `node_t` -/
structure Node where
  next : Pointer
  val : ℤ
deriving DecidableEq, Repr

/-- shared memory: the two words pairs of `queue_t`, the nodes, and the next address `calloc` returns -/
structure Mem where
  head : Pointer
  tail : Pointer
  node : ℕ → Node
  fresh : ℕ

abbrev Op := QueueOp ℤ

abbrev Res := QueueRes ℤ

inductive Loc where
  | idle
  | ret (op : Op) (r : Res)
  | enq0 (val : ℤ)                                             -- newNode = create_node(val)
  | enq1 (val : ℤ) (newNode : ℕ)                               -- q->tail.count
  | enq2 (val : ℤ) (newNode : ℕ) (count : ℕ)                   -- q->tail.ptr
  | enq3 (val : ℤ) (newNode : ℕ) (tail : Pointer)              -- tail.ptr->next.count
  | enq4 (val : ℤ) (newNode : ℕ) (tail : Pointer) (count : ℕ)  -- tail.ptr->next.ptr
  | enq5 (val : ℤ) (newNode : ℕ) (tail next : Pointer)         -- tail.count == q->tail.count
  | enq6 (val : ℤ) (newNode : ℕ) (tail next : Pointer)         -- tail.ptr == q->tail.ptr
  | enq7 (val : ℤ) (newNode : ℕ) (tail next : Pointer)         -- cas(&tail.ptr->next, next, tmp)
  | enq8 (val : ℤ) (newNode : ℕ) (tail next : Pointer)         -- cas(&q->tail, tail, tmp), help
  | enq9 (val : ℤ) (newNode : ℕ) (tail : Pointer)              -- cas(&q->tail, tail, tmp), own node
  | deq1                                                       -- q->head.count
  | deq2 (count : ℕ)                                           -- q->head.ptr
  | deq3 (head : Pointer)                                      -- q->tail.count
  | deq4 (head : Pointer) (count : ℕ)                          -- q->tail.ptr
  | deq5 (head tail : Pointer)                                 -- head.ptr->next.count
  | deq6 (head tail : Pointer) (count : ℕ)                     -- head.ptr->next.ptr
  | deq7 (head tail next : Pointer)                            -- head.count == q->head.count
  | deq8 (head tail next : Pointer)                            -- head.ptr == q->head.ptr
  | deq9 (head tail next : Pointer)                            -- cas(&q->tail, tail, tmp)
  | deq10 (head next : Pointer)                                -- *val = next.ptr->val
  | deq11 (head next : Pointer) (val : ℤ)                      -- cas(&q->head, head, tmp)
deriving DecidableEq, Repr

abbrev Act := AllocAct Op

/-- `create_node` -/
def createNode (m : Mem) (val : ℤ) : Mem :=
  { m with node := Function.update m.node m.fresh ⟨⟨0, NULL⟩, val⟩, fresh := m.fresh + 1 }

/-- `cas(&q->tail, old, new)` -/
def casTail (m : Mem) (old new : Pointer) : Mem := if m.tail = old then { m with tail := new } else m

/-- `cas(&q->head, old, new)` where it succeeds -/
def setHead (m : Mem) (new : Pointer) : Mem := { m with head := new }

/-- `cas(&p->next, old, new)` where it succeeds -/
def setNext (m : Mem) (p : ℕ) (new : Pointer) : Mem :=
  { m with node := Function.update m.node p { m.node p with next := new } }

/-- the next atomic step of `enq` and `deq` -/
def exec (m : Mem) : Loc → Mem × Loc
  | .idle => (m, .idle)
  | .ret op r => (m, .ret op r)
  | .enq0 v => (createNode m v, .enq1 v m.fresh)
  | .enq1 v n => (m, .enq2 v n m.tail.count)
  | .enq2 v n c => (m, .enq3 v n ⟨c, m.tail.ptr⟩)
  | .enq3 v n tail => (m, .enq4 v n tail (m.node tail.ptr).next.count)
  | .enq4 v n tail c => (m, .enq5 v n tail ⟨c, (m.node tail.ptr).next.ptr⟩)
  | .enq5 v n tail next => (m, if tail.count = m.tail.count then .enq6 v n tail next else .enq1 v n)
  | .enq6 v n tail next =>
    (m, if tail.ptr = m.tail.ptr then (if next.ptr = NULL then .enq7 v n tail next else .enq8 v n tail next)
      else .enq1 v n)
  | .enq7 v n tail next =>
    if (m.node tail.ptr).next = next then (setNext m tail.ptr ⟨next.count + 1, n⟩, .enq9 v n tail) else (m, .enq1 v n)
  | .enq8 v n tail next => (casTail m tail ⟨tail.count + 1, next.ptr⟩, .enq1 v n)
  | .enq9 v n tail => (casTail m tail ⟨tail.count + 1, n⟩, .ret (.enq v) (.enq true))
  | .deq1 => (m, .deq2 m.head.count)
  | .deq2 c => (m, .deq3 ⟨c, m.head.ptr⟩)
  | .deq3 head => (m, .deq4 head m.tail.count)
  | .deq4 head c => (m, .deq5 head ⟨c, m.tail.ptr⟩)
  | .deq5 head tail => (m, .deq6 head tail (m.node head.ptr).next.count)
  | .deq6 head tail c => (m, .deq7 head tail ⟨c, (m.node head.ptr).next.ptr⟩)
  | .deq7 head tail next => (m, if head.count = m.head.count then .deq8 head tail next else .deq1)
  | .deq8 head tail next =>
    (m, if head.ptr = m.head.ptr then
        (if head.ptr = tail.ptr then (if next.ptr = NULL then .ret .deq (.deq none) else .deq9 head tail next)
        else .deq10 head next)
      else .deq1)
  -- the count written into q->tail is the head's, plus one
  | .deq9 head tail next => (casTail m tail ⟨head.count + 1, next.ptr⟩, .deq1)
  | .deq10 head next => (m, .deq11 head next (m.node next.ptr).val)
  | .deq11 head next v =>
    if m.head = head then (setHead m ⟨head.count + 1, next.ptr⟩, .ret .deq (.deq (some v))) else (m, .deq1)

/-- where a call starts -/
def entry : Op → Loc
  | .enq v => .enq0 v
  | .deq => .deq1

/-- a thread can start a call when it is not inside one -/
def canInvoke : Loc → Bool
  | .idle | .ret _ _ => true
  | _ => false

def step (_t : ℕ) (m : Mem) (l : Loc) : Act → Mem × Loc
  | .invoke op => (m, if canInvoke l then entry op else l)
  | .step => exec m l
  | .oom =>
    match l with
    | .enq0 v => (m, .ret (.enq v) (.enq false))
    | l => (m, l)

/-- `init_queue`: one dummy node, at address 1, that both ends point to; calloc leaves the counts 0 -/
def initQueue : Mem := ⟨⟨0, 1⟩, ⟨0, 1⟩, fun _ => ⟨⟨0, NULL⟩, 0⟩, 2⟩

def sys : Sys Mem Loc Act := ⟨initQueue, .idle, step⟩

/-! ## What is observed of a run -/

/-- the operation a local state belongs to -/
def status : Loc → Status Op Res
  | .idle => .idle
  | .ret op r => .done op r
  | .enq0 v | .enq1 v _ | .enq2 v _ _ | .enq3 v _ _ | .enq4 v _ _ _ | .enq5 v _ _ _ | .enq6 v _ _ _ | .enq7 v _ _ _
  | .enq8 v _ _ _ | .enq9 v _ _ => .busy (.enq v)
  | .deq1 | .deq2 _ | .deq3 _ | .deq4 _ _ | .deq5 _ _ | .deq6 _ _ _ | .deq7 _ _ _ | .deq8 _ _ _ | .deq9 _ _ _
  | .deq10 _ _ | .deq11 _ _ _ => .busy .deq

/-- the value linked by this step, if it is a successful `cas` on `tail.ptr->next` -/
def linkEvent (m : Mem) (l : Loc) (a : Act) : Option ℤ :=
  match a, l with
  | .step, .enq7 v _ tail next => if (m.node tail.ptr).next = next then some v else none
  | _, _ => none

/-- the value taken by this step, if it is a successful `cas` on `q->head` -/
def takeEvent (m : Mem) (l : Loc) (a : Act) : Option ℤ :=
  match a, l with
  | .step, .deq11 head _ v => if m.head = head then some v else none
  | _, _ => none

/-- the values linked in a run, in the order of their successful cas on `tail.ptr->next` -/
def enqueued (ls : List (ℕ × Act)) : List ℤ := sys.trace linkEvent ls

/-- the values taken in a run, in the order of their successful cas on `q->head` -/
def dequeued (ls : List (ℕ × Act)) : List ℤ := sys.trace takeEvent ls

/-- the values in the queue: those behind the node `q->head.ptr`, as `show_queue` walks -/
def contents (m : Mem) : List ℤ :=
  (walk (fun a => (m.node a).next.ptr) (fun a => a = NULL) m.fresh (m.node m.head.ptr).next.ptr).map fun a => (m.node a).val

def queue : Object Mem Loc Op Res (List ℤ) := ⟨status, contents, queueSpec⟩

end AlgorithmCollection.CASLockFreeQueue
