/-
Model of `queue/LLSCLockFreeQueue.c`, the lock-free queue over emulated LL/SC variables, as a system of threads.

`q->head` and `q->tail` are `LLSCvar`s: two pointer slots and an entry tag (version, count). At version v the slot
`v % 2` is current; an SC with version v does a cas on the other slot, expecting the `pred` of the node it has linked,
and then anyone with that version bumps it. `enq` works on `q->tail`, `deq` on `q->head`.

Atomic steps: every load or store of one field is a step (the struct copies `e = loc->entry` and `pre = nd->exit` are
loads of their fields in declaration order), and so is every 64-bit `cas`. Build: x86-64, so
- a cas on `loc->entry` covers the whole `EntryTag` (two ints);
- a cas on `nd->exit` covers the first 8 bytes of the 12-byte `ExitTag`, that is `count` and `transfersLeft`, and
  neither compares nor writes `nlP` and `toBeFreed` (`casExit`).
Versions are natural numbers and counts are integers (no wrap). `calloc` may fail in `create_node` (action `oom`).
`free(nd)` is recorded in `freed`; `free_node` is empty in this build. `transfer`, `release`, `setNLPred` and
`setToBeFreed` are the same loop on the exit tag of a node and differ in the new tag and in what comes after; they
are the points `tag1` to `tag5`, with a `Cont` that says which function it is.
-/
import AlgorithmCollection.Conc.Chain
import AlgorithmCollection.Conc.Fifo
import AlgorithmCollection.Conc.Linearizable

namespace AlgorithmCollection.LLSCLockFreeQueue

open Conc
open Function (update)

def NULL : ℕ := 0

/-- `ExitTag` -/
structure ExitTag where
  count : ℤ
  transfersLeft : ℤ
  nlP : Bool
  toBeFreed : Bool
deriving DecidableEq, Repr

/-- `node_t` -/
structure Node where
  val : ℤ
  next : ℕ
  pred : ℕ
  exit : ExitTag
deriving DecidableEq, Repr

/-- `EntryTag` -/
structure EntryTag where
  ver : ℕ
  count : ℤ
deriving DecidableEq, Repr

/-- `LLSCvar` -/
structure LLSCvar where
  ptr0 : ℕ
  ptr1 : ℕ
  entry : EntryTag
deriving DecidableEq, Repr

/-- `CURRENT(loc, ver)` -/
def current (x : LLSCvar) (ver : ℕ) : ℕ := if ver % 2 = 0 then x.ptr0 else x.ptr1

/-- the slot `NONCURADDR(loc, ver)` points to -/
def noncur (x : LLSCvar) (ver : ℕ) : ℕ := if ver % 2 = 0 then x.ptr1 else x.ptr0

def setNoncur (x : LLSCvar) (ver p : ℕ) : LLSCvar := if ver % 2 = 0 then { x with ptr1 := p } else { x with ptr0 := p }

/-- `CLEAN(exit)` -/
def clean (e : ExitTag) : Bool := e.count = 0 ∧ e.transfersLeft = 0

/-- `FREEABLE(exit)` -/
def freeable (e : ExitTag) : Bool := clean e && e.nlP && e.toBeFreed

/-- shared memory: the two variables of `queue_t`, the nodes, the next address `calloc` returns, the freed nodes -/
structure Mem where
  head : LLSCvar
  tail : LLSCvar
  node : ℕ → Node
  fresh : ℕ
  freed : List ℕ

abbrev Op := QueueOp ℤ

abbrev Res := QueueRes ℤ

/-- the call a thread is in, with the node `enq` has created -/
inductive Ctx where
  | enq (val : ℤ) (nd : ℕ)
  | deq
deriving DecidableEq, Repr

/-- the arguments of a call of SC, and whether it follows the successful link of the caller's own node -/
structure ScCall where
  ctx : Ctx
  nd : ℕ
  myver : ℕ
  mynode : ℕ
  own : Bool
deriving DecidableEq, Repr

/-- who called `release`: SC (with its result), or `unlink` -/
inductive RelBy where
  | sc (k : ScCall) (success : Bool)
  | unlink
deriving DecidableEq, Repr

/-- which function runs the loop on an exit tag, with what it needs afterwards -/
inductive Cont where
  | transfer (count : ℤ) (k : ScCall) (success : Bool)
  | release (pred_nd : ℕ) (by_ : RelBy)
  /-- called by `release(nd)`, whose own new tag was `post` -/
  | setNLPred (nd : ℕ) (post : ExitTag) (by_ : RelBy)
  | setToBeFreed (val : ℤ)
deriving DecidableEq, Repr

inductive Loc where
  | idle
  | ret (op : Op) (r : Res)
  | enq0 (val : ℤ)                                                   -- nd = create_node(val)
  | ll1 (c : Ctx)                                                    -- e.ver = loc->entry.ver
  | ll2 (c : Ctx) (ver : ℕ)                                          -- e.count = loc->entry.count
  | ll3 (c : Ctx) (e : EntryTag)                                     -- *mynode = CURRENT(loc, e.ver)
  | ll4 (c : Ctx) (e : EntryTag) (mynode : ℕ)                        -- cas(&loc->entry, e, new)
  | enq1 (val : ℤ) (nd myver mynode : ℕ)                             -- nd->pred = tail
  | enq2 (val : ℤ) (nd myver mynode : ℕ)                             -- cas(&tail->next, NULL, nd)
  | enq3 (val : ℤ) (nd myver mynode : ℕ)                             -- tail->next
  | deq1 (myver mynode : ℕ)                                          -- next = head->next
  | deq2 (next : ℕ)                                                  -- *val = next->val
  | sc1 (k : ScCall)                                                 -- pred_nd = mynode->pred
  | sc2 (k : ScCall) (pred_nd : ℕ)                                   -- cas(NONCURADDR(loc, myver), pred_nd, nd)
  | sc3 (k : ScCall) (success : Bool)                                -- e.ver = loc->entry.ver
  | sc4 (k : ScCall) (success : Bool) (ver : ℕ)                      -- e.count = loc->entry.count
  | sc5 (k : ScCall) (success : Bool) (e : EntryTag)                 -- cas(&loc->entry, e, new)
  | rel (nd : ℕ) (by_ : RelBy)                                       -- release: pred_nd = nd->pred
  | tag1 (nd : ℕ) (k : Cont)                                         -- pre.count = nd->exit.count
  | tag2 (nd : ℕ) (k : Cont) (count : ℤ)                             -- pre.transfersLeft
  | tag3 (nd : ℕ) (k : Cont) (count transfersLeft : ℤ)               -- pre.nlP
  | tag4 (nd : ℕ) (k : Cont) (count transfersLeft : ℤ) (nlP : Bool)  -- pre.toBeFreed
  | tag5 (nd : ℕ) (k : Cont) (pre : ExitTag)                         -- cas(&nd->exit, pre, post)
  | unl1 (myver mynode : ℕ)                                          -- unlink: e.ver = loc->entry.ver
  | unl2 (myver mynode ver : ℕ)                                      -- e.count = loc->entry.count
  | unl3 (mynode : ℕ) (e : EntryTag)                                 -- cas(&loc->entry, e, new)
deriving DecidableEq, Repr

abbrev Act := AllocAct Op

/-- the variable a call works on: `&q->tail` for `enq`, `&q->head` for `deq` -/
def Mem.var (m : Mem) : Ctx → LLSCvar
  | .enq _ _ => m.tail
  | .deq => m.head

def Mem.setVar (m : Mem) (c : Ctx) (x : LLSCvar) : Mem :=
  match c with
  | .enq _ _ => { m with tail := x }
  | .deq => { m with head := x }

def Mem.setEntry (m : Mem) (c : Ctx) (e : EntryTag) : Mem := m.setVar c { m.var c with entry := e }

/-- `create_node` -/
def createNode (m : Mem) (val : ℤ) : Mem :=
  { m with node := update m.node m.fresh ⟨val, NULL, NULL, ⟨0, 2, false, false⟩⟩, fresh := m.fresh + 1 }

def setPred (m : Mem) (nd p : ℕ) : Mem := { m with node := update m.node nd { m.node nd with pred := p } }

def setNext (m : Mem) (nd p : ℕ) : Mem := { m with node := update m.node nd { m.node nd with next := p } }

/-- a successful `cas(&nd->exit, CAST(pre), CAST(post))`: only the first 8 bytes are written -/
def casExit (m : Mem) (nd : ℕ) (post : ExitTag) : Mem :=
  { m with node := update m.node nd { m.node nd with
      exit := { (m.node nd).exit with count := post.count, transfersLeft := post.transfersLeft } } }

/-- `if (FREEABLE(post)) free(nd)` -/
def freeIf (m : Mem) (post : ExitTag) (nd : ℕ) : Mem := if freeable post then { m with freed := nd :: m.freed } else m

/-- the new exit tag of each of the four functions -/
def Cont.post (pre : ExitTag) : Cont → ExitTag
  | .transfer count _ _ => { pre with count := pre.count + count, transfersLeft := pre.transfersLeft - 1 }
  | .release _ _ => { pre with count := pre.count - 1 }
  | .setNLPred _ _ _ => { pre with nlP := true }
  | .setToBeFreed _ => { pre with toBeFreed := true }

/-- what `enq` or `deq` does when SC has returned -/
def afterSC (k : ScCall) (success : Bool) : Loc :=
  match k.ctx with
  | .enq v nd => if k.own then .ret (.enq v) (.enq true) else .ll1 (.enq v nd)
  | .deq => if success then .deq2 k.nd else .ll1 .deq

/-- what the caller of `release` does when it has returned -/
def afterRelease : RelBy → Loc
  | .sc k success => afterSC k success
  | .unlink => .ret .deq (.deq none)

/-- after the successful cas of the loop on the exit tag of nd -/
def afterTag (m : Mem) (nd : ℕ) (post : ExitTag) : Cont → Mem × Loc
  | .transfer _ k success => (m, .sc3 k success)
  | .release pred_nd by_ =>
    if clean post then (m, .tag1 pred_nd (.setNLPred nd post by_)) else (freeIf m post nd, afterRelease by_)
  | .setNLPred nd' post' by_ => (freeIf (freeIf m post nd) post' nd', afterRelease by_)
  | .setToBeFreed v => (freeIf m post nd, .ret .deq (.deq (some v)))

/-- what `enq` and `deq` do when LL has returned mynode at version myver -/
def afterLL (c : Ctx) (myver mynode : ℕ) : Loc :=
  match c with
  | .enq v nd => .enq1 v nd myver mynode
  | .deq => .deq1 myver mynode

/-- the next atomic step -/
def exec (m : Mem) : Loc → Mem × Loc
  | .idle => (m, .idle)
  | .ret op r => (m, .ret op r)
  | .enq0 v => (createNode m v, .ll1 (.enq v m.fresh))
  | .ll1 c => (m, .ll2 c (m.var c).entry.ver)
  | .ll2 c ver => (m, .ll3 c ⟨ver, (m.var c).entry.count⟩)
  | .ll3 c e => (m, .ll4 c e (current (m.var c) e.ver))
  | .ll4 c e node =>
    if (m.var c).entry = e then (m.setEntry c ⟨e.ver, e.count + 1⟩, afterLL c e.ver node) else (m, .ll1 c)
  | .enq1 v nd myver mynode => (setPred m nd mynode, .enq2 v nd myver mynode)
  | .enq2 v nd myver mynode =>
    if (m.node mynode).next = NULL then (setNext m mynode nd, .sc1 ⟨.enq v nd, nd, myver, mynode, true⟩)
    else (m, .enq3 v nd myver mynode)
  | .enq3 v nd myver mynode => (m, .sc1 ⟨.enq v nd, (m.node mynode).next, myver, mynode, false⟩)
  | .deq1 myver mynode =>
    (m, if (m.node mynode).next = NULL then .unl1 myver mynode
      else .sc1 ⟨.deq, (m.node mynode).next, myver, mynode, false⟩)
  | .deq2 next => (m, .tag1 next (.setToBeFreed (m.node next).val))
  | .sc1 k => (m, .sc2 k (m.node k.mynode).pred)
  | .sc2 k pred_nd =>
    if noncur (m.var k.ctx) k.myver = pred_nd then
      (m.setVar k.ctx (setNoncur (m.var k.ctx) k.myver k.nd), .sc3 k true)
    else (m, .sc3 k false)
  | .sc3 k success => (m, .sc4 k success (m.var k.ctx).entry.ver)
  | .sc4 k success ver =>
    (m, if ver = k.myver then .sc5 k success ⟨ver, (m.var k.ctx).entry.count⟩ else .rel k.mynode (.sc k success))
  | .sc5 k success e =>
    if (m.var k.ctx).entry = e then
      (m.setEntry k.ctx ⟨e.ver + 1, 0⟩, .tag1 k.mynode (.transfer e.count k success))
    else (m, .sc3 k success)
  | .rel nd by_ => (m, .tag1 nd (.release (m.node nd).pred by_))
  | .tag1 nd k => (m, .tag2 nd k (m.node nd).exit.count)
  | .tag2 nd k count => (m, .tag3 nd k count (m.node nd).exit.transfersLeft)
  | .tag3 nd k count left => (m, .tag4 nd k count left (m.node nd).exit.nlP)
  | .tag4 nd k count left nlP => (m, .tag5 nd k ⟨count, left, nlP, (m.node nd).exit.toBeFreed⟩)
  | .tag5 nd k pre =>
    if (m.node nd).exit.count = pre.count ∧ (m.node nd).exit.transfersLeft = pre.transfersLeft then
      afterTag (casExit m nd (k.post pre)) nd (k.post pre) k
    else (m, .tag1 nd k)
  | .unl1 myver mynode => (m, .unl2 myver mynode m.head.entry.ver)
  -- the loop of `unlink` leaves only when the version has moved on
  | .unl2 myver mynode ver =>
    (m, if ver = myver then .unl1 myver mynode else .unl3 mynode ⟨ver, m.head.entry.count⟩)
  | .unl3 mynode e =>
    if m.head.entry = e then (m.setEntry .deq ⟨e.ver, e.count - 1⟩, .ret .deq (.deq none)) else (m, .rel mynode .unlink)

def entry : Op → Loc
  | .enq v => .enq0 v
  | .deq => .ll1 .deq

/-- a thread can start a call when it is not inside one -/
def canInvoke : Loc → Bool
  | .idle | .ret _ _ => true
  | _ => false

def step (_t : ℕ) (m : Mem) (l : Loc) : Act → Mem × Loc
  | .invoke op => (m, if canInvoke l then entry op else l)
  | .step => exec m l
  | .oom =>
    match l with
    | .enq0 v => (m, .ret (.enq v) (.enq false))
    | l => (m, l)

/-- `init_queue`: node 1 is current in both variables and its pred, node 2, is in the other slot -/
def initQueue : Mem where
  head := ⟨1, 2, ⟨0, 0⟩⟩
  tail := ⟨1, 2, ⟨0, 0⟩⟩
  node := fun a => if a = 1 then ⟨0, NULL, 2, ⟨0, 2, false, false⟩⟩ else ⟨0, NULL, NULL, ⟨0, 0, false, false⟩⟩
  fresh := 3
  freed := []

def sys : Sys Mem Loc Act := ⟨initQueue, .idle, step⟩

/-! ## What is observed of a run -/

def Ctx.op : Ctx → Op
  | .enq v _ => .enq v
  | .deq => .deq

def RelBy.op : RelBy → Op
  | .sc k _ => k.ctx.op
  | .unlink => .deq

def Cont.op : Cont → Op
  | .transfer _ k _ => k.ctx.op
  | .release _ by_ | .setNLPred _ _ by_ => by_.op
  | .setToBeFreed _ => .deq

def status : Loc → Status Op Res
  | .idle => .idle
  | .ret op r => .done op r
  | .enq0 v | .enq1 v _ _ _ | .enq2 v _ _ _ | .enq3 v _ _ _ => .busy (.enq v)
  | .ll1 c | .ll2 c _ | .ll3 c _ | .ll4 c _ _ => .busy c.op
  | .deq1 _ _ | .deq2 _ | .unl1 _ _ | .unl2 _ _ _ | .unl3 _ _ => .busy .deq
  | .sc1 k | .sc2 k _ | .sc3 k _ | .sc4 k _ _ | .sc5 k _ _ => .busy k.ctx.op
  | .rel _ by_ => .busy by_.op
  | .tag1 _ k | .tag2 _ k _ | .tag3 _ k _ _ | .tag4 _ k _ _ _ | .tag5 _ k _ => .busy k.op

/-- the value linked by this step, if it is a successful `cas` on `tail->next` -/
def linkEvent (m : Mem) (l : Loc) (a : Act) : Option ℤ :=
  match a, l with
  | .step, .enq2 v _ _ mynode => if (m.node mynode).next = NULL then some v else none
  | _, _ => none

/-- the value of the node installed by this step, if it is the successful slot cas of an SC on `q->head` -/
def takeEvent (m : Mem) (l : Loc) (a : Act) : Option ℤ :=
  match a, l with
  | .step, .sc2 ⟨.deq, nd, myver, _, _⟩ pred_nd => if noncur m.head myver = pred_nd then some (m.node nd).val else none
  | _, _ => none

/-- the values linked in a run, in the order of their successful cas on `tail->next` -/
def enqueued (ls : List (ℕ × Act)) : List ℤ := sys.trace linkEvent ls

/-- the values taken in a run, in the order of the successful SCs on `q->head` -/
def dequeued (ls : List (ℕ × Act)) : List ℤ := sys.trace takeEvent ls

/-- the nodes met from a on -/
def chain (m : Mem) (a : ℕ) : List ℕ := walk (fun a => (m.node a).next) (fun a => a = NULL) m.fresh a

/-- the last node taken: the node in the other slot of `q->head` once an SC has installed it, else the current one -/
def front (m : Mem) : ℕ :=
  let cur := current m.head m.head.entry.ver
  let non := noncur m.head m.head.entry.ver
  if non = (m.node cur).pred then cur else non

/-- the values in the queue: those behind the last node taken -/
def contents (m : Mem) : List ℤ := (chain m (m.node (front m)).next).map fun a => (m.node a).val

def queue : Object Mem Loc Op Res (List ℤ) := ⟨status, contents, queueSpec⟩

end AlgorithmCollection.LLSCLockFreeQueue
