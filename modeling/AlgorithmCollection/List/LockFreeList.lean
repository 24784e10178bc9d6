/-
Model of `list/LockFreeList.c`: `add`, `delete` and `find` with `searchFrom2`, `tryFlag`, `tryMark`, `helpMarked` and
`helpFlagged` as a system of threads.

`succ` is a pair of a pointer and two bits that `cas` compares and swaps as one, and whose fields are read one by one. The
bits are never both set (`make_ref` asserts it), so a `succ` is clean, MARKED or FLAGGED (`Bits`). Deleting a node is three
cas: the `succ` of its predecessor is FLAGGED, its own `succ` is MARKED, the predecessor's `succ` is swung over it. Any
thread that meets a flag helps with the last two.

Atomic steps: every load of a field of a `succ` or of a backlink, every store of a backlink, every `cas`. A copy of a
`succ` loads its bits and then its pointer, in the order of the struct. Keys and values do not change after `create_node`.
The new node of an `add` is written where no other thread can reach it. `helpFlagged` and `tryMark` call each other: fs is
the stack of the calls `helpFlagged(prev, del)` that wait in their `tryMark(del)`. A thread that would follow NULL or fails
an assertion stops. Nodes are not freed (`_FREE_` is not defined). Allocation succeeds. Head is node 1, tail is node 2.

`added`, `flags` and `returned` are history variables: the nodes linked by `add`; the nodes flagged by the cas of `tryFlag`,
with the thread that did it; the nodes of deletes that returned true, with their thread. No step reads them.
-/
import AlgorithmCollection.Conc.Threads
import AlgorithmCollection.Conc.Reach

namespace AlgorithmCollection.LockFreeList

open Conc
open Function (update)

def NULL : ℕ := 0

def INT_MIN : ℤ := -2 ^ 31

def INT_MAX : ℤ := 2 ^ 31 - 1

def head : ℕ := 1

def tail : ℕ := 2

/-- the field `mark` of a `next_ref`: UNMARKED | UNFLAGGED, MARKED | UNFLAGGED or UNMARKED | FLAGGED -/
inductive Bits where
  | NONE
  | MARKED
  | FLAGGED
deriving DecidableEq, Repr

/-- `next_ref` -/
structure Ref where
  mark : Bits
  ptr : ℕ
deriving DecidableEq, Repr

/-- `node_t` -/
structure Node where
  key : ℤ
  val : ℤ
  succ : Ref
  backlink : ℕ
deriving DecidableEq, Repr

structure Mem where
  node : ℕ → Node
  fresh : ℕ
  added : List ℕ
  flags : List (ℕ × ℕ)
  returned : List (ℕ × ℕ)

def ky (m : Mem) (a : ℕ) : ℤ := (m.node a).key

def vl (m : Mem) (a : ℕ) : ℤ := (m.node a).val

def ref (m : Mem) (a : ℕ) : Ref := (m.node a).succ

/-- `a->succ.node_ptr` -/
def nx (m : Mem) (a : ℕ) : ℕ := (ref m a).ptr

/-- `a->succ.mark` -/
def mark (m : Mem) (a : ℕ) : Bits := (ref m a).mark

/-- `a->backlink` -/
def bl (m : Mem) (a : ℕ) : ℕ := (m.node a).backlink

inductive Op where
  | add (key val : ℤ)
  | delete (key : ℤ)
  | find (key : ℤ)
deriving DecidableEq, Repr

def Op.key : Op → ℤ
  | .add k _ | .delete k | .find k => k

/-- `delete` returns true with the value it writes to *val, or false -/
inductive Res where
  | add (ret : Bool)
  | delete (ret : Option ℤ)
  | find (ret : Bool)
deriving DecidableEq, Repr

/-- the caller of `searchFrom2` -/
inductive Caller where
  | add (key val : ℤ)                  -- the first search of `add`
  | again (key val : ℤ) (newNode : ℕ)  -- the search at the end of the loop of `add`
  | delete (key : ℤ)
  | find (key : ℤ)                     -- through `search`
deriving DecidableEq, Repr

def Caller.key : Caller → ℤ
  | .add k _ | .again k _ _ | .delete k | .find k => k

/-- the caller of `helpFlagged` outside `tryMark` -/
inductive Helper where
  | flagged (key val : ℤ) (newNode : ℕ)      -- `add`, after it has read a flag
  | failed (key val : ℤ) (newNode prev : ℕ)  -- `add`, after a failed cas
  | delete (target : ℕ) (result : Bool)      -- `delete`, after `tryFlag`
deriving DecidableEq, Repr

inductive Loc where
  | idle
  | ret (r : Res)
  -- searchFrom2
  | sFirst (c : Caller)                              -- next_node = curr_node->succ.node_ptr
  | sKey (c : Caller) (curr next : ℕ)                -- while (next_node->key < key)
  | sMark (c : Caller) (curr next : ℕ)               -- is_marked_ref(next_node->succ)
  | sCurr (c : Caller) (curr next : ℕ)               -- is_unmarked_ref(curr_node->succ)
  | sNe (c : Caller) (curr next : ℕ)                 -- curr_node->succ.node_ptr != next_node
  | sEq (c : Caller) (curr next : ℕ)                 -- if (curr_node->succ.node_ptr == next_node)
  | sAssert (c : Caller) (curr next : ℕ)             -- helpMarked: assert (del_node->succ.node_ptr != NULL)
  | sNext (c : Caller) (curr next : ℕ)               -- helpMarked: next_node = del_node->succ.node_ptr
  | sCas (c : Caller) (curr next succ : ℕ)           -- helpMarked: cas(&prev_node->succ, ..)
  | sReload (c : Caller) (curr : ℕ)                  -- next_node = curr_node->succ.node_ptr
  | sTest (c : Caller) (curr next : ℕ)               -- if (next_node->key < key)
  | sAdvance (c : Caller) (curr : ℕ)                 -- curr_node = next_node; next_node = curr_node->succ.node_ptr
  -- add
  | create (key val : ℤ) (prev next : ℕ)             -- newNode = create_node(key, val)
  | aMark (key val : ℤ) (n prev next : ℕ)            -- prev_succ = prev_node->succ, the bits
  | aPtr (key val : ℤ) (n prev next : ℕ) (b : Bits)  -- prev_succ = prev_node->succ, the pointer
  | aCas (key val : ℤ) (n prev next : ℕ)             -- cas(&prev_node->succ, ..)
  | rMark (key val : ℤ) (n prev : ℕ)                 -- result = prev_node->succ, the bits
  | rPtr (key val : ℤ) (n prev : ℕ) (b : Bits)       -- result = prev_node->succ, the pointer
  | aWait (key val : ℤ) (n prev : ℕ)                 -- while (is_marked_ref(prev_node->succ))
  | aBack (key val : ℤ) (n prev : ℕ)                 -- prev_node = prev_node->backlink
  -- tryFlag
  | fPtr (target prev : ℕ)                           -- prev_node->succ.node_ptr == target_node
  | fUnmarked (target prev : ℕ)                      -- is_unmarked_ref(prev_node->succ)
  | fFlagged (target prev : ℕ)                       -- is_flagged_ref(prev_node->succ)
  | fCas (target prev : ℕ)                           -- cas(&prev_node->succ, ..)
  | gMark (target prev : ℕ)                          -- result = prev_node->succ, the bits
  | gPtr (target prev : ℕ) (b : Bits)                -- result = prev_node->succ, the pointer
  | fWait (target prev : ℕ)                          -- while (is_marked_ref(prev_node->succ))
  | fBack (target prev : ℕ)                          -- prev_node = prev_node->backlink
  -- helpFlagged(prev, del)
  | hBack (h : Helper) (fs : List (ℕ × ℕ)) (prev del : ℕ)         -- del_node->backlink = prev_node
  | hTest (h : Helper) (fs : List (ℕ × ℕ)) (prev del : ℕ)         -- if (is_unmarked_ref(del_node->succ))
  | mNext (h : Helper) (fs : List (ℕ × ℕ)) (prev del : ℕ)         -- tryMark: next_node = del_node->succ.node_ptr
  | mCas (h : Helper) (fs : List (ℕ × ℕ)) (prev del next : ℕ)     -- tryMark: cas(&del_node->succ, ..)
  | mMark (h : Helper) (fs : List (ℕ × ℕ)) (prev del : ℕ)         -- tryMark: result = del_node->succ, the bits
  | mPtr (h : Helper) (fs : List (ℕ × ℕ)) (prev del : ℕ) (b : Bits)  -- tryMark: result = del_node->succ, the pointer
  | mWhile (h : Helper) (fs : List (ℕ × ℕ)) (prev del : ℕ)        -- tryMark: while (is_unmarked_ref(del_node->succ))
  | hAssert (h : Helper) (fs : List (ℕ × ℕ)) (prev del : ℕ)       -- helpMarked: assert (del_node->succ.node_ptr != NULL)
  | hNext (h : Helper) (fs : List (ℕ × ℕ)) (prev del : ℕ)         -- helpMarked: next_node = del_node->succ.node_ptr
  | hCas (h : Helper) (fs : List (ℕ × ℕ)) (prev del next : ℕ)     -- helpMarked: cas(&prev_node->succ, ..)
deriving DecidableEq, Repr

abbrev Act := Conc.Act Op

/-! ## Memory -/

def setRef (m : Mem) (a : ℕ) (r : Ref) : Mem := { m with node := update m.node a { m.node a with succ := r } }

def setBacklink (m : Mem) (a p : ℕ) : Mem := { m with node := update m.node a { m.node a with backlink := p } }

/-- `cas` on `a->succ` -/
def cas (m : Mem) (a : ℕ) (oldp newp : Ref) : Mem × Bool := if ref m a = oldp then (setRef m a newp, true) else (m, false)

/-- `create_node` -/
def createNode (m : Mem) (key val : ℤ) : Mem :=
  { m with node := update m.node m.fresh ⟨key, val, ⟨.NONE, NULL⟩, NULL⟩, fresh := m.fresh + 1 }

/-- `init_list` -/
def initList : Mem where
  node a := if a = head then ⟨INT_MIN, 0, ⟨.NONE, tail⟩, NULL⟩ else ⟨INT_MAX, 0, ⟨.NONE, NULL⟩, NULL⟩
  fresh := 3
  added := []
  flags := []
  returned := []

/-! ## The steps of the functions -/

/-- `searchFrom2` returns with *curr and *next set -/
def Caller.next (m : Mem) (curr next : ℕ) : Caller → Loc
  | .add k v => if ky m curr = k then .ret (.add false) else .create k v curr next
  | .again k v n => if ky m curr = k then .ret (.add false) else .aMark k v n curr next
  | .delete k => if ky m next = k then .fPtr next curr else .ret (.delete none)
  | .find k => .ret (.find (decide (curr ≠ tail ∧ ky m curr = k)))

/-- `helpFlagged` returns to its caller; a `delete` then returns -/
def Helper.next (t : ℕ) (m : Mem) : Helper → Mem × Loc
  | .flagged k v n => (m, .sFirst (.again k v n))
  | .failed k v n prev => (m, .aWait k v n prev)
  | .delete target true =>
    ({ m with returned := (target, t) :: m.returned }, .ret (.delete (some (vl m target))))
  | .delete _ false => (m, .ret (.delete none))

/-- `helpFlagged` returns: to the `tryMark` it was called from, or to the outer caller -/
def helped (t : ℕ) (m : Mem) (h : Helper) : List (ℕ × ℕ) → Mem × Loc
  | [] => h.next t m
  | (prev, del) :: fs => (m, .mWhile h fs prev del)

/-- the atomic step of thread t at each point of its program -/
def exec (t : ℕ) (m : Mem) : Loc → Mem × Loc
  | .idle => (m, .idle)
  | .ret r => (m, .ret r)
  | .sFirst c => (m, .sKey c head (nx m head))
  | .sKey c curr next =>
    if next = NULL then (m, .sKey c curr next)
    else if ky m next < c.key then (m, .sMark c curr next)
    else (m, c.next m curr next)
  | .sMark c curr next =>
    if next = NULL then (m, .sMark c curr next)
    else if mark m next = .MARKED then (m, .sCurr c curr next)
    else (m, .sTest c curr next)
  | .sCurr c curr next => if mark m curr ≠ .MARKED then (m, .sEq c curr next) else (m, .sNe c curr next)
  | .sNe c curr next => if nx m curr ≠ next then (m, .sEq c curr next) else (m, .sTest c curr next)
  | .sEq c curr next => if nx m curr = next then (m, .sAssert c curr next) else (m, .sReload c curr)
  | .sAssert c curr next => if nx m next = NULL then (m, .sAssert c curr next) else (m, .sNext c curr next)
  | .sNext c curr next => (m, .sCas c curr next (nx m next))
  | .sCas c curr next succ => ((cas m curr ⟨.FLAGGED, next⟩ ⟨.NONE, succ⟩).1, .sReload c curr)
  | .sReload c curr => (m, .sMark c curr (nx m curr))
  | .sTest c curr next => if ky m next < c.key then (m, .sAdvance c next) else (m, c.next m curr next)
  | .sAdvance c curr => (m, .sKey c curr (nx m curr))
  | .create k v prev next => (createNode m k v, .aMark k v m.fresh prev next)
  | .aMark k v n prev next => (m, .aPtr k v n prev next (mark m prev))
  | .aPtr k v n prev next b =>
    if b = .FLAGGED then (m, .hBack (.flagged k v n) [] prev (nx m prev))
    else (setRef m n ⟨.NONE, next⟩, .aCas k v n prev next)
  | .aCas k v n prev next =>
    match cas m prev ⟨.NONE, next⟩ ⟨.NONE, n⟩ with
    | (m', true) => ({ m' with added := n :: m'.added }, .ret (.add true))
    | (m', false) => (m', .rMark k v n prev)
  | .rMark k v n prev => (m, .rPtr k v n prev (mark m prev))
  | .rPtr k v n prev b =>
    if b = .FLAGGED then (m, .hBack (.failed k v n prev) [] prev (nx m prev)) else (m, .aWait k v n prev)
  | .aWait k v n prev =>
    if prev = NULL then (m, .aWait k v n prev)
    else if mark m prev = .MARKED then (m, .aBack k v n prev)
    else (m, .sFirst (.again k v n))
  | .aBack k v n prev => (m, .aWait k v n (bl m prev))
  | .fPtr target prev => if nx m prev = target then (m, .fUnmarked target prev) else (m, .fCas target prev)
  | .fUnmarked target prev => if mark m prev ≠ .MARKED then (m, .fFlagged target prev) else (m, .fCas target prev)
  | .fFlagged target prev =>
    if mark m prev = .FLAGGED then (m, .hBack (.delete target false) [] prev target) else (m, .fCas target prev)
  | .fCas target prev =>
    match cas m prev ⟨.NONE, target⟩ ⟨.FLAGGED, target⟩ with
    | (m', true) => ({ m' with flags := (target, t) :: m'.flags }, .hBack (.delete target true) [] prev target)
    | (m', false) => (m', .gMark target prev)
  | .gMark target prev => (m, .gPtr target prev (mark m prev))
  | .gPtr target prev b =>
    if nx m prev = target ∧ b = .FLAGGED then (m, .hBack (.delete target false) [] prev target)
    else (m, .fWait target prev)
  | .fWait target prev =>
    if prev = NULL then (m, .fWait target prev)
    else if mark m prev = .MARKED then (m, .fBack target prev)
    else (m, .fPtr target prev)
  | .fBack target prev => (m, .fWait target (bl m prev))
  | .hBack h fs prev del =>
    if del = NULL then (m, .hBack h fs prev del) else (setBacklink m del prev, .hTest h fs prev del)
  | .hTest h fs prev del => if mark m del ≠ .MARKED then (m, .mNext h fs prev del) else (m, .hAssert h fs prev del)
  | .mNext h fs prev del => (m, .mCas h fs prev del (nx m del))
  | .mCas h fs prev del next => ((cas m del ⟨.NONE, next⟩ ⟨.MARKED, next⟩).1, .mMark h fs prev del)
  | .mMark h fs prev del => (m, .mPtr h fs prev del (mark m del))
  | .mPtr h fs prev del b =>
    if b = .FLAGGED then (m, .hBack h ((prev, del) :: fs) del (nx m del)) else (m, .mWhile h fs prev del)
  | .mWhile h fs prev del => if mark m del ≠ .MARKED then (m, .mNext h fs prev del) else (m, .hAssert h fs prev del)
  | .hAssert h fs prev del => if nx m del = NULL then (m, .hAssert h fs prev del) else (m, .hNext h fs prev del)
  | .hNext h fs prev del => (m, .hCas h fs prev del (nx m del))
  | .hCas h fs prev del next => helped t (cas m prev ⟨.FLAGGED, del⟩ ⟨.NONE, next⟩).1 h fs

/-- the first point of a call -/
def start : Op → Loc
  | .add k v => .sFirst (.add k v)
  | .delete k => .sFirst (.delete k)
  | .find k => .sFirst (.find k)

/-- a call starts when the thread is in none, on a key strictly between INT_MIN and INT_MAX -/
def canInvoke (l : Loc) (op : Op) : Bool :=
  match l with
  | .idle | .ret _ => decide (INT_MIN < op.key ∧ op.key < INT_MAX)
  | _ => false

def step (t : ℕ) (m : Mem) (l : Loc) : Act → Mem × Loc
  | .invoke op => (m, if canInvoke l op then start op else l)
  | .step => exec t m l

def sys : Sys Mem Loc Act := ⟨initList, .idle, step⟩

/-! ## What is observed -/

/-- the node of the `delete` the thread is in, if it has flagged it -/
def Helper.flagging : Helper → Option ℕ
  | .delete target true => some target
  | _ => none

def flagging : Loc → Option ℕ
  | .hBack h _ _ _ | .hTest h _ _ _ | .mNext h _ _ _ | .mCas h _ _ _ _ | .mMark h _ _ _ | .mPtr h _ _ _ _
  | .mWhile h _ _ _ | .hAssert h _ _ _ | .hNext h _ _ _ | .hCas h _ _ _ _ => h.flagging
  | _ => none

/-- how many deletes have flagged node d -/
def flagCount (m : Mem) (d : ℕ) : ℕ := m.flags.countP fun x => x.1 = d

/-- every node that is marked was flagged by exactly one delete, and a delete that flagged a node is still in its call or has
returned true -/
structure Flagged (s : St Mem Loc) : Prop where
  once : ∀ d, mark s.sh d = .MARKED → flagCount s.sh d = 1
  returns : ∀ d t, (d, t) ∈ s.sh.flags → (d, t) ∈ s.sh.returned ∨ flagging (s.loc t) = some d

/-- a node that becomes MARKED from m to m' is pointed to, in m, by a FLAGGED `succ` of a node reachable from head -/
def MarksFlagged (m m' : Mem) : Prop :=
  ∀ d, mark m d ≠ .MARKED → mark m' d = .MARKED → ∃ p, Reach (nx m) head p ∧ ref m p = ⟨.FLAGGED, d⟩

end AlgorithmCollection.LockFreeList
