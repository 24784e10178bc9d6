/-
Model of `list/NonBlockingList.c`: `search`, `add`, `delete` and `find` as a system of threads.

A link is a pair of a mark and a pointer that `cas` compares and swaps as one; loads and stores take one of its fields.
MARKED is 0, so a node fresh from `calloc` is MARKED until `add` writes its link. Atomic steps: every load or store of a
field of a link and every `cas`. Keys and values do not change after `create_node` and are read together with the access
before, the new node of an `add` is written where no other thread can reach it, and the assertion after the loop of
`search` holds whenever the loop ends, so it reads nothing. A thread that would follow NULL or fails an assertion stops
(`abort`). Nodes are not freed (`_FREE_` is not defined). Allocation succeeds. Head is node 1, tail is node 2.

`log` is a history variable: the updates that returned true, in the order of their last steps. No step reads it.
-/
import AlgorithmCollection.Conc.Chain
import AlgorithmCollection.Conc.Threads
import AlgorithmCollection.Conc.Updates

namespace AlgorithmCollection.NonBlockingList

open Conc

def NULL : ℕ := 0

def INT_MIN : ℤ := -2 ^ 31

def INT_MAX : ℤ := 2 ^ 31 - 1

def head : ℕ := 1

def tail : ℕ := 2

/-- `node_stat` -/
inductive Stat where
  | MARKED
  | UNMARKED
deriving DecidableEq, Repr

/-- `next_ref` -/
structure Ref where
  mark : Stat
  ptr : ℕ
deriving DecidableEq, Repr

/-- `node_t` -/
structure Node where
  key : ℤ
  val : ℤ
  next : Ref
deriving DecidableEq, Repr

structure Mem where
  node : ℕ → Node
  fresh : ℕ
  log : List (Update ℤ ℤ)

def ky (m : Mem) (a : ℕ) : ℤ := (m.node a).key

def vl (m : Mem) (a : ℕ) : ℤ := (m.node a).val

def ref (m : Mem) (a : ℕ) : Ref := (m.node a).next

/-- `get_ptr(a->next)` -/
def nx (m : Mem) (a : ℕ) : ℕ := (ref m a).ptr

/-- `a->next.mark` -/
def mark (m : Mem) (a : ℕ) : Stat := (ref m a).mark

inductive Op where
  | add (key val : ℤ)
  | delete (key : ℤ)
  | find (key : ℤ)
deriving DecidableEq, Repr

def Op.key : Op → ℤ
  | .add k _ | .delete k | .find k => k

/-- `delete` returns true with the value it writes to *val, or false -/
inductive Res where
  | add (ret : Bool)
  | delete (ret : Option ℤ)
  | find (ret : Bool)
deriving DecidableEq, Repr

/-- the caller of `search`; `again` is the search of a `delete` whose second cas failed -/
inductive Caller where
  | add (key val : ℤ) (newNode : ℕ)
  | delete (key : ℤ)
  | again (key : ℤ)
  | find (key : ℤ)
deriving DecidableEq, Repr

def Caller.key : Caller → ℤ
  | .add k _ _ | .delete k | .again k | .find k => k

inductive Loc where
  | idle
  | ret (r : Res)
  | abort
  | create (key val : ℤ)                              -- newNode = create_node(key, val)
  | first (c : Caller) (pred predNext : ℕ)            -- t = list->head; t_next = get_ptr(list->head->next)
  | advance (c : Caller) (pred predNext t tNext : ℕ)  -- if (!is_marked_ref(t_next->next)) ..; t = t_next
  | unmark (c : Caller) (pred predNext t : ℕ)         -- t->next.mark = UNMARKED; if (t == list->tail) break
  | load (c : Caller) (pred predNext t : ℕ)           -- t_next = get_ptr(t->next)
  | test (c : Caller) (pred predNext t tNext : ℕ)     -- while (t->key < key || is_marked_ref(t_next->next))
  | adjacent (c : Caller) (pred predNext curr : ℕ)    -- if (pred_next == curr) if (.. is_marked_ref(curr->next))
  | snip (c : Caller) (pred predNext curr : ℕ)        -- cas(&(*pred)->next, ..)
  | snipped (c : Caller) (pred predNext curr : ℕ)     -- if (.. is_marked_ref(curr->next))
  | check (c : Caller) (pred curr : ℕ)                -- assert (get_ptr((*pred)->next) == curr)
  | fill (key val : ℤ) (newNode pred curr : ℕ)        -- newNode->next = make_ref(curr, UNMARKED)
  | link (key val : ℤ) (newNode pred curr : ℕ)        -- cas(&pred->next, ..)
  | del1 (key : ℤ) (pred curr : ℕ)                    -- curr_next = get_ptr(curr->next)
  | del2 (key : ℤ) (pred curr currNext : ℕ)           -- if (is_unmarked_ref(curr_next->next))
  | del3 (key : ℤ) (pred curr currNext : ℕ)           -- node_ptr = get_ptr(curr->next)
  | del4 (key : ℤ) (pred curr currNext nodePtr : ℕ)   -- curr->next.mark
  | del5 (key : ℤ) (pred curr currNext : ℕ) (old : Ref)  -- cas(&(curr->next), ..)
  | del6 (key : ℤ) (pred curr currNext : ℕ)           -- cas(&(pred->next), ..)
deriving DecidableEq, Repr

abbrev Act := Conc.Act Op

/-! ## Memory -/

def setRef (m : Mem) (a : ℕ) (r : Ref) : Mem := { m with node := Function.update m.node a { m.node a with next := r } }

def record (m : Mem) (u : Update ℤ ℤ) : Mem := { m with log := m.log ++ [u] }

/-- `cas` on `a->next` -/
def cas (m : Mem) (a : ℕ) (oldp newp : Ref) : Mem × Bool := if ref m a = oldp then (setRef m a newp, true) else (m, false)

/-- `create_node` -/
def createNode (m : Mem) (key val : ℤ) : Mem :=
  { m with node := Function.update m.node m.fresh ⟨key, val, ⟨.MARKED, NULL⟩⟩, fresh := m.fresh + 1 }

/-- `init_list` -/
def initList : Mem where
  node a := if a = head then ⟨INT_MIN, 0, ⟨.UNMARKED, tail⟩⟩ else ⟨INT_MAX, 0, ⟨.UNMARKED, NULL⟩⟩
  fresh := 3
  log := []

/-! ## The steps of the functions -/

/-- `search` returns curr, with *pred set -/
def Caller.next (m : Mem) (pred curr : ℕ) : Caller → Mem × Loc
  | .add k v n =>
    if ky m pred < k ∧ k ≤ ky m curr then
      if curr ≠ tail ∧ ky m curr = k then (m, .ret (.add false)) else (m, .fill k v n pred curr)
    else (m, .abort)
  | .delete k =>
    if ky m pred < k ∧ k ≤ ky m curr then
      if curr = tail ∨ ky m curr ≠ k then (m, .ret (.delete none)) else (m, .del1 k pred curr)
    else (m, .abort)
  | .again k => (record m (.delete k (vl m curr)), .ret (.delete (some (vl m curr))))
  | .find k => (m, .ret (.find (decide (¬(curr = tail ∨ ky m curr ≠ k)))))

/-- the atomic step of a thread at each point of its program -/
def exec (m : Mem) : Loc → Mem × Loc
  | .idle => (m, .idle)
  | .ret r => (m, .ret r)
  | .abort => (m, .abort)
  | .create k v => (createNode m k v, .first (.add k v m.fresh) NULL NULL)
  | .first c pred pn => (m, .advance c pred pn head (nx m head))
  | .advance c pred pn t tn =>
    if tn = NULL then (m, .abort)
    else
      match mark m tn with
      | .UNMARKED => (m, .unmark c t tn tn)
      | .MARKED => (m, .unmark c pred pn tn)
  | .unmark c pred pn t =>
    (setRef m t ⟨.UNMARKED, nx m t⟩, if t = tail then .adjacent c pred pn t else .load c pred pn t)
  | .load c pred pn t => (m, .test c pred pn t (nx m t))
  | .test c pred pn t tn =>
    if ky m t < c.key then (m, .advance c pred pn t tn)
    else if tn = NULL then (m, .abort)
    else
      match mark m tn with
      | .MARKED => (m, .advance c pred pn t tn)
      | .UNMARKED => (m, .adjacent c pred pn t)
  | .adjacent c pred pn curr =>
    if pn = curr then
      if curr ≠ tail ∧ mark m curr = .MARKED then (m, .first c pred pn) else c.next m pred curr
    else (m, .snip c pred pn curr)
  | .snip c pred pn curr =>
    if pred = NULL then (m, .abort)
    else
      match cas m pred ⟨.MARKED, pn⟩ ⟨.UNMARKED, curr⟩ with
      | (m', true) => (m', .snipped c pred pn curr)
      | (m', false) => (m', .first c pred pn)
  | .snipped c pred pn curr =>
    if curr ≠ tail ∧ mark m curr = .MARKED then (m, .first c pred pn) else (m, .check c pred curr)
  | .check c pred curr => if nx m pred = curr then c.next m pred curr else (m, .abort)
  | .fill k v n pred curr => (setRef m n ⟨.UNMARKED, curr⟩, .link k v n pred curr)
  | .link k v n pred curr =>
    match cas m pred ⟨.UNMARKED, curr⟩ ⟨.UNMARKED, n⟩ with
    | (m', true) => (record m' (.add k v), .ret (.add true))
    | (m', false) => (m', .first (.add k v n) pred NULL)
  | .del1 k pred curr => (m, .del2 k pred curr (nx m curr))
  | .del2 k pred curr cn =>
    if cn = NULL then (m, .abort)
    else
      match mark m cn with
      | .UNMARKED => (m, .del3 k pred curr cn)
      | .MARKED => (m, .first (.delete k) pred NULL)
  | .del3 k pred curr cn => (m, .del4 k pred curr cn (nx m curr))
  | .del4 k pred curr cn np => (m, .del5 k pred curr cn ⟨mark m curr, np⟩)
  | .del5 k pred curr cn old =>
    match cas m curr old ⟨.MARKED, old.ptr⟩ with
    | (m', true) => (m', .del6 k pred curr cn)
    | (m', false) => (m', .first (.delete k) pred NULL)
  | .del6 k pred curr cn =>
    match cas m pred ⟨.UNMARKED, curr⟩ ⟨.UNMARKED, cn⟩ with
    | (m', true) => (record m' (.delete k (vl m curr)), .ret (.delete (some (vl m curr))))
    | (m', false) => (m', .first (.again (ky m curr)) pred NULL)

/-- the first point of a call -/
def start : Op → Loc
  | .add k v => .create k v
  | .delete k => .first (.delete k) NULL NULL
  | .find k => .first (.find k) NULL NULL

/-- the thread is in no call -/
def outside : Loc → Bool
  | .idle | .ret _ => true
  | _ => false

/-- a call starts when the thread is in none, on a key strictly between INT_MIN and INT_MAX -/
def canInvoke (l : Loc) (op : Op) : Bool := outside l && decide (INT_MIN < op.key ∧ op.key < INT_MAX)

def step (_ : ℕ) (m : Mem) (l : Loc) : Act → Mem × Loc
  | .invoke op => (m, if canInvoke l op then start op else l)
  | .step => exec m l

def sys : Sys Mem Loc Act := ⟨initList, .idle, step⟩

/-! ## What is observed -/

/-- the nodes from head on, up to tail -/
def nodes (m : Mem) : List ℕ := walk (nx m) (fun a => a = tail) m.fresh (nx m head)

/-- the updates that returned true balance, up to the keys of the nodes reachable from head -/
def Preserved (m : Mem) : Prop := Tallied m.log fun k => ∃ a ∈ nodes m, ky m a = k

end AlgorithmCollection.NonBlockingList
