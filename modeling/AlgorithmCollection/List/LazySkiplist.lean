/-
Model of `list/LazySkiplist.c`, the optimistic skiplist, as a system of threads.

`search` walks down the levels without locks and records in preds and succs the two nodes around the key at each level.
`_add` locks the preds of the levels of its new node one by one, validates each, links the node bottom-up and then sets
`fullyLinked`. `_delete` locks and marks its victim once, then searches again until it has locked and validated all preds,
and unlinks the victim top-down.

Atomic steps: every lock and unlock, and every load and store of a field of a shared node (key, val and topLevel never
change after `create_node`, so tests on them are one step with the load). Mutexes are recursive: the holder and how often
it has locked. A lock held by another thread blocks. `sl->head` and `sl->tail` are the constants `head` and `tail`; the
workspace of a thread (preds, succs) is local, and `search` writes each entry before it is read. `rand()` is an argument
of the invocation. `calloc` in `create_node` succeeds, since `_add` uses its result unchecked. A failed assert leads to
the point `aborted`. `free_node` is empty in this build.
-/
import AlgorithmCollection.Conc.Chain
import AlgorithmCollection.Conc.Linearizable
import AlgorithmCollection.Conc.MapObject

namespace AlgorithmCollection.LazySkiplist

open Conc
open Function (update)

def NULL : ℕ := 0

/-- `sl->head` -/
def head : ℕ := 1

/-- `sl->tail` -/
def tail : ℕ := 2

/-- the arguments of `init_list`; without `min < max` there would be no key to use -/
structure Params where
  maxLevel : ℕ
  min : ℤ
  max : ℤ
  pos : 0 < maxLevel
  lt : min < max

/-- `skiplist_node_t`; the mutex is in `Mem.mtx` -/
structure Node where
  key : ℤ
  val : ℤ
  topLevel : ℕ
  marked : Bool
  fullyLinked : Bool
  next : ℕ → ℕ

/-- shared memory: the nodes, the thread holding each mutex and how often, and the next address `calloc` returns -/
structure Mem where
  node : ℕ → Node
  mtx : ℕ → Option (ℕ × ℕ)
  fresh : ℕ

abbrev Op := MapOp ℤ ℤ

abbrev Res := MapRes ℤ

/-- a key callers may use -/
def inRange (P : Params) (k : ℤ) : Prop := P.min < k ∧ k < P.max

def opInRange (P : Params) : Op → Prop
  | .add k _ | .delete k | .find k => inRange P k
  | .contains _ => False

abbrev ValidOp (P : Params) := { op : Op // opInRange P op }

/-- `workspace_t` -/
structure Ws where
  preds : ℕ → ℕ
  succs : ℕ → ℕ

def Ws.init : Ws := ⟨fun _ => NULL, fun _ => NULL⟩

/-- `preds[level] = pred; succs[level] = curr` -/
def Ws.set (ws : Ws) (level pred curr : ℕ) : Ws :=
  ⟨update ws.preds level pred, update ws.succs level curr⟩

/-- what `_delete` has marked: `topLevel`, which it keeps, and the node, which it searches again (no step reads it) -/
structure Mark where
  victim : ℕ
  topLevel : ℕ
deriving DecidableEq, Repr

/-- the call that searches; for `_delete`, `mark` is some iff isMarked is true -/
inductive Ctx where
  | add (key val : ℤ) (topLevel : ℕ)
  | delete (key : ℤ) (mark : Option Mark)
  | find (key : ℤ)
deriving DecidableEq, Repr

def Ctx.key : Ctx → ℤ
  | .add k _ _ | .delete k _ | .find k => k

/-- the call that locks preds; `_delete` has found its victim at level lFound -/
inductive Job where
  | add (key val : ℤ) (topLevel : ℕ)
  | delete (key : ℤ) (mark : Mark) (victim lFound : ℕ)
deriving DecidableEq, Repr

/-- the search a call repeats -/
def Job.ctx : Job → Ctx
  | .add k v top => .add k v top
  | .delete k mk _ _ => .delete k (some mk)

def Job.key (j : Job) : ℤ := j.ctx.key

def Job.topLevel : Job → ℕ
  | .add _ _ top => top
  | .delete _ mk _ _ => mk.topLevel

/-- what `preds[level]->next[level]` has to be -/
def Job.succ (j : Job) (ws : Ws) (level : ℕ) : ℕ :=
  match j with
  | .add _ _ _ => ws.succs level
  | .delete _ _ victim _ => victim

inductive Loc where
  | idle
  | ret (op : Op) (r : Res)
  | retFind (key val : ℤ)
  | aborted                                                              -- an assert has failed
  -- search
  | load (c : Ctx) (ws : Ws) (lFound : Option ℕ) (level pred : ℕ)        -- curr = pred->next[level]
  | test (c : Ctx) (ws : Ws) (lFound : Option ℕ) (level pred curr : ℕ)   -- while (key > curr->key)
  | found (c : Ctx) (ws : Ws) (lFound : Option ℕ)                        -- search has returned
  -- locking preds
  | lockPred (j : Job) (ws : Ws) (level : ℕ)                             -- lock(pred->mtx)
  | valid1 (j : Job) (ws : Ws) (level : ℕ)                               -- pred->marked != true
  | valid2 (j : Job) (ws : Ws) (level : ℕ)                               -- _add: succ->marked != true
  | valid3 (j : Job) (ws : Ws) (level : ℕ)                               -- pred->next[level] == succ (victim)
  | retry (j : Job) (ws : Ws) (highestLocked i : ℕ)                      -- unlock(preds[i]->mtx), then search again
  -- _add
  | chkMarked (key val : ℤ) (top : ℕ) (nodeFound : ℕ)                    -- if (nodeFound->marked != true)
  | spin (key val : ℤ) (nodeFound : ℕ)                                   -- while (nodeFound->fullyLinked != true)
  | assert1 (key val : ℤ) (top : ℕ) (ws : Ws) (level : ℕ)                -- assert(pred->marked != true)
  | assert2 (key val : ℤ) (top : ℕ) (ws : Ws) (level : ℕ)                -- assert(pred->next[level] == succ)
  | create (key val : ℤ) (top : ℕ) (ws : Ws)                             -- newNode = create_node(topLevel, key, val)
  | link1 (key val : ℤ) (top : ℕ) (ws : Ws) (newNode level : ℕ)          -- newNode->next[level] = succs[level]
  | link2 (key val : ℤ) (top : ℕ) (ws : Ws) (newNode level : ℕ)          -- preds[level]->next[level] = newNode
  | full (key val : ℤ) (top : ℕ) (ws : Ws) (newNode : ℕ)                 -- newNode->fullyLinked = true
  | addUnlock (key val : ℤ) (top : ℕ) (ws : Ws) (level : ℕ)              -- unlock(preds[level]->mtx)
  -- _delete
  | flag1 (key : ℤ) (mark : Option Mark) (ws : Ws) (lFound victim : ℕ)   -- victim->fullyLinked == true
  | flag2 (key : ℤ) (mark : Option Mark) (ws : Ws) (lFound victim : ℕ)   -- victim->topLevel == lFound
  | flag3 (key : ℤ) (mark : Option Mark) (ws : Ws) (lFound victim : ℕ)   -- victim->marked != true
  | lockVictim (key : ℤ) (ws : Ws) (lFound victim top : ℕ)               -- lock(victim->mtx)
  | recheck (key : ℤ) (ws : Ws) (lFound victim top : ℕ)                  -- if (victim->marked == true)
  | giveUp (key : ℤ) (victim : ℕ)                                        -- unlock(victim->mtx); return false
  | mark (key : ℤ) (ws : Ws) (lFound victim top : ℕ)                     -- victim->marked = true
  | unlink1 (key : ℤ) (mark : Mark) (ws : Ws) (lFound victim level : ℕ)  -- victim->next[level]
  | unlink2 (key : ℤ) (mark : Mark) (ws : Ws) (lFound victim level succ : ℕ) -- preds[level]->next[level] = succ
  | unlockVictim (key : ℤ) (mark : Mark) (ws : Ws) (lFound victim : ℕ)   -- unlock(victim->mtx)
  | delUnlock (key : ℤ) (mark : Mark) (ws : Ws) (lFound victim i : ℕ)    -- unlock(preds[i]->mtx)
  | getVal (key : ℤ) (mark : Mark) (victim : ℕ)                          -- *val = victim->val
  -- _find
  | find1 (key : ℤ) (ws : Ws) (lFound : ℕ)                               -- succs[lFound]->fullyLinked != true
  | find2 (key : ℤ) (ws : Ws) (lFound : ℕ)                               -- succs[lFound]->marked == true
  | find3 (key : ℤ) (ws : Ws)                                            -- preds[0]->next[0]
  | find4 (key : ℤ) (node : ℕ)                                           -- ->val

inductive Act (P : Params) where
  | invoke (op : ValidOp P) (rand : ℕ)
  | step

/-! ## Memory -/

def setNode (m : Mem) (a : ℕ) (n : Node) : Mem := { m with node := update m.node a n }

/-- `a->next[level] = b` -/
def setNext (m : Mem) (a level b : ℕ) : Mem :=
  setNode m a { m.node a with next := update (m.node a).next level b }

def setMarked (m : Mem) (a : ℕ) : Mem := setNode m a { m.node a with marked := true }

def setFull (m : Mem) (a : ℕ) : Mem := setNode m a { m.node a with fullyLinked := true }

/-- `create_node` -/
def createNode (m : Mem) (topLevel : ℕ) (key val : ℤ) : Mem :=
  { node := update m.node m.fresh ⟨key, val, topLevel, false, false, fun _ => NULL⟩
    mtx := update m.mtx m.fresh none
    fresh := m.fresh + 1 }

/-- thread t may lock a: it is free, or held by t already -/
def canLock (m : Mem) (t a : ℕ) : Bool :=
  match m.mtx a with
  | none => true
  | some (u, _) => u = t

/-- locking a recursive mutex that is free or held by t -/
def acquire (m : Mem) (t a : ℕ) : Mem :=
  { m with mtx := update m.mtx a (some (t, match m.mtx a with | none => 1 | some (_, n) => n + 1)) }

/-- unlocking a recursive mutex; nothing happens if t does not hold it -/
def release (m : Mem) (t a : ℕ) : Mem :=
  match m.mtx a with
  | some (u, n) =>
    if u = t then { m with mtx := update m.mtx a (if n ≤ 1 then none else some (t, n - 1)) } else m
  | none => m

/-- `lock(a->mtx)` by thread t at l, going on at l' -/
def lock (t : ℕ) (m : Mem) (a : ℕ) (l l' : Loc) : Mem × Loc := if canLock m t a then (acquire m t a, l') else (m, l)

/-! ## Steps -/

section Steps

variable (P : Params)

/-- `search` starts at the highest level -/
def search (c : Ctx) : Loc := .load c Ws.init none (P.maxLevel - 1) head

/-- the end of the walk at one level: `lFound`, `preds[level]`, `succs[level]`, and the next level -/
def endLevel (m : Mem) (c : Ctx) (ws : Ws) (lFound : Option ℕ) (level pred curr : ℕ) : Loc :=
  let lFound' := if lFound = none ∧ c.key = (m.node curr).key then some level else lFound
  match level with
  | 0 => .found c (ws.set 0 pred curr) lFound'
  | l + 1 => .load c (ws.set (l + 1) pred curr) lFound' l pred

/-- what each call does with the result of `search` -/
def afterSearch (ws : Ws) : Ctx → Option ℕ → Loc
  | .add k v top, none => .lockPred (.add k v top) ws 0
  | .add k v top, some f => .chkMarked k v top (ws.succs f)
  | .delete k _, none => .ret (.delete k) (.delete none)
  | .delete k mark, some f => .flag1 k mark ws f (ws.succs f)
  | .find k, none => .retFind k 0
  | .find k, some f => .find1 k ws f

/-- `_delete` after the flag: a marked victim needs no flag -/
def afterFlag (m : Mem) (k : ℤ) (mark : Option Mark) (ws : Ws) (lFound victim : ℕ) (flag : Bool) : Loc :=
  match mark, flag with
  | some mk, _ => .lockPred (.delete k mk victim lFound) ws 0
  | none, true => .lockVictim k ws lFound victim (m.node victim).topLevel
  | none, false => .ret (.delete k) (.delete none)

/-- `pred->marked` has been read as false -/
def afterValid1 (j : Job) (ws : Ws) (level : ℕ) : Loc :=
  match j with
  | .add _ _ _ => .valid2 j ws level
  | .delete _ _ _ _ => .valid3 j ws level

/-- preds[level] is locked and valid: the next level, or the critical section -/
def afterValid (m : Mem) (j : Job) (ws : Ws) (level : ℕ) : Loc :=
  if level < j.topLevel then .lockPred j ws (level + 1)
  else
    match j with
    | .add k v top => .assert1 k v top ws 0
    | .delete k mk victim f => .unlink1 k mk ws f victim (m.node victim).topLevel

/-- the next atomic step of thread t -/
def exec (t : ℕ) (m : Mem) : Loc → Mem × Loc
  | .idle => (m, .idle)
  | .ret op r => (m, .ret op r)
  | .retFind k v => (m, .retFind k v)
  | .aborted => (m, .aborted)
  | .load c ws lFound level pred => (m, .test c ws lFound level pred ((m.node pred).next level))
  | .test c ws lFound level pred curr =>
    (m, if c.key > (m.node curr).key then .load c ws lFound level curr else endLevel m c ws lFound level pred curr)
  | .found c ws lFound => (m, afterSearch ws c lFound)
  | .lockPred j ws level => lock t m (ws.preds level) (.lockPred j ws level) (.valid1 j ws level)
  | .valid1 j ws level =>
    (m, if (m.node (ws.preds level)).marked then .retry j ws level 0 else afterValid1 j ws level)
  | .valid2 j ws level =>
    (m, if (m.node (ws.succs level)).marked then .retry j ws level 0 else .valid3 j ws level)
  | .valid3 j ws level =>
    (m, if (m.node (ws.preds level)).next level = j.succ ws level then afterValid m j ws level else .retry j ws level 0)
  | .retry j ws h i =>
    (release m t (ws.preds i), if i < h then .retry j ws h (i + 1) else search P j.ctx)
  | .chkMarked k v top n => (m, if (m.node n).marked then search P (.add k v top) else .spin k v n)
  | .spin k v n => (m, if (m.node n).fullyLinked then .ret (.add k v) (.add false) else .spin k v n)
  | .assert1 k v top ws level =>
    (m, if (m.node (ws.preds level)).marked then .aborted else .assert2 k v top ws level)
  | .assert2 k v top ws level =>
    (m, if (m.node (ws.preds level)).next level = ws.succs level then
      (if level < top then .assert1 k v top ws (level + 1) else .create k v top ws) else .aborted)
  | .create k v top ws => (createNode m top k v, .link1 k v top ws m.fresh 0)
  | .link1 k v top ws n level => (setNext m n level (ws.succs level), .link2 k v top ws n level)
  | .link2 k v top ws n level =>
    (setNext m (ws.preds level) level n,
      if level < top then .link1 k v top ws n (level + 1) else .full k v top ws n)
  | .full k v top ws n => (setFull m n, .addUnlock k v top ws 0)
  | .addUnlock k v top ws level =>
    (release m t (ws.preds level),
      if level < top then .addUnlock k v top ws (level + 1) else .ret (.add k v) (.add true))
  | .flag1 k mark ws f victim =>
    (m, if (m.node victim).fullyLinked then .flag2 k mark ws f victim else afterFlag m k mark ws f victim false)
  | .flag2 k mark ws f victim =>
    (m, if (m.node victim).topLevel = f then .flag3 k mark ws f victim else afterFlag m k mark ws f victim false)
  | .flag3 k mark ws f victim => (m, afterFlag m k mark ws f victim (!(m.node victim).marked))
  | .lockVictim k ws f victim top => lock t m victim (.lockVictim k ws f victim top) (.recheck k ws f victim top)
  | .recheck k ws f victim top =>
    (m, if (m.node victim).marked then .giveUp k victim else .mark k ws f victim top)
  | .giveUp k victim => (release m t victim, .ret (.delete k) (.delete none))
  | .mark k ws f victim top => (setMarked m victim, .lockPred (.delete k ⟨victim, top⟩ victim f) ws 0)
  | .unlink1 k mk ws f victim level => (m, .unlink2 k mk ws f victim level ((m.node victim).next level))
  | .unlink2 k mk ws f victim level succ =>
    (setNext m (ws.preds level) level succ,
      match level with
      | 0 => .unlockVictim k mk ws f victim
      | l + 1 => .unlink1 k mk ws f victim l)
  | .unlockVictim k mk ws f victim => (release m t victim, .delUnlock k mk ws f victim 0)
  | .delUnlock k mk ws f victim i =>
    (release m t (ws.preds i), if i < f then .delUnlock k mk ws f victim (i + 1) else .getVal k mk victim)
  | .getVal k _ victim => (m, .ret (.delete k) (.delete (some (m.node victim).val)))
  | .find1 k ws f => (m, if (m.node (ws.succs f)).fullyLinked then .find2 k ws f else .retFind k 0)
  | .find2 k ws f => (m, if (m.node (ws.succs f)).marked then .retFind k 0 else .find3 k ws)
  | .find3 k ws => (m, .find4 k ((m.node (ws.preds 0)).next 0))
  -- `_find` returns a `bool_t`, which is a char
  | .find4 k node => (m, .retFind k ((m.node node).val.bmod 256))

/-- the first search of a call; `_add` takes its level from `rand()` -/
def entry (rand : ℕ) : Op → Loc
  | .add k v => search P (.add k v (rand % P.maxLevel))
  | .delete k => search P (.delete k none)
  | .find k => search P (.find k)
  | .contains _ => .idle

/-- a thread can start a call when it is not inside one -/
def canInvoke : Loc → Bool
  | .idle | .ret _ _ | .retFind _ _ => true
  | _ => false

def step (t : ℕ) (m : Mem) (l : Loc) : Act P → Mem × Loc
  | .invoke op rand => (m, if canInvoke l then entry P rand op.1 else l)
  | .step => exec P t m l

/-- `init_list` -/
def initList : Mem where
  node := fun a =>
    if a = head then ⟨P.min, P.min, P.maxLevel, false, true, fun l => if l < P.maxLevel then tail else NULL⟩
    else if a = tail then ⟨P.max, P.max, P.maxLevel, false, true, fun _ => NULL⟩
    else ⟨0, 0, 0, false, false, fun _ => NULL⟩
  mtx := fun _ => none
  fresh := 3

def sys : Sys Mem Loc (Act P) := ⟨initList P, .idle, step P⟩

end Steps

/-! ## What is observed of a run -/

def Ctx.status : Ctx → Status Op Res
  | .add k v _ => .busy (.add k v)
  | .delete k _ => .busy (.delete k)
  | .find _ => .idle

/-- the calls of add and delete; `find` is not one of the operations of the map -/
def status : Loc → Status Op Res
  | .idle | .aborted | .retFind _ _ | .find1 _ _ _ | .find2 _ _ _ | .find3 _ _ | .find4 _ _ => .idle
  | .ret op r => .done op r
  | .load c _ _ _ _ | .test c _ _ _ _ _ | .found c _ _ => c.status
  | .lockPred j _ _ | .valid1 j _ _ | .valid2 j _ _ | .valid3 j _ _ | .retry j _ _ _ => j.ctx.status
  | .chkMarked k v _ _ | .spin k v _ | .assert1 k v _ _ _ | .assert2 k v _ _ _ | .create k v _ _ | .link1 k v _ _ _ _
  | .link2 k v _ _ _ _ | .full k v _ _ _ | .addUnlock k v _ _ _ => .busy (.add k v)
  | .flag1 k _ _ _ _ | .flag2 k _ _ _ _ | .flag3 k _ _ _ _ | .lockVictim k _ _ _ _ | .recheck k _ _ _ _ | .giveUp k _
  | .mark k _ _ _ _ | .unlink1 k _ _ _ _ _ | .unlink2 k _ _ _ _ _ _ | .unlockVictim k _ _ _ _
  | .delUnlock k _ _ _ _ _ | .getVal k _ _ => .busy (.delete k)

/-- the nodes reachable from head at a level, up to tail or NULL -/
def nodes (m : Mem) (level : ℕ) : List ℕ :=
  walk (fun a => (m.node a).next level) (fun a => a = tail ∨ a = NULL) m.fresh ((m.node head).next level)

/-- the map of the keys of the fully linked unmarked nodes -/
def contents (m : Mem) : ℤ → Option ℤ :=
  lookup ((nodes m 0).filter fun a => (m.node a).fullyLinked && !(m.node a).marked) (fun a => (m.node a).key)
    (fun a => (m.node a).val)

def map : Object Mem Loc Op Res (ℤ → Option ℤ) := ⟨status, contents, mapSpec⟩

end AlgorithmCollection.LazySkiplist
