/-
`LockFreeSkiplist` run by any number of threads: `_add`, `_delete` and `search` of `src/list/LockFreeSkiplist.c` as a system
of threads over the memory of `LockFreeSkiplist`.

Atomic steps: every load of `next_node_ptr`, every load of `mark`, every store of one of them into a node other threads can
reach, and every `cas`. The key, value and topLevel of a node do not change after `create_node` and are read together with
the access before. `create_node` and the loop that fills in the new tower write memory no other thread can reach and are
one step. A thread that would follow NULL stops. In `_delete` the mark read before the last loop is overwritten before it
is used, so that load is left out.

`added` and `marked` are history variables: the nodes whose bottom-level cas in `_add` succeeded, and the nodes whose
`tower[0]` was marked by the cas of `_delete`. No step reads them.
-/
import AlgorithmCollection.List.LockFreeSkiplist
import AlgorithmCollection.Conc.Threads
import AlgorithmCollection.Conc.Reach

namespace AlgorithmCollection.LockFreeSkiplist

open Conc

/-- `init_list(maxLevel, min, max)` -/
structure Params where
  maxLevel : ℕ
  pos : 0 < maxLevel
  min : ℤ
  max : ℤ

/-- the list and the history of its bottom level -/
structure Shared where
  mem : Mem
  added : List ℕ
  marked : List ℕ

/-- the caller of `search` -/
inductive Caller where
  | add (key val : ℤ) (topLevel : ℕ)                 -- if (search(..) == true) return false
  | link (key val : ℤ) (topLevel newNode level : ℕ)  -- search(..) after a failed cas at this level
  | delete (key : ℤ)                                 -- if (search(..) == false) return false
  | clean (key : ℤ) (victim : ℕ)                     -- search(..) after the cas that marked the victim

def Caller.key : Caller → ℤ
  | .add k _ _ | .link k _ _ _ _ | .delete k | .clean k _ => k

inductive Loc where
  | idle
  | ret (r : Res)
  | start (c : Caller) (ws : Workspace)                                 -- pred = sl->head
  | first (c : Caller) (ws : Workspace) (level pred : ℕ)                -- curr = pred->tower[level].next_node_ptr
  | succ (c : Caller) (ws : Workspace) (level pred curr : ℕ)            -- succ = curr->tower[level].next_node_ptr
  | mark (c : Caller) (ws : Workspace) (level pred curr succ : ℕ)       -- marked = curr->tower[level].mark
  | snip (c : Caller) (ws : Workspace) (level pred curr succ : ℕ)       -- snip = cas(..)
  | create (key val : ℤ) (topLevel : ℕ) (ws : Workspace)                -- newNode = create_node(..), filled in
  | bottom (key val : ℤ) (topLevel : ℕ) (ws : Workspace) (newNode : ℕ)  -- cas at the bottom level
  | link (key val : ℤ) (topLevel : ℕ) (ws : Workspace) (newNode level : ℕ)  -- cas at a level above
  | dSucc (key : ℤ) (ws : Workspace) (victim level : ℕ)                 -- succ = victim->tower[level].next_node_ptr
  | dMark (key : ℤ) (ws : Workspace) (victim level succ : ℕ)            -- marked = victim->tower[level].mark
  | dPut1 (key : ℤ) (ws : Workspace) (victim level succ : ℕ)            -- victim->tower[level].next_node_ptr = succ
  | dPut2 (key : ℤ) (ws : Workspace) (victim level : ℕ)                 -- victim->tower[level].mark = MARKED
  | dCas (key : ℤ) (ws : Workspace) (victim succ : ℕ)                   -- iMarkedIt = cas(..)
  | dRe1 (key : ℤ) (ws : Workspace) (victim : ℕ) (ok : Bool)            -- succ = succs[0]->tower[0].next_node_ptr
  | dRe2 (key : ℤ) (ws : Workspace) (victim succ : ℕ) (ok : Bool)       -- marked = succs[0]->tower[0].mark
  | dVal (victim : ℕ)                                                   -- *val = victim->val

abbrev Act := Conc.Act Op

/-! ## The steps of the functions -/

/-- the calls begin with the workspace zeroed by `calloc`; what an earlier call left there is overwritten by `search` -/
def Workspace.empty : Workspace := ⟨fun _ => NULL, fun _ => NULL⟩

/-- `search` returns `found` to its caller -/
def Caller.next (m : Mem) (ws : Workspace) (found : Bool) : Caller → Loc
  | .add k v top => if found then .ret (.add false) else .create k v top ws
  | .link k v top n level => .link k v top ws n level
  | .delete k => if found then .dSucc k ws (ws.succs 0) (tp m (ws.succs 0)) else .ret (.delete none)
  | .clean _ victim => .dVal victim

/-- the rest of the round of `search` for an unmarked curr: the key is compared, and the loop over the level goes on or
ends -/
def advance (m : Mem) (c : Caller) (ws : Workspace) (level pred curr succ : ℕ) : Loc :=
  if c.key > ky m curr then .succ c ws level curr succ
  else
    let ws' : Workspace := ⟨Function.update ws.preds level pred, Function.update ws.succs level curr⟩
    match level with
    | 0 => c.next m ws' (decide (ky m curr = c.key))
    | level + 1 => .first c ws' level pred

/-- `create_node` and the loop over the levels of the new tower -/
def newTower (m : Mem) (topLevel : ℕ) (key val : ℤ) (succs : ℕ → ℕ) : Mem :=
  setRef ((List.range (topLevel + 1)).foldl (fill m.fresh succs) (createNode m topLevel key val)) m.fresh 0
    ⟨.UNMARKED, succs 0⟩

/-- the atomic step of a thread at each point of its program -/
def exec (s : Shared) : Loc → Shared × Loc
  | .idle => (s, .idle)
  | .ret r => (s, .ret r)
  | .start c ws => (s, .first c ws (s.mem.maxLevel - 1) s.mem.head)
  | .first c ws level pred => (s, .succ c ws level pred (nx s.mem level pred))
  | .succ c ws level pred curr =>
    if curr = NULL then (s, .succ c ws level pred curr) else (s, .mark c ws level pred curr (nx s.mem level curr))
  | .mark c ws level pred curr succ =>
    match mk s.mem level curr with
    | .MARKED => (s, .snip c ws level pred curr succ)
    | .UNMARKED => (s, advance s.mem c ws level pred curr succ)
  | .snip c ws level pred curr succ =>
    match cas s.mem pred level ⟨.UNMARKED, curr⟩ ⟨.UNMARKED, succ⟩ with
    | (m, true) => ({ s with mem := m }, .first c ws level pred)
    | (m, false) => ({ s with mem := m }, .start c ws)
  | .create k v top ws => ({ s with mem := newTower s.mem top k v ws.succs }, .bottom k v top ws s.mem.fresh)
  | .bottom k v top ws n =>
    match cas s.mem (ws.preds 0) 0 ⟨.UNMARKED, ws.succs 0⟩ ⟨.UNMARKED, n⟩ with
    | (m, true) => ({ s with mem := m, added := n :: s.added }, .link k v top ws n 1)
    | (m, false) => ({ s with mem := m }, .start (.add k v top) ws)
  | .link k v top ws n level =>
    if level ≤ top then
      match cas s.mem (ws.preds level) level ⟨.UNMARKED, ws.succs level⟩ ⟨.UNMARKED, n⟩ with
      | (m, true) => ({ s with mem := m }, .link k v top ws n (level + 1))
      | (m, false) => ({ s with mem := m }, .start (.link k v top n level) ws)
    else (s, .ret (.add true))
  | .dSucc k ws victim level =>
    match level with
    | 0 => (s, .dCas k ws victim (nx s.mem 0 victim))
    | level + 1 => (s, .dMark k ws victim (level + 1) (nx s.mem (level + 1) victim))
  | .dMark k ws victim level succ =>
    match mk s.mem level victim with
    | .UNMARKED => (s, .dPut1 k ws victim level succ)
    | .MARKED => (s, .dSucc k ws victim (level - 1))
  | .dPut1 k ws victim level succ =>
    ({ s with mem := setRef s.mem victim level ⟨mk s.mem level victim, succ⟩ }, .dPut2 k ws victim level)
  | .dPut2 k ws victim level =>
    ({ s with mem := setRef s.mem victim level ⟨.MARKED, nx s.mem level victim⟩ }, .dSucc k ws victim level)
  | .dCas k ws victim succ =>
    match cas s.mem victim 0 ⟨.UNMARKED, succ⟩ ⟨.MARKED, succ⟩ with
    | (m, true) => ({ s with mem := m, marked := victim :: s.marked }, .dRe1 k ws victim true)
    | (m, false) => ({ s with mem := m }, .dRe1 k ws victim false)
  | .dRe1 k ws victim ok => (s, .dRe2 k ws victim (nx s.mem 0 (ws.succs 0)) ok)
  | .dRe2 k ws victim succ ok =>
    if ok then (s, .start (.clean k victim) ws)
    else
      match mk s.mem 0 (ws.succs 0) with
      | .MARKED => (s, .ret (.delete none))
      | .UNMARKED => (s, .dCas k ws victim succ)
  | .dVal victim => (s, .ret (.delete (some (vl s.mem victim))))

/-- the first point of a call -/
def begin (m : Mem) : Op → Loc
  | .add k v r => .start (.add k v (r % m.maxLevel)) Workspace.empty
  | .delete k => .start (.delete k) Workspace.empty

/-- a call starts when the thread is in none, on a key strictly between min and max -/
def canInvoke (P : Params) (l : Loc) (op : Op) : Bool :=
  match l with
  | .idle | .ret _ => decide (P.min < op.key ∧ op.key < P.max)
  | _ => false

def step (P : Params) (_ : ℕ) (s : Shared) (l : Loc) : Act → Shared × Loc
  | .invoke op => (s, if canInvoke P l op then begin s.mem op else l)
  | .step => exec s l

def sys (P : Params) : Sys Shared Loc Act := ⟨⟨initList P.maxLevel P.min P.max, [], []⟩, .idle, step P⟩

/-! ## What is observed -/

/-- every node added at the bottom level and not marked there by a delete is reachable from head through `tower[0]` -/
def AddsKept (s : Shared) : Prop := ∀ a ∈ s.added, a ∉ s.marked → Reach (nx s.mem 0) s.mem.head a

end AlgorithmCollection.LockFreeSkiplist
