/-
`Skiplist`: the skip list with one lock for the whole list, `src/list/Skiplist.c`.

The lock is held during each call (only `rand` is called before it), so calls do not overlap and the model has none. The
result of `rand`, which is not negative, is an argument of `add`. `search` writes the arrays `preds` and `succs` of the list.
Its inner loop is `Chain.seek`; the fault `stuck` stands for a search that meets NULL or does not come to an end within as
many steps as there are nodes. `create_node` makes a tower of topLevel + 1 links. Allocation succeeds.
-/
import AlgorithmCollection.Conc.Calls
import AlgorithmCollection.Conc.Tower

namespace AlgorithmCollection.Skiplist

open Conc
open Function (update)

def NULL : ℕ := 0

/-- `skiplist_node_t` -/
structure Node where
  key : ℤ
  val : ℤ
  topLevel : ℕ
  next : ℕ → ℕ

/-- `skiplist_t` and the nodes; addresses from `fresh` on are not allocated -/
structure Mem where
  node : ℕ → Node
  maxLevel : ℕ
  head : ℕ
  tail : ℕ
  preds : ℕ → ℕ
  succs : ℕ → ℕ
  fresh : ℕ

inductive Fault where
  | stuck
deriving DecidableEq, Repr

def nx (m : Mem) (level a : ℕ) : ℕ := (m.node a).next level

def ky (m : Mem) (a : ℕ) : ℤ := (m.node a).key

def vl (m : Mem) (a : ℕ) : ℤ := (m.node a).val

def tp (m : Mem) (a : ℕ) : ℕ := (m.node a).topLevel

/-- `a->next[level] = b` -/
def setNext (m : Mem) (a level b : ℕ) : Mem :=
  { m with node := update m.node a { m.node a with next := update (m.node a).next level b } }

/-- `create_node`; the new node is at `fresh` -/
def createNode (m : Mem) (topLevel : ℕ) (key val : ℤ) : Mem :=
  { m with node := update m.node m.fresh ⟨key, val, topLevel, fun _ => NULL⟩, fresh := m.fresh + 1 }

/-- `init_list`: head is node 1, tail is node 2 -/
def initList (maxLevel : ℕ) (min max : ℤ) : Mem where
  node a :=
    if a = 1 then ⟨min, 0, maxLevel, fun level => if level < maxLevel then 2 else NULL⟩
    else ⟨max, 0, maxLevel, fun _ => NULL⟩
  maxLevel := maxLevel
  head := 1
  tail := 2
  preds _ := NULL
  succs _ := NULL
  fresh := 3

/-- the `for` loop of `search`, with levels level - 1, ..., 0 to go; lFound is none for -1 -/
def searchFrom (key : ℤ) : ℕ → Mem → ℕ → Option ℕ → Except Fault (Mem × Option ℕ)
  | 0, m, _, lFound => .ok (m, lFound)
  | level + 1, m, pred, lFound =>
    match Chain.seek (nx m level) (ky m) key m.fresh pred with
    | none => .error .stuck
    | some (pred, curr) =>
      -- the last `curr->key` of the loop
      if curr = NULL then .error .stuck
      else
        searchFrom key level
          { m with preds := update m.preds level pred, succs := update m.succs level curr } pred
          (if lFound = none ∧ key = ky m curr then some level else lFound)

/-- `search` -/
def search (m : Mem) (key : ℤ) : Except Fault (Mem × Option ℕ) := searchFrom key m.maxLevel m m.head none

/-- the body of the loop of `add` -/
def link (newNode : ℕ) (preds succs : ℕ → ℕ) (m : Mem) (level : ℕ) : Mem :=
  setNext (setNext m newNode level (succs level)) (preds level) level newNode

/-- `add`; r is the result of `rand` -/
def add (m : Mem) (key val : ℤ) (r : ℕ) : Except Fault (Mem × Bool) :=
  match search m key with
  | .error e => .error e
  | .ok (m1, some _) => .ok (m1, false)
  | .ok (m1, none) =>
    let topLevel := r % m1.maxLevel
    .ok ((List.range (topLevel + 1)).foldl (link m1.fresh m1.preds m1.succs) (createNode m1 topLevel key val), true)

/-- the body of the loop of `delete` -/
def unlink (victim : ℕ) (preds : ℕ → ℕ) (m : Mem) (level : ℕ) : Mem := setNext m (preds level) level (nx m level victim)

/-- `delete`, with the value it writes to *val -/
def delete (m : Mem) (key : ℤ) : Except Fault (Mem × Option ℤ) :=
  match search m key with
  | .error e => .error e
  | .ok (m1, none) => .ok (m1, none)
  | .ok (m1, some lFound) =>
    let victim := m1.succs lFound
    let m2 := (List.range (tp m1 victim + 1)).reverse.foldl (unlink victim m1.preds) m1
    .ok (m2, some (vl m2 victim))

/-- `find` -/
def find (m : Mem) (key : ℤ) : Except Fault (Mem × ℤ) :=
  match search m key with
  | .error e => .error e
  | .ok (m1, none) => .ok (m1, 0)
  | .ok (m1, some _) => .ok (m1, vl m1 (nx m1 0 (m1.preds 0)))

/-! ## Sequences of calls -/

/-- the calls; `add` comes with the result of `rand` -/
inductive Op where
  | add (key val : ℤ) (r : ℕ)
  | delete (key : ℤ)
  | find (key : ℤ)
deriving DecidableEq, Repr

def Op.key : Op → ℤ
  | .add k _ _ | .delete k | .find k => k

inductive Res where
  | add (ret : Bool)
  | delete (ret : Option ℤ)
  | find (ret : ℤ)
deriving DecidableEq, Repr

/-- one call -/
def call (m : Mem) : Op → Except Fault (Mem × Res)
  | .add k v r => (add m k v r).map fun x => (x.1, .add x.2)
  | .delete k => (delete m k).map fun x => (x.1, .delete x.2)
  | .find k => (find m k).map fun x => (x.1, .find x.2)

/-- a sequence of calls, with their results -/
abbrev run (m : Mem) (ops : List Op) : Except Fault (Mem × List Res) := runCalls call m ops

/-- what a call does to the map, and its result -/
def mapStep (M : ℤ → Option ℤ) : Op → (ℤ → Option ℤ) × Res
  | .add k v _ => mapAdd .add M k v
  | .delete k => mapDelete .delete M k
  | .find k => (M, .find ((M k).getD 0))

/-- the map and the results after a sequence of calls -/
abbrev mapRun (M : ℤ → Option ℤ) (ops : List Op) : (ℤ → Option ℤ) × List Res := specRun mapStep M ops

/-! ## What is observed -/

/-- the nodes met from head on through `next[level]`, up to tail -/
def nodes (m : Mem) (level : ℕ) : List ℕ := walk (nx m level) (fun a => a = m.tail) m.fresh (nx m level m.head)

/-- the chain of every level is strictly increasing, ends at tail and consists of exactly the nodes of the list whose
towers reach the level -/
structure WellFormed (m : Mem) : Prop where
  linked : ∀ level < m.maxLevel, (m.head :: (nodes m level ++ [m.tail])).IsChain fun x y => nx m level x = y
  sorted : ∀ level < m.maxLevel, (m.head :: (nodes m level ++ [m.tail])).Pairwise fun x y => ky m x < ky m y
  towers : ∀ level < m.maxLevel, ∀ a, a ∈ nodes m level ↔ a ∈ nodes m 0 ∧ level ≤ tp m a

end AlgorithmCollection.Skiplist
