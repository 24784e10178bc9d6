/-
`LockFreeSkiplist`: the nodes, `cas`, and `_add` and `_delete` run by one thread, `src/list/LockFreeSkiplist.c`.

A link is a pair of a mark and a pointer that `cas` compares and swaps as one. `create_node` sets the mark of all levels
but the last to UNMARKED; MARKED is 0, so the last link of a new tower is MARKED until `_add` fills it in. Nodes are not
freed (`_FREE_` is not defined). The arrays `preds` and `succs` are the thread's own workspace. Loops of the source that
repeat until a condition holds take the fuel given by their caller: the fault `stuck` stands for running out of it, and
for following NULL. The result of `rand` is an argument of `add`. Allocation succeeds.
-/
import AlgorithmCollection.Conc.Calls
import AlgorithmCollection.Conc.Tower

namespace AlgorithmCollection.LockFreeSkiplist

open Conc
open Function (update update_self update_of_ne)

def NULL : ℕ := 0

/-- `node_stat` -/
inductive Stat where
  | MARKED
  | UNMARKED
deriving DecidableEq, Repr

/-- `tower_ref` -/
structure Ref where
  mark : Stat
  next : ℕ
deriving DecidableEq, Repr

/-- `skiplist_node_t` -/
structure Node where
  key : ℤ
  val : ℤ
  topLevel : ℕ
  tower : ℕ → Ref

/-- `skiplist_t` and the nodes; addresses from `fresh` on are not allocated -/
structure Mem where
  node : ℕ → Node
  maxLevel : ℕ
  head : ℕ
  tail : ℕ
  fresh : ℕ

def ref (m : Mem) (level a : ℕ) : Ref := (m.node a).tower level

def nx (m : Mem) (level a : ℕ) : ℕ := (ref m level a).next

def mk (m : Mem) (level a : ℕ) : Stat := (ref m level a).mark

def ky (m : Mem) (a : ℕ) : ℤ := (m.node a).key

def vl (m : Mem) (a : ℕ) : ℤ := (m.node a).val

def tp (m : Mem) (a : ℕ) : ℕ := (m.node a).topLevel

/-- `a->tower[level] = r` -/
def setRef (m : Mem) (a level : ℕ) (r : Ref) : Mem :=
  { m with node := update m.node a { m.node a with tower := update (m.node a).tower level r } }

/-- `cas` on `a->tower[level]` -/
def cas (m : Mem) (a level : ℕ) (oldp newp : Ref) : Mem × Bool :=
  if ref m level a = oldp then (setRef m a level newp, true) else (m, false)

/-- `create_node`; the new node is at `fresh` -/
def createNode (m : Mem) (topLevel : ℕ) (key val : ℤ) : Mem :=
  { m with
    node := update m.node m.fresh
      ⟨key, val, topLevel, fun level => if level < topLevel then ⟨.UNMARKED, NULL⟩ else ⟨.MARKED, NULL⟩⟩
    fresh := m.fresh + 1 }

/-- `init_list`: head is node 1, tail is node 2 -/
def initList (maxLevel : ℕ) (min max : ℤ) : Mem where
  node a :=
    if a = 1 then
      ⟨min, min, maxLevel, fun level => if level < maxLevel then ⟨.UNMARKED, 2⟩ else ⟨.MARKED, NULL⟩⟩
    else ⟨max, max, maxLevel, fun level => if level < maxLevel then ⟨.UNMARKED, NULL⟩ else ⟨.MARKED, NULL⟩⟩
  maxLevel := maxLevel
  head := 1
  tail := 2
  fresh := 3

/-! ## What a store changes -/

section Memory

variable {m m' : Mem} {a level : ℕ} {r : Ref}

theorem ref_setRef : ref (setRef m a level r) = update (ref m) level (update (ref m level) a r) := by
  funext l x
  by_cases hl : l = level
  · subst hl
    by_cases hx : x = a
    · subst hx; simp [ref, setRef]
    · simp [ref, setRef, hx]
  · by_cases hx : x = a
    · subst hx; simp [ref, setRef, hl]
    · simp [ref, setRef, hx, hl]

theorem ref_setRef_self : ref (setRef m a level r) level = update (ref m level) a r := by
  rw [ref_setRef, update_self]

theorem ref_setRef_of_ne {l : ℕ} (h : l ≠ level) : ref (setRef m a level r) l = ref m l := by
  rw [ref_setRef, update_of_ne h]

theorem nx_setRef : nx (setRef m a level r) level = update (nx m level) a r.next := by
  funext x
  unfold nx
  rw [ref_setRef_self]
  by_cases h : x = a
  · rw [h, update_self, update_self]
  · rw [update_of_ne h, update_of_ne h]

theorem mk_setRef : mk (setRef m a level r) level = update (mk m level) a r.mark := by
  funext x
  unfold mk
  rw [ref_setRef_self]
  by_cases h : x = a
  · rw [h, update_self, update_self]
  · rw [update_of_ne h, update_of_ne h]

theorem ref_eq (h1 : mk m level a = r.mark) (h2 : nx m level a = r.next) : ref m level a = r :=
  congrArg₂ Ref.mk h1 h2

/-- the two memories differ only in the links -/
abbrev SameRest (m m' : Mem) : Prop :=
  SameData (ky m) (ky m') (vl m) (vl m') (tp m) (tp m') m.maxLevel m'.maxLevel m.head m'.head m.tail m'.tail m.fresh m'.fresh

theorem node_setRef_of_ne {x : ℕ} (h : x ≠ a) : (setRef m a level r).node x = m.node x := update_of_ne h ..

theorem node_setRef_self : (setRef m a level r).node a = { m.node a with tower := update (m.node a).tower level r } :=
  update_self ..

theorem sameRest_setRef : SameRest m (setRef m a level r) := by
  refine ⟨funext fun x => ?_, funext fun x => ?_, funext fun x => ?_, rfl, rfl, rfl, rfl⟩ <;>
    by_cases h : x = a <;> simp only [ky, vl, tp, h, node_setRef_self, node_setRef_of_ne, ne_eq, not_false_eq_true]

theorem sameRest_foldl (step : Mem → ℕ → Mem) (h : ∀ m level, SameRest m (step m level)) (l : List ℕ) (m : Mem) :
    SameRest m (l.foldl step m) := foldl_related (fun _ => .refl) (fun _ _ _ => .trans) h l m

theorem cas_of_eq (newp : Ref) (h : ref m level a = r) : cas m a level r newp = (setRef m a level newp, true) := if_pos h

end Memory

/-! ## One thread -/

inductive Fault where
  | stuck
deriving DecidableEq, Repr

/-- the arrays of a thread -/
structure Workspace where
  preds : ℕ → ℕ
  succs : ℕ → ℕ

/-- how a pass over one level ends: with pred and curr, or with a failed cas -/
inductive Pass where
  | done (m : Mem) (pred curr : ℕ)
  | retry (m : Mem)
  | stuck

/-- the loop of `search` over one level. A marked node is snipped, and the loop goes on with the new successor of pred. -/
def walkLevel (key : ℤ) (level : ℕ) : ℕ → Mem → ℕ → ℕ → Pass
  | 0, _, _, _ => .stuck
  | f + 1, m, pred, curr =>
    if curr = NULL then .stuck
    else if mk m level curr = .MARKED then
      match cas m pred level ⟨.UNMARKED, curr⟩ ⟨.UNMARKED, nx m level curr⟩ with
      | (m', true) => walkLevel key level f m' pred (nx m' level pred)
      | (m', false) => .retry m'
    else if key > ky m curr then walkLevel key level f m curr (nx m level curr)
    else .done m pred curr

/-- the `for` loop of `search`, with levels level - 1, ..., 0 to go; none for `goto retry` -/
def searchFrom (key : ℤ) : ℕ → Mem → Workspace → ℕ → ℕ → Except Fault (Mem × Workspace × Option ℕ)
  | 0, m, ws, _, curr => .ok (m, ws, some curr)
  | level + 1, m, ws, pred, _ =>
    match walkLevel key level (m.fresh + 1) m pred (nx m level pred) with
    | .stuck => .error .stuck
    | .retry m' => .ok (m', ws, none)
    | .done m' pred curr =>
      searchFrom key level m' ⟨update ws.preds level pred, update ws.succs level curr⟩ pred curr

/-- `search`, with f passes at most -/
def search (key : ℤ) : ℕ → Mem → Workspace → Except Fault (Mem × Workspace × Bool)
  | 0, _, _ => .error .stuck
  | f + 1, m, ws =>
    match searchFrom key m.maxLevel m ws m.head NULL with
    | .error e => .error e
    | .ok (m', ws', none) => search key f m' ws'
    | .ok (m', ws', some curr) => .ok (m', ws', decide (ky m' curr = key))

/-- `newNode->tower[level] = succs[level]` with an UNMARKED mark -/
def fill (newNode : ℕ) (succs : ℕ → ℕ) (m : Mem) (level : ℕ) : Mem := setRef m newNode level ⟨.UNMARKED, succs level⟩

theorem ref_fill (x : ℕ) (succs : ℕ → ℕ) (m : Mem) (L : ℕ) :
    ref (fill x succs m L) = update (ref m) L (update (ref m L) x ⟨.UNMARKED, succs L⟩) := ref_setRef

/-- the `while` loop of `_add` for one level above the bottom, with f rounds at most -/
def linkLevel (newNode : ℕ) (key : ℤ) (level : ℕ) : ℕ → Mem → Workspace → Except Fault (Mem × Workspace)
  | 0, _, _ => .error .stuck
  | f + 1, m, ws =>
    match cas m (ws.preds level) level ⟨.UNMARKED, ws.succs level⟩ ⟨.UNMARKED, newNode⟩ with
    | (m', true) => .ok (m', ws)
    | (m', false) =>
      match search key (m.fresh + 1) m' ws with
      | .error e => .error e
      | .ok (m'', ws', _) => linkLevel newNode key level f m'' ws'

/-- the `for` loop of `_add` over the levels level, ..., level + n - 1 -/
def linkLevels (newNode : ℕ) (key : ℤ) : ℕ → ℕ → Mem → Workspace → Except Fault (Mem × Workspace)
  | _, 0, m, ws => .ok (m, ws)
  | level, n + 1, m, ws =>
    match linkLevel newNode key level (m.fresh + 1) m ws with
    | .error e => .error e
    | .ok (m', ws') => linkLevels newNode key (level + 1) n m' ws'

/-- the `while` loop of `_add`, with f rounds at most -/
def addLoop (key val : ℤ) (topLevel : ℕ) : ℕ → Mem → Workspace → Except Fault (Mem × Workspace × Bool)
  | 0, _, _ => .error .stuck
  | f + 1, m, ws =>
    match search key (m.fresh + 1) m ws with
    | .error e => .error e
    | .ok (m1, ws1, true) => .ok (m1, ws1, false)
    | .ok (m1, ws1, false) =>
      let newNode := m1.fresh
      let m2 := (List.range (topLevel + 1)).foldl (fill newNode ws1.succs) (createNode m1 topLevel key val)
      let m3 := setRef m2 newNode 0 ⟨.UNMARKED, ws1.succs 0⟩
      match cas m3 (ws1.preds 0) 0 ⟨.UNMARKED, ws1.succs 0⟩ ⟨.UNMARKED, newNode⟩ with
      | (m4, false) => addLoop key val topLevel f m4 ws1
      | (m4, true) =>
        match linkLevels newNode key 1 topLevel m4 ws1 with
        | .error e => .error e
        | .ok (m5, ws5) => .ok (m5, ws5, true)

/-- `_add`; r is the result of `rand` -/
def add (m : Mem) (ws : Workspace) (key val : ℤ) (r : ℕ) : Except Fault (Mem × Workspace × Bool) :=
  addLoop key val (r % m.maxLevel) (m.fresh + 1) m ws

/-- the inner `while` loop of `_delete` for one level: an UNMARKED link is marked -/
def markLevel (victim : ℕ) (m : Mem) (level : ℕ) : Mem :=
  if mk m level victim = .UNMARKED then setRef m victim level ⟨.MARKED, nx m level victim⟩ else m

/-- the last loop of `_delete`, with f rounds at most; the value written to *val, or false -/
def markBottom (victim : ℕ) (key : ℤ) : ℕ → ℕ → Mem → Workspace → Except Fault (Mem × Workspace × Option ℤ)
  | 0, _, _, _ => .error .stuck
  | f + 1, succ, m, ws =>
    match cas m victim 0 ⟨.UNMARKED, succ⟩ ⟨.MARKED, succ⟩ with
    | (m1, true) =>
      match search key (m1.fresh + 1) m1 ws with
      | .error e => .error e
      | .ok (m2, ws2, _) => .ok (m2, ws2, some (vl m2 victim))
    | (m1, false) =>
      if mk m1 0 (ws.succs 0) = .MARKED then .ok (m1, ws, none)
      else markBottom victim key f (nx m1 0 (ws.succs 0)) m1 ws

/-- `_delete`, with the value it writes to *val -/
def delete (m : Mem) (ws : Workspace) (key : ℤ) : Except Fault (Mem × Workspace × Option ℤ) :=
  match search key (m.fresh + 1) m ws with
  | .error e => .error e
  | .ok (m1, ws1, false) => .ok (m1, ws1, none)
  | .ok (m1, ws1, true) =>
    let victim := ws1.succs 0
    -- levels topLevel, ..., 1
    let m2 := ((List.range (tp m1 victim)).map Nat.succ).reverse.foldl (markLevel victim) m1
    markBottom victim key (m2.fresh + 1) (nx m2 0 victim) m2 ws1

/-- the loop of `_find` over one level. At a marked node it goes back to the successor of pred, and snips nothing. -/
def findLevel (m : Mem) (key : ℤ) (level : ℕ) : ℕ → ℕ → ℕ → Option (ℕ × ℕ)
  | 0, _, _ => none
  | f + 1, pred, curr =>
    if curr = NULL then none
    else if mk m level curr = .MARKED then findLevel m key level f pred (nx m level pred)
    else if ky m curr < key then findLevel m key level f curr (nx m level curr)
    else some (pred, curr)

/-- the `for` loop of `_find`, with levels level - 1, ..., 0 to go -/
def findFrom (m : Mem) (key : ℤ) : ℕ → ℕ → ℕ → Except Fault Bool
  | 0, _, curr => .ok (decide (ky m curr = key))
  | level + 1, pred, _ =>
    match findLevel m key level (m.fresh + 1) pred (nx m level pred) with
    | none => .error .stuck
    | some (pred, curr) => findFrom m key level pred curr

/-- `_find`: the first level is `sl->maxLevel` -/
def find (m : Mem) (key : ℤ) : Except Fault Bool := findFrom m key (m.maxLevel + 1) m.head NULL

/-! ## Sequences of calls -/

/-- the calls; `add` comes with the result of `rand` -/
inductive Op where
  | add (key val : ℤ) (r : ℕ)
  | delete (key : ℤ)
deriving DecidableEq, Repr

def Op.key : Op → ℤ
  | .add k _ _ | .delete k => k

inductive Res where
  | add (ret : Bool)
  | delete (ret : Option ℤ)
deriving DecidableEq, Repr

/-- one call on a list and the workspace of the thread -/
def call (s : Mem × Workspace) : Op → Except Fault ((Mem × Workspace) × Res)
  | .add k v r => (add s.1 s.2 k v r).map fun x => ((x.1, x.2.1), .add x.2.2)
  | .delete k => (delete s.1 s.2 k).map fun x => ((x.1, x.2.1), .delete x.2.2)

/-- a sequence of calls, with their results -/
def run (m : Mem) (ws : Workspace) (ops : List Op) : Except Fault (Mem × List Res) :=
  (runCalls call (m, ws) ops).map fun x => (x.1.1, x.2)

/-- what a call does to the map, and its result -/
def mapStep (M : ℤ → Option ℤ) : Op → (ℤ → Option ℤ) × Res
  | .add k v _ => mapAdd .add M k v
  | .delete k => mapDelete .delete M k

/-- the map and the results after a sequence of calls -/
abbrev mapRun (M : ℤ → Option ℤ) (ops : List Op) : (ℤ → Option ℤ) × List Res := specRun mapStep M ops

/-! ## What is observed -/

/-- the nodes met from head on through `tower[level]`, up to tail -/
def nodes (m : Mem) (level : ℕ) : List ℕ := walk (nx m level) (fun a => a = m.tail) m.fresh (nx m level m.head)

/-- the chain of every level is strictly increasing, ends at tail, consists of exactly the nodes of the list whose towers
reach the level, and every link on it is UNMARKED -/
structure Clean (m : Mem) : Prop where
  linked : ∀ level < m.maxLevel, (m.head :: (nodes m level ++ [m.tail])).IsChain fun x y => nx m level x = y
  sorted : ∀ level < m.maxLevel, (m.head :: (nodes m level ++ [m.tail])).Pairwise fun x y => ky m x < ky m y
  towers : ∀ level < m.maxLevel, ∀ a, a ∈ nodes m level ↔ a ∈ nodes m 0 ∧ level ≤ tp m a
  unmarked : ∀ level < m.maxLevel, ∀ a ∈ m.head :: nodes m level, mk m level a = .UNMARKED

end AlgorithmCollection.LockFreeSkiplist
