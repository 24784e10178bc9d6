/-
`CoarseGrainedSynchroList`: the sorted list with one lock for the whole list, `src/list/CoarseGrainedSynchroList.c`.

The lock is held from the first read of a call to its last write (only `create_node` comes before it), so calls do not
overlap and the model has none. A call that would follow NULL gives none. Nodes are not freed (`_FREE_` is not defined).
Allocation succeeds. `init_list` takes head and tail from `calloc` and writes no key, so the key of both is 0.

`add` and `find` tell tail by its address before they compare keys. `delete` compares the key of the node it has come to
without asking whether it is tail. `map_iff`: the list is a finite map in exactly the sequences of calls without a delete(0) on
a list that is not empty and has negative keys only. That call unlinks tail (`delete_tail`).
-/
import AlgorithmCollection.Conc.Calls
import AlgorithmCollection.Conc.Row

namespace AlgorithmCollection.CoarseGrainedSynchroList

open Conc
open Function (update update_self update_of_ne update_eq_self comp_update)

def NULL : ℕ := 0

def head : ℕ := 1

def tail : ℕ := 2

/-- `node_t` -/
structure Node where
  key : ℤ
  val : ℤ
  next : ℕ

/-- the nodes; addresses from `fresh` on are not allocated -/
structure Mem where
  node : ℕ → Node
  fresh : ℕ

def nx (m : Mem) (a : ℕ) : ℕ := (m.node a).next

def ky (m : Mem) (a : ℕ) : ℤ := (m.node a).key

def vl (m : Mem) (a : ℕ) : ℤ := (m.node a).val

/-- `a->next = b` -/
def setNext (m : Mem) (a b : ℕ) : Mem := { m with node := update m.node a { m.node a with next := b } }

/-- `create_node`; the new node is at `fresh` -/
def createNode (m : Mem) (key val : ℤ) : Mem :=
  { m with node := update m.node m.fresh ⟨key, val, NULL⟩, fresh := m.fresh + 1 }

/-- `init_list` -/
def initList : Mem where
  node a := ⟨0, 0, if a = head then tail else NULL⟩
  fresh := 3

/-- the loop `while (curr != list->tail && curr->key < key)`; `delete` has the two tests in the other order -/
def seek (m : Mem) (key : ℤ) : ℕ → ℕ → ℕ → Option (ℕ × ℕ)
  | 0, _, _ => none
  | f + 1, pred, curr =>
    if curr = NULL then none
    else if curr ≠ tail ∧ ky m curr < key then seek m key f curr (nx m curr)
    else some (pred, curr)

/-- `add` -/
def add (m : Mem) (key val : ℤ) : Option (Mem × Bool) :=
  let newNode := m.fresh
  let m1 := createNode m key val
  if nx m1 head = tail then some (setNext (setNext m1 head newNode) newNode tail, true)
  else
    match seek m1 key m1.fresh head (nx m1 head) with
    | none => none
    | some (pred, curr) =>
      if curr ≠ tail ∧ key = ky m1 curr then some (m1, false)
      else some (setNext (setNext m1 newNode curr) pred newNode, true)

/-- `delete`, with the value it writes to *val -/
def delete (m : Mem) (key : ℤ) : Option (Mem × Option ℤ) :=
  if nx m head = tail then some (m, none)
  else
    match seek m key m.fresh head (nx m head) with
    | none => none
    | some (pred, curr) =>
      -- curr may be tail here
      if key = ky m curr then some (setNext m pred (nx m curr), some (vl m curr)) else some (m, none)

/-- `find`, with the value it writes to *val -/
def find (m : Mem) (key : ℤ) : Option (Mem × Option ℤ) :=
  if nx m head = tail then some (m, none)
  else
    match seek m key m.fresh head (nx m head) with
    | none => none
    | some (_, curr) => if curr ≠ tail ∧ key = ky m curr then some (m, some (vl m curr)) else some (m, none)

/-! ## Calls and the map -/

inductive Op where
  | add (key val : ℤ)
  | delete (key : ℤ)
  | find (key : ℤ)
deriving DecidableEq, Repr

/-- `delete` and `find` return true with the value they write to *val, or false -/
inductive Res where
  | add (ret : Bool)
  | delete (ret : Option ℤ)
  | find (ret : Option ℤ)
deriving DecidableEq, Repr

/-- one call -/
def call (m : Mem) : Op → Option (Mem × Res)
  | .add k v => (add m k v).map fun x => (x.1, .add x.2)
  | .delete k => (delete m k).map fun x => (x.1, .delete x.2)
  | .find k => (find m k).map fun x => (x.1, .find x.2)

/-- the call returns r and leaves m' -/
def Returns (m : Mem) (op : Op) (m' : Mem) (r : Res) : Prop := call m op = some (m', r)

/-- what a call does to the map, and its result -/
def mapStep (M : ℤ → Option ℤ) : Op → (ℤ → Option ℤ) × Res
  | .add k v => mapAdd .add M k v
  | .delete k => mapDelete .delete M k
  | .find k => (M, .find (M k))

/-- the nodes from head on, up to tail -/
def nodes (m : Mem) : List ℕ := listNodes (nx m) head tail m.fresh

/-- the chain from head has strictly increasing keys, ends at tail, and holds the pairs of the map -/
def IsMap (m : Mem) (M : ℤ → Option ℤ) : Prop :=
  SortedList (nx m) (ky m) head tail m.fresh ∧ ∀ k v, (∃ a ∈ nodes m, ky m a = k ∧ vl m a = v) ↔ M k = some v

/-- not a delete(0) on a list that is not empty and has negative keys only -/
def SparesTail (M : ℤ → Option ℤ) (op : Op) : Prop :=
  ¬(op = .delete 0 ∧ (∃ k, (M k).isSome) ∧ ∀ k, (M k).isSome → k < 0)

/-! ## The list holds a map -/

/-- the list over xs, below n, holds the pairs of the map -/
structure HoldsAt (m : Mem) (M : ℤ → Option ℤ) (n : ℕ) (xs : List ℕ) : Prop where
  row : Row (nx m) head tail n xs
  sorted : IsSorted (pairs (ky m) (vl m) xs) M

structure Holds (m : Mem) (M : ℤ → Option ℤ) : Prop where
  list : ∃ xs, HoldsAt m M m.fresh xs
  tail_key : ky m tail = 0
  tail_val : vl m tail = 0

section Memory

variable {m : Mem} {a b x : ℕ} {k v : ℤ}

theorem nx_setNext : nx (setNext m a b) = update (nx m) a b := comp_update Node.next m.node a _

theorem ky_setNext : ky (setNext m a b) = ky m :=
  (comp_update Node.key m.node a _).trans (update_eq_self a (ky m))

theorem vl_setNext : vl (setNext m a b) = vl m :=
  (comp_update Node.val m.node a _).trans (update_eq_self a (vl m))

theorem node_createNode (h : x < m.fresh) : (createNode m k v).node x = m.node x := update_of_ne h.ne ..

end Memory

theorem init_holds : Holds initList fun _ => none := by
  refine ⟨⟨[], ⟨?_, ?_⟩, .nil, by simp [pairs]⟩, rfl, rfl⟩
  · exact ⟨rfl, by decide, rfl, by decide, rfl⟩
  · decide

section Calls

variable {m : Mem} {M : ℤ → Option ℤ} {n : ℕ} {xs : List ℕ} {k v : ℤ}

/-- **The loop** ends around the key, by induction on the nodes to go. -/
theorem seek_spec {p f : ℕ} (hs : Seg (nx m) (nx m p) (xs ++ [tail])) (ht : tail ∉ xs) (hf : xs.length < f) (k : ℤ) :
    seek m k f p (nx m p) = some (prevOf (ky m) k p xs, nextOf (ky m) k tail xs) := by
  induction xs generalizing p f with
  | nil =>
    obtain ⟨f, rfl⟩ := Nat.exists_eq_succ_of_ne_zero (Nat.ne_of_gt hf)
    rw [hs.1]
    rfl
  | cons x xs ih =>
    obtain ⟨f, rfl⟩ := Nat.exists_eq_succ_of_ne_zero (Nat.ne_of_gt (Nat.zero_lt_of_lt hf))
    obtain ⟨hx, h0, hs⟩ := hs
    rw [List.mem_cons, not_or] at ht
    rw [hx, seek, if_neg (show x ≠ NULL from h0), prevOf, nextOf, lower, upper]
    by_cases hlt : ky m x < k
    · rw [if_pos ⟨Ne.symm ht.1, hlt⟩, ih hs ht.2 (by simpa using hf), List.takeWhile_cons_of_pos (by simpa using hlt),
        List.dropWhile_cons_of_pos (by simpa using hlt), List.getLastD_cons]
    · rw [if_neg fun hc => hlt hc.2]
      simp [hlt]

theorem HoldsAt.seek (h : HoldsAt m M n xs) (hn : n ≤ m.fresh) (k : ℤ) :
    seek m k m.fresh head (nx m head) = some (prevOf (ky m) k head xs, nextOf (ky m) k tail xs) :=
  seek_spec h.row.seg.2.2 h.row.tail_notMem (h.row.length_lt.trans_le hn) k

/-- on an empty list head points to tail -/
theorem HoldsAt.empty_iff (h : HoldsAt m M n xs) : nx m head = tail ↔ xs = [] := by
  rw [h.row.seg.2.2.head_eq, Row.headD_append]
  cases xs with
  | nil => simp
  | cons x xs => simpa using fun e : x = tail => h.row.tail_notMem (e ▸ List.mem_cons_self)

theorem HoldsAt.nil (h : HoldsAt m M n []) (k : ℤ) : M k = none := h.sorted.absent (by simp [pairs])

theorem HoldsAt.create (h : HoldsAt m M m.fresh xs) (k v : ℤ) : HoldsAt (createNode m k v) M m.fresh xs where
  row := h.row.congr le_rfl fun _ ha => congrArg Node.next (node_createNode ha)
  sorted := by
    have hold : ∀ a ∈ xs, (createNode m k v).node a = m.node a := fun a ha => node_createNode (h.row.lt a (by simp [ha]))
    have hp : pairs (ky (createNode m k v)) (vl (createNode m k v)) xs = pairs (ky m) (vl m) xs :=
      pairs_congr fun a ha => ⟨congrArg Node.key (hold a ha), congrArg Node.val (hold a ha)⟩
    rw [hp]
    exact h.sorted

/-- the new node is linked between the two nodes around the key -/
theorem HoldsAt.link (h : HoldsAt m M n xs) (hkn : ky m n = k) (hvn : vl m n = v) (hk : M k = none) {m' : Mem}
    (hky : ky m' = ky m) (hvl : vl m' = vl m)
    (hnx : nx m' = update (update (nx m) n (nextOf (ky m) k tail xs)) (prevOf (ky m) k head xs) n) :
    ∃ xs', HoldsAt m' (update M k (some v)) (n + 1) xs' := by
  have hn : n ∉ xs := fun e => lt_irrefl _ (h.row.lt n (by simp [e]))
  have hrow := h.row.add (ky m) k
  have hput := h.sorted.put hk v
  have hku : update (ky m) n k = ky m := by rw [← hkn, update_eq_self]
  have hvu : update (vl m) n v = vl m := by rw [← hvn, update_eq_self]
  rw [← pairs_add hn, hku, hvu] at hput
  rw [← hnx] at hrow
  exact ⟨_, hrow, by rw [hky, hvl]; exact hput⟩

theorem add_holds (h : Holds m M) (k v : ℤ) :
    ∃ m', add m k v = some (m', !(M k).isSome) ∧ Holds m' (if (M k).isSome then M else update M k (some v)) := by
  obtain ⟨⟨xs, hL⟩, htk, htv⟩ := h
  have hc := hL.create k v
  have ht : (createNode m k v).node tail = m.node tail := node_createNode (hL.row.lt tail (by simp))
  have htk' : ky (createNode m k v) tail = 0 := (congrArg Node.key ht).trans htk
  have htv' : vl (createNode m k v) tail = 0 := (congrArg Node.val ht).trans htv
  have hnew : (createNode m k v).node m.fresh = ⟨k, v, NULL⟩ := update_self ..
  have hkn : ky (createNode m k v) m.fresh = k := congrArg Node.key hnew
  have hvn : vl (createNode m k v) m.fresh = v := congrArg Node.val hnew
  -- where the key is not stored, the node is linked
  have hlink : M k = none → ∀ m', ky m' = ky (createNode m k v) → vl m' = vl (createNode m k v) → m'.fresh = m.fresh + 1 →
      nx m' = update (update (nx (createNode m k v)) m.fresh (nextOf (ky (createNode m k v)) k tail xs))
        (prevOf (ky (createNode m k v)) k head xs) m.fresh →
      Holds m' (if (M k).isSome then M else update M k (some v)) := by
    intro hM m' hky hvl hf hnx
    have hxs := hc.link hkn hvn hM hky hvl hnx
    rw [← hf] at hxs
    rw [hM]
    exact ⟨hxs, by rw [hky]; exact htk', by rw [hvl]; exact htv'⟩
  unfold add
  simp only []
  by_cases he : nx (createNode m k v) head = tail
  · obtain rfl := hc.empty_iff.1 he
    have hM := hL.nil k
    rw [if_pos he]
    refine ⟨_, by rw [hM]; rfl, hlink hM _ ?_ ?_ rfl ?_⟩
    · rw [ky_setNext, ky_setNext]
    · rw [vl_setNext, vl_setNext]
    · rw [nx_setNext, nx_setNext]
      exact Function.update_comm (hL.row.lt head (by simp)).ne _ _ _
  · rw [if_neg he, hc.seek (Nat.le_succ _) k]
    simp only []
    by_cases hhit : nextOf (ky (createNode m k v)) k tail xs ≠ tail ∧
        k = ky (createNode m k v) (nextOf (ky (createNode m k v)) k tail xs)
    · rw [if_pos hhit, (hc.sorted.hit hhit.1 hhit.2.symm).1]
      exact ⟨_, rfl, ⟨xs, hc.row.congr (Nat.le_succ _) fun _ _ => rfl, hc.sorted⟩, htk', htv'⟩
    · have hM := hc.sorted.miss hL.row.tail_notMem (k := k) (by by_contra hn; push Not at hn; exact hhit ⟨hn.1, hn.2.symm⟩)
      rw [if_neg hhit]
      refine ⟨_, by rw [hM]; rfl, hlink hM _ ?_ ?_ rfl ?_⟩
      · rw [ky_setNext, ky_setNext]
      · rw [vl_setNext, vl_setNext]
      · rw [nx_setNext, nx_setNext]

theorem find_holds (h : Holds m M) (k : ℤ) : find m k = some (m, M k) := by
  obtain ⟨xs, hL⟩ := h.list
  unfold find
  split_ifs with he
  · obtain rfl := hL.empty_iff.1 he
    rw [hL.nil k]
  · rw [hL.seek le_rfl k]
    simp only []
    split_ifs with hk
    · rw [(hL.sorted.hit hk.1 hk.2.symm).1]
    · rw [hL.sorted.miss hL.row.tail_notMem (by by_contra hn; push Not at hn; exact hk ⟨hn.1, hn.2.symm⟩)]

/-- a search that comes to tail has all keys below -/
theorem HoldsAt.lt_of_end (h : HoldsAt m M n xs) (ht : nextOf (ky m) k tail xs = tail) {k' : ℤ} (hk : (M k').isSome) :
    k' < k := by
  obtain ⟨v, hv⟩ := Option.isSome_iff_exists.1 hk
  obtain ⟨a, ha, rfl, -⟩ := (h.sorted.holds_pairs k' v).2 hv
  rcases nextOf_cases (ky m) k tail xs with ⟨hu, -⟩ | ⟨c, r, -, e, hc, -⟩
  · rcases (mem_iff (ky m) k xs a).1 ha with hl | hl
    · simpa using List.mem_takeWhile_imp hl
    · rw [hu] at hl; cases hl
  · exact absurd (ht.symm.trans e ▸ hc) h.row.tail_notMem

/-- `delete` where the loop does not end at tail with key 0 -/
theorem delete_holds (h : Holds m M) (hC : SparesTail M (.delete k)) :
    ∃ m', delete m k = some (m', M k) ∧ Holds m' (update M k none) := by
  obtain ⟨xs, hL⟩ := h.list
  have hsame : M k = none → Holds m (update M k none) := fun e => by
    rw [← e, update_eq_self]; exact h
  unfold delete
  split_ifs with he
  · obtain rfl := hL.empty_iff.1 he
    exact ⟨m, by rw [hL.nil k], hsame (hL.nil k)⟩
  · rw [hL.seek le_rfl k]
    simp only []
    by_cases hk : k = ky m (nextOf (ky m) k tail xs)
    · have ht : nextOf (ky m) k tail xs ≠ tail := fun ht => by
        have h0 : k = 0 := by rw [hk, ht, h.tail_key]
        subst h0
        refine hC ⟨rfl, ?_, fun k' hk' => hL.lt_of_end ht hk'⟩
        cases xs with
        | nil => exact absurd (hL.empty_iff.2 rfl) he
        | cons x xs => exact ⟨_, Option.isSome_iff_exists.2 ⟨_, (hL.sorted.holds_pairs _ _).1 ⟨x, List.mem_cons_self, rfl, rfl⟩⟩⟩
      obtain ⟨hM, r, hu⟩ := hL.sorted.hit ht hk.symm
      rw [if_pos hk, hM]
      have hrow := hL.row.cut hu
      have hcut := (hL.sorted.cut k).2
      rw [cut_pairs hu hk.symm] at hcut
      rw [← nx_setNext] at hrow
      exact ⟨_, rfl, ⟨_, hrow, by rw [ky_setNext, vl_setNext]; exact hcut⟩, by rw [ky_setNext]; exact h.tail_key,
        by rw [vl_setNext]; exact h.tail_val⟩
    · rw [if_neg hk]
      have hM := hL.sorted.miss hL.row.tail_notMem (.inr fun e => hk e.symm)
      exact ⟨m, by rw [hM], hsame hM⟩

/-- **A delete(0)** that comes to tail takes tail for the node with key 0. -/
theorem delete_tail (h : Holds m M) (hC : ¬ SparesTail M (.delete k)) : ∃ m', delete m k = some (m', some 0) ∧ M k = none := by
  obtain ⟨xs, hL⟩ := h.list
  obtain ⟨hk0, ⟨k', hk'⟩, hneg⟩ := not_not.1 hC
  cases hk0
  have he : nx m head ≠ tail := fun e => by
    obtain rfl := hL.empty_iff.1 e
    rw [hL.nil k'] at hk'
    cases hk'
  have hM : M 0 = none := Option.not_isSome_iff_eq_none.1 fun hs => lt_irrefl _ (hneg 0 hs)
  -- a node that is not below 0 would have a key of the map
  have ht : nextOf (ky m) 0 tail xs = tail := by
    rcases nextOf_cases (ky m) 0 tail xs with ⟨-, e⟩ | ⟨c, r, -, -, hc, hle⟩
    · exact e
    · have hin := (hL.sorted.holds_pairs _ _).1 ⟨c, hc, rfl, rfl⟩
      exact absurd hle (not_le.2 (hneg _ (by rw [hin]; rfl)))
  unfold delete
  rw [if_neg he, hL.seek le_rfl 0]
  simp only []
  rw [ht, if_pos h.tail_key.symm, h.tail_val]
  exact ⟨_, rfl, hM⟩

end Calls

/-! ## Sequences of calls -/

theorem Holds.isMap {m : Mem} {M : ℤ → Option ℤ} (h : Holds m M) : IsMap m M := by
  obtain ⟨xs, hL⟩ := h.list
  unfold IsMap nodes SortedList
  rw [hL.row.nodes_eq]
  exact ⟨⟨hL.row.linked, hL.sorted.sorted_keys⟩, hL.sorted.holds_pairs⟩

/-- **One call** that spares tail has the result of the map. -/
theorem call_holds {m : Mem} {M : ℤ → Option ℤ} (op : Op) (h : Holds m M) (hC : SparesTail M op) :
    ∃ m', Returns m op m' (mapStep M op).2 ∧ Holds m' (mapStep M op).1 := by
  cases op with
  | add k v =>
    obtain ⟨m', h1, h2⟩ := add_holds h k v
    refine ⟨m', ?_, ?_⟩
    · unfold Returns call
      simp only [h1, Option.map_some]
      rfl
    · exact h2
  | delete k =>
    obtain ⟨m', h1, h2⟩ := delete_holds h hC
    exact ⟨m', by unfold Returns call; simp only [h1]; rfl, h2⟩
  | find k => exact ⟨m, by unfold Returns call; simp only [find_holds h]; rfl, h⟩

/-- one that does not has another result -/
theorem call_tail {m m' : Mem} {M : ℤ → Option ℤ} {op : Op} (h : Holds m M) (hC : ¬ SparesTail M op) :
    ¬ Returns m op m' (mapStep M op).2 := by
  intro hr
  obtain ⟨rfl, -⟩ := not_not.1 hC
  obtain ⟨m2, h1, hM⟩ := delete_tail h hC
  unfold Returns call at hr
  simp only [h1] at hr
  have hres := congrArg (Option.map Prod.snd) hr
  simp [mapStep, mapDelete, hM] at hres

/-- **The sequences of calls in which the list is a finite map**: those without a delete(0) on a list that is not empty and
has negative keys only. In them every call returns what the map returns, and after every call the chain from head has
strictly increasing keys, ends at tail and holds the pairs of the map. -/
theorem map_iff (ops : List Op) :
    Follows Returns mapStep IsMap initList (fun _ => none) ops ↔ CallsMeet mapStep SparesTail (fun _ => none) ops := by
  refine follows_iff (C := SparesTail) (R := Holds) (K := fun _ => True) (fun _ _ => Holds.isMap)
    (fun _ _ op h _ hC => call_holds op h hC) (fun s op s1 r1 s2 r2 h1 h2 => ?_)
    (fun _ _ _ _ h _ hC hr => absurd hr (call_tail h hC)) ops (fun _ _ => trivial) init_holds
  have he := h1.symm.trans h2
  simpa using he

/-- a list with the key -1: delete(0) takes tail away and returns true, with the value 0 that nobody has added -/
theorem delete_zero_takes_tail :
    ¬ Follows Returns mapStep IsMap initList (fun _ => none) [.add (-1) 7, .delete 0] ∧
      (call initList (.add (-1) 7)).bind (fun x => (call x.1 (.delete 0)).map fun y => (x.2, y.2, nx y.1 (nx y.1 head))) =
        some (.add true, .delete (some 0), NULL) := by
  refine ⟨?_, by decide⟩
  rintro ⟨m1, h1, -, m2, h2, -⟩
  obtain rfl : m1 = setNext (setNext (createNode initList (-1) 7) head 3) 3 tail := (congrArg Prod.fst (Option.some.inj h1)).symm
  have hres := congrArg (Option.map Prod.snd) h2
  simp only [Option.map_some] at hres
  revert hres
  decide

end AlgorithmCollection.CoarseGrainedSynchroList
