/-
The steps of the threads of `ConcurrentCuckooHash` on the table.

`Base P g s`: the lists of the tables with the nodes that threads have in hand between `delete_node` and `add_node_atTail`
of `relocate` are a map (`Inv`), and every thread is where its place in the program says (`At`): it holds the mutexes it
should, and what a `relocate` has remembered (the list, the key, the other list) is still right. `base_next`: a step keeps
this, if it is not a `resize` while another thread is in `relocate` without a mutex, with a list remembered that would be an
old one then. It also says what the step does to the map and to the history (`Effect`).

`work_cases`: the locked part of a call looks its key up in the map and answers as a map does (`answer`), with one
exception: an `add` that calls itself after a `resize` answers true even if the key has come in between.
-/
import AlgorithmCollection.Hash.ConcurrentCuckooHashTable

namespace AlgorithmCollection.ConcurrentCuckooHash

open Conc
open Function (update_self update_of_ne)

/-! ## The locked part of a call -/

/-- a map answers a call -/
def answer (M : ℤ → Option ℤ) : Op → Res × (ℤ → Option ℤ)
  | .add k v => if M k = none then (.add true, Function.update M k (some v)) else (.add false, M)
  | .delete k => (.delete (M k), Function.update M k none)
  | .contains k => (.contains (M k).isSome, M)

/-- what the call will return, if that is certain at the end of the locked part -/
def Cont.result : Cont → Option Res
  | .ret r => some r
  | .relocate _ _ _ => some (.add true)
  | .resize .done => some (.add true)
  | .resize .again => none

/-- the locked part of the call puts a node into a list -/
def inserts (P : Params) (m : Mem) : Op → Bool
  | .add k _ =>
    match containsOp m k with
    | .ok false => (chooseList P m k).isSome
    | _ => false
  | _ => false

/-- the list from which the locked part of the call takes a node -/
def unlinkedBy (m : Mem) : Op → Option (Fin 2 × ℕ)
  | .delete k =>
    match searchList m (getList m 0 k) k, searchList m (getList m 1 k) k with
    | .ok true, _ => some (place m k 0)
    | .ok false, .ok true => some (place m k 1)
    | _, _ => none
  | _ => none

/-- the tables are the same, and the old nodes have their keys -/
structure Grown (m m' : Mem) : Prop where
  table : m'.table = m.table
  tableSize : m'.tableSize = m.tableSize
  mtx : m'.mtx = m.mtx
  returned : m'.returned = m.returned
  fresh : m.fresh ≤ m'.fresh
  ky : ∀ a, a < m.fresh → ky m' a = ky m a

/-- what the locked part of a call does -/
structure Worked (P : Params) (m : Mem) (cont : Fin 2 × ℕ → List ℕ) (H : Set ℕ) (M : ℤ → Option ℤ) (nested : Bool) (op : Op)
    (m' : Mem) (cont' : Fin 2 × ℕ → List ℕ) (M' : ℤ → Option ℤ) (k : Cont) : Prop where
  holds : Holds P m' cont' H M'
  grown : Grown m m'
  lists : ∀ q, cont' q ≠ cont q → ∃ i, q = place m op.key i
  spot : ∀ i hi round, k = .relocate i hi round → place m op.key i = (i, hi) ∧ cont' (i, hi) ≠ []
  answers : (k = .resize .again ∧ M op.key = none ∧ M' = M) ∨
    ∃ r, k.result = some r ∧ ((nested = true → M op.key = none) → (r, M') = answer M op)
  inserted : ∀ key, M key = none → M' key ≠ none → key = op.key ∧ inserts P m op = true
  unlinked : ∀ q, unlinkedBy m op ≠ some q → ∀ x ∈ cont q, x ∈ cont' q

section Work

variable {P : Params} {m m' m'' : Mem} {cont cont' : Fin 2 × ℕ → List ℕ} {H : Set ℕ} {M M' : ℤ → Option ℤ} {q : Fin 2 × ℕ}
  {key val : ℤ} {i : Fin 2} {x : ℕ} {op : Op}

theorem Grown.refl (m : Mem) : Grown m m := ⟨rfl, rfl, rfl, rfl, le_rfl, fun _ _ => rfl⟩

theorem Grown.trans (h : Grown m m') (h' : Grown m' m'') : Grown m m'' where
  table := h'.table.trans h.table
  tableSize := h'.tableSize.trans h.tableSize
  mtx := h'.mtx.trans h.mtx
  returned := h'.returned.trans h.returned
  fresh := h.fresh.trans h'.fresh
  ky a ha := (h'.ky a (ha.trans_le h.fresh)).trans (h.ky a ha)

theorem Same.grown (h : Same m m') : Grown m m' :=
  ⟨h.table, h.tableSize, h.mtx, h.returned, h.fresh.ge, fun a _ => congrFun h.ky a⟩

theorem createNode_grown (m : Mem) (key val : ℤ) : Grown m (createNode m key val) := by
  refine ⟨rfl, rfl, rfl, rfl, Nat.le_succ _, fun a ha => ?_⟩
  simp [ky, createNode, ha.ne]

variable (h : Holds P m cont H M)

include h

/-- `Holds` is about the nodes, the lists and the tables -/
theorem Holds.mem_eq (hn : m'.node = m.node) (hs : m'.size = m.size) (htab : m'.table = m.table)
    (hz : m'.tableSize = m.tableSize) (hf : m'.fresh = m.fresh) : Holds P m' cont H M := by
  cases m
  cases m'
  simp only at hn hs htab hz hf
  subst hn hs htab hz hf
  exact ⟨h.pos, h.grown, h.lists, h.placed, h.room, h.keys, h.rep⟩

omit h in
theorem update_lists {l : List ℕ} {r : Fin 2 × ℕ} (h : Function.update cont q l r ≠ cont r) : r = q := by
  by_contra e
  exact h (update_of_ne e ..)

/-- both lists are full: the node is given up -/
theorem Holds.add_full (hk : M key = none) : Holds P (createNode m key val) cont H M := by
  have hc := h.createNode_holds val hk
  have hH : m.fresh ∉ H := fun hm => lt_irrefl _ (h.lists.hand _ hm).2.1
  have hl : ∀ q, live (createNode m key val) q → m.fresh ∉ cont q := fun q hq hm =>
    lt_irrefl _ (h.lists.nodes q hq _ hm).1
  have hf := hc.forget hH hl
  have hky : ky (createNode m key val) m.fresh = key := by simp [ky, createNode]
  have hM : Function.update (Function.update M key (some val)) key none = M := by
    rw [Function.update_idem, ← hk, Function.update_eq_self]
  rwa [hky, hM] at hf

variable (val) in
/-- the node goes to the list of its key in table i -/
theorem Holds.add_list (hk : M key = none) {b : Bool} (hc : chooseList P m key = some (i, b)) :
    ∃ m', addNodeAtTail (createNode m key val) (getList (createNode m key val) i key) m.fresh = .ok m' ∧ Grown m m' ∧
      Holds P m' (Function.update cont (place m key i) (cont (place m key i) ++ [m.fresh])) H
        (Function.update M key (some val)) := by
  have h1 := h.createNode_holds val hk
  have hky : ky (createNode m key val) m.fresh = key := by simp [ky, createNode]
  have hH : m.fresh ∉ H := fun hm => lt_irrefl _ (h.lists.hand _ hm).2.1
  have hb : bucket (createNode m key val) i (ky (createNode m key val) m.fresh) = bucket m i key := by rw [hky]; rfl
  obtain ⟨m', e, hsame, hh, -⟩ := h1.addNodeAtTail_ok (q := place m key i) (h.live_place key i) (Set.mem_insert _ _) hb
    (h.chooseList_room hc)
  refine ⟨m', e, (createNode_grown m key val).trans hsame.grown, ?_⟩
  rwa [Set.insert_sdiff_self_of_notMem hH] at hh

/-- the node of the key leaves its list -/
theorem Holds.delete_list (hx : x ∈ cont (place m key i)) (hk : ky m x = key) :
    ∃ m' ys zs, cont (place m key i) = ys ++ x :: zs ∧
      deleteFrom m (getList m i key) key = .ok (m', .ret (.delete (M key))) ∧ Grown m m' ∧
      Holds P m' (Function.update cont (place m key i) (ys ++ zs)) H (Function.update M key none) := by
  have hlive := h.live_place key i
  obtain ⟨m1, ys, zs, e, hd, hsame, hh⟩ := h.deleteNode_ok hlive hx hk
  obtain ⟨n, hn⟩ := decSize_eq m1
  have hM : M key = some (vl m x) := by rw [← hk]; exact h.map_eq (mem_data hlive hx)
  have hH : x ∉ H := fun hm => ((h.lists.hand x hm).2.2 _ hlive).2 hx
  have hl : ∀ q, live m1 q → x ∉ Function.update cont (place m key i) (ys ++ zs) q := fun q hq =>
    ((hh.lists.hand x (Set.mem_insert _ _)).2.2 q hq).2
  have hky : ky m1 x = key := by rw [hsame.ky]; exact hk
  have hf := hh.forget hH hl
  rw [hky] at hf
  refine ⟨decSize m1, ys, zs, e, ?_, ?_, ?_⟩
  · change deleteNode m (getList m i key) key = _ at hd
    rw [deleteFrom, hd, hM]
  · rw [hn]
    have hg := hsame.grown
    exact ⟨hg.table, hg.tableSize, hg.mtx, hg.returned, hg.fresh, hg.ky⟩
  · rw [hn]
    exact hf.mem_eq rfl rfl rfl rfl rfl

/-- a call that changes nothing -/
theorem Worked.same {nested : Bool} {r : Res}
    (hr : (nested = true → M op.key = none) → (r, M) = answer M op) : Worked P m cont H M nested op m cont M (.ret r) where
  holds := h
  grown := Grown.refl m
  lists _ hq := absurd rfl hq
  spot _ _ _ e := by cases e
  answers := .inr ⟨r, rfl, hr⟩
  inserted _ h1 h2 := absurd h1 h2
  unlinked _ _ _ hx := hx

theorem Holds.addWork_cases (hH : ∀ y ∈ H, ky m y ≠ key) (nested : Bool) :
    ∃ m' cont' M' k, addWork P m key val nested = .ok (m', k) ∧
      Worked P m cont H M nested (.add key val) m' cont' M' k := by
  have hc := h.containsOp_eq key hH
  unfold addWork
  rw [hc]
  by_cases hk : M key = none
  · simp only [hk, Option.isSome_none]
    have hins : ∀ b, (chooseList P m key).isSome = b → inserts P m (.add key val) = b := by
      intro b hb
      simp only [inserts, hc, hk, Option.isSome_none, hb]
    have hnew : chooseList P (createNode m key val) key = chooseList P m key := rfl
    rw [hnew]
    cases hch : chooseList P m key with
    | none =>
      refine ⟨_, cont, M, _, rfl, h.add_full hk, createNode_grown .., fun _ hq => absurd rfl hq, ?_, .inl ⟨rfl, hk, rfl⟩,
        fun _ => absurd, fun _ _ _ hx => hx⟩
      intro i hi round e
      cases e
    | some p =>
      obtain ⟨i, b⟩ := p
      obtain ⟨m', e, hg, hh⟩ := h.add_list val hk hch
      simp only [e]
      refine ⟨m', _, _, _, rfl, hh, hg, fun q hq => ⟨i, update_lists hq⟩, ?_, ?_, ?_, ?_⟩
      · intro j hi round ek
        cases b
        · cases ek
        · cases ek
          refine ⟨rfl, ?_⟩
          change Function.update cont (place m key i) _ (place m key i) ≠ []
          rw [update_self]
          simp
      · right
        refine ⟨.add true, ?_, fun _ => ?_⟩
        · cases b <;> rfl
        · rw [answer, if_pos hk]
      · intro k' h1 h2
        by_cases ek : k' = key
        · exact ⟨ek, hins true (by rw [hch]; rfl)⟩
        · rw [update_of_ne ek] at h2
          exact absurd h1 h2
      · intro q _ x hx
        by_cases eq : q = place m key i
        · subst eq
          rw [update_self]
          exact List.mem_append_left _ hx
        · rw [update_of_ne eq]
          exact hx
  · have hs : (M key).isSome = true := Option.isSome_iff_ne_none.2 hk
    simp only [hs]
    refine ⟨m, cont, M, _, rfl, Worked.same h fun hn => ?_⟩
    cases nested with
    | false => rw [answer, if_neg hk]
    | true => exact absurd (hn rfl) hk

/-- the node of the key is in its list of table i -/
theorem Holds.deleteFrom_cases {nested : Bool} (hx : ∃ x ∈ cont (place m key i), ky m x = key)
    (hu : unlinkedBy m (.delete key) = some (place m key i)) :
    ∃ m' cont' M' k, deleteFrom m (getList m i key) key = .ok (m', k) ∧
      Worked P m cont H M nested (.delete key) m' cont' M' k := by
  obtain ⟨x, hx, hk⟩ := hx
  obtain ⟨m', ys, zs, -, e, hg, hh⟩ := h.delete_list hx hk
  refine ⟨m', _, _, _, e, hh, hg, fun q hq => ⟨i, update_lists hq⟩, ?_, .inr ⟨_, rfl, fun _ => rfl⟩, ?_, ?_⟩
  · intro i hi round e
    cases e
  · intro k' h1 h2
    by_cases ek : k' = key
    · subst ek
      rw [update_self] at h2
      exact absurd rfl h2
    · rw [update_of_ne ek] at h2
      exact absurd h1 h2
  · intro q hq x hx
    have hne : q ≠ place m key i := by
      rintro rfl
      exact hq hu
    rw [update_of_ne hne]
    exact hx

theorem Holds.deleteWork_cases (hH : ∀ y ∈ H, ky m y ≠ key) (nested : Bool) :
    ∃ m' cont' M' k, deleteWork m key = .ok (m', k) ∧ Worked P m cont H M nested (.delete key) m' cont' M' k := by
  have h0 : searchList m (getList m 0 key) key = _ := h.searchList_eq (h.live_place key 0) key
  have h1 : searchList m (getList m 1 key) key = _ := h.searchList_eq (h.live_place key 1) key
  unfold deleteWork
  by_cases hx0 : ∃ x ∈ cont (place m key 0), ky m x = key
  · simp only [hx0, decide_true] at h0
    simp only [h0]
    exact h.deleteFrom_cases hx0 (by simp only [unlinkedBy, h0])
  · simp only [hx0, decide_false] at h0
    simp only [h0]
    by_cases hx1 : ∃ x ∈ cont (place m key 1), ky m x = key
    · simp only [hx1, decide_true] at h1
      simp only [h1]
      exact h.deleteFrom_cases hx1 (by simp only [unlinkedBy, h0, h1])
    · simp only [hx1, decide_false] at h1
      simp only [h1]
      refine ⟨m, cont, M, _, rfl, Worked.same h fun _ => ?_⟩
      have hk : M key = none := by
        by_contra hk
        obtain ⟨i, hx⟩ := h.stored hH hk
        fin_cases i
        · exact hx0 hx
        · exact hx1 hx
      change _ = (Res.delete (M key), Function.update M key none)
      rw [← hk, Function.update_eq_self]

/-- **The locked part of a call.** -/
theorem Holds.work_cases (hH : ∀ y ∈ H, ky m y ≠ op.key) (nested : Bool) :
    ∃ m' cont' M' k, work P m nested op = .ok (m', k) ∧ Worked P m cont H M nested op m' cont' M' k := by
  cases op with
  | add key val => exact h.addWork_cases hH nested
  | delete key => exact h.deleteWork_cases hH nested
  | contains key =>
    refine ⟨m, cont, M, .ret (.contains (M key).isSome), ?_, Worked.same h fun _ => rfl⟩
    have hc : containsOp m key = .ok (M key).isSome := h.containsOp_eq key hH
    simp only [work, containsWork, hc]

end Work

/-! ## Threads -/

/-- the nodes of the lists, the node that a thread has taken out in `relocate`, and the map -/
structure Ghost where
  cont : Fin 2 × ℕ → List ℕ
  hand : ℕ → Option ℕ
  map : ℤ → Option ℤ

def Ghost.hands (g : Ghost) : Set ℕ := {y | ∃ u, g.hand u = some y}

structure Inv (P : Params) (g : Ghost) (m : Mem) : Prop where
  holds : Holds P m g.cont g.hands g.map
  owner : ∀ u y, g.hand u = some y → ∀ i, m.mtx i (stripe P i (ky m y)) = some u

def handOf : Pc → Option ℕ
  | .put _ _ y => some y
  | _ => none

/-- a round of `relocate` has the two lists of its key -/
structure Aimed (m : Mem) (x : Move) : Prop where
  iSet : x.iSet = headOf m (x.i, x.hi)
  source : place m x.lockKey x.i = (x.i, x.hi)
  target : place m x.lockKey (1 - x.i) = (1 - x.i, x.hj)

/-- what `relocate` has remembered is right -/
def Window (m : Mem) : Pc → Prop
  | .release0 key (.relocate i hi _) | .release1 key (.relocate i hi _) => place m key i = (i, hi)
  | .table i hi _ => live m (i, hi)
  | .head i hi _ iSet => live m (i, hi) ∧ iSet = headOf m (i, hi)
  | .bucket i hi _ iSet lockKey => iSet = headOf m (i, hi) ∧ place m lockKey i = (i, hi)
  | .acquire0 (.move x) | .acquire1 (.move x) | .take x | .put x _ _ => Aimed m x
  | _ => True

/-- `relocate` has taken y out of its list -/
structure Held (P : Params) (g : Ghost) (m : Mem) (x : Move) (jSet y : ℕ) : Prop where
  jSet : jSet = headOf m (1 - x.i, x.hj)
  key : ky m y = x.lockKey
  room : (g.cont (x.i, x.hi)).length < cap P

structure At (P : Params) (g : Ghost) (t : ℕ) (m : Mem) (l : Loc) : Prop where
  owned : Owned P t m l
  hand : g.hand t = handOf l.pc
  window : Window m l.pc
  held : ∀ x jSet y, l.pc = .put x jSet y → Held P g m x jSet y

/-- the list that `relocate` works on, from the call until its node is in a list again -/
def target : Pc → Option (Fin 2 × ℕ)
  | .release0 _ (.relocate i hi _) | .release1 _ (.relocate i hi _) => some (i, hi)
  | .table i hi _ | .head i hi _ _ | .bucket i hi _ _ _ => some (i, hi)
  | .acquire0 (.move x) | .acquire1 (.move x) | .take x | .put x _ _ => some (x.i, x.hi)
  | _ => none

/-- `relocate` will find its node, and a thread that has stopped has done so at the largest table -/
def Spotted (g : Ghost) (m : Mem) : Pc → Prop
  | .release0 _ (.relocate i hi _) | .release1 _ (.relocate i hi _) => g.cont (i, hi) ≠ []
  | .table i hi _ | .head i hi _ _ => g.cont (i, hi) ≠ []
  | .bucket i hi _ _ lockKey => ∃ y ∈ g.cont (i, hi), ky m y = lockKey
  | .acquire0 (.move x) | .acquire1 (.move x) | .take x => ∃ y ∈ g.cont (x.i, x.hi), ky m y = x.lockKey
  | .fault f => f = .wrap
  | _ => True

/-- the list from which the next step takes a node -/
def unlinks (m : Mem) (l : Loc) : Option (Fin 2 × ℕ) :=
  match l.pc with
  | .work _ => unlinkedBy m l.op
  | .take x => some (x.i, x.hi)
  | _ => none

/-- what the call will return, if that is certain and it has not returned -/
def decided : Pc → Option Res
  | .release0 _ k | .release1 _ k => k.result
  | .table _ _ _ | .head _ _ _ _ | .bucket _ _ _ _ _ | .take _ | .put _ _ _ => some (.add true)
  | .acquire0 (.move _) | .acquire1 (.move _) => some (.add true)
  | .aLock _ .done | .resize .done | .aUnLock _ .done => some (.add true)
  | _ => none

/-- an `add` has found both lists full and has not looked again -/
def awaiting : Pc → Bool
  | .release0 _ (.resize .again) | .release1 _ (.resize .again) => true
  | .aLock _ .again | .resize .again | .aUnLock _ .again => true
  | .acquire0 (.call true) | .acquire1 (.call true) | .work true => true
  | _ => false

def isResize : Pc → Bool
  | .resize _ => true
  | _ => false

/-- what a step of thread t in call op does to the map M and the history ret -/
inductive Effect (t : ℕ) (op : Op) (M : ℤ → Option ℤ) (ret : List (ℕ × Op × Res)) (pc : Pc) (M' : ℤ → Option ℤ)
    (ret' : List (ℕ × Op × Res)) (pc' : Pc) : Prop where
  | quiet : M' = M → ret' = ret → decided pc' = decided pc → awaiting pc' = awaiting pc →
      (∀ f, pc = .fault f → pc' = .fault f) → Effect t op M ret pc M' ret' pc'
  | fault (f : Fault) : M' = M → ret' = ret → pc' = .fault f → Effect t op M ret pc M' ret' pc'
  | returns (r : Res) : M' = M → ret' = ret ++ [(t, op, r)] → decided pc = some r → pc' = .ret r →
      Effect t op M ret pc M' ret' pc'
  | full (nested : Bool) : pc = .work nested → M' = M → ret' = ret → M op.key = none → decided pc' = none →
      awaiting pc' = true → Effect t op M ret pc M' ret' pc'
  | commit (nested : Bool) (r : Res) : pc = .work nested → ret' = ret →
      ((nested = true → M op.key = none) → (r, M') = answer M op) → decided pc' = some r → awaiting pc' = false →
      Effect t op M ret pc M' ret' pc'

/-- what a step of thread t does -/
structure Stepped (P : Params) (t : ℕ) (g : Ghost) (m : Mem) (op : Op) (pc : Pc) (g' : Ghost) (y : Mem × Pc) : Prop where
  inv : Inv P g' y.1
  here : At P g' t y.1 ⟨op, y.2⟩
  tables : isResize pc = false → y.1.table = m.table ∧ y.1.tableSize = m.tableSize
  keys : ∀ a, a < m.fresh → ky y.1 a = ky m a
  lists : ∀ q, g'.cont q ≠ g.cont q → m.mtx q.1 (q.2 % P.mtxSize) = some t
  hands : ∀ u, u ≠ t → g'.hand u = g.hand u
  effect : Effect t op g.map m.returned pc g'.map y.1.returned y.2
  spotted : Spotted g m pc → Spotted g' y.1 y.2
  unlinked : isResize pc = false → ∀ q, unlinks m ⟨op, pc⟩ ≠ some q → ∀ x ∈ g.cont q, x ∈ g'.cont q
  inserted : ∀ key, g.map key = none → g'.map key ≠ none →
    key = op.key ∧ (∃ nested, pc = .work nested) ∧ inserts P m op = true

section Threads

variable {P : Params} {t u : ℕ} {g g' : Ghost} {m m' : Mem} {op : Op} {pc pc' : Pc} {x : Move}

theorem Window.mem_eq (h : Window m pc) (htab : m'.table = m.table) (hz : m'.tableSize = m.tableSize) : Window m' pc := by
  have hplace : ∀ key i, place m' key i = place m key i := fun key i => by simp only [place, bucket, hz]
  have hhead : ∀ q, headOf m' q = headOf m q := fun q => by simp only [headOf, htab]
  have hlive : ∀ q, live m q → live m' q := fun q hq => by unfold live; rw [hz]; exact hq
  have haim : ∀ x, Aimed m x → Aimed m' x := fun x hx => by
    refine ⟨?_, ?_, ?_⟩
    · rw [hhead]; exact hx.iSet
    · rw [hplace]; exact hx.source
    · rw [hplace]; exact hx.target
  unfold Window at h ⊢
  split at h
  · rw [hplace]; exact h
  · rw [hplace]; exact h
  · exact hlive _ h
  · rw [hhead]; exact ⟨hlive _ h.1, h.2⟩
  · rw [hhead, hplace]; exact h
  · exact haim _ h
  · exact haim _ h
  · exact haim _ h
  · exact haim _ h
  · trivial

theorem window_of_target (e : target pc = none) : Window m pc := by
  cases pc with
  | release0 key k | release1 key k =>
    cases k with
    | relocate i hi round => cases e
    | _ => trivial
  | acquire0 j | acquire1 j =>
    cases j with
    | move x => cases e
    | call nested => trivial
  | table i hi round | head i hi round iSet | bucket i hi round iSet lockKey | take x | put x jSet y => cases e
  | _ => trivial

variable (hI : Inv P g m)

include hI

/-- a step that leaves the nodes, the lists and the tables alone -/
theorem Stepped.memory (hA : At P g t m ⟨op, pc⟩) (hl : Locked P t m op (m', pc')) (hn : m'.node = m.node)
    (hs : m'.size = m.size) (htab : m'.table = m.table) (hz : m'.tableSize = m.tableSize) (hf : m'.fresh = m.fresh)
    (hh : handOf pc = none) (hh' : handOf pc' = none) (hw : Window m pc')
    (he : Effect t op g.map m.returned pc g.map m'.returned pc') (hsp : Spotted g m pc → Spotted g m pc') :
    Stepped P t g m op pc g (m', pc') where
  inv := by
    have hky : ky m' = ky m := by unfold ky; rw [hn]
    refine ⟨hI.holds.mem_eq hn hs htab hz hf, fun u y hu i => ?_⟩
    have hut : u ≠ t := by
      rintro rfl
      rw [hA.hand] at hu
      exact absurd (hh.symm.trans hu) nofun
    rw [hky, hl.others u hut]
    exact hI.owner u y hu i
  here := by
    refine ⟨hl.owned, hA.hand.trans (hh.trans hh'.symm), hw.mem_eq htab hz, fun x jSet y e => ?_⟩
    change pc' = _ at e
    rw [e] at hh'
    exact absurd hh' nofun
  tables _ := ⟨htab, hz⟩
  keys a _ := by unfold ky; rw [hn]
  lists q hq := absurd rfl hq
  hands _ _ := rfl
  effect := he
  spotted h := by
    have hky : ky m' = ky m := by unfold ky; rw [hn]
    have := hsp h
    unfold Spotted at this ⊢
    rw [hky]
    exact this
  unlinked _ _ _ _ hx := hx
  inserted _ h1 h2 := absurd h1 h2

/-- the mutex of a list of the key is that of the key -/
theorem Inv.stripe_place (key : ℤ) (i : Fin 2) : (place m key i).2 % P.mtxSize = stripe P i key :=
  Nat.mod_mod_of_dvd _ hI.holds.dvd

omit hI in
theorem place_grown (h : Grown m m') (key : ℤ) (i : Fin 2) : place m' key i = place m key i := by
  simp only [place, bucket, h.tableSize]

theorem Inv.hand_lt {y : ℕ} (hu : g.hand u = some y) : y < m.fresh :=
  (hI.holds.lists.hand y ⟨u, hu⟩).2.1

/-- a thread that has the mutexes of a key, and no node in its hand, is alone with the key -/
theorem Inv.not_in_hand {key : ℤ} (hown : m.mtx 0 (stripe P 0 key) = some t) (hh : g.hand t = none) :
    ∀ y ∈ g.hands, ky m y ≠ key := by
  intro y ⟨u, hu⟩ e
  have := hI.owner u y hu 0
  rw [e, hown] at this
  cases this
  rw [hh] at hu
  cases hu

/-- the locked part of a call -/
theorem step_work {nested : Bool} (hA : At P g t m ⟨op, .work nested⟩) :
    ∃ g', Stepped P t g m op (.work nested) g' (exec P t m op (.work nested)) := by
  have hl := exec_locked hA.owned
  have hown : ∀ i, m.mtx i (stripe P i op.key) = some t := fun i => (hA.owned.owns (by simp) i _).2 rfl
  obtain ⟨m', cont', M', k, e, hw⟩ := hI.holds.work_cases (hI.not_in_hand (hown 0) hA.hand) nested
  have hex : exec P t m op (.work nested) = (m', .release0 op.key k) := by simp only [exec, e, locked]
  rw [hex] at hl ⊢
  refine ⟨⟨cont', g.hand, M'⟩, ⟨hw.holds, fun u y hu i => ?_⟩, ⟨hl.owned, hA.hand, ?_, by simp⟩,
    fun _ => ⟨hw.grown.table, hw.grown.tableSize⟩, hw.grown.ky, fun q hq => ?_, fun _ _ => rfl, ?_, fun _ => ?_, ?_,
    fun key h1 h2 => ?_⟩
  · rw [hw.grown.ky y (hI.hand_lt hu), hw.grown.mtx]
    exact hI.owner u y hu i
  · cases k with
    | relocate i hi round => exact (place_grown hw.grown _ _).trans (hw.spot i hi round rfl).1
    | _ => trivial
  · obtain ⟨i, rfl⟩ := hw.lists q hq
    rw [hI.stripe_place]
    exact hown i
  · rcases hw.answers with ⟨rfl, hk, hM⟩ | ⟨r, hr, hM⟩
    · exact .full nested rfl hM hw.grown.returned hk rfl rfl
    · refine .commit nested r rfl hw.grown.returned hM hr ?_
      cases k with
      | resize k => cases k <;> first | rfl | cases hr
      | _ => rfl
  · cases k with
    | relocate i hi round => exact (hw.spot i hi round rfl).2
    | _ => trivial
  · intro _ q hq x hx
    exact hw.unlinked q hq x hx
  · obtain ⟨h3, h4⟩ := hw.inserted key h1 h2
    exact ⟨h3, ⟨nested, rfl⟩, h4⟩

/-- `delete_node` in `relocate` -/
theorem step_take (hA : At P g t m ⟨op, .take x⟩) : ∃ g', Stepped P t g m op (.take x) g' (exec P t m op (.take x)) := by
  have hl := exec_locked hA.owned
  have hown : ∀ i, m.mtx i (stripe P i x.lockKey) = some t := fun i => (hA.owned.owns (by simp) i _).2 rfl
  have haim : Aimed m x := hA.window
  have hlive : live m (x.i, x.hi) := by rw [← haim.source]; exact hI.holds.live_place ..
  by_cases hx : ∃ y ∈ g.cont (x.i, x.hi), ky m y = x.lockKey
  · obtain ⟨y, hy, hk⟩ := hx
    obtain ⟨m', ys, zs, e, hd, hsame, hh⟩ := hI.holds.deleteNode_ok hlive hy hk
    have hex : exec P t m op (.take x) = (m', .put x (headOf m (1 - x.i, x.hj)) y) := by
      simp only [exec, haim.iSet, hd]
      rfl
    rw [hex] at hl ⊢
    have hhands : insert y g.hands = Ghost.hands ⟨Function.update g.cont (x.i, x.hi) (ys ++ zs),
        Function.update g.hand t (some y), g.map⟩ := by
      ext z
      constructor
      · rintro (rfl | ⟨u, hu⟩)
        · exact ⟨t, update_self ..⟩
        · have hut : u ≠ t := by
            rintro rfl
            rw [hA.hand] at hu
            cases hu
          exact ⟨u, (update_of_ne hut ..).trans hu⟩
      · rintro ⟨u, hu⟩
        by_cases hut : u = t
        · subst hut
          change Function.update g.hand u (some y) u = _ at hu
          rw [update_self] at hu
          cases hu
          exact .inl rfl
        · change Function.update g.hand t (some y) u = _ at hu
          rw [update_of_ne hut] at hu
          exact .inr ⟨u, hu⟩
    have hroom : (ys ++ zs).length < cap P := by
      have := hI.holds.room _ hlive
      rw [e, List.length_append, List.length_cons] at this
      rw [List.length_append]
      omega
    refine ⟨⟨Function.update g.cont (x.i, x.hi) (ys ++ zs), Function.update g.hand t (some y), g.map⟩, ⟨hhands ▸ hh, ?_⟩,
      ⟨hl.owned, update_self .., hA.window.mem_eq hsame.table hsame.tableSize, ?_⟩,
      fun _ => ⟨hsame.table, hsame.tableSize⟩, fun a _ => congrFun hsame.ky a, fun q hq => ?_,
      fun u hu => update_of_ne hu .., .quiet rfl hsame.returned rfl rfl (by simp), fun _ => trivial, ?_,
      fun _ => absurd⟩
    · intro u z hu i
      rw [hsame.ky, hsame.mtx]
      by_cases hut : u = t
      · subst hut
        change Function.update g.hand u (some y) u = _ at hu
        rw [update_self] at hu
        cases hu
        rw [hk]
        exact hown i
      · change Function.update g.hand t (some y) u = _ at hu
        rw [update_of_ne hut] at hu
        exact hI.owner u z hu i
    · intro x' jSet y' e'
      cases e'
      refine ⟨?_, ?_, ?_⟩
      · exact (congrFun hsame.headOf _).symm
      · rw [hsame.ky]; exact hk
      · change (Function.update g.cont (x.i, x.hi) (ys ++ zs) (x.i, x.hi)).length < cap P
        rw [update_self]
        exact hroom
    · obtain rfl := update_lists hq
      rw [← haim.source, hI.stripe_place]
      exact hown x.i
    · intro _ q hq z hz
      have hne : q ≠ (x.i, x.hi) := by
        rintro rfl
        exact hq rfl
      change z ∈ Function.update g.cont (x.i, x.hi) (ys ++ zs) q
      rw [update_of_ne hne]
      exact hz
  · -- the node is gone
    have hall : ∀ y ∈ g.cont (x.i, x.hi), ky m y ≠ x.lockKey := fun y hy hk => hx ⟨y, hy, hk⟩
    have hd := hI.holds.deleteNode_null hlive hall
    have hex : exec P t m op (.take x) = (m, .fault .null) := by
      simp only [exec, haim.iSet, hd]
    rw [hex] at hl ⊢
    exact ⟨g, .memory hI hA hl rfl rfl rfl rfl rfl rfl rfl trivial (.fault .null rfl rfl rfl) fun h => absurd h hx⟩

/-- `add_node_atTail` in `relocate`, to the list of the key in table i -/
theorem step_put_list {jSet y : ℕ} (hA : At P g t m ⟨op, .put x jSet y⟩) {i : Fin 2}
    (hr : (g.cont (place m x.lockKey i)).length < cap P) :
    ∃ m', addNodeAtTail m (headOf m (place m x.lockKey i)) y = .ok m' ∧
      ∀ k, exec P t m op (.put x jSet y) = (m', .release0 x.lockKey k) → k.result = some (.add true) →
        (∀ j hi round, k = .relocate j hi round → place m x.lockKey i = (j, hi)) →
        ∃ g', Stepped P t g m op (.put x jSet y) g' (exec P t m op (.put x jSet y)) := by
  have hl := exec_locked hA.owned
  have hown : ∀ i, m.mtx i (stripe P i x.lockKey) = some t := fun i => (hA.owned.owns nofun i _).2 rfl
  have hheld := hA.held x jSet y rfl
  have hhand : g.hand t = some y := hA.hand
  have hb : bucket m (place m x.lockKey i).1 (ky m y) = (place m x.lockKey i).2 := by rw [hheld.key]; rfl
  obtain ⟨m', e, hsame, hh, -⟩ := hI.holds.addNodeAtTail_ok (hI.holds.live_place x.lockKey i) ⟨t, hhand⟩ hb hr
  refine ⟨m', e, fun k hex hk hspot => ?_⟩
  rw [hex] at hl ⊢
  set cont' := Function.update g.cont (place m x.lockKey i) (g.cont (place m x.lockKey i) ++ [y]) with hcont
  have hin : y ∈ cont' (place m x.lockKey i) := by
    rw [hcont, update_self]
    exact List.mem_append_right _ List.mem_cons_self
  -- no other thread has y
  have hhands : g.hands \ {y} = Ghost.hands ⟨cont', Function.update g.hand t none, g.map⟩ := by
    ext z
    constructor
    · intro ⟨⟨u, hu⟩, hz⟩
      have hut : u ≠ t := by
        rintro rfl
        rw [hhand] at hu
        cases hu
        exact hz rfl
      exact ⟨u, (update_of_ne hut ..).trans hu⟩
    · intro ⟨u, hu⟩
      change Function.update g.hand t none u = _ at hu
      by_cases hut : u = t
      · subst hut
        rw [update_self] at hu
        cases hu
      · rw [update_of_ne hut] at hu
        refine ⟨⟨u, hu⟩, fun ez => ?_⟩
        cases ez
        have h1 := hI.owner u y hu 0
        have h2 := hI.owner t y hhand 0
        rw [h1] at h2
        exact hut (Option.some.inj h2)
  refine ⟨⟨cont', Function.update g.hand t none, g.map⟩, ⟨hhands ▸ hh, ?_⟩,
    ⟨hl.owned, update_self .., ?_, nofun⟩, fun _ => ⟨hsame.table, hsame.tableSize⟩, fun a _ => congrFun hsame.ky a,
    fun q hq => ?_, fun u hu => update_of_ne hu .., ?_, fun _ => ?_, ?_, fun _ => absurd⟩
  · intro u z hu j
    change Function.update g.hand t none u = _ at hu
    by_cases hut : u = t
    · subst hut
      rw [update_self] at hu
      cases hu
    · rw [update_of_ne hut] at hu
      rw [hsame.ky, hsame.mtx]
      exact hI.owner u z hu j
  · cases k with
    | relocate j hi round =>
      have hp := hspot j hi round rfl
      have hj : i = j := congrArg Prod.fst hp
      subst hj
      exact (place_grown hsame.grown _ _).trans hp
    | _ => trivial
  · obtain rfl := update_lists hq
    rw [hI.stripe_place]
    exact hown i
  · refine .quiet rfl hsame.returned hk ?_ nofun
    cases k with
    | resize k => cases k <;> first | rfl | cases hk
    | _ => rfl
  · cases k with
    | relocate j hi round =>
      have hp := hspot j hi round rfl
      rw [hp] at hin
      exact List.ne_nil_of_mem hin
    | _ => trivial
  · intro _ q _ z hz
    by_cases eq : q = place m x.lockKey i
    · subst eq
      change z ∈ cont' _
      rw [hcont, update_self]
      exact List.mem_append_left _ hz
    · change z ∈ cont' q
      rw [hcont, update_of_ne eq]
      exact hz

/-- the choice of the list in `relocate` -/
theorem step_put {jSet y : ℕ} (hA : At P g t m ⟨op, .put x jSet y⟩) :
    ∃ g', Stepped P t g m op (.put x jSet y) g' (exec P t m op (.put x jSet y)) := by
  have haim : Aimed m x := hA.window
  have hheld := hA.held x jSet y rfl
  have hlive := hI.holds.live_place x.lockKey (1 - x.i)
  have hsize : m.size jSet = (g.cont (place m x.lockKey (1 - x.i))).length := by
    rw [hheld.jSet, ← haim.target]
    exact hI.holds.lists.size _ hlive
  have hex : exec P t m op (.put x jSet y) = locked x.lockKey m (putWork P m x jSet y) := rfl
  by_cases h1 : m.size jSet < P.threshold
  · have hr : (g.cont (place m x.lockKey (1 - x.i))).length < cap P := by unfold cap; omega
    obtain ⟨m', e, hstep⟩ := step_put_list hI hA hr
    rw [haim.target, ← hheld.jSet] at e
    refine hstep (.ret (.add true)) ?_ rfl nofun
    rw [hex, putWork, if_pos h1, e]
    rfl
  · by_cases h2 : m.size jSet < P.probeSize
    · have hr : (g.cont (place m x.lockKey (1 - x.i))).length < cap P := by unfold cap; omega
      obtain ⟨m', e, hstep⟩ := step_put_list hI hA hr
      rw [haim.target, ← hheld.jSet] at e
      refine hstep (if x.round + 1 < LIMIT then .relocate (1 - x.i) x.hj (x.round + 1) else .resize .done) ?_ ?_ ?_
      · rw [hex, putWork, if_neg h1, if_pos h2, e]
        rfl
      · split_ifs <;> rfl
      · intro j hi round ek
        split_ifs at ek
        cases ek
        exact haim.target
    · -- the node goes back
      have hr : (g.cont (place m x.lockKey x.i)).length < cap P := by rw [haim.source]; exact hheld.room
      obtain ⟨m', e, hstep⟩ := step_put_list hI hA hr
      rw [haim.source, ← haim.iSet] at e
      refine hstep (.resize .done) ?_ rfl nofun
      rw [hex, putWork, if_neg h1, if_neg h2, e]
      rfl

/-- `resize` has all mutexes, so no node is in a hand -/
theorem step_resize {k : Then} (hA : At P g t m ⟨op, .resize k⟩) :
    ∃ g', Stepped P t g m op (.resize k) g' (exec P t m op (.resize k)) := by
  have hl := exec_locked hA.owned
  have hown : ∀ i b, b < P.mtxSize → m.mtx i b = some t := fun i b hb => (hA.owned.owns (by simp) i b).2 hb
  have hnone : ∀ u y, g.hand u ≠ some y := by
    intro u y hu
    have h1 := hI.owner u y hu 0
    rw [hown 0 _ (stripe_lt P 0 _)] at h1
    cases h1
    rw [hA.hand] at hu
    cases hu
  have hempty : g.hands = ∅ := by
    rw [Set.eq_empty_iff_forall_notMem]
    intro y ⟨u, hu⟩
    exact hnone u y hu
  have hh := hI.holds
  rw [hempty] at hh
  rcases hh.resize_ok with ⟨e, -⟩ | ⟨m', cont', e, hh', hsame⟩
  · have hex : exec P t m op (.resize k) = (m, .fault .wrap) := by simp only [exec, e]
    rw [hex] at hl ⊢
    exact ⟨g, .memory hI hA hl rfl rfl rfl rfl rfl rfl rfl trivial (.fault .wrap rfl rfl rfl) fun _ => rfl⟩
  · have hex : exec P t m op (.resize k) = (m', .aUnLock 0 k) := by simp only [exec, e]
    rw [hex] at hl ⊢
    refine ⟨⟨cont', g.hand, g.map⟩, ⟨?_, fun u y hu => absurd hu (hnone u y)⟩, ⟨hl.owned, hA.hand, trivial, by simp⟩,
      Bool.noConfusion,
      fun a ha => ?_, fun q _ => hown _ _ (Nat.mod_lt _ (mtxSize_pos P)), fun _ _ => rfl, ?_, fun _ => trivial, Bool.noConfusion,
      fun _ => absurd⟩
    · change Holds P m' cont' g.hands g.map
      rw [hempty]
      exact hh'
    · rw [hsame.ky]
      unfold ky
      rw [(doubled_old m ha).1]
    · refine .quiet rfl hsame.returned ?_ ?_ (by simp)
      · cases k <;> rfl
      · cases k <;> rfl

omit hI in
theorem lock_cases (t : ℕ) (m : Mem) (i : Fin 2) (b : ℕ) (pc pc' : Pc) :
    lock t m i b pc pc' = (setMtx m i b (some t), pc') ∨ lock t m i b pc pc' = (m, pc) := by
  unfold lock
  split_ifs
  · exact .inl rfl
  · exact .inr rfl

variable (pc') in
/-- a mutex is taken, or the thread waits -/
theorem Stepped.lock (hA : At P g t m ⟨op, pc⟩) {i : Fin 2} {b : ℕ} (hex : exec P t m op pc = lock t m i b pc pc')
    (hh : handOf pc = none) (hh' : handOf pc' = none) (hw : Window m pc') (hd : decided pc' = decided pc)
    (ha : awaiting pc' = awaiting pc) (hf : ∀ f, pc ≠ .fault f)
    (hsp : Spotted g m pc → Spotted g m pc') : Stepped P t g m op pc g (exec P t m op pc) := by
  have hl := exec_locked hA.owned
  rcases lock_cases t m i b pc pc' with e | e
  · rw [hex, e] at hl ⊢
    exact Stepped.memory hI hA hl rfl rfl rfl rfl rfl hh hh' hw (.quiet rfl rfl hd ha fun f e => absurd e (hf f)) hsp
  · rw [hex, e] at hl ⊢
    exact Stepped.memory hI hA hl rfl rfl rfl rfl rfl hh hh hA.window (.quiet rfl rfl rfl rfl fun _ => id) id

/-- **What a step does.** -/
theorem exec_step (hA : At P g t m ⟨op, pc⟩) : ∃ g', Stepped P t g m op pc g' (exec P t m op pc) := by
  have hl := exec_locked hA.owned
  cases pc with
  | idle | ret r => exact ⟨g, .memory hI hA hl rfl rfl rfl rfl rfl rfl rfl trivial (.quiet rfl rfl rfl rfl (by simp)) id⟩
  | fault f =>
    exact ⟨g, .memory hI hA hl rfl rfl rfl rfl rfl rfl rfl trivial (.quiet rfl rfl rfl rfl fun _ => id) id⟩
  | acquire0 j =>
    cases j with
    | call nested => exact ⟨g, .lock _ hI hA rfl rfl rfl trivial rfl (by cases nested <;> rfl) (by simp) id⟩
    | move x => exact ⟨g, .lock _ hI hA rfl rfl rfl hA.window rfl rfl (by simp) id⟩
  | acquire1 j =>
    cases j with
    | call nested =>
      exact ⟨g, .lock (.work nested) hI hA rfl rfl rfl trivial rfl (by cases nested <;> rfl) (by simp) id⟩
    | move x => exact ⟨g, .lock (.take x) hI hA rfl rfl rfl hA.window rfl rfl (by simp) id⟩
  | work nested => exact step_work hI hA
  | take x => exact step_take hI hA
  | put x jSet y => exact step_put hI hA
  | release0 key k =>
    refine ⟨g, .memory hI hA hl rfl rfl rfl rfl rfl rfl rfl ?_ (.quiet rfl rfl rfl ?_ (by simp)) ?_⟩
    · cases k with
      | relocate i hi round => exact hA.window
      | _ => trivial
    · cases k with
      | resize k => cases k <;> rfl
      | _ => rfl
    · cases k with
      | relocate i hi round => exact id
      | _ => exact fun _ => trivial
  | release1 key k =>
    cases k with
    | ret r =>
      exact ⟨g, .memory hI hA hl rfl rfl rfl rfl rfl rfl rfl trivial (.returns r rfl rfl rfl rfl) fun _ => trivial⟩
    | relocate i hi round =>
      have hp : place m key i = (i, hi) := hA.window
      have hlive : live m (i, hi) := by rw [← hp]; exact hI.holds.live_place ..
      exact ⟨g, .memory hI hA hl rfl rfl rfl rfl rfl rfl rfl hlive (.quiet rfl rfl rfl rfl (by simp)) id⟩
    | resize k =>
      refine ⟨g, .memory hI hA hl rfl rfl rfl rfl rfl rfl rfl trivial (.quiet rfl rfl ?_ ?_ (by simp)) fun _ => trivial⟩
      · cases k <;> rfl
      · cases k <;> rfl
  | table i hi round =>
    exact ⟨g, .memory hI hA hl rfl rfl rfl rfl rfl rfl rfl ⟨hA.window, rfl⟩ (.quiet rfl rfl rfl rfl (by simp)) id⟩
  | head i hi round iSet =>
    obtain ⟨hlive, rfl⟩ : live m (i, hi) ∧ iSet = headOf m (i, hi) := hA.window
    have hseg := hI.holds.lists.seg (i, hi) hlive
    cases hc : g.cont (i, hi) with
    | nil =>
      rw [hc] at hseg
      have hnull : nx m (headOf m (i, hi)) = NULL := hseg
      have hex : exec P t m op (.head i hi round (headOf m (i, hi))) = (m, .fault .null) := by simp only [exec, if_pos hnull]
      rw [hex] at hl ⊢
      exact ⟨g, .memory hI hA hl rfl rfl rfl rfl rfl rfl rfl trivial (.fault .null rfl rfl rfl) fun h => absurd hc h⟩
    | cons y ys =>
      rw [hc] at hseg
      obtain ⟨e, h0, -⟩ := hseg
      have hnull : ¬ nx m (headOf m (i, hi)) = NULL := by rw [e]; exact h0
      have hy : y ∈ g.cont (i, hi) := by rw [hc]; exact List.mem_cons_self
      have hp : place m (ky m y) i = (i, hi) := hI.holds.place_eq hlive hy
      have hex : exec P t m op (.head i hi round (headOf m (i, hi))) =
          (m, .bucket i hi round (headOf m (i, hi)) (ky m y)) := by
        rw [exec, if_neg hnull, e]
      rw [hex] at hl ⊢
      exact ⟨g, .memory hI hA hl rfl rfl rfl rfl rfl rfl rfl ⟨rfl, hp⟩ (.quiet rfl rfl rfl rfl (by simp))
        fun _ => ⟨y, hy, rfl⟩⟩
  | bucket i hi round iSet lockKey =>
    obtain ⟨h1, h2⟩ : iSet = headOf m (i, hi) ∧ place m lockKey i = (i, hi) := hA.window
    exact ⟨g, .memory hI hA hl rfl rfl rfl rfl rfl rfl rfl ⟨h1, h2, rfl⟩ (.quiet rfl rfl rfl rfl (by simp)) id⟩
  | aLock p k =>
    by_cases hp : p + 1 < 2 * P.mtxSize
    · have hex : exec P t m op (.aLock p k) =
          lock t m (lockAt p).1 (lockAt p).2 (.aLock p k) (.aLock (p + 1) k) := by simp only [exec, if_pos hp]
      exact ⟨g, .lock _ hI hA hex rfl rfl trivial (by cases k <;> rfl) (by cases k <;> rfl) (by simp) fun _ => trivial⟩
    · have hex : exec P t m op (.aLock p k) =
          lock t m (lockAt p).1 (lockAt p).2 (.aLock p k) (.resize k) := by simp only [exec, if_neg hp]
      exact ⟨g, .lock _ hI hA hex rfl rfl trivial (by cases k <;> rfl) (by cases k <;> rfl) (by simp) fun _ => trivial⟩
  | resize k => exact step_resize hI hA
  | aUnLock p k =>
    by_cases hp : p + 1 < 2 * P.mtxSize
    · have hex : exec P t m op (.aUnLock p k) =
          (setMtx m (unlockAt p).1 (unlockAt p).2 none, .aUnLock (p + 1) k) := by simp only [exec, if_pos hp]
      rw [hex] at hl ⊢
      refine ⟨g, .memory hI hA hl rfl rfl rfl rfl rfl rfl rfl trivial (.quiet rfl rfl ?_ ?_ (by simp)) fun _ => trivial⟩
      · cases k <;> rfl
      · cases k <;> rfl
    · have hex : exec P t m op (.aUnLock p k) = k.next t (setMtx m (unlockAt p).1 (unlockAt p).2 none) op := by
        simp only [exec, if_neg hp]
      rw [hex] at hl ⊢
      cases k with
      | done =>
        exact ⟨g, .memory hI hA hl rfl rfl rfl rfl rfl rfl rfl trivial (.returns (.add true) rfl rfl rfl rfl)
          fun _ => trivial⟩
      | again =>
        exact ⟨g, .memory hI hA hl rfl rfl rfl rfl rfl rfl rfl trivial (.quiet rfl rfl rfl rfl (by simp)) fun _ => trivial⟩

theorem Stepped.stutter (hA : At P g t m ⟨op, pc⟩) : Stepped P t g m op pc g (m, pc) where
  inv := hI
  here := hA
  tables _ := ⟨rfl, rfl⟩
  keys _ _ := rfl
  lists _ hq := absurd rfl hq
  hands _ _ := rfl
  effect := .quiet rfl rfl rfl rfl fun _ => id
  spotted := id
  unlinked _ _ _ _ hx := hx
  inserted _ h1 h2 := absurd h1 h2

theorem step_step {l : Loc} (hA : At P g t m l) (a : Act) :
    ∃ g', Stepped P t g m (step P t m l a).2.op l.pc g' ((step P t m l a).1, (step P t m l a).2.pc) := by
  cases a with
  | step => exact exec_step hI hA
  | invoke op =>
    by_cases ho : outside l.pc = true
    · have hst : step P t m l (.invoke op) = (m, ⟨op, .acquire0 (.call false)⟩) := by simp only [step, if_pos ho]
      have hl := step_locked hA.owned (.invoke op)
      rw [hst] at hl ⊢
      have hh : handOf l.pc = none := by
        rcases outside_cases ho with e | ⟨r, e⟩ <;> rw [e] <;> rfl
      refine ⟨g, ?_⟩
      have hA' : At P g t m ⟨op, l.pc⟩ := by
        refine ⟨⟨hA.owned.range, fun hf i b => (hA.owned.owns hf i b).trans ?_⟩, hA.hand, hA.window, hA.held⟩
        exact iff_of_false (holds_outside ho i b) (holds_outside ho i b)
      refine .memory hI hA' ⟨hl.1, hl.2⟩ rfl rfl rfl rfl rfl hh rfl trivial ?_ fun _ => trivial
      rcases outside_cases ho with e | ⟨r, e⟩
      · rw [e]; exact .quiet rfl rfl rfl rfl (by simp)
      · rw [e]; exact .quiet rfl rfl rfl rfl (by simp)
    · have hst : step P t m l (.invoke op) = (m, l) := by simp only [step, if_neg ho]
      rw [hst]
      exact ⟨g, .stutter hI hA⟩

omit hI

/-- what another thread knows stays right, unless this is a `resize` and the other is in `relocate` -/
theorem Stepped.stable {y : Mem × Pc} {l : Loc} (h : Stepped P t g m op pc g' y) (hI : Inv P g m) (hu : u ≠ t)
    (ho : ∀ i b, y.1.mtx i b = some u ↔ m.mtx i b = some u) (hr : isResize pc = true → target l.pc = none)
    (hA : At P g u m l) : At P g' u y.1 l := by
  -- either the tables are the same or there is nothing to remember
  have htables : target l.pc = none ∨ isResize pc = false := by
    cases e : isResize pc with
    | true => exact .inl (hr e)
    | false => exact .inr rfl
  refine ⟨hA.owned.other ho, (h.hands u hu).trans hA.hand, ?_, ?_⟩
  · rcases htables with e | e
    · exact window_of_target e
    · exact hA.window.mem_eq (h.tables e).1 (h.tables e).2
  · intro x jSet z e
    have hheld := hA.held x jSet z e
    have hw : Aimed m x := by
      have := hA.window
      rw [e] at this
      exact this
    have hown : m.mtx x.i (stripe P x.i x.lockKey) = some u := by
      refine (hA.owned.owns (by rw [e]; nofun) _ _).2 ?_
      rw [e]
      rfl
    have hz : g.hand u = some z := by rw [hA.hand, e]; rfl
    rcases htables with e' | e'
    · rw [e] at e'
      cases e'
    · refine ⟨?_, ?_, ?_⟩
      · unfold headOf
        rw [(h.tables e').1]
        exact hheld.jSet
      · rw [h.keys z (hI.hand_lt hz)]
        exact hheld.key
      · have hc : g'.cont (x.i, x.hi) = g.cont (x.i, x.hi) := by
          by_contra hne
          have hm := h.lists _ hne
          rw [← hw.source, hI.stripe_place] at hm
          change m.mtx x.i _ = _ at hm
          rw [hown] at hm
          exact hu (Option.some.inj hm)
        rw [hc]
        exact hheld.room

end Threads

/-! ## Runs -/

/-- a `resize` happens only while the other thread is not in `relocate` -/
def NoResize (l o : Loc) : Prop := isResize l.pc = true → target o.pc = none

instance NoResize.decidable (l o : Loc) : Decidable (NoResize l o) := inferInstanceAs (Decidable (_ → _))

structure Base (P : Params) (g : Ghost) (s : St Mem Loc) : Prop where
  inv : Inv P g s.sh
  threads : ∀ t, At P g t s.sh (s.loc t)

/-- **A step beside threads that are not in `relocate`, or that is not a `resize`.** -/
theorem base_next {P : Params} {g : Ghost} {s : St Mem Loc} (h : Base P g s) (t : ℕ) (a : Act)
    (hK : ∀ u, u ≠ t → NoResize (s.loc t) (s.loc u)) :
    ∃ g', Base P g' ((sys P).next s (t, a)) ∧
      Stepped P t g s.sh (((sys P).next s (t, a)).loc t).op (s.loc t).pc g'
        (((sys P).next s (t, a)).sh, (((sys P).next s (t, a)).loc t).pc) := by
  obtain ⟨g', hst⟩ := step_step h.inv (h.threads t) a
  have hothers := (step_locked (h.threads t).owned a).2
  refine ⟨g', ⟨hst.inv, fun u => ?_⟩, ?_⟩
  · by_cases hu : u = t
    · subst hu
      rw [Sys.next_loc_self]
      exact hst.here
    · rw [Sys.next_loc_ne _ s _ hu]
      exact hst.stable h.inv hu (hothers u hu) (hK u hu) (h.threads u)
  · rw [Sys.next_loc_self]
    exact hst

theorem init_holds (P : Params) : Holds P (initHashtable P) (fun _ => []) ∅ fun _ => none := by
  have hpos := mtxSize_pos P
  have hhead : ∀ q, headOf (initHashtable P) q = 1 + 2 * q.2 + q.1 := fun _ => rfl
  have hfresh : (initHashtable P).fresh = 1 + 2 * P.mtxSize := rfl
  have hnode : ∀ q, nx (initHashtable P) (headOf (initHashtable P) q) = 0 := by
    intro q
    simp only [nx, initHashtable, initTables, ite_self]
    rfl
  have hsize : ∀ q, (initHashtable P).size (headOf (initHashtable P) q) = 0 := by
    intro q
    simp only [initHashtable, initTables, ite_self]
  refine ⟨hpos, ⟨0, by simp [initHashtable, initTables]⟩, ?_, by simp, (fun _ _ => Nat.zero_le _), ?_, ?_⟩
  · refine ⟨fun q _ => hnode q, fun q _ => hsize q, fun q _ r _ e => ?_, fun q hq => ?_, by simp, by simp,
      by simp⟩
    · rw [hhead, hhead] at e
      have h1 := q.1.isLt
      have h2 := r.1.isLt
      exact Prod.ext (Fin.ext (by omega)) (by omega)
    · have h1 := q.1.isLt
      have h2 : q.2 < P.mtxSize := hq
      rw [hhead, hfresh]
      omega
  · intro x hx
    rcases hx with ⟨_, _, hx⟩ | hx <;> cases hx
  · intro k v
    refine ⟨by simp, ?_⟩
    rintro ⟨x, hx, -⟩
    rcases hx with ⟨_, _, hx⟩ | hx <;> cases hx

theorem init_base (P : Params) : Base P ⟨fun _ => [], fun _ => none, fun _ => none⟩ (sys P).init where
  inv := by
    have hhands : Ghost.hands ⟨fun _ => [], fun _ => none, fun _ => none⟩ = ∅ := by
      rw [Set.eq_empty_iff_forall_notMem]
      intro y ⟨u, hu⟩
      cases hu
    refine ⟨?_, nofun⟩
    rw [hhands]
    exact init_holds P
  threads t := ⟨init_owned P t, rfl, trivial, nofun⟩

end AlgorithmCollection.ConcurrentCuckooHash
