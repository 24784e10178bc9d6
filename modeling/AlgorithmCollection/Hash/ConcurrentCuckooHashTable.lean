/-
What the functions of `ConcurrentCuckooHash` do to the table.

`Holds P m cont H M`: the lists of the two tables have the nodes `cont`, the nodes H are in no list, every node of a list is in
one of the two lists of its key, no list is longer than `cap P`, no two nodes have the same key, and M is the map of all
the nodes. Every function of the source that works on the lists gets one lemma that says what it returns on such a table
and that it keeps `Holds`: `searchList_eq`, `containsOp_eq`, `addNodeAtTail_ok`, `deleteNode_ok`, `createNode_holds`, and
`resize_cases`, which goes through the loops of `resize` with the nodes that are still in the old lists in H.
-/
import AlgorithmCollection.Hash.ConcurrentCuckooHashLocks

namespace AlgorithmCollection.ConcurrentCuckooHash

open Conc
open Function (update_self update_of_ne)

/-! ## The table -/

/-- list q.2 of table q.1 -/
def live (m : Mem) (q : Fin 2 × ℕ) : Prop := q.2 < m.tableSize

def headOf (m : Mem) (q : Fin 2 × ℕ) : ℕ := m.table q.1 q.2

/-- the list of a key in table i -/
def place (m : Mem) (key : ℤ) (i : Fin 2) : Fin 2 × ℕ := (i, bucket m i key)

def data (m : Mem) (cont : Fin 2 × ℕ → List ℕ) (H : Set ℕ) : Set ℕ := Lists.Data (live m) cont H

/-- no list gets longer -/
def cap (P : Params) : ℕ := (max P.threshold P.probeSize).toNat

structure Holds (P : Params) (m : Mem) (cont : Fin 2 × ℕ → List ℕ) (H : Set ℕ) (M : ℤ → Option ℤ) : Prop where
  pos : 0 < m.tableSize
  grown : ∃ e, m.tableSize = P.mtxSize * 2 ^ e
  lists : Lists (nx m) m.size m.fresh (live m) (headOf m) cont H
  placed : ∀ q, live m q → ∀ x ∈ cont q, bucket m q.1 (ky m x) = q.2
  room : ∀ q, live m q → (cont q).length ≤ cap P
  keys : ∀ x ∈ data m cont H, ∀ y ∈ data m cont H, ky m x = ky m y → x = y
  rep : ∀ k v, M k = some v ↔ ∃ x ∈ data m cont H, ky m x = k ∧ vl m x = v

/-- m' differs from m only in the links of the nodes, the sizes of the lists and `setSize` -/
structure Same (m m' : Mem) : Prop where
  table : m'.table = m.table
  tableSize : m'.tableSize = m.tableSize
  fresh : m'.fresh = m.fresh
  mtx : m'.mtx = m.mtx
  returned : m'.returned = m.returned
  ky : ky m' = ky m
  vl : vl m' = vl m

section Memory

variable {m m' m'' : Mem} {a p : ℕ}

theorem Same.refl (m : Mem) : Same m m := ⟨rfl, rfl, rfl, rfl, rfl, rfl, rfl⟩

theorem Same.trans (h : Same m m') (h' : Same m' m'') : Same m m'' :=
  ⟨h'.table.trans h.table, h'.tableSize.trans h.tableSize, h'.fresh.trans h.fresh, h'.mtx.trans h.mtx,
    h'.returned.trans h.returned, h'.ky.trans h.ky, h'.vl.trans h.vl⟩

theorem nx_setNext : nx (setNext m a p) = Function.update (nx m) a p := Function.comp_update Node.next m.node a _

theorem vl_setNext : vl (setNext m a p) = vl m :=
  (Function.comp_update Node.value m.node a _).trans (Function.update_eq_self a (vl m))

theorem Same.setNext (m : Mem) (a p : ℕ) : Same m (setNext m a p) := ⟨rfl, rfl, rfl, rfl, rfl, ky_setNext, vl_setNext⟩

theorem Same.live (h : Same m m') : live m' = live m := by
  funext q; simp only [ConcurrentCuckooHash.live, h.tableSize]

theorem Same.headOf (h : Same m m') : headOf m' = headOf m := by
  funext q; simp only [ConcurrentCuckooHash.headOf, h.table]

theorem Same.bucket (h : Same m m') (i : Fin 2) (k : ℤ) : bucket m' i k = bucket m i k := by
  simp only [ConcurrentCuckooHash.bucket, h.tableSize]

end Memory

/-! ## Lookups -/

section Lookup

variable {P : Params} {m m' : Mem} {cont cont' : Fin 2 × ℕ → List ℕ} {H H' : Set ℕ} {M : ℤ → Option ℤ} {q : Fin 2 × ℕ}
  {x y : ℕ} {key val : ℤ} {i : Fin 2}

variable (h : Holds P m cont H M)

include h

theorem Holds.live_place (key : ℤ) (i : Fin 2) : live m (place m key i) := Nat.mod_lt _ h.pos

omit h in
theorem mem_data (hq : live m q) (hx : x ∈ cont q) : x ∈ data m cont H := .inl ⟨q, hq, hx⟩

/-- a node of a list is in the list of its key -/
theorem Holds.place_eq (hq : live m q) (hx : x ∈ cont q) : place m (ky m x) q.1 = q := by
  have := h.placed q hq x hx
  exact Prod.ext rfl this

theorem Holds.seek_found (hq : live m q) (hx : x ∈ cont q) : ∃ ys zs, cont q = ys ++ x :: zs ∧
      seekNode (nx m) (fun a => ky m a = ky m x) m.fresh (headOf m q) = some (ys.getLastD (headOf m q), x) := by
  obtain ⟨ys, zs, e⟩ := List.append_of_mem hx
  have hseg := h.lists.seg q hq
  have hlen := h.lists.length_lt hq
  have hd := hseg.nodup
  rw [e] at hseg hlen hd
  refine ⟨ys, zs, e, hseg.seekNode_found hlen (fun y hy => ?_) (by simp)⟩
  -- no other node has the key
  refine decide_eq_false fun ek => ?_
  have hyq : y ∈ cont q := by rw [e]; exact List.mem_append_left _ hy
  have := h.keys y (mem_data hq hyq) x (mem_data hq hx) ek
  subst this
  exact (List.nodup_middle.1 hd |> List.nodup_cons.1).1 (List.mem_append_left _ hy)

theorem Holds.seek_missed (hq : live m q) (hx : ∀ x ∈ cont q, ky m x ≠ key) :
    seekNode (nx m) (fun a => ky m a = key) m.fresh (headOf m q) = some ((cont q).getLastD (headOf m q), 0) :=
  (h.lists.seg q hq).seekNode_missed (h.lists.length_lt hq) fun x hm => decide_eq_false (hx x hm)

/-- `search_list` -/
theorem Holds.searchList_eq (hq : live m q) (key : ℤ) :
    searchList m (headOf m q) key = .ok (decide (∃ x ∈ cont q, ky m x = key)) := by
  have hsize := h.lists.size q hq
  unfold searchList
  by_cases hx : ∃ x ∈ cont q, ky m x = key
  · obtain ⟨x, hxq, rfl⟩ := hx
    have hlen : 0 < (cont q).length := List.length_pos_of_mem hxq
    have h0 : x ≠ NULL := (h.lists.seg q hq).ne_zero x hxq
    obtain ⟨ys, zs, -, hs⟩ := h.seek_found hq hxq
    have hex : ∃ y ∈ cont q, ky m y = ky m x := ⟨x, hxq, rfl⟩
    rw [hsize, if_pos (by exact_mod_cast hlen), hs]
    simp only [h0, ne_eq, not_false_eq_true, decide_true, hex]
  · have hno : ∀ x ∈ cont q, ky m x ≠ key := fun x hm e => hx ⟨x, hm, e⟩
    rw [h.seek_missed hq hno]
    simp only [hx, decide_false]
    split <;> rfl

/-- the map has the key of a node -/
theorem Holds.map_eq (hx : x ∈ data m cont H) : M (ky m x) = some (vl m x) :=
  (h.rep _ _).2 ⟨x, hx, rfl, rfl⟩

/-- a key that is in the map, and not at a node outside the lists, is in one of its two lists -/
theorem Holds.stored (hH : ∀ y ∈ H, ky m y ≠ key) (hk : M key ≠ none) : ∃ i, ∃ x ∈ cont (place m key i), ky m x = key := by
  obtain ⟨v, hv⟩ := Option.ne_none_iff_exists'.1 hk
  obtain ⟨x, hx, rfl, -⟩ := (h.rep key v).1 hv
  rcases hx with ⟨q, hq, hx⟩ | hx
  · exact ⟨q.1, x, by rw [h.place_eq hq hx]; exact hx, rfl⟩
  · exact absurd rfl (hH x hx)

theorem Holds.present (hx : x ∈ cont (place m key i)) (hk : ky m x = key) : M key ≠ none := by
  rw [← hk, h.map_eq (mem_data (h.live_place key i) hx)]
  simp

variable (key) in
/-- `contains_op` -/
theorem Holds.containsOp_eq (hH : ∀ y ∈ H, ky m y ≠ key) : containsOp m key = .ok (M key).isSome := by
  have h0 := h.searchList_eq (h.live_place key 0) key
  have h1 := h.searchList_eq (h.live_place key 1) key
  change searchList m (getList m 0 key) key = _ at h0
  change searchList m (getList m 1 key) key = _ at h1
  unfold containsOp
  rw [h0, h1]
  by_cases hk : M key = none
  · have hno : ∀ i, ¬ ∃ x ∈ cont (place m key i), ky m x = key := by
      intro i hx
      obtain ⟨x, hx, e⟩ := hx
      exact h.present hx e hk
    simp only [hno, decide_false, hk, Option.isSome_none]
  · obtain ⟨i, hx⟩ := h.stored hH hk
    have hs : (M key).isSome = true := Option.isSome_iff_ne_none.2 hk
    rw [hs]
    by_cases hx0 : ∃ x ∈ cont (place m key 0), ky m x = key
    · simp only [hx0, decide_true]
    · have hi : i = 1 := by
        fin_cases i
        · exact absurd hx hx0
        · rfl
      subst hi
      simp only [hx0, decide_false, hx, decide_true]

end Lookup

/-! ## Updates of one list -/

section Update

variable {P : Params} {m m' : Mem} {cont cont' : Fin 2 × ℕ → List ℕ} {H H' : Set ℕ} {M : ℤ → Option ℤ} {q : Fin 2 × ℕ}
  {x y : ℕ} {key val : ℤ} {i : Fin 2}

variable (h : Holds P m cont H M)

include h

/-- the lists have changed and the nodes have not -/
theorem Holds.same (hs : Same m m')
    (hl : Lists (nx m') m'.size m.fresh (live m) (headOf m) cont' H') (hd : data m cont' H' = data m cont H)
    (hp : ∀ q, live m q → ∀ x ∈ cont' q, bucket m q.1 (ky m x) = q.2)
    (hr : ∀ q, live m q → (cont' q).length ≤ cap P) : Holds P m' cont' H' M := by
  have hdata : data m' cont' H' = data m cont H := by
    rw [← hd]; unfold data; rw [hs.live]
  constructor
  · rw [hs.tableSize]; exact h.pos
  · rw [hs.tableSize]; exact h.grown
  · rw [hs.fresh, hs.live, hs.headOf]; exact hl
  · intro q hq x hx
    rw [hs.live] at hq
    rw [hs.bucket, hs.ky]
    exact hp q hq x hx
  · rw [hs.live]; exact hr
  · rw [hdata, hs.ky]; exact h.keys
  · rw [hdata, hs.ky, hs.vl]; exact h.rep

omit h in
theorem mem_update_append {r : Fin 2 × ℕ} (hx : x ∈ Function.update cont q (cont q ++ [y]) r) :
    x ∈ cont r ∨ r = q ∧ x = y := by
  by_cases e : r = q
  · subst e
    rw [update_self, List.mem_append, List.mem_singleton] at hx
    exact hx.imp_right fun e => ⟨rfl, e⟩
  · rw [update_of_ne e] at hx; exact .inl hx

/-- `add_node_atTail` -/
theorem Holds.addNodeAtTail_ok (hq : live m q) (hy : y ∈ H)
    (hb : bucket m q.1 (ky m y) = q.2) (hr : (cont q).length < cap P) :
    ∃ m', addNodeAtTail m (headOf m q) y = .ok m' ∧ Same m m' ∧
      Holds P m' (Function.update cont q (cont q ++ [y])) (H \ {y}) M ∧
      (∀ z, z ≠ y → z ≠ headOf m q → z ∉ cont q → nx m' z = nx m z) ∧ ∀ z, z ≠ headOf m q → m'.size z = m.size z := by
  have hlast := (h.lists.seg q hq).lastNode_eq (h.lists.length_lt hq)
  set curr := (cont q).getLastD (headOf m q) with hcurr
  set m1 := { setNext (setNext m curr y) y NULL with
    size := Function.update m.size (headOf m q) (m.size (headOf m q) + 1) } with hm1
  obtain ⟨n, hn⟩ := incSize_eq m1
  have hnx : nx { m1 with setSize := n } = Function.update (Function.update (nx m) curr y) y 0 := by
    change nx (setNext (setNext m curr y) y NULL) = _
    rw [nx_setNext, nx_setNext]
    rfl
  have hsame : Same m { m1 with setSize := n } := by
    have h1 := (Same.setNext m curr y).trans (Same.setNext _ y NULL)
    exact ⟨h1.table, h1.tableSize, h1.fresh, h1.mtx, h1.returned, h1.ky, h1.vl⟩
  refine ⟨incSize m1, by simp only [addNodeAtTail, hlast, hm1], ?_⟩
  rw [hn]
  refine ⟨hsame, h.same hsame ?_ (Lists.data_append hq hy) ?_ ?_, ?_, ?_⟩
  · rw [hnx]; exact h.lists.append hq hy
  · intro r hr x hx
    rcases mem_update_append hx with hx | ⟨rfl, rfl⟩
    · exact h.placed r hr x hx
    · exact hb
  · intro r hr'
    by_cases e : r = q
    · subst e; rw [update_self, List.length_append, List.length_singleton]; omega
    · rw [update_of_ne e]; exact h.room r hr'
  · intro z h1 h2 h3
    have hz : z ≠ curr := by
      rintro rfl
      rcases Seg.getLastD_mem (headOf m q) (cont q) with e | e
      · exact h2 e
      · exact h3 e
    rw [hnx, update_of_ne h1, update_of_ne hz]
  · intro z hz
    exact update_of_ne hz ..

/-- `delete_node` on a key of the list -/
theorem Holds.deleteNode_ok (hq : live m q) (hx : x ∈ cont q) (hk : ky m x = key) :
    ∃ m' ys zs, cont q = ys ++ x :: zs ∧ deleteNode m (headOf m q) key = .ok (m', x) ∧ Same m m' ∧
      Holds P m' (Function.update cont q (ys ++ zs)) (insert x H) M := by
  subst hk
  obtain ⟨ys, zs, e, hs⟩ := h.seek_found hq hx
  obtain ⟨x', rfl⟩ := Nat.exists_eq_succ_of_ne_zero ((h.lists.seg q hq).ne_zero x hx)
  have h1 := Same.setNext m (ys.getLastD (headOf m q)) (nx m (x' + 1))
  have hsame : Same m { setNext m (ys.getLastD (headOf m q)) (nx m (x' + 1)) with
      size := Function.update m.size (headOf m q) (m.size (headOf m q) - 1) } :=
    ⟨h1.table, h1.tableSize, h1.fresh, h1.mtx, h1.returned, h1.ky, h1.vl⟩
  refine ⟨_, ys, zs, e, ?_, hsame, h.same hsame ?_ (Lists.data_remove hq e) ?_ ?_⟩
  · simp only [deleteNode, hs]
  · have hnx := nx_setNext (m := m) (a := ys.getLastD (headOf m q)) (p := nx m (x' + 1))
    have hl := h.lists.remove hq e
    rw [← hnx] at hl
    exact hl
  · intro r hr y hy
    by_cases er : r = q
    · subst er
      rw [update_self] at hy
      refine h.placed r hr y ?_
      rw [e]
      rcases List.mem_append.1 hy with hy | hy <;> simp [hy]
    · rw [update_of_ne er] at hy; exact h.placed r hr y hy
  · intro r hr
    by_cases er : r = q
    · subst er
      have := h.room r hr
      rw [e, List.length_append, List.length_cons] at this
      rw [update_self, List.length_append]
      omega
    · rw [update_of_ne er]; exact h.room r hr

/-- `delete_node` on a key that is not in the list follows NULL -/
theorem Holds.deleteNode_null (hq : live m q) (hx : ∀ x ∈ cont q, ky m x ≠ key) :
    deleteNode m (headOf m q) key = .error .null := by
  simp only [deleteNode, h.seek_missed hq hx]

omit h in
/-- a node outside the lists is given up -/
theorem Holds.forget (h : Holds P m cont (insert x H) M) (hx : x ∉ H) (hl : ∀ q, live m q → x ∉ cont q) :
    Holds P m cont H (Function.update M (ky m x) none) := by
  have hsub : ∀ y, y ∈ data m cont (insert x H) ↔ y ∈ data m cont H ∨ y = x := fun _ => Lists.mem_data_insert
  have hxd : x ∉ data m cont H := by
    intro hd
    rcases hd with ⟨q, hq, hd⟩ | hd
    · exact hl q hq hd
    · exact hx hd
  have hmem : x ∈ data m cont (insert x H) := (hsub x).2 (.inr rfl)
  refine ⟨h.pos, h.grown, h.lists.forget (Set.subset_insert x H), h.placed, h.room, fun y hy z hz =>
    h.keys y ((hsub y).2 (.inl hy)) z ((hsub z).2 (.inl hz)), fun k v => ?_⟩
  by_cases hk : k = ky m x
  · subst hk
    rw [update_self]
    constructor
    · intro e; cases e
    · intro ⟨y, hy, e, _⟩
      have := h.keys y ((hsub y).2 (.inl hy)) x hmem e
      subst this
      exact absurd hy hxd
  · rw [update_of_ne hk, h.rep k v]
    constructor
    · intro ⟨y, hy, e⟩
      rcases (hsub y).1 hy with hy | rfl
      · exact ⟨y, hy, e⟩
      · exact absurd e.1.symm hk
    · intro ⟨y, hy, e⟩
      exact ⟨y, (hsub y).2 (.inl hy), e⟩

variable (val) in
/-- memory for a node, with a key that no node has -/
theorem Holds.createNode_holds (hk : M key = none) :
    Holds P (createNode m key val) cont (insert m.fresh H) (Function.update M key (some val)) := by
  have hlt : ∀ x ∈ data m cont H, x < m.fresh := by
    intro x hx
    rcases hx with ⟨q, hq, hx⟩ | hx
    · exact (h.lists.nodes q hq x hx).1
    · exact (h.lists.hand x hx).2.1
  have hpos : 0 < m.fresh := Nat.zero_lt_of_lt (h.lists.heads (0, 0) h.pos).2
  have hold : ∀ a, a < m.fresh → (createNode m key val).node a = m.node a := by
    intro a ha
    simp [createNode, (Nat.ne_of_lt ha)]
  have hnew : (createNode m key val).node m.fresh = ⟨key, val, NULL⟩ := by simp [createNode]
  have hsub : ∀ y, y ∈ data m cont (insert m.fresh H) ↔ y ∈ data m cont H ∨ y = m.fresh := fun _ => Lists.mem_data_insert
  have hkold : ∀ x ∈ data m cont H, ky (createNode m key val) x = ky m x ∧ ky m x ≠ key := by
    intro x hx
    refine ⟨by unfold ky; rw [hold x (hlt x hx)], fun e => ?_⟩
    rw [← e, h.map_eq hx] at hk
    cases hk
  have hknew : ky (createNode m key val) m.fresh = key := by unfold ky; rw [hnew]
  refine ⟨h.pos, h.grown, ?_, fun q hq x hx => ?_, h.room, fun x hx y hy e => ?_, fun k v => ?_⟩
  · exact h.lists.new le_rfl (Nat.lt_succ_self _) (fun a ha => by unfold nx; rw [hold a ha]) (fun _ _ => rfl) hpos
  · rw [(hkold x (mem_data hq hx)).1]; exact h.placed q hq x hx
  · rcases (hsub x).1 hx with hx | rfl <;> rcases (hsub y).1 hy with hy | rfl
    · rw [(hkold x hx).1, (hkold y hy).1] at e
      exact h.keys x hx y hy e
    · rw [hknew, (hkold x hx).1] at e
      exact absurd e (hkold x hx).2
    · rw [hknew, (hkold y hy).1] at e
      exact absurd e.symm (hkold y hy).2
    · rfl
  · change _ ↔ ∃ x ∈ data m cont (insert m.fresh H), _
    by_cases ek : k = key
    · subst ek
      rw [update_self]
      constructor
      · intro e
        cases e
        exact ⟨m.fresh, (hsub _).2 (.inr rfl), hknew, by unfold vl; rw [hnew]⟩
      · rintro ⟨x, hx, e1, e2⟩
        rcases (hsub x).1 hx with hx | rfl
        · rw [(hkold x hx).1] at e1
          exact absurd e1 (hkold x hx).2
        · rw [← e2]; unfold vl; rw [hnew]
    · rw [update_of_ne ek, h.rep k v]
      constructor
      · rintro ⟨x, hx, e1, e2⟩
        refine ⟨x, (hsub x).2 (.inl hx), (hkold x hx).1.trans e1, ?_⟩
        unfold vl at e2 ⊢
        rw [hold x (hlt x hx)]
        exact e2
      · rintro ⟨x, hx, e1, e2⟩
        rcases (hsub x).1 hx with hx | rfl
        · refine ⟨x, hx, (hkold x hx).1.symm.trans e1, ?_⟩
          unfold vl at e2 ⊢
          rw [hold x (hlt x hx)] at e2
          exact e2
        · exact absurd (hknew.symm.trans e1).symm ek

end Update

/-! ## Resize -/

/-- z is neither a head nor a node of the lists -/
def Loose (m : Mem) (cont : Fin 2 × ℕ → List ℕ) (z : ℕ) : Prop := ∀ r, live m r → z ≠ headOf m r ∧ z ∉ cont r

/-- the nodes xs have gone from H to the lists, and nothing else has changed -/
structure Moved (P : Params) (M : ℤ → Option ℤ) (H : Set ℕ) (xs : List ℕ) (m : Mem) (cont : Fin 2 × ℕ → List ℕ) (m' : Mem)
    (cont' : Fin 2 × ℕ → List ℕ) : Prop where
  holds : Holds P m' cont' (H \ {x | x ∈ xs}) M
  same : Same m m'
  loose : ∀ z, Loose m cont z → z ∉ xs → Loose m' cont' z ∧ nx m' z = nx m z ∧ m'.size z = m.size z

/-- on the way to tables of n lists, both lists of a node are full -/
def Stuck (P : Params) (M : ℤ → Option ℤ) (n : ℕ) : Prop :=
  ∃ m cont H x, Holds P m cont H M ∧ m.tableSize = n ∧ x ∈ H ∧ chooseList P m (ky m x) = none

section Resize

variable {P : Params} {m m' m'' : Mem} {cont cont' cont'' : Fin 2 × ℕ → List ℕ} {H : Set ℕ} {M : ℤ → Option ℤ} {x a : ℕ}
  {xs ys : List ℕ}

variable (h : Holds P m cont H M)

include h

theorem Moved.refl : Moved P M H [] m cont m cont := by
  refine ⟨?_, Same.refl m, fun z hz _ => ⟨hz, rfl, rfl⟩⟩
  have : H \ {x | x ∈ ([] : List ℕ)} = H := by ext z; simp
  rw [this]
  exact h

omit h in
theorem Moved.trans (h : Moved P M H xs m cont m' cont') (h' : Moved P M (H \ {x | x ∈ xs}) ys m' cont' m'' cont'') :
    Moved P M H (xs ++ ys) m cont m'' cont'' := by
  refine ⟨?_, h.same.trans h'.same, fun z hz hn => ?_⟩
  · have : H \ {x | x ∈ xs ++ ys} = (H \ {x | x ∈ xs}) \ {x | x ∈ ys} := by
      ext z
      simp only [Set.mem_sdiff, Set.mem_ofPred_eq, List.mem_append, not_or, and_assoc]
    rw [this]
    exact h'.holds
  · rw [List.mem_append, not_or] at hn
    obtain ⟨h1, h2, h3⟩ := h.loose z hz hn.1
    obtain ⟨h4, h5, h6⟩ := h'.loose z h1 hn.2
    exact ⟨h4, h5.trans h2, h6.trans h3⟩

omit h in
/-- the chosen list has room -/
theorem choose_room (size : Fin 2 → ℤ) {i : Fin 2} {b : Bool} (h : choose P (size 0) (size 1) = some (i, b)) :
    size i < max P.threshold P.probeSize := by
  unfold choose at h
  split_ifs at h with h1 h2 h3 h4 <;> cases h
  · exact lt_max_of_lt_left h1
  · exact lt_max_of_lt_left h2
  · exact lt_max_of_lt_right h3
  · exact lt_max_of_lt_right h4

theorem Holds.chooseList_room {key : ℤ} {i : Fin 2} {b : Bool}
    (hc : chooseList P m key = some (i, b)) : (cont (place m key i)).length < cap P := by
  have hlt := choose_room (fun i => m.size (getList m i key)) hc
  have hs := h.lists.size _ (h.live_place key i)
  change m.size (getList m i key) = _ at hs
  rw [hs] at hlt
  unfold cap
  omega

theorem Holds.hand_loose (hx : x ∈ H) : Loose m cont x := fun r hr => (h.lists.hand x hx).2.2 r hr

/-- the body of the innermost loop -/
theorem Holds.reinsert_cases (hx : x ∈ H) : reinsert P m x = .error .exit ∧ Stuck P M m.tableSize ∨
      ∃ m' cont', reinsert P m x = .ok m' ∧ Moved P M H [x] m cont m' cont' := by
  unfold reinsert
  cases hc : chooseList P m (ky m x) with
  | none => exact .inl ⟨rfl, m, cont, H, x, h, rfl, hx, hc⟩
  | some r =>
    obtain ⟨i, b⟩ := r
    right
    obtain ⟨m', e, hsame, hh, hnx, hsize⟩ := h.addNodeAtTail_ok (h.live_place (ky m x) i) hx rfl (h.chooseList_room hc)
    refine ⟨m', Function.update cont (place m (ky m x) i) (cont (place m (ky m x) i) ++ [x]), e, ?_, hsame,
      fun z hz hn => ?_⟩
    · have : H \ {y | y ∈ [x]} = H \ {x} := by ext z; simp
      rw [this]
      exact hh
    · have hzx : z ≠ x := by simpa using hn
      obtain ⟨h1, h2⟩ := hz _ (h.live_place (ky m x) i)
      refine ⟨fun r hr => ?_, hnx z hzx h1 h2, hsize z h1⟩
      rw [hsame.live] at hr
      rw [hsame.headOf]
      refine ⟨(hz r hr).1, fun hm => ?_⟩
      rcases mem_update_append hm with hm | ⟨-, hm⟩
      · exact (hz r hr).2 hm
      · exact hzx hm

/-- the innermost loop of `resize` moves the nodes of a list -/
theorem Holds.moveNodes_cases (hs : Seg (nx m) a xs) (hx : ∀ x ∈ xs, x ∈ H) {n : ℕ} (hn : xs.length < n) :
    moveNodes P n m a = .error .exit ∧ Stuck P M m.tableSize ∨
      ∃ m' cont', moveNodes P n m a = .ok m' ∧ Moved P M H xs m cont m' cont' := by
  induction xs generalizing m cont H a n with
  | nil =>
    obtain ⟨n, rfl⟩ := Nat.exists_eq_succ_of_ne_zero (Nat.ne_of_gt hn)
    have ha : a = NULL := hs
    right
    refine ⟨m, cont, ?_, Moved.refl h⟩
    rw [moveNodes, if_pos ha]
  | cons x xs ih =>
    obtain ⟨n, rfl⟩ := Nat.exists_eq_succ_of_ne_zero (Nat.ne_of_gt (Nat.zero_lt_of_lt hn))
    have hd : (x :: xs).Nodup := hs.nodup
    rw [List.nodup_cons] at hd
    obtain ⟨rfl, hx0, hs⟩ := hs
    have hxH : a ∈ H := hx a List.mem_cons_self
    have hnull : ¬ a = NULL := hx0
    rw [moveNodes, if_neg hnull]
    rcases h.reinsert_cases hxH with ⟨e, hstuck⟩ | ⟨m', cont', e, hm⟩
    · left
      rw [e]
      exact ⟨rfl, hstuck⟩
    · -- the rest of the list is as it was
      have hrest : ∀ y ∈ xs, y ∈ H \ {z | z ∈ [a]} := by
        intro y hy
        refine ⟨hx y (List.mem_cons_of_mem _ hy), fun hya => ?_⟩
        have : y = a := by simpa using hya
        exact hd.1 (this ▸ hy)
      have hs' : Seg (nx m') (nx m a) xs := by
        refine hs.congr fun y hy => ?_
        exact (hm.loose y (h.hand_loose (hx y (List.mem_cons_of_mem _ hy))) (hrest y hy).2).2.1
      have hlen : xs.length < n := by simpa using hn
      rw [e]
      rcases ih hm.holds hs' hrest hlen with ⟨e', hstuck⟩ | ⟨m'', cont'', e', hm'⟩
      · left
        rw [hm.same.tableSize] at hstuck
        exact ⟨e', hstuck⟩
      · right
        exact ⟨m'', cont'', e', hm.trans hm'⟩

/-- the loops of `resize` over old lists with the heads hd and the nodes oc -/
theorem Holds.moveLists_cases {hd : Fin 2 × ℕ → ℕ} {oc : Fin 2 × ℕ → List ℕ} {qs : List (Fin 2 × ℕ)}
    (hq : ∀ q ∈ qs, Seg (nx m) (nx m (hd q)) (oc q) ∧ m.size (hd q) = (oc q).length ∧ Loose m cont (hd q) ∧
      (∀ x ∈ oc q, x ∈ H) ∧ (oc q).length < m.fresh ∧ ∀ r ∈ qs, hd r ∉ oc q)
    (hdis : qs.Pairwise fun q r => ∀ x ∈ oc q, x ∉ oc r) :
    moveLists P m (qs.map hd) = .error .exit ∧ Stuck P M m.tableSize ∨
      ∃ m' cont', moveLists P m (qs.map hd) = .ok m' ∧ Moved P M H (qs.flatMap oc) m cont m' cont' := by
  induction qs generalizing m cont H with
  | nil => exact .inr ⟨m, cont, rfl, Moved.refl h⟩
  | cons q qs ih =>
    obtain ⟨hseg, hsize, -, hH, hlen, hheads⟩ := hq q List.mem_cons_self
    rw [List.pairwise_cons] at hdis
    -- one old list
    have one : moveList P m (hd q) = .error .exit ∧ Stuck P M m.tableSize ∨
        ∃ m' cont', moveList P m (hd q) = .ok m' ∧ Moved P M H (oc q) m cont m' cont' := by
      unfold moveList
      split_ifs with hpos
      · exact h.moveNodes_cases hseg hH hlen
      · have hnil : oc q = [] := by
          rw [hsize] at hpos
          exact List.eq_nil_of_length_eq_zero (by omega)
        rw [hnil]
        exact .inr ⟨m, cont, rfl, Moved.refl h⟩
    rw [List.map_cons, moveLists]
    rcases one with ⟨e, hstuck⟩ | ⟨m', cont', e, hm⟩
    · left
      rw [e]
      exact ⟨rfl, hstuck⟩
    · rw [e]
      have hq' : ∀ r ∈ qs, Seg (nx m') (nx m' (hd r)) (oc r) ∧ m'.size (hd r) = (oc r).length ∧ Loose m' cont' (hd r) ∧
          (∀ x ∈ oc r, x ∈ H \ {x | x ∈ oc q}) ∧ (oc r).length < m'.fresh ∧ ∀ r' ∈ qs, hd r' ∉ oc r := by
        intro r hr
        have hrq : r ∈ q :: qs := List.mem_cons_of_mem _ hr
        obtain ⟨g1, g2, g3, g4, g5, g6⟩ := hq r hrq
        obtain ⟨l1, l2, l3⟩ := hm.loose (hd r) g3 (hheads r hrq)
        have hnot : ∀ x ∈ oc r, x ∉ oc q := fun x hx hx' => hdis.1 r hr x hx' hx
        refine ⟨?_, by rw [l3]; exact g2, l1, fun x hx => ⟨g4 x hx, hnot x hx⟩, by rw [hm.same.fresh]; exact g5,
          fun r' hr' => g6 r' (List.mem_cons_of_mem _ hr')⟩
        rw [l2]
        refine g1.congr fun x hx => ?_
        exact (hm.loose x (h.hand_loose (g4 x hx)) (hnot x hx)).2.1
      rcases ih hm.holds hq' hdis.2 with ⟨e', hstuck⟩ | ⟨m'', cont'', e', hm'⟩
      · left
        rw [hm.same.tableSize] at hstuck
        exact ⟨e', hstuck⟩
      · right
        exact ⟨m'', cont'', e', hm.trans hm'⟩

/-- the tables at the start of the loops of `resize` -/
def doubled (m : Mem) : Mem := { initTables m (m.tableSize * 2) with tableSize := m.tableSize * 2 }

omit h in
theorem doubled_old (m : Mem) {a : ℕ} (ha : a < m.fresh) :
    (doubled m).node a = m.node a ∧ (doubled m).size a = m.size a := by
  have hno : ¬ (m.fresh ≤ a ∧ a < m.fresh + 2 * (m.tableSize * 2)) := by omega
  constructor
  · exact if_neg hno
  · exact if_neg hno

/-- all nodes are outside the new lists, which are empty -/
theorem Holds.doubled_holds : Holds P (doubled m) (fun _ => []) (data m cont H) M := by
  have hfresh : 0 < m.fresh := Nat.zero_lt_of_lt (h.lists.heads (0, 0) h.pos).2
  have hlt : ∀ x ∈ data m cont H, x < m.fresh := by
    intro x hx
    rcases hx with ⟨q, hq, hx⟩ | hx
    · exact (h.lists.nodes q hq x hx).1
    · exact (h.lists.hand x hx).2.1
  have hky : ∀ x ∈ data m cont H, ky (doubled m) x = ky m x := fun x hx => by
    unfold ky; rw [(doubled_old m (hlt x hx)).1]
  have hvl : ∀ x ∈ data m cont H, vl (doubled m) x = vl m x := fun x hx => by
    unfold vl; rw [(doubled_old m (hlt x hx)).1]
  have hdata : data (doubled m) (fun _ => []) (data m cont H) = data m cont H := by
    ext x
    simp [data, Lists.Data]
  have hhead : ∀ q, headOf (doubled m) q = m.fresh + 2 * q.2 + q.1 := fun _ => rfl
  refine ⟨?_, ?_, ?_, nofun, (fun _ _ => Nat.zero_le _), ?_, ?_⟩
  · change 0 < m.tableSize * 2
    have := h.pos
    omega
  · obtain ⟨e, he⟩ := h.grown
    refine ⟨e + 1, ?_⟩
    change m.tableSize * 2 = _
    rw [he, pow_succ, mul_assoc]
  · refine h.lists.restart (doubled m).fresh (Nat.le_add_right _ _) ?_ ?_
    · intro q hq r hr e
      rw [hhead, hhead] at e
      have h1 := q.1.isLt
      have h2 := r.1.isLt
      exact Prod.ext (Fin.ext (by omega)) (by omega)
    · intro q hq
      have h1 := q.1.isLt
      have h2 : q.2 < m.tableSize * 2 := hq
      have hin : m.fresh ≤ headOf (doubled m) q ∧ headOf (doubled m) q < m.fresh + 2 * (m.tableSize * 2) := by
        rw [hhead]; omega
      have hnode : (doubled m).node (headOf (doubled m) q) = ⟨0, 0, NULL⟩ := if_pos hin
      have hsize : (doubled m).size (headOf (doubled m) q) = 0 := if_pos hin
      refine ⟨hin.1, hin.2, by omega, ?_, hsize⟩
      unfold nx
      rw [hnode]
      rfl
  · intro x hx y hy e
    rw [hdata] at hx hy
    rw [hky x hx, hky y hy] at e
    exact h.keys x hx y hy e
  · intro k v
    rw [hdata, h.rep k v]
    refine exists_congr fun x => and_congr_right fun hx => ?_
    rw [hky x hx, hvl x hx]

omit h

theorem oldLists_eq (m : Mem) :
    oldLists m = ((List.finRange 2).flatMap fun i => (List.range m.tableSize).map fun b => (i, b)).map (headOf m) := by
  rw [oldLists, List.map_flatMap]
  congr 1
  funext i
  rw [List.map_map]
  rfl

/-- `resize` on a table with all nodes in lists -/
theorem Holds.resize_cases (h : Holds P m cont ∅ M) :
    (resize P m = .error .wrap ∧ ¬ m.tableSize * 2 < 2 ^ 32) ∨ (resize P m = .error .exit ∧ Stuck P M (m.tableSize * 2)) ∨
      ∃ m' cont', resize P m = .ok m' ∧ Holds P m' cont' ∅ M ∧ Same (doubled m) m' := by
  unfold resize
  split_ifs with hwrap
  swap
  · exact .inl ⟨rfl, hwrap⟩
  right
  rw [oldLists_eq]
  change moveLists P (doubled m) _ = _ ∧ _ ∨ ∃ m' cont', moveLists P (doubled m) _ = _ ∧ _
  have hd := h.doubled_holds
  set qs := (List.finRange 2).flatMap fun i => (List.range m.tableSize).map fun b => (i, b) with hqs
  have hmem : ∀ q, q ∈ qs ↔ live m q := by
    intro q
    simp only [hqs, List.mem_flatMap, List.mem_finRange, List.mem_map, List.mem_range, true_and, live]
    constructor
    · intro ⟨i, b, hb, e⟩
      rw [← e]
      exact hb
    · intro hb
      exact ⟨q.1, q.2, hb, rfl⟩
  have hnodup : qs.Nodup := by
    rw [hqs, List.nodup_flatMap]
    refine ⟨fun i _ => List.nodup_range.map fun b b' e => (Prod.mk.inj e).2, ?_⟩
    refine (List.nodup_finRange 2).imp fun {i j} hne => ?_
    intro q h1 h2
    obtain ⟨b, -, rfl⟩ := List.mem_map.1 h1
    obtain ⟨b', -, e⟩ := List.mem_map.1 h2
    exact hne (Prod.mk.inj e).1.symm
  have hq : ∀ q ∈ qs, Seg (nx (doubled m)) (nx (doubled m) (headOf m q)) (cont q) ∧
      (doubled m).size (headOf m q) = (cont q).length ∧ Loose (doubled m) (fun _ => []) (headOf m q) ∧
      (∀ x ∈ cont q, x ∈ data m cont ∅) ∧ (cont q).length < (doubled m).fresh ∧ ∀ r ∈ qs, headOf m r ∉ cont q := by
    intro q hq
    have hl := (hmem q).1 hq
    have hlt := (h.lists.heads q hl).2
    have hnx : ∀ a, a < m.fresh → nx (doubled m) a = nx m a := fun a ha => by
      unfold nx; rw [(doubled_old m ha).1]
    refine ⟨?_, ?_, fun r hr => ⟨?_, nofun⟩, fun x hx => mem_data hl hx, ?_, fun r hr hx => ?_⟩
    · rw [hnx _ hlt]
      exact (h.lists.seg q hl).congr fun x hx => hnx x (h.lists.nodes q hl x hx).1
    · rw [(doubled_old m hlt).2]
      exact h.lists.size q hl
    · have : headOf (doubled m) r = m.fresh + 2 * r.2 + r.1 := rfl
      omega
    · exact (h.lists.length_lt hl).trans_le (Nat.le_add_right _ _)
    · exact (h.lists.nodes q hl _ hx).2 r ((hmem r).1 hr) rfl
  have hdis : qs.Pairwise fun q r => ∀ x ∈ cont q, x ∉ cont r := by
    refine List.Pairwise.imp_of_mem (fun {q r} hq hr hne => ?_) hnodup
    intro x hx hx'
    exact hne (h.lists.apart q ((hmem q).1 hq) r ((hmem r).1 hr) x hx hx')
  rcases hd.moveLists_cases hq hdis with hexit | ⟨m', cont', e, hm⟩
  · exact .inl hexit
  · -- no node is left
    refine .inr ⟨m', cont', e, ?_, hm.same⟩
    have hnone : data m cont ∅ \ {x | x ∈ qs.flatMap cont} = ∅ := by
      rw [Set.eq_empty_iff_forall_notMem]
      intro x ⟨hx, hn⟩
      rcases hx with ⟨q, hl, hx⟩ | hx
      · exact hn (List.mem_flatMap.2 ⟨q, (hmem q).2 hl, hx⟩)
      · exact hx
    rw [← hnone]
    exact hm.holds

end Resize

/-! ## Room for every node

Both hash codes are the key times an odd number, so with a power of two as table size two keys share a list in one table
iff they share one in the other. A pair of new lists gets its nodes from one pair of old lists. -/

section Room

variable {P : Params} {m : Mem} {cont : Fin 2 × ℕ → List ℕ} {H : Set ℕ} {M : ℤ → Option ℤ}

/-- the factor of `hashCode0` or `hashCode1` -/
def factor (i : Fin 2) : ℤ := if i = 0 then 65699 else 65701

theorem hashCode_eq (i : Fin 2) (key : ℤ) : hashCode i key = (key * factor i % 2 ^ 64).toNat := by
  unfold hashCode factor hashCode0 hashCode1
  split_ifs <;> rfl

theorem factor_coprime (i : Fin 2) (e : ℕ) : IsCoprime ((2 : ℤ) ^ e) (factor i) := by
  apply IsCoprime.pow_left
  rw [Int.isCoprime_iff_gcd_eq_one]
  fin_cases i <;> decide

/-- keys have the same bucket iff they are congruent -/
theorem bucket_eq_iff {e : ℕ} (he : e ≤ 64) (i : Fin 2) (k k' : ℤ) :
    hashCode i k % 2 ^ e = hashCode i k' % 2 ^ e ↔ (2 : ℤ) ^ e ∣ k - k' := by
  have hcode : ∀ k : ℤ, ((hashCode i k % 2 ^ e : ℕ) : ℤ) = k * factor i % 2 ^ e := by
    intro k
    have hpos : 0 ≤ k * factor i % 2 ^ 64 := Int.emod_nonneg _ (by norm_num)
    rw [hashCode_eq, Int.natCast_mod, Int.toNat_of_nonneg hpos]
    push_cast
    exact Int.emod_emod_of_dvd _ (pow_dvd_pow 2 he)
  rw [← Int.natCast_inj, hcode, hcode, Int.emod_eq_emod_iff_emod_sub_eq_zero, ← sub_mul, ← Int.dvd_iff_emod_eq_zero]
  exact ⟨(factor_coprime i e).dvd_of_dvd_mul_right, fun h => h.mul_right _⟩

variable (h : Holds P m cont H M)

include h

/-- the size of the tables is a power of two -/
theorem Holds.pow : ∃ e, m.tableSize = 2 ^ e := by
  obtain ⟨e, he⟩ := h.grown
  exact ⟨_, by rw [he, Params.mtxSize, ← pow_add]⟩

theorem Holds.dvd : P.mtxSize ∣ m.tableSize := by
  obtain ⟨e, he⟩ := h.grown
  exact ⟨2 ^ e, he⟩

/-- a full list -/
theorem Holds.full {key : ℤ} (hc : chooseList P m key = none) (i : Fin 2) : cap P ≤ (cont (place m key i)).length := by
  have hs : ∀ i, m.size (getList m i key) = (cont (place m key i)).length := fun i => h.lists.size _ (h.live_place key i)
  unfold chooseList choose at hc
  rw [hs, hs] at hc
  split_ifs at hc with h1 h2 h3 h4
  unfold cap
  fin_cases i
  · change _ ≤ (cont (place m key 0)).length
    omega
  · change _ ≤ (cont (place m key 1)).length
    omega

omit h

/-- keys that share a list of the tables of double size share both lists before -/
theorem place_eq_of_double {e : ℕ} (hsize : m.tableSize = 2 ^ e) (hlt : m.tableSize * 2 < 2 ^ 32) {i : Fin 2} {k k' : ℤ}
    (hk : hashCode i k % (m.tableSize * 2) = hashCode i k' % (m.tableSize * 2)) (j : Fin 2) :
    place m k j = place m k' j := by
  have he : e + 1 ≤ 64 := by
    have h2 : 2 ^ (e + 1) < 2 ^ 32 := by rw [pow_succ, ← hsize]; exact hlt
    have := (Nat.pow_lt_pow_iff_right (by norm_num : 1 < 2)).1 h2
    omega
  rw [hsize, ← pow_succ, bucket_eq_iff he] at hk
  refine Prod.ext rfl ?_
  change hashCode j k % m.tableSize = hashCode j k' % m.tableSize
  rw [hsize, bucket_eq_iff (by omega)]
  exact (pow_dvd_pow 2 (Nat.le_succ e)).trans hk

/-- **`resize` finds room for every node.** The two full lists and the node would have more keys than the two old lists. -/
theorem Holds.not_stuck (h : Holds P m cont ∅ M) (hlt : m.tableSize * 2 < 2 ^ 32) : ¬ Stuck P M (m.tableSize * 2) := by
  intro ⟨m1, cont1, H1, x, h1, hsize, hx, hfull⟩
  obtain ⟨e, he⟩ := h.pow
  set k := ky m1 x with hk
  have hlive := h1.live_place k
  have hloose := h1.hand_loose hx
  let new := x :: (cont1 (place m1 k 0) ++ cont1 (place m1 k 1))
  let old := cont (place m k 0) ++ cont (place m k 1)
  have hnew : ∀ y ∈ new, y ∈ data m1 cont1 H1 ∧ ∃ i, bucket m1 i (ky m1 y) = bucket m1 i k := by
    intro y hy
    rcases List.mem_cons.1 hy with rfl | hy
    · exact ⟨.inr hx, 0, rfl⟩
    · rcases List.mem_append.1 hy with hy | hy
      · exact ⟨mem_data (hlive 0) hy, 0, h1.placed _ (hlive 0) y hy⟩
      · exact ⟨mem_data (hlive 1) hy, 1, h1.placed _ (hlive 1) y hy⟩
  have hnodup : new.Nodup := by
    refine List.nodup_cons.2 ⟨fun hm => ?_, List.nodup_append.2 ⟨(h1.lists.seg _ (hlive 0)).nodup,
      (h1.lists.seg _ (hlive 1)).nodup, fun y h0 z hz e => ?_⟩⟩
    · rcases List.mem_append.1 hm with hm | hm
      · exact (hloose _ (hlive 0)).2 hm
      · exact (hloose _ (hlive 1)).2 hm
    · subst e
      have := h1.lists.apart _ (hlive 0) _ (hlive 1) y h0 hz
      exact absurd (congrArg Prod.fst this) (show (0 : Fin 2) ≠ 1 by decide)
  have hkeys : (new.map (ky m1)).Nodup :=
    List.Nodup.map_on (fun y hy z hz e => h1.keys y (hnew y hy).1 z (hnew z hz).1 e) hnodup
  -- every key of the new pair of lists is in the old pair
  have hsub : new.map (ky m1) ⊆ old.map (ky m) := by
    intro k' hk'
    obtain ⟨y, hy, rfl⟩ := List.mem_map.1 hk'
    obtain ⟨hd, i, hb⟩ := hnew y hy
    have hM : M (ky m1 y) ≠ none := by rw [h1.map_eq hd]; simp
    obtain ⟨j, z, hz, ez⟩ := h.stored (by simp) hM
    unfold bucket at hb
    rw [hsize] at hb
    rw [place_eq_of_double he hlt hb j] at hz
    refine List.mem_map.2 ⟨z, List.mem_append.2 ?_, ez⟩
    fin_cases j
    · exact .inl hz
    · exact .inr hz
  have hlen := (hkeys.subperm hsub).length_le
  have hr0 := h.room _ (h.live_place k 0)
  have hr1 := h.room _ (h.live_place k 1)
  have hf0 := h1.full hfull 0
  have hf1 := h1.full hfull 1
  simp only [new, old, List.length_map, List.length_cons, List.length_append] at hlen
  omega

/-- `resize` doubles the tables, unless their size would wrap around -/
theorem Holds.resize_ok (h : Holds P m cont ∅ M) :
    (resize P m = .error .wrap ∧ ¬ m.tableSize * 2 < 2 ^ 32) ∨
      ∃ m' cont', resize P m = .ok m' ∧ Holds P m' cont' ∅ M ∧ Same (doubled m) m' := by
  rcases h.resize_cases with hwrap | ⟨e, hstuck⟩ | hok
  · exact .inl hwrap
  · by_cases hlt : m.tableSize * 2 < 2 ^ 32
    · exact absurd hstuck (h.not_stuck hlt)
    · rw [resize, if_neg hlt] at e
      cases e
  · exact .inr hok

end Room

end AlgorithmCollection.ConcurrentCuckooHash
