/-
`setSize` of `ConcurrentCuckooHash` and the nodes in the lists, with one thread.

Every `add_node_atTail` is followed by `setSize++`, also where `relocate` and `resize` only move a node from one list to
another; `setSize--` is in `delete` alone. So `setSize` is the number of nodes as long as no node is moved. `Crowded`: the
key is not in the table and both of its lists have `threshold` nodes or more. An `add` goes on to `relocate` or to `resize`
exactly then.

- `Holds.work_counted`: the locked part of a call that is not crowded keeps `setSize` right, and it is the last part.
- `setSize_counts`: in a run without crowded calls `setSize` is right in every state.
- `setSize_overcounts`: the first crowded call makes it wrong.
-/
import AlgorithmCollection.Hash.ConcurrentCuckooHashMap

namespace AlgorithmCollection.ConcurrentCuckooHash

open Conc

/-- the nodes of a list, from its head on -/
def nodes (m : Mem) (q : Fin 2 × ℕ) : List ℕ := walk (nx m) (fun a => a = NULL) m.fresh (nx m (headOf m q))

/-- the lists of both tables -/
def places (m : Mem) : Finset (Fin 2 × ℕ) := Finset.univ ×ˢ Finset.range m.tableSize

/-- the total length of all lists -/
def total (m : Mem) : ℕ := ∑ q ∈ places m, (nodes m q).length

/-- `add` of a key that is not in the table, with both lists of the key at the threshold or above -/
def Crowded (P : Params) (m : Mem) : Op → Prop
  | .add key _ => containsOp m key = .ok false ∧ ∀ i, P.threshold ≤ m.size (getList m i key)
  | _ => False

instance Crowded.decidable (P : Params) (m : Mem) (op : Op) : Decidable (Crowded P m op) := by
  cases op <;> unfold Crowded <;> infer_instance

section Total

variable {P : Params} {m m' : Mem} {cont : Fin 2 × ℕ → List ℕ} {H : Set ℕ} {M : ℤ → Option ℤ} {q : Fin 2 × ℕ} {op : Op}

theorem mem_places : q ∈ places m ↔ live m q := by simp [places, live]

theorem Holds.nodes_eq (h : Holds P m cont H M) (hq : live m q) : nodes m q = cont q :=
  (h.lists.seg q hq).walk_eq (h.lists.length_lt hq).le

theorem Holds.total_eq (h : Holds P m cont H M) : total m = ∑ q ∈ places m, (cont q).length :=
  Finset.sum_congr rfl fun q hq => by rw [h.nodes_eq (mem_places.1 hq)]

/-- one list changes -/
theorem sum_update (hq : live m q) (l : List ℕ) :
    (∑ r ∈ places m, (Function.update cont q l r).length) + (cont q).length =
      (∑ r ∈ places m, (cont r).length) + l.length := by
  have hmem := mem_places.2 hq
  rw [← Finset.add_sum_erase _ _ hmem, ← Finset.add_sum_erase (places m) (fun r => (cont r).length) hmem,
    Function.update_self]
  have hrest : ∑ r ∈ (places m).erase q, (Function.update cont q l r).length = ∑ r ∈ (places m).erase q, (cont r).length :=
    Finset.sum_congr rfl fun r hr => by rw [Function.update_of_ne (Finset.ne_of_mem_erase hr)]
  rw [hrest]
  omega

/-- the total after a change of one list -/
theorem Holds.total_update (h : Holds P m cont H M) {H' : Set ℕ} {M' : ℤ → Option ℤ} {l : List ℕ}
    (h' : Holds P m' (Function.update cont q l) H' M') (hz : m'.tableSize = m.tableSize) (hq : live m q) :
    total m' + (cont q).length = total m + l.length := by
  have hplaces : places m' = places m := by unfold places; rw [hz]
  rw [h'.total_eq, h.total_eq, hplaces]
  exact sum_update hq l

theorem Holds.total_le (h : Holds P m cont H M) : total m ≤ 2 * m.tableSize * cap P := by
  rw [h.total_eq]
  calc ∑ q ∈ places m, (cont q).length ≤ (places m).card • cap P :=
        Finset.sum_le_card_nsmul _ _ _ fun q hq => h.room q (mem_places.1 hq)
    _ = 2 * m.tableSize * cap P := by simp [places, Finset.card_product]

/-! ## The locked part of a call -/

theorem addNodeAtTail_setSize {l a : ℕ} (h : addNodeAtTail m l a = .ok m') : m'.setSize = (m.setSize + 1) % 2 ^ 64 := by
  unfold addNodeAtTail at h
  split at h
  · cases h
  · cases h
    rfl

theorem deleteFrom_setSize {l : ℕ} {key : ℤ} {k : Cont} (h : deleteFrom m l key = .ok (m', k)) :
    m'.setSize = (m.setSize + 2 ^ 64 - 1) % 2 ^ 64 := by
  unfold deleteFrom deleteNode at h
  split at h
  · cases h
  · rename_i m1 node hd
    have hm1 : m1.setSize = m.setSize := by
      split at hd
      · cases hd
      · cases hd
      · cases hd
        rfl
    obtain ⟨rfl, -⟩ := Prod.mk.inj (Except.ok.inj h)
    change (m1.setSize + 2 ^ 64 - 1) % 2 ^ 64 = _
    rw [hm1]

/-- the locked part leaves `setSize` right, and the call returns after it -/
def WorkCounted (P : Params) (m : Mem) (op : Op) : Prop :=
  ∃ m' cont' M' r, work P m false op = .ok (m', .ret r) ∧ Holds P m' cont' ∅ M' ∧ m'.tableSize = m.tableSize ∧
    m'.setSize = total m' % 2 ^ 64

variable (h : Holds P m cont ∅ M)

include h

variable (hc : m.setSize = total m % 2 ^ 64)

include hc

/-- nothing has changed -/
theorem WorkCounted.same {r : Res}
    (hw : work P m false op = .ok (m, .ret r)) : WorkCounted P m op := ⟨m, cont, M, r, hw, h, rfl, hc⟩

theorem Holds.add_counted {key val : ℤ} (hroom : ¬ Crowded P m (.add key val)) : WorkCounted P m (.add key val) := by
  have hcon := h.containsOp_eq key nofun
  by_cases hk : M key = none
  · rw [hk] at hcon
    obtain ⟨i, hch⟩ : ∃ i, chooseList P m key = some (i, false) := by
      unfold chooseList choose
      split_ifs with h0 h1
      · exact ⟨0, rfl⟩
      · exact ⟨1, rfl⟩
      all_goals
        refine absurd ⟨hcon, fun i => ?_⟩ hroom
        fin_cases i
        · exact not_lt.1 h0
        · exact not_lt.1 h1
    obtain ⟨m', e, hg, hh⟩ := h.add_list val hk hch
    refine ⟨m', _, _, .add true, ?_, hh, hg.tableSize, ?_⟩
    · have hnew : chooseList P (createNode m key val) key = some (i, false) := hch
      simp only [work, addWork, hcon, Option.isSome_none, hnew, e]
      rfl
    · have htotal := h.total_update hh hg.tableSize (h.live_place key i)
      have hsize := addNodeAtTail_setSize e
      change m'.setSize = (m.setSize + 1) % 2 ^ 64 at hsize
      rw [List.length_append, List.length_singleton] at htotal
      rw [hsize, hc]
      omega
  · rw [Option.isSome_iff_ne_none.2 hk] at hcon
    refine WorkCounted.same h hc (r := .add false) ?_
    simp only [work, addWork, hcon]

theorem Holds.deleteFrom_counted {key : ℤ} {i : Fin 2}
    (hx : ∃ x ∈ cont (place m key i), ky m x = key) (hw : deleteWork m key = deleteFrom m (getList m i key) key) :
    WorkCounted P m (.delete key) := by
  obtain ⟨x, hx, hk⟩ := hx
  obtain ⟨m', ys, zs, e, hd, hg, hh⟩ := h.delete_list hx hk
  refine ⟨m', _, _, _, hw.trans hd, hh, hg.tableSize, ?_⟩
  have htotal := h.total_update hh hg.tableSize (h.live_place key i)
  have hsize := deleteFrom_setSize hd
  rw [e, List.length_append, List.length_append, List.length_cons] at htotal
  rw [hsize, hc]
  omega

theorem Holds.delete_counted (key : ℤ) : WorkCounted P m (.delete key) := by
  have h0 : searchList m (getList m 0 key) key = _ := h.searchList_eq (h.live_place key 0) key
  have h1 : searchList m (getList m 1 key) key = _ := h.searchList_eq (h.live_place key 1) key
  by_cases hx0 : ∃ x ∈ cont (place m key 0), ky m x = key
  · simp only [hx0, decide_true] at h0
    exact h.deleteFrom_counted hc hx0 (by simp only [deleteWork, h0])
  · simp only [hx0, decide_false] at h0
    by_cases hx1 : ∃ x ∈ cont (place m key 1), ky m x = key
    · simp only [hx1, decide_true] at h1
      exact h.deleteFrom_counted hc hx1 (by simp only [deleteWork, h0, h1])
    · simp only [hx1, decide_false] at h1
      refine WorkCounted.same h hc (r := .delete none) ?_
      simp only [work, deleteWork, h0, h1]

/-- **The locked part of a call** that is not crowded. -/
theorem Holds.work_counted (hroom : ¬ Crowded P m op) : WorkCounted P m op := by
  cases op with
  | add key val => exact h.add_counted hc hroom
  | delete key => exact h.delete_counted hc key
  | contains key =>
    refine WorkCounted.same h hc (r := .contains (M key).isSome) ?_
    simp only [work, containsWork, h.containsOp_eq key (by simp)]

end Total

/-! ## Runs -/

/-- a call that will not be crowded, before its locked part, or that has only to return -/
def calm : Pc → Bool
  | .idle | .ret _ | .acquire0 (.call false) | .acquire1 (.call false) | .work false => true
  | .release0 _ (.ret _) | .release1 _ (.ret _) => true
  | _ => false

/-- no node has been moved, and `setSize` is right -/
structure Calm (P : Params) (m : Mem) (pc : Pc) : Prop where
  place : calm pc = true
  tableSize : m.tableSize = P.mtxSize
  holds : ∃ cont M, Holds P m cont ∅ M
  counted : m.setSize = total m % 2 ^ 64

section Runs

variable {P : Params} {m m' : Mem} {pc pc' : Pc}

/-- a step that does not touch the tables -/
theorem Calm.keep (h : Calm P m pc) (hpc : calm pc' = true) (hn : m'.node = m.node) (hs : m'.size = m.size)
    (htab : m'.table = m.table) (hz : m'.tableSize = m.tableSize) (hf : m'.fresh = m.fresh)
    (hset : m'.setSize = m.setSize) : Calm P m' pc' where
  place := hpc
  tableSize := hz.trans h.tableSize
  holds := by
    obtain ⟨cont, M, hh⟩ := h.holds
    exact ⟨cont, M, hh.mem_eq hn hs htab hz hf⟩
  counted := by
    have hnx : nx m' = nx m := by unfold nx; rw [hn]
    have hsame : total m' = total m := by
      simp only [total, places, nodes, headOf, hnx, htab, hz, hf]
    rw [hset, hsame]
    exact h.counted

theorem Calm.lock (h : Calm P m pc) (hpc : calm pc' = true) (i : Fin 2) (b : ℕ) :
    Calm P (lock 0 m i b pc pc').1 (lock 0 m i b pc pc').2 := by
  rcases lock_cases 0 m i b pc pc' with e | e <;> rw [e]
  · exact h.keep hpc rfl rfl rfl rfl rfl rfl
  · exact h

/-- **A step** of the thread. -/
theorem Calm.exec {op : Op} (h : Calm P m pc) (hroom : atWork pc = true → ¬ Crowded P m op) :
    Calm P (exec P 0 m op pc).1 (exec P 0 m op pc).2 := by
  have hpc := h.place
  cases pc with
  | idle | ret r => exact h
  | acquire0 j =>
    cases j with
    | move x => cases hpc
    | call nested =>
      cases nested with
      | true => cases hpc
      | false => exact h.lock rfl 0 _
  | acquire1 j =>
    cases j with
    | move x => cases hpc
    | call nested =>
      cases nested with
      | true => cases hpc
      | false => exact h.lock rfl 1 _
  | work nested =>
    cases nested with
    | true => cases hpc
    | false =>
      obtain ⟨cont, M, hh⟩ := h.holds
      obtain ⟨m', cont', M', r, e, hh', hz, hc⟩ := hh.work_counted h.counted (hroom rfl)
      have hex : ConcurrentCuckooHash.exec P 0 m op (.work false) = (m', .release0 op.key (.ret r)) := by
        simp only [ConcurrentCuckooHash.exec, e, locked]
      rw [hex]
      exact ⟨rfl, hz.trans h.tableSize, ⟨cont', M', hh'⟩, hc⟩
  | release0 key k | release1 key k =>
    cases k with
    | ret r => exact h.keep rfl rfl rfl rfl rfl rfl rfl
    | relocate i hi round | resize k => cases hpc
  | fault | take | put | table | head | bucket | aLock | resize | aUnLock => cases hpc

theorem Calm.step {l : Loc} (h : Calm P m l.pc) (hroom : atWork l.pc = true → ¬ Crowded P m l.op) (a : Act) :
    Calm P (step P 0 m l a).1 (step P 0 m l a).2.pc := by
  cases a with
  | step => exact h.exec hroom
  | invoke op =>
    simp only [ConcurrentCuckooHash.step]
    split_ifs
    · exact h.keep rfl rfl rfl rfl rfl rfl rfl
    · exact h

theorem init_calm (P : Params) : Calm P (sys P).sh (sys P).loc.pc := by
  have hh := (init_base P).inv.holds
  have hnone : Ghost.hands ⟨fun _ => [], fun _ => none, fun _ => none⟩ = ∅ := by
    rw [Set.eq_empty_iff_forall_notMem]
    rintro y ⟨u, hu⟩
    cases hu
  rw [hnone] at hh
  refine ⟨rfl, rfl, ⟨_, _, hh⟩, ?_⟩
  change 0 = total (sys P).init.sh % 2 ^ 64
  rw [hh.total_eq]
  simp

/-- no call of the run is crowded -/
def NeverCrowded (P : Params) (as : List Act) : Prop :=
  ∀ bs ∈ as.inits, atWork ((aloneRun P bs).loc 0).pc = true →
    ¬ Crowded P (aloneRun P bs).sh ((aloneRun P bs).loc 0).op

instance NeverCrowded.decidable (P : Params) (as : List Act) : Decidable (NeverCrowded P as) := by
  unfold NeverCrowded; infer_instance

theorem run_calm (P : Params) (as : List Act) (h : NeverCrowded P as) :
    Calm P (aloneRun P as).sh ((aloneRun P as).loc 0).pc := by
  induction as using List.reverseRecOn with
  | nil => exact init_calm P
  | append_singleton as a ih =>
    have hpre : as ∈ (as ++ [a]).inits := (List.mem_inits _ _).2 (List.prefix_append _ _)
    have hcalm := ih fun bs hbs => h bs ((List.mem_inits _ _).2 (((List.mem_inits _ _).1 hbs).trans
      (List.prefix_append _ _)))
    have hrun : aloneRun P (as ++ [a]) = (sys P).next (aloneRun P as) (0, a) := by
      unfold aloneRun
      rw [List.map_append, List.map_singleton, Sys.run_snoc]
    rw [hrun, Sys.next_sh, Sys.next_loc_self]
    exact hcalm.step (h as hpre) a

end Runs

/-- **`setSize` counts the nodes** in every state of a run in which no call is crowded. -/
theorem setSize_counts (P : Params) (hT : P.threshold < 2 ^ 31) (hS : P.probeSize < 2 ^ 31) (as : List Act)
    (h : NeverCrowded P as) : (aloneRun P as).sh.setSize = total (aloneRun P as).sh := by
  have hcalm := run_calm P as h
  obtain ⟨cont, M, hh⟩ := hcalm.holds
  have hmtx : P.mtxSize ≤ 2 ^ 16 := Nat.pow_le_pow_right Nat.zero_lt_two (min_le_right _ _)
  have hcap : cap P ≤ 2 ^ 31 := by
    unfold cap
    omega
  have hle : total (aloneRun P as).sh ≤ 2 * 2 ^ 16 * 2 ^ 31 := by
    refine hh.total_le.trans ?_
    rw [hcalm.tableSize]
    exact Nat.mul_le_mul (Nat.mul_le_mul_left 2 hmtx) hcap
  rw [hcalm.counted, Nat.mod_eq_of_lt (hle.trans_lt (by norm_num))]

/-- a call of the thread, with as many steps -/
def oneCall (op : Op) (n : ℕ) : List Act := .invoke op :: List.replicate n .step

/-- one list in each table, a threshold of 1: with a `delete` in between there is room for the third key -/
def roomy : List Act := oneCall (.add 0 10) 5 ++ oneCall (.add 1 20) 5 ++ oneCall (.delete 0) 5 ++ oneCall (.add 2 30) 5

theorem setSize_counts_roomy :
    (aloneRun ⟨0, 2, 1⟩ roomy).sh.setSize = total (aloneRun ⟨0, 2, 1⟩ roomy).sh ∧
      total (aloneRun ⟨0, 2, 1⟩ roomy).sh = 2 :=
  ⟨setSize_counts ⟨0, 2, 1⟩ (by decide) (by decide) roomy (by decide +kernel), by decide +kernel⟩

/-- without it the third `add` moves nodes: eight times in `relocate`, and the three of them in `resize` -/
theorem setSize_overcounts :
    let s := aloneRun ⟨0, 2, 1⟩ (oneCall (.add 0 10) 5 ++ oneCall (.add 1 20) 5 ++ oneCall (.add 2 30) 90)
    (s.loc 0).pc = .ret (.add true) ∧ total s.sh = 3 ∧ s.sh.setSize = 14 := by
  decide +kernel

end AlgorithmCollection.ConcurrentCuckooHash
