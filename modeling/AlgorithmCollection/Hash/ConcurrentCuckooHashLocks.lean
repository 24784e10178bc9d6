/-
The mutexes of `ConcurrentCuckooHash`.

`step_locked`: at every step, a thread that has not stopped holds exactly the mutexes that its place in the program says
(`holds`). So every call, and every `relocate` inside it, gives back what it took.
-/
import AlgorithmCollection.Hash.ConcurrentCuckooHash

namespace AlgorithmCollection.ConcurrentCuckooHash

open Conc

/-! ## The operations on the lists leave the mutexes alone -/

section Lists

variable {P : Params} {m m' : Mem} {a p l : ℕ} {key val : ℤ} {k : Cont}

theorem ky_setNext : ky (setNext m a p) = ky m := by
  funext x
  by_cases h : x = a
  · subst h; simp [ky, setNext]
  · simp [ky, setNext, h]

/-- the counter is all that changes -/
theorem incSize_eq (m : Mem) : ∃ n, incSize m = { m with setSize := n } := ⟨_, rfl⟩

theorem decSize_eq (m : Mem) : ∃ n, decSize m = { m with setSize := n } := ⟨_, rfl⟩

theorem addNodeAtTail_mtx (h : addNodeAtTail m l p = .ok m') : m'.mtx = m.mtx := by
  unfold addNodeAtTail at h
  split at h
  · cases h
  · cases h
    rfl

theorem deleteNode_mtx (h : deleteNode m l key = .ok (m', p)) : m'.mtx = m.mtx := by
  unfold deleteNode at h
  split at h
  · cases h
  · cases h
  · cases h
    rfl

theorem moveNodes_mtx {n : ℕ} (h : moveNodes P n m p = .ok m') : m'.mtx = m.mtx := by
  induction n generalizing m p with
  | zero => cases h
  | succ n ih =>
    rw [moveNodes] at h
    split_ifs at h
    · cases h; rfl
    · split at h
      · cases h
      · rename_i m1 h1
        refine (ih h).trans ?_
        unfold reinsert at h1
        split at h1
        · exact addNodeAtTail_mtx h1
        · cases h1

theorem moveLists_mtx {ls : List ℕ} (h : moveLists P m ls = .ok m') : m'.mtx = m.mtx := by
  induction ls generalizing m with
  | nil => cases h; rfl
  | cons l ls ih =>
    rw [moveLists] at h
    split at h
    · cases h
    · rename_i m1 h1
      refine (ih h).trans ?_
      unfold moveList at h1
      split_ifs at h1
      · exact moveNodes_mtx h1
      · cases h1; rfl

theorem resize_mtx (h : resize P m = .ok m') : m'.mtx = m.mtx := by
  unfold resize at h
  split_ifs at h
  have e := moveLists_mtx h
  exact e

theorem addWork_mtx {nested : Bool} (h : addWork P m key val nested = .ok (m', k)) : m'.mtx = m.mtx := by
  unfold addWork at h
  split at h
  · cases h
  · cases h; rfl
  · simp only at h
    split at h
    · cases h; rfl
    · split at h
      · cases h
      · rename_i m2 h2
        cases h
        have e := addNodeAtTail_mtx h2
        exact e

theorem deleteFrom_mtx (h : deleteFrom m l key = .ok (m', k)) : m'.mtx = m.mtx := by
  unfold deleteFrom at h
  split at h
  · cases h
  · rename_i m1 node h1
    simp only [Except.ok.injEq, Prod.mk.injEq] at h
    obtain ⟨rfl, -⟩ := h
    have e := deleteNode_mtx h1
    obtain ⟨n, hn⟩ := decSize_eq m1
    rw [hn]
    exact e

theorem deleteWork_mtx (h : deleteWork m key = .ok (m', k)) : m'.mtx = m.mtx := by
  unfold deleteWork at h
  split at h
  · cases h
  · exact deleteFrom_mtx h
  · split at h
    · cases h
    · exact deleteFrom_mtx h
    · cases h; rfl

theorem work_mtx {nested : Bool} {op : Op} (h : work P m nested op = .ok (m', k)) : m'.mtx = m.mtx := by
  cases op with
  | add key val => exact addWork_mtx h
  | delete key => exact deleteWork_mtx h
  | contains key =>
    simp only [work, containsWork] at h
    split at h
    · cases h
    · cases h; rfl

theorem putWork_mtx {x : Move} {jSet y : ℕ} (h : putWork P m x jSet y = .ok (m', k)) : m'.mtx = m.mtx := by
  unfold putWork at h
  split_ifs at h <;> split at h
  all_goals cases h
  all_goals exact addNodeAtTail_mtx ‹_›

end Lists

/-! ## Who holds which mutex -/

/-- a thread at this point of call op holds `mtx[i][b]` -/
def holds (P : Params) (op : Op) : Pc → Fin 2 → ℕ → Prop
  | .acquire1 j => fun i b => i = 0 ∧ b = stripe P 0 (j.key op)
  | .work _ => fun i b => b = stripe P i op.key
  | .take x | .put x _ _ => fun i b => b = stripe P i x.lockKey
  | .release0 key _ => fun i b => b = stripe P i key
  | .release1 key _ => fun i b => i = 1 ∧ b = stripe P 1 key
  | .aLock p _ => fun i b => 2 * b + i < p
  | .resize _ => fun _ b => b < P.mtxSize
  | .aUnLock p _ => fun i b => b < P.mtxSize ∧ p ≤ 2 * b + (1 - i : ℕ)
  | _ => fun _ _ => False

/-- a thread that has not stopped holds what its place in the program says -/
structure Owned (P : Params) (t : ℕ) (m : Mem) (l : Loc) : Prop where
  range : ∀ p k, l.pc = .aLock p k ∨ l.pc = .aUnLock p k → p < 2 * P.mtxSize
  owns : (∀ f, l.pc ≠ .fault f) → ∀ i b, m.mtx i b = some t ↔ holds P l.op l.pc i b

/-- what a step of thread t does to the mutexes -/
structure Locked (P : Params) (t : ℕ) (m : Mem) (op : Op) (y : Mem × Pc) : Prop where
  owned : Owned P t y.1 ⟨op, y.2⟩
  others : ∀ u, u ≠ t → ∀ i b, y.1.mtx i b = some u ↔ m.mtx i b = some u

section Step

variable {P : Params} {t : ℕ} {m m' : Mem} {op : Op} {pc pc' : Pc}

theorem mtxSize_pos (P : Params) : 0 < P.mtxSize := Nat.two_pow_pos _

theorem lockAt_iff (p : ℕ) (i : Fin 2) (b : ℕ) : i = (lockAt p).1 ∧ b = (lockAt p).2 ↔ 2 * b + i = p := by
  unfold lockAt
  fin_cases i <;> split_ifs <;> simp <;> omega

theorem stripe_lt (P : Params) (i : Fin 2) (key : ℤ) : stripe P i key < P.mtxSize := Nat.mod_lt _ (mtxSize_pos P)

theorem mtx_setMtx (m : Mem) (i j : Fin 2) (b c : ℕ) (o : Option ℕ) :
    (setMtx m i b o).mtx j c = if j = i ∧ c = b then o else m.mtx j c := by
  unfold setMtx
  by_cases hj : j = i
  · subst hj
    by_cases hc : c = b
    · subst hc; simp
    · simp [hc]
  · simp [hj]

/-- a step that does not touch the mutexes -/
theorem Locked.same (hm : m'.mtx = m.mtx) (h : Owned P t m ⟨op, pc⟩) (hf : ∀ f, pc ≠ .fault f)
    (hr : ∀ p k, pc' = .aLock p k ∨ pc' = .aUnLock p k → p < 2 * P.mtxSize)
    (hh : ∀ i b, holds P op pc' i b ↔ holds P op pc i b) : Locked P t m op (m', pc') where
  owned := ⟨hr, fun _ i b => by rw [hm, hh]; exact h.owns hf i b⟩
  others u _ i b := by rw [hm]

theorem Locked.fault (f : Fault) : Locked P t m op (m, .fault f) where
  owned := ⟨fun _ _ h => (by rcases h with h | h <;> cases h), fun h => absurd rfl (h f)⟩
  others _ _ _ _ := Iff.rfl

variable (h : Owned P t m ⟨op, pc⟩)

include h

/-- a mutex is taken, or the thread waits -/
theorem Locked.lock {i : Fin 2} {b : ℕ} (hf : ∀ f, pc ≠ .fault f)
    (hr : ∀ p k, pc' = .aLock p k ∨ pc' = .aUnLock p k → p < 2 * P.mtxSize)
    (hh : ∀ j c, holds P op pc' j c ↔ holds P op pc j c ∨ j = i ∧ c = b) :
    Locked P t m op (lock t m i b pc pc') := by
  unfold ConcurrentCuckooHash.lock
  split
  · rename_i hfree
    refine ⟨⟨hr, fun _ j c => ?_⟩, fun u hu j c => ?_⟩
    · rw [mtx_setMtx]
      change _ ↔ holds P op pc' j c
      rw [hh]
      split_ifs with e
      · simp [e]
      · rw [h.owns hf]; simp [e]
    · rw [mtx_setMtx]
      split_ifs with e
      · rw [e.1, e.2, hfree]; simp [Ne.symm hu]
      · rfl
  · exact ⟨h, fun _ _ _ _ => Iff.rfl⟩

/-- a mutex is given back -/
theorem Locked.unlock {i : Fin 2} {b : ℕ} (hf : ∀ f, pc ≠ .fault f) (hb : holds P op pc i b)
    (hm : m'.mtx = (setMtx m i b none).mtx) (hr : ∀ p k, pc' = .aLock p k ∨ pc' = .aUnLock p k → p < 2 * P.mtxSize)
    (hh : ∀ j c, holds P op pc' j c ↔ holds P op pc j c ∧ ¬ (j = i ∧ c = b)) : Locked P t m op (m', pc') := by
  have hown := (h.owns hf i b).2 hb
  refine ⟨⟨hr, fun _ j c => ?_⟩, fun u hu j c => ?_⟩
  · change m'.mtx j c = some t ↔ holds P op pc' j c
    rw [hm, mtx_setMtx, hh]
    split_ifs with e
    · simp [e]
    · rw [h.owns hf]; simp [e]
  · change m'.mtx j c = some u ↔ _
    rw [hm, mtx_setMtx]
    split_ifs with e
    · rw [e.1, e.2, hown]; simp [Ne.symm hu]
    · rfl

omit h in
theorem Locked.finish {r : Res} (h : Locked P t m op (m', .ret r)) : Locked P t m op (finish t m' op r) :=
  ⟨⟨h.owned.range, h.owned.owns⟩, h.others⟩

omit h in
theorem noRange (h1 : ∀ p k, pc ≠ .aLock p k) (h2 : ∀ p k, pc ≠ .aUnLock p k) :
    ∀ p k, pc = .aLock p k ∨ pc = .aUnLock p k → p < 2 * P.mtxSize := fun p k h =>
  h.elim (fun e => absurd e (h1 p k)) fun e => absurd e (h2 p k)

/-- the end of a locked part -/
theorem Locked.ended {key : ℤ} {y : Except Fault (Mem × Cont)} (hf : ∀ f, pc ≠ .fault f)
    (hk : ∀ m' k, y = .ok (m', k) → m'.mtx = m.mtx)
    (hh : ∀ i b, holds P op pc i b ↔ b = stripe P i key) : Locked P t m op (locked key m y) := by
  match y, hk with
  | .error f, _ => exact Locked.fault f
  | .ok (m', k), hk =>
    exact Locked.same (hk m' k rfl) h hf (noRange nofun nofun) fun i b => (hh i b).symm

theorem exec_locked : Locked P t m op (exec P t m op pc) := by
  have hpos := mtxSize_pos P
  cases pc with
  | idle | ret r | fault f => exact ⟨h, fun _ _ _ _ => Iff.rfl⟩
  | acquire0 j => exact Locked.lock h nofun (noRange nofun nofun) fun i b => by simp [holds]
  | acquire1 j =>
    refine Locked.lock h nofun ?_ fun i b => ?_
    · cases j <;> exact noRange nofun nofun
    · have : holds P op j.next i b ↔ b = stripe P i (j.key op) := by cases j <;> rfl
      rw [this]
      fin_cases i <;> simp [holds]
  | work nested => exact Locked.ended h nofun (fun m' k e => work_mtx e) fun _ _ => Iff.rfl
  | take x =>
    simp only [exec]
    split
    · exact Locked.fault _
    · rename_i m' y e
      exact Locked.same (deleteNode_mtx e) h nofun (noRange nofun nofun) fun _ _ => Iff.rfl
  | put x jSet y => exact Locked.ended h nofun (fun m' k e => putWork_mtx e) fun _ _ => Iff.rfl
  | release0 key k =>
    refine Locked.unlock h nofun rfl rfl (noRange nofun nofun) fun i b => ?_
    fin_cases i <;> simp [holds]
  | release1 key k =>
    have hgone : ∀ pc', (∀ i b, ¬ holds P op pc' i b) → (∀ p k, pc' = .aLock p k ∨ pc' = .aUnLock p k → p < 2 * P.mtxSize) →
        Locked P t m op (setMtx m 1 (stripe P 1 key) none, pc') := by
      intro pc' hno hr
      refine Locked.unlock h nofun ⟨rfl, rfl⟩ rfl hr fun i b => ?_
      exact iff_of_false (hno i b) fun hb => hb.2 hb.1
    cases k with
    | ret r => exact (hgone (.ret r) (fun _ _ => id) (noRange nofun nofun)).finish
    | relocate i hi round => exact hgone _ (fun _ _ => id) (noRange nofun nofun)
    | resize k =>
      refine hgone (.aLock 0 k) (fun i b => by simp [holds]) ?_
      rintro p k (e | e)
      · cases e; omega
      · cases e
  | table i hi round
  | bucket i hi round iSet lockKey => exact Locked.same rfl h nofun (noRange nofun nofun) fun _ _ => Iff.rfl
  | head i hi round iSet =>
    simp only [exec]
    split
    · exact Locked.fault _
    · exact Locked.same rfl h nofun (noRange nofun nofun) fun _ _ => Iff.rfl
  | aLock p k =>
    have hp : p < 2 * P.mtxSize := h.range p k (.inl rfl)
    refine Locked.lock h nofun ?_ fun i b => ?_
    · split_ifs with e
      · rintro q k' (e' | e')
        · cases e'; exact e
        · cases e'
      · rintro q k' (e' | e') <;> cases e'
    · simp only [lockAt]
      split_ifs with e e2 e2
      all_goals simp only [holds]
      all_goals fin_cases i <;> simp <;> omega
  | resize k =>
    simp only [exec]
    split
    · exact Locked.fault _
    · rename_i m' e
      refine Locked.same (resize_mtx e) h nofun ?_ fun i b => ?_
      · rintro q k' (e' | e')
        · cases e'
        · cases e'; omega
      · simp [holds]
  | aUnLock p k =>
    have hp : p < 2 * P.mtxSize := h.range p k (.inr rfl)
    simp only [exec]
    have hunlock : ∀ pc', (∀ p k, pc' = .aLock p k ∨ pc' = .aUnLock p k → p < 2 * P.mtxSize) →
        (∀ i b, holds P op pc' i b ↔ b < P.mtxSize ∧ p + 1 ≤ 2 * b + (1 - i : ℕ)) →
        Locked P t m op (setMtx m (unlockAt p).1 (unlockAt p).2 none, pc') := by
      intro pc' hr hh
      refine Locked.unlock h nofun ?_ rfl hr fun i b => ?_
      · simp only [unlockAt]
        split_ifs with e <;> simp [holds] <;> omega
      · rw [hh]
        simp only [unlockAt]
        split_ifs with e
        all_goals simp only [holds]
        all_goals fin_cases i <;> simp <;> omega
    split_ifs with e
    · refine hunlock _ ?_ fun _ _ => Iff.rfl
      rintro q k' (e' | e')
      · cases e'
      · cases e'; exact e
    · have hnone : ∀ i : Fin 2, ∀ b, False ↔ b < P.mtxSize ∧ p + 1 ≤ 2 * b + (1 - i : ℕ) := by
        intro i b
        simp only [false_iff, not_and]
        omega
      cases k with
      | done => exact (hunlock (.ret (.add true)) (noRange nofun nofun) hnone).finish
      | again => exact hunlock (.acquire0 (.call true)) (noRange nofun nofun) hnone

omit h

theorem Owned.other {u : ℕ} {l : Loc} (h : Owned P u m l) (ho : ∀ i b, m'.mtx i b = some u ↔ m.mtx i b = some u) :
    Owned P u m' l :=
  ⟨h.range, fun hf i b => (ho i b).trans (h.owns hf i b)⟩

theorem outside_cases (h : outside pc = true) : pc = .idle ∨ ∃ r, pc = .ret r := by
  cases pc with
  | idle => exact .inl rfl
  | ret r => exact .inr ⟨r, rfl⟩
  | _ => cases h

/-- outside its calls a thread holds nothing -/
theorem holds_outside (h : outside pc = true) (i : Fin 2) (b : ℕ) : ¬ holds P op pc i b := by
  rcases outside_cases h with rfl | ⟨r, rfl⟩ <;> exact id

theorem step_locked {l : Loc} (h : Owned P t m l) (a : Act) :
    Owned P t (step P t m l a).1 (step P t m l a).2 ∧
      ∀ u, u ≠ t → ∀ i b, (step P t m l a).1.mtx i b = some u ↔ m.mtx i b = some u := by
  cases a with
  | step => exact ⟨(exec_locked h).owned, (exec_locked h).others⟩
  | invoke op =>
    refine ⟨?_, fun _ _ _ _ => Iff.rfl⟩
    simp only [step]
    split_ifs with ho
    · refine ⟨noRange nofun nofun, fun _ i b => (h.owns ?_ i b).trans ?_⟩
      · rcases outside_cases ho with e | ⟨r, e⟩ <;> rw [e] <;> nofun
      · exact iff_of_false (holds_outside ho i b) id
    · exact h

end Step

theorem init_owned (P : Params) (t : ℕ) : Owned P t (sys P).sh (sys P).loc :=
  ⟨noRange nofun nofun, fun _ _ _ => iff_of_false nofun id⟩

end AlgorithmCollection.ConcurrentCuckooHash
