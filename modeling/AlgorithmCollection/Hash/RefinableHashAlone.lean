/-
`RefinableHash` run by one thread.

The thread ends a `resize` with the mutexes of the lower half destroyed, so a later call in the lower half, or a second
`resize`, comes to a destroyed mutex and does not go on (`Doomed`). As long as it is not there (`Fine`), what is known of
the mutexes is what `RefinableHashLocks` says, and besides: those of the lower half are destroyed (`Dead`), and the mutexes
that are taken are those in the thread's own record (`Owned`). The lists: along every link but those of the heads the keys
rise (`Rising`), and every point of the program knows enough of the nodes it has in hand to keep that (`Placed`).

`alone_rest`: between calls no mutex is taken and every bucket is a list that ends.
-/
import AlgorithmCollection.Conc.Rising
import AlgorithmCollection.Conc.Solo
import AlgorithmCollection.Hash.RefinableHashLocks

namespace AlgorithmCollection.RefinableHash

open Conc Chained
open Function (update update_self update_of_ne comp_update)

/-! ## The mutexes of the lower half -/

/-- the mutexes of the lower half are destroyed -/
def Dead (m : Mem) : Prop := ∀ b < m.oldTableSize, m.mutex (mtxOf m b) = .destroyed

/-- the loop of `free_bucket` has come to bucket i -/
def Freed (m : Mem) : Loc → Prop
  | .rFree _ A _ i =>
    (∀ b < m.oldTableSize, mtxOf m b = (m.list A b).mtx) ∧ ∀ b < i, m.mutex (m.list A b).mtx = .destroyed
  | _ => True

/-- the thread is in a call that comes to a destroyed mutex -/
def Doomed (m : Mem) (l : Loc) : Prop :=
  0 < m.oldTableSize ∧ 0 < m.tableSize ∧ Dead m ∧
    match l with
    | .size u _ | .hash u _ _ => hashCode u.key m.tableSize < m.oldTableSize
    | .findHash k => hashCode k m.tableSize < m.oldTableSize
    | .lock1 _ b => b < m.oldTableSize
    | .lock2 _ b A => b < m.oldTableSize ∧ A = m.bucket
    | .lock3 _ b p => b < m.oldTableSize ∧ p = mtxOf m b
    | .rSize _ => True
    | .rLock _ size i _ => i = 0 ∧ 0 < size
    | _ => False

/-- what is known of the mutexes while the thread goes on -/
def Fine (m : Mem) (l : Loc) : Prop := (Table m ∧ At m l ∧ Dead m) ∨ (Busy m l ∧ Freed m l)

section Mutexes

variable {m : Mem} {l : Loc}

theorem Doomed.step (h : Doomed m l) : Doomed (exec 0 m l).1 (exec 0 m l).2 := by
  obtain ⟨h1, h2, h3, h4⟩ := h
  cases l with
  | size u retry | hash u retry size | findHash k => exact ⟨h1, h2, h3, h4⟩
  | lock1 w b => exact ⟨h1, h2, h3, h4, rfl⟩
  | lock2 w b A =>
    obtain ⟨h4, rfl⟩ := h4
    exact ⟨h1, h2, h3, h4, rfl⟩
  | lock3 w b p =>
    obtain ⟨h4, rfl⟩ := h4
    have hstay : exec 0 m (.lock3 w b (mtxOf m b)) = (m, .lock3 w b (mtxOf m b)) :=
      if_neg (by rw [h3 b h4]; exact nofun)
    rw [hstay]
    exact ⟨h1, h2, h3, h4, rfl⟩
  | rSize c => exact ⟨h1, h2, h3, rfl, h2⟩
  | rLock c size i ms =>
    obtain ⟨rfl, h4⟩ := h4
    simp only [exec, if_pos h4]
    exact ⟨h1, h2, h3, h1⟩
  | _ => exact h4.elim

theorem Doomed.not_outside (h : Doomed m l) : outside l = false := by
  by_contra hl
  rcases outside_cases (by simpa using hl) with rfl | ⟨op, r, rfl⟩ <;> exact h.2.2.2

/-- outside `resize` a destroyed mutex stays so -/
theorem At.destroyed (h : At m l) {p : ℕ} (hp : m.mutex p = .destroyed) : (exec 0 m l).1.mutex p = .destroyed := by
  have hset : ∀ {q : ℕ} {x : Mutex}, q ≠ p → (setMutex m q x).mutex p = .destroyed := fun hne =>
    (update_of_ne hne.symm ..).trans hp
  cases l with
  | lock3 w b q =>
    simp only [exec, RefinableHash.lock]
    split_ifs with hq
    · exact hset fun e => by rw [e, hp] at hq; cases hq
    · exact hp
  | unlock3 w b q =>
    simp only [exec, RefinableHash.unlock]
    split
    · rename_i o hq
      exact hset fun e => by rw [e, hp] at hq; cases hq
    · exact hp
  | recheck u retry size b mx =>
    simp only [exec]
    split_ifs
    · cases u <;> exact hp
    · exact hp
  | test c b pred curr => simp only [exec]; split_ifs <;> exact hp
  | _ => first | exact hp | exact h.elim

theorem Dead.same {m' : Mem} (h : Dead m) (hS : SameTable m m') (hd : ∀ p, m.mutex p = .destroyed → m'.mutex p = .destroyed) :
    Dead m' := by
  intro b hb
  rw [hS.oldTableSize] at hb
  rw [hS.mtxOf]
  exact hd _ (h b hb)

/-- a point of `resize` at which `free_bucket` has not begun -/
def Early (l : Loc) : Prop := outside l = false ∧ ∀ c A n i, l ≠ .rFree c A n i

def freeing : Loc → Bool
  | .rFree _ _ _ _ => true
  | _ => false

theorem Early.of (h1 : outside l = false) (h2 : freeing l = false) : Early l := by
  refine ⟨h1, ?_⟩
  rintro c A n i rfl
  cases h2

theorem Early.freed (h : Early l) : Freed m l ∧ (outside l = true → Dead m) := by
  refine ⟨?_, fun ho => by rw [h.1] at ho; cases ho⟩
  cases l with
  | rFree c A n i => exact absurd rfl (h.2 c A n i)
  | _ => trivial

theorem Early.ok {c : Ins} (hc : c.Busy m) (b : ℕ) : Early (c.ok b) := by
  cases c with
  | add k v retry n mx => exact hc.elim
  | move c i pred n ms => exact .of rfl rfl

theorem Early.afterFirst {c : Cont} (hc : c.Busy m) (b head curr : ℕ) : Early (afterFirst c b head curr) := by
  unfold RefinableHash.afterFirst
  split_ifs
  · cases c with
    | ins c => exact .of rfl rfl
    | delete k retry mx | find k mx => exact hc.elim
  · exact .of rfl rfl

theorem Early.afterCheck {c : Cont} (hc : c.Busy m) (b pred curr : ℕ) (found : Bool) :
    Early (afterCheck c b pred curr found) := by
  obtain ⟨_ | ⟨c, i, pred', n, ms⟩⟩ | _ | _ := c
  · exact hc.elim
  · cases found <;> exact .of rfl rfl
  · exact hc.elim
  · exact hc.elim

theorem Early.lock {w : LockFor} {b p : ℕ} (hw : w.Busy m b) : Early (lock 0 m p (.lock3 w b p) (w.next b p)).2 := by
  cases w with
  | resize c size ms => unfold RefinableHash.lock; split_ifs <;> exact .of rfl rfl
  | _ => exact hw.elim

theorem Early.unlock {w : UnlockFor} {b p : ℕ} (hw : w.Busy m b) : Early (unlock m p (.unlock3 w b p) (w.next b)).2 := by
  cases w with
  | resize c ms => unfold RefinableHash.unlock; split <;> exact .of rfl rfl
  | _ => exact hw.elim

/-- **One step of `resize`** and the mutexes that are destroyed. -/
theorem freed_step (hB : Busy m l) (hF : Freed m l) :
    Freed (exec 0 m l).1 (exec 0 m l).2 ∧ (outside (exec 0 m l).2 = true → Dead (exec 0 m l).1) := by
  cases l with
  | rUnlock c i ms =>
    simp only [exec]
    split_ifs
    · exact ⟨trivial, Bool.noConfusion⟩
    · exact ⟨⟨fun b hb => hB.1.lower b (by omega) hb, fun b hb => absurd hb (Nat.not_lt_zero b)⟩, Bool.noConfusion⟩
  | rFree c A n i =>
    obtain ⟨hS, rfl, rfl⟩ := hB
    simp only [exec]
    split_ifs with hi
    · refine ⟨⟨hF.1, fun b hb => ?_⟩, Bool.noConfusion⟩
      change update m.mutex _ _ (m.list m.oldBucket b).mtx = _
      by_cases e : (m.list m.oldBucket b).mtx = (m.list m.oldBucket i).mtx
      · rw [e, update_self]
      · rw [update_of_ne e]
        exact hF.2 b (lt_of_le_of_ne (Nat.lt_succ_iff.1 hb) fun hbi => e (by rw [hbi]))
    · refine ⟨trivial, fun _ b (hb : b < m.oldTableSize) => ?_⟩
      rw [hF.1 b hb]
      exact hF.2 b (by omega)
  | lock3 w b p => exact (Early.lock hB.1).freed
  | unlock3 w b p => exact (Early.unlock hB.1).freed
  | first c b => exact (Early.afterFirst hB _ _ _).freed
  | check c b pred curr => exact (Early.afterCheck hB _ _ _ _).freed
  | addEmpty2 c b | link2 c b pred => exact (Early.ok hB b).freed
  | rLock c size i ms | rCheck c size ms | rTest c i pred curr ms
  | test c b pred curr | rInit c ms | rHead c old new i ms | rList c i ms =>
    simp only [exec]
    split_ifs <;> exact (Early.of rfl rfl).freed
  | idle | ret op r | policy2 c n | recheck u retry size b mx | rQuit c size i ms | findHash k => exact hB.elim
  | _ => exact (Early.of rfl rfl).freed

/-- **One step** of a thread that goes on: it goes on, or it is in a call that comes to a destroyed mutex. -/
theorem Fine.step (h : Fine m l) : Fine (exec 0 m l).1 (exec 0 m l).2 ∨ Doomed (exec 0 m l).1 (exec 0 m l).2 := by
  rcases h with ⟨hT, hA, hD⟩ | ⟨hB, hF⟩
  · by_cases hp : ∃ c n, l = .policy2 c n ∧ policy n m.tableSize = true
    · obtain ⟨c, n, rfl, hpol⟩ := hp
      have he : exec 0 m (.policy2 c n) = (m, .rSize c) := by simp only [exec, hpol, if_true]
      rw [he]
      by_cases h0 : m.oldTableSize = 0
      · exact .inl (.inr ⟨(policy_step 0 hT h0 c n hpol).2, trivial⟩)
      · exact .inr ⟨Nat.pos_of_ne_zero h0, hT.pos, hD, trivial⟩
    · obtain ⟨hS, hA'⟩ := calm_step 0 hA fun c n hl => by
        by_contra hpol
        exact hp ⟨c, n, hl, by simpa using hpol⟩
      refine .inl (.inl ⟨hS.table hT, ?_, hD.same hS fun p => hA.destroyed⟩)
      rw [hS.at_eq]
      exact hA'
  · obtain ⟨hF', hD⟩ := freed_step hB hF
    rcases busy_step 0 hB with hB' | ⟨hT, ho⟩
    · exact .inl (.inr ⟨hB', hF'⟩)
    · exact .inl (.inl ⟨hT, At.outside ho, hD ho⟩)

/-- **A call begins**, in the upper half or in the lower one. -/
theorem Fine.start (h : Fine m l) (ho : outside l = true) {op : Op} (hk : 0 ≤ op.key) :
    Fine m (start op) ∨ Doomed m (start op) := by
  rcases h with ⟨hT, -, hD⟩ | ⟨hB, -⟩
  · by_cases hb : m.oldTableSize ≤ hashCode op.key m.tableSize
    · exact .inl (.inl ⟨hT, start_at hk hb, hD⟩)
    · refine .inr ⟨by omega, hT.pos, hD, ?_⟩
      cases op <;> exact not_le.1 hb
  · rw [hB.not_outside] at ho
    cases ho

theorem Fine.sound (h : Fine m l) : Sound m l := by
  rcases h with ⟨hT, hA, -⟩ | ⟨hB, -⟩
  · exact hT.sound hA
  · exact hB.sound

end Mutexes

/-! ## The mutexes that are taken -/

def LockFor.held : LockFor → List ℕ
  | .resize _ _ ms => ms
  | _ => []

def Ins.held : Ins → List ℕ
  | .add _ _ _ _ mx => [mx]
  | .move _ _ _ _ ms => ms

def Cont.held : Cont → List ℕ
  | .ins c => c.held
  | .delete _ _ mx | .find _ mx => [mx]

/-- the mutexes in the record of the thread that it has not unlocked yet -/
def held : Loc → List ℕ
  | .lock1 w _ | .lock2 w _ _ | .lock3 w _ _ => w.held
  | .unlock1 w b | .unlock2 w b _ | .unlock3 w b _ => (w.locked b).1.drop (w.locked b).2
  | .recheck _ _ _ _ mx | .create _ _ _ _ mx | .del1 _ _ _ _ mx | .del2 _ _ _ _ _ mx | .del3 _ _ _ _ _ mx
  | .count1 _ _ mx | .count2 _ _ _ mx => [mx]
  | .first c _ | .test c _ _ _ | .next c _ _ | .check c _ _ _ => c.held
  | .addEmpty1 c _ _ | .addEmpty2 c _ | .link1 c _ _ _ | .link2 c _ _ => c.held
  | .rLock _ _ _ ms | .rCheck _ _ ms | .rOld1 _ ms | .rOld2 _ ms | .rInit _ ms | .rHead _ _ _ _ ms | .rMtx _ _ _ _ ms
  | .rShare _ _ _ _ ms | .rDouble _ ms | .rList _ _ ms | .rTest _ _ _ _ ms | .rTake1 _ _ _ _ ms | .rTake2 _ _ _ _ _ ms
  | .rHash _ _ _ _ ms | .rNext _ _ _ ms => ms
  | .rQuit _ _ i ms | .rUnlock _ i ms => ms.drop i
  | _ => []

/-- every mutex that is taken is in the record of the thread at l -/
def Owned (m : Mem) (l : Loc) : Prop := ∀ p o, m.mutex p = .live (some o) → p ∈ held l

section Owned

variable {m m' : Mem} {l l' : Loc} {b p : ℕ}

theorem Owned.keep (h : Owned m l) (hm : m'.mutex = m.mutex) (hl : held l ⊆ held l') : Owned m' l' := by
  intro q o hq
  rw [hm] at hq
  exact hl (h q o hq)

/-- a mutex gets a state in which it is not taken -/
theorem Owned.set (h : Owned m l) {x : Mutex} (hm : m'.mutex = update m.mutex p x) (hx : ∀ o, x ≠ .live (some o))
    (hl : ∀ q ∈ held l, q = p ∨ q ∈ held l') : Owned m' l' := by
  intro q o hq
  rw [hm] at hq
  by_cases e : q = p
  · rw [e, update_self] at hq
    exact absurd hq (hx o)
  · rw [update_of_ne e] at hq
    exact (hl q (h q o hq)).resolve_left e

theorem held_locked (w : LockFor) : w.held ⊆ held (w.next b p) ∧ p ∈ held (w.next b p) := by
  cases w with
  | upd u retry size | find k => exact ⟨List.nil_subset _, List.mem_singleton_self p⟩
  | resize c size ms => exact ⟨List.subset_append_left _ _, List.mem_append_right _ (List.mem_singleton_self p)⟩

theorem Owned.lock {w : LockFor} (h : Owned m (.lock3 w b p)) :
    Owned (lock 0 m p (.lock3 w b p) (w.next b p)).1 (lock 0 m p (.lock3 w b p) (w.next b p)).2 := by
  unfold RefinableHash.lock
  split_ifs
  · intro q o hq
    by_cases e : q = p
    · rw [e]
      exact (held_locked w).2
    · have hm : (setMutex m p (.live (some 0))).mutex q = m.mutex q := update_of_ne e ..
      exact (held_locked w).1 (h q o (hm ▸ hq))
  · exact h

/-- what is left after the unlock -/
theorem held_unlocked (w : UnlockFor) : (w.locked b).1.drop ((w.locked b).2 + 1) ⊆ held (w.next b) := by
  cases w with
  | done d mx | retry u n mx | find k r mx => exact List.nil_subset _
  | quit c size ms | resize c ms => exact List.Subset.refl _

theorem Owned.unlock {w : UnlockFor} (h : Owned m (.unlock3 w b p)) (hp : (w.locked b).1[(w.locked b).2]? = some p) :
    Owned (unlock m p (.unlock3 w b p) (w.next b)).1 (unlock m p (.unlock3 w b p) (w.next b)).2 := by
  unfold RefinableHash.unlock
  split
  · refine h.set rfl (fun o => nofun) fun q hq => ?_
    obtain ⟨hlt, hget⟩ := List.getElem?_eq_some_iff.1 hp
    change q ∈ (w.locked b).1.drop (w.locked b).2 at hq
    rw [List.drop_eq_getElem_cons hlt, hget, List.mem_cons] at hq
    exact hq.imp_right fun hq => held_unlocked w hq
  · exact h

theorem held_ok (c : Ins) (b : ℕ) : c.held ⊆ held (c.ok b) := by
  cases c <;> exact List.Subset.refl _

theorem held_afterFirst (c : Cont) (b head curr : ℕ) : c.held ⊆ held (afterFirst c b head curr) := by
  unfold afterFirst
  split_ifs
  · cases c <;> exact List.Subset.refl _
  · exact List.Subset.refl _

theorem held_afterCheck (c : Cont) (b pred curr : ℕ) (found : Bool) : c.held ⊆ held (afterCheck c b pred curr found) := by
  obtain ⟨_ | _⟩ | _ | _ := c <;> cases found <;> exact List.Subset.refl _

/-- **One step** and the record of the mutexes. -/
theorem exec_owned (h : Owned m l) (hF : Fine m l) : Owned (exec 0 m l).1 (exec 0 m l).2 := by
  cases l with
  | lock3 w b p => exact h.lock
  | unlock3 w b p => exact h.unlock (hF.sound.unlock w b p rfl).2
  | recheck u retry size b mx =>
    simp only [exec]
    split_ifs
    · cases u <;> exact h.keep rfl (List.Subset.refl _)
    · exact h.keep rfl (List.Subset.refl _)
  | first c b => exact h.keep rfl (held_afterFirst c b _ _)
  | addEmpty2 c b | link2 c b pred => exact h.keep rfl (held_ok c b)
  | check c b pred curr => exact h.keep rfl (held_afterCheck c b _ _ _)
  | policy2 c n | rLock c size i ms | rCheck c size ms | rTest c i pred curr ms | test c b pred curr | rList c i ms
  | rHead c old new i ms =>
    simp only [exec]
    split_ifs <;> exact h.keep rfl (List.Subset.refl _)
  | rInit c ms =>
    simp only [exec]
    split_ifs
    · exact h.keep rfl (List.Subset.refl _)
    · exact h
  | rMtx c old new i ms => exact h.set rfl (by simp) fun q hq => .inr hq
  | rShare c old new i ms =>
    simp only [exec, shareMtx]
    split_ifs
    · exact h.keep rfl (List.Subset.refl _)
    · exact h.set rfl (by simp) fun q hq => .inr hq
  | rUnlock c i ms =>
    simp only [exec]
    split_ifs with hi
    · exact h.keep rfl (List.Subset.refl _)
    · -- all mutexes of the old array have been unlocked
      have hB : Filled m ms := by
        rcases hF with ⟨-, hA, -⟩ | ⟨hB, -⟩
        · exact hA.elim
        · exact hB
      refine h.keep rfl ?_
      have hlen : ms.length ≤ i := by
        rw [hB.1.old, List.length_map, List.length_range]
        omega
      change ms.drop i ⊆ _
      rw [List.drop_eq_nil_of_le hlen]
      exact List.nil_subset _
  | rQuit c size i ms =>
    rcases hF with ⟨-, hA, -⟩ | ⟨hB, -⟩
    · exact hA.elim
    · exact hB.elim
  | rFree c A n i =>
    simp only [exec]
    split_ifs
    · exact h.set rfl (by simp) fun q hq => .inr hq
    · exact h.keep rfl (List.Subset.refl _)
  | _ => exact h.keep rfl (List.Subset.refl _)

end Owned

/-! ## The lists -/

abbrev nx (m : Mem) (a : ℕ) : ℕ := (m.node a).next

abbrev ky (m : Mem) (a : ℕ) : ℤ := (m.node a).key

abbrev vl (m : Mem) (a : ℕ) : ℤ := (m.node a).value

/-- the nodes of bucket b, from its head on -/
def nodes (m : Mem) (b : ℕ) : List ℕ := walk (nx m) (fun a => a = NULL) m.fresh (nx m (m.list m.bucket b).head)

/-- the keys rise along the links, H being the heads of the buckets, and are not negative -/
structure Lists (H : Set ℕ) (m : Mem) : Prop where
  rising : Rising (nx m) (ky m) m.fresh H
  nonneg : ∀ a, 0 ≤ ky m a

/-- the first n buckets of array A have heads -/
def Heads (H : Set ℕ) (m : Mem) (A n : ℕ) : Prop := ∀ b < n, (m.list A b).head ∈ H

/-- the arrays, at each point of the program -/
def Arrays (H : Set ℕ) (m : Mem) : Loc → Prop
  | .rOld2 _ _ => Heads H m m.bucket m.tableSize
  | .rHead _ _ _ i _ => Heads H m m.bucket i ∧ Heads H m m.oldBucket m.oldTableSize
  | .rMtx _ _ _ i _ | .rShare _ _ _ i _ => Heads H m m.bucket (i + 1) ∧ Heads H m m.oldBucket m.oldTableSize
  | .rDouble _ _ => Heads H m m.bucket (m.oldTableSize * 2) ∧ Heads H m m.oldBucket m.oldTableSize
  | _ => Heads H m m.bucket m.tableSize ∧ Heads H m m.oldBucket m.oldTableSize

/-- a node from which a link may lead to key k -/
def Below (H : Set ℕ) (m : Mem) (k : ℤ) (pred : ℕ) : Prop := pred ∈ H ∨ ky m pred < k

def Ins.Ready (H : Set ℕ) (m : Mem) : Ins → Prop
  | .add _ _ _ n _ => IsNode m.fresh H n
  | .move _ _ pred n _ => IsNode m.fresh H n ∧ pred ∈ H

def Cont.Ready (H : Set ℕ) (m : Mem) : Cont → Prop
  | .ins c => c.Ready H m
  | _ => True

/-- the nodes the thread has in hand, at each point of the program -/
def Placed (H : Set ℕ) (m : Mem) : Loc → Prop
  | .first c b => c.Ready H m ∧ (m.list m.bucket b).head ∈ H
  | .addEmpty1 c _ head => c.Ready H m ∧ head ∈ H
  | .addEmpty2 c _ => c.Ready H m
  | .test c _ pred curr => c.Ready H m ∧ Below H m (c.key m) pred ∧ (curr = NULL ∨ IsNode m.fresh H curr)
  | .next c _ pred => c.Ready H m ∧ Below H m (c.key m) pred
  | .check c _ pred curr =>
    c.Ready H m ∧ Below H m (c.key m) pred ∧ (curr = NULL ∨ IsNode m.fresh H curr ∧ c.key m ≤ ky m curr)
  | .link1 c _ pred curr =>
    c.Ready H m ∧ Below H m (ky m c.newNode) pred ∧ (curr = NULL ∨ IsNode m.fresh H curr ∧ ky m c.newNode < ky m curr)
  | .link2 c _ pred => c.Ready H m ∧ Below H m (ky m c.newNode) pred
  | .del1 k _ pred curr _ | .del2 k _ pred curr _ _ => Below H m k pred ∧ IsNode m.fresh H curr ∧ ky m curr = k
  | .del3 k _ pred _ succ _ => Below H m k pred ∧ (succ = NULL ∨ IsNode m.fresh H succ ∧ k < ky m succ)
  | .rTest _ _ pred curr _ => pred ∈ H ∧ (curr = NULL ∨ IsNode m.fresh H curr)
  | .rTake1 _ _ pred curr _ | .rHash _ _ pred curr _ => pred ∈ H ∧ IsNode m.fresh H curr
  | .rTake2 _ _ pred curr succ _ => pred ∈ H ∧ IsNode m.fresh H curr ∧ (succ = NULL ∨ IsNode m.fresh H succ)
  | .rNext _ _ pred _ => pred ∈ H
  | _ => True

section Lists

variable {H : Set ℕ} {m m' : Mem} {l : Loc} {a p : ℕ} {k v : ℤ}

theorem nx_setNext : nx (setNext m a p) = update (nx m) a p := comp_update Node.next m.node a _

theorem ky_setNext : ky (setNext m a p) = ky m :=
  (comp_update Node.key m.node a _).trans (Function.update_eq_self a (ky m))

theorem Lists.setNext (h : Lists H m) (hp : p = NULL ∨ IsNode m.fresh H p ∧ (a ∈ H ∨ ky m a < ky m p)) :
    Lists H (setNext m a p) where
  rising := by
    rw [nx_setNext, ky_setNext]
    exact h.rising.link hp
  nonneg b := by
    rw [ky_setNext]
    exact h.nonneg b

/-- memory with a new zeroed or filled node -/
theorem fields_update (m : Mem) (x : Node) (hx : x.next = NULL) :
    (fun b => (update m.node m.fresh x b).next) = update (nx m) m.fresh NULL ∧
      (fun b => (update m.node m.fresh x b).key) = update (ky m) m.fresh x.key := by
  constructor
  · funext b
    by_cases h : b = m.fresh
    · rw [h, update_self, update_self, hx]
    · rw [update_of_ne h, update_of_ne h]
  · funext b
    by_cases h : b = m.fresh
    · rw [h, update_self, update_self]
    · rw [update_of_ne h, update_of_ne h]

theorem Lists.nonneg_update (h : Lists H m) (hk : 0 ≤ k) (b : ℕ) : 0 ≤ update (ky m) m.fresh k b := by
  by_cases e : b = m.fresh
  · rw [e, update_self]
    exact hk
  · rw [update_of_ne e]
    exact h.nonneg b

theorem Lists.createNode (h : Lists H m) (hk : 0 ≤ k) : Lists H (createNode m k v) := by
  obtain ⟨h1, h2⟩ := fields_update m ⟨k, v, NULL⟩ rfl
  constructor
  · change Rising (fun b => (update m.node m.fresh ⟨k, v, NULL⟩ b).next)
      (fun b => (update m.node m.fresh ⟨k, v, NULL⟩ b).key) (m.fresh + 1) H
    rw [h1, h2]
    exact h.rising.create
  · change ∀ b, 0 ≤ (fun b => (update m.node m.fresh ⟨k, v, NULL⟩ b).key) b
    rw [h2]
    exact h.nonneg_update hk

theorem Lists.initHead (h : Lists H m) (i : ℕ) : Lists (insert m.fresh H) (initHead m i) := by
  obtain ⟨h1, h2⟩ := fields_update m ⟨0, 0, NULL⟩ rfl
  constructor
  · change Rising (fun b => (update m.node m.fresh ⟨0, 0, NULL⟩ b).next)
      (fun b => (update m.node m.fresh ⟨0, 0, NULL⟩ b).key) (m.fresh + 1) (insert m.fresh H)
    rw [h1, h2]
    exact h.rising.newHead
  · change ∀ b, 0 ≤ (fun b => (update m.node m.fresh ⟨0, 0, NULL⟩ b).key) b
    rw [h2]
    exact h.nonneg_update le_rfl

theorem Lists.congr (h : Lists H m) (hn : m'.node = m.node) (hf : m'.fresh = m.fresh) : Lists H m' := by
  have h1 : nx m' = nx m := by funext b; unfold nx; rw [hn]
  have h2 : ky m' = ky m := by funext b; unfold ky; rw [hn]
  constructor
  · rw [h1, h2, hf]
    exact h.rising
  · rw [h2]
    exact h.nonneg

/-! ### Writing a link keeps what is known of the nodes in hand -/

theorem below_setNext : Below H (setNext m a p) = Below H m := by
  unfold Below
  rw [ky_setNext]

theorem Ins.Ready.setNext {c : Ins} (h : c.Ready H m) : c.Ready H (setNext m a p) := by
  cases c <;> exact h

theorem Placed.ok {c : Ins} (h : c.Ready H m) (b : ℕ) : Placed H m (c.ok b) := by
  cases c with
  | add k v retry n mx => trivial
  | move c i pred n ms => exact h.2

theorem Ins.Ready.isNode {c : Ins} (h : c.Ready H m) : IsNode m.fresh H c.newNode := by
  cases c with
  | add k v retry n mx => exact h
  | move c i pred n ms => exact h.1

theorem Placed.afterFirst {c : Cont} {b head : ℕ} (hL : Lists H m) (h : c.Ready H m) (hh : head ∈ H) :
    Placed H m (afterFirst c b head (nx m head)) := by
  unfold RefinableHash.afterFirst
  split_ifs with h0
  · cases c with
    | ins c => exact ⟨h, hh⟩
    | delete k retry mx | find k mx => trivial
  · exact ⟨h, .inl hh, hL.rising.node_or head⟩

theorem Placed.afterCheck {c : Cont} {b pred curr : ℕ} (h : Placed H m (.check c b pred curr)) :
    Placed H m (afterCheck c b pred curr (decide (curr ≠ NULL ∧ c.key m = ky m curr))) := by
  obtain ⟨h1, h2, h3⟩ := h
  by_cases hf : curr ≠ NULL ∧ c.key m = ky m curr
  · rw [decide_eq_true hf]
    have hn := h3.resolve_left hf.1
    cases c with
    | ins c => cases c with
      | add k v retry n mx => trivial
      | move c i pred n ms => exact h1.2
    | delete k retry mx => exact ⟨h2, hn.1, hf.2.symm⟩
    | find k mx => trivial
  · rw [decide_eq_false hf]
    cases c with
    | ins c =>
      refine ⟨h1, h2, ?_⟩
      rcases h3 with h0 | ⟨hn, hle⟩
      · exact .inl h0
      · exact .inr ⟨hn, lt_of_le_of_ne hle fun e => hf ⟨hn.1, e⟩⟩
    | delete k retry mx | find k mx => trivial

/-! ### The steps -/

/-- the lists and arrays are in order, for some set of heads -/
def Linked (m : Mem) (l : Loc) : Prop := ∃ H, Lists H m ∧ Arrays H m l ∧ Placed H m l

/-- the key of the call and its bucket, while its mutex is held -/
theorem Fine.bucket_lt (h : Fine m l) {b : ℕ} (ha : At m l → Aim m k b) (hb : ¬ Busy m l) : 0 ≤ k ∧ b < m.tableSize := by
  rcases h with ⟨hT, hA, -⟩ | ⟨hB, -⟩
  · obtain ⟨h0, -, rfl⟩ := ha hA
    exact ⟨h0, hashCode_lt h0 hT.pos hT.lt⟩
  · exact absurd hB hb

/-- a write of a link, to the next point of the program -/
theorem Linked.setNext {l' : Loc} (hL : Lists H m) (hR : Arrays H m l')
    (hp : p = NULL ∨ IsNode m.fresh H p ∧ (a ∈ H ∨ ky m a < ky m p)) (hP : Placed H (setNext m a p) l') :
    Linked (setNext m a p) l' := by
  refine ⟨H, hL.setNext hp, ?_, hP⟩
  cases l' <;> exact hR

variable (h : Heads H m m.bucket m.tableSize ∧ Heads H m m.oldBucket m.oldTableSize)

include h

theorem Arrays.ok {c : Ins} {b : ℕ} : Arrays H m (c.ok b) := by
  cases c <;> exact h

theorem Arrays.afterFirst {c : Cont} {b head curr : ℕ} : Arrays H m (afterFirst c b head curr) := by
  unfold RefinableHash.afterFirst
  split_ifs
  · cases c <;> exact h
  · exact h

theorem Arrays.afterCheck {c : Cont} {b pred curr : ℕ} {found : Bool} : Arrays H m (afterCheck c b pred curr found) := by
  obtain ⟨_ | _⟩ | _ | _ := c <;> cases found <;> exact h

omit h

/-- a bucket gets another mutex -/
theorem head_setBucket (A b p A' b' : ℕ) :
    ((setBucket m A b { m.list A b with mtx := p }).list A' b').head = (m.list A' b').head := by
  change (update m.list A (update (m.list A) b { m.list A b with mtx := p }) A' b').head = _
  by_cases hA : A' = A
  · subst hA
    rw [update_self]
    by_cases hb : b' = b
    · subst hb
      rw [update_self]
    · rw [update_of_ne hb]
  · rw [update_of_ne hA]

theorem Heads.setBucket {A b A' n : ℕ} (h : Heads H m A' n) : Heads H (setBucket m A b { m.list A b with mtx := p }) A' n := by
  intro b' hb
  rw [head_setBucket]
  exact h b' hb

/-- **A new bucket** of the array that `init_bucket` fills. -/
theorem Heads.initHead {i : ℕ} (h : Heads H m m.bucket i) : Heads (insert m.fresh H) (initHead m i) m.bucket (i + 1) := by
  intro b hb
  have hlist : (RefinableHash.initHead m i).list m.bucket =
      update (m.list m.bucket) i { m.list m.bucket i with head := m.fresh } := update_self ..
  rw [hlist]
  by_cases e : b = i
  · rw [e, update_self]
    exact Set.mem_insert ..
  · rw [update_of_ne e]
    exact Set.mem_insert_of_mem _ (h b (by omega))

theorem Heads.initHead_other {A i n : ℕ} (h : Heads H m A n) (hA : A ≠ m.bucket) :
    Heads (insert m.fresh H) (RefinableHash.initHead m i) A n := by
  intro b hb
  have hlist : (RefinableHash.initHead m i).list A = m.list A := update_of_ne hA ..
  rw [hlist]
  exact Set.mem_insert_of_mem _ (h b hb)

theorem Fine.busy (h : Fine m l) (ha : ¬ At m l) : Busy m l := by
  rcases h with ⟨-, hA, -⟩ | ⟨hB, -⟩
  · exact absurd hA ha
  · exact hB

/-- **One step** and the lists. -/
theorem exec_linked (h : Linked m l) (hF : Fine m l) : Linked (exec 0 m l).1 (exec 0 m l).2 := by
  obtain ⟨H, hL, hR, hP⟩ := h
  cases l with
  | lock3 w b p =>
    simp only [exec, lock]
    split_ifs
    · refine ⟨H, hL.congr rfl rfl, ?_⟩
      cases w with
      | find k => exact ⟨hR, trivial, hR.1 b (hF.bucket_lt (fun hA => hA.1) fun hB => hB.1).2⟩
      | upd u retry size | resize c size ms => exact ⟨hR, trivial⟩
    · exact ⟨H, hL, hR, trivial⟩
  | unlock3 w b p =>
    have hnext : ∀ {m'}, Lists H m' → (Heads H m' m'.bucket m'.tableSize ∧ Heads H m' m'.oldBucket m'.oldTableSize) →
        Linked m' (w.next b) := fun hL' hR' => by
      refine ⟨H, hL', ?_⟩
      cases w with
      | done d mx => cases d <;> exact ⟨hR', trivial⟩
      | retry u n mx =>
        simp only [UnlockFor.next]
        split_ifs
        · exact ⟨hR', trivial⟩
        · cases u <;> exact ⟨hR', trivial⟩
      | _ => exact ⟨hR', trivial⟩
    simp only [exec, unlock]
    split
    · exact hnext (hL.congr rfl rfl) hR
    · exact ⟨H, hL, hR, trivial⟩
  | recheck u retry size b mx =>
    simp only [exec]
    split_ifs
    · cases u with
      | add k v => exact ⟨H, hL, hR, trivial⟩
      | delete k => exact ⟨H, hL, hR, trivial, hR.1 b (hF.bucket_lt (fun hA => hA.1) fun hB => hB).2⟩
    · exact ⟨H, hL, hR, trivial⟩
  | create k v retry b mx =>
    obtain ⟨hk, hb⟩ := hF.bucket_lt (fun hA => hA.1) fun hB => hB
    exact ⟨H, hL.createNode hk, hR, hL.rising.isNode_create, hR.1 b hb⟩
  | first c b => exact ⟨H, hL, Arrays.afterFirst hR, Placed.afterFirst hL hP.1 hP.2⟩
  | addEmpty1 c b head =>
    exact Linked.setNext hL hR (.inr ⟨hP.1.isNode, .inl hP.2⟩) hP.1.setNext
  | addEmpty2 c b =>
    exact Linked.setNext hL (Arrays.ok hR) (.inl rfl) (Placed.ok (Ins.Ready.setNext hP) b)
  | test c b pred curr =>
    obtain ⟨h1, h2, h3⟩ := hP
    simp only [exec]
    split_ifs with hc
    · exact ⟨H, hL, hR, h1, .inr hc.2⟩
    · refine ⟨H, hL, hR, h1, h2, ?_⟩
      rcases h3 with h0 | h3
      · exact .inl h0
      · exact .inr ⟨h3, not_lt.1 fun hlt => hc ⟨h3.1, hlt⟩⟩
  | next c b pred => exact ⟨H, hL, hR, hP.1, hP.2, hL.rising.node_or pred⟩
  | check c b pred curr => exact ⟨H, hL, Arrays.afterCheck hR, hP.afterCheck⟩
  | link1 c b pred curr =>
    obtain ⟨h1, h2, h3⟩ := hP
    refine Linked.setNext hL hR (h3.imp_right fun h => ⟨h.1, .inr h.2⟩) ⟨h1.setNext, ?_⟩
    rw [below_setNext, ky_setNext]
    exact h2
  | link2 c b pred =>
    exact Linked.setNext hL (Arrays.ok hR) (.inr ⟨hP.1.isNode, hP.2⟩) (Placed.ok hP.1.setNext b)
  | del1 k b pred curr mx => exact ⟨H, hL, hR, hP⟩
  | del2 k b pred curr v mx =>
    obtain ⟨h1, h2, rfl⟩ := hP
    refine ⟨H, hL, hR, h1, ?_⟩
    by_cases h0 : nx m curr = 0
    · exact .inl h0
    · exact .inr ⟨hL.rising.node curr h0, (hL.rising.rise curr h0).resolve_left h2.2.2⟩
  | del3 k b pred v succ mx =>
    refine Linked.setNext hL hR (hP.2.imp_right fun h => ⟨h.1, ?_⟩) trivial
    exact hP.1.imp_right fun hlt => hlt.trans h.2
  | count2 d b n mx => exact ⟨H, hL.congr rfl rfl, hR, trivial⟩
  | policy2 c n | rLock c size i ms | rCheck c size ms | rUnlock c i ms | rQuit c size i ms =>
    simp only [exec]
    split_ifs <;> exact ⟨H, hL, hR, trivial⟩
  | rOld1 c ms => exact ⟨H, hL.congr rfl rfl, hR.1, trivial⟩
  | rOld2 c ms =>
    obtain ⟨-, -, hsz⟩ := hF.busy fun hA => hA
    refine ⟨H, hL.congr rfl rfl, ⟨hR, fun b hb => hR b ?_⟩, trivial⟩
    rw [← hsz]
    exact hb
  | rInit c ms =>
    obtain ⟨hB, -, -, hold⟩ := hF.busy fun hA => hA
    simp only [exec]
    split_ifs
    · refine ⟨H, hL.congr rfl rfl, ⟨fun b hb => absurd hb (Nat.not_lt_zero b), fun b hb => ?_⟩, trivial⟩
      have hlist : update m.list m.arrays (fun _ => (⟨NULL, NULL⟩ : Bucket)) m.oldBucket = m.list m.oldBucket :=
        update_of_ne (by rw [hold]; exact hB.array.ne) ..
      change (update m.list m.arrays (fun _ => (⟨NULL, NULL⟩ : Bucket)) m.oldBucket b).head ∈ H
      rw [hlist]
      exact hR.2 b hb
    · exact ⟨H, hL, hR, trivial⟩
  | rHead c old new i ms =>
    obtain ⟨hB, -, -, rfl, hi⟩ := hF.busy fun hA => hA
    simp only [exec]
    split_ifs with hlt
    · exact ⟨_, hL.initHead i, ⟨hR.1.initHead, hR.2.initHead_other hB.other⟩, trivial⟩
    · obtain rfl : i = m.oldTableSize * 2 := by omega
      exact ⟨H, hL, hR, trivial⟩
  | rMtx c old new i ms => exact ⟨H, hL.congr rfl rfl, ⟨hR.1.setBucket, hR.2.setBucket⟩, trivial⟩
  | rShare c old new i ms =>
    simp only [exec, shareMtx]
    split_ifs
    · exact ⟨H, hL.congr rfl rfl, ⟨hR.1.setBucket, hR.2.setBucket⟩, trivial⟩
    · exact ⟨H, hL.congr rfl rfl, hR, trivial⟩
  | rDouble c ms =>
    obtain ⟨-, hsz⟩ := hF.busy fun hA => hA
    refine ⟨H, hL.congr rfl rfl, ⟨fun b hb => hR.1 b ?_, hR.2⟩, trivial⟩
    rw [← hsz]
    exact hb
  | rList c i ms =>
    simp only [exec]
    split_ifs with hi
    · exact ⟨H, hL, hR, hR.2 i hi, hL.rising.node_or _⟩
    · exact ⟨H, hL, hR, trivial⟩
  | rTest c i pred curr ms =>
    simp only [exec]
    split_ifs with hc
    · exact ⟨H, hL, hR, hP.1, hP.2.resolve_left hc⟩
    · exact ⟨H, hL, hR, trivial⟩
  | rTake1 c i pred curr ms => exact ⟨H, hL, hR, hP.1, hP.2, hL.rising.node_or curr⟩
  | rTake2 c i pred curr succ ms =>
    exact Linked.setNext hL hR (hP.2.2.imp_right fun h => ⟨h, .inl hP.1⟩) ⟨hP.1, hP.2.1⟩
  | rHash c i pred curr ms =>
    have hB : Filled m ms := hF.busy fun hA => hA
    have hlt := hB.1.lt
    have hpos := hB.1.pos
    have hts := hB.2
    exact ⟨H, hL, hR, ⟨hP.2, hP.1⟩, hR.1 _ (hashCode_lt (hL.nonneg curr) (by omega) (by omega))⟩
  | rNext c i pred ms => exact ⟨H, hL, hR, hP, hL.rising.node_or pred⟩
  | rFree c A n i =>
    simp only [exec]
    split_ifs
    · exact ⟨H, hL.congr rfl rfl, hR, trivial⟩
    · exact ⟨H, hL, hR, trivial⟩
  | _ => exact ⟨H, hL, hR, trivial⟩

end Lists

/-! ## Runs of one thread -/

/-- what is known of a thread that takes all steps -/
def Alone (m : Mem) (l : Loc) : Prop := (Fine m l ∧ Owned m l ∧ Linked m l) ∨ Doomed m l

theorem init_alone (P : Params) : Alone (sys P).sh (sys P).loc := by
  have hrise : Rising (nx (initHashtable P)) (ky (initHashtable P)) (P.tableSize + 1) {a | 0 < a ∧ a ≤ P.tableSize} :=
    ⟨Nat.succ_pos _, fun a ha => ⟨ha.1.ne', Nat.lt_succ_of_le ha.2⟩, fun a ha => absurd rfl ha, fun a ha => absurd rfl ha⟩
  have hlive : ∀ b < P.tableSize, (initHashtable P).list 0 b = ⟨b + 1, b + 1⟩ := fun b hb => if_pos ⟨rfl, hb⟩
  rcases init_inv P with ⟨hT, hA⟩ | ⟨t, hB, -⟩
  · refine .inl ⟨.inl ⟨hT, hA 0, fun b hb => absurd hb (Nat.not_lt_zero b)⟩, fun p o hp => ?_, ?_⟩
    · change (if 0 < p ∧ p ≤ P.tableSize then Mutex.live none else .raw) = _ at hp
      split_ifs at hp
      cases hp
    · refine ⟨_, ⟨hrise, fun a => le_rfl⟩, ⟨fun b hb => ?_, fun b hb => absurd hb (Nat.not_lt_zero b)⟩, trivial⟩
      change ((initHashtable P).list 0 b).head ∈ _
      rw [hlive b hb]
      exact ⟨Nat.succ_pos b, hb⟩
  · exact hB.elim

theorem start_linked {m : Mem} {l : Loc} (h : Linked m l) (ho : outside l = true) (op : Op) : Linked m (start op) := by
  obtain ⟨H, hL, hR, -⟩ := h
  refine ⟨H, hL, ?_⟩
  rcases outside_cases ho with rfl | ⟨op', r, rfl⟩ <;> cases op <;> exact ⟨hR, trivial⟩

/-- **Every step of the thread.** -/
theorem alone_step {P : Params} {m : Mem} {l : Loc} {a : Act} (ha : ∀ op, a = .invoke op → 0 ≤ op.key) (h : Alone m l) :
    Alone ((sys P).step 0 m l a).1 ((sys P).step 0 m l a).2 := by
  cases a with
  | step =>
    rcases h with ⟨hF, hO, hL⟩ | hD
    · rcases hF.step with hF' | hD
      · exact .inl ⟨hF', exec_owned hO hF, exec_linked hL hF⟩
      · exact .inr hD
    · exact .inr hD.step
  | invoke op =>
    change Alone m (if outside l then start op else l)
    split_ifs with ho
    · rcases h with ⟨hF, hO, hL⟩ | hD
      · rcases hF.start ho (ha op rfl) with hF' | hD
        · refine .inl ⟨hF', hO.keep rfl ?_, start_linked hL ho op⟩
          rcases outside_cases ho with rfl | ⟨op', r, rfl⟩ <;> exact List.nil_subset _
        · exact .inr hD
      · rw [hD.not_outside] at ho
        cases ho
    · exact h

/-- **The table between calls**: a bucket of the upper half has a free mutex and one of the lower half a destroyed one, and
every bucket is a list that ends. -/
theorem alone_rest (P : Params) (as : List Act) (hk : ∀ op, .invoke op ∈ as → 0 ≤ op.key)
    (hrest : outside (((sys P).run (as.map fun a => (0, a))).loc 0) = true) :
    Table ((sys P).run (as.map fun a => (0, a))).sh ∧ Dead ((sys P).run (as.map fun a => (0, a))).sh ∧
      (∀ p o, ((sys P).run (as.map fun a => (0, a))).sh.mutex p ≠ .live (some o)) ∧
      ∃ H, Lists H ((sys P).run (as.map fun a => (0, a))).sh := by
  have hI := (sys P).run_alone 0 Alone (init_alone P) as fun m l a ha h =>
    alone_step (fun op e => hk op (e ▸ ha)) h
  rcases hI with ⟨hF, hO, H, hL, -⟩ | hD
  · rcases hF with ⟨hT, -, hdead⟩ | ⟨hB, -⟩
    · refine ⟨hT, hdead, fun p o hp => ?_, H, hL⟩
      have hheld := hO p o hp
      rcases outside_cases hrest with e | ⟨op, r, e⟩ <;> rw [e] at hheld <;> cases hheld
    · rw [hB.not_outside] at hrest
      cases hrest
  · rw [hD.not_outside] at hrest
    cases hrest

end AlgorithmCollection.RefinableHash
