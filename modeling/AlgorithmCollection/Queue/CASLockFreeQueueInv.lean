/-
The invariant of `CASLockFreeQueue`, for any number of threads and any interleaving.

The ghost is the list `L` of the addresses of all nodes ever linked, in link order; its first element is the dummy node
of `init_queue`. The counts in `q->head` and `q->tail` are positions in `L` (`Inv`), `L` only grows and the positions only
advance (`Ext`), and each program point of `enq` and `deq` knows enough about its copies of `head`, `tail` and `next` for
its `cas` to be right (`Asrt`):
- a copy whose count is still the current one is not torn;
- a node read behind a linked node is its successor in `L`, for good;
- the node a thread has created and not linked yet is private to it (`owns`).
`inv_run`: all of this holds in every reachable state.
-/
import AlgorithmCollection.Conc.Positions
import AlgorithmCollection.Queue.CASLockFreeQueue

namespace AlgorithmCollection.CASLockFreeQueue

open Conc
open Function (update_of_ne)

/-! ## The shared invariant -/

/-- the `next` word pair of the node at position i of `L` -/
def succOf (L : List ℕ) (i : ℕ) : Pointer :=
  match L[i + 1]? with
  | some b => ⟨1, b⟩
  | none => ⟨0, NULL⟩

structure Inv (L : List ℕ) (m : Mem) : Prop where
  nodup : L.Nodup
  addr : ∀ a ∈ L, 0 < a ∧ a < m.fresh
  fresh : 0 < m.fresh
  next : ∀ i a, L[i]? = some a → (m.node a).next = succOf L i
  head : L[m.head.count]? = some m.head.ptr
  tail : L[m.tail.count]? = some m.tail.ptr
  head_le : m.head.count ≤ m.tail.count
  lag : L.length ≤ m.tail.count + 2

/-- what a step may do to what other threads rely on -/
structure Ext (L : List ℕ) (m : Mem) (L' : List ℕ) (m' : Mem) : Prop where
  grows : L <+: L'
  head : m.head.count ≤ m'.head.count
  tail : m.tail.count ≤ m'.tail.count
  fresh : m.fresh ≤ m'.fresh
  count : ∀ a ∈ L, (m.node a).next.count ≤ (m'.node a).next.count
  val : ∀ a ∈ L, (m'.node a).val = (m.node a).val
  /-- a node that is not linked is written by nobody but `create_node` -/
  private_ : ∀ a < m.fresh, a ∉ L' → m'.node a = m.node a

theorem Ext.refl (L : List ℕ) (m : Mem) : Ext L m L m :=
  ⟨List.prefix_refl _, le_rfl, le_rfl, le_rfl, fun _ _ => le_rfl, fun _ _ => rfl, fun _ _ _ => rfl⟩

variable {L : List ℕ} {l : Loc} {m : Mem} {i a n : ℕ} {v : ℤ} {head : Pointer}

theorem succOf_some {b : ℕ} (h : L[i + 1]? = some b) : succOf L i = ⟨1, b⟩ := by
  simp [succOf, h]

theorem succOf_none (h : L[i + 1]? = none) : succOf L i = ⟨0, NULL⟩ := by
  simp [succOf, h]

theorem succOf_ptr_ne (h : (succOf L i).ptr ≠ NULL) : L[i + 1]? = some (succOf L i).ptr := by
  cases hb : L[i + 1]? with
  | none => rw [succOf_none hb] at h; exact absurd rfl h
  | some b => rw [succOf_some hb]

theorem succOf_ptr (L : List ℕ) (i : ℕ) : (succOf L i).ptr = (L[i + 1]?).getD NULL := by
  cases hb : L[i + 1]? with
  | none => rw [succOf_none hb]; rfl
  | some b => rw [succOf_some hb]; rfl

/-- the last node is the one whose `next.ptr` is NULL -/
theorem Inv.last_of_null (h : Inv L m) (hi : L[i]? = some a)
    (hn : (m.node a).next.ptr = NULL) : i + 1 = L.length ∧ (m.node a).next = ⟨0, NULL⟩ := by
  have hlt : i < L.length := lt_of_get hi
  rw [h.next i a hi] at hn ⊢
  cases hb : L[i + 1]? with
  | none =>
    have := List.getElem?_eq_none_iff.1 hb
    exact ⟨by omega, succOf_none hb⟩
  | some b =>
    rw [succOf_some hb] at hn
    have := (h.addr b (mem_of_get hb)).1
    simp only [NULL] at hn; omega

/-! ## Local assertions -/

/-- the node `n` created by this `enq` is not linked and holds its value -/
def Own (L : List ℕ) (m : Mem) (v : ℤ) (n : ℕ) : Prop := n ∉ L ∧ 0 < n ∧ n < m.fresh ∧ m.node n = ⟨⟨0, NULL⟩, v⟩

/-- a copy of `q->tail`: if its count is still current it is not torn -/
def TailCopy (L : List ℕ) (m : Mem) (tail : Pointer) : Prop :=
  tail.ptr ∈ L ∧ tail.count ≤ m.tail.count ∧ (m.tail.count = tail.count → L[tail.count]? = some tail.ptr)

/-- a copy of `q->head`: if its count is still current it is not torn -/
def HeadCopy (L : List ℕ) (m : Mem) (head : Pointer) : Prop :=
  head.ptr ∈ L ∧ head.count ≤ m.head.count ∧ (m.head.count = head.count → L[head.count]? = some head.ptr)

/-- a copy of the `next` field of node a: a non-NULL pointer is the successor of a -/
def NextCopy (L : List ℕ) (a : ℕ) (next : Pointer) : Prop :=
  (next.ptr = NULL → next.count = 0) ∧ (next.ptr ≠ NULL → ∃ i, L[i]? = some a ∧ L[i + 1]? = some next.ptr)

/-- p is (or was) the tail node, at or after position c -/
def Ahead (L : List ℕ) (m : Mem) (c p : ℕ) : Prop := ∃ i, c ≤ i ∧ i ≤ m.tail.count ∧ L[i]? = some p

/-- what `deq` knows of its three copies once the count of its head copy is known to be current -/
def DeqRead (L : List ℕ) (m : Mem) (head tail next : Pointer) : Prop :=
  (next.ptr ≠ NULL → L[head.count + 1]? = some next.ptr) ∧
  (head.ptr ≠ tail.ptr → next.ptr ≠ NULL ∧ head.count + 1 ≤ m.tail.count)

def Asrt (L : List ℕ) (m : Mem) : Loc → Prop
  | .idle | .ret _ _ | .enq0 _ | .deq1 => True
  | .enq1 v n => Own L m v n
  | .enq2 v n c => Own L m v n ∧ c ≤ m.tail.count
  | .enq3 v n tail => Own L m v n ∧ TailCopy L m tail
  | .enq4 v n tail c => Own L m v n ∧ TailCopy L m tail ∧ c ≤ (m.node tail.ptr).next.count
  | .enq5 v n tail next => Own L m v n ∧ TailCopy L m tail ∧ NextCopy L tail.ptr next
  | .enq6 v n tail next =>
    Own L m v n ∧ L[tail.count]? = some tail.ptr ∧ tail.count ≤ m.tail.count ∧ NextCopy L tail.ptr next
  | .enq7 v n tail next =>
    Own L m v n ∧ L[tail.count]? = some tail.ptr ∧ tail.count ≤ m.tail.count ∧ next = ⟨0, NULL⟩
  | .enq8 v n tail next => Own L m v n ∧ L[tail.count]? = some tail.ptr ∧ L[tail.count + 1]? = some next.ptr
  | .enq9 _ n tail => L[tail.count]? = some tail.ptr ∧ L[tail.count + 1]? = some n
  | .deq2 c => c ≤ m.head.count
  | .deq3 head | .deq4 head _ => HeadCopy L m head
  | .deq5 head tail | .deq6 head tail _ =>
    HeadCopy L m head ∧ (m.head.count = head.count → Ahead L m head.count tail.ptr)
  | .deq7 head tail next => HeadCopy L m head ∧ (m.head.count = head.count → DeqRead L m head tail next)
  | .deq8 head tail next => L[head.count]? = some head.ptr ∧ DeqRead L m head tail next
  | .deq9 head tail next =>
    L[head.count]? = some head.ptr ∧ tail.ptr = head.ptr ∧ L[head.count + 1]? = some next.ptr
  | .deq10 head next =>
    L[head.count]? = some head.ptr ∧ L[head.count + 1]? = some next.ptr ∧ head.count + 1 ≤ m.tail.count
  | .deq11 head next v =>
    L[head.count]? = some head.ptr ∧ L[head.count + 1]? = some next.ptr ∧ head.count + 1 ≤ m.tail.count ∧
      (m.node next.ptr).val = v

/-- the node a thread has created and not linked yet -/
def owns : Loc → Option ℕ
  | .enq1 _ n | .enq2 _ n _ | .enq3 _ n _ | .enq4 _ n _ _ | .enq5 _ n _ _ | .enq6 _ n _ _ | .enq7 _ n _ _
  | .enq8 _ n _ _ => some n
  | _ => none

/-- different threads own different nodes -/
def Disj (l l' : Loc) : Prop := ∀ n, owns l = some n → owns l' ≠ some n

/-! ## Stability -/

section Stable

variable {L L' : List ℕ} {m m' : Mem}

variable (h : Ext L m L' m')

include h

theorem Own.stable (ho : Own L m v n) (hn : n ∉ L') : Own L' m' v n :=
  ⟨hn, ho.2.1, lt_of_lt_of_le ho.2.2.1 h.fresh, (h.private_ n ho.2.2.1 hn).trans ho.2.2.2⟩

theorem TailCopy.stable {tail : Pointer} (ht : TailCopy L m tail) : TailCopy L' m' tail := by
  refine ⟨h.grows.subset ht.1, ht.2.1.trans h.tail, fun e => ?_⟩
  exact get_of_extends h.grows (ht.2.2 (le_antisymm (e ▸ h.tail) ht.2.1))

theorem HeadCopy.stable (hh : HeadCopy L m head) : HeadCopy L' m' head := by
  refine ⟨h.grows.subset hh.1, hh.2.1.trans h.head, fun e => ?_⟩
  exact get_of_extends h.grows (hh.2.2 (le_antisymm (e ▸ h.head) hh.2.1))

/-- a head count that is still current after the step was current before it -/
theorem HeadCopy.current (hh : HeadCopy L m head)
    (e : m'.head.count = head.count) : m.head.count = head.count := le_antisymm (e ▸ h.head) hh.2.1

theorem NextCopy.stable {next : Pointer} (hn : NextCopy L a next) : NextCopy L' a next := by
  refine ⟨hn.1, fun e => ?_⟩
  obtain ⟨i, h1, h2⟩ := hn.2 e
  exact ⟨i, get_of_extends h.grows h1, get_of_extends h.grows h2⟩

theorem Ahead.stable {c p : ℕ} (ha : Ahead L m c p) : Ahead L' m' c p := by
  obtain ⟨i, h1, h2, h3⟩ := ha
  exact ⟨i, h1, h2.trans h.tail, get_of_extends h.grows h3⟩

theorem DeqRead.stable {tail next : Pointer} (hr : DeqRead L m head tail next) : DeqRead L' m' head tail next :=
  ⟨fun e => get_of_extends h.grows (hr.1 e), fun e => ⟨(hr.2 e).1, (hr.2 e).2.trans h.tail⟩⟩

/-- **Stability.** The assertion of a thread whose own node has not been linked is kept by every allowed step. -/
theorem Asrt.stable {l : Loc} (ha : Asrt L m l) (ho : ∀ n, owns l = some n → n ∉ L') : Asrt L' m' l := by
  have g := fun {i a : ℕ} (hi : L[i]? = some a) => get_of_extends h.grows hi
  cases l with
  | idle | ret _ _ | enq0 _ | deq1 => trivial
  | enq1 v n => exact Own.stable h ha (ho n rfl)
  | enq2 v n c => exact ⟨ha.1.stable h (ho n rfl), le_trans ha.2 h.tail⟩
  | enq3 v n tail => exact ⟨ha.1.stable h (ho n rfl), ha.2.stable h⟩
  | enq4 v n tail c => exact ⟨ha.1.stable h (ho n rfl), ha.2.1.stable h, ha.2.2.trans (h.count _ ha.2.1.1)⟩
  | enq5 v n tail next => exact ⟨ha.1.stable h (ho n rfl), ha.2.1.stable h, ha.2.2.stable h⟩
  | enq6 v n tail next =>
    exact ⟨ha.1.stable h (ho n rfl), g ha.2.1, ha.2.2.1.trans h.tail, ha.2.2.2.stable h⟩
  | enq7 v n tail next => exact ⟨ha.1.stable h (ho n rfl), g ha.2.1, ha.2.2.1.trans h.tail, ha.2.2.2⟩
  | enq8 v n tail next => exact ⟨ha.1.stable h (ho n rfl), g ha.2.1, g ha.2.2⟩
  | enq9 v n tail => exact ⟨g ha.1, g ha.2⟩
  | deq2 c => exact le_trans ha h.head
  | deq3 head | deq4 head c => exact HeadCopy.stable h ha
  | deq5 head tail | deq6 head tail c
  | deq7 head tail next => exact ⟨ha.1.stable h, fun e => (ha.2 (ha.1.current h e)).stable h⟩
  | deq8 head tail next => exact ⟨g ha.1, ha.2.stable h⟩
  | deq9 head tail next => exact ⟨g ha.1, ha.2.1, g ha.2.2⟩
  | deq10 head next => exact ⟨g ha.1, g ha.2.1, ha.2.2.trans h.tail⟩
  | deq11 head next v =>
    exact ⟨g ha.1, g ha.2.1, ha.2.2.1.trans h.tail, (h.val _ (mem_of_get ha.2.1)).trans ha.2.2.2⟩

end Stable

/-! ## The writes -/

section Writes

variable {L : List ℕ} {m : Mem}

variable (h : Inv L m)

include h

theorem Inv.not_mem_fresh : m.fresh ∉ L := fun hm => lt_irrefl _ (h.addr _ hm).2

theorem createNode_inv (v : ℤ) : Inv L (createNode m v) ∧ Ext L m L (createNode m v) := by
  have hne : ∀ a ∈ L, (createNode m v).node a = m.node a := by
    intro a ha
    have hf : a ≠ m.fresh := fun e => h.not_mem_fresh (e ▸ ha)
    exact update_of_ne hf _ _
  refine ⟨{ h with addr := ?_, fresh := Nat.succ_pos _, next := ?_ }, ⟨List.prefix_refl _, le_rfl, le_rfl, ?_, ?_, ?_, ?_⟩⟩
  · intro a ha; exact ⟨(h.addr a ha).1, Nat.lt_succ_of_lt (h.addr a ha).2⟩
  · intro i a hi; rw [hne a (mem_of_get hi)]; exact h.next i a hi
  · exact Nat.le_succ _
  · intro a ha; rw [hne a ha]
  · intro a ha; rw [hne a ha]
  · intro a ha _; exact update_of_ne ha.ne _ _

variable {p : ℕ}

/-- swinging the tail to the next node -/
theorem setTail_inv (hp : L[m.tail.count + 1]? = some p) :
    Inv L { m with tail := ⟨m.tail.count + 1, p⟩ } ∧ Ext L m L { m with tail := ⟨m.tail.count + 1, p⟩ } := by
  refine ⟨{ h with tail := hp, head_le := ?_, lag := ?_ }, ⟨List.prefix_refl _, le_rfl, ?_, le_rfl, fun _ _ => le_rfl,
    fun _ _ => rfl, fun _ _ _ => rfl⟩⟩
  · exact Nat.le_succ_of_le h.head_le
  · have := h.lag; simp only; omega
  · exact Nat.le_succ _

theorem casTail_inv (old : Pointer) {c : ℕ} (hc : L[old.count]? = some old.ptr → c = old.count + 1)
    (hp : L[c]? = some p) : Inv L (casTail m old ⟨c, p⟩) ∧ Ext L m L (casTail m old ⟨c, p⟩) := by
  unfold casTail
  split_ifs with e
  · subst e
    obtain rfl := hc h.tail
    exact setTail_inv h hp
  · exact ⟨h, Ext.refl _ _⟩

/-- advancing the head over a node that the tail has passed -/
theorem setHead_inv (hp : L[m.head.count + 1]? = some p) (hle : m.head.count + 1 ≤ m.tail.count) :
    Inv L (setHead m ⟨m.head.count + 1, p⟩) ∧ Ext L m L (setHead m ⟨m.head.count + 1, p⟩) :=
  ⟨{ h with head := hp, head_le := hle }, ⟨List.prefix_refl _, Nat.le_succ _, le_rfl, le_rfl, fun _ _ => le_rfl,
    fun _ _ => rfl, fun _ _ _ => rfl⟩⟩

/-- linking a private node behind the last node -/
theorem link_inv (ho : Own L m v n) {c : ℕ} (ha : L[c]? = some a)
    (hle : c ≤ m.tail.count) (hnull : (m.node a).next = ⟨0, NULL⟩) :
    Inv (L ++ [n]) (setNext m a ⟨1, n⟩) ∧ Ext L m (L ++ [n]) (setNext m a ⟨1, n⟩) := by
  have hlast : c + 1 = L.length := (h.last_of_null ha (by rw [hnull])).1
  have hne : ∀ b, b ≠ a → (setNext m a ⟨1, n⟩).node b = m.node b := fun b hb => update_of_ne hb _ _
  have hself : (setNext m a ⟨1, n⟩).node a = { m.node a with next := ⟨1, n⟩ } := Function.update_self _ _ _
  have hna : n ≠ a := fun e => ho.1 (e ▸ mem_of_get ha)
  refine ⟨⟨?_, ?_, h.fresh, ?_, get_of_extends (List.prefix_append _ _) h.head,
    get_of_extends (List.prefix_append _ _) h.tail, h.head_le, ?_⟩,
    ⟨List.prefix_append _ _, le_rfl, le_rfl, le_rfl, ?_, ?_, ?_⟩⟩
  · exact nodup_snoc h.nodup ho.1
  · intro b hb
    rcases List.mem_append.1 hb with hb | hb
    · exact h.addr b hb
    · rw [List.mem_singleton] at hb; subst hb; exact ⟨ho.2.1, ho.2.2.1⟩
  · -- the nodes before the last one keep their successor, the last one gets n, and n has none
    intro i b hi
    rcases Nat.lt_trichotomy i c with hic | hic | hic
    · have hi' : L[i]? = some b := by rwa [List.getElem?_append_left (by omega)] at hi
      have hba : b ≠ a := fun e => by
        subst e; have := pos_inj h.nodup hi' ha; omega
      rw [hne b hba, h.next i b hi']
      unfold succOf
      rw [List.getElem?_append_left (by omega)]
    · subst hic
      have hi' : L[i]? = some b := by rwa [List.getElem?_append_left (by omega)] at hi
      obtain rfl : a = b := by rw [ha] at hi'; exact Option.some.inj hi'
      rw [hself, succOf_some (b := n)]
      rw [List.getElem?_append_right (by omega), show i + 1 - L.length = 0 by omega]; rfl
    · have hlt : i < (L ++ [n]).length := lt_of_get hi
      simp only [List.length_append, List.length_singleton] at hlt
      obtain rfl : i = L.length := by omega
      obtain rfl : n = b := by simpa using hi
      rw [hne n hna, ho.2.2.2, succOf_none]
      simp
  · have h1 := lt_of_get h.tail
    simp only [List.length_append, List.length_singleton, setNext]; omega
  · intro b hb
    by_cases e : b = a
    · subst e; rw [hself, hnull]; exact Nat.zero_le _
    · rw [hne b e]
  · intro b hb
    by_cases e : b = a
    · subst e; rw [hself]
    · rw [hne b e]
  · intro b _ hb
    exact hne b fun e => hb (List.mem_append_left _ (e ▸ mem_of_get ha))

end Writes

/-! ## One step -/

/-- what one step of a thread from (m, l) to (m', l') guarantees, `L'` being the chain after it -/
structure Guar (L : List ℕ) (m : Mem) (l : Loc) (L' : List ℕ) (m' : Mem) (l' : Loc) : Prop where
  inv : Inv L' m'
  ext : Ext L m L' m'
  asrt : Asrt L' m' l'
  linked : ∀ n ∈ L', n ∉ L → owns l = some n
  owned : ∀ n, owns l' = some n → owns l = some n ∨ n = m.fresh

theorem Guar.load {k : Loc} (h : Inv L m) (ha : Asrt L m k)
    (ho : ∀ n, owns k = some n → owns l = some n) : Guar L m l L m k :=
  ⟨h, Ext.refl _ _, ha, fun _ => absurd, fun n hn => .inl (ho n hn)⟩

theorem Guar.write {m' : Mem} {k : Loc} (h : Inv L m' ∧ Ext L m L m') (ha : Asrt L m' k)
    (ho : ∀ n, owns k = some n → owns l = some n) : Guar L m l L m' k :=
  ⟨h.1, h.2, ha, fun _ => absurd, fun n hn => .inl (ho n hn)⟩

/-- what a step does to the chain and to the head: nothing, a private node is linked at the end, or the head advances
to the next node, whose value `deq` has read -/
def Effect (L : List ℕ) (m : Mem) (l : Loc) (L' : List ℕ) (m' : Mem) (a : Act) : Prop :=
  (L' = L ∧ m'.head = m.head ∧ linkEvent m l a = none ∧ takeEvent m l a = none) ∨
  (∃ v n, L' = L ++ [n] ∧ m'.head = m.head ∧ (m'.node n).val = v ∧ linkEvent m l a = some v ∧ takeEvent m l a = none) ∨
  (∃ v n, L' = L ∧ m'.head.count = m.head.count + 1 ∧ L[m.head.count + 1]? = some n ∧ (m.node n).val = v ∧
    linkEvent m l a = none ∧ takeEvent m l a = some v)

theorem casTail_head (m : Mem) (old new : Pointer) : (casTail m old new).head = m.head := by
  unfold casTail; split_ifs <;> rfl

theorem own_createNode (h : Inv L m) (v : ℤ) : Own L (createNode m v) v m.fresh :=
  ⟨h.not_mem_fresh, h.fresh, Nat.lt_succ_self _, Function.update_self _ _ _⟩

/-- the step of `enq` at each of its program points -/
theorem exec_enq (h : Inv L m) (ha : Asrt L m l) (hl : status l = .busy (.enq v)) :
    ∃ L', Guar L m l L' (exec m l).1 (exec m l).2 ∧ Effect L m l L' (exec m l).1 .step := by
  have tl : m.tail.ptr ∈ L := mem_of_get h.tail
  have same : ∀ m' : Mem, m'.head = m.head → linkEvent m l .step = none → takeEvent m l .step = none →
      Effect L m l L m' .step := fun m' h1 h2 h3 => .inl ⟨rfl, h1, h2, h3⟩
  cases l with
  | enq0 v =>
    refine ⟨L, ⟨(createNode_inv h v).1, (createNode_inv h v).2, own_createNode h v, fun _ => absurd,
      fun n hn => .inr ?_⟩, same _ rfl rfl rfl⟩
    cases hn; rfl
  | enq1 v n => exact ⟨L, Guar.load h ⟨ha, le_rfl⟩ fun _ => id, same _ rfl rfl rfl⟩
  | enq2 v n c =>
    -- if the count read before is still current, the pointer read now belongs to it
    refine ⟨L, Guar.load h ⟨ha.1, tl, ha.2, fun e => ?_⟩ fun _ => id, same _ rfl rfl rfl⟩
    have ht := h.tail; rw [e] at ht; exact ht
  | enq3 v n tail => exact ⟨L, Guar.load h ⟨ha.1, ha.2, le_rfl⟩ fun _ => id, same _ rfl rfl rfl⟩
  | enq4 v n tail c =>
    refine ⟨L, Guar.load h ⟨ha.1, ha.2.1, fun e => ?_, fun e => ?_⟩ fun _ => id, same _ rfl rfl rfl⟩
    · obtain ⟨i, hi⟩ := List.mem_iff_getElem?.1 ha.2.1.1
      have hc := ha.2.2
      rw [(h.last_of_null hi e).2] at hc
      exact Nat.le_zero.1 hc
    · obtain ⟨i, hi⟩ := List.mem_iff_getElem?.1 ha.2.1.1
      refine ⟨i, hi, ?_⟩
      simp only [h.next i _ hi] at e ⊢
      exact succOf_ptr_ne e
  | enq5 v n tail next =>
    refine ⟨L, ?_, same _ rfl rfl rfl⟩
    simp only [exec]
    split_ifs with e
    · exact Guar.load h ⟨ha.1, ha.2.1.2.2 e.symm, ha.2.1.2.1, ha.2.2⟩ fun _ => id
    · exact Guar.load h ha.1 fun _ => id
  | enq6 v n tail next =>
    refine ⟨L, ?_, same _ rfl rfl rfl⟩
    simp only [exec]
    split_ifs with e e'
    · refine Guar.load h ⟨ha.1, ha.2.1, ha.2.2.1, ?_⟩ fun _ => id
      have hc := ha.2.2.2.1 e'
      cases next; simp only at hc e'; rw [hc, e']
    · refine Guar.load h ⟨ha.1, ha.2.1, ?_⟩ fun _ => id
      obtain ⟨i, h1, h2⟩ := ha.2.2.2.2 e'
      rwa [pos_inj h.nodup h1 ha.2.1] at h2
    · exact Guar.load h ha.1 fun _ => id
  | enq7 v n tail next =>
    obtain ⟨ho, ht, hle, rfl⟩ := ha
    by_cases e : (m.node tail.ptr).next = ⟨0, NULL⟩
    · have hx : exec m (.enq7 v n tail ⟨0, NULL⟩) = (setNext m tail.ptr ⟨1, n⟩, .enq9 v n tail) := by
        simp only [exec, e, if_true]
      obtain ⟨hI, hE⟩ := link_inv h ho ht hle e
      have hlast := (h.last_of_null ht (by rw [e])).1
      have hn : (L ++ [n])[tail.count + 1]? = some n := by
        rw [hlast]; simp
      have hna : n ≠ tail.ptr := fun e' => ho.1 (e' ▸ mem_of_get ht)
      rw [hx]
      refine ⟨L ++ [n], ⟨hI, hE, ⟨get_of_extends hE.grows ht, hn⟩, ?_, ?_⟩, ?_⟩
      · intro k h1 h2
        rcases List.mem_append.1 h1 with h1 | h1
        · exact absurd h1 h2
        · rw [List.mem_singleton] at h1; subst h1; rfl
      · intro k hk; cases hk
      · refine .inr (.inl ⟨v, n, rfl, rfl, ?_, by simp [linkEvent, e], rfl⟩)
        show (Function.update m.node tail.ptr _ n).val = v
        rw [update_of_ne hna, ho.2.2.2]
    · have hx : exec m (.enq7 v n tail ⟨0, NULL⟩) = (m, .enq1 v n) := by simp only [exec, e, if_false]
      rw [hx]
      exact ⟨L, Guar.load h ho fun _ => id, same _ rfl (by simp [linkEvent, e]) rfl⟩
  | enq8 v n tail next =>
    have hw := casTail_inv h tail (fun _ => rfl) ha.2.2
    exact ⟨L, Guar.write hw (ha.1.stable hw.2 ha.1.1) fun _ => id, same _ (casTail_head _ _ _) rfl rfl⟩
  | enq9 v n tail =>
    have hw := casTail_inv h tail (fun _ => rfl) ha.2
    refine ⟨L, Guar.write hw trivial fun _ hn => ?_, same _ (casTail_head _ _ _) rfl rfl⟩
    cases hn
  | _ => cases hl

/-- the step of `deq` at each of its program points -/
theorem exec_deq (h : Inv L m) (ha : Asrt L m l) (hl : status l = .busy .deq) :
    ∃ L', Guar L m l L' (exec m l).1 (exec m l).2 ∧ Effect L m l L' (exec m l).1 .step := by
  have same : ∀ m' : Mem, m'.head = m.head → linkEvent m l .step = none → takeEvent m l .step = none →
      Effect L m l L m' .step := fun m' h1 h2 h3 => .inl ⟨rfl, h1, h2, h3⟩
  have nothing : ∀ n : ℕ, (none : Option ℕ) = some n → (none : Option ℕ) = some n := fun _ => id
  cases l with
  | deq1 => exact ⟨L, Guar.load h (k := .deq2 _) le_rfl nothing, same _ rfl rfl rfl⟩
  | deq2 c =>
    refine ⟨L, Guar.load h (k := .deq3 _) ⟨mem_of_get h.head, ha, fun e => ?_⟩ nothing, same _ rfl rfl rfl⟩
    have hh := h.head; rw [e] at hh; exact hh
  | deq3 head => exact ⟨L, Guar.load h (k := .deq4 _ _) ha nothing, same _ rfl rfl rfl⟩
  | deq4 head c =>
    -- the tail is at or behind the head while the head copy is current
    refine ⟨L, Guar.load h (k := .deq5 _ _) ⟨ha, fun e => ?_⟩ nothing, same _ rfl rfl rfl⟩
    exact ⟨m.tail.count, e ▸ h.head_le, le_rfl, h.tail⟩
  | deq5 head tail => exact ⟨L, Guar.load h (k := .deq6 _ _ _) ha nothing, same _ rfl rfl rfl⟩
  | deq6 head tail c =>
    refine ⟨L, Guar.load h (k := .deq7 _ _ _) ⟨ha.1, fun e => ?_⟩ nothing, same _ rfl rfl rfl⟩
    have hh := ha.1.2.2 e
    have hs := h.next _ _ hh
    obtain ⟨i, h1, h2, h3⟩ := ha.2 e
    refine ⟨fun hp => ?_, fun hne => ?_⟩
    · simp only [hs] at hp ⊢; exact succOf_ptr_ne hp
    · -- the tail copy is a later node than the head copy, so the head copy has a successor
      have hi : i ≠ head.count := by
        rintro rfl; rw [hh] at h3; exact hne (Option.some.inj h3)
      have hlt : i < L.length := lt_of_get h3
      refine ⟨?_, by omega⟩
      have hb : L[head.count + 1]? = some (L.get ⟨head.count + 1, by omega⟩) := List.getElem?_eq_getElem _
      simp only [hs, succOf_some hb]
      have := (h.addr _ (mem_of_get hb)).1
      simp only [NULL]; omega
  | deq7 head tail next =>
    refine ⟨L, ?_, same _ rfl rfl rfl⟩
    simp only [exec]
    split_ifs with e
    · exact Guar.load h (k := .deq8 _ _ _) ⟨ha.1.2.2 e.symm, ha.2 e.symm⟩ nothing
    · exact Guar.load h (k := .deq1) trivial nothing
  | deq8 head tail next =>
    refine ⟨L, ?_, same _ rfl rfl rfl⟩
    simp only [exec]
    split_ifs with e e' e''
    · exact Guar.load h (k := .ret _ _) trivial nothing
    · exact Guar.load h (k := .deq9 _ _ _) ⟨ha.1, e'.symm, ha.2.1 e''⟩ nothing
    · exact Guar.load h (k := .deq10 _ _) ⟨ha.1, ha.2.1 (ha.2.2 e').1, (ha.2.2 e').2⟩ nothing
    · exact Guar.load h (k := .deq1) trivial nothing
  | deq9 head tail next =>
    -- where this cas succeeds, the tail copy is not torn, so its count is the head's
    have hw := casTail_inv h tail (c := head.count + 1) (p := next.ptr) (fun ht => by
      rw [ha.2.1] at ht; rw [pos_inj h.nodup ha.1 ht]) ha.2.2
    exact ⟨L, Guar.write hw (k := .deq1) trivial nothing, same _ (casTail_head _ _ _) rfl rfl⟩
  | deq10 head next =>
    exact ⟨L, Guar.load h (k := .deq11 _ _ _) ⟨ha.1, ha.2.1, ha.2.2, rfl⟩ nothing, same _ rfl rfl rfl⟩
  | deq11 head next v =>
    by_cases e : m.head = head
    · subst e
      have hx : exec m (.deq11 m.head next v) = (setHead m ⟨m.head.count + 1, next.ptr⟩, .ret .deq (.deq (some v))) := by
        simp only [exec, if_true]
      rw [hx]
      refine ⟨L, Guar.write (setHead_inv h ha.2.1 ha.2.2.1) (k := .ret _ _) trivial nothing, ?_⟩
      exact .inr (.inr ⟨v, next.ptr, rfl, rfl, ha.2.1, ha.2.2.2, rfl, by simp [takeEvent]⟩)
    · have hx : exec m (.deq11 head next v) = (m, .deq1) := by simp only [exec, e, if_false]
      rw [hx]
      exact ⟨L, Guar.load h (k := .deq1) trivial nothing, same _ rfl rfl (by simp [takeEvent, e])⟩
  | _ => cases hl

/-- **One step**, whatever the action: the invariant, what the others rely on, and the effect on the chain -/
theorem step_guar (t : ℕ) (a : Act) (h : Inv L m) (ha : Asrt L m l) :
    ∃ L', Guar L m l L' (step t m l a).1 (step t m l a).2 ∧ Effect L m l L' (step t m l a).1 a := by
  have quiet : ∀ l', Asrt L m l' → (∀ n, owns l' = some n → owns l = some n) → linkEvent m l a = none →
      takeEvent m l a = none → ∃ L', Guar L m l L' m l' ∧ Effect L m l L' m a :=
    fun l' h1 h2 h3 h4 => ⟨L, Guar.load h h1 h2, .inl ⟨rfl, rfl, h3, h4⟩⟩
  cases a with
  | invoke op =>
    simp only [step]
    refine quiet _ ?_ ?_ rfl rfl
    · split_ifs
      · cases op <;> trivial
      · exact ha
    · split_ifs
      · intro n hn; cases op <;> cases hn
      · exact fun _ => id
  | oom =>
    simp only [step]
    split
    · exact quiet _ trivial nofun rfl rfl
    · exact quiet _ ha (fun _ => id) rfl rfl
  | step =>
    cases hs : status l with
    | idle | done op r =>
      cases l <;> cases hs
      exact quiet _ trivial (fun _ => id) rfl rfl
    | busy op =>
      cases op with
      | enq v => exact exec_enq h ha hs
      | deq => exact exec_deq h ha hs

/-! ## Every run -/

theorem inv_init : Inv [1] initQueue := by
  refine ⟨by simp, by simp [initQueue], by simp [initQueue], ?_, rfl, rfl, le_rfl, by simp [initQueue]⟩
  intro i a hi
  cases i with
  | zero => rfl
  | succ i => simp at hi

/-- an owned node is allocated and not linked -/
theorem Asrt.owned (h : Asrt L m l) (hn : owns l = some n) : n ∉ L ∧ n < m.fresh := by
  cases l <;> cases hn
  case enq1 => exact ⟨h.1, h.2.2.1⟩
  all_goals exact ⟨h.1.1, h.1.2.2.1⟩

/-- one step keeps the assertions of the other threads and the disjointness of private nodes -/
theorem Guar.others {L' : List ℕ} {t : ℕ} {a : Act}
    (hg : Guar L m l L' (step t m l a).1 (step t m l a).2) :
    Asrt L' (sys.step t m l a).1 (sys.step t m l a).2 ∧ ∀ u l2, u ≠ t → Asrt L m l2 → Disj l l2 → Disj l2 l →
      Asrt L' (sys.step t m l a).1 l2 ∧ Disj (sys.step t m l a).2 l2 ∧ Disj l2 (sys.step t m l a).2 := by
  refine ⟨hg.asrt, fun u l2 _ h2 hd hd' => ⟨h2.stable hg.ext fun n hn hL => ?_,
    Sys.owned_disj hg.owned hd fun _ hn => (h2.owned hn).2⟩⟩
  exact hd' n hn (hg.linked n hL (h2.owned hn).1)

theorem Guar.stepOk {L' : List ℕ} {t : ℕ} {a : Act}
    (hg : Guar L m l L' (step t m l a).1 (step t m l a).2) :
    Sys.StepOk sys Inv (fun L _ => Asrt L) Disj L t m l a := ⟨L', hg.inv, hg.others⟩

/-- **The invariant holds in every reachable state.** -/
theorem inv_run (ls : List (ℕ × Act)) : Sys.Good Inv (fun L _ => Asrt L) Disj (sys.run ls) := by
  refine Sys.run_inv sys _ _ _ ⟨[1], inv_init, fun _ => trivial⟩ nofun ?_ ls
  intro L t m l a h ha
  obtain ⟨L', hg, -⟩ := step_guar t a h ha
  exact hg.stepOk

end AlgorithmCollection.CASLockFreeQueue
