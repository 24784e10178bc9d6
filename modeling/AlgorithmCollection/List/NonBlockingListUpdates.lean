/-
What `NonBlockingList` preserves of the updates that returned true.

`search` clears the mark of every node it comes by, and `delete` passes whatever mark it finds as the expected value of the
cas that marks its node, so two deletes of one node can both go through: `delete_twice` is such a run of two threads.
`updates_preserved` is about the runs in which a delete is called only when no other call is in progress and no call
starts before it has returned; adds and finds may overlap in any way. In these runs the adds and deletes that returned true balance
up to the keys in the list, and a delete gives back what was added (`Preserved`). In the same runs a node that a delete has
marked keeps its mark and its link (`marks_permanent`); beside a delete a search clears it (`search_clears_mark`).

The invariant `Core` is a sorted chain of unmarked nodes, with the one exception of a node between the two cas of its
delete. Beside other adds, a thread in `search` knows a node below its key, which stays in the chain; a thread in `delete`
knows in addition that nothing moves (`Adjacent`).
-/
import AlgorithmCollection.List.NonBlockingList
import AlgorithmCollection.Conc.MapObject

namespace AlgorithmCollection.NonBlockingList

open Conc
open Function (update update_self update_of_ne update_eq_self comp_update)

variable {s : St Mem Loc} {c : Caller}

/-! ## The condition -/

def Caller.deletes : Caller → Bool
  | .add _ _ _ | .find _ => false
  | .delete _ | .again _ => true

/-- the thread is in `delete` -/
def deleting : Loc → Bool
  | .first c _ _ | .advance c _ _ _ _ | .unmark c _ _ _ | .load c _ _ _ | .test c _ _ _ _ | .adjacent c _ _ _
  | .snip c _ _ _ | .snipped c _ _ _ | .check c _ _ => c.deletes
  | .del1 _ _ _ | .del2 _ _ _ _ | .del3 _ _ _ _ | .del4 _ _ _ _ _ | .del5 _ _ _ _ _ | .del6 _ _ _ _ => true
  | _ => false

/-- action a is allowed beside a thread at o -/
def Allowed (_ : Mem) (_ : Loc) (a : Act) (o : Loc) : Prop :=
  match a with
  | .invoke (.delete _) => outside o = true
  | .invoke (.add _ _) | .invoke (.find _) => deleting o = false
  | .step => True

instance Allowed.decidable (m : Mem) (l : Loc) (a : Act) (o : Loc) : Decidable (Allowed m l a o) := by
  unfold Allowed; split <;> infer_instance

/-! ## Memory -/

section Memory

variable {m : Mem} {a : ℕ} {r : Ref}

theorem ref_setRef : ref (setRef m a r) = update (ref m) a r := comp_update Node.next m.node a _

theorem nx_setRef : nx (setRef m a r) = update (nx m) a r.ptr :=
  comp_update (fun n : Node => n.next.ptr) m.node a _

theorem mark_setRef : mark (setRef m a r) = update (mark m) a r.mark :=
  comp_update (fun n : Node => n.next.mark) m.node a _

theorem ky_setRef : ky (setRef m a r) = ky m :=
  (comp_update Node.key m.node a _).trans (update_eq_self a (ky m))

theorem vl_setRef : vl (setRef m a r) = vl m :=
  (comp_update Node.val m.node a _).trans (update_eq_self a (vl m))

/-- clearing the mark of an unmarked node changes nothing -/
theorem unmark_eq (h : mark m a = .UNMARKED) : setRef m a ⟨.UNMARKED, nx m a⟩ = m := by
  have e : (⟨.UNMARKED, nx m a⟩ : Ref) = (m.node a).next := by rw [← h]; rfl
  unfold setRef
  rw [e, update_eq_self]

end Memory

/-! ## Invariant -/

/-- a sorted chain over S, unmarked apart from x, whose pairs are those of the map M that the log replays to -/
structure Core (m : Mem) (S : Finset ℕ) (M : ℤ → Option ℤ) (x : Option ℕ) : Prop where
  chain : Chain (nx m) (ky m) head tail S
  low : ky m head = INT_MIN
  high : ky m tail = INT_MAX
  addr : ∀ a ∈ S, a ≠ NULL ∧ a < m.fresh
  marks : ∀ a ∈ S, mark m a = .UNMARKED ∨ x = some a
  rep : Rep ((S.erase head).erase tail) (ky m) (vl m) M
  log : Replays m.log M

/-- n is the new node of an `add`, which no other thread can reach -/
structure Own (m : Mem) (S : Finset ℕ) (k v : ℤ) (n : ℕ) : Prop where
  ne : n ≠ NULL
  lt : n < m.fresh
  notMem : n ∉ S
  key : ky m n = k
  val : vl m n = v

/-- a node of the chain below the key -/
structure Below (m : Mem) (S : Finset ℕ) (k : ℤ) (a : ℕ) : Prop where
  mem : a ∈ S
  ne : a ≠ tail
  lt : ky m a < k

def Caller.Ok (m : Mem) (S : Finset ℕ) : Caller → Prop
  | .add k v n => (INT_MIN < k ∧ k < INT_MAX) ∧ Own m S k v n
  | .delete k | .find k => INT_MIN < k ∧ k < INT_MAX
  | .again _ => False

/-- for a `delete`: q is the successor of p -/
def Adjacent (m : Mem) (c : Caller) (p q : ℕ) : Prop := c.deletes = true → nx m p = q

/-- `search` stands at curr, and pred is below the key -/
structure Found (m : Mem) (S : Finset ℕ) (c : Caller) (pred curr : ℕ) : Prop where
  below : Below m S c.key pred
  mem : curr ∈ S
  adjacent : Adjacent m c pred curr

/-- the node to be deleted, with its predecessor -/
structure Victim (m : Mem) (S : Finset ℕ) (k : ℤ) (pred curr : ℕ) : Prop where
  below : Below m S k pred
  next : nx m pred = curr
  ne : curr ≠ tail
  key : ky m curr = k

/-- what a thread knows at each of its points -/
def At (m : Mem) (S : Finset ℕ) (x : Option ℕ) : Loc → Prop
  | .idle | .ret _ => True
  | .create k _ => (INT_MIN < k ∧ k < INT_MAX) ∧ x = none
  | .first c _ _ => c.Ok m S ∧ x = none
  | .advance c _ _ t tn => (c.Ok m S ∧ x = none) ∧ Below m S c.key t ∧ tn ∈ S ∧ Adjacent m c t tn
  | .unmark c pred pn t => (c.Ok m S ∧ x = none) ∧ Found m S c pred t ∧ pn = t
  | .load c pred pn t => (c.Ok m S ∧ x = none) ∧ Found m S c pred t ∧ pn = t ∧ t ≠ tail
  | .test c pred pn t tn =>
    (c.Ok m S ∧ x = none) ∧ Found m S c pred t ∧ pn = t ∧ t ≠ tail ∧ tn ∈ S ∧ Adjacent m c t tn
  | .adjacent c pred pn curr => (c.Ok m S ∧ x = none) ∧ Found m S c pred curr ∧ pn = curr ∧ c.key ≤ ky m curr
  | .fill k v n pred curr =>
    (Own m S k v n ∧ x = none ∧ INT_MIN < k ∧ k < INT_MAX) ∧ Below m S k pred ∧ curr ∈ S ∧ k < ky m curr
  | .link k v n pred curr =>
    ((Own m S k v n ∧ x = none ∧ INT_MIN < k ∧ k < INT_MAX) ∧ Below m S k pred ∧ curr ∈ S ∧ k < ky m curr) ∧
      ref m n = ⟨.UNMARKED, curr⟩
  | .del1 k pred curr => Victim m S k pred curr ∧ x = none
  | .del2 k pred curr cn | .del3 k pred curr cn => (Victim m S k pred curr ∧ x = none) ∧ cn = nx m curr
  | .del4 k pred curr cn np => (Victim m S k pred curr ∧ x = none) ∧ cn = nx m curr ∧ np = nx m curr
  | .del5 k pred curr cn old => (Victim m S k pred curr ∧ x = none) ∧ cn = nx m curr ∧ old = ref m curr
  | .del6 k pred curr cn => (Victim m S k pred curr ∧ x = some curr) ∧ cn = nx m curr
  | _ => False

/-- the new node of a thread -/
def Caller.newNode : Caller → Option ℕ
  | .add _ _ n => some n
  | _ => none

def newNode : Loc → Option ℕ
  | .first c _ _ | .advance c _ _ _ _ | .unmark c _ _ _ | .load c _ _ _ | .test c _ _ _ _ | .adjacent c _ _ _
  | .snip c _ _ _ | .snipped c _ _ _ | .check c _ _ => c.newNode
  | .fill _ _ n _ _ | .link _ _ n _ _ => some n
  | _ => none

/-! ## What a step of an `add` leaves to the others -/

/-- m', S' come after a step of a thread that may link its new node `own` and does not delete -/
structure Later (m : Mem) (S : Finset ℕ) (m' : Mem) (S' : Finset ℕ) (own : Option ℕ) : Prop where
  sub : S ⊆ S'
  new : ∀ a ∈ S', a ∉ S → own = some a
  fresh : m.fresh ≤ m'.fresh
  key : ∀ a < m.fresh, ky m' a = ky m a
  val : ∀ a < m.fresh, vl m' a = vl m a
  ref : ∀ a < m.fresh, a ∉ S → own ≠ some a → ref m' a = ref m a

namespace Later

variable {m m' : Mem} {S S' : Finset ℕ} {own : Option ℕ} {k v : ℤ} {a n : ℕ}

protected theorem refl (m : Mem) (S : Finset ℕ) (own : Option ℕ) : Later m S m S own :=
  ⟨fun _ h => h, fun _ => absurd, le_rfl, fun _ _ => rfl, fun _ _ => rfl, fun _ _ _ _ => rfl⟩

variable (h : Later m S m' S' own)

include h

theorem keeps_own (ho : Own m S k v n) (hn : own ≠ some n) : Own m' S' k v n where
  ne := ho.ne
  lt := ho.lt.trans_le h.fresh
  notMem hm := hn (h.new n hm ho.notMem)
  key := by rw [h.key n ho.lt]; exact ho.key
  val := by rw [h.val n ho.lt]; exact ho.val

theorem below (hS : ∀ a ∈ S, a < m.fresh) (hb : Below m S k a) : Below m' S' k a :=
  ⟨h.sub hb.mem, hb.ne, by rw [h.key a (hS a hb.mem)]; exact hb.lt⟩

theorem caller (hc : c.Ok m S) (hd : c.deletes = false) (hn : ∀ n, c.newNode = some n → own ≠ some n) : c.Ok m' S' := by
  cases c with
  | add k v n => exact ⟨hc.1, h.keeps_own hc.2 (hn n rfl)⟩
  | find k => exact hc
  | delete k | again k => cases hd

theorem found (hS : ∀ a ∈ S, a < m.fresh) {pred curr : ℕ}
    (hf : Found m S c pred curr) (hd : c.deletes = false) : Found m' S' c pred curr :=
  ⟨h.below hS hf.below, h.sub hf.mem, fun e => by rw [hd] at e; cases e⟩

/-- the assertion of another thread that does not delete is stable -/
theorem stable (hS : ∀ a ∈ S, a < m.fresh) {x : Option ℕ} {l : Loc} (hl : At m S x l)
    (hd : deleting l = false) (hn : ∀ n, newNode l = some n → own ≠ some n) : At m' S' x l := by
  cases l with
  | idle | ret r => trivial
  | create k v => exact hl
  | first c pred pn => exact ⟨h.caller hl.1 hd hn, hl.2⟩
  | advance c pred pn t tn =>
    obtain ⟨⟨hc, hx⟩, hb, ht, -⟩ := hl
    exact ⟨⟨h.caller hc hd hn, hx⟩, h.below hS hb, h.sub ht, fun e => by rw [show c.deletes = false from hd] at e; cases e⟩
  | unmark c pred pn t | load c pred pn t => exact ⟨⟨h.caller hl.1.1 hd hn, hl.1.2⟩, h.found hS hl.2.1 hd, hl.2.2⟩
  | test c pred pn t tn =>
    obtain ⟨⟨hc, hx⟩, hf, hp, ht, htn, -⟩ := hl
    exact ⟨⟨h.caller hc hd hn, hx⟩, h.found hS hf hd, hp, ht, h.sub htn,
      fun e => by rw [show c.deletes = false from hd] at e; cases e⟩
  | adjacent c pred pn curr =>
    obtain ⟨⟨hc, hx⟩, hf, hp, hk⟩ := hl
    refine ⟨⟨h.caller hc hd hn, hx⟩, h.found hS hf hd, hp, ?_⟩
    rw [h.key curr (hS curr hf.mem)]; exact hk
  | fill k v n pred curr =>
    obtain ⟨⟨ho, hx⟩, hb, hm, hk⟩ := hl
    refine ⟨⟨h.keeps_own ho (hn n rfl), hx⟩, h.below hS hb, h.sub hm, ?_⟩
    rw [h.key curr (hS curr hm)]; exact hk
  | link k v n pred curr =>
    obtain ⟨⟨⟨ho, hx⟩, hb, hm, hk⟩, hr⟩ := hl
    refine ⟨⟨⟨h.keeps_own ho (hn n rfl), hx⟩, h.below hS hb, h.sub hm, ?_⟩, ?_⟩
    · rw [h.key curr (hS curr hm)]; exact hk
    · rw [h.ref n ho.lt ho.notMem (hn n rfl)]; exact hr
  | _ => first | exact hl.elim | cases hd

end Later

/-! ## The steps that change the memory -/

namespace Victim

variable {m : Mem} {S : Finset ℕ} {M : ℤ → Option ℤ} {x : Option ℕ} {k : ℤ} {pred curr : ℕ}

theorem mem (hv : Victim m S k pred curr) (h : Core m S M x) : curr ∈ S := by
  rw [← hv.next]; exact h.chain.next_mem _ hv.below.mem hv.below.ne

theorem pred_ne (hv : Victim m S k pred curr) : pred ≠ curr := by
  rintro rfl; exact absurd hv.below.lt (by rw [hv.key]; exact lt_irrefl _)

end Victim

namespace Core

variable {m : Mem} {S : Finset ℕ} {M : ℤ → Option ℤ} {x : Option ℕ} {k v : ℤ} {n pred curr : ℕ}

theorem head_ne_tail : head ≠ tail := by decide

/-- with no node between the two cas of its delete, all nodes are unmarked -/
theorem unmarked (h : Core m S M none) {a : ℕ} (ha : a ∈ S) : mark m a = .UNMARKED :=
  (h.marks a ha).resolve_right nofun

theorem create (h : Core m S M x) (k v : ℤ) (own : Option ℕ) :
    Core (createNode m k v) S M x ∧ Later m S (createNode m k v) S own ∧ Own (createNode m k v) S k v m.fresh := by
  have hne : ∀ a < m.fresh, (createNode m k v).node a = m.node a := fun a ha => update_of_ne ha.ne ..
  have hk : ∀ a < m.fresh, ky (createNode m k v) a = ky m a := fun a ha => by unfold ky; rw [hne a ha]
  have hv : ∀ a < m.fresh, vl (createNode m k v) a = vl m a := fun a ha => by unfold vl; rw [hne a ha]
  have hr : ∀ a < m.fresh, ref (createNode m k v) a = ref m a := fun a ha => by unfold ref; rw [hne a ha]
  have hlt : ∀ a ∈ S, a < m.fresh := fun a ha => (h.addr a ha).2
  have hD : ∀ a ∈ (S.erase head).erase tail, a < m.fresh := fun a ha =>
    hlt a (Finset.mem_of_mem_erase (Finset.mem_of_mem_erase ha))
  refine ⟨⟨?_, ?_, ?_, fun a ha => ?_, fun a ha => ?_, ?_, h.log⟩,
    ⟨fun _ h => h, fun _ => absurd, Nat.le_succ _, hk, hv, fun a ha _ _ => hr a ha⟩, ?_⟩
  · exact h.chain.congr (fun a ha _ => by unfold nx; rw [hr a (hlt a ha)]) fun a ha => hk a (hlt a ha)
  · rw [hk head (hlt _ h.chain.head_mem)]; exact h.low
  · rw [hk tail (hlt _ h.chain.tail_mem)]; exact h.high
  · exact (h.addr a ha).imp_right Nat.lt_succ_of_lt
  · unfold mark; rw [hr a (hlt a ha)]; exact h.marks a ha
  · exact h.rep.congr (fun a ha => hk a (hD a ha)) fun a ha => hv a (hD a ha)
  · refine ⟨?_, Nat.lt_succ_self _, fun hm => lt_irrefl _ (hlt _ hm), ?_, ?_⟩
    · have := hlt _ h.chain.head_mem
      unfold head at this; unfold NULL; omega
    · simp [ky, createNode]
    · simp [vl, createNode]

/-- a new node that is not yet linked is written -/
theorem fill (h : Core m S M x) (hn : n ∉ S) (r : Ref) : Core (setRef m n r) S M x ∧ Later m S (setRef m n r) S (some n) := by
  have hne : ∀ a ∈ S, a ≠ n := fun a ha e => hn (e ▸ ha)
  refine ⟨⟨?_, by rw [ky_setRef]; exact h.low, by rw [ky_setRef]; exact h.high, h.addr, fun a ha => ?_, ?_, h.log⟩,
    ⟨fun _ h => h, fun _ => absurd, le_rfl, fun a _ => by rw [ky_setRef], fun a _ => by rw [vl_setRef],
      fun a _ _ ha => ?_⟩⟩
  · exact h.chain.congr (fun a ha _ => by rw [nx_setRef, update_of_ne (hne a ha)]) fun a _ => by rw [ky_setRef]
  · rw [mark_setRef, update_of_ne (hne a ha)]; exact h.marks a ha
  · rw [ky_setRef, vl_setRef]; exact h.rep
  · rw [ref_setRef, update_of_ne fun e => ha (by rw [e])]

/-- the cas of `add` -/
theorem link (h : Core m S M none) (ho : Own m S k v n) (hb : Below m S k pred) (hk : k < ky m curr)
    (hn : ref m n = ⟨.UNMARKED, curr⟩) (hp : ref m pred = ⟨.UNMARKED, curr⟩) :
    Core (record (setRef m pred ⟨.UNMARKED, n⟩) (.add k v)) (insert n S) (update M k (some v)) none ∧
      Later m S (record (setRef m pred ⟨.UNMARKED, n⟩) (.add k v)) (insert n S) (some n) := by
  have hnp : n ≠ pred := fun e => ho.notMem (e ▸ hb.mem)
  have hnh : n ≠ head := fun e => ho.notMem (e ▸ h.chain.head_mem)
  have hnt : n ≠ tail := fun e => ho.notMem (e ▸ h.chain.tail_mem)
  have hpn : nx m pred = curr := congrArg Ref.ptr hp
  have hnn : nx m n = curr := congrArg Ref.ptr hn
  have hkn : ky m n = k := ho.key
  have hkc : ky m n < ky m (nx m pred) := by rw [hpn, hkn]; exact hk
  have habs : ∀ a ∈ S, ky m a ≠ ky m n := fun a ha =>
    h.chain.not_between hb.mem hb.ne (by rw [hkn]; exact hb.lt) hkc ha
  have hD : ((insert n S).erase head).erase tail = insert n ((S.erase head).erase tail) := by
    rw [Finset.erase_insert_of_ne hnh, Finset.erase_insert_of_ne hnt]
  have hrep := h.rep.insert (n := n) fun a ha => habs a (Finset.mem_of_mem_erase (Finset.mem_of_mem_erase ha))
  rw [hkn, ho.val] at hrep
  refine ⟨⟨?_, ?_, ?_, fun a ha => ?_, fun a ha => .inl ?_, ?_, ?_⟩,
    ⟨Finset.subset_insert _ _, fun a ha ha' => ?_, le_rfl, fun a _ => ?_, fun a _ => ?_, fun a _ ha _ => ?_⟩⟩
  · change Chain (nx (setRef m pred ⟨.UNMARKED, n⟩)) (ky (setRef m pred ⟨.UNMARKED, n⟩)) head tail (insert n S)
    rw [nx_setRef, ky_setRef]
    refine h.chain.insert hb.mem hb.ne (by rw [hkn]; exact hb.lt) hkc (update_self ..) ?_
      fun a _ ha _ => update_of_ne ha ..
    rw [update_of_ne hnp, hnn, hpn]
  · change ky (setRef m pred _) head = _; rw [ky_setRef]; exact h.low
  · change ky (setRef m pred _) tail = _; rw [ky_setRef]; exact h.high
  · rcases Finset.mem_insert.1 ha with rfl | ha
    · exact ⟨ho.ne, ho.lt⟩
    · exact h.addr a ha
  · change mark (setRef m pred ⟨.UNMARKED, n⟩) a = _
    rw [mark_setRef]
    by_cases e : a = pred
    · rw [e, update_self]
    · rw [update_of_ne e]
      rcases Finset.mem_insert.1 ha with rfl | ha
      · exact congrArg Ref.mark hn
      · exact h.unmarked ha
  · change Rep _ (ky (setRef m pred _)) (vl (setRef m pred _)) _
    rw [ky_setRef, vl_setRef, hD]
    exact hrep
  · refine h.log.add v (h.rep.absent fun a ha => ?_)
    rw [← hkn]
    exact habs a (Finset.mem_of_mem_erase (Finset.mem_of_mem_erase ha))
  · rw [(Finset.mem_insert.1 ha).resolve_right ha']
  · change ky (setRef m pred _) a = _; rw [ky_setRef]
  · change vl (setRef m pred _) a = _; rw [vl_setRef]
  · change ref (setRef m pred _) a = _
    rw [ref_setRef, update_of_ne]
    rintro rfl; exact ha hb.mem

/-- the first cas of `delete` -/
theorem marked (h : Core m S M none) (curr : ℕ) : Core (setRef m curr ⟨.MARKED, nx m curr⟩) S M (some curr) := by
  have hnx : nx (setRef m curr ⟨.MARKED, nx m curr⟩) = nx m := by rw [nx_setRef, update_eq_self]
  refine ⟨?_, by rw [ky_setRef]; exact h.low, by rw [ky_setRef]; exact h.high, h.addr, fun a ha => ?_, ?_, h.log⟩
  · rw [hnx, ky_setRef]; exact h.chain
  · by_cases e : a = curr
    · exact .inr (by rw [e])
    · rw [mark_setRef, update_of_ne e]; exact .inl (h.unmarked ha)
  · rw [ky_setRef, vl_setRef]; exact h.rep

/-- the second cas of `delete` -/
theorem unlink (h : Core m S M (some curr)) (hv : Victim m S k pred curr) :
    Core (record (setRef m pred ⟨.UNMARKED, nx m curr⟩) (.delete k (vl m curr))) (S.erase curr) (update M k none)
      none := by
  have hcm := hv.mem h
  have hch : curr ≠ head := by rw [← hv.next]; exact h.chain.next_ne_head hv.below.mem hv.below.ne
  have hcD : curr ∈ (S.erase head).erase tail :=
    Finset.mem_erase.2 ⟨hv.ne, Finset.mem_erase.2 ⟨hch, hcm⟩⟩
  have hD : ((S.erase curr).erase head).erase tail = ((S.erase head).erase tail).erase curr := by
    rw [Finset.erase_right_comm (a := curr), Finset.erase_right_comm (a := curr)]
  have hrep := h.rep.erase (c := curr) fun a ha e =>
    h.chain.inj a (Finset.mem_of_mem_erase (Finset.mem_of_mem_erase ha)) curr hcm e
  rw [hv.key] at hrep
  refine ⟨?_, ?_, ?_, fun a ha => h.addr a (Finset.mem_of_mem_erase ha), fun a ha => .inl ?_, ?_, ?_⟩
  · change Chain (nx (setRef m pred ⟨.UNMARKED, nx m curr⟩)) (ky (setRef m pred ⟨.UNMARKED, nx m curr⟩)) head tail (S.erase curr)
    rw [nx_setRef, ky_setRef, ← hv.next]
    refine h.chain.erase hv.below.mem hv.below.ne (by rw [hv.next]; exact hv.ne) (update_self ..)
      fun a _ ha _ => update_of_ne ha ..
  · change ky (setRef m pred _) head = _; rw [ky_setRef]; exact h.low
  · change ky (setRef m pred _) tail = _; rw [ky_setRef]; exact h.high
  · change mark (setRef m pred ⟨.UNMARKED, nx m curr⟩) a = _
    rw [mark_setRef]
    by_cases e : a = pred
    · rw [e, update_self]
    · rw [update_of_ne e]
      exact (h.marks a (Finset.mem_of_mem_erase ha)).resolve_right
        fun e' => (Finset.ne_of_mem_erase ha) (Option.some.inj e').symm
  · change Rep _ (ky (setRef m pred _)) (vl (setRef m pred _)) _
    rw [ky_setRef, vl_setRef, hD]
    exact hrep
  · refine h.log.delete ?_
    rw [← hv.key]
    exact h.rep.holds hcD

end Core

/-! ## One step of a thread -/

/-- what is known after a step of a thread from l -/
structure Stepped (m : Mem) (S : Finset ℕ) (x : Option ℕ) (l : Loc) (y : Mem × Loc) (S' : Finset ℕ) (M' : ℤ → Option ℤ)
    (x' : Option ℕ) : Prop where
  core : Core y.1 S' M' x'
  own : At y.1 S' x' y.2
  later : deleting l = false → Later m S y.1 S' (newNode l) ∧ x' = x
  mode : deleting y.2 = true → deleting l = true
  marked : x' = none ∨ deleting y.2 = true
  new : ∀ n, newNode y.2 = some n → newNode l = some n ∨ n = m.fresh
  kept : deleting l = true → m.fresh ≤ y.1.fresh ∧
    ∀ a, a ∉ S ∨ x = some a → ref y.1 a = ref m a ∧ (a ∉ S' ∨ x' = some a)

section Steps

variable {m : Mem} {S : Finset ℕ} {M : ℤ → Option ℤ} {x : Option ℕ} {l l' : Loc}

/-- a step that only reads and stays in its call -/
theorem Stepped.read (h : Core m S M none) (hl : At m S none l') (hd : deleting l' = deleting l)
    (hn : newNode l' = newNode l) : Stepped m S none l (m, l') S M none :=
  ⟨h, hl, fun _ => ⟨Later.refl _ _ _, rfl⟩, fun e => by rw [← hd]; exact e, .inl rfl,
    fun n e => .inl (by rw [← hn]; exact e), fun _ => ⟨le_rfl, fun _ ha => ⟨rfl, ha⟩⟩⟩

/-- a step that only reads and returns -/
theorem Stepped.ret (h : Core m S M none) (r : Res) : Stepped m S none l (m, .ret r) S M none :=
  ⟨h, trivial, fun _ => ⟨Later.refl _ _ _, rfl⟩, nofun, .inl rfl, nofun, fun _ => ⟨le_rfl, fun _ ha => ⟨rfl, ha⟩⟩⟩

/-- `search` returns -/
theorem Stepped.next {pred curr : ℕ} (h : Core m S M none) (hc : c.Ok m S) (hf : Found m S c pred curr)
    (hk : c.key ≤ ky m curr) (hd : c.deletes = deleting l) (hn : c.newNode = newNode l) :
    Stepped m S none l (c.next m pred curr) S M none := by
  cases c with
  | add k v n =>
    have hlt : ky m pred < k := hf.below.lt
    have hcond : ky m pred < k ∧ k ≤ ky m curr := ⟨hlt, hk⟩
    simp only [Caller.next, if_pos hcond]
    split
    · exact .ret h _
    · rename_i hne
      refine .read h ⟨⟨hc.2, rfl, hc.1⟩, hf.below, hf.mem, ?_⟩ hd hn
      -- tail is above every key, and another node has another key
      refine lt_of_le_of_ne hk fun e => ?_
      by_cases ht : curr = tail
      · rw [ht, h.high] at e
        exact absurd hc.1.2 (not_lt.2 e.ge)
      · exact hne ⟨ht, e.symm⟩
  | delete k =>
    have hlt : ky m pred < k := hf.below.lt
    have hcond : ky m pred < k ∧ k ≤ ky m curr := ⟨hlt, hk⟩
    simp only [Caller.next, if_pos hcond]
    split
    · exact .ret h _
    · rename_i hne
      rw [not_or, not_not] at hne
      exact .read h ⟨⟨hf.below, hf.adjacent rfl, hne.1, hne.2⟩, rfl⟩ hd hn
  | find k => exact .ret h _
  | again k => exact hc.elim

/-- **One step** of a thread that is in a call. -/
theorem exec_step (h : Core m S M x) (hl : At m S x l) (ho : outside l = false) :
    ∃ S' M' x', Stepped m S x l (exec m l) S' M' x' := by
  cases l with
  | idle | ret r => cases ho
  | create k v =>
    obtain ⟨hk, rfl⟩ := hl
    obtain ⟨h1, h2, h3⟩ := h.create k v none
    exact ⟨S, M, none, h1, ⟨⟨hk, h3⟩, rfl⟩, fun _ => ⟨h2, rfl⟩, nofun, .inl rfl,
      fun n e => .inr (Option.some.inj e).symm, nofun⟩
  | first c pred pn =>
    obtain ⟨hc, rfl⟩ := hl
    have hlow : ky m head < c.key := by
      rw [h.low]
      cases c with
      | add k v n => exact hc.1.1
      | delete k | find k => exact hc.1
      | again k => exact hc.elim
    refine ⟨S, M, none, .read h ⟨⟨hc, rfl⟩, ⟨h.chain.head_mem, Core.head_ne_tail, hlow⟩, ?_, fun _ => rfl⟩ rfl rfl⟩
    exact h.chain.next_mem _ h.chain.head_mem Core.head_ne_tail
  | advance c pred pn t tn =>
    obtain ⟨⟨hc, rfl⟩, hb, ht, ha⟩ := hl
    simp only [exec, if_neg (h.addr tn ht).1, h.unmarked ht]
    exact ⟨S, M, none, .read h ⟨⟨hc, rfl⟩, ⟨hb, ht, ha⟩, rfl⟩ rfl rfl⟩
  | unmark c pred pn t =>
    obtain ⟨⟨hc, rfl⟩, hf, rfl⟩ := hl
    simp only [exec, unmark_eq (h.unmarked hf.mem)]
    split
    · rename_i e
      refine ⟨S, M, none, .read h ⟨⟨hc, rfl⟩, hf, rfl, ?_⟩ rfl rfl⟩
      -- every key is below that of tail
      rw [e, h.high]
      cases c with
      | add k v n => exact hc.1.2.le
      | delete k | find k => exact hc.2.le
      | again k => exact hc.elim
    · rename_i e
      exact ⟨S, M, none, .read h ⟨⟨hc, rfl⟩, hf, rfl, e⟩ rfl rfl⟩
  | load c pred pn t =>
    obtain ⟨⟨hc, rfl⟩, hf, rfl, ht⟩ := hl
    exact ⟨S, M, none, .read h ⟨⟨hc, rfl⟩, hf, rfl, ht, h.chain.next_mem _ hf.mem ht, fun _ => rfl⟩ rfl rfl⟩
  | test c pred pn t tn =>
    obtain ⟨⟨hc, rfl⟩, hf, rfl, ht, htn, ha⟩ := hl
    simp only [exec]
    split
    · rename_i hlt
      exact ⟨S, M, none, .read h ⟨⟨hc, rfl⟩, ⟨hf.mem, ht, hlt⟩, htn, ha⟩ rfl rfl⟩
    · rename_i hge
      simp only [if_neg (h.addr tn htn).1, h.unmarked htn]
      exact ⟨S, M, none, .read h ⟨⟨hc, rfl⟩, hf, rfl, not_lt.1 hge⟩ rfl rfl⟩
  | adjacent c pred pn curr =>
    obtain ⟨⟨hc, rfl⟩, hf, rfl, hk⟩ := hl
    simp only [exec, if_true, h.unmarked hf.mem, reduceCtorEq, and_false, if_false]
    exact ⟨S, M, none, .next h hc hf hk rfl rfl⟩
  | fill k v n pred curr =>
    obtain ⟨⟨ho, rfl, hk⟩, hb, hm, hlt⟩ := hl
    obtain ⟨h1, h2⟩ := h.fill ho.notMem ⟨.UNMARKED, curr⟩
    refine ⟨S, M, none, h1, ⟨⟨⟨⟨ho.ne, ho.lt, ho.notMem, ?_, ?_⟩, rfl, hk⟩, ⟨hb.mem, hb.ne, ?_⟩, hm, ?_⟩, ?_⟩,
      fun _ => ⟨h2, rfl⟩, nofun, .inl rfl, fun _ e => .inl e, nofun⟩
    · simp only [exec, ky_setRef]; exact ho.key
    · simp only [exec, vl_setRef]; exact ho.val
    · simp only [exec, ky_setRef]; exact hb.lt
    · simp only [exec, ky_setRef]; exact hlt
    · simp only [exec, ref_setRef, update_self]
  | link k v n pred curr =>
    obtain ⟨⟨⟨ho, rfl, hk⟩, hb, hm, hlt⟩, hr⟩ := hl
    simp only [exec, cas]
    by_cases hp : ref m pred = ⟨.UNMARKED, curr⟩
    · rw [if_pos hp]
      obtain ⟨h1, h2⟩ := h.link ho hb hlt hr hp
      exact ⟨_, _, none, h1, trivial, fun _ => ⟨h2, rfl⟩, nofun, .inl rfl, nofun, nofun⟩
    · rw [if_neg hp]
      exact ⟨S, M, none, .read h ⟨⟨hk, ho⟩, rfl⟩ rfl rfl⟩
  | del1 k pred curr =>
    obtain ⟨hv, rfl⟩ := hl
    exact ⟨S, M, none, .read h ⟨⟨hv, rfl⟩, rfl⟩ rfl rfl⟩
  | del2 k pred curr cn =>
    obtain ⟨⟨hv, rfl⟩, rfl⟩ := hl
    have hcn := h.chain.next_mem curr (hv.mem h) hv.ne
    simp only [exec, if_neg (h.addr _ hcn).1, h.unmarked hcn]
    exact ⟨S, M, none, .read h ⟨⟨hv, rfl⟩, rfl⟩ rfl rfl⟩
  | del3 k pred curr cn =>
    obtain ⟨⟨hv, rfl⟩, rfl⟩ := hl
    exact ⟨S, M, none, .read h ⟨⟨hv, rfl⟩, rfl, rfl⟩ rfl rfl⟩
  | del4 k pred curr cn np =>
    obtain ⟨⟨hv, rfl⟩, rfl, rfl⟩ := hl
    exact ⟨S, M, none, .read h ⟨⟨hv, rfl⟩, rfl, rfl⟩ rfl rfl⟩
  | del5 k pred curr cn old =>
    obtain ⟨⟨hv, rfl⟩, rfl, rfl⟩ := hl
    have hpc := hv.pred_ne
    simp only [exec, cas, if_true]
    refine ⟨S, M, some curr, h.marked curr, ⟨⟨⟨⟨hv.below.mem, hv.below.ne, ?_⟩, ?_, hv.ne, ?_⟩, rfl⟩, ?_⟩,
      nofun, fun _ => rfl, .inr rfl, nofun, fun _ => ⟨le_rfl, fun a ha => ⟨?_, .inl (ha.resolve_right nofun)⟩⟩⟩
    · rw [ky_setRef]; exact hv.below.lt
    · rw [nx_setRef, update_of_ne hpc]; exact hv.next
    · rw [ky_setRef]; exact hv.key
    · rw [nx_setRef, update_self]; rfl
    · rw [ref_setRef, update_of_ne (by rintro rfl; exact ha.resolve_right nofun (hv.mem h))]
  | del6 k pred curr cn =>
    obtain ⟨⟨hv, rfl⟩, rfl⟩ := hl
    have hpc := hv.pred_ne
    have hp : ref m pred = ⟨.UNMARKED, curr⟩ :=
      congrArg₂ Ref.mk ((h.marks pred hv.below.mem).resolve_right fun e => hpc (Option.some.inj e).symm) hv.next
    simp only [exec, cas, if_pos hp]
    refine ⟨_, _, none, h.unlink hv, trivial, nofun, nofun, .inl rfl, nofun, fun _ => ⟨le_rfl, fun a ha => ⟨?_, .inl ?_⟩⟩⟩
    · change ref (setRef m pred _) a = ref m a
      rw [ref_setRef, update_of_ne]
      rintro rfl
      exact ha.elim (absurd hv.below.mem) fun e => hpc (Option.some.inj e).symm
    · exact fun hm => ha.elim (absurd (Finset.mem_of_mem_erase hm)) fun e => Finset.ne_of_mem_erase hm (Option.some.inj e).symm
  | _ => exact hl.elim

end Steps

/-! ## Runs -/

structure Good (s : St Mem Loc) (S : Finset ℕ) (M : ℤ → Option ℤ) (x : Option ℕ) : Prop where
  core : Core s.sh S M x
  own : ∀ t, At s.sh S x (s.loc t)
  apart : ∀ t u n, newNode (s.loc t) = some n → newNode (s.loc u) = some n → t = u
  alone : ∀ t u, deleting (s.loc t) = true → u ≠ t → outside (s.loc u) = true
  marked : x = none ∨ ∃ t, deleting (s.loc t) = true

/-- node a has been marked by its delete: no thread can reach it, or it is between the two cas -/
structure Dead (s : St Mem Loc) (S : Finset ℕ) (x : Option ℕ) (a : ℕ) (r : Ref) : Prop where
  lt : a < s.sh.fresh
  gone : a ∉ S ∨ x = some a
  free : ∀ t, newNode (s.loc t) ≠ some a
  ref : ref s.sh a = r

variable {S : Finset ℕ} {l : Loc} {m : Mem} {x : Option ℕ} {M : ℤ → Option ℤ}

theorem outside_cases (h : outside l = true) : l = .idle ∨ ∃ r, l = .ret r := by
  unfold outside at h
  split at h <;> simp_all

theorem outside_deleting (h : outside l = true) : deleting l = false ∧ newNode l = none := by
  rcases outside_cases h with rfl | ⟨r, rfl⟩ <;> exact ⟨rfl, rfl⟩

theorem At.outside (h : outside l = true) : At m S x l := by
  rcases outside_cases h with rfl | ⟨r, rfl⟩ <;> trivial

/-- the new node of a thread is allocated -/
theorem At.newNode_lt (h : At m S x l) {n : ℕ} (hn : newNode l = some n) :
    n < m.fresh := by
  have caller : ∀ {c : Caller}, c.Ok m S → c.newNode = some n → n < m.fresh := by
    intro c hc e
    cases c with
    | add k v n' => obtain rfl := Option.some.inj e; exact hc.2.lt
    | delete k | again k | find k => cases e
  cases l with
  | first c pred pn => exact caller h.1 hn
  | advance c pred pn t tn | unmark c pred pn t | load c pred pn t | test c pred pn t tn | adjacent c pred pn curr =>
    exact caller h.1.1 hn
  | fill k v n' pred curr => obtain rfl := Option.some.inj hn; exact h.1.1.lt
  | link k v n' pred curr => obtain rfl := Option.some.inj hn; exact h.1.1.1.lt
  | _ => first | exact h.elim | cases hn

theorem init_good : Good sys.init {head, tail} (fun _ => none) none := by
  refine ⟨⟨Chain.init (fun a => by simp) (by decide) rfl, rfl, rfl, ?_, fun a _ => .inl ?_, ?_, .nil⟩, fun _ => trivial,
    nofun, nofun, .inl rfl⟩
  · simp only [Finset.mem_insert, Finset.mem_singleton]
    rintro a (rfl | rfl) <;> decide
  · change (initList.node a).next.mark = _
    unfold initList
    dsimp only
    split <;> rfl
  · intro k v
    simp

theorem invoke_at {op : Op} (h : INT_MIN < op.key ∧ op.key < INT_MAX) :
    At m S none (start op) ∧ newNode (start op) = none := by
  cases op <;> exact ⟨⟨h, rfl⟩, rfl⟩

/-- a call starts -/
theorem invoke_good (s : St Mem Loc) (t : ℕ) (op : Op) (h : Good s S M x)
    (hC : Sys.Beside Allowed s (t, .invoke op)) (hi : canInvoke (s.loc t) op = true) :
    Good (sys.next s (t, .invoke op)) S M x := by
  obtain ⟨hout, hkey⟩ : outside (s.loc t) = true ∧ INT_MIN < op.key ∧ op.key < INT_MAX := by
    simpa [canInvoke] using hi
  have hsh : (sys.next s (t, .invoke op)).sh = s.sh := rfl
  have hself : (sys.next s (t, .invoke op)).loc t = start op := by
    rw [Sys.next_loc_self]
    simp only [sys, step, hi, if_true]
  -- no thread is in `delete`
  have hnd : ∀ u, deleting (s.loc u) = false := by
    intro u
    by_cases hu : u = t
    · rw [hu]; exact (outside_deleting hout).1
    · have := hC u hu
      cases op with
      | add k v | find k => exact this
      | delete k => exact (outside_deleting this).1
  have hx : x = none := h.marked.resolve_right fun ⟨u, hu⟩ => by rw [hnd u] at hu; cases hu
  subst hx
  refine ⟨h.core, fun u => ?_, fun u v n hu hv => ?_, fun u v hu hv => ?_, .inl rfl⟩
  · by_cases hu : u = t
    · rw [hu, hself]; exact (invoke_at hkey).1
    · rw [Sys.next_loc_ne _ _ _ hu]; exact h.own u
  · have hne : ∀ w, newNode ((sys.next s (t, .invoke op)).loc w) = some n → w ≠ t ∧ newNode (s.loc w) = some n := by
      intro w hw
      by_cases e : w = t
      · rw [e, hself, (invoke_at (m := s.sh) (S := S) hkey).2] at hw; cases hw
      · rw [Sys.next_loc_ne _ _ _ e] at hw; exact ⟨e, hw⟩
    exact h.apart u v n (hne u hu).2 (hne v hv).2
  · -- a `delete` starts when the others are outside
    by_cases e : u = t
    · subst e
      rw [Sys.next_loc_ne _ _ _ hv]
      rw [hself] at hu
      cases op with
      | add k v | find k => cases hu
      | delete k => exact hC v hv
    · rw [Sys.next_loc_ne _ _ _ e, hnd u] at hu; cases hu

/-- no step of a call writes to a dead node -/
theorem Stepped.dead {t : ℕ} {S' : Finset ℕ} {M' : ℤ → Option ℤ} {x' : Option ℕ} {a : ℕ} {r : Ref}
    (hs : Stepped s.sh S x (s.loc t) (exec s.sh (s.loc t)) S' M' x') (h : Good s S M x) (ho : outside (s.loc t) = false)
    (hd : Dead s S x a r) : Dead (sys.next s (t, .step)) S' x' a r := by
  obtain ⟨h1, h2, h3⟩ : s.sh.fresh ≤ (exec s.sh (s.loc t)).1.fresh ∧ ref (exec s.sh (s.loc t)).1 a = ref s.sh a ∧
      (a ∉ S' ∨ x' = some a) := by
    by_cases hdel : deleting (s.loc t) = true
    · exact (hs.kept hdel).imp_right fun h => h a hd.gone
    · obtain ⟨hL, rfl⟩ := hs.later (by simpa using hdel)
      -- a thread in `delete` would be alone in a call
      obtain rfl : x' = none := h.marked.resolve_right fun ⟨u, hu⟩ => by
        have := h.alone u t hu (by rintro rfl; exact hdel hu)
        rw [ho] at this; cases this
      have haS := hd.gone.resolve_right nofun
      exact ⟨hL.fresh, hL.ref a hd.lt haS (hd.free t), .inl fun hm => hd.free t (hL.new a hm haS)⟩
  refine ⟨hd.lt.trans_le h1, h3, fun u hu => ?_, h2.trans hd.ref⟩
  by_cases hut : u = t
  · rw [hut, Sys.next_loc_self] at hu
    rcases hs.new a hu with e | e
    · exact hd.free t e
    · exact hd.lt.ne e
  · rw [Sys.next_loc_ne _ _ _ hut] at hu; exact hd.free u hu

/-- a thread takes a step of its call -/
theorem step_good (s : St Mem Loc) (t : ℕ) (h : Good s S M x)
    (ho : outside (s.loc t) = false) : ∃ S' M' x', Good (sys.next s (t, .step)) S' M' x' ∧
      ∀ a r, Dead s S x a r → Dead (sys.next s (t, .step)) S' x' a r := by
  obtain ⟨S', M', x', hs⟩ := exec_step h.core (h.own t) ho
  have hself : (sys.next s (t, .step)).loc t = (exec s.sh (s.loc t)).2 := Sys.next_loc_self ..
  have hother : ∀ u, u ≠ t → (sys.next s (t, .step)).loc u = s.loc u := fun u hu => Sys.next_loc_ne _ _ _ hu
  -- beside a thread in a call no other thread deletes
  have hnd : ∀ u, u ≠ t → deleting (s.loc u) = false := by
    intro u hu
    by_contra e
    have := h.alone u t (by simpa using e) (Ne.symm hu)
    rw [ho] at this; cases this
  refine ⟨S', M', x', ⟨hs.core, fun u => ?_, fun u v n hu hv => ?_, fun u v hu hv => ?_, ?_⟩, fun a r => hs.dead h ho⟩
  · by_cases hu : u = t
    · rw [hu, hself]; exact hs.own
    · rw [hother u hu]
      by_cases hd : deleting (s.loc t) = true
      · exact At.outside (h.alone t u hd hu)
      · obtain ⟨hL, rfl⟩ := hs.later (by simpa using hd)
        exact hL.stable (fun a ha => (h.core.addr a ha).2) (h.own u) (hnd u hu)
          fun n hn hn' => hu (h.apart u t n hn hn')
  · have hlt : ∀ w n, newNode (s.loc w) = some n → n < s.sh.fresh := fun w n hw => (h.own w).newNode_lt hw
    by_cases hut : u = t <;> by_cases hvt : v = t
    · rw [hut, hvt]
    · rw [hut, hself] at hu
      rw [hother v hvt] at hv
      rcases hs.new n hu with e | e
      · exact absurd (h.apart v t n hv e) hvt
      · have := hlt v n hv; omega
    · rw [hvt, hself] at hv
      rw [hother u hut] at hu
      rcases hs.new n hv with e | e
      · exact absurd (h.apart u t n hu e) hut
      · have := hlt u n hu; omega
    · rw [hother u hut] at hu
      rw [hother v hvt] at hv
      exact h.apart u v n hu hv
  · by_cases hut : u = t
    · subst hut
      rw [hself] at hu
      rw [hother v hv]
      exact h.alone u v (hs.mode hu) hv
    · rw [hother u hut, hnd u hut] at hu; cases hu
  · rcases hs.marked with e | e
    · exact .inl e
    · exact .inr ⟨t, by rw [hself]; exact e⟩

theorem next_good (s : St Mem Loc) (y : ℕ × Act) (h : Good s S M x) (hC : Sys.Beside Allowed s y) :
    ∃ S' M' x', Good (sys.next s y) S' M' x' ∧ ∀ a r, Dead s S x a r → Dead (sys.next s y) S' x' a r := by
  obtain ⟨t, a⟩ := y
  -- a step that does nothing
  have stay : sys.step t s.sh (s.loc t) a = (s.sh, s.loc t) → ∃ S' M' x', Good (sys.next s (t, a)) S' M' x' ∧
      ∀ b r, Dead s S x b r → Dead (sys.next s (t, a)) S' x' b r := by
    intro e
    rw [sys.next_eq_self e]; exact ⟨S, M, x, h, fun _ _ => id⟩
  cases a with
  | invoke op =>
    by_cases hi : canInvoke (s.loc t) op = true
    · refine ⟨S, M, x, invoke_good s t op h hC hi, fun b r hd => ⟨hd.lt, hd.gone, fun u => ?_, hd.ref⟩⟩
      by_cases hu : u = t
      · rw [hu, Sys.next_loc_self]
        simp only [sys, step, hi, if_true]
        cases op <;> nofun
      · rw [Sys.next_loc_ne _ _ _ hu]; exact hd.free u
    · exact stay (by simp only [sys, step, hi, if_false, Bool.false_eq_true])
  | step =>
    by_cases ho : outside (s.loc t) = true
    · refine stay ?_
      rcases outside_cases ho with e | ⟨r, e⟩ <;> rw [e] <;> rfl
    · exact step_good s t h (by simpa using ho)

theorem run_good (ls : List (ℕ × Act)) (h : sys.Meets (Sys.Beside Allowed) ls) : ∃ S M x, Good (sys.run ls) S M x := by
  refine sys.meets_inv _ (fun s => ∃ S M x, Good s S M x) ⟨_, _, _, init_good⟩ (fun s y hs hC => ?_) ls h
  obtain ⟨S, M, x, hs⟩ := hs
  obtain ⟨S', M', x', hs', -⟩ := next_good s y hs hC
  exact ⟨S', M', x', hs'⟩

/-- the nodes from head on are those of the chain -/
theorem Core.mem_nodes (h : Core m S M x) (a : ℕ) :
    a ∈ nodes m ↔ a ∈ (S.erase head).erase tail := by
  unfold nodes
  rw [h.chain.mem_walk_head (fun b _ => by simp) Core.head_ne_tail (fun a ha => (h.addr a ha).2)]
  simp only [Finset.mem_erase]
  tauto

/-- **Updates are preserved.** In every run under the condition, in every state reached: for every key, as many adds as
deletes have returned true, or one more; one more exactly when the key is held by a node reachable from head; and every
delete that returned true gave back the value of the last add of its key. -/
theorem updates_preserved (ls : List (ℕ × Act)) (h : sys.Meets (Sys.Beside Allowed) ls) : Preserved (sys.run ls).sh := by
  obtain ⟨S, M, x, hg⟩ := run_good ls h
  refine hg.core.log.tallied fun k => ?_
  constructor
  · rintro ⟨a, ha, rfl⟩
    rw [hg.core.rep.holds ((hg.core.mem_nodes a).1 ha)]; rfl
  · intro hk
    obtain ⟨v, hv⟩ := Option.isSome_iff_exists.1 hk
    obtain ⟨a, ha, rfl, -⟩ := (hg.core.rep k v).1 hv
    exact ⟨a, (hg.core.mem_nodes a).2 ha, rfl⟩

/-! ## Two deletes of one node -/

/-- two overlapping adds, and then a delete alone -/
def deleteAlone : List (ℕ × Act) :=
  callSteps 0 (.add 5 50) 4 ++ callSteps 1 (.add 7 70) 12 ++ List.replicate 12 (0, .step) ++ callSteps 1 (.delete 7) 20

theorem updates_preserved_alone :
    (sys.run deleteAlone).sh.log = [.add 7 70, .add 5 50, .delete 7 70] ∧ Preserved (sys.run deleteAlone).sh := by
  have hc : sys.Check Allowed 2 sys.init deleteAlone := by decide +kernel
  exact ⟨by decide +kernel, updates_preserved _ (sys.meets_of_check _ hc)⟩

/-- key 5 is added; both threads look for it; thread 0 marks the node and thread 1 marks it once more; thread 0 unlinks it,
and thread 1, whose second cas fails, searches again and ends at tail -/
def bothDelete : List (ℕ × Act) :=
  callSteps 0 (.add 5 50) 7 ++ callSteps 0 (.delete 5) 6 ++ callSteps 1 (.delete 5) 6 ++ List.replicate 5 (0, .step) ++
    List.replicate 5 (1, .step) ++ List.replicate 1 (0, .step) ++ List.replicate 10 (1, .step)

/-- **Two deletes of one add.** All calls have returned; one add and two deletes of key 5 returned true, and the second
delete gave back a value nobody added. -/
theorem delete_twice :
    (∀ t, outside ((sys.run bothDelete).loc t) = true) ∧
      (sys.run bothDelete).sh.log = [.add 5 50, .delete 5 50, .delete 5 0] ∧ ¬ Preserved (sys.run bothDelete).sh := by
  have hlog : (sys.run bothDelete).sh.log = [.add 5 50, .delete 5 50, .delete 5 0] := by decide +kernel
  refine ⟨fun t => ?_, hlog, fun h => ?_⟩
  · have hthreads : ∀ x ∈ bothDelete, x.1 < 2 := by decide +kernel
    rcases Nat.lt_or_ge t 2 with ht | ht
    · interval_cases t <;> decide +kernel
    · rw [sys.run_loc_of_notMem fun x hx => (by have := hthreads x hx; omega)]; rfl
  · have := h.count 5
    rw [hlog] at this
    exact absurd this (by decide)

/-! ## Marks -/

/-- the node that step y marks, with its link: the first cas of `delete` succeeds -/
def marks (s : St Mem Loc) (y : ℕ × Act) : Option (ℕ × ℕ) :=
  match s.loc y.1, y.2 with
  | .del5 _ _ curr _ old, .step => if ref s.sh curr = old then some (curr, old.ptr) else none
  | _, _ => none

/-- after that cas the thread is at the second one, and the node is marked -/
theorem marks_next {y : ℕ × Act} {a p : ℕ} (h : marks s y = some (a, p)) :
    (∃ k pred cn, (sys.next s y).loc y.1 = .del6 k pred a cn) ∧ ref (sys.next s y).sh a = ⟨.MARKED, p⟩ := by
  obtain ⟨t, act⟩ := y
  unfold marks at h
  split at h
  · rename_i k pred curr cn old hl ha
    obtain rfl : act = .step := ha
    split_ifs at h with he
    cases h
    rw [Sys.next_loc_self, Sys.next_sh]
    simp only [sys, step, show s.loc t = _ from hl, exec, cas, if_pos he]
    exact ⟨⟨k, pred, cn, rfl⟩, by rw [ref_setRef, update_self]⟩
  · cases h

/-- between the two cas the node is dead -/
theorem Good.dead (h : Good s S M x) {t : ℕ} {k : ℤ} {pred a cn : ℕ}
    (hl : s.loc t = .del6 k pred a cn) : Dead s S x a (ref s.sh a) := by
  have ht := h.own t
  rw [hl] at ht
  refine ⟨(h.core.addr a (ht.1.1.mem h.core)).2, .inr ht.1.2, fun u hu => ?_, rfl⟩
  have hout : outside (s.loc u) = true := by
    refine h.alone t u (by rw [hl]; rfl) ?_
    rintro rfl
    rw [hl] at hu; cases hu
  rw [(outside_deleting hout).2] at hu; cases hu

/-- **Marks are permanent.** In every run under the condition: once the cas of a delete has marked a node, the node keeps
its mark and its link in every later state. -/
theorem marks_permanent (ls ls' : List (ℕ × Act)) (y : ℕ × Act) (a p : ℕ)
    (h : sys.Meets (Sys.Beside Allowed) (ls ++ y :: ls')) (hy : marks (sys.run ls) y = some (a, p)) :
    ref (sys.run (ls ++ y :: ls')).sh a = ⟨.MARKED, p⟩ := by
  suffices hD : ∃ S M x, Good (sys.run (ls ++ y :: ls')) S M x ∧ Dead (sys.run (ls ++ y :: ls')) S x a ⟨.MARKED, p⟩ by
    obtain ⟨S, M, x, -, hd⟩ := hD
    exact hd.ref
  induction ls' using List.reverseRecOn with
  | nil =>
    obtain ⟨S, M, x, hg⟩ := run_good _ h
    obtain ⟨⟨k, pred, cn, hl⟩, hr⟩ := marks_next hy
    rw [← Sys.run_snoc] at hl hr
    exact ⟨S, M, x, hg, hr ▸ hg.dead hl⟩
  | append_singleton ls' z ih =>
    rw [← List.cons_append, ← List.append_assoc] at h ⊢
    obtain ⟨h1, hz⟩ := (sys.meets_snoc ..).1 h
    obtain ⟨S, M, x, hg, hd⟩ := ih h1
    obtain ⟨S', M', x', hg', hd'⟩ := next_good _ z hg hz
    rw [Sys.run_snoc]
    exact ⟨S', M', x', hg', hd' a _ hd⟩

/-- a delete alone up to its first cas -/
def upToMark : List (ℕ × Act) := callSteps 0 (.add 5 50) 7 ++ callSteps 0 (.delete 5) 10

theorem marks_permanent_delete :
    marks (sys.run upToMark) (0, .step) = some (3, 2) ∧
      ref (sys.run (upToMark ++ (0, .step) :: (0, .step) :: callSteps 1 (.find 5) 7)).sh 3 = ⟨.MARKED, 2⟩ := by
  have hm : marks (sys.run upToMark) (0, .step) = some (3, 2) := by decide +kernel
  have hc : sys.Check Allowed 2 sys.init (upToMark ++ (0, .step) :: (0, .step) :: callSteps 1 (.find 5) 7) := by
    decide +kernel
  exact ⟨hm, marks_permanent _ _ _ _ _ (sys.meets_of_check _ hc) hm⟩

/-- **A search clears the mark.** Thread 0 has marked node 3 and not yet unlinked it; a find of thread 1 comes by. -/
theorem search_clears_mark :
    marks (sys.run upToMark) (0, .step) = some (3, 2) ∧
      ref (sys.run (upToMark ++ (0, .step) :: callSteps 1 (.find 5) 3)).sh 3 = ⟨.UNMARKED, 2⟩ := by
  decide +kernel

end AlgorithmCollection.NonBlockingList
