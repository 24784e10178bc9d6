/-
The chains of all levels of `LockFreeSkiplist` and what a store does to them.

`Levels P m lk`: `lk L` is the set of the nodes that are on the chain of level L or have been on it. The links of every node
that has been made, linked or not, lead up into these sets, so what is on the chain of a level is what is reachable from
head there, and a node linked and not marked at the level is reachable. Of two nodes with one key the newer one comes first:
a search that meets a node at an upper level before it is deleted may leave it as the successor of a new node with the same
key.

A step of a thread makes a new node (`Levels.create`), sets the link of an unmarked node (`Levels.relink`), which is how a
node is linked (`Levels.link`) and a marked one snipped (`Levels.snip`), or marks a link (`Levels.mark`). `Grows` is what a
step leaves to the other threads.
-/
import AlgorithmCollection.Conc.Climb
import AlgorithmCollection.List.LockFreeSkiplistReach

namespace AlgorithmCollection.LockFreeSkiplist

open Conc
open Function (update update_self update_of_ne update_eq_self)

/-- nodes are ordered by their keys, and those of one key from the newest to the oldest -/
def rank (m : Mem) (a : ℕ) : ℤ ×ₗ ℕᵒᵈ := toLex (ky m a, OrderDual.toDual a)

theorem rank_lt_iff {m : Mem} {a b : ℕ} : rank m a < rank m b ↔ ky m a < ky m b ∨ ky m a = ky m b ∧ b < a := by
  simp [rank, Prod.Lex.toLex_lt_toLex]

/-- b may follow a on level L; the keys of the bottom level are all different -/
def Below (m : Mem) (L a b : ℕ) : Prop := rank m a < rank m b ∧ (L = 0 → ky m a < ky m b)

theorem Below.of_ky {m : Mem} {L a b : ℕ} (h : ky m a < ky m b) : Below m L a b := ⟨rank_lt_iff.2 (.inl h), fun _ => h⟩

theorem Below.trans {m : Mem} {L a b c : ℕ} (h : Below m L a b) (h' : Below m L b c) : Below m L a c :=
  ⟨h.1.trans h'.1, fun h0 => (h.2 h0).trans (h'.2 h0)⟩

/-- a is the address of a node -/
def Made (m : Mem) (a : ℕ) : Prop := a ≠ NULL ∧ a < m.fresh

/-- the tower of a has level L -/
def Tall (m : Mem) (L a : ℕ) : Prop := L < m.maxLevel ∧ L ≤ tp m a

/-- key is one that calls are made on -/
def InRange (P : Params) (key : ℤ) : Prop := P.min < key ∧ key < P.max

/-- the keys and heights of the nodes -/
structure Frame (P : Params) (m : Mem) : Prop where
  pos : 0 < m.maxLevel
  lt : P.min < P.max
  head : ky m m.head = P.min
  tail : ky m m.tail = P.max
  node : ∀ a, Made m a → a ≠ m.head → a ≠ m.tail → InRange P (ky m a) ∧ tp m a < m.maxLevel

structure Levels (P : Params) (m : Mem) (lk : ℕ → Set ℕ) : Prop where
  intro ::
  frame : Frame P m
  made : ∀ L, ∀ a ∈ lk L, Made m a ∧ Tall m L a
  down : ∀ L, lk (L + 1) ⊆ lk L
  head : ∀ L < m.maxLevel, m.head ∈ lk L ∧ mk m L m.head = .UNMARKED
  tail : ∀ L < m.maxLevel, m.tail ∈ lk L ∧ mk m L m.tail = .UNMARKED
  stop : ∀ L, nx m L m.tail = NULL ∧ nx m L NULL = NULL
  next : ∀ a, Made m a → a ≠ m.tail → ∀ L, Tall m L a → nx m L a ∈ lk L ∧ Below m L a (nx m L a)
  reach : ∀ L, ∀ a ∈ lk L, mk m L a = .UNMARKED → Reach (nx m L) m.head a
  marks : ∀ a, Made m a → mk m 0 a = .MARKED → ∀ L, Tall m L a → mk m L a = .MARKED

/-- m' is the memory after a step that marks the link `vic`, a node and a level, if it marks one -/
structure Grows (m m' : Mem) (lk lk' : ℕ → Set ℕ) (vic : Option (ℕ × ℕ)) : Prop where
  intro ::
  sub : ∀ L, lk L ⊆ lk' L
  maxLevel : m'.maxLevel = m.maxLevel
  head : m'.head = m.head
  tail : m'.tail = m.tail
  fresh : m.fresh ≤ m'.fresh
  node : ∀ a, Made m a → ky m' a = ky m a ∧ tp m' a = tp m a
  frozen : ∀ a, Made m a → ∀ L, mk m L a = .MARKED → ref m' L a = ref m L a
  marks : ∀ a, Made m a → ∀ L, mk m L a = .UNMARKED → mk m' L a = .MARKED → vic = some (a, L)
  rest : ∀ a, Made m a → a ∉ lk 0 → ∀ L, ref m' L a = ref m L a

/-! ## What the description says of a chain -/

section Facts

variable {P : Params} {m : Mem} {lk : ℕ → Set ℕ} {a b L : ℕ}

theorem Frame.ne (h : Frame P m) : m.head ≠ m.tail := by
  intro e
  have h1 := h.head
  rw [e, h.tail] at h1
  exact absurd h.lt (by omega)

/-- a key strictly between min and max is that of neither end -/
theorem Frame.ne_head (h : Frame P m) (ha : InRange P (ky m a)) : a ≠ m.head := by
  rintro rfl
  exact absurd ha.1 (by rw [h.head]; exact lt_irrefl _)

theorem Frame.ne_tail (h : Frame P m) (ha : InRange P (ky m a)) : a ≠ m.tail := by
  rintro rfl
  exact absurd ha.2 (by rw [h.tail]; exact lt_irrefl _)

/-- a key below that of a call is not that of tail -/
theorem Frame.ne_tail_of_lt (h : Frame P m) {key : ℤ} (hk : InRange P key) (hlt : ky m a < key) : a ≠ m.tail := by
  rintro rfl
  rw [h.tail] at hlt
  exact absurd hk.2 (not_lt.2 hlt.le)

namespace Levels

variable (h : Levels P m lk)

include h

theorem mem_of_le (hm : a ∈ lk L) {K : ℕ} (hK : K ≤ L) : a ∈ lk K := by
  induction L with
  | zero => rwa [Nat.le_zero.1 hK]
  | succ L ih =>
    rcases Nat.lt_or_ge L K with hlt | hge
    · rwa [show K = L + 1 by omega]
    · exact ih (h.down L hm) hge

/-- a marked node is neither head nor tail -/
theorem marked_ne (hT : L < m.maxLevel) (hm : mk m L a = .MARKED) : a ≠ m.head ∧ a ≠ m.tail := by
  constructor
  · rintro rfl
    rw [(h.head L hT).2] at hm; cases hm
  · rintro rfl
    rw [(h.tail L hT).2] at hm; cases hm

/-- the links of a level lead up to tail, in any order that each of them follows -/
theorem climb_of {R : Type*} [LinearOrder R] {r : ℕ → R} (hL : L < m.maxLevel)
    (hr : ∀ a ∈ lk L, a ≠ m.tail → r a < r (nx m L a)) : Climb (nx m L) r m.tail m.fresh (lk L) where
  tail_mem := (h.tail L hL).1
  lt_lim a ha := (h.made L a ha).1.2
  next_mem a ha hat := (h.next a (h.made L a ha).1 hat L (h.made L a ha).2).1
  lt_next := hr
  last x hx hreach := by
    have hmem : x ∈ ({m.tail, NULL} : Set ℕ) := by
      refine hreach.mem (Set.mem_insert _ _) ?_
      rintro a (rfl | rfl)
      · exact .inr (h.stop L).1
      · exact .inr (h.stop L).2
    exact hmem.resolve_right (h.made L x hx).1.1

theorem climb (hL : L < m.maxLevel) : Climb (nx m L) (rank m) m.tail m.fresh (lk L) :=
  h.climb_of hL fun a ha hat => (h.next a (h.made L a ha).1 hat L (h.made L a ha).2).2.1

/-- on the bottom level the keys rise -/
theorem climb_bottom : Climb (nx m 0) (ky m) m.tail m.fresh (lk 0) :=
  h.climb_of h.frame.pos fun a ha hat => (h.next a (h.made 0 a ha).1 hat 0 (h.made 0 a ha).2).2.2 rfl

theorem mem_nodes (hL : L < m.maxLevel) :
    a ∈ nodes m L ↔ Reach (nx m L) m.head a ∧ a ∈ lk L ∧ a ≠ m.head ∧ a ≠ m.tail :=
  (h.climb hL).mem_walk (h.head L hL).1 h.frame.ne

end Levels

end Facts

/-! ## Stores -/

section Stores

variable {P : Params} {m : Mem} {lk : ℕ → Set ℕ} {a b c n L K x : ℕ} {S : Set ℕ} {r : Ref}

theorem nx_setRef_of_ne (h : K ≠ L) : nx (setRef m a L r) K = nx m K := by
  unfold nx; rw [ref_setRef_of_ne h]

theorem mk_setRef_of_ne (h : K ≠ L) : mk (setRef m a L r) K = mk m K := by
  unfold mk; rw [ref_setRef_of_ne h]

/-- a store of what is there already -/
theorem setRef_self : setRef m a L (ref m L a) = m := by
  simp [setRef, ref]

theorem Frame.setRef (h : Frame P m) : Frame P (setRef m a L r) := by
  have hs : SameRest m (LockFreeSkiplist.setRef m a L r) := sameRest_setRef
  refine ⟨h.pos, h.lt, ?_, ?_, ?_⟩
  · rw [hs.ky]; exact h.head
  · rw [hs.ky]; exact h.tail
  · rw [hs.ky, hs.tp]; exact h.node

theorem rank_setRef : rank (setRef m a L r) = rank m := by
  funext x; unfold rank; rw [sameRest_setRef.ky]

theorem below_setRef : Below (setRef m a L r) = Below m := by
  funext K x y; unfold Below; rw [rank_setRef, sameRest_setRef.ky]

theorem tall_setRef : Tall (setRef m a L r) = Tall m := by
  funext K x; unfold Tall; rw [sameRest_setRef.tp]; rfl

/-- **A link set.** The link of an unmarked node a is set to a node b further on, while nodes may join the level. -/
theorem Levels.relink (h : Levels P m lk) (ha : a ∈ lk L) (hat : a ≠ m.tail) (hm : mk m L a = .UNMARKED) (hS : lk L ⊆ S)
    (hmade : ∀ x ∈ S, Made m x ∧ Tall m L x) (hdown : ∀ K, K + 1 = L → S ⊆ lk K) (hb : b ∈ S) (hab : Below m L a b)
    (hr : ∀ x ∈ S, mk m L x = .UNMARKED → Reach (update (nx m L) a b) m.head x) :
    Levels P (setRef m a L ⟨.UNMARKED, b⟩) (update lk L S) := by
  have hmk : mk (setRef m a L ⟨.UNMARKED, b⟩) = mk m := by
    funext K
    by_cases e : K = L
    · rw [e, mk_setRef, ← hm, update_eq_self]
    · exact mk_setRef_of_ne e
  have hnx : nx (setRef m a L ⟨.UNMARKED, b⟩) L = update (nx m L) a b := nx_setRef
  have hsub : ∀ K, lk K ⊆ update lk L S K := fun K => by
    by_cases e : K = L
    · rw [e, update_self]; exact hS
    · rw [update_of_ne e]
  have hne : a ≠ NULL := (h.made L a ha).1.1
  refine ⟨h.frame.setRef, fun K x hx => ?_, fun K x hx => ?_, fun K hK => ?_, fun K hK => ?_, fun K => ?_,
    fun x hx hxt K hK => ?_, fun K x hx => ?_, ?_⟩
  · rw [tall_setRef]
    by_cases e : K = L
    · rw [e, update_self] at hx; rw [e]; exact hmade x hx
    · rw [update_of_ne e] at hx; exact h.made K x hx
  · by_cases e : K + 1 = L
    · rw [e, update_self] at hx
      exact hsub K (hdown K e hx)
    · rw [update_of_ne e] at hx
      exact hsub K (h.down K hx)
  · rw [hmk]; exact ⟨hsub K (h.head K hK).1, (h.head K hK).2⟩
  · rw [hmk]; exact ⟨hsub K (h.tail K hK).1, (h.tail K hK).2⟩
  · by_cases e : K = L
    · rw [e, hnx]
      exact ⟨(update_of_ne (Ne.symm hat) _ _).trans (h.stop L).1,
        (update_of_ne (Ne.symm hne) _ _).trans (h.stop L).2⟩
    · rw [nx_setRef_of_ne e]; exact h.stop K
  · rw [tall_setRef] at hK
    rw [below_setRef]
    by_cases e : K = L
    · subst e
      rw [hnx, update_self]
      by_cases hxa : x = a
      · rw [hxa, update_self]; exact ⟨hb, hab⟩
      · rw [update_of_ne hxa]
        exact ⟨hS (h.next x hx hxt K hK).1, (h.next x hx hxt K hK).2⟩
    · rw [nx_setRef_of_ne e, update_of_ne e]
      exact h.next x hx hxt K hK
  · rw [hmk]
    by_cases e : K = L
    · subst e
      rw [hnx]
      rw [update_self] at hx
      exact hr x hx
    · rw [nx_setRef_of_ne e]
      rw [update_of_ne e] at hx
      exact h.reach K x hx
  · rw [hmk, tall_setRef]; exact h.marks

/-- **A node linked** behind a node a that points where it points. -/
theorem Levels.link (h : Levels P m lk) (ha : a ∈ lk L) (href : ref m L a = ⟨.UNMARKED, c⟩) (hn : Made m n)
    (hT : Tall m L n) (hbelow : ∀ K < L, n ∈ lk K) (hlt : ky m a < ky m n) (hat : a ≠ m.tail) (hc : nx m L n = c) :
    Levels P (setRef m a L ⟨.UNMARKED, n⟩) (update lk L (insert n (lk L))) := by
  have hm : mk m L a = .UNMARKED := congrArg Ref.mark href
  have hnx : nx m L n = nx m L a := hc.trans (congrArg Ref.next href).symm
  have hne : n ≠ a := by
    rintro rfl
    exact lt_irrefl _ hlt
  have hreach := h.reach L a ha hm
  refine h.relink ha hat hm (Set.subset_insert n _) ?_ ?_ (Set.mem_insert n _) (Below.of_ky hlt) ?_
  · rintro x (rfl | hx)
    · exact ⟨hn, hT⟩
    · exact h.made L x hx
  · rintro K rfl x (rfl | hx)
    · exact hbelow K (Nat.lt_succ_self K)
    · exact h.down K hx
  · rintro x (rfl | hx) hx0
    · exact hreach.insert_new hnx hne
    · exact (h.reach L x hx hx0).insert hnx hne

/-- **A marked node snipped** with the successor it has. -/
theorem Levels.snip (h : Levels P m lk) (ha : a ∈ lk L) (hat : a ≠ m.tail) (href : ref m L a = ⟨.UNMARKED, b⟩)
    (hb : mk m L b = .MARKED) (hc : nx m L b = c) : Levels P (setRef m a L ⟨.UNMARKED, c⟩) lk := by
  have hm : mk m L a = .UNMARKED := congrArg Ref.mark href
  have hab : nx m L a = b := congrArg Ref.next href
  obtain ⟨ha1, ha2⟩ := h.made L a ha
  obtain ⟨hbm, hlt⟩ := h.next a ha1 hat L ha2
  rw [hab] at hbm hlt
  obtain ⟨hb1, hb2⟩ := h.made L b hbm
  obtain ⟨hcm, hlt'⟩ := h.next b hb1 (h.marked_ne ha2.1 hb).2 L hb2
  rw [hc] at hcm hlt'
  have key := h.relink ha hat hm (subset_refl (lk L)) (h.made L) (fun K e => e ▸ h.down K) hcm (hlt.trans hlt') ?_
  · rwa [update_eq_self] at key
  · intro x hx hx0
    rw [← hc]
    refine (h.reach L x hx hx0).unlink hab ?_
    rintro rfl
    rw [hb] at hx0; cases hx0

/-- **A link marked**, at the bottom level only after those above. -/
theorem Levels.mark (h : Levels P m lk) (ha : a ≠ m.head ∧ a ≠ m.tail)
    (hup : L = 0 → ∀ K, 0 < K → Tall m K a → mk m K a = .MARKED) :
    Levels P (setRef m a L ⟨.MARKED, nx m L a⟩) lk := by
  have hnx : nx (setRef m a L ⟨.MARKED, nx m L a⟩) = nx m := by
    funext K
    by_cases e : K = L
    · rw [e, nx_setRef, update_eq_self]
    · exact nx_setRef_of_ne e
  have hmk : mk (setRef m a L ⟨.MARKED, nx m L a⟩) L = update (mk m L) a .MARKED := mk_setRef
  -- marks are only set
  have hset : ∀ K x, mk m K x = .MARKED → mk (setRef m a L ⟨.MARKED, nx m L a⟩) K x = .MARKED := by
    intro K x hx
    by_cases e : K = L
    · rw [e, hmk]
      by_cases hxa : x = a
      · rw [hxa, update_self]
      · rw [update_of_ne hxa, ← e]; exact hx
    · rw [mk_setRef_of_ne e]; exact hx
  have hother : ∀ K x, x ≠ a ∨ K ≠ L → mk (setRef m a L ⟨.MARKED, nx m L a⟩) K x = mk m K x := by
    rintro K x hx
    by_cases e : K = L
    · rw [e, hmk, update_of_ne (hx.resolve_right (not_not.2 e))]
    · rw [mk_setRef_of_ne e]
  refine ⟨h.frame.setRef, by rw [tall_setRef]; exact h.made, h.down, fun K hK => ?_, fun K hK => ?_, by rw [hnx]; exact h.stop, ?_,
    fun K x hx hx0 => ?_, fun x hx hx0 K hK => ?_⟩
  · exact ⟨(h.head K hK).1, (hother K m.head (.inl (Ne.symm ha.1))).trans (h.head K hK).2⟩
  · exact ⟨(h.tail K hK).1, (hother K m.tail (.inl (Ne.symm ha.2))).trans (h.tail K hK).2⟩
  · rw [hnx, below_setRef, tall_setRef]; exact h.next
  · rw [hnx]
    refine h.reach K x hx ?_
    cases hold : mk m K x with
    | UNMARKED => rfl
    | MARKED => rw [hset K x hold] at hx0; cases hx0
  · rw [tall_setRef] at hK
    by_cases e : x = a ∧ L = 0
    · obtain ⟨rfl, rfl⟩ := e
      rcases Nat.eq_zero_or_pos K with rfl | hpos
      · exact hx0
      · exact hset K x (hup rfl K hpos hK)
    · rw [hother 0 x (by by_contra hc; exact e (by push Not at hc; exact ⟨hc.1, hc.2.symm⟩))] at hx0
      exact hset K x (h.marks x hx hx0 K hK)

/-- what a store into a linked node leaves to the other threads, if the link was not marked or is not changed -/
theorem Grows.store {lk' : ℕ → Set ℕ} {vic : Option (ℕ × ℕ)} (ha : a ∈ lk 0) (hf : mk m L a = .MARKED → ref m L a = r)
    (hv : r.mark = .MARKED → vic = some (a, L)) (hS : ∀ K, lk K ⊆ lk' K) : Grows m (setRef m a L r) lk lk' vic := by
  have hs : SameRest m (setRef m a L r) := sameRest_setRef
  refine ⟨hS, rfl, rfl, rfl, le_rfl, fun x _ => ?_, fun x _ K hx => ?_, fun x _ K h1 h2 => ?_, fun x _ hx K => ?_⟩
  · rw [hs.ky, hs.tp]; exact ⟨rfl, rfl⟩
  · rw [ref_setRef_apply]
    split
    · rename_i e
      rw [e.1, e.2] at hx ⊢
      exact (hf hx).symm
    · rfl
  · unfold mk at h1 h2
    rw [ref_setRef_apply] at h2
    split at h2
    · rename_i e
      rw [e.1, e.2]; exact hv h2
    · rw [h1] at h2; cases h2
  · rw [ref_setRef_apply, if_neg]
    rintro ⟨-, rfl⟩
    exact hx ha

protected theorem Grows.refl (m : Mem) (lk : ℕ → Set ℕ) : Grows m m lk lk none :=
  ⟨fun _ => subset_rfl, rfl, rfl, rfl, le_rfl, fun _ _ => ⟨rfl, rfl⟩, fun _ _ _ _ => rfl,
    fun _ _ _ h1 h2 => (by rw [h1] at h2; cases h2), fun _ _ _ _ => rfl⟩

end Stores

/-! ## A new node -/

section Create

variable {P : Params} {m : Mem} {lk : ℕ → Set ℕ} {top : ℕ} {k v : ℤ} {succs : ℕ → ℕ}

theorem newTower_of_ne {x : ℕ} (hx : x ≠ m.fresh) : ky (newTower m top k v succs) x = ky m x ∧
    tp (newTower m top k v succs) x = tp m x := by
  have hr := newTower_rest m top k v succs
  rw [hr.ky, hr.tp]
  simp [ky, tp, createNode, hx]

theorem newTower_new : ky (newTower m top k v succs) m.fresh = k ∧ tp (newTower m top k v succs) m.fresh = top := by
  have hr := newTower_rest m top k v succs
  rw [hr.ky, hr.tp]
  simp [ky, tp, createNode]

theorem made_newTower {x : ℕ} (hf : m.fresh ≠ NULL) : Made (newTower m top k v succs) x ↔ Made m x ∨ x = m.fresh := by
  have hr : (newTower m top k v succs).fresh = m.fresh + 1 := (newTower_rest m top k v succs).fresh
  unfold Made
  rw [hr]
  constructor
  · rintro ⟨h1, h2⟩
    rcases Nat.lt_succ_iff_lt_or_eq.1 h2 with h2 | h2
    · exact .inl ⟨h1, h2⟩
    · exact .inr h2
  · rintro (⟨h1, h2⟩ | rfl)
    · exact ⟨h1, Nat.lt_succ_of_lt h2⟩
    · exact ⟨hf, Nat.lt_succ_self _⟩

/-- **A new node** whose links lead to nodes of keys that are not smaller. -/
theorem Levels.create (h : Levels P m lk) (hk : InRange P k) (ht : top < m.maxLevel)
    (hs : ∀ L ≤ top, succs L ∈ lk L ∧ k ≤ ky m (succs L)) (h0 : k < ky m (succs 0)) :
    Levels P (newTower m top k v succs) lk := by
  have hr := newTower_rest m top k v succs
  have href := ref_newTower m top k v succs
  have hold : ∀ x, x ≠ m.fresh → ky (newTower m top k v succs) x = ky m x ∧ tp (newTower m top k v succs) x = tp m x :=
    fun x hx => newTower_of_ne hx
  have hnew : ky (newTower m top k v succs) m.fresh = k ∧ tp (newTower m top k v succs) m.fresh = top := newTower_new
  have hhead := (h.made 0 _ (h.head 0 h.frame.pos).1).1
  have htail := (h.made 0 _ (h.tail 0 h.frame.pos).1).1
  have hfresh : m.fresh ≠ NULL := (Nat.zero_lt_of_lt hhead.2).ne'
  have hmade : ∀ x, Made (newTower m top k v succs) x ↔ Made m x ∨ x = m.fresh := fun x => made_newTower hfresh
  generalize newTower m top k v succs = m' at *
  have hhd : m'.head = m.head := hr.head
  have htl : m'.tail = m.tail := hr.tail
  have hml : m'.maxLevel = m.maxLevel := hr.maxLevel
  have hne : ∀ x, Made m x → x ≠ m.fresh := fun x hx => hx.2.ne
  -- what was there is as before
  have hkeep : ∀ x, x ≠ m.fresh → ∀ L, ref m' L x = ref m L x := fun x hx L => (href L x).trans (if_neg hx)
  have hnx : ∀ x, x ≠ m.fresh → ∀ L, nx m' L x = nx m L x := fun x hx L => congrArg Ref.next (hkeep x hx L)
  have hmk : ∀ x, x ≠ m.fresh → ∀ L, mk m' L x = mk m L x := fun x hx L => congrArg Ref.mark (hkeep x hx L)
  have htall : ∀ x, x ≠ m.fresh → ∀ L, Tall m' L x ↔ Tall m L x := fun x hx L => by
    unfold Tall; rw [hml, (hold x hx).2]
  have hbelow : ∀ L x y, x ≠ m.fresh → y ≠ m.fresh → Below m L x y → Below m' L x y := by
    intro L x y hx hy hxy
    unfold Below at hxy ⊢
    rw [rank_lt_iff] at hxy ⊢
    rw [(hold x hx).1, (hold y hy).1]
    exact hxy
  have hlk : ∀ L, ∀ x ∈ lk L, x ≠ m.fresh := fun L x hx => hne x (h.made L x hx).1
  refine ⟨⟨?_, h.frame.lt, ?_, ?_, fun x hx h1 h2 => ?_⟩, fun L x hx => ?_, h.down, fun L hL => ?_, fun L hL => ?_,
    fun L => ?_, fun x hx hxt L hL => ?_, fun L x hx hx0 => ?_, fun x hx hx0 L hL => ?_⟩
  · rw [hml]; exact h.frame.pos
  · rw [hhd, (hold _ (hne _ hhead)).1]; exact h.frame.head
  · rw [htl, (hold _ (hne _ htail)).1]; exact h.frame.tail
  · rw [hml]
    rw [hhd] at h1
    rw [htl] at h2
    rcases (hmade x).1 hx with hx | rfl
    · rw [(hold x (hne x hx)).1, (hold x (hne x hx)).2]
      exact h.frame.node x hx h1 h2
    · rw [hnew.1, hnew.2]; exact ⟨hk, ht⟩
  · exact ⟨(hmade x).2 (.inl (h.made L x hx).1), (htall x (hlk L x hx) L).2 (h.made L x hx).2⟩
  · rw [hml] at hL
    rw [hhd, hmk _ (hne _ hhead)]; exact h.head L hL
  · rw [hml] at hL
    rw [htl, hmk _ (hne _ htail)]; exact h.tail L hL
  · rw [htl, hnx _ (hne _ htail), hnx _ (Ne.symm hfresh)]; exact h.stop L
  · rw [htl] at hxt
    rcases (hmade x).1 hx with hx | rfl
    · obtain ⟨h1, h2⟩ := h.next x hx hxt L ((htall x (hne x hx) L).1 hL)
      rw [hnx x (hne x hx)]
      exact ⟨h1, hbelow L _ _ (hne x hx) (hlk L _ h1) h2⟩
    · have hL' : L ≤ top := hnew.2 ▸ hL.2
      obtain ⟨h1, h2⟩ := hs L hL'
      have e : nx m' L m.fresh = succs L := by unfold nx; rw [href, if_pos rfl, if_pos hL']
      have hlt : succs L < m.fresh := (h.made L _ h1).1.2
      rw [e]
      refine ⟨h1, rank_lt_iff.2 ?_, ?_⟩
      · rw [hnew.1, (hold _ hlt.ne).1]
        exact h2.lt_or_eq.imp_right fun h3 => ⟨h3, hlt⟩
      · rintro rfl
        rw [hnew.1, (hold _ hlt.ne).1]; exact h0
  · rw [hmk x (hlk L x hx)] at hx0
    rw [hhd]
    refine (h.reach L x hx hx0).congr fun y hy => hnx y ?_ L
    -- what is reachable is on the level, or NULL behind tail
    have hL := (h.made L x hx).2.1
    have hy' : y ∈ insert NULL (lk L) := by
      refine hy.mem (.inr (h.head L hL).1) ?_
      rintro a (rfl | ha)
      · exact .inl (h.stop L).2
      · by_cases hat : a = m.tail
        · rw [hat]; exact .inl (h.stop L).1
        · exact .inr (h.next a (h.made L a ha).1 hat L (h.made L a ha).2).1
    rcases hy' with rfl | hy'
    · exact Ne.symm hfresh
    · exact hlk L y hy'
  · rcases (hmade x).1 hx with hx | rfl
    · rw [hmk x (hne x hx)] at hx0 ⊢
      exact h.marks x hx hx0 L ((htall x (hne x hx) L).1 hL)
    · unfold mk at hx0
      rw [href, if_pos rfl, if_pos (Nat.zero_le top)] at hx0
      cases hx0

theorem Grows.create : Grows m (newTower m top k v succs) lk lk none := by
  have hr := newTower_rest m top k v succs
  have hkeep : ∀ x, Made m x → ∀ L, ref (newTower m top k v succs) L x = ref m L x := fun x hx L =>
    (ref_newTower m top k v succs L x).trans (if_neg hx.2.ne)
  refine ⟨fun _ => subset_rfl, hr.maxLevel, hr.head, hr.tail, ?_, fun x hx => newTower_of_ne hx.2.ne,
    fun x hx L _ => hkeep x hx L, fun x hx L h1 h2 => ?_, fun x hx _ => hkeep x hx⟩
  · exact (Nat.le_succ m.fresh).trans hr.fresh.ge
  · unfold mk at h1 h2
    rw [hkeep x hx, h1] at h2; cases h2

end Create

end AlgorithmCollection.LockFreeSkiplist
