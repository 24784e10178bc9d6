/-
Skip lists: one sorted chain per level, over nodes with towers.

`Towers next rank top head tail n D`: for every level L below n the chain through `next L` runs from head to tail over
the nodes of D whose tower reaches L (`level`). A search keeps, at each level, a node below the rank it looks for whose
successor is not below it (`Around`); it goes down with that node because the levels are nested (`level_subset`). Around a
rank the successor is the node of that rank, if its tower reaches the level (`Towers.hit`). Linking a node at the levels of
its tower (`Towers.insert`) and unlinking it there (`Towers.erase`) keep the chains of all levels.

`SkipMap`: a skip list that holds a finite map. `SkipMap.insert` and `SkipMap.erase` are the two loops over the levels of a
tower, and what they do to the map. `Listed` adds the number of levels and the keys of the sentinels, `SameData` says that
two skip lists differ in their links only.
-/
import AlgorithmCollection.Conc.Chain
import AlgorithmCollection.Conc.MapObject

namespace AlgorithmCollection.Conc

open Function (update update_self update_of_ne)

variable {R : Type*} [LinearOrder R]

/-! ## A search in one chain -/

/-- p is the last node of the chain below r -/
structure Around (next : ℕ → ℕ) (rank : ℕ → R) (tail : ℕ) (S : Finset ℕ) (r : R) (p : ℕ) : Prop where
  mem : p ∈ S
  ne : p ≠ tail
  lt : rank p < r
  le : r ≤ rank (next p)

theorem Around.congr {next next' : ℕ → ℕ} {rank rank' : ℕ → R} {tail : ℕ} {S : Finset ℕ} {r : R} {p : ℕ}
    (h : Around next rank tail S r p) (hn : next' p = next p) (h1 : rank' p = rank p)
    (h2 : rank' (next p) = rank (next p)) : Around next' rank' tail S r p :=
  ⟨h.mem, h.ne, by rw [h1]; exact h.lt, by rw [hn, h2]; exact h.le⟩

namespace Chain

variable {next : ℕ → ℕ} {rank : ℕ → R} {head tail : ℕ} {S : Finset ℕ} {r : R} {p a : ℕ}

/-- **The search stops** around r. -/
theorem seek_around (h : Chain next rank head tail S) (h0 : 0 ∉ S) (hr : r ≤ rank tail) (f : ℕ) (hp : p ∈ S)
    (hlt : rank p < r) (hf : (from_ S rank p).card ≤ f) :
    ∃ q, seek next rank r f p = some (q, next q) ∧ next q ≠ 0 ∧ Around next rank tail S r q := by
  have hne : ∀ q, rank q < r → q ≠ tail := fun q hq e => absurd hq (not_lt.2 (e ▸ hr))
  have hn0 : ∀ q, q ∈ S ∧ rank q < r → next q ∈ S ∧ next q ≠ 0 := fun q hq =>
    have hm := h.next_mem q hq.1 (hne q hq.2)
    ⟨hm, fun e => h0 (e ▸ hm)⟩
  obtain ⟨q, h1, h2, h3⟩ := h.seek_ends (B := fun q => q ∈ S ∧ rank q < r) (fun q hq => ⟨hq.1, hne q hq.2⟩)
    (fun q hq _ hlt => ⟨(hn0 q hq).1, hlt⟩) f ⟨hp, hlt⟩ hf
  exact ⟨q, h1, (hn0 q h2).2, h2.1, hne q h2.2, h2.2, h3.resolve_left (hn0 q h2).2⟩

/-- around the rank of a node, the successor is that node -/
theorem next_eq (h : Chain next rank head tail S) (ha : a ∈ S) (hp : Around next rank tail S (rank a) p) : next p = a :=
  h.inj _ (h.next_mem p hp.mem hp.ne) a ha (le_antisymm (h.gap p hp.mem hp.ne a ha hp.lt) hp.le)

end Chain

/-! ## Levels -/

/-- the nodes of level L, with the sentinels -/
def level (head tail : ℕ) (top : ℕ → ℕ) (D : Finset ℕ) (L : ℕ) : Finset ℕ :=
  insert head (insert tail (D.filter fun a => L ≤ top a))

section Level

variable {head tail : ℕ} {top top' : ℕ → ℕ} {D : Finset ℕ} {L a x : ℕ}

theorem mem_level : a ∈ level head tail top D L ↔ a = head ∨ a = tail ∨ (a ∈ D ∧ L ≤ top a) := by
  unfold level
  rw [Finset.mem_insert, Finset.mem_insert, Finset.mem_filter]

/-- **Levels are nested.** -/
theorem level_subset {L' : ℕ} (h : L' ≤ L) : level head tail top D L ⊆ level head tail top D L' := by
  intro a ha
  rw [mem_level] at ha ⊢
  exact ha.imp_right fun ha => ha.imp_right fun ha => ⟨ha.1, h.trans ha.2⟩

theorem level_congr (ht : ∀ a ∈ D, top' a = top a) : level head tail top' D L = level head tail top D L := by
  ext a
  rw [mem_level, mem_level]
  exact or_congr_right (or_congr_right (and_congr_right fun ha => by rw [ht a ha]))

theorem level_insert (hx : L ≤ top' x) (ht : ∀ a ∈ D, top' a = top a) :
    level head tail top' (insert x D) L = insert x (level head tail top D L) := by
  ext a
  rw [mem_level, Finset.mem_insert, Finset.mem_insert, mem_level]
  constructor
  · rintro (h | h | ⟨h | h, h'⟩)
    · exact .inr (.inl h)
    · exact .inr (.inr (.inl h))
    · exact .inl h
    · exact .inr (.inr (.inr ⟨h, ht a h ▸ h'⟩))
  · rintro (rfl | h | h | ⟨h, h'⟩)
    · exact .inr (.inr ⟨.inl rfl, hx⟩)
    · exact .inl h
    · exact .inr (.inl h)
    · exact .inr (.inr ⟨.inr h, (ht a h).symm ▸ h'⟩)

theorem level_insert_of_lt (hx : top' x < L) (ht : ∀ a ∈ D, top' a = top a) :
    level head tail top' (insert x D) L = level head tail top D L := by
  ext a
  rw [mem_level, mem_level, Finset.mem_insert]
  refine or_congr_right (or_congr_right ⟨?_, fun ⟨h, h'⟩ => ⟨.inr h, (ht a h).symm ▸ h'⟩⟩)
  rintro ⟨rfl | h, h'⟩
  · omega
  · exact ⟨h, ht a h ▸ h'⟩

theorem level_erase (h1 : x ≠ head) (h2 : x ≠ tail) :
    level head tail top (D.erase x) L = (level head tail top D L).erase x := by
  ext a
  rw [mem_level, Finset.mem_erase, Finset.mem_erase, mem_level]
  constructor
  · rintro (rfl | rfl | ⟨⟨h, h'⟩, h''⟩)
    · exact ⟨h1.symm, .inl rfl⟩
    · exact ⟨h2.symm, .inr (.inl rfl)⟩
    · exact ⟨h, .inr (.inr ⟨h', h''⟩)⟩
  · rintro ⟨h, h' | h' | ⟨h', h''⟩⟩
    · exact .inl h'
    · exact .inr (.inl h')
    · exact .inr (.inr ⟨⟨h, h'⟩, h''⟩)

end Level

/-! ## Towers -/

structure Towers (next : ℕ → ℕ → ℕ) (rank : ℕ → R) (top : ℕ → ℕ) (head tail n : ℕ) (D : Finset ℕ) : Prop where
  chain : ∀ L < n, Chain (next L) rank head tail (level head tail top D L)
  head_notMem : head ∉ D
  tail_notMem : tail ∉ D

namespace Towers

variable {next next' : ℕ → ℕ → ℕ} {rank rank' : ℕ → R} {top top' : ℕ → ℕ} {head tail n : ℕ} {D : Finset ℕ} {L p a x : ℕ}

variable (h : Towers next rank top head tail n D)

include h

theorem ne_head (ha : a ∈ D) : a ≠ head := fun e => h.head_notMem (e ▸ ha)

theorem ne_tail (ha : a ∈ D) : a ≠ tail := fun e => h.tail_notMem (e ▸ ha)

/-- the towers only depend on the links, ranks and heights of the nodes -/
theorem congr (hn : ∀ L < n, ∀ a ∈ level head tail top D L, a ≠ tail → next' L a = next L a)
    (hr : ∀ a, a = head ∨ a = tail ∨ a ∈ D → rank' a = rank a) (ht : ∀ a ∈ D, top' a = top a) :
    Towers next' rank' top' head tail n D where
  chain L hL := by
    rw [level_congr ht]
    exact (h.chain L hL).congr (hn L hL) fun a ha => hr a ((mem_level.1 ha).imp_right fun h => h.imp_right And.left)
  head_notMem := h.head_notMem
  tail_notMem := h.tail_notMem

/-- **Around the rank of a node** whose tower reaches the level, the successor is that node. -/
theorem hit (hL : L < n) (ha : a ∈ D) (hLa : L ≤ top a)
    (hp : Around (next L) rank tail (level head tail top D L) (rank a) p) : next L p = a :=
  (h.chain L hL).next_eq (mem_level.2 (.inr (.inr ⟨ha, hLa⟩))) hp

/-- a successor of a rank strictly between the sentinels is a node -/
theorem found (hL : L < n) {r : R}
    (hp : Around (next L) rank tail (level head tail top D L) r p) (hr : rank (next L p) = r) (h2 : r < rank tail) :
    next L p ∈ D ∧ L ≤ top (next L p) := by
  have hm := mem_level.1 ((h.chain L hL).next_mem p hp.mem hp.ne)
  rcases hm with e | e | hm
  · exact absurd e ((h.chain L hL).next_ne_head hp.mem hp.ne)
  · rw [e] at hr
    exact absurd h2 (hr ▸ lt_irrefl _)
  · exact hm

/-- around a rank at the lowest level, a different successor means that no node has the rank -/
theorem absent (hn : 0 < n) {r : R}
    (hp : Around (next 0) rank tail (level head tail top D 0) r p) (hr : rank (next 0 p) ≠ r) : ∀ a ∈ D, rank a ≠ r := by
  rintro a ha rfl
  exact hr (congrArg rank (h.hit hn ha (Nat.zero_le _) hp))

/-- **Linking** a node at the levels of its tower. -/
theorem insert (preds : ℕ → ℕ) (hxh : x ≠ head) (hxt : x ≠ tail)
    (hp : ∀ L < n, L ≤ top x → Around (next L) rank tail (level head tail top D L) (rank x) (preds L))
    (hs : ∀ L < n, L ≤ top x → rank (next L (preds L)) ≠ rank x)
    (e1 : ∀ L < n, L ≤ top x → next' L (preds L) = x) (e2 : ∀ L < n, L ≤ top x → next' L x = next L (preds L))
    (e3 : ∀ L < n, L ≤ top x → ∀ a ∈ level head tail top D L, a ≠ preds L → next' L a = next L a)
    (e4 : ∀ L < n, top x < L → ∀ a ∈ level head tail top D L, next' L a = next L a) :
    Towers next' rank top head tail n (insert x D) where
  chain L hL := by
    by_cases hLx : L ≤ top x
    · rw [level_insert hLx fun _ _ => rfl]
      have ha := hp L hL hLx
      have hlt : rank x < rank (next L (preds L)) := lt_of_le_of_ne ha.le fun e => hs L hL hLx e.symm
      exact (h.chain L hL).insert ha.mem ha.ne ha.lt hlt (e1 L hL hLx) (e2 L hL hLx) fun b hb hbp _ => e3 L hL hLx b hb hbp
    · rw [level_insert_of_lt (not_le.1 hLx) fun _ _ => rfl]
      exact (h.chain L hL).congr (fun b hb _ => e4 L hL (not_le.1 hLx) b hb) fun _ _ => rfl
  head_notMem hm := (Finset.mem_insert.1 hm).elim (fun e => hxh e.symm) h.head_notMem
  tail_notMem hm := (Finset.mem_insert.1 hm).elim (fun e => hxt e.symm) h.tail_notMem

/-- **Unlinking** a node at the levels of its tower. -/
theorem erase (preds : ℕ → ℕ) (hx : x ∈ D)
    (hp : ∀ L < n, L ≤ top x → Around (next L) rank tail (level head tail top D L) (rank x) (preds L))
    (e1 : ∀ L < n, L ≤ top x → next' L (preds L) = next L x)
    (e2 : ∀ L < n, L ≤ top x → ∀ a, a ≠ preds L → a ≠ x → next' L a = next L a)
    (e3 : ∀ L < n, top x < L → ∀ a, next' L a = next L a) :
    Towers next' rank top head tail n (D.erase x) where
  chain L hL := by
    rw [level_erase (h.ne_head hx) (h.ne_tail hx)]
    by_cases hLx : L ≤ top x
    · have ha := hp L hL hLx
      have hnext := h.hit hL hx hLx ha
      have hmem : x ∈ level head tail top D L := mem_level.2 (.inr (.inr ⟨hx, hLx⟩))
      have hpx : preds L ≠ x := fun e => absurd ha.lt (by rw [e]; exact lt_irrefl _)
      -- the link of x itself may have changed, but x is no longer in the chain
      have hc : Chain (update (next' L) x (next L x)) rank head tail ((level head tail top D L).erase (next L (preds L))) := by
        refine (h.chain L hL).erase ha.mem ha.ne (by rw [hnext]; exact h.ne_tail hx) ?_ fun b hb hbp _ => ?_
        · rw [update_of_ne hpx, e1 L hL hLx, hnext]
        · by_cases hbx : b = x
          · rw [hbx, update_self]
          · rw [update_of_ne hbx, e2 L hL hLx b hbp hbx]
      rw [hnext] at hc
      exact hc.congr (fun b hb _ => (update_of_ne (Finset.mem_erase.1 hb).1 ..).symm) fun _ _ => rfl
    · have hnot : x ∉ level head tail top D L := fun hm => by
        rcases mem_level.1 hm with e | e | hm
        · exact h.ne_head hx e
        · exact h.ne_tail hx e
        · exact hLx hm.2
      rw [Finset.erase_eq_of_notMem hnot]
      exact (h.chain L hL).congr (fun b _ _ => e3 L hL (not_le.1 hLx) b) fun _ _ => rfl
  head_notMem hm := h.head_notMem (Finset.mem_of_mem_erase hm)
  tail_notMem hm := h.tail_notMem (Finset.mem_of_mem_erase hm)

omit h

/-- **An empty skip list**: every level goes from head to tail. -/
theorem empty (hlt : rank head < rank tail) (hn : ∀ L < n, next L head = tail) :
    Towers next rank top head tail n ∅ where
  chain L hL := Chain.init (fun a => by simp [mem_level]) hlt (hn L hL)
  head_notMem := Finset.notMem_empty _
  tail_notMem := Finset.notMem_empty _

end Towers

/-! ## The map of a skip list -/

/-- the nodes of the towers are allocated and carry the pairs of the map -/
structure SkipMap {V : Type*} (next : ℕ → ℕ → ℕ) (key : ℕ → R) (val : ℕ → V) (top : ℕ → ℕ) (head tail n fresh : ℕ)
    (M : R → Option V) (D : Finset ℕ) : Prop where
  towers : Towers next key top head tail n D
  pos : 0 < n
  addr : ∀ a, a = head ∨ a = tail ∨ a ∈ D → a ≠ 0 ∧ a < fresh
  rep : Rep D key val M

namespace SkipMap

variable {V : Type*} {next next' : ℕ → ℕ → ℕ} {key : ℕ → R} {val : ℕ → V} {top : ℕ → ℕ} {head tail n fresh L a p x t : ℕ}
  {M : R → Option V} {D : Finset ℕ} {k : R} {v : V}

variable (h : SkipMap next key val top head tail n fresh M D)

include h

theorem level_addr (ha : a ∈ level head tail top D L) : a ≠ 0 ∧ a < fresh :=
  h.addr a ((mem_level.1 ha).imp_right fun h => h.imp_right And.left)

/-- the node where a search for k ends decides whether k is stored -/
theorem hit (hL : L < n)
    (hp : Around (next L) key tail (level head tail top D L) k p) (hk : key (next L p) = k) (hlt : k < key tail) :
    next L p ∈ D ∧ M k = some (val (next L p)) := by
  have hD := (h.towers.found hL hp hk hlt).1
  have hM := h.rep.holds hD
  rw [hk] at hM
  exact ⟨hD, hM⟩

theorem miss (hp : Around (next 0) key tail (level head tail top D 0) k p) (hk : key (next 0 p) ≠ k) :
    (∀ a ∈ D, key a ≠ k) ∧ M k = none :=
  have habs := h.towers.absent h.pos hp hk
  ⟨habs, h.rep.absent habs⟩

/-- **A new node** is linked at the levels of its tower. -/
theorem insert (preds : ℕ → ℕ) (hp : ∀ L < n, Around (next L) key tail (level head tail top D L) k (preds L))
    (hs : ∀ L < n, key (next L (preds L)) ≠ k)
    (e1 : ∀ L < n, L ≤ t →
      next' L = update (update (next L) fresh (next L (preds L))) (preds L) fresh)
    (e2 : ∀ L < n, t < L → ∃ y, next' L = update (next L) fresh y) :
    SkipMap next' (update key fresh k) (update val fresh v) (update top fresh t) head tail n
      (fresh + 1) (update M k (some v)) (insert fresh D) := by
  have hne : ∀ a, a = head ∨ a = tail ∨ a ∈ D → a ≠ fresh := fun a ha => (h.addr a ha).2.ne
  have hneD : ∀ a ∈ D, a ≠ fresh := fun a ha => hne a (.inr (.inr ha))
  have hnel : ∀ {L a}, a ∈ level head tail top D L → a ≠ fresh := fun ha => (h.level_addr ha).2.ne
  have hk : update key fresh k fresh = k := update_self ..
  have ht : update top fresh t fresh = t := update_self ..
  have h1 : Towers next (update key fresh k) (update top fresh t) head tail n D :=
    h.towers.congr (fun _ _ _ _ _ => rfl) (fun a ha => update_of_ne (hne a ha) ..) fun a ha => update_of_ne (hneD a ha) ..
  have hl : ∀ L, level head tail (update top fresh t) D L = level head tail top D L := fun L =>
    level_congr fun a ha => update_of_ne (hneD a ha) ..
  have hnext : ∀ L < n, next L (preds L) ≠ fresh := fun L hL => hnel ((h.towers.chain L hL).next_mem _ (hp L hL).mem (hp L hL).ne)
  refine ⟨h1.insert preds (hne head (.inl rfl)).symm (hne tail (.inr (.inl rfl))).symm (fun L hL _ => ?_) (fun L hL _ => ?_)
    (fun L hL hLt => ?_) (fun L hL hLt => ?_) (fun L hL hLt a ha hap => ?_) fun L hL hLt a ha => ?_, h.pos, fun a ha => ?_, ?_⟩
  · rw [hl, hk]
    exact (hp L hL).congr rfl (update_of_ne (hnel (hp L hL).mem) ..) (update_of_ne (hnext L hL) ..)
  · rw [hk, update_of_ne (hnext L hL)]
    exact hs L hL
  · rw [e1 L hL (ht ▸ hLt), update_self]
  · rw [e1 L hL (ht ▸ hLt), update_of_ne (hnel (hp L hL).mem).symm, update_self]
  · rw [hl] at ha
    rw [e1 L hL (ht ▸ hLt), update_of_ne hap, update_of_ne (hnel ha)]
  · rw [hl] at ha
    obtain ⟨y, e⟩ := e2 L hL (ht ▸ hLt)
    rw [e, update_of_ne (hnel ha)]
  · by_cases e : a = fresh
    · rw [e]
      exact ⟨(lt_of_le_of_lt (Nat.zero_le _) (h.addr head (.inl rfl)).2).ne', Nat.lt_succ_self _⟩
    · refine (h.addr a (ha.imp_right fun ha => ha.imp_right fun ha => ?_)).imp_right Nat.lt_succ_of_lt
      exact (Finset.mem_insert.1 ha).resolve_left e
  · have hrep := h.rep.congr (fun a ha => update_of_ne (hneD a ha) k key) fun a ha => update_of_ne (hneD a ha) v val
    have hnew := hrep.insert (n := fresh) fun a ha => by
      rw [hk, update_of_ne (hneD a ha)]
      exact (h.miss (hp 0 h.pos) (hs 0 h.pos)).1 a ha
    rwa [hk, update_self] at hnew

/-- **A node** is unlinked at the levels of its tower. -/
theorem erase (preds : ℕ → ℕ) (hx : x ∈ D)
    (hp : ∀ L < n, Around (next L) key tail (level head tail top D L) (key x) (preds L))
    (e : ∀ L < n, next' L = if L ≤ top x then update (next L) (preds L) (next L x) else next L) :
    SkipMap next' key val top head tail n fresh (update M (key x) none) (D.erase x) := by
  refine ⟨h.towers.erase preds hx (fun L hL _ => hp L hL) (fun L hL hLx => ?_) (fun L hL hLx a h1 _ => ?_)
    fun L hL hLx a => ?_, h.pos, fun a ha => ?_, h.rep.erase fun a ha e => ?_⟩
  · rw [e L hL, if_pos hLx, update_self]
  · rw [e L hL, if_pos hLx, update_of_ne h1]
  · rw [e L hL, if_neg (not_le.2 hLx)]
  · exact h.addr a (ha.imp_right fun h => h.imp_right Finset.mem_of_mem_erase)
  · exact (h.towers.chain 0 h.pos).inj a (mem_level.2 (.inr (.inr ⟨ha, Nat.zero_le _⟩))) x
      (mem_level.2 (.inr (.inr ⟨hx, Nat.zero_le _⟩))) e

omit h

theorem empty (h1 : head ≠ 0 ∧ head < fresh) (h2 : tail ≠ 0 ∧ tail < fresh) (hlt : key head < key tail)
    (hn : ∀ L < n, next L head = tail) (hpos : 0 < n) :
    SkipMap next key val top head tail n fresh (fun _ => none) ∅ := by
  refine ⟨.empty hlt hn, hpos, fun a ha => ?_, fun k v => ?_⟩
  · rcases ha with rfl | rfl | ha
    · exact h1
    · exact h2
    · exact absurd ha (Finset.notMem_empty a)
  · exact iff_of_false (by simp) fun ⟨a, ha, _⟩ => Finset.notMem_empty a ha

/-! What a traversal from head sees -/

section Walk

variable (h : SkipMap next key val top head tail n fresh M D) (hlt : key head < key tail) (hL : L < n)
include h hlt hL

theorem mem_walk (a : ℕ) : a ∈ walk (next L) (fun a => a = tail) fresh (next L head) ↔ a ∈ D ∧ L ≤ top a := by
  rw [(h.towers.chain L hL).mem_walk_head (by simp) (ne_of_apply_ne key hlt.ne) (fun _ ha => (h.level_addr ha).2), mem_level]
  constructor
  · rintro ⟨h1 | h1 | h1, h2, h3⟩
    · exact absurd h1 h2
    · exact absurd h1 h3
    · exact h1
  · exact fun h1 => ⟨.inr (.inr h1), h.towers.ne_head h1.1, h.towers.ne_tail h1.1⟩

theorem walk_linked :
    (head :: (walk (next L) (fun a => a = tail) fresh (next L head) ++ [tail])).IsChain fun x y => next L x = y :=
  (h.towers.chain L hL).walk_head_linked (by simp) (ne_of_apply_ne key hlt.ne) fun _ ha => (h.level_addr ha).2

theorem walk_sorted :
    (head :: (walk (next L) (fun a => a = tail) fresh (next L head) ++ [tail])).Pairwise fun x y => key x < key y :=
  (h.towers.chain L hL).walk_head_sorted (by simp) (ne_of_apply_ne key hlt.ne) fun _ ha => (h.level_addr ha).2

theorem walk_towers (a : ℕ) : a ∈ walk (next L) (fun a => a = tail) fresh (next L head) ↔
    a ∈ walk (next 0) (fun a => a = tail) fresh (next 0 head) ∧ L ≤ top a := by
  rw [h.mem_walk hlt hL, h.mem_walk hlt h.pos]
  exact ⟨fun ⟨h1, h2⟩ => ⟨⟨h1, Nat.zero_le _⟩, h2⟩, fun ⟨⟨h1, _⟩, h2⟩ => ⟨h1, h2⟩⟩

omit hL

theorem walk_pairs (k : R) (v : V) :
    (∃ a ∈ walk (next 0) (fun a => a = tail) fresh (next 0 head), key a = k ∧ val a = v) ↔ M k = some v := by
  rw [h.rep k v]
  refine exists_congr fun a => and_congr_left' ?_
  rw [h.mem_walk hlt h.pos]
  exact and_iff_left (Nat.zero_le _)

end Walk

end SkipMap

/-- a skip list of N levels whose sentinels have the keys lo and hi -/
structure Listed {V : Type*} (next : ℕ → ℕ → ℕ) (key : ℕ → R) (val : ℕ → V) (top : ℕ → ℕ) (head tail n fresh N : ℕ)
    (lo hi : R) (M : R → Option V) (D : Finset ℕ) : Prop extends SkipMap next key val top head tail n fresh M D where
  levels : n = N
  head_key : key head = lo
  tail_key : key tail = hi

namespace Listed

variable {V : Type*} {next next' : ℕ → ℕ → ℕ} {key : ℕ → R} {val : ℕ → V} {top : ℕ → ℕ} {head tail n fresh N t : ℕ}
  {lo hi k : R} {M M' : R → Option V} {D D' : Finset ℕ} {v : V}

variable (h : Listed next key val top head tail n fresh N lo hi M D)

include h

theorem key_lt (hlt : lo < hi) : key head < key tail := by
  rw [h.head_key, h.tail_key]
  exact hlt

/-- a new node does not change the sentinels -/
theorem insert (hs : SkipMap next' (update key fresh k) (update val fresh v) (update top fresh t) head tail n (fresh + 1) M' D') :
    Listed next' (update key fresh k) (update val fresh v) (update top fresh t) head tail n (fresh + 1) N lo hi M' D' :=
  ⟨hs, h.levels, (update_of_ne (h.addr head (.inl rfl)).2.ne ..).trans h.head_key,
    (update_of_ne (h.addr tail (.inr (.inl rfl))).2.ne ..).trans h.tail_key⟩

end Listed

/-! ## Loops over the levels -/

/-- the data of two skip lists, without the links -/
structure SameData {V : Type*} (key key' : ℕ → R) (val val' : ℕ → V) (top top' : ℕ → ℕ)
    (maxLevel maxLevel' head head' tail tail' fresh fresh' : ℕ) : Prop where
  ky : key' = key
  vl : val' = val
  tp : top' = top
  maxLevel : maxLevel' = maxLevel
  head : head' = head
  tail : tail' = tail
  fresh : fresh' = fresh

section Same

variable {V : Type*} {key1 key2 key3 : ℕ → R} {val1 val2 val3 : ℕ → V} {top1 top2 top3 : ℕ → ℕ}
  {n1 n2 n3 h1 h2 h3 t1 t2 t3 f1 f2 f3 : ℕ}

omit [LinearOrder R] in
theorem SameData.refl : SameData key1 key1 val1 val1 top1 top1 n1 n1 h1 h1 t1 t1 f1 f1 :=
  ⟨rfl, rfl, rfl, rfl, rfl, rfl, rfl⟩

omit [LinearOrder R] in
theorem SameData.trans (a : SameData key1 key2 val1 val2 top1 top2 n1 n2 h1 h2 t1 t2 f1 f2)
    (b : SameData key2 key3 val2 val3 top2 top3 n2 n3 h2 h3 t2 t3 f2 f3) :
    SameData key1 key3 val1 val3 top1 top3 n1 n3 h1 h3 t1 t3 f1 f3 :=
  ⟨b.ky.trans a.ky, b.vl.trans a.vl, b.tp.trans a.tp, b.maxLevel.trans a.maxLevel, b.head.trans a.head,
    b.tail.trans a.tail, b.fresh.trans a.fresh⟩

end Same

/-- what every round of a loop keeps, the loop keeps -/
theorem foldl_related {σ : Type*} {Q : σ → σ → Prop} (hr : ∀ s, Q s s) (ht : ∀ s s' s'', Q s s' → Q s' s'' → Q s s'')
    {step : σ → ℕ → σ} (h : ∀ s L, Q s (step s L)) (l : List ℕ) (s : σ) : Q s (l.foldl step s) := by
  induction l generalizing s with
  | nil => exact hr s
  | cons L l ih => exact ht _ _ _ (h s L) (ih _)

section Rows

variable {σ α : Type*} (row : σ → ℕ → α) {step : σ → ℕ → σ} (F : ℕ → α → α)

/-- **A loop that works on one level per round** has changed the levels it went over, each once. -/
theorem foldl_rows (h : ∀ s L, row (step s L) = update (row s) L (F L (row s L))) (l : List ℕ) (hl : l.Nodup)
    (s : σ) (L : ℕ) : row (l.foldl step s) L = if L ∈ l then F L (row s L) else row s L := by
  induction l generalizing s with
  | nil => simp
  | cons K l ih =>
    obtain ⟨hK, hl⟩ := List.nodup_cons.1 hl
    rw [List.foldl_cons, ih hl, h s K]
    by_cases e : L = K
    · subst e
      rw [if_neg hK, if_pos List.mem_cons_self, update_self]
    · rw [update_of_ne e]
      simp [e]

end Rows

end AlgorithmCollection.Conc
