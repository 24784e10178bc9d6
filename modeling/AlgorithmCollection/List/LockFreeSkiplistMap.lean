/-
`LockFreeSkiplist` run by one thread: `_add` and `_delete` implement a map, on a fully cleaned skip list.

`Ready m D x k n`: the lowest n levels are chains over the towers of D, where every link is UNMARKED except those of x, whose
key is k. A pass of `search` for k over such a level stops around k, and snips x if the level has it (`walkLevel_spec`);
so a search of all levels leaves the list alone if nothing is marked, and takes the tower of x out otherwise
(`searchFrom_spec`). `Holds`: the invariant between calls, where nothing is marked. `calls_clean`: whole runs.
-/
import AlgorithmCollection.List.LockFreeSkiplist

namespace AlgorithmCollection.LockFreeSkiplist

open Conc
open Function (update update_self update_of_ne update_eq_self update_idem comp_update)

/-! ## `search` -/

/-- the node set of a level -/
abbrev levelOf (m : Mem) (D : Finset ℕ) (L : ℕ) : Finset ℕ := level m.head m.tail (tp m) D L

section Search

variable {m : Mem} {k : ℤ} {D S : Finset ℕ} {head tail x L p : ℕ}

/-- **A pass over one level** stops around k. If x, the only marked node, is on the level, it is snipped on the way. -/
theorem walkLevel_spec (hc : Chain (nx m L) (ky m) head tail S) (h0 : 0 ∉ S) (hk : k < ky m tail)
    (hmk : ∀ a ∈ S, mk m L a = .MARKED ↔ a = x) (hx : x ∈ S → ky m x = k) (f : ℕ) (hp : p ∈ S) (hlt : ky m p < k)
    (hf : (Chain.from_ S (ky m) p).card < f) :
    ∃ q, Around (nx m L) (ky m) tail S k q ∧
      ((x ∉ S ∧ walkLevel k L f m p (nx m L p) = .done m q (nx m L q)) ∨
        (x ∈ S ∧ nx m L q = x ∧
          walkLevel k L f m p (nx m L p) = .done (setRef m q L ⟨.UNMARKED, nx m L x⟩) q (nx m L x))) := by
  induction f generalizing p with
  | zero => exact absurd hf (Nat.not_lt_zero _)
  | succ f ih =>
    have hpt : p ≠ tail := fun e => absurd hlt (not_lt.2 (e ▸ hk.le))
    have hm := hc.next_mem p hp hpt
    have hn0 : nx m L p ≠ 0 := fun e => h0 (e ▸ hm)
    have hcard := hc.card_next hp hpt
    have hpx : p ≠ x := fun e => absurd (hx (e ▸ hp)) (by rw [← e]; exact hlt.ne)
    have hpu : mk m L p = .UNMARKED := by
      cases hmark : mk m L p with
      | MARKED => exact absurd ((hmk p hp).1 hmark) hpx
      | UNMARKED => rfl
    unfold walkLevel
    rw [if_neg (show nx m L p ≠ NULL from hn0)]
    by_cases hcx : nx m L p = x
    · -- the successor is marked: it is taken out, and the next node is past k
      have hxS : x ∈ S := hcx ▸ hm
      have hxk := hx hxS
      have hxt : x ≠ tail := fun e => absurd hxk (by rw [e]; exact hk.ne')
      have hm2 := hc.next_mem x hxS hxt
      have hlt2 := hc.lt_next x hxS hxt
      have hn2 : nx m L x ≠ 0 := fun e => h0 (e ▸ hm2)
      have hne : nx m L x ≠ p := fun e => by rw [e, hxk] at hlt2; exact lt_asymm hlt hlt2
      have hcas := cas_of_eq ⟨.UNMARKED, nx m L x⟩ (ref_eq (r := ⟨.UNMARKED, x⟩) hpu hcx)
      refine ⟨p, ⟨hp, hpt, hlt, by rw [hcx, hxk]⟩, .inr ⟨hxS, hcx, ?_⟩⟩
      rw [hcx, if_pos ((hmk x hxS).2 rfl), hcas]
      have hnext : nx (setRef m p L ⟨.UNMARKED, nx m L x⟩) L p = nx m L x := by rw [nx_setRef, update_self]
      have hmark : mk (setRef m p L ⟨.UNMARKED, nx m L x⟩) L (nx m L x) ≠ .MARKED := by
        rw [mk_setRef, update_of_ne hne]
        exact fun e => absurd ((hmk _ hm2).1 e) fun e => by rw [e] at hlt2; exact lt_irrefl _ hlt2
      have hkey : ¬ k > ky (setRef m p L ⟨.UNMARKED, nx m L x⟩) (nx m L x) := by
        rw [sameRest_setRef.ky, ← hxk]
        exact not_lt.2 hlt2.le
      obtain ⟨f, rfl⟩ : ∃ g, f = g + 1 := ⟨f - 1, by
        have : p ∈ Chain.from_ S (ky m) p := Finset.mem_filter.2 ⟨hp, le_rfl⟩
        have := Finset.card_pos.2 ⟨p, this⟩
        omega⟩
      simp only [hnext]
      unfold walkLevel
      rw [if_neg (show nx m L x ≠ NULL from hn2), if_neg hmark, if_neg hkey]
    · rw [if_neg fun e => hcx ((hmk _ hm).1 e)]
      by_cases hgt : k > ky m (nx m L p)
      · rw [if_pos hgt]
        exact ih hm hgt (by omega)
      · rw [if_neg hgt]
        refine ⟨p, ⟨hp, hpt, hlt, not_lt.1 hgt⟩, .inl ⟨fun hxS => ?_, rfl⟩⟩
        exact hcx (hc.next_eq hxS ⟨hp, hpt, by rw [hx hxS]; exact hlt, by rw [hx hxS]; exact not_lt.1 hgt⟩)

structure Ready (m : Mem) (D : Finset ℕ) (x : ℕ) (k : ℤ) (n : ℕ) : Prop where
  chain : ∀ L < n, Chain (nx m L) (ky m) m.head m.tail (levelOf m D L)
  mark : ∀ L < n, ∀ a ∈ levelOf m D L, mk m L a = .MARKED ↔ a = x
  key : ∀ L < n, x ∈ levelOf m D L → ky m x = k
  addr : ∀ a, a = m.head ∨ a = m.tail ∨ a ∈ D → a ≠ 0 ∧ a < m.fresh
  high : k < ky m m.tail

/-- level L after the pass: x is out, and nothing else has changed -/
structure Passed (m m' : Mem) (D : Finset ℕ) (x : ℕ) (k : ℤ) (ws : Workspace) (L : ℕ) : Prop where
  around : Around (nx m L) (ky m) m.tail (levelOf m D L) k (ws.preds L)
  next : nx m' L = if x ∈ levelOf m D L then update (nx m L) (ws.preds L) (nx m L x) else nx m L
  mark : mk m' L = mk m L
  succ : ws.succs L = nx m' L (ws.preds L)

theorem Ready.level_addr {n a : ℕ} (h : Ready m D x k n) (ha : a ∈ levelOf m D L) : a ≠ 0 ∧ a < m.fresh :=
  h.addr a ((mem_level.1 ha).imp_right fun h => h.imp_right And.left)

/-- **The descending pass** over the lowest n levels, by induction on n. -/
theorem searchFrom_spec (n : ℕ) (h : Ready m D x k n) (ws : Workspace) (hp : ∀ L < n, p ∈ levelOf m D L) (hlt : ky m p < k)
    (c : ℕ) :
    ∃ m' ws' c', searchFrom k n m ws p c = .ok (m', ws', some c') ∧ SameRest m m' ∧
      (∀ L < n, Passed m m' D x k ws' L) ∧
      (∀ L, n ≤ L → ref m' L = ref m L ∧ ws'.preds L = ws.preds L ∧ ws'.succs L = ws.succs L) ∧
      (0 < n → c' = ws'.succs 0) ∧ ((∀ L < n, x ∉ levelOf m D L) → m' = m) := by
  induction n generalizing m p ws c with
  | zero =>
    exact ⟨m, ws, c, rfl, .refl, fun L hL => absurd hL (Nat.not_lt_zero L), fun _ _ => ⟨rfl, rfl, rfl⟩,
      fun hn => absurd hn (Nat.lt_irrefl 0), fun _ => rfl⟩
  | succ n ih =>
    have hn := Nat.lt_succ_self n
    obtain ⟨q, hq, hcase⟩ := walkLevel_spec (h.chain n hn) (fun h0 => (h.level_addr h0).1 rfl) h.high (h.mark n hn) (h.key n hn)
      (m.fresh + 1) (hp n hn) hlt (Nat.lt_succ_of_le (Chain.card_from_le _ (fun a ha => (h.level_addr ha).2) _))
    -- both outcomes: the level is as before, or x is out of it
    obtain ⟨m1, hw, hr, hother, hnext, hmark, hsame⟩ : ∃ m1, walkLevel k n (m.fresh + 1) m p (nx m n p) = .done m1 q (nx m1 n q) ∧
        SameRest m m1 ∧ (∀ L, L ≠ n → ref m1 L = ref m L) ∧
        nx m1 n = (if x ∈ levelOf m D n then update (nx m n) q (nx m n x) else nx m n) ∧ mk m1 n = mk m n ∧
        (x ∉ levelOf m D n → m1 = m) := by
      rcases hcase with ⟨hx, hw⟩ | ⟨hx, hqx, hw⟩
      · exact ⟨m, hw, .refl, fun _ _ => rfl, by rw [if_neg hx], rfl, fun _ => rfl⟩
      · refine ⟨setRef m q n ⟨.UNMARKED, nx m n x⟩, ?_, sameRest_setRef, fun L hL => ref_setRef_of_ne hL, ?_, ?_,
          fun hn => absurd hx hn⟩
        · rw [hw, nx_setRef, update_self]
        · rw [if_pos hx, nx_setRef]
        · have hqu : mk m n q = .UNMARKED := by
            cases hm : mk m n q with
            | UNMARKED => rfl
            | MARKED =>
              have hxq := (h.mark n hn q hq.mem).1 hm
              exact absurd hq.lt (by rw [hxq, h.key n hn hx]; exact lt_irrefl _)
          rw [mk_setRef, ← hqu, update_eq_self]
    have hlev : ∀ L, levelOf m1 D L = levelOf m D L := fun L => by unfold levelOf; rw [hr.tp, hr.head, hr.tail]
    have hnx : ∀ L, L ≠ n → nx m1 L = nx m L := fun L hL => by funext a; unfold nx; rw [hother L hL]
    have hmk : ∀ L, L ≠ n → mk m1 L = mk m L := fun L hL => by funext a; unfold mk; rw [hother L hL]
    have h1 : Ready m1 D x k n := by
      refine ⟨fun L hL => ?_, fun L hL a ha => ?_, fun L hL hx => ?_, fun a ha => ?_, ?_⟩
      · rw [hnx L hL.ne, hlev, hr.ky, hr.head, hr.tail]; exact h.chain L (by omega)
      · rw [hlev] at ha
        rw [hmk L hL.ne]; exact h.mark L (by omega) a ha
      · rw [hlev] at hx
        rw [hr.ky]; exact h.key L (by omega) hx
      · rw [hr.head, hr.tail] at ha
        rw [hr.fresh]; exact h.addr a ha
      · rw [hr.ky, hr.tail]; exact h.high
    obtain ⟨m', ws', c', h2, h3, h4, h5, h6, h7⟩ := ih h1
      ⟨update ws.preds n q, update ws.succs n (nx m1 n q)⟩
      (fun L hL => by rw [hlev]; exact level_subset hL.le hq.mem) (by rw [hr.ky]; exact hq.lt) (nx m1 n q)
    obtain ⟨e1, e2, e3⟩ := h5 n le_rfl
    replace e2 : ws'.preds n = q := e2.trans (update_self ..)
    replace e3 : ws'.succs n = nx m1 n q := e3.trans (update_self ..)
    have enx : nx m' n = nx m1 n := by funext a; unfold nx; rw [e1]
    have emk : mk m' n = mk m1 n := by funext a; unfold mk; rw [e1]
    refine ⟨m', ws', c', ?_, hr.trans h3, fun L hL => ?_, fun L hL => ?_, fun _ => ?_, fun hx => ?_⟩
    · unfold searchFrom
      rw [hw]
      exact h2
    · rcases Nat.lt_succ_iff_lt_or_eq.1 hL with hL | rfl
      · obtain ⟨p1, p2, p3, p4⟩ := h4 L hL
        rw [hnx L hL.ne, hlev, hr.ky, hr.tail] at p1
        rw [hnx L hL.ne, hlev] at p2
        rw [hmk L hL.ne] at p3
        exact ⟨p1, p2, p3, p4⟩
      · exact ⟨by rw [e2]; exact hq, by rw [enx, hnext, e2], by rw [emk, hmark], by rw [e3, enx, e2]⟩
    · obtain ⟨p1, p2, p3⟩ := h5 L (by omega)
      exact ⟨p1.trans (hother L (by omega)), p2.trans (update_of_ne (by omega) ..),
        p3.trans (update_of_ne (by omega) ..)⟩
    · rcases Nat.eq_zero_or_pos n with rfl | hpos
      · unfold searchFrom at h2
        cases h2
        exact e3.symm
      · exact h6 hpos
    · rw [h7 fun L hL => by rw [hlev]; exact hx L (by omega)]
      exact hsame (hx n hn)

/-- **`search`** needs one pass. -/
theorem search_spec (h : Ready m D x k m.maxLevel) (hpos : 0 < m.maxLevel) (hlow : ky m m.head < k) (ws : Workspace) (f : ℕ) :
    ∃ m' ws', search k (f + 1) m ws = .ok (m', ws', decide (ky m (ws'.succs 0) = k)) ∧ SameRest m m' ∧
      (∀ L < m.maxLevel, Passed m m' D x k ws' L) ∧ (∀ L, m.maxLevel ≤ L → ref m' L = ref m L) ∧
      ((∀ L < m.maxLevel, x ∉ levelOf m D L) → m' = m) := by
  obtain ⟨m', ws', c, h1, h2, h3, h4, h5, h6⟩ :=
    searchFrom_spec m.maxLevel h ws (fun L _ => mem_level.2 (.inl rfl)) hlow NULL
  refine ⟨m', ws', ?_, h2, h3, fun L hL => (h4 L hL).1, h6⟩
  unfold search
  rw [h1, ← h2.ky, ← h5 hpos]

end Search

/-! ## The list and its map -/

structure Holds (m : Mem) (N : ℕ) (lo hi : ℤ) (M : ℤ → Option ℤ) (D : Finset ℕ) : Prop
    extends Listed (nx m) (ky m) (vl m) (tp m) m.head m.tail m.maxLevel m.fresh N lo hi M D where
  unmarked : ∀ L < m.maxLevel, ∀ a ∈ levelOf m D L, mk m L a = .UNMARKED

section Calls

variable {m : Mem} {N : ℕ} {lo hi k v : ℤ} {M : ℤ → Option ℤ} {D : Finset ℕ}

variable (h : Holds m N lo hi M D)

include h

/-- nothing is marked: the search meets no victim -/
theorem Holds.ready (hk : k < hi) : Ready m D 0 k m.maxLevel where
  chain := h.towers.chain
  mark L hL a ha := by
    rw [h.unmarked L hL a ha]
    exact iff_of_false (by simp) fun e => (h.toSkipMap.level_addr ha).1 e
  key L _ hx := absurd rfl (h.toSkipMap.level_addr hx).1
  addr := h.addr
  high := by rw [h.tail_key]; exact hk

/-- the levels that no tower reaches, as seen from head -/
def SameAbove (m m' : Mem) : Prop := ∀ L, m.maxLevel ≤ L → ref m' L m'.head = ref m L m.head

/-- what `search` leaves in its arrays -/
structure Found (m : Mem) (D : Finset ℕ) (k : ℤ) (ws : Workspace) : Prop where
  around : ∀ L < m.maxLevel, Around (nx m L) (ky m) m.tail (levelOf m D L) k (ws.preds L)
  succ : ∀ L < m.maxLevel, ws.succs L = nx m L (ws.preds L)

/-- **`search` on a clean list** changes nothing, and finds the key iff it is stored. -/
theorem Holds.search (h1 : lo < k) (h2 : k < hi) (ws : Workspace) (f : ℕ) :
    ∃ ws' b, search k (f + 1) m ws = .ok (m, ws', b) ∧ Found m D k ws' ∧
      ((b = false ∧ (∀ a ∈ D, ky m a ≠ k) ∧ M k = none) ∨
        (b = true ∧ ws'.succs 0 ∈ D ∧ ky m (ws'.succs 0) = k ∧ M k = some (vl m (ws'.succs 0)))) := by
  obtain ⟨m', ws', h3, -, h4, -, h5⟩ := search_spec (h.ready h2) h.pos (by rw [h.head_key]; exact h1) ws f
  have h0 : ∀ L < m.maxLevel, (0 : ℕ) ∉ levelOf m D L := fun L _ hx => (h.toSkipMap.level_addr hx).1 rfl
  obtain rfl := h5 h0
  have hf : Found m' D k ws' := ⟨fun L hL => (h4 L hL).around, fun L hL => (h4 L hL).succ⟩
  have hs := hf.succ 0 h.pos
  by_cases e : ky m' (ws'.succs 0) = k
  · refine ⟨ws', true, by rw [h3, decide_eq_true e], hf, .inr ⟨rfl, ?_⟩⟩
    rw [hs] at e ⊢
    obtain ⟨hD, hM⟩ := h.toSkipMap.hit h.pos (hf.around 0 h.pos) e (by rw [h.tail_key]; exact h2)
    exact ⟨hD, e, hM⟩
  · refine ⟨ws', false, by rw [h3, decide_eq_false e], hf, .inl ⟨rfl, ?_⟩⟩
    rw [hs] at e
    exact h.toSkipMap.miss (hf.around 0 h.pos) e

/-! ### `_add` -/

omit h in
/-- **The upper levels are linked** one by one, each by its first cas. -/
theorem linkLevels_spec (k : ℤ) (x : ℕ) (ws : Workspace) (n level : ℕ) (m : Mem)
    (h : ∀ L, level ≤ L → L < level + n → ref m L (ws.preds L) = ⟨.UNMARKED, ws.succs L⟩) :
    ∃ m', linkLevels x k level n m ws = .ok (m', ws) ∧ SameRest m m' ∧
      ∀ L, ref m' L = if level ≤ L ∧ L < level + n then update (ref m L) (ws.preds L) ⟨.UNMARKED, x⟩ else ref m L := by
  induction n generalizing level m with
  | zero =>
    refine ⟨m, rfl, .refl, fun L => ?_⟩
    rw [if_neg (by omega)]
  | succ n ih =>
    have hcas := cas_of_eq ⟨.UNMARKED, x⟩ (h level le_rfl (by omega))
    obtain ⟨m', h1, h2, h3⟩ := ih (level + 1) (setRef m (ws.preds level) level ⟨.UNMARKED, x⟩) fun L hL1 hL2 => by
      rw [ref_setRef_of_ne (by omega)]
      exact h L (by omega) (by omega)
    refine ⟨m', ?_, sameRest_setRef.trans h2, fun L => ?_⟩
    · unfold linkLevels linkLevel
      rw [hcas]
      exact h1
    · rw [h3 L]
      by_cases hL : L = level
      · subst hL
        rw [if_neg (by omega), if_pos (by omega), ref_setRef_self]
      · rw [ref_setRef_of_ne hL]
        by_cases hin : level + 1 ≤ L ∧ L < level + 1 + n
        · rw [if_pos hin, if_pos (by omega)]
        · rw [if_neg hin, if_neg (by omega)]

/-- the links after `_add` of a node x of height t -/
def AddedRefs (m : Mem) (ws : Workspace) (x t : ℕ) (m' : Mem) : Prop :=
  ∀ L, ref m' L = if L ≤ t then
    update (update (ref m L) x ⟨.UNMARKED, ws.succs L⟩) (ws.preds L) ⟨.UNMARKED, x⟩ else ref m L

/-- the new node is in the list at all levels of its tower -/
theorem Holds.added (hk : k < hi) {ws : Workspace} (hf : Found m D k ws) (habs : ∀ a ∈ D, ky m a ≠ k) {t : ℕ}
    {m' : Mem} (hr : SameRest (createNode m t k v) m') (href : AddedRefs (createNode m t k v) ws m.fresh t m') :
    Holds m' N lo hi (update M k (some v)) (insert m.fresh D) := by
  -- `create_node` writes at the address m.fresh only
  have hrf : ∀ L, ∃ y, ref (createNode m t k v) L = update (ref m L) m.fresh y := fun L =>
    ⟨_, comp_update (fun n : Node => n.tower L) ..⟩
  have hky : ky m' = update (ky m) m.fresh k := hr.ky.trans (comp_update Node.key ..)
  have hvl : vl m' = update (vl m) m.fresh v := hr.vl.trans (comp_update Node.val ..)
  have htp : tp m' = update (tp m) m.fresh t := hr.tp.trans (comp_update Node.topLevel ..)
  refine ⟨?_, fun L hL a ha => ?_⟩
  · rw [hky, hvl, htp, hr.head, hr.tail, hr.maxLevel, hr.fresh]
    refine h.toListed.insert
      (h.toSkipMap.insert ws.preds hf.around (fun L hL e => ?_) (fun L hL hLt => ?_) fun L hL hLt => ?_)
    · exact habs _ (h.towers.found hL (hf.around L hL) e (by rw [h.tail_key]; exact hk)).1 e
    · obtain ⟨y, hy⟩ := hrf L
      change Ref.next ∘ ref m' L = _
      rw [href L, if_pos hLt, hy, update_idem, comp_update, comp_update, hf.succ L hL]
      rfl
    · obtain ⟨y, hy⟩ := hrf L
      refine ⟨y.next, ?_⟩
      change Ref.next ∘ ref m' L = _
      rw [href L, if_neg (not_le.2 hLt), hy, comp_update]
      rfl
  · -- the two links that were written are UNMARKED
    obtain ⟨y, hy⟩ := hrf L
    rw [hr.maxLevel] at hL
    unfold levelOf at ha
    rw [htp, hr.head, hr.tail, mem_level] at ha
    unfold LockFreeSkiplist.mk
    rw [href L, hy]
    by_cases hn : a = m.fresh
    · -- the tower of the new node reaches the level
      have hLt : L ≤ t := by
        rcases ha with e | e | ⟨-, e⟩
        · exact absurd (hn.symm.trans e) (h.addr m.head (.inl rfl)).2.ne'
        · exact absurd (hn.symm.trans e) (h.addr m.tail (.inr (.inl rfl))).2.ne'
        · rwa [hn, update_self] at e
      rw [if_pos hLt, update_idem, hn]
      by_cases h1 : m.fresh = ws.preds L
      · rw [← h1, update_self]
      · rw [update_of_ne h1, update_self]
    · have hmem : a ∈ levelOf m D L := by
        refine mem_level.2 (ha.imp_right fun h1 => h1.imp_right fun h1 => ?_)
        rw [update_of_ne hn] at h1
        exact ⟨(Finset.mem_insert.1 h1.1).resolve_left hn, h1.2⟩
      have hold := h.unmarked L hL a hmem
      split_ifs
      · by_cases h1 : a = ws.preds L
        · rw [h1, update_self]
        · rw [update_of_ne h1, update_of_ne hn, update_of_ne hn]
          exact hold
      · rw [update_of_ne hn]
        exact hold

theorem add_holds (h1 : lo < k) (h2 : k < hi) (ws : Workspace) (r : ℕ) :
    ∃ m' ws' D', add m ws k v r = .ok (m', ws', !(M k).isSome) ∧
      Holds m' N lo hi (if (M k).isSome then M else update M k (some v)) D' ∧ SameAbove m m' := by
  obtain ⟨ws1, b, h3, hf, h4⟩ := h.search h1 h2 ws m.fresh
  unfold add addLoop
  rw [h3]
  rcases h4 with ⟨rfl, habs, hM⟩ | ⟨rfl, hD, -, hM⟩
  · rw [hM]
    have ht : r % m.maxLevel < m.maxLevel := Nat.mod_lt _ h.pos
    generalize r % m.maxLevel = t at ht
    simp only
    -- the links of the new node
    have hrow := foldl_rows ref (fun L r => update r m.fresh ⟨.UNMARKED, ws1.succs L⟩) (ref_fill m.fresh ws1.succs)
      (List.range (t + 1)) List.nodup_range (createNode m t k v)
    have hr2 : SameRest (createNode m t k v) _ := sameRest_foldl (fill m.fresh ws1.succs) (fun _ _ => sameRest_setRef)
      (List.range (t + 1)) _
    generalize (List.range (t + 1)).foldl (fill m.fresh ws1.succs) (createNode m t k v) = m2 at hrow hr2
    have href3 : ∀ L, ref (setRef m2 m.fresh 0 ⟨.UNMARKED, ws1.succs 0⟩) L =
        if L ≤ t then update (ref (createNode m t k v) L) m.fresh ⟨.UNMARKED, ws1.succs L⟩
        else ref (createNode m t k v) L := fun L => by
      by_cases hL : L = 0
      · subst hL
        rw [ref_setRef_self, hrow 0, if_pos (List.mem_range.2 (Nat.succ_pos t)), update_idem, if_pos (Nat.zero_le t)]
      · rw [ref_setRef_of_ne hL, hrow L]
        simp only [List.mem_range, Nat.lt_succ_iff]
    have hlink : ∀ L ≤ t, ref (setRef m2 m.fresh 0 ⟨.UNMARKED, ws1.succs 0⟩) L (ws1.preds L) = ⟨.UNMARKED, ws1.succs L⟩ :=
        fun L hL => by
      have hLn : L < m.maxLevel := lt_of_le_of_lt hL ht
      have hlt := (h.toSkipMap.level_addr (hf.around L hLn).mem).2
      have hnode : (createNode m t k v).node (ws1.preds L) = m.node (ws1.preds L) := update_of_ne hlt.ne ..
      rw [href3 L, if_pos hL, update_of_ne hlt.ne]
      unfold ref
      rw [hnode]
      exact ref_eq (r := ⟨.UNMARKED, ws1.succs L⟩) (h.unmarked L hLn _ (hf.around L hLn).mem) (hf.succ L hLn).symm
    rw [cas_of_eq _ (hlink 0 (Nat.zero_le t))]
    -- the upper levels
    obtain ⟨m5, h5, hr5, href5⟩ := linkLevels_spec k m.fresh ws1 t 1
      (setRef (setRef m2 m.fresh 0 ⟨.UNMARKED, ws1.succs 0⟩) (ws1.preds 0) 0 ⟨.UNMARKED, m.fresh⟩) fun L h1 h2 => by
        rw [ref_setRef_of_ne (by omega)]
        exact hlink L (by omega)
    simp only [h5]
    have hr := hr2.trans (sameRest_setRef.trans (sameRest_setRef.trans hr5))
    have hadded : AddedRefs (createNode m t k v) ws1 m.fresh t m5 := fun L => by
      rw [href5 L]
      by_cases hL : L = 0
      · subst hL
        rw [if_neg (by omega), ref_setRef_self, href3 0, if_pos (Nat.zero_le t), if_pos (Nat.zero_le t)]
      · rw [ref_setRef_of_ne hL, href3 L]
        by_cases hLt : L ≤ t
        · rw [if_pos (by omega), if_pos hLt, if_pos hLt]
        · rw [if_neg (by omega), if_neg hLt, if_neg hLt]
    refine ⟨m5, ws1, _, rfl, h.added h2 hf habs hr hadded, fun L hL => ?_⟩
    rw [hadded L, if_neg (by omega), hr.head]
    exact congrArg (fun n : Node => n.tower L) (update_of_ne (h.addr m.head (.inl rfl)).2.ne ..)
  · rw [hM]
    exact ⟨m, ws1, D, rfl, h, fun _ _ => rfl⟩

/-! ### `_delete` -/

omit h in
theorem ref_markLevel (x : ℕ) (m : Mem) (L : ℕ) : ref (markLevel x m L) = update (ref m) L
    (if (ref m L x).mark = .UNMARKED then update (ref m L) x ⟨.MARKED, (ref m L x).next⟩ else ref m L) := by
  unfold markLevel
  by_cases h : mk m L x = .UNMARKED
  · rw [if_pos h, if_pos (show (ref m L x).mark = .UNMARKED from h), ref_setRef]
    rfl
  · rw [if_neg h, if_neg (show ¬(ref m L x).mark = .UNMARKED from h), update_eq_self]

omit h in
theorem sameRest_markLevel (x : ℕ) (m : Mem) (L : ℕ) : SameRest m (markLevel x m L) := by
  unfold markLevel
  split_ifs
  · exact sameRest_setRef
  · exact .refl

/-- the links of x have been marked, from the top down, and nothing else has changed -/
structure MarkedTower (m m' : Mem) (x : ℕ) : Prop where
  rest : SameRest m m'
  next : ∀ L < m.maxLevel, nx m' L = nx m L
  mark : ∀ L < m.maxLevel, L ≤ tp m x → mk m' L x = .MARKED
  other : ∀ L < m.maxLevel, ∀ a, a ≠ x → mk m' L a = mk m L a

/-- **The marking loops of `_delete`**, with the cas of the bottom level. -/
theorem Holds.markTower {x : ℕ} (hx : x ∈ D) :
    ∃ m2, ((List.range (tp m x)).map Nat.succ).reverse.foldl (markLevel x) m = m2 ∧
      ref m2 0 x = ⟨.UNMARKED, nx m2 0 x⟩ ∧ MarkedTower m (setRef m2 x 0 ⟨.MARKED, nx m2 0 x⟩) x ∧
      ∀ L a, a ≠ x → ref (setRef m2 x 0 ⟨.MARKED, nx m2 0 x⟩) L a = ref m L a := by
  have hun : ∀ L < m.maxLevel, L ≤ tp m x → (ref m L x).mark = .UNMARKED := fun L hL hLx =>
    h.unmarked L hL x (mem_level.2 (.inr (.inr ⟨hx, hLx⟩)))
  have hnd : ((List.range (tp m x)).map Nat.succ).reverse.Nodup :=
    List.nodup_reverse.2 (List.nodup_range.map Nat.succ_injective)
  have hin : ∀ L, L ∈ ((List.range (tp m x)).map Nat.succ).reverse ↔ 1 ≤ L ∧ L ≤ tp m x := fun L => by
    rw [List.mem_reverse, List.mem_map]
    constructor
    · rintro ⟨j, hj, rfl⟩
      exact ⟨Nat.succ_pos j, List.mem_range.1 hj⟩
    · rintro ⟨h1, h2⟩
      exact ⟨L - 1, List.mem_range.2 (by omega), by omega⟩
  have hrow := foldl_rows ref
    (fun L r => if (r x).mark = .UNMARKED then update r x ⟨.MARKED, (r x).next⟩ else r) (ref_markLevel x) _ hnd m
  have hr : SameRest m _ := sameRest_foldl (markLevel x) (sameRest_markLevel x) ((List.range (tp m x)).map Nat.succ).reverse m
  generalize ((List.range (tp m x)).map Nat.succ).reverse.foldl (markLevel x) m = m2 at hrow hr
  have h0 : ref m2 0 = ref m 0 := by
    rw [hrow 0, if_neg fun hm => absurd ((hin 0).1 hm).1 (by omega)]
  have href : ∀ L < m.maxLevel, ref (setRef m2 x 0 ⟨.MARKED, nx m2 0 x⟩) L =
      if L ≤ tp m x then update (ref m L) x ⟨.MARKED, nx m L x⟩ else ref m L := fun L hL => by
    by_cases hL0 : L = 0
    · subst hL0
      rw [ref_setRef_self, h0, if_pos (Nat.zero_le _)]
      unfold nx
      rw [h0]
    · rw [ref_setRef_of_ne hL0, hrow L]
      by_cases hLx : L ≤ tp m x
      · rw [if_pos ((hin L).2 ⟨by omega, hLx⟩), if_pos (hun L hL hLx), if_pos hLx]
        rfl
      · rw [if_neg fun hm => hLx ((hin L).1 hm).2, if_neg hLx]
  refine ⟨m2, rfl, ?_, ⟨hr.trans sameRest_setRef, fun L hL => ?_, fun L hL hLx => ?_, fun L hL a ha => ?_⟩,
    fun L a ha => ?_⟩
  · refine ref_eq ?_ rfl
    unfold LockFreeSkiplist.mk
    rw [h0]
    exact hun 0 h.pos (Nat.zero_le _)
  · funext a
    change (ref (setRef m2 x 0 ⟨.MARKED, nx m2 0 x⟩) L a).next = (ref m L a).next
    rw [href L hL]
    by_cases hLx : L ≤ tp m x
    · rw [if_pos hLx]
      by_cases ha : a = x
      · rw [ha, update_self]
        rfl
      · rw [update_of_ne ha]
    · rw [if_neg hLx]
  · unfold LockFreeSkiplist.mk
    rw [href L hL, if_pos hLx, update_self]
  · unfold LockFreeSkiplist.mk
    rw [href L hL]
    by_cases hLx : L ≤ tp m x
    · rw [if_pos hLx, update_of_ne ha]
    · rw [if_neg hLx]
  · have hstore : ref (setRef m2 x 0 ⟨.MARKED, nx m2 0 x⟩) L a = ref m2 L a :=
      congrArg (fun n : Node => n.tower L) (node_setRef_of_ne ha)
    rw [hstore, hrow L]
    split_ifs
    · exact update_of_ne ha ..
    · rfl
    · rfl

/-- **`_delete`** marks the node of the key, and its last search takes the node out of all levels. -/
theorem delete_holds (h1 : lo < k) (h2 : k < hi) (ws : Workspace) :
    ∃ m' ws' D', delete m ws k = .ok (m', ws', M k) ∧ Holds m' N lo hi (update M k none) D' ∧ SameAbove m m' := by
  obtain ⟨ws1, b, h3, hf, h4⟩ := h.search h1 h2 ws m.fresh
  unfold delete
  rw [h3]
  rcases h4 with ⟨rfl, -, hM⟩ | ⟨rfl, hx, hxk, hM⟩
  · refine ⟨m, ws1, D, by rw [hM], ?_, fun _ _ => rfl⟩
    rw [← hM, update_eq_self]
    exact h
  · simp only
    generalize ws1.succs 0 = x at hx hxk hM
    obtain ⟨m2, hm2, hcas, hmt, habove⟩ := h.markTower hx
    rw [hm2]
    unfold markBottom
    rw [cas_of_eq _ hcas]
    generalize setRef m2 x 0 ⟨.MARKED, nx m2 0 x⟩ = m3 at hmt habove
    have hlev : ∀ L, levelOf m3 D L = levelOf m D L := fun L => by
      unfold levelOf; rw [hmt.rest.tp, hmt.rest.head, hmt.rest.tail]
    have hxlev : ∀ L, x ∈ levelOf m D L ↔ L ≤ tp m x := fun L => by
      rw [mem_level]
      exact ⟨fun hm => hm.elim (fun e => absurd e (h.towers.ne_head hx)) fun hm =>
        hm.elim (fun e => absurd e (h.towers.ne_tail hx)) And.right, fun hL => .inr (.inr ⟨hx, hL⟩)⟩
    have hready : Ready m3 D x k m3.maxLevel := by
      rw [hmt.rest.maxLevel]
      refine ⟨fun L hL => ?_, fun L hL a ha => ?_, fun L hL _ => ?_, fun a ha => ?_, ?_⟩
      · rw [hmt.next L hL, hlev, hmt.rest.ky, hmt.rest.head, hmt.rest.tail]; exact h.towers.chain L hL
      · rw [hlev] at ha
        by_cases e : a = x
        · subst e
          exact iff_of_true (hmt.mark L hL ((hxlev L).1 ha)) rfl
        · rw [hmt.other L hL a e, h.unmarked L hL a ha]
          exact iff_of_false (by simp) e
      · rw [hmt.rest.ky]; exact hxk
      · rw [hmt.rest.head, hmt.rest.tail] at ha
        rw [hmt.rest.fresh]; exact h.addr a ha
      · rw [hmt.rest.ky, hmt.rest.tail, h.tail_key]; exact h2
    obtain ⟨m4, ws4, h5, h6, h7, h8, -⟩ := search_spec hready (by rw [hmt.rest.maxLevel]; exact h.pos)
      (by rw [hmt.rest.ky, hmt.rest.head, h.head_key]; exact h1) ws1 m3.fresh
    simp only [h5]
    have hr := hmt.rest.trans h6
    have hpass : ∀ L < m.maxLevel, Around (nx m L) (ky m) m.tail (levelOf m D L) (ky m x) (ws4.preds L) ∧
        nx m4 L = (if L ≤ tp m x then update (nx m L) (ws4.preds L) (nx m L x) else nx m L) ∧
        ∀ a ∈ levelOf m D L, a ≠ x → mk m4 L a = .UNMARKED := fun L hL => by
      obtain ⟨p1, p2, p3, -⟩ := h7 L (by rw [hmt.rest.maxLevel]; exact hL)
      rw [hmt.next L hL, hlev, hmt.rest.ky, hmt.rest.tail, ← hxk] at p1
      rw [hmt.next L hL, hlev] at p2
      refine ⟨p1, ?_, fun a ha e => ?_⟩
      · rw [p2]
        by_cases hLx : L ≤ tp m x
        · rw [if_pos ((hxlev L).2 hLx), if_pos hLx]
        · rw [if_neg fun hm => hLx ((hxlev L).1 hm), if_neg hLx]
      · rw [p3, hmt.other L hL a e]
        exact h.unmarked L hL a ha
    refine ⟨m4, ws4, D.erase x, by rw [hM, hr.vl], ⟨?_, fun L hL a ha => ?_⟩, fun L hL => ?_⟩
    · rw [hr.ky, hr.vl, hr.tp, hr.head, hr.tail, hr.maxLevel, hr.fresh, ← hxk]
      exact ⟨h.toSkipMap.erase ws4.preds hx (fun L hL => (hpass L hL).1) fun L hL => (hpass L hL).2.1, h.levels, h.head_key,
        h.tail_key⟩
    · rw [hr.maxLevel] at hL
      unfold levelOf at ha
      rw [hr.tp, hr.head, hr.tail, level_erase (h.towers.ne_head hx) (h.towers.ne_tail hx)] at ha
      exact (hpass L hL).2.2 a (Finset.mem_of_mem_erase ha) (Finset.ne_of_mem_erase ha)
    · rw [h8 L (by rw [hmt.rest.maxLevel]; exact hL), hr.head]
      exact habove L m.head (h.towers.ne_head hx).symm

end Calls

/-! ## Sequences of calls -/

section Runs

variable {m : Mem} {N : ℕ} {lo hi : ℤ} {M : ℤ → Option ℤ} {D : Finset ℕ}

/-- `init_list` gives an empty skip list. -/
theorem init_holds {maxLevel : ℕ} (hn : 1 ≤ maxLevel) (hlt : lo < hi) :
    Holds (initList maxLevel lo hi) maxLevel lo hi (fun _ => none) ∅ := by
  have href1 : ∀ L < maxLevel, ref (initList maxLevel lo hi) L 1 = ⟨.UNMARKED, 2⟩ := fun L hL => if_pos hL
  have href2 : ∀ L < maxLevel, ref (initList maxLevel lo hi) L 2 = ⟨.UNMARKED, NULL⟩ := fun L hL => if_pos hL
  have hsentinel : (1 ≠ 0 ∧ 1 < 3) ∧ 2 ≠ 0 ∧ 2 < 3 := by decide
  refine ⟨⟨.empty hsentinel.1 hsentinel.2 hlt (fun L hL => congrArg Ref.next (href1 L hL)) hn, rfl, rfl, rfl⟩,
    fun L hL a ha => ?_⟩
  rcases mem_level.1 ha with rfl | rfl | ha
  · exact congrArg Ref.mark (href1 L hL)
  · exact congrArg Ref.mark (href2 L hL)
  · exact absurd ha.1 (Finset.notMem_empty a)

variable (h : Holds m N lo hi M D)

include h

/-- **One call** has the result of the map. -/
theorem call_holds (ws : Workspace) {op : Op} (h1 : lo < op.key) (h2 : op.key < hi) :
    ∃ m' ws' D', call (m, ws) op = .ok ((m', ws'), (mapStep M op).2) ∧ Holds m' N lo hi (mapStep M op).1 D' ∧
      SameAbove m m' := by
  cases op with
  | add k v r =>
    obtain ⟨m', ws', D', h3, h4, h5⟩ := add_holds (k := k) (v := v) h h1 h2 ws r
    refine ⟨m', ws', D', ?_, h4, h5⟩
    change Except.map _ (add m ws k v r) = _
    rw [h3]
    rfl
  | delete k =>
    obtain ⟨m', ws', D', h3, h4⟩ := delete_holds (k := k) h h1 h2 ws
    refine ⟨m', ws', D', ?_, h4⟩
    change Except.map _ (delete m ws k) = _
    rw [h3]
    rfl

/-- **A whole run** of calls. -/
theorem run_holds (ws : Workspace) {ops : List Op} (hk : ∀ op ∈ ops, lo < op.key ∧ op.key < hi) :
    ∃ m' D', run m ws ops = .ok (m', (mapRun M ops).2) ∧ Holds m' N lo hi (mapRun M ops).1 D' ∧ SameAbove m m' := by
  -- one call, with the levels above as m has them
  have hcall : ∀ (s : Mem × Workspace) M op, (∃ D, Holds s.1 N lo hi M D ∧ SameAbove m s.1) → lo < op.key ∧ op.key < hi →
      ∃ s', call s op = .ok (s', (mapStep M op).2) ∧ ∃ D, Holds s'.1 N lo hi (mapStep M op).1 D ∧ SameAbove m s'.1 := by
    rintro s M op ⟨D1, h1, hs1⟩ hop
    obtain ⟨m2, ws2, D2, h3, h4, hs2⟩ := call_holds h1 s.2 hop.1 hop.2
    exact ⟨(m2, ws2), h3, D2, h4, fun L hL => (hs2 L (by rw [h1.levels, ← h.levels]; exact hL)).trans (hs1 L hL)⟩
  obtain ⟨s, h1, D', h2, h3⟩ := runCalls_spec hcall (s := (m, ws)) ⟨D, h, fun _ _ => rfl⟩ hk
  refine ⟨s.1, D', ?_, h2, h3⟩
  unfold run
  rw [h1]
  rfl

theorem Holds.clean (hlt : lo < hi) : Clean m where
  linked _ hL := h.toSkipMap.walk_linked (h.key_lt hlt) hL
  sorted _ hL := h.toSkipMap.walk_sorted (h.key_lt hlt) hL
  towers _ hL := h.toSkipMap.walk_towers (h.key_lt hlt) hL
  unmarked L hL a ha := by
    refine h.unmarked L hL a (mem_level.2 ?_)
    rcases List.mem_cons.1 ha with e | ha
    · exact .inl e
    · exact .inr (.inr ((h.toSkipMap.mem_walk (h.key_lt hlt) hL a).1 ha))

omit h

/-- **One thread sees a map on a clean skip list.** For every number of levels, every sequence of `add` and `delete`
calls with keys strictly between min and max, and all tower heights: the calls return what the finite map returns, and
after them every level is a strictly increasing chain of UNMARKED links from head to tail over exactly the nodes whose
towers reach it. -/
theorem calls_clean {maxLevel : ℕ} (hn : 1 ≤ maxLevel) {min max : ℤ} (hlt : min < max) (ws : Workspace) (ops : List Op)
    (hk : ∀ op ∈ ops, min < op.key ∧ op.key < max) :
    ∃ m, run (initList maxLevel min max) ws ops = .ok (m, (mapRun (fun _ => none) ops).2) ∧ Clean m ∧
      m.maxLevel = maxLevel ∧
      ∀ k v, (∃ a ∈ nodes m 0, ky m a = k ∧ vl m a = v) ↔ (mapRun (fun _ => none) ops).1 k = some v := by
  obtain ⟨m, D, h1, h2, -⟩ := run_holds (init_holds hn hlt) ws hk
  exact ⟨m, h1, h2.clean hlt, h2.levels, h2.toSkipMap.walk_pairs (h2.key_lt hlt)⟩

/-- three levels, and a delete of the tallest node from the middle -/
theorem calls_clean_towers :
    ∃ m, run (initList 3 (-100) 100) ⟨fun _ => NULL, fun _ => NULL⟩
        [.add 5 50 2, .add 7 70 0, .add 3 30 4, .delete 5, .add 7 1 1, .delete 5] =
          .ok (m, [.add true, .add true, .add true, .delete (some 50), .add false, .delete none]) ∧
      Clean m ∧ m.maxLevel = 3 := by
  obtain ⟨m, h1, h2, h3, -⟩ := calls_clean (show 1 ≤ 3 by decide) (show (-100 : ℤ) < 100 by decide)
    ⟨fun _ => NULL, fun _ => NULL⟩ [.add 5 50 2, .add 7 70 0, .add 3 30 4, .delete 5, .add 7 1 1, .delete 5] (by decide)
  exact ⟨m, h1, h2, h3⟩

end Runs

end AlgorithmCollection.LockFreeSkiplist
