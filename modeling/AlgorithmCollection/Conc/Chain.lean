/-
Sorted singly linked chains with sentinels, described by the set of their nodes.

`Chain next rank head tail S`: the nodes of S, ordered by rank, are exactly the nodes met when `next` is followed from
head, and the last one is tail. The description is local: the successor of a node of S is in S, has a larger rank, and
no node of S lies between the two. So linking a node between a node and its successor (`Chain.insert`) and unlinking
the successor of a node (`Chain.erase`) only need facts about the nodes involved, and a search that stops at a node and
its successor knows that no rank in between is taken (`Chain.not_between`).
`seek` is that search (`Chain.seek_ends`).
`walk_mem`, `walk_sorted` and `walk_linked` connect it to the list that a traversal computes, `mem_walk_head`,
`walk_head_linked` and `walk_head_sorted` to the list of all nodes from head to tail.
-/
import Mathlib.Tactic
import Mathlib.Data.Finset.Card
import Mathlib.Order.Basic

namespace AlgorithmCollection.Conc

variable {R : Type*} [LinearOrder R] {p a : ℕ}

structure Chain (next : ℕ → ℕ) (rank : ℕ → R) (head tail : ℕ) (S : Finset ℕ) : Prop where
  head_mem : head ∈ S
  tail_mem : tail ∈ S
  head_le : ∀ a ∈ S, rank head ≤ rank a
  le_tail : ∀ a ∈ S, rank a ≤ rank tail
  inj : ∀ a ∈ S, ∀ b ∈ S, rank a = rank b → a = b
  next_mem : ∀ a ∈ S, a ≠ tail → next a ∈ S
  lt_next : ∀ a ∈ S, a ≠ tail → rank a < rank (next a)
  gap : ∀ a ∈ S, a ≠ tail → ∀ b ∈ S, rank a < rank b → rank (next a) ≤ rank b

namespace Chain

variable {next next' : ℕ → ℕ} {rank rank' : ℕ → R} {head tail : ℕ} {S : Finset ℕ}

variable (h : Chain next rank head tail S)

include h

theorem lt_tail (ha : a ∈ S) (hat : a ≠ tail) : rank a < rank tail :=
  lt_of_le_of_ne (h.le_tail a ha) fun e => hat (h.inj a ha tail h.tail_mem e)

theorem head_lt (ha : a ∈ S) (hah : a ≠ head) : rank head < rank a :=
  lt_of_le_of_ne (h.head_le a ha) fun e => hah (h.inj head h.head_mem a ha e).symm

/-- a chain only depends on the links and ranks of its nodes -/
theorem congr (hn : ∀ a ∈ S, a ≠ tail → next' a = next a)
    (hr : ∀ a ∈ S, rank' a = rank a) : Chain next' rank' head tail S where
  head_mem := h.head_mem
  tail_mem := h.tail_mem
  head_le a ha := by rw [hr _ h.head_mem, hr a ha]; exact h.head_le a ha
  le_tail a ha := by rw [hr _ h.tail_mem, hr a ha]; exact h.le_tail a ha
  inj a ha b hb e := h.inj a ha b hb (by rwa [hr a ha, hr b hb] at e)
  next_mem a ha hat := by rw [hn a ha hat]; exact h.next_mem a ha hat
  lt_next a ha hat := by rw [hn a ha hat, hr a ha, hr _ (h.next_mem a ha hat)]; exact h.lt_next a ha hat
  gap a ha hat b hb hlt := by
    rw [hr a ha, hr b hb] at hlt
    rw [hn a ha hat, hr _ (h.next_mem a ha hat), hr b hb]
    exact h.gap a ha hat b hb hlt

/-- no node has a rank strictly between a node and its successor -/
theorem not_between {b : ℕ} {r : R} (hp : p ∈ S) (hpt : p ≠ tail)
    (h1 : rank p < r) (h2 : r < rank (next p)) (hb : b ∈ S) : rank b ≠ r := by
  rintro rfl
  exact absurd (h.gap p hp hpt b hb h1) (not_le.2 h2)

theorem next_ne_head (hp : p ∈ S) (hpt : p ≠ tail) : next p ≠ head :=
  fun e => absurd (h.lt_next p hp hpt) (by rw [e]; exact not_lt.2 (h.head_le p hp))

/-- the predecessor of a node is unique -/
theorem next_inj {q : ℕ} (hp : p ∈ S) (hpt : p ≠ tail) (hq : q ∈ S) (hqt : q ≠ tail) (e : next p = next q) : p = q := by
  rcases lt_trichotomy (rank p) (rank q) with hlt | heq | hlt
  · have h1 := h.gap p hp hpt q hq hlt
    have h2 := h.lt_next q hq hqt
    rw [e] at h1; exact absurd h2 (not_lt.2 h1)
  · exact h.inj p hp q hq heq
  · have h1 := h.gap q hq hqt p hp hlt
    have h2 := h.lt_next p hp hpt
    rw [← e] at h1; exact absurd h2 (not_lt.2 h1)

omit h in
/-- a list of two sentinels -/
theorem init (hS : ∀ a, a ∈ S ↔ a = head ∨ a = tail) (hlt : rank head < rank tail) (hn : next head = tail) :
    Chain next rank head tail S := by
  have hhead : ∀ a ∈ S, a ≠ tail → a = head := fun a ha hat => ((hS a).1 ha).resolve_right hat
  have htail : tail ∈ S := (hS tail).2 (.inr rfl)
  refine ⟨(hS head).2 (.inl rfl), htail, fun a ha => ?_, fun a ha => ?_, fun a ha b hb e => ?_, fun a ha hat => ?_,
    fun a ha hat => ?_, fun a ha hat b hb hab => ?_⟩
  · rcases (hS a).1 ha with rfl | rfl
    · exact le_rfl
    · exact hlt.le
  · rcases (hS a).1 ha with rfl | rfl
    · exact hlt.le
    · exact le_rfl
  · rcases (hS a).1 ha with rfl | rfl <;> rcases (hS b).1 hb with rfl | rfl
    · rfl
    · exact absurd e hlt.ne
    · exact absurd e hlt.ne'
    · rfl
  · rw [hhead a ha hat, hn]; exact htail
  · rw [hhead a ha hat, hn]; exact hlt
  · rw [hhead a ha hat] at hab ⊢
    rcases (hS b).1 hb with rfl | rfl
    · exact absurd hab (lt_irrefl _)
    · rw [hn]

/-- **Linking** n between p and its successor. -/
theorem insert {n : ℕ} (hp : p ∈ S) (hpt : p ≠ tail) (hn1 : rank p < rank n)
    (hn2 : rank n < rank (next p)) (e1 : next' p = n) (e2 : next' n = next p)
    (e3 : ∀ a ∈ S, a ≠ p → a ≠ tail → next' a = next a) : Chain next' rank head tail (insert n S) := by
  have hc := h.next_mem p hp hpt
  have hnS : n ∉ S := fun hm => h.not_between hp hpt hn1 hn2 hm rfl
  refine ⟨by simp [h.head_mem], by simp [h.tail_mem], fun a ha => ?_, fun a ha => ?_, fun a ha b hb e => ?_,
    fun a ha hat => ?_, fun a ha hat => ?_, fun a ha hat b hb hlt => ?_⟩
  · rcases Finset.mem_insert.1 ha with rfl | ha
    · exact (h.head_le p hp).trans hn1.le
    · exact h.head_le a ha
  · rcases Finset.mem_insert.1 ha with rfl | ha
    · exact hn2.le.trans (h.le_tail _ hc)
    · exact h.le_tail a ha
  · rw [Finset.mem_insert] at ha hb
    rcases ha with rfl | ha <;> rcases hb with rfl | hb
    · rfl
    · exact absurd e.symm (h.not_between hp hpt hn1 hn2 hb)
    · exact absurd e (h.not_between hp hpt hn1 hn2 ha)
    · exact h.inj a ha b hb e
  · rcases Finset.mem_insert.1 ha with rfl | ha
    · rw [e2]; exact Finset.mem_insert_of_mem hc
    · by_cases hap : a = p
      · rw [hap, e1]; exact Finset.mem_insert_self _ _
      · rw [e3 a ha hap hat]; exact Finset.mem_insert_of_mem (h.next_mem a ha hat)
  · rcases Finset.mem_insert.1 ha with rfl | ha
    · rw [e2]; exact hn2
    · by_cases hap : a = p
      · rw [hap, e1]; exact hn1
      · rw [e3 a ha hap hat]; exact h.lt_next a ha hat
  · rw [Finset.mem_insert] at ha hb
    rcases ha with rfl | ha <;> rcases hb with rfl | hb
    · exact absurd hlt (lt_irrefl _)
    · rw [e2]; exact h.gap p hp hpt b hb (hn1.trans hlt)
    · by_cases hap : a = p
      · rw [hap, e1]
      · -- a is before p, so its successor is at most p
        rw [e3 a ha hap hat]
        rcases lt_or_ge (rank a) (rank p) with hlt' | hge
        · exact (h.gap a ha hat p hp hlt').trans hn1.le
        · have hpa : rank p < rank a := lt_of_le_of_ne hge fun e => hap (h.inj a ha p hp e.symm)
          exact absurd (h.gap p hp hpt a ha hpa) (not_le.2 (hlt.trans hn2))
    · by_cases hap : a = p
      · rw [hap] at hlt; rw [hap, e1]
        exact hn2.le.trans (h.gap p hp hpt b hb hlt)
      · rw [e3 a ha hap hat]; exact h.gap a ha hat b hb hlt

/-- **Unlinking** the successor of p. -/
theorem erase (hp : p ∈ S) (hpt : p ≠ tail) (hct : next p ≠ tail)
    (e1 : next' p = next (next p)) (e2 : ∀ a ∈ S, a ≠ p → a ≠ tail → next' a = next a) :
    Chain next' rank head tail (S.erase (next p)) := by
  have hc := h.next_mem p hp hpt
  have hcc := h.next_mem _ hc hct
  have hlt1 := h.lt_next p hp hpt
  have hlt2 := h.lt_next _ hc hct
  refine ⟨?_, ?_, fun a ha => h.head_le a (Finset.mem_of_mem_erase ha), fun a ha => h.le_tail a (Finset.mem_of_mem_erase ha),
    fun a ha b hb => h.inj a (Finset.mem_of_mem_erase ha) b (Finset.mem_of_mem_erase hb), fun a ha hat => ?_,
    fun a ha hat => ?_, fun a ha hat b hb hlt => ?_⟩
  · exact Finset.mem_erase.2 ⟨(h.next_ne_head hp hpt).symm, h.head_mem⟩
  · exact Finset.mem_erase.2 ⟨hct.symm, h.tail_mem⟩
  · obtain ⟨hac, ha⟩ := Finset.mem_erase.1 ha
    by_cases hap : a = p
    · rw [hap, e1]; exact Finset.mem_erase.2 ⟨fun e => by rw [e] at hlt2; exact lt_irrefl _ hlt2, hcc⟩
    · rw [e2 a ha hap hat]
      exact Finset.mem_erase.2 ⟨fun e => hap (h.next_inj ha hat hp hpt e), h.next_mem a ha hat⟩
  · obtain ⟨hac, ha⟩ := Finset.mem_erase.1 ha
    by_cases hap : a = p
    · rw [hap, e1]; exact hlt1.trans hlt2
    · rw [e2 a ha hap hat]; exact h.lt_next a ha hat
  · obtain ⟨hac, ha⟩ := Finset.mem_erase.1 ha
    obtain ⟨hbc, hb⟩ := Finset.mem_erase.1 hb
    by_cases hap : a = p
    · rw [hap] at hlt; rw [hap, e1]
      have hle := h.gap p hp hpt b hb hlt
      exact h.gap _ hc hct b hb (lt_of_le_of_ne hle fun e => hbc (h.inj b hb _ hc e.symm))
    · rw [e2 a ha hap hat]; exact h.gap a ha hat b hb hlt

end Chain

/-! ## Traversals -/

/-- the nodes met from a on, until `stop` holds, over at most f nodes -/
def walk (next : ℕ → ℕ) (stop : ℕ → Bool) : ℕ → ℕ → List ℕ
  | 0, _ => []
  | f + 1, a => if stop a then [] else a :: walk next stop f (next a)

namespace Chain

variable {next : ℕ → ℕ} {rank : ℕ → R} {head tail : ℕ} {S : Finset ℕ} {stop : ℕ → Bool}

/-- the nodes from a on -/
def from_ (S : Finset ℕ) (rank : ℕ → R) (a : ℕ) : Finset ℕ := S.filter fun x => rank a ≤ rank x

variable (h : Chain next rank head tail S)

include h

theorem card_next (ha : a ∈ S) (hat : a ≠ tail) : (from_ S rank (next a)).card < (from_ S rank a).card := by
  refine Finset.card_lt_card ((Finset.ssubset_iff_of_subset fun x hx => ?_).2 ⟨a, ?_, ?_⟩)
  · obtain ⟨h1, h2⟩ := Finset.mem_filter.1 hx
    exact Finset.mem_filter.2 ⟨h1, (h.lt_next a ha hat).le.trans h2⟩
  · exact Finset.mem_filter.2 ⟨ha, le_rfl⟩
  · intro hx
    exact absurd (h.lt_next a ha hat) (not_lt.2 (Finset.mem_filter.1 hx).2)

variable (hs : ∀ b ∈ S, stop b = true ↔ b = tail)

include hs

/-- a traversal meets the nodes from its start on, except tail -/
theorem walk_mem (f : ℕ) (ha : a ∈ S) (hf : (from_ S rank a).card ≤ f) (x : ℕ) :
    x ∈ walk next stop f a ↔ x ∈ S ∧ rank a ≤ rank x ∧ x ≠ tail := by
  induction f generalizing a with
  | zero =>
    have : a ∈ from_ S rank a := Finset.mem_filter.2 ⟨ha, le_rfl⟩
    exact absurd (Finset.card_pos.2 ⟨a, this⟩) (by omega)
  | succ f ih =>
    unfold walk
    by_cases hat : a = tail
    · rw [if_pos ((hs a ha).2 hat)]
      refine ⟨nofun, fun ⟨h1, h2, h3⟩ => absurd (h.lt_tail h1 h3) (not_lt.2 (hat ▸ h2))⟩
    · rw [if_neg fun e => hat ((hs a ha).1 e)]
      have hc := h.card_next ha hat
      rw [List.mem_cons, ih (h.next_mem a ha hat) (by omega)]
      constructor
      · rintro (rfl | ⟨h1, h2, h3⟩)
        · exact ⟨ha, le_rfl, hat⟩
        · exact ⟨h1, (h.lt_next a ha hat).le.trans h2, h3⟩
      · rintro ⟨h1, h2, h3⟩
        rcases h2.eq_or_lt with heq | hlt
        · exact .inl (h.inj x h1 a ha heq.symm)
        · exact .inr ⟨h1, h.gap a ha hat x h1 hlt, h3⟩

/-- it meets them in the order of their ranks -/
theorem walk_sorted (f : ℕ)
    (ha : a ∈ S) (hf : (from_ S rank a).card ≤ f) : (walk next stop f a).Pairwise fun x y => rank x < rank y := by
  induction f generalizing a with
  | zero => exact List.Pairwise.nil
  | succ f ih =>
    unfold walk
    split_ifs with hst
    · exact List.Pairwise.nil
    · have hat : a ≠ tail := fun e => hst ((hs a ha).2 e)
      have hc := h.card_next ha hat
      have hm := h.next_mem a ha hat
      refine List.Pairwise.cons (fun x hx => ?_) (ih hm (by omega))
      exact (h.lt_next a ha hat).trans_le ((h.walk_mem hs f hm (by omega) x).1 hx).2.1

/-- and it follows the links up to tail -/
theorem walk_linked (f : ℕ) (ha : a ∈ S) (hf : (from_ S rank a).card ≤ f) (hp : next p = a) :
    (p :: (walk next stop f a ++ [tail])).IsChain fun x y => next x = y := by
  induction f generalizing a p with
  | zero =>
    have : a ∈ from_ S rank a := Finset.mem_filter.2 ⟨ha, le_rfl⟩
    exact absurd (Finset.card_pos.2 ⟨a, this⟩) (by omega)
  | succ f ih =>
    unfold walk
    split_ifs with hst
    · have hat := (hs a ha).1 hst
      simp [hp, hat]
    · have hat : a ≠ tail := fun e => hst ((hs a ha).2 e)
      have hc := h.card_next ha hat
      rw [List.cons_append, List.isChain_cons_cons]
      exact ⟨hp, ih (h.next_mem a ha hat) (by omega) rfl⟩

omit hs

omit h

/-- enough fuel: the addresses of the nodes are below n -/
theorem card_from_le (rank : ℕ → R) {n : ℕ} (hS : ∀ a ∈ S, a < n) (a : ℕ) : (from_ S rank a).card ≤ n := by
  have hsub : from_ S rank a ⊆ Finset.range n := fun x hx =>
    Finset.mem_range.2 (hS x (Finset.mem_filter.1 hx).1)
  simpa using Finset.card_le_card hsub

/-! ### The search -/

section Search

variable {K : Type*} [LinearOrder K] {key : ℕ → K} {k : K}

/-- the search for k from p on: the last node before k and its successor; none if it has not ended after f nodes -/
def seek (next : ℕ → ℕ) (key : ℕ → K) (k : K) : ℕ → ℕ → Option (ℕ × ℕ)
  | 0, _ => none
  | f + 1, p => if next p ≠ 0 ∧ key (next p) < k then seek next key k f (next p) else some (p, next p)

/-- **The search ends** before NULL or the first node that is not smaller, with what its steps keep (B). -/
theorem seek_ends (h : Chain next rank head tail S) {B : ℕ → Prop} (hB : ∀ p, B p → p ∈ S ∧ p ≠ tail)
    (hs : ∀ p, B p → next p ≠ 0 → key (next p) < k → B (next p)) (f : ℕ) (hp : B p) (hf : (from_ S rank p).card ≤ f) :
    ∃ q, seek next key k f p = some (q, next q) ∧ B q ∧ (next q = 0 ∨ k ≤ key (next q)) := by
  induction f generalizing p with
  | zero =>
    have : p ∈ from_ S rank p := Finset.mem_filter.2 ⟨(hB p hp).1, le_rfl⟩
    exact absurd (Finset.card_pos.2 ⟨p, this⟩) (by omega)
  | succ f ih =>
    unfold seek
    by_cases hn : next p ≠ 0 ∧ key (next p) < k
    · rw [if_pos hn]
      have hlt := h.card_next (hB p hp).1 (hB p hp).2
      exact ih (hs p hp hn.1 hn.2) (by omega)
    · rw [if_neg hn]
      refine ⟨p, rfl, hp, ?_⟩
      by_cases h0 : next p = 0
      · exact .inl h0
      · exact .inr (not_lt.1 fun hlt => hn ⟨h0, hlt⟩)

end Search

/-! ### The traversal from head -/

section FromHead

variable {n : ℕ} (h : Chain next rank head tail S) (hs : ∀ b ∈ S, stop b = true ↔ b = tail) (hht : head ≠ tail)
  (hn : ∀ a ∈ S, a < n)

include h hs hht hn

theorem mem_walk_head (x : ℕ) : x ∈ walk next stop n (next head) ↔ x ∈ S ∧ x ≠ head ∧ x ≠ tail := by
  rw [h.walk_mem hs n (h.next_mem head h.head_mem hht) (card_from_le rank hn _)]
  constructor
  · rintro ⟨h1, h2, h3⟩
    refine ⟨h1, ?_, h3⟩
    rintro rfl
    exact absurd (h.lt_next x h.head_mem hht) (not_lt.2 h2)
  · rintro ⟨h1, h2, h3⟩
    exact ⟨h1, h.gap head h.head_mem hht x h1 (h.head_lt h1 h2), h3⟩

theorem walk_head_linked : (head :: (walk next stop n (next head) ++ [tail])).IsChain fun x y => next x = y :=
  h.walk_linked hs n (h.next_mem head h.head_mem hht) (card_from_le rank hn _) rfl

theorem walk_head_sorted : (head :: (walk next stop n (next head) ++ [tail])).Pairwise fun x y => rank x < rank y := by
  have hw := h.walk_sorted hs n (h.next_mem head h.head_mem hht) (card_from_le rank hn _)
  have hm := h.mem_walk_head hs hht hn
  refine List.pairwise_cons.2 ⟨fun x hx => ?_, List.pairwise_append.2 ⟨hw, List.pairwise_singleton _ _, fun x hx y hy => ?_⟩⟩
  · rcases List.mem_append.1 hx with hx | hx
    · exact h.head_lt ((hm x).1 hx).1 ((hm x).1 hx).2.1
    · obtain rfl : x = tail := List.mem_singleton.1 hx
      exact h.head_lt h.tail_mem hht.symm
  · obtain rfl : y = tail := List.mem_singleton.1 hy
    exact h.lt_tail ((hm x).1 hx).1 ((hm x).1 hx).2.2

end FromHead

end Chain

/-! ## Ranks of lists whose sentinels are told by address -/

section Sentinel

variable {K : Type*} {head tail : ℕ} {key : ℕ → K} {a : ℕ} {k : K}

/-- the rank of a key -/
def keyRank (k : K) : WithBot (WithTop K) := ((k : WithTop K) : WithBot (WithTop K))

/-- nodes are ranked by their keys, head is below and tail above every key -/
def sentinelRank (head tail : ℕ) (key : ℕ → K) (a : ℕ) : WithBot (WithTop K) :=
  if a = head then ⊥ else if a = tail then ((⊤ : WithTop K) : WithBot (WithTop K)) else keyRank (key a)

theorem sentinelRank_node (h1 : a ≠ head) (h2 : a ≠ tail) : sentinelRank head tail key a = keyRank (key a) := by
  unfold sentinelRank; rw [if_neg h1, if_neg h2]

theorem sentinelRank_eq : sentinelRank head tail key a = keyRank k ↔ a ≠ head ∧ a ≠ tail ∧ key a = k := by
  unfold sentinelRank keyRank
  split_ifs with h1 h2
  · simp [h1]
  · simp [h2]
  · simp [h1, h2]

variable [LinearOrder K]

theorem sentinelRank_lt : sentinelRank head tail key a < keyRank k ↔ a = head ∨ (a ≠ tail ∧ key a < k) := by
  unfold sentinelRank keyRank
  split_ifs with h1 h2
  · simp [h1]
  · have hle : ¬ ((⊤ : WithTop K) : WithBot (WithTop K)) < ((k : WithTop K) : WithBot (WithTop K)) :=
      not_lt.2 (WithBot.coe_le_coe.2 (le_top (a := (k : WithTop K))))
    exact ⟨fun h => absurd h hle, fun h => absurd (h.resolve_left h1).1 (not_not.2 h2)⟩
  · simp [h1, h2]

theorem lt_sentinelRank : keyRank k < sentinelRank head tail key a ↔ a ≠ head ∧ (a = tail ∨ k < key a) := by
  unfold sentinelRank keyRank
  split_ifs with h1 h2
  · simp [h1]
  · exact ⟨fun _ => ⟨h1, .inl h2⟩, fun _ => WithBot.coe_lt_coe.2 (WithTop.coe_lt_top k)⟩
  · simp [h1, h2]

/-- the order of two nodes is the order of their keys -/
theorem sentinelRank_node_lt {b : ℕ} (ha : a ≠ head ∧ a ≠ tail) (hb : b ≠ head ∧ b ≠ tail) :
    sentinelRank head tail key a < sentinelRank head tail key b ↔ key a < key b := by
  rw [sentinelRank_node ha.1 ha.2, sentinelRank_node hb.1 hb.2]
  simp [keyRank]

end Sentinel

end AlgorithmCollection.Conc
