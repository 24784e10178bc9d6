/-
Sorted chains with lazy deletion: nodes are marked before they are unlinked, and unlinked nodes keep their links.

`LazyChain next rank marked head tail S L`: S is the set of nodes reachable from head (`Chain`), L the set of nodes that
have ever been linked. A linked node that is not marked is reachable, and the link of a linked node leads to a linked node
of larger rank, so that a walk that has come to an unlinked node still goes up. The three steps of such a list keep it:
linking a node (`LazyChain.insert`), marking (`LazyChain.congr`) and unlinking a marked node (`LazyChain.erase`).
-/
import AlgorithmCollection.Conc.Chain

namespace AlgorithmCollection.Conc

variable {R : Type*} [LinearOrder R]

structure LazyChain (next : ℕ → ℕ) (rank : ℕ → R) (marked : ℕ → Bool) (head tail : ℕ) (S L : Finset ℕ) : Prop
    extends Chain next rank head tail S where
  sub : S ⊆ L
  unmarked : ∀ a ∈ L, marked a = false → a ∈ S
  edge : ∀ a ∈ L, a ≠ tail → next a ∈ L ∧ rank a < rank (next a)

namespace LazyChain

variable {next next' : ℕ → ℕ} {rank rank' : ℕ → R} {marked marked' : ℕ → Bool} {head tail : ℕ} {S L : Finset ℕ}

variable (h : LazyChain next rank marked head tail S L)

include h

/-- it only depends on the links and ranks of linked nodes; marks may be set -/
theorem congr (hn : ∀ a ∈ L, a ≠ tail → next' a = next a)
    (hr : ∀ a ∈ L, rank' a = rank a) (hm : ∀ a ∈ L, marked' a = false → marked a = false) :
    LazyChain next' rank' marked' head tail S L where
  toChain := h.toChain.congr (fun a ha hat => hn a (h.sub ha) hat) fun a ha => hr a (h.sub ha)
  sub := h.sub
  unmarked a ha hma := h.unmarked a ha (hm a ha hma)
  edge a ha hat := by
    obtain ⟨h1, h2⟩ := h.edge a ha hat
    rw [hn a ha hat, hr a ha, hr _ h1]
    exact ⟨h1, h2⟩

/-- **Linking** n between p and its successor. -/
theorem insert {p n : ℕ} (hp : p ∈ S) (hpt : p ≠ tail)
    (hn1 : rank p < rank n) (hn2 : rank n < rank (next p)) (e1 : next' p = n) (e2 : next' n = next p)
    (e3 : ∀ a ∈ L, a ≠ p → a ≠ tail → next' a = next a) :
    LazyChain next' rank marked head tail (insert n S) (insert n L) where
  toChain := h.toChain.insert hp hpt hn1 hn2 e1 e2 fun a ha => e3 a (h.sub ha)
  sub := Finset.insert_subset_insert n h.sub
  unmarked a ha hma := by
    rcases Finset.mem_insert.1 ha with rfl | ha
    · exact Finset.mem_insert_self _ _
    · exact Finset.mem_insert_of_mem (h.unmarked a ha hma)
  edge a ha hat := by
    rcases Finset.mem_insert.1 ha with rfl | ha
    · rw [e2]
      exact ⟨Finset.mem_insert_of_mem (h.sub (h.next_mem p hp hpt)), hn2⟩
    · by_cases hap : a = p
      · rw [hap, e1]
        exact ⟨Finset.mem_insert_self _ _, hn1⟩
      · rw [e3 a ha hap hat]
        exact ⟨Finset.mem_insert_of_mem (h.edge a ha hat).1, (h.edge a ha hat).2⟩

/-- **Unlinking** the successor of p, which is marked. -/
theorem erase {p : ℕ} (hp : p ∈ S) (hpt : p ≠ tail)
    (hct : next p ≠ tail) (hm : marked (next p) = true) (e1 : next' p = next (next p))
    (e2 : ∀ a ∈ L, a ≠ p → a ≠ tail → next' a = next a) :
    LazyChain next' rank marked head tail (S.erase (next p)) L where
  toChain := h.toChain.erase hp hpt hct e1 fun a ha => e2 a (h.sub ha)
  sub := (Finset.erase_subset _ _).trans h.sub
  unmarked a ha hma := by
    refine Finset.mem_erase.2 ⟨?_, h.unmarked a ha hma⟩
    rintro rfl
    rw [hm] at hma; cases hma
  edge a ha hat := by
    by_cases hap : a = p
    · obtain ⟨h1, h2⟩ := h.edge p (h.sub hp) hpt
      obtain ⟨h3, h4⟩ := h.edge _ h1 hct
      rw [hap, e1]
      exact ⟨h3, h2.trans h4⟩
    · rw [e2 a ha hap hat]; exact h.edge a ha hat

end LazyChain

/-- a list of two sentinels -/
theorem lazyChain_init {next : ℕ → ℕ} {rank : ℕ → R} {marked : ℕ → Bool} {head tail : ℕ} (hlt : rank head < rank tail)
    (hn : next head = tail) : LazyChain next rank marked head tail {head, tail} {head, tail} := by
  refine ⟨Chain.init (fun a => by simp) hlt hn, subset_rfl, fun a ha _ => ha, fun a ha hat => ?_⟩
  obtain rfl : a = head := by simpa [hat] using ha
  rw [hn]
  exact ⟨by simp, hlt⟩

end AlgorithmCollection.Conc
