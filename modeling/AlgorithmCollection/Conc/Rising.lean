/-
Linked lists along which the keys rise.

`Rising next key lim H`: the addresses below lim are in use, those in H are heads of lists; a link that is not 0 leads to a
node that is not a head (`IsNode`), and from any node but a head it leads to a larger key. This says nothing about which
lists there are or which nodes they share, but it is enough for every walk to end (`Rising.walk_linked`), and each write
of a link has to be looked at by itself only: `link`, `create` for a new node, `newHead` for a new list.
-/
import AlgorithmCollection.Conc.Chain

namespace AlgorithmCollection.Conc

open Function (update update_self update_of_ne)

variable {K : Type*} [LinearOrder K]

/-- an address in use that is not the head of a list -/
def IsNode (lim : ℕ) (H : Set ℕ) (a : ℕ) : Prop := a ≠ 0 ∧ a < lim ∧ a ∉ H

structure Rising (next : ℕ → ℕ) (key : ℕ → K) (lim : ℕ) (H : Set ℕ) : Prop where
  pos : 0 < lim
  heads : ∀ a ∈ H, a ≠ 0 ∧ a < lim
  node : ∀ a, next a ≠ 0 → IsNode lim H (next a)
  rise : ∀ a, next a ≠ 0 → a ∈ H ∨ key a < key (next a)

namespace Rising

variable {next : ℕ → ℕ} {key : ℕ → K} {lim a p : ℕ} {H : Set ℕ} {k : K}

variable (h : Rising next key lim H)

include h

/-- a link that is 0 or leads to a node -/
theorem node_or (a : ℕ) : next a = 0 ∨ IsNode lim H (next a) := by
  by_cases h0 : next a = 0
  · exact .inl h0
  · exact .inr (h.node a h0)

/-- **A write of a link.** -/
theorem link (hp : p = 0 ∨ IsNode lim H p ∧ (a ∈ H ∨ key a < key p)) : Rising (update next a p) key lim H where
  pos := h.pos
  heads := h.heads
  node b hb := by
    by_cases e : b = a
    · rw [e, update_self] at hb ⊢
      exact (hp.resolve_left hb).1
    · rw [update_of_ne e] at hb ⊢
      exact h.node b hb
  rise b hb := by
    by_cases e : b = a
    · rw [e, update_self] at hb ⊢
      exact (hp.resolve_left hb).2
    · rw [update_of_ne e] at hb ⊢
      exact h.rise b hb

/-- a new address with a zeroed link, which is a head or not -/
theorem grow {H' : Set ℕ} (hH : ∀ a, a ∈ H' ↔ a ∈ H ∨ (a = lim ∧ lim ∈ H')) :
    Rising (update next lim 0) (update key lim k) (lim + 1) H' := by
  have hold : ∀ b, IsNode lim H b → IsNode (lim + 1) H' b := fun b hb => by
    refine ⟨hb.1, Nat.lt_succ_of_lt hb.2.1, fun hm => ?_⟩
    rcases (hH b).1 hm with h1 | ⟨h1, -⟩
    · exact hb.2.2 h1
    · exact absurd hb.2.1 (by omega)
  refine ⟨Nat.succ_pos lim, fun b hb => ?_, fun b hb => ?_, fun b hb => ?_⟩
  · rcases (hH b).1 hb with h1 | ⟨rfl, -⟩
    · exact ⟨(h.heads b h1).1, Nat.lt_succ_of_lt (h.heads b h1).2⟩
    · exact ⟨h.pos.ne', Nat.lt_succ_self b⟩
  · by_cases e : b = lim
    · rw [e, update_self] at hb
      exact absurd rfl hb
    · rw [update_of_ne e] at hb ⊢
      exact hold _ (h.node b hb)
  · by_cases e : b = lim
    · rw [e, update_self] at hb
      exact absurd rfl hb
    · rw [update_of_ne e] at hb ⊢
      have hne : next b ≠ lim := (h.node b hb).2.1.ne
      rw [update_of_ne e, update_of_ne hne]
      exact (h.rise b hb).imp_left fun h1 => (hH b).2 (.inl h1)

/-- **A new node.** -/
theorem create : Rising (update next lim 0) (update key lim k) (lim + 1) H :=
  h.grow fun _ => ⟨.inl, fun ha => ha.elim id fun ha => absurd (h.heads lim ha.2).2 (lt_irrefl _)⟩

theorem isNode_create : IsNode (lim + 1) H lim :=
  ⟨h.pos.ne', Nat.lt_succ_self lim, fun hm => absurd (h.heads lim hm).2 (lt_irrefl _)⟩

/-- **A new list.** -/
theorem newHead : Rising (update next lim 0) (update key lim k) (lim + 1) (insert lim H) := by
  refine h.grow fun a => ?_
  rw [Set.mem_insert_iff]
  constructor
  · rintro (rfl | ha)
    · exact .inr ⟨rfl, Set.mem_insert a H⟩
    · exact .inl ha
  · rintro (ha | ⟨rfl, -⟩)
    · exact .inr ha
    · exact .inl rfl

/-- the addresses in use with keys above that of a -/
def above (key : ℕ → K) (lim a : ℕ) : Finset ℕ := (Finset.range lim).filter fun b => key a < key b

omit h in
/-- fewer keys are above a larger key -/
theorem above_lt {b : ℕ} (hb : b < lim) (hlt : key a < key b) : (above key lim b).card < (above key lim a).card := by
  refine Finset.card_lt_card ((Finset.ssubset_iff_of_subset fun c hc => ?_).2 ⟨b, ?_, fun hm => ?_⟩)
  · obtain ⟨h1, h2⟩ := Finset.mem_filter.1 hc
    exact Finset.mem_filter.2 ⟨h1, hlt.trans h2⟩
  · exact Finset.mem_filter.2 ⟨Finset.mem_range.2 hb, hlt⟩
  · exact lt_irrefl _ (Finset.mem_filter.1 hm).2

omit h in
theorem above_lt_lim (ha : a < lim) : (above key lim a).card < lim := by
  have hsub : above key lim a ⊆ (Finset.range lim).erase a := fun b hb => by
    obtain ⟨h1, h2⟩ := Finset.mem_filter.1 hb
    exact Finset.mem_erase.2 ⟨fun e => by rw [e] at h2; exact lt_irrefl _ h2, h1⟩
  have hcard := Finset.card_le_card hsub
  rw [Finset.card_erase_of_mem (Finset.mem_range.2 ha), Finset.card_range] at hcard
  omega

/-- by induction on the number of keys that are still to come -/
theorem walk_linked_of (f : ℕ) (p : ℕ) (hf : next p ≠ 0 → (above key lim (next p)).card < f) :
    (p :: (walk next (fun a => a = 0) f (next p) ++ [0])).IsChain fun x y => next x = y := by
  induction f generalizing p with
  | zero =>
    have h0 : next p = 0 := by
      by_contra hn
      exact absurd (hf hn) (Nat.not_lt_zero _)
    simp [walk, h0]
  | succ f ih =>
    unfold walk
    by_cases h0 : next p = 0
    · simp [h0]
    · rw [if_neg (by simpa using h0), List.cons_append, List.isChain_cons_cons]
      refine ⟨rfl, ih (next p) fun hn => ?_⟩
      obtain ⟨-, hlt, hnot⟩ := h.node p h0
      have hrise := (h.rise (next p) hn).resolve_left hnot
      have hless := above_lt (h.node (next p) hn).2.1 hrise
      have := hf h0
      omega

/-- **Every walk ends.** -/
theorem walk_linked (p : ℕ) : (p :: (walk next (fun a => a = 0) lim (next p) ++ [0])).IsChain fun x y => next x = y :=
  h.walk_linked_of lim p fun hn => above_lt_lim (h.node p hn).2.1

omit h

omit [LinearOrder K] in
theorem walk_ne {f : ℕ} (a : ℕ) : ∀ b ∈ walk next (fun a => a = 0) f a, b ≠ 0 := by
  induction f generalizing a with
  | zero => simp [walk]
  | succ f ih =>
    intro b hb
    unfold walk at hb
    split_ifs at hb with h0
    · cases hb
    · rcases List.mem_cons.1 hb with rfl | hb
      · simpa using h0
      · exact ih _ b hb

end Rising

end AlgorithmCollection.Conc
