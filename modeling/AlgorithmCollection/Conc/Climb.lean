/-
Lists that may share nodes and lose them, but whose links lead up to one last node.

`Climb next rank tail lim S`: the links of the nodes of S, which are at addresses below lim, lead to nodes of S of larger
rank, up to tail, and from tail on no node of S is met. S need not be one list: a node that is unlinked keeps its link into
the list, and may stay in S. What is on the list from a node a on is what is reachable from a, and `mem_walk`, `walk_sorted`
and `walk_linked` say that the traversal computes exactly this, in the order of the ranks, and ends at tail.
-/
import AlgorithmCollection.Conc.Reach
import AlgorithmCollection.Conc.Rising

namespace AlgorithmCollection.Conc

variable {R : Type*} [LinearOrder R]

structure Climb (next : ℕ → ℕ) (rank : ℕ → R) (tail lim : ℕ) (S : Set ℕ) : Prop where
  tail_mem : tail ∈ S
  lt_lim : ∀ a ∈ S, a < lim
  next_mem : ∀ a ∈ S, a ≠ tail → next a ∈ S
  lt_next : ∀ a ∈ S, a ≠ tail → rank a < rank (next a)
  last : ∀ x ∈ S, Reach next tail x → x = tail

namespace Climb

variable {next : ℕ → ℕ} {rank : ℕ → R} {tail lim a x : ℕ} {S : Set ℕ}

variable (h : Climb next rank tail lim S)

include h

/-- fewer ranks are to come from the next node on -/
theorem above_next (ha : a ∈ S) (hat : a ≠ tail) : (Rising.above rank lim (next a)).card < (Rising.above rank lim a).card :=
  Rising.above_lt (h.lt_lim _ (h.next_mem a ha hat)) (h.lt_next a ha hat)

/-- a traversal with enough fuel meets what is reachable, except tail -/
theorem mem_walk_of (f : ℕ) (ha : a ∈ S) (hf : (Rising.above rank lim a).card < f) :
    x ∈ walk next (fun a => a = tail) f a ↔ Reach next a x ∧ x ∈ S ∧ x ≠ tail := by
  induction f generalizing a with
  | zero => exact absurd hf (Nat.not_lt_zero _)
  | succ f ih =>
    unfold walk
    by_cases hat : a = tail
    · rw [if_pos (by simpa using hat), hat]
      refine ⟨fun e => absurd e List.not_mem_nil, ?_⟩
      rintro ⟨h1, h2, h3⟩
      exact absurd (h.last x h2 h1) h3
    · have hless := h.above_next ha hat
      rw [if_neg (by simpa using hat), List.mem_cons, ih (h.next_mem a ha hat) (by omega)]
      constructor
      · rintro (rfl | ⟨h1, h2⟩)
        · exact ⟨Reach.refl _ _, ha, hat⟩
        · exact ⟨Relation.ReflTransGen.head rfl h1, h2⟩
      · rintro ⟨h1, h2⟩
        rcases Relation.ReflTransGen.cases_head h1 with rfl | ⟨b, rfl, h1⟩
        · exact .inl rfl
        · exact .inr ⟨h1, h2⟩

theorem walk_sorted_of (f : ℕ) (ha : a ∈ S) : (walk next (fun a => a = tail) f a).Pairwise (fun x y => rank x < rank y) ∧
      ∀ x ∈ walk next (fun a => a = tail) f a, rank a ≤ rank x := by
  induction f generalizing a with
  | zero => simp [walk]
  | succ f ih =>
    unfold walk
    by_cases hat : a = tail
    · simp [hat]
    · rw [if_neg (by simpa using hat)]
      obtain ⟨hsort, hle⟩ := ih (h.next_mem a ha hat)
      have hlt : ∀ x ∈ walk next (fun a => a = tail) f (next a), rank a < rank x := fun x hx =>
        (h.lt_next a ha hat).trans_le (hle x hx)
      refine ⟨List.pairwise_cons.2 ⟨hlt, hsort⟩, fun x hx => ?_⟩
      rcases List.mem_cons.1 hx with rfl | hx
      · exact le_rfl
      · exact (hlt x hx).le

theorem walk_linked_of (f : ℕ) (ha : a ∈ S) (hf : (Rising.above rank lim a).card < f) {p : ℕ} (hp : next p = a) :
    (p :: (walk next (fun a => a = tail) f a ++ [tail])).IsChain fun x y => next x = y := by
  induction f generalizing a p with
  | zero => exact absurd hf (Nat.not_lt_zero _)
  | succ f ih =>
    unfold walk
    by_cases hat : a = tail
    · simp [hp, hat]
    · have hless := h.above_next ha hat
      rw [if_neg (by simpa using hat), List.cons_append, List.isChain_cons_cons]
      exact ⟨hp, ih (h.next_mem a ha hat) (by omega) rfl⟩

omit h

/-! ## The traversal from a head -/

section FromHead

variable {head : ℕ} (h : Climb next rank tail lim S) (hh : head ∈ S) (hht : head ≠ tail)

include h hh hht

theorem mem_walk : x ∈ walk next (fun a => a = tail) lim (next head) ↔
    Reach next head x ∧ x ∈ S ∧ x ≠ head ∧ x ≠ tail := by
  have hm := h.next_mem head hh hht
  have hf : (Rising.above rank lim (next head)).card < lim := Rising.above_lt_lim (h.lt_lim _ hm)
  rw [h.mem_walk_of lim hm hf]
  constructor
  · rintro ⟨h1, h2, h3⟩
    refine ⟨Relation.ReflTransGen.head rfl h1, h2, ?_, h3⟩
    rintro rfl
    -- the ranks from the next node on are larger than that of head
    have hx := (h.mem_walk_of lim hm hf).2 ⟨h1, h2, h3⟩
    exact absurd ((h.walk_sorted_of lim hm).2 _ hx) (not_le.2 (h.lt_next _ hh hht))
  · rintro ⟨h1, h2, h3, h4⟩
    rcases Relation.ReflTransGen.cases_head h1 with rfl | ⟨b, rfl, h1⟩
    · exact absurd rfl h3
    · exact ⟨h1, h2, h4⟩

theorem walk_sorted : (walk next (fun a => a = tail) lim (next head)).Pairwise fun x y => rank x < rank y :=
  (h.walk_sorted_of lim (h.next_mem head hh hht)).1

theorem walk_linked : (head :: (walk next (fun a => a = tail) lim (next head) ++ [tail])).IsChain fun x y => next x = y :=
  have hm := h.next_mem head hh hht
  h.walk_linked_of lim hm (Rising.above_lt_lim (h.lt_lim _ hm)) rfl

end FromHead

end Climb

end AlgorithmCollection.Conc
