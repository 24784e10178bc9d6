/-
Positions in a list that only grows and has no duplicates.

A pointer structure to which nodes are only ever appended is described by the list of its nodes in order. A fact
"the node at position i is a" survives every extension of the list (`get_of_extends`), and a node has one position
(`pos_inj`). `walk_drop`: following the links from position i on gives the rest of the list.
-/
import AlgorithmCollection.Conc.Chain

namespace AlgorithmCollection.Conc

variable {α : Type*} {L L' : List α} {i j : ℕ} {a b : α}

theorem get_of_extends (h : L <+: L') (hi : L[i]? = some a) : L'[i]? = some a := by
  obtain ⟨r, rfl⟩ := h
  have hlt : i < L.length := (List.getElem?_eq_some_iff.1 hi).1
  rw [List.getElem?_append_left hlt, hi]

theorem mem_of_get (h : L[i]? = some a) : a ∈ L := List.mem_of_getElem? h

theorem lt_of_get (h : L[i]? = some a) : i < L.length := (List.getElem?_eq_some_iff.1 h).1

/-- positions in a list without duplicates are unique -/
theorem pos_inj (h : L.Nodup) (hi : L[i]? = some a) (hj : L[j]? = some a) : i = j := by
  obtain ⟨h1, e1⟩ := List.getElem?_eq_some_iff.1 hi
  obtain ⟨h2, e2⟩ := List.getElem?_eq_some_iff.1 hj
  exact (List.Nodup.getElem_inj_iff h).1 (e1.trans e2.symm)

theorem nodup_snoc (h : L.Nodup) (ha : a ∉ L) : (L ++ [a]).Nodup := by
  refine List.nodup_append.2 ⟨h, List.nodup_singleton _, fun x hx y hy e => ?_⟩
  rw [List.mem_singleton] at hy
  subst hy; subst e; exact ha hx

/-- a position of the list with one more element at its end is an old one or the new one -/
theorem get_snoc (h : (L ++ [a])[i]? = some b) : L[i]? = some b ∨ (i = L.length ∧ b = a) := by
  rcases Nat.lt_or_ge i L.length with hi | hi
  · rw [List.getElem?_append_left hi] at h; exact .inl h
  · have hlt := lt_of_get h
    simp only [List.length_append, List.length_singleton] at hlt
    obtain rfl : i = L.length := by omega
    simp only [List.getElem?_concat_length, Option.some.injEq] at h
    exact .inr ⟨rfl, h.symm⟩

/-- a list of addresses without duplicates below n has at most n elements -/
theorem length_le_of_lt {L : List ℕ} {n : ℕ} (h : L.Nodup) (hlt : ∀ a ∈ L, a < n) : L.length ≤ n := by
  have hsub : L ⊆ List.range n := fun a ha => List.mem_range.2 (hlt a ha)
  simpa using h.length_le_of_subset hsub

/-- each node from position i on leads to the next one, and the last one to 0 -/
theorem walk_drop {next : ℕ → ℕ} {L : List ℕ} (hne : ∀ a ∈ L, a ≠ 0) (f : ℕ)
    (hnext : ∀ j a, i ≤ j → L[j]? = some a → next a = L[j + 1]?.getD 0) (hf : L.length ≤ i + f) :
    walk next (fun a => a = 0) f (L[i]?.getD 0) = L.drop i := by
  induction f generalizing i with
  | zero => rw [List.drop_eq_nil_of_le (by omega)]; rfl
  | succ f ih =>
    rcases Nat.lt_or_ge i L.length with hi | hi
    · have hg : L[i]? = some L[i] := List.getElem?_eq_getElem hi
      have hstop : L[i] ≠ 0 := hne _ (mem_of_get hg)
      rw [hg, List.drop_eq_getElem_cons hi, ← ih (fun j a hj => hnext j a (by omega)) (by omega), ← hnext i _ le_rfl hg]
      simp [walk, hstop]
    · rw [List.getElem?_eq_none hi, List.drop_eq_nil_of_le hi]; rfl

end AlgorithmCollection.Conc
