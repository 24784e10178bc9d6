/-
Arrays of slots, and probe sequences over them.

An array is a function b on the indices below n; `occ` tells the slots in use. `contents` is the multiset of what they
hold: filling a free slot adds to it (`contents_put`), clearing a used one takes away (`contents_take`), and an array with
less than n entries has a free slot (`exists_free`).

`Probes n probe`: the sequence visits every slot once, as linear probing does (`probes_linear`). `Probed`: between the
first slot of a stored key's probe sequence and its own there is no slot that was never used. Writing behind used slots
keeps this (`Probed.put`), so does clearing a slot without marking it empty (`Probed.clear`), and a search that stops
at the first empty slot finds every stored key (`Probed.search`).
-/
import Mathlib.Data.Finset.Card
import Mathlib.Data.Finset.Range
import Mathlib.Data.Nat.ModEq
import Mathlib.Tactic

namespace AlgorithmCollection.Conc.Slots

open Function (update update_self update_of_ne)

variable {σ β K : Type*}

/-! ## What an array holds -/

section Contents

variable {occ : σ → Bool} {g : σ → β} {b : ℕ → σ} {n s : ℕ} {x : σ}

/-- the slots in use -/
def used (occ : σ → Bool) (b : ℕ → σ) (n : ℕ) : Finset ℕ := (Finset.range n).filter fun i => occ (b i)

/-- what the slots in use hold -/
def contents (occ : σ → Bool) (g : σ → β) (b : ℕ → σ) (n : ℕ) : Multiset β := (used occ b n).val.map fun i => g (b i)

theorem mem_used {i : ℕ} : i ∈ used occ b n ↔ i < n ∧ occ (b i) = true := by
  unfold used; rw [Finset.mem_filter, Finset.mem_range]

theorem mem_contents {y : β} : y ∈ contents occ g b n ↔ ∃ i < n, occ (b i) = true ∧ g (b i) = y := by
  unfold contents
  rw [Multiset.mem_map]
  exact exists_congr fun i => by rw [Finset.mem_val, mem_used, and_assoc]

theorem card_contents : (contents occ g b n).card = (used occ b n).card := by
  unfold contents; rw [Multiset.card_map]; rfl

/-- no two slots in use hold the same -/
theorem nodup_contents_iff : (contents occ g b n).Nodup ↔
    ∀ i < n, ∀ j < n, occ (b i) = true → occ (b j) = true → g (b i) = g (b j) → i = j := by
  unfold contents
  rw [Multiset.nodup_map_iff_inj_on (used occ b n).nodup]
  simp only [Finset.mem_val, mem_used]
  constructor
  · intro h i hi j hj oi oj e
    exact h i ⟨hi, oi⟩ j ⟨hj, oj⟩ e
  · intro h i hi j hj e
    exact h i hi.1 j hj.1 hi.2 hj.2 e

theorem map_contents {γ : Type*} (f : β → γ) : (contents occ g b n).map f = contents occ (fun x => f (g x)) b n := by
  unfold contents
  rw [Multiset.map_map]
  rfl

theorem card_used_le : (used occ b n).card ≤ n := (Finset.card_filter_le _ _).trans (Finset.card_range n).le

theorem card_contents_le : (contents occ g b n).card ≤ n := by
  rw [card_contents]
  exact card_used_le

theorem exists_free (h : (contents occ g b n).card < n) : ∃ s < n, occ (b s) = false := by
  by_contra hn
  push Not at hn
  have hall : used occ b n = Finset.range n :=
    Finset.filter_true_of_mem fun i hi => by simpa using hn i (Finset.mem_range.1 hi)
  rw [card_contents, hall, Finset.card_range] at h
  exact lt_irrefl _ h

theorem used_of_none (h : ∀ i < n, occ (b i) = false) : used occ b n = ∅ :=
  Finset.filter_false_of_mem fun i hi => by rw [h i (Finset.mem_range.1 hi)]; exact Bool.false_ne_true

theorem contents_of_none (h : ∀ i < n, occ (b i) = false) : contents occ g b n = 0 := by
  unfold contents
  rw [used_of_none h]
  rfl

theorem contents_succ :
    contents occ g b (n + 1) = if occ (b n) then g (b n) ::ₘ contents occ g b n else contents occ g b n := by
  unfold contents used
  rw [Finset.range_add_one, Finset.filter_insert]
  split_ifs with h
  · rw [Finset.insert_val_of_notMem (by simp), Multiset.map_cons]
  · rfl

theorem used_put (hs : s < n) (hx : occ x = true) : used occ (update b s x) n = insert s (used occ b n) := by
  ext i
  rw [mem_used, Finset.mem_insert, mem_used]
  by_cases hi : i = s
  · subst hi; simp [hs, hx]
  · rw [update_of_ne hi]; simp [hi]

theorem used_take (hx : occ x = false) : used occ (update b s x) n = (used occ b n).erase s := by
  ext i
  rw [mem_used, Finset.mem_erase, mem_used]
  by_cases hi : i = s
  · subst hi; simp [hx]
  · rw [update_of_ne hi]; simp [hi]

/-- **Filling** a free slot. -/
theorem contents_put (hs : s < n) (h : occ (b s) = false) (hx : occ x = true) :
    contents occ g (update b s x) n = g x ::ₘ contents occ g b n := by
  have hnot : s ∉ used occ b n := fun hm => by
    rw [mem_used, h] at hm; cases hm.2
  unfold contents
  rw [used_put hs hx, Finset.insert_val_of_notMem hnot, Multiset.map_cons, update_self]
  congr 1
  refine Multiset.map_congr rfl fun i hi => ?_
  have hne : i ≠ s := fun e => hnot (e ▸ hi)
  rw [update_of_ne hne]

/-- **Clearing** a slot in use. -/
theorem contents_take (hs : s < n) (h : occ (b s) = true) (hx : occ x = false) :
    contents occ g b n = g (b s) ::ₘ contents occ g (update b s x) n := by
  have hput := contents_put (g := g) (b := update b s x) hs (by rw [update_self]; exact hx) h
  rwa [Function.update_idem, Function.update_eq_self] at hput

end Contents

/-! ## Probe sequences -/

/-- the sequence visits every slot once -/
structure Probes (n : ℕ) (probe : ℕ → ℕ) : Prop where
  lt : ∀ i < n, probe i < n
  inj : ∀ i < n, ∀ j < n, probe i = probe j → i = j

theorem Probes.surj {n : ℕ} {probe : ℕ → ℕ} (h : Probes n probe) {s : ℕ} (hs : s < n) : ∃ i < n, probe i = s := by
  have hsurj := Finset.surjOn_of_injOn_of_card_le (s := Finset.range n) (t := Finset.range n) probe
    (fun i hi => by simpa using h.lt i (by simpa using hi))
    (fun i hi j hj e => h.inj i (by simpa using hi) j (by simpa using hj) e) le_rfl
  obtain ⟨i, hi, e⟩ := hsurj (by simpa using hs)
  exact ⟨i, by simpa using hi, e⟩

theorem Probes.congr {n : ℕ} {probe probe' : ℕ → ℕ} (h : Probes n probe) (he : ∀ i < n, probe' i = probe i) :
    Probes n probe' where
  lt i hi := by rw [he i hi]; exact h.lt i hi
  inj i hi j hj e := by
    rw [he i hi, he j hj] at e
    exact h.inj i hi j hj e

/-- **Linear probing** visits every slot once. -/
theorem probes_linear (k : ℕ) {n : ℕ} (hn : 0 < n) : Probes n fun i => (k + i) % n where
  lt _ _ := Nat.mod_lt _ hn
  inj i hi j hj e := by
    have hmod : i ≡ j [MOD n] := Nat.ModEq.add_left_cancel' k e
    rwa [Nat.ModEq, Nat.mod_eq_of_lt hi, Nat.mod_eq_of_lt hj] at hmod

/-- every stored key is behind used slots only -/
def Probed (probe : K → ℕ → ℕ) (n : ℕ) (emp occ : σ → Bool) (key : σ → K) (b : ℕ → σ) : Prop :=
  ∀ s < n, occ (b s) = true → ∀ i < n, probe (key (b s)) i = s → ∀ j < i, emp (b (probe (key (b s)) j)) = false

namespace Probed

variable {probe : K → ℕ → ℕ} {n s i : ℕ} {emp occ : σ → Bool} {key : σ → K} {b : ℕ → σ} {x : σ}

/-- a write of a slot that is not empty leaves no new gap -/
theorem update_gap (hx : emp x = false) {t : ℕ} (h : emp (b t) = false) : emp (update b s x t) = false := by
  by_cases e : t = s
  · subst e; rw [update_self]; exact hx
  · rw [update_of_ne e]; exact h

variable (h : Probed probe n emp occ key b)

include h

/-- **Writing** a key behind used slots. -/
theorem put (hp : Probes n (probe (key x))) (hi : i < n)
    (hb : ∀ j < i, emp (b (probe (key x) j)) = false) (hx : emp x = false) :
    Probed probe n emp occ key (update b (probe (key x) i) x) := by
  intro t ht ho i' hi' e j hj
  by_cases hts : t = probe (key x) i
  · subst hts
    rw [update_self] at e ⊢
    obtain rfl := hp.inj _ hi' _ hi e
    exact update_gap hx (hb j hj)
  · rw [update_of_ne hts] at ho e ⊢
    exact update_gap hx (h t ht ho i' hi' e j hj)

/-- **Clearing** a slot without marking it empty. -/
theorem clear (hx : emp x = false) (hx' : occ x = false) : Probed probe n emp occ key (update b s x) := by
  intro t ht ho i' hi' e j hj
  have hts : t ≠ s := fun hts => by
    rw [hts, update_self, hx'] at ho; cases ho
  rw [update_of_ne hts] at ho e ⊢
  exact update_gap hx (h t ht ho i' hi' e j hj)

/-- **A search that stops at the first empty slot** finds a stored key. -/
theorem search [DecidableEq K] {k : K} (hp : Probes n (probe k))
    (hempty : ∀ y, occ y = true → emp y = false) (hs : s < n) (ho : occ (b s) = true) (hk : key (b s) = k) :
    ∃ i < n, (List.range n).find? (fun i => emp (b (probe k i)) || (occ (b (probe k i)) && key (b (probe k i)) == k)) = some i ∧
      occ (b (probe k i)) = true ∧ key (b (probe k i)) = k := by
  obtain ⟨i0, hi0, e⟩ := hp.surj hs
  subst hk
  have hgap := h s hs ho i0 hi0 e
  have hstop : (emp (b (probe (key (b s)) i0)) ||
      (occ (b (probe (key (b s)) i0)) && key (b (probe (key (b s)) i0)) == key (b s))) = true := by
    rw [e, ho]; simp
  obtain ⟨i, hfind⟩ : ∃ i, (List.range n).find? (fun i => emp (b (probe (key (b s)) i)) ||
      (occ (b (probe (key (b s)) i)) && key (b (probe (key (b s)) i)) == key (b s))) = some i := by
    rw [← Option.isSome_iff_exists, List.find?_isSome]
    exact ⟨i0, List.mem_range.2 hi0, hstop⟩
  obtain ⟨hpi, hmem, hfirst⟩ := List.find?_range_eq_some.1 hfind
  have hle : i ≤ i0 := by
    by_contra hlt
    have := hfirst i0 (not_le.1 hlt)
    rw [hstop] at this
    cases this
  have hemp : emp (b (probe (key (b s)) i)) = false := by
    rcases hle.lt_or_eq with hlt | rfl
    · exact hgap i hlt
    · rw [e]; exact hempty _ ho
  rw [hemp] at hpi
  simp only [Bool.false_or, Bool.and_eq_true, beq_iff_eq] at hpi
  exact ⟨i, List.mem_range.1 hmem, hfind, hpi⟩

end Probed

end AlgorithmCollection.Conc.Slots
