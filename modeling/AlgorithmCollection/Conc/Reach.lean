/-
Reachability along a `next` pointer, and what a compare-and-swap of one pointer does to it.

`Reach nx h x`: the node x is met from h on by following `nx`. Nothing is assumed of the graph: it may have cycles, and
nodes may point into it from outside.

- `Reach.insert`: setting `nx p` to a new node that points to where p pointed keeps every node reachable.
- `Reach.unlink`: setting `nx p` to the successor of p's successor c keeps every node but c reachable.
- `Reach.of_insert`, `Reach.of_unlink`: these changes make no other node reachable.
- `Reach.mem`: a set with h in it that is closed under `nx` has every reachable node in it.
- `Reach.inj`: if the list ends, in a node that points to itself, no two reachable nodes point to the same node before it.
-/
import Mathlib.Logic.Relation
import Mathlib.Data.Set.Basic
import Mathlib.Logic.Function.Iterate
import Mathlib.Tactic.Ring

namespace AlgorithmCollection.Conc

open Function (update update_self update_of_ne)

variable {α : Type*} {nx : α → α} {h p x : α}

/-- x is met from h on -/
def Reach (nx : α → α) (h x : α) : Prop := Relation.ReflTransGen (fun a b => nx a = b) h x

namespace Reach

protected theorem refl (nx : α → α) (h : α) : Reach nx h h := Relation.ReflTransGen.refl

theorem step (hx : Reach nx h x) : Reach nx h (nx x) := Relation.ReflTransGen.tail hx rfl

theorem mem {S : Set α} (hx : Reach nx h x) (hh : h ∈ S) (hS : ∀ a ∈ S, nx a ∈ S) : x ∈ S := by
  induction hx with
  | refl => exact hh
  | tail _ hab ih => subst hab; exact hS _ ih

/-- pointers of nodes that are not reachable do not matter -/
theorem congr {nx' : α → α} (hx : Reach nx h x) (hn : ∀ a, Reach nx h a → nx' a = nx a) : Reach nx' h x := by
  induction hx with
  | refl => exact Reach.refl _ _
  | tail hxa hab ih =>
    subst hab
    rw [← hn _ hxa]
    exact ih.step

theorem exists_iterate (hx : Reach nx h x) : ∃ n, nx^[n] h = x := by
  induction hx with
  | refl => exact ⟨0, rfl⟩
  | tail _ hab ih =>
    obtain ⟨n, rfl⟩ := ih
    exact ⟨n + 1, by rw [Function.iterate_succ_apply', hab]⟩

theorem inj {z q : α} (hz : Reach nx h z) (hend : nx z = z) (hp : Reach nx h p) (hq : Reach nx h q) (e : nx p = nx q)
    (hne : nx p ≠ z) : p = q := by
  obtain ⟨k, hk⟩ := hz.exists_iterate
  obtain ⟨i, rfl⟩ := hp.exists_iterate
  obtain ⟨j, rfl⟩ := hq.exists_iterate
  -- if the two positions differ the list repeats from there on, and never ends
  have key : ∀ i d, nx^[i + 1] h = nx^[i + d + 1 + 1] h → nx^[i + 1] h = z := by
    intro i d e
    have hrep : ∀ n, nx^[i + 1 + n * (d + 1)] h = nx^[i + 1] h := by
      intro n
      induction n with
      | zero => simp
      | succ n ih =>
        have : i + 1 + (n + 1) * (d + 1) = n * (d + 1) + (i + d + 1 + 1) := by ring
        rw [this, Function.iterate_add_apply, ← e, ← Function.iterate_add_apply, Nat.add_comm (n * (d + 1))]
        exact ih
    have hlong : nx^[i + 1 + k * (d + 1)] h = z := by
      have hfix : ∀ n, nx^[n] z = z := fun n => Function.iterate_fixed hend n
      have : i + 1 + k * (d + 1) = (i + 1 + k * d) + k := by ring
      rw [this, Function.iterate_add_apply, hk, hfix]
    rw [← hrep k, hlong]
  rw [← Function.iterate_succ_apply' nx, ← Function.iterate_succ_apply' nx] at e
  rw [← Function.iterate_succ_apply' nx] at hne
  rcases lt_trichotomy i j with hlt | rfl | hlt
  · obtain ⟨d, rfl⟩ := Nat.exists_eq_add_of_lt hlt
    exact absurd (key i d e) hne
  · rfl
  · obtain ⟨d, rfl⟩ := Nat.exists_eq_add_of_lt hlt
    rw [e] at hne
    exact absurd (key j d e.symm) hne

variable [DecidableEq α]

theorem insert {n : α} (hx : Reach nx h x) (hn : nx n = nx p) (hne : n ≠ p) :
    Reach (update nx p n) h x := by
  induction hx with
  | refl => exact Reach.refl _ _
  | @tail a b _ hab ih =>
    subst hab
    by_cases ha : a = p
    · -- from p the way to its old successor is over n
      subst ha
      have h1 := ih.step
      rw [update_self] at h1
      have h2 := h1.step
      rwa [update_of_ne hne, hn] at h2
    · have h1 := ih.step
      rwa [update_of_ne ha] at h1

/-- the new node itself -/
theorem insert_new {n : α} (hp : Reach nx h p) (hn : nx n = nx p) (hne : n ≠ p) :
    Reach (update nx p n) h n := by
  have := (hp.insert hn hne).step
  rwa [update_self] at this

theorem of_insert {n : α} (hx : Reach (update nx p n) h x) (hn : nx n = nx p) : Reach nx h x ∨ x = n := by
  suffices H : Reach nx h x ∨ x = n ∧ Reach nx h p from H.imp_right And.left
  induction hx with
  | refl => exact .inl (Reach.refl _ _)
  | @tail a b _ hab ih =>
    subst hab
    by_cases ha : a = p
    · subst ha
      rw [update_self]
      exact .inr ⟨rfl, ih.elim id And.right⟩
    · rw [update_of_ne ha]
      rcases ih with ih | ⟨rfl, hp⟩
      · exact .inl ih.step
      · rw [hn]; exact .inl hp.step

theorem of_unlink {c : α} (hx : Reach (update nx p (nx c)) h x) (hc : nx p = c) : Reach nx h x := by
  induction hx with
  | refl => exact Reach.refl _ _
  | @tail a b _ hab ih =>
    subst hab
    by_cases ha : a = p
    · subst ha
      rw [update_self, ← hc]
      exact ih.step.step
    · rw [update_of_ne ha]; exact ih.step

theorem unlink {c : α} (hx : Reach nx h x) (hc : nx p = c) (hxc : x ≠ c) :
    Reach (update nx p (nx c)) h x := by
  -- from c on, what is kept is the way to the successor of c
  suffices H : Reach (update nx p (nx c)) h x ∨ x = c ∧ Reach (update nx p (nx c)) h (nx c) from
    H.resolve_right fun h1 => hxc h1.1
  clear hxc
  induction hx with
  | refl => exact .inl (Reach.refl _ _)
  | @tail a b _ hab ih =>
    subst hab
    rcases ih with h1 | ⟨rfl, h1⟩
    · have h2 := h1.step
      by_cases ha : a = p
      · subst ha
        rw [update_self] at h2
        exact .inr ⟨hc, h2⟩
      · rw [update_of_ne ha] at h2
        exact .inl h2
    · exact .inl h1

end Reach

end AlgorithmCollection.Conc
