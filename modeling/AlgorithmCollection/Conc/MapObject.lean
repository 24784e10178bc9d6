/-
Finite maps as concurrent objects.

The operations of a map and its sequential specification (`mapSpec`), and how the value of a map changes with the set
of nodes that carry it: `Rep D key val M` says that the map M holds exactly the pairs of the nodes of D. Adding a node
with a new key updates the map (`Rep.insert`), removing a node removes its key (`Rep.erase`), and the map is determined
by its nodes (`Rep.unique`). `lookup` is the map computed from a list of nodes.
-/
import Mathlib.Tactic
import Mathlib.Data.Finset.Basic

namespace AlgorithmCollection.Conc

open Function (update update_self update_of_ne)

variable {K V : Type*} {v : V} {k : K}

inductive MapOp (K V : Type*) where
  | add (key : K) (val : V)
  | delete (key : K)
  | find (key : K)
  | contains (key : K)
deriving DecidableEq, Repr

/-- `delete` and `find` return the stored value, or none for false; `oom` stands for the false that `add` returns when calloc
has failed -/
inductive MapRes (V : Type*) where
  | add (ret : Bool)
  | delete (ret : Option V)
  | find (ret : Option V)
  | contains (ret : Bool)
  | oom
deriving DecidableEq, Repr

/-- the results of the calls that change the map -/
def MapRes.changes : MapRes V → Bool
  | .add true | .delete (some _) => true
  | _ => false

/-- the sequential map: `add` returns true iff the key is absent, `delete` and `find` give the stored value. An `add` that
returns false since calloc has failed (`oom`) changes nothing, whether or not the key is there. -/
def mapSpec [DecidableEq K] : MapOp K V → MapRes V → (K → Option V) → (K → Option V) → Prop
  | .add k v, .add true, M, M' => M k = none ∧ M' = update M k (some v)
  | .add k _, .add false, M, M' => M k ≠ none ∧ M' = M
  | .add _ _, .oom, M, M' => M' = M
  | .delete k, .delete (some v), M, M' => M k = some v ∧ M' = update M k none
  | .delete k, .delete none, M, M' => M k = none ∧ M' = M
  | .find k, .find r, M, M' => M k = r ∧ M' = M
  | .contains k, .contains b, M, M' => (M k).isSome = b ∧ M' = M
  | _, _, _, _ => False

/-- a step changes nothing, or does the operation it commits -/
def MapEffect [DecidableEq K] (M M' : K → Option V) : Option (MapOp K V × MapRes V) → Prop
  | none => M' = M
  | some (op, r) => mapSpec op r M M'

/-- the map M holds the pairs of the nodes of D -/
def Rep (D : Finset ℕ) (key : ℕ → K) (val : ℕ → V) (M : K → Option V) : Prop :=
  ∀ k v, M k = some v ↔ ∃ a ∈ D, key a = k ∧ val a = v

section Rep

variable {D D' : Finset ℕ} {key key' : ℕ → K} {val val' : ℕ → V} {M M' : K → Option V}

variable (h : Rep D key val M)

include h

theorem Rep.unique (h' : Rep D key val M') : M' = M := by
  funext k
  exact Option.ext fun v => (h' k v).trans (h k v).symm

theorem Rep.congr (hk : ∀ a ∈ D, key' a = key a) (hv : ∀ a ∈ D, val' a = val a) : Rep D key' val' M := by
  intro k v
  rw [h k v]
  refine exists_congr fun a => and_congr_right fun ha => ?_
  rw [hk a ha, hv a ha]

theorem Rep.holds {a : ℕ} (ha : a ∈ D) : M (key a) = some (val a) := (h _ _).2 ⟨a, ha, rfl, rfl⟩

theorem Rep.absent (hk : ∀ a ∈ D, key a ≠ k) : M k = none := by
  cases e : M k with
  | none => rfl
  | some v =>
    obtain ⟨a, ha, h1, -⟩ := (h k v).1 e
    exact absurd h1 (hk a ha)

theorem Rep.absent_iff : M k = none ↔ ∀ a ∈ D, key a ≠ k := by
  refine ⟨fun e a ha hk => ?_, h.absent⟩
  rw [← hk, h.holds ha] at e; cases e

variable [DecidableEq K]

/-- a node with a key that no node has -/
theorem Rep.insert {n : ℕ} (hn : ∀ a ∈ D, key a ≠ key n) : Rep (insert n D) key val (update M (key n) (some (val n))) := by
  intro k v
  by_cases hk : k = key n
  · subst hk
    rw [update_self]
    constructor
    · intro e; exact ⟨n, Finset.mem_insert_self _ _, rfl, Option.some.inj e⟩
    · rintro ⟨a, ha, h1, h2⟩
      rcases Finset.mem_insert.1 ha with rfl | ha
      · rw [h2]
      · exact absurd h1 (hn a ha)
  · rw [update_of_ne hk, h k v]
    constructor
    · rintro ⟨a, ha, h1⟩; exact ⟨a, Finset.mem_insert_of_mem ha, h1⟩
    · rintro ⟨a, ha, h1, h2⟩
      rcases Finset.mem_insert.1 ha with rfl | ha
      · exact absurd h1.symm hk
      · exact ⟨a, ha, h1, h2⟩

/-- the only node with its key goes away -/
theorem Rep.erase {c : ℕ} (hc : ∀ a ∈ D, key a = key c → a = c) : Rep (D.erase c) key val (update M (key c) none) := by
  intro k v
  by_cases hk : k = key c
  · subst hk
    rw [update_self]
    refine ⟨nofun, fun ⟨a, ha, h1, _⟩ => ?_⟩
    exact absurd (hc a (Finset.mem_of_mem_erase ha) h1) (Finset.ne_of_mem_erase ha)
  · rw [update_of_ne hk, h k v]
    constructor
    · rintro ⟨a, ha, h1, h2⟩
      exact ⟨a, Finset.mem_erase.2 ⟨fun e => hk (by rw [← h1, e]), ha⟩, h1, h2⟩
    · rintro ⟨a, ha, h1⟩; exact ⟨a, Finset.mem_of_mem_erase ha, h1⟩

/-! The map of a state, when the nodes of the one before and their data are known. -/

omit [DecidableEq K] in
theorem Rep.same (h' : Rep D' key' val' M') (hS : ∀ a, a ∈ D' ↔ a ∈ D)
    (hd : ∀ a ∈ D, key' a = key a ∧ val' a = val a) : M' = M := by
  obtain rfl : D' = D := Finset.ext hS
  exact (h.congr (fun a ha => (hd a ha).1) fun a ha => (hd a ha).2).unique h'

/-- a node with a new key has come -/
theorem Rep.added (h' : Rep D' key' val' M') {n : ℕ} (hk : key' n = k)
    (hv : val' n = v) (hS : ∀ a, a ∈ D' ↔ a = n ∨ a ∈ D) (hd : ∀ a ∈ D, key' a = key a ∧ val' a = val a)
    (habs : M k = none) : M' = update M k (some v) := by
  obtain rfl : D' = Insert.insert n D := by
    ext a; rw [hS, Finset.mem_insert]
  have hr := h.congr (fun a ha => (hd a ha).1) fun a ha => (hd a ha).2
  subst hk hv
  exact (hr.insert (hr.absent_iff.1 habs)).unique h'

/-- a node has gone, the only one with its key -/
theorem Rep.removed (h' : Rep D' key' val' M') {c : ℕ} (hc : c ∈ D) (hk : key c = k)
    (hinj : ∀ a ∈ D, key a = key c → a = c) (hS : ∀ a, a ∈ D' ↔ a ≠ c ∧ a ∈ D)
    (hd : ∀ a ∈ D, key' a = key a ∧ val' a = val a) : M' = update M k none := by
  obtain rfl : D' = D.erase c := by
    ext a; rw [hS, Finset.mem_erase]
  have hr := h.congr (fun a ha => (hd a ha).1) fun a ha => (hd a ha).2
  rw [← hk, ← (hd c hc).1]
  refine (hr.erase fun a ha e => hinj a ha ?_).unique h'
  rw [← (hd a ha).1, ← (hd c hc).1, e]

omit h

/-- the map changes by these updates: the key was absent, and is there now -/
theorem update_some_ne (h : M k = none) : update M k (some v) ≠ M := by
  intro e
  have := congrFun e k
  rw [update_self, h] at this; cases this

theorem update_none_ne (h : M k = some v) : update M k none ≠ M := by
  intro e
  have := congrFun e k
  rw [update_self, h] at this; cases this

/-- the map computed from a list of nodes -/
def lookup (l : List ℕ) (key : ℕ → K) (val : ℕ → V) (k : K) : Option V := (l.find? fun a => key a = k).map val

/-- the map computed from a list of nodes with different keys holds their pairs -/
theorem rep_lookup {l : List ℕ} (hl : ∀ a, a ∈ l ↔ a ∈ D) (hinj : ∀ a ∈ D, ∀ b ∈ D, key a = key b → a = b) :
    Rep D key val (lookup l key val) := by
  intro k v
  unfold lookup
  rw [Option.map_eq_some_iff]
  constructor
  · rintro ⟨a, ha, rfl⟩
    exact ⟨a, (hl a).1 (List.mem_of_find?_eq_some ha), by simpa using List.find?_some ha, rfl⟩
  · rintro ⟨a, ha, hk, rfl⟩
    cases e : l.find? fun a => key a = k with
    | none => exact absurd (List.find?_eq_none.1 e a ((hl a).2 ha)) (by simp [hk])
    | some b =>
      have hb : key b = k := by simpa using List.find?_some e
      rw [hinj b ((hl b).1 (List.mem_of_find?_eq_some e)) a ha (hb.trans hk.symm)]
      exact ⟨a, rfl, rfl⟩

end Rep

end AlgorithmCollection.Conc
