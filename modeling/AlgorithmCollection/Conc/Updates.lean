/-
The successful updates of a map, in order, and what can be counted in them.

An `add` that returns true and a `delete` that returns true with a value are recorded one after the other. `Replays h M`:
the record h is one of a map that was empty at first and is M now, each `add` finding its key absent and each `delete`
taking out the value that is there. `Tallied h P`, which is read off such a record (`Replays.tallied`): for every key the
adds are as many as the deletes or one more, one more exactly for the keys of P, and every delete has the value of the
last add of its key before it.
-/
import Mathlib.Tactic

namespace AlgorithmCollection.Conc

open Function (update_of_ne)

variable {K V : Type*} [DecidableEq K]

/-- an update that returned true, `delete` with the value it gave back -/
inductive Update (K V : Type*) where
  | add (key : K) (val : V)
  | delete (key : K) (val : V)
deriving DecidableEq, Repr

namespace Update

def isAdd (k : K) : Update K V → Bool
  | .add k' _ => k' = k
  | .delete _ _ => false

def isDelete (k : K) : Update K V → Bool
  | .add _ _ => false
  | .delete k' _ => k' = k

/-- the value of an `add` of key k -/
def added (k : K) : Update K V → Option V
  | .add k' v => if k' = k then some v else none
  | .delete _ _ => none

end Update

/-- how many adds of key k returned true -/
def adds (k : K) (h : List (Update K V)) : ℕ := h.countP (Update.isAdd k)

/-- how many deletes of key k returned true -/
def deletes (k : K) (h : List (Update K V)) : ℕ := h.countP (Update.isDelete k)

/-- the value of the last add of key k -/
def lastAdd (k : K) (h : List (Update K V)) : Option V := (h.filterMap (Update.added k)).getLast?

/-- the adds and deletes that returned true balance, up to the keys of P, and deletes give back what was added -/
structure Tallied (h : List (Update K V)) (P : K → Prop) : Prop where
  count : ∀ k, adds k h = deletes k h ∨ adds k h = deletes k h + 1
  held : ∀ k, P k ↔ adds k h = deletes k h + 1
  value : ∀ pre k v post, h = pre ++ .delete k v :: post → lastAdd k pre = some v

/-- h is what happened to a map that was empty and is M now -/
inductive Replays : List (Update K V) → (K → Option V) → Prop
  | nil : Replays [] fun _ => none
  | add {h : List (Update K V)} {M : K → Option V} {k : K} (v : V) :
      Replays h M → M k = none → Replays (h ++ [.add k v]) (Function.update M k (some v))
  | delete {h : List (Update K V)} {M : K → Option V} {k : K} {v : V} :
      Replays h M → M k = some v → Replays (h ++ [.delete k v]) (Function.update M k none)

section Snoc

variable (h : List (Update K V)) (k k' : K) (v : V)

theorem adds_snoc_add : adds k (h ++ [.add k' v]) = adds k h + if k' = k then 1 else 0 := by
  simp [adds, List.countP_append, List.countP_cons, Update.isAdd]

theorem adds_snoc_delete : adds k (h ++ [.delete k' v]) = adds k h := by
  simp [adds, List.countP_append, Update.isAdd]

theorem deletes_snoc_add : deletes k (h ++ [.add k' v]) = deletes k h := by
  simp [deletes, List.countP_append, Update.isDelete]

theorem deletes_snoc_delete : deletes k (h ++ [.delete k' v]) = deletes k h + if k' = k then 1 else 0 := by
  simp [deletes, List.countP_append, List.countP_cons, Update.isDelete]

theorem lastAdd_snoc_add : lastAdd k (h ++ [.add k' v]) = if k' = k then some v else lastAdd k h := by
  by_cases e : k' = k <;> simp [lastAdd, List.filterMap_append, Update.added, e]

theorem lastAdd_snoc_delete : lastAdd k (h ++ [.delete k' v]) = lastAdd k h := by
  simp [lastAdd, List.filterMap_append, Update.added]

end Snoc

namespace Replays

variable {h : List (Update K V)} {M : K → Option V}

theorem count (hr : Replays h M) (k : K) : adds k h = deletes k h + if (M k).isSome then 1 else 0 := by
  induction hr with
  | nil => rfl
  | @add h M k' v _ hk ih =>
    rw [adds_snoc_add, deletes_snoc_add, ih]
    by_cases e : k' = k
    · subst e; simp [hk]
    · simp [e, update_of_ne (Ne.symm e)]
  | @delete h M k' v _ hk ih =>
    rw [adds_snoc_delete, deletes_snoc_delete, ih]
    by_cases e : k' = k
    · subst e; simp [hk]
    · simp [e, update_of_ne (Ne.symm e)]

/-- what the map holds was added last -/
theorem lastAdd_eq (hr : Replays h M) {k : K} {v : V} (hk : M k = some v) : lastAdd k h = some v := by
  induction hr with
  | nil => cases hk
  | @add h M k' v' _ _ ih =>
    rw [lastAdd_snoc_add]
    by_cases e : k' = k
    · subst e; rw [if_pos rfl, ← hk, Function.update_self]
    · rw [if_neg e]
      rw [update_of_ne (Ne.symm e)] at hk
      exact ih hk
  | @delete h M k' v' _ _ ih =>
    rw [lastAdd_snoc_delete]
    by_cases e : k' = k
    · subst e; rw [Function.update_self] at hk; cases hk
    · rw [update_of_ne (Ne.symm e)] at hk
      exact ih hk

theorem value (hr : Replays h M) (pre : List (Update K V)) (k : K) (v : V) (post : List (Update K V))
    (e : h = pre ++ .delete k v :: post) : lastAdd k pre = some v := by
  induction hr generalizing post with
  | nil => simp at e
  | @add h M k' v' _ _ ih =>
    -- the last entry is an add, so the delete is an earlier one
    rcases List.eq_nil_or_concat post with rfl | ⟨post', x, rfl⟩
    · have := congrArg List.getLast? e
      simp at this
    · rw [List.concat_eq_append, ← List.cons_append, ← List.append_assoc] at e
      exact ih post' (List.append_inj_left' e rfl)
  | @delete h M k' v' hr hk ih =>
    rcases List.eq_nil_or_concat post with rfl | ⟨post', x, rfl⟩
    · obtain ⟨rfl, e2⟩ := List.append_inj' e rfl
      cases e2
      exact hr.lastAdd_eq hk
    · rw [List.concat_eq_append, ← List.cons_append, ← List.append_assoc] at e
      exact ih post' (List.append_inj_left' e rfl)

/-- **The record of a map balances**, with the keys the map has. -/
theorem tallied (hr : Replays h M) {P : K → Prop} (hP : ∀ k, P k ↔ (M k).isSome = true) : Tallied h P where
  count k := by
    rw [hr.count k]
    split
    · exact .inr rfl
    · exact .inl rfl
  held k := by
    rw [hP k, hr.count k]
    cases (M k).isSome <;> simp
  value := hr.value

end Replays

end AlgorithmCollection.Conc
