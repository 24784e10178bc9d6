/-
The sequential queue (`queueSpec`), and FIFO order of a concurrent queue, as a fact about the traces of its runs.

The value of the queue is a list read off the shared memory. If every step leaves it alone, appends the value of its
link event, or removes the value of its take event from the front (`FifoStep`), then in every run the values linked are
the values taken followed by the values in the queue, in order (`trace_fifo`).
-/
import AlgorithmCollection.Conc.Threads

namespace AlgorithmCollection.Conc

variable {Sh Loc Act β : Type*}

inductive QueueOp (β : Type*) where
  | enq (val : β)
  | deq
deriving DecidableEq, Repr

/-- for `deq`, none is false and some v is true with `*val = v` -/
inductive QueueRes (β : Type*) where
  | enq (ret : Bool)
  | deq (ret : Option β)
deriving DecidableEq, Repr

/-- the sequential FIFO queue; `enq` may fail without effect -/
def queueSpec : QueueOp β → QueueRes β → List β → List β → Prop
  | .enq v, .enq true, q, q' => q' = q ++ [v]
  | .enq _, .enq false, q, q' => q' = q
  | .deq, .deq none, q, q' => q = [] ∧ q' = q
  | .deq, .deq (some v), q, q' => q = v :: q'
  | _, _, _, _ => False

/-- one step of a queue, with the value it links and the value it takes -/
def FifoStep (q q' : List β) (link take : Option β) : Prop :=
  (q' = q ∧ link = none ∧ take = none) ∨ (∃ v, q' = q ++ [v] ∧ link = some v ∧ take = none) ∨
  (∃ v, q = v :: q' ∧ link = none ∧ take = some v)

section Step

variable {q q' : List β} {lk tk : Option β} {v : β}

variable (h : FifoStep q q' lk tk)

include h

theorem FifoStep.quiet (h1 : lk = none) (h2 : tk = none) : q' = q := by
  rcases h with ⟨h, -⟩ | ⟨v, -, h, -⟩ | ⟨v, -, -, h⟩
  · exact h
  · rw [h1] at h; cases h
  · rw [h2] at h; cases h

theorem FifoStep.link (h1 : lk = some v) : q' = q ++ [v] := by
  rcases h with ⟨-, h, -⟩ | ⟨w, hq, h, -⟩ | ⟨w, -, h, -⟩ <;> rw [h1] at h <;> cases h
  exact hq

theorem FifoStep.take (h1 : tk = some v) : q = v :: q' := by
  rcases h with ⟨-, -, h⟩ | ⟨w, -, -, h⟩ | ⟨w, hq, -, h⟩ <;> rw [h1] at h <;> cases h
  exact hq

theorem FifoStep.link_ne (h1 : lk = some v) : q' ≠ q := by rw [h.link h1]; simp

theorem FifoStep.take_ne (h1 : tk = some v) : q' ≠ q := by
  rw [h.take h1]; exact fun e => by simpa using congrArg List.length e

end Step

/-- **The linked values are the taken values followed by the contents**, in every run. -/
theorem trace_fifo (M : Sys Sh Loc Act) (view : Sh → List β) (link take : Sh → Loc → Act → Option β)
    (h0 : view M.sh = [])
    (h : ∀ ls t a, FifoStep (view (M.run ls).sh) (view (M.run (ls ++ [(t, a)])).sh)
      (link (M.run ls).sh ((M.run ls).loc t) a) (take (M.run ls).sh ((M.run ls).loc t) a))
    (ls : List (ℕ × Act)) : M.trace link ls = M.trace take ls ++ view (M.run ls).sh := by
  induction ls using List.reverseRecOn with
  | nil => rw [Sys.trace_nil, Sys.trace_nil, Sys.run_nil]; exact h0.symm
  | append_singleton ls x ih =>
    obtain ⟨t, a⟩ := x
    rw [Sys.trace_snoc, Sys.trace_snoc, ih]
    rcases h ls t a with ⟨h1, h2, h3⟩ | ⟨v, h1, h2, h3⟩ | ⟨v, h1, h2, h3⟩
    · simp only [h1, h2, h3, Option.toList_none, List.append_nil]
    · simp only [h1, h2, h3, Option.toList_none, Option.toList_some, List.append_nil, List.append_assoc]
    · simp only [h1, h2, h3, Option.toList_none, Option.toList_some, List.append_nil, List.append_assoc,
        List.singleton_append]

end AlgorithmCollection.Conc
