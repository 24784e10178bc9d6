/-
A thread that runs alone.

With the other threads at rest, a step is a function f on the pairs of memory and local state. `Path f ok x y`: f leads from
x to y, through states before y for which ok holds. So `Path f ok x y` for a state y in which the thread has returned says
that the call returns and meets no state that is not ok.

A thread that has returned stays where it is (f y = y). So a call that comes to a state that is not ok does not have such
a path (`not_of_bad`), and neither has a call that comes into a set of states that it never leaves (`not_of_trap`).
`path_walk`: the loop that goes along a linked list to the first key that is not below k. `Sys.run_alone`: invariants of the
runs in which one thread takes all steps.
-/
import AlgorithmCollection.Conc.Threads

namespace AlgorithmCollection.Conc

/-- f leads from x to y, and the states before y are ok -/
inductive Path {σ : Type*} (f : σ → σ) (ok : σ → Prop) : σ → σ → Prop
  | refl {x : σ} : Path f ok x x
  | step {x y : σ} (h : ok x) (t : Path f ok (f x) y) : Path f ok x y

namespace Path

variable {σ : Type*} {f : σ → σ} {ok : σ → Prop} {x y z : σ}

theorem trans (h : Path f ok x y) (h' : Path f ok y z) : Path f ok x z := by
  induction h with
  | refl => exact h'
  | step hx _ ih => exact .step hx (ih h')

/-- one step, to a state that is given -/
theorem cons (h : ok x) (e : f x = y) (t : Path f ok y z) : Path f ok x z := .step h (e ▸ t)

theorem mono {ok' : σ → Prop} (h : Path f ok x y) (hok : ∀ s, ok s → ok' s) : Path f ok' x y := by
  induction h with
  | refl => exact .refl
  | step hx _ ih => exact .step (hok _ hx) ih

/-- the way from a state that f passes to a state that it leaves as it is -/
theorem rest {ok' : σ → Prop} (hp : Path f ok x y) (h : Path f ok' x z) (hy : f y = y) : Path f ok z y := by
  induction h with
  | refl => exact hp
  | step _ _ ih =>
    apply ih
    cases hp with
    | refl => rw [hy]; exact .refl
    | step _ t => exact t

/-- **A state that is not ok** is not passed. -/
theorem not_of_bad (hp : Path f ok x y) (h : Path f (fun _ => True) x z) (hz : ¬ ok z) (hy : f y = y) (hne : z ≠ y) :
    False := by
  cases hp.rest h hy with
  | refl => exact hne rfl
  | step hok _ => exact hz hok

/-- **A set of states that f does not leave** has no way out. -/
theorem not_of_trap (Q : σ → Prop) (hp : Path f ok x y) (h : Path f (fun _ => True) x z) (hz : Q z)
    (hQ : ∀ s, Q s → Q (f s)) (hy : f y = y) (hne : ¬ Q y) : False := by
  have hend := hp.rest h hy
  clear hp h
  induction hend with
  | refl => exact hne hz
  | step _ _ ih => exact ih (hQ _ hz) hy hne

/-- **The walk along the list** xs that hangs on p: it ends at the end of the list, if all keys are below k, or at a node
whose key is not. -/
theorem path_walk (next : ℕ → ℕ) (key : ℕ → ℤ) (k : ℤ) (test check : ℕ → ℕ → σ) (move : ℕ → σ)
    (htest : ∀ p c, f (test p c) = if c ≠ 0 ∧ key c < k then move c else check p c)
    (hmove : ∀ c, f (move c) = test c (next c)) (hok : (∀ p c, ok (test p c)) ∧ ∀ c, ok (move c))
    {xs : List ℕ} {p : ℕ} (hchain : (p :: (xs ++ [0])).IsChain fun a b => next a = b) (hne : ∀ a ∈ xs, a ≠ 0) :
    ∃ p' c, Path f ok (test p (next p)) (check p' c) ∧ ((c = 0 ∧ ∀ a ∈ xs, key a < k) ∨ (c ∈ xs ∧ k ≤ key c)) := by
  induction xs generalizing p with
  | nil =>
    obtain ⟨hp, -⟩ := List.isChain_cons_cons.1 hchain
    have hend : f (test p (next p)) = check p 0 := by rw [htest, hp, if_neg (by simp)]
    exact ⟨p, 0, .cons (hok.1 ..) hend .refl, .inl ⟨rfl, by simp⟩⟩
  | cons a xs ih =>
    obtain ⟨hp, hrest⟩ := List.isChain_cons_cons.1 hchain
    have ha : a ≠ 0 := hne a List.mem_cons_self
    rw [hp]
    by_cases hlt : key a < k
    · obtain ⟨p', c, h1, h2⟩ := ih hrest fun b hb => hne b (List.mem_cons_of_mem a hb)
      have hgo : f (test p a) = move a := by rw [htest, if_pos ⟨ha, hlt⟩]
      refine ⟨p', c, .cons (hok.1 ..) hgo (.cons (hok.2 a) (hmove a) h1), ?_⟩
      rcases h2 with ⟨h3, h4⟩ | ⟨h3, h4⟩
      · exact .inl ⟨h3, List.forall_mem_cons.2 ⟨hlt, h4⟩⟩
      · exact .inr ⟨List.mem_cons_of_mem a h3, h4⟩
    · have hstop : f (test p a) = check p a := by rw [htest, if_neg fun h => hlt h.2]
      exact ⟨p, a, .cons (hok.1 ..) hstop .refl, .inr ⟨List.mem_cons_self, not_lt.1 hlt⟩⟩

end Path

/-- **Invariants of a thread that takes all steps**, given what is known of its actions. -/
theorem Sys.run_alone {Sh Loc Act : Type*} (M : Sys Sh Loc Act) (t : ℕ) (I : Sh → Loc → Prop) (h0 : I M.sh M.loc)
    (as : List Act) (hstep : ∀ m l, ∀ a ∈ as, I m l → I (M.step t m l a).1 (M.step t m l a).2) :
    I (M.run (as.map fun a => (t, a))).sh ((M.run (as.map fun a => (t, a))).loc t) := by
  induction as using List.reverseRecOn with
  | nil => exact h0
  | append_singleton as a ih =>
    have hlast : (as ++ [a]).map (fun a => (t, a)) = as.map (fun a => (t, a)) ++ [(t, a)] := by
      rw [List.map_append, List.map_singleton]
    rw [hlast, M.run_snoc, M.next_loc_self, M.next_sh]
    exact hstep _ _ a (by simp) (ih fun m l b hb => hstep m l b (by simp [hb]))

end AlgorithmCollection.Conc
