/-
Systems of threads over a shared memory, their runs, and how properties of all runs are proved.

A system has a shared memory `Sh` and one local state `Loc` per thread (its program counter and its local variables).
Thread ids are natural numbers, so there are as many threads as a run uses. An atomic step of thread t under action a
reads and writes the shared memory and the local state of t only. A run is ANY list of (thread, action) pairs: the
scheduler is unconstrained, and a step that has to wait (a lock that is taken) leaves the state as it is.

- `run_inv`: the thread-modular invariant rule. A shared invariant `I`, a local assertion `A` per thread and a relation
  `D` between the local states of different threads hold in every run if every step keeps them: the stepping thread
  re-establishes its own assertion, and the assertions of the others are stable under its step. The ghost `g` is what
  the invariant talks about and the program does not store.
- `trace`, `traceOf`: the events of a run, or of one thread in it, in the order of the steps that cause them.
- `tally`: the number of steps of a run of a given kind.
- `Total`: the sum over all threads of a quantity read off their local states, and what a step does to it.
- `Meets`, `meets_inv`: runs all of whose steps meet a condition in the state before them, and their invariant rule. The
  conditions used are `Beside K`: the step is allowed beside every other thread, given where that one is. For a concrete
  run `meets_of_check` decides it. `meets_good` is the thread-modular rule for these runs.
- `Since`: a property held at some instant since thread t entered the set `B` of local states it is still in. With
  `B` = "inside a call" this is "at some instant inside the current call".
- `comes_within`: how long a thread may take at most, by a measure that its steps bring down.
-/
import Mathlib.Tactic

namespace AlgorithmCollection.Conc

/-- a shared memory and one local state per thread -/
structure St (Sh Loc : Type*) where
  sh : Sh
  loc : ℕ → Loc

/-- a system of threads: initial memory, initial local state (the same for every thread), atomic step of thread t -/
structure Sys (Sh Loc Act : Type*) where
  sh : Sh
  loc : Loc
  step : ℕ → Sh → Loc → Act → Sh × Loc

/-- what a thread does that calls operations: it invokes one, or takes the next step of it -/
inductive Act (Op : Type*) where
  | invoke (op : Op)
  | step
deriving DecidableEq, Repr

/-- the same for a thread whose pending `calloc` may fail -/
inductive AllocAct (Op : Type*) where
  | invoke (op : Op)
  | step
  | oom
deriving DecidableEq, Repr

/-- thread t invokes an operation and takes n steps -/
def callSteps {Op : Type*} (t : ℕ) (op : Op) (n : ℕ) : List (ℕ × Act Op) := (t, .invoke op) :: List.replicate n (t, .step)

namespace Sys

variable {Sh Loc Act β : Type*} (M : Sys Sh Loc Act) {ls : List (ℕ × Act)} {s : St Sh Loc}

def init : St Sh Loc := ⟨M.sh, fun _ => M.loc⟩

/-- one step of the whole system: thread `x.1` takes its next atomic step under action `x.2` -/
def next (s : St Sh Loc) (x : ℕ × Act) : St Sh Loc :=
  ⟨(M.step x.1 s.sh (s.loc x.1) x.2).1, Function.update s.loc x.1 (M.step x.1 s.sh (s.loc x.1) x.2).2⟩

/-- the state after a run -/
def run (ls : List (ℕ × Act)) : St Sh Loc := ls.foldl M.next M.init

@[simp] theorem run_nil : M.run [] = M.init := rfl

theorem run_snoc (ls : List (ℕ × Act)) (x : ℕ × Act) : M.run (ls ++ [x]) = M.next (M.run ls) x := by
  simp [run, List.foldl_append]

theorem next_sh (s : St Sh Loc) (x : ℕ × Act) : (M.next s x).sh = (M.step x.1 s.sh (s.loc x.1) x.2).1 := rfl

theorem next_loc_self (s : St Sh Loc) (t : ℕ) (a : Act) :
    (M.next s (t, a)).loc t = (M.step t s.sh (s.loc t) a).2 := by
  simp [next]

theorem next_loc_ne (s : St Sh Loc) (x : ℕ × Act) {u : ℕ} (h : u ≠ x.1) : (M.next s x).loc u = s.loc u := by
  simp [next, Function.update_of_ne h]

/-- a step that does nothing -/
theorem next_eq_self {t : ℕ} {a : Act} (h : M.step t s.sh (s.loc t) a = (s.sh, s.loc t)) : M.next s (t, a) = s := by
  unfold next; simp only [h, Function.update_eq_self]

/-- a thread with a property is still there after a step, unless it is the one that takes it -/
theorem exists_next (Q : Loc → Prop) (h : ∃ u, Q (s.loc u)) (x : ℕ × Act) :
    (∃ u, Q ((M.next s x).loc u)) ∨ Q (s.loc x.1) := by
  obtain ⟨u, hu⟩ := h
  by_cases e : u = x.1
  · exact .inr (e ▸ hu)
  · exact .inl ⟨u, by rwa [next_loc_ne M s x e]⟩

/-- a thread that takes no step is where it began -/
theorem run_loc_of_notMem {u : ℕ} (h : ∀ x ∈ ls, u ≠ x.1) : (M.run ls).loc u = M.loc := by
  induction ls using List.reverseRecOn with
  | nil => rfl
  | append_singleton ls x ih =>
    rw [run_snoc, next_loc_ne M _ _ (h x (by simp))]
    exact ih fun y hy => h y (by simp [hy])

/-- what holds of the threads below n, which are all that take steps, holds of all threads -/
theorem run_loc_of_lt {Q : Loc → Prop} {n : ℕ} (hls : ∀ x ∈ ls, x.1 < n) (h0 : Q M.loc)
    (h : ∀ t < n, Q ((M.run ls).loc t)) (t : ℕ) : Q ((M.run ls).loc t) := by
  rcases Nat.lt_or_ge t n with ht | ht
  · exact h t ht
  · rw [run_loc_of_notMem M fun x hx => (by have := hls x hx; omega)]
    exact h0

/-- instants of a longer run: the first ones are those of the shorter run -/
theorem run_take_snoc (ls : List (ℕ × Act)) (x : ℕ × Act) {k : ℕ} (h : k ≤ ls.length) :
    M.run ((ls ++ [x]).take k) = M.run (ls.take k) := by
  rw [List.take_append_of_le_length h]

theorem run_take_length (ls : List (ℕ × Act)) : M.run (ls.take ls.length) = M.run ls := by
  rw [List.take_length]

/-- the events of a run in order, `ev` being the event (if any) of a step from given memory and local state -/
def trace {β : Type*} (ev : Sh → Loc → Act → Option β) (ls : List (ℕ × Act)) : List β :=
  (ls.foldl (fun p x => (M.next p.1 x, p.2 ++ (ev p.1.sh (p.1.loc x.1) x.2).toList)) (M.init, [])).2

theorem trace_state (ev : Sh → Loc → Act → Option β) (ls : List (ℕ × Act)) :
    (ls.foldl (fun p x => (M.next p.1 x, p.2 ++ (ev p.1.sh (p.1.loc x.1) x.2).toList)) (M.init, [])).1 = M.run ls := by
  induction ls using List.reverseRecOn with
  | nil => rfl
  | append_singleton ls x ih => rw [run_snoc, List.foldl_append, ← ih]; rfl

@[simp] theorem trace_nil (ev : Sh → Loc → Act → Option β) : M.trace ev [] = [] := rfl

theorem trace_snoc (ev : Sh → Loc → Act → Option β) (ls : List (ℕ × Act)) (x : ℕ × Act) :
    M.trace ev (ls ++ [x]) = M.trace ev ls ++ (ev (M.run ls).sh ((M.run ls).loc x.1) x.2).toList := by
  rw [trace, List.foldl_append, ← trace_state M ev ls]; rfl

/-- the events of a longer run begin with those of the shorter one -/
theorem trace_prefix (ev : Sh → Loc → Act → Option β) {ls' : List (ℕ × Act)} (h : ls <+: ls') :
    M.trace ev ls <+: M.trace ev ls' := by
  obtain ⟨r, rfl⟩ := h
  induction r using List.reverseRecOn with
  | nil => rw [List.append_nil]
  | append_singleton r x ih =>
    rw [← List.append_assoc, trace_snoc]
    exact ih.trans (List.prefix_append _ _)

/-- the events of the steps of thread t -/
def traceOf {β : Type*} (ev : Sh → Loc → Act → Option β) (t : ℕ) (ls : List (ℕ × Act)) : List β :=
  (List.range ls.length).flatMap fun k => (ls[k]?.bind fun x =>
    if x.1 = t then ev (M.run (ls.take k)).sh ((M.run (ls.take k)).loc t) x.2 else none).toList

theorem traceOf_snoc (ev : Sh → Loc → Act → Option β) (t : ℕ) (ls : List (ℕ × Act)) (x : ℕ × Act) :
    M.traceOf ev t (ls ++ [x]) =
      M.traceOf ev t ls ++ (if x.1 = t then ev (M.run ls).sh ((M.run ls).loc t) x.2 else none).toList := by
  unfold traceOf
  rw [List.length_append, List.length_singleton, List.range_succ, List.flatMap_append, List.flatMap_singleton]
  congr 1
  · refine List.flatMap_congr fun k hk => ?_
    have hlt := List.mem_range.1 hk
    rw [List.getElem?_append_left hlt, List.take_append_of_le_length hlt.le]
  · rw [List.getElem?_append_right le_rfl, Nat.sub_self, List.take_left]
    rfl

/-- the number of steps of a run for which p holds, of the thread, the memory, its local state and the action -/
def tally (p : ℕ → Sh → Loc → Act → Bool) (ls : List (ℕ × Act)) : ℕ :=
  (List.range ls.length).countP fun k => ls[k]?.any fun x =>
    p x.1 (M.run (ls.take k)).sh ((M.run (ls.take k)).loc x.1) x.2

theorem tally_snoc (p : ℕ → Sh → Loc → Act → Bool) (ls : List (ℕ × Act)) (x : ℕ × Act) :
    M.tally p (ls ++ [x]) = M.tally p ls + if p x.1 (M.run ls).sh ((M.run ls).loc x.1) x.2 = true then 1 else 0 := by
  unfold tally
  rw [List.length_append, List.length_singleton, List.range_succ, List.countP_append, List.countP_singleton]
  congr 1
  · refine List.countP_congr fun k hk => ?_
    have hlt := List.mem_range.1 hk
    rw [List.getElem?_append_left hlt, List.take_append_of_le_length hlt.le]
  · rw [List.getElem?_append_right le_rfl, Nat.sub_self, List.take_left]
    rfl

/-! ## What all threads have together -/

section Total

variable {R : Type*} [AddCommGroup R] {f : Loc → R} {s : St Sh Loc} {n : R}

/-- the sum of f over all threads is n; all but finitely many of them have 0 -/
def Total (f : Loc → R) (s : St Sh Loc) (n : R) : Prop :=
  ∃ T : Finset ℕ, (∀ t, t ∉ T → f (s.loc t) = 0) ∧ ∑ t ∈ T, f (s.loc t) = n

theorem Total.init (h : f M.loc = 0) : Total f M.init 0 := ⟨∅, fun _ _ => h, Finset.sum_empty⟩

theorem Total.eq_zero (h : Total f s n) (h0 : ∀ t, f (s.loc t) = 0) : n = 0 := by
  obtain ⟨T, -, rfl⟩ := h
  exact Finset.sum_eq_zero fun t _ => h0 t

/-- a step changes the sum by what it changes in its own thread -/
theorem Total.next (h : Total f s n) (x : ℕ × Act) :
    Total f (M.next s x) (n - f (s.loc x.1) + f ((M.next s x).loc x.1)) := by
  obtain ⟨T, hT, rfl⟩ := h
  refine ⟨insert x.1 T, fun t ht => ?_, ?_⟩
  · rw [Finset.mem_insert, not_or] at ht
    rw [next_loc_ne M s x ht.1]
    exact hT t ht.2
  · have hothers : ∑ t ∈ T.erase x.1, f ((M.next s x).loc t) = ∑ t ∈ T.erase x.1, f (s.loc t) :=
      Finset.sum_congr rfl fun t ht => by rw [next_loc_ne M s x (Finset.ne_of_mem_erase ht)]
    have hself : ∑ t ∈ T.erase x.1, f (s.loc t) = ∑ t ∈ T, f (s.loc t) - f (s.loc x.1) := by
      by_cases hx : x.1 ∈ T
      · rw [Finset.sum_erase_eq_sub hx]
      · rw [Finset.erase_eq_of_notMem hx, hT x.1 hx, sub_zero]
    rw [← Finset.insert_erase (Finset.mem_insert_self x.1 T), Finset.erase_insert_eq_erase,
      Finset.sum_insert (Finset.notMem_erase x.1 T), hothers, hself, add_comm]

end Total

/-! ## The thread-modular invariant rule -/

section Invariant

variable {G : Type*} (I : G → Sh → Prop) (A : G → ℕ → Sh → Loc → Prop) (D : Loc → Loc → Prop)

/-- shared invariant, every thread's assertion, and `D` between any two threads, for some ghost -/
def Good (s : St Sh Loc) : Prop :=
  ∃ g, I g s.sh ∧ (∀ t, A g t s.sh (s.loc t)) ∧ ∀ t u, t ≠ u → D (s.loc t) (s.loc u)

/-- what has to be shown of one step of thread t from local state l: the ghost may change; t's own assertion is
re-established; for every other thread (local state m) the assertion is stable and `D` still holds both ways -/
def StepOk (g : G) (t : ℕ) (sh : Sh) (l : Loc) (a : Act) : Prop :=
  ∃ g', I g' (M.step t sh l a).1 ∧ A g' t (M.step t sh l a).1 (M.step t sh l a).2 ∧
    ∀ u m, u ≠ t → A g u sh m → D l m → D m l →
      A g' u (M.step t sh l a).1 m ∧ D (M.step t sh l a).2 m ∧ D m (M.step t sh l a).2

/-- `StepOk` beside threads at which K allows the step -/
def StepOkBeside (K : Sh → Loc → Act → Loc → Prop) (g : G) (t : ℕ) (sh : Sh) (l : Loc) (a : Act) : Prop :=
  ∃ g', I g' (M.step t sh l a).1 ∧ A g' t (M.step t sh l a).1 (M.step t sh l a).2 ∧
    ∀ u m, u ≠ t → K sh l a m → A g u sh m → D l m → D m l →
      A g' u (M.step t sh l a).1 m ∧ D (M.step t sh l a).2 m ∧ D m (M.step t sh l a).2

/-- the threads after a step of t: t has its new assertion, and the others keep theirs -/
theorem next_parts {g' : G} {t : ℕ} {a : Act} (hD : ∀ u v, u ≠ v → D (s.loc u) (s.loc v))
    (hA : A g' t (M.step t s.sh (s.loc t) a).1 (M.step t s.sh (s.loc t) a).2)
    (hO : ∀ u, u ≠ t → A g' u (M.step t s.sh (s.loc t) a).1 (s.loc u) ∧
      D (M.step t s.sh (s.loc t) a).2 (s.loc u) ∧ D (s.loc u) (M.step t s.sh (s.loc t) a).2) :
    (∀ u, A g' u (M.next s (t, a)).sh ((M.next s (t, a)).loc u)) ∧
      ∀ u v, u ≠ v → D ((M.next s (t, a)).loc u) ((M.next s (t, a)).loc v) := by
  refine ⟨fun u => ?_, fun u v huv => ?_⟩
  · by_cases hu : u = t
    · subst hu; rw [next_loc_self]; exact hA
    · rw [next_loc_ne M s _ hu]
      exact (hO u hu).1
  · by_cases hu : u = t
    · subst hu
      rw [next_loc_self, next_loc_ne M s _ (Ne.symm huv)]
      exact (hO v (Ne.symm huv)).2.1
    · rw [next_loc_ne M s _ hu]
      by_cases hv : v = t
      · subst hv
        rw [next_loc_self]
        exact (hO u hu).2.2
      · rw [next_loc_ne M s _ hv]; exact hD u v huv

theorem next_good_beside (K : Sh → Loc → Act → Loc → Prop) (s : St Sh Loc) (t : ℕ) (a : Act)
    (hstep : ∀ g, I g s.sh → A g t s.sh (s.loc t) → StepOkBeside M I A D K g t s.sh (s.loc t) a)
    (hK : ∀ u, u ≠ t → K s.sh (s.loc t) a (s.loc u)) (h : Good I A D s) : Good I A D (M.next s (t, a)) := by
  obtain ⟨g, hI, hA, hD⟩ := h
  obtain ⟨g', hI', hA', hO⟩ := hstep g hI (hA t)
  exact ⟨g', hI', next_parts M A D hD hA' fun u hu =>
    hO u _ hu (hK u hu) (hA u) (hD t u (Ne.symm hu)) (hD u t hu)⟩

theorem next_good (s : St Sh Loc) (t : ℕ) (a : Act)
    (hstep : ∀ g, I g s.sh → A g t s.sh (s.loc t) → StepOk M I A D g t s.sh (s.loc t) a)
    (h : Good I A D s) : Good I A D (M.next s (t, a)) := by
  refine next_good_beside M I A D (fun _ _ _ _ => True) s t a (fun g hI hA => ?_) (fun _ _ => trivial) h
  obtain ⟨g', hI', hA', hO⟩ := hstep g hI hA
  exact ⟨g', hI', hA', fun u m hu _ => hO u m hu⟩

/-- private nodes of different threads stay different: a step keeps the node it owns, or takes one that is new -/
theorem owned_disj {owns : Loc → Option ℕ} {l l' l2 : Loc} {f : ℕ}
    (ho : ∀ n, owns l' = some n → owns l = some n ∨ n = f) (hd : ∀ n, owns l = some n → owns l2 ≠ some n)
    (h2 : ∀ n, owns l2 = some n → n < f) :
    (∀ n, owns l' = some n → owns l2 ≠ some n) ∧ ∀ n, owns l2 = some n → owns l' ≠ some n := by
  have hnew : ∀ n, owns l' = some n → owns l2 ≠ some n := by
    intro n hn hn2
    rcases ho n hn with h1 | rfl
    · exact hd n h1 hn2
    · exact lt_irrefl _ (h2 n hn2)
  exact ⟨hnew, fun n hn2 hn => hnew n hn hn2⟩

/-- **Thread-modular invariant rule.** -/
theorem run_inv (hinit : ∃ g, I g M.sh ∧ ∀ t, A g t M.sh M.loc) (hD : D M.loc M.loc)
    (hstep : ∀ g t sh l a, I g sh → A g t sh l → StepOk M I A D g t sh l a) (ls : List (ℕ × Act)) :
    Good I A D (M.run ls) := by
  induction ls using List.reverseRecOn with
  | nil =>
    obtain ⟨g, hI, hA⟩ := hinit
    exact ⟨g, hI, hA, fun _ _ _ => hD⟩
  | append_singleton ls x ih =>
    rw [run_snoc]
    exact next_good M I A D _ x.1 x.2 (fun g hI hA => hstep g _ _ _ _ hI hA) ih

end Invariant

/-! ## Runs under a condition -/

section Condition

variable (C : St Sh Loc → ℕ × Act → Prop) (K : Sh → Loc → Act → Loc → Prop)

/-- every step of the run meets C in the state before it -/
def Meets (ls : List (ℕ × Act)) : Prop := ∀ k x, ls[k]? = some x → C (M.run (ls.take k)) x

theorem Meets.nil : M.Meets C [] := fun _ _ h => by simp at h

theorem meets_snoc (ls : List (ℕ × Act)) (x : ℕ × Act) : M.Meets C (ls ++ [x]) ↔ M.Meets C ls ∧ C (M.run ls) x := by
  constructor
  · intro h
    refine ⟨fun k y hy => ?_, ?_⟩
    · obtain ⟨hk, -⟩ := List.getElem?_eq_some_iff.1 hy
      have := h k y (by rwa [List.getElem?_append_left hk])
      rwa [run_take_snoc M ls x hk.le] at this
    · have := h ls.length x (by simp)
      rwa [run_take_snoc M ls x le_rfl, run_take_length] at this
  · rintro ⟨h, hx⟩ k y hy
    rcases Nat.lt_or_ge k ls.length with hk | hk
    · rw [List.getElem?_append_left hk] at hy
      rw [run_take_snoc M ls x hk.le]
      exact h k y hy
    · obtain ⟨hk', -⟩ := List.getElem?_eq_some_iff.1 hy
      obtain rfl : k = ls.length := by simp at hk'; omega
      obtain rfl : x = y := by simpa using hy
      rwa [run_take_snoc M ls x le_rfl, run_take_length]

/-- **Invariants under a condition.** What holds at first and is kept by every step that meets the condition holds after
every run whose steps meet it. -/
theorem meets_inv (Inv : St Sh Loc → Prop) (h0 : Inv M.init) (hstep : ∀ s x, Inv s → C s x → Inv (M.next s x))
    (ls : List (ℕ × Act)) (hls : M.Meets C ls) : Inv (M.run ls) := by
  induction ls using List.reverseRecOn with
  | nil => exact h0
  | append_singleton ls x ih =>
    obtain ⟨h, hx⟩ := (meets_snoc M C ls x).1 hls
    rw [run_snoc]
    exact hstep _ _ (ih h) hx

/-- the step is allowed beside every other thread -/
def Beside (s : St Sh Loc) (x : ℕ × Act) : Prop := ∀ u, u ≠ x.1 → K s.sh (s.loc x.1) x.2 (s.loc u)

/-- **Thread-modular invariant rule under a condition.** -/
theorem meets_good {G : Type*} (I : G → Sh → Prop) (A : G → ℕ → Sh → Loc → Prop) (D : Loc → Loc → Prop)
    (hinit : ∃ g, I g M.sh ∧ ∀ t, A g t M.sh M.loc) (hD : D M.loc M.loc)
    (hstep : ∀ g t sh l a, I g sh → A g t sh l → StepOkBeside M I A D K g t sh l a) (ls : List (ℕ × Act))
    (hls : M.Meets (Beside K) ls) : Good I A D (M.run ls) := by
  refine M.meets_inv _ (Good I A D) ?_ (fun s x h hx => ?_) ls hls
  · obtain ⟨g, hI, hA⟩ := hinit
    exact ⟨g, hI, hA, fun _ _ _ => hD⟩
  · exact next_good_beside M I A D K s x.1 x.2 (fun g hI hA => hstep g _ _ _ _ hI hA) hx h

/-- a thread that runs alone -/
theorem meets_alone (hK : ∀ sh l a, K sh l a M.loc) (t : ℕ) (as : List Act) : M.Meets (Beside K) (as.map fun a => (t, a)) := by
  intro k x hx u hu
  obtain ⟨a, -, rfl⟩ := List.mem_map.1 (List.mem_of_getElem? hx)
  have hloc : (M.run ((as.map fun a => (t, a)).take k)).loc u = M.loc := by
    refine run_loc_of_notMem M fun y hy => ?_
    obtain ⟨b, -, rfl⟩ := List.mem_map.1 (List.mem_of_mem_take hy)
    exact hu
  rw [hloc]
  exact hK ..

/-- `Beside` for a run of threads below n from s, where the threads from n on are where they began -/
def Check (n : ℕ) (s : St Sh Loc) : List (ℕ × Act) → Prop
  | [] => True
  | x :: ls => x.1 < n ∧ (∀ u < n, u ≠ x.1 → K s.sh (s.loc x.1) x.2 (s.loc u)) ∧ K s.sh (s.loc x.1) x.2 M.loc ∧
      Check n (M.next s x) ls

instance Check.decidable [∀ sh l a m, Decidable (K sh l a m)] (n : ℕ) :
    ∀ (s : St Sh Loc) (ls : List (ℕ × Act)), Decidable (M.Check K n s ls)
  | _, [] => isTrue trivial
  | s, x :: ls =>
    have := Check.decidable n (M.next s x) ls
    inferInstanceAs (Decidable (_ ∧ _ ∧ _ ∧ _))

theorem meets_of_check {n : ℕ} (h : M.Check K n M.init ls) : M.Meets (Beside K) ls := by
  suffices H : ∀ ls ks : List (ℕ × Act), M.Meets (Beside K) ks → (∀ u, n ≤ u → (M.run ks).loc u = M.loc) →
      M.Check K n (M.run ks) ls → M.Meets (Beside K) (ks ++ ls) from
    H ls [] (Meets.nil M _) (fun _ _ => rfl) h
  intro ls
  induction ls with
  | nil => intro ks hks _ _; rwa [List.append_nil]
  | cons x ls ih =>
    rintro ks hks hloc ⟨hx, hlow, hrest, hls⟩
    have hC : Beside K (M.run ks) x := by
      intro u hu
      rcases Nat.lt_or_ge u n with hun | hun
      · exact hlow u hun hu
      · rw [hloc u hun]; exact hrest
    have := ih (ks ++ [x]) ((meets_snoc M _ ks x).2 ⟨hks, hC⟩) (fun u hu => ?_) (by rwa [run_snoc])
    · rwa [List.append_assoc] at this
    · rw [run_snoc, next_loc_ne M _ _ (by omega)]; exact hloc u hu

end Condition

/-! ## Instants since a thread entered its current activity -/

/-- `P` held at some instant from which thread t has stayed in `B` until now -/
def Since (B : Loc → Prop) (t : ℕ) (P : St Sh Loc → Prop) (ls : List (ℕ × Act)) : Prop :=
  ∃ k ≤ ls.length, P (M.run (ls.take k)) ∧ ∀ m, k ≤ m → m ≤ ls.length → B ((M.run (ls.take m)).loc t)

variable {M} {B : Loc → Prop} {t : ℕ} {P Q : St Sh Loc → Prop} {ls : List (ℕ × Act)}

theorem Since.now (hB : B ((M.run ls).loc t)) (hP : P (M.run ls)) : M.Since B t P ls := by
  refine ⟨ls.length, le_rfl, by rwa [run_take_length], fun m h1 h2 => ?_⟩
  obtain rfl : m = ls.length := le_antisymm h2 h1
  rwa [run_take_length]

theorem Since.snoc (h : M.Since B t P ls) {x : ℕ × Act} (hB : B ((M.run (ls ++ [x])).loc t)) :
    M.Since B t P (ls ++ [x]) := by
  obtain ⟨k, hk, hP, hin⟩ := h
  refine ⟨k, by simp; omega, by rwa [run_take_snoc M ls x hk], fun m h1 h2 => ?_⟩
  rcases Nat.lt_or_ge ls.length m with hm | hm
  · obtain rfl : m = (ls ++ [x]).length := by simp at h2 ⊢; omega
    rwa [run_take_length]
  · rw [run_take_snoc M ls x hm]; exact hin m h1 hm

theorem Since.here (h : M.Since B t P ls) : B ((M.run ls).loc t) := by
  obtain ⟨k, hk, -, hin⟩ := h
  have := hin ls.length hk le_rfl
  rwa [run_take_length] at this

/-- the instant is the last one or an earlier one -/
theorem Since.of_snoc {x : ℕ × Act} (h : M.Since B t P (ls ++ [x])) : P (M.run (ls ++ [x])) ∨ M.Since B t P ls := by
  obtain ⟨k, hk, hP, hin⟩ := h
  rcases Nat.lt_or_ge ls.length k with hlt | hge
  · obtain rfl : k = (ls ++ [x]).length := by simp at hk ⊢; omega
    rw [run_take_length] at hP
    exact .inl hP
  · refine .inr ⟨k, hge, by rwa [run_take_snoc M ls x hge] at hP, fun j hj hj' => ?_⟩
    have := hin j hj (by simp; omega)
    rwa [run_take_snoc M ls x hj'] at this

theorem Since.imp (h : M.Since B t P ls) (hPQ : ∀ k ≤ ls.length, P (M.run (ls.take k)) → Q (M.run (ls.take k))) :
    M.Since B t Q ls := by
  obtain ⟨k, hk, hP, hin⟩ := h
  exact ⟨k, hk, hPQ k hk hP, hin⟩

theorem Since.weaken {B' : Loc → Prop} (h : M.Since B t P ls) (hB : ∀ l, B l → B' l) : M.Since B' t P ls := by
  obtain ⟨k, hk, hP, hin⟩ := h
  exact ⟨k, hk, hP, fun m h1 h2 => hB _ (hin m h1 h2)⟩

variable (M)

/-- **Hindsight.** If what f reads does not change any more once P is over, then at some instant of the activity P held
and f read what it reads now. `F` is what is known of the runs considered. -/
theorem Since.settled (F : List (ℕ × Act) → Prop) (hF : ∀ ls x, F (ls ++ [x]) → F ls) (f : St Sh Loc → β)
    (hf : ∀ ls x, F (ls ++ [x]) → M.Since B t P ls → ¬ P (M.run (ls ++ [x])) → f (M.run (ls ++ [x])) = f (M.run ls))
    (ls : List (ℕ × Act)) (hls : F ls) (h : M.Since B t P ls) : M.Since B t (fun s => P s ∧ f s = f (M.run ls)) ls := by
  induction ls using List.reverseRecOn with
  | nil =>
    obtain ⟨k, hk, hP, -⟩ := id h
    obtain rfl : k = 0 := by simpa using hk
    exact Since.now h.here ⟨hP, rfl⟩
  | append_singleton ls x ih =>
    by_cases hP : P (M.run (ls ++ [x]))
    · exact Since.now h.here ⟨hP, rfl⟩
    · have h' : M.Since B t P ls := h.of_snoc.resolve_left hP
      rw [hf ls x hls h' hP]
      exact (ih (hF ls x hls) h').snoc h.here

/-- **What a local state remembers.** If a thread can only come to remember b (`D l b`) at a step at which `P b` holds,
just before or just after it, then while it remembers b, `P b` held at some instant since it entered `B`. `F` is what is
known of the runs considered. -/
theorem Since.remember_while (F : List (ℕ × Act) → Prop) (hF : ∀ ls x, F (ls ++ [x]) → F ls)
    (D : Loc → β → Prop) (P : β → St Sh Loc → Prop) (h0 : ∀ b, ¬ D M.loc b) (hB : ∀ l b, D l b → B l)
    (h : ∀ ls t a b, F (ls ++ [(t, a)]) → D (M.step t (M.run ls).sh ((M.run ls).loc t) a).2 b →
      D ((M.run ls).loc t) b ∨ (B ((M.run ls).loc t) ∧ P b (M.run ls)) ∨ P b (M.run (ls ++ [(t, a)])))
    (ls : List (ℕ × Act)) (hls : F ls) (t : ℕ) (b : β) (hd : D ((M.run ls).loc t) b) : M.Since B t (P b) ls := by
  induction ls using List.reverseRecOn with
  | nil => exact absurd hd (h0 b)
  | append_singleton ls x ih =>
    obtain ⟨u, a⟩ := x
    have hb := hB _ _ hd
    by_cases hu : t = u
    · subst hu
      have hd' := hd
      rw [run_snoc, next_loc_self] at hd'
      rcases h ls t a b hls hd' with h1 | ⟨h1, h2⟩ | h1
      · exact (ih (hF _ _ hls) h1).snoc hb
      · exact (Since.now h1 h2).snoc hb
      · exact Since.now hb h1
    · rw [run_snoc, next_loc_ne M _ _ hu] at hd
      exact (ih (hF _ _ hls) hd).snoc hb

/-- the same for all runs -/
theorem Since.remember (D : Loc → β → Prop) (P : β → St Sh Loc → Prop) (h0 : ∀ b, ¬ D M.loc b) (hB : ∀ l b, D l b → B l)
    (h : ∀ ls t a b, D (M.step t (M.run ls).sh ((M.run ls).loc t) a).2 b →
      D ((M.run ls).loc t) b ∨ (B ((M.run ls).loc t) ∧ P b (M.run ls)) ∨ P b (M.run (ls ++ [(t, a)])))
    (ls : List (ℕ × Act)) (t : ℕ) (b : β) (hd : D ((M.run ls).loc t) b) : M.Since B t (P b) ls :=
  Since.remember_while M (fun _ => True) (fun _ _ => id) D P h0 hB (fun ls t a b _ => h ls t a b) ls trivial t b hd

end Sys

/-- **A bound on steps.** As long as a run has not come to `D`, the steps in `own` bring μ down and no other step brings it up:
after more than μ of them it has. -/
theorem comes_within {σ : Type*} (own : σ → Bool) (D : List σ → Prop) (μ : List σ → ℕ)
    (h : ∀ ls x, ¬ D ls → ¬ D (ls ++ [x]) → μ (ls ++ [x]) + (own x).toNat ≤ μ ls) (ls ls' : List σ)
    (hn : μ ls < ls'.countP own) : ∃ k ≤ ls'.length, D (ls ++ ls'.take k) := by
  induction ls' generalizing ls with
  | nil => exact absurd hn (Nat.not_lt_zero _)
  | cons x ls' ih =>
    by_cases hD : D ls
    · exact ⟨0, Nat.zero_le _, by simpa using hD⟩
    by_cases hD' : D (ls ++ [x])
    · exact ⟨1, by simp, by simpa using hD'⟩
    have hμ := h ls x hD hD'
    rw [List.countP_cons] at hn
    obtain ⟨k, hk, hk'⟩ := ih (ls ++ [x]) (by cases e : own x <;> simp_all <;> omega)
    exact ⟨k + 1, by simpa using hk, by simpa using hk'⟩

end AlgorithmCollection.Conc
