/-
Sequences of calls on an object that one thread uses, against a specification.

`call s op s' r`: in state s the call op returns r and leaves the state s'. A call that does not return is related to nothing,
so a statement that a call is related to something says that it returns. `Follows call spec ok s M ops`: from s on, every
call of the sequence returns what the specification, started in M, returns, and leaves a state that is ok.

- `follows_of_step`: it is enough that one call keeps a relation between states and specification states.
- `follows_iff`: where the calls that do not follow the specification are known exactly, so are the sequences.
- `runCalls_spec`: the same for calls that are functions and may fail (`runCalls`), with the results of the whole sequence
  (`specRun`). `runCalls_inv`: what every call that returns keeps.
-/
import Mathlib.Tactic

namespace AlgorithmCollection.Conc

variable {σ μ Op Res : Type*} (call : σ → Op → σ → Res → Prop) (spec : μ → Op → μ × Res) (ok : σ → μ → Prop)

/-- every call returns, with the result of the specification, and leaves a state that is ok -/
def Follows : σ → μ → List Op → Prop
  | _, _, [] => True
  | s, M, op :: ops => ∃ s', call s op s' (spec M op).2 ∧ ok s' (spec M op).1 ∧ Follows s' (spec M op).1 ops

/-- C holds of every call in the state of the specification in which it is made -/
def CallsMeet (C : μ → Op → Prop) : μ → List Op → Prop
  | _, [] => True
  | M, op :: ops => C M op ∧ CallsMeet C (spec M op).1 ops

variable {call spec ok} {C : μ → Op → Prop} {R : σ → μ → Prop}

/-- what is asked of the calls themselves can be asked at every one of them -/
theorem CallsMeet.of_forall (C : Op → Prop) {ops : List Op} (h : ∀ op ∈ ops, C op) (M : μ) :
    CallsMeet spec (fun _ => C) M ops := by
  induction ops generalizing M with
  | nil => trivial
  | cons op ops ih => exact ⟨h op List.mem_cons_self, ih (fun o ho => h o (List.mem_cons_of_mem _ ho)) _⟩

/-- **Simulation.** One call under the condition keeps R and has the result of the specification. -/
theorem follows_of_step (hok : ∀ s M, R s M → ok s M)
    (hstep : ∀ s M op, R s M → C M op → ∃ s', call s op s' (spec M op).2 ∧ R s' (spec M op).1)
    {s : σ} {M : μ} {ops : List Op} (h : R s M) (hC : CallsMeet spec C M ops) : Follows call spec ok s M ops := by
  induction ops generalizing s M with
  | nil => trivial
  | cons op ops ih =>
    obtain ⟨s', h1, h2⟩ := hstep s M op h hC.1
    exact ⟨s', h1, hok _ _ h2, ih h2 hC.2⟩

/-- **The sequences that follow the specification**, when a call without the condition never does. -/
theorem follows_iff {K : Op → Prop} (hok : ∀ s M, R s M → ok s M)
    (hstep : ∀ s M op, R s M → K op → C M op → ∃ s', call s op s' (spec M op).2 ∧ R s' (spec M op).1)
    (hdet : ∀ s op s1 r1 s2 r2, call s op s1 r1 → call s op s2 r2 → s1 = s2 ∧ r1 = r2)
    (hbad : ∀ s M op s', R s M → K op → ¬ C M op → call s op s' (spec M op).2 → ¬ ok s' (spec M op).1)
    {s : σ} {M : μ} (ops : List Op) (hK : ∀ op ∈ ops, K op) (h : R s M) :
    Follows call spec ok s M ops ↔ CallsMeet spec C M ops := by
  induction ops generalizing s M with
  | nil => exact Iff.rfl
  | cons op ops ih =>
    have hop := hK op List.mem_cons_self
    have hops : ∀ o ∈ ops, K o := fun o ho => hK o (List.mem_cons_of_mem _ ho)
    constructor
    · rintro ⟨s', h1, h2, h3⟩
      have hC : C M op := by
        by_contra hC
        exact hbad s M op s' h hop hC h1 h2
      obtain ⟨s'', h4, h5⟩ := hstep s M op h hop hC
      obtain ⟨rfl, -⟩ := hdet s op _ _ _ _ h1 h4
      exact ⟨hC, (ih hops h5).1 h3⟩
    · rintro ⟨hC, hrest⟩
      obtain ⟨s', h1, h2⟩ := hstep s M op h hop hC
      exact ⟨s', h1, hok _ _ h2, (ih hops h2).2 hrest⟩

/-! ## A map as a specification -/

/-- the map after `add`, and its result -/
def mapAdd {K V : Type*} [DecidableEq K] (ret : Bool → Res) (M : K → Option V) (k : K) (v : V) : (K → Option V) × Res :=
  (if (M k).isSome then M else Function.update M k (some v), ret !(M k).isSome)

/-- the map after `delete`, and its result -/
def mapDelete {K V : Type*} [DecidableEq K] (ret : Option V → Res) (M : K → Option V) (k : K) : (K → Option V) × Res :=
  (Function.update M k none, ret (M k))

/-! ## Calls that are functions -/

/-- the specification and its results after a sequence of calls -/
def specRun (spec : μ → Op → μ × Res) (M : μ) : List Op → μ × List Res
  | [] => (M, [])
  | op :: ops => ((specRun spec (spec M op).1 ops).1, (spec M op).2 :: (specRun spec (spec M op).1 ops).2)

/-- a sequence of calls, with their results -/
def runCalls {ε : Type*} (call : σ → Op → Except ε (σ × Res)) (s : σ) : List Op → Except ε (σ × List Res)
  | [] => .ok (s, [])
  | op :: ops =>
    match call s op with
    | .error e => .error e
    | .ok (s', r) => (runCalls call s' ops).map fun x => (x.1, r :: x.2)

/-- **A whole run** has the results of the specification, if every call keeps R and has its result. -/
theorem runCalls_spec {ε : Type*} {call : σ → Op → Except ε (σ × Res)} {K : Op → Prop}
    (hstep : ∀ s M op, R s M → K op → ∃ s', call s op = .ok (s', (spec M op).2) ∧ R s' (spec M op).1)
    {s : σ} {M : μ} {ops : List Op} (h : R s M) (hK : ∀ op ∈ ops, K op) :
    ∃ s', runCalls call s ops = .ok (s', (specRun spec M ops).2) ∧ R s' (specRun spec M ops).1 := by
  induction ops generalizing s M with
  | nil => exact ⟨s, rfl, h⟩
  | cons op ops ih =>
    obtain ⟨s1, h1, h2⟩ := hstep s M op h (hK op List.mem_cons_self)
    obtain ⟨s2, h3, h4⟩ := ih h2 fun o ho => hK o (List.mem_cons_of_mem _ ho)
    refine ⟨s2, ?_, h4⟩
    unfold runCalls
    rw [h1]
    simp only
    rw [h3]
    rfl

/-- **A whole run that returns** keeps what every call that returns keeps. -/
theorem runCalls_inv {ε : Type*} {call : σ → Op → Except ε (σ × Res)} {I : σ → Prop} {K : Op → Prop}
    (hstep : ∀ s op s' r, I s → K op → call s op = .ok (s', r) → I s') {s s' : σ} {ops : List Op} {rs : List Res} (h : I s)
    (hK : ∀ op ∈ ops, K op) (hr : runCalls call s ops = .ok (s', rs)) : I s' := by
  induction ops generalizing s rs with
  | nil => cases hr; exact h
  | cons op ops ih =>
    unfold runCalls at hr
    cases hc : call s op with
    | error e => rw [hc] at hr; cases hr
    | ok x =>
      simp only [hc] at hr
      cases hrest : runCalls call x.1 ops with
      | error e => rw [hrest] at hr; cases hr
      | ok y =>
        rw [hrest] at hr
        cases hr
        exact ih (hstep s op x.1 x.2 h (hK op List.mem_cons_self) hc) (fun o ho => hK o (List.mem_cons_of_mem _ ho)) hrest

end AlgorithmCollection.Conc
