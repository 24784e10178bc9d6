/-
Linearizability of a concurrent object, in terms of instants of its runs, and the rule it is proved by.

The object has an abstract value, read off the shared memory by `view`, and a sequential specification
`spec op r v v'`: operation op may return r and take the value from v to v'. `Linearizable` says of every run:
- a step changes the abstract value only inside a call, as that call's operation allows, and only if the call has not
  changed it before (`change`);
- a call that returns r either changed the value exactly once, at a step of its own, and that change is op returning r;
  or it never changed the value, and op returning r without effect is right for the value at some instant inside the
  call (`ret`).
So every call takes effect at one instant between its invocation and its return, and ordering the calls by these
instants gives a legal sequential history that respects real time.

`linearizable_of_lpStep`: it is enough to give, for every local state inside a call, the result the call is already
committed to (`effect`, none before the effect), and to classify every step as one of the kinds of `StepKind`.
`linearizable_of_since` and `linearizable_of_steps` are the same rule with results decided without effect.
-/
import AlgorithmCollection.Conc.Threads

namespace AlgorithmCollection.Conc

/-- where a thread is with its calls: not inside one, inside a call of op, or op has just returned r -/
inductive Status (Op Res : Type*) where
  | idle
  | busy (op : Op)
  | done (op : Op) (r : Res)
deriving DecidableEq

/-- how calls and the abstract value are read off the states of a system, and the sequential specification -/
structure Object (Sh Loc Op Res V : Type*) where
  status : Loc → Status Op Res
  view : Sh → V
  spec : Op → Res → V → V → Prop

namespace Object

variable {Sh Loc Act Op Res V : Type*} (O : Object Sh Loc Op Res V)

/-- inside a call -/
def Busy (l : Loc) : Prop := ∃ op, O.status l = .busy op

variable (M : Sys Sh Loc Act)

/-- the steps at which thread t changed the abstract value inside its current call (or the call it just returned
from): t takes the step from instant k to k + 1 and has been inside the call since k -/
def Changes (ls : List (ℕ × Act)) (t : ℕ) : Set ℕ :=
  {k | k < ls.length ∧ (ls[k]?).map Prod.fst = some t ∧
    O.view (M.run (ls.take (k + 1))).sh ≠ O.view (M.run (ls.take k)).sh ∧
    ∀ m, k ≤ m → m < ls.length → O.Busy ((M.run (ls.take m)).loc t)}

/-- every call takes effect at one instant between its invocation and its return -/
structure Linearizable : Prop where
  change : ∀ ls t a, O.view (M.run (ls ++ [(t, a)])).sh ≠ O.view (M.run ls).sh →
    ∃ op r, O.status ((M.run ls).loc t) = .busy op ∧ O.Changes M ls t = ∅ ∧
      O.spec op r (O.view (M.run ls).sh) (O.view (M.run (ls ++ [(t, a)])).sh)
  ret : ∀ ls t a op r, O.status ((M.run ls).loc t) = .busy op →
    O.status ((M.run (ls ++ [(t, a)])).loc t) = .done op r →
    (∃ k, O.Changes M (ls ++ [(t, a)]) t = {k} ∧
      O.spec op r (O.view (M.run ((ls ++ [(t, a)]).take k)).sh) (O.view (M.run ((ls ++ [(t, a)]).take (k + 1))).sh)) ∨
    (O.Changes M (ls ++ [(t, a)]) t = ∅ ∧
      M.Since O.Busy t (fun s => O.spec op r (O.view s.sh) (O.view s.sh)) ls)

/-! ## How `Changes` evolves along a run -/

variable {O M}

variable {a : Act} {ls : List (ℕ × Act)} {l : Loc} {was : Op → Res → Prop} {effect : Sh → Loc → Option Res} {t : ℕ}

theorem changes_snoc_idle (x : ℕ × Act) (h : ¬ O.Busy ((M.run ls).loc t)) :
    O.Changes M (ls ++ [x]) t = ∅ := by
  ext k
  simp only [Changes, Set.mem_ofPred_eq, Set.mem_empty_iff_false, iff_false]
  rintro ⟨hk, -, -, hb⟩
  apply h
  have := hb ls.length (by simp at hk; omega) (by simp)
  rwa [Sys.run_take_snoc M ls x le_rfl, Sys.run_take_length] at this

theorem mem_changes_snoc (x : ℕ × Act) (h : O.Busy ((M.run ls).loc t)) (k : ℕ) :
    k ∈ O.Changes M (ls ++ [x]) t ↔ k ∈ O.Changes M ls t ∨
      (k = ls.length ∧ x.1 = t ∧ O.view (M.run (ls ++ [x])).sh ≠ O.view (M.run ls).sh) := by
  simp only [Changes, Set.mem_ofPred_eq]
  rcases Nat.lt_trichotomy k ls.length with hk | hk | hk
  · rw [Sys.run_take_snoc M ls x hk, Sys.run_take_snoc M ls x hk.le, List.getElem?_append_left hk]
    constructor
    · rintro ⟨-, h2, h3, h4⟩
      refine .inl ⟨hk, h2, h3, fun m h5 h6 => ?_⟩
      rw [← Sys.run_take_snoc M ls x h6.le]
      exact h4 m h5 (by simp; omega)
    · rintro (⟨-, h2, h3, h4⟩ | ⟨h1, -⟩)
      · refine ⟨by simp; omega, h2, h3, fun m h5 h6 => ?_⟩
        rcases Nat.lt_or_ge m ls.length with hm | hm
        · rw [Sys.run_take_snoc M ls x hm.le]; exact h4 m h5 hm
        · obtain rfl : m = ls.length := by simp at h6; omega
          rwa [Sys.run_take_snoc M ls x le_rfl, Sys.run_take_length]
      · omega
  · subst hk
    have e1 : (ls ++ [x]).take (ls.length + 1) = ls ++ [x] := by simp
    rw [e1, Sys.run_take_snoc M ls x le_rfl, Sys.run_take_length]
    simp only [List.length_append, List.length_singleton, Nat.lt_add_one, true_and, lt_irrefl, false_and, false_or,
      List.getElem?_append_right le_rfl, Nat.sub_self, List.getElem?_cons_zero, Option.map_some, Option.some.injEq]
    refine and_congr_right fun _ => and_iff_left fun m h5 h6 => ?_
    obtain rfl : m = ls.length := by omega
    rwa [Sys.run_take_snoc M ls x le_rfl, Sys.run_take_length]
  · simp only [List.length_append, List.length_singleton]
    constructor
    · rintro ⟨h1, -⟩; omega
    · rintro (⟨h1, -⟩ | ⟨h1, -⟩) <;> omega

theorem changes_snoc_same (x : ℕ × Act) (h : O.Busy ((M.run ls).loc t))
    (hx : x.1 = t → O.view (M.run (ls ++ [x])).sh = O.view (M.run ls).sh) :
    O.Changes M (ls ++ [x]) t = O.Changes M ls t := by
  ext k
  rw [mem_changes_snoc x h]
  exact or_iff_left fun ⟨_, h2, h3⟩ => h3 (hx h2)

theorem changes_snoc_new (h : O.Busy ((M.run ls).loc t))
    (hc : O.Changes M ls t = ∅) (hv : O.view (M.run (ls ++ [(t, a)])).sh ≠ O.view (M.run ls).sh) :
    O.Changes M (ls ++ [(t, a)]) t = {ls.length} := by
  ext k
  rw [mem_changes_snoc (t, a) h, hc]
  simp [hv]

/-! ## The rule -/

/-- the kinds of steps of a thread, given the result each local state is committed to (`effect` may look it up in the
shared memory), by the states before and after: outside a call; inside a call without touching the value; the effect, with
or without the return; and the return without touching the value, of a call that is committed to its result or has a
justification `was` for it -/
inductive StepKind (O : Object Sh Loc Op Res V) (effect : Sh → Loc → Option Res) (was : Op → Res → Prop) (sh : Sh)
    (l : Loc) (sh' : Sh) (l' : Loc) : Prop where
  | outside : ¬ O.Busy l → O.view sh' = O.view sh → (O.Busy l' → effect sh' l' = none) →
      StepKind O effect was sh l sh' l'
  | inside (op : Op) : O.status l = .busy op → O.view sh' = O.view sh → O.status l' = .busy op →
      effect sh' l' = effect sh l → StepKind O effect was sh l sh' l'
  | commit (op : Op) (r : Res) : O.status l = .busy op → effect sh l = none → O.view sh' ≠ O.view sh →
      O.spec op r (O.view sh) (O.view sh') → O.status l' = .busy op → effect sh' l' = some r →
      StepKind O effect was sh l sh' l'
  | commitRet (op : Op) (r : Res) : O.status l = .busy op → effect sh l = none → O.view sh' ≠ O.view sh →
      O.spec op r (O.view sh) (O.view sh') → O.status l' = .done op r → StepKind O effect was sh l sh' l'
  | ret (op : Op) (r : Res) : O.status l = .busy op → O.view sh' = O.view sh → O.status l' = .done op r →
      (effect sh l = some r ∨ (effect sh l = none ∧ was op r)) → StepKind O effect was sh l sh' l'

variable (O M)

/-- the step of thread t after the run is of one of the kinds; what justifies the result of a call that never changed the
value is an instant inside the call -/
def LPStep (effect : Sh → Loc → Option Res) (ls : List (ℕ × Act)) (t : ℕ) (a : Act) : Prop :=
  O.StepKind effect (fun op r => M.Since O.Busy t (fun s => O.spec op r (O.view s.sh) (O.view s.sh)) ls) (M.run ls).sh
    ((M.run ls).loc t) (M.run (ls ++ [(t, a)])).sh ((M.run (ls ++ [(t, a)])).loc t)

/-- what a thread inside a call has done to the abstract value so far, by the result it is committed to -/
def Phase (effect : Sh → Loc → Option Res) (ls : List (ℕ × Act)) (t : ℕ) : Prop :=
  ∀ op, O.status ((M.run ls).loc t) = .busy op →
    (effect (M.run ls).sh ((M.run ls).loc t) = none → O.Changes M ls t = ∅) ∧
    ∀ r, effect (M.run ls).sh ((M.run ls).loc t) = some r → ∃ k < ls.length, O.Changes M ls t = {k} ∧
      O.spec op r (O.view (M.run (ls.take k)).sh) (O.view (M.run (ls.take (k + 1))).sh)

/-- the steps of other threads do not change what a thread inside a call is committed to -/
def EffectStable (effect : Sh → Loc → Option Res) : Prop :=
  ∀ ls u a t, t ≠ u → O.Busy ((M.run ls).loc t) →
    effect (M.run (ls ++ [(u, a)])).sh ((M.run ls).loc t) = effect (M.run ls).sh ((M.run ls).loc t)

variable {O M}

theorem busy_of {op : Op} (h : O.status l = .busy op) : O.Busy l := ⟨op, h⟩

/-- steps of other threads, and own steps that do not touch the value, keep `Changes` and the recorded change -/
theorem phase_keep (x : ℕ × Act) {op : Op} (hb : O.status ((M.run ls).loc t) = .busy op) (hp : O.Phase M effect ls t)
    (hx : x.1 = t → O.view (M.run (ls ++ [x])).sh = O.view (M.run ls).sh)
    (hs : O.status ((M.run (ls ++ [x])).loc t) = .busy op)
    (he : effect (M.run (ls ++ [x])).sh ((M.run (ls ++ [x])).loc t) = effect (M.run ls).sh ((M.run ls).loc t)) :
    O.Phase M effect (ls ++ [x]) t := by
  intro op' hop'
  obtain rfl : op = op' := by rw [hs] at hop'; cases hop'; rfl
  have hc := changes_snoc_same x (busy_of hb) hx
  obtain ⟨h1, h2⟩ := hp op hb
  rw [he, hc]
  refine ⟨h1, fun r hr => ?_⟩
  obtain ⟨k, hk, hk1, hk2⟩ := h2 r hr
  refine ⟨k, by simp; omega, hk1, ?_⟩
  rwa [Sys.run_take_snoc M ls x hk.le, Sys.run_take_snoc M ls x hk]

theorem phase_run (h0 : ¬ O.Busy M.loc) (hst : O.EffectStable M effect) (h : ∀ ls t a, O.LPStep M effect ls t a)
    (ls : List (ℕ × Act)) : ∀ t, O.Phase M effect ls t := by
  induction ls using List.reverseRecOn with
  | nil => intro t op hop; exact absurd ⟨op, hop⟩ h0
  | append_singleton ls x ih =>
    intro t
    by_cases hx : x.1 = t
    · obtain ⟨u, a⟩ := x
      subst hx
      cases h ls u a with
      | outside h1 h2 h3 =>
        intro op hop
        refine ⟨fun _ => changes_snoc_idle _ h1, fun r hr => ?_⟩
        rw [h3 ⟨op, hop⟩] at hr; cases hr
      | inside op h1 h2 h3 h4 => exact phase_keep _ h1 (ih u) (fun _ => h2) h3 h4
      | commit op r h1 h2 h3 h4 h5 h6 =>
        intro op' hop'
        obtain rfl : op = op' := by rw [h5] at hop'; cases hop'; rfl
        refine ⟨fun hn => (by rw [h6] at hn; cases hn), fun r' hr' => ?_⟩
        obtain rfl : r = r' := by rw [h6] at hr'; cases hr'; rfl
        refine ⟨ls.length, by simp, changes_snoc_new (busy_of h1) ((ih u op h1).1 h2) h3, ?_⟩
        have e1 : (ls ++ [(u, a)]).take (ls.length + 1) = ls ++ [(u, a)] := by simp
        rwa [e1, Sys.run_take_snoc M ls _ le_rfl, Sys.run_take_length]
      | commitRet op r _ _ _ _ h5 => intro op' hop'; rw [h5] at hop'; cases hop'
      | ret op r _ _ h3 _ => intro op' hop'; rw [h3] at hop'; cases hop'
    · -- another thread steps: the local state of t is the same before and after
      have hl : (M.run (ls ++ [x])).loc t = (M.run ls).loc t := by
        rw [Sys.run_snoc, Sys.next_loc_ne M _ _ (Ne.symm hx)]
      intro op hop
      have hb : O.status ((M.run ls).loc t) = .busy op := hl ▸ hop
      refine phase_keep x hb (ih t) (fun e => absurd e hx) hop ?_ op hop
      rw [hl]; exact hst ls x.1 x.2 t (Ne.symm hx) ⟨op, hb⟩

/-- a step that touches neither the value nor where the thread is with its calls -/
theorem StepKind.same {sh sh' : Sh} {l' : Loc} (hs : O.status l' = O.status l) (hv : O.view sh' = O.view sh)
    (he : effect sh' l' = effect sh l) : O.StepKind effect was sh l sh' l' := by
  by_cases hb : O.Busy l
  · obtain ⟨op, hop⟩ := hb
    exact .inside op hop hv (hs.trans hop) he
  · refine .outside hb hv fun ⟨op, hop⟩ => absurd ⟨op, hs.symm.trans hop⟩ hb

theorem StepKind.stutter {sh : Sh} : O.StepKind effect was sh l sh l := .same rfl rfl rfl

/-- a step that changes nothing -/
theorem lpStep_stutter (hl : (M.run (ls ++ [(t, a)])).loc t = (M.run ls).loc t)
    (hsh : (M.run (ls ++ [(t, a)])).sh = (M.run ls).sh) : O.LPStep M effect ls t a := by
  unfold LPStep
  rw [hl, hsh]
  exact .stutter

theorem StepKind.imp {was' : Op → Res → Prop} {sh sh' : Sh} {l' : Loc} (h : O.StepKind effect was sh l sh' l')
    (hw : O.Busy l → ∀ op r, was op r → was' op r) : O.StepKind effect was' sh l sh' l' := by
  cases h with
  | outside h1 h2 h3 => exact .outside h1 h2 h3
  | inside op h1 h2 h3 h4 => exact .inside op h1 h2 h3 h4
  | commit op r h1 h2 h3 h4 h5 h6 => exact .commit op r h1 h2 h3 h4 h5 h6
  | commitRet op r h1 h2 h3 h4 h5 => exact .commitRet op r h1 h2 h3 h4 h5
  | ret op r h1 h2 h3 h4 => exact .ret op r h1 h2 h3 (h4.imp id (And.imp_right (hw ⟨op, h1⟩ op r)))

/-- a step of a run is classified by the states before and after it -/
theorem StepKind.lpStep
    (h : O.StepKind effect
      (fun op r => M.Since O.Busy t (fun s => O.spec op r (O.view s.sh) (O.view s.sh)) ls) (M.run ls).sh
      ((M.run ls).loc t) (M.step t (M.run ls).sh ((M.run ls).loc t) a).1
      (M.step t (M.run ls).sh ((M.run ls).loc t) a).2) : O.LPStep M effect ls t a := by
  unfold LPStep
  rw [Sys.run_snoc, Sys.next_sh, Sys.next_loc_self]
  exact h

/-- **Linearization points.** If every step of every run is of one of the kinds, the object is linearizable. -/
theorem linearizable_of_lpStep (h0 : ¬ O.Busy M.loc) (hst : O.EffectStable M effect)
    (h : ∀ ls t a, O.LPStep M effect ls t a) : O.Linearizable M := by
  refine ⟨fun ls t a hv => ?_, fun ls t a op r hb hd => ?_⟩
  · cases h ls t a with
    | commit op r h1 h2 _ h4 _ _
    | commitRet op r h1 h2 _ h4 _ => exact ⟨op, r, h1, (phase_run h0 hst h ls t op h1).1 h2, h4⟩
    | outside _ h2 _ | inside _ _ h2 _ _ | ret _ _ _ h2 _ _ => exact absurd h2 hv
  · have hp := phase_run h0 hst h ls t op hb
    cases h ls t a with
    | outside h1 _ _ => exact absurd ⟨op, hb⟩ h1
    | inside op' _ _ h3 _ => rw [h3] at hd; cases hd
    | commit op' r' _ _ _ _ h5 _ => rw [h5] at hd; cases hd
    | commitRet op' r' h1 h2 h3 h4 h5 =>
      rw [hb] at h1; cases h1
      rw [h5] at hd; cases hd
      refine .inl ⟨ls.length, changes_snoc_new (busy_of hb) (hp.1 h2) h3, ?_⟩
      have e1 : (ls ++ [(t, a)]).take (ls.length + 1) = ls ++ [(t, a)] := by simp
      rwa [e1, Sys.run_take_snoc M ls _ le_rfl, Sys.run_take_length]
    | ret op' r' h1 h2 h3 h4 =>
      rw [hb] at h1; cases h1
      rw [h3] at hd; cases hd
      have hsame := changes_snoc_same (t, a) (busy_of hb) fun _ => h2
      rcases h4 with h4 | ⟨h4, h5⟩
      · obtain ⟨k, hk, hk1, hk2⟩ := hp.2 r h4
        refine .inl ⟨k, hsame.trans hk1, ?_⟩
        rwa [Sys.run_take_snoc M ls _ hk.le, Sys.run_take_snoc M ls _ hk]
      · exact .inr ⟨hsame.trans (hp.1 h4), h5⟩

section Decided

variable (effect) (decided : Loc → Op → Res → Prop) (h0 : ¬ O.Busy M.loc) (hst : O.EffectStable M effect)
  (hB : ∀ l op r, decided l op r → O.Busy l)
  (hd : ∀ ls t a op r, decided (M.step t (M.run ls).sh ((M.run ls).loc t) a).2 op r →
    decided ((M.run ls).loc t) op r ∨
    (O.Busy ((M.run ls).loc t) ∧ O.spec op r (O.view (M.run ls).sh) (O.view (M.run ls).sh)) ∨
    O.spec op r (O.view (M.run (ls ++ [(t, a)])).sh) (O.view (M.run (ls ++ [(t, a)])).sh))

include h0 hst hB hd

/-- **The rule in terms of single steps.** Besides the result a call is committed to by its own effect, a local state may
have decided on a result without effect (`decided`): when it does, that result is right for the value at that moment.
A call without effect returns what it has decided on, or what is right for the value at some instant of the call. -/
theorem linearizable_of_since
    (h : ∀ ls t a, O.StepKind effect
      (fun op r => decided ((M.run ls).loc t) op r ∨
        M.Since O.Busy t (fun s => O.spec op r (O.view s.sh) (O.view s.sh)) ls)
      (M.run ls).sh ((M.run ls).loc t) (M.step t (M.run ls).sh ((M.run ls).loc t) a).1
      (M.step t (M.run ls).sh ((M.run ls).loc t) a).2) : O.Linearizable M := by
  have hs : ∀ ls t op r, decided ((M.run ls).loc t) op r →
      M.Since O.Busy t (fun s => O.spec op r (O.view s.sh) (O.view s.sh)) ls := by
    intro ls t op r
    refine Sys.Since.remember M (fun l (b : Op × Res) => decided l b.1 b.2)
      (fun b s => O.spec b.1 b.2 (O.view s.sh) (O.view s.sh)) (fun b hb => h0 (hB _ _ _ hb)) (fun l b => hB l b.1 b.2)
      (fun ls t a b => hd ls t a b.1 b.2) ls t (op, r)
  refine linearizable_of_lpStep h0 hst fun ls t a => StepKind.lpStep ((h ls t a).imp fun _ op r h => ?_)
  rcases h with h | h
  · exact hs ls t op r h
  · exact h

/-- the rule for calls that return what they have decided on or what is right at the return -/
theorem linearizable_of_steps
    (h : ∀ ls t a, O.StepKind effect
      (fun op r => decided ((M.run ls).loc t) op r ∨ O.spec op r (O.view (M.run ls).sh) (O.view (M.run ls).sh))
      (M.run ls).sh ((M.run ls).loc t) (M.step t (M.run ls).sh ((M.run ls).loc t) a).1
      (M.step t (M.run ls).sh ((M.run ls).loc t) a).2) : O.Linearizable M := by
  refine linearizable_of_since effect decided h0 hst hB hd fun ls t a => (h ls t a).imp fun hb op r => ?_
  -- a result that is right at the return itself is right at an instant inside the call
  exact Or.imp_right fun hr => Sys.Since.now hb hr

end Decided

end Object

end AlgorithmCollection.Conc
