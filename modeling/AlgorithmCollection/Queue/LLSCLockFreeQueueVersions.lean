/-
The emulated LL/SC of `LLSCLockFreeQueue`, version by version.

An SC with version myver does its cas on the other slot, expecting the `pred` of the node it has linked; whether the cas succeeded
is what it returns. `llsc_exact`, for every run and either variable: for every version the variable has left, exactly one such
cas of an SC with this version succeeded, and its node is the current one at the next version; every SC returns whether its own
cas succeeded, so every other one returns false; and the other slot holds the `pred` of the current node or the node that
the one successful SC of the present version has installed.

The successful cas of version v are counted along the run against `Installed` (`Exact`): there is one as soon as the successor for
v is installed, and none before. A stale SC does not add one, because its cas fails (`VarOk.ver_of_noncur`).
-/
import AlgorithmCollection.Queue.LLSCLockFreeQueueReclaim

namespace AlgorithmCollection.LLSCLockFreeQueue

open Conc

/-! ## What is observed -/

/-- a call of SC on `q->tail` or `q->head`, with its result -/
structure Sc where
  isEnq : Bool
  myver : ℕ
  nd : ℕ
  success : Bool
deriving DecidableEq, Repr

def ScCall.result (k : ScCall) (success : Bool) : Sc := ⟨k.ctx.isEnq, k.myver, k.nd, success⟩

/-- the slot cas that this step does -/
def slotCas (m : Mem) (l : Loc) (a : Act) : Option Sc :=
  match a, l with
  | .step, .sc2 k pred_nd => some (k.result (noncur (m.var k.ctx) k.myver = pred_nd))
  | _, _ => none

def RelBy.result : RelBy → Option Sc
  | .sc k success => some (k.result success)
  | .unlink => none

def Cont.result : Cont → Option Sc
  | .transfer _ k success => some (k.result success)
  | .release _ by_ | .setNLPred _ _ by_ => by_.result
  | .setToBeFreed _ => none

/-- the SC that a thread is in, past its slot cas -/
def inSC : Loc → Option Sc
  | .sc3 k success | .sc4 k success _ | .sc5 k success _ => some (k.result success)
  | .rel _ by_ => by_.result
  | .tag1 _ k | .tag2 _ k _ | .tag3 _ k _ _ | .tag4 _ k _ _ _ | .tag5 _ k _ => k.result
  | _ => none

/-- the SC that returns with this step: its `release` has come to its end -/
def scReturn (m : Mem) (l : Loc) (a : Act) : Option Sc :=
  match a, l with
  | .step, .tag5 nd k pre =>
    if (m.node nd).exit.count = pre.count ∧ (m.node nd).exit.transfersLeft = pre.transfersLeft then
      match k with
      | .release _ by_ => if clean (k.post pre) then none else by_.result
      | .setNLPred _ _ by_ => by_.result
      | .transfer _ _ _ | .setToBeFreed _ => none
    else none
  | _, _ => none

/-- the successful slot cas of the SCs with version v on the variable of c -/
def succeeded (c : Ctx) (v : ℕ) (ls : List (ℕ × Act)) : List Sc :=
  (sys.trace slotCas ls).filter fun e => e.isEnq == c.isEnq && e.myver == v && e.success

/-! ## SC returns whether its slot cas succeeded -/

theorem inSC_afterSC (k : ScCall) (s : Bool) : inSC (afterSC k s) = none := by
  unfold afterSC
  split <;> split_ifs <;> rfl

theorem inSC_afterRelease (b : RelBy) : inSC (afterRelease b) = none := by
  cases b with
  | sc k s => exact inSC_afterSC k s
  | unlink => rfl

/-- a thread enters this part of SC by its slot cas and leaves it by returning -/
theorem exec_inSC (m : Mem) (l : Loc) :
    (inSC l).toList ++ (slotCas m l .step).toList = (scReturn m l .step).toList ++ (inSC (exec m l).2).toList := by
  cases l with
  | ll4 c e n =>
    simp only [exec]
    split_ifs
    · cases c <;> rfl
    · rfl
  | enq2 v nd myver mynode | deq1 myver mynode | unl2 myver mynode ver | unl3 n e =>
    simp only [exec]
    split_ifs <;> rfl
  | sc2 k p =>
    simp only [exec, slotCas]
    split_ifs with hp
    · rw [decide_eq_true hp]; rfl
    · rw [decide_eq_false hp]; rfl
  | sc4 k s ver | sc5 k s e =>
    simp only [exec]
    split_ifs <;> exact List.append_nil _
  | tag5 nd k pre =>
    by_cases he : (m.node nd).exit.count = pre.count ∧ (m.node nd).exit.transfersLeft = pre.transfersLeft
    · simp only [exec, scReturn, if_pos he]
      cases k with
      | transfer n k s | setToBeFreed v => rfl
      | release p b =>
        simp only [afterTag]
        split_ifs
        · exact List.append_nil _
        · rw [inSC_afterRelease]; rfl
      | setNLPred n q b => rw [show inSC (afterTag _ nd _ (.setNLPred n q b)).2 = none from inSC_afterRelease b]; rfl
    · simp only [exec, scReturn, if_neg he]
      exact List.append_nil _
  | _ => exact List.append_nil _

theorem step_inSC (t : ℕ) (m : Mem) (l : Loc) (a : Act) :
    (inSC l).toList ++ (slotCas m l a).toList = (scReturn m l a).toList ++ (inSC (step t m l a).2).toList := by
  cases a with
  | step => exact exec_inSC m l
  | oom => cases l <;> exact List.append_nil _
  | invoke op =>
    simp only [step]
    split_ifs with hc
    · have hl : inSC l = none := by
        cases l with
        | idle | ret _ _ => rfl
        | _ => cases hc
      rw [hl]
      cases op <;> rfl
    · exact List.append_nil _

/-- the SCs of a thread, in order: those that have returned, and the one it is in -/
theorem returns_result (t : ℕ) (ls : List (ℕ × Act)) :
    sys.traceOf slotCas t ls = sys.traceOf scReturn t ls ++ (inSC ((sys.run ls).loc t)).toList := by
  induction ls using List.reverseRecOn with
  | nil => rfl
  | append_singleton ls x ih =>
    rw [Sys.traceOf_snoc, Sys.traceOf_snoc, Sys.run_snoc, ih]
    by_cases hx : x.1 = t
    · subst hx
      rw [if_pos rfl, if_pos rfl, Sys.next_loc_self, List.append_assoc, List.append_assoc]
      exact congrArg _ (step_inSC x.1 _ _ x.2)
    · rw [if_neg hx, if_neg hx, Sys.next_loc_ne _ _ _ (Ne.symm hx)]
      simp

/-! ## One successful cas per version -/

section Step

variable {N N' : List ℕ} {m : Mem} {l : Loc} {c : Ctx} {a : Act}

/-- a step without a successful slot cas on the variable of c installs nothing there -/
theorem step_installed (hI : Inv N m) (ha : Asrt N m l) (hg : N <+: N') (hN' : N'.Nodup) (t : ℕ)
    (hs : ∀ e, slotCas m l a = some e → e.isEnq = c.isEnq → e.success = false) (v : ℕ) :
    Installed N' ((step t m l a).1.var c) v ↔ Installed N (m.var c) v := by
  have hx := hI.var c
  cases step_varStep c t m l a with
  | same hver h0 h1 =>
    have hnon : noncur ((step t m l a).1.var c) v = noncur (m.var c) v := by unfold noncur; rw [h0, h1]
    unfold Installed
    rw [hver, hnon]
    refine or_congr_right (and_congr_right ?_)
    rintro rfl
    refine ⟨fun h => hx.non.resolve_left fun hn => ?_, get_of_extends hg⟩
    have := pos_inj hN' (get_of_extends hg hn) h
    omega
  | slot k p hl hk hp hv hl' =>
    subst hl
    cases a with
    | step =>
      have := hs (k.result true) (by simp only [slotCas, var_of_isEnq m hk, hp, decide_true]) hk
      cases this
    | invoke op | oom => cases hl'
  | bump k s e hl hk he hv =>
    subst hl
    have hin : Installed N (m.var c) e.ver := by rw [ha.2, ← var_of_isEnq m hk]; exact ha.1.2
    have hlag := not_lags_bump hg hN' hx he
    rw [hv]
    unfold Installed Lags at *
    rw [he] at hin ⊢
    constructor
    · rintro (h | ⟨rfl, h⟩)
      · rcases (Nat.lt_succ_iff.1 h).lt_or_eq with h | rfl
        · exact .inl h
        · exact hin
      · exact absurd h hlag
    · rintro (h | ⟨rfl, -⟩)
      · exact .inl (h.trans (Nat.lt_succ_self _))
      · exact .inl (Nat.lt_succ_self _)

/-- a successful slot cas installs its node, for the present version -/
theorem slot_installed (hI : Inv N m) (ha : Asrt N m l) (hg : N <+: N') (t : ℕ) {v nd : ℕ}
    (he : slotCas m l a = some ⟨c.isEnq, v, nd, true⟩) :
    N'[v + 2]? = some nd ∧ ¬ Installed N (m.var c) v ∧
      ∀ w, Installed N' ((step t m l a).1.var c) w ↔ w = v ∨ Installed N (m.var c) w := by
  cases a with
  | invoke op | oom => cases he
  | step =>
    cases l with
    | sc2 k p =>
      obtain ⟨hc, rfl, rfl, hs⟩ : k.ctx.isEnq = c.isEnq ∧ k.myver = v ∧ k.nd = nd ∧ noncur (m.var k.ctx) k.myver = p := by
        simpa [slotCas, ScCall.result] using he
      obtain ⟨hk, hp⟩ := ha
      have hnd := get_of_extends hg hk.2.1
      have hvar := var_of_isEnq m hc
      have hver := (hI.var k.ctx).ver_of_noncur hI.nodup hk.1.2 hp hs
      have hx : (step t m (.sc2 k p) .step).1.var c = setNoncur (m.var k.ctx) k.myver k.nd := by
        simp only [step, exec, if_pos hs]
        exact var_setVar_self m hc.symm _
      rw [hx, ← hvar]
      unfold Installed
      rw [setNoncur_entry, hver]
      refine ⟨hnd, ?_, fun w => ⟨?_, ?_⟩⟩
      · rintro (h | ⟨-, h⟩)
        · exact lt_irrefl _ h
        · rw [hs] at h
          have := pos_inj hI.nodup hp h
          omega
      · rintro (h | ⟨h, -⟩)
        · exact .inr (.inl h)
        · exact .inl h
      · have hin : N'[k.myver + 2]? = some (noncur (setNoncur (m.var k.ctx) k.myver k.nd) k.myver) := by
          rw [noncur_setNoncur]; exact hnd
        rintro (rfl | h | ⟨rfl, -⟩)
        · exact .inr ⟨rfl, hin⟩
        · exact .inl h
        · exact .inr ⟨rfl, hin⟩
    | _ => cases he

end Step

/-- the successful slot cas on the variable of c are those of the versions whose successor is installed, one each -/
structure Counted (N : List ℕ) (m : Mem) (c : Ctx) (ls : List (ℕ × Act)) : Prop where
  one : ∀ v, Installed N (m.var c) v → ∃ nd, N[v + 2]? = some nd ∧ succeeded c v ls = [⟨c.isEnq, v, nd, true⟩]
  none : ∀ v, ¬ Installed N (m.var c) v → succeeded c v ls = []

structure Exact (ls : List (ℕ × Act)) (N : List ℕ) : Prop where
  inv : Inv N (sys.run ls).sh
  asrt : ∀ t, Asrt N (sys.run ls).sh ((sys.run ls).loc t)
  disj : ∀ t u, t ≠ u → Disj ((sys.run ls).loc t) ((sys.run ls).loc u)
  counted : ∀ c, Counted N (sys.run ls).sh c ls

section Run

variable {ls : List (ℕ × Act)} {N N' : List ℕ} {c : Ctx} {x : ℕ × Act} {v nd : ℕ}

theorem succeeded_snoc (h : slotCas (sys.run ls).sh ((sys.run ls).loc x.1) x.2 = some ⟨c.isEnq, v, nd, true⟩) :
    succeeded c v (ls ++ [x]) = succeeded c v ls ++ [⟨c.isEnq, v, nd, true⟩] := by
  unfold succeeded
  rw [Sys.trace_snoc, List.filter_append, h]
  simp

theorem succeeded_same (h : ∀ nd, slotCas (sys.run ls).sh ((sys.run ls).loc x.1) x.2 ≠ some ⟨c.isEnq, v, nd, true⟩) :
    succeeded c v (ls ++ [x]) = succeeded c v ls := by
  unfold succeeded
  rw [Sys.trace_snoc, List.filter_append]
  cases he : slotCas (sys.run ls).sh ((sys.run ls).loc x.1) x.2 with
  | none => simp
  | some e =>
    rw [Option.toList_some, List.filter_cons_of_neg, List.filter_nil, List.append_nil]
    intro hp
    simp only [Bool.and_eq_true, beq_iff_eq] at hp
    refine h e.nd ?_
    rw [he, ← hp.1.1, ← hp.1.2, ← hp.2]

/-- one more step: with one more successful cas on the variable of c, or without -/
theorem Counted.next (h : Counted N (sys.run ls).sh c ls) (hI : Inv N (sys.run ls).sh)
    (ha : Asrt N (sys.run ls).sh ((sys.run ls).loc x.1)) (hg : N <+: N') (hN' : N'.Nodup) :
    Counted N' (sys.next (sys.run ls) x).sh c (ls ++ [x]) := by
  have hgrow : ∀ v, (∃ nd, N[v + 2]? = some nd ∧ succeeded c v ls = [⟨c.isEnq, v, nd, true⟩]) →
      ∃ nd, N'[v + 2]? = some nd ∧ succeeded c v ls = [⟨c.isEnq, v, nd, true⟩] := fun v ⟨nd, h1, h2⟩ =>
    ⟨nd, get_of_extends hg h1, h2⟩
  by_cases hs : ∃ v nd, slotCas (sys.run ls).sh ((sys.run ls).loc x.1) x.2 = some ⟨c.isEnq, v, nd, true⟩
  · obtain ⟨v, nd, hs⟩ := hs
    obtain ⟨hnd, hnot, hiff⟩ := slot_installed hI ha hg x.1 hs
    have hsame : ∀ w, w ≠ v → succeeded c w (ls ++ [x]) = succeeded c w ls := fun w hw =>
      succeeded_same fun n e => hw (by rw [hs] at e; cases e; rfl)
    refine ⟨fun w hw => ?_, fun w hw => ?_⟩
    · by_cases hwv : w = v
      · subst hwv
        exact ⟨nd, hnd, by rw [succeeded_snoc hs, h.none w hnot]; rfl⟩
      · rw [hsame w hwv]
        exact hgrow w (h.one w (((hiff w).1 hw).resolve_left hwv))
    · rw [hsame w fun e => hw ((hiff w).2 (.inl e))]
      exact h.none w fun hi => hw ((hiff w).2 (.inr hi))
  · have hsame : ∀ w, succeeded c w (ls ++ [x]) = succeeded c w ls := fun w => succeeded_same fun n e => hs ⟨w, n, e⟩
    have hiff := step_installed (c := c) hI ha hg hN' x.1 fun e he hc => by
      by_contra hf
      refine hs ⟨e.myver, e.nd, ?_⟩
      rw [he, ← hc, ← (by simpa using hf : e.success = true)]
    exact ⟨fun w hw => by rw [hsame w]; exact hgrow w (h.one w ((hiff w).1 hw)),
      fun w hw => by rw [hsame w]; exact h.none w fun hi => hw ((hiff w).2 hi)⟩

theorem exact_run (ls : List (ℕ × Act)) : ∃ N, Exact ls N := by
  induction ls using List.reverseRecOn with
  | nil =>
    refine ⟨[2, 1], inv_init, fun _ => trivial, nofun, fun c => ⟨fun v h => ?_, fun _ _ => rfl⟩⟩
    have hno : ¬ Installed [2, 1] (initQueue.var c) v := by cases c <;> simp [Installed, initQueue, Mem.var]
    exact absurd h hno
  | append_singleton ls x ih =>
    obtain ⟨N, E⟩ := ih
    obtain ⟨t, a⟩ := x
    obtain ⟨N', hg, -⟩ := step_safe t a E.inv (E.asrt t)
    obtain ⟨hasrt, hdisj⟩ := Sys.next_parts sys (fun N _ => Asrt N) Disj (a := a) E.disj hg.asrt fun u hu =>
      hg.others (E.asrt u) (E.disj t u (Ne.symm hu)) (E.disj u t hu)
    have hcount : ∀ c, Counted N' (sys.next (sys.run ls) (t, a)).sh c (ls ++ [(t, a)]) := fun c =>
      (E.counted c).next E.inv (E.asrt t) hg.ext.grows hg.inv.nodup
    rw [← Sys.run_snoc] at hasrt hdisj hcount
    exact ⟨N', by rw [Sys.run_snoc]; exact hg.inv, hasrt, hdisj, hcount⟩

/-- the successful cas of a version the variable has left, and the node that is current at the next version -/
theorem Exact.left (E : Exact ls N) (hv : v < ((sys.run ls).sh.var c).entry.ver) :
    ∃ nd, N[v + 2]? = some nd ∧ succeeded c v ls = [⟨c.isEnq, v, nd, true⟩] := (E.counted c).one v (.inl hv)

/-- **LL/SC is exact per version.** In every run, for either variable: for every version v it has left, exactly one SC with
myver = v had a successful slot cas, and its nd is the current node whenever the version is v + 1; every SC returns whether
its own slot cas succeeded; and the other slot holds the `pred` of the current node, or the node installed by the one successful
SC of the present version. -/
theorem llsc_exact (ls : List (ℕ × Act)) (c : Ctx) :
    (∀ v < ((sys.run ls).sh.var c).entry.ver, ∃ nd, succeeded c v ls = [⟨c.isEnq, v, nd, true⟩] ∧
      ∀ ls', ls' <+: ls → ((sys.run ls').sh.var c).entry.ver = v + 1 → current ((sys.run ls').sh.var c) (v + 1) = nd) ∧
    (∀ t, sys.traceOf slotCas t ls = sys.traceOf scReturn t ls ++ (inSC ((sys.run ls).loc t)).toList) ∧
    (noncur ((sys.run ls).sh.var c) ((sys.run ls).sh.var c).entry.ver =
        ((sys.run ls).sh.node (current ((sys.run ls).sh.var c) ((sys.run ls).sh.var c).entry.ver)).pred ∨
      succeeded c ((sys.run ls).sh.var c).entry.ver ls = [⟨c.isEnq, ((sys.run ls).sh.var c).entry.ver,
        noncur ((sys.run ls).sh.var c) ((sys.run ls).sh.var c).entry.ver, true⟩]) := by
  obtain ⟨N, E⟩ := exact_run ls
  refine ⟨fun v hv => ?_, fun t => returns_result t ls, ?_⟩
  · obtain ⟨nd, -, hs⟩ := E.left hv
    refine ⟨nd, hs, fun ls' hp hv' => ?_⟩
    obtain ⟨N', E'⟩ := exact_run ls'
    obtain ⟨nd', hnd', hs'⟩ := E'.left (v := v) (c := c) (by omega)
    have hcur := (E'.inv.var c).cur
    rw [hv', hnd'] at hcur
    have hpre : succeeded c v ls' <+: succeeded c v ls := (sys.trace_prefix slotCas hp).filter _
    rw [hs, hs', List.cons_prefix_cons] at hpre
    rw [← Option.some.inj hcur, ← (Sc.mk.inj hpre.1).2.2.1]
  · rcases (E.inv.var c).non with hn | hn
    · exact .inl (E.inv.pred _ _ _ hn (E.inv.var c).cur).symm
    · obtain ⟨nd, hnd, hs⟩ := (E.counted c).one _ (.inr ⟨rfl, hn⟩)
      rw [hn] at hnd
      rw [Option.some.inj hnd]
      exact .inr hs

end Run

end AlgorithmCollection.LLSCLockFreeQueue
