/-
Which nodes `LLSCLockFreeQueue` frees.

The functions on exit tags compute a whole `ExitTag` and install it with a 64-bit cas, which covers `count` and `transfersLeft`
only. So `nlP` and `toBeFreed` never become true in memory, no `FREEABLE` test succeeds, and nothing is freed.
`never_freed_three`: after three enqueues and three dequeues, with no call in progress, the first node taken is not freed
although both variables have moved past it and its successor. `reclaims_iff`: nothing is freed twice or under an outstanding LL, and
at rest all nodes that should be freed are freed exactly as long as fewer than three values have been dequeued.

For the count the list of nodes of the invariant is tied to the run (`Track`): the nodes taken are its first ones, and at rest
`q->head` stands at the last node taken and `q->tail` at the last node. A variable that lags behind does so because a thread is
still in the SC that will move it on (`pending`).
-/
import AlgorithmCollection.Queue.LLSCLockFreeQueueFifo

namespace AlgorithmCollection.LLSCLockFreeQueue

open Conc

/-! ## What is observed -/

/-- the node whose value this step takes -/
def takeNode (m : Mem) (l : Loc) (a : Act) : Option ℕ :=
  match a, l with
  | .step, .sc2 ⟨.deq, nd, myver, _, _⟩ pred_nd => if noncur m.head myver = pred_nd then some nd else none
  | _, _ => none

/-- the nodes whose values have been dequeued in a run, in order -/
def takenNodes (ls : List (ℕ × Act)) : List ℕ := sys.trace takeNode ls

/-- the variable stands at a node behind a -/
def Past (m : Mem) (x : LLSCvar) (a : ℕ) : Prop := current x x.entry.ver ∈ chain m (m.node a).next

/-- the value of a has been dequeued, and both variables have moved past a and its successor -/
structure Reclaimable (ls : List (ℕ × Act)) (a : ℕ) : Prop where
  taken : a ∈ takenNodes ls
  head : Past (sys.run ls).sh (sys.run ls).sh.head a ∧
    Past (sys.run ls).sh (sys.run ls).sh.head ((sys.run ls).sh.node a).next
  tail : Past (sys.run ls).sh (sys.run ls).sh.tail a ∧
    Past (sys.run ls).sh (sys.run ls).sh.tail ((sys.run ls).sh.node a).next

def RelBy.outstanding (nd : ℕ) : RelBy → Option ℕ
  | .sc _ _ | .unlink => some nd

def Cont.outstanding (nd : ℕ) : Cont → Option ℕ
  | .transfer _ k _ => some k.mynode
  | .release _ _ => some nd
  | .setNLPred _ _ _ | .setToBeFreed _ => none

/-- the node the thread has linked by LL and not yet released or unlinked -/
def outstanding : Loc → Option ℕ
  | .enq1 _ _ _ mynode | .enq2 _ _ _ mynode | .enq3 _ _ _ mynode | .deq1 _ mynode => some mynode
  | .sc1 k | .sc2 k _ | .sc3 k _ | .sc4 k _ _ | .sc5 k _ _ => some k.mynode
  | .rel nd by_ => by_.outstanding nd
  | .tag1 nd k | .tag2 nd k _ | .tag3 nd k _ _ | .tag4 nd k _ _ _ | .tag5 nd k _ => k.outstanding nd
  | .unl1 _ mynode | .unl2 _ mynode _ | .unl3 mynode _ => some mynode
  | _ => none

theorem takeEvent_eq (m : Mem) (l : Loc) (a : Act) :
    takeEvent m l a = (takeNode m l a).map fun n => (m.node n).val := by
  cases a with
  | invoke op | oom => rfl
  | step =>
    cases l with
    | sc2 k p =>
      obtain ⟨c, nd, myver, mynode, own⟩ := k
      cases c with
      | enq v n => rfl
      | deq =>
        simp only [takeEvent, takeNode]
        split_ifs <;> rfl
    | _ => rfl

theorem length_takenNodes (ls : List (ℕ × Act)) : (takenNodes ls).length = (dequeued ls).length := by
  induction ls using List.reverseRecOn with
  | nil => rfl
  | append_singleton ls x ih =>
    unfold takenNodes dequeued at ih ⊢
    rw [Sys.trace_snoc, Sys.trace_snoc, List.length_append, List.length_append, ih, takeEvent_eq]
    cases takeNode _ _ x.2 <;> rfl

/-! ## What a step does to a variable -/

def Ctx.isEnq : Ctx → Bool
  | .enq _ _ => true
  | .deq => false

theorem var_of_isEnq (m : Mem) {c c' : Ctx} (h : c.isEnq = c'.isEnq) : m.var c = m.var c' := by
  cases c with
  | enq v n => cases c' with
    | enq v' n' => rfl
    | deq => cases h
  | deq => cases c' with
    | enq v' n' => cases h
    | deq => rfl

/-- the SC that a thread is in and that will move its variable on: which variable, and from which version -/
def pending : Loc → Option (Bool × ℕ)
  | .sc1 k | .sc2 k _ => if k.own then some (k.ctx.isEnq, k.myver) else none
  | .sc3 k _ | .sc4 k _ _ | .sc5 k _ _ => some (k.ctx.isEnq, k.myver)
  | _ => none

/-- the version read in SC is between its own and the present one -/
def Read (m : Mem) : Loc → Prop
  | .sc4 k _ ver => k.myver ≤ ver ∧ ver ≤ (m.var k.ctx).entry.ver
  | _ => True

/-- what a step does to the variable of c: nothing but to its count, the slot cas of an SC, or the next version -/
inductive VarStep (c : Ctx) (m : Mem) (l : Loc) (m' : Mem) (l' : Loc) : Prop where
  | same : (m'.var c).entry.ver = (m.var c).entry.ver → (m'.var c).ptr0 = (m.var c).ptr0 →
      (m'.var c).ptr1 = (m.var c).ptr1 → VarStep c m l m' l'
  | slot (k : ScCall) (p : ℕ) : l = .sc2 k p → k.ctx.isEnq = c.isEnq → noncur (m.var c) k.myver = p →
      m'.var c = setNoncur (m.var c) k.myver k.nd → l' = .sc3 k true → VarStep c m l m' l'
  | bump (k : ScCall) (s : Bool) (e : EntryTag) : l = .sc5 k s e → k.ctx.isEnq = c.isEnq → (m.var c).entry = e →
      m'.var c = { m.var c with entry := ⟨e.ver + 1, 0⟩ } → VarStep c m l m' l'

section Step

variable {N N' : List ℕ} {m m' : Mem} {l l' : Loc} {c : Ctx} {t : ℕ}

theorem VarStep.refl : VarStep c m l m l' := .same rfl rfl rfl

theorem VarStep.of_vars (hh : m'.head = m.head) (ht : m'.tail = m.tail) : VarStep c m l m' l' := by
  have hv : m'.var c = m.var c := by cases c <;> assumption
  exact .same (by rw [hv]) (by rw [hv]) (by rw [hv])

theorem var_setVar_self (m : Mem) {c d : Ctx} (h : c.isEnq = d.isEnq) (x : LLSCvar) : (m.setVar d x).var c = x := by
  cases c with
  | enq v n => cases d with
    | enq v' n' => rfl
    | deq => cases h
  | deq => cases d with
    | enq v' n' => cases h
    | deq => rfl

/-- a write to the variable of d seen from c -/
theorem var_setVar_cases (m : Mem) (c d : Ctx) (x : LLSCvar) :
    (c.isEnq = d.isEnq ∧ (m.setVar d x).var c = x) ∨ (m.setVar d x).var c = m.var c := by
  cases c <;> cases d <;> simp [Ctx.isEnq, Mem.var, Mem.setVar]

theorem freeIf_vars (m : Mem) (post : ExitTag) (nd : ℕ) :
    (freeIf m post nd).head = m.head ∧ (freeIf m post nd).tail = m.tail := by
  unfold freeIf; split_ifs <;> exact ⟨rfl, rfl⟩

theorem afterTag_vars (m : Mem) (nd : ℕ) (post : ExitTag) (k : Cont) :
    (afterTag m nd post k).1.head = m.head ∧ (afterTag m nd post k).1.tail = m.tail := by
  cases k with
  | transfer n k s => exact ⟨rfl, rfl⟩
  | release p b =>
    unfold afterTag
    split_ifs
    · exact ⟨rfl, rfl⟩
    · exact freeIf_vars m post nd
  | setNLPred n q b =>
    obtain ⟨h1, h2⟩ := freeIf_vars (freeIf m post nd) q n
    obtain ⟨h3, h4⟩ := freeIf_vars m post nd
    exact ⟨h1.trans h3, h2.trans h4⟩
  | setToBeFreed v => exact freeIf_vars m post nd

theorem exec_varStep (c : Ctx) (m : Mem) (l : Loc) : VarStep c m l (exec m l).1 (exec m l).2 := by
  cases l with
  | ll4 d e n =>
    simp only [exec]
    split_ifs with he
    · unfold Mem.setEntry
      rcases var_setVar_cases m c d { m.var d with entry := ⟨e.ver, e.count + 1⟩ } with ⟨hc, hv⟩ | hv
      · refine .same ?_ ?_ ?_
        · rw [hv, var_of_isEnq m hc, he]
        · rw [hv, var_of_isEnq m hc]
        · rw [hv, var_of_isEnq m hc]
      · exact .same (by rw [hv]) (by rw [hv]) (by rw [hv])
    · exact .refl
  | enq2 v nd myver mynode =>
    simp only [exec]
    split_ifs
    · exact .of_vars rfl rfl
    · exact .refl
  | sc2 k p =>
    simp only [exec]
    split_ifs with hp
    · rcases var_setVar_cases m c k.ctx (setNoncur (m.var k.ctx) k.myver k.nd) with ⟨hc, hv⟩ | hv
      · refine .slot k p rfl hc.symm ?_ ?_ rfl
        · rw [var_of_isEnq m hc]; exact hp
        · rw [hv, var_of_isEnq m hc]
      · exact .same (by rw [hv]) (by rw [hv]) (by rw [hv])
    · exact .refl
  | sc5 k s e =>
    simp only [exec]
    split_ifs with he
    · unfold Mem.setEntry
      rcases var_setVar_cases m c k.ctx { m.var k.ctx with entry := ⟨e.ver + 1, 0⟩ } with ⟨hc, hv⟩ | hv
      · refine .bump k s e rfl hc.symm ?_ ?_
        · rw [var_of_isEnq m hc]; exact he
        · rw [hv, var_of_isEnq m hc]
      · exact .same (by rw [hv]) (by rw [hv]) (by rw [hv])
    · exact .refl
  | tag5 nd k pre =>
    simp only [exec]
    split_ifs
    · obtain ⟨h1, h2⟩ := afterTag_vars (casExit m nd (k.post pre)) nd (k.post pre) k
      exact .of_vars h1 h2
    · exact .refl
  | unl3 n e =>
    simp only [exec]
    split_ifs with he
    · unfold Mem.setEntry
      rcases var_setVar_cases m c .deq { m.var .deq with entry := ⟨e.ver, e.count - 1⟩ } with ⟨hc, hv⟩ | hv
      · refine .same ?_ ?_ ?_
        · rw [hv, var_of_isEnq m hc, show (m.var .deq).entry = e from he]
        · rw [hv, var_of_isEnq m hc]
        · rw [hv, var_of_isEnq m hc]
      · exact .same (by rw [hv]) (by rw [hv]) (by rw [hv])
    · exact .refl
  | _ => exact .of_vars rfl rfl

theorem step_varStep (c : Ctx) (t : ℕ) (m : Mem) (l : Loc) (a : Act) :
    VarStep c m l (step t m l a).1 (step t m l a).2 := by
  cases a with
  | step => exact exec_varStep c m l
  | invoke op => exact .refl
  | oom => cases l <;> exact .refl

/-- the version of a variable does not decrease -/
theorem VarStep.ver_le (h : VarStep c m l m' l') : (m.var c).entry.ver ≤ (m'.var c).entry.ver := by
  cases h with
  | same h _ _ => exact h.ge
  | slot k p _ _ _ h _ => rw [h, setNoncur_entry]
  | bump k s e _ _ he h =>
    rw [h, he]
    exact Nat.le_succ _

theorem Read.stable (h : Read m l) (hv : ∀ c, (m.var c).entry.ver ≤ (m'.var c).entry.ver) : Read m' l := by
  cases l with
  | sc4 k s ver => exact ⟨h.1, h.2.trans (hv k.ctx)⟩
  | _ => trivial

theorem read_afterSC (k : ScCall) (s : Bool) : Read m (afterSC k s) := by
  unfold afterSC
  split <;> split_ifs <;> trivial

theorem read_afterTag (nd : ℕ) (post : ExitTag) (k : Cont) : Read m' (afterTag m nd post k).2 := by
  have hrel : ∀ b : RelBy, Read m' (afterRelease b) := by
    intro b
    cases b with
    | sc k s => exact read_afterSC k s
    | unlink => trivial
  cases k with
  | transfer n k s | setToBeFreed v => trivial
  | release p b =>
    unfold afterTag
    split_ifs
    · trivial
    · exact hrel b
  | setNLPred n q b => exact hrel b

theorem exec_read (ha : Asrt N m l) : Read (exec m l).1 (exec m l).2 := by
  cases l with
  | ll4 d e n =>
    simp only [exec]
    split_ifs
    · cases d <;> trivial
    · trivial
  | enq2 v nd myver mynode | deq1 myver mynode | sc2 k p | sc4 k s ver | sc5 k s e | unl2 myver mynode ver
  | unl3 n e => simp only [exec]; split_ifs <;> trivial
  | sc3 k s => exact ⟨ha.1.1.2, le_rfl⟩
  | tag5 nd k pre =>
    simp only [exec]
    split_ifs
    · exact read_afterTag nd _ k
    · trivial
  | _ => trivial

theorem step_read (ha : Asrt N m l) (h : Read m l) (t : ℕ) (a : Act) : Read (step t m l a).1 (step t m l a).2 := by
  cases a with
  | step => exact exec_read ha
  | invoke op =>
    simp only [step]
    split_ifs
    · cases op <;> trivial
    · exact h
  | oom => cases l <;> exact h

/-- an SC stays pending until the version has moved on -/
theorem exec_pending (ha : Asrt N m l) (hr : Read m l) {v : ℕ} (hp : pending l = some (c.isEnq, v))
    (hv : ((exec m l).1.var c).entry.ver = v) : pending (exec m l).2 = some (c.isEnq, v) := by
  cases l with
  | sc1 k | sc3 k s => exact hp
  | sc2 k p =>
    have hk : some (k.ctx.isEnq, k.myver) = some (c.isEnq, v) := by
      by_cases ho : k.own = true
      · rwa [pending, if_pos ho] at hp
      · rw [pending, if_neg ho] at hp; cases hp
    simp only [exec]
    split_ifs <;> exact hk
  | sc4 k s ver =>
    obtain ⟨h1, h2⟩ := hr
    have hk : k.ctx.isEnq = c.isEnq ∧ k.myver = v := by simpa [pending] using hp
    simp only [exec] at hv ⊢
    by_cases he : ver = k.myver
    · rw [if_pos he]
      exact hp
    · -- the version it has read is a later one
      rw [var_of_isEnq m hk.1, hv, ← hk.2] at h2
      exact absurd (le_antisymm h2 h1) he
  | sc5 k s e =>
    have hk : k.ctx.isEnq = c.isEnq ∧ k.myver = v := by simpa [pending] using hp
    simp only [exec] at hv ⊢
    by_cases he : (m.var k.ctx).entry = e
    · rw [if_pos he] at hv
      unfold Mem.setEntry at hv
      rw [var_setVar_self m hk.1.symm, ← hk.2, ← ha.2] at hv
      exact absurd hv (Nat.succ_ne_self _)
    · rw [if_neg he]
      exact hp
  | _ => cases hp

theorem step_pending (ha : Asrt N m l) (hr : Read m l) {v : ℕ} (hp : pending l = some (c.isEnq, v)) (t : ℕ) (a : Act)
    (hv : ((step t m l a).1.var c).entry.ver = v) : pending (step t m l a).2 = some (c.isEnq, v) := by
  cases a with
  | step => exact exec_pending ha hr hp hv
  | invoke op =>
    simp only [step]
    split_ifs with hc
    · cases l with
      | idle | ret _ _ => cases hp
      | _ => cases hc
    · exact hp
  | oom => cases l <;> exact hp

/-! ## Lagging variables -/

/-- the SC of the present version has installed its node and the version is still the old one -/
def Lags (N : List ℕ) (x : LLSCvar) : Prop := N[x.entry.ver + 2]? = some (noncur x x.entry.ver)

/-- after the version has moved on a variable does not lag -/
theorem not_lags_bump {x : LLSCvar} {e : EntryTag} (hg : N <+: N') (hN' : N'.Nodup) (hx : VarOk N x)
    (he : x.entry = e) : ¬ Lags N' { x with entry := ⟨e.ver + 1, 0⟩ } := by
  intro hlag
  have hcur := get_of_extends hg hx.cur
  rw [he] at hcur
  have hnon : N'[e.ver + 1 + 2]? = some (current x e.ver) := by
    rw [← noncur_succ]
    exact hlag
  have := pos_inj hN' hcur hnon
  omega

/-- a variable begins to lag by the slot cas of an SC, which is pending then -/
theorem VarStep.lags (h : VarStep c m l m' l') (hI : Inv N m) (ha : Asrt N m l) (hg : N <+: N') (hN' : N'.Nodup)
    (hlag : Lags N' (m'.var c)) :
    ((m'.var c).entry.ver = (m.var c).entry.ver ∧ Lags N (m.var c)) ∨
      pending l' = some (c.isEnq, (m'.var c).entry.ver) := by
  have hx := hI.var c
  cases h with
  | same hver h0 h1 =>
    refine .inl ⟨hver, ?_⟩
    have hnon : noncur (m'.var c) (m'.var c).entry.ver = noncur (m.var c) (m.var c).entry.ver := by
      unfold noncur; rw [hver, h0, h1]
    unfold Lags at hlag
    rw [hnon, hver] at hlag
    rcases hx.non with hn | hn
    · have := pos_inj hN' (get_of_extends hg hn) hlag
      omega
    · exact hn
  | slot k p hl hk hp hv hl' =>
    right
    rw [hl] at ha
    have hver : (m.var c).entry.ver = k.myver := by
      have hle : k.myver ≤ (m.var c).entry.ver := by rw [← var_of_isEnq m hk]; exact ha.1.1.2
      exact hx.ver_of_noncur hI.nodup hle ha.2 hp
    rw [hl', hv, setNoncur_entry, hver, ← hk]
    rfl
  | bump k s e hl hk he hv =>
    rw [hv] at hlag
    exact absurd hlag (not_lags_bump hg hN' hx he)

end Step

section Track

variable {N N' : List ℕ} {m m' : Mem} {l l' : Loc} {a : Act} {ls : List (ℕ × Act)}

/-- how many nodes have been taken is one number -/
theorem Taken.inj {x : LLSCvar} {d d' : ℕ} (hN : N.Nodup) (h : Taken N x d) (h' : Taken N x d') : d = d' := by
  rcases h with ⟨rfl, h⟩ | ⟨rfl, h⟩ <;> rcases h' with ⟨rfl, h'⟩ | ⟨rfl, h'⟩
  · rfl
  · have := pos_inj hN h h'; omega
  · have := pos_inj hN h h'; omega
  · rfl

/-- the node taken is the next one of the list -/
theorem takeNode_get (hI : Inv N m) (ha : Asrt N m l) {d n : ℕ} (hd : Taken N m.head d) (hn : takeNode m l a = some n) :
    N[d + 2]? = some n := by
  cases a with
  | invoke op | oom => cases hn
  | step =>
    cases l with
    | sc2 k p =>
      obtain ⟨c, nd, myver, mynode, own⟩ := k
      cases c with
      | enq v q => cases hn
      | deq =>
        simp only [takeNode] at hn
        split_ifs at hn with hp
        cases hn
        have hver := hI.head.ver_of_noncur hI.nodup ha.1.1.2 ha.2 hp
        have hd' : Taken N m.head myver := .inl ⟨hver.symm, by rw [hver, hp]; exact ha.2⟩
        rw [hd.inj hI.nodup hd']
        exact ha.1.2.1
    | _ => cases hn

/-- a node is linked behind the last one, where `q->tail` stands; the SC that follows is pending -/
theorem link_pending (hI : Inv N m) (ha : Asrt N m l) {v : ℤ} (t : ℕ) (h : linkEvent m l a = some v) :
    N.length = m.tail.entry.ver + 2 ∧ (step t m l a).1.tail = m.tail ∧
      pending (step t m l a).2 = some (true, m.tail.entry.ver) := by
  cases a with
  | invoke op | oom => cases h
  | step =>
    cases l with
    | enq2 v' nd myver mynode =>
      obtain ⟨-, ⟨hget, hle⟩, -⟩ := ha
      simp only [linkEvent] at h
      split_ifs at h with hnull
      have hlen := hI.next_null hget hnull
      have hcur := lt_of_get hI.tail.cur
      have hver : m.tail.entry.ver = myver := by omega
      simp only [step, exec]
      rw [if_pos hnull, hver]
      exact ⟨hlen.symm, rfl, rfl⟩
    | _ => cases h

theorem prefix_snoc {p L : List ℕ} {n : ℕ} (h : p <+: L) (hn : L[p.length]? = some n) : p ++ [n] <+: L := by
  obtain ⟨r, rfl⟩ := h
  rw [List.getElem?_append_right le_rfl, Nat.sub_self] at hn
  cases r with
  | nil => cases hn
  | cons b r =>
    cases hn
    exact ⟨r, by rw [List.append_assoc]; rfl⟩

end Track

/-- the list of nodes, as the run has made it -/
structure Track (ls : List (ℕ × Act)) (N : List ℕ) : Prop where
  inv : Inv N (sys.run ls).sh
  asrt : ∀ t, Asrt N (sys.run ls).sh ((sys.run ls).loc t)
  disj : ∀ t u, t ≠ u → Disj ((sys.run ls).loc t) ((sys.run ls).loc u)
  read : ∀ t, Read (sys.run ls).sh ((sys.run ls).loc t)
  taken : Taken N (sys.run ls).sh.head (takenNodes ls).length
  nodes : takenNodes ls <+: N.drop 2
  head : Lags N (sys.run ls).sh.head → ∃ t, pending ((sys.run ls).loc t) = some (false, (sys.run ls).sh.head.entry.ver)
  tail : (sys.run ls).sh.tail.entry.ver + 2 < N.length →
    ∃ t, pending ((sys.run ls).loc t) = some (true, (sys.run ls).sh.tail.entry.ver)
  short : N.length ≤ (sys.run ls).sh.tail.entry.ver + 3

section Run

variable {N N' : List ℕ} {ls : List (ℕ × Act)} {t : ℕ} {a : Act}

/-- a pending SC of the present version is still pending after a step that does not change the version -/
theorem Track.pending_next (T : Track ls N) (c : Ctx) (x : ℕ × Act)
    (hv : ((sys.run (ls ++ [x])).sh.var c).entry.ver = ((sys.run ls).sh.var c).entry.ver)
    (h : ∃ u, pending ((sys.run ls).loc u) = some (c.isEnq, ((sys.run ls).sh.var c).entry.ver)) :
    ∃ u, pending ((sys.run (ls ++ [x])).loc u) = some (c.isEnq, ((sys.run (ls ++ [x])).sh.var c).entry.ver) := by
  obtain ⟨u, hu⟩ := h
  refine ⟨u, ?_⟩
  rw [hv]
  rw [Sys.run_snoc] at hv ⊢
  by_cases hux : u = x.1
  · subst hux
    rw [Sys.next_loc_self]
    exact step_pending (T.asrt x.1) (T.read x.1) hu x.1 x.2 hv
  · rw [Sys.next_loc_ne _ _ _ hux, hu]

/-- what one more step does to what has been taken -/
theorem Track.taken_next (T : Track ls N) (x : ℕ × Act)
    (hg : Guar N (sys.run ls).sh ((sys.run ls).loc x.1) N' (sys.run (ls ++ [x])).sh ((sys.run (ls ++ [x])).loc x.1))
    (he : Effect N (sys.run ls).sh ((sys.run ls).loc x.1) N' (sys.run (ls ++ [x])).sh x.2) :
    Taken N' (sys.run (ls ++ [x])).sh.head (takenNodes (ls ++ [x])).length ∧ takenNodes (ls ++ [x]) <+: N'.drop 2 := by
  have hsnoc : takenNodes (ls ++ [x]) =
      takenNodes ls ++ (takeNode (sys.run ls).sh ((sys.run ls).loc x.1) x.2).toList := Sys.trace_snoc ..
  unfold Effect at he
  rw [takeEvent_eq] at he
  rcases he with ⟨rfl, hh, -, h2⟩ | ⟨v, n, rfl, hh, -, -, h2⟩ | ⟨v, n, d, rfl, hd, hd', -, -, -, h2⟩
  · rw [hsnoc, Option.map_eq_none_iff.1 h2, Option.toList_none, List.append_nil]
    exact ⟨hh _ T.taken, T.nodes⟩
  · rw [hsnoc, Option.map_eq_none_iff.1 h2, Option.toList_none, List.append_nil, hh]
    refine ⟨T.taken.imp (And.imp_right (get_of_extends hg.ext.grows)) (And.imp_right (get_of_extends hg.ext.grows)), ?_⟩
    have hlen := lt_of_get T.inv.head.cur
    rw [List.drop_append_of_le_length (by omega)]
    exact T.nodes.trans (List.prefix_append _ _)
  · obtain ⟨n', hn', -⟩ := Option.map_eq_some_iff.1 h2
    have hget := takeNode_get T.inv (T.asrt x.1) T.taken hn'
    rw [hsnoc, hn', Option.toList_some, List.length_append, List.length_singleton]
    refine ⟨?_, prefix_snoc T.nodes ?_⟩
    · rw [T.taken.inj T.inv.nodup hd]
      exact hd'
    · rw [List.getElem?_drop, Nat.add_comm]
      exact hget

theorem track_run (ls : List (ℕ × Act)) : ∃ N, Track ls N := by
  induction ls using List.reverseRecOn with
  | nil =>
    refine ⟨[2, 1], inv_init, fun _ => trivial, nofun, fun _ => trivial, .inl ⟨rfl, rfl⟩,
      List.nil_prefix, fun h => ?_, fun h => ?_, by decide⟩
    · cases h
    · exact absurd h (by decide)
  | append_singleton ls x ih =>
    obtain ⟨N, T⟩ := ih
    obtain ⟨t, a⟩ := x
    obtain ⟨N', hg, he⟩ := step_safe t a T.inv (T.asrt t)
    have hvar := fun c => step_varStep c t (sys.run ls).sh ((sys.run ls).loc t) a
    obtain ⟨hasrt, hdisj⟩ := Sys.next_parts sys (fun N _ => Asrt N) Disj (a := a) T.disj hg.asrt fun u hu =>
      hg.others (T.asrt u) (T.disj t u (Ne.symm hu)) (T.disj u t hu)
    have hsh : (sys.run (ls ++ [(t, a)])).sh = (step t (sys.run ls).sh ((sys.run ls).loc t) a).1 := by
      rw [Sys.run_snoc]; rfl
    have hloc : (sys.run (ls ++ [(t, a)])).loc t = (step t (sys.run ls).sh ((sys.run ls).loc t) a).2 := by
      rw [Sys.run_snoc, Sys.next_loc_self]; rfl
    rw [← hsh, ← hloc] at hg
    rw [← hsh] at he
    simp only [← hsh, ← hloc] at hvar
    rw [← Sys.run_snoc] at hasrt hdisj
    obtain ⟨htaken, hnodes⟩ := T.taken_next (t, a) hg he
    have hver : (sys.run ls).sh.tail.entry.ver ≤ (sys.run (ls ++ [(t, a)])).sh.tail.entry.ver := (hvar (.enq 0 0)).ver_le
    -- `q->tail` begins to lag by a link, and the next version catches up with it
    have htail' : (sys.run (ls ++ [(t, a)])).sh.tail.entry.ver + 2 < N'.length →
        ∃ u, pending ((sys.run (ls ++ [(t, a)])).loc u) = some (true, (sys.run (ls ++ [(t, a)])).sh.tail.entry.ver) := by
      intro hlen
      have hold : N' = N → _ := fun e => by
        subst e
        have hsame : (sys.run (ls ++ [(t, a)])).sh.tail.entry.ver = (sys.run ls).sh.tail.entry.ver := by
          have := T.short
          omega
        exact T.pending_next (.enq 0 0) (t, a) hsame (T.tail (hsame ▸ hlen))
      rcases he with ⟨e, -⟩ | ⟨v, n, -, -, -, hlink, -⟩ | ⟨_, _, _, e, -⟩
      · exact hold e
      · obtain ⟨-, h1, h2⟩ := link_pending T.inv (T.asrt t) t hlink
        refine ⟨t, ?_⟩
        rw [hloc, h2, hsh, h1]
      · exact hold e
    have hshort : N'.length ≤ (sys.run (ls ++ [(t, a)])).sh.tail.entry.ver + 3 := by
      have := T.short
      rcases he with ⟨e, -⟩ | ⟨v, n, e, -, -, hlink, -⟩ | ⟨_, _, _, e, -⟩
      · rw [e]; omega
      · obtain ⟨h1, -, -⟩ := link_pending T.inv (T.asrt t) t hlink
        rw [e, List.length_append, List.length_singleton]
        omega
      · rw [e]; omega
    refine ⟨N', hg.inv, hasrt, hdisj, fun u => ?_, htaken, hnodes, fun hlag => ?_, fun hlen => ?_, ?_⟩
    · by_cases hu : u = t
      · rw [hu, hloc, hsh]
        exact step_read (T.asrt t) (T.read t) t a
      · rw [Sys.run_snoc, Sys.next_loc_ne _ _ _ hu, ← Sys.run_snoc]
        exact (T.read u).stable fun c => (hvar c).ver_le
    · rcases (hvar .deq).lags T.inv (T.asrt t) hg.ext.grows hg.inv.nodup hlag with ⟨hver, hold⟩ | hnew
      · exact T.pending_next .deq (t, a) hver (T.head hold)
      · exact ⟨t, hnew⟩
    · exact htail' hlen
    · exact hshort

/-! ## At rest -/

theorem pending_of_not_busy {l : Loc} (h : ¬ queue.Busy l) : pending l = none := by
  cases l with
  | idle | ret op r => rfl
  | _ => exact absurd ⟨_, rfl⟩ h

/-- at rest `q->head` stands at the last node taken and `q->tail` at the last node -/
theorem Track.at_rest (T : Track ls N) (hrest : ∀ t, ¬ queue.Busy ((sys.run ls).loc t)) :
    (sys.run ls).sh.head.entry.ver = (takenNodes ls).length ∧ N.length = (sys.run ls).sh.tail.entry.ver + 2 := by
  have hnone : ∀ x, ¬ ∃ t, pending ((sys.run ls).loc t) = some x := by
    rintro x ⟨t, ht⟩
    rw [pending_of_not_busy (hrest t)] at ht
    cases ht
  constructor
  · rcases T.taken with ⟨h, -⟩ | ⟨h, hget⟩
    · exact h.symm
    · rw [h] at hget
      exact absurd (T.head hget) (hnone _)
  · have hcur := lt_of_get T.inv.tail.cur
    have hle : ¬ (sys.run ls).sh.tail.entry.ver + 2 < N.length := fun hlt => hnone _ (T.tail hlt)
    omega

/-- a variable has moved past the node at position i + 1 if its version is larger than i -/
theorem past_iff {m : Mem} {x : LLSCvar} (hI : Inv N m) (hx : VarOk N x) {i a : ℕ} (ha : N[i + 1]? = some a) :
    Past m x a ↔ i < x.entry.ver := by
  unfold Past
  rw [hI.behind ha]
  constructor
  · intro hmem
    obtain ⟨j, hj⟩ := List.mem_iff_getElem?.1 hmem
    rw [List.getElem?_drop] at hj
    have := pos_inj hI.nodup hx.cur hj
    omega
  · intro hlt
    refine List.mem_iff_getElem?.2 ⟨x.entry.ver - (i + 1), ?_⟩
    rw [List.getElem?_drop, show i + 2 + (x.entry.ver - (i + 1)) = x.entry.ver + 1 by omega]
    exact hx.cur

/-- the first node taken is reclaimable when both variables have moved three times -/
theorem Track.reclaimable (T : Track ls N) (hh : 3 ≤ (sys.run ls).sh.head.entry.ver)
    (ht : 3 ≤ (sys.run ls).sh.tail.entry.ver) : ∃ a, Reclaimable ls a := by
  have hlen := lt_of_get T.inv.head.cur
  have h2 : N[1 + 1]? = some (N.get ⟨2, by omega⟩) := List.getElem?_eq_getElem _
  have h3 : N[2 + 1]? = some (N.get ⟨3, by omega⟩) := List.getElem?_eq_getElem _
  have hnext : ((sys.run ls).sh.node (N.get ⟨2, by omega⟩)).next = N.get ⟨3, by omega⟩ := by
    rw [T.inv.next 1 _ h2, h3]
    rfl
  have hpos : 0 < (takenNodes ls).length := by
    rcases T.taken with ⟨h, -⟩ | ⟨h, -⟩ <;> omega
  refine ⟨N.get ⟨2, by omega⟩, ?_, ⟨?_, ?_⟩, ?_, ?_⟩
  · -- it is the first of the nodes taken
    obtain ⟨r, hr⟩ := T.nodes
    have h0 : (N.drop 2)[0]? = some (N.get ⟨2, by omega⟩) := by rw [List.getElem?_drop]; exact h2
    rw [← hr, List.getElem?_append_left hpos] at h0
    exact List.mem_of_getElem? h0
  · exact (past_iff T.inv T.inv.head h2).2 (by omega)
  · rw [hnext]; exact (past_iff T.inv T.inv.head h3).2 (by omega)
  · exact (past_iff T.inv T.inv.tail h2).2 (by omega)
  · rw [hnext]; exact (past_iff T.inv T.inv.tail h3).2 (by omega)

/-- and before that there is none -/
theorem Track.three_le (T : Track ls N) {a : ℕ} (h : Reclaimable ls a) : 3 ≤ (sys.run ls).sh.head.entry.ver := by
  obtain ⟨i, hi⟩ := List.mem_iff_getElem?.1 (T.nodes.subset h.taken)
  rw [List.getElem?_drop, show 2 + i = (i + 1) + 1 by omega] at hi
  have hpast := (past_iff T.inv T.inv.head hi).1 h.head.1
  have hlen := lt_of_get T.inv.head.cur
  have hsucc : N[(i + 2) + 1]? = some (N.get ⟨i + 3, by omega⟩) := List.getElem?_eq_getElem _
  have hnext : ((sys.run ls).sh.node a).next = N.get ⟨i + 3, by omega⟩ := by
    rw [T.inv.next (i + 1) a hi, hsucc]
    rfl
  have hpast' := h.head.2
  rw [hnext] at hpast'
  have := (past_iff T.inv T.inv.head hsucc).1 hpast'
  omega

end Run

/-- **What is freed.** In every run nothing is freed twice or while a thread has an outstanding LL on it; and with no call in
progress, all nodes whose value has been dequeued and that, with their successor, both variables have moved past are freed
if and only if fewer than three values have been dequeued, that is as long as there are no such nodes. -/
theorem reclaims_iff (ls : List (ℕ × Act)) :
    ((sys.run ls).sh.freed.Nodup ∧ ∀ t a, outstanding ((sys.run ls).loc t) = some a → a ∉ (sys.run ls).sh.freed) ∧
      ((∀ t, ¬ queue.Busy ((sys.run ls).loc t)) →
        ((∀ a, Reclaimable ls a → a ∈ (sys.run ls).sh.freed) ↔ (dequeued ls).length < 3)) := by
  obtain ⟨N, T⟩ := track_run ls
  have hfreed := T.inv.freed
  refine ⟨⟨by rw [hfreed]; exact List.nodup_nil, fun t a _ => by rw [hfreed]; exact List.not_mem_nil⟩, fun hrest => ?_⟩
  obtain ⟨hhead, htail⟩ := T.at_rest hrest
  rw [← length_takenNodes, ← hhead, hfreed]
  constructor
  · intro hall
    by_contra hge
    have hcur := lt_of_get T.inv.head.cur
    obtain ⟨a, ha⟩ := T.reclaimable (not_lt.1 hge) (by omega)
    exact absurd (hall a ha) List.not_mem_nil
  · intro hlt a ha
    exact absurd (T.three_le ha) (not_le.2 hlt)

/-- a whole call of thread 0 -/
def call (op : Op) : List (ℕ × Act) := (0, .invoke op) :: List.replicate 40 (0, .step)

def threeEach : List (ℕ × Act) :=
  call (.enq 10) ++ call (.enq 20) ++ call (.enq 30) ++ call .deq ++ call .deq ++ call .deq

instance (m : Mem) (x : LLSCvar) (a : ℕ) : Decidable (Past m x a) := inferInstanceAs (Decidable (_ ∈ _))

/-- all calls have returned, both variables have moved past the first node taken and its successor, and it is not freed -/
theorem never_freed_three :
    (∀ t, ¬ queue.Busy ((sys.run threeEach).loc t)) ∧ dequeued threeEach = [10, 20, 30] ∧ Reclaimable threeEach 3 ∧
      3 ∉ (sys.run threeEach).sh.freed := by
  refine ⟨?_, by decide +kernel, ⟨by decide +kernel, by decide +kernel, by decide +kernel⟩, by decide +kernel⟩
  refine sys.run_loc_of_lt (Q := fun l => ¬ queue.Busy l) (n := 1) (by decide +kernel) (fun ⟨_, h⟩ => nomatch h) fun t ht => ?_
  have hret : (sys.run threeEach).loc 0 = .ret .deq (.deq (some 30)) := by decide +kernel
  rw [Nat.lt_one_iff.1 ht, hret]
  exact fun ⟨_, h⟩ => nomatch h

end AlgorithmCollection.LLSCLockFreeQueue
