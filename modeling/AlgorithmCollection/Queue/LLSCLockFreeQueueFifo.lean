/-
`LLSCLockFreeQueue` is a linearizable FIFO queue.

- `contents_eq`: the contents of the queue are the values behind the last node taken, wherever `q->tail` is; so a head
  that has overtaken a lagging tail does not matter.
- `enqueued_eq`: in every run the values linked so far are the values taken so far followed by the contents.
- `sawNull_run`: a `deq` on its way to return false read `head->next == NULL` when the queue was empty.
- `queue_fifo`: the whole statement, with linearization points: the cas on `tail->next`, the slot cas of the SC on
  `q->head`, and for a failing `deq` the load of `head->next`.
-/
import AlgorithmCollection.Queue.LLSCLockFreeQueueInv

namespace AlgorithmCollection.LLSCLockFreeQueue

open Conc

/-! ## The contents of the queue -/

variable {a : Act} {ls : List (ℕ × Act)} {N : List ℕ} {l : Loc} {m m' : Mem} {k t : ℕ} {v : ℤ}

variable (h : Inv N m)

include h

/-- the links behind the node at position i + 1 lead to the rest of the list -/
theorem Inv.behind {i a : ℕ} (ha : N[i + 1]? = some a) : chain m (m.node a).next = N.drop (i + 2) := by
  have hlen := length_le_of_lt h.nodup fun a ha => (h.addr a ha).2
  rw [h.next i a ha]
  refine walk_drop (fun a ha => (h.addr a ha).1.ne') _ (fun j a hj hg => ?_) (by omega)
  obtain ⟨j, rfl⟩ : ∃ i, j = i + 1 := ⟨j - 1, by omega⟩
  exact h.next j a hg

/-- the last node taken is at position d + 1 -/
theorem front_eq {d : ℕ} (hd : Taken N m.head d) : N[d + 1]? = some (front m) := by
  have hcur := h.head.cur
  have hlt := lt_of_get hcur
  have hp : N[m.head.entry.ver]? = some (N.get ⟨m.head.entry.ver, by omega⟩) := List.getElem?_eq_getElem _
  have hpred := h.pred _ _ _ hp hcur
  unfold front
  rcases hd with ⟨rfl, hd⟩ | ⟨rfl, hd⟩
  · rw [hd] at hp
    simp only [hpred, Option.some.inj hp, if_true]
    exact hcur
  · have hne : noncur m.head m.head.entry.ver ≠ (m.node (current m.head m.head.entry.ver)).pred := by
      rw [hpred]
      intro e
      rw [← e] at hp
      have := pos_inj h.nodup hp hd; omega
    simp only [hne, if_false]
    exact hd

theorem Inv.taken : ∃ d, Taken N m.head d := by
  rcases h.head.non with hn | hn
  · exact ⟨_, .inl ⟨rfl, hn⟩⟩
  · exact ⟨_, .inr ⟨rfl, hn⟩⟩

/-- the queue holds the values of the nodes behind the last one taken -/
theorem contents_eq {d : ℕ} (hd : Taken N m.head d) : contents m = (N.drop (d + 2)).map fun a => (m.node a).val := by
  rw [contents, h.behind (front_eq h hd)]

/-- a step leaves the contents alone, appends the value it links, or removes the value it takes -/
theorem Effect.fifoStep {N' : List ℕ} {l' : Loc} (hg : Guar N m l N' m' l') (he : Effect N m l N' m' a) :
    FifoStep (contents m) (contents m') (linkEvent m l a) (takeEvent m l a) := by
  have hval : ∀ k, (N.drop k).map (fun a => (m'.node a).val) = (N.drop k).map fun a => (m.node a).val := fun k =>
    List.map_congr_left fun a ha => hg.ext.val a (List.mem_of_mem_drop ha)
  rcases he with ⟨rfl, hh, h1, h2⟩ | ⟨v, n, rfl, hh, hv, h1, h2⟩ | ⟨v, n, d, rfl, hd, hd', hn, hv, h1, h2⟩
  · obtain ⟨d, hd⟩ := h.taken
    exact .inl ⟨by rw [contents_eq h hd, contents_eq hg.inv (hh d hd), hval], h1, h2⟩
  · refine .inr (.inl ⟨v, ?_, h1, h2⟩)
    obtain ⟨d, hd⟩ := h.taken
    have hd' : Taken (N ++ [n]) m'.head d := by
      rw [hh]
      exact hd.imp (And.imp_right (get_of_extends hg.ext.grows)) (And.imp_right (get_of_extends hg.ext.grows))
    have hlt := lt_of_get (front_eq h hd)
    rw [contents_eq h hd, contents_eq hg.inv hd', List.drop_append_of_le_length (by omega), List.map_append, hval,
      List.map_singleton, hv]
  · refine .inr (.inr ⟨v, ?_, h1, h2⟩)
    obtain ⟨hlt, hget⟩ := List.getElem?_eq_some_iff.1 hn
    rw [contents_eq h hd, contents_eq hg.inv hd', hval, List.drop_eq_getElem_cons hlt, List.map_cons, hget, hv]

omit h

/-- one more step of a run -/
theorem contents_snoc (ls : List (ℕ × Act)) (t : ℕ) (a : Act) :
    FifoStep (contents (sys.run ls).sh) (contents (sys.run (ls ++ [(t, a)])).sh)
      (linkEvent (sys.run ls).sh ((sys.run ls).loc t) a) (takeEvent (sys.run ls).sh ((sys.run ls).loc t) a) := by
  obtain ⟨N, h, hA, -⟩ := inv_run ls
  obtain ⟨N', hg, he⟩ := step_safe t a h (hA t)
  rw [Sys.run_snoc, Sys.next_sh]
  exact he.fifoStep h hg

theorem enqueued_eq (ls : List (ℕ × Act)) : enqueued ls = dequeued ls ++ contents (sys.run ls).sh :=
  trace_fifo sys contents linkEvent takeEvent rfl contents_snoc ls

/-! ## The failing `deq` -/

def RelBy.missed : RelBy → Bool
  | .sc _ _ => false
  | .unlink => true

def Cont.missed : Cont → Bool
  | .transfer _ _ _ | .setToBeFreed _ => false
  | .release _ by_ | .setNLPred _ _ by_ => by_.missed

/-- a `deq` that has read `head->next == NULL` and is on its way to return false -/
def missed : Loc → Bool
  | .unl1 _ _ | .unl2 _ _ _ | .unl3 _ _ => true
  | .rel _ by_ => by_.missed
  | .tag1 _ k | .tag2 _ k _ | .tag3 _ k _ _ | .tag4 _ k _ _ _ | .tag5 _ k _ => k.missed
  | _ => false

/-- inside its current call, t read `head->next == NULL` at a step at which the queue was empty -/
def ReadNull (t : ℕ) (ls : List (ℕ × Act)) : Prop :=
  ∃ k < ls.length, ls[k]? = some (t, .step) ∧
    (∃ myver mynode, (sys.run (ls.take k)).loc t = .deq1 myver mynode ∧
      ((sys.run (ls.take k)).sh.node mynode).next = NULL) ∧
    contents (sys.run (ls.take k)).sh = [] ∧
    ∀ j, k ≤ j → j ≤ ls.length → queue.Busy ((sys.run (ls.take j)).loc t)

theorem ReadNull.snoc {x : ℕ × Act} (h : ReadNull t ls)
    (hb : queue.Busy ((sys.run (ls ++ [x])).loc t)) : ReadNull t (ls ++ [x]) := by
  obtain ⟨k, hk, h1, h2, h3, h4⟩ := h
  refine ⟨k, by simp; omega, by rw [List.getElem?_append_left hk, h1], ?_, ?_, fun j hj hj' => ?_⟩
  · rw [Sys.run_take_snoc sys ls x hk.le]; exact h2
  · rw [Sys.run_take_snoc sys ls x hk.le]; exact h3
  · rcases Nat.lt_or_ge ls.length j with hlt | hge
    · obtain rfl : j = ls.length + 1 := by simp at hj'; omega
      rwa [show (ls ++ [x]).take (ls.length + 1) = ls ++ [x] by simp]
    · rw [Sys.run_take_snoc sys ls x hge]; exact h4 j hj hge

theorem RelBy.op_of_missed {b : RelBy} (h : b.missed = true) : b.op = .deq := by
  cases b with
  | sc k s => cases h
  | unlink => rfl

theorem Cont.op_of_missed {k : Cont} (h : k.missed = true) : k.op = .deq := by
  cases k with
  | transfer _ _ _ | setToBeFreed _ => cases h
  | release _ b | setNLPred _ _ b => exact RelBy.op_of_missed h

theorem status_of_missed (h : missed l = true) : status l = .busy .deq := by
  cases l with
  | rel nd b => exact congrArg _ (RelBy.op_of_missed h)
  | tag1 nd k => exact congrArg _ (Cont.op_of_missed h)
  | tag2 nd k _ => exact congrArg _ (Cont.op_of_missed h)
  | tag3 nd k _ _ => exact congrArg _ (Cont.op_of_missed h)
  | tag4 nd k _ _ _ => exact congrArg _ (Cont.op_of_missed h)
  | tag5 nd k _ => exact congrArg _ (Cont.op_of_missed h)
  | unl1 _ _ | unl2 _ _ _ | unl3 _ _ => rfl
  | _ => cases h

/-! ## Linearization points -/

def ScCall.effect (m : Mem) (k : ScCall) (success : Bool) : Option Res :=
  match k.ctx with
  | .enq _ _ => if k.own then some (.enq true) else none
  | .deq => if success then some (.deq (some (m.node k.nd).val)) else none

def RelBy.effect (m : Mem) : RelBy → Option Res
  | .sc k success => k.effect m success
  | .unlink => none

def Cont.effect (m : Mem) : Cont → Option Res
  | .transfer _ k success => k.effect m success
  | .release _ by_ | .setNLPred _ _ by_ => by_.effect m
  | .setToBeFreed v => some (.deq (some v))

/-- the result a call is committed to: `enq` once its node is linked, `deq` once its slot cas has succeeded -/
def effect (m : Mem) : Loc → Option Res
  | .deq2 next => some (.deq (some (m.node next).val))
  | .sc1 k | .sc2 k _ => k.effect m false
  | .sc3 k s | .sc4 k s _ | .sc5 k s _ => k.effect m s
  | .rel _ by_ => by_.effect m
  | .tag1 _ k | .tag2 _ k _ | .tag3 _ k _ _ | .tag4 _ k _ _ _ | .tag5 _ k _ => k.effect m
  | _ => none

/-- a step that neither links nor takes: the call goes on with the same commitment, returns what it is committed to, or
returns false without one -/
inductive Turn (op : Op) (e : Option Res) (miss : Bool) (m : Mem) (l : Loc) : Prop where
  | stay : status l = .busy op → effect m l = e → missed l = miss → Turn op e miss m l
  | ret (r : Res) : status l = .done op r → e = some r → Turn op e miss m l
  | fail : op = .deq → miss = true → e = none → status l = .done .deq (.deq none) → Turn op e miss m l

theorem turn_afterSC (m : Mem) (k : ScCall) (s : Bool) : Turn k.ctx.op (k.effect m s) false m (afterSC k s) := by
  obtain ⟨c, nd, v, n, o⟩ := k
  cases c with
  | enq v nd =>
    cases o with
    | true => exact .ret _ rfl rfl
    | false => exact .stay rfl rfl rfl
  | deq => cases s <;> exact .stay rfl rfl rfl

theorem turn_afterRelease (m : Mem) (b : RelBy) : Turn b.op (b.effect m) b.missed m (afterRelease b) := by
  cases b with
  | sc k s => exact turn_afterSC m k s
  | unlink => exact .fail rfl rfl rfl rfl

theorem freeIf_node (m : Mem) (post : ExitTag) (nd : ℕ) : (freeIf m post nd).node = m.node := by
  unfold freeIf; split_ifs <;> rfl

/-- commitments depend on the memory only through the values of the nodes -/
theorem ScCall.effect_congr (h : ∀ a, (m'.node a).val = (m.node a).val) (k : ScCall) (s : Bool) :
    k.effect m' s = k.effect m s := by
  unfold ScCall.effect; rw [h]

theorem RelBy.effect_congr (h : ∀ a, (m'.node a).val = (m.node a).val) (b : RelBy) :
    b.effect m' = b.effect m := by
  cases b with
  | sc k s => exact k.effect_congr h s
  | unlink => rfl

theorem Cont.effect_congr (h : ∀ a, (m'.node a).val = (m.node a).val) (k : Cont) :
    k.effect m' = k.effect m := by
  cases k with
  | transfer _ k s => exact k.effect_congr h s
  | release _ b | setNLPred _ _ b => exact b.effect_congr h
  | setToBeFreed v => rfl

theorem casExit_val (m : Mem) (nd : ℕ) (post : ExitTag) (a : ℕ) :
    ((casExit m nd post).node a).val = (m.node a).val := by
  by_cases ha : a = nd
  · subst ha; simp [casExit]
  · simp [casExit, Function.update_of_ne ha]

theorem turn_afterTag (m : Mem) (nd : ℕ) (post : ExitTag) (k : Cont) :
    Turn k.op (k.effect m) k.missed (afterTag m nd post k).1 (afterTag m nd post k).2 := by
  cases k with
  | transfer c k s => exact .stay rfl rfl rfl
  | release p b =>
    simp only [afterTag]
    split_ifs
    · exact .stay rfl rfl rfl
    · have h := turn_afterRelease (freeIf m post nd) b
      rwa [RelBy.effect_congr (m := m) (fun a => by rw [freeIf_node])] at h
  | setNLPred nd' post' b =>
    have h := turn_afterRelease (freeIf (freeIf m post nd) post' nd') b
    rwa [RelBy.effect_congr (m := m) (fun a => by rw [freeIf_node, freeIf_node])] at h
  | setToBeFreed v => exact .ret _ rfl rfl

/-- the steps inside a call that neither link nor take, and are not the empty test -/
theorem exec_turn {op : Op} (hb : status l = .busy op) (h1 : linkEvent m l .step = none)
    (h2 : takeEvent m l .step = none) (h3 : ¬ ∃ myver mynode, l = .deq1 myver mynode ∧ (m.node mynode).next = NULL) :
    Turn op (effect m l) (missed l) (exec m l).1 (exec m l).2 := by
  cases l with
  | idle | ret _ _ => cases hb
  | ll4 c e node =>
    cases hb
    simp only [exec]
    split_ifs
    · cases c <;> exact .stay rfl rfl rfl
    · exact .stay rfl rfl rfl
  | enq2 v nd myver mynode =>
    cases hb
    simp only [linkEvent] at h1
    split_ifs at h1 with hn
    simp only [exec, hn, if_false]
    exact .stay rfl rfl rfl
  | deq1 myver mynode =>
    cases hb
    simp only [exec, show (m.node mynode).next ≠ NULL from fun e => h3 ⟨_, _, rfl, e⟩, if_false]
    exact .stay rfl rfl rfl
  | sc2 k p =>
    cases hb
    rw [takeEvent_sc2] at h2
    simp only [exec]
    split_ifs with he
    · -- on `q->tail` the outcome of the slot cas does not matter to `enq`
      split_ifs at h2 with hc
      refine .stay rfl ?_ rfl
      show k.effect _ true = k.effect m false
      have hne : k.ctx ≠ .deq := fun e => hc ⟨e, he⟩
      unfold ScCall.effect
      cases e : k.ctx with
      | enq v nd => rfl
      | deq => exact absurd e hne
    · exact .stay rfl rfl rfl
  | sc4 k s ver | unl2 myver mynode ver => cases hb; simp only [exec]; split_ifs <;> exact .stay rfl rfl rfl
  | sc5 k s e =>
    cases hb
    simp only [exec]
    split_ifs
    · exact .stay rfl (ScCall.effect_congr (fun a => by simp [Mem.setEntry]) k s) rfl
    · exact .stay rfl rfl rfl
  | tag5 nd k pre =>
    cases hb
    simp only [exec]
    split_ifs
    · have h := turn_afterTag (casExit m nd (k.post pre)) nd (k.post pre) k
      rwa [Cont.effect_congr (casExit_val m nd _)] at h
    · exact .stay rfl rfl rfl
  | unl3 mynode e =>
    cases hb
    simp only [exec]
    split_ifs
    · exact .fail rfl rfl rfl rfl
    · exact .stay rfl rfl rfl
  | _ => cases hb; exact .stay rfl rfl rfl

/-- the link: `enq` is committed from here on -/
theorem exec_link (h : linkEvent m l a = some v) :
    a = .step ∧ status l = .busy (.enq v) ∧ effect m l = none ∧ missed l = false ∧
      status (exec m l).2 = .busy (.enq v) ∧ effect (exec m l).1 (exec m l).2 = some (.enq true) ∧
      missed (exec m l).2 = false := by
  cases a <;> cases l <;> try cases h
  case step.enq2 w nd myver mynode =>
    simp only [linkEvent] at h
    split_ifs at h with hn
    cases h
    simp only [exec, hn, if_true]
    exact ⟨trivial, rfl, rfl, rfl, rfl, rfl, rfl⟩

/-- the successful slot cas on `q->head`: `deq` is committed from here on -/
theorem exec_take (h : takeEvent m l a = some v) :
    a = .step ∧ status l = .busy .deq ∧ effect m l = none ∧ missed l = false ∧ status (exec m l).2 = .busy .deq ∧
      effect (exec m l).1 (exec m l).2 = some (.deq (some v)) ∧ missed (exec m l).2 = false := by
  cases a <;> cases l <;> try cases h
  case step.sc2 k p =>
    rw [takeEvent_sc2] at h
    split_ifs at h with hc
    cases h
    obtain ⟨c, nd, ver, n, o⟩ := k
    obtain rfl : c = .deq := hc.1
    have he : noncur (m.var .deq) ver = p := hc.2
    simp only [exec, he, if_true]
    exact ⟨trivial, rfl, rfl, rfl, rfl, rfl, rfl⟩

/-- the empty test: the only way to a failing return -/
theorem exec_readNull {myver mynode : ℕ} (h : (m.node mynode).next = NULL) :
    exec m (.deq1 myver mynode) = (m, .unl1 myver mynode) := by
  simp only [exec, h, if_true]

/-- only the empty test, or a step of a `deq` that has done it, leads to a `missed` point -/
theorem step_missed (h : missed (step t m l a).2 = true) :
    missed l = true ∨ ∃ myver mynode, a = .step ∧ l = .deq1 myver mynode ∧ (m.node mynode).next = NULL := by
  cases a with
  | invoke op =>
    simp only [step] at h
    split_ifs at h
    · cases op <;> cases h
    · exact .inl h
  | oom =>
    simp only [step] at h
    split at h
    · cases h
    · exact .inl h
  | step =>
    change missed (exec m l).2 = true at h
    by_cases h3 : ∃ myver mynode, l = .deq1 myver mynode ∧ (m.node mynode).next = NULL
    · obtain ⟨myver, mynode, h3⟩ := h3
      exact .inr ⟨myver, mynode, rfl, h3⟩
    · have hs := status_of_missed h
      cases h1 : linkEvent m l .step with
      | some v => rw [(exec_link h1).2.2.2.2.2.2] at h; cases h
      | none =>
        cases h2 : takeEvent m l .step with
        | some v => rw [(exec_take h2).2.2.2.2.2.2] at h; cases h
        | none =>
          cases hb : status l with
          | idle | done op r => cases l <;> cases hb; cases h
          | busy op =>
            cases exec_turn hb h1 h2 h3 with
            | stay _ _ h4 => exact .inl (h4 ▸ h)
            | ret r h4 _ => rw [h4] at hs; cases hs
            | fail _ h4 _ _ => exact .inl h4

/-- the empty test succeeds only on an empty queue -/
theorem contents_nil_of_null (h : Inv N m) {myver mynode : ℕ}
    (ha : Asrt N m (.deq1 myver mynode)) (hn : (m.node mynode).next = NULL) : contents m = [] := by
  have hlast := h.next_null ha.1 hn
  obtain ⟨d, hd⟩ := h.taken
  have hge : myver ≤ d := by
    rcases hd with ⟨rfl, -⟩ | ⟨rfl, -⟩
    · exact ha.2
    · exact ha.2.trans (Nat.le_succ _)
  rw [contents_eq h hd, List.drop_eq_nil_of_le (by omega), List.map_nil]

theorem loc_snoc (ls : List (ℕ × Act)) (t : ℕ) (a : Act) :
    (sys.run (ls ++ [(t, a)])).loc t = (step t (sys.run ls).sh ((sys.run ls).loc t) a).2 := by
  rw [Sys.run_snoc, Sys.next_loc_self]; rfl

/-- **Every `deq` on its way to return false read `head->next == NULL` on an empty queue.** -/
theorem sawNull_run (ls : List (ℕ × Act)) (t : ℕ) (h : missed ((sys.run ls).loc t) = true) : ReadNull t ls := by
  induction ls using List.reverseRecOn with
  | nil => cases h
  | append_singleton ls x ih =>
    obtain ⟨u, a⟩ := x
    have hb : queue.Busy ((sys.run (ls ++ [(u, a)])).loc t) := ⟨_, status_of_missed h⟩
    by_cases hu : t = u
    swap
    · rw [Sys.run_snoc, Sys.next_loc_ne sys _ _ hu] at h
      exact (ih h).snoc hb
    subst hu
    rw [loc_snoc] at h
    rcases step_missed h with h | ⟨myver, mynode, rfl, hl, hn⟩
    · exact (ih h).snoc hb
    · obtain ⟨N, hI, hA, -⟩ := inv_run ls
      have hAt := hA t
      rw [hl] at hAt
      have hrun : sys.run ((ls ++ [(t, AllocAct.step)]).take ls.length) = sys.run ls := by
        rw [Sys.run_take_snoc sys ls _ le_rfl, Sys.run_take_length]
      refine ⟨ls.length, by simp, by simp, ?_, ?_, fun j hj hj' => ?_⟩
      · rw [hrun]; exact ⟨myver, mynode, hl, hn⟩
      · rw [hrun]; exact contents_nil_of_null hI hAt hn
      · rcases hj.eq_or_lt with rfl | hlt
        · rw [hrun, hl]; exact ⟨.deq, rfl⟩
        · obtain rfl : j = ls.length + 1 := by simp at hj'; omega
          rwa [List.take_of_length_le (by simp)]

theorem not_busy_of_canInvoke (h : canInvoke l) : ¬ queue.Busy l := by
  rintro ⟨op, hop⟩
  cases l with
  | idle | ret _ _ => cases hop
  | _ => cases h

/-- **Every step is of one of the kinds.** -/
theorem lpStep (ls : List (ℕ × Act)) (t : ℕ) (a : Act) : queue.LPStep sys effect ls t a := by
  apply Object.StepKind.lpStep
  have hc := contents_snoc ls t a
  have hsaw := sawNull_run ls t
  rw [Sys.run_snoc, Sys.next_sh] at hc
  change FifoStep _ (contents (step t (sys.run ls).sh ((sys.run ls).loc t) a).1) _ _ at hc
  change Object.StepKind queue _ _ _ _ (step t (sys.run ls).sh ((sys.run ls).loc t) a).1
    (step t (sys.run ls).sh ((sys.run ls).loc t) a).2
  have hnow : ∀ op, status ((sys.run ls).loc t) = .busy op → queue.Busy ((sys.run ls).loc t) := fun op h => ⟨op, h⟩
  obtain ⟨l, hl⟩ : ∃ l, (sys.run ls).loc t = l := ⟨_, rfl⟩
  obtain ⟨m, hm⟩ : ∃ m, (sys.run ls).sh = m := ⟨_, rfl⟩
  rw [hl, hm] at hc ⊢
  rw [hl] at hsaw hnow
  cases a with
  | invoke op =>
    by_cases hi : canInvoke l
    · simp only [step, hi, if_true]
      exact .outside (not_busy_of_canInvoke hi) rfl fun _ => by cases op <;> rfl
    · simp only [step, hi]
      exact .stutter
  | oom =>
    cases l with
    | enq0 v => exact .ret (.enq v) (.enq false) rfl rfl rfl (.inr ⟨rfl, Sys.Since.now (hl ▸ hnow _ rfl) rfl⟩)
    | _ => exact .stutter
  | step =>
    change FifoStep _ (contents (exec m l).1) _ _ at hc
    change Object.StepKind queue _ _ _ _ (exec m l).1 (exec m l).2
    cases h1 : linkEvent m l .step with
    | some v =>
      obtain ⟨-, e1, e2, -, e3, e4, -⟩ := exec_link h1
      exact .commit _ (.enq true) e1 e2 (hc.link_ne h1) (hc.link h1) e3 e4
    | none =>
      cases h2 : takeEvent m l .step with
      | some v =>
        obtain ⟨-, e1, e2, -, e3, e4, -⟩ := exec_take h2
        exact .commit _ (.deq (some v)) e1 e2 (hc.take_ne h2) (hc.take h2) e3 e4
      | none =>
        have hq : contents (exec m l).1 = contents m := hc.quiet h1 h2
        cases hb : status l with
        | idle | done op r => cases l <;> cases hb; exact .stutter
        | busy op =>
          by_cases h3 : ∃ myver mynode, l = .deq1 myver mynode ∧ (m.node mynode).next = NULL
          · obtain ⟨myver, mynode, rfl, hn⟩ := h3
            cases hb
            rw [exec_readNull hn]
            exact .inside .deq rfl rfl rfl rfl
          · cases exec_turn hb h1 h2 h3 with
            | stay h4 h5 _ => exact .inside op hb hq h4 h5
            | ret r h4 h5 => exact .ret op r hb hq h4 (.inl h5)
            | fail h4 h5 h6 h7 =>
              subst h4
              refine .ret .deq (.deq none) hb hq h7 (.inr ⟨h6, ?_⟩)
              obtain ⟨k, hk, -, -, he, hin⟩ := hsaw h5
              exact ⟨k, hk.le, ⟨he, rfl⟩, hin⟩

/-- the nodes a committed result is read from are linked, so their values are fixed -/
theorem effect_stable {N' : List ℕ} {o : Option ℕ} (h : Ext N m N' m' o) (ha : Asrt N m l) :
    effect m' l = effect m l := by
  have hsc : ∀ (k : ScCall) (s : Bool), N[k.myver + 2]? = some k.nd → k.effect m' s = k.effect m s := by
    intro k s hk
    unfold ScCall.effect
    rw [h.val _ (mem_of_get hk)]
  have hby : ∀ b : RelBy, ByOk N m b → b.effect m' = b.effect m := by
    intro b hb
    cases b with
    | sc k s => exact hsc k s hb.1.2.1
    | unlink => rfl
  have hk : ∀ k : Cont, ContOk N m k → k.effect m' = k.effect m := by
    intro k hk
    cases k with
    | transfer _ k s => exact hsc k s hk.1.2.1
    | release _ b => exact hby b hk
    | setNLPred _ _ b => exact hby b hk.1
    | setToBeFreed _ => rfl
  cases l with
  | deq2 next => simp only [effect, h.val _ ha]
  | sc1 k => exact hsc k _ ha.2.1
  | sc2 k _ => exact hsc k _ ha.1.2.1
  | sc3 k s | sc4 k s _ => exact hsc k s ha.1.2.1
  | sc5 k s _ => exact hsc k s ha.1.1.2.1
  | rel _ b => exact hby b ha
  | tag1 _ k | tag2 _ k _ | tag3 _ k _ _ => exact hk k ha
  | tag4 _ k _ _ _ | tag5 _ k _ => exact hk k ha.1
  | _ => rfl

theorem queue_linearizable : queue.Linearizable sys := by
  refine Object.linearizable_of_lpStep (fun ⟨_, h⟩ => by cases h) (fun ls u a t _ _ => ?_) lpStep
  obtain ⟨N, h, hA, -⟩ := inv_run ls
  obtain ⟨N', hg, -⟩ := step_safe u a h (hA u)
  rw [Sys.run_snoc, Sys.next_sh]
  exact effect_stable hg.ext (hA t)

/-! ## The values returned -/

/-- thread t takes v at step k of its current call (or of the call it has just returned from) -/
def TakesAt (ls : List (ℕ × Act)) (t k : ℕ) (v : ℤ) : Prop :=
  k < ls.length ∧ ls[k]? = some (t, .step) ∧
    takeEvent (sys.run (ls.take k)).sh ((sys.run (ls.take k)).loc t) .step = some v ∧
    ∀ m, k ≤ m → m < ls.length → queue.Busy ((sys.run (ls.take m)).loc t)

theorem run_take_succ {x : ℕ × Act} (h : ls[k]? = some x) :
    sys.run (ls.take (k + 1)) = sys.run (ls.take k ++ [x]) := by
  rw [List.take_add_one, h]; rfl

/-- a step that takes a value changes the queue -/
theorem TakesAt.changes (h : TakesAt ls t k v) :
    k ∈ queue.Changes sys ls t := by
  obtain ⟨hk, hx, hv, hin⟩ := h
  refine ⟨hk, by rw [hx]; rfl, ?_, hin⟩
  rw [run_take_succ hx]
  exact (contents_snoc (ls.take k) t .step).take_ne hv

/-- and a step at which a `deq` changes the queue takes a value -/
theorem takesAt_of_changes (h : k ∈ queue.Changes sys ls t)
    (hv : contents (sys.run (ls.take k)).sh = v :: contents (sys.run (ls.take (k + 1))).sh) : TakesAt ls t k v := by
  obtain ⟨hk, hx, -, hin⟩ := h
  obtain ⟨⟨u, a⟩, hx', hu⟩ := Option.map_eq_some_iff.1 hx
  obtain rfl : u = t := hu
  rw [run_take_succ hx'] at hv
  rcases contents_snoc (ls.take k) u a with ⟨h1, -⟩ | ⟨w, h1, -⟩ | ⟨w, h1, -, h2⟩
  · rw [h1] at hv
    exact absurd (congrArg List.length hv) (by simp)
  · rw [h1] at hv
    have := congrArg List.length hv
    simp at this; omega
  · rw [h1] at hv
    cases hv
    obtain rfl := (exec_take h2).1
    exact ⟨hk, hx', h2, hin⟩

theorem effect_ne_none (m : Mem) (l : Loc) : effect m l ≠ some (.deq none) := by
  have hsc : ∀ (k : ScCall) (s : Bool), k.effect m s ≠ some (.deq none) := by
    intro k s
    unfold ScCall.effect
    split <;> split_ifs <;> simp
  have hby : ∀ b : RelBy, b.effect m ≠ some (.deq none) := by
    intro b
    cases b with
    | sc k s => exact hsc k s
    | unlink => simp [RelBy.effect]
  have hk : ∀ k : Cont, k.effect m ≠ some (.deq none) := by
    intro k
    cases k with
    | transfer _ k s => exact hsc k s
    | release _ b | setNLPred _ _ b => exact hby b
    | setToBeFreed v => simp [Cont.effect]
  cases l <;> simp only [effect] <;> first | exact hsc _ _ | exact hby _ | exact hk _ | simp

/-- only a `deq` that has read NULL returns false -/
theorem missed_of_fail (hb : status l = .busy .deq)
    (hd : status (step t m l a).2 = .done .deq (.deq none)) : missed l = true := by
  cases a with
  | invoke op =>
    have hc : canInvoke l = false := by
      by_contra hc
      exact not_busy_of_canInvoke (by simpa using hc) ⟨_, hb⟩
    simp only [step, hc, Bool.false_eq_true, if_false] at hd
    rw [hb] at hd; cases hd
  | oom =>
    simp only [step] at hd
    split at hd
    · cases hb
    · rw [hb] at hd; cases hd
  | step =>
    change status (exec m l).2 = _ at hd
    cases h1 : linkEvent m l .step with
    | some v => rw [(exec_link h1).2.2.2.2.1] at hd; cases hd
    | none =>
      cases h2 : takeEvent m l .step with
      | some v => rw [(exec_take h2).2.2.2.2.1] at hd; cases hd
      | none =>
        by_cases h3 : ∃ myver mynode, l = .deq1 myver mynode ∧ (m.node mynode).next = NULL
        · obtain ⟨myver, mynode, rfl, hn⟩ := h3
          rw [exec_readNull hn] at hd; cases hd
        · cases exec_turn hb h1 h2 h3 with
          | stay h4 _ _ => rw [h4] at hd; cases hd
          | ret r h4 h5 =>
            rw [h4] at hd
            cases hd
            exact absurd h5 (effect_ne_none m l)
          | fail _ h4 _ _ => exact h4

/-- **A `deq` returns the value it has taken**, and it takes at most one. -/
theorem deq_returns_taken {r : Option ℤ}
    (hb : status ((sys.run ls).loc t) = .busy .deq)
    (hd : status ((sys.run (ls ++ [(t, a)])).loc t) = .done .deq (.deq r)) :
    (∀ v, r = some v ↔ ∃ k, TakesAt (ls ++ [(t, a)]) t k v) ∧
      ∀ k k' v v', TakesAt (ls ++ [(t, a)]) t k v → TakesAt (ls ++ [(t, a)]) t k' v' → k = k' := by
  rcases queue_linearizable.ret ls t a .deq (.deq r) hb hd with ⟨k, hk, hs⟩ | ⟨hk, j, -, hs, -⟩
  · have hmem : k ∈ queue.Changes sys (ls ++ [(t, a)]) t := by rw [hk]; rfl
    have hone : ∀ j w, TakesAt (ls ++ [(t, a)]) t j w → j = k := fun j w hj => by
      have := hj.changes; rw [hk] at this; exact this
    refine ⟨fun v => ⟨fun hr => ?_, fun ⟨j, hj⟩ => ?_⟩, fun j j' w w' h h' => (hone j w h).trans (hone j' w' h').symm⟩
    · subst hr; exact ⟨k, takesAt_of_changes hmem hs⟩
    · cases r with
      | none => exact absurd hs.2 hmem.2.2.1
      | some w =>
        have h2 := takesAt_of_changes hmem hs
        obtain rfl := hone j v hj
        have := hj.2.2.1.symm.trans h2.2.2.1
        cases this; rfl
  · have hno : ∀ j w, ¬ TakesAt (ls ++ [(t, a)]) t j w := fun j w hj => by
      have := hj.changes; rw [hk] at this; exact this
    refine ⟨fun v => ⟨fun hr => ?_, fun ⟨j, hj⟩ => absurd hj (hno j v)⟩, fun j _ w _ h _ => absurd h (hno j w)⟩
    subst hr
    exact absurd (congrArg List.length (show contents _ = v :: contents _ from hs)) (by simp)

/-- **The queue is FIFO under any interleaving.** Every call takes effect at one instant inside it as on a sequential
queue; the values taken, in the order of the successful SCs on `q->head`, are a prefix of the values linked, in the
order of their cas on `tail->next`, and the rest are the contents; a `deq` returns true exactly if it has taken a
value, which is then the one it returns, and it takes at most one; and a `deq` that returns false read
`head->next == NULL` at a step at which the queue was empty. -/
theorem queue_fifo :
    queue.Linearizable sys ∧ ∀ ls : List (ℕ × Act),
      dequeued ls <+: enqueued ls ∧ enqueued ls = dequeued ls ++ contents (sys.run ls).sh ∧
      ∀ t a r, status ((sys.run ls).loc t) = .busy .deq →
        status ((sys.run (ls ++ [(t, a)])).loc t) = .done .deq (.deq r) →
        (∀ v, r = some v ↔ ∃ k, TakesAt (ls ++ [(t, a)]) t k v) ∧
        (∀ k k' v v', TakesAt (ls ++ [(t, a)]) t k v → TakesAt (ls ++ [(t, a)]) t k' v' → k = k') ∧
        (r = none → ReadNull t ls) := by
  refine ⟨queue_linearizable, fun ls => ⟨⟨_, (enqueued_eq ls).symm⟩, enqueued_eq ls, fun t a r hb hd => ?_⟩⟩
  obtain ⟨h1, h2⟩ := deq_returns_taken hb hd
  refine ⟨h1, h2, fun hr => sawNull_run ls t ?_⟩
  subst hr
  rw [loc_snoc] at hd
  exact missed_of_fail hb hd

end AlgorithmCollection.LLSCLockFreeQueue
