/-
`deq` of the LL/SC queue, run by one thread while the others take no step.

The loops of LL, SC and of the exit tags leave after one round then: nothing comes between a load and its cas
(`ll_path`, `tag_path`, `sc_bump`). The loop of `unlink` reads the entry tag until its version is not the one of the LL.
Only an SC on `q->head` changes the version, so a thread that runs alone stays in this loop (`unlink_stuck`).

- `round_empty`, `round_take`, `round_help`: the three ways a round of `deq` can go. The current node of `q->head` has no
  next node; or the SC takes the next node; or the other slot already has the next node, of an SC that has not moved the
  version on yet: the round does it, and the next round works on that node.
- `deq_alone_iff`: `deq` returns iff the queue is not empty. It should return false on an empty queue, and does not
  return there.
-/
import AlgorithmCollection.Conc.Solo
import AlgorithmCollection.Queue.LLSCLockFreeQueueFifo

namespace AlgorithmCollection.LLSCLockFreeQueue

open Conc

/-- the steps of a thread when the others take none -/
def alone (s : Mem × Loc) : Mem × Loc := exec s.1 s.2

/-- a thread alone comes from one state to the other -/
abbrev Goes (x y : Mem × Loc) : Prop := Path alone (fun _ => True) x y

/-- `deq`, run alone, returns; it returns false iff the queue is empty, and leaves it empty then -/
def DeqReturns (m : Mem) : Prop :=
  ∃ m' r, Goes (m, entry .deq) (m', .ret .deq (.deq r)) ∧ (r = none ↔ contents m = []) ∧
    (r = none → contents m' = contents m)

section Rounds

variable {m m' : Mem}

theorem Goes.step {l : Loc} {y z : Mem × Loc} (h : exec m l = y) (t : Goes y z) : Goes (m, l) z := .cons trivial h t

/-! ## The functions on the tags -/

/-- LL, at the first try -/
theorem ll_path (m : Mem) (c : Ctx) :
    Goes (m, .ll1 c) (m.setEntry c ⟨(m.var c).entry.ver, (m.var c).entry.count + 1⟩,
      afterLL c (m.var c).entry.ver (current (m.var c) (m.var c).entry.ver)) := by
  have h1 : exec m (.ll1 c) = (m, .ll2 c (m.var c).entry.ver) := rfl
  have h2 : exec m (.ll2 c (m.var c).entry.ver) = (m, .ll3 c (m.var c).entry) := rfl
  have h3 : exec m (.ll3 c (m.var c).entry) =
      (m, .ll4 c (m.var c).entry (current (m.var c) (m.var c).entry.ver)) := rfl
  exact Goes.step h1 (Goes.step h2 (Goes.step h3 (Goes.step (if_pos rfl) .refl)))

/-- `transfer`, `release`, `setNLPred` and `setToBeFreed`, at the first try -/
theorem tag_path (m : Mem) (nd : ℕ) (k : Cont) :
    Goes (m, .tag1 nd k) (afterTag (casExit m nd (k.post (m.node nd).exit)) nd (k.post (m.node nd).exit) k) := by
  have h1 : exec m (.tag1 nd k) = (m, .tag2 nd k (m.node nd).exit.count) := rfl
  have h2 : exec m (.tag2 nd k (m.node nd).exit.count) =
      (m, .tag3 nd k (m.node nd).exit.count (m.node nd).exit.transfersLeft) := rfl
  have h3 : exec m (.tag3 nd k (m.node nd).exit.count (m.node nd).exit.transfersLeft) =
      (m, .tag4 nd k (m.node nd).exit.count (m.node nd).exit.transfersLeft (m.node nd).exit.nlP) := rfl
  have h4 : exec m (.tag4 nd k (m.node nd).exit.count (m.node nd).exit.transfersLeft (m.node nd).exit.nlP) =
      (m, .tag5 nd k (m.node nd).exit) := rfl
  exact Goes.step h1 (Goes.step h2 (Goes.step h3 (Goes.step h4 (Goes.step (if_pos ⟨rfl, rfl⟩) .refl))))

/-- m' differs from m in the exit tags of nodes and in what has been freed -/
structure SameLinks (m m' : Mem) : Prop where
  head : m'.head = m.head
  next : ∀ a, (m'.node a).next = (m.node a).next
  pred : ∀ a, (m'.node a).pred = (m.node a).pred

theorem SameLinks.trans {m'' : Mem} (h : SameLinks m m') (h' : SameLinks m' m'') : SameLinks m m'' :=
  ⟨h'.head.trans h.head, fun a => (h'.next a).trans (h.next a), fun a => (h'.pred a).trans (h.pred a)⟩

theorem sameLinks_casExit (m : Mem) (nd : ℕ) (post : ExitTag) : SameLinks m (casExit m nd post) := by
  have hnode : ∀ a, ((casExit m nd post).node a).next = (m.node a).next ∧
      ((casExit m nd post).node a).pred = (m.node a).pred := by
    intro a
    by_cases ha : a = nd
    · subst ha; simp [casExit]
    · simp [casExit, Function.update_of_ne ha]
  exact ⟨rfl, fun a => (hnode a).1, fun a => (hnode a).2⟩

theorem sameLinks_freeIf (m : Mem) (post : ExitTag) (nd : ℕ) : SameLinks m (freeIf m post nd) := by
  unfold freeIf
  split_ifs <;> exact ⟨rfl, fun _ => rfl, fun _ => rfl⟩

theorem release_path (m : Mem) (nd : ℕ) (b : RelBy) :
    ∃ m', Goes (m, .rel nd b) (m', afterRelease b) ∧ SameLinks m m' := by
  have h1 : exec m (.rel nd b) = (m, .tag1 nd (.release (m.node nd).pred b)) := rfl
  have htag := tag_path m nd (.release (m.node nd).pred b)
  have hcas := sameLinks_casExit m nd (Cont.post (m.node nd).exit (.release (m.node nd).pred b))
  revert htag hcas
  generalize casExit m nd (Cont.post (m.node nd).exit (.release (m.node nd).pred b)) = m1
  generalize Cont.post (m.node nd).exit (.release (m.node nd).pred b) = post
  generalize (m.node nd).pred = p at h1 ⊢
  intro htag hcas
  by_cases hc : clean post = true
  · -- CLEAN(post): setNLPred(pred_nd) comes before the return
    rw [show afterTag m1 nd post (.release p b) = (m1, .tag1 p (.setNLPred nd post b)) from if_pos hc] at htag
    refine ⟨_, Goes.step h1 (htag.trans (tag_path m1 p (.setNLPred nd post b))), hcas.trans ?_⟩
    exact ((sameLinks_casExit ..).trans (sameLinks_freeIf ..)).trans (sameLinks_freeIf ..)
  · rw [show afterTag m1 nd post (.release p b) = (freeIf m1 post nd, afterRelease b) from if_neg hc] at htag
    exact ⟨_, Goes.step h1 htag, hcas.trans (sameLinks_freeIf ..)⟩

/-! ## SC -/

/-- SC of `deq` past its slot cas moves the version on and releases the node -/
theorem sc_bump (m : Mem) (k : ScCall) (success : Bool) (hc : k.ctx = .deq) (hv : m.head.entry.ver = k.myver) :
    ∃ m', Goes (m, .sc3 k success) (m', afterSC k success) ∧
      SameLinks { m with head := { m.head with entry := ⟨k.myver + 1, 0⟩ } } m' := by
  obtain ⟨c, nd, v, n, own⟩ := k
  obtain rfl : c = .deq := hc
  generalize hm1 : ({ m with head := { m.head with entry := ⟨v + 1, 0⟩ } } : Mem) = m1
  have h3 : exec m (.sc3 ⟨.deq, nd, v, n, own⟩ success) = (m, .sc4 ⟨.deq, nd, v, n, own⟩ success m.head.entry.ver) := rfl
  have h4 : exec m (.sc4 ⟨.deq, nd, v, n, own⟩ success m.head.entry.ver) =
      (m, .sc5 ⟨.deq, nd, v, n, own⟩ success m.head.entry) := congrArg (Prod.mk m) (if_pos hv)
  have h5 : exec m (.sc5 ⟨.deq, nd, v, n, own⟩ success m.head.entry) =
      (m1, .tag1 n (.transfer m.head.entry.count ⟨.deq, nd, v, n, own⟩ success)) := by
    subst hm1
    refine (if_pos rfl).trans ?_
    rw [show m.head.entry.ver = v from hv]
    rfl
  have htag := tag_path m1 n (.transfer m.head.entry.count ⟨.deq, nd, v, n, own⟩ success)
  have hcas := sameLinks_casExit m1 n
    (Cont.post (m1.node n).exit (.transfer m.head.entry.count ⟨.deq, nd, v, n, own⟩ success))
  generalize casExit m1 n
    (Cont.post (m1.node n).exit (.transfer m.head.entry.count ⟨.deq, nd, v, n, own⟩ success)) = m2 at htag hcas
  have hver : m2.head.entry.ver ≠ v := by
    rw [hcas.head, ← hm1]
    exact Nat.succ_ne_self v
  -- the version has moved on: the loop leaves
  have h3' : exec m2 (.sc3 ⟨.deq, nd, v, n, own⟩ success) =
      (m2, .sc4 ⟨.deq, nd, v, n, own⟩ success m2.head.entry.ver) := rfl
  have h4' : exec m2 (.sc4 ⟨.deq, nd, v, n, own⟩ success m2.head.entry.ver) =
      (m2, .rel n (.sc ⟨.deq, nd, v, n, own⟩ success)) := congrArg (Prod.mk m2) (if_neg hver)
  obtain ⟨m3, hrel, hlinks⟩ := release_path m2 n (.sc ⟨.deq, nd, v, n, own⟩ success)
  exact ⟨m3, Goes.step h3 (Goes.step h4 (Goes.step h5 (htag.trans (Goes.step h3' (Goes.step h4' hrel))))),
    hcas.trans hlinks⟩

/-- the memory after LL on `q->head` -/
def loaded (m : Mem) : Mem := { m with head := { m.head with entry := ⟨m.head.entry.ver, m.head.entry.count + 1⟩ } }

/-- the current node of `q->head` -/
def cur (m : Mem) : ℕ := current m.head m.head.entry.ver

/-- the node in the other slot of `q->head` -/
def non (m : Mem) : ℕ := noncur m.head m.head.entry.ver

/-- a round up to the reading of `head->next` -/
theorem round_start (m : Mem) : Goes (m, .ll1 .deq) (loaded m, .deq1 m.head.entry.ver (cur m)) := ll_path m .deq

/-- the SC call of a round -/
def scCall (m : Mem) : ScCall := ⟨.deq, (m.node (cur m)).next, m.head.entry.ver, cur m, false⟩

variable (hn : (m.node (cur m)).next ≠ NULL)

include hn

/-- a round up to the slot cas of its SC -/
theorem round_sc : Goes (m, .ll1 .deq) (loaded m, .sc2 (scCall m) (m.node (cur m)).pred) := by
  have h1 : exec (loaded m) (.deq1 m.head.entry.ver (cur m)) = (loaded m, .sc1 (scCall m)) :=
    congrArg (Prod.mk (loaded m)) (if_neg hn)
  have h2 : exec (loaded m) (.sc1 (scCall m)) = (loaded m, .sc2 (scCall m) (m.node (cur m)).pred) := rfl
  exact (round_start m).trans (Goes.step h1 (Goes.step h2 .refl))

/-! ## The three kinds of rounds -/

/-- **The SC takes the next node**, and `deq` returns true. -/
theorem round_take (hp : non m = (m.node (cur m)).pred) : ∃ m' v, Goes (m, .ll1 .deq) (m', .ret .deq (.deq (some v))) := by
  generalize hm1 : (loaded m).setVar .deq (setNoncur (loaded m).head m.head.entry.ver (m.node (cur m)).next) = m1
  have h1 : exec (loaded m) (.sc2 (scCall m) (m.node (cur m)).pred) = (m1, .sc3 (scCall m) true) := by
    subst hm1
    exact if_pos hp
  have hver : m1.head.entry.ver = (scCall m).myver := by
    subst hm1
    change (setNoncur (loaded m).head _ _).entry.ver = _
    rw [setNoncur_entry]
    rfl
  obtain ⟨m2, hbump, -⟩ := sc_bump m1 (scCall m) true rfl hver
  have h2 : exec m2 (.deq2 (scCall m).nd) = (m2, .tag1 (scCall m).nd (.setToBeFreed (m2.node (scCall m).nd).val)) := rfl
  have hend := tag_path m2 (scCall m).nd (.setToBeFreed (m2.node (scCall m).nd).val)
  exact ⟨_, _, (round_sc hn).trans (Goes.step h1 (hbump.trans (Goes.step h2 hend)))⟩

/-- **The next node is installed already**: the round moves the version on, and the next one works on that node. -/
theorem round_help (hp : non m ≠ (m.node (cur m)).pred) :
    ∃ m', Goes (m, .ll1 .deq) (m', .ll1 .deq) ∧ cur m' = non m ∧ non m' = cur m ∧
      (∀ a, (m'.node a).next = (m.node a).next) ∧ ∀ a, (m'.node a).pred = (m.node a).pred := by
  have h1 : exec (loaded m) (.sc2 (scCall m) (m.node (cur m)).pred) = (loaded m, .sc3 (scCall m) false) := if_neg hp
  obtain ⟨m', hbump, hlinks⟩ := sc_bump (loaded m) (scCall m) false rfl rfl
  refine ⟨m', (round_sc hn).trans (Goes.step h1 hbump), ?_, ?_, hlinks.next, hlinks.pred⟩
  · unfold cur
    rw [hlinks.head]
    exact current_succ m.head m.head.entry.ver
  · unfold non
    rw [hlinks.head]
    exact noncur_succ m.head m.head.entry.ver

omit hn

/-- the loop of `unlink` does not leave while the version is the one of the LL -/
theorem unlink_stuck {v n : ℕ} (hv : m.head.entry.ver = v) (s : Mem × Loc)
    (hs : s = (m, .unl1 v n) ∨ s = (m, .unl2 v n v)) : alone s = (m, .unl1 v n) ∨ alone s = (m, .unl2 v n v) := by
  rcases hs with rfl | rfl
  · right
    change (m, Loc.unl2 v n m.head.entry.ver) = _
    rw [hv]
  · left
    exact congrArg (Prod.mk m) (if_pos rfl)

/-- **The current node has no next node**: `deq` does not return. -/
theorem round_empty (hn : (m.node (cur m)).next = NULL) (r : Option ℤ) : ¬ Goes (m, .ll1 .deq) (m', .ret .deq (.deq r)) := by
  intro hp
  have h1 : exec (loaded m) (.deq1 m.head.entry.ver (cur m)) = (loaded m, .unl1 m.head.entry.ver (cur m)) :=
    congrArg (Prod.mk (loaded m)) (if_pos hn)
  refine hp.not_of_trap (fun s => s = (loaded m, .unl1 m.head.entry.ver (cur m)) ∨
    s = (loaded m, .unl2 m.head.entry.ver (cur m) m.head.entry.ver)) ((round_start m).trans (Goes.step h1 .refl))
    (.inl rfl) (unlink_stuck rfl) rfl ?_
  rintro (h | h) <;> cases h

/-! ## `deq` -/

/-- an entry of the other slot that is not the pred of the current node is its next node -/
theorem Inv.installed {N : List ℕ} (h : Inv N m) (hp : non m ≠ (m.node (cur m)).pred) :
    (m.node (cur m)).next = non m ∧ non m ≠ NULL ∧ (m.node (non m)).pred = cur m := by
  have hcur : N[m.head.entry.ver + 1]? = some (cur m) := h.head.cur
  have hnon : N[m.head.entry.ver + 2]? = some (non m) := by
    rcases h.head.non with hn | hn
    · exact absurd (h.pred _ _ _ hn hcur).symm hp
    · exact hn
  refine ⟨?_, (h.addr _ (List.mem_of_getElem? hnon)).1.ne', h.pred _ _ _ hcur hnon⟩
  rw [h.next _ _ hcur, hnon]
  rfl

theorem contents_nil_iff (h : 0 < m.fresh) : contents m = [] ↔ (m.node (front m)).next = NULL := by
  obtain ⟨f, hf⟩ := Nat.exists_eq_succ_of_ne_zero h.ne'
  rw [contents, List.map_eq_nil_iff, chain, hf]
  simp [walk]

theorem front_of_pred (hp : non m = (m.node (cur m)).pred) : front m = cur m := if_pos hp

theorem front_of_installed (hp : non m ≠ (m.node (cur m)).pred) : front m = non m := if_neg hp

/-- a node is behind the front: `deq` returns it -/
theorem goes_of_front {N : List ℕ} (h : Inv N m) (hn : (m.node (front m)).next ≠ NULL) :
    ∃ m' v, Goes (m, .ll1 .deq) (m', .ret .deq (.deq (some v))) := by
  by_cases hp : non m = (m.node (cur m)).pred
  · rw [front_of_pred hp] at hn
    exact round_take hn hp
  · rw [front_of_installed hp] at hn
    obtain ⟨hnext, hne, hpred⟩ := h.installed hp
    obtain ⟨m1, hgo, hcur, hnon, hnx, hpr⟩ := round_help (by rw [hnext]; exact hne) hp
    obtain ⟨m2, v, hret⟩ := round_take (m := m1) (by rw [hcur, hnx]; exact hn) (by rw [hcur, hnon, hpr]; exact hpred.symm)
    exact ⟨m2, v, hgo.trans hret⟩

/-- no node is behind the front: `deq` does not return -/
theorem not_goes_of_front {N : List ℕ} (h : Inv N m) (hn : (m.node (front m)).next = NULL) (r : Option ℤ) :
    ¬ Goes (m, .ll1 .deq) (m', .ret .deq (.deq r)) := by
  by_cases hp : non m = (m.node (cur m)).pred
  · rw [front_of_pred hp] at hn
    exact round_empty hn r
  · rw [front_of_installed hp] at hn
    obtain ⟨hnext, hne, -⟩ := h.installed hp
    obtain ⟨m1, hgo, hcur, -, hnx, -⟩ := round_help (by rw [hnext]; exact hne) hp
    intro hret
    exact round_empty (m := m1) (by rw [hcur, hnx]; exact hn) r (hret.rest hgo rfl)

end Rounds

/-- **`deq` run alone**, from any reachable state: it returns, with false exactly for an empty queue, iff the queue is not
empty. -/
theorem deq_alone_iff (ls : List (ℕ × Act)) : DeqReturns (sys.run ls).sh ↔ contents (sys.run ls).sh ≠ [] := by
  obtain ⟨N, h, -⟩ := inv_run ls
  generalize (sys.run ls).sh = m at h
  constructor
  · rintro ⟨m', r, hgo, -⟩ hnil
    exact not_goes_of_front h ((contents_nil_iff h.fresh).1 hnil) r hgo
  · intro hne
    obtain ⟨m', v, hgo⟩ := goes_of_front h fun hn => hne ((contents_nil_iff h.fresh).2 hn)
    exact ⟨m', some v, hgo, iff_of_false nofun hne, nofun⟩

/-- on a queue that has just been made, `deq` stays in the loop of `unlink` -/
theorem deq_empty_stuck : contents (sys.run []).sh = [] ∧
    ∀ m' r, ¬ Goes ((sys.run []).sh, entry .deq) (m', .ret .deq (.deq r)) :=
  ⟨by decide, fun _ r => round_empty (m := initQueue) rfl r⟩

end AlgorithmCollection.LLSCLockFreeQueue
