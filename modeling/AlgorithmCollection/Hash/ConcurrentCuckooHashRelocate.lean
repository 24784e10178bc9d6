/-
`relocate` of `ConcurrentCuckooHash` beside other threads.

`relocate` reads the list, its first node and the node's key without a mutex. `relocate_null`: another thread can empty the
list before, and the thread follows NULL. `relocate_safe`: in runs in which no other thread resizes the tables or takes a node
from that list meanwhile (`Undisturbed`), no thread follows NULL, every node that `relocate` moves goes from one of the two
lists of its key in the present tables to the other one or back, and all mutexes are given back.
-/
import AlgorithmCollection.Hash.ConcurrentCuckooHashSteps

namespace AlgorithmCollection.ConcurrentCuckooHash

open Conc

/-- while the other thread is in `relocate` with a list, this one does not resize the tables or take a node from the list -/
def Undisturbed (m : Mem) (l : Loc) (_ : Act) (o : Loc) : Prop :=
  NoResize l o ∧ (target o.pc = none ∨ unlinks m l ≠ target o.pc)

instance Undisturbed.decidable (m : Mem) (l : Loc) (a : Act) (o : Loc) : Decidable (Undisturbed m l a o) :=
  inferInstanceAs (Decidable (_ ∧ _))

/-- a thread in its calls: it stops at most because the tables cannot grow; `relocate` finds its node, in one list of its key
under the present table size, and has the other list; and the thread holds the mutexes of its place in the program -/
structure RelocateSafe (P : Params) (t : ℕ) (m : Mem) (l : Loc) : Prop where
  faults : ∀ f, l.pc = .fault f → f = .wrap
  takes : ∀ x, l.pc = .take x → x.iSet = getList m x.i x.lockKey ∧
    ∃ m' y, deleteNode m x.iSet x.lockKey = .ok (m', y) ∧ ky m y = x.lockKey
  puts : ∀ x jSet y, l.pc = .put x jSet y →
    ky m y = x.lockKey ∧ x.iSet = getList m x.i (ky m y) ∧ jSet = getList m (1 - x.i) (ky m y)
  mutexes : (∀ f, l.pc ≠ .fault f) → ∀ i b, m.mtx i b = some t ↔ holds P l.op l.pc i b

section Safe

variable {P : Params} {t u : ℕ} {g g' : Ghost} {m m' : Mem} {op : Op} {pc : Pc} {l : Loc}

theorem unlinks_step (P : Params) (t : ℕ) (m : Mem) (l : Loc) (a : Act) :
    unlinks m ⟨(step P t m l a).2.op, l.pc⟩ = unlinks m l := by
  cases a with
  | step => rfl
  | invoke op =>
    simp only [step]
    split_ifs with ho
    · rcases outside_cases ho with e | ⟨r, e⟩ <;> simp only [unlinks, e]
    · rfl

/-- the list of a `relocate` is one of the tables -/
theorem At.live_target (hI : Inv P g m) (hA : At P g t m l) {q : Fin 2 × ℕ} (hq : target l.pc = some q) : live m q := by
  have hplace : ∀ key i, place m key i = q → live m q := fun key i e => e ▸ hI.holds.live_place key i
  have hw := hA.window
  cases e : l.pc with
  | release0 key k | release1 key k =>
    rw [e] at hw hq
    cases k with
    | relocate i hi round => cases hq; exact hplace key i hw
    | _ => cases hq
  | acquire0 j | acquire1 j =>
    rw [e] at hw hq
    cases j with
    | move x => cases hq; exact hplace _ _ hw.source
    | call nested => cases hq
  | table i hi round => rw [e] at hw hq; cases hq; exact hw
  | head i hi round iSet => rw [e] at hw hq; cases hq; exact hw.1
  | bucket i hi round iSet lockKey => rw [e] at hw hq; cases hq; exact hplace _ _ hw.2
  | take x | put x jSet y => rw [e] at hw hq; cases hq; exact hplace _ _ hw.source
  | _ => rw [e] at hq; cases hq

/-- another thread still finds its node -/
theorem Stepped.spotted_stable {y : Mem × Pc} (h : Stepped P t g m op pc g' y) (hI : Inv P g m) (hA : At P g u m l)
    (hr : isResize pc = true → target l.pc = none) (hu : target l.pc = none ∨ unlinks m ⟨op, pc⟩ ≠ target l.pc)
    (hs : Spotted g m l.pc) : Spotted g' y.1 l.pc := by
  have keep : ∀ q, target l.pc = some q → ∀ x ∈ g.cont q, x ∈ g'.cont q := by
    intro q hq
    have hne : isResize pc = false := by
      cases e : isResize pc with
      | true => rw [hr e] at hq; cases hq
      | false => rfl
    refine h.unlinked hne q fun e => ?_
    rcases hu with hu | hu
    · rw [hu] at hq; cases hq
    · exact hu (e.trans hq.symm)
  have some_node : ∀ q, target l.pc = some q → g.cont q ≠ [] → g'.cont q ≠ [] := by
    intro q hq hc
    obtain ⟨x, hx⟩ := List.exists_mem_of_ne_nil _ hc
    exact List.ne_nil_of_mem (keep q hq x hx)
  have its_node : ∀ q k, target l.pc = some q → (∃ x ∈ g.cont q, ky m x = k) → ∃ x ∈ g'.cont q, ky y.1 x = k := by
    intro q k hq ⟨x, hx, hk⟩
    have hlt := (hI.holds.lists.nodes q (hA.live_target hI hq) x hx).1
    exact ⟨x, keep q hq x hx, (h.keys x hlt).trans hk⟩
  cases e : l.pc with
  | release0 key k | release1 key k =>
    rw [e] at hs some_node
    cases k with
    | relocate i hi round => exact some_node _ rfl hs
    | _ => trivial
  | table i hi round | head i hi round iSet => rw [e] at hs some_node; exact some_node _ rfl hs
  | bucket i hi round iSet lockKey | take x => rw [e] at hs its_node; exact its_node _ _ rfl hs
  | acquire0 j | acquire1 j =>
    rw [e] at hs its_node
    cases j with
    | move x => exact its_node _ _ rfl hs
    | call nested => trivial
  | fault f => rw [e] at hs; exact hs
  | _ => trivial

end Safe

/-- every thread in `relocate` will find its node -/
structure Found (P : Params) (g : Ghost) (s : St Mem Loc) : Prop where
  base : Base P g s
  spotted : ∀ t, Spotted g s.sh (s.loc t).pc

/-- a step beside threads that it leaves undisturbed, and the key that it puts into the tables -/
theorem found_next {P : Params} {g : Ghost} {s : St Mem Loc} {x : ℕ × Act} (h : Found P g s)
    (hK : Sys.Beside Undisturbed s x) :
    ∃ g', Found P g' ((sys P).next s x) ∧
      ∀ key, g.map key = none → g'.map key ≠ none → key = (((sys P).next s x).loc x.1).op.key := by
  obtain ⟨t, a⟩ := x
  obtain ⟨g', hB', hst⟩ := base_next h.base t a fun u hu => (hK u hu).1
  refine ⟨g', ⟨hB', fun u => ?_⟩, fun key h1 h2 => (hst.inserted key h1 h2).1⟩
  by_cases hu : u = t
  · subst hu
    exact hst.spotted (h.spotted u)
  · have hop := unlinks_step P t s.sh (s.loc t) a
    rw [Sys.next_loc_self] at hst
    rw [Sys.next_loc_ne _ s _ hu]
    refine hst.spotted_stable h.base.inv (h.base.threads u) (hK u hu).1 ?_ (h.spotted u)
    change _ ∨ unlinks s.sh ⟨(step P t s.sh (s.loc t) a).2.op, (s.loc t).pc⟩ ≠ _
    rw [hop]
    exact (hK u hu).2

theorem init_found (P : Params) : Found P ⟨fun _ => [], fun _ => none, fun _ => none⟩ (sys P).init :=
  ⟨init_base P, fun _ => trivial⟩

theorem run_found {P : Params} {ls : List (ℕ × Act)} (hls : (sys P).Meets (Sys.Beside Undisturbed) ls) :
    ∃ g, Found P g ((sys P).run ls) := by
  refine (sys P).meets_inv _ (fun s => ∃ g, Found P g s) ⟨_, init_found P⟩ (fun s x h hx => ?_) ls hls
  obtain ⟨g, h⟩ := h
  obtain ⟨g', h', -⟩ := found_next h hx
  exact ⟨g', h'⟩

/-- **`relocate` beside threads that leave its list alone.** -/
theorem relocate_safe (P : Params) (ls : List (ℕ × Act)) (hls : (sys P).Meets (Sys.Beside Undisturbed) ls) (t : ℕ) :
    RelocateSafe P t ((sys P).run ls).sh (((sys P).run ls).loc t) := by
  obtain ⟨g, hB, hs⟩ := run_found hls
  have hA := hB.threads t
  have hspot := hs t
  have hw := hA.window
  have hplace : ∀ key i b, place ((sys P).run ls).sh key i = (i, b) → headOf ((sys P).run ls).sh (i, b) =
      getList ((sys P).run ls).sh i key := fun key i b e => by rw [← e]; rfl
  refine ⟨fun f e => ?_, fun x e => ?_, fun x jSet y e => ?_, hA.owned.owns⟩
  · rw [e] at hspot
    exact hspot
  · rw [e] at hspot hw
    have haim : Aimed _ x := hw
    obtain ⟨y, hy, hk⟩ := hspot
    have hlive := hA.live_target hB.inv (q := (x.i, x.hi)) (by rw [e]; rfl)
    obtain ⟨m', _, _, _, hd, _⟩ := hB.inv.holds.deleteNode_ok hlive hy hk
    refine ⟨haim.iSet.trans (hplace _ _ _ haim.source), m', y, ?_, hk⟩
    rw [haim.iSet]
    exact hd
  · rw [e] at hw
    have haim : Aimed _ x := hw
    have hheld := hA.held x jSet y e
    rw [hheld.key]
    exact ⟨rfl, haim.iSet.trans (hplace _ _ _ haim.source), hheld.jSet.trans (hplace _ _ _ haim.target)⟩

/-- one list in each table; key 1 goes to the first one, key 2 to the second, and key 3 to the first, which is over the
threshold then. Thread 0 has put the node of key 3 there and is at the start of `relocate`. -/
def relocateStart : List (ℕ × Act) :=
  callSteps 0 (.add 1 10) 5 ++ callSteps 0 (.add 2 20) 5 ++ callSteps 0 (.add 3 30) 5

/-- thread 1 deletes key 2 meanwhile; then there is room for key 1 in the second list -/
theorem relocate_safe_delete :
    (((sys ⟨0, 2, 1⟩).run (relocateStart ++ callSteps 1 (.delete 2) 5)).loc 0).pc = .table 0 0 0 ∧
      (((sys ⟨0, 2, 1⟩).run (relocateStart ++ callSteps 1 (.delete 2) 5 ++ List.replicate 9 (0, .step))).loc 0).pc =
        .ret (.add true) ∧
      RelocateSafe ⟨0, 2, 1⟩ 0
        ((sys ⟨0, 2, 1⟩).run (relocateStart ++ callSteps 1 (.delete 2) 5 ++ List.replicate 9 (0, .step))).sh
        (((sys ⟨0, 2, 1⟩).run (relocateStart ++ callSteps 1 (.delete 2) 5 ++ List.replicate 9 (0, .step))).loc 0) :=
  ⟨by decide +kernel, by decide +kernel, relocate_safe _ _ (Sys.meets_of_check _ _ (n := 2) (by decide +kernel)) 0⟩

/-- thread 1 deletes both keys of the list, and `get_head_node` returns NULL -/
theorem relocate_null :
    (((sys ⟨0, 2, 1⟩).run (relocateStart ++ callSteps 1 (.delete 1) 5 ++ callSteps 1 (.delete 3) 5 ++
      List.replicate 2 (0, .step))).loc 0).pc = .fault .null := by
  decide +kernel

end AlgorithmCollection.ConcurrentCuckooHash
