/-
`StripedHash` loses, duplicates and misplaces no key.

`updates_refined`: every `add` that returns true puts its pair into the table at one instant inside the call, every
`delete` that returns true takes its pair out at one instant, and no other call changes the table; and whenever no thread
is migrating the nodes, each bucket of `ht->bucket` is a sorted list that ends with NULL and holds only keys that hash to
it, no key is twice in the table, and the table holds exactly the pairs put in and not taken out. Since `add` and
`delete` give up after three attempts, a call that returns false promises nothing but that it changed nothing.
-/
import AlgorithmCollection.Hash.StripedHashSteps

namespace AlgorithmCollection.StripedHash

open Conc Chained

/-! ## The effects of the calls -/

section Effects

variable {P : Params} {g : Ghost} {t : ℕ} {m : Mem} {l : Loc} {b : ℕ} {k v : ℤ}

def Call.effect (c : Call) : Option Res := if c.ret then some (.add true) else none

def Done.effect : Done → Option Res
  | .add c => c.effect
  | .delete _ r => if r.isSome then some (.delete r) else none

def Ins.effect : Ins → Option Res
  | .add _ _ _ _ => none
  | .move c _ _ _ => c.effect

def Cont.effect : Cont → Option Res
  | .ins c => c.effect
  | _ => none

/-- the result a call is committed to by the change it has made -/
def effect : Loc → Option Res
  | .first c _ | .test c _ _ _ | .next c _ _ | .check c _ _ _ => c.effect
  | .addEmpty1 c _ _ | .link1 c _ _ _ | .link2 c _ _ _ => c.effect
  | .addEmpty2 (.add _ _ _ _) _ => some (.add true)
  | .addEmpty2 (.move c _ _ _) _ => c.effect
  | .count1 d _ | .count2 d _ _ | .unlockOk d _ => d.effect
  | .policy1 c | .policy2 c _ | .rSize c | .rLock c _ _ | .rCheck c _ | .rOld1 c | .rOld2 c | .rInit c | .rDouble c
  | .rList c _ | .rTest c _ _ _ | .rTake1 c _ _ _ | .rTake2 c _ _ _ _ | .rHash c _ _ _ | .rNext c _ _ | .rQuit c _
  | .rUnlock c _ | .rFree1 c | .rFree2 c _ => c.effect
  | _ => none

/-- what is true of the map at the steps that change it -/
def Ready (m : Mem) : Loc → Prop
  | .addEmpty1 (.add k _ _ _) _ _ | .link2 (.add k _ _ _) _ _ _ => replay m.hist k = none
  | .del3 k _ _ _ v _ => replay m.hist k = some v
  | _ => True

/-- **`add` links only absent keys, and `delete` reports the pair it unlinks.** -/
theorem Asrt.ready (ha : Asrt P g t m l) (hI : Inv P g m) : Ready m l := by
  cases l with
  | addEmpty1 c b h => cases c with
    | move c i p n => trivial
    | add k v r n =>
      obtain ⟨⟨hu, ho⟩, rfl, he⟩ := ha.at_
      have hL := hI.live (hI.no_mig ha rfl hu.hold)
      have hw := (hL.chain (hu.lt hI)).before_head (k := k) (hL.stored.lists.pos _ (hL.head_mem (hu.lt hI)))
      exact hL.stored.rep.absent (hL.absent (hu.lt hI) hu.hash hw (.inl he))
  | link2 c b p q => cases c with
    | move c i p n => trivial
    | add k v r n =>
      obtain ⟨⟨hu, ho⟩, -, ⟨hw, rfl⟩, hs⟩ := ha.at_
      have hk : ky m n = k := ho.key
      change Walk g m b (ky m n) p at hw
      change nx m p = NULL ∨ ky m n < ky m (nx m p) at hs
      rw [hk] at hw hs
      have hL := hI.live (hI.no_mig ha rfl hu.hold)
      exact hL.stored.rep.absent (hL.absent (hu.lt hI) hu.hash hw hs)
  | del3 k b p q v s =>
    obtain ⟨hu, hat, hq, hk, hv, -⟩ := ha.at_
    have hL := hI.live (hI.no_mig ha rfl hu.hold)
    have := hL.stored.rep.holds (hL.curr_data (hu.lt hI) hat hq).2
    rw [hk, hv] at this
    exact this
  | _ => trivial

/-! ## The kinds of steps -/

/-- a result that the map allows without a change -/
def Unchanged (m : Mem) (op : Op) (r : Res) : Prop := updSpec op r (replay m.hist) (replay m.hist)

theorem kind_call_ret {c : Call} {l : Loc} (hs : status l = .busy (.add c.key c.val)) (he : effect l = c.effect) :
    table.StepKind (fun _ => effect) (Unchanged m) m l m (.ret (.add c.key c.val) (.add c.ret)) := by
  obtain ⟨k, v, r⟩ := c
  refine .ret (.add k v) (.add r) hs rfl rfl ?_
  rw [he]
  cases r with
  | true => exact .inl rfl
  | false => exact .inr ⟨rfl, rfl⟩

theorem kind_add {l l' : Loc} (m' : Mem) (hs : status l = .busy (.add k v)) (he : effect l = none)
    (hr : replay m.hist k = none) (hm : m'.hist = m.hist ++ [.link k v]) (hs' : status l' = .busy (.add k v))
    (he' : effect l' = some (.add true)) : table.StepKind (fun _ => effect) (Unchanged m) m l m' l' := by
  have hv : replay m'.hist = Function.update (replay m.hist) k (some v) := by rw [hm, replay_snoc_link]
  exact .commit (.add k v) (.add true) hs he (by change replay m'.hist ≠ _; rw [hv]; exact update_some_ne hr) ⟨hr, hv⟩ hs'
    he'

/-- the kind of every step -/
theorem exec_kind (h : Ready m l) :
    table.StepKind (fun _ => effect) (Unchanged m) m l (exec P t m l).1 (exec P t m l).2 := by
  cases l with
  | lockB u r s b | findLock k b =>
    simp only [exec, lock]; split_ifs
    · exact .inside _ rfl rfl rfl rfl
    · exact .stutter
  | rLock c s i =>
    simp only [exec, lock]; split_ifs
    · exact .inside _ rfl rfl rfl rfl
    · exact .stutter
    · exact .inside _ rfl rfl rfl rfl
  | recheck u r s b =>
    simp only [exec]; split_ifs
    · cases u <;> exact .inside _ rfl rfl rfl rfl
    · exact .inside _ rfl rfl rfl rfl
  | first c b =>
    simp only [exec, afterFirst]; split_ifs
    · cases c <;> exact .inside _ rfl rfl rfl rfl
    · exact .inside _ rfl rfl rfl rfl
  | test c b p q | rCheck c s | rInit c | rList c i | rTest c i p q
  | rUnlock c i => simp only [exec]; split_ifs <;> exact .inside _ rfl rfl rfl rfl
  | check c b p q =>
    change table.StepKind _ _ m _ m (afterCheck c b p q (decide (q ≠ NULL ∧ c.key m = (m.node q).key)))
    generalize decide (q ≠ NULL ∧ c.key m = (m.node q).key) = f
    cases f with
    | false => cases c <;> exact .inside _ rfl rfl rfl rfl
    | true => cases c with
      | ins c => cases c <;> exact .inside _ rfl rfl rfl rfl
      | delete k r | find k => exact .inside _ rfl rfl rfl rfl
  | addEmpty1 c b h => cases c with
    | add k v r n => exact kind_add _ rfl rfl h rfl rfl rfl
    | move c i p n => exact .inside _ rfl rfl rfl rfl
  | addEmpty2 c b => cases c <;> exact .inside _ rfl rfl rfl rfl
  | link2 c b p q => cases c with
    | add k v r n => exact kind_add _ rfl rfl h rfl rfl rfl
    | move c i p n => exact .inside _ rfl rfl rfl rfl
  | del3 k b p q v s =>
    have hv : replay (exec P t m (.del3 k b p q v s)).1.hist = Function.update (replay m.hist) k none :=
      replay_snoc_unlink _ _
    exact .commit (.delete k) (.delete (some v)) rfl rfl
      (by change replay _ ≠ _; rw [hv]; exact update_none_ne h) ⟨h, hv⟩ rfl rfl
  | unlockOk d b => cases d with
    | add c => exact .inside _ rfl rfl rfl rfl
    | delete k r =>
      refine .ret (.delete k) (.delete r) rfl rfl rfl ?_
      cases r with
      | none => exact .inr ⟨rfl, rfl⟩
      | some v => exact .inl rfl
  | unlockRetry u r b =>
    simp only [exec]; split_ifs
    · exact .inside _ rfl rfl rfl rfl
    · cases u with
      | add k v => exact .inside _ rfl rfl rfl rfl
      | delete k => exact .ret (.delete k) (.delete none) rfl rfl rfl (.inr ⟨rfl, rfl⟩)
  | findUnlock k b r => exact .ret (.find k) (.find r) rfl rfl rfl (.inr ⟨rfl, rfl⟩)
  | policy2 c n | rQuit c i =>
    simp only [exec]; split_ifs
    · exact .inside _ rfl rfl rfl rfl
    · exact kind_call_ret rfl rfl
  | rFree2 c A => exact kind_call_ret rfl rfl
  | idle | ret op r => exact .stutter
  | _ => exact .inside _ rfl rfl rfl rfl

theorem step_kind (h : Ready m l) (a : Act) :
    table.StepKind (fun _ => effect) (Unchanged m) m l (step P t m l a).1 (step P t m l a).2 := by
  cases a with
  | step => exact exec_kind h
  | invoke op =>
    simp only [step]; split_ifs with hc
    · exact .outside (canInvoke_idle hc).2.2 rfl fun _ => by cases op <;> rfl
    · exact .stutter

end Effects

/-- an LP step from a kind whose justification is the map at the step itself -/
theorem lpStep_of_kind {P : Params} {ls : List (ℕ × Act)} {t : ℕ} {a : Act}
    (hk : table.StepKind (fun _ => effect) (Unchanged ((sys P).run ls).sh) ((sys P).run ls).sh (((sys P).run ls).loc t)
      ((sys P).step t ((sys P).run ls).sh (((sys P).run ls).loc t) a).1
      ((sys P).step t ((sys P).run ls).sh (((sys P).run ls).loc t) a).2) :
    table.LPStep (sys P) (fun _ => effect) ls t a := by
  exact Object.StepKind.lpStep (hk.imp fun hb _ _ hu => Sys.Since.now hb hu)

theorem calls_linearizable (P : Params) : table.Linearizable (sys P) := by
  have hst : table.EffectStable (sys P) fun _ => effect := fun _ _ _ _ _ _ => rfl
  refine Object.linearizable_of_lpStep (fun ⟨_, h⟩ => by cases h) hst fun ls t a => ?_
  obtain ⟨g, hI, hA, -⟩ := inv_run (P := P) ls
  exact lpStep_of_kind (step_kind ((hA t).ready hI) a)

/-! ## The record and the counter -/

/-- what `add` or `delete` adds to `setSize` -/
def Done.delta : Done → ℤ
  | .add _ => 1
  | .delete _ _ => -1

/-- what the thread still has to add to `setSize` for the change it has made -/
def owed : Loc → ℤ
  | .addEmpty2 (.add _ _ _ _) _ => 1
  | .count1 d _ | .count2 d _ _ => d.delta
  | _ => 0

/-- the thread has loaded `setSize` and not yet stored to it -/
def counting : Loc → Bool
  | .count2 _ _ _ => true
  | _ => false

/-- what a step does to the record and to `setSize`: nothing, a link, an unlink, or the store to `setSize` -/
inductive Change (m : Mem) (l : Loc) (m' : Mem) (l' : Loc) : Prop where
  | same : m'.hist = m.hist → m'.setSize = m.setSize → owed l' = owed l →
      (∀ d b n, l' = .count2 d b n → l = l' ∨ n = m.setSize) → Change m l m' l'
  | link (k v : ℤ) : m'.hist = m.hist ++ [.link k v] → replay m.hist k = none → m'.setSize = m.setSize → owed l = 0 →
      owed l' = 1 → (∀ d b n, l' ≠ .count2 d b n) → Change m l m' l'
  | unlink (k v : ℤ) : m'.hist = m.hist ++ [.unlink k] → replay m.hist k = some v → m'.setSize = m.setSize → owed l = 0 →
      owed l' = -1 → (∀ d b n, l' ≠ .count2 d b n) → Change m l m' l'
  | count (d : Done) (b n : ℕ) : l = .count2 d b n → m'.hist = m.hist → m'.setSize = d.count n → owed l' = 0 →
      (∀ d b n, l' ≠ .count2 d b n) → Change m l m' l'

section Change

variable {P : Params} {t : ℕ} {m : Mem} {l : Loc}

theorem Change.refl : Change m l m l := .same rfl rfl rfl fun _ _ _ _ => .inl rfl

theorem not_counting (h : counting l = false) (d : Done) (b n : ℕ) : l ≠ .count2 d b n := by
  rintro rfl
  cases h

theorem Change.quiet {m' : Mem} {l' : Loc} (h1 : m'.hist = m.hist) (h2 : m'.setSize = m.setSize) (h3 : owed l' = owed l)
    (h4 : counting l' = false) : Change m l m' l' := .same h1 h2 h3 fun d b n e => absurd e (not_counting h4 d b n)

/-- **What a step does to the record and the counter.** -/
theorem exec_change (h : Ready m l) : Change m l (exec P t m l).1 (exec P t m l).2 := by
  cases l with
  | idle | ret op r => exact .refl
  | lockB u r s b | findLock k b =>
    simp only [exec, lock]
    split_ifs
    · exact .quiet rfl rfl rfl rfl
    · exact .refl
  | rLock c s i =>
    simp only [exec, lock]
    split_ifs
    · exact .quiet rfl rfl rfl rfl
    · exact .refl
    · exact .quiet rfl rfl rfl rfl
  | recheck u r s b =>
    simp only [exec]
    split_ifs
    · cases u <;> exact .quiet rfl rfl rfl rfl
    · exact .quiet rfl rfl rfl rfl
  | first c b =>
    simp only [exec, afterFirst]
    split_ifs
    · cases c <;> exact .quiet rfl rfl rfl rfl
    · exact .quiet rfl rfl rfl rfl
  | test c b p q | rCheck c s | rList c i | rTest c i p q | rQuit c i
  | rUnlock c i => simp only [exec]; split_ifs <;> exact .quiet rfl rfl rfl rfl
  | check c b p q =>
    change Change m _ m (afterCheck c b p q (decide (q ≠ NULL ∧ c.key m = (m.node q).key)))
    generalize decide (q ≠ NULL ∧ c.key m = (m.node q).key) = f
    cases c with
    | ins c => cases f <;> cases c <;> exact .quiet rfl rfl rfl rfl
    | _ => cases f <;> exact .quiet rfl rfl rfl rfl
  | addEmpty1 c b h' =>
    cases c with
    | add k v r n => exact .link k v rfl h rfl rfl rfl (not_counting rfl)
    | move c i p n => exact .quiet rfl rfl rfl rfl
  | addEmpty2 c b => cases c <;> exact .quiet rfl rfl rfl rfl
  | link2 c b p q =>
    cases c with
    | add k v r n => exact .link k v rfl h rfl rfl rfl (not_counting rfl)
    | move c i p n => exact .quiet rfl rfl rfl rfl
  | del3 k b p q v s => exact .unlink k v rfl h rfl rfl rfl (not_counting rfl)
  | count1 d b =>
    refine .same rfl rfl rfl fun d' b' n e => .inr ?_
    cases e
    rfl
  | count2 d b n => exact .count d b n rfl rfl rfl rfl (not_counting rfl)
  | unlockOk d b => cases d <;> exact .quiet rfl rfl rfl rfl
  | unlockRetry u r b =>
    simp only [exec]
    split_ifs
    · exact .quiet rfl rfl rfl rfl
    · cases u <;> exact .quiet rfl rfl rfl rfl
  | policy2 c n =>
    simp only [exec]
    cases policy n m.tableSize <;> exact .quiet rfl rfl rfl rfl
  | rInit c =>
    simp only [exec]
    split_ifs
    · exact .quiet rfl rfl rfl rfl
    · exact .refl
  | _ => exact .quiet rfl rfl rfl rfl

theorem step_change (h : Ready m l) (a : Act) : Change m l (step P t m l a).1 (step P t m l a).2 := by
  cases a with
  | step => exact exec_change h
  | invoke op =>
    simp only [step]
    by_cases hc : canInvoke l op = true
    · rw [if_pos hc]
      have howed : owed l = 0 := by
        cases l with
        | idle | ret _ _ => rfl
        | _ => cases hc
      cases op <;> exact .quiet rfl rfl howed.symm rfl
    · rw [if_neg hc]
      exact .refl

theorem Change.hist_le {m' : Mem} {l' : Loc} (h : Change m l m' l') : m.hist <+: m'.hist := by
  cases h with
  | same h _ _ _ | count d b n _ h _ _ _ => rw [h]
  | link k v h _ _ _ _ _ | unlink k v h _ _ _ _ _ => rw [h]; exact List.prefix_append _ _

theorem run_change (ls : List (ℕ × Act)) (x : ℕ × Act) :
    Change ((sys P).run ls).sh (((sys P).run ls).loc x.1) ((sys P).run (ls ++ [x])).sh
      (((sys P).run (ls ++ [x])).loc x.1) := by
  obtain ⟨g, hI, hA, -⟩ := inv_run (P := P) ls
  rw [Sys.run_snoc, Sys.next_loc_self, Sys.next_sh]
  exact step_change ((hA x.1).ready hI) x.2

/-- the record only grows -/
theorem run_hist_le (ls ks : List (ℕ × Act)) : ((sys P).run ls).sh.hist <+: ((sys P).run (ls ++ ks)).sh.hist := by
  induction ks using List.reverseRecOn with
  | nil => rw [List.append_nil]
  | append_singleton ks x ih =>
    rw [← List.append_assoc]
    exact ih.trans (run_change (ls ++ ks) x).hist_le

end Change

/-! ## The table at rest -/

section Rest

variable {P : Params} {g : Ghost} {m : Mem} {b : ℕ}

/-- a migration belongs to a thread that is resizing -/
theorem no_mig_of_rest {ls : List (ℕ × Act)}
    (hA : ∀ t, Asrt P g t ((sys P).run ls).sh (((sys P).run ls).loc t))
    (hr : ∀ t, resizing (((sys P).run ls).loc t) = false) : g.mig = none := by
  cases e : g.mig with
  | none => rfl
  | some u =>
    have := (hA u).mig e
    rw [hr u] at this; cases this

variable (hL : Live g m)

include hL

theorem Live.mem_nodes (hb : b < m.tableSize) (a : ℕ) :
    a ∈ nodes m b ↔ a ∈ g.S (m.list m.bucket b) ∧ a ≠ m.list m.bucket b ∧ a ≠ NULL := hL.resting.mem_listNodes hb a

theorem Live.nodes_linked (hb : b < m.tableSize) :
    (m.list m.bucket b :: (nodes m b ++ [NULL])).IsChain fun x y => (m.node x).next = y := hL.resting.listNodes_linked hb

theorem Live.nodes_sorted (hb : b < m.tableSize) : (nodes m b).Pairwise fun x y => (m.node x).key < (m.node y).key :=
  hL.resting.listNodes_sorted hb

/-- the nodes of the buckets are the nodes that carry data -/
theorem Live.mem_data (a : ℕ) : a ∈ g.D ↔ ∃ b < m.tableSize, a ∈ nodes m b := hL.resting.mem_data a

theorem Live.nodes_hash (hI : Inv P g m) (hb : b < m.tableSize) {a : ℕ} (ha : a ∈ nodes m b) :
    (m.node a).key % m.tableSize = b := by
  have h0 := hL.stored.nonneg a ((hL.mem_data a).2 ⟨b, hb, ha⟩)
  rw [← hashCode_emod h0 hI.pos hI.lt, hL.resting.listNodes_hash hb ha]

/-- all keys of the table, bucket by bucket -/
def keys (m : Mem) : List ℤ := (List.range m.tableSize).flatMap fun b => (nodes m b).map fun a => (m.node a).key

/-- no key is in two buckets, and the keys of one bucket increase -/
theorem Live.keys_nodup : (keys m).Nodup := by
  have hnd := hL.resting.keys_nodup
  unfold Resting.tableNodes at hnd
  rw [List.map_flatMap] at hnd
  exact hnd

/-- the pairs of the table are the recorded ones -/
theorem Live.pairs (k v : ℤ) :
    (∃ b < m.tableSize, ∃ a ∈ nodes m b, (m.node a).key = k ∧ (m.node a).value = v) ↔ replay m.hist k = some v := by
  rw [hL.stored.rep k v]
  constructor
  · rintro ⟨b, hb, a, ha, h⟩; exact ⟨a, (hL.mem_data a).2 ⟨b, hb, ha⟩, h⟩
  · rintro ⟨a, ha, h⟩
    obtain ⟨b, hb, ha⟩ := (hL.mem_data a).1 ha
    exact ⟨b, hb, a, ha, h⟩

end Rest

/-- **No key is lost, duplicated or misplaced.** For any number of threads and any interleaving: every `add` that returns
true puts its pair in at one instant inside the call and every `delete` that returns true takes its pair out at one
instant, and the other calls change nothing. Whenever no thread is moving nodes in `resize`, every bucket of the table
ends with NULL, is strictly sorted and holds only keys with key % table_size = b, no key is twice in the table, and the
stored pairs are exactly those put in and not taken out. -/
theorem updates_refined (P : Params) :
    table.Linearizable (sys P) ∧ ∀ ls : List (ℕ × Act), (∀ t, resizing (((sys P).run ls).loc t) = false) →
      (∀ b < ((sys P).run ls).sh.tableSize,
        (((sys P).run ls).sh.list ((sys P).run ls).sh.bucket b :: (nodes ((sys P).run ls).sh b ++ [NULL])).IsChain
          (fun x y => (((sys P).run ls).sh.node x).next = y) ∧
        (nodes ((sys P).run ls).sh b).Pairwise
          (fun x y => (((sys P).run ls).sh.node x).key < (((sys P).run ls).sh.node y).key) ∧
        ∀ a ∈ nodes ((sys P).run ls).sh b,
          (((sys P).run ls).sh.node a).key % ((sys P).run ls).sh.tableSize = b) ∧
      (keys ((sys P).run ls).sh).Nodup ∧
      ∀ k v, (∃ b < ((sys P).run ls).sh.tableSize, ∃ a ∈ nodes ((sys P).run ls).sh b,
          (((sys P).run ls).sh.node a).key = k ∧ (((sys P).run ls).sh.node a).value = v) ↔
        replay ((sys P).run ls).sh.hist k = some v := by
  refine ⟨calls_linearizable P, fun ls hr => ?_⟩
  obtain ⟨g, hI, hA, -⟩ := inv_run (P := P) ls
  have hL := hI.live (no_mig_of_rest hA hr)
  exact ⟨fun b hb => ⟨hL.nodes_linked hb, hL.nodes_sorted hb, fun a ha => hL.nodes_hash hI hb ha⟩, hL.keys_nodup,
    hL.pairs⟩

end AlgorithmCollection.StripedHash
