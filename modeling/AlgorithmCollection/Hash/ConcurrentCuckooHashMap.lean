/-
`ConcurrentCuckooHash` as a map.

The calls take effect in their locked parts. `Book log g s`: log has the calls in this order with their results, a map that is
empty at first gives these results (`replay`) and is g.map then, and the calls of each thread are those it has returned from
and the one that it is certain to return from. `book_next`: a step keeps this, if it does not put a key into the tables for
which another thread has found no room and is about to try again, and leaves the `relocate` of other threads undisturbed
(`Unrivalled`).

- `alone_map`: one thread alone gets the results of a map, and between its calls the lists are those of the map.
- `alone_room`: it never gets to the `exit` of `resize`.
- `adds_tallied`: for any threads under the condition, the adds and deletes of a key that returned true balance.
  `add_twice` is a run without it: two adds of a key return true.
-/
import AlgorithmCollection.Hash.ConcurrentCuckooHashRelocate
import AlgorithmCollection.Conc.Updates

namespace AlgorithmCollection.ConcurrentCuckooHash

open Conc

/-! ## Histories -/

/-- the results of a map that is empty at first, and the map in the end -/
def replay (ops : List Op) : List Res × (ℤ → Option ℤ) :=
  ops.foldl (fun p op => (p.1 ++ [(answer p.2 op).1], (answer p.2 op).2)) ([], fun _ => none)

def ops (log : List (ℕ × Op × Res)) : List Op := log.map fun c => c.2.1

def results (log : List (ℕ × Op × Res)) : List Res := log.map fun c => c.2.2

/-- the update that a call was -/
def update : ℕ × Op × Res → Option (Update ℤ ℤ)
  | (_, .add k v, .add true) => some (.add k v)
  | (_, .delete k, .delete (some v)) => some (.delete k v)
  | _ => none

/-- the calls in the log return what a map returns, and the map is M then -/
def Legal (log : List (ℕ × Op × Res)) (M : ℤ → Option ℤ) : Prop := replay (ops log) = (results log, M)

section Legal

variable {log : List (ℕ × Op × Res)} {M M' : ℤ → Option ℤ} {t : ℕ} {op : Op} {r : Res}

theorem replay_snoc (l : List Op) (op : Op) :
    replay (l ++ [op]) = ((replay l).1 ++ [(answer (replay l).2 op).1], (answer (replay l).2 op).2) := by
  simp only [replay, List.foldl_append, List.foldl_cons, List.foldl_nil]

theorem legal_snoc : Legal (log ++ [(t, op, r)]) M' ↔ ∃ M, Legal log M ∧ (r, M') = answer M op := by
  simp only [Legal, ops, results, List.map_append, List.map_cons, List.map_nil, replay_snoc]
  constructor
  · intro h
    obtain ⟨h1, h2⟩ := Prod.mk.inj h
    obtain ⟨h3, h4⟩ := List.append_inj' h1 rfl
    refine ⟨_, Prod.ext h3 rfl, Prod.ext ?_ h2.symm⟩
    exact (List.singleton_inj.1 h4).symm
  · intro ⟨M, h1, h2⟩
    rw [h1, ← h2]

theorem legal_append {rest : List (ℕ × Op × Res)} (h : Legal (log ++ rest) M) : ∃ M', Legal log M' := by
  induction rest using List.reverseRecOn generalizing M with
  | nil => exact ⟨M, by simpa using h⟩
  | append_singleton rest c ih =>
    rw [← List.append_assoc] at h
    obtain ⟨M', h', -⟩ := legal_snoc.1 h
    exact ih h'

/-- the successful updates of a legal log are those of its map -/
theorem Legal.replays (h : Legal log M) : Replays (log.filterMap update) M := by
  induction log using List.reverseRecOn generalizing M with
  | nil =>
    have : M = fun _ => none := (Prod.mk.inj h).2.symm
    rw [this]
    exact .nil
  | append_singleton log c ih =>
    obtain ⟨t, op, r⟩ := c
    obtain ⟨M0, h0, e⟩ := legal_snoc.1 h
    have hr := ih h0
    rw [List.filterMap_append]
    cases op with
    | add k v =>
      simp only [answer] at e
      split_ifs at e with hk
      · cases e
        exact hr.add v hk
      · cases e
        have hnot : List.filterMap update [(t, Op.add k v, Res.add false)] = [] := rfl
        rw [hnot, List.append_nil]
        exact hr
    | delete k =>
      cases e
      cases hk : M0 k with
      | none =>
        have : Function.update M0 k none = M0 := by rw [← hk, Function.update_eq_self]
        have hnot : List.filterMap update [(t, Op.delete k, Res.delete none)] = [] := rfl
        rw [this, hnot, List.append_nil]
        exact hr
      | some v => exact hr.delete hk
    | contains k =>
      cases e
      have hnot : ∀ b, List.filterMap update [(t, Op.contains k, Res.contains b)] = [] := fun _ => rfl
      rw [hnot, List.append_nil]
      exact hr

end Legal

/-! ## The log of a run -/

/-- the call a thread is certain to return from, with its result -/
def pending (t : ℕ) (l : Loc) : List (ℕ × Op × Res) := ((decided l.pc).map fun r => (t, l.op, r)).toList

/-- the calls of thread t -/
def callsOf (t : ℕ) (log : List (ℕ × Op × Res)) : List (ℕ × Op × Res) := log.filter fun c => c.1 = t

structure Book (log : List (ℕ × Op × Res)) (g : Ghost) (s : St Mem Loc) : Prop where
  legal : Legal log g.map
  calls : ∀ t, ∃ rest, callsOf t log = callsOf t s.sh.returned ++ rest ∧
    ((∀ f, (s.loc t).pc ≠ .fault f) → rest = pending t (s.loc t))
  absent : ∀ t, awaiting (s.loc t).pc = true → g.map (s.loc t).op.key = none

def atWork : Pc → Bool
  | .work _ => true
  | _ => false

/-- this thread does not put a key into the tables that the other has found no room for, and leaves a `relocate` of the other
undisturbed -/
def Unrivalled (P : Params) (m : Mem) (l : Loc) (a : Act) (o : Loc) : Prop :=
  Undisturbed m l a o ∧ (awaiting o.pc = true ∧ l.op.key = o.op.key ∧ atWork l.pc = true → inserts P m l.op = false)

instance Unrivalled.decidable (P : Params) (m : Mem) (l : Loc) (a : Act) (o : Loc) : Decidable (Unrivalled P m l a o) :=
  inferInstanceAs (Decidable (_ ∧ (_ → _)))

section Book

variable {P : Params} {log : List (ℕ × Op × Res)} {g g' : Ghost} {s : St Mem Loc} {t u : ℕ} {a : Act}

/-- a call keeps its arguments -/
theorem op_step {m : Mem} {l : Loc} (h : outside l.pc = false) : (step P t m l a).2.op = l.op := by
  cases a with
  | step => rfl
  | invoke op => simp [step, h]

theorem outside_of_decided {pc : Pc} {r : Res} (h : decided pc = some r) : outside pc = false := by
  cases pc with
  | idle | ret _ => cases h
  | _ => rfl

theorem outside_of_awaiting {pc : Pc} (h : awaiting pc = true) : outside pc = false := by
  cases pc with
  | idle | ret _ => cases h
  | _ => rfl

theorem callsOf_snoc_self (log : List (ℕ × Op × Res)) (t : ℕ) (op : Op) (r : Res) :
    callsOf t (log ++ [(t, op, r)]) = callsOf t log ++ [(t, op, r)] := by
  simp [callsOf, List.filter_append]

theorem callsOf_snoc_ne (log : List (ℕ × Op × Res)) (op : Op) (r : Res) (h : u ≠ t) :
    callsOf u (log ++ [(t, op, r)]) = callsOf u log := by
  simp [callsOf, List.filter_append, Ne.symm h]

theorem pending_none {l : Loc} (h : decided l.pc = none) : pending t l = [] := by
  simp [pending, h]

theorem pending_some {l : Loc} {r : Res} (h : decided l.pc = some r) : pending t l = [(t, l.op, r)] := by
  simp [pending, h]

/-- **A step keeps the book.** -/
theorem book_next (hB : Base P g s) (h : Book log g s) (hK : Sys.Beside (Unrivalled P) s (t, a)) :
    ∃ g' log', Base P g' ((sys P).next s (t, a)) ∧ Book log' g' ((sys P).next s (t, a)) := by
  obtain ⟨g', hB', hst⟩ := base_next hB t a fun u hu => (hK u hu).1.1
  set s' := (sys P).next s (t, a) with hs'
  have hne : ∀ u, u ≠ t → s'.loc u = s.loc u := fun u hu => Sys.next_loc_ne _ s _ hu
  have hop : outside (s.loc t).pc = false → (s'.loc t).op = (s.loc t).op := by
    intro ho
    rw [hs', Sys.next_loc_self]
    exact op_step ho
  have hwork : ∀ nested, (s.loc t).pc = .work nested → (s'.loc t).op = (s.loc t).op := fun nested e =>
    hop (by rw [e]; rfl)
  -- the keys that other threads wait for stay away
  have habsent : ∀ u, u ≠ t → awaiting (s'.loc u).pc = true → g'.map (s'.loc u).op.key = none := by
    intro u hu ha
    rw [hne u hu] at ha ⊢
    by_contra hk
    obtain ⟨h1, ⟨nested, h2⟩, h3⟩ := hst.inserted _ (h.absent u ha) hk
    rw [hwork nested h2] at h1 h3
    have := (hK u hu).2 ⟨ha, h1.symm, by rw [h2]; rfl⟩
    rw [h3] at this
    cases this
  -- the calls of the other threads, if the log and the history grow by calls of t
  have hcalls : ∀ log', (∀ u, u ≠ t → callsOf u log' = callsOf u log) →
      (∀ u, u ≠ t → callsOf u s'.sh.returned = callsOf u s.sh.returned) →
      (∃ rest, callsOf t log' = callsOf t s'.sh.returned ++ rest ∧
        ((∀ f, (s'.loc t).pc ≠ .fault f) → rest = pending t (s'.loc t))) →
      ∀ u, ∃ rest, callsOf u log' = callsOf u s'.sh.returned ++ rest ∧
        ((∀ f, (s'.loc u).pc ≠ .fault f) → rest = pending u (s'.loc u)) := by
    intro log' h1 h2 ht u
    by_cases hu : u = t
    · subst hu; exact ht
    · rw [h1 u hu, h2 u hu, hne u hu]
      exact h.calls u
  have hself : (awaiting (s'.loc t).pc = true → g'.map (s'.loc t).op.key = none) →
      ∀ u, awaiting (s'.loc u).pc = true → g'.map (s'.loc u).op.key = none := by
    intro ht u
    by_cases hu : u = t
    · subst hu; exact ht
    · exact habsent u hu
  obtain ⟨rest, hr, hp⟩ := h.calls t
  have he := hst.effect
  change Effect t (s'.loc t).op g.map s.sh.returned (s.loc t).pc g'.map s'.sh.returned (s'.loc t).pc at he
  have hlegal : g'.map = g.map → Legal log g'.map := fun hM => hM ▸ h.legal
  -- a step that ends no call and does not commit one leaves the log
  have hkeep : g'.map = g.map → s'.sh.returned = s.sh.returned →
      ((∀ f, (s'.loc t).pc ≠ .fault f) → rest = pending t (s'.loc t)) →
      (awaiting (s'.loc t).pc = true → g'.map (s'.loc t).op.key = none) →
      ∃ g' log', Base P g' s' ∧ Book log' g' s' := fun hM hret hrest haw =>
    ⟨g', log, hB', hlegal hM, hcalls log (fun _ _ => rfl) (fun _ _ => by rw [hret]) ⟨rest, by rw [hret]; exact hr, hrest⟩,
      hself haw⟩
  cases he with
  | quiet hM hret hd ha hf =>
    refine hkeep hM hret (fun hno => ?_) fun haw => ?_
    · rw [hp fun f e => hno f (hf f e)]
      cases e : decided (s.loc t).pc with
      | none => rw [pending_none e, pending_none (hd.trans e)]
      | some r => rw [pending_some e, pending_some (hd.trans e), hop (outside_of_decided e)]
    · rw [ha] at haw
      rw [hM, hop (outside_of_awaiting haw)]
      exact h.absent t haw
  | fault f hM hret hpc =>
    refine hkeep hM hret (fun hno => absurd hpc (hno f)) fun haw => ?_
    rw [hpc] at haw
    cases haw
  | returns r hM hret hd hpc =>
    have hrest : rest = pending t (s.loc t) := hp fun f e => by rw [e] at hd; cases hd
    refine ⟨g', log, hB', hlegal hM, hcalls log (fun _ _ => rfl) (fun u hu => ?_) ⟨[], ?_, fun _ => ?_⟩, hself fun haw => ?_⟩
    · rw [hret, callsOf_snoc_ne _ _ _ hu]
    · rw [hr, hrest, pending_some hd, hret, callsOf_snoc_self, hop (outside_of_decided hd), List.append_nil]
    · rw [pending_none (by rw [hpc]; rfl)]
    · rw [hpc] at haw
      cases haw
  | full nested hpc hM hret hk hd ha =>
    refine hkeep hM hret (fun _ => ?_) fun _ => ?_
    · rw [hp (by rw [hpc]; nofun), pending_none hd, pending_none (by rw [hpc]; rfl)]
    · rw [hM]
      exact hk
  | commit nested r hpc hret hM hd ha =>
    have hans := hM fun hn => by
      rw [hwork nested hpc]
      refine h.absent t ?_
      rw [hpc, hn]
      rfl
    refine ⟨g', log ++ [(t, (s'.loc t).op, r)], hB', legal_snoc.2 ⟨g.map, h.legal, hans⟩,
      hcalls _ (fun u hu => callsOf_snoc_ne _ _ _ hu) (fun _ _ => by rw [hret])
        ⟨[(t, (s'.loc t).op, r)], ?_, fun _ => (pending_some hd).symm⟩, hself fun haw => ?_⟩
    · have hrest : rest = [] := by rw [hp (by rw [hpc]; nofun), pending_none (by rw [hpc]; rfl)]
      rw [callsOf_snoc_self, hr, hrest, hret, List.append_nil]
    · rw [ha] at haw
      cases haw

theorem init_book (P : Params) : Book [] ⟨fun _ => [], fun _ => none, fun _ => none⟩ (sys P).init :=
  ⟨rfl, fun _ => ⟨[], rfl, fun _ => rfl⟩, nofun⟩

theorem run_book {ls : List (ℕ × Act)} (hls : (sys P).Meets (Sys.Beside (Unrivalled P)) ls) :
    ∃ g log, Base P g ((sys P).run ls) ∧ Book log g ((sys P).run ls) := by
  refine (sys P).meets_inv _ (fun s => ∃ g log, Base P g s ∧ Book log g s) ⟨_, [], init_base P, init_book P⟩
    (fun s x h hx => ?_) ls hls
  obtain ⟨g, log, hB, hb⟩ := h
  exact book_next hB hb hx

/-- a thread outside its calls has no node in its hand -/
theorem Base.hands_empty (h : Base P g s) (hr : ∀ t, handOf (s.loc t).pc = none) : g.hands = ∅ := by
  rw [Set.eq_empty_iff_forall_notMem]
  intro y ⟨u, hu⟩
  rw [(h.threads u).hand, hr u] at hu
  cases hu

theorem handOf_outside {pc : Pc} (h : outside pc = true) : handOf pc = none := by
  rcases outside_cases h with rfl | ⟨r, rfl⟩ <;> rfl

end Book

/-! ## One thread -/

section Alone

variable (P : Params) (as : List Act)

/-- the state after a run of one thread -/
def aloneRun : St Mem Loc := (sys P).run (as.map fun a => (0, a))

theorem alone_loc {t : ℕ} (ht : t ≠ 0) : (aloneRun P as).loc t = (sys P).loc := by
  refine Sys.run_loc_of_notMem _ fun x hx => ?_
  obtain ⟨a, -, rfl⟩ := List.mem_map.1 hx
  exact ht

theorem alone_found : ∃ g, Found P g (aloneRun P as) :=
  run_found ((sys P).meets_alone Undisturbed (fun _ _ _ => ⟨fun _ => rfl, .inl rfl⟩) 0 as)

theorem alone_book : ∃ g log, Base P g (aloneRun P as) ∧ Book log g (aloneRun P as) :=
  run_book ((sys P).meets_alone (Unrivalled P) (fun _ _ _ => ⟨⟨fun _ => rfl, .inl rfl⟩, fun h => nomatch h.1⟩) 0 as)

theorem alone_hands {g : Ghost} (h : Base P g (aloneRun P as)) (hr : handOf ((aloneRun P as).loc 0).pc = none) :
    g.hands = ∅ := by
  refine h.hands_empty fun t => ?_
  by_cases ht : t = 0
  · subst ht; exact hr
  · rw [alone_loc P as ht]; rfl

theorem alone_returned : ∀ c ∈ (aloneRun P as).sh.returned, c.1 = 0 := by
  induction as using List.reverseRecOn with
  | nil => nofun
  | append_singleton as a ih =>
    obtain ⟨g, hB, -⟩ := alone_found P as
    have hrun : aloneRun P (as ++ [a]) = (sys P).next (aloneRun P as) (0, a) := by
      simp only [aloneRun, List.map_append, List.map_cons, List.map_nil, Sys.run_snoc]
    obtain ⟨g', -, hst⟩ := base_next hB 0 a fun u hu _ => by rw [alone_loc P as hu]; rfl
    rw [hrun]
    have he := hst.effect
    cases he with
    | quiet _ hret | fault _ _ hret | full _ _ _ hret | commit _ _ _ hret =>
      simp only at hret
      rw [hret]
      exact ih
    | returns r _ hret =>
      simp only at hret
      rw [hret]
      intro c hc
      rcases List.mem_append.1 hc with hc | hc
      · exact ih c hc
      · rw [List.mem_singleton.1 hc]

/-- if only thread 0 has made calls, the calls are its calls -/
theorem callsOf_eq_self {log : List (ℕ × Op × Res)} (h : ∀ t, t ≠ 0 → callsOf t log = []) : callsOf 0 log = log := by
  refine List.filter_eq_self.2 fun c hc => ?_
  by_contra hne
  have hmem : c ∈ callsOf c.1 log := List.mem_filter.2 ⟨hc, by simp⟩
  rw [h c.1 (by simpa using hne)] at hmem
  cases hmem

/-- **One thread has a map.** Its calls return what a map returns; between the calls the lists hold the nodes of the map, each
in one of the lists of its key; and the thread stops at most because the tables cannot grow. -/
theorem alone_map :
    results (aloneRun P as).sh.returned = (replay (ops (aloneRun P as).sh.returned)).1 ∧
      (outside ((aloneRun P as).loc 0).pc = true →
        ∃ cont, Holds P (aloneRun P as).sh cont ∅ (replay (ops (aloneRun P as).sh.returned)).2) ∧
      ∀ f, ((aloneRun P as).loc 0).pc = .fault f → f = .wrap := by
  obtain ⟨g, log, hB, hb⟩ := alone_book P as
  -- the other threads have made no calls
  have hother : ∀ t, t ≠ 0 → callsOf t log = [] ∧ callsOf t (aloneRun P as).sh.returned = [] := by
    intro t ht
    have hnone : callsOf t (aloneRun P as).sh.returned = [] :=
      List.filter_eq_nil_iff.2 fun c hc => by simpa [alone_returned P as c hc] using Ne.symm ht
    obtain ⟨rest, hr, hp⟩ := hb.calls t
    rw [alone_loc P as ht] at hp
    rw [hp nofun, hnone] at hr
    exact ⟨hr, hnone⟩
  have hlog := callsOf_eq_self fun t ht => (hother t ht).1
  have hret := callsOf_eq_self fun t ht => (hother t ht).2
  obtain ⟨rest, hr, hp⟩ := hb.calls 0
  rw [hlog, hret] at hr
  have hlegal := hb.legal
  rw [hr] at hlegal
  refine ⟨?_, fun ho => ?_, fun f e => ?_⟩
  · obtain ⟨M, h⟩ := legal_append hlegal
    exact (congrArg Prod.fst h).symm
  · have hrest : rest = [] := by
      rw [hp fun f e => by rw [e] at ho; cases ho]
      rcases outside_cases ho with e | ⟨r, e⟩
      · exact pending_none (by rw [e]; rfl)
      · exact pending_none (by rw [e]; rfl)
    rw [hrest, List.append_nil] at hlegal
    have hh := hB.inv.holds
    have hM : (replay (ops (aloneRun P as).sh.returned)).2 = g.map := congrArg Prod.snd hlegal
    rw [alone_hands P as hB (handOf_outside ho)] at hh
    rw [hM]
    exact ⟨g.cont, hh⟩
  · obtain ⟨g', _, hs⟩ := alone_found P as
    have := hs 0
    rw [e] at this
    exact this

/-- **`resize` has room for every node**, on every table that one thread reaches. -/
theorem alone_room :
    ((aloneRun P as).loc 0).pc ≠ .fault .exit ∧
      (handOf ((aloneRun P as).loc 0).pc = none → (aloneRun P as).sh.tableSize * 2 < 2 ^ 32 →
        ∃ m', resize P (aloneRun P as).sh = .ok m') := by
  obtain ⟨g, hB, hs⟩ := alone_found P as
  refine ⟨fun e => ?_, fun hr hlt => ?_⟩
  · have := hs 0
    rw [e] at this
    cases this
  · have hh := hB.inv.holds
    rw [alone_hands P as hB hr] at hh
    rcases hh.resize_ok with ⟨-, hge⟩ | ⟨m', cont', e, -⟩
    · exact absurd hlt hge
    · exact ⟨m', e⟩

end Alone

/-! ## Any threads -/

/-- a node with the key is in a list of the tables -/
def Stored (m : Mem) (key : ℤ) : Prop :=
  ∃ q xs, live m q ∧ Seg (nx m) (nx m (headOf m q)) xs ∧ ∃ x ∈ xs, ky m x = key

/-- the updates that returned true -/
def updates (m : Mem) : List (Update ℤ ℤ) := m.returned.filterMap update

/-- no thread is in a call -/
def AtRest (s : St Mem Loc) : Prop := ∀ t, outside (s.loc t).pc = true

theorem atRest_of_lt {P : Params} {ls : List (ℕ × Act)} {n : ℕ} (hls : ∀ x ∈ ls, x.1 < n)
    (h : ∀ t < n, outside (((sys P).run ls).loc t).pc = true) : AtRest ((sys P).run ls) :=
  (sys P).run_loc_of_lt (Q := fun l => outside l.pc = true) hls rfl h

section Tally

variable {P : Params} {m : Mem} {cont : Fin 2 × ℕ → List ℕ} {M : ℤ → Option ℤ} {log ret : List (ℕ × Op × Res)}

theorem Holds.stored_iff (h : Holds P m cont ∅ M) (key : ℤ) : Stored m key ↔ (M key).isSome = true := by
  rw [Option.isSome_iff_ne_none]
  constructor
  · intro ⟨q, xs, hq, hs, x, hx, hk⟩
    rw [hs.unique (h.lists.seg q hq)] at hx
    rw [← hk, h.map_eq (mem_data hq hx)]
    nofun
  · intro hk
    obtain ⟨i, x, hx, e⟩ := h.stored (by simp) hk
    exact ⟨place m key i, _, h.live_place key i, h.lists.seg _ (h.live_place key i), x, hx, e⟩

/-- two histories with the same calls of each thread -/
theorem perm_of_calls (h : ∀ t, callsOf t log = callsOf t ret) : log.Perm ret := by
  rw [List.perm_iff_count]
  intro c
  have hc : ∀ l : List (ℕ × Op × Res), (callsOf c.1 l).count c = l.count c := fun l =>
    List.count_filter (by simp)
  rw [← hc log, ← hc ret, h c.1]

/-- **Adds and deletes balance.** When no call is in progress, for every key as many adds as deletes have returned true, or one
more; and the key is stored iff it is one more. -/
theorem adds_tallied (P : Params) (ls : List (ℕ × Act)) (hls : (sys P).Meets (Sys.Beside (Unrivalled P)) ls)
    (hrest : AtRest ((sys P).run ls)) (key : ℤ) :
    (adds key (updates ((sys P).run ls).sh) = deletes key (updates ((sys P).run ls).sh) ∨
        adds key (updates ((sys P).run ls).sh) = deletes key (updates ((sys P).run ls).sh) + 1) ∧
      (Stored ((sys P).run ls).sh key ↔
        adds key (updates ((sys P).run ls).sh) = deletes key (updates ((sys P).run ls).sh) + 1) := by
  obtain ⟨g, log, hB, hb⟩ := run_book hls
  have hcalls : ∀ t, callsOf t log = callsOf t ((sys P).run ls).sh.returned := by
    intro t
    obtain ⟨rest, hr, hp⟩ := hb.calls t
    have ho := hrest t
    have hnone : rest = [] := by
      rw [hp fun f e => by rw [e] at ho; cases ho]
      rcases outside_cases ho with e | ⟨r, e⟩
      · exact pending_none (by rw [e]; rfl)
      · exact pending_none (by rw [e]; rfl)
    rw [hr, hnone, List.append_nil]
  have hperm : (log.filterMap update).Perm (updates ((sys P).run ls).sh) := (perm_of_calls hcalls).filterMap update
  have hadds : adds key (updates ((sys P).run ls).sh) = adds key (log.filterMap update) := (hperm.countP_eq _).symm
  have hdels : deletes key (updates ((sys P).run ls).sh) = deletes key (log.filterMap update) := (hperm.countP_eq _).symm
  have hh := hB.inv.holds
  rw [hB.hands_empty fun t => handOf_outside (hrest t)] at hh
  have htally := hb.legal.replays.tallied hh.stored_iff
  rw [hadds, hdels]
  exact ⟨htally.count key, htally.held key⟩

/-- keys 1 and 2 fill the two lists, and thread 0 has found no room for key 3 -/
def noRoom : List (ℕ × Act) :=
  callSteps 0 (.add 1 10) 5 ++ callSteps 0 (.add 2 20) 5 ++ callSteps 0 (.add 3 30) 5

/-- thread 1 deletes key 1 and adds key 4 meanwhile -/
def otherAdd : List (ℕ × Act) :=
  noRoom ++ callSteps 1 (.delete 1) 5 ++ callSteps 1 (.add 4 40) 5 ++ List.replicate 10 (0, .step)

/-- thread 1 deletes key 1 and adds key 3 meanwhile -/
def sameAdd : List (ℕ × Act) :=
  noRoom ++ callSteps 1 (.delete 1) 5 ++ callSteps 1 (.add 3 31) 5 ++ List.replicate 10 (0, .step)

theorem adds_tallied_other :
    AtRest ((sys ⟨0, 1, 1⟩).run otherAdd) ∧ Stored ((sys ⟨0, 1, 1⟩).run otherAdd).sh 3 := by
  have hrest : AtRest ((sys ⟨0, 1, 1⟩).run otherAdd) := atRest_of_lt (n := 2) (by decide +kernel) (by decide +kernel)
  have hls : (sys ⟨0, 1, 1⟩).Meets (Sys.Beside (Unrivalled ⟨0, 1, 1⟩)) otherAdd :=
    Sys.meets_of_check _ _ (n := 2) (by decide +kernel)
  exact ⟨hrest, (adds_tallied ⟨0, 1, 1⟩ otherAdd hls hrest 3).2.2 (by decide +kernel)⟩

/-- **Two adds of a key.** All calls have returned, and both adds of key 3 returned true. -/
theorem add_twice :
    AtRest ((sys ⟨0, 1, 1⟩).run sameAdd) ∧ adds 3 (updates ((sys ⟨0, 1, 1⟩).run sameAdd).sh) = 2 ∧
      deletes 3 (updates ((sys ⟨0, 1, 1⟩).run sameAdd).sh) = 0 :=
  ⟨atRest_of_lt (n := 2) (by decide +kernel) (by decide +kernel), by decide +kernel, by decide +kernel⟩

end Tally

end AlgorithmCollection.ConcurrentCuckooHash
