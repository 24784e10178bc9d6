/-
The number of nodes that `StripedHash` keeps in `setSize`.

`setSize++` and `setSize--` are a load and a store, and the lock that is held at the time is one of many. `count_lost`: two
adds in different stripes load the same number, and `setSize` is 1 for two nodes. `setSize_exact`: in runs in which no
thread stores to `setSize` while another is between its load and its store, `setSize` is the number of nodes whenever no
call is in progress.

The invariant is an account: `setSize` and what all threads together still owe it make up the number of stored keys.
-/
import AlgorithmCollection.Hash.StripedHashMap

namespace AlgorithmCollection.StripedHash

open Conc Chained

/-- this thread does not store to `setSize` while the other is between its load and its store -/
def CountsAlone (_ : Mem) (l : Loc) (_ : Act) (o : Loc) : Prop := counting l = true → counting o = false

instance CountsAlone.decidable (m : Mem) (l : Loc) (a : Act) (o : Loc) : Decidable (CountsAlone m l a o) :=
  inferInstanceAs (Decidable (_ → _))

/-! ## The stored keys -/

/-- K is the set of the keys that are in the table according to the record -/
def KeySet (h : List Ev) (K : Finset ℤ) : Prop := ∀ k, k ∈ K ↔ (replay h k).isSome = true

section Stored

variable {h : List Ev} {K : Finset ℤ} {k v : ℤ}

theorem keySet_nil : KeySet [] ∅ := fun k => ⟨fun h => absurd h (Finset.notMem_empty k), nofun⟩

theorem KeySet.link (hK : KeySet h K) (v : ℤ) : KeySet (h ++ [.link k v]) (insert k K) := by
  intro k'
  rw [replay_snoc_link, Finset.mem_insert, hK k']
  by_cases e : k' = k
  · rw [e, Function.update_self]; simp
  · rw [Function.update_of_ne e]; simp [e]

theorem KeySet.unlink (hK : KeySet h K) : KeySet (h ++ [.unlink k]) (K.erase k) := by
  intro k'
  rw [replay_snoc_unlink, Finset.mem_erase, hK k']
  by_cases e : k' = k
  · rw [e, Function.update_self]; simp
  · rw [Function.update_of_ne e]; simp [e]

theorem KeySet.notMem (hK : KeySet h K) (hk : replay h k = none) : k ∉ K := by
  rw [hK k, hk]; exact Bool.false_ne_true

theorem KeySet.mem (hK : KeySet h K) (hk : replay h k = some v) : k ∈ K := by
  rw [hK k, hk]; rfl

end Stored

/-! ## The account -/

/-- the store to `setSize` is the change by `delta`, modulo the word size -/
theorem Done.count_modEq (d : Done) (n : ℕ) : (d.count n : ℤ) ≡ n + d.delta [ZMOD 2 ^ 64] := by
  cases d with
  | add c =>
    change (((n + 1) % 2 ^ 64 : ℕ) : ℤ) ≡ n + 1 [ZMOD 2 ^ 64]
    push_cast
    exact Int.mod_modEq _ _
  | delete k v =>
    change (((n + 2 ^ 64 - 1) % 2 ^ 64 : ℕ) : ℤ) ≡ n + -1 [ZMOD 2 ^ 64]
    rw [Int.natCast_mod, Nat.cast_sub (by omega)]
    push_cast
    refine (Int.mod_modEq _ _).trans ?_
    rw [add_sub_right_comm, ← sub_eq_add_neg]
    exact Int.add_modEq_right

theorem Done.count_lt (d : Done) (n : ℕ) : d.count n < 2 ^ 64 := by
  cases d <;> exact Nat.mod_lt _ (by decide)

/-- `setSize` and what the threads still owe it make up the number of the stored keys -/
structure Account (s : St Mem Loc) : Prop where
  lt : s.sh.setSize < 2 ^ 64
  loaded : ∀ t d b n, s.loc t = .count2 d b n → n = s.sh.setSize
  sum : ∃ K n, KeySet s.sh.hist K ∧ Sys.Total owed s n ∧ (s.sh.setSize : ℤ) + n ≡ K.card [ZMOD 2 ^ 64]

section Account

variable {P : Params}

theorem account_init : Account (sys P).init where
  lt := (by decide : (0 : ℕ) < 2 ^ 64)
  loaded := nofun
  sum := ⟨∅, 0, keySet_nil, Sys.Total.init _ rfl, rfl⟩

/-- one step keeps the account, if the step is not a store in between another thread's load and store -/
theorem Account.next {s : St Mem Loc} {x : ℕ × Act} (h : Account s) (hx : Sys.Beside CountsAlone s x)
    (hc : Change s.sh (s.loc x.1) ((sys P).next s x).sh (((sys P).next s x).loc x.1)) : Account ((sys P).next s x) := by
  obtain ⟨K, n, hK, hn, hsum⟩ := h.sum
  have hn' := Sys.Total.next (sys P) hn x
  -- the other threads' loaded values stay right while `setSize` stays
  have hloaded : ((sys P).next s x).sh.setSize = s.sh.setSize →
      (∀ d b n, ((sys P).next s x).loc x.1 = .count2 d b n → n = s.sh.setSize) →
      ∀ t d b n, ((sys P).next s x).loc t = .count2 d b n → n = ((sys P).next s x).sh.setSize := by
    intro hsize hself t d b n hl
    rw [hsize]
    by_cases ht : t = x.1
    · rw [ht] at hl; exact hself d b n hl
    · rw [Sys.next_loc_ne _ _ _ ht] at hl; exact h.loaded t d b n hl
  cases hc with
  | same hhist hsize howed hnew =>
    refine ⟨hsize ▸ h.lt, hloaded hsize fun d b n hl => ?_, K, n, hhist ▸ hK, ?_, hsize ▸ hsum⟩
    · rcases hnew d b n hl with e | e
      · exact h.loaded x.1 d b n (e.trans hl)
      · exact e
    · rwa [howed, sub_add_cancel] at hn'
  | link k v hhist hk hsize h0 h1 hnew =>
    refine ⟨hsize ▸ h.lt, hloaded hsize fun d b n hl => absurd hl (hnew d b n), insert k K, n + 1, hhist ▸ hK.link v, ?_, ?_⟩
    · rwa [h0, h1, sub_zero] at hn'
    · rw [hsize, Finset.card_insert_of_notMem (hK.notMem hk), ← add_assoc]
      push_cast
      exact hsum.add_right 1
  | unlink k v hhist hk hsize h0 h1 hnew =>
    refine ⟨hsize ▸ h.lt, hloaded hsize fun d b n hl => absurd hl (hnew d b n), K.erase k, n + -1, hhist ▸ hK.unlink, ?_, ?_⟩
    · rwa [h0, h1, sub_zero] at hn'
    · have hcard : ((K.erase k).card : ℤ) = K.card + -1 := by
        rw [← Finset.card_erase_add_one (hK.mem hk)]
        push_cast
        ring
      rw [hsize, hcard, ← add_assoc]
      exact hsum.add_right (-1)
  | count d b c hl hhist hsize h0 hnew =>
    -- nobody else has loaded `setSize`
    have hcount : counting (s.loc x.1) = true := by rw [hl]; rfl
    have howed : owed (s.loc x.1) = d.delta := by rw [hl]; rfl
    have hc := h.loaded x.1 d b c hl
    refine ⟨hsize ▸ d.count_lt c, fun t d' b' n' ht => ?_, K, n - d.delta, hhist ▸ hK, ?_, ?_⟩
    · by_cases e : t = x.1
      · rw [e] at ht; exact absurd ht (hnew d' b' n')
      · rw [Sys.next_loc_ne _ _ _ e] at ht
        have hidle := hx t e hcount
        rw [ht] at hidle
        cases hidle
    · rwa [h0, howed, add_zero] at hn'
    · rw [hsize]
      calc (d.count c : ℤ) + (n - d.delta) ≡ (c + d.delta) + (n - d.delta) [ZMOD 2 ^ 64] :=
            (d.count_modEq c).add_right _
        _ = s.sh.setSize + n := by rw [hc]; ring
        _ ≡ K.card [ZMOD 2 ^ 64] := hsum

theorem account_run (ls : List (ℕ × Act)) (hls : (sys P).Meets (Sys.Beside CountsAlone) ls) :
    Account ((sys P).run ls) := by
  induction ls using List.reverseRecOn with
  | nil => exact account_init
  | append_singleton ls x ih =>
    obtain ⟨hls, hx⟩ := (Sys.meets_snoc (sys P) _ ls x).1 hls
    have hc := run_change (P := P) ls x
    rw [Sys.run_snoc] at hc ⊢
    exact (ih hls).next hx hc

end Account

/-! ## At rest -/

theorem owed_of_not_busy {l : Loc} (h : ¬ table.Busy l) : owed l = 0 := by
  rcases not_busy_cases h with rfl | ⟨op, r, rfl⟩ <;> rfl

theorem not_resizing_of_not_busy {l : Loc} (h : ¬ table.Busy l) : resizing l = false := by
  rcases not_busy_cases h with rfl | ⟨op, r, rfl⟩ <;> rfl

/-- the keys of the nodes are the stored keys, each once -/
theorem KeySet.card_eq {P : Params} {ls : List (ℕ × Act)} {K : Finset ℤ} (hK : KeySet ((sys P).run ls).sh.hist K)
    (hr : ∀ t, resizing (((sys P).run ls).loc t) = false) : K.card = (keys ((sys P).run ls).sh).length := by
  obtain ⟨g, hI, hA, -⟩ := inv_run (P := P) ls
  have hL := hI.live (no_mig_of_rest hA hr)
  rw [← List.toFinset_card_of_nodup hL.keys_nodup]
  congr 1
  ext k
  rw [hK k, List.mem_toFinset, Option.isSome_iff_exists]
  constructor
  · rintro ⟨v, hv⟩
    obtain ⟨b, hb, a, ha, hk, -⟩ := (hL.pairs k v).2 hv
    exact List.mem_flatMap.2 ⟨b, List.mem_range.2 hb, List.mem_map.2 ⟨a, ha, hk⟩⟩
  · intro hk
    obtain ⟨b, hb, hk⟩ := List.mem_flatMap.1 hk
    obtain ⟨a, ha, hk⟩ := List.mem_map.1 hk
    exact ⟨_, (hL.pairs k _).1 ⟨b, List.mem_range.1 hb, a, ha, hk, rfl⟩⟩

/-- **`setSize` is exact at rest**, in runs in which no thread stores to it while another is between its load and its store.
(It is an unsigned long, so the number of nodes is counted modulo 2 ^ 64.) -/
theorem setSize_exact (P : Params) (ls : List (ℕ × Act)) (hls : (sys P).Meets (Sys.Beside CountsAlone) ls)
    (hrest : ∀ t, ¬ table.Busy (((sys P).run ls).loc t)) :
    ((sys P).run ls).sh.setSize = (keys ((sys P).run ls).sh).length % 2 ^ 64 ∧
      ((keys ((sys P).run ls).sh).length < 2 ^ 64 →
        ((sys P).run ls).sh.setSize = (keys ((sys P).run ls).sh).length) := by
  have hacc := account_run ls hls
  obtain ⟨K, n, hK, hn, hsum⟩ := hacc.sum
  have h0 : n = 0 := hn.eq_zero fun t => owed_of_not_busy (hrest t)
  have hcard := hK.card_eq fun t => not_resizing_of_not_busy (hrest t)
  have hmod : ((sys P).run ls).sh.setSize = (keys ((sys P).run ls).sh).length % 2 ^ 64 := by
    rw [h0, add_zero, hcard] at hsum
    have hnat : ((sys P).run ls).sh.setSize ≡ (keys ((sys P).run ls).sh).length [MOD 2 ^ 64] := by
      exact_mod_cast (Int.natCast_modEq_iff (n := 2 ^ 64)).1 (by exact_mod_cast hsum)
    rw [← Nat.mod_eq_of_lt hacc.lt]
    exact hnat
  exact ⟨hmod, fun hlt => by rw [hmod, Nat.mod_eq_of_lt hlt]⟩

/-- the threads below n have returned and no others take steps -/
theorem rest_of_lt {P : Params} {ls : List (ℕ × Act)} {n : ℕ} (hls : ∀ x ∈ ls, x.1 < n)
    (h : ∀ t < n, ∃ op r, ((sys P).run ls).loc t = .ret op r) (t : ℕ) : ¬ table.Busy (((sys P).run ls).loc t) := by
  refine (sys P).run_loc_of_lt (Q := fun l => ¬ table.Busy l) hls (fun ⟨op, h⟩ => nomatch h) (fun t ht => ?_) t
  obtain ⟨op, r, e⟩ := h t ht
  rw [e]
  exact fun ⟨op, h⟩ => nomatch h

/-- two stripes: thread 1 adds while thread 0 has put its node in and not yet loaded `setSize` -/
def countsApart : List (ℕ × Act) := callSteps 0 (.add 0 0) 8 ++ callSteps 1 (.add 1 0) 13 ++ List.replicate 5 (0, .step)

theorem setSize_exact_apart :
    (∀ t, ¬ table.Busy (((sys ⟨2, by decide, by decide⟩).run countsApart).loc t)) ∧
      ((sys ⟨2, by decide, by decide⟩).run countsApart).sh.setSize =
        (keys ((sys ⟨2, by decide, by decide⟩).run countsApart).sh).length := by
  have hrest : ∀ t, ¬ table.Busy (((sys ⟨2, by decide, by decide⟩).run countsApart).loc t) := by
    refine rest_of_lt (n := 2) (by decide +kernel) fun t ht => ?_
    interval_cases t
    · exact ⟨.add 0 0, .add true, by decide +kernel⟩
    · exact ⟨.add 1 0, .add true, by decide +kernel⟩
  exact ⟨hrest, (setSize_exact _ _ (Sys.meets_of_check _ _ (n := 2) (by decide +kernel)) hrest).2 (by decide +kernel)⟩

/-- thread 1 adds while thread 0 has loaded `setSize` -/
def countsTogether : List (ℕ × Act) :=
  callSteps 0 (.add 0 0) 9 ++ callSteps 1 (.add 1 0) 13 ++ List.replicate 4 (0, .step)

/-- both adds return true, and `setSize` is 1 -/
theorem count_lost :
    (∀ t, ¬ table.Busy (((sys ⟨2, by decide, by decide⟩).run countsTogether).loc t)) ∧
      ((sys ⟨2, by decide, by decide⟩).run countsTogether).sh.setSize = 1 ∧
      keys ((sys ⟨2, by decide, by decide⟩).run countsTogether).sh = [0, 1] := by
  refine ⟨rest_of_lt (n := 2) (by decide +kernel) fun t ht => ?_, by decide +kernel, by decide +kernel⟩
  interval_cases t
  · exact ⟨.add 0 0, .add true, by decide +kernel⟩
  · exact ⟨.add 1 0, .add true, by decide +kernel⟩

end AlgorithmCollection.StripedHash
