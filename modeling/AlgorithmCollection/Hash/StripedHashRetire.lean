/-
Which bucket arrays the resizes of `StripedHash` release.

`resize` reads the array to release from `ht->old_bucket` after it has dropped all locks. `freed_twice`: a second `resize` has
stored the live array there by then, which is released while it is in use, once more by the second `resize`, and the
array that the first one replaced is never released. `retires_once`: in runs in which no thread stores to `ht->old_bucket`
while another has ended its migration and not yet read it, no array is released twice, none while it is in use or while nodes
are moved out of it, and a `resize` that has returned has released the array it replaced.

A thread `claims` an array from the store that replaces it to the call of `free_bucket`; different threads claim different
arrays, and nobody claims the live one.
-/
import AlgorithmCollection.Hash.StripedHashMap

namespace AlgorithmCollection.StripedHash

open Conc Chained
open Function (update update_self update_of_ne update_eq_self)

/-- `ht->old_bucket = ht->bucket` -/
def storesOld : Loc → Bool
  | .rOld2 _ => true
  | _ => false

/-- the migration is done and `ht->old_bucket` has not been read for `free_bucket` -/
def releasing : Loc → Bool
  | .rUnlock _ _ | .rFree1 _ => true
  | _ => false

/-- this thread does not store to `ht->old_bucket` while the other is about to read it -/
def KeepsOld (_ : Mem) (l : Loc) (_ : Act) (o : Loc) : Prop := storesOld l = true → releasing o = false

instance KeepsOld.decidable (m : Mem) (l : Loc) (a : Act) (o : Loc) : Decidable (KeepsOld m l a o) :=
  inferInstanceAs (Decidable (_ → _))

/-- the array the thread has replaced and not released yet -/
def claims (m : Mem) (l : Loc) : Option ℕ :=
  if resizing l = true ∨ releasing l = true then some m.oldBucket
  else
    match l with
    | .rFree2 _ A => some A
    | _ => none

/-- the array that a step replaces -/
def replaces (m : Mem) (l : Loc) (a : Act) : Option ℕ :=
  match a, l with
  | .step, .rInit _ => if m.tableSize * 2 < 2 ^ 32 then some m.bucket else none
  | _, _ => none

/-! ## What a step does to the arrays -/

/-- what a step does to the arrays: nothing, the store to `ht->old_bucket`, a new array, or the release of one -/
inductive Retires (m : Mem) (l : Loc) (a : Act) (m' : Mem) (l' : Loc) : Prop where
  | same : m'.bucket = m.bucket → m'.arrays = m.arrays → m'.oldBucket = m.oldBucket → claims m' l' = claims m l →
      frees m l a = none → replaces m l a = none → Retires m l a m' l'
  | old : storesOld l = true → m'.bucket = m.bucket → m'.arrays = m.arrays → claims m l = none → claims m' l' = none →
      frees m l a = none → replaces m l a = none → Retires m l a m' l'
  | replace : m'.bucket = m.arrays → m'.arrays = m.arrays + 1 → m'.oldBucket = m.oldBucket → claims m l = none →
      claims m' l' = some m.bucket → frees m l a = none → replaces m l a = some m.bucket → Retires m l a m' l'
  | free (A n : ℕ) : m'.bucket = m.bucket → m'.arrays = m.arrays → m'.oldBucket = m.oldBucket → claims m l = some A →
      claims m' l' = none → frees m l a = some (A, n) → replaces m l a = none → Retires m l a m' l'

section Retires

variable {P : Params} {g : Ghost} {t : ℕ} {m m' : Mem} {l l' : Loc} {a : Act}

theorem Retires.refl (hf : frees m l a = none) (hr : replaces m l a = none) : Retires m l a m l :=
  .same rfl rfl rfl rfl hf hr

theorem claims_eq (hb : m'.oldBucket = m.oldBucket) : claims m' l = claims m l := by
  unfold claims; rw [hb]

theorem exec_retires (h : AsrtAt P g t m l) : Retires m l .step (exec P t m l).1 (exec P t m l).2 := by
  cases l with
  | idle | ret op r => exact .refl rfl rfl
  | lockB u r s b | findLock k b =>
    simp only [exec, lock]
    split_ifs
    · exact .same rfl rfl rfl rfl rfl rfl
    · exact .refl rfl rfl
  | rLock c s i =>
    simp only [exec, lock]
    split_ifs
    · exact .same rfl rfl rfl rfl rfl rfl
    · exact .refl rfl rfl
    · exact .same rfl rfl rfl rfl rfl rfl
  | recheck u r s b =>
    simp only [exec]
    split_ifs
    · cases u <;> exact .same rfl rfl rfl rfl rfl rfl
    · exact .same rfl rfl rfl rfl rfl rfl
  | first c b =>
    simp only [exec, afterFirst]
    split_ifs
    · cases c <;> exact .same rfl rfl rfl rfl rfl rfl
    · exact .same rfl rfl rfl rfl rfl rfl
  | test c b p q | rCheck c s | rList c i | rTest c i p q | rQuit c i
  | rUnlock c i => simp only [exec]; split_ifs <;> exact .same rfl rfl rfl rfl rfl rfl
  | check c b p q =>
    change Retires m _ _ m (afterCheck c b p q (decide (q ≠ NULL ∧ c.key m = (m.node q).key)))
    generalize decide (q ≠ NULL ∧ c.key m = (m.node q).key) = f
    cases c with
    | ins c => cases f <;> cases c <;> exact .same rfl rfl rfl rfl rfl rfl
    | _ => cases f <;> exact .same rfl rfl rfl rfl rfl rfl
  | addEmpty1 c b h' | addEmpty2 c b | link2 c b p q => cases c <;> exact .same rfl rfl rfl rfl rfl rfl
  | unlockOk d b => cases d <;> exact .same rfl rfl rfl rfl rfl rfl
  | unlockRetry u r b =>
    simp only [exec]
    split_ifs
    · exact .same rfl rfl rfl rfl rfl rfl
    · cases u <;> exact .same rfl rfl rfl rfl rfl rfl
  | policy2 c n =>
    simp only [exec]
    cases policy n m.tableSize <;> exact .same rfl rfl rfl rfl rfl rfl
  | rOld2 c => exact .old rfl rfl rfl rfl rfl rfl rfl
  | rInit c =>
    have hold : m.oldBucket = m.bucket := h.2.2
    simp only [exec]
    split_ifs with hroom
    · exact .replace rfl rfl rfl rfl (congrArg some hold) rfl (if_pos hroom)
    · exact .refl rfl (if_neg hroom)
  | rFree2 c A => exact .free A m.oldTableSize rfl rfl rfl rfl rfl rfl rfl
  | _ => exact .same rfl rfl rfl rfl rfl rfl

theorem step_retires (h : AsrtAt P g t m l) (a : Act) : Retires m l a (step P t m l a).1 (step P t m l a).2 := by
  cases a with
  | step => exact exec_retires h
  | invoke op =>
    simp only [step]
    by_cases hc : canInvoke l op = true
    · rw [if_pos hc]
      have hnone : claims m l = none := by
        cases l with
        | idle | ret _ _ => rfl
        | _ => cases hc
      cases op <;> exact .same rfl rfl rfl hnone.symm rfl rfl
    · rw [if_neg hc]
      exact .refl rfl rfl

/-- a thread about to store to `ht->old_bucket` holds all locks, so no other is moving nodes -/
theorem not_resizing_beside {u : ℕ} {o : Loc} (hI : Inv P g m) (ht : AsrtAt P g t m l) (hu : Asrt P g u m o) (hne : u ≠ t)
    (hl : storesOld l = true) : resizing o = false := by
  by_contra hr
  have hmig := hu.migrates (Bool.eq_true_of_not_eq_false hr)
  cases l with
  | rOld2 c =>
    have h1 := hI.held u hmig 0 P.pos
    have h2 := ht.1 0 le_rfl P.pos
    rw [h1] at h2
    exact hne (Option.some.inj h2)
  | _ => cases hl

/-- the claims of the other threads stay -/
theorem Retires.others {u : ℕ} {o : Loc} (h : Retires m l a m' l') (hI : Inv P g m) (ht : AsrtAt P g t m l)
    (hu : Asrt P g u m o) (hne : u ≠ t) (hk : KeepsOld m l a o) : claims m' o = claims m o := by
  cases h with
  | same _ _ hold _ _ _ | replace _ _ hold _ _ _ _ | free A n _ _ hold _ _ _ _ => exact claims_eq hold
  | old hl _ _ _ _ _ _ =>
    have h1 := not_resizing_beside hI ht hu hne hl
    have h2 := hk hl
    unfold claims
    rw [h1, h2]
    rfl

end Retires

/-! ## Who has which array -/

/-- of the arrays below N, B is live, those of F are released, and thread t has the array `C t` to release -/
structure Custody (N B : ℕ) (F : List ℕ) (C : ℕ → Option ℕ) : Prop where
  live : B < N
  nodup : F.Nodup
  freed : ∀ A ∈ F, A < N ∧ A ≠ B
  claimed : ∀ t A, C t = some A → A < N ∧ A ≠ B ∧ A ∉ F
  once : ∀ t u A, C t = some A → C u = some A → t = u

namespace Custody

variable {N B : ℕ} {F : List ℕ} {C : ℕ → Option ℕ} {t : ℕ}

/-- a new array takes the place of the live one, which is t's to release -/
theorem replace (h : Custody N B F C) (t : ℕ) : Custody (N + 1) N F (update C t (some B)) where
  live := Nat.lt_succ_self N
  nodup := h.nodup
  freed A hA := ⟨Nat.lt_succ_of_lt (h.freed A hA).1, (h.freed A hA).1.ne⟩
  claimed u A hA := by
    by_cases hu : u = t
    · rw [hu, update_self] at hA
      cases hA
      exact ⟨Nat.lt_succ_of_lt h.live, h.live.ne, fun hF => (h.freed _ hF).2 rfl⟩
    · rw [update_of_ne hu] at hA
      obtain ⟨h1, -, h3⟩ := h.claimed u A hA
      exact ⟨Nat.lt_succ_of_lt h1, h1.ne, h3⟩
  once u v A hu hv := by
    -- nobody had the live array
    have hnew : ∀ w, w ≠ t → update C t (some B) w ≠ some B := by
      intro w hw hB
      rw [update_of_ne hw] at hB
      exact (h.claimed w B hB).2.1 rfl
    by_cases hut : u = t
    · by_cases hvt : v = t
      · rw [hut, hvt]
      · rw [hut, update_self] at hu
        cases hu
        exact absurd hv (hnew v hvt)
    · by_cases hvt : v = t
      · rw [hvt, update_self] at hv
        cases hv
        exact absurd hu (hnew u hut)
      · rw [update_of_ne hut] at hu
        rw [update_of_ne hvt] at hv
        exact h.once u v A hu hv

/-- t releases its array -/
theorem free (h : Custody N B F C) {A : ℕ} (ht : C t = some A) : Custody N B (F ++ [A]) (update C t none) := by
  have hold : ∀ u A', update C t none u = some A' → u ≠ t ∧ C u = some A' := by
    intro u A' hu
    by_cases hut : u = t
    · rw [hut, update_self] at hu; cases hu
    · rw [update_of_ne hut] at hu
      exact ⟨hut, hu⟩
  refine ⟨h.live, ?_, fun A' hA' => ?_, fun u A' hu => ?_, fun u v A' hu hv => ?_⟩
  · refine List.nodup_append.2 ⟨h.nodup, List.nodup_singleton A, fun x hx y hy => ?_⟩
    rw [List.mem_singleton.1 hy]
    exact fun e => (h.claimed t A ht).2.2 (e ▸ hx)
  · rcases List.mem_append.1 hA' with hF | hF
    · exact h.freed A' hF
    · rw [List.mem_singleton.1 hF]
      exact ⟨(h.claimed t A ht).1, (h.claimed t A ht).2.1⟩
  · obtain ⟨hut, hu⟩ := hold u A' hu
    obtain ⟨h1, h2, h3⟩ := h.claimed u A' hu
    refine ⟨h1, h2, fun hF => ?_⟩
    rcases List.mem_append.1 hF with hF | hF
    · exact h3 hF
    · rw [List.mem_singleton.1 hF] at hu
      exact hut (h.once u t A hu ht)
  · exact h.once u v A' (hold u A' hu).2 (hold v A' hv).2

end Custody

/-! ## The run -/

section Run

variable {P : Params}

/-- what every thread has to release -/
def claimed (s : St Mem Loc) (t : ℕ) : Option ℕ := claims s.sh (s.loc t)

/-- the arrays released in a run -/
def freed (P : Params) (ls : List (ℕ × Act)) : List ℕ := ((sys P).trace frees ls).map Prod.fst

theorem freed_snoc (ls : List (ℕ × Act)) (x : ℕ × Act) : freed P (ls ++ [x]) =
    freed P ls ++ (frees ((sys P).run ls).sh (((sys P).run ls).loc x.1) x.2).toList.map Prod.fst := by
  unfold freed
  rw [Sys.trace_snoc, List.map_append]

/-- a step changes the claim of its own thread only -/
theorem run_retires (ls : List (ℕ × Act)) (x : ℕ × Act) (hx : Sys.Beside KeepsOld ((sys P).run ls) x) :
    Retires ((sys P).run ls).sh (((sys P).run ls).loc x.1) x.2 ((sys P).run (ls ++ [x])).sh
        (((sys P).run (ls ++ [x])).loc x.1) ∧
      claimed ((sys P).run (ls ++ [x])) =
        update (claimed ((sys P).run ls)) x.1 (claimed ((sys P).run (ls ++ [x])) x.1) := by
  obtain ⟨g, hI, hA, -⟩ := inv_run (P := P) ls
  have hr := step_retires (hA x.1).at_ x.2
  rw [Sys.run_snoc]
  constructor
  · rw [Sys.next_loc_self, Sys.next_sh]
    exact hr
  · funext u
    by_cases hu : u = x.1
    · rw [hu, update_self]
    · rw [update_of_ne hu]
      unfold claimed
      rw [Sys.next_loc_ne _ _ _ hu, Sys.next_sh]
      exact hr.others hI (hA x.1).at_ (hA u) hu (hx u hu)

theorem custody_run (ls : List (ℕ × Act)) (hls : (sys P).Meets (Sys.Beside KeepsOld) ls) :
    Custody ((sys P).run ls).sh.arrays ((sys P).run ls).sh.bucket (freed P ls) (claimed ((sys P).run ls)) := by
  induction ls using List.reverseRecOn with
  | nil =>
    exact ⟨Nat.zero_lt_one, List.nodup_nil, nofun, nofun,
      nofun⟩
  | append_singleton ls x ih =>
    obtain ⟨hls, hx⟩ := (Sys.meets_snoc (sys P) _ ls x).1 hls
    have hC := ih hls
    obtain ⟨hr, hclaims⟩ := run_retires ls x hx
    have hself : claimed ((sys P).run (ls ++ [x])) x.1 = claims ((sys P).run (ls ++ [x])).sh _ := rfl
    rw [freed_snoc, hclaims, hself]
    cases hr with
    | same hb ha _ hc hf _ =>
      rw [hb, ha, hf, hc, Option.toList_none, List.map_nil, List.append_nil]
      rwa [show claims _ _ = claimed ((sys P).run ls) x.1 from rfl, update_eq_self]
    | old _ hb ha hc hc' hf _ =>
      rw [hb, ha, hf, hc'.trans hc.symm, Option.toList_none, List.map_nil, List.append_nil]
      rwa [show claims _ _ = claimed ((sys P).run ls) x.1 from rfl, update_eq_self]
    | replace hb ha _ _ hc hf _ =>
      rw [hb, ha, hf, hc, Option.toList_none, List.map_nil, List.append_nil]
      exact hC.replace x.1
    | free A n hb ha _ hc hc' hf _ =>
      rw [hb, ha, hf, hc']
      exact hC.free hc

/-- an array that thread t has replaced is released or still t's to release -/
theorem released_or_claimed (ls : List (ℕ × Act)) (hls : (sys P).Meets (Sys.Beside KeepsOld) ls) {k t A : ℕ} {a : Act}
    (hk : ls[k]? = some (t, a))
    (hA : replaces ((sys P).run (ls.take k)).sh (((sys P).run (ls.take k)).loc t) a = some A) :
    A ∈ freed P ls ∨ claimed ((sys P).run ls) t = some A := by
  induction ls using List.reverseRecOn with
  | nil => cases hk
  | append_singleton ls x ih =>
    obtain ⟨hls, hx⟩ := (Sys.meets_snoc (sys P) _ ls x).1 hls
    obtain ⟨hr, hclaims⟩ := run_retires ls x hx
    rw [freed_snoc, List.mem_append]
    have hlt : k < (ls ++ [x]).length := (List.getElem?_eq_some_iff.1 hk).1
    rw [List.length_append, List.length_singleton] at hlt
    rcases Nat.lt_succ_iff_lt_or_eq.1 hlt with hlt | rfl
    · rw [List.getElem?_append_left hlt] at hk
      rw [List.take_append_of_le_length hlt.le] at hA
      rcases ih hls hk hA with hF | hC
      · exact .inl (.inl hF)
      · by_cases ht : t = x.1
        · have hC' : claims ((sys P).run ls).sh (((sys P).run ls).loc x.1) = some A := ht ▸ hC
          rw [ht]
          cases hr with
          | same _ _ _ hc _ _ => exact .inr (hc.trans hC')
          | old _ _ _ hc _ _ _ | replace _ _ _ hc _ _ _ => rw [hc] at hC'; cases hC'
          | free A' n _ _ _ hc _ hf _ =>
            rw [hc] at hC'
            cases hC'
            rw [hf]
            exact .inl (.inr (List.mem_singleton_self _))
        · rw [hclaims, update_of_ne ht]
          exact .inr hC
    · -- the step at which t replaces it
      rw [List.getElem?_append_right le_rfl, Nat.sub_self] at hk
      cases hk
      rw [List.take_left] at hA
      cases hr with
      | same _ _ _ _ _ h | old _ _ _ _ _ _ h | free A' n _ _ _ _ _ _ h => rw [h] at hA; cases hA
      | replace _ _ _ _ hc _ h =>
        rw [h] at hA
        exact .inr (hc.trans hA)

end Run

theorem claims_of_frees {m : Mem} {l : Loc} {a : Act} {A n : ℕ} (h : frees m l a = some (A, n)) : claims m l = some A := by
  cases a with
  | invoke op => cases h
  | step =>
    cases l with
    | rFree2 c A' => cases h; rfl
    | _ => cases h

theorem not_resizing_of_frees {m : Mem} {l : Loc} {a : Act} {x : ℕ × ℕ} (h : frees m l a = some x) : resizing l = false := by
  cases a with
  | invoke op => cases h
  | step =>
    cases l with
    | rFree2 c A' => rfl
    | _ => cases h

theorem claims_of_resizing {m : Mem} {l : Loc} (h : resizing l = true) : claims m l = some m.oldBucket := if_pos (.inl h)

theorem claims_of_not_busy {m : Mem} {l : Loc} (h : ¬ table.Busy l) : claims m l = none := by
  rcases not_busy_cases h with rfl | ⟨op, r, rfl⟩ <;> rfl

/-- **Every old table is released once, and after its migration**, in runs in which no thread stores to `ht->old_bucket` while
another has ended its migration and not yet read it: no array is passed to `free_bucket` twice, none while it is the live one
or nodes are moved out of it, and once a call whose `resize` replaced an array has returned, the array has been released. -/
theorem retires_once (P : Params) (ls : List (ℕ × Act)) (hls : (sys P).Meets (Sys.Beside KeepsOld) ls) :
    (freed P ls).Nodup ∧
      (∀ t a A n, frees ((sys P).run ls).sh (((sys P).run ls).loc t) a = some (A, n) →
        A ∉ freed P ls ∧ A ≠ ((sys P).run ls).sh.bucket ∧
          ∀ u, resizing (((sys P).run ls).loc u) = true → ((sys P).run ls).sh.oldBucket ≠ A) ∧
      ∀ k t a A, ls[k]? = some (t, a) →
        replaces ((sys P).run (ls.take k)).sh (((sys P).run (ls.take k)).loc t) a = some A →
        ¬ table.Busy (((sys P).run ls).loc t) → A ∈ freed P ls := by
  have hC := custody_run ls hls
  refine ⟨hC.nodup, fun t a A n hf => ?_, fun k t a A hk hA hret => ?_⟩
  · have hclaim : claimed ((sys P).run ls) t = some A := claims_of_frees hf
    obtain ⟨-, hlive, hF⟩ := hC.claimed t A hclaim
    refine ⟨hF, hlive, fun u hu hold => ?_⟩
    -- the thread that moves the nodes would be t, which is not moving any
    have hu' : claimed ((sys P).run ls) u = some A := hold ▸ claims_of_resizing hu
    have hut := hC.once u t A hu' hclaim
    rw [hut, not_resizing_of_frees hf] at hu
    cases hu
  · rcases released_or_claimed ls hls hk hA with hF | hclaim
    · exact hF
    · have hnone : claimed ((sys P).run ls) t = none := claims_of_not_busy hret
      rw [hnone] at hclaim
      cases hclaim

/-- one stripe: thread 0 fills the table and has moved the nodes to two buckets; thread 1 adds four nodes more -/
def firstResize : List (ℕ × Act) :=
  callSteps 0 (.add 15 0) 13 ++ callSteps 0 (.add 14 0) 15 ++ callSteps 0 (.add 13 0) 15 ++ callSteps 0 (.add 12 0) 15 ++
    callSteps 0 (.add 11 0) 82 ++ callSteps 1 (.add 10 0) 15 ++ callSteps 1 (.add 9 0) 15 ++ callSteps 1 (.add 8 0) 15 ++
    callSteps 1 (.add 7 0) 15

/-- thread 0 reads `ht->old_bucket` just before thread 1, which doubles the table again, stores to it -/
def readsBefore : List (ℕ × Act) :=
  firstResize ++ callSteps 1 (.add 6 0) 20 ++ [(0, .step)] ++ List.replicate 120 (1, .step) ++ [(0, .step)]

/-- both arrays are released -/
theorem retires_once_both :
    (freed ⟨1, by decide, by decide⟩ readsBefore).Nodup ∧ freed ⟨1, by decide, by decide⟩ readsBefore = [1, 0] :=
  ⟨(retires_once _ _ (Sys.meets_of_check _ _ (n := 2) (by decide +kernel))).1, by decide +kernel⟩

/-- thread 0 reads `ht->old_bucket` just after -/
def readsAfter : List (ℕ × Act) := firstResize ++ callSteps 1 (.add 6 0) 21 ++ [(0, .step)]

/-- thread 0 releases the live array, thread 1 releases it once more, and the first array is not released -/
theorem freed_twice :
    frees ((sys ⟨1, by decide, by decide⟩).run readsAfter).sh (((sys ⟨1, by decide, by decide⟩).run readsAfter).loc 0) .step =
        some (((sys ⟨1, by decide, by decide⟩).run readsAfter).sh.bucket, 2) ∧
      freed ⟨1, by decide, by decide⟩ (readsAfter ++ [(0, .step)] ++ List.replicate 119 (1, .step)) = [1, 1] := by
  exact ⟨by decide +kernel, by decide +kernel⟩

end AlgorithmCollection.StripedHash
