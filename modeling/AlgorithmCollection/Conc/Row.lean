/-
A linked list between two sentinels that one thread uses: the list of its addresses, and the list of its pairs.

`Row next head tail n xs`: from head over xs to tail, whose link is 0, all at addresses below n. The sentinels are told by
their addresses, and the keys need not be sorted. A search for the key k goes over the nodes below k (`lower`) and stops
between `prevOf` and `nextOf`, before the first node that is not below, or at tail. There a node is put in (`Row.add`) or
taken out (`Row.cut`).

What the calls do is said on the list of pairs: `put` puts a pair in before the first key that is not below, also if that
key is equal; `cut` takes the first pair that is not below out, if its key is equal. On strictly increasing keys these are
the insert of a new key and the erase of a finite map (`IsSorted.put`, `IsSorted.cut`).
-/
import AlgorithmCollection.Conc.TailList
import Mathlib.Data.List.TakeWhile

namespace AlgorithmCollection.Conc

open Function (update update_self update_of_ne)

variable {K V : Type*} [LinearOrder K]

/-- from head over xs to tail, whose link is 0 -/
structure Row (next : ℕ → ℕ) (head tail n : ℕ) (xs : List ℕ) : Prop where
  seg : Seg next head (head :: (xs ++ [tail]))
  lt : ∀ a ∈ head :: (xs ++ [tail]), a < n

/-- the nodes from head on, up to tail, over at most n nodes -/
def listNodes (next : ℕ → ℕ) (head tail n : ℕ) : List ℕ := walk next (fun a => a = tail) n (next head)

/-- the list from head ends at tail, and its keys are strictly increasing -/
def SortedList (next : ℕ → ℕ) (key : ℕ → K) (head tail n : ℕ) : Prop :=
  (head :: (listNodes next head tail n ++ [tail])).IsChain (fun x y => next x = y) ∧
    (listNodes next head tail n).Pairwise fun x y => key x < key y

/-- the nodes below the key -/
abbrev lower (key : ℕ → K) (k : K) (xs : List ℕ) : List ℕ := xs.takeWhile fun a => key a < k

/-- from the first node that is not -/
abbrev upper (key : ℕ → K) (k : K) (xs : List ℕ) : List ℕ := xs.dropWhile fun a => key a < k

/-- the two nodes between which a search ends -/
abbrev prevOf (key : ℕ → K) (k : K) (head : ℕ) (xs : List ℕ) : ℕ := (lower key k xs).getLastD head

abbrev nextOf (key : ℕ → K) (k : K) (tail : ℕ) (xs : List ℕ) : ℕ := (upper key k xs).headD tail

variable {key key' : ℕ → K} {val val' : ℕ → V} {next next' : ℕ → ℕ} {head tail n n' c : ℕ} {k : K} {v : V} {xs r : List ℕ}

theorem lower_append_upper (key : ℕ → K) (k : K) (xs : List ℕ) : lower key k xs ++ upper key k xs = xs :=
  List.takeWhile_append_dropWhile

theorem mem_iff (key : ℕ → K) (k : K) (xs : List ℕ) (a : ℕ) : a ∈ xs ↔ a ∈ lower key k xs ∨ a ∈ upper key k xs := by
  rw [← List.mem_append, lower_append_upper]

theorem nextOf_cases (key : ℕ → K) (k : K) (tail : ℕ) (xs : List ℕ) : (upper key k xs = [] ∧ nextOf key k tail xs = tail) ∨
    ∃ c r, upper key k xs = c :: r ∧ nextOf key k tail xs = c ∧ c ∈ xs ∧ k ≤ key c := by
  cases hu : upper key k xs with
  | nil => exact .inl ⟨rfl, by rw [nextOf, hu]; rfl⟩
  | cons c r =>
    have hne : upper key k xs ≠ [] := by rw [hu]; simp
    have hc := List.head_dropWhile_not (fun a => decide (key a < k)) hne
    simp only [hu, List.head_cons, decide_eq_false_iff_not, not_lt] at hc
    exact .inr ⟨c, r, rfl, by rw [nextOf, hu]; rfl, (List.dropWhile_sublist _).subset (hu ▸ List.mem_cons_self), hc⟩

namespace Row

variable (h : Row next head tail n xs)

include h

theorem nodup : (head :: (xs ++ [tail])).Nodup := h.seg.nodup

theorem congr (hn : n ≤ n') (hx : ∀ a < n, next' a = next a) : Row next' head tail n' xs :=
  ⟨h.seg.congr fun a ha => hx a (h.lt a ha), fun a ha => (h.lt a ha).trans_le hn⟩

theorem tail_notMem : tail ∉ xs := fun e => by
  have := (List.nodup_cons.1 h.nodup).2
  exact (List.nodup_append.1 this).2.2 tail e tail List.mem_cons_self rfl

theorem length_lt : xs.length < n := by
  have hle : _ ≤ (List.range n).length := (h.nodup.subperm fun a ha => List.mem_range.2 (h.lt a ha)).length_le
  simp at hle
  omega

/-- what a traversal from head sees -/
theorem nodes_eq : listNodes next head tail n = xs := by
  have ht := h.tail_notMem
  have hf := h.length_lt
  obtain ⟨-, -, hs⟩ := h.seg
  unfold listNodes
  clear h
  induction xs generalizing head n with
  | nil =>
    obtain ⟨f, rfl⟩ := Nat.exists_eq_succ_of_ne_zero (Nat.ne_of_gt hf)
    rw [hs.1]
    simp [walk]
  | cons x xs ih =>
    obtain ⟨f, rfl⟩ := Nat.exists_eq_succ_of_ne_zero (Nat.ne_of_gt (Nat.zero_lt_of_lt hf))
    obtain ⟨hx, -, hs⟩ := hs
    rw [List.mem_cons, not_or] at ht
    rw [hx, walk, if_neg (by simpa using Ne.symm ht.1), ih ht.2 (by simpa using hf) hs]

omit h in
theorem headD_append (l : List ℕ) : (l ++ [tail]).headD 0 = l.headD tail := by
  cases l with
  | nil | cons x l => rfl

theorem linked : (head :: (xs ++ [tail])).IsChain fun a b => next a = b := by
  obtain ⟨-, -, hs⟩ := h.seg
  generalize xs ++ [tail] = l at hs
  clear h
  induction l generalizing head with
  | nil => exact .singleton _
  | cons x l ih => exact .cons_cons hs.1 (ih hs.2.2)

/-- **A new node** is put in. -/
theorem add (key : ℕ → K) (k : K) :
    Row (update (update next n (nextOf key k tail xs)) (prevOf key k head xs) n) head tail (n + 1)
      (lower key k xs ++ n :: upper key k xs) := by
  have hn : n ∉ head :: (xs ++ [tail]) := fun e => lt_irrefl _ (h.lt n e)
  have hd := (List.nodup_cons.1 h.nodup).1
  obtain ⟨-, h0, hs⟩ := h.seg.congr fun a ha => update_of_ne (show a ≠ n from fun e => hn (e ▸ ha)) (nextOf key k tail xs) next
  have hxs : lower key k xs ++ (upper key k xs ++ [tail]) = xs ++ [tail] := by
    rw [← List.append_assoc, lower_append_upper]
  rw [← hxs] at hs hd
  constructor
  · refine ⟨rfl, h0, ?_⟩
    rw [List.append_assoc]
    refine hs.insert hd (by rwa [hxs]) ?_ ?_
    · exact ((Nat.zero_le _).trans_lt (h.lt head List.mem_cons_self)).ne'
    · rw [update_self, headD_append]
  · intro a ha
    rcases eq_or_ne a n with rfl | hne
    · exact Nat.lt_succ_self _
    · refine (h.lt a ?_).trans (Nat.lt_succ_self _)
      have hm := mem_iff key k xs a
      simp only [List.mem_cons, List.mem_append, List.not_mem_nil, or_false] at ha ⊢
      tauto

/-- **The node behind** is taken out. -/
theorem cut (hu : upper key k xs = c :: r) :
    Row (update next (prevOf key k head xs) (next c)) head tail n (lower key k xs ++ r) := by
  have hd := (List.nodup_cons.1 h.nodup).1
  obtain ⟨-, h0, hs⟩ := h.seg
  have hxs : lower key k xs ++ c :: (r ++ [tail]) = xs ++ [tail] := by
    rw [← List.cons_append, ← hu, ← List.append_assoc, lower_append_upper]
  rw [← hxs] at hs hd
  constructor
  · refine ⟨rfl, h0, ?_⟩
    rw [List.append_assoc]
    exact hs.remove hd
  · intro a ha
    refine h.lt a ?_
    rw [← hxs]
    simp only [List.mem_cons, List.mem_append, List.not_mem_nil, or_false] at ha ⊢
    tauto

end Row

/-! ## The list of pairs -/

def pairs (key : ℕ → K) (val : ℕ → V) (xs : List ℕ) : List (K × V) := xs.map fun a => (key a, val a)

/-- a pair is put in before the first key that is not below -/
def put (k : K) (v : V) (ps : List (K × V)) : List (K × V) :=
  ps.takeWhile (fun p => p.1 < k) ++ (k, v) :: ps.dropWhile (fun p => p.1 < k)

/-- the first pair that is not below is taken out, if it has the key -/
def cut (k : K) (ps : List (K × V)) : List (K × V) × Option V :=
  match ps.dropWhile (fun p => p.1 < k) with
  | [] => (ps, none)
  | p :: r => if p.1 = k then (ps.takeWhile (fun p => p.1 < k) ++ r, some p.2) else (ps, none)

/-- the keys increase strictly, and the pairs are those of the map -/
structure IsSorted (ps : List (K × V)) (M : K → Option V) : Prop where
  sorted : ps.Pairwise fun p q => p.1 < q.1
  holds : ∀ k v, (k, v) ∈ ps ↔ M k = some v

theorem takeWhile_pairs : (pairs key val xs).takeWhile (fun p => p.1 < k) = pairs key val (lower key k xs) :=
  List.takeWhile_map ..

theorem dropWhile_pairs : (pairs key val xs).dropWhile (fun p => p.1 < k) = pairs key val (upper key k xs) :=
  List.dropWhile_map ..

omit [LinearOrder K] in
theorem pairs_congr (h : ∀ a ∈ xs, key' a = key a ∧ val' a = val a) : pairs key' val' xs = pairs key val xs :=
  List.map_congr_left fun a ha => by rw [(h a ha).1, (h a ha).2]

theorem pairs_add (hn : n ∉ xs) :
    pairs (update key n k) (update val n v) (lower key k xs ++ n :: upper key k xs) =
      put k v (pairs key val xs) := by
  have hold : ∀ l : List ℕ, l.Sublist xs → pairs (update key n k) (update val n v) l = pairs key val l :=
    fun l hl => pairs_congr fun a ha => by
      have hne : a ≠ n := fun e => hn (e ▸ hl.subset ha)
      exact ⟨update_of_ne hne .., update_of_ne hne ..⟩
  rw [put, takeWhile_pairs, dropWhile_pairs, ← hold _ (List.takeWhile_sublist _), ← hold _ (List.dropWhile_sublist _)]
  simp [pairs]

theorem cut_pairs (hu : upper key k xs = c :: r) (hc : key c = k) :
    Conc.cut k (pairs key val xs) = (pairs key val (lower key k xs ++ r), some (val c)) := by
  unfold Conc.cut
  rw [takeWhile_pairs, dropWhile_pairs, hu]
  simp [pairs, hc]

theorem cut_miss (hu : ∀ c r, upper key k xs = c :: r → key c ≠ k) :
    Conc.cut k (pairs key val xs) = (pairs key val xs, none) := by
  unfold Conc.cut
  rw [dropWhile_pairs]
  cases he : upper key k xs with
  | nil => rfl
  | cons c r => simp [pairs, hu c r he]

section Sorted

variable {ps : List (K × V)} {M : K → Option V}

theorem lt_of_mem_takeWhile {q : K × V} (hq : q ∈ ps.takeWhile fun p => p.1 < k) : q.1 < k := by
  simpa using List.mem_takeWhile_imp hq

theorem mem_or (k : K) (ps : List (K × V)) (q : K × V) :
    q ∈ ps ↔ q ∈ ps.takeWhile (fun p => p.1 < k) ∨ q ∈ ps.dropWhile (fun p => p.1 < k) := by
  rw [← List.mem_append, List.takeWhile_append_dropWhile]

namespace IsSorted

theorem absent (h : IsSorted ps M) (hk : ∀ q ∈ ps, q.1 ≠ k) : M k = none := by
  cases hM : M k with
  | none => rfl
  | some v => exact absurd rfl (hk _ ((h.holds k v).2 hM))

theorem ne (h : IsSorted ps M) (hk : M k = none) {q : K × V} (hq : q ∈ ps) : q.1 ≠ k := by
  rintro rfl
  rw [(h.holds q.1 q.2).1 hq] at hk
  cases hk

theorem ge_of_mem_dropWhile (h : ps.Pairwise fun p q => p.1 < q.1) {q : K × V}
    (hq : q ∈ ps.dropWhile fun p => p.1 < k) : k ≤ q.1 := by
  induction ps with
  | nil => cases hq
  | cons p ps ih =>
    obtain ⟨h1, h2⟩ := List.pairwise_cons.1 h
    by_cases hp : p.1 < k
    · rw [List.dropWhile_cons_of_pos (by simpa using hp)] at hq
      exact ih h2 hq
    · rw [List.dropWhile_cons_of_neg (by simpa using hp)] at hq
      rcases List.mem_cons.1 hq with rfl | hq
      · exact not_lt.1 hp
      · exact (not_lt.1 hp).trans (h1 q hq).le

/-- **A new key is put in.** -/
theorem put (h : IsSorted ps M) (hk : M k = none) (v : V) :
    IsSorted (put k v ps) (update M k (some v)) := by
  constructor
  · refine List.pairwise_append.2 ⟨h.sorted.sublist (List.takeWhile_sublist _), List.pairwise_cons.2 ⟨fun q hq => ?_,
      h.sorted.sublist (List.dropWhile_sublist _)⟩, fun p hp q hq => ?_⟩
    · exact lt_of_le_of_ne (ge_of_mem_dropWhile h.sorted hq) (h.ne hk ((mem_or k ps q).2 (.inr hq))).symm
    · rcases List.mem_cons.1 hq with rfl | hq
      · exact lt_of_mem_takeWhile hp
      · exact (lt_of_mem_takeWhile hp).trans_le (ge_of_mem_dropWhile h.sorted hq)
  · intro k' v'
    have hmem : (k', v') ∈ Conc.put k v ps ↔ (k', v') = (k, v) ∨ (k', v') ∈ ps := by
      rw [mem_or k ps]
      simp only [Conc.put, List.mem_append, List.mem_cons]
      tauto
    rw [hmem, h.holds, Prod.mk.injEq]
    by_cases e : k' = k
    · subst e
      simp [hk, eq_comm]
    · simp [e]

/-- **A key is taken out.** -/
theorem cut (h : IsSorted ps M) (k : K) :
    (cut k ps).2 = M k ∧ IsSorted (cut k ps).1 (update M k none) := by
  have hsplit := List.takeWhile_append_dropWhile (p := fun p : K × V => decide (p.1 < k)) (l := ps)
  have hlow : ∀ q ∈ ps.takeWhile (fun p => p.1 < k), q.1 ≠ k := fun q hq => (lt_of_mem_takeWhile hq).ne
  -- the call that finds nothing leaves the pairs and the map as they are
  have hmiss : (∀ q ∈ ps.dropWhile (fun p => p.1 < k), q.1 ≠ k) → none = M k ∧ IsSorted ps (update M k none) := by
    intro hup
    have hM : M k = none := h.absent fun q hq => ((mem_or k ps q).1 hq).elim (hlow q) (hup q)
    rw [← hM, Function.update_eq_self]
    exact ⟨rfl, h⟩
  unfold Conc.cut
  cases hd : ps.dropWhile (fun p => p.1 < k) with
  | nil => exact hmiss (by simp [hd])
  | cons p r =>
    have hp : k ≤ p.1 := ge_of_mem_dropWhile h.sorted (by rw [hd]; exact List.mem_cons_self)
    rw [hd] at hsplit
    have hs := h.sorted
    rw [← hsplit] at hs
    obtain ⟨-, hs2, hs3⟩ := List.pairwise_append.1 hs
    have hr : ∀ q ∈ r, p.1 < q.1 := (List.pairwise_cons.1 hs2).1
    by_cases e : p.1 = k
    · simp only [if_pos e]
      have hmem : ∀ q, q ∈ ps ↔ q ∈ ps.takeWhile (fun p => p.1 < k) ++ r ∨ q = p := fun q => by
        rw [mem_or k ps q, hd, List.mem_append, List.mem_cons]; tauto
      refine ⟨?_, hs.sublist (List.Sublist.append_left (List.sublist_cons_self p r) _), fun k' v' => ?_⟩
      · rw [← e]; exact ((h.holds p.1 p.2).1 ((hmem p).2 (.inr rfl))).symm
      · by_cases e' : k' = k
        · subst e'
          simp only [update_self, reduceCtorEq, iff_false, List.mem_append, not_or]
          exact ⟨fun hq => hlow _ hq rfl, fun hq => (hr _ hq).ne e⟩
        · rw [update_of_ne e', ← h.holds, hmem, or_iff_left]
          rintro rfl; exact e' e
    · simp only [if_neg e]
      refine hmiss fun q hq => ?_
      rw [hd] at hq
      rcases List.mem_cons.1 hq with rfl | hq
      · exact e
      · exact (hp.trans_lt (hr q hq)).ne'

variable (h : IsSorted (pairs key val xs) M)

include h

/-- **The map in memory.** -/
theorem holds_pairs (k : K) (v : V) : (∃ a ∈ xs, key a = k ∧ val a = v) ↔ M k = some v := by
  rw [← h.holds]
  simp [pairs]

/-- the node where the search ends decides -/
theorem hit (hne : nextOf key k tail xs ≠ tail) (hk : key (nextOf key k tail xs) = k) :
    M k = some (val (nextOf key k tail xs)) ∧ ∃ r, upper key k xs = nextOf key k tail xs :: r := by
  rcases nextOf_cases key k tail xs with ⟨-, e⟩ | ⟨c, r, hu, e, -⟩
  · exact absurd e hne
  · rw [e] at hk ⊢
    exact ⟨by rw [← (h.cut k).1, cut_pairs hu hk], r, hu⟩

theorem miss (ht : tail ∉ xs) (hn : nextOf key k tail xs = tail ∨ key (nextOf key k tail xs) ≠ k) : M k = none := by
  rw [← (h.cut k).1, cut_miss]
  intro c r hu
  have e : nextOf key k tail xs = c := by rw [nextOf, hu]; rfl
  rw [e] at hn
  refine hn.resolve_left fun e' => ht ?_
  rw [← e', mem_iff key k xs, hu]
  exact .inr List.mem_cons_self

theorem sorted_keys : xs.Pairwise fun a b => key a < key b :=
  List.Pairwise.of_map (fun a => (key a, val a)) (fun _ _ => id) h.sorted

end IsSorted

end Sorted

end AlgorithmCollection.Conc
