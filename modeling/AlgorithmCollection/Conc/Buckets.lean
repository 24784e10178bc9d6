/-
Families of sorted linked lists: the buckets of a chained hash table.

A bucket list starts at a head node and ends with the address 0 (`BucketList`): a `Chain` whose tail is 0. A search for a
key k stands at a node that is head or has a smaller key (`Before`); when the next node is 0 or larger, k is not in the
list (`BucketList.absent`). `BucketList.seek_head` is what that search finds.
`Buckets next key lim H S D x`: the heads H start disjoint lists with the nodes `S h`, all addresses are below lim, and D
is the set of the nodes that carry data, which have different keys: the nodes of the lists without heads and 0, and
the node x that has been taken out of a list and not been put into another one. The four ways the lists change are
`link` (a new node), `unlink` (a node goes away), `take` and `put` (a node moves from one list to another, D stays);
lists appear empty (`grow`) and disappear empty (`shrink`).
-/
import AlgorithmCollection.Conc.Chain

namespace AlgorithmCollection.Conc

open Function (update update_self update_of_ne)

variable {K : Type*} [LinearOrder K]

/-! ## One list -/

/-- the nodes S, in the order of the keys, from h to the address 0 -/
def BucketList (next : ℕ → ℕ) (key : ℕ → K) (h : ℕ) (S : Finset ℕ) : Prop :=
  Chain next (sentinelRank h 0 key) h 0 S

/-- a search for k has come to p: head, or a node with a smaller key -/
structure Before (key : ℕ → K) (h : ℕ) (S : Finset ℕ) (k : K) (p : ℕ) : Prop where
  mem : p ∈ S
  ne : p ≠ 0
  lt : p = h ∨ key p < k

section List

variable {next next' : ℕ → ℕ} {key key' : ℕ → K} {h p n : ℕ} {S : Finset ℕ} {k : K}

omit [LinearOrder K] in
theorem sentinelRank_congr {head tail a : ℕ} (e : key' a = key a) :
    sentinelRank head tail key' a = sentinelRank head tail key a := by
  unfold sentinelRank; rw [e]

theorem Before.rank_lt (hb : Before key h S k p) : sentinelRank h 0 key p < keyRank k :=
  sentinelRank_lt.2 (hb.lt.imp id fun hlt => ⟨hb.ne, hlt⟩)

theorem Before.congr (hb : Before key h S k p) (e : key' p = key p) : Before key' h S k p :=
  ⟨hb.mem, hb.ne, hb.lt.imp id fun hlt => e ▸ hlt⟩

namespace BucketList

variable (hc : BucketList next key h S)

include hc

theorem before_head (hh : h ≠ 0) : Before key h S k h := ⟨hc.head_mem, hh, .inl rfl⟩

/-- the next node is a node of the list, and not head -/
theorem succ (hp : p ∈ S) (hne : p ≠ 0) : next p ∈ S ∧ next p ≠ h :=
  ⟨hc.next_mem p hp hne, hc.next_ne_head hp hne⟩

theorem before_succ (hb : Before key h S k p) (hne : next p ≠ 0)
    (hlt : key (next p) < k) : Before key h S k (next p) := ⟨(hc.succ hb.mem hb.ne).1, hne, .inr hlt⟩

/-- the search is over: no node has the key -/
theorem absent (hb : Before key h S k p) (hs : next p = 0 ∨ k < key (next p)) {a : ℕ}
    (ha : a ∈ S) (hah : a ≠ h) (ha0 : a ≠ 0) : key a ≠ k := by
  intro e
  refine hc.not_between (r := keyRank k) hb.mem hb.ne hb.rank_lt ?_ ha (by rw [sentinelRank_node hah ha0, e])
  exact lt_sentinelRank.2 ⟨(hc.succ hb.mem hb.ne).2, hs⟩

/-- a list whose head is followed by 0 has no other nodes -/
theorem empty (hh : h ≠ 0) (he : next h = 0) {a : ℕ} (ha : a ∈ S) : a = h ∨ a = 0 := by
  by_contra hn
  push Not at hn
  have hle := hc.gap h hc.head_mem hh a ha (hc.head_lt ha hn.1)
  rw [he] at hle
  exact absurd (hc.lt_tail ha hn.2) (not_lt.2 hle)

theorem congr (hn : ∀ a ∈ S, a ≠ 0 → next' a = next a) (hk : ∀ a ∈ S, key' a = key a) : BucketList next' key' h S :=
  Chain.congr hc hn fun a ha => sentinelRank_congr (hk a ha)

theorem link (hb : Before key h S (key n) p) (hs : next p = 0 ∨ key n < key (next p))
    (hnh : n ≠ h) (hn0 : n ≠ 0) (e1 : next' p = n) (e2 : next' n = next p)
    (e3 : ∀ a, a ≠ p → a ≠ n → next' a = next a) : BucketList next' key h (insert n S) := by
  have hr : sentinelRank h 0 key n = keyRank (key n) := sentinelRank_node hnh hn0
  have hlt : sentinelRank h 0 key n < sentinelRank h 0 key (next p) := by
    rw [hr]; exact lt_sentinelRank.2 ⟨(hc.succ hb.mem hb.ne).2, hs⟩
  refine Chain.insert hc hb.mem hb.ne (by rw [hr]; exact hb.rank_lt) hlt e1 e2 fun a ha hap _ => ?_
  refine e3 a hap ?_
  rintro rfl
  exact hc.absent hb hs ha hnh hn0 rfl

theorem unlink (hp : p ∈ S) (hne : p ≠ 0) (hs : next p ≠ 0)
    (e1 : next' p = next (next p)) (e2 : ∀ a, a ≠ p → next' a = next a) :
    BucketList next' key h (S.erase (next p)) := Chain.erase hc hp hne hs e1 fun a _ hap _ => e2 a hap

omit hc in
/-- the list of a new head -/
theorem nil (hh : h ≠ 0) (he : next h = 0) : BucketList next key h {h, 0} := by
  have h1 : sentinelRank h 0 key h = ⊥ := by unfold sentinelRank; rw [if_pos rfl]
  have h2 : sentinelRank h 0 key 0 = ((⊤ : WithTop K) : WithBot (WithTop K)) := by
    unfold sentinelRank; rw [if_neg hh.symm, if_pos rfl]
  have hlt : sentinelRank h 0 key h < sentinelRank h 0 key 0 := by rw [h1, h2]; exact WithBot.bot_lt_coe _
  exact Chain.init (fun a => by simp) hlt he

/-! ### The search -/

/-- **The search from head ends** before the first node that is not smaller. -/
theorem seek_head (hh : h ≠ 0) {lim : ℕ} (hlt : ∀ a ∈ S, a < lim) (k : K) :
    ∃ q, Chain.seek next key k lim h = some (q, next q) ∧ Before key h S k q ∧ (next q = 0 ∨ k ≤ key (next q)) :=
  Chain.seek_ends hc (fun _ hb => ⟨hb.mem, hb.ne⟩) (fun _ hb => hc.before_succ hb) lim (hc.before_head hh)
    (Chain.card_from_le _ hlt _)

omit hc

/-- where the search ends, along the list xs that hangs on p -/
theorem seek_stop {xs : List ℕ} {f q c : ℕ} (hchain : (p :: (xs ++ [0])).IsChain fun a b => next a = b)
    (hne : ∀ a ∈ xs, a ≠ 0) (hs : Chain.seek next key k f p = some (q, c)) :
    (c = 0 ∧ ∀ a ∈ xs, key a < k) ∨ (c ∈ xs ∧ k ≤ key c) := by
  induction xs generalizing f p with
  | nil =>
    obtain ⟨hp, -⟩ := List.isChain_cons_cons.1 hchain
    cases f with
    | zero => cases hs
    | succ f =>
      unfold Chain.seek at hs
      rw [hp, if_neg (by simp), Option.some.injEq, Prod.mk.injEq] at hs
      exact .inl ⟨hs.2.symm, by simp⟩
  | cons a xs ih =>
    obtain ⟨hp, hrest⟩ := List.isChain_cons_cons.1 hchain
    have ha : a ≠ 0 := hne a List.mem_cons_self
    cases f with
    | zero => cases hs
    | succ f =>
      unfold Chain.seek at hs
      rw [hp] at hs
      by_cases hlt : key a < k
      · rw [if_pos ⟨ha, hlt⟩] at hs
        rcases ih hrest (fun b hb => hne b (List.mem_cons_of_mem a hb)) hs with ⟨h1, h2⟩ | ⟨h1, h2⟩
        · exact .inl ⟨h1, List.forall_mem_cons.2 ⟨hlt, h2⟩⟩
        · exact .inr ⟨List.mem_cons_of_mem a h1, h2⟩
      · rw [if_neg fun h => hlt h.2, Option.some.injEq, Prod.mk.injEq] at hs
        obtain ⟨-, rfl⟩ := hs
        exact .inr ⟨List.mem_cons_self, not_lt.1 hlt⟩

/-! ### The nodes met from head on -/

section Nodes

variable {lim : ℕ} (hc : BucketList next key h S) (hh : h ≠ 0) (hlt : ∀ a ∈ S, a < lim)

include hc hh hlt

theorem mem_nodes (a : ℕ) : a ∈ walk next (fun a => a = 0) lim (next h) ↔ a ∈ S ∧ a ≠ h ∧ a ≠ 0 :=
  Chain.mem_walk_head hc (fun b _ => by simp) hh hlt a

theorem nodes_linked : (h :: (walk next (fun a => a = 0) lim (next h) ++ [0])).IsChain fun a b => next a = b :=
  Chain.walk_head_linked hc (fun b _ => by simp) hh hlt

theorem nodes_sorted : (walk next (fun a => a = 0) lim (next h)).Pairwise fun a b => key a < key b := by
  have hstop : ∀ b ∈ S, decide (b = 0) = true ↔ b = 0 := fun b _ => by simp
  have hs := Chain.walk_head_sorted hc hstop hh hlt
  refine (List.pairwise_append.1 (List.pairwise_cons.1 hs).2).1.imp_of_mem fun {a b} ha hb hab => ?_
  have ha' := (hc.mem_nodes hh hlt a).1 ha
  have hb' := (hc.mem_nodes hh hlt b).1 hb
  exact (sentinelRank_node_lt ha'.2 hb'.2).1 hab

end Nodes

end BucketList

end List

/-! ## All lists -/

structure Buckets (next : ℕ → ℕ) (key : ℕ → K) (lim : ℕ) (H : Set ℕ) (S : ℕ → Finset ℕ) (D : Finset ℕ)
    (x : Option ℕ) : Prop where
  chain : ∀ h ∈ H, BucketList next key h (S h)
  pos : ∀ h ∈ H, h ≠ 0
  disj : ∀ h ∈ H, ∀ h' ∈ H, h ≠ h' → ∀ a ∈ S h, a ∈ S h' → a = 0
  lt : ∀ h ∈ H, ∀ a ∈ S h, a < lim
  data : ∀ a, a ∈ D ↔ (∃ h ∈ H, a ∈ S h ∧ a ≠ h ∧ a ≠ 0) ∨ x = some a
  out : ∀ a, x = some a → a ≠ 0 ∧ a < lim ∧ ∀ h ∈ H, a ∉ S h
  inj : ∀ a ∈ D, ∀ b ∈ D, key a = key b → a = b

namespace Buckets

variable {next next' : ℕ → ℕ} {key key' : ℕ → K} {lim lim' : ℕ} {H H' : Set ℕ} {S : ℕ → Finset ℕ} {D : Finset ℕ}
  {x : Option ℕ} {h p n a : ℕ}

variable (hB : Buckets next key lim H S D x)

include hB

theorem head_mem (hh : h ∈ H) : h ∈ S h := (hB.chain h hh).head_mem

/-- a node of a list is head, 0 or carries data -/
theorem mem_cases (hh : h ∈ H) (ha : a ∈ S h) : a = h ∨ a = 0 ∨ a ∈ D := by
  by_cases h1 : a = h
  · exact .inl h1
  · by_cases h2 : a = 0
    · exact .inr (.inl h2)
    · exact .inr (.inr ((hB.data a).2 (.inl ⟨h, hh, ha, h1, h2⟩)))

theorem data_lt (ha : a ∈ D) : a < lim := by
  rcases (hB.data a).1 ha with ⟨h, hh, h1, -⟩ | h1
  · exact hB.lt h hh a h1
  · exact (hB.out a h1).2.1

theorem not_mem_of (hn0 : n ≠ 0) (hD : n ∉ D) (hH : n ∉ H) (hh : h ∈ H) : n ∉ S h := by
  intro hm
  rcases hB.mem_cases hh hm with rfl | h1 | h1
  · exact hH hh
  · exact hn0 h1
  · exact hD h1

omit hB in
/-- the node in no list has another key than the nodes of the lists -/
theorem out_ne (hB : Buckets next key lim H S D (some n)) (hh : h ∈ H) (ha : a ∈ S h) (hah : a ≠ h) (ha0 : a ≠ 0) :
    key n ≠ key a := by
  intro e
  have haD : a ∈ D := (hB.data a).2 (.inl ⟨h, hh, ha, hah, ha0⟩)
  have hnD : n ∈ D := (hB.data n).2 (.inr rfl)
  exact (hB.out n rfl).2.2 h hh (hB.inj n hnD a haD e ▸ ha)

/-- only the links and keys of the nodes of the lists matter -/
theorem congr (hn : ∀ h ∈ H, ∀ a ∈ S h, a ≠ 0 → next' a = next a)
    (hk : ∀ a < lim, key' a = key a) (hl : lim ≤ lim') : Buckets next' key' lim' H S D x where
  chain h hh := (hB.chain h hh).congr (hn h hh) fun a ha => hk a (hB.lt h hh a ha)
  pos := hB.pos
  disj := hB.disj
  lt h hh a ha := lt_of_lt_of_le (hB.lt h hh a ha) hl
  data := hB.data
  out a ha := ⟨(hB.out a ha).1, lt_of_lt_of_le (hB.out a ha).2.1 hl, (hB.out a ha).2.2⟩
  inj a ha b hb e := hB.inj a ha b hb (by rwa [hk a (hB.data_lt ha), hk b (hB.data_lt hb)] at e)

/-- lists are disjoint, so a change of one keeps the others -/
theorem update_chain (hh : h ∈ H) {T : Finset ℕ}
    (hc : BucketList next' key h T) (e : ∀ h' ∈ H, h' ≠ h → ∀ a ∈ S h', a ≠ 0 → next' a = next a) :
    ∀ h' ∈ H, BucketList next' key h' (update S h T h') := by
  intro h' hh'
  by_cases hne : h' = h
  · subst hne; rw [update_self]; exact hc
  · rw [update_of_ne hne]
    exact (hB.chain h' hh').congr (e h' hh' hne) fun _ _ => rfl

/-- the lists after n has been linked into the list of h -/
theorem link_lists (hh : h ∈ H) (hb : Before key h (S h) (key n) p)
    (hs : next p = 0 ∨ key n < key (next p)) (hn0 : n ≠ 0) (hout : ∀ h ∈ H, n ∉ S h) (e1 : next' p = n)
    (e2 : next' n = next p) (e3 : ∀ a, a ≠ p → a ≠ n → next' a = next a) :
    (∀ h' ∈ H, BucketList next' key h' (update S h (insert n (S h)) h')) ∧
    ∀ h1 ∈ H, ∀ h2 ∈ H, h1 ≠ h2 → ∀ a ∈ update S h (insert n (S h)) h1,
      a ∈ update S h (insert n (S h)) h2 → a = 0 := by
  have hnh : n ≠ h := fun e => hout h hh (e.symm ▸ hB.head_mem hh)
  refine ⟨hB.update_chain hh ((hB.chain h hh).link hb hs hnh hn0 e1 e2 e3) fun h' hh' hne a ha ha0 => ?_, ?_⟩
  · refine e3 a (fun e => ?_) fun e => hout h' hh' (e ▸ ha)
    exact ha0 (hB.disj h' hh' h hh hne a ha (e ▸ hb.mem))
  · -- the new node is in no other list
    have hcase : ∀ h1 ∈ H, ∀ a ∈ update S h (insert n (S h)) h1, (a = n ∧ h1 = h) ∨ a ∈ S h1 := by
      intro h1 _ a ha
      by_cases hne : h1 = h
      · subst hne
        rw [update_self] at ha
        exact (Finset.mem_insert.1 ha).imp (fun e => ⟨e, rfl⟩) id
      · rw [update_of_ne hne] at ha; exact .inr ha
    intro h1 hh1 h2 hh2 hne a ha1 ha2
    rcases hcase h1 hh1 a ha1 with ⟨rfl, rfl⟩ | h3 <;> rcases hcase h2 hh2 a ha2 with ⟨e, rfl⟩ | h4
    · exact absurd rfl hne
    · exact absurd h4 (hout h2 hh2)
    · exact absurd (e ▸ h3) (hout h1 hh1)
    · exact hB.disj h1 hh1 h2 hh2 hne a h3 h4

omit hB in
/-- the nodes with data after n has been linked -/
theorem mem_link (hh : h ∈ H) (hn0 : n ≠ 0) (hnh : n ≠ h) :
    (∃ h' ∈ H, a ∈ update S h (insert n (S h)) h' ∧ a ≠ h' ∧ a ≠ 0) ↔
      a = n ∨ ∃ h' ∈ H, a ∈ S h' ∧ a ≠ h' ∧ a ≠ 0 := by
  constructor
  · rintro ⟨h', hh', h1, h2⟩
    by_cases hne : h' = h
    · subst hne
      rw [update_self] at h1
      exact (Finset.mem_insert.1 h1).imp id fun h1 => ⟨h', hh', h1, h2⟩
    · rw [update_of_ne hne] at h1; exact .inr ⟨h', hh', h1, h2⟩
  · rintro (rfl | ⟨h', hh', h1, h2⟩)
    · exact ⟨h, hh, by rw [update_self]; exact Finset.mem_insert_self _ _, hnh, hn0⟩
    · refine ⟨h', hh', ?_, h2⟩
      by_cases hne : h' = h
      · subst hne; rw [update_self]; exact Finset.mem_insert_of_mem h1
      · rwa [update_of_ne hne]

theorem lt_link (hn : n < lim) : ∀ h' ∈ H, ∀ a ∈ update S h (insert n (S h)) h', a < lim := by
  intro h' hh' a ha
  by_cases hne : h' = h
  · subst hne
    rw [update_self] at ha
    rcases Finset.mem_insert.1 ha with rfl | ha
    · exact hn
    · exact hB.lt h' hh' a ha
  · rw [update_of_ne hne] at ha; exact hB.lt h' hh' a ha

omit hB in
/-- **Linking a new node**, whose key no node has. -/
theorem link (hB : Buckets next key lim H S D none) (hh : h ∈ H) (hb : Before key h (S h) (key n) p)
    (hs : next p = 0 ∨ key n < key (next p)) (hn0 : n ≠ 0) (hlt : n < lim) (hD : n ∉ D) (hH : n ∉ H)
    (hnew : ∀ a ∈ D, key a ≠ key n) (e1 : next' p = n) (e2 : next' n = next p)
    (e3 : ∀ a, a ≠ p → a ≠ n → next' a = next a) :
    Buckets next' key lim H (update S h (insert n (S h))) (insert n D) none := by
  obtain ⟨h1, h2⟩ := hB.link_lists hh hb hs hn0 (fun h' hh' => hB.not_mem_of hn0 hD hH hh') e1 e2 e3
  refine ⟨h1, hB.pos, h2, hB.lt_link hlt, fun a => ?_, nofun, fun a ha b hb' e => ?_⟩
  · rw [mem_link hh hn0 (fun e => hH (e ▸ hh)), Finset.mem_insert, hB.data a]
    simp
  · rcases Finset.mem_insert.1 ha with ha | ha <;> rcases Finset.mem_insert.1 hb' with hb' | hb'
    · rw [ha, hb']
    · exact absurd (ha ▸ e).symm (hnew b hb')
    · exact absurd (hb' ▸ e) (hnew a ha)
    · exact hB.inj a ha b hb' e

omit hB in
/-- **Putting the node that was taken out into a list.** -/
theorem put (hB : Buckets next key lim H S D (some n)) (hh : h ∈ H) (hb : Before key h (S h) (key n) p)
    (hs : next p = 0 ∨ key n < key (next p)) (e1 : next' p = n) (e2 : next' n = next p)
    (e3 : ∀ a, a ≠ p → a ≠ n → next' a = next a) :
    Buckets next' key lim H (update S h (insert n (S h))) D none := by
  obtain ⟨hn0, hlt, hout⟩ := hB.out n rfl
  obtain ⟨h1, h2⟩ := hB.link_lists hh hb hs hn0 hout e1 e2 e3
  refine ⟨h1, hB.pos, h2, hB.lt_link hlt, fun a => ?_, nofun, hB.inj⟩
  rw [mem_link hh hn0 (fun e => hout h hh (e.symm ▸ hB.head_mem hh)), hB.data a]
  simp only [Option.some.injEq, eq_comm (a := n), reduceCtorEq, or_false]
  exact or_comm

/-- the lists after the successor of p has been taken out of the list of h -/
theorem unlink_lists (hh : h ∈ H) (hp : p ∈ S h) (hne : p ≠ 0) (hs : next p ≠ 0)
    (e1 : next' p = next (next p)) (e2 : ∀ a, a ≠ p → next' a = next a) :
    ∀ h' ∈ H, BucketList next' key h' (update S h ((S h).erase (next p)) h') :=
  hB.update_chain hh ((hB.chain h hh).unlink hp hne hs e1 e2) fun h' hh' hne' a ha ha0 =>
    e2 a fun e => ha0 (hB.disj h' hh' h hh hne' a ha (e ▸ hp))

omit hB in
theorem mem_of_unlink {c h' : ℕ} (ha : a ∈ update S h ((S h).erase c) h') : a ∈ S h' := by
  by_cases hne : h' = h
  · subst hne; rw [update_self] at ha; exact Finset.mem_of_mem_erase ha
  · rwa [update_of_ne hne] at ha

/-- the node is in no list any more -/
theorem not_mem_unlink (hh : h ∈ H) {c : ℕ} (hc : c ∈ S h) (hc0 : c ≠ 0) {h' : ℕ}
    (hh' : h' ∈ H) : c ∉ update S h ((S h).erase c) h' := by
  by_cases hne : h' = h
  · subst hne; rw [update_self]; exact Finset.notMem_erase _ _
  · rw [update_of_ne hne]
    exact fun hm => hc0 (hB.disj h hh h' hh' (Ne.symm hne) c hc hm)

/-- the nodes with data after c has been taken out -/
theorem mem_unlink (hh : h ∈ H) {c : ℕ} (hc : c ∈ S h) (hc0 : c ≠ 0) :
    (∃ h' ∈ H, a ∈ update S h ((S h).erase c) h' ∧ a ≠ h' ∧ a ≠ 0) ↔
      a ≠ c ∧ ∃ h' ∈ H, a ∈ S h' ∧ a ≠ h' ∧ a ≠ 0 := by
  constructor
  · rintro ⟨h', hh', h1, h2⟩
    exact ⟨fun e => hB.not_mem_unlink hh hc hc0 hh' (e ▸ h1), h', hh', mem_of_unlink h1, h2⟩
  · rintro ⟨hac, h', hh', h1, h2⟩
    refine ⟨h', hh', ?_, h2⟩
    by_cases hne : h' = h
    · subst hne; rw [update_self]; exact Finset.mem_erase.2 ⟨hac, h1⟩
    · rwa [update_of_ne hne]

omit hB

/-- **Unlinking** the successor of p. -/
theorem unlink (hB : Buckets next key lim H S D none) (hh : h ∈ H) (hp : p ∈ S h) (hne : p ≠ 0) (hs : next p ≠ 0)
    (e1 : next' p = next (next p)) (e2 : ∀ a, a ≠ p → next' a = next a) :
    Buckets next' key lim H (update S h ((S h).erase (next p))) (D.erase (next p)) none := by
  have hc := ((hB.chain h hh).succ hp hne).1
  refine ⟨hB.unlink_lists hh hp hne hs e1 e2, hB.pos, fun h1 hh1 h2 hh2 hne' a ha1 ha2 =>
    hB.disj h1 hh1 h2 hh2 hne' a (mem_of_unlink ha1) (mem_of_unlink ha2),
    fun h' hh' a ha => hB.lt h' hh' a (mem_of_unlink ha), fun a => ?_, nofun,
    fun a ha b hb => hB.inj a (Finset.mem_of_mem_erase ha) b (Finset.mem_of_mem_erase hb)⟩
  rw [hB.mem_unlink hh hc hs, Finset.mem_erase, hB.data a]
  simp

/-- **Taking the successor of p out** of its list, to put it into another one. -/
theorem take (hB : Buckets next key lim H S D none) (hh : h ∈ H) (hp : p ∈ S h) (hne : p ≠ 0) (hs : next p ≠ 0)
    (e1 : next' p = next (next p)) (e2 : ∀ a, a ≠ p → next' a = next a) :
    Buckets next' key lim H (update S h ((S h).erase (next p))) D (some (next p)) := by
  obtain ⟨hc, hch⟩ := (hB.chain h hh).succ hp hne
  refine ⟨hB.unlink_lists hh hp hne hs e1 e2, hB.pos, fun h1 hh1 h2 hh2 hne' a ha1 ha2 =>
    hB.disj h1 hh1 h2 hh2 hne' a (mem_of_unlink ha1) (mem_of_unlink ha2),
    fun h' hh' a ha => hB.lt h' hh' a (mem_of_unlink ha), fun a => ?_, fun a ha => ?_, hB.inj⟩
  · rw [hB.mem_unlink hh hc hs, hB.data a]
    simp only [Option.some.injEq, reduceCtorEq, or_false]
    constructor
    · intro h1
      by_cases hac : a = next p
      · exact Or.inr hac.symm
      · exact .inl ⟨hac, h1⟩
    · rintro (⟨-, h1⟩ | rfl)
      · exact h1
      · exact ⟨h, hh, hc, hch, hs⟩
  · cases ha
    exact ⟨hs, hB.lt h hh _ hc, fun h' hh' => hB.not_mem_unlink hh hc hs hh'⟩

/-- the node sets when the new heads N get empty lists -/
noncomputable def withEmpty (S : ℕ → Finset ℕ) (lim : ℕ) (h : ℕ) : Finset ℕ := if h < lim then S h else {h, 0}

/-- **New empty lists**, with heads that were not allocated before. -/
theorem grow (hB : Buckets next key lim H S D none) (hpos : 0 < lim) {N : Set ℕ} (hN : ∀ h ∈ N, lim ≤ h ∧ h < lim')
    (hnil : ∀ h ∈ N, next' h = 0) (hl : lim ≤ lim') (hn : ∀ a < lim, next' a = next a) (hk : ∀ a < lim, key' a = key a) :
    Buckets next' key' lim' (H ∪ N) (withEmpty S lim) D none := by
  have hB' : Buckets next' key' lim' H S D none := hB.congr (fun h hh a ha _ => hn a (hB.lt h hh a ha)) hk hl
  have hH : ∀ h ∈ H, h < lim := fun h hh => hB.lt h hh h (hB.head_mem hh)
  have e1 : ∀ h ∈ H, withEmpty S lim h = S h := fun h hh => by unfold withEmpty; rw [if_pos (hH h hh)]
  have e2 : ∀ h ∈ N, withEmpty S lim h = {h, 0} := fun h hh => by
    unfold withEmpty; rw [if_neg (not_lt.2 (hN h hh).1)]
  have hcase : ∀ {h a}, h ∈ N → a ∈ withEmpty S lim h → a = h ∨ a = 0 := fun {h a} hh ha => by
    rw [e2 h hh] at ha; simpa using ha
  refine ⟨?_, ?_, ?_, ?_, fun a => ?_, nofun, hB'.inj⟩
  · rintro h (hh | hh)
    · rw [e1 h hh]; exact hB'.chain h hh
    · rw [e2 h hh]; exact BucketList.nil (by have := (hN h hh).1; omega) (hnil h hh)
  · rintro h (hh | hh)
    · exact hB.pos h hh
    · have := (hN h hh).1; omega
  · rintro h (hh | hh) h' (hh' | hh') hne a ha ha'
    · rw [e1 h hh] at ha; rw [e1 h' hh'] at ha'
      exact hB.disj h hh h' hh' hne a ha ha'
    · rw [e1 h hh] at ha
      refine (hcase hh' ha').resolve_left ?_
      rintro rfl
      exact absurd (hB.lt h hh a ha) (not_lt.2 (hN a hh').1)
    · rw [e1 h' hh'] at ha'
      refine (hcase hh ha).resolve_left ?_
      rintro rfl
      exact absurd (hB.lt h' hh' a ha') (not_lt.2 (hN a hh).1)
    · rcases hcase hh ha with rfl | h0
      · exact (hcase hh' ha').resolve_left hne
      · exact h0
  · rintro h (hh | hh) a ha
    · rw [e1 h hh] at ha; exact hB'.lt h hh a ha
    · rcases hcase hh ha with rfl | rfl
      · exact (hN a hh).2
      · exact lt_of_lt_of_le hpos hl
  · rw [hB.data a]
    refine or_congr_left ⟨?_, ?_⟩
    · rintro ⟨h, hh, h1⟩; exact ⟨h, .inl hh, by rwa [e1 h hh]⟩
    · rintro ⟨h, hh | hh, h1, h2, h3⟩
      · rw [e1 h hh] at h1; exact ⟨h, hh, h1, h2, h3⟩
      · exact absurd (hcase hh h1) (by simp [h2, h3])

/-- **Empty lists go away.** -/
theorem shrink (hB : Buckets next key lim H S D none) (hsub : H' ⊆ H)
    (hemp : ∀ h ∈ H, h ∉ H' → ∀ a ∈ S h, a = h ∨ a = 0) : Buckets next key lim H' S D none where
  chain h hh := hB.chain h (hsub hh)
  pos h hh := hB.pos h (hsub hh)
  disj h hh h' hh' := hB.disj h (hsub hh) h' (hsub hh')
  lt h hh := hB.lt h (hsub hh)
  data a := by
    rw [hB.data a]
    refine or_congr_left ⟨?_, fun ⟨h, hh, h1⟩ => ⟨h, hsub hh, h1⟩⟩
    rintro ⟨h, hh, h1, h2, h3⟩
    by_cases hh' : h ∈ H'
    · exact ⟨h, hh', h1, h2, h3⟩
    · exact absurd (hemp h hh hh' a h1) (by simp [h2, h3])
  out a ha := by cases ha
  inj := hB.inj

end Buckets

end AlgorithmCollection.Conc
