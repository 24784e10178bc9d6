/-
Linked lists that are not sorted and grow at the tail, and families of them.

`Seg nx a xs`: from the pointer a on, the nodes are xs in this order, and the last one points to 0. A list with a head node
h is `Seg nx (nx h) xs`. `lastNode` and `seekNode` are the walks to the tail and to a node with a property, along n nodes at
most; `Seg.lastNode_eq`, `Seg.seekNode_found` and `Seg.seekNode_missed` say where they end on a list of fewer than n nodes.

`Lists nx size lim live head cont H`: the lists of the live heads have the nodes `cont` and as many as `size` says, no two of
them share a node, and H are nodes that are in no list: taken out, or not yet put in. The ways they change are `append` (a
node of H goes to the tail of a list), `remove` (a node of a list goes to H), `new` (memory for a node), `forget` (a node of H
is no longer of interest), and `restart` (new empty lists, and all nodes in H).
-/
import AlgorithmCollection.Conc.Chain

namespace AlgorithmCollection.Conc

open Function (update update_self update_of_ne)

/-- from the pointer a on, the nodes are xs, and the last one points to 0 -/
def Seg (nx : ℕ → ℕ) : ℕ → List ℕ → Prop
  | a, [] => a = 0
  | a, x :: xs => a = x ∧ x ≠ 0 ∧ Seg nx (nx x) xs

/-- the last node from p on, among n nodes -/
def lastNode (nx : ℕ → ℕ) : ℕ → ℕ → Option ℕ
  | 0, _ => none
  | n + 1, p => if nx p = 0 then some p else lastNode nx n (nx p)

/-- the first node after p with the property, among n nodes, and the node before it; if there is none, 0 and the last -/
def seekNode (nx : ℕ → ℕ) (hit : ℕ → Bool) : ℕ → ℕ → Option (ℕ × ℕ)
  | 0, _ => none
  | n + 1, p =>
    if nx p = 0 then some (p, 0) else if hit (nx p) then some (p, nx p) else seekNode nx hit n (nx p)

/-! ## One list -/

namespace Seg

variable {nx nx' : ℕ → ℕ} {a p c n : ℕ} {xs ys zs : List ℕ} {hit : ℕ → Bool}

theorem ne_zero (h : Seg nx a xs) : ∀ x ∈ xs, x ≠ 0 := by
  induction xs generalizing a with
  | nil => nofun
  | cons y ys ih =>
    obtain ⟨-, hy, hs⟩ := h
    intro x hx
    rcases List.mem_cons.1 hx with rfl | hx
    · exact hy
    · exact ih hs x hx

theorem congr (h : Seg nx a xs) (hn : ∀ x ∈ xs, nx' x = nx x) : Seg nx' a xs := by
  induction xs generalizing a with
  | nil => exact h
  | cons y ys ih =>
    obtain ⟨ha, hy, hs⟩ := h
    refine ⟨ha, hy, ?_⟩
    rw [hn y List.mem_cons_self]
    exact ih hs fun x hx => hn x (List.mem_cons_of_mem _ hx)

theorem unique (h : Seg nx a xs) (h' : Seg nx a ys) : xs = ys := by
  induction xs generalizing a ys with
  | nil =>
    cases ys with
    | nil => rfl
    | cons y ys => exact absurd (h'.1.symm.trans h) h'.2.1
  | cons x xs ih =>
    obtain ⟨rfl, hx, hs⟩ := h
    cases ys with
    | nil => exact absurd h' hx
    | cons y ys =>
      obtain ⟨rfl, -, hs'⟩ := h'
      rw [ih hs hs']

/-- the walk along the list -/
theorem walk_eq (h : Seg nx a xs) (hn : xs.length ≤ n) : walk nx (fun a => a = 0) n a = xs := by
  induction xs generalizing a n with
  | nil =>
    obtain rfl : a = 0 := h
    cases n with
    | zero | succ n => rfl
  | cons x xs ih =>
    obtain ⟨rfl, hx, hs⟩ := h
    obtain ⟨n, rfl⟩ : ∃ n', n = n' + 1 := Nat.exists_eq_succ_of_ne_zero (Nat.ne_zero_of_lt hn)
    rw [walk, if_neg (by simpa using hx), ih hs (Nat.le_of_succ_le_succ hn)]

/-- from the node c on -/
theorem tail (h : Seg nx a (xs ++ c :: ys)) : Seg nx (nx c) ys := by
  induction xs generalizing a with
  | nil => exact h.2.2
  | cons x xs ih => exact ih h.2.2

theorem nodup (h : Seg nx a xs) : xs.Nodup := by
  induction xs generalizing a with
  | nil => exact List.nodup_nil
  | cons x xs ih =>
    obtain ⟨-, -, hs⟩ := h
    refine List.nodup_cons.2 ⟨fun hx => ?_, ih hs⟩
    -- after x comes xs, and also what comes after x in xs
    obtain ⟨ys, zs, rfl⟩ := List.append_of_mem hx
    have := congrArg List.length (hs.unique hs.tail)
    simp at this
    omega

theorem lastNode_eq (h : Seg nx (nx p) xs) (hn : xs.length < n) : lastNode nx n p = some (xs.getLastD p) := by
  induction xs generalizing p n with
  | nil =>
    obtain ⟨n, rfl⟩ := Nat.exists_eq_succ_of_ne_zero (Nat.ne_of_gt hn)
    have : nx p = 0 := h
    simp [lastNode, this]
  | cons x xs ih =>
    obtain ⟨n, rfl⟩ := Nat.exists_eq_succ_of_ne_zero (Nat.ne_of_gt (Nat.zero_lt_of_lt hn))
    obtain ⟨hx, hx0, hs⟩ := h
    rw [lastNode, hx, if_neg hx0, List.getLastD_cons]
    exact ih hs (by simpa using hn)

theorem seekNode_missed (h : Seg nx (nx p) xs) (hn : xs.length < n) (hm : ∀ x ∈ xs, hit x = false) :
    seekNode nx hit n p = some (xs.getLastD p, 0) := by
  induction xs generalizing p n with
  | nil =>
    obtain ⟨n, rfl⟩ := Nat.exists_eq_succ_of_ne_zero (Nat.ne_of_gt hn)
    have : nx p = 0 := h
    simp [seekNode, this]
  | cons x xs ih =>
    obtain ⟨n, rfl⟩ := Nat.exists_eq_succ_of_ne_zero (Nat.ne_of_gt (Nat.zero_lt_of_lt hn))
    obtain ⟨hx, hx0, hs⟩ := h
    have hmx : ¬ hit x = true := by rw [hm x List.mem_cons_self]; nofun
    rw [seekNode, hx, if_neg hx0, if_neg hmx, List.getLastD_cons]
    exact ih hs (by simpa using hn) fun y hy => hm y (List.mem_cons_of_mem _ hy)

theorem seekNode_found (h : Seg nx (nx p) (ys ++ c :: zs)) (hn : (ys ++ c :: zs).length < n)
    (hm : ∀ y ∈ ys, hit y = false) (hc : hit c = true) : seekNode nx hit n p = some (ys.getLastD p, c) := by
  induction ys generalizing p n with
  | nil =>
    obtain ⟨n, rfl⟩ := Nat.exists_eq_succ_of_ne_zero (Nat.ne_of_gt (Nat.zero_lt_of_lt hn))
    obtain ⟨hx, hx0, -⟩ := h
    simp only [seekNode, hx, if_neg hx0, if_pos hc, List.getLastD_nil]
  | cons y ys ih =>
    obtain ⟨n, rfl⟩ := Nat.exists_eq_succ_of_ne_zero (Nat.ne_of_gt (Nat.zero_lt_of_lt hn))
    obtain ⟨hx, hx0, hs⟩ := h
    have hmy : ¬ hit y = true := by rw [hm y List.mem_cons_self]; nofun
    rw [seekNode, hx, if_neg hx0, if_neg hmy, List.getLastD_cons]
    exact ih hs (by simpa using hn) fun z hz => hm z (List.mem_cons_of_mem _ hz)

theorem getLastD_mem (p : ℕ) (xs : List ℕ) : xs.getLastD p = p ∨ xs.getLastD p ∈ xs := by
  induction xs generalizing p with
  | nil => exact .inl rfl
  | cons x xs ih =>
    rw [List.getLastD_cons]
    rcases ih x with e | e
    · rw [e]; exact .inr List.mem_cons_self
    · exact .inr (List.mem_cons_of_mem _ e)

theorem head_eq (h : Seg nx a xs) : a = xs.headD 0 := by
  cases xs with
  | nil => exact h
  | cons x xs => exact h.1

/-- p is not the last node of a list that it points to -/
theorem ne_last (hp : p ∉ a :: xs) : p ≠ (a :: xs).getLastD p := by
  rw [List.getLastD_cons]
  rcases getLastD_mem a xs with e | e
  · rw [e]; rintro rfl; exact hp List.mem_cons_self
  · intro e'; exact hp (List.mem_cons_of_mem _ (e' ▸ e))

/-- a node whose link is already set is put in -/
theorem insert (h : Seg nx (nx p) (ys ++ zs)) (hp : p ∉ ys ++ zs) (hn : n ∉ p :: (ys ++ zs)) (hn0 : n ≠ 0)
    (hnx : nx n = zs.headD 0) :
    Seg (update nx (ys.getLastD p) n) (update nx (ys.getLastD p) n p) (ys ++ n :: zs) := by
  induction ys generalizing p with
  | nil =>
    rw [List.getLastD_nil, update_self]
    have hnp : n ≠ p := fun e => hn (e ▸ List.mem_cons_self)
    refine ⟨rfl, hn0, ?_⟩
    rw [update_of_ne hnp, hnx, ← Seg.head_eq (show Seg nx (nx p) zs from h)]
    exact h.congr fun x hx => update_of_ne (show x ≠ p from fun e => hp (e ▸ hx)) _ _
  | cons y ys ih =>
    obtain ⟨hy, hy0, hs⟩ := h
    have hseg : Seg nx y (y :: (ys ++ zs)) := ⟨rfl, hy0, hs⟩
    rw [update_of_ne (ne_last fun e => hp (List.mem_append_left _ e)), hy]
    refine ⟨rfl, hy0, ?_⟩
    rw [List.getLastD_cons]
    exact ih hs (List.nodup_cons.1 hseg.nodup).1 fun e => hn (List.mem_cons_of_mem _ e)

/-- a new node at the tail -/
theorem append (h : Seg nx (nx p) xs) (hp : p ∉ xs) (hn : n ∉ xs) (hnp : n ≠ p) (hn0 : n ≠ 0) :
    Seg (update (update nx (xs.getLastD p) n) n 0)
      (update (update nx (xs.getLastD p) n) n 0 p) (xs ++ [n]) := by
  have hne : n ≠ xs.getLastD p := by
    rcases getLastD_mem p xs with e | e
    · rw [e]; exact hnp
    · exact fun e' => hn (e' ▸ e)
  rw [Function.update_comm hne.symm]
  refine insert ?_ ?_ ?_ hn0 (update_self ..)
  · rw [update_of_ne hnp.symm, List.append_nil]
    exact h.congr fun x hx => update_of_ne (show x ≠ n from fun e => hn (e ▸ hx)) _ _
  · rwa [List.append_nil]
  · rw [List.append_nil]; exact fun e => (List.mem_cons.1 e).elim hnp hn

/-- a node is taken out -/
theorem remove (h : Seg nx (nx p) (ys ++ c :: zs)) (hp : p ∉ ys ++ c :: zs) :
    Seg (update nx (ys.getLastD p) (nx c)) (update nx (ys.getLastD p) (nx c) p) (ys ++ zs) := by
  induction ys generalizing p with
  | nil =>
    rw [List.getLastD_nil, update_self]
    refine h.2.2.congr fun x hx => update_of_ne ?_ ..
    rintro rfl; exact hp (by simp [hx])
  | cons y ys ih =>
    obtain ⟨hy, hy0, hs⟩ := h
    have hseg : Seg nx y (y :: (ys ++ c :: zs)) := ⟨rfl, hy0, hs⟩
    rw [update_of_ne (ne_last fun e => hp (List.mem_append_left _ e)), hy]
    refine ⟨rfl, hy0, ?_⟩
    rw [List.getLastD_cons]
    exact ih hs (List.nodup_cons.1 hseg.nodup).1

end Seg

/-! ## Families of lists -/

structure Lists {ι : Type*} (nx : ℕ → ℕ) (size : ℕ → ℤ) (lim : ℕ) (live : ι → Prop) (head : ι → ℕ) (cont : ι → List ℕ)
    (H : Set ℕ) : Prop where
  seg : ∀ q, live q → Seg nx (nx (head q)) (cont q)
  size : ∀ q, live q → size (head q) = (cont q).length
  inj : ∀ q, live q → ∀ r, live r → head q = head r → q = r
  heads : ∀ q, live q → head q ≠ 0 ∧ head q < lim
  nodes : ∀ q, live q → ∀ x ∈ cont q, x < lim ∧ ∀ r, live r → x ≠ head r
  apart : ∀ q, live q → ∀ r, live r → ∀ x ∈ cont q, x ∈ cont r → q = r
  hand : ∀ y ∈ H, y ≠ 0 ∧ y < lim ∧ ∀ r, live r → y ≠ head r ∧ y ∉ cont r

namespace Lists

variable {ι : Type*} {nx nx' : ℕ → ℕ} {size size' : ℕ → ℤ} {lim lim' : ℕ} {live live' : ι → Prop} {head head' : ι → ℕ}
  {cont : ι → List ℕ} {H H' : Set ℕ} {q : ι} {y : ℕ} {ys zs : List ℕ}

/-- all nodes, in a list or not -/
def Data (live : ι → Prop) (cont : ι → List ℕ) (H : Set ℕ) : Set ℕ := {x | (∃ q, live q ∧ x ∈ cont q) ∨ x ∈ H}

theorem mem_data_insert {x : ℕ} : x ∈ Data live cont (insert y H) ↔ x ∈ Data live cont H ∨ x = y := by
  constructor
  · rintro (h | rfl | h)
    · exact .inl (.inl h)
    · exact .inr rfl
    · exact .inl (.inr h)
  · rintro ((h | h) | rfl)
    · exact .inl h
    · exact .inr (.inr h)
    · exact .inr (.inl rfl)

variable (h : Lists nx size lim live head cont H)

include h

/-- the walks come to an end -/
theorem length_lt (hq : live q) : (cont q).length < lim := by
  have hsub : insert 0 (cont q).toFinset ⊆ Finset.range lim := by
    intro x hx
    rcases Finset.mem_insert.1 hx with rfl | hx
    · exact Finset.mem_range.2 (Nat.zero_lt_of_lt (h.heads q hq).2)
    · exact Finset.mem_range.2 (h.nodes q hq x (List.mem_toFinset.1 hx)).1
  have h0 : 0 ∉ (cont q).toFinset := fun e => (h.seg q hq).ne_zero 0 (List.mem_toFinset.1 e) rfl
  have := Finset.card_le_card hsub
  rw [Finset.card_insert_of_notMem h0, List.toFinset_card_of_nodup (h.seg q hq).nodup, Finset.card_range] at this
  omega

theorem head_notMem (hq : live q) : head q ∉ cont q := fun e =>
  (h.nodes q hq _ e).2 q hq rfl

/-- the last node of a list, or its head -/
theorem last_cases (hq : live q) (ys : List ℕ) (hs : ∀ x ∈ ys, x ∈ cont q) :
    ∀ r, live r → r ≠ q → ys.getLastD (head q) ∉ cont r ∧ ys.getLastD (head q) ≠ head r := by
  intro r hr hne
  rcases Seg.getLastD_mem (head q) ys with e | e
  · rw [e]
    exact ⟨fun hm => (h.nodes r hr _ hm).2 q hq rfl, fun hm => hne (h.inj q hq r hr hm).symm⟩
  · have hm := hs _ e
    exact ⟨fun hm' => hne (h.apart q hq r hr _ hm hm').symm, (h.nodes q hq _ hm).2 r hr⟩

theorem forget (hH : H' ⊆ H) : Lists nx size lim live head cont H' :=
  ⟨h.seg, h.size, h.inj, h.heads, h.nodes, h.apart, fun y hy => h.hand y (hH hy)⟩

/-- memory for a node -/
theorem new (hlim : lim ≤ y) (hy : y < lim') (hnx : ∀ a < lim, nx' a = nx a)
    (hsize : ∀ a < lim, size' a = size a) (h0 : 0 < lim) : Lists nx' size' lim' live head cont (insert y H) where
  seg q hq := by
    rw [hnx _ (h.heads q hq).2]
    exact (h.seg q hq).congr fun x hx => hnx x (h.nodes q hq x hx).1
  size q hq := by rw [hsize _ (h.heads q hq).2]; exact h.size q hq
  inj := h.inj
  heads q hq := ⟨(h.heads q hq).1, (h.heads q hq).2.trans_le (hlim.trans hy.le)⟩
  nodes q hq x hx := ⟨(h.nodes q hq x hx).1.trans_le (hlim.trans hy.le), (h.nodes q hq x hx).2⟩
  apart := h.apart
  hand x hx := by
    rcases hx with rfl | hx
    · refine ⟨by omega, hy, fun r hr => ⟨fun e => ?_, fun e => ?_⟩⟩
      · have := (h.heads r hr).2; omega
      · have := (h.nodes r hr _ e).1; omega
    · obtain ⟨h1, h2, h3⟩ := h.hand x hx
      exact ⟨h1, h2.trans_le (hlim.trans hy.le), h3⟩

variable (lim') in
/-- new empty lists, and the nodes of the old ones in no list -/
theorem restart (hlim : lim ≤ lim') (hinj : ∀ q, live' q → ∀ r, live' r → head' q = head' r → q = r)
    (hnew : ∀ q, live' q → lim ≤ head' q ∧ head' q < lim' ∧ head' q ≠ 0 ∧ nx' (head' q) = 0 ∧ size' (head' q) = 0) :
    Lists nx' size' lim' live' head' (fun _ => []) (Data live cont H) where
  seg q hq := (hnew q hq).2.2.2.1
  size q hq := by rw [(hnew q hq).2.2.2.2]; rfl
  inj := hinj
  heads q hq := ⟨(hnew q hq).2.2.1, (hnew q hq).2.1⟩
  nodes _ _ _ hx := nomatch hx
  apart _ _ _ _ _ hx := nomatch hx
  hand y hy := by
    have hlt : y ≠ 0 ∧ y < lim := by
      rcases hy with ⟨q, hq, hy⟩ | hy
      · exact ⟨(h.seg q hq).ne_zero y hy, (h.nodes q hq y hy).1⟩
      · exact ⟨(h.hand y hy).1, (h.hand y hy).2.1⟩
    refine ⟨hlt.1, hlt.2.trans_le hlim, fun r hr => ⟨fun e => ?_, nofun⟩⟩
    have := (hnew r hr).1
    omega

variable [DecidableEq ι]

/-- a node of H goes to the tail of a list -/
theorem append (hq : live q) (hy : y ∈ H) : Lists (update (update nx ((cont q).getLastD (head q)) y) y 0)
      (update size (head q) (size (head q) + 1)) lim live head (update cont q (cont q ++ [y]))
      (H \ {y}) := by
  obtain ⟨hy0, hylt, hyr⟩ := h.hand y hy
  have hz := h.last_cases hq (cont q) fun _ hx => hx
  have hmem : ∀ r x, x ∈ update cont q (cont q ++ [y]) r → x ∈ cont r ∨ r = q ∧ x = y := by
    intro r x hx
    by_cases e : r = q
    · subst e
      rw [update_self, List.mem_append, List.mem_singleton] at hx
      exact hx.imp_right fun e => ⟨rfl, e⟩
    · rw [update_of_ne e] at hx; exact .inl hx
  refine ⟨fun r hr => ?_, fun r hr => ?_, h.inj, h.heads, fun r hr x hx => ?_, fun r hr r' hr' x hx hx' => ?_,
    fun x hx => ?_⟩
  · by_cases e : r = q
    · subst e
      rw [update_self]
      exact (h.seg r hr).append (h.head_notMem hr) (hyr r hr).2 (hyr r hr).1 hy0
    · -- neither the tail of q nor y is in list r
      obtain ⟨h1, h2⟩ := hz r hr e
      rw [update_of_ne e, update_of_ne (hyr r hr).1.symm, update_of_ne h2.symm]
      refine (h.seg r hr).congr fun x hx => ?_
      have hxy : x ≠ y := by rintro rfl; exact (hyr r hr).2 hx
      have hxz : x ≠ (cont q).getLastD (head q) := by rintro rfl; exact h1 hx
      rw [update_of_ne hxy, update_of_ne hxz]
  · by_cases e : r = q
    · subst e
      rw [update_self, update_self, h.size r hr]
      simp
    · rw [update_of_ne e, update_of_ne fun e' => e (h.inj r hr q hq e')]
      exact h.size r hr
  · rcases hmem r x hx with hx | ⟨-, rfl⟩
    · exact h.nodes r hr x hx
    · exact ⟨hylt, fun r hr => (hyr r hr).1⟩
  · rcases hmem r x hx with hx | ⟨e1, e2⟩ <;> rcases hmem r' x hx' with hx' | ⟨e3, e4⟩
    · exact h.apart r hr r' hr' x hx hx'
    · exact absurd (e4 ▸ hx) (hyr r hr).2
    · exact absurd (e2 ▸ hx') (hyr r' hr').2
    · rw [e1, e3]
  · obtain ⟨hx, hxy⟩ := hx
    obtain ⟨h1, h2, h3⟩ := h.hand x hx
    refine ⟨h1, h2, fun r hr => ⟨(h3 r hr).1, fun e => ?_⟩⟩
    rcases hmem r x e with e | ⟨-, e⟩
    · exact (h3 r hr).2 e
    · exact hxy e

/-- a node of a list goes to H -/
theorem remove (hq : live q) (e : cont q = ys ++ y :: zs) :
    Lists (update nx (ys.getLastD (head q)) (nx y)) (update size (head q) (size (head q) - 1)) lim live
      head (update cont q (ys ++ zs)) (insert y H) := by
  have hyq : y ∈ cont q := by rw [e]; simp
  have hsub : ∀ x, x ∈ ys ++ zs → x ∈ cont q := by
    intro x hx
    rw [e]
    rcases List.mem_append.1 hx with hx | hx <;> simp [hx]
  have hz := h.last_cases hq ys fun x hx => hsub x (List.mem_append_left _ hx)
  have hmem : ∀ r x, x ∈ update cont q (ys ++ zs) r → x ∈ cont r := by
    intro r x hx
    by_cases er : r = q
    · subst er; rw [update_self] at hx; exact hsub x hx
    · rwa [update_of_ne er] at hx
  have hny : y ∉ ys ++ zs := by
    have hd := (h.seg q hq).nodup
    rw [e, List.nodup_middle, List.nodup_cons] at hd
    exact hd.1
  refine ⟨fun r hr => ?_, fun r hr => ?_, h.inj, h.heads, fun r hr x hx => h.nodes r hr x (hmem r x hx),
    fun r hr r' hr' x hx hx' => h.apart r hr r' hr' x (hmem r x hx) (hmem r' x hx'), fun x hx => ?_⟩
  · by_cases er : r = q
    · subst er
      rw [update_self]
      exact (e ▸ h.seg r hr).remove (e ▸ h.head_notMem hr)
    · obtain ⟨h1, h2⟩ := hz r hr er
      rw [update_of_ne er, update_of_ne h2.symm]
      refine (h.seg r hr).congr fun x hx => update_of_ne ?_ ..
      rintro rfl; exact h1 hx
  · by_cases er : r = q
    · subst er
      rw [update_self, update_self, h.size r hr, e]
      simp only [List.length_append, List.length_cons]
      push_cast
      ring
    · rw [update_of_ne er, update_of_ne fun e' => er (h.inj r hr q hq e')]
      exact h.size r hr
  · rcases hx with rfl | hx
    · refine ⟨(h.seg q hq).ne_zero x hyq, (h.nodes q hq x hyq).1, fun r hr => ⟨(h.nodes q hq x hyq).2 r hr, fun hx => ?_⟩⟩
      have hrq := h.apart q hq r hr x hyq (hmem r x hx)
      subst hrq
      rw [update_self] at hx
      exact hny hx
    · obtain ⟨h1, h2, h3⟩ := h.hand x hx
      exact ⟨h1, h2, fun r hr => ⟨(h3 r hr).1, fun hx => (h3 r hr).2 (hmem r x hx)⟩⟩

omit h

/-- `append` leaves the nodes as they are -/
theorem data_append (hq : live q) (hy : y ∈ H) :
    Data live (update cont q (cont q ++ [y])) (H \ {y}) = Data live cont H := by
  ext x
  constructor
  · rintro (⟨r, hr, hx⟩ | hx)
    · by_cases e : r = q
      · subst e
        rw [update_self, List.mem_append, List.mem_singleton] at hx
        rcases hx with hx | rfl
        · exact .inl ⟨r, hr, hx⟩
        · exact .inr hy
      · rw [update_of_ne e] at hx; exact .inl ⟨r, hr, hx⟩
    · exact .inr hx.1
  · rintro (⟨r, hr, hx⟩ | hx)
    · refine .inl ⟨r, hr, ?_⟩
      by_cases e : r = q
      · subst e; rw [update_self]; exact List.mem_append_left _ hx
      · rwa [update_of_ne e]
    · by_cases e : x = y
      · refine .inl ⟨q, hq, ?_⟩
        rw [update_self, e]; simp
      · exact .inr ⟨hx, e⟩

/-- `remove` leaves the nodes as they are -/
theorem data_remove (hq : live q) (e : cont q = ys ++ y :: zs) :
    Data live (update cont q (ys ++ zs)) (insert y H) = Data live cont H := by
  have hiff : ∀ x, x ∈ cont q ↔ x ∈ ys ++ zs ∨ x = y := by
    intro x
    rw [e]
    simp only [List.mem_append, List.mem_cons]
    tauto
  ext x
  constructor
  · rintro (⟨r, hr, hx⟩ | rfl | hx)
    · by_cases er : r = q
      · subst er
        rw [update_self] at hx
        exact .inl ⟨r, hr, (hiff x).2 (.inl hx)⟩
      · rw [update_of_ne er] at hx; exact .inl ⟨r, hr, hx⟩
    · exact .inl ⟨q, hq, (hiff x).2 (.inr rfl)⟩
    · exact .inr hx
  · rintro (⟨r, hr, hx⟩ | hx)
    · by_cases er : r = q
      · subst er
        rcases (hiff x).1 hx with hx | rfl
        · exact .inl ⟨r, hr, by rwa [update_self]⟩
        · exact .inr (.inl rfl)
      · exact .inl ⟨r, hr, by rwa [update_of_ne er]⟩
    · exact .inr (.inr hx)

end Lists

end AlgorithmCollection.Conc
