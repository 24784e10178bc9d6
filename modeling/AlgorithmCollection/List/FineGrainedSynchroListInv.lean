/-
The invariant of `FineGrainedSynchroList`, for any number of threads and any interleaving.

The ghost is the set S of the nodes of the list, sentinels included, and the node (with its thread) that an `add` to
an empty list has linked while its own link is still NULL (`pend`). S is a sorted chain from head to tail along `link`,
which reads the pending node's link as tail.
- A thread that holds the lock of a node of S knows that it stays in S and keeps its link: others write the link of a
  node, or unlink it, only while they hold its lock (`Guar.next`, `Guar.keep`).
- While there is a pending node, its thread holds both sentinels, so no other thread holds a lock in the list
  (`Inv.no_pend`).
`inv_run`: the invariant holds in every reachable state. `step_guar`: what one step guarantees to the other threads.
-/
import AlgorithmCollection.List.FineGrainedSynchroList

namespace AlgorithmCollection.FineGrainedSynchroList

open Conc
open Function (update update_of_ne)

structure Ghost where
  S : Finset ℕ
  pend : Option (ℕ × ℕ)

/-- nodes are ordered by key, the sentinels by their address -/
def rank (m : Mem) : ℕ → WithBot (WithTop ℤ) := sentinelRank head tail fun a => (m.node a).key

/-- the link of a node, with the missing link of the pending node -/
def link (g : Ghost) (m : Mem) (a : ℕ) : ℕ := if g.pend.map Prod.fst = some a then tail else (m.node a).next

/-- thread u has linked node n behind head and not yet set its link -/
structure Pending (g : Ghost) (m : Mem) (n u : ℕ) : Prop where
  null : (m.node n).next = NULL
  first : (m.node head).next = n
  all : g.S = {head, n, tail}
  node : n ≠ head ∧ n ≠ tail
  mtx_head : m.mtx head = some u
  mtx_tail : m.mtx tail = some u
  free : m.mtx n = none

structure Inv (g : Ghost) (m : Mem) : Prop where
  chain : Chain (link g m) (rank m) head tail g.S
  addr : ∀ a ∈ g.S, 0 < a ∧ a < m.fresh
  pend : ∀ n u, g.pend = some (n, u) → Pending g m n u
  unborn : ∀ a, m.fresh ≤ a → m.mtx a = none

/-! ## Local assertions -/

/-- the node created by this `add` is not linked -/
structure Own (g : Ghost) (m : Mem) (n : ℕ) (k v : ℤ) (nx : ℕ) : Prop where
  not_mem : n ∉ g.S
  pos : 0 < n
  lt : n < m.fresh
  key : (m.node n).key = k
  val : (m.node n).val = v
  next : (m.node n).next = nx
  free : m.mtx n = none

def CtxOk (g : Ghost) (m : Mem) : Ctx → Prop
  | .add k v n => Own g m n k v NULL
  | .delete _ => True
  | .find _ => True

/-- t holds the lock of a, which is in the list, not tail, and before the key -/
structure Front (g : Ghost) (t : ℕ) (m : Mem) (k : ℤ) (a : ℕ) : Prop where
  mem : a ∈ g.S
  ne : a ≠ tail
  mtx : m.mtx a = some t
  lt : rank m a < keyRank k

/-- t holds the locks of pred and of its successor curr -/
structure Held (g : Ghost) (t : ℕ) (m : Mem) (k : ℤ) (pred curr : ℕ) : Prop where
  front : Front g t m k pred
  mtx : m.mtx curr = some t
  next : (m.node pred).next = curr

def AsrtAt (g : Ghost) (t : ℕ) (m : Mem) : Loc → Prop
  | .idle | .ret _ _ | .create _ _ => True
  | .lockHead c => CtxOk g m c
  | .first c => CtxOk g m c ∧ m.mtx head = some t
  | .lockFirst c curr => CtxOk g m c ∧ m.mtx head = some t ∧ (m.node head).next = curr
  | .addEmpty1 k v n =>
    Own g m n k v NULL ∧ m.mtx head = some t ∧ m.mtx tail = some t ∧ (m.node head).next = tail
  | .addEmpty2 k v n => g.pend = some (n, t) ∧ (m.node n).key = k ∧ (m.node n).val = v
  | .test c pred curr => CtxOk g m c ∧ Held g t m c.key pred curr
  | .unlockPred c pred curr =>
    CtxOk g m c ∧ Held g t m c.key pred curr ∧ curr ≠ tail ∧ (m.node curr).key < c.key
  | .next c curr => CtxOk g m c ∧ Front g t m c.key curr
  | .lockCurr c pred curr => CtxOk g m c ∧ Front g t m c.key pred ∧ (m.node pred).next = curr
  | .check c pred curr => CtxOk g m c ∧ Held g t m c.key pred curr ∧ (curr = tail ∨ c.key ≤ (m.node curr).key)
  | .link1 k v n pred curr =>
    Own g m n k v NULL ∧ Held g t m k pred curr ∧ (curr = tail ∨ k < (m.node curr).key)
  | .link2 k v n pred curr =>
    Own g m n k v curr ∧ Held g t m k pred curr ∧ (curr = tail ∨ k < (m.node curr).key)
  | .del1 k pred curr => Held g t m k pred curr ∧ curr ≠ tail ∧ (m.node curr).key = k
  | .del2 k pred curr v =>
    Held g t m k pred curr ∧ curr ≠ tail ∧ (m.node curr).key = k ∧ (m.node curr).val = v
  | .del3 k pred curr v succ =>
    Held g t m k pred curr ∧ curr ≠ tail ∧ (m.node curr).key = k ∧ (m.node curr).val = v ∧
      (m.node curr).next = succ
  | .find1 k pred curr => Held g t m k pred curr ∧ curr ≠ tail ∧ (m.node curr).key = k
  | .unlock1 _ _ a b => m.mtx a = some t ∧ m.mtx b = some t ∧ a ≠ b
  | .unlock2 _ _ b => m.mtx b = some t

/-- the assertion of thread t at l; only the thread between its two stores has a pending node -/
structure Asrt (g : Ghost) (t : ℕ) (m : Mem) (l : Loc) : Prop where
  at_ : AsrtAt g t m l
  pend : ∀ n, g.pend = some (n, t) → between l = true

def Ctx.owns : Ctx → Option ℕ
  | .add _ _ n => some n
  | .delete _ => none
  | .find _ => none

/-- the node a thread has created and not linked yet -/
def owns : Loc → Option ℕ
  | .lockHead c | .first c | .lockFirst c _ | .test c _ _ | .unlockPred c _ _ | .next c _ | .lockCurr c _ _
  | .check c _ _ => c.owns
  | .addEmpty1 _ _ n | .link1 _ _ n _ _ | .link2 _ _ n _ _ => some n
  | _ => none

/-- different threads own different nodes -/
def Disj (l l' : Loc) : Prop := ∀ n, owns l = some n → owns l' ≠ some n

variable {g : Ghost} {m : Mem}

theorem CtxOk.owned {c : Ctx} (h : CtxOk g m c) {n : ℕ} (hn : c.owns = some n) :
    n ∉ g.S ∧ n < m.fresh ∧ m.mtx n = none := by
  cases c with
  | add k v n => cases hn; exact ⟨h.not_mem, h.lt, h.free⟩
  | delete k | find k => cases hn

/-- an owned node is allocated, not linked and not locked -/
theorem Asrt.owned {t : ℕ} {l : Loc} (h : Asrt g t m l) {n : ℕ} (hn : owns l = some n) :
    n ∉ g.S ∧ n < m.fresh ∧ m.mtx n = none := by
  obtain ⟨h, -⟩ := h
  cases l with
  | lockHead c => exact CtxOk.owned h hn
  | first c | lockFirst c _ | test c _ _ | unlockPred c _ _ | next c _ | lockCurr c _ _
  | check c _ _ => exact h.1.owned hn
  | addEmpty1 _ _ n | link1 _ _ n _ _ | link2 _ _ n _ _ => cases hn; exact ⟨h.1.not_mem, h.1.lt, h.1.free⟩
  | _ => cases hn

/-! ## What a step guarantees to the other threads -/

structure Guar (g : Ghost) (t : ℕ) (m : Mem) (l : Loc) (g' : Ghost) (m' : Mem) (l' : Loc) : Prop where
  inv : Inv g' m'
  asrt : Asrt g' t m' l'
  mtx : ∀ a u, u ≠ t → (m'.mtx a = some u ↔ m.mtx a = some u)
  acquired : ∀ a, m'.mtx a = some t → m.mtx a = some t ∨ a ∈ g.S
  next : ∀ a < m.fresh, (m'.node a).next = (m.node a).next ∨ m.mtx a = some t ∨ owns l = some a ∨
    g.pend = some (a, t)
  data : ∀ a < m.fresh, (m'.node a).key = (m.node a).key ∧ (m'.node a).val = (m.node a).val
  fresh : m.fresh ≤ m'.fresh
  keep : ∀ a ∈ g.S, a ∉ g'.S → m.mtx a = some t
  new : ∀ a ∈ g'.S, a ∉ g.S → owns l = some a
  owned : ∀ n, owns l' = some n → owns l = some n ∨ n = m.fresh
  pend : ∀ n u, u ≠ t → (g'.pend = some (n, u) ↔ g.pend = some (n, u))

theorem rank_congr {m' : Mem} {a : ℕ} (h : (m'.node a).key = (m.node a).key) : rank m' a = rank m a := by
  unfold rank sentinelRank; simp only [h]

section Stable

variable {g g' : Ghost} {t u : ℕ} {m m' : Mem} {l l' l2 : Loc}

variable {a : ℕ} {k : ℤ}

variable (h : Guar g t m l g' m' l')

include h

variable (hI : Inv g m)

include hI

/-- a node locked by another thread keeps its lock and its link, and stays in the list -/
theorem Guar.locked (ha : Asrt g t m l) (hu : u ≠ t) (hlt : a < m.fresh) (hm : m.mtx a = some u) :
    m'.mtx a = some u ∧ (m'.node a).next = (m.node a).next ∧ (a ∈ g.S → a ∈ g'.S) := by
  have hne : ∀ {o : Option ℕ}, m.mtx a = o → o ≠ some t := by
    rintro o rfl e
    rw [hm] at e; exact hu (Option.some.inj e)
  refine ⟨(h.mtx a u hu).2 hm, ?_, fun hS => ?_⟩
  · rcases h.next a hlt with h1 | h1 | h1 | h1
    · exact h1
    · exact absurd h1 (hne rfl)
    · rw [(ha.owned h1).2.2] at hm; cases hm
    · rw [(hI.pend a t h1).free] at hm; cases hm
  · by_contra hS'
    exact hne rfl (h.keep a hS hS')

theorem Own.stable {n : ℕ} {v : ℤ} {nx : ℕ} (ho : Own g m n k v nx) (hd : owns l ≠ some n) : Own g' m' n k v nx where
  not_mem hS := hd (h.new n hS ho.not_mem)
  pos := ho.pos
  lt := lt_of_lt_of_le ho.lt h.fresh
  key := (h.data n ho.lt).1.trans ho.key
  val := (h.data n ho.lt).2.trans ho.val
  next := by
    rcases h.next n ho.lt with h1 | h1 | h1 | h1
    · exact h1.trans ho.next
    · rw [ho.free] at h1; cases h1
    · exact absurd h1 hd
    · have hS : n ∈ g.S := by rw [(hI.pend n t h1).all]; simp
      exact absurd hS ho.not_mem
  free := by
    cases e : m'.mtx n with
    | none => rfl
    | some w =>
      by_cases hw : w = t
      · subst hw
        rcases h.acquired n e with h1 | h1
        · rw [ho.free] at h1; cases h1
        · exact absurd h1 ho.not_mem
      · have := (h.mtx n w hw).1 e
        rw [ho.free] at this; cases this

theorem CtxOk.stable {c : Ctx} (hc : CtxOk g m c) (hd : ∀ n, c.owns = some n → owns l ≠ some n) : CtxOk g' m' c := by
  cases c with
  | add k v n => exact Own.stable h hI hc (hd n rfl)
  | delete k | find k => trivial

theorem Front.stable (ha : Asrt g t m l) (hu : u ≠ t) (hf : Front g u m k a) : Front g' u m' k a := by
  have hlt := (hI.addr a hf.mem).2
  obtain ⟨h1, -, h3⟩ := h.locked hI ha hu hlt hf.mtx
  exact ⟨h3 hf.mem, hf.ne, h1, by rw [rank_congr (h.data a hlt).1]; exact hf.lt⟩

omit h

/-- a node of the list is allocated, and so is its successor -/
theorem Inv.next_lt (hp : g.pend = none) (ha : a ∈ g.S) (hat : a ≠ tail) : (m.node a).next ∈ g.S := by
  have := hI.chain.next_mem a ha hat
  unfold link at this
  rwa [hp, Option.map_none, if_neg (by simp)] at this

/-- a thread with a lock in the list and no pending node of its own: nobody has a pending node -/
theorem Inv.no_pend (ha : a ∈ g.S) (hm : m.mtx a = some u) (hp : ∀ n, g.pend ≠ some (n, u)) : g.pend = none := by
  cases e : g.pend with
  | none => rfl
  | some x =>
    obtain ⟨n, w⟩ := x
    have hP := hI.pend n w e
    have hw : w ≠ u := fun hw => hp n (hw ▸ e)
    rw [hP.all] at ha
    simp only [Finset.mem_insert, Finset.mem_singleton] at ha
    rcases ha with rfl | rfl | rfl
    · rw [hP.mtx_head] at hm; exact absurd (Option.some.inj hm) hw
    · rw [hP.free] at hm; cases hm
    · rw [hP.mtx_tail] at hm; exact absurd (Option.some.inj hm) hw

omit hI in
theorem Asrt.no_pend (ha : Asrt g u m l) (hb : between l = false) (n : ℕ) : g.pend ≠ some (n, u) := fun e => by
  have := ha.pend n e
  rw [hb] at this; cases this

theorem Front.no_pend (hf : Front g u m k a) (ha : Asrt g u m l)
    (hb : between l = false) : g.pend = none := hI.no_pend hf.mem hf.mtx (ha.no_pend hb)

omit hI in
/-- without a pending node the links are those in memory -/
theorem link_eq (hp : g.pend = none) : link g m = fun a => (m.node a).next := by
  funext a
  unfold link
  rw [hp, Option.map_none, if_neg (by simp)]

theorem Held.curr_mem (hp : g.pend = none) {p q : ℕ} (hh : Held g u m k p q) : q ∈ g.S :=
  hh.next ▸ hI.next_lt hp hh.front.mem hh.front.ne

theorem Held.ne (hp : g.pend = none) {p q : ℕ} (hh : Held g u m k p q) : p ≠ q := by
  rintro rfl
  have hlt := hI.chain.lt_next p hh.front.mem hh.front.ne
  simp only [link_eq hp, hh.next] at hlt
  exact lt_irrefl _ hlt

omit hI

theorem Held.stable (h : Guar g t m l g' m' l') (hI : Inv g m) (ha : Asrt g t m l) (hu : u ≠ t)
    (hp : g.pend = none) {p q : ℕ} (hh : Held g u m k p q) : Held g' u m' k p q := by
  have hq := hh.curr_mem hI hp
  obtain ⟨-, h2, -⟩ := h.locked hI ha hu (hI.addr p hh.front.mem).2 hh.front.mtx
  exact ⟨hh.front.stable h hI ha hu, (h.locked hI ha hu (hI.addr q hq).2 hh.mtx).1, h2.trans hh.next⟩

/-- **Stability.** The assertion of another thread is kept by every step. -/
theorem Asrt.stable (h : Guar g t m l g' m' l') (hI : Inv g m) (ha : Asrt g t m l) (hu : u ≠ t)
    (hl : Asrt g u m l2) (hd : ∀ n, owns l2 = some n → owns l ≠ some n) : Asrt g' u m' l2 := by
  refine ⟨?_, fun n hn => hl.pend n ((h.pend n u hu).1 hn)⟩
  have hAt := hl.at_
  have hmtx : ∀ {a}, m.mtx a = some u → m'.mtx a = some u := fun {a} => (h.mtx a u hu).2
  have hhead : ∀ {b}, m.mtx head = some u → (m.node head).next = b → (m'.node head).next = b := fun {b} h1 h2 =>
    (h.locked hI ha hu (hI.addr _ hI.chain.head_mem).2 h1).2.1.trans h2
  -- facts about the node after pred are about an allocated node, whose data never change
  have hcurr : ∀ {k p q}, between l2 = false → Held g u m k p q → Held g' u m' k p q ∧
      (m'.node q).key = (m.node q).key ∧ (m'.node q).val = (m.node q).val ∧ (m'.node q).next = (m.node q).next := by
    intro k p q hb hh
    have hp := hh.front.no_pend hI hl hb
    have hq := (hI.addr q (hh.curr_mem hI hp)).2
    exact ⟨hh.stable h hI ha hu hp, (h.data q hq).1, (h.data q hq).2, (h.locked hI ha hu hq hh.mtx).2.1⟩
  cases l2 with
  | idle | ret _ _ | create _ _ => trivial
  | lockHead c => exact CtxOk.stable h hI hAt hd
  | first c => exact ⟨hAt.1.stable h hI hd, hmtx hAt.2⟩
  | lockFirst c curr => exact ⟨hAt.1.stable h hI hd, hmtx hAt.2.1, hhead hAt.2.1 hAt.2.2⟩
  | addEmpty1 k v n =>
    exact ⟨hAt.1.stable h hI (hd n rfl), hmtx hAt.2.1, hmtx hAt.2.2.1, hhead hAt.2.1 hAt.2.2.2⟩
  | addEmpty2 k v n =>
    have hn : n < m.fresh := (hI.addr n (by rw [(hI.pend n u hAt.1).all]; simp)).2
    exact ⟨(h.pend n u hu).2 hAt.1, (h.data n hn).1.trans hAt.2.1, (h.data n hn).2.trans hAt.2.2⟩
  | test c p q => exact ⟨hAt.1.stable h hI hd, (hcurr rfl hAt.2).1⟩
  | unlockPred c p q =>
    obtain ⟨h1, h2, -⟩ := hcurr rfl hAt.2.1
    exact ⟨hAt.1.stable h hI hd, h1, hAt.2.2.1, h2 ▸ hAt.2.2.2⟩
  | next c q => exact ⟨hAt.1.stable h hI hd, hAt.2.stable h hI ha hu⟩
  | lockCurr c p q =>
    obtain ⟨-, h2, -⟩ := h.locked hI ha hu (hI.addr p hAt.2.1.mem).2 hAt.2.1.mtx
    exact ⟨hAt.1.stable h hI hd, hAt.2.1.stable h hI ha hu, h2.trans hAt.2.2⟩
  | check c p q =>
    obtain ⟨h1, h2, -⟩ := hcurr rfl hAt.2.1
    exact ⟨hAt.1.stable h hI hd, h1, h2 ▸ hAt.2.2⟩
  | link1 k v n p q | link2 k v n p q =>
    obtain ⟨h1, h2, -⟩ := hcurr rfl hAt.2.1
    exact ⟨hAt.1.stable h hI (hd n rfl), h1, h2 ▸ hAt.2.2⟩
  | del1 k p q | find1 k p q =>
    obtain ⟨h1, h2, -⟩ := hcurr rfl hAt.1
    exact ⟨h1, hAt.2.1, h2.trans hAt.2.2⟩
  | del2 k p q v =>
    obtain ⟨h1, h2, h3, -⟩ := hcurr rfl hAt.1
    exact ⟨h1, hAt.2.1, h2.trans hAt.2.2.1, h3.trans hAt.2.2.2⟩
  | del3 k p q v s =>
    obtain ⟨h1, h2, h3, h4⟩ := hcurr rfl hAt.1
    exact ⟨h1, hAt.2.1, h2.trans hAt.2.2.1, h3.trans hAt.2.2.2.1, h4.trans hAt.2.2.2.2⟩
  | unlock1 op r a b => exact ⟨hmtx hAt.1, hmtx hAt.2.1, hAt.2.2⟩
  | unlock2 op r b => exact hmtx hAt

end Stable

/-! ## The map -/

section Contents

variable {g g' : Ghost} {m m' : Mem}

/-- the nodes that carry the map -/
def data (g : Ghost) : Finset ℕ := (g.S.erase head).erase tail

variable {a : ℕ} {k : ℤ}

theorem mem_data : a ∈ data g ↔ a ∈ g.S ∧ a ≠ head ∧ a ≠ tail := by
  unfold data; rw [Finset.mem_erase, Finset.mem_erase]; tauto

theorem head_ne_tail : head ≠ tail := by decide

theorem rank_head_lt (ha : a ≠ head) : rank m head < rank m a := by
  unfold rank sentinelRank
  rw [if_pos rfl, if_neg ha]
  split_ifs <;> exact WithBot.bot_lt_coe _

variable (h : Inv g m)

include h

/-- the nodes reachable from head are the nodes of the list without the sentinels -/
theorem mem_nodes (a : ℕ) : a ∈ nodes m ↔ a ∈ data g := by
  rw [mem_data]
  have htail : 2 < m.fresh := (h.addr tail h.chain.tail_mem).2
  have hnull : ∀ b ∈ g.S, b ≠ NULL := fun b hb => (h.addr b hb).1.ne'
  cases hp : g.pend with
  | none =>
    have hc := h.chain
    rw [link_eq hp] at hc
    have hstop : ∀ b ∈ g.S, decide (b = tail ∨ b = NULL) = true ↔ b = tail := fun b hb => by
      simp [hnull b hb]
    exact hc.mem_walk_head hstop head_ne_tail (fun b hb => (h.addr b hb).2) a
  | some x =>
    obtain ⟨n, u⟩ := x
    have hP := h.pend n u hp
    have hn := hnull n (by rw [hP.all]; simp)
    obtain ⟨f, hf⟩ : ∃ f, m.fresh = f + 2 := ⟨m.fresh - 2, by omega⟩
    have hnodes : nodes m = [n] := by
      unfold nodes
      rw [hf, hP.first]
      simp [walk, hP.node.2, hn, hP.null]
    rw [hnodes, hP.all]
    simp only [List.mem_singleton, Finset.mem_insert, Finset.mem_singleton]
    constructor
    · rintro rfl; exact ⟨.inr (.inl rfl), hP.node⟩
    · rintro ⟨h1 | h1 | h1, h2, h3⟩
      · exact absurd h1 h2
      · exact h1
      · exact absurd h1 h3

theorem key_inj : ∀ a ∈ data g, ∀ b ∈ data g, (m.node a).key = (m.node b).key → a = b := by
  intro a ha b hb e
  obtain ⟨ha1, ha2, ha3⟩ := mem_data.1 ha
  obtain ⟨hb1, hb2, hb3⟩ := mem_data.1 hb
  refine h.chain.inj a ha1 b hb1 ?_
  unfold rank
  rw [sentinelRank_node ha2 ha3, sentinelRank_node hb2 hb3, e]

/-- **The map holds the pairs of the nodes of the list.** -/
theorem rep_contents : Rep (data g) (fun a => (m.node a).key) (fun a => (m.node a).val) (contents m) :=
  rep_lookup (mem_nodes h) (key_inj h)

theorem data_lt {a : ℕ} (ha : a ∈ data g) : a < m.fresh := (h.addr a (mem_data.1 ha).1).2

/-- the nodes of m have the same data in m' -/
abbrev SameData (m m' : Mem) : Prop :=
  ∀ a < m.fresh, (m'.node a).key = (m.node a).key ∧ (m'.node a).val = (m.node a).val

/-- the map depends on the set of nodes and their data only -/
theorem contents_same (h' : Inv g' m') (hS : g'.S = g.S) (hd : SameData m m') : contents m' = contents m :=
  (rep_contents h).same (rep_contents h') (fun a => by rw [mem_data, mem_data, hS]) fun a ha => hd a (data_lt h ha)

/-- a key strictly between a node and its successor is not in the map -/
theorem Inv.absent {p : ℕ} (hp : p ∈ g.S) (hpt : p ≠ tail) (h1 : rank m p < keyRank k)
    (h2 : keyRank k < rank m (link g m p)) : contents m k = none := by
  refine (rep_contents h).absent fun a ha e => ?_
  obtain ⟨ha1, ha2, ha3⟩ := mem_data.1 ha
  exact h.chain.not_between hp hpt h1 h2 ha1 (sentinelRank_eq.2 ⟨ha2, ha3, e⟩)

theorem Inv.present (ha : a ∈ g.S) (h1 : a ≠ head) (h2 : a ≠ tail) :
    contents m (m.node a).key = some (m.node a).val := (rep_contents h).holds (mem_data.2 ⟨ha, h1, h2⟩)

/-- linking a node with a new key -/
theorem contents_insert (h' : Inv g' m') {n : ℕ} {k v : ℤ} (hn : n ≠ head ∧ n ≠ tail)
    (hk : (m'.node n).key = k) (hv : (m'.node n).val = v) (hS : g'.S = insert n g.S) (hd : SameData m m')
    (habs : contents m k = none) : contents m' = update (contents m) k (some v) := by
  refine (rep_contents h).added (rep_contents h') hk hv (fun a => ?_) (fun a ha => hd a (data_lt h ha)) habs
  rw [mem_data, mem_data, hS, Finset.mem_insert]
  constructor
  · rintro ⟨h1 | h1, h2⟩
    · exact .inl h1
    · exact .inr ⟨h1, h2⟩
  · rintro (rfl | h1)
    · exact ⟨.inl rfl, hn⟩
    · exact ⟨Or.inr h1.1, h1.2⟩

/-- unlinking a node -/
theorem contents_erase (h' : Inv g' m') {c : ℕ} {k : ℤ} (hc : c ∈ g.S) (hn : c ≠ head ∧ c ≠ tail)
    (hk : (m.node c).key = k) (hS : g'.S = g.S.erase c) (hd : SameData m m') :
    contents m' = update (contents m) k none := by
  have hcD := mem_data.2 ⟨hc, hn⟩
  refine (rep_contents h).removed (rep_contents h') hcD hk (fun a ha e => key_inj h a ha c hcD e) (fun a => ?_)
    fun a ha => hd a (data_lt h ha)
  rw [mem_data, mem_data, hS, Finset.mem_erase]; tauto

end Contents

/-! ## One step -/

/-- the call and the result of the step from l, if it is the one at which the map changes -/
def commits : Loc → Option (Op × Res)
  | .addEmpty1 k v _ | .link2 k v _ _ _ => some (.add k v, .add true)
  | .del3 k _ _ v _ => some (.delete k, .delete (some v))
  | _ => none

/-- what a step does to the map: nothing, or the operation it commits -/
def Effect (m : Mem) (l : Loc) (m' : Mem) : Prop := MapEffect (contents m) (contents m') (commits l)

def Safe (g : Ghost) (t : ℕ) (m : Mem) (l : Loc) (m' : Mem) (l' : Loc) : Prop :=
  ∃ g', Guar g t m l g' m' l' ∧ Effect m l m'

/-- the next step of thread t at l is safe -/
abbrev ExecSafe (g : Ghost) (t : ℕ) (m : Mem) (l : Loc) : Prop := Safe g t m l (exec t m l).1 (exec t m l).2

section Steps

variable {g g' : Ghost} {t : ℕ} {m : Mem} {l k : Loc}

theorem Safe.load (h : Inv g m) (ha : Asrt g t m k) (ho : ∀ n, owns k = some n → owns l = some n)
    (hc : commits l = none) : Safe g t m l m k := by
  refine ⟨g, ⟨h, ha, fun _ _ _ => Iff.rfl, fun _ h => .inl h, fun _ _ => .inl rfl, fun _ _ => ⟨rfl, rfl⟩, le_rfl,
    fun _ => absurd, fun _ => absurd, fun n hn => .inl (ho n hn), fun _ _ _ => Iff.rfl⟩, ?_⟩
  unfold Effect; rw [hc]; rfl

variable {c : Ctx} {a b n p q : ℕ}

/-- a step on a mutex: taking a free one of the list, or releasing one -/
theorem Safe.mutex {o : Option ℕ} (h : Inv g (setMtx m a o)) (hm : Inv g m) (ha : Asrt g t (setMtx m a o) k)
    (ho : ∀ n, owns k = some n → owns l = some n) (hc : commits l = none)
    (hold : (m.mtx a = none ∧ a ∈ g.S ∧ o = some t) ∨ (m.mtx a = some t ∧ o = none)) :
    Safe g t m l (setMtx m a o) k := by
  refine ⟨g, ⟨h, ha, fun b u hu => ?_, fun b hb => ?_, fun _ _ => .inl rfl, fun _ _ => ⟨rfl, rfl⟩, le_rfl,
    fun _ => absurd, fun _ => absurd, fun n hn => .inl (ho n hn), fun _ _ _ => Iff.rfl⟩, ?_⟩
  · by_cases hb : b = a
    · subst hb
      rcases hold with ⟨h1, -, rfl⟩ | ⟨h1, rfl⟩
      · simp [setMtx, h1, hu.symm]
      · simp [setMtx, h1, hu.symm]
    · simp [setMtx, update_of_ne hb]
  · by_cases hba : b = a
    · subst hba
      rcases hold with ⟨-, h2, -⟩ | ⟨h1, -⟩
      · exact .inr h2
      · exact .inl h1
    · simp only [setMtx, update_of_ne hba] at hb
      exact .inl hb
  · unfold Effect; rw [hc]
    exact contents_same hm h rfl fun _ _ => ⟨rfl, rfl⟩

theorem inv_lock (h : Inv g m) (hp : g.pend = none) (ha : a ∈ g.S) (o : Option ℕ) : Inv g (setMtx m a o) := by
  refine ⟨h.chain, h.addr, fun n u e => (by rw [hp] at e; cases e), fun b hb => ?_⟩
  have hne : b ≠ a := fun e => absurd (h.addr a ha).2 (not_lt.2 (e ▸ hb))
  simp only [setMtx, update_of_ne hne]
  exact h.unborn b hb

/-- releasing a lock does not disturb another thread's pending node -/
theorem inv_unlock (h : Inv g m) (hp : ∀ n, g.pend ≠ some (n, t)) (ha : m.mtx a = some t) :
    Inv g (setMtx m a none) := by
  refine ⟨h.chain, h.addr, fun n u e => ?_, fun b hb => ?_⟩
  swap
  · by_cases hba : b = a
    · subst hba; simp [setMtx]
    · simp only [setMtx, update_of_ne hba]; exact h.unborn b hb
  have hP := h.pend n u e
  have hut : u ≠ t := fun hu => hp n (hu ▸ e)
  have hne : ∀ b, m.mtx b = some u → b ≠ a := by
    rintro b hb rfl
    rw [ha] at hb; exact hut (Option.some.inj hb).symm
  refine ⟨hP.null, hP.first, hP.all, hP.node, ?_, ?_, ?_⟩
  · simp only [setMtx, update_of_ne (hne _ hP.mtx_head), hP.mtx_head]
  · simp only [setMtx, update_of_ne (hne _ hP.mtx_tail), hP.mtx_tail]
  · by_cases hna : n = a
    · subst hna; simp [setMtx]
    · simp only [setMtx, update_of_ne hna, hP.free]

theorem CtxOk.setMtx (hc : CtxOk g m c) (ha : a ∈ g.S ∨ ∃ u, m.mtx a = some u) (o : Option ℕ) :
    CtxOk g (setMtx m a o) c := by
  cases c with
  | add k v n =>
    have hna : n ≠ a := by
      rintro rfl
      rcases ha with ha | ⟨u, ha⟩
      · exact hc.not_mem ha
      · rw [hc.free] at ha; cases ha
    refine ⟨hc.not_mem, hc.pos, hc.lt, hc.key, hc.val, hc.next, ?_⟩
    show update m.mtx a o n = none
    rw [update_of_ne hna, hc.free]
  | delete k | find k => trivial

@[simp] theorem setMtx_self (m : Mem) (a : ℕ) (o : Option ℕ) : (setMtx m a o).mtx a = o := Function.update_self _ _ _

theorem setMtx_ne (m : Mem) (o : Option ℕ) (h : b ≠ a) : (setMtx m a o).mtx b = m.mtx b :=
  update_of_ne h _ _

/-- a step that stays at a point without a pending node -/
theorem asrt_of (hp : ∀ n, g.pend ≠ some (n, t)) (h : AsrtAt g t m k) : Asrt g t m k :=
  ⟨h, fun n e => absurd e (hp n)⟩

/-- a lock step: blocked, or the mutex is taken and the thread goes on at k -/
theorem lock_safe (h : Inv g m) (ha : Asrt g t m l) (hb : between l = false) (hc : commits l = none)
    (haS : a ∈ g.S) (hp : m.mtx a = none → g.pend = none) (ho : ∀ n, owns k = some n → owns l = some n)
    (hk : m.mtx a = none → g.pend = none → AsrtAt g t (setMtx m a (some t)) k) :
    Safe g t m l (lock t m a l k).1 (lock t m a l k).2 := by
  unfold lock
  split_ifs with hm
  · have hnp : ∀ n, g.pend ≠ some (n, t) := ha.no_pend hb
    exact Safe.mutex (inv_lock h (hp hm) haS _) h (asrt_of hnp (hk hm (hp hm))) ho hc (.inl ⟨hm, haS, rfl⟩)
  · exact Safe.load h ha (fun _ => id) hc

/-- a new node changes nothing in the list -/
theorem createNode_old (m : Mem) (k v : ℤ) (ha : a < m.fresh) : (createNode m k v).node a = m.node a :=
  update_of_ne ha.ne _ _

theorem inv_createNode (h : Inv g m) (k v : ℤ) : Inv g (createNode m k v) := by
  have hold : ∀ a ∈ g.S, (createNode m k v).node a = m.node a := fun a ha => createNode_old m k v (h.addr a ha).2
  refine ⟨h.chain.congr (fun a ha _ => ?_) (fun a ha => ?_), fun a ha => ?_, fun n u e => ?_, fun a ha => ?_⟩
  · unfold link; rw [hold a ha]
  · exact rank_congr (by rw [hold a ha])
  · exact ⟨(h.addr a ha).1, (h.addr a ha).2.trans (Nat.lt_succ_self _)⟩
  · have hP := h.pend n u e
    refine ⟨?_, ?_, hP.all, hP.node, hP.mtx_head, hP.mtx_tail, hP.free⟩
    · rw [hold n (by rw [hP.all]; simp)]; exact hP.null
    · rw [hold head h.chain.head_mem]; exact hP.first
  · exact h.unborn a ((Nat.le_succ _).trans ha)

theorem exec_create (h : Inv g m) {key val : ℤ} (ha : Asrt g t m (.create key val)) :
    ExecSafe g t m (.create key val) := by
  have hown : Own g (createNode m key val) m.fresh key val NULL := by
    refine ⟨fun hS => lt_irrefl _ (h.addr _ hS).2, (Nat.zero_le _).trans_lt (h.addr _ h.chain.tail_mem).2,
      Nat.lt_succ_self _, ?_, ?_, ?_, h.unborn _ le_rfl⟩ <;> simp [createNode]
  have hI := inv_createNode h key val
  have hd : ∀ a < m.fresh, (createNode m key val).node a = m.node a := fun a => createNode_old m key val
  have hdata : ∀ a < m.fresh, ((createNode m key val).node a).key = (m.node a).key ∧
      ((createNode m key val).node a).val = (m.node a).val := fun a hlt => by rw [hd a hlt]; exact ⟨rfl, rfl⟩
  refine ⟨g, ⟨hI, asrt_of (ha.no_pend rfl) hown, fun _ _ _ => Iff.rfl, fun _ h => .inl h, fun a hlt => .inl ?_,
    hdata, Nat.le_succ _, fun _ => absurd, fun _ => absurd, fun n hn => ?_,
    fun _ _ _ => Iff.rfl⟩, ?_⟩
  · show ((createNode m key val).node a).next = _; rw [hd a hlt]
  · exact .inr (Option.some.inj hn).symm
  · exact contents_same h hI rfl hdata

/-! ### Stores -/

theorem setNext_data (m : Mem) (a p b : ℕ) :
    ((setNext m a p).node b).key = (m.node b).key ∧ ((setNext m a p).node b).val = (m.node b).val := by
  by_cases hb : b = a
  · subst hb; simp [setNext]
  · simp [setNext, update_of_ne hb]

theorem setNext_rank (m : Mem) (a p b : ℕ) : rank (setNext m a p) b = rank m b := rank_congr (setNext_data m a p b).1

@[simp] theorem setNext_self (m : Mem) (a p : ℕ) : ((setNext m a p).node a).next = p := by simp [setNext]

theorem setNext_ne (m : Mem) (p : ℕ) (h : b ≠ a) : ((setNext m a p).node b).next = (m.node b).next := by
  simp [setNext, update_of_ne h]

/-- a store to the link of a node that t has locked, owns, or has pending -/
theorem Safe.store (hI' : Inv g' (setNext m a p)) (ha : Asrt g' t (setNext m a p) k)
    (hown : m.mtx a = some t ∨ owns l = some a ∨ g.pend = some (a, t))
    (hkeep : ∀ b ∈ g.S, b ∉ g'.S → m.mtx b = some t) (hnew : ∀ b ∈ g'.S, b ∉ g.S → owns l = some b)
    (ho : ∀ n, owns k = some n → owns l = some n)
    (hpend : ∀ n u, u ≠ t → (g'.pend = some (n, u) ↔ g.pend = some (n, u))) (he : Effect m l (setNext m a p)) :
    Safe g t m l (setNext m a p) k := by
  refine ⟨g', ⟨hI', ha, fun _ _ _ => Iff.rfl, fun _ h => .inl h, fun b _ => ?_, fun b _ => setNext_data m a p b, le_rfl,
    hkeep, hnew, fun n hn => .inl (ho n hn), hpend⟩, he⟩
  by_cases hb : b = a
  · subst hb; exact .inr hown
  · exact .inl (setNext_ne m p hb)

variable (h : Inv g m)

include h

/-- `newNode->next = curr`, before newNode is linked -/
theorem exec_link1 {key val : ℤ} (ha : Asrt g t m (.link1 key val n p q)) : ExecSafe g t m (.link1 key val n p q) := by
  obtain ⟨ho, hh, hlt⟩ := ha.at_
  have hp : g.pend = none := hh.front.no_pend h ha rfl
  have hne : ∀ b ∈ g.S, b ≠ n := fun b hb e => ho.not_mem (e ▸ hb)
  have hI : Inv g (setNext m n q) := by
    refine ⟨h.chain.congr (fun b hb _ => ?_) fun b _ => setNext_rank m n q b, h.addr,
      fun x u e => (by rw [hp] at e; cases e), h.unborn⟩
    unfold link; rw [setNext_ne m q (hne b hb)]
  refine Safe.store hI (asrt_of (ha.no_pend rfl) ⟨?_, ?_, ?_⟩) (.inr (.inl rfl)) (fun _ => absurd)
    (fun _ => absurd) (fun _ => id) (fun _ _ _ => Iff.rfl) ?_
  · exact ⟨ho.not_mem, ho.pos, ho.lt, (setNext_data m n q n).1.trans ho.key, (setNext_data m n q n).2.trans ho.val,
      setNext_self m n q, ho.free⟩
  · refine ⟨⟨hh.front.mem, hh.front.ne, hh.front.mtx, by rw [setNext_rank]; exact hh.front.lt⟩, hh.mtx, ?_⟩
    rw [setNext_ne m q (hne p hh.front.mem)]; exact hh.next
  · rw [(setNext_data m n q q).1]; exact hlt
  · exact contents_same h hI rfl fun b _ => setNext_data m n q b

theorem Own.node {key val : ℤ} {nx : ℕ} (ho : Own g m n key val nx) : n ≠ head ∧ n ≠ tail :=
  ⟨fun e => ho.not_mem (e ▸ h.chain.head_mem), fun e => ho.not_mem (e ▸ h.chain.tail_mem)⟩

omit h in
theorem rank_node (hn : n ≠ head ∧ n ≠ tail) : rank m n = keyRank (m.node n).key := sentinelRank_node hn.1 hn.2

/-- a successor that is tail or has a larger key has a larger rank -/
theorem Held.lt_curr (hp : g.pend = none) {key : ℤ} (hh : Held g t m key p q)
    (hq : q = tail ∨ key < (m.node q).key) : keyRank key < rank m q := by
  refine lt_sentinelRank.2 ⟨fun e => ?_, hq⟩
  have hlt := h.chain.lt_next p hh.front.mem hh.front.ne
  rw [link_eq hp] at hlt
  simp only [hh.next, e] at hlt
  exact absurd hlt (not_lt.2 (h.chain.head_le p hh.front.mem))

/-- `pred->next = newNode`: the node is linked between pred and curr -/
theorem exec_link2 {key val : ℤ} (ha : Asrt g t m (.link2 key val n p q)) : ExecSafe g t m (.link2 key val n p q) := by
  obtain ⟨ho, hh, hlt⟩ := ha.at_
  have hp : g.pend = none := hh.front.no_pend h ha rfl
  have hn := ho.node h
  have hnp : p ≠ n := fun e => ho.not_mem (e ▸ hh.front.mem)
  have hq := hh.lt_curr h hp hlt
  have hlink : link g m p = q := by rw [link_eq hp]; exact hh.next
  have hc : Chain (link ⟨insert n g.S, none⟩ (setNext m p n)) (rank m) head tail (insert n g.S) := by
    refine h.chain.insert hh.front.mem hh.front.ne ?_ ?_ ?_ ?_ fun b hb hbp _ => ?_
    · rw [rank_node hn, ho.key]; exact hh.front.lt
    · rw [rank_node hn, ho.key, hlink]; exact hq
    · rw [link_eq rfl]; exact setNext_self m p n
    · rw [link_eq rfl, hlink]; exact (setNext_ne m n hnp.symm).trans ho.next
    · rw [link_eq rfl, link_eq hp]; exact setNext_ne m n hbp
  have hI : Inv ⟨insert n g.S, none⟩ (setNext m p n) := by
    refine ⟨hc.congr (fun _ _ _ => rfl) fun b _ => setNext_rank m p n b, fun b hb => ?_,
      nofun, h.unborn⟩
    rcases Finset.mem_insert.1 hb with rfl | hb
    · exact ⟨ho.pos, ho.lt⟩
    · exact h.addr b hb
  have habs : contents m key = none := h.absent hh.front.mem hh.front.ne hh.front.lt (by rw [hlink]; exact hq)
  refine Safe.store hI (asrt_of nofun ⟨hh.front.mtx, hh.mtx, hh.ne h hp⟩) (.inl hh.front.mtx) ?_ ?_
    nofun (fun x u _ => by rw [hp]) ?_
  · exact fun b hb hb' => absurd (Finset.mem_insert_of_mem hb) hb'
  · exact fun b hb hb' => congrArg some ((Finset.mem_insert.1 hb).resolve_right hb').symm
  · exact ⟨habs, contents_insert h hI hn ((setNext_data m p n n).1.trans ho.key) ((setNext_data m p n n).2.trans ho.val) rfl
      (fun b _ => setNext_data m p n b) habs⟩

/-- an empty list: head's successor is tail -/
theorem Inv.empty (hl : link g m head = tail) : g.S = {head, tail} := by
  ext b
  simp only [Finset.mem_insert, Finset.mem_singleton]
  constructor
  · intro hb
    by_cases hbh : b = head
    · exact .inl hbh
    · have hle := h.chain.gap head h.chain.head_mem head_ne_tail b hb (rank_head_lt hbh)
      rw [hl] at hle
      exact .inr (h.chain.inj b hb tail h.chain.tail_mem (le_antisymm (h.chain.le_tail b hb) hle))
  · rintro (rfl | rfl)
    · exact h.chain.head_mem
    · exact h.chain.tail_mem

/-- `list->head->next = newNode` on an empty list: the node is linked, its own link is still NULL -/
theorem exec_addEmpty1 {key val : ℤ} (ha : Asrt g t m (.addEmpty1 key val n)) : ExecSafe g t m (.addEmpty1 key val n) := by
  obtain ⟨ho, hmh, hmt, hnext⟩ := ha.at_
  have hp : g.pend = none := h.no_pend h.chain.head_mem hmh (ha.no_pend rfl)
  have hn := ho.node h
  have hlink : link g m head = tail := by rw [link_eq hp]; exact hnext
  have h1 : rank m head < rank m n := rank_head_lt hn.1
  have h2 : keyRank key < rank m tail := lt_sentinelRank.2 ⟨head_ne_tail.symm, .inl rfl⟩
  have hother : ∀ b, b ≠ n → link ⟨insert n g.S, some (n, t)⟩ (setNext m head n) b = ((setNext m head n).node b).next := by
    intro b hb
    unfold link
    rw [if_neg (by simpa using hb.symm)]
  have hc : Chain (link ⟨insert n g.S, some (n, t)⟩ (setNext m head n)) (rank m) head tail (insert n g.S) := by
    refine h.chain.insert h.chain.head_mem head_ne_tail h1 ?_ ?_ ?_ fun b hb hbh hbt => ?_
    · rw [hlink, rank_node hn, ho.key]; exact h2
    · rw [hother head hn.1.symm]; exact setNext_self m head n
    · rw [hlink]; unfold link; simp
    · rw [hother b (fun e => ho.not_mem (e ▸ hb)), link_eq hp]; exact setNext_ne m n hbh
  have hI : Inv ⟨insert n g.S, some (n, t)⟩ (setNext m head n) := by
    refine ⟨hc.congr (fun _ _ _ => rfl) fun b _ => setNext_rank m head n b, fun b hb => ?_, fun x u e => ?_, h.unborn⟩
    · rcases Finset.mem_insert.1 hb with rfl | hb
      · exact ⟨ho.pos, ho.lt⟩
      · exact h.addr b hb
    · cases e
      refine ⟨(setNext_ne m n hn.1).trans ho.next, setNext_self m head n, ?_, hn, hmh, hmt, ho.free⟩
      show insert n g.S = _
      rw [h.empty hlink]; exact Finset.insert_comm _ _ _
  have habs : contents m key = none :=
    h.absent h.chain.head_mem head_ne_tail (sentinelRank_lt.2 (.inl rfl)) (by rw [hlink]; exact h2)
  refine Safe.store hI ⟨⟨rfl, (setNext_data m head n n).1.trans ho.key, (setNext_data m head n n).2.trans ho.val⟩,
    fun _ _ => rfl⟩ (.inl hmh) ?_ ?_ nofun (fun x u hu => ?_) ?_
  · exact fun b hb hb' => absurd (Finset.mem_insert_of_mem hb) hb'
  · exact fun b hb hb' => congrArg some ((Finset.mem_insert.1 hb).resolve_right hb').symm
  · rw [hp]
    constructor
    · intro e; cases e; exact absurd rfl hu
    · intro e; cases e
  · exact ⟨habs, contents_insert h hI hn ((setNext_data m head n n).1.trans ho.key) ((setNext_data m head n n).2.trans ho.val) rfl
      (fun b _ => setNext_data m head n b) habs⟩

/-- `newNode->next = list->tail`: the chain is complete again -/
theorem exec_addEmpty2 {key val : ℤ} (ha : Asrt g t m (.addEmpty2 key val n)) : ExecSafe g t m (.addEmpty2 key val n) := by
  obtain ⟨hp, -, -⟩ := ha.at_
  have hP := h.pend n t hp
  have hI : Inv ⟨g.S, none⟩ (setNext m n tail) := by
    refine ⟨h.chain.congr (fun b hb _ => ?_) fun b _ => setNext_rank m n tail b, h.addr, nofun,
      h.unborn⟩
    rw [link_eq rfl]
    unfold link
    by_cases hb : b = n
    · subst hb; simp [hp]
    · rw [if_neg (by rw [hp]; simpa using Ne.symm hb)]; exact setNext_ne m tail hb
  refine Safe.store hI (asrt_of nofun ⟨hP.mtx_head, hP.mtx_tail, head_ne_tail⟩)
    (.inr (.inr hp)) (fun _ => absurd) (fun _ => absurd) nofun
    (fun x u hu => ?_) ?_
  · rw [hp]
    constructor
    · intro e; cases e
    · intro e; cases e; exact absurd rfl hu
  · exact contents_same h hI rfl fun b _ => setNext_data m n tail b

/-- `pred->next = curr->next`: curr is unlinked -/
theorem exec_del3 {key v : ℤ} {s : ℕ} (ha : Asrt g t m (.del3 key p q v s)) : ExecSafe g t m (.del3 key p q v s) := by
  obtain ⟨hh, hqt, hk, hv, hs⟩ := ha.at_
  have hp : g.pend = none := hh.front.no_pend h ha rfl
  have hlink : link g m p = q := by rw [link_eq hp]; exact hh.next
  have hqS := hh.curr_mem h hp
  have hqh : q ≠ head := hlink ▸ h.chain.next_ne_head hh.front.mem hh.front.ne
  have hc : Chain (link ⟨g.S.erase q, none⟩ (setNext m p s)) (rank m) head tail (g.S.erase q) := by
    rw [← hlink]
    refine h.chain.erase hh.front.mem hh.front.ne (hlink.symm ▸ hqt) ?_ fun b hb hbp _ => ?_
    · rw [link_eq rfl, hlink, link_eq hp]
      exact (setNext_self m p s).trans hs.symm
    · rw [link_eq rfl, link_eq hp]; exact setNext_ne m s hbp
  have hI : Inv ⟨g.S.erase q, none⟩ (setNext m p s) :=
    ⟨hc.congr (fun _ _ _ => rfl) fun b _ => setNext_rank m p s b, fun b hb => h.addr b (Finset.mem_of_mem_erase hb),
      nofun, h.unborn⟩
  refine Safe.store hI (asrt_of nofun ⟨hh.mtx, hh.front.mtx, (hh.ne h hp).symm⟩) (.inl hh.front.mtx) ?_ ?_
    nofun (fun x u _ => by rw [hp]) ?_
  · intro b hb hb'
    obtain rfl : b = q := by_contra fun e => hb' (Finset.mem_erase.2 ⟨e, hb⟩)
    exact hh.mtx
  · exact fun b hb hb' => absurd (Finset.mem_of_mem_erase hb) hb'
  · refine ⟨?_, contents_erase h hI hqS ⟨hqh, hqt⟩ hk rfl fun b _ => setNext_data m p s b⟩
    have := h.present hqS hqh hqt
    rwa [hk, hv] at this

/-! ### The traversal -/

theorem exec_lockHead (ha : Asrt g t m (.lockHead c)) : ExecSafe g t m (.lockHead c) := by
  refine lock_safe h ha rfl rfl h.chain.head_mem (fun hm => ?_) (fun _ => id) fun hm _ => ?_
  · cases e : g.pend with
    | none => rfl
    | some x => rw [(h.pend x.1 x.2 e).mtx_head] at hm; cases hm
  · have hc : CtxOk g m c := ha.at_
    exact ⟨hc.setMtx (Or.inl h.chain.head_mem) _, setMtx_self m head _⟩

theorem exec_lockFirst {curr : ℕ} (ha : Asrt g t m (.lockFirst c curr)) : ExecSafe g t m (.lockFirst c curr) := by
  obtain ⟨hc, hmh, hnext⟩ := ha.at_
  have hp : g.pend = none := h.no_pend h.chain.head_mem hmh (ha.no_pend rfl)
  have hS : curr ∈ g.S := hnext ▸ h.next_lt hp h.chain.head_mem head_ne_tail
  refine lock_safe h ha rfl rfl hS (fun _ => hp) ?_ fun hm _ => ?_
  · intro n hn
    unfold afterFirst at hn
    split_ifs at hn
    · cases c <;> exact hn
    · exact hn
  · have hne : head ≠ curr := by
      rintro rfl
      rw [hmh] at hm; cases hm
    have hmh' : (setMtx m curr (some t)).mtx head = some t := (setMtx_ne m _ hne).trans hmh
    have hc' := hc.setMtx (.inl hS) (some t)
    unfold afterFirst
    split_ifs with hct
    · subst hct
      cases c with
      | add k v n => exact ⟨hc', hmh', setMtx_self m tail _, hnext⟩
      | delete k | find k => exact ⟨hmh', setMtx_self m tail _, hne⟩
    · exact ⟨hc', ⟨⟨h.chain.head_mem, head_ne_tail, hmh', sentinelRank_lt.2 (.inl rfl)⟩, setMtx_self m curr _, hnext⟩⟩

theorem exec_test (ha : Asrt g t m (.test c p q)) : ExecSafe g t m (.test c p q) := by
  obtain ⟨hc, hh⟩ := ha.at_
  simp only [ExecSafe, exec]
  split_ifs with ht
  · exact Safe.load h (asrt_of (ha.no_pend rfl) ⟨hc, hh, ht⟩) (fun _ => id) rfl
  · refine Safe.load h (asrt_of (ha.no_pend rfl) ⟨hc, hh, ?_⟩) (fun _ => id) rfl
    rw [not_and_or, not_not, not_lt] at ht
    exact ht

theorem exec_unlockPred (ha : Asrt g t m (.unlockPred c p q)) : ExecSafe g t m (.unlockPred c p q) := by
  obtain ⟨hc, hh, hqt, hlt⟩ := ha.at_
  have hp : g.pend = none := hh.front.no_pend h ha rfl
  have hS := hh.curr_mem h hp
  refine Safe.mutex (inv_unlock h (ha.no_pend rfl) hh.front.mtx) h (asrt_of (ha.no_pend rfl) ⟨?_, ?_⟩) (fun _ => id) rfl
    (.inr ⟨hh.front.mtx, rfl⟩)
  · exact hc.setMtx (Or.inl hh.front.mem) _
  · exact ⟨hS, hqt, (setMtx_ne m _ (hh.ne h hp).symm).trans hh.mtx, sentinelRank_lt.2 (.inr ⟨hqt, hlt⟩)⟩

theorem exec_lockCurr (ha : Asrt g t m (.lockCurr c p q)) : ExecSafe g t m (.lockCurr c p q) := by
  obtain ⟨hc, hf, hnext⟩ := ha.at_
  have hp : g.pend = none := hf.no_pend h ha rfl
  have hS : q ∈ g.S := hnext ▸ h.next_lt hp hf.mem hf.ne
  refine lock_safe h ha rfl rfl hS (fun _ => hp) (fun _ => id) fun hm _ => ⟨hc.setMtx (.inl hS) _, ⟨?_, ?_, hnext⟩⟩
  · have hne : p ≠ q := by
      rintro rfl
      rw [hf.mtx] at hm; cases hm
    exact ⟨hf.mem, hf.ne, (setMtx_ne m _ hne).trans hf.mtx, hf.lt⟩
  · exact setMtx_self m q _

theorem exec_check (ha : Asrt g t m (.check c p q)) : ExecSafe g t m (.check c p q) := by
  obtain ⟨hc, hh, hle⟩ := ha.at_
  have hp : g.pend = none := hh.front.no_pend h ha rfl
  have hne := hh.ne h hp
  show Safe g t m _ m (afterCheck c p q (decide (q ≠ tail ∧ c.key = (m.node q).key)))
  refine Safe.load h (asrt_of (ha.no_pend rfl) ?_) ?_ rfl
  · by_cases hf : q ≠ tail ∧ c.key = (m.node q).key
    · rw [decide_eq_true hf]
      cases c with
      | add k v n => exact ⟨hh.front.mtx, hh.mtx, hne⟩
      | delete k | find k => exact ⟨hh, hf.1, hf.2.symm⟩
    · have hlt : q = tail ∨ c.key < (m.node q).key := by
        rcases hle with hq | hle
        · exact .inl hq
        · by_cases hq : q = tail
          · exact .inl hq
          · exact .inr (lt_of_le_of_ne hle fun e => hf ⟨hq, e⟩)
      rw [decide_eq_false hf]
      cases c with
      | add k v n => exact ⟨hc, hh, hlt⟩
      | delete k | find k => exact ⟨hh.front.mtx, hh.mtx, hne⟩
  · intro n hn
    cases hf : decide (q ≠ tail ∧ c.key = (m.node q).key) <;> rw [hf] at hn <;> cases c <;> first | exact hn | cases hn

theorem exec_unlock1 {op : Op} {r : Res} (ha : Asrt g t m (.unlock1 op r a b)) : ExecSafe g t m (.unlock1 op r a b) := by
  obtain ⟨h1, h2, hne⟩ := ha.at_
  exact Safe.mutex (inv_unlock h (ha.no_pend rfl) h1) h
    (asrt_of (ha.no_pend rfl) ((setMtx_ne m _ hne.symm).trans h2)) (fun _ => id) rfl (.inr ⟨h1, rfl⟩)

theorem exec_unlock2 {op : Op} {r : Res} (ha : Asrt g t m (.unlock2 op r b)) : ExecSafe g t m (.unlock2 op r b) := by
  have hb : m.mtx b = some t := ha.at_
  exact Safe.mutex (inv_unlock h (ha.no_pend rfl) hb) h (asrt_of (ha.no_pend rfl) trivial) (fun _ => id) rfl
    (.inr ⟨hb, rfl⟩)

/-- **One step inside a call**, at each program point -/
theorem exec_safe (ha : Asrt g t m l) : ExecSafe g t m l := by
  have hnp : between l = false → ∀ n, g.pend ≠ some (n, t) := fun hb => ha.no_pend hb
  have hAt := ha.at_
  cases l with
  | idle | ret op r => exact Safe.load h ha (fun _ => id) rfl
  | create key val => exact exec_create h ha
  | lockHead c => exact exec_lockHead h ha
  | first c | next c q => exact Safe.load h (asrt_of (hnp rfl) ⟨hAt.1, hAt.2, rfl⟩) (fun _ => id) rfl
  | lockFirst c curr => exact exec_lockFirst h ha
  | addEmpty1 key val n => exact exec_addEmpty1 h ha
  | addEmpty2 key val n => exact exec_addEmpty2 h ha
  | test c p q => exact exec_test h ha
  | unlockPred c p q => exact exec_unlockPred h ha
  | lockCurr c p q => exact exec_lockCurr h ha
  | check c p q => exact exec_check h ha
  | link1 key val n p q => exact exec_link1 h ha
  | link2 key val n p q => exact exec_link2 h ha
  | del1 key p q => exact Safe.load h (asrt_of (hnp rfl) ⟨hAt.1, hAt.2.1, hAt.2.2, rfl⟩) (fun _ => id) rfl
  | del2 key p q v =>
    exact Safe.load h (asrt_of (hnp rfl) ⟨hAt.1, hAt.2.1, hAt.2.2.1, hAt.2.2.2, rfl⟩) (fun _ => id) rfl
  | del3 key p q v s => exact exec_del3 h ha
  | find1 key p q =>
    have hne := hAt.1.ne h (hAt.1.front.no_pend h ha rfl)
    exact Safe.load h (asrt_of (hnp rfl) ⟨hAt.1.front.mtx, hAt.1.mtx, hne⟩) (fun _ => id) rfl
  | unlock1 op r a b => exact exec_unlock1 h ha
  | unlock2 op r b => exact exec_unlock2 h ha

/-- what a step with any action does to the map -/
def ActEffect (m : Mem) (l : Loc) (a : Act) (m' : Mem) : Prop :=
  match a with
  | .step => Effect m l m'
  | _ => m' = m

/-- **One step**, whatever the action -/
theorem step_guar (ha : Asrt g t m l) (a : Act) :
    ∃ g', Guar g t m l g' (step t m l a).1 (step t m l a).2 ∧ ActEffect m l a (step t m l a).1 := by
  have hmove : ∀ l', AsrtAt g t m l' → (l' = l ∨ (between l = false ∧ owns l' = none)) → Guar g t m l g m l' := by
    intro l' h1 h2
    refine ⟨h, ?_, fun _ _ _ => Iff.rfl, fun _ h => .inl h, fun _ _ => .inl rfl, fun _ _ => ⟨rfl, rfl⟩, le_rfl,
      fun _ => absurd, fun _ => absurd, fun n hn => .inl ?_, fun _ _ _ => Iff.rfl⟩
    · rcases h2 with rfl | h2
      · exact ha
      · exact asrt_of (ha.no_pend h2.1) h1
    · rcases h2 with rfl | h2
      · exact hn
      · rw [h2.2] at hn; cases hn
  cases a with
  | invoke op =>
    refine ⟨g, ?_, rfl⟩
    simp only [step]
    split_ifs with hi
    · have hb : between l = false := by cases l <;> first | rfl | cases hi
      refine hmove _ ?_ (.inr ⟨hb, ?_⟩) <;> cases op <;> trivial
    · exact hmove l ha.at_ (.inl rfl)
  | oom =>
    cases l with
    | create key val => exact ⟨g, hmove _ trivial (.inr ⟨rfl, rfl⟩), rfl⟩
    | _ => exact ⟨g, hmove _ ha.at_ (.inl rfl), rfl⟩
  | step => exact exec_safe h ha

end Steps

/-! ## Every run -/

theorem inv_init : Inv ⟨{head, tail}, none⟩ initList := by
  have hr : rank initList head < rank initList tail := rank_head_lt (by decide)
  refine ⟨Chain.init (fun a => by simp) hr (by rw [link_eq rfl]; simp [initList]), fun a ha => ?_, nofun, fun _ _ => rfl⟩
  simp only [Finset.mem_insert, Finset.mem_singleton] at ha
  rcases ha with rfl | rfl <;> decide

/-- one step keeps the assertions of the other threads and the disjointness of private nodes -/
theorem Guar.stepOk {g' : Ghost} {l : Loc} {t : ℕ} {a : Act} (h : Inv g m) (ha : Asrt g t m l)
    (hg : Guar g t m l g' (step t m l a).1 (step t m l a).2) :
    Sys.StepOk sys Inv Asrt Disj g t m l a := by
  exact ⟨g', hg.inv, hg.asrt, fun u l2 hu h2 hd hd' =>
    ⟨Asrt.stable hg h ha hu h2 hd', Sys.owned_disj hg.owned hd fun _ hn => (h2.owned hn).2.1⟩⟩

/-- **The invariant holds in every reachable state.** -/
theorem inv_run (ls : List (ℕ × Act)) : Sys.Good Inv Asrt Disj (sys.run ls) := by
  refine Sys.run_inv sys _ _ _ ⟨_, inv_init, fun _ => ⟨trivial, nofun⟩⟩ nofun ?_ ls
  intro g t m l a h ha
  obtain ⟨g', hg, -⟩ := step_guar h ha a
  exact hg.stepOk h ha

end AlgorithmCollection.FineGrainedSynchroList
