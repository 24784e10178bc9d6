/-
Every step of `LazySkiplist` keeps the invariant and gives the guarantee `Guar` to the other threads.

The map changes at two stores only (`commits`): `newNode->fullyLinked = true` adds the pair of the new node, and
`victim->marked = true` takes the pair of the victim away. `step_guar` is the whole statement about one step; its premise
`Hind` says that a `_delete` which searches again has found the victim it marked.
-/
import AlgorithmCollection.List.LazySkiplistInv

namespace AlgorithmCollection.LazySkiplist

open Conc
open Function (update update_self update_of_ne)

variable {top : ℕ} {mark : Option Mark}

/-! ## The map -/

section Contents

variable {P : Params} {g g' : Ghost} {m m' : Mem}

theorem head_ne_tail : head ≠ tail := by decide

variable {a i : ℕ} {k : ℤ}

variable (h : Inv P g m)

include h

theorem Inv.stop (hi : i < P.maxLevel) : ∀ b ∈ g.S i, decide (b = tail ∨ b = NULL) = true ↔ b = tail := fun b hb => by
  have hb0 := h.downL hi ((h.level i hi).sub hb) 0 (Nat.zero_le _)
  simp [show b ≠ NULL from (h.addr b hb0).1.ne']

theorem Inv.lt_fresh_S (hi : i < P.maxLevel) : ∀ b ∈ g.S i, b < m.fresh := fun _ hb =>
  h.lt_fresh hi ((h.level i hi).sub hb)

/-- the nodes reachable from head at a level are the nodes of S without the sentinels -/
theorem mem_nodes (hi : i < P.maxLevel) (a : ℕ) : a ∈ nodes m i ↔ a ∈ g.S i ∧ a ≠ head ∧ a ≠ tail :=
  (h.level i hi).toChain.mem_walk_head (h.stop hi) head_ne_tail (h.lt_fresh_S hi) a

/-- **At every level the chain from head ends at tail, and its keys increase.** -/
theorem Inv.chain_sorted (hi : i < P.maxLevel) :
    (head :: (nodes m i ++ [tail])).IsChain (fun a b => (m.node a).next i = b) ∧
      (head :: (nodes m i ++ [tail])).Pairwise (fun a b => (m.node a).key < (m.node b).key) :=
  ⟨(h.level i hi).toChain.walk_head_linked (h.stop hi) head_ne_tail (h.lt_fresh_S hi),
    (h.level i hi).toChain.walk_head_sorted (h.stop hi) head_ne_tail (h.lt_fresh_S hi)⟩

/-- the nodes that carry the map -/
def live (g : Ghost) (m : Mem) : Finset ℕ :=
  (g.S 0).filter fun a => a ≠ head ∧ a ≠ tail ∧ (m.node a).fullyLinked = true ∧ (m.node a).marked = false

omit h in
theorem mem_live : a ∈ live g m ↔
    a ∈ g.S 0 ∧ a ≠ head ∧ a ≠ tail ∧ (m.node a).fullyLinked = true ∧ (m.node a).marked = false := Finset.mem_filter

/-- **The map holds the pairs of the fully linked unmarked nodes.** -/
theorem rep_contents : Rep (live g m) (key m) (fun a => (m.node a).val) (contents m) := by
  refine rep_lookup (fun a => ?_) fun a ha b hb e => h.bot.inj a (mem_live.1 ha).1 b (mem_live.1 hb).1 e
  rw [List.mem_filter, mem_nodes h P.pos, mem_live]
  simp only [Bool.and_eq_true, Bool.not_eq_true']
  tauto

theorem live_lt (ha : a ∈ live g m) : a < m.fresh := h.lt_fresh_S P.pos a (mem_live.1 ha).1

/-- the nodes of m have the same data in m' -/
abbrev SameData (m m' : Mem) : Prop :=
  ∀ a < m.fresh, (m'.node a).key = (m.node a).key ∧ (m'.node a).val = (m.node a).val

/-- the map depends on the set of live nodes and their data only -/
theorem contents_same (h' : Inv P g' m') (hS : ∀ a, a ∈ live g' m' ↔ a ∈ live g m)
    (hd : SameData m m') : contents m' = contents m :=
  (rep_contents h).same (rep_contents h') hS fun _ ha => hd _ (live_lt h ha)

/-- a node with a new key becomes live -/
theorem contents_insert (h' : Inv P g' m') {n : ℕ} {v : ℤ} (hk : (m'.node n).key = k)
    (hv : (m'.node n).val = v) (hS : ∀ a, a ∈ live g' m' ↔ a = n ∨ a ∈ live g m) (hd : SameData m m')
    (habs : contents m k = none) : contents m' = update (contents m) k (some v) :=
  (rep_contents h).added (rep_contents h') hk hv hS (fun _ ha => hd _ (live_lt h ha)) habs

/-- a live node is marked -/
theorem contents_erase (h' : Inv P g' m') {c : ℕ} (hc : c ∈ live g m) (hk : key m c = k)
    (hS : ∀ a, a ∈ live g' m' ↔ a ≠ c ∧ a ∈ live g m) (hd : SameData m m') :
    contents m' = update (contents m) k none :=
  (rep_contents h).removed (rep_contents h') hc hk (fun a ha => h.bot.inj a (mem_live.1 ha).1 c (mem_live.1 hc).1) hS
    fun _ ha => hd _ (live_lt h ha)

theorem Inv.present (ha : a ∈ live g m) : contents m (key m a) = some (m.node a).val :=
  (rep_contents h).holds ha

/-- a key that no reachable node has is not in the map -/
theorem Inv.absent (hk : ∀ a ∈ g.S 0, key m a ≠ k) : contents m k = none :=
  (rep_contents h).absent fun a ha => hk a (mem_live.1 ha).1

/-- nor is the key of a reachable node that is not live -/
theorem Inv.absent_of_not_live (ha : a ∈ g.S 0) (hl : a ∉ live g m) : contents m (key m a) = none := by
  refine (rep_contents h).absent fun b hb e => ?_
  rw [h.bot.inj b (mem_live.1 hb).1 a ha e] at hb
  exact hl hb

end Contents

/-! ## One step -/

/-- the call and the result of the step from l, if it is the one at which the map changes -/
def commits (m : Mem) : Loc → Option (Op × Res)
  | .full k v _ _ _ => some (.add k v, .add true)
  | .mark k _ _ victim _ => some (.delete k, .delete (some (m.node victim).val))
  | _ => none

/-- what a step does to the map: nothing, or the operation it commits -/
def Effect (m : Mem) (l : Loc) (m' : Mem) : Prop := MapEffect (contents m) (contents m') (commits m l)

def Safe (P : Params) (g : Ghost) (t : ℕ) (m : Mem) (l : Loc) (m' : Mem) (l' : Loc) : Prop :=
  ∃ g', Guar P g t m l g' m' l' ∧ Effect m l m'

/-- the next step of thread t at l is safe -/
abbrev ExecSafe (P : Params) (g : Ghost) (t : ℕ) (m : Mem) (l : Loc) : Prop :=
  Safe P g t m l (exec P t m l).1 (exec P t m l).2

/-- a `_delete` that searches again has found the victim it marked -/
def Hind : Loc → Prop
  | .found (.delete _ (some mk)) ws lf => lf = some mk.topLevel ∧ ws.succs mk.topLevel = mk.victim
  | _ => True

section Steps

variable {P : Params} {g g' : Ghost} {t : ℕ} {m m' : Mem} {l z : Loc}

/-! ### Mutexes -/

/-- the same nodes with other mutexes -/
def withMtx (m : Mem) (f : ℕ → Option (ℕ × ℕ)) : Mem := ⟨m.node, f, m.fresh⟩

theorem inv_withMtx (h : Inv P g m) (f : ℕ → Option (ℕ × ℕ)) : Inv P g (withMtx m f) :=
  ⟨h.level, h.nest, h.nestL, h.addr, h.top, h.full, h.mark, h.short, h.key_head, h.key_tail, h.sentinel⟩

theorem release_eq (m : Mem) (t a : ℕ) : release m t a = withMtx m (release m t a).mtx := by
  unfold release
  split
  · split_ifs <;> rfl
  · rfl

theorem holds_acquire_self (m : Mem) (t a : ℕ) : holds (acquire m t a) t a := by simp [holds, acquire]

variable {c : Ctx} {j : Job} {mk : Mark} {lf : Option ℕ} {ws : Ws} {a b f i lv n s u v : ℕ} {k : ℤ}

theorem holds_acquire (hc : canLock m t a) (h : holds m u b) : holds (acquire m t a) u b := by
  by_cases hb : b = a
  · subst hb
    -- the holder of a mutex that t can lock is t
    have hu : u = t := by
      unfold holds at h
      unfold canLock at hc
      cases e : m.mtx b with
      | none => rw [e] at h; cases h
      | some x =>
        rw [e] at h hc
        simp only [decide_eq_true_eq] at hc
        exact (Option.some.inj h).symm.trans hc
    subst hu
    exact holds_acquire_self m u b
  · simpa [holds, acquire, update_of_ne hb] using h

theorem release_mtx_ne (hb : b ≠ a) : (release m t a).mtx b = m.mtx b := by
  unfold release
  split
  · split_ifs <;> first | rfl | exact update_of_ne hb _ _
  · rfl

/-- unlocking what another thread holds does nothing -/
theorem release_other (hu : u ≠ t) (h : holds m u a) : release m t a = m := by
  unfold holds at h
  unfold release
  cases e : m.mtx a with
  | none => rfl
  | some x =>
    rw [e] at h
    have hx : x.1 = u := Option.some.inj h
    simp [hx, hu]

theorem holds_release_ne (hb : b ≠ a) (h : holds m u b) : holds (release m t a) u b := by
  unfold holds
  rw [release_mtx_ne hb]; exact h

theorem holds_release_other (hu : u ≠ t) (h : holds m u b) : holds (release m t a) u b := by
  by_cases hb : b = a
  · subst hb
    rw [release_other hu h]; exact h
  · exact holds_release_ne hb h

/-- a step on a mutex that keeps the locks of the other threads -/
theorem Guar.mutex (f : ℕ → Option (ℕ × ℕ)) (h : Inv P g m) (ha : AsrtAt P g t (withMtx m f) z)
    (ho : ∀ n, owns z = some n → owns l = some n) (hold : ∀ a, ∀ u ≠ t, holds m u a → holds (withMtx m f) u a) :
    Guar P g t m l g (withMtx m f) z :=
  ⟨inv_withMtx h f, ha, fun a _ u hu => hold a u hu, fun _ _ _ _ => .inl rfl, fun _ _ => .inl rfl,
    fun _ _ => .inl rfl, fun _ _ => ⟨rfl, rfl, rfl⟩, le_rfl, fun _ _ _ => absurd, fun _ _ _ => absurd,
    fun _ _ => subset_rfl, fun _ _ _ => absurd, fun n hn => .inl (ho n hn)⟩

theorem Safe.mutex (f : ℕ → Option (ℕ × ℕ)) (h : Inv P g m) (ha : AsrtAt P g t (withMtx m f) z)
    (ho : ∀ n, owns z = some n → owns l = some n) (hc : commits m l = none)
    (hold : ∀ a, ∀ u ≠ t, holds m u a → holds (withMtx m f) u a) : Safe P g t m l (withMtx m f) z := by
  refine ⟨g, .mutex f h ha ho hold, ?_⟩
  unfold Effect; rw [hc]; rfl

variable (h : Inv P g m)

include h

/-- a step that writes nothing -/
theorem Guar.load (ha : AsrtAt P g t m z) (ho : ∀ n, owns z = some n → owns l = some n) :
    Guar P g t m l g m z := .mutex m.mtx h ha ho fun _ _ _ => id

theorem Safe.load (ha : AsrtAt P g t m z) (ho : ∀ n, owns z = some n → owns l = some n)
    (hc : commits m l = none) : Safe P g t m l m z := .mutex m.mtx h ha ho hc fun _ _ _ => id

/-- a lock step: blocked, or the mutex is taken and the thread goes on at z -/
theorem lock_safe (ha : AsrtAt P g t m l) (hc : commits m l = none)
    (ho : ∀ n, owns z = some n → owns l = some n) (hk : canLock m t a → AsrtAt P g t (acquire m t a) z) :
    Safe P g t m l (lock t m a l z).1 (lock t m a l z).2 := by
  unfold lock
  split_ifs with hm
  · exact Safe.mutex (acquire m t a).mtx h (hk hm) ho hc fun b u _ hb => holds_acquire hm hb
  · exact Safe.load h ha (fun _ => id) hc

/-- an unlock step -/
theorem unlock_safe (hc : commits m l = none) (ho : ∀ n, owns z = some n → owns l = some n)
    (hk : AsrtAt P g t (release m t a) z) : Safe P g t m l (release m t a) z := by
  have hold : ∀ b, ∀ u ≠ t, holds m u b → holds (release m t a) u b := fun b u hu hb => holds_release_other hu hb
  rw [release_eq] at hk hold ⊢
  exact Safe.mutex _ h hk ho hc hold

omit h in
theorem Victim.withMtx {f : ℕ → Option (ℕ × ℕ)} (hv : Victim P g t m k mk)
    (hh : holds (withMtx m f) t mk.victim) : Victim P g t (withMtx m f) k mk :=
  ⟨hv.lt, hv.mem, hv.key, hv.top, hv.marked, hh⟩

omit h in
/-- the context of a call needs the lock of its victim only -/
theorem CtxOk.withMtx {f : ℕ → Option (ℕ × ℕ)} (hc : CtxOk P g t m c)
    (hh : ∀ k mk, c = .delete k (some mk) → holds (withMtx m f) t mk.victim) : CtxOk P g t (withMtx m f) c := by
  cases c with
  | add k v top => exact hc
  | delete k mark =>
    cases mark with
    | none => trivial
    | some mk => exact Victim.withMtx hc (hh k mk rfl)
  | find k => trivial

omit h in
theorem CtxOk.held (hc : CtxOk P g t m c) (e : c = .delete k (some mk)) :
    holds m t mk.victim := by
  subst e; exact Victim.held hc

/-! ### Search -/

theorem search_asrt (hc : CtxOk P g t m c) (hr : inRange P c.key) : AsrtAt P g t m (search P c) := by
  have hpos := P.pos
  have hlv : P.maxLevel - 1 < P.maxLevel := by omega
  refine ⟨hc, hlv, (h.level _ hlv).sub (h.level _ hlv).head_mem, by rw [h.key_head]; exact hr.1, hr,
    fun i h1 h2 => ?_, fun i h1 h2 => ?_⟩
  · exact absurd h2 (by omega)
  · exact absurd h2 (by omega)

theorem exec_load {p : ℕ} (ha : AsrtAt P g t m (.load c ws lf lv p)) : ExecSafe P g t m (.load c ws lf lv p) := by
  obtain ⟨hc, hlv, hp, hlt, hs⟩ := ha
  have hnext := ((h.level lv hlv).edge p hp (h.ne_tail hs.range hlt)).1
  exact Safe.load h ⟨hc, hlv, hp, hlt, hs, hnext⟩ nofun rfl

theorem exec_test {p q : ℕ} (ha : AsrtAt P g t m (.test c ws lf lv p q)) : ExecSafe P g t m (.test c ws lf lv p q) := by
  obtain ⟨hc, hlv, hp, hlt, hs, hq⟩ := ha
  simp only [ExecSafe, exec]
  split_ifs with hk
  · exact Safe.load h ⟨hc, hlv, hq, hk, hs⟩ nofun rfl
  · have hs' := hs.endLevel hlv hp hq hlt (not_lt.1 hk)
    cases lv with
    | zero => exact Safe.load h ⟨hc, hs'⟩ nofun rfl
    | succ l =>
      exact Safe.load h ⟨hc, Nat.lt_of_succ_lt hlv, h.nestL l hlv hp, hlt, hs'⟩ nofun rfl

/-- after the search -/
theorem exec_found (ha : AsrtAt P g t m (.found c ws lf))
    (hh : Hind (.found c ws lf)) : ExecSafe P g t m (.found c ws lf) := by
  obtain ⟨hc, hs⟩ := ha
  show Safe P g t m _ m (afterSearch ws c lf)
  cases c with
  | add k v top =>
    cases lf with
    | none =>
      refine Safe.load h (z := .lockPred (.add k v top) ws 0) ⟨⟨hc, hs, trivial⟩, Nat.zero_le _, fun i hi => ?_⟩
        nofun rfl
      exact absurd hi (Nat.not_lt_zero i)
    | some f =>
      have hf := Found.mem h (show Found P g m k ws f (ws.succs f) from ⟨hs, rfl⟩)
      exact Safe.load h (z := .chkMarked k v top _) ⟨hs.range, hc, hf.2.2.1, hf.2.2.2⟩ nofun rfl
  | delete k mark =>
    cases lf with
    | none => exact Safe.load h (z := .ret _ _) trivial nofun rfl
    | some f =>
      refine Safe.load h (z := .flag1 k mark ws f _) ⟨hc, ⟨hs, rfl⟩, ?_⟩ nofun rfl
      rintro mk rfl
      obtain ⟨h1, h2⟩ := hh
      cases h1
      exact ⟨h2, rfl⟩
  | find k =>
    cases lf with
    | none => exact Safe.load h (z := .retFind _ _) trivial nofun rfl
    | some f => exact Safe.load h (z := .find1 _ _ _) trivial nofun rfl

/-! ### Locking preds -/

omit h in
/-- more locks do not disturb a job -/
theorem JobOk.acquire (hm : canLock m t a) (hj : JobOk P g t m j ws) :
    JobOk P g t (acquire m t a) j ws :=
  ⟨hj.ctx.withMtx fun _ _ e => holds_acquire hm (hj.ctx.held e), hj.searched, hj.same⟩

omit h in
theorem Lev.acquire (hm : canLock m t a) (hl : Lev t m ws i s) : Lev t (acquire m t a) ws i s :=
  ⟨holds_acquire hm hl.held, hl.unmarked, hl.next⟩

theorem exec_lockPred (ha : AsrtAt P g t m (.lockPred j ws lv)) : ExecSafe P g t m (.lockPred j ws lv) :=
  lock_safe h ha rfl nofun fun hm =>
    ⟨ha.1.acquire hm, ha.2.1, fun i hi => (ha.2.2 i hi).acquire hm, holds_acquire_self m t _⟩

/-- validation fails: preds are unlocked and the search starts over -/
theorem Safe.retry (hj : JobOk P g t m j ws) (hlv : lv ≤ j.topLevel)
    (hc : commits m l = none) : Safe P g t m l m (.retry j ws lv 0) :=
  Safe.load h ⟨hj, Nat.zero_le _, hlv.trans_lt hj.top⟩ nofun hc

theorem exec_valid1 (ha : AsrtAt P g t m (.valid1 j ws lv)) : ExecSafe P g t m (.valid1 j ws lv) := by
  obtain ⟨hj, hlv, hl, hh⟩ := ha
  simp only [ExecSafe, exec]
  split_ifs with hm
  · exact Safe.retry h hj hlv rfl
  · have hm' : (m.node (ws.preds lv)).marked = false := by simpa using hm
    cases j with
    | add k v top => exact Safe.load h (z := .valid2 _ _ _) ⟨hj, hlv, hl, hh, hm'⟩ nofun rfl
    | delete k mk v f => exact Safe.load h (z := .valid3 _ _ _) ⟨hj, hlv, hl, hh, hm'⟩ nofun rfl

theorem exec_valid2 (ha : AsrtAt P g t m (.valid2 j ws lv)) : ExecSafe P g t m (.valid2 j ws lv) := by
  simp only [ExecSafe, exec]
  split_ifs with hm
  · exact Safe.retry h ha.1 ha.2.1 rfl
  · exact Safe.load h ha nofun rfl

/-- all preds of a `_delete` are locked and lead to the victim -/
theorem Going.start {victim : ℕ}
    (hj : JobOk P g t m (.delete k mk victim f) ws) (hl : ∀ i ≤ mk.topLevel, Lev t m ws i victim) :
    Going P g t m k mk ws victim mk.topLevel := by
  obtain ⟨hv, hs, rfl, -⟩ := hj
  have hv : Victim P g t m k mk := hv
  refine ⟨hv.lt, le_rfl, rfl, fun i hi => hs.near i (Nat.zero_le _) hi, hs.range, hv.mem, fun i h1 h2 h3 => ?_, hv.key,
    hv.marked, hv.held, hl⟩
  have := h.top i h2 _ ((h.level i h2).sub h3)
  rw [hv.top] at this
  exact absurd h1 (not_lt.2 this)

theorem exec_valid3 (ha : AsrtAt P g t m (.valid3 j ws lv)) : ExecSafe P g t m (.valid3 j ws lv) := by
  obtain ⟨hj, hlv, hl, hh, hm⟩ := ha
  simp only [ExecSafe, exec]
  split_ifs with hn
  · have hl' : ∀ i ≤ lv, Lev t m ws i (j.succ ws i) := fun i hi => by
      rcases Nat.lt_or_ge i lv with h1 | h1
      · exact hl i h1
      · obtain rfl : i = lv := by omega
        exact ⟨hh, hm, hn⟩
    unfold afterValid
    split_ifs with hlt
    · exact Safe.load h ⟨hj, hlt, fun i hi => hl' i (Nat.lt_succ_iff.1 hi)⟩ nofun rfl
    · obtain rfl : lv = j.topLevel := by omega
      cases j with
      | add k v top => exact Safe.load h (z := .assert1 _ _ _ _ _) ⟨hj, Nat.zero_le _, hl'⟩ nofun rfl
      | delete k mk v f =>
        have hgo := Going.start h hj hl'
        have htop : (m.node v).topLevel = mk.topLevel := by
          rw [hgo.same]; exact Victim.top hj.ctx
        refine Safe.load h (z := .unlink1 _ _ _ _ _ _) ?_ nofun rfl
        show Going P g t m k mk ws v (m.node v).topLevel
        rw [htop]; exact hgo
  · exact Safe.retry h hj hlv rfl

omit h in
/-- unlocking a pred does not release the victim -/
theorem JobOk.release (hi : i < P.maxLevel) (hj : JobOk P g t m j ws) :
    JobOk P g t (release m t (ws.preds i)) j ws := by
  have hh : ∀ k mk, j.ctx = .delete k (some mk) → holds (LazySkiplist.release m t (ws.preds i)) t mk.victim := by
    intro k mk e
    refine holds_release_ne ?_ (hj.ctx.held e)
    have hc := hj.ctx
    have hlt := (hj.near hi).lt
    have hk : j.key = k := by rw [Job.key, e]; rfl
    rw [e] at hc
    rintro e'
    rw [← e', Victim.key hc, hk] at hlt
    exact lt_irrefl _ hlt
  rw [release_eq] at hh ⊢
  exact ⟨hj.ctx.withMtx hh, hj.searched, hj.same⟩

theorem exec_retry {hl : ℕ} (ha : AsrtAt P g t m (.retry j ws hl i)) : ExecSafe P g t m (.retry j ws hl i) := by
  obtain ⟨hj, hi, hlv⟩ := ha
  have hj' := hj.release (hi.trans_lt hlv)
  simp only [ExecSafe, exec]
  split_ifs with hlt
  · exact unlock_safe h rfl nofun ⟨hj', hlt, hlv⟩
  · have hI : Inv P g (release m t (ws.preds i)) := by rw [release_eq]; exact inv_withMtx h _
    exact unlock_safe h rfl nofun (search_asrt hI hj'.ctx hj'.searched.range)

/-! ### Stores that keep the links -/

/-- the invariant after a step that changes no link of a linked node, and sets a flag only of an unmarked node that is linked
at all its levels -/
theorem Inv.congr (hf : m.fresh ≤ m'.fresh)
    (hd : ∀ i < P.maxLevel, ∀ a ∈ g.L i, (m'.node a).next i = (m.node a).next i ∧ key m' a = key m a ∧
      (m'.node a).topLevel = (m.node a).topLevel)
    (hx : ∀ a ∈ g.L 0, ((m'.node a).fullyLinked = (m.node a).fullyLinked ∧ (m'.node a).marked = (m.node a).marked) ∨
      ((m.node a).marked = false ∧ (m'.node a).fullyLinked = true ∧
        (∀ i < P.maxLevel, i ≤ (m.node a).topLevel → a ∈ g.L i) ∧ a ≠ head ∧ a ≠ tail)) : Inv P g m' := by
  have hh := h.bot.sub h.bot.head_mem
  have ht := h.bot.sub h.bot.tail_mem
  refine ⟨fun i hi => (h.level i hi).congr (fun a ha _ => (hd i hi a ha).1) (fun a ha => (hd i hi a ha).2.1) fun a ha hm => ?_,
    h.nest, h.nestL, fun a ha => ⟨(h.addr a ha).1, (h.addr a ha).2.trans_le hf⟩, fun i hi a ha => ?_,
    fun i hi a ha hfull hle => ?_, fun a ha hm => ?_, fun a ha => ?_, (hd 0 P.pos _ hh).2.1.trans h.key_head,
    (hd 0 P.pos _ ht).2.1.trans h.key_tail, ?_, ?_⟩
  · rcases hx a (h.downL hi ha 0 (Nat.zero_le _)) with ⟨-, e⟩ | ⟨e, -⟩
    · rwa [e] at hm
    · exact e
  · rw [(hd i hi a ha).2.2]; exact h.top i hi a ha
  · rw [(hd 0 P.pos a ha).2.2] at hle
    rcases hx a ha with ⟨e, -⟩ | ⟨-, -, e, -⟩
    · exact h.full i hi a ha (e ▸ hfull) hle
    · exact e i hi hle
  · rcases hx a ha with ⟨e1, e2⟩ | ⟨-, e, -⟩
    · rw [e1]; exact h.mark a ha (e2 ▸ hm)
    · exact e
  · rw [(hd 0 P.pos a ha).2.2]; exact h.short a ha
  · exact (hx head hh).elim (fun e => e.2.trans h.sentinel.1) fun e => absurd rfl e.2.2.2.1
  · exact (hx tail ht).elim (fun e => e.2.trans h.sentinel.2) fun e => absurd rfl e.2.2.2.2

/-! ### Creating a node -/

omit h in
theorem createNode_old (m : Mem) (top : ℕ) (k v : ℤ) (ha : a < m.fresh) :
    (createNode m top k v).node a = m.node a := update_of_ne ha.ne _ _

omit h in
theorem createNode_holds (m : Mem) (top : ℕ) (k v : ℤ) (ha : a < m.fresh) :
    holds (createNode m top k v) u a ↔ holds m u a := by
  simp only [holds, createNode, update_of_ne ha.ne]

theorem inv_createNode (top : ℕ) (k v : ℤ) : Inv P g (createNode m top k v) := by
  have hold : ∀ i < P.maxLevel, ∀ a ∈ g.L i, (createNode m top k v).node a = m.node a := fun i hi a ha =>
    createNode_old m top k v (h.lt_fresh hi ha)
  refine h.congr (Nat.le_succ _) (fun i hi a ha => ?_) fun a ha => .inl ?_
  · rw [key, hold i hi a ha]; exact ⟨rfl, rfl, rfl⟩
  · rw [hold 0 P.pos a ha]; exact ⟨rfl, rfl⟩

theorem exec_create {v : ℤ} (ha : AsrtAt P g t m (.create k v top ws)) : ExecSafe P g t m (.create k v top ws) := by
  obtain ⟨hj, hl⟩ := ha
  have hI := inv_createNode h top k v
  have hd : ∀ a < m.fresh, (createNode m top k v).node a = m.node a := fun a => createNode_old m top k v
  have hdata : ∀ a < m.fresh, ((createNode m top k v).node a).key = (m.node a).key ∧
      ((createNode m top k v).node a).val = (m.node a).val ∧
      ((createNode m top k v).node a).topLevel = (m.node a).topLevel := fun a hlt => by
    rw [hd a hlt]; exact ⟨rfl, rfl, rfl⟩
  have hlin : ∀ i < P.maxLevel, m.fresh ∉ g.L i := fun i hi hL => lt_irrefl _ (h.lt_fresh hi hL)
  have hh := (h.addr _ (h.bot.sub h.bot.head_mem)).2
  have ht := (h.addr _ (h.bot.sub h.bot.tail_mem)).2
  have hown : Own P g (createNode m top k v) m.fresh k v top 0 := by
    refine ⟨fun i hi => absurd hi (Nat.not_lt_zero i), fun i _ => hlin i, (Nat.zero_le _).trans_lt ht, Nat.lt_succ_self _,
      ⟨hh.ne', ht.ne'⟩, ?_, ?_, ?_, ?_, ?_⟩ <;> simp [createNode]
  have hj' : JobOk P g t (createNode m top k v) (.add k v top) ws := by
    refine ⟨hj.ctx, hj.searched.mono (fun _ _ => subset_rfl) fun i hi a ha => ?_, trivial⟩
    unfold key; rw [hd a (h.lt_fresh hi ha)]
  have hl' : ∀ i, 0 ≤ i → i ≤ top → Lev t (createNode m top k v) ws i (ws.succs i) := by
    intro i _ hi
    have hlt := h.lt_fresh (hi.trans_lt hj.top) (hj.near (hi.trans_lt hj.top)).pred_mem
    refine ⟨(createNode_holds m top k v hlt).2 (hl i hi).held, ?_, ?_⟩
    · rw [hd _ hlt]; exact (hl i hi).unmarked
    · rw [hd _ hlt]; exact (hl i hi).next
  have hlive : ∀ a, a ∈ live g (createNode m top k v) ↔ a ∈ live g m := fun a => by
    rw [mem_live, mem_live]
    refine and_congr_right fun ha => ?_
    rw [hd a (h.lt_fresh_S P.pos a ha)]
  refine ⟨g, ⟨hI, ⟨hj', hown, Nat.zero_le _, hl'⟩, fun a hlt u _ => (createNode_holds m top k v hlt).2,
    fun a hlt i _ => .inl ?_, fun a hlt => .inl ?_, fun a hlt => .inl ?_, fun a hlt => ?_, Nat.le_succ _,
    fun _ _ _ => absurd, fun _ _ _ => absurd, fun _ _ => subset_rfl,
    fun _ _ _ => absurd, fun n hn => .inr (Option.some.inj hn).symm⟩, ?_⟩
  · show ((createNode m top k v).node a).next i = _; rw [hd a hlt]
  · show ((createNode m top k v).node a).marked = _; rw [hd a hlt]
  · show ((createNode m top k v).node a).fullyLinked = _; rw [hd a hlt]
  · exact hdata a hlt
  · exact contents_same h hI hlive fun a hlt => ⟨(hdata a hlt).1, (hdata a hlt).2.1⟩

omit h

/-! ### Links -/

theorem setNext_other (m : Mem) (a lv b c : ℕ) :
    ((setNext m a lv b).node c).key = (m.node c).key ∧ ((setNext m a lv b).node c).val = (m.node c).val ∧
      ((setNext m a lv b).node c).topLevel = (m.node c).topLevel := by
  by_cases hc : c = a
  · subst hc; simp [setNext, setNode]
  · simp [setNext, setNode, update_of_ne hc]

@[simp] theorem setNext_marked (m : Mem) (a lv b c : ℕ) :
    ((setNext m a lv b).node c).marked = (m.node c).marked := by
  by_cases hc : c = a
  · subst hc; simp [setNext, setNode]
  · simp [setNext, setNode, update_of_ne hc]

@[simp] theorem setNext_full (m : Mem) (a lv b c : ℕ) :
    ((setNext m a lv b).node c).fullyLinked = (m.node c).fullyLinked := by
  by_cases hc : c = a
  · subst hc; simp [setNext, setNode]
  · simp [setNext, setNode, update_of_ne hc]

@[simp] theorem setNext_top (m : Mem) (a lv b c : ℕ) :
    ((setNext m a lv b).node c).topLevel = (m.node c).topLevel := (setNext_other m a lv b c).2.2

theorem key_setNext (m : Mem) (a lv b : ℕ) : key (setNext m a lv b) = key m :=
  funext fun c => (setNext_other m a lv b c).1

theorem setNext_self (m : Mem) (a lv b : ℕ) : ((setNext m a lv b).node a).next lv = b := by simp [setNext, setNode]

theorem setNext_ne (m : Mem) {c : ℕ} (h : c ≠ a ∨ i ≠ lv) :
    ((setNext m a lv b).node c).next i = (m.node c).next i := by
  by_cases hc : c = a
  · subst hc
    have hi : i ≠ lv := h.resolve_left fun e => e rfl
    simp [setNext, setNode, update_of_ne hi]
  · simp [setNext, setNode, update_of_ne hc]

/-- a level that the store does not touch -/
theorem level_setNext {S L : Finset ℕ}
    (h : LazyChain (fun c => (m.node c).next i) (key m) (fun c => (m.node c).marked) head tail S L)
    (hne : a ∉ L ∨ i ≠ lv) :
    LazyChain (fun c => ((setNext m a lv b).node c).next i) (key (setNext m a lv b))
      (fun c => ((setNext m a lv b).node c).marked) head tail S L := by
  refine h.congr (fun c hc _ => setNext_ne m ?_) (fun c _ => congrFun (key_setNext m a lv b) c) fun c _ hm => ?_
  · rcases hne with h1 | h1
    · exact .inl fun e => h1 (e ▸ hc)
    · exact .inr h1
  · rwa [setNext_marked] at hm

/-- the level of the store -/
theorem level_setNext_self {S L : Finset ℕ}
    (h : LazyChain (fun c => ((setNext m a lv b).node c).next lv) (key m) (fun c => (m.node c).marked) head tail S L) :
    LazyChain (fun c => ((setNext m a lv b).node c).next lv) (key (setNext m a lv b))
      (fun c => ((setNext m a lv b).node c).marked) head tail S L :=
  h.congr (fun _ _ _ => rfl) (fun c _ => congrFun (key_setNext m a lv b) c) fun c _ hm => by rwa [setNext_marked] at hm

theorem Lev.setNext (hl : Lev t m ws i s) (hne : ws.preds i ≠ a ∨ i ≠ lv) :
    Lev t (setNext m a lv b) ws i s :=
  ⟨hl.held, by rw [setNext_marked]; exact hl.unmarked, by rw [setNext_ne m hne]; exact hl.next⟩

theorem Own.setNext {v : ℤ} (ho : Own P g m n k v top lv) (a i b : ℕ) : Own P g (setNext m a i b) n k v top lv := by
  obtain ⟨h1, h2, h3⟩ := setNext_other m a i b n
  exact ⟨ho.linked, ho.not_linked, ho.pos, ho.lt, ho.ne, h1.trans ho.key, h2.trans ho.val, h3.trans ho.topLevel,
    (setNext_marked m a i b n).trans ho.marked, (setNext_full m a i b n).trans ho.not_full⟩

/-- a store to the link of a node that t owns, or has locked and that stays in S -/
theorem Safe.store (hI : Inv P g' (setNext m a lv b)) (ha : AsrtAt P g' t (setNext m a lv b) z)
    (hown : (holds m t a ∧ a ∈ g.S lv ∧ a ∈ g'.S lv) ∨ (owns l = some a ∧ progress l ≤ lv))
    (hkeep : ∀ i < P.maxLevel, ∀ c ∈ g.S i, c ∉ g'.S i → (m.node c).marked = true ∧ holds m t c)
    (hnew : ∀ i < P.maxLevel, ∀ c ∈ g'.S i, c ∉ g.S i → owns l = some c)
    (hL : ∀ i < P.maxLevel, g.L i ⊆ g'.L i) (hnewL : ∀ i < P.maxLevel, ∀ c ∈ g'.L i, c ∉ g.L i → owns l = some c)
    (ho : ∀ n, owns z = some n → owns l = some n) (he : Effect m l (setNext m a lv b)) :
    Safe P g t m l (setNext m a lv b) z := by
  refine ⟨g', ⟨hI, ha, fun _ _ _ _ => id, fun c _ i _ => ?_, fun c _ => .inl (setNext_marked m a lv b c),
    fun c _ => .inl (setNext_full m a lv b c), fun c _ => setNext_other m a lv b c, le_rfl, hkeep, hnew, hL, hnewL,
    fun n hn => .inl (ho n hn)⟩, he⟩
  by_cases hc : c ≠ a ∨ i ≠ lv
  · exact .inl (setNext_ne m hc)
  · simp only [not_or, ne_eq, not_not] at hc
    obtain ⟨rfl, rfl⟩ := hc
    exact .inr hown

include h

/-- `newNode->next[level] = succs[level]`, before newNode is linked at that level -/
theorem exec_link1 {v : ℤ} (ha : AsrtAt P g t m (.link1 k v top ws n lv)) : ExecSafe P g t m (.link1 k v top ws n lv) := by
  obtain ⟨hj, ho, hlv, hl⟩ := ha
  have hlt : lv < P.maxLevel := hlv.trans_lt hj.top
  have hnL := ho.not_linked lv le_rfl hlt
  have hkey := key_setNext m n lv (ws.succs lv)
  have hI : Inv P g (setNext m n lv (ws.succs lv)) := by
    refine h.congr le_rfl (fun i _ a ha => ⟨setNext_ne m ?_, congrFun hkey a, setNext_top ..⟩) fun a _ =>
      .inl ⟨setNext_full .., setNext_marked ..⟩
    by_cases hil : i = lv
    · subst hil; exact .inl fun e => hnL (e ▸ ha)
    · exact .inr hil
  have hl' : ∀ i, lv ≤ i → i ≤ top → Lev t (setNext m n lv (ws.succs lv)) ws i (ws.succs i) := by
    intro i h1 h2
    refine (hl i h1 h2).setNext ?_
    by_cases hil : i = lv
    · subst hil
      exact .inl fun e => hnL (e ▸ (hj.near hlt).pred_mem)
    · exact .inr hil
  have hj' : JobOk P g t (setNext m n lv (ws.succs lv)) (.add k v top) ws :=
    ⟨hj.ctx, by rw [hkey]; exact hj.searched, trivial⟩
  refine Safe.store hI ⟨hj', ho.setNext n lv _, hlv, hl', setNext_self m n lv _⟩ (.inr ⟨rfl, le_rfl⟩)
    (fun _ _ _ => absurd) (fun _ _ _ => absurd) (fun _ _ => subset_rfl)
    (fun _ _ _ => absurd) (fun _ => id) ?_
  refine contents_same h hI (fun b => ?_) fun b _ => ⟨(setNext_other m n lv _ b).1, (setNext_other m n lv _ b).2.1⟩
  rw [mem_live, mem_live, setNext_marked, setNext_full]

/-- node n is linked at level lv -/
def Ghost.link (g : Ghost) (lv n : ℕ) : Ghost :=
  ⟨update g.S lv (insert n (g.S lv)), update g.L lv (insert n (g.L lv))⟩

/-- node n is unlinked at level lv -/
def Ghost.unlink (g : Ghost) (lv n : ℕ) : Ghost := ⟨update g.S lv ((g.S lv).erase n), g.L⟩

omit h in
theorem mem_update_insert {f : ℕ → Finset ℕ} :
    a ∈ update f lv (insert n (f lv)) i ↔ a ∈ f i ∨ (i = lv ∧ a = n) := by
  by_cases hi : i = lv
  · subst hi
    rw [update_self, Finset.mem_insert]
    tauto
  · rw [update_of_ne hi]
    simp [hi]

omit h in
theorem mem_update_erase {f : ℕ → Finset ℕ} :
    a ∈ update f lv ((f lv).erase n) i ↔ a ∈ f i ∧ ¬ (i = lv ∧ a = n) := by
  by_cases hi : i = lv
  · subst hi
    rw [update_self, Finset.mem_erase]
    tauto
  · rw [update_of_ne hi]
    simp [hi]

/-- an owned node is reachable at the levels it is linked at -/
theorem Own.mem_S {v : ℤ} (ho : Own P g m n k v top lv) (hi : i < lv)
    (hm : i < P.maxLevel) : n ∈ g.S i := (h.level i hm).unmarked n (ho.linked i hi) ho.marked

/-- a validated pred is reachable -/
theorem Lev.mem_S (hi : i < P.maxLevel) (hp : ws.preds i ∈ g.L i)
    (hl : Lev t m ws i s) : ws.preds i ∈ g.S i := (h.level i hi).unmarked _ hp hl.unmarked

/-- the invariant when a node is linked at one more level -/
theorem inv_link {v : ℤ} (hj : JobOk P g t m (.add k v top) ws)
    (ho : Own P g m n k v top lv) (hlv : lv ≤ top) (hl : Lev t m ws lv (ws.succs lv))
    (hnext : (m.node n).next lv = ws.succs lv) : Inv P (g.link lv n) (setNext m (ws.preds lv) lv n) := by
  have hlt : lv < P.maxLevel := hlv.trans_lt hj.top
  have hp := (hj.near hlt).pred_mem
  have hpS := hl.mem_S h hlt hp
  have hr : inRange P k := hj.searched.range
  have hpt : ws.preds lv ≠ tail := h.ne_tail hr (hj.near hlt).lt
  have hkey := key_setNext m (ws.preds lv) lv n
  have hkn : key m n = k := ho.key
  have hks : k < key m (ws.succs lv) := hj.searched.hit lv (Nat.zero_le _) hlt
  have hnp : n ≠ ws.preds lv := fun e => ho.not_linked lv le_rfl hlt (e ▸ hp)
  refine ⟨fun i hi => ?_, fun i hi a ha => ?_, fun i hi a ha => ?_, fun a ha => ?_, fun i hi a ha => ?_,
    fun i hi a ha => ?_, fun a ha => ?_, fun a ha => ?_, by rw [hkey]; exact h.key_head, by rw [hkey]; exact h.key_tail,
    by rw [setNext_marked, setNext_marked]; exact h.sentinel⟩
  · by_cases hil : i = lv
    · subst hil
      simp only [Ghost.link, update_self]
      refine level_setNext_self ((h.level i hi).insert hpS hpt ?_ ?_ (setNext_self m _ i n) ?_ fun a _ hap _ => ?_)
      · rw [hkn]; exact (hj.near hlt).lt
      · rw [hkn, hl.next]; exact hks
      · exact (setNext_ne m (.inl hnp)).trans (hnext.trans hl.next.symm)
      · exact setNext_ne m (.inl hap)
    · simp only [Ghost.link, update_of_ne hil]
      exact level_setNext (h.level i hi) (.inr hil)
  · rcases mem_update_insert.1 ha with ha | ⟨rfl, rfl⟩
    · exact mem_update_insert.2 (.inl (h.nest i hi ha))
    · exact mem_update_insert.2 (.inl (ho.mem_S h (Nat.lt_succ_self i) (Nat.lt_of_succ_lt hi)))
  · rcases mem_update_insert.1 ha with ha | ⟨rfl, rfl⟩
    · exact mem_update_insert.2 (.inl (h.nestL i hi ha))
    · exact mem_update_insert.2 (.inl (ho.linked i (Nat.lt_succ_self i)))
  · rcases mem_update_insert.1 ha with ha | ⟨-, rfl⟩
    · exact h.addr a ha
    · exact ⟨ho.pos, ho.lt⟩
  · rw [setNext_top]
    rcases mem_update_insert.1 ha with ha | ⟨rfl, rfl⟩
    · exact h.top i hi a ha
    · rw [ho.topLevel]; exact hlv
  · rw [setNext_top, setNext_full]
    intro hf hle
    rcases mem_update_insert.1 ha with ha | ⟨-, rfl⟩
    · exact mem_update_insert.2 (.inl (h.full i hi a ha hf hle))
    · rw [ho.not_full] at hf; cases hf
  · rw [setNext_marked, setNext_full]
    rcases mem_update_insert.1 ha with ha | ⟨-, rfl⟩
    · exact h.mark a ha
    · intro hm; rw [ho.marked] at hm; cases hm
  · rw [setNext_top]
    rcases mem_update_insert.1 ha with ha | ⟨-, rfl⟩
    · exact h.short a ha
    · rw [ho.topLevel]; exact fun _ _ => hj.top

/-- `preds[level]->next[level] = newNode`: the node is linked at this level -/
theorem exec_link2 {v : ℤ} (ha : AsrtAt P g t m (.link2 k v top ws n lv)) : ExecSafe P g t m (.link2 k v top ws n lv) := by
  obtain ⟨hj, ho, hlv, hl, hnext⟩ := ha
  have hlt : lv < P.maxLevel := hlv.trans_lt hj.top
  have hlev := hl lv le_rfl hlv
  have hpS := hlev.mem_S h hlt (hj.near hlt).pred_mem
  have hI := inv_link h hj ho hlv hlev hnext
  have hL : ∀ i < P.maxLevel, g.L i ⊆ (g.link lv n).L i := fun i _ a ha => mem_update_insert.2 (.inl ha)
  have hj' : JobOk P (g.link lv n) t (setNext m (ws.preds lv) lv n) (.add k v top) ws :=
    ⟨hj.ctx, by rw [key_setNext]; exact hj.searched.mono hL fun _ _ _ _ => rfl, trivial⟩
  have ho' : Own P (g.link lv n) (setNext m (ws.preds lv) lv n) n k v top (lv + 1) := by
    have hs := ho.setNext (ws.preds lv) lv n
    refine ⟨fun i hi => ?_, fun i h1 h2 h3 => ?_, hs.pos, hs.lt, hs.ne, hs.key, hs.val, hs.topLevel, hs.marked, hs.not_full⟩
    · rcases Nat.lt_or_ge i lv with h1 | h1
      · exact mem_update_insert.2 (.inl (ho.linked i h1))
      · exact mem_update_insert.2 (.inr ⟨by omega, rfl⟩)
    · rcases mem_update_insert.1 h3 with h4 | ⟨h4, -⟩
      · exact ho.not_linked i (by omega) h2 h4
      · omega
  have hlive : ∀ a, a ∈ live (g.link lv n) (setNext m (ws.preds lv) lv n) ↔ a ∈ live g m := by
    intro a
    rw [mem_live, mem_live, setNext_marked, setNext_full]
    constructor
    · rintro ⟨h1, h2, h3, h4, h5⟩
      rcases mem_update_insert.1 h1 with h6 | ⟨-, rfl⟩
      · exact ⟨h6, h2, h3, h4, h5⟩
      · rw [ho.not_full] at h4; cases h4
    · rintro ⟨h1, h2⟩
      exact ⟨mem_update_insert.2 (.inl h1), h2⟩
  have hnew : ∀ {f : ℕ → Finset ℕ} {i a : ℕ}, a ∈ update f lv (insert n (f lv)) i → a ∉ f i →
      owns (.link2 k v top ws n lv) = some a := by
    intro f i a ha hno
    rcases mem_update_insert.1 ha with h1 | ⟨-, rfl⟩
    · exact absurd h1 hno
    · rfl
  have he : Effect m (.link2 k v top ws n lv) (setNext m (ws.preds lv) lv n) :=
    contents_same h hI hlive fun b _ => ⟨(setNext_other m _ lv n b).1, (setNext_other m _ lv n b).2.1⟩
  have hkeep : ∀ i < P.maxLevel, ∀ c ∈ g.S i, c ∉ (g.link lv n).S i → (m.node c).marked = true ∧ holds m t c :=
    fun i _ c h1 h2 => absurd (mem_update_insert.2 (.inl h1)) h2
  have hstay : ws.preds lv ∈ (g.link lv n).S lv := mem_update_insert.2 (.inl hpS)
  simp only [ExecSafe, exec]
  split_ifs with hc
  · refine Safe.store hI ⟨hj', ho', hc, fun i h1 h2 => ?_⟩ (.inl ⟨hlev.held, hpS, hstay⟩) hkeep
      (fun i _ c => hnew) hL (fun i _ c => hnew) (fun _ => id) he
    exact (hl i (by omega) h2).setNext (.inr (by omega))
  · obtain rfl : lv = top := by omega
    exact Safe.store hI ⟨hlt, hj.searched.range, ho'⟩ (.inl ⟨hlev.held, hpS, hstay⟩) hkeep
      (fun i _ c => hnew) hL (fun i _ c => hnew) (fun _ => id) he

omit h

/-! ### Flags -/

theorem setFull_other (m : Mem) (a b : ℕ) :
    ((setFull m a).node b).key = (m.node b).key ∧ ((setFull m a).node b).val = (m.node b).val ∧
      ((setFull m a).node b).topLevel = (m.node b).topLevel ∧ ((setFull m a).node b).marked = (m.node b).marked ∧
      ((setFull m a).node b).next = (m.node b).next := by
  by_cases hb : b = a
  · subst hb; simp [setFull, setNode]
  · simp [setFull, setNode, update_of_ne hb]

theorem setFull_self (m : Mem) (a : ℕ) : ((setFull m a).node a).fullyLinked = true := by simp [setFull, setNode]

theorem setFull_ne (m : Mem) (h : b ≠ a) : ((setFull m a).node b).fullyLinked = (m.node b).fullyLinked := by
  simp [setFull, setNode, update_of_ne h]

theorem key_setFull (m : Mem) (a : ℕ) : key (setFull m a) = key m := funext fun b => (setFull_other m a b).1

/-- `newNode->fullyLinked = true`: the pair of the new node enters the map -/
theorem exec_full (h : Inv P g m) {v : ℤ} (ha : AsrtAt P g t m (.full k v top ws n)) :
    ExecSafe P g t m (.full k v top ws n) := by
  obtain ⟨htop, hr, ho⟩ := ha
  have hkey := key_setFull m n
  have hnS : n ∈ g.S 0 := ho.mem_S h (Nat.succ_pos _) P.pos
  have hI : Inv P g (setFull m n) := by
    refine h.congr le_rfl (fun i _ a _ => ?_) fun a _ => ?_
    · exact ⟨congrFun (setFull_other m n a).2.2.2.2 i, congrFun hkey a, (setFull_other m n a).2.2.1⟩
    · by_cases han : a = n
      · subst han
        refine .inr ⟨ho.marked, setFull_self m a, fun i _ hle => ?_, ho.ne⟩
        rw [ho.topLevel] at hle
        exact ho.linked i (Nat.lt_succ_of_le hle)
      · exact .inl ⟨setFull_ne m han, (setFull_other m n a).2.2.2.1⟩
  have habs : contents m k = none := by
    have := h.absent_of_not_live hnS fun hl => by
      have := (mem_live.1 hl).2.2.2.1
      rw [ho.not_full] at this; cases this
    rwa [show key m n = k from ho.key] at this
  have hlive : ∀ a, a ∈ live g (setFull m n) ↔ a = n ∨ a ∈ live g m := by
    intro a
    rw [mem_live, mem_live, (setFull_other m n a).2.2.2.1]
    by_cases han : a = n
    · subst han
      simp [setFull_self, hnS, ho.ne.1, ho.ne.2, ho.marked]
    · rw [setFull_ne m han]; simp [han]
  refine ⟨g, ⟨hI, trivial, fun _ _ _ _ => id, fun a _ i _ => .inl ?_, fun a _ => .inl (setFull_other m n a).2.2.2.1,
    fun a _ => ?_, fun a _ => ⟨(setFull_other m n a).1, (setFull_other m n a).2.1, (setFull_other m n a).2.2.1⟩, le_rfl,
    fun _ _ _ => absurd, fun _ _ _ => absurd, fun _ _ => subset_rfl,
    fun _ _ _ => absurd, nofun⟩, ?_⟩
  · exact congrFun (setFull_other m n a).2.2.2.2 i
  · by_cases han : a = n
    · subst han; exact .inr ⟨rfl, setFull_self m a, rfl⟩
    · exact .inl (setFull_ne m han)
  · exact ⟨habs, contents_insert h hI ((setFull_other m n n).1.trans ho.key) ((setFull_other m n n).2.1.trans ho.val) hlive
      (fun a _ => ⟨(setFull_other m n a).1, (setFull_other m n a).2.1⟩) habs⟩

theorem setMarked_other (m : Mem) (a b : ℕ) :
    ((setMarked m a).node b).key = (m.node b).key ∧ ((setMarked m a).node b).val = (m.node b).val ∧
      ((setMarked m a).node b).topLevel = (m.node b).topLevel ∧
      ((setMarked m a).node b).fullyLinked = (m.node b).fullyLinked ∧
      ((setMarked m a).node b).next = (m.node b).next := by
  by_cases hb : b = a
  · subst hb; simp [setMarked, setNode]
  · simp [setMarked, setNode, update_of_ne hb]

theorem setMarked_self (m : Mem) (a : ℕ) : ((setMarked m a).node a).marked = true := by simp [setMarked, setNode]

theorem setMarked_ne (m : Mem) (h : b ≠ a) : ((setMarked m a).node b).marked = (m.node b).marked := by
  simp [setMarked, setNode, update_of_ne h]

theorem key_setMarked (m : Mem) (a : ℕ) : key (setMarked m a) = key m := funext fun b => (setMarked_other m a b).1

include h

theorem inv_setMarked (ha : (m.node a).fullyLinked = true) (hn : a ≠ head ∧ a ≠ tail)
    (hm : (m.node a).marked = false) : Inv P g (setMarked m a) := by
  refine h.congr le_rfl (fun i _ b _ => ?_) fun b hb => ?_
  · exact ⟨congrFun (setMarked_other m a b).2.2.2.2 i, congrFun (key_setMarked m a) b, (setMarked_other m a b).2.2.1⟩
  · by_cases hba : b = a
    · subst hba
      exact .inr ⟨hm, (setMarked_other m b b).2.2.2.1.trans ha, fun i hi => h.full i hi b hb ha, hn⟩
    · exact .inl ⟨(setMarked_other m a b).2.2.2.1, setMarked_ne m hba⟩

/-- `victim->marked = true`: the pair of the victim leaves the map -/
theorem exec_mark (ha : AsrtAt P g t m (.mark k ws f v top)) : ExecSafe P g t m (.mark k ws f v top) := by
  obtain ⟨hf, hfull, htop, rfl, hh, hm⟩ := ha
  obtain ⟨hlt, hvL, hv0, hk⟩ := hf.mem h
  have hn := h.node_of_key hf.searched.range hk
  have hI := inv_setMarked h hfull hn hm
  have hmem : ∀ i ≤ top, v ∈ g.S i := fun i hi =>
    (h.level i (hi.trans_lt hlt)).unmarked v (h.full i (hi.trans_lt hlt) v hv0 hfull (htop ▸ hi)) hm
  have hvic : Victim P g t (setMarked m v) k ⟨v, top⟩ :=
    ⟨hlt, hmem, by rw [key_setMarked]; exact hk, (setMarked_other m v v).2.2.1.trans htop, setMarked_self m v, hh⟩
  have hs : Searched P g (key (setMarked m v)) k ws (some top) 0 := by
    rw [key_setMarked]; exact hf.searched
  have hvlive : v ∈ live g m := mem_live.2 ⟨hmem 0 (Nat.zero_le _), hn.1, hn.2, hfull, hm⟩
  have hlive : ∀ b, b ∈ live g (setMarked m v) ↔ b ≠ v ∧ b ∈ live g m := by
    intro b
    rw [mem_live, mem_live, (setMarked_other m v b).2.2.2.1]
    by_cases hbv : b = v
    · subst hbv; simp [setMarked_self]
    · rw [setMarked_ne m hbv]; simp [hbv]
  refine ⟨g, ⟨hI, ⟨⟨hvic, hs, rfl, rfl⟩, Nat.zero_le _, fun i hi => absurd hi (Nat.not_lt_zero i)⟩, fun _ _ _ _ => id,
    fun a _ i _ => .inl (congrFun (setMarked_other m v a).2.2.2.2 i), fun a _ => ?_,
    fun a _ => .inl (setMarked_other m v a).2.2.2.1,
    fun a _ => ⟨(setMarked_other m v a).1, (setMarked_other m v a).2.1, (setMarked_other m v a).2.2.1⟩, le_rfl,
    fun _ _ _ => absurd, fun _ _ _ => absurd, fun _ _ => subset_rfl,
    fun _ _ _ => absurd, nofun⟩, ?_⟩
  · by_cases hav : a = v
    · subst hav; exact .inr ⟨hh, setMarked_self m a, hfull, rfl⟩
    · exact .inl (setMarked_ne m hav)
  · refine ⟨?_, contents_erase h hI hvlive hk hlive fun b _ => ⟨(setMarked_other m v b).1, (setMarked_other m v b).2.1⟩⟩
    rw [← hk]; exact h.present hvlive

/-! ### Unlinking the victim -/

omit h in
theorem Going.ne_pred (hg : Going P g t m k mk ws v lv) (hi : i < P.maxLevel) :
    ws.preds i ≠ v := by
  rintro e
  have := (hg.near i hi).lt
  rw [e, hg.key] at this
  exact lt_irrefl _ this

/-- the invariant when a victim is unlinked at one level -/
theorem inv_unlink (hg : Going P g t m k mk ws v lv)
    (hs : (m.node v).next lv = s) : Inv P (g.unlink lv v) (setNext m (ws.preds lv) lv s) := by
  have hlt : lv < P.maxLevel := hg.le.trans_lt hg.lt
  have hl := hg.lev lv le_rfl
  have hpS := hl.mem_S h hlt (hg.near lv hlt).pred_mem
  have hpt : ws.preds lv ≠ tail := h.ne_tail hg.range (hg.near lv hlt).lt
  have hvt : v ≠ tail := (h.node_of_key hg.range hg.key).2
  have hkey := key_setNext m (ws.preds lv) lv s
  refine ⟨fun i hi => ?_, fun i hi a ha => ?_, h.nestL, h.addr, fun i hi a ha => ?_, fun i hi a ha => ?_, fun a ha => ?_,
    fun a ha => ?_, by rw [hkey]; exact h.key_head, by rw [hkey]; exact h.key_tail,
    by rw [setNext_marked, setNext_marked]; exact h.sentinel⟩
  · by_cases hil : i = lv
    · subst hil
      simp only [Ghost.unlink, update_self]
      have he : LazyChain (fun c => ((setNext m (ws.preds i) i s).node c).next i) (key m) (fun c => (m.node c).marked) head
          tail ((g.S i).erase ((m.node (ws.preds i)).next i)) (g.L i) := by
        refine (h.level i hi).erase hpS hpt ?_ ?_ ?_ fun a _ hap _ => setNext_ne m (.inl hap)
        · rw [hl.next]; exact hvt
        · rw [hl.next]; exact hg.marked
        · rw [hl.next, hs]; exact setNext_self m _ i s
      rw [hl.next] at he
      exact level_setNext_self he
    · simp only [Ghost.unlink, update_of_ne hil]
      exact level_setNext (h.level i hi) (.inr hil)
  · obtain ⟨h1, h2⟩ := mem_update_erase.1 ha
    refine mem_update_erase.2 ⟨h.nest i hi h1, ?_⟩
    -- above this level the victim is unlinked already
    rintro ⟨rfl, rfl⟩
    exact hg.gone _ (Nat.lt_succ_self i) hi h1
  · rw [setNext_top]; exact h.top i hi a ha
  · rw [setNext_top, setNext_full]; exact h.full i hi a ha
  · rw [setNext_marked, setNext_full]; exact h.mark a ha
  · rw [setNext_top]; exact h.short a ha

/-- `preds[level]->next[level] = victim->next[level]` -/
theorem exec_unlink2 (ha : AsrtAt P g t m (.unlink2 k mk ws f v lv s)) : ExecSafe P g t m (.unlink2 k mk ws f v lv s) := by
  obtain ⟨hg, hs⟩ := ha
  have hlt : lv < P.maxLevel := hg.le.trans_lt hg.lt
  have hl := hg.lev lv le_rfl
  have hpS := hl.mem_S h hlt (hg.near lv hlt).pred_mem
  have hI := inv_unlink h hg hs
  have hstay : ws.preds lv ∈ (g.unlink lv v).S lv := mem_update_erase.2 ⟨hpS, fun e => hg.ne_pred hlt e.2⟩
  have hkeep : ∀ i < P.maxLevel, ∀ c ∈ g.S i, c ∉ (g.unlink lv v).S i → (m.node c).marked = true ∧ holds m t c := by
    intro i _ c h1 h2
    have : i = lv ∧ c = v := by
      by_contra hno
      exact h2 (mem_update_erase.2 ⟨h1, hno⟩)
    rw [this.2]; exact ⟨hg.marked, hg.held⟩
  have hnew : ∀ i < P.maxLevel, ∀ c ∈ (g.unlink lv v).S i, c ∉ g.S i → owns (.unlink2 k mk ws f v lv s) = some c :=
    fun i _ c h1 h2 => absurd (mem_update_erase.1 h1).1 h2
  have hlive : ∀ a, a ∈ live (g.unlink lv v) (setNext m (ws.preds lv) lv s) ↔ a ∈ live g m := by
    intro a
    rw [mem_live, mem_live, setNext_marked, setNext_full]
    constructor
    · rintro ⟨h1, h2⟩; exact ⟨(mem_update_erase.1 h1).1, h2⟩
    · rintro ⟨h1, h2⟩
      refine ⟨mem_update_erase.2 ⟨h1, ?_⟩, h2⟩
      rintro ⟨-, rfl⟩
      have := h2.2.2.2
      rw [hg.marked] at this; cases this
  have he : Effect m (.unlink2 k mk ws f v lv s) (setNext m (ws.preds lv) lv s) :=
    contents_same h hI hlive fun b _ => ⟨(setNext_other m _ lv s b).1, (setNext_other m _ lv s b).2.1⟩
  have hv0 : v ∈ g.L 0 := h.bot.sub (hg.mem 0 (Nat.zero_le _))
  simp only [ExecSafe, exec]
  cases lv with
  | zero =>
    exact Safe.store hI ⟨hg.same, hv0⟩ (.inl ⟨hl.held, hpS, hstay⟩) hkeep hnew (fun _ _ => subset_rfl)
      (fun _ _ _ => absurd) nofun he
  | succ lv =>
    have hgo : Going P (g.unlink (lv + 1) v) t (setNext m (ws.preds (lv + 1)) (lv + 1) s) k mk ws v lv := by
      refine ⟨hg.lt, (Nat.le_succ _).trans hg.le, hg.same, fun i hi => ?_, hg.range, fun i hi => ?_, fun i h1 h2 h3 => ?_,
        by rw [key_setNext]; exact hg.key, by rw [setNext_marked]; exact hg.marked, hg.held, fun i hi => ?_⟩
      · rw [key_setNext]; exact (hg.near i hi).mono subset_rfl fun _ _ => rfl
      · exact mem_update_erase.2 ⟨hg.mem i (by omega), fun e => by omega⟩
      · obtain ⟨h4, h5⟩ := mem_update_erase.1 h3
        by_cases hi : i = lv + 1
        · exact h5 ⟨hi, rfl⟩
        · exact hg.gone i (by omega) h2 h4
      · exact (hg.lev i (by omega)).setNext (.inr (by omega))
    exact Safe.store hI hgo (.inl ⟨hl.held, hpS, hstay⟩) hkeep hnew (fun _ _ => subset_rfl)
      (fun _ _ _ => absurd) nofun he

/-! ### The other steps -/

theorem exec_assert {v : ℤ} (ha : AsrtAt P g t m (.assert2 k v top ws lv)) : ExecSafe P g t m (.assert2 k v top ws lv) := by
  obtain ⟨hj, hlv, hl⟩ := ha
  simp only [ExecSafe, exec, if_pos (hl lv hlv).next]
  split_ifs with hlt
  · exact Safe.load h ⟨hj, hlt, hl⟩ nofun rfl
  · exact Safe.load h ⟨hj, hl⟩ nofun rfl

/-- a marked victim goes on to its preds, an unmarked one is locked if the flag is set -/
theorem Safe.afterFlag {flag : Bool} (hc : CtxOk P g t m (.delete k mark)) (hf : Found P g m k ws f v)
    (hs : ∀ mk, mark = some mk → v = mk.victim ∧ f = mk.topLevel)
    (hflag : flag = true → (m.node v).fullyLinked = true ∧ (m.node v).topLevel = f) (hcm : commits m l = none) :
    Safe P g t m l m (afterFlag m k mark ws f v flag) := by
  cases mark with
  | some mk =>
    refine Safe.load h (z := .lockPred _ _ _) ⟨⟨hc, hf.searched, hs mk rfl⟩, Nat.zero_le _, fun i hi => ?_⟩
      nofun hcm
    exact absurd hi (Nat.not_lt_zero i)
  | none =>
    cases flag with
    | true =>
      obtain ⟨h1, h2⟩ := hflag rfl
      exact Safe.load h (z := .lockVictim _ _ _ _ _) ⟨hf, h1, h2, h2⟩ nofun hcm
    | false => exact Safe.load h (z := .ret _ _) trivial nofun hcm

theorem exec_flag1 (ha : AsrtAt P g t m (.flag1 k mark ws f v)) : ExecSafe P g t m (.flag1 k mark ws f v) := by
  simp only [ExecSafe, exec]
  split_ifs with hf
  · exact Safe.load h ⟨ha.1, ha.2.1, ha.2.2, hf⟩ nofun rfl
  · exact Safe.afterFlag h ha.1 ha.2.1 ha.2.2 nofun rfl

theorem exec_flag2 (ha : AsrtAt P g t m (.flag2 k mark ws f v)) : ExecSafe P g t m (.flag2 k mark ws f v) := by
  simp only [ExecSafe, exec]
  split_ifs with hf
  · exact Safe.load h ⟨ha.1, ha.2.1, ha.2.2.1, ha.2.2.2, hf⟩ nofun rfl
  · exact Safe.afterFlag h ha.1 ha.2.1 ha.2.2.1 nofun rfl

omit h in
theorem Found.withMtx (hf : Found P g m k ws f v) (x : ℕ → Option (ℕ × ℕ)) :
    Found P g (withMtx m x) k ws f v := ⟨hf.searched, hf.victim_eq⟩

theorem exec_recheck (ha : AsrtAt P g t m (.recheck k ws f v top)) : ExecSafe P g t m (.recheck k ws f v top) := by
  simp only [ExecSafe, exec]
  split_ifs with hm
  · exact Safe.load h (z := .giveUp _ _) trivial nofun rfl
  · obtain ⟨h1, h2, h3, h4, h5⟩ := ha
    exact Safe.load h ⟨h1, h2, h3, h4, h5, by simpa using hm⟩ nofun rfl

/-- steps of `_find`, and the wait for a node to be fully linked -/
theorem Safe.ite {c : Prop} [Decidable c] {x y : Loc} (hx : AsrtAt P g t m x) (hy : AsrtAt P g t m y)
    (hox : owns x = none) (hoy : owns y = none) (hc : commits m l = none) : Safe P g t m l m (if c then x else y) := by
  split_ifs
  · exact Safe.load h hx (fun n hn => by rw [hox] at hn; cases hn) hc
  · exact Safe.load h hy (fun n hn => by rw [hoy] at hn; cases hn) hc

/-- **One step inside a call**, at each program point -/
theorem exec_safe (ha : AsrtAt P g t m l) (hh : Hind l) : ExecSafe P g t m l := by
  cases l with
  | idle | ret op r | retFind k v => exact Safe.load h ha (fun _ => id) rfl
  | aborted => exact absurd ha id
  | load c ws lf lv p => exact exec_load h ha
  | test c ws lf lv p q => exact exec_test h ha
  | found c ws lf => exact exec_found h ha hh
  | lockPred j ws lv => exact exec_lockPred h ha
  | valid1 j ws lv => exact exec_valid1 h ha
  | valid2 j ws lv => exact exec_valid2 h ha
  | valid3 j ws lv => exact exec_valid3 h ha
  | retry j ws hl i => exact exec_retry h ha
  | chkMarked k v top n => exact Safe.ite h (search_asrt h ha.2.1 ha.1) ⟨ha.1, ha.2.2⟩ rfl rfl rfl
  | spin k v n => exact Safe.ite h (x := .ret _ _) trivial ha rfl rfl rfl
  | assert1 k v top ws lv =>
    have hm := (ha.2.2 lv ha.2.1).unmarked
    simp only [ExecSafe, exec, hm, Bool.false_eq_true, if_false]
    exact Safe.load h ha (fun _ => id) rfl
  | assert2 k v top ws lv => exact exec_assert h ha
  | create k v top ws => exact exec_create h ha
  | link1 k v top ws n lv => exact exec_link1 h ha
  | link2 k v top ws n lv => exact exec_link2 h ha
  | full k v top ws n => exact exec_full h ha
  | addUnlock k v top ws lv =>
    simp only [ExecSafe, exec]
    split_ifs
    · exact unlock_safe h rfl (fun _ => id) trivial
    · exact unlock_safe h (z := .ret _ _) rfl (fun _ => id) trivial
  | flag1 k mark ws f v => exact exec_flag1 h ha
  | flag2 k mark ws f v => exact exec_flag2 h ha
  | flag3 k mark ws f v => exact Safe.afterFlag h ha.1 ha.2.1 ha.2.2.1 (fun _ => ha.2.2.2) rfl
  | lockVictim k ws f v top =>
    exact lock_safe h ha rfl (fun _ => id) fun hm =>
      ⟨ha.1.withMtx _, ha.2.1, ha.2.2.1, ha.2.2.2, holds_acquire_self m t v⟩
  | recheck k ws f v top => exact exec_recheck h ha
  | giveUp k v => exact unlock_safe h (z := .ret _ _) rfl (fun _ => id) trivial
  | mark k ws f v top => exact exec_mark h ha
  | unlink1 k mk ws f v lv => exact Safe.load h ⟨ha, rfl⟩ (fun _ => id) rfl
  | unlink2 k mk ws f v lv s => exact exec_unlink2 h ha
  | unlockVictim k mk ws f v => exact unlock_safe h rfl (fun _ => id) ha
  | delUnlock k mk ws f v i =>
    simp only [ExecSafe, exec]
    split_ifs
    · exact unlock_safe h rfl (fun _ => id) ha
    · exact unlock_safe h rfl (fun _ => id) ha
  | getVal k mk v => exact Safe.load h (z := .ret _ _) trivial (fun _ => id) rfl
  | find1 k ws f => exact Safe.ite h (x := .find2 _ _ _) (y := .retFind _ _) trivial trivial rfl rfl rfl
  | find2 k ws f => exact Safe.ite h (x := .retFind _ _) (y := .find3 _ _) trivial trivial rfl rfl rfl
  | find3 k ws => exact Safe.load h (z := .find4 _ _) trivial (fun _ => id) rfl
  | find4 k n => exact Safe.load h (z := .retFind _ _) trivial (fun _ => id) rfl

/-- what a step with any action does to the map -/
def ActEffect (m : Mem) (l : Loc) (a : Act P) (m' : Mem) : Prop :=
  match a with
  | .step => Effect m l m'
  | .invoke _ _ => m' = m

omit h in
theorem asrt_entry {op : Op} (hop : opInRange P op) (h : Inv P g m) (r : ℕ) : AsrtAt P g t m (entry P r op) := by
  cases op with
  | add k v => exact search_asrt h (Nat.mod_lt _ P.pos) hop
  | delete k | find k => exact search_asrt h trivial hop
  | contains k => exact absurd hop id

/-- **One step**, whatever the action -/
theorem step_guar (ha : AsrtAt P g t m l) (hh : Hind l) (a : Act P) :
    ∃ g', Guar P g t m l g' (step P t m l a).1 (step P t m l a).2 ∧ ActEffect m l a (step P t m l a).1 := by
  cases a with
  | step => exact exec_safe h ha hh
  | invoke op r =>
    refine ⟨g, ?_, rfl⟩
    simp only [step]
    split_ifs
    · refine .load h (asrt_entry op.2 h r) fun n hn => ?_
      have hno : owns (entry P r op.1) = none := by cases op.1 <;> rfl
      rw [hno] at hn; cases hn
    · exact .load h ha fun _ => id

end Steps

theorem inv_init (P : Params) : Inv P ⟨fun _ => {head, tail}, fun _ => {head, tail}⟩ (initList P) := by
  have hcases : ∀ a ∈ ({head, tail} : Finset ℕ), a = head ∨ a = tail := fun a ha => by simpa using ha
  have htop : ∀ a ∈ ({head, tail} : Finset ℕ), ((initList P).node a).topLevel = P.maxLevel ∧
      ((initList P).node a).marked = false := fun a ha => by
    rcases hcases a ha with rfl | rfl <;> exact ⟨rfl, rfl⟩
  refine ⟨fun i hi => lazyChain_init P.lt ?_, fun i _ => subset_rfl, fun i _ => subset_rfl, fun a ha => ?_,
    fun i hi a ha => ?_, fun i hi a ha _ _ => ha, fun a ha hm => ?_, fun a ha h1 h2 => ?_, rfl, rfl, ⟨rfl, rfl⟩⟩
  · simp [initList, hi]
  · show 0 < a ∧ a < 3
    rcases hcases a ha with rfl | rfl <;> decide
  · rw [(htop a ha).1]; exact hi.le
  · rw [(htop a ha).2] at hm; cases hm
  · exact absurd (hcases a ha) (by simp [h1, h2])

/-- one step keeps the assertions of the other threads and the disjointness of private nodes -/
theorem Guar.others {P : Params} {g g' : Ghost} {m m' : Mem} {l l' : Loc} {t : ℕ} (h : Inv P g m)
    (ha : AsrtAt P g t m l) (hg : Guar P g t m l g' m' l') (u : ℕ) (l2 : Loc) (hu : u ≠ t) (h2 : AsrtAt P g u m l2)
    (hd : Disj l l2) (hd' : Disj l2 l) : AsrtAt P g' u m' l2 ∧ Disj l' l2 ∧ Disj l2 l' :=
  ⟨AsrtAt.stable hg h ha hu h2 hd', Sys.owned_disj hg.owned hd fun _ hn => (h2.owned hn).1⟩

end AlgorithmCollection.LazySkiplist
