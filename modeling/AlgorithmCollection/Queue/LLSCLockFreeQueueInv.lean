/-
The invariant of `LLSCLockFreeQueue`, for any number of threads and any interleaving.

The ghost is the list `N` of node addresses: the extra node of `init_queue`, its first node, and then every node ever
linked, in link order. Version v of either variable stands for position v + 1 (`VarOk`): the current slot holds
`N[v + 1]` and the other slot holds `N[v]` (the pred of the current node) or, once an SC has succeeded at version v,
`N[v + 2]`. Both variables walk along the same list independently, so nothing relates their versions.
- A slot cas that succeeds has the current version (`ver_of_noncur`): in every later version both slots hold nodes
  after `N[myver]`, and the nodes of `N` are distinct.
- After the slot cas of an SC, successful or not, the successor for its version is installed (`Installed`), so whoever
  bumps the version moves on to the right node.
- `nlP` and `toBeFreed` are never set in memory, because the cas on an exit tag does not reach them; so no `FREEABLE`
  test succeeds and nothing is ever freed (`Inv.tags`, `Inv.freed`).
`inv_run`: all of this holds in every reachable state.
-/
import AlgorithmCollection.Conc.Positions
import AlgorithmCollection.Queue.LLSCLockFreeQueue

namespace AlgorithmCollection.LLSCLockFreeQueue

open Conc
open Function (update update_of_ne)

variable {k : ScCall} {c : Ctx} {b : RelBy} {e : EntryTag} {N' : List ℕ} {pre : ExitTag} {p v nd : ℕ}

/-! ## Slots -/

theorem current_succ (x : LLSCvar) (v : ℕ) : current x (v + 1) = noncur x v := by
  unfold current noncur; split_ifs <;> first | rfl | omega

theorem noncur_succ (x : LLSCvar) (v : ℕ) : noncur x (v + 1) = current x v := by
  unfold current noncur; split_ifs <;> first | rfl | omega

/-- the slot an SC of version v works on is the current or the other slot of version w, by parity -/
theorem noncur_parity (x : LLSCvar) (v w : ℕ) : noncur x v = noncur x w ∨ noncur x v = current x w := by
  unfold current noncur; split_ifs <;> simp

@[simp] theorem setNoncur_entry (x : LLSCvar) (v p : ℕ) : (setNoncur x v p).entry = x.entry := by
  unfold setNoncur; split_ifs <;> rfl

@[simp] theorem noncur_setNoncur (x : LLSCvar) (v p : ℕ) : noncur (setNoncur x v p) v = p := by
  unfold noncur setNoncur; split_ifs <;> rfl

@[simp] theorem current_setNoncur (x : LLSCvar) (v p : ℕ) : current (setNoncur x v p) v = current x v := by
  unfold current setNoncur; split_ifs <;> rfl

theorem var_setVar (m : Mem) (c c' : Ctx) (x : LLSCvar) :
    ((m.setVar c x).var c' = x ∧ m.var c' = m.var c) ∨ (m.setVar c x).var c' = m.var c' := by
  cases c <;> cases c' <;> simp [Mem.var, Mem.setVar]

@[simp] theorem setVar_node (m : Mem) (c : Ctx) (x : LLSCvar) : (m.setVar c x).node = m.node := by cases c <;> rfl

@[simp] theorem setVar_fresh (m : Mem) (c : Ctx) (x : LLSCvar) : (m.setVar c x).fresh = m.fresh := by cases c <;> rfl

@[simp] theorem setVar_freed (m : Mem) (c : Ctx) (x : LLSCvar) : (m.setVar c x).freed = m.freed := by cases c <;> rfl

/-! ## The shared invariant -/

/-- a variable at version v: the current slot is at position v + 1, the other one just before or just after it -/
structure VarOk (N : List ℕ) (x : LLSCvar) : Prop where
  cur : N[x.entry.ver + 1]? = some (current x x.entry.ver)
  non : N[x.entry.ver]? = some (noncur x x.entry.ver) ∨ N[x.entry.ver + 2]? = some (noncur x x.entry.ver)

/-- the successor for version v has been installed (and perhaps the version has moved on) -/
def Installed (N : List ℕ) (x : LLSCvar) (v : ℕ) : Prop :=
  v < x.entry.ver ∨ (v = x.entry.ver ∧ N[v + 2]? = some (noncur x v))

structure Inv (N : List ℕ) (m : Mem) : Prop where
  nodup : N.Nodup
  addr : ∀ a ∈ N, 0 < a ∧ a < m.fresh
  fresh : 0 < m.fresh
  pred : ∀ i a b, N[i]? = some a → N[i + 1]? = some b → (m.node b).pred = a
  next : ∀ i a, N[i + 1]? = some a → (m.node a).next = (N[i + 2]?).getD NULL
  head : VarOk N m.head
  tail : VarOk N m.tail
  tags : ∀ a, (m.node a).exit.nlP = false ∧ (m.node a).exit.toBeFreed = false
  freed : m.freed = []

/-- what a step may do to what other threads rely on; `own` is the private node of the stepping thread -/
structure Ext (N : List ℕ) (m : Mem) (N' : List ℕ) (m' : Mem) (own : Option ℕ) : Prop where
  grows : N <+: N'
  ver : ∀ c, (m.var c).entry.ver ≤ (m'.var c).entry.ver
  inst : ∀ c v, Installed N (m.var c) v → Installed N' (m'.var c) v
  fresh : m.fresh ≤ m'.fresh
  val : ∀ a ∈ N, (m'.node a).val = (m.node a).val
  private_ : ∀ a < m.fresh, a ∉ N' → own ≠ some a →
    (m'.node a).val = (m.node a).val ∧ (m'.node a).next = (m.node a).next ∧ (m'.node a).pred = (m.node a).pred

theorem Ext.refl (N : List ℕ) (m : Mem) (o : Option ℕ) : Ext N m N m o :=
  ⟨List.prefix_refl _, fun _ => le_rfl, fun _ _ => id, le_rfl, fun _ _ => rfl, fun _ _ _ _ => ⟨rfl, rfl, rfl⟩⟩

section Basic

variable {N : List ℕ} {m : Mem}

variable (h : Inv N m)

include h

theorem Inv.var (c : Ctx) : VarOk N (m.var c) := by
  cases c
  · exact h.tail
  · exact h.head

theorem Inv.not_mem_fresh : m.fresh ∉ N := fun hm => lt_irrefl _ (h.addr _ hm).2

variable {x : LLSCvar}

theorem Inv.next_null {i a : ℕ} (ha : N[i + 1]? = some a) (hn : (m.node a).next = NULL) : i + 2 = N.length := by
  have hlt := lt_of_get ha
  rw [h.next i a ha] at hn
  cases hb : N[i + 2]? with
  | none => have := List.getElem?_eq_none_iff.1 hb; omega
  | some b =>
    rw [hb] at hn
    have := (h.addr b (mem_of_get hb)).1
    simp only [Option.getD_some, NULL] at hn; omega

theorem Inv.next_some {i a : ℕ} (ha : N[i + 1]? = some a) (hn : (m.node a).next ≠ NULL) :
    N[i + 2]? = some (m.node a).next := by
  rw [h.next i a ha] at hn ⊢
  cases hb : N[i + 2]? with
  | none => rw [hb] at hn; exact absurd rfl hn
  | some b => rfl

omit h

/-- **A slot that still holds `N[v]` is the other slot of version v**: stale SCs fail. -/
theorem VarOk.ver_of_noncur (hx : VarOk N x) (hd : N.Nodup) (hv : v ≤ x.entry.ver)
    (hp : N[v]? = some p) (he : noncur x v = p) : x.entry.ver = v := by
  by_contra hne
  rcases noncur_parity x v x.entry.ver with h | h
  · rcases hx.non with h' | h' <;> rw [← h, he] at h' <;> have := pos_inj hd hp h' <;> omega
  · have h' := hx.cur
    rw [← h, he] at h'
    have := pos_inj hd hp h'; omega

theorem VarOk.grow (h : VarOk N x) (hg : N <+: N') : VarOk N' x :=
  ⟨get_of_extends hg h.cur, h.non.imp (get_of_extends hg) (get_of_extends hg)⟩

theorem Installed.grow (h : Installed N x v) (hg : N <+: N') : Installed N' x v :=
  h.imp id fun ⟨h1, h2⟩ => ⟨h1, get_of_extends hg h2⟩

end Basic

/-! ## Local assertions -/

/-- the node `nd` created by this `enq` is not linked and holds its value -/
def Own (N : List ℕ) (m : Mem) (v : ℤ) (nd : ℕ) : Prop :=
  nd ∉ N ∧ 0 < nd ∧ nd < m.fresh ∧ (m.node nd).val = v ∧ (m.node nd).next = NULL

def CtxOk (N : List ℕ) (m : Mem) : Ctx → Prop
  | .enq v nd => Own N m v nd
  | .deq => True

/-- an LL on x returned `node` at version `ver` -/
def Loaded (N : List ℕ) (x : LLSCvar) (ver node : ℕ) : Prop := N[ver + 1]? = some node ∧ ver ≤ x.entry.ver

/-- an SC in progress installs the successor of the node it has linked -/
def ScOk (N : List ℕ) (m : Mem) (k : ScCall) : Prop :=
  Loaded N (m.var k.ctx) k.myver k.mynode ∧ N[k.myver + 2]? = some k.nd ∧ (k.own = false → CtxOk N m k.ctx)

/-- an SC past its slot cas -/
def ScDone (N : List ℕ) (m : Mem) (k : ScCall) : Prop := ScOk N m k ∧ Installed N (m.var k.ctx) k.myver

def ByOk (N : List ℕ) (m : Mem) : RelBy → Prop
  | .sc k _ => ScDone N m k
  | .unlink => True

def ContOk (N : List ℕ) (m : Mem) : Cont → Prop
  | .transfer _ k _ => ScDone N m k
  | .release _ by_ => ByOk N m by_
  | .setNLPred _ post by_ => ByOk N m by_ ∧ freeable post = false
  | .setToBeFreed _ => True

def Asrt (N : List ℕ) (m : Mem) : Loc → Prop
  | .idle | .ret _ _ | .enq0 _ | .unl1 _ _ | .unl2 _ _ _ | .unl3 _ _ => True
  | .ll1 c => CtxOk N m c
  | .ll2 c ver => CtxOk N m c ∧ ver ≤ (m.var c).entry.ver
  | .ll3 c e => CtxOk N m c ∧ e.ver ≤ (m.var c).entry.ver
  | .ll4 c e node =>
    CtxOk N m c ∧ e.ver ≤ (m.var c).entry.ver ∧ ((m.var c).entry.ver = e.ver → N[e.ver + 1]? = some node)
  | .enq1 v nd myver mynode => Own N m v nd ∧ Loaded N m.tail myver mynode
  | .enq2 v nd myver mynode => Own N m v nd ∧ Loaded N m.tail myver mynode ∧ (m.node nd).pred = mynode
  | .enq3 v nd myver mynode => Own N m v nd ∧ Loaded N m.tail myver mynode ∧ myver + 2 < N.length
  | .deq1 myver mynode => Loaded N m.head myver mynode
  | .deq2 next => next ∈ N
  | .sc1 k => ScOk N m k
  | .sc2 k pred_nd => ScOk N m k ∧ N[k.myver]? = some pred_nd
  | .sc3 k _ | .sc4 k _ _ => ScDone N m k
  | .sc5 k _ e => ScDone N m k ∧ e.ver = k.myver
  | .rel _ by_ => ByOk N m by_
  | .tag1 _ k | .tag2 _ k _ | .tag3 _ k _ _ => ContOk N m k
  | .tag4 _ k _ _ nlP => ContOk N m k ∧ nlP = false
  | .tag5 _ k pre => ContOk N m k ∧ pre.nlP = false ∧ pre.toBeFreed = false

def Ctx.owns : Ctx → Option ℕ
  | .enq _ nd => some nd
  | .deq => none

def ScCall.owns (k : ScCall) : Option ℕ := if k.own then none else k.ctx.owns

def RelBy.owns : RelBy → Option ℕ
  | .sc k _ => k.owns
  | .unlink => none

def Cont.owns : Cont → Option ℕ
  | .transfer _ k _ => k.owns
  | .release _ by_ | .setNLPred _ _ by_ => by_.owns
  | .setToBeFreed _ => none

/-- the node a thread has created and not linked yet -/
def owns : Loc → Option ℕ
  | .idle | .ret _ _ | .enq0 _ | .deq1 _ _ | .deq2 _ | .unl1 _ _ | .unl2 _ _ _ | .unl3 _ _ => none
  | .ll1 c | .ll2 c _ | .ll3 c _ | .ll4 c _ _ => c.owns
  | .enq1 _ nd _ _ | .enq2 _ nd _ _ | .enq3 _ nd _ _ => some nd
  | .sc1 k | .sc2 k _ | .sc3 k _ | .sc4 k _ _ | .sc5 k _ _ => k.owns
  | .rel _ by_ => by_.owns
  | .tag1 _ k | .tag2 _ k _ | .tag3 _ k _ _ | .tag4 _ k _ _ _ | .tag5 _ k _ => k.owns

/-- different threads own different nodes -/
def Disj (l l' : Loc) : Prop := ∀ n, owns l = some n → owns l' ≠ some n

/-! ## Stability -/

section Stable

variable {N N' : List ℕ} {m m' : Mem} {o : Option ℕ}

/-- the private node of another thread: not linked by this step and not the stepping thread's own -/
def Apart (N' : List ℕ) (o own : Option ℕ) : Prop := ∀ n, own = some n → n ∉ N' ∧ o ≠ some n

variable (h : Ext N m N' m' o)

include h

theorem Own.stable {v : ℤ} (ho : Own N m v nd) (ha : Apart N' o (some nd)) : Own N' m' v nd := by
  obtain ⟨h1, h2, h3, h4, h5⟩ := ho
  obtain ⟨p1, p2, -⟩ := h.private_ nd h3 (ha nd rfl).1 (ha nd rfl).2
  exact ⟨(ha nd rfl).1, h2, lt_of_lt_of_le h3 h.fresh, p1.trans h4, p2.trans h5⟩

theorem CtxOk.stable (hc : CtxOk N m c) (ha : Apart N' o c.owns) : CtxOk N' m' c := by
  cases c with
  | enq v nd => exact Own.stable h hc ha
  | deq => trivial

theorem Loaded.stable (c : Ctx) {ver node : ℕ} (hl : Loaded N (m.var c) ver node) :
    Loaded N' (m'.var c) ver node := ⟨get_of_extends h.grows hl.1, hl.2.trans (h.ver c)⟩

theorem ScOk.stable (hk : ScOk N m k) (ha : Apart N' o k.owns) : ScOk N' m' k := by
  refine ⟨hk.1.stable h k.ctx, get_of_extends h.grows hk.2.1, fun e => (hk.2.2 e).stable h ?_⟩
  simpa [ScCall.owns, e] using ha

theorem ScDone.stable (hk : ScDone N m k) (ha : Apart N' o k.owns) : ScDone N' m' k := ⟨hk.1.stable h ha, h.inst _ _ hk.2⟩

theorem ByOk.stable (hb : ByOk N m b) (ha : Apart N' o b.owns) : ByOk N' m' b := by
  cases b with
  | sc k s => exact ScDone.stable h hb ha
  | unlink => trivial

theorem ContOk.stable {k : Cont} (hk : ContOk N m k) (ha : Apart N' o k.owns) : ContOk N' m' k := by
  cases k with
  | transfer c k s => exact ScDone.stable h hk ha
  | release p b => exact ByOk.stable h hk ha
  | setNLPred nd post b => exact ⟨ByOk.stable h hk.1 ha, hk.2⟩
  | setToBeFreed v => trivial

/-- **Stability.** The assertion of another thread is kept by every allowed step. -/
theorem Asrt.stable {l : Loc} (hl : Asrt N m l) (ha : Apart N' o (owns l)) : Asrt N' m' l := by
  have htail : ∀ {ver node : ℕ}, Loaded N m.tail ver node → Loaded N' m'.tail ver node :=
    fun h' => Loaded.stable h (.enq 0 0) h'
  have hhead : ∀ {ver node : ℕ}, Loaded N m.head ver node → Loaded N' m'.head ver node :=
    fun h' => Loaded.stable h .deq h'
  cases l with
  | idle | ret _ _ | enq0 _ | unl1 _ _ | unl2 _ _ _ | unl3 _ _ => trivial
  | ll1 c => exact CtxOk.stable h hl ha
  | ll2 c ver | ll3 c e => exact ⟨hl.1.stable h ha, hl.2.trans (h.ver c)⟩
  | ll4 c e node =>
    refine ⟨hl.1.stable h ha, hl.2.1.trans (h.ver c), fun he => ?_⟩
    exact get_of_extends h.grows (hl.2.2 (le_antisymm (he ▸ h.ver c) hl.2.1))
  | enq1 v nd myver mynode => exact ⟨hl.1.stable h ha, htail hl.2⟩
  | enq2 v nd myver mynode =>
    refine ⟨hl.1.stable h ha, htail hl.2.1, ?_⟩
    exact (h.private_ nd hl.1.2.2.1 (ha nd rfl).1 (ha nd rfl).2).2.2.trans hl.2.2
  | enq3 v nd myver mynode => exact ⟨hl.1.stable h ha, htail hl.2.1, lt_of_lt_of_le hl.2.2 h.grows.length_le⟩
  | deq1 myver mynode => exact hhead hl
  | deq2 next => exact h.grows.subset hl
  | sc1 k => exact ScOk.stable h hl ha
  | sc2 k p => exact ⟨hl.1.stable h ha, get_of_extends h.grows hl.2⟩
  | sc3 k s | sc4 k s v => exact ScDone.stable h hl ha
  | sc5 k s e | tag4 nd k c t n | tag5 nd k pre => exact ⟨hl.1.stable h ha, hl.2⟩
  | rel nd b => exact ByOk.stable h hl ha
  | tag1 nd k | tag2 nd k c | tag3 nd k c t => exact ContOk.stable h hl ha

end Stable

/-! ## Private nodes -/

variable {N : List ℕ} {m m' : Mem} {n : ℕ}

theorem CtxOk.owned (h : CtxOk N m c) (hn : c.owns = some n) : n ∉ N ∧ n < m.fresh := by
  cases c with
  | enq v nd => cases hn; exact ⟨h.1, h.2.2.1⟩
  | deq => cases hn

theorem ScOk.owned (h : ScOk N m k) (hn : k.owns = some n) : n ∉ N ∧ n < m.fresh := by
  unfold ScCall.owns at hn
  split_ifs at hn with ho
  exact (h.2.2 (by simpa using ho)).owned hn

theorem ByOk.owned (h : ByOk N m b) (hn : b.owns = some n) : n ∉ N ∧ n < m.fresh := by
  cases b with
  | sc k s => exact h.1.owned hn
  | unlink => cases hn

theorem ContOk.owned {k : Cont} (h : ContOk N m k) (hn : k.owns = some n) :
    n ∉ N ∧ n < m.fresh := by
  cases k with
  | transfer c k s | setNLPred nd post b => exact h.1.owned hn
  | release p b => exact ByOk.owned h hn
  | setToBeFreed v => cases hn

/-- an owned node is allocated and not linked -/
theorem Asrt.owned {l : Loc} (h : Asrt N m l) (hn : owns l = some n) :
    n ∉ N ∧ n < m.fresh := by
  cases l with
  | ll1 c => exact CtxOk.owned h hn
  | ll2 c _ | ll3 c _ | ll4 c _ _ | sc2 k _ | sc3 k _ | sc4 k _ _ | tag4 _ k _ _ _ | tag5 _ k _ => exact h.1.owned hn
  | enq1 _ _ _ _ | enq2 _ _ _ _ | enq3 _ _ _ _ => exact CtxOk.owned (c := .enq _ _) h.1 hn
  | sc1 k => exact ScOk.owned h hn
  | sc5 k _ _ => exact h.1.1.owned hn
  | rel _ b => exact ByOk.owned h hn
  | tag1 _ k | tag2 _ k _ | tag3 _ k _ _ => exact ContOk.owned h hn
  | _ => cases hn

/-! ## What each write does -/

section Writes

variable {N : List ℕ} {m : Mem}

variable (h : Inv N m)

include h

/-- a write to one of the two variables that keeps it in step with the list -/
theorem setVar_inv {x : LLSCvar} (hx : VarOk N x)
    (hv : (m.var c).entry.ver ≤ x.entry.ver) (hi : ∀ v, Installed N (m.var c) v → Installed N x v) (o : Option ℕ) :
    Inv N (m.setVar c x) ∧ Ext N m N (m.setVar c x) o := by
  refine ⟨⟨h.nodup, by simpa using h.addr, by simpa using h.fresh, by simpa using h.pred, by simpa using h.next,
    ?_, ?_, by simpa using h.tags, by simpa using h.freed⟩,
    ⟨List.prefix_refl _, fun c' => ?_, fun c' v hv' => ?_, by simp, by simp, by simp⟩⟩
  · cases c
    · exact h.head
    · exact hx
  · cases c
    · exact hx
    · exact h.tail
  · rcases var_setVar m c c' x with ⟨e1, e2⟩ | e
    · rw [e1, e2]; exact hv
    · rw [e]
  · rcases var_setVar m c c' x with ⟨e1, e2⟩ | e
    · rw [e1]; rw [e2] at hv'; exact hi v hv'
    · rw [e]; exact hv'

/-- a cas on the entry tag that changes only the count -/
theorem setCount_inv (c : Ctx) (n : ℤ) (o : Option ℕ) :
    Inv N (m.setEntry c ⟨(m.var c).entry.ver, n⟩) ∧ Ext N m N (m.setEntry c ⟨(m.var c).entry.ver, n⟩) o :=
  setVar_inv h (x := { m.var c with entry := ⟨(m.var c).entry.ver, n⟩ }) ⟨(h.var c).cur, (h.var c).non⟩ le_rfl
    (fun _ hv => hv) o

/-- the slot cas of an SC: it can only succeed at the current version, before the successor is installed -/
theorem setSlot_inv (hk : ScOk N m k) (hp : N[k.myver]? = some p) (he : noncur (m.var k.ctx) k.myver = p) (o : Option ℕ) :
    (m.var k.ctx).entry.ver = k.myver ∧
    (Inv N (m.setVar k.ctx (setNoncur (m.var k.ctx) k.myver k.nd)) ∧
      Ext N m N (m.setVar k.ctx (setNoncur (m.var k.ctx) k.myver k.nd)) o) := by
  have hver := (h.var k.ctx).ver_of_noncur h.nodup hk.1.2 hp he
  refine ⟨hver, setVar_inv h ⟨?_, .inr ?_⟩ (by simp) (fun v hv => ?_) o⟩
  · have hcur := (h.var k.ctx).cur
    simpa [hver] using hcur
  · simpa [hver] using hk.2.1
  · rcases hv with hv | ⟨rfl, hv⟩
    · exact .inl (by simpa using hv)
    · exact .inr ⟨by simp, by simpa [hver] using hk.2.1⟩

/-- the cas that bumps the version: the installed successor becomes current -/
theorem bump_inv (hi : Installed N (m.var c) v) (hv : (m.var c).entry.ver = v)
    (o : Option ℕ) : Inv N (m.setEntry c ⟨v + 1, 0⟩) ∧ Ext N m N (m.setEntry c ⟨v + 1, 0⟩) o := by
  have hnon : N[v + 2]? = some (noncur (m.var c) v) := by
    rcases hi with h1 | ⟨-, h1⟩
    · omega
    · exact h1
  have hcur := (h.var c).cur
  rw [hv] at hcur
  refine setVar_inv h ⟨?_, .inl ?_⟩ (by simp only; omega) (fun w hw => .inl ?_) o
  · show N[v + 1 + 1]? = some (current _ (v + 1))
    rw [current_succ]; exact hnon
  · show N[v + 1]? = some (noncur _ (v + 1))
    rw [noncur_succ]; exact hcur
  · show w < v + 1
    rcases hw with hw | ⟨hw, -⟩ <;> omega

/-- a write that changes neither the variables nor what the linked nodes hold -/
theorem nodes_inv {o : Option ℕ} (hh : m'.head = m.head) (ht : m'.tail = m.tail)
    (hf : m.fresh ≤ m'.fresh) (hfr : m'.freed = m.freed)
    (hN : ∀ a ∈ N, (m'.node a).val = (m.node a).val ∧ (m'.node a).next = (m.node a).next ∧
      (m'.node a).pred = (m.node a).pred)
    (htags : ∀ a, (m'.node a).exit.nlP = false ∧ (m'.node a).exit.toBeFreed = false)
    (hp : ∀ a < m.fresh, o ≠ some a → (m'.node a).val = (m.node a).val ∧ (m'.node a).next = (m.node a).next ∧
      (m'.node a).pred = (m.node a).pred) : Inv N m' ∧ Ext N m N m' o := by
  have hvar : ∀ c, m'.var c = m.var c := fun c => by cases c <;> assumption
  refine ⟨⟨h.nodup, fun a ha => ⟨(h.addr a ha).1, lt_of_lt_of_le (h.addr a ha).2 hf⟩, lt_of_lt_of_le h.fresh hf,
    fun i a b ha hb => (hN b (mem_of_get hb)).2.2.trans (h.pred i a b ha hb),
    fun i a ha => (hN a (mem_of_get ha)).2.1.trans (h.next i a ha), hh ▸ h.head, ht ▸ h.tail, htags,
    hfr.trans h.freed⟩,
    ⟨List.prefix_refl _, fun c => by rw [hvar], fun c v => by rw [hvar]; exact id, hf, fun a ha => (hN a ha).1,
      fun a ha _ => hp a ha⟩⟩

theorem createNode_inv (v : ℤ) (o : Option ℕ) : Inv N (createNode m v) ∧ Ext N m N (createNode m v) o := by
  have hold : ∀ a < m.fresh, (createNode m v).node a = m.node a := fun a ha => update_of_ne ha.ne _ _
  refine nodes_inv h rfl rfl (Nat.le_succ _) rfl (fun a ha => ?_) (fun a => ?_) (fun a ha _ => ?_)
  · rw [hold a (h.addr a ha).2]; exact ⟨rfl, rfl, rfl⟩
  · by_cases ha : a = m.fresh
    · subst ha; simp [createNode]
    · have : (createNode m v).node a = m.node a := update_of_ne ha _ _
      rw [this]; exact h.tags a
  · rw [hold a ha]; exact ⟨rfl, rfl, rfl⟩

theorem own_createNode (v : ℤ) : Own N (createNode m v) v m.fresh := by
  refine ⟨h.not_mem_fresh, h.fresh, Nat.lt_succ_self _, ?_, ?_⟩ <;> simp [createNode]

/-- the store to `pred` of a private node -/
theorem setPred_inv {v : ℤ} (ho : Own N m v nd) (p : ℕ) :
    Inv N (setPred m nd p) ∧ Ext N m N (setPred m nd p) (some nd) := by
  have hold : ∀ a, a ≠ nd → (setPred m nd p).node a = m.node a := fun a ha => update_of_ne ha _ _
  refine nodes_inv h rfl rfl le_rfl rfl (fun a ha => ?_) (fun a => ?_) (fun a _ ha => ?_)
  · rw [hold a fun e => ho.1 (e ▸ ha)]; exact ⟨rfl, rfl, rfl⟩
  · by_cases ha : a = nd
    · subst ha; simpa [setPred] using h.tags a
    · rw [hold a ha]; exact h.tags a
  · rw [hold a fun e => ha (e ▸ rfl)]; exact ⟨rfl, rfl, rfl⟩

/-- a successful cas on an exit tag -/
theorem casExit_inv (nd : ℕ) (post : ExitTag) (o : Option ℕ) :
    Inv N (casExit m nd post) ∧ Ext N m N (casExit m nd post) o := by
  have hold : ∀ a, ((casExit m nd post).node a).val = (m.node a).val ∧
      ((casExit m nd post).node a).next = (m.node a).next ∧ ((casExit m nd post).node a).pred = (m.node a).pred := by
    intro a
    by_cases ha : a = nd
    · subst ha; simp [casExit]
    · simp [casExit, update_of_ne ha]
  refine nodes_inv h rfl rfl le_rfl rfl (fun a _ => hold a) (fun a => ?_) (fun a _ _ => hold a)
  by_cases ha : a = nd
  · subst ha; simpa [casExit] using h.tags a
  · simpa [casExit, update_of_ne ha] using h.tags a

/-- the successful cas on `tail->next`: the private node becomes the last one -/
theorem link_inv {v : ℤ} {myver mynode : ℕ} (ho : Own N m v nd) (ht : N[myver + 1]? = some mynode)
    (hp : (m.node nd).pred = mynode) (hn : (m.node mynode).next = NULL) :
    Inv (N ++ [nd]) (setNext m mynode nd) ∧ Ext N m (N ++ [nd]) (setNext m mynode nd) (some nd) := by
  have hlast := h.next_null ht hn
  have hg : N <+: N ++ [nd] := List.prefix_append _ _
  have hold : ∀ a, a ≠ mynode → (setNext m mynode nd).node a = m.node a := fun a ha => update_of_ne ha _ _
  have hsame : ∀ a, ((setNext m mynode nd).node a).val = (m.node a).val ∧
      ((setNext m mynode nd).node a).pred = (m.node a).pred ∧
      ((setNext m mynode nd).node a).exit = (m.node a).exit := by
    intro a
    by_cases ha : a = mynode
    · subst ha; simp [setNext]
    · rw [hold a ha]; exact ⟨rfl, rfl, rfl⟩
  have hne : nd ≠ mynode := fun e => ho.1 (e ▸ mem_of_get ht)
  refine ⟨⟨nodup_snoc h.nodup ho.1, fun a ha => ?_, h.fresh, fun i a b ha hb => ?_, fun i a ha => ?_, h.head.grow hg,
    h.tail.grow hg, fun a => ?_, h.freed⟩,
    ⟨hg, fun c => le_rfl, fun c v hv => hv.grow hg, le_rfl, fun a _ => (hsame a).1, fun a _ ha hne' => ?_⟩⟩
  · rcases List.mem_append.1 ha with ha | ha
    · exact h.addr a ha
    · rw [List.mem_singleton] at ha; subst ha; exact ⟨ho.2.1, ho.2.2.1⟩
  · rw [(hsame b).2.1]
    rcases get_snoc hb with hb | ⟨hi, rfl⟩
    · have := lt_of_get hb
      rw [List.getElem?_append_left (by omega)] at ha
      exact h.pred i a b ha hb
    · have hi' : i = myver + 1 := by omega
      subst hi'
      rw [get_of_extends hg ht] at ha
      exact hp.trans (Option.some.inj ha)
  · rcases get_snoc ha with ha | ⟨hi, rfl⟩
    · by_cases e : a = mynode
      · subst e
        have := pos_inj h.nodup ha ht
        obtain rfl : i = myver := by omega
        simp [setNext, hlast]
      · have hi : i ≠ myver := by
          rintro rfl; rw [ha] at ht; exact e (Option.some.inj ht)
        have := lt_of_get ha
        rw [hold a e, h.next i a ha, List.getElem?_append_left (by omega)]
    · rw [hold a hne, ho.2.2.2.2, List.getElem?_eq_none (by simp; omega)]; rfl
  · rw [(hsame a).2.2]; exact h.tags a
  · have hne'' : a ≠ mynode := fun e => ha (hg.subset (e ▸ mem_of_get ht))
    rw [hold a hne'']; exact ⟨rfl, rfl, rfl⟩

end Writes

/-! ## One step -/

/-- d nodes have been taken: the other slot of `q->head` tells whether the SC of its version has succeeded -/
def Taken (N : List ℕ) (x : LLSCvar) (d : ℕ) : Prop :=
  (d = x.entry.ver ∧ N[d]? = some (noncur x x.entry.ver)) ∨
  (d = x.entry.ver + 1 ∧ N[d + 1]? = some (noncur x x.entry.ver))

/-- what one step of a thread guarantees to the others, with the list after it -/
structure Guar (N : List ℕ) (m : Mem) (l : Loc) (N' : List ℕ) (m' : Mem) (l' : Loc) : Prop where
  inv : Inv N' m'
  ext : Ext N m N' m' (owns l)
  asrt : Asrt N' m' l'
  linked : ∀ n ∈ N', n ∉ N → owns l = some n
  owned : ∀ n, owns l' = some n → owns l = some n ∨ n = m.fresh

/-- what a step does to the queue: nothing, a private node is linked at the end, or the next node is taken -/
def Effect (N : List ℕ) (m : Mem) (l : Loc) (N' : List ℕ) (m' : Mem) (a : Act) : Prop :=
  (N' = N ∧ (∀ d, Taken N m.head d → Taken N m'.head d) ∧ linkEvent m l a = none ∧ takeEvent m l a = none) ∨
  (∃ v n, N' = N ++ [n] ∧ m'.head = m.head ∧ (m'.node n).val = v ∧ linkEvent m l a = some v ∧ takeEvent m l a = none) ∨
  (∃ v n d, N' = N ∧ Taken N m.head d ∧ Taken N m'.head (d + 1) ∧ N[d + 2]? = some n ∧ (m.node n).val = v ∧
    linkEvent m l a = none ∧ takeEvent m l a = some v)

/-- a step keeps the invariant and has one of the three effects -/
def Safe (N : List ℕ) (m : Mem) (l : Loc) (m' : Mem) (l' : Loc) (a : Act) : Prop :=
  ∃ N', Guar N m l N' m' l' ∧ Effect N m l N' m' a

/-- the next step of thread t at l is safe -/
abbrev ExecSafe (N : List ℕ) (m : Mem) (l : Loc) : Prop := Safe N m l (exec m l).1 (exec m l).2 .step

section Exec

variable {N : List ℕ} {m : Mem} {l k : Loc} {a : Act}

variable {s : Bool} {c : Ctx} {mynode myver nd : ℕ} {v : ℤ}

/-- a step that writes nothing the queue depends on -/
theorem Safe.write (h : Inv N m' ∧ Ext N m N m' (owns l)) (ha : Asrt N m' k)
    (ho : ∀ n, owns k = some n → owns l = some n) (ht : ∀ d, Taken N m.head d → Taken N m'.head d)
    (h1 : linkEvent m l a = none) (h2 : takeEvent m l a = none) : Safe N m l m' k a :=
  ⟨N, ⟨h.1, h.2, ha, fun _ => absurd, fun n hn => .inl (ho n hn)⟩, .inl ⟨rfl, ht, h1, h2⟩⟩

variable (h : Inv N m)

include h

theorem Safe.load (ha : Asrt N m k) (ho : ∀ n, owns k = some n → owns l = some n)
    (h1 : linkEvent m l a = none) (h2 : takeEvent m l a = none) : Safe N m l m k a :=
  Safe.write ⟨h, Ext.refl _ _ _⟩ ha ho (fun _ => id) h1 h2

omit h in
theorem nothing_owned (P : ℕ → Prop) : ∀ n, (none : Option ℕ) = some n → P n := nofun

omit h in
/-- the count of the entry tag does not matter to what has been taken -/
theorem taken_setCount (m : Mem) (c : Ctx) (n : ℤ) (d : ℕ) (h : Taken N m.head d) :
    Taken N (m.setEntry c ⟨(m.var c).entry.ver, n⟩).head d := by
  cases c <;> exact h

/-- the steps of LL -/
theorem exec_ll1 (ha : Asrt N m (.ll1 c)) : ExecSafe N m (.ll1 c) :=
  Safe.load h ⟨ha, le_rfl⟩ (fun _ => id) rfl rfl

theorem exec_ll3 (ha : Asrt N m (.ll3 c e)) : ExecSafe N m (.ll3 c e) := by
  refine Safe.load h ⟨ha.1, ha.2, fun he => ?_⟩ (fun _ => id) rfl rfl
  have hcur := (h.var c).cur
  rw [he] at hcur; exact hcur

theorem exec_ll4 {node : ℕ} (ha : Asrt N m (.ll4 c e node)) : ExecSafe N m (.ll4 c e node) := by
  simp only [ExecSafe, exec]
  split_ifs with he
  · subst he
    have hw := setCount_inv h c ((m.var c).entry.count + 1) c.owns
    have hL : Loaded N (m.var c) (m.var c).entry.ver node := ⟨ha.2.2 rfl, le_rfl⟩
    refine Safe.write hw ?_ ?_ (taken_setCount m c _) rfl rfl
    · cases c with
      | enq v nd => exact ⟨ha.1, hL⟩
      | deq => exact hL
    · cases c <;> exact fun _ => id
  · exact Safe.load h ha.1 (fun _ => id) rfl rfl

/-- the cas on `tail->next` -/
theorem exec_enq2 (ha : Asrt N m (.enq2 v nd myver mynode)) : ExecSafe N m (.enq2 v nd myver mynode) := by
  obtain ⟨ho, hL, hp⟩ := ha
  simp only [ExecSafe, exec]
  split_ifs with hn
  · obtain ⟨hI, hE⟩ := link_inv h ho hL.1 hp hn
    have hlast := h.next_null hL.1 hn
    have hnd : (N ++ [nd])[myver + 2]? = some nd := by rw [hlast]; simp
    have hne : nd ≠ mynode := fun e => ho.1 (e ▸ mem_of_get hL.1)
    refine ⟨N ++ [nd], ⟨hI, hE, ⟨hL.stable hE (.enq v nd), hnd, nofun⟩, fun k h1 h2 => ?_, ?_⟩,
      .inr (.inl ⟨v, nd, rfl, rfl, ?_, by simp [linkEvent, hn], rfl⟩)⟩
    · rcases List.mem_append.1 h1 with h1 | h1
      · exact absurd h1 h2
      · rw [List.mem_singleton] at h1; subst h1; rfl
    · exact nothing_owned _
    · show (update m.node mynode _ nd).val = v
      rw [update_of_ne hne, ho.2.2.2.1]
  · refine Safe.load h ⟨ho, hL, ?_⟩ (fun _ => id) (by simp [linkEvent, hn]) rfl
    exact lt_of_get (h.next_some hL.1 hn)

/-- the steps of `enq` outside LL and SC -/
theorem exec_enq3 (ha : Asrt N m (.enq3 v nd myver mynode)) : ExecSafe N m (.enq3 v nd myver mynode) := by
  obtain ⟨ho, hL, hlt⟩ := ha
  have hn : (m.node mynode).next ≠ NULL := fun e => by
    have := h.next_null hL.1 e; omega
  exact Safe.load h ⟨hL, h.next_some hL.1 hn, fun _ => ho⟩ (fun _ => id) rfl rfl

theorem exec_enq0 : ExecSafe N m (.enq0 v) := by
  have hw := createNode_inv h v none
  refine ⟨N, ⟨hw.1, hw.2, own_createNode h v, fun _ => absurd, fun n hn => .inr ?_⟩,
    .inl ⟨rfl, fun _ => id, rfl, rfl⟩⟩
  exact (Option.some.inj hn).symm

theorem exec_enq1 (ha : Asrt N m (.enq1 v nd myver mynode)) : ExecSafe N m (.enq1 v nd myver mynode) := by
  obtain ⟨⟨h1, h2, h3, h4, h5⟩, hL⟩ := ha
  have hw := setPred_inv h ⟨h1, h2, h3, h4, h5⟩ mynode
  refine Safe.write hw ⟨⟨h1, h2, h3, ?_, ?_⟩, hL, ?_⟩ (fun _ => id) (fun _ => id) rfl rfl
  · simpa [exec, setPred] using h4
  · simpa [exec, setPred] using h5
  · simp [exec, setPred]

/-- the load of `head->next` in `deq` -/
theorem exec_deq1 (ha : Asrt N m (.deq1 myver mynode)) : ExecSafe N m (.deq1 myver mynode) := by
  simp only [ExecSafe, exec]
  split_ifs with hn
  · exact Safe.load h (k := .unl1 _ _) trivial (nothing_owned _) rfl rfl
  · exact Safe.load h (k := .sc1 _) ⟨ha, h.next_some ha.1 hn, fun _ => trivial⟩ (nothing_owned _) rfl rfl

/-! ### SC -/

omit h in
theorem takeEvent_sc2 {k : ScCall} : takeEvent m (.sc2 k p) .step =
      if k.ctx = .deq ∧ noncur (m.var k.ctx) k.myver = p then some (m.node k.nd).val else none := by
  obtain ⟨c, nd, v, n, o⟩ := k
  cases c <;> simp [takeEvent, Mem.var]

theorem exec_sc1 {k : ScCall} (ha : Asrt N m (.sc1 k)) : ExecSafe N m (.sc1 k) := by
  refine Safe.load h ⟨ha, ?_⟩ (fun _ => id) rfl rfl
  have hlt := lt_of_get ha.1.1
  have hp : N[k.myver]? = some (N.get ⟨k.myver, by omega⟩) := List.getElem?_eq_getElem _
  rw [hp, h.pred _ _ _ hp ha.1.1]

/-- the slot cas: on `q->head` its success takes the next node -/
theorem exec_sc2 {k : ScCall} (ha : Asrt N m (.sc2 k p)) : ExecSafe N m (.sc2 k p) := by
  obtain ⟨hk, hp⟩ := ha
  simp only [ExecSafe, exec]
  split_ifs with he
  · obtain ⟨hver, hI, hE⟩ := setSlot_inv h hk hp he k.owns
    have hx : (m.setVar k.ctx (setNoncur (m.var k.ctx) k.myver k.nd)).var k.ctx =
        setNoncur (m.var k.ctx) k.myver k.nd := by
      cases k.ctx <;> rfl
    have hk' : ScOk N (m.setVar k.ctx (setNoncur (m.var k.ctx) k.myver k.nd)) k := by
      refine ⟨by rw [hx]; exact ⟨hk.1.1, by simpa using hk.1.2⟩, hk.2.1, fun e => ?_⟩
      have hc := hk.2.2 e
      revert hc
      cases k.ctx <;> exact id
    have hin : Installed N (setNoncur (m.var k.ctx) k.myver k.nd) k.myver :=
      .inr ⟨by simpa using hver.symm, by simpa using hk.2.1⟩
    refine ⟨N, ⟨hI, hE, ⟨hk', by rw [hx]; exact hin⟩, fun _ => absurd, fun n hn => .inl hn⟩, ?_⟩
    cases hc : k.ctx with
    | enq v nd => exact .inl ⟨rfl, fun _ => id, rfl, by simp [takeEvent_sc2, hc]⟩
    | deq =>
      rw [hc] at hver he
      refine .inr (.inr ⟨_, k.nd, k.myver, rfl, .inl ⟨hver.symm, ?_⟩, .inr ⟨?_, ?_⟩, hk.2.1, rfl, rfl, ?_⟩)
      · rw [show m.head.entry.ver = k.myver from hver]; exact hp.trans (congrArg some he.symm)
      · show k.myver + 1 = (setNoncur m.head k.myver k.nd).entry.ver + 1
        rw [setNoncur_entry, show m.head.entry.ver = k.myver from hver]
      · show N[k.myver + 1 + 1]? = some (noncur (setNoncur m.head k.myver k.nd)
          (setNoncur m.head k.myver k.nd).entry.ver)
        rw [setNoncur_entry, show m.head.entry.ver = k.myver from hver, noncur_setNoncur]
        exact hk.2.1
      · rw [takeEvent_sc2, if_pos ⟨hc, by rw [hc]; exact he⟩]
  · -- a failed slot cas: the successor is installed already, or the version has moved on
    refine Safe.load h ⟨hk, ?_⟩ (fun _ => id) rfl (by rw [takeEvent_sc2, if_neg fun e => he e.2])
    rcases hk.1.2.lt_or_eq with hlt | heq
    · exact .inl hlt
    · refine .inr ⟨heq, ?_⟩
      rcases (h.var k.ctx).non with hnon | hnon
      · rw [← heq, hp] at hnon; exact absurd (Option.some.inj hnon).symm he
      · rw [← heq] at hnon; exact hnon

theorem exec_sc4 {k : ScCall} {ver : ℕ} (ha : Asrt N m (.sc4 k s ver)) : ExecSafe N m (.sc4 k s ver) := by
  simp only [ExecSafe, exec]
  split_ifs with he
  · exact Safe.load h (k := .sc5 _ _ _) ⟨ha, he⟩ (fun _ => id) rfl rfl
  · exact Safe.load h (k := .rel _ _) ha (fun _ => id) rfl rfl

/-- the version bump does not change what has been taken -/
theorem taken_bump (hi : Installed N (m.var c) (m.var c).entry.ver) (d : ℕ)
    (ht : Taken N m.head d) : Taken N (m.setEntry c ⟨(m.var c).entry.ver + 1, 0⟩).head d := by
  cases c with
  | enq v nd => exact ht
  | deq =>
    have hin : N[m.head.entry.ver + 2]? = some (noncur m.head m.head.entry.ver) := by
      rcases hi with hi | hi
      · exact absurd hi (lt_irrefl _)
      · exact hi.2
    refine .inl ?_
    show d = m.head.entry.ver + 1 ∧ N[d]? = some (noncur _ (m.head.entry.ver + 1))
    rw [noncur_succ]
    rcases ht with ⟨rfl, ht⟩ | ⟨rfl, -⟩
    · have := pos_inj h.nodup ht hin; omega
    · exact ⟨rfl, h.head.cur⟩

theorem exec_sc5 {k : ScCall} (ha : Asrt N m (.sc5 k s e)) : ExecSafe N m (.sc5 k s e) := by
  obtain ⟨hk, hv⟩ := ha
  simp only [ExecSafe, exec]
  split_ifs with he
  · subst he
    have hi := hk.2
    rw [← hv] at hi
    have hw := bump_inv h hi rfl k.owns
    refine Safe.write hw ?_ (fun _ => id) (taken_bump h hi) rfl rfl
    refine ⟨⟨hk.1.1.stable hw.2 k.ctx, hk.1.2.1, fun e => ?_⟩, hw.2.inst _ _ hk.2⟩
    have hc := hk.1.2.2 e
    revert hc
    cases k.ctx <;> exact id
  · exact Safe.load h hk (fun _ => id) rfl rfl

omit h

/-! ### The exit tags -/

theorem asrt_afterSC {k : ScCall} (h : ScDone N m k) : Asrt N m (afterSC k s) := by
  have hn := mem_of_get h.1.2.1
  have hc := h.1.2.2
  obtain ⟨c, nd, v, n, o⟩ := k
  cases c with
  | enq v nd =>
    cases o with
    | true => trivial
    | false => exact hc rfl
  | deq =>
    cases s with
    | true => exact hn
    | false => trivial

theorem owns_afterSC {k : ScCall} (n : ℕ) (h : owns (afterSC k s) = some n) : k.owns = some n := by
  obtain ⟨c, nd, v, n, o⟩ := k
  cases c <;> cases o <;> cases s <;> exact h

theorem asrt_afterRelease (h : ByOk N m b) : Asrt N m (afterRelease b) := by
  cases b with
  | sc k s => exact asrt_afterSC h
  | unlink => trivial

theorem owns_afterRelease (n : ℕ) (h : owns (afterRelease b) = some n) : b.owns = some n := by
  cases b with
  | sc k s => exact owns_afterSC n h
  | unlink => cases h

/-- no new exit tag is freeable: `nlP` and `toBeFreed` were false in memory and at most one of them is set -/
theorem freeable_post (k : Cont) (h1 : pre.nlP = false) (h2 : pre.toBeFreed = false) : freeable (k.post pre) = false := by
  cases k <;> simp [freeable, Cont.post, h1, h2]

/-- what comes after the cas of the loop on an exit tag: nothing is freed -/
theorem afterTag_safe (nd : ℕ) {k : Cont} (hk : ContOk N m k) (hf : freeable (k.post pre) = false) :
    (afterTag m nd (k.post pre) k).1 = m ∧ Asrt N m (afterTag m nd (k.post pre) k).2 ∧
      ∀ n, owns (afterTag m nd (k.post pre) k).2 = some n → k.owns = some n := by
  have hfree : freeIf m (k.post pre) nd = m := by simp [freeIf, hf]
  cases k with
  | transfer c k s => exact ⟨rfl, hk, fun _ => id⟩
  | release p b =>
    simp only [afterTag, hfree]
    split_ifs
    · exact ⟨rfl, ⟨hk, hf⟩, fun _ => id⟩
    · exact ⟨rfl, asrt_afterRelease hk, owns_afterRelease⟩
  | setNLPred nd' post b =>
    have hfree' : freeIf m post nd' = m := by simp [freeIf, hk.2]
    simp only [afterTag, hfree, hfree']
    exact ⟨trivial, asrt_afterRelease hk.1, owns_afterRelease⟩
  | setToBeFreed v =>
    simp only [afterTag, hfree]
    exact ⟨trivial, trivial, nothing_owned _⟩

theorem exec_tag5 (h : Inv N m) {k : Cont} (ha : Asrt N m (.tag5 nd k pre)) : ExecSafe N m (.tag5 nd k pre) := by
  obtain ⟨hk, h1, h2⟩ := ha
  simp only [ExecSafe, exec]
  split_ifs with he
  · have hk' : ContOk N (casExit m nd (k.post pre)) k :=
      hk.stable (casExit_inv h nd (k.post pre) none).2 fun n hn => ⟨(hk.owned hn).1, nofun⟩
    obtain ⟨e1, e2, e3⟩ := afterTag_safe nd hk' (freeable_post k h1 h2)
    rw [e1]
    exact Safe.write (casExit_inv h nd _ _) e2 e3 (fun _ => id) rfl rfl
  · exact Safe.load h hk (fun _ => id) rfl rfl

/-! ### unlink -/

theorem exec_unl3 (h : Inv N m) : ExecSafe N m (.unl3 mynode e) := by
  simp only [ExecSafe, exec]
  split_ifs with he
  · subst he
    exact Safe.write (setCount_inv h .deq _ _) (k := .ret _ _) trivial (nothing_owned _) (taken_setCount m .deq _)
      rfl rfl
  · exact Safe.load h (k := .rel _ _) trivial (nothing_owned _) rfl rfl

/-- **One step inside a call**, at each program point -/
theorem exec_safe (h : Inv N m) (ha : Asrt N m l) : ExecSafe N m l := by
  cases l with
  | idle | ret op r => exact Safe.load h ha (fun _ => id) rfl rfl
  | enq0 v => exact exec_enq0 h
  | ll1 c => exact exec_ll1 h ha
  | ll2 c ver => exact Safe.load h ⟨ha.1, ha.2⟩ (fun _ => id) rfl rfl
  | ll3 c e => exact exec_ll3 h ha
  | ll4 c e node => exact exec_ll4 h ha
  | enq1 v nd myver mynode => exact exec_enq1 h ha
  | enq2 v nd myver mynode => exact exec_enq2 h ha
  | enq3 v nd myver mynode => exact exec_enq3 h ha
  | deq1 myver mynode => exact exec_deq1 h ha
  | deq2 next => exact Safe.load h (k := .tag1 _ _) trivial (nothing_owned _) rfl rfl
  | sc1 k => exact exec_sc1 h ha
  | sc2 k p => exact exec_sc2 h ha
  | sc3 k s => exact Safe.load h (k := .sc4 _ _ _) ha (fun _ => id) rfl rfl
  | sc4 k s ver => exact exec_sc4 h ha
  | sc5 k s e => exact exec_sc5 h ha
  | rel nd b => exact Safe.load h (k := .tag1 _ _) ha (fun _ => id) rfl rfl
  | tag1 nd k => exact Safe.load h (k := .tag2 _ _ _) ha (fun _ => id) rfl rfl
  | tag2 nd k c => exact Safe.load h (k := .tag3 _ _ _ _) ha (fun _ => id) rfl rfl
  | tag3 nd k c left => exact Safe.load h ⟨ha, (h.tags nd).1⟩ (fun _ => id) rfl rfl
  | tag4 nd k c left nlP => exact Safe.load h ⟨ha.1, ha.2, (h.tags nd).2⟩ (fun _ => id) rfl rfl
  | tag5 nd k pre => exact exec_tag5 h ha
  | unl1 myver mynode => exact Safe.load h (k := .unl2 _ _ _) trivial (nothing_owned _) rfl rfl
  | unl2 myver mynode ver =>
    simp only [ExecSafe, exec]
    split_ifs
    · exact Safe.load h (k := .unl1 _ _) trivial (nothing_owned _) rfl rfl
    · exact Safe.load h (k := .unl3 _ _) trivial (nothing_owned _) rfl rfl
  | unl3 mynode e => exact exec_unl3 h

/-- **One step**, whatever the action -/
theorem step_safe (t : ℕ) (a : Act) (h : Inv N m) (ha : Asrt N m l) :
    Safe N m l (step t m l a).1 (step t m l a).2 a := by
  cases a with
  | invoke op =>
    simp only [step]
    refine Safe.load h ?_ ?_ rfl rfl
    · split_ifs
      · cases op <;> trivial
      · exact ha
    · split_ifs
      · cases op <;> exact nothing_owned _
      · exact fun _ => id
  | oom =>
    simp only [step]
    split
    · exact Safe.load h (k := .ret _ _) trivial (nothing_owned _) rfl rfl
    · exact Safe.load h ha (fun _ => id) rfl rfl
  | step => exact exec_safe h ha

end Exec

/-! ## Every run -/

theorem inv_init : Inv [2, 1] initQueue := by
  refine ⟨by decide, by simp [initQueue], by simp [initQueue], ?_, ?_, ⟨rfl, .inl rfl⟩, ⟨rfl, .inl rfl⟩,
    fun a => ?_, rfl⟩
  · intro i a b ha hb
    have := lt_of_get hb
    obtain rfl : i = 0 := by simp at this; omega
    cases ha; cases hb; rfl
  · intro i a ha
    have := lt_of_get ha
    obtain rfl : i = 0 := by simp at this; omega
    cases ha; rfl
  · simp only [initQueue]; split_ifs <;> exact ⟨rfl, rfl⟩

/-- one step keeps the assertions of the other threads and the disjointness of private nodes -/
theorem Guar.others {l l' l2 : Loc} (hg : Guar N m l N' m' l') (h2 : Asrt N m l2)
    (hd : Disj l l2) (hd' : Disj l2 l) : Asrt N' m' l2 ∧ Disj l' l2 ∧ Disj l2 l' := by
  refine ⟨h2.stable hg.ext fun n hn => ⟨fun hN => ?_, hd' n hn⟩, Sys.owned_disj hg.owned hd fun _ hn => (h2.owned hn).2⟩
  exact hd' n hn (hg.linked n hN (h2.owned hn).1)

/-- **The invariant holds in every reachable state.** -/
theorem inv_run (ls : List (ℕ × Act)) : Sys.Good Inv (fun N _ => Asrt N) Disj (sys.run ls) := by
  refine Sys.run_inv sys _ _ _ ⟨[2, 1], inv_init, fun _ => trivial⟩ nofun ?_ ls
  intro N t m l a h ha
  obtain ⟨N', hg, -⟩ := step_safe t a h ha
  exact ⟨N', hg.inv, hg.asrt, fun u l2 _ h2 hd hd' => hg.others h2 hd hd'⟩

end AlgorithmCollection.LLSCLockFreeQueue
