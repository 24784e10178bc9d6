/-
What `LockFreeSkiplist` keeps of the nodes added to its bottom level.

`search` reads the successor of a node before it reads the node's mark. If another thread adds a node behind it and a third
one marks it between the two reads, the search then snips the marked node together with the new one: `add_lost` is such a
run of three threads. `adds_kept` is about the runs in which this does not happen, that is, in which no `_delete` marks the
`tower[0]` of a node while another thread stands between its two reads of that `tower[0]`. In these runs every node added
stays reachable from head through `tower[0]` until a `_delete` marks it there.

The keys play no part in the proof. The links of marked nodes are frozen, so a snip under the condition takes out exactly
the marked node (`Reach.unlink`), and the bottom-level cas of `_add` puts the new node behind an unmarked one, which is
reachable (`Reach.insert`). `Later` says what a step of one thread leaves to the others.
-/
import AlgorithmCollection.List.LockFreeSkiplistThreads

namespace AlgorithmCollection.LockFreeSkiplist

open Conc
open Function (update update_self update_of_ne update_eq_self)

variable {ws : Workspace} {c : Caller}

/-! ## The condition -/

/-- action a of a thread at l is allowed beside a thread at o -/
def Allowed (s : Shared) (l : Loc) (a : Act) (o : Loc) : Prop :=
  match a, l, o with
  | .step, .dCas _ _ victim succ, .mark _ _ 0 _ curr _ => ref s.mem 0 victim = ⟨.UNMARKED, succ⟩ → curr ≠ victim
  | _, _, _ => True

instance Allowed.decidable (s : Shared) (l : Loc) (a : Act) (o : Loc) : Decidable (Allowed s l a o) := by
  unfold Allowed; split <;> infer_instance

/-! ## Invariant -/

/-- the nodes of the list: head, tail and what has been added -/
def Known (s : Shared) (a : ℕ) : Prop := a = s.mem.head ∨ a = s.mem.tail ∨ a ∈ s.added

/-- what a pointer may be -/
def Ptr (s : Shared) (a : ℕ) : Prop := a = NULL ∨ Known s a

structure Inv (s : Shared) : Prop where
  closed : ∀ a, Ptr s a → ∀ level, Ptr s (nx s.mem level a)
  alloc : ∀ a, Ptr s a → a < s.mem.fresh
  null : ¬ Known s NULL
  reach : ∀ a, Known s a → mk s.mem 0 a = .UNMARKED → Reach (nx s.mem 0) s.mem.head a
  marks : ∀ a ∈ s.added, mk s.mem 0 a = .MARKED → a ∈ s.marked

def WsOk (s : Shared) (ws : Workspace) : Prop := ∀ level, Ptr s (ws.preds level) ∧ Ptr s (ws.succs level)

def Caller.Ok (s : Shared) : Caller → Prop
  | .link _ _ _ n level => Known s n ∧ 0 < level
  | _ => True

/-- n is a new node of the calling thread that no other thread can reach -/
structure Private (s : Shared) (n succ : ℕ) : Prop where
  ne : n ≠ NULL
  alloc : n < s.mem.fresh
  unknown : ¬ Known s n
  bottom : ref s.mem 0 n = ⟨.UNMARKED, succ⟩
  links : ∀ level, Ptr s (nx s.mem level n)

/-- what a thread knows at each of its points -/
def At (s : Shared) : Loc → Prop
  | .idle | .ret _ | .dVal _ => True
  | .start c ws => c.Ok s ∧ WsOk s ws
  | .first c ws _ pred => (c.Ok s ∧ WsOk s ws) ∧ Known s pred
  | .succ c ws _ pred curr => (c.Ok s ∧ WsOk s ws) ∧ Known s pred ∧ Ptr s curr
  | .mark c ws level pred curr succ =>
    (c.Ok s ∧ WsOk s ws) ∧ Known s pred ∧ Known s curr ∧ Ptr s succ ∧
      (level = 0 → mk s.mem 0 curr = .MARKED → nx s.mem 0 curr = succ)
  | .snip c ws level pred curr succ =>
    (c.Ok s ∧ WsOk s ws) ∧ Known s pred ∧ Known s curr ∧ Ptr s succ ∧
      (level = 0 → mk s.mem 0 curr = .MARKED ∧ nx s.mem 0 curr = succ)
  | .create _ _ _ ws => WsOk s ws ∧ Known s (ws.preds 0)
  | .bottom _ _ _ ws n => WsOk s ws ∧ Known s (ws.preds 0) ∧ Private s n (ws.succs 0)
  | .link _ _ _ ws n level => WsOk s ws ∧ Known s n ∧ 0 < level
  | .dSucc _ ws victim _ => WsOk s ws ∧ Ptr s victim
  | .dMark _ ws victim level succ | .dPut1 _ ws victim level succ => WsOk s ws ∧ Ptr s victim ∧ Ptr s succ ∧ 0 < level
  | .dPut2 _ ws victim level => WsOk s ws ∧ Ptr s victim ∧ 0 < level
  | .dCas _ ws victim succ | .dRe2 _ ws victim succ _ => WsOk s ws ∧ Ptr s victim ∧ Ptr s succ
  | .dRe1 _ ws victim _ => WsOk s ws ∧ Ptr s victim

/-- the node a thread has made and not yet linked -/
def newNode : Loc → Option ℕ
  | .bottom _ _ _ _ n => some n
  | _ => none

/-! ## What a step leaves to the other threads -/

/-- s' is the memory after a step that links the new node `pub` at the bottom level and marks `tower[0]` of `vic`, if it
does any of these -/
structure Later (s s' : Shared) (pub vic : Option ℕ) : Prop where
  known : ∀ a, Known s' a ↔ Known s a ∨ pub = some a
  fresh : s.mem.fresh ≤ s'.mem.fresh
  frozen : ∀ a, Known s a → mk s.mem 0 a = .MARKED → ref s'.mem 0 a = ref s.mem 0 a
  marks : ∀ a, Known s a → mk s.mem 0 a = .UNMARKED → mk s'.mem 0 a = .MARKED → vic = some a
  rest : ∀ n, n ≠ NULL → n < s.mem.fresh → ¬ Known s n → ∀ level, ref s'.mem level n = ref s.mem level n

namespace Later

variable {s s' : Shared} {pub vic : Option ℕ}

protected theorem refl (s : Shared) : Later s s none none :=
  ⟨fun a => by simp, le_rfl, fun _ _ _ => rfl, fun _ _ h1 h2 => by simp [h1] at h2, fun _ _ _ _ _ => rfl⟩

variable (h : Later s s' pub vic)

include h

theorem mono {a : ℕ} (ha : Known s a) : Known s' a := (h.known a).2 (.inl ha)

theorem ptr {a : ℕ} (ha : Ptr s a) : Ptr s' a := ha.imp_right h.mono

theorem wsOk (hw : WsOk s ws) : WsOk s' ws :=
  fun level => ⟨h.ptr (hw level).1, h.ptr (hw level).2⟩

theorem caller (hc : c.Ok s) : c.Ok s' := by
  cases c with
  | link k v top n level => exact ⟨h.mono hc.1, hc.2⟩
  | _ => trivial

theorem search (hc : c.Ok s ∧ WsOk s ws) : c.Ok s' ∧ WsOk s' ws := ⟨h.caller hc.1, h.wsOk hc.2⟩

theorem priv {n succ : ℕ} (hp : Private s n succ) (hn : pub ≠ some n) : Private s' n succ where
  ne := hp.ne
  alloc := hp.alloc.trans_le h.fresh
  unknown hk := ((h.known n).1 hk).elim hp.unknown hn
  bottom := by rw [h.rest n hp.ne hp.alloc hp.unknown]; exact hp.bottom
  links level := by
    unfold nx
    rw [h.rest n hp.ne hp.alloc hp.unknown]
    exact h.ptr (hp.links level)

/-- the assertion of another thread is stable, if its new node is not the one linked and it does not stand between its two
reads of the node marked -/
theorem stable {l : Loc} (hl : At s l) (hn : ∀ n, newNode l = some n → pub ≠ some n)
    (hm : ∀ c ws pred curr succ, l = .mark c ws 0 pred curr succ → vic ≠ some curr) : At s' l := by
  cases l with
  | idle | ret r | dVal v => trivial
  | start c ws => exact h.search hl
  | first c ws level pred => exact ⟨h.search hl.1, h.mono hl.2⟩
  | succ c ws level pred curr => exact ⟨h.search hl.1, h.mono hl.2.1, h.ptr hl.2.2⟩
  | mark c ws level pred curr succ =>
    obtain ⟨hc, hp, hk, hs, hf⟩ := hl
    refine ⟨h.search hc, h.mono hp, h.mono hk, h.ptr hs, ?_⟩
    rintro rfl hmk
    cases hold : LockFreeSkiplist.mk s.mem 0 curr with
    | MARKED =>
      unfold nx
      rw [h.frozen curr hk hold]
      exact hf rfl hold
    | UNMARKED => exact absurd (h.marks curr hk hold hmk) (hm c ws pred curr succ rfl)
  | snip c ws level pred curr succ =>
    obtain ⟨hc, hp, hk, hs, hf⟩ := hl
    refine ⟨h.search hc, h.mono hp, h.mono hk, h.ptr hs, fun h0 => ?_⟩
    obtain ⟨h1, h2⟩ := hf h0
    unfold LockFreeSkiplist.mk nx
    rw [h.frozen curr hk h1]
    exact ⟨h1, h2⟩
  | create k v top ws => exact ⟨h.wsOk hl.1, h.mono hl.2⟩
  | bottom k v top ws n => exact ⟨h.wsOk hl.1, h.mono hl.2.1, h.priv hl.2.2 (hn n rfl)⟩
  | link k v top ws n level => exact ⟨h.wsOk hl.1, h.mono hl.2.1, hl.2.2⟩
  | dSucc k ws victim level | dRe1 k ws victim ok => exact ⟨h.wsOk hl.1, h.ptr hl.2⟩
  | dMark k ws victim level succ
  | dPut1 k ws victim level succ => exact ⟨h.wsOk hl.1, h.ptr hl.2.1, h.ptr hl.2.2.1, hl.2.2.2⟩
  | dPut2 k ws victim level => exact ⟨h.wsOk hl.1, h.ptr hl.2.1, hl.2.2⟩
  | dCas k ws victim succ | dRe2 k ws victim succ ok => exact ⟨h.wsOk hl.1, h.ptr hl.2.1, h.ptr hl.2.2⟩

end Later

/-! ## The steps that change the memory -/

section Effects

variable {s : Shared} {a n pred curr succ level : ℕ} {r : Ref}

theorem ref_setRef_apply (m : Mem) (a level : ℕ) (r : Ref) (l x : ℕ) :
    ref (setRef m a level r) l x = if l = level ∧ x = a then r else ref m l x := by
  rw [ref_setRef]
  by_cases hl : l = level
  · subst hl
    by_cases hx : x = a <;> simp [hx]
  · simp [hl]

/-- a store above the bottom level -/
theorem upper_inv (h : Inv s) (hl : 0 < level) (ha : Ptr s a) (hr : Ptr s r.next) :
    Inv { s with mem := setRef s.mem a level r } ∧ Later s { s with mem := setRef s.mem a level r } none none := by
  have h0 : ref (setRef s.mem a level r) 0 = ref s.mem 0 := ref_setRef_of_ne hl.ne
  have hnx : nx (setRef s.mem a level r) 0 = nx s.mem 0 := by unfold nx; rw [h0]
  have hmk : mk (setRef s.mem a level r) 0 = mk s.mem 0 := by unfold mk; rw [h0]
  constructor
  · refine ⟨fun x hx l => ?_, h.alloc, h.null, fun x hx => ?_, fun x hx => ?_⟩
    · change Ptr s (ref (setRef s.mem a level r) l x).next
      rw [ref_setRef_apply]
      split
      · exact hr
      · exact h.closed x hx l
    · change mk (setRef s.mem a level r) 0 x = _ → Reach (nx (setRef s.mem a level r) 0) s.mem.head x
      rw [hmk, hnx]; exact h.reach x hx
    · change mk (setRef s.mem a level r) 0 x = _ → _
      rw [hmk]; exact h.marks x hx
  · refine ⟨fun x => by simp [Known, setRef], le_rfl, fun x _ _ => by rw [h0], fun x _ h1 h2 => ?_, fun x hx _ hu l => ?_⟩
    · change mk (setRef s.mem a level r) 0 x = _ at h2
      rw [hmk, h1] at h2; cases h2
    · rw [ref_setRef_apply, if_neg]
      rintro ⟨-, rfl⟩
      exact ha.elim hx hu

/-- a snip at the bottom level of a node that is marked, with the successor it has -/
theorem snip_inv (h : Inv s) (hp : Known s pred) (hs : Ptr s succ) (href : ref s.mem 0 pred = ⟨.UNMARKED, curr⟩)
    (hm : mk s.mem 0 curr = .MARKED) (hn : nx s.mem 0 curr = succ) :
    Inv { s with mem := setRef s.mem pred 0 ⟨.UNMARKED, succ⟩ } ∧
      Later s { s with mem := setRef s.mem pred 0 ⟨.UNMARKED, succ⟩ } none none := by
  have hpm : mk s.mem 0 pred = .UNMARKED := congrArg Ref.mark href
  have hpn : nx s.mem 0 pred = curr := congrArg Ref.next href
  have hnx : nx (setRef s.mem pred 0 ⟨.UNMARKED, succ⟩) 0 = update (nx s.mem 0) pred succ := nx_setRef
  have hmk : mk (setRef s.mem pred 0 ⟨.UNMARKED, succ⟩) 0 = mk s.mem 0 := by
    rw [mk_setRef, ← hpm, update_eq_self]
  constructor
  · refine ⟨fun x hx l => ?_, h.alloc, h.null, fun x hx => ?_, fun x hx => ?_⟩
    · change Ptr s (ref (setRef s.mem pred 0 ⟨.UNMARKED, succ⟩) l x).next
      rw [ref_setRef_apply]
      split
      · exact hs
      · exact h.closed x hx l
    · change mk (setRef s.mem pred 0 ⟨.UNMARKED, succ⟩) 0 x = _ →
        Reach (nx (setRef s.mem pred 0 ⟨.UNMARKED, succ⟩) 0) s.mem.head x
      rw [hmk, hnx, ← hn]
      intro hx0
      refine (h.reach x hx hx0).unlink hpn ?_
      rintro rfl
      rw [hm] at hx0; cases hx0
    · change mk (setRef s.mem pred 0 ⟨.UNMARKED, succ⟩) 0 x = _ → _
      rw [hmk]; exact h.marks x hx
  · refine ⟨fun x => by simp [Known, setRef], le_rfl, fun x _ hx => ?_, fun x _ h1 h2 => ?_, fun x hx _ hu l => ?_⟩
    · rw [ref_setRef_apply, if_neg]
      rintro ⟨-, rfl⟩
      rw [hpm] at hx; cases hx
    · change mk (setRef s.mem pred 0 ⟨.UNMARKED, succ⟩) 0 x = _ at h2
      rw [hmk, h1] at h2; cases h2
    · rw [ref_setRef_apply, if_neg]
      rintro ⟨-, rfl⟩
      exact hu hp

/-- the bottom-level cas of `_add` -/
theorem insert_inv (h : Inv s) (hp : Known s pred) (hn : Private s n succ) (href : ref s.mem 0 pred = ⟨.UNMARKED, succ⟩) :
    Inv { s with mem := setRef s.mem pred 0 ⟨.UNMARKED, n⟩, added := n :: s.added } ∧
      Later s { s with mem := setRef s.mem pred 0 ⟨.UNMARKED, n⟩, added := n :: s.added } (some n) none := by
  have hpm : mk s.mem 0 pred = .UNMARKED := congrArg Ref.mark href
  have hpn : nx s.mem 0 pred = succ := congrArg Ref.next href
  have hnm : mk s.mem 0 n = .UNMARKED := congrArg Ref.mark hn.bottom
  have hnn : nx s.mem 0 n = nx s.mem 0 pred := (congrArg Ref.next hn.bottom).trans hpn.symm
  have hne : n ≠ pred := fun e => hn.unknown (e ▸ hp)
  have hnx : nx (setRef s.mem pred 0 ⟨.UNMARKED, n⟩) 0 = update (nx s.mem 0) pred n := nx_setRef
  have hmk : mk (setRef s.mem pred 0 ⟨.UNMARKED, n⟩) 0 = mk s.mem 0 := by
    rw [mk_setRef, ← hpm, update_eq_self]
  have hL : Later s { s with mem := setRef s.mem pred 0 ⟨.UNMARKED, n⟩, added := n :: s.added } (some n) none := by
    refine ⟨fun x => ?_, le_rfl, fun x _ hx => ?_, fun x _ h1 h2 => ?_, fun x hx _ hu l => ?_⟩
    · simp only [Known, setRef, List.mem_cons, Option.some.injEq]
      tauto
    · rw [ref_setRef_apply, if_neg]
      rintro ⟨-, rfl⟩
      rw [hpm] at hx; cases hx
    · change mk (setRef s.mem pred 0 ⟨.UNMARKED, n⟩) 0 x = _ at h2
      rw [hmk, h1] at h2; cases h2
    · rw [ref_setRef_apply, if_neg]
      rintro ⟨-, rfl⟩
      exact hu hp
  have hnew := (hL.known n).2 (.inr rfl)
  -- a pointer of the new state is one of the old state or the new node
  have hcase : ∀ x, Ptr { s with mem := setRef s.mem pred 0 ⟨.UNMARKED, n⟩, added := n :: s.added } x → Ptr s x ∨ x = n := by
    rintro x (hx | hx)
    · exact .inl (.inl hx)
    · exact ((hL.known x).1 hx).imp .inr fun e => (Option.some.inj e).symm
  refine ⟨⟨fun x hx l => ?_, fun x hx => ?_, fun hk => ?_, fun x hx => ?_, fun x hx => ?_⟩, hL⟩
  · change Ptr _ (ref (setRef s.mem pred 0 ⟨.UNMARKED, n⟩) l x).next
    rw [ref_setRef_apply]
    split
    · exact .inr hnew
    · rcases hcase x hx with hx | rfl
      · exact hL.ptr (h.closed x hx l)
      · exact hL.ptr (hn.links l)
  · rcases hcase x hx with hx | rfl
    · exact h.alloc x hx
    · exact hn.alloc
  · exact ((hL.known NULL).1 hk).elim h.null fun e => hn.ne (Option.some.inj e)
  · change mk (setRef s.mem pred 0 ⟨.UNMARKED, n⟩) 0 x = _ → Reach (nx (setRef s.mem pred 0 ⟨.UNMARKED, n⟩) 0) s.mem.head x
    rw [hmk, hnx]
    intro hx0
    rcases (hL.known x).1 hx with hx | e
    · exact (h.reach x hx hx0).insert hnn hne
    · obtain rfl := Option.some.inj e
      exact (h.reach pred hp hpm).insert_new hnn hne
  · change mk (setRef s.mem pred 0 ⟨.UNMARKED, n⟩) 0 x = _ → _
    rw [hmk]
    intro hx0
    rcases List.mem_cons.1 hx with rfl | hx
    · rw [hnm] at hx0; cases hx0
    · exact h.marks x hx hx0

/-- the cas of `_delete` -/
theorem mark_inv (h : Inv s) (ha : Ptr s a) (href : ref s.mem 0 a = ⟨.UNMARKED, succ⟩) :
    Inv { s with mem := setRef s.mem a 0 ⟨.MARKED, succ⟩, marked := a :: s.marked } ∧
      Later s { s with mem := setRef s.mem a 0 ⟨.MARKED, succ⟩, marked := a :: s.marked } none (some a) := by
  have hmk0 : mk s.mem 0 a = .UNMARKED := congrArg Ref.mark href
  have hn0 : nx s.mem 0 a = succ := congrArg Ref.next href
  have hnx : nx (setRef s.mem a 0 ⟨.MARKED, succ⟩) 0 = nx s.mem 0 := by rw [nx_setRef, ← hn0, update_eq_self]
  have hmk : mk (setRef s.mem a 0 ⟨.MARKED, succ⟩) 0 = update (mk s.mem 0) a .MARKED :=
    mk_setRef
  constructor
  · refine ⟨fun x hx l => ?_, h.alloc, h.null, fun x hx => ?_, fun x hx => ?_⟩
    · change Ptr s (ref (setRef s.mem a 0 ⟨.MARKED, succ⟩) l x).next
      rw [ref_setRef_apply]
      split
      · rw [← hn0]; exact h.closed a ha 0
      · exact h.closed x hx l
    · change mk (setRef s.mem a 0 ⟨.MARKED, succ⟩) 0 x = _ →
        Reach (nx (setRef s.mem a 0 ⟨.MARKED, succ⟩) 0) s.mem.head x
      rw [hmk, hnx]
      intro hx0
      by_cases e : x = a
      · rw [e, update_self] at hx0; cases hx0
      · rw [update_of_ne e] at hx0; exact h.reach x hx hx0
    · change mk (setRef s.mem a 0 ⟨.MARKED, succ⟩) 0 x = _ → x ∈ a :: s.marked
      rw [hmk]
      intro hx0
      by_cases e : x = a
      · exact List.mem_cons.2 (.inl e)
      · rw [update_of_ne e] at hx0; exact List.mem_cons_of_mem _ (h.marks x hx hx0)
  · refine ⟨fun x => by simp [Known, setRef], le_rfl, fun x _ hx => ?_, fun x _ h1 h2 => ?_, fun x hx _ hu l => ?_⟩
    · rw [ref_setRef_apply, if_neg]
      rintro ⟨-, rfl⟩
      rw [hmk0] at hx; cases hx
    · change mk (setRef s.mem a 0 ⟨.MARKED, succ⟩) 0 x = _ at h2
      rw [hmk] at h2
      by_cases e : x = a
      · rw [e]
      · rw [update_of_ne e, h1] at h2; cases h2
    · rw [ref_setRef_apply, if_neg]
      rintro ⟨-, rfl⟩
      exact ha.elim hx hu

/-- the links of the new node, and those of the others -/
theorem ref_newTower (m : Mem) (top : ℕ) (k v : ℤ) (succs : ℕ → ℕ) (l x : ℕ) : ref (newTower m top k v succs) l x =
    if x = m.fresh then if l ≤ top then ⟨.UNMARKED, succs l⟩ else ⟨.MARKED, NULL⟩ else ref m l x := by
  have hrow : ref ((List.range (top + 1)).foldl (fill m.fresh succs) (createNode m top k v)) l =
      if l ∈ List.range (top + 1) then update (ref (createNode m top k v) l) m.fresh ⟨.UNMARKED, succs l⟩
      else ref (createNode m top k v) l :=
    foldl_rows ref (fun L row => update row m.fresh ⟨.UNMARKED, succs L⟩) (ref_fill m.fresh succs)
      (List.range (top + 1)) List.nodup_range (createNode m top k v) l
  unfold newTower
  rw [ref_setRef_apply, hrow]
  by_cases hx : x = m.fresh
  · subst hx
    by_cases hl : l ≤ top
    · have hmem : l ∈ List.range (top + 1) := List.mem_range.2 (Nat.lt_succ_of_le hl)
      rw [if_pos rfl, if_pos hl, if_pos hmem, update_self]
      split
      · rename_i e; rw [e.1]
      · rfl
    · have hmem : l ∉ List.range (top + 1) := fun h => hl (Nat.le_of_lt_succ (List.mem_range.1 h))
      have h0 : ¬ (l = 0 ∧ m.fresh = m.fresh) := fun e => hl (by omega)
      have hlt : ¬ l < top := fun h => hl h.le
      rw [if_pos rfl, if_neg hl, if_neg hmem, if_neg h0]
      simp only [ref, createNode, update_self, if_neg hlt]
  · rw [if_neg hx, if_neg fun e => hx e.2]
    have hold : ref (createNode m top k v) l x = ref m l x := by simp [ref, createNode, hx]
    split
    · rw [update_of_ne hx, hold]
    · exact hold

theorem newTower_rest (m : Mem) (top : ℕ) (k v : ℤ) (succs : ℕ → ℕ) :
    SameRest (createNode m top k v) (newTower m top k v succs) :=
  (sameRest_foldl (fill m.fresh succs) (fun _ _ => sameRest_setRef) (List.range (top + 1)) _).trans sameRest_setRef

/-- `create_node` and the filling in of the new tower -/
theorem create_inv (h : Inv s) (hw : WsOk s ws) (top : ℕ) (k v : ℤ) :
    Inv { s with mem := newTower s.mem top k v ws.succs } ∧
      Later s { s with mem := newTower s.mem top k v ws.succs } none none ∧
      Private { s with mem := newTower s.mem top k v ws.succs } s.mem.fresh (ws.succs 0) := by
  have hr := newTower_rest s.mem top k v ws.succs
  have href := ref_newTower s.mem top k v ws.succs
  generalize hm : newTower s.mem top k v ws.succs = m at hr href ⊢
  have hhead : m.head = s.mem.head := hr.head
  have htail : m.tail = s.mem.tail := hr.tail
  have hfresh : m.fresh = s.mem.fresh + 1 := hr.fresh
  have hK : ∀ x, Known { s with mem := m } x ↔ Known s x := by intro x; simp only [Known, hhead, htail]
  have hP : ∀ x, Ptr { s with mem := m } x ↔ Ptr s x := fun x => or_congr Iff.rfl (hK x)
  have hne : ∀ x, Ptr s x → x ≠ s.mem.fresh := fun x hx => (h.alloc x hx).ne
  have hkeep : ∀ x, Ptr s x → ∀ l, ref m l x = ref s.mem l x := fun x hx l => (href l x).trans (if_neg (hne x hx))
  have hmk : ∀ x, Known s x → mk m 0 x = mk s.mem 0 x := by intro x hx; unfold mk; rw [hkeep x (.inr hx)]
  refine ⟨⟨fun x hx l => ?_, fun x hx => ?_, fun hk => h.null ((hK _).1 hk), fun x hx hx0 => ?_, fun x hx hx0 => ?_⟩,
    ⟨fun x => by simp [hK], by change _ ≤ m.fresh; omega, fun x hx _ => hkeep x (.inr hx) 0, fun x hx h1 h2 => ?_,
      fun x _ hx _ l => ?_⟩, ?_⟩
  · rw [hP] at hx ⊢
    change Ptr s (ref m l x).next
    rw [hkeep x hx]
    exact h.closed x hx l
  · have := h.alloc x ((hP x).1 hx)
    change x < m.fresh
    omega
  · have hx' := (hK x).1 hx
    rw [hmk x hx'] at hx0
    change Reach (nx m 0) m.head x
    rw [hhead]
    refine (h.reach x hx' hx0).congr fun y hy => ?_
    -- what is reachable is known, so its link is as before
    have hy' : Ptr s y := hy.mem (S := {a | Ptr s a}) (.inr (.inl rfl)) fun a ha => h.closed a ha 0
    unfold nx
    rw [hkeep y hy']
  · rw [hmk x (.inr (.inr hx))] at hx0
    exact h.marks x hx hx0
  · rw [hmk x hx, h1] at h2; cases h2
  · exact (href l x).trans (if_neg (by omega))
  · refine ⟨?_, ?_, fun hk => ?_, ?_, fun l => ?_⟩
    · have := h.alloc NULL (.inl rfl)
      omega
    · change s.mem.fresh < m.fresh
      omega
    · exact hne _ (.inr ((hK _).1 hk)) rfl
    · exact (href 0 _).trans (by rw [if_pos rfl, if_pos (Nat.zero_le top)])
    · rw [hP]
      change Ptr s (ref m l s.mem.fresh).next
      rw [href, if_pos rfl]
      split
      · exact (hw l).2
      · exact .inl rfl

end Effects

/-! ## One step of a thread -/

/-- what a step of a thread from l to l' is known to do -/
structure Stepped (s : Shared) (l : Loc) (x : Shared × Loc) (pub vic : Option ℕ) : Prop where
  inv : Inv x.1
  later : Later s x.1 pub vic
  own : At x.1 x.2
  pub : ∀ n, pub = some n → newNode l = some n
  vic : ∀ a, vic = some a → ∃ k ws succ, l = .dCas k ws a succ ∧ ref s.mem 0 a = ⟨.UNMARKED, succ⟩
  new : ∀ n, newNode x.2 = some n → n = s.mem.fresh

section Steps

variable {s : Shared} {l l' : Loc}

/-- a step that only reads -/
theorem Stepped.read (h : Inv s) (hl : At s l') (hn : newNode l' = none) : Stepped s l (s, l') none none :=
  ⟨h, Later.refl s, hl, nofun, nofun, fun n e => by rw [hn] at e; cases e⟩

/-- a step that changes the memory and neither links a new node nor marks one -/
theorem Stepped.write {s' : Shared} (h : Inv s' ∧ Later s s' none none) (hl : At s' l') (hn : newNode l' = none) :
    Stepped s l (s', l') none none :=
  ⟨h.1, h.2, hl, nofun, nofun, fun n e => by rw [hn] at e; cases e⟩

theorem WsOk.update (hw : WsOk s ws) {pred curr : ℕ} (hp : Ptr s pred) (hc : Ptr s curr) (level : ℕ) :
    WsOk s ⟨update ws.preds level pred, update ws.succs level curr⟩ := by
  intro l
  by_cases e : l = level
  · subst e; simp only [update_self]; exact ⟨hp, hc⟩
  · simp only [update_of_ne e]; exact hw l

theorem At.next (hc : c.Ok s) (hw : WsOk s ws) (hp : Known s (ws.preds 0)) (found : Bool) :
    At s (c.next s.mem ws found) ∧ newNode (c.next s.mem ws found) = none := by
  cases c with
  | add k v top => cases found with
    | false => exact ⟨⟨hw, hp⟩, rfl⟩
    | true => exact ⟨trivial, rfl⟩
  | link k v top n level => exact ⟨⟨hw, hc.1, hc.2⟩, rfl⟩
  | delete k => cases found with
    | false => exact ⟨trivial, rfl⟩
    | true => exact ⟨⟨hw, (hw 0).2⟩, rfl⟩
  | clean k victim => exact ⟨trivial, rfl⟩

theorem At.advance (hc : c.Ok s ∧ WsOk s ws) {pred curr succ : ℕ} (hp : Known s pred)
    (hk : Known s curr) (hs : Ptr s succ) (level : ℕ) :
    At s (advance s.mem c ws level pred curr succ) ∧ newNode (advance s.mem c ws level pred curr succ) = none := by
  unfold LockFreeSkiplist.advance
  split
  · exact ⟨⟨hc, hk, hs⟩, rfl⟩
  · have hw := hc.2.update (.inr hp) (.inr hk) level
    cases level with
    | zero =>
      refine At.next hc.1 hw ?_ _
      simp only [update_self]
      exact hp
    | succ level => exact ⟨⟨⟨hc.1, hw⟩, hp⟩, rfl⟩

/-- **One step.** -/
theorem exec_step (h : Inv s) (hl : At s l) : ∃ pub vic, Stepped s l (exec s l) pub vic := by
  cases l with
  | idle | ret r | dVal victim => exact ⟨none, none, .read h trivial rfl⟩
  | start c ws => exact ⟨none, none, .read h ⟨hl, .inl rfl⟩ rfl⟩
  | first c ws level pred => exact ⟨none, none, .read h ⟨hl.1, hl.2, h.closed pred (.inr hl.2) level⟩ rfl⟩
  | succ c ws level pred curr =>
    simp only [exec]
    split
    · exact ⟨none, none, .read h hl rfl⟩
    · rename_i hne
      obtain ⟨hc, hp, hk⟩ := hl
      refine ⟨none, none, .read h ⟨hc, hp, hk.resolve_left hne, h.closed curr hk level, ?_⟩ rfl⟩
      rintro rfl -; rfl
  | mark c ws level pred curr succ =>
    obtain ⟨hc, hp, hk, hs, hf⟩ := hl
    simp only [exec]
    split
    · rename_i hm
      refine ⟨none, none, .read h ⟨hc, hp, hk, hs, ?_⟩ rfl⟩
      rintro rfl
      exact ⟨hm, hf rfl hm⟩
    · obtain ⟨h1, h2⟩ := At.advance hc hp hk hs level
      exact ⟨none, none, .read h h1 h2⟩
  | snip c ws level pred curr succ =>
    obtain ⟨hc, hp, hk, hs, hf⟩ := hl
    simp only [exec, cas]
    by_cases href : ref s.mem level pred = ⟨.UNMARKED, curr⟩
    · rw [if_pos href]
      refine ⟨none, none, ?_⟩
      rcases Nat.eq_zero_or_pos level with rfl | hlev
      · obtain ⟨hm, hn⟩ := hf rfl
        have hx := snip_inv h hp hs href hm hn
        exact .write hx ⟨hx.2.search hc, hx.2.mono hp⟩ rfl
      · have hx := upper_inv (r := ⟨.UNMARKED, succ⟩) h hlev (.inr hp) hs
        exact .write hx ⟨hx.2.search hc, hx.2.mono hp⟩ rfl
    · rw [if_neg href]
      exact ⟨none, none, .read h hc rfl⟩
  | create k v top ws =>
    obtain ⟨hw, hp⟩ := hl
    obtain ⟨h1, h2, h3⟩ := create_inv h hw top k v
    refine ⟨none, none, h1, h2, ⟨h2.wsOk hw, h2.mono hp, h3⟩, nofun, nofun, ?_⟩
    rintro n ⟨rfl⟩; rfl
  | bottom k v top ws n =>
    obtain ⟨hw, hp, hn⟩ := hl
    simp only [exec, cas]
    by_cases href : ref s.mem 0 (ws.preds 0) = ⟨.UNMARKED, ws.succs 0⟩
    · rw [if_pos href]
      obtain ⟨h1, h2⟩ := insert_inv h hp hn href
      exact ⟨some n, none, h1, h2, ⟨h2.wsOk hw, (h2.known n).2 (.inr rfl), Nat.zero_lt_one⟩, fun _ e => e,
        nofun, nofun⟩
    · rw [if_neg href]
      exact ⟨none, none, .read h ⟨trivial, hw⟩ rfl⟩
  | link k v top ws n level =>
    obtain ⟨hw, hn, hlev⟩ := hl
    simp only [exec, cas]
    split
    · by_cases href : ref s.mem level (ws.preds level) = ⟨.UNMARKED, ws.succs level⟩
      · rw [if_pos href]
        have hx := upper_inv (r := ⟨.UNMARKED, n⟩) h hlev (hw level).1 (.inr hn)
        exact ⟨none, none, .write hx ⟨hx.2.wsOk hw, hx.2.mono hn, Nat.succ_pos _⟩ rfl⟩
      · rw [if_neg href]
        exact ⟨none, none, .read h ⟨⟨hn, hlev⟩, hw⟩ rfl⟩
    · exact ⟨none, none, .read h trivial rfl⟩
  | dSucc k ws victim level =>
    obtain ⟨hw, hv⟩ := hl
    cases level with
    | zero => exact ⟨none, none, .read h ⟨hw, hv, h.closed victim hv 0⟩ rfl⟩
    | succ level => exact ⟨none, none, .read h ⟨hw, hv, h.closed victim hv _, Nat.succ_pos _⟩ rfl⟩
  | dMark k ws victim level succ =>
    simp only [exec]
    split
    · exact ⟨none, none, .read h hl rfl⟩
    · exact ⟨none, none, .read h ⟨hl.1, hl.2.1⟩ rfl⟩
  | dPut1 k ws victim level succ =>
    obtain ⟨hw, hv, hs, hlev⟩ := hl
    have hx := upper_inv (r := ⟨mk s.mem level victim, succ⟩) h hlev hv hs
    exact ⟨none, none, .write hx ⟨hx.2.wsOk hw, hx.2.ptr hv, hlev⟩ rfl⟩
  | dPut2 k ws victim level =>
    obtain ⟨hw, hv, hlev⟩ := hl
    have hx := upper_inv (r := ⟨.MARKED, nx s.mem level victim⟩) h hlev hv (h.closed victim hv level)
    exact ⟨none, none, .write hx ⟨hx.2.wsOk hw, hx.2.ptr hv⟩ rfl⟩
  | dCas k ws victim succ =>
    obtain ⟨hw, hv, hs⟩ := hl
    simp only [exec, cas]
    by_cases href : ref s.mem 0 victim = ⟨.UNMARKED, succ⟩
    · rw [if_pos href]
      obtain ⟨h1, h2⟩ := mark_inv h hv href
      refine ⟨none, some victim, h1, h2, ⟨h2.wsOk hw, h2.ptr hv⟩, nofun, ?_, nofun⟩
      rintro a ⟨rfl⟩
      exact ⟨k, ws, succ, rfl, href⟩
    · rw [if_neg href]
      exact ⟨none, none, .read h ⟨hw, hv⟩ rfl⟩
  | dRe1 k ws victim ok => exact ⟨none, none, .read h ⟨hl.1, hl.2, h.closed _ (hl.1 0).2 0⟩ rfl⟩
  | dRe2 k ws victim succ ok =>
    simp only [exec]
    split
    · exact ⟨none, none, .read h ⟨trivial, hl.1⟩ rfl⟩
    · split
      · exact ⟨none, none, .read h trivial rfl⟩
      · exact ⟨none, none, .read h hl rfl⟩

end Steps

/-! ## Runs -/

structure Good (s : St Shared Loc) : Prop where
  inv : Inv s.sh
  own : ∀ t, At s.sh (s.loc t)
  apart : ∀ t u n, newNode (s.loc t) = some n → newNode (s.loc u) = some n → t = u

theorem init_good (P : Params) : Good (sys P).init := by
  refine ⟨⟨fun a ha l => ?_, fun a ha => ?_, ?_, fun a ha _ => ?_, fun a ha => ?_⟩, fun _ => trivial, fun t u n h => ?_⟩
  · -- every link of head, tail and NULL is tail or NULL
    change Ptr _ (ref (initList P.maxLevel P.min P.max) l a).next
    unfold ref initList
    dsimp only
    split <;> dsimp only <;> split
    · exact .inr (.inr (.inl rfl))
    · exact .inl rfl
    · exact .inl rfl
    · exact .inl rfl
  · rcases ha with rfl | rfl | rfl | ha
    · exact Nat.succ_pos 2
    · exact (by decide : 1 < 3)
    · exact (by decide : 2 < 3)
    · exact absurd ha List.not_mem_nil
  · rintro (h | h | h)
    · exact absurd h (by decide : (0 : ℕ) ≠ 1)
    · exact absurd h (by decide : (0 : ℕ) ≠ 2)
    · exact absurd h List.not_mem_nil
  · rcases ha with rfl | rfl | ha
    · exact Reach.refl _ _
    · have h1 : nx (initList P.maxLevel P.min P.max) 0 1 = 2 := by simp [nx, ref, initList, P.pos]
      have h2 := (Reach.refl (nx (initList P.maxLevel P.min P.max) 0) 1).step
      rw [h1] at h2
      exact h2
    · exact absurd ha List.not_mem_nil
  · exact absurd ha List.not_mem_nil
  · cases h

theorem begin_at {s : Shared} (op : Op) : At s (begin s.mem op) ∧ newNode (begin s.mem op) = none := by
  cases op <;> exact ⟨⟨trivial, fun _ => ⟨.inl rfl, .inl rfl⟩⟩, rfl⟩

theorem next_good (P : Params) (s : St Shared Loc) (x : ℕ × Act) (h : Good s) (hC : Sys.Beside Allowed s x) :
    Good ((sys P).next s x) := by
  obtain ⟨t, a⟩ := x
  -- what the step does, with what it leaves to the others
  have hstep : (∃ pub vic, Stepped s.sh (s.loc t) ((sys P).step t s.sh (s.loc t) a) pub vic ∧
      ∀ v, vic = some v → a = .step) ∨ (sys P).step t s.sh (s.loc t) a = (s.sh, s.loc t) := by
    cases a with
    | invoke op =>
      by_cases hi : canInvoke P (s.loc t) op = true
      · have e : (sys P).step t s.sh (s.loc t) (.invoke op) = (s.sh, begin s.sh.mem op) := by
          simp only [sys, step, hi, if_true]
        rw [e]
        exact .inl ⟨none, none, .read h.inv (begin_at op).1 (begin_at op).2, nofun⟩
      · refine .inr ?_
        simp only [sys, step, hi, if_false, Bool.false_eq_true]
    | step =>
      obtain ⟨pub, vic, hs⟩ := exec_step h.inv (h.own t)
      exact .inl ⟨pub, vic, hs, fun _ _ => rfl⟩
  rcases hstep with ⟨pub, vic, hs, ha⟩ | hs
  · refine ⟨hs.inv, fun u => ?_, ?_⟩
    · by_cases hu : u = t
      · subst hu; rw [Sys.next_loc_self]; exact hs.own
      · rw [Sys.next_loc_ne _ _ _ hu]
        refine hs.later.stable (h.own u) (fun n hn hp => ?_) (fun c ws pred curr succ hm hv => ?_)
        · exact hu (h.apart u t n hn (hs.pub n hp))
        · -- the step marks the node this thread stands at: excluded
          obtain ⟨k, ws', succ', hl, href⟩ := hs.vic curr hv
          obtain rfl := ha curr hv
          have := hC u hu
          simp only [hl, hm] at this
          exact this href rfl
    · -- a new node is at an address that no other thread has
      have hfresh : ∀ u n, newNode (s.loc u) = some n → n < s.sh.mem.fresh := by
        intro u n hn
        have := h.own u
        cases hu : s.loc u with
        | bottom k v top ws n' =>
          rw [hu] at hn this
          obtain rfl := Option.some.inj hn
          exact this.2.2.alloc
        | _ => rw [hu] at hn; exact nomatch hn
      intro u v n hu hv
      by_cases hut : u = t
      · by_cases hvt : v = t
        · rw [hut, hvt]
        · subst hut
          rw [Sys.next_loc_self] at hu
          rw [Sys.next_loc_ne _ _ _ hvt] at hv
          have := hfresh v n hv
          have := hs.new n hu
          omega
      · rw [Sys.next_loc_ne _ _ _ hut] at hu
        by_cases hvt : v = t
        · subst hvt
          rw [Sys.next_loc_self] at hv
          have := hfresh u n hu
          have := hs.new n hv
          omega
        · rw [Sys.next_loc_ne _ _ _ hvt] at hv
          exact h.apart u v n hu hv
  · rw [(sys P).next_eq_self hs]; exact h

/-- **No successful add is lost.** In every run under the condition, in every state reached, every node whose bottom-level
cas has succeeded and that no `_delete` has marked is reachable from head through `tower[0]`. -/
theorem adds_kept (P : Params) (ls : List (ℕ × Act)) (h : (sys P).Meets (Sys.Beside Allowed) ls) :
    AddsKept ((sys P).run ls).sh := by
  have hg := (sys P).meets_inv _ Good (init_good P) (fun s x => next_good P s x) ls h
  intro a ha hm
  refine hg.inv.reach a (.inr (.inr ha)) ?_
  cases hmk : mk ((sys P).run ls).sh.mem 0 a with
  | MARKED => exact absurd (hg.inv.marks a ha hmk) hm
  | UNMARKED => rfl

/-! ## A node lost with its predecessor -/

def oneLevel : Params := ⟨1, Nat.one_pos, 0, 10⟩

/-- `add(5)` returns; `add(9)` of thread 1 has read the successor and the mark of node 5 when thread 2 adds 7 behind it and
marks it -/
def readTogether : List (ℕ × Act) :=
  callSteps 0 (.add 5 0 0) 7 ++ callSteps 1 (.add 9 0 0) 4 ++ callSteps 2 (.add 7 0 0) 9 ++ callSteps 2 (.delete 5) 6 ++
    List.replicate 3 (1, .step)

theorem adds_kept_together :
    ((sys oneLevel).run readTogether).sh.added = [4, 3] ∧ ((sys oneLevel).run readTogether).sh.marked = [3] ∧
      AddsKept ((sys oneLevel).run readTogether).sh := by
  have hc : (sys oneLevel).Check Allowed 3 (sys oneLevel).init readTogether := by decide +kernel
  exact ⟨by decide +kernel, by decide +kernel, adds_kept oneLevel _ (Sys.meets_of_check _ _ hc)⟩

/-- the same calls, but thread 1 has read only the successor of node 5 when thread 2 adds 7 behind it and marks it -/
def readApart : List (ℕ × Act) :=
  callSteps 0 (.add 5 0 0) 7 ++ callSteps 1 (.add 9 0 0) 3 ++ callSteps 2 (.add 7 0 0) 9 ++ callSteps 2 (.delete 5) 6 ++
    List.replicate 2 (1, .step)

/-- **An add is lost.** Thread 1 snips node 5 with the successor it had before 7 was added. Node 7 was added and is not
marked, and head points to tail. -/
theorem add_lost :
    ((sys oneLevel).run readApart).sh.added = [4, 3] ∧ ((sys oneLevel).run readApart).sh.marked = [3] ∧
      ky ((sys oneLevel).run readApart).sh.mem 4 = 7 ∧ ¬ AddsKept ((sys oneLevel).run readApart).sh := by
  have hadd : ((sys oneLevel).run readApart).sh.added = [4, 3] := by decide +kernel
  have hmark : ((sys oneLevel).run readApart).sh.marked = [3] := by decide +kernel
  have hhead : ((sys oneLevel).run readApart).sh.mem.head = 1 := by decide +kernel
  have h0 : nx ((sys oneLevel).run readApart).sh.mem 0 0 = 0 := by decide +kernel
  have h1 : nx ((sys oneLevel).run readApart).sh.mem 0 1 = 2 := by decide +kernel
  have h2 : nx ((sys oneLevel).run readApart).sh.mem 0 2 = 0 := by decide +kernel
  refine ⟨hadd, hmark, by decide +kernel, fun h => ?_⟩
  have hr := h 4 (by simp [hadd]) (by simp [hmark])
  rw [hhead] at hr
  have : 4 ∈ ({0, 1, 2} : Set ℕ) := hr.mem (by simp) (by rintro a (rfl | rfl | rfl) <;> simp [h0, h1, h2])
  simp at this

end AlgorithmCollection.LockFreeSkiplist
