/-
The invariant of `LockFreeList` that the marks rest on, and what each write does to it.

The keys play no part in it. `Inv` describes the list by reachability: unmarked nodes are reachable from head, the list
ends, and a reachable node that points to a marked one is flagged. So the predecessor of a node is unique (`Reach.inj`),
which is why a node is flagged once. `Doomed prev del` is what the calls `helpFlagged(prev, del)` and `tryMark(del)` rest
on: the flag is there, or del is marked already. A flag goes away only when its node is marked.

`At` is what a thread knows at each of its points. A step of another thread leaves it true (`Later.stable`), unless the
thread stands between its reads of the fields of the `succ` that the step changes.
-/
import AlgorithmCollection.List.LockFreeList

namespace AlgorithmCollection.LockFreeList

open Conc
open Function (update update_self update_of_ne update_eq_self comp_update)

/-! ## Memory -/

section Memory

variable {m : Mem} {a p : ℕ} {r : Ref}

theorem ref_setRef : ref (setRef m a r) = update (ref m) a r := comp_update Node.succ m.node a _

theorem nx_setRef : nx (setRef m a r) = update (nx m) a r.ptr :=
  comp_update (fun n : Node => n.succ.ptr) m.node a _

theorem mark_setRef : mark (setRef m a r) = update (mark m) a r.mark :=
  comp_update (fun n : Node => n.succ.mark) m.node a _

theorem bl_setRef : bl (setRef m a r) = bl m :=
  (comp_update Node.backlink m.node a _).trans (update_eq_self a (bl m))

theorem ref_setBacklink : ref (setBacklink m a p) = ref m :=
  (comp_update Node.succ m.node a _).trans (update_eq_self a (ref m))

theorem bl_setBacklink : bl (setBacklink m a p) = update (bl m) a p :=
  comp_update Node.backlink m.node a _

end Memory

/-! ## Invariant -/

/-- the nodes of the list: head, tail and what has been added -/
def Known (m : Mem) (a : ℕ) : Prop := a = head ∨ a = tail ∨ a ∈ m.added

/-- what a pointer may be -/
def Ptr (m : Mem) (a : ℕ) : Prop := a = NULL ∨ Known m a

/-- some `succ` is (d, FLAGGED) -/
def Target (m : Mem) (d : ℕ) : Prop := ∃ p, Known m p ∧ ref m p = ⟨.FLAGGED, d⟩

structure Inv (m : Mem) : Prop where
  succ : ∀ a, Ptr m a → Ptr m (nx m a)
  backlink : ∀ a, Ptr m (bl m a)
  alloc : ∀ a, Ptr m a → a < m.fresh
  null : ¬ Known m NULL
  ends : nx m NULL = NULL
  marked : ∀ a, mark m a = .MARKED → Known m a
  last : Reach (nx m) head NULL
  reach : ∀ a, Known m a → mark m a ≠ .MARKED → Reach (nx m) head a
  pred : ∀ p, Reach (nx m) head p → mark m (nx m p) = .MARKED → mark m p = .FLAGGED
  none : ∀ d, ¬ Target m d → mark m d ≠ .MARKED → flagCount m d = 0
  once : ∀ d, Target m d ∨ mark m d = .MARKED → flagCount m d = 1

/-- what `helpFlagged(prev, del)` rests on -/
def Doomed (m : Mem) (prev del : ℕ) : Prop := ref m prev = ⟨.FLAGGED, del⟩ ∨ mark m del = .MARKED

/-- n is a new node that no other thread can reach -/
structure Private (m : Mem) (n : ℕ) : Prop where
  ne : n ≠ NULL
  alloc : n < m.fresh
  unknown : ¬ Known m n

def Caller.Ok (m : Mem) : Caller → Prop
  | .again _ _ n => Private m n
  | _ => True

def Helper.Ok (m : Mem) : Helper → Prop
  | .flagged _ _ n => Private m n
  | .failed _ _ n prev => Private m n ∧ Known m prev
  | .delete _ _ => True

/-- a call `helpFlagged(prev, del)` past its first store -/
structure Helps (m : Mem) (h : Helper) (fs : List (ℕ × ℕ)) (prev del : ℕ) : Prop where
  caller : h.Ok m
  frames : ∀ f ∈ fs, Known m f.1 ∧ Known m f.2 ∧ Doomed m f.1 f.2
  doomed : Doomed m prev del
  prev : Known m prev
  del : Known m del

/-- `searchFrom2` has seen that next is marked -/
structure Snips (m : Mem) (c : Caller) (curr next : ℕ) : Prop where
  caller : c.Ok m
  marked : mark m next = .MARKED
  curr : Known m curr
  next : Known m next

/-- what a thread knows at each of its points -/
def At (m : Mem) : Loc → Prop
  | .idle | .ret _ => True
  | .sFirst c => c.Ok m
  | .sKey c curr next | .sMark c curr next => c.Ok m ∧ Known m curr ∧ Ptr m next
  | .sCurr c curr next | .sNe c curr next | .sEq c curr next | .sAssert c curr next | .sNext c curr next =>
    Snips m c curr next
  | .sCas c curr next succ => Snips m c curr next ∧ nx m next = succ
  | .sReload c curr | .sAdvance c curr => c.Ok m ∧ Known m curr
  | .sTest c curr next => c.Ok m ∧ Known m curr ∧ Known m next
  | .create _ _ prev next => Known m prev ∧ Known m next
  | .aMark _ _ n prev next => Private m n ∧ Known m prev ∧ Known m next
  | .aPtr _ _ n prev next b => (Private m n ∧ Known m prev ∧ Known m next) ∧ mark m prev = b
  | .aCas _ _ n prev next => (Private m n ∧ Known m prev ∧ Known m next) ∧ ref m n = ⟨.NONE, next⟩
  | .rMark _ _ n prev | .aBack _ _ n prev => Private m n ∧ Known m prev
  | .rPtr _ _ n prev b => (Private m n ∧ Known m prev) ∧ mark m prev = b
  | .aWait _ _ n prev => Private m n ∧ Ptr m prev
  | .fPtr target prev | .fCas target prev | .gMark target prev | .fBack target prev => Known m target ∧ Known m prev
  | .fUnmarked target prev | .fFlagged target prev => (Known m target ∧ Known m prev) ∧ nx m prev = target
  | .gPtr target prev b => (Known m target ∧ Known m prev) ∧ mark m prev = b
  | .fWait target prev => Known m target ∧ Ptr m prev
  | .hBack h fs prev del =>
    h.Ok m ∧ (∀ f ∈ fs, Known m f.1 ∧ Known m f.2 ∧ Doomed m f.1 f.2) ∧ Known m prev ∧ Ptr m del ∧ Doomed m prev del
  | .hTest h fs prev del | .mNext h fs prev del | .mCas h fs prev del _ | .mMark h fs prev del
  | .mWhile h fs prev del =>
    Helps m h fs prev del
  | .mPtr h fs prev del b => Helps m h fs prev del ∧ mark m del = b
  | .hAssert h fs prev del | .hNext h fs prev del => Helps m h fs prev del ∧ mark m del = .MARKED
  | .hCas h fs prev del next => Helps m h fs prev del ∧ mark m del = .MARKED ∧ nx m del = next

/-- the new node of a thread -/
def Caller.newNode : Caller → Option ℕ
  | .again _ _ n => some n
  | _ => none

def Helper.newNode : Helper → Option ℕ
  | .flagged _ _ n | .failed _ _ n _ => some n
  | .delete _ _ => none

def newNode : Loc → Option ℕ
  | .sFirst c | .sKey c _ _ | .sMark c _ _ | .sCurr c _ _ | .sNe c _ _ | .sEq c _ _ | .sAssert c _ _ | .sNext c _ _
  | .sCas c _ _ _ | .sReload c _ | .sTest c _ _ | .sAdvance c _ => c.newNode
  | .aMark _ _ n _ _ | .aPtr _ _ n _ _ _ | .aCas _ _ n _ _ | .rMark _ _ n _ | .rPtr _ _ n _ _ | .aWait _ _ n _
  | .aBack _ _ n _ => some n
  | .hBack h _ _ _ | .hTest h _ _ _ | .mNext h _ _ _ | .mCas h _ _ _ _ | .mMark h _ _ _ | .mPtr h _ _ _ _
  | .mWhile h _ _ _ | .hAssert h _ _ _ | .hNext h _ _ _ | .hCas h _ _ _ _ => h.newNode
  | _ => none

/-! ## What a step leaves to the other threads -/

/-- the node of whose `succ` the thread has read one field and is about to read another -/
def between : Loc → Option ℕ
  | .aPtr _ _ _ prev _ _ | .rPtr _ _ _ prev _ | .gPtr _ prev _ | .fUnmarked _ prev | .fFlagged _ prev => some prev
  | .mPtr _ _ _ del _ => some del
  | _ => none

/-- m' comes after a step of a thread whose new node is `own` and that changes the `succ` of node `sw`, if any -/
structure Later (m m' : Mem) (own sw : Option ℕ) : Prop where
  mono : ∀ a, Known m a → Known m' a
  known : ∀ a, Known m' a → Known m a ∨ own = some a
  fresh : m.fresh ≤ m'.fresh
  same : ∀ a, Known m a → sw ≠ some a → ref m' a = ref m a
  frozen : ∀ a, Known m a → mark m a = .MARKED → ref m' a = ref m a
  flags : ∀ p d, Known m p → ref m p = ⟨.FLAGGED, d⟩ → Doomed m' p d
  rest : ∀ n, Private m n → own ≠ some n → ref m' n = ref m n

namespace Later

variable {m m' : Mem} {own sw : Option ℕ} {a n prev del : ℕ}

protected theorem refl (m : Mem) (own sw : Option ℕ) : Later m m own sw :=
  ⟨fun _ h => h, fun _ h => .inl h, le_rfl, fun _ _ _ => rfl, fun _ _ _ => rfl, fun _ _ _ h => .inl h, fun _ _ _ => rfl⟩

variable (h : Later m m' own sw)

include h

theorem ptr (ha : Ptr m a) : Ptr m' a := ha.imp_right (h.mono a)

theorem priv (hp : Private m n) (hn : own ≠ some n) : Private m' n :=
  ⟨hp.ne, hp.alloc.trans_le h.fresh, fun hk => (h.known n hk).elim hp.unknown hn⟩

theorem mark_eq (ha : Known m a) (hm : mark m a = .MARKED) : mark m' a = .MARKED := by
  unfold mark; rw [h.frozen a ha hm]; exact hm

theorem doomed (hp : Known m prev) (hd : Known m del) (hk : Doomed m prev del) : Doomed m' prev del :=
  hk.elim (h.flags prev del hp) fun hm => .inr (h.mark_eq hd hm)

/-- the bits alone say that the flag was there or that the node is marked -/
theorem doomed_ptr (hp : Known m prev) (hd : Ptr m del) (hnull : mark m NULL ≠ .MARKED)
    (hk : Doomed m prev del) : Doomed m' prev del := by
  rcases hk with hk | hm
  · exact h.flags prev del hp hk
  · rcases hd with rfl | hd
    · exact absurd hm hnull
    · exact .inr (h.mark_eq hd hm)

theorem caller {c : Caller} (hc : c.Ok m) (hn : ∀ n, c.newNode = some n → own ≠ some n) : c.Ok m' := by
  cases c with
  | again k v n => exact h.priv hc (hn n rfl)
  | _ => trivial

theorem helper {x : Helper} (hc : x.Ok m) (hn : ∀ n, x.newNode = some n → own ≠ some n) : x.Ok m' := by
  cases x with
  | flagged k v n => exact h.priv hc (hn n rfl)
  | failed k v n prev => exact ⟨h.priv hc.1 (hn n rfl), h.mono _ hc.2⟩
  | delete target r => trivial

theorem frames {fs : List (ℕ × ℕ)} (hf : ∀ f ∈ fs, Known m f.1 ∧ Known m f.2 ∧ Doomed m f.1 f.2) :
    ∀ f ∈ fs, Known m' f.1 ∧ Known m' f.2 ∧ Doomed m' f.1 f.2 := fun f hm =>
  ⟨h.mono _ (hf f hm).1, h.mono _ (hf f hm).2.1, h.doomed (hf f hm).1 (hf f hm).2.1 (hf f hm).2.2⟩

theorem helps {x : Helper} {fs : List (ℕ × ℕ)} (hh : Helps m x fs prev del)
    (hn : ∀ n, x.newNode = some n → own ≠ some n) : Helps m' x fs prev del :=
  ⟨h.helper hh.caller hn, h.frames hh.frames, h.doomed hh.prev hh.del hh.doomed, h.mono _ hh.prev, h.mono _ hh.del⟩

theorem snips {c : Caller} {curr next : ℕ} (hs : Snips m c curr next)
    (hn : ∀ n, c.newNode = some n → own ≠ some n) : Snips m' c curr next :=
  ⟨h.caller hs.caller hn, h.mark_eq hs.next hs.marked, h.mono _ hs.curr, h.mono _ hs.next⟩

/-- the assertion of another thread is stable, if its new node is another one and it does not stand between its reads of
the `succ` that changes -/
theorem stable (hnull : mark m NULL ≠ .MARKED) {l : Loc} (hl : At m l)
    (hn : ∀ n, newNode l = some n → own ≠ some n) (hb : ∀ p, between l = some p → sw ≠ some p) : At m' l := by
  cases l with
  | idle | ret r => trivial
  | sFirst c => exact h.caller hl hn
  | sKey c curr next | sMark c curr next => exact ⟨h.caller hl.1 hn, h.mono _ hl.2.1, h.ptr hl.2.2⟩
  | sCurr c curr next | sNe c curr next | sEq c curr next | sAssert c curr next | sNext c curr next =>
    exact h.snips hl hn
  | sCas c curr next succ =>
    refine ⟨h.snips hl.1 hn, ?_⟩
    unfold nx; rw [h.frozen next hl.1.next hl.1.marked]; exact hl.2
  | sReload c curr | sAdvance c curr => exact ⟨h.caller hl.1 hn, h.mono _ hl.2⟩
  | sTest c curr next => exact ⟨h.caller hl.1 hn, h.mono _ hl.2.1, h.mono _ hl.2.2⟩
  | create k v prev next
  | fPtr target prev | fCas target prev | gMark target prev | fBack target prev => exact ⟨h.mono _ hl.1, h.mono _ hl.2⟩
  | aMark k v n prev next => exact ⟨h.priv hl.1 (hn n rfl), h.mono _ hl.2.1, h.mono _ hl.2.2⟩
  | aPtr k v n prev next b =>
    obtain ⟨⟨h1, h2, h3⟩, h4⟩ := hl
    refine ⟨⟨h.priv h1 (hn n rfl), h.mono _ h2, h.mono _ h3⟩, ?_⟩
    unfold mark; rw [h.same prev h2 (hb prev rfl)]; exact h4
  | aCas k v n prev next =>
    obtain ⟨⟨h1, h2, h3⟩, h4⟩ := hl
    exact ⟨⟨h.priv h1 (hn n rfl), h.mono _ h2, h.mono _ h3⟩, by rw [h.rest n h1 (hn n rfl)]; exact h4⟩
  | rMark k v n prev | aBack k v n prev => exact ⟨h.priv hl.1 (hn n rfl), h.mono _ hl.2⟩
  | rPtr k v n prev b =>
    obtain ⟨⟨h1, h2⟩, h3⟩ := hl
    refine ⟨⟨h.priv h1 (hn n rfl), h.mono _ h2⟩, ?_⟩
    unfold mark; rw [h.same prev h2 (hb prev rfl)]; exact h3
  | aWait k v n prev => exact ⟨h.priv hl.1 (hn n rfl), h.ptr hl.2⟩
  | fUnmarked target prev | fFlagged target prev =>
    obtain ⟨⟨h1, h2⟩, h3⟩ := hl
    refine ⟨⟨h.mono _ h1, h.mono _ h2⟩, ?_⟩
    unfold nx; rw [h.same prev h2 (hb prev rfl)]; exact h3
  | gPtr target prev b =>
    obtain ⟨⟨h1, h2⟩, h3⟩ := hl
    refine ⟨⟨h.mono _ h1, h.mono _ h2⟩, ?_⟩
    unfold mark; rw [h.same prev h2 (hb prev rfl)]; exact h3
  | fWait target prev => exact ⟨h.mono _ hl.1, h.ptr hl.2⟩
  | hBack x fs prev del =>
    obtain ⟨h1, h2, h3, h4, h5⟩ := hl
    exact ⟨h.helper h1 hn, h.frames h2, h.mono _ h3, h.ptr h4, h.doomed_ptr h3 h4 hnull h5⟩
  | hTest x fs prev del | mNext x fs prev del | mCas x fs prev del next | mMark x fs prev del | mWhile x fs prev del =>
    exact h.helps hl hn
  | mPtr x fs prev del b =>
    refine ⟨h.helps hl.1 hn, ?_⟩
    unfold mark; rw [h.same del hl.1.del (hb del rfl)]; exact hl.2
  | hAssert x fs prev del | hNext x fs prev del => exact ⟨h.helps hl.1 hn, h.mark_eq hl.1.del hl.2⟩
  | hCas x fs prev del next =>
    refine ⟨h.helps hl.1 hn, h.mark_eq hl.1.del hl.2.1, ?_⟩
    unfold nx; rw [h.frozen del hl.1.del hl.2.1]; exact hl.2.2

end Later

/-! ## What the writes do to the list -/

section Effects

variable {m m' : Mem} {p n d t next : ℕ} {r : Ref}

theorem flagCount_cons (m : Mem) (d t x : ℕ) :
    flagCount { m with flags := (d, t) :: m.flags } x = flagCount m x + if d = x then 1 else 0 := by
  simp [flagCount, List.countP_cons]

variable (h : Inv m)

include h

/-- nodes that are reachable are nodes of the list -/
theorem reach_ptr {a : ℕ} (ha : Reach (nx m) head a) : Ptr m a :=
  ha.mem (S := {a | Ptr m a}) (.inr (.inl rfl)) h.succ

theorem null_unmarked : mark m NULL ≠ .MARKED := fun e => h.null (h.marked _ e)

/-- two nodes of the list that are not marked and point to the same node are one node -/
theorem pred_unique {q : ℕ} (hp : Reach (nx m) head p) (hq : Reach (nx m) head q) (e : nx m p = nx m q)
    (hne : nx m p ≠ NULL) : p = q :=
  h.last.inj h.ends hp hq e hne

theorem known_ne {a : ℕ} (ha : Known m a) : a ≠ NULL := fun e => h.null (e ▸ ha)

variable (hp : Known m p)

include hp

/-- a FLAGGED node is reachable -/
theorem flagged_reach (e : ref m p = ⟨.FLAGGED, d⟩) : Reach (nx m) head p :=
  h.reach p hp (by simp [mark, e])

/-- the store of a backlink -/
theorem backlink_inv (a : ℕ) : Inv (setBacklink m a p) where
  succ x hx := by unfold nx; rw [ref_setBacklink]; exact h.succ x hx
  backlink x := by
    rw [bl_setBacklink]
    by_cases e : x = a
    · subst e; rw [update_self]; exact .inr hp
    · rw [update_of_ne e]; exact h.backlink x
  alloc := h.alloc
  null := h.null
  ends := by unfold nx; rw [ref_setBacklink]; exact h.ends
  marked x hx := by unfold mark at hx; rw [ref_setBacklink] at hx; exact h.marked x hx
  last := by unfold nx; rw [ref_setBacklink]; exact h.last
  reach x hx hm := by
    unfold mark at hm; rw [ref_setBacklink] at hm
    unfold nx; rw [ref_setBacklink]; exact h.reach x hx hm
  pred := by unfold mark nx; rw [ref_setBacklink]; exact h.pred
  none x := by unfold mark Target; rw [ref_setBacklink]; exact h.none x
  once x := by unfold mark Target; rw [ref_setBacklink]; exact h.once x

omit hp in
omit h in
theorem backlink_later (m : Mem) (a p : ℕ) (own sw : Option ℕ) : Later m (setBacklink m a p) own sw where
  mono _ hx := hx
  known _ hx := .inl hx
  fresh := le_rfl
  same x _ _ := by rw [ref_setBacklink]
  frozen x _ _ := by rw [ref_setBacklink]
  flags q d _ e := .inl (by rw [ref_setBacklink]; exact e)
  rest x _ _ := by rw [ref_setBacklink]

omit hp in
/-- a write to a node that is not in the list -/
theorem outside_inv (hn : ¬ Ptr m n) (hr : r.mark = .NONE) (href : ref m' = update (ref m) n r)
    (hbl : ∀ a, bl m' a = bl m a ∨ bl m' a = NULL) (hadd : m'.added = m.added) (hfr : m.fresh ≤ m'.fresh)
    (hfl : m'.flags = m.flags) : Inv m' := by
  have hK : Known m' = Known m := by unfold Known; rw [hadd]
  have hP : Ptr m' = Ptr m := by unfold Ptr; rw [hK]
  have hC : flagCount m' = flagCount m := by unfold flagCount; rw [hfl]
  have hin : ∀ a, Ptr m a → ref m' a = ref m a := by
    intro a ha
    rw [href, update_of_ne]
    rintro rfl; exact hn ha
  have hnx : ∀ a, Ptr m a → nx m' a = nx m a := fun a ha => by unfold nx; rw [hin a ha]
  have hmk : ∀ a, Ptr m a → mark m' a = mark m a := fun a ha => by unfold mark; rw [hin a ha]
  have hmarked : ∀ a, mark m' a = .MARKED → mark m a = .MARKED := by
    intro a ha
    by_cases e : a = n
    · unfold mark at ha
      rw [href, e, update_self, hr] at ha
      cases ha
    · unfold mark at ha
      rwa [href, update_of_ne e] at ha
  have hto : ∀ a, Reach (nx m) head a → Reach (nx m') head a := fun a ha =>
    ha.congr fun b hb => hnx b (reach_ptr h hb)
  have hfrom : ∀ a, Reach (nx m') head a → Reach (nx m) head a := by
    intro a ha
    have hS : ∀ b, Reach (nx m') head b → Ptr m b := fun b hb =>
      hb.mem (S := {a | Ptr m a}) (.inr (.inl rfl)) fun c hc => by
        have hc' : Ptr m c := hc
        rw [Set.mem_ofPred_eq, hnx c hc']; exact h.succ c hc'
    exact ha.congr fun b hb => (hnx b (hS b hb)).symm
  have hT : Target m' = Target m := by
    funext d
    unfold Target
    rw [hK]
    exact propext (exists_congr fun q => and_congr_right fun hq => by rw [hin q (.inr hq)])
  refine ⟨fun a ha => ?_, fun a => ?_, fun a ha => ?_, ?_, ?_, fun a ha => ?_, hto _ h.last, fun a ha hm => ?_,
    fun q hq hm => ?_, fun d hd hm => ?_, fun d hd => ?_⟩
  · rw [hP] at ha ⊢; rw [hnx a ha]; exact h.succ a ha
  · rw [hP]
    rcases hbl a with e | e <;> rw [e]
    · exact h.backlink a
    · exact .inl rfl
  · rw [hP] at ha; exact (h.alloc a ha).trans_le hfr
  · rw [hK]; exact h.null
  · rw [hnx NULL (.inl rfl)]; exact h.ends
  · rw [hK]; exact h.marked a (hmarked a ha)
  · rw [hK] at ha
    exact hto a (h.reach a ha (by rwa [← hmk a (.inr ha)]))
  · have hq' := reach_ptr h (hfrom q hq)
    rw [hmk q hq']
    rw [hnx q hq'] at hm
    exact h.pred q (hfrom q hq) (hmarked _ hm)
  · rw [hT] at hd
    rw [hC]
    refine h.none d hd fun hm' => hm ?_
    rw [hmk d (.inr (h.marked d hm'))]; exact hm'
  · rw [hC]
    rw [hT] at hd
    exact h.once d (hd.imp_right (hmarked d))

omit hp in
omit h in
theorem outside_later (hn : ¬ Known m n) (own sw : Option ℕ) (hown : Private m n → own = some n)
    (href : ref m' = update (ref m) n r) (hadd : m'.added = m.added) (hfr : m.fresh ≤ m'.fresh) :
    Later m m' own sw := by
  have hK : Known m' = Known m := by unfold Known; rw [hadd]
  have hin : ∀ a, a ≠ n → ref m' a = ref m a := fun a ha => by rw [href, update_of_ne ha]
  have hne : ∀ a, Known m a → a ≠ n := by rintro a ha rfl; exact hn ha
  refine ⟨fun a ha => hK ▸ ha, fun a ha => .inl (hK ▸ ha), hfr, fun a ha _ => hin a (hne a ha),
    fun a ha _ => hin a (hne a ha), fun q d hq e => .inl (by rw [hin q (hne q hq)]; exact e), fun a ha ho => ?_⟩
  refine hin a ?_
  rintro rfl
  exact ho (hown ha)

/-- `add` links its node -/
theorem insert_inv (hn : Private m n) (er : ref m p = ⟨.NONE, next⟩)
    (en : ref m n = ⟨.NONE, next⟩) : Inv { setRef m p ⟨.NONE, n⟩ with added := n :: m.added } := by
  set m' : Mem := { setRef m p ⟨.NONE, n⟩ with added := n :: m.added } with hm'
  have hnp : n ≠ p := by rintro rfl; exact hn.unknown hp
  have hnx : nx m' = update (nx m) p n := nx_setRef (m := m) (a := p) (r := ⟨.NONE, n⟩)
  have hmk : mark m' = mark m := by
    have := mark_setRef (m := m) (a := p) (r := ⟨.NONE, n⟩)
    rw [show (⟨.NONE, n⟩ : Ref).mark = mark m p by simp [mark, er], update_eq_self] at this
    exact this
  have hbl : bl m' = bl m := bl_setRef (m := m) (a := p) (r := ⟨.NONE, n⟩)
  have hK : ∀ a, Known m' a ↔ Known m a ∨ a = n := by
    intro a
    simp only [Known, hm', List.mem_cons]
    tauto
  have hP : ∀ a, Ptr m' a ↔ Ptr m a ∨ a = n := by intro a; simp only [Ptr, hK, or_assoc]
  have hsame : nx m n = nx m p := by simp [nx, er, en]
  have hreach : Reach (nx m) head p := h.reach p hp (by simp [mark, er])
  have hT : ∀ d, Target m' d ↔ Target m d := by
    intro d
    have hr : ref m' = update (ref m) p ⟨.NONE, n⟩ := ref_setRef (m := m) (a := p) (r := ⟨.NONE, n⟩)
    constructor
    · rintro ⟨q, hq, e⟩
      rw [hr] at e
      by_cases eq : q = p
      · rw [eq, update_self] at e; cases e
      · rw [update_of_ne eq] at e
        rcases (hK q).1 hq with hq | rfl
        · exact ⟨q, hq, e⟩
        · rw [en] at e; cases e
    · rintro ⟨q, hq, e⟩
      refine ⟨q, (hK q).2 (.inl hq), ?_⟩
      rw [hr, update_of_ne, e]
      rintro rfl
      rw [er] at e; cases e
  refine ⟨fun a ha => ?_, fun a => ?_, fun a ha => ?_, ?_, ?_, fun a ha => ?_, ?_, fun a ha hm => ?_, fun q hq hm => ?_,
    fun d hd hm => ?_, fun d hd => ?_⟩
  · rw [hP, hnx]
    by_cases e : a = p
    · rw [e, update_self]; exact .inr rfl
    · rw [update_of_ne e]
      rcases (hP a).1 ha with ha | rfl
      · exact .inl (h.succ a ha)
      · rw [hsame]; exact .inl (h.succ p (.inr hp))
  · rw [hP, hbl]; exact .inl (h.backlink a)
  · rcases (hP a).1 ha with ha | rfl
    · exact h.alloc a ha
    · exact hn.alloc
  · rw [hK]
    rintro (h1 | h1)
    · exact h.null h1
    · exact hn.ne h1.symm
  · rw [hnx, update_of_ne (known_ne h hp).symm]; exact h.ends
  · rw [hmk] at ha
    exact (hK a).2 (.inl (h.marked a ha))
  · rw [hnx]; exact h.last.insert hsame hnp
  · rw [hnx]
    rcases (hK a).1 ha with ha | rfl
    · exact (h.reach a ha (by rwa [hmk] at hm)).insert hsame hnp
    · exact hreach.insert_new hsame hnp
  · rw [hmk] at hm ⊢
    rw [hnx] at hq hm
    by_cases eq : q = p
    · -- the new node is not marked
      rw [eq, update_self] at hm
      simp [mark, en] at hm
    · rw [update_of_ne eq] at hm
      rcases hq.of_insert hsame with hq | rfl
      · exact h.pred q hq hm
      · -- its successor is the old one of p, which is not flagged
        rw [hsame] at hm
        have := h.pred p hreach hm
        simp [mark, er] at this
  · exact h.none d (fun h1 => hd ((hT d).2 h1)) (by rwa [hmk] at hm)
  · exact h.once d (hd.imp (hT d).1 (by rw [hmk]; exact id))

omit h in
theorem insert_later (er : ref m p = ⟨.NONE, next⟩) :
    Later m { setRef m p ⟨.NONE, n⟩ with added := n :: m.added } (some n) (some p) := by
  have hr : ref { setRef m p ⟨.NONE, n⟩ with added := n :: m.added } = update (ref m) p ⟨.NONE, n⟩ :=
    ref_setRef (m := m) (a := p) (r := ⟨.NONE, n⟩)
  have hin : ∀ a, a ≠ p → ref { setRef m p ⟨.NONE, n⟩ with added := n :: m.added } a = ref m a := fun a ha => by
    rw [hr, update_of_ne ha]
  refine ⟨fun a ha => ?_, fun a ha => ?_, le_rfl, fun a _ h1 => hin a fun e => h1 (by rw [e]), fun a _ h1 => hin a ?_,
    fun q d _ e => .inl ?_, fun a ha _ => hin a ?_⟩
  · unfold Known at ha ⊢; simp only [List.mem_cons]; tauto
  · unfold Known at ha ⊢; simp only [List.mem_cons] at ha
    rcases ha with h1 | h1 | h1 | h1
    · exact .inl (.inl h1)
    · exact .inl (.inr (.inl h1))
    · exact .inr (by rw [h1])
    · exact .inl (.inr (.inr h1))
  · rintro rfl; simp [mark, er] at h1
  · rw [hin q (by rintro rfl; rw [er] at e; cases e)]; exact e
  · rintro rfl; exact ha.unknown hp

omit h in
/-- the writes of the three cas of a deletion leave the nodes, and every `succ` but one -/
theorem swing_later (hx : mark m p ≠ .MARKED) (own : Option ℕ)
    (href : ref m' = update (ref m) p r) (hadd : m'.added = m.added) (hfr : m'.fresh = m.fresh)
    (hfl : ∀ d, ref m p = ⟨.FLAGGED, d⟩ → mark m' d = .MARKED) :
    Later m m' own (some p) := by
  have hK : Known m' = Known m := by unfold Known; rw [hadd]
  have hin : ∀ a, a ≠ p → ref m' a = ref m a := fun a ha => by rw [href, update_of_ne ha]
  refine ⟨fun a ha => hK ▸ ha, fun a ha => .inl (hK ▸ ha), hfr.ge, fun a _ h1 => hin a fun e => h1 (by rw [e]),
    fun a _ h1 => hin a ?_, fun q d _ e => ?_, fun a ha _ => hin a ?_⟩
  · rintro rfl; exact hx h1
  · by_cases eq : q = p
    · subst eq; exact .inr (hfl d e)
    · exact .inl (by rw [hin q eq]; exact e)
  · rintro rfl; exact ha.unknown hp

/-- the cas of `tryFlag` -/
theorem flag_inv (hd : Known m d) (er : ref m p = ⟨.NONE, d⟩) :
    Inv { setRef m p ⟨.FLAGGED, d⟩ with flags := (d, t) :: m.flags } := by
  set m' : Mem := { setRef m p ⟨.FLAGGED, d⟩ with flags := (d, t) :: m.flags } with hm'
  have hr : ref m' = update (ref m) p ⟨.FLAGGED, d⟩ := ref_setRef (m := m) (a := p) (r := ⟨.FLAGGED, d⟩)
  have hnx : nx m' = nx m := by
    have := nx_setRef (m := m) (a := p) (r := ⟨.FLAGGED, d⟩)
    rw [show (⟨.FLAGGED, d⟩ : Ref).ptr = nx m p by simp [nx, er], update_eq_self] at this
    exact this
  have hmk : mark m' = update (mark m) p .FLAGGED := mark_setRef (m := m) (a := p) (r := ⟨.FLAGGED, d⟩)
  have hmarked : ∀ a, mark m' a = .MARKED ↔ mark m a = .MARKED := by
    intro a
    rw [hmk]
    by_cases e : a = p
    · rw [e, update_self]; simp [mark, er]
    · rw [update_of_ne e]
  have hbl : bl m' = bl m := bl_setRef (m := m) (a := p) (r := ⟨.FLAGGED, d⟩)
  have hreach : Reach (nx m) head p := h.reach p hp (by simp [mark, er])
  have hpd : nx m p = d := by simp [nx, er]
  -- d was not flagged: its predecessor is p, and p was not flagged
  have hfirst : ¬ Target m d := by
    rintro ⟨q, hq, e⟩
    have hqd : nx m q = d := by simp [nx, e]
    have := pred_unique h hreach (flagged_reach h hq e) (by rw [hpd, hqd]) (by rw [hpd]; exact known_ne h hd)
    rw [← this, er] at e; cases e
  have hclean : mark m d ≠ .MARKED := by
    intro e
    have := h.pred p hreach (by rwa [hpd])
    simp [mark, er] at this
  have hT : ∀ x, Target m' x ↔ Target m x ∨ x = d := by
    intro x
    constructor
    · rintro ⟨q, hq, e⟩
      rw [hr] at e
      by_cases eq : q = p
      · rw [eq, update_self] at e; cases e; exact .inr rfl
      · rw [update_of_ne eq] at e; exact .inl ⟨q, hq, e⟩
    · rintro (⟨q, hq, e⟩ | rfl)
      · refine ⟨q, hq, ?_⟩
        rw [hr, update_of_ne, e]
        rintro rfl; rw [er] at e; cases e
      · exact ⟨p, hp, by rw [hr, update_self]⟩
  have hcount : ∀ x, flagCount m' x = flagCount m x + if d = x then 1 else 0 := flagCount_cons m d t
  refine ⟨fun a ha => ?_, fun a => ?_, h.alloc, h.null, ?_, fun a ha => ?_, ?_, fun a ha hm => ?_, fun q hq hm => ?_,
    fun x hx hm => ?_, fun x hx => ?_⟩
  · rw [hnx]; exact h.succ a ha
  · rw [hbl]; exact h.backlink a
  · rw [hnx]; exact h.ends
  · exact h.marked a ((hmarked a).1 ha)
  · rw [hnx]; exact h.last
  · rw [hnx]; exact h.reach a ha fun e => hm ((hmarked a).2 e)
  · rw [hnx] at hq hm
    have := h.pred q hq ((hmarked _).1 hm)
    rw [hmk]
    by_cases e : q = p
    · rw [e, update_self]
    · rw [update_of_ne e]; exact this
  · rw [hT, not_or] at hx
    rw [hcount, if_neg fun e => hx.2 e.symm]
    exact h.none x hx.1 fun e => hm ((hmarked x).2 e)
  · rw [hcount]
    by_cases e : d = x
    · subst e; rw [if_pos rfl, h.none d hfirst hclean]
    · rw [if_neg e]
      refine h.once x (hx.imp (fun hx => ?_) (hmarked x).1)
      exact ((hT x).1 hx).resolve_right fun e' => e e'.symm

/-- the cas of `tryMark` -/
theorem mark_inv (hd : Known m d) (er : ref m p = ⟨.FLAGGED, d⟩)
    (ed : ref m d = ⟨.NONE, next⟩) : Inv (setRef m d ⟨.MARKED, next⟩) := by
  set m' : Mem := setRef m d ⟨.MARKED, next⟩ with hm'
  have hr : ref m' = update (ref m) d ⟨.MARKED, next⟩ := ref_setRef
  have hnx : nx m' = nx m := by
    rw [hm', nx_setRef, show (⟨.MARKED, next⟩ : Ref).ptr = nx m d by simp [nx, ed], update_eq_self]
  have hmk : mark m' = update (mark m) d .MARKED := mark_setRef
  have hbl : bl m' = bl m := bl_setRef
  have hreach := flagged_reach h hp er
  have hpd : nx m p = d := by simp [nx, er]
  have hT : ∀ x, Target m' x ↔ Target m x := by
    intro x
    refine exists_congr fun q => and_congr_right fun hq => ?_
    rw [hr]
    by_cases e : q = d
    · rw [e, update_self, ed]; simp
    · rw [update_of_ne e]
  have hmarked : ∀ a, a ≠ d → mark m' a = mark m a := fun a ha => by rw [hmk, update_of_ne ha]
  refine ⟨fun a ha => ?_, fun a => ?_, h.alloc, h.null, ?_, fun a ha => ?_, ?_, fun a ha hm => ?_, fun q hq hm => ?_,
    fun x hx hm => ?_, fun x hx => ?_⟩
  · rw [hnx]; exact h.succ a ha
  · rw [hbl]; exact h.backlink a
  · rw [hnx]; exact h.ends
  · by_cases e : a = d
    · subst e; exact hd
    · exact h.marked a (by rwa [hmarked a e] at ha)
  · rw [hnx]; exact h.last
  · rw [hnx]
    refine h.reach a ha ?_
    by_cases e : a = d
    · rw [e]; simp [mark, ed]
    · rwa [hmarked a e] at hm
  · rw [hnx] at hq hm
    -- the node before d is p, which is flagged
    have hq' : mark m q = .FLAGGED := by
      by_cases e : nx m q = d
      · have : q = p := pred_unique h hq hreach (by rw [e, hpd]) (by rw [e]; exact known_ne h hd)
        rw [this]; simp [mark, er]
      · exact h.pred q hq (by rwa [hmarked _ e] at hm)
    rw [hmarked q (by rintro rfl; simp [mark, ed] at hq')]
    exact hq'
  · have e : x ≠ d := by rintro rfl; exact hx ((hT x).2 ⟨p, hp, er⟩)
    exact h.none x (fun h1 => hx ((hT x).2 h1)) (by rwa [hmarked x e] at hm)
  · by_cases e : x = d
    · subst e; exact h.once x (.inl ⟨p, hp, er⟩)
    · exact h.once x (hx.imp (hT x).1 fun hm => by rwa [hmarked x e] at hm)

/-- the cas of `helpMarked` -/
theorem unlink_inv (er : ref m p = ⟨.FLAGGED, d⟩) (hd : mark m d = .MARKED) : Inv (setRef m p ⟨.NONE, nx m d⟩) := by
  set m' : Mem := setRef m p ⟨.NONE, nx m d⟩ with hm'
  have hr : ref m' = update (ref m) p ⟨.NONE, nx m d⟩ := ref_setRef
  have hnx : nx m' = update (nx m) p (nx m d) := nx_setRef
  have hmk : mark m' = update (mark m) p .NONE := mark_setRef
  have hbl : bl m' = bl m := bl_setRef
  have hreach := flagged_reach h hp er
  have hpd : nx m p = d := by simp [nx, er]
  have hdk : Known m d := h.marked d hd
  have hmarked : ∀ a, mark m' a = .MARKED ↔ mark m a = .MARKED := by
    intro a
    rw [hmk]
    by_cases e : a = p
    · rw [e, update_self]; simp [mark, er]
    · rw [update_of_ne e]
  have hT : ∀ x, Target m' x ∨ mark m' x = .MARKED ↔ Target m x ∨ mark m x = .MARKED := by
    intro x
    rw [hmarked]
    constructor
    · rintro (⟨q, hq, e⟩ | hm)
      · rw [hr] at e
        by_cases eq : q = p
        · rw [eq, update_self] at e; cases e
        · rw [update_of_ne eq] at e; exact .inl ⟨q, hq, e⟩
      · exact .inr hm
    · rintro (⟨q, hq, e⟩ | hm)
      · by_cases eq : q = p
        · subst eq
          rw [er] at e; cases e
          exact .inr hd
        · exact .inl ⟨q, hq, by rw [hr, update_of_ne eq]; exact e⟩
      · exact .inr hm
  refine ⟨fun a ha => ?_, fun a => ?_, h.alloc, h.null, ?_, fun a ha => ?_, ?_, fun a ha hm => ?_, fun q hq hm => ?_,
    fun x hx hm => ?_, fun x hx => ?_⟩
  · rw [hnx]
    by_cases e : a = p
    · rw [e, update_self]; exact h.succ d (.inr hdk)
    · rw [update_of_ne e]; exact h.succ a ha
  · rw [hbl]; exact h.backlink a
  · rw [hnx, update_of_ne (known_ne h hp).symm]; exact h.ends
  · exact h.marked a ((hmarked a).1 ha)
  · rw [hnx]; exact h.last.unlink hpd (known_ne h hdk).symm
  · have hclean : mark m a ≠ .MARKED := fun e => hm ((hmarked a).2 e)
    rw [hnx]; exact (h.reach a ha hclean).unlink hpd fun e => hclean (e ▸ hd)
  · rw [hmarked] at hm
    rw [hnx] at hq hm
    have hq' := hq.of_unlink hpd
    by_cases e : q = p
    · -- d is marked, not flagged, so its successor is not marked
      rw [e, update_self] at hm
      have := h.pred d (hpd ▸ hreach.step) hm
      rw [hd] at this; cases this
    · rw [update_of_ne e] at hm
      rw [hmk, update_of_ne e]; exact h.pred q hq' hm
  · have := fun h1 => (not_or.2 ⟨hx, hm⟩) ((hT x).2 h1)
    exact h.none x (fun h1 => this (.inl h1)) fun h1 => this (.inr h1)
  · exact h.once x ((hT x).1 hx)

end Effects

end AlgorithmCollection.LockFreeList
