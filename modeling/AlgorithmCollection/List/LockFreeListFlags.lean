/-
Which nodes of `LockFreeList` are marked.

A thread decides whom to help from a pointer and bits of one `succ` that it reads one after the other. If an `add` and a
`delete` change that `succ` between the two reads, the thread helps to delete a node that nobody is deleting:
`marked_unflagged` is such a run, in which delete(7) marks node 7 and returns false, and no delete ever flagged it.
`marks_flagged` is about the runs in which no cas succeeds on a `succ` while another thread stands between its reads of
the fields of that `succ`. In these runs a node becomes MARKED only while the `succ` of its predecessor is (that node,
FLAGGED), and every marked node was flagged by exactly one delete, which returns true.
-/
import AlgorithmCollection.List.LockFreeListInv

namespace AlgorithmCollection.LockFreeList

open Conc
open Function (update update_self update_of_ne)

/-! ## The condition -/

/-- the node whose `succ` a successful cas changes in the next step of the thread -/
def swings (m : Mem) : Loc → Option ℕ
  | .sCas _ curr next _ => if ref m curr = ⟨.FLAGGED, next⟩ then some curr else none
  | .aCas _ _ _ prev next => if ref m prev = ⟨.NONE, next⟩ then some prev else none
  | .fCas target prev => if ref m prev = ⟨.NONE, target⟩ then some prev else none
  | .mCas _ _ _ del next => if ref m del = ⟨.NONE, next⟩ then some del else none
  | .hCas _ _ prev del _ => if ref m prev = ⟨.FLAGGED, del⟩ then some prev else none
  | _ => none

/-- action a of a thread at l is allowed beside a thread at o -/
def Allowed (m : Mem) (l : Loc) (a : Act) (o : Loc) : Prop :=
  a = .step → swings m l ≠ none → between o ≠ swings m l

instance Allowed.decidable (m : Mem) (l : Loc) (a : Act) (o : Loc) : Decidable (Allowed m l a o) := by
  unfold Allowed; infer_instance

/-! ## A step of a thread -/

/-- what a step of thread t from m and l to y establishes -/
structure Stepped (t : ℕ) (m : Mem) (l : Loc) (y : Mem × Loc) : Prop where
  inv : Inv y.1
  here : At y.1 y.2
  later : Later m y.1 (newNode l) (swings m l)
  own : ∀ n, newNode y.2 = some n → newNode l = some n ∨ m.fresh ≤ n
  flags : y.1.flags = m.flags ∨ ∃ d, y.1.flags = (d, t) :: m.flags ∧ flagging y.2 = some d
  returned : ∀ x ∈ m.returned, x ∈ y.1.returned
  flagging : ∀ d, flagging l = some d → flagging y.2 = some d ∨ (d, t) ∈ y.1.returned
  marks : MarksFlagged m y.1

section Step

variable {t : ℕ} {m : Mem} {l l' : Loc}

variable (h : Inv m)

include h

/-- a step that writes nothing -/
theorem Stepped.read (hl : At m l') (hn : ∀ n, newNode l' = some n → newNode l = some n)
    (hf : ∀ d, LockFreeList.flagging l = some d → LockFreeList.flagging l' = some d) : Stepped t m l (m, l') :=
  ⟨h, hl, Later.refl .., fun n hn' => .inl (hn n hn'), .inl rfl, fun _ hx => hx, fun d hd => .inl (hf d hd),
    fun _ h1 h2 => absurd h2 h1⟩

variable {prev : ℕ} {k v : ℤ}

/-- `searchFrom2` returns -/
theorem Stepped.found {c : Caller} {curr next : ℕ} (hc : c.Ok m) (hcurr : Known m curr)
    (hnext : Known m next) (hn : newNode l = c.newNode) (hf : LockFreeList.flagging l = none) :
    Stepped t m l (m, c.next m curr next) := by
  have hnone : ∀ d (l' : Loc), LockFreeList.flagging l = some d → LockFreeList.flagging l' = some d := by
    intro d l' hd; rw [hf] at hd; cases hd
  cases c with
  | add k v =>
    simp only [Caller.next]
    split
    · exact .read h trivial nofun fun d => hnone d _
    · exact .read h ⟨hcurr, hnext⟩ nofun fun d => hnone d _
  | again k v n =>
    simp only [Caller.next]
    split
    · exact .read h trivial nofun fun d => hnone d _
    · exact .read h ⟨hc, hcurr, hnext⟩ (fun a ha => hn.trans ha) fun d => hnone d _
  | delete k =>
    simp only [Caller.next]
    split
    · exact .read h ⟨hnext, hcurr⟩ nofun fun d => hnone d _
    · exact .read h trivial nofun fun d => hnone d _
  | find k => exact .read h trivial nofun fun d => hnone d _

/-- the cas of `tryMark` and of `helpMarked` -/
theorem Stepped.cas {p : ℕ} {o r : Ref} (hl : At m l') (hb : between l' = none)
    (hok : ref m p = o → Known m p ∧ mark m p ≠ .MARKED ∧ swings m l = some p ∧ Inv (setRef m p r) ∧
      (∀ d, ref m p = ⟨.FLAGGED, d⟩ → mark m d = .MARKED) ∧ MarksFlagged m (setRef m p r))
    (hn : newNode l' = newNode l) (hf : LockFreeList.flagging l' = LockFreeList.flagging l) :
    Stepped t m l ((cas m p o r).1, l') := by
  unfold LockFreeList.cas
  by_cases e : ref m p = o
  · rw [if_pos e]
    obtain ⟨hp, hx, hsw, hI, hfl, hmarks⟩ := hok e
    have hL : ∀ own, Later m (setRef m p r) own (some p) := by
      refine fun own => swing_later hp hx own ref_setRef rfl rfl fun d hd => ?_
      rw [mark_setRef, update_of_ne]
      · exact hfl d hd
      · rintro rfl; exact hx (hfl d hd)
    refine ⟨hI, (hL none).stable (null_unmarked h) hl (fun _ _ => nofun) (by rw [hb]; nofun), by rw [hsw]; exact hL _,
      fun n hn' => .inl (hn ▸ hn'), .inl rfl, fun _ hx => hx, fun d hd => .inl (hf.trans hd), hmarks⟩
  · rw [if_neg e]
    exact .read h hl (fun n hn' => hn ▸ hn') fun d hd => hf.trans hd

theorem Inv.returned (xs : List (ℕ × ℕ)) : Inv { m with returned := xs } :=
  ⟨h.succ, h.backlink, h.alloc, h.null, h.ends, h.marked, h.last, h.reach, h.pred, h.none, h.once⟩

omit h in
/-- `helpFlagged` returns -/
theorem Stepped.helped {m' : Mem} {h : Helper} {fs : List (ℕ × ℕ)} (prev del : ℕ)
    (hs : Stepped t m l (m', .mWhile h fs prev del)) (hfl : m'.flags = m.flags) : Stepped t m l (helped t m' h fs) := by
  obtain ⟨hI, hh, hL, hown, -, hret, hfg, hmk⟩ := hs
  cases fs with
  | cons f fs =>
    have hf := hh.frames f (by simp)
    have hg : ∀ g ∈ fs, _ := fun g hg => hh.frames g (by simp [hg])
    exact ⟨hI, ⟨hh.caller, hg, hf.2.2, hf.1, hf.2.1⟩, hL, hown, .inl hfl, hret, hfg, hmk⟩
  | nil =>
    cases h with
    | flagged k v n => exact ⟨hI, hh.caller, hL, hown, .inl hfl, hret, fun d hd => (hfg d hd).imp_left nofun, hmk⟩
    | failed k v n prev' =>
      exact ⟨hI, ⟨hh.caller.1, .inr hh.caller.2⟩, hL, hown, .inl hfl, hret, fun d hd => (hfg d hd).imp_left nofun, hmk⟩
    | delete target result =>
      cases result with
      | false => exact ⟨hI, trivial, hL, nofun, .inl hfl, hret, fun d hd => (hfg d hd).imp_left nofun, hmk⟩
      | true =>
        refine ⟨hI.returned _, trivial, ⟨hL.mono, hL.known, hL.fresh, hL.same, hL.frozen, hL.flags, hL.rest⟩, nofun,
          .inl hfl, fun x hx => List.mem_cons_of_mem _ (hret x hx), fun d hd => .inr ?_, hmk⟩
        rcases hfg d hd with e | e
        · obtain rfl : target = d := Option.some.inj e
          exact List.mem_cons_self
        · exact List.mem_cons_of_mem _ e

omit h in
/-- a write of bits that are not MARKED marks nothing -/
theorem marks_setRef {p d : ℕ} {r : Ref} (hr : r.mark ≠ .MARKED) (h : mark (setRef m p r) d = .MARKED) :
    mark m d = .MARKED := by
  rw [mark_setRef] at h
  by_cases e : d = p
  · rw [e, update_self] at h; exact absurd h hr
  · rwa [update_of_ne e] at h

/-- `create_node` -/
theorem create_step {next : ℕ} (hp : Known m prev) (hx : Known m next) :
    Stepped t m (.create k v prev next) (exec t m (.create k v prev next)) := by
  have hr : ref (createNode m k v) = update (ref m) m.fresh ⟨.NONE, NULL⟩ := by
    funext a
    by_cases e : a = m.fresh
    · subst e; simp [ref, createNode]
    · simp [ref, createNode, e]
  have hout : ¬ Ptr m m.fresh := fun e => (h.alloc _ e).false
  have hk : ¬ Known m m.fresh := fun e => hout (.inr e)
  refine ⟨outside_inv h hout rfl hr (fun a => ?_) rfl (Nat.le_succ _) rfl, ⟨⟨?_, Nat.lt_succ_self _, hk⟩, hp, hx⟩,
    outside_later hk _ _ (fun e => absurd e.alloc (lt_irrefl _)) hr rfl (Nat.le_succ _),
    fun n hn => .inr (Option.some.inj hn).le, .inl rfl, fun _ hx => hx, nofun, fun d h1 h2 => ?_⟩
  · by_cases e : a = m.fresh
    · subst e; right; simp [bl, exec, createNode]
    · left; simp [bl, exec, createNode, e]
  · intro e; exact hout (.inl e)
  · change (ref (createNode m k v) d).mark = .MARKED at h2
    unfold mark at h1
    rw [hr] at h2
    by_cases e : d = m.fresh
    · rw [e, update_self] at h2; cases h2
    · rw [update_of_ne e] at h2; exact absurd h2 h1

/-- `add` writes the `succ` of its new node -/
theorem fill_step {n next : ℕ} {b : Bits} (hn : Private m n) (hp : Known m prev) (hx : Known m next) :
    Stepped t m (.aPtr k v n prev next b) (setRef m n ⟨.NONE, next⟩, .aCas k v n prev next) := by
  have hout : ¬ Ptr m n := fun e => e.elim hn.ne hn.unknown
  refine ⟨outside_inv h hout rfl ref_setRef (fun a => .inl (by rw [bl_setRef])) rfl le_rfl rfl,
    ⟨⟨⟨hn.ne, hn.alloc, hn.unknown⟩, hp, hx⟩, by rw [ref_setRef, update_self]⟩,
    outside_later hn.unknown _ _ (fun _ => rfl) ref_setRef rfl le_rfl, fun a ha => .inl ha, .inl rfl, fun _ hx => hx,
    nofun, fun d h1 h2 => absurd (marks_setRef (by simp) h2) h1⟩

/-- the cas of `add` -/
theorem insert_step {n next : ℕ} (hl : At m (.aCas k v n prev next)) :
    Stepped t m (.aCas k v n prev next) (exec t m (.aCas k v n prev next)) := by
  obtain ⟨⟨hn, hp, hx⟩, en⟩ := hl
  simp only [exec, LockFreeList.cas]
  by_cases e : ref m prev = ⟨.NONE, next⟩
  · rw [if_pos e]
    refine ⟨insert_inv h hp hn e en, trivial, ?_, nofun, .inl rfl, fun _ hx => hx, nofun, fun d h1 h2 => ?_⟩
    · simp only [swings, if_pos e]; exact insert_later hp e
    · exact absurd (marks_setRef (p := prev) (r := ⟨.NONE, n⟩) (by simp) h2) h1
  · rw [if_neg e]
    exact .read h ⟨hn, hp⟩ (fun a ha => ha) nofun

/-- the cas of `tryFlag` -/
theorem flag_step {target : ℕ} (hl : At m (.fCas target prev)) :
    Stepped t m (.fCas target prev) (exec t m (.fCas target prev)) := by
  obtain ⟨hd, hp⟩ := hl
  by_cases e : ref m prev = ⟨.NONE, target⟩
  · have hex : exec t m (.fCas target prev) =
        ({ setRef m prev ⟨.FLAGGED, target⟩ with flags := (target, t) :: m.flags },
          .hBack (.delete target true) [] prev target) := by
      simp only [exec, LockFreeList.cas, if_pos e]
      rfl
    have hr := ref_setRef (m := m) (a := prev) (r := ⟨.FLAGGED, target⟩)
    rw [hex]
    refine ⟨flag_inv h hp hd e, ⟨trivial, List.forall_mem_nil _, hp, .inr hd, .inl ?_⟩, ?_, by rintro _ ⟨⟩, .inr ⟨target, rfl, rfl⟩,
      fun _ hx => hx, by rintro _ ⟨⟩, fun d h1 h2 => ?_⟩
    · exact (congrFun hr prev).trans (update_self ..)
    · simp only [swings, if_pos e]
      exact swing_later hp (by simp [mark, e]) _ hr rfl rfl fun d hd => by rw [e] at hd; cases hd
    · exact absurd (marks_setRef (p := prev) (r := ⟨.FLAGGED, target⟩) (by simp) h2) h1
  · simp only [exec, LockFreeList.cas, if_neg e]
    exact .read h ⟨hd, hp⟩ (by rintro _ ⟨⟩) (by rintro _ ⟨⟩)

/-- the cas of `tryMark` and its effect on the list -/
theorem mark_ok {x : Helper} {fs : List (ℕ × ℕ)} {del next : ℕ} (hl : Helps m x fs prev del)
    (e : ref m del = ⟨.NONE, next⟩) :
    Inv (setRef m del ⟨.MARKED, next⟩) ∧ MarksFlagged m (setRef m del ⟨.MARKED, next⟩) := by
  have er : ref m prev = ⟨.FLAGGED, del⟩ := hl.doomed.resolve_right (by simp [mark, e])
  refine ⟨mark_inv h hl.prev hl.del er e, fun d h1 h2 => ?_⟩
  rw [mark_setRef] at h2
  by_cases ed : d = del
  · rw [ed]; exact ⟨prev, flagged_reach h hl.prev er, er⟩
  · rw [update_of_ne ed] at h2; exact absurd h2 h1

/-- the cas of `helpMarked` and its effect on the list -/
theorem unlink_ok {del : ℕ} (hp : Known m prev) (hd : mark m del = .MARKED) (e : ref m prev = ⟨.FLAGGED, del⟩) :
    Known m prev ∧ mark m prev ≠ .MARKED ∧ Inv (setRef m prev ⟨.NONE, nx m del⟩) ∧
      (∀ d, ref m prev = ⟨.FLAGGED, d⟩ → mark m d = .MARKED) ∧ MarksFlagged m (setRef m prev ⟨.NONE, nx m del⟩) := by
  refine ⟨hp, by simp [mark, e], unlink_inv h hp e hd, fun d ed => ?_, fun d h1 h2 => ?_⟩
  · rw [e] at ed; cases ed; exact hd
  · exact absurd (marks_setRef (by simp) h2) h1

theorem exec_step (hl : At m l) : Stepped t m l (exec t m l) := by
  have known : ∀ {a}, Ptr m a → a ≠ NULL → Known m a := fun ha hne => ha.resolve_left hne
  have hhead : Known m head := .inl rfl
  cases l with
  | idle | ret r => exact .read h trivial nofun nofun
  | sFirst c => exact .read h ⟨hl, hhead, h.succ _ (.inr hhead)⟩ (fun _ e => e) nofun
  | sKey c curr next =>
    obtain ⟨h1, h2, h3⟩ := hl
    simp only [exec]
    split_ifs with e e'
    · exact .read h ⟨h1, h2, h3⟩ (fun _ e => e) nofun
    · exact .read h ⟨h1, h2, h3⟩ (fun _ e => e) nofun
    · exact .found h h1 h2 (known h3 e) rfl rfl
  | sMark c curr next =>
    obtain ⟨h1, h2, h3⟩ := hl
    simp only [exec]
    split_ifs with e e'
    · exact .read h ⟨h1, h2, h3⟩ (fun _ e => e) nofun
    · exact .read h ⟨h1, e', h2, known h3 e⟩ (fun _ e => e) nofun
    · exact .read h ⟨h1, h2, known h3 e⟩ (fun _ e => e) nofun
  | sCurr c curr next | sAssert c curr next =>
    simp only [exec]
    split_ifs <;> exact .read h hl (fun _ e => e) nofun
  | sNe c curr next =>
    simp only [exec]
    split_ifs
    · exact .read h hl (fun _ e => e) nofun
    · exact .read h ⟨hl.caller, hl.curr, hl.next⟩ (fun _ e => e) nofun
  | sEq c curr next =>
    simp only [exec]
    split_ifs
    · exact .read h hl (fun _ e => e) nofun
    · exact .read h ⟨hl.caller, hl.curr⟩ (fun _ e => e) nofun
  | sNext c curr next | aMark k v n prev next | rMark k v n prev => exact .read h ⟨hl, rfl⟩ (fun _ e => e) nofun
  | sCas c curr next succ =>
    obtain ⟨hs, rfl⟩ := hl
    refine .cas h ⟨hs.caller, hs.curr⟩ rfl (fun e => ?_) rfl rfl
    obtain ⟨h1, h2, h3⟩ := unlink_ok h hs.curr hs.marked e
    exact ⟨h1, h2, by simp only [swings, if_pos e], h3⟩
  | sReload c curr | sAdvance c curr => exact .read h ⟨hl.1, hl.2, h.succ _ (.inr hl.2)⟩ (fun _ e => e) nofun
  | sTest c curr next =>
    obtain ⟨h1, h2, h3⟩ := hl
    simp only [exec]
    split_ifs
    · exact .read h ⟨h1, h3⟩ (fun _ e => e) nofun
    · exact .found h h1 h2 h3 rfl rfl
  | create k v prev next =>
    obtain ⟨h1, h2⟩ := hl
    exact create_step h h1 h2
  | aPtr k v n prev next b =>
    obtain ⟨⟨h1, h2, h3⟩, rfl⟩ := hl
    simp only [exec]
    split_ifs with e
    · exact .read h ⟨h1, nofun, h2, h.succ _ (.inr h2), .inl (by rw [← e]; rfl)⟩ (fun _ e => e) nofun
    · exact fill_step h h1 h2 h3
  | aCas k v n prev next => exact insert_step h hl
  | rPtr k v n prev b =>
    obtain ⟨⟨h1, h2⟩, rfl⟩ := hl
    simp only [exec]
    split_ifs with e
    · exact .read h ⟨⟨h1, h2⟩, nofun, h2, h.succ _ (.inr h2), .inl (by rw [← e]; rfl)⟩ (fun _ e => e) nofun
    · exact .read h ⟨h1, .inr h2⟩ (fun _ e => e) nofun
  | aWait k v n prev =>
    obtain ⟨h1, h2⟩ := hl
    simp only [exec]
    split_ifs with e e'
    · exact .read h ⟨h1, h2⟩ (fun _ e => e) nofun
    · exact .read h ⟨h1, known h2 e⟩ (fun _ e => e) nofun
    · exact .read h h1 (fun _ e => e) nofun
  | aBack k v n prev => exact .read h ⟨hl.1, h.backlink _⟩ (fun _ e => e) nofun
  | fPtr target prev =>
    simp only [exec]
    split_ifs with e
    · exact .read h ⟨hl, e⟩ nofun nofun
    · exact .read h hl nofun nofun
  | fUnmarked target prev =>
    simp only [exec]
    split_ifs with e
    · exact .read h hl nofun nofun
    · exact .read h hl.1 nofun nofun
  | fFlagged target prev =>
    obtain ⟨⟨h1, h2⟩, h3⟩ := hl
    simp only [exec]
    split_ifs with e
    · exact .read h ⟨trivial, nofun, h2, .inr h1, .inl (by rw [← e, ← h3]; rfl)⟩ nofun nofun
    · exact .read h ⟨h1, h2⟩ nofun nofun
  | fCas target prev => exact flag_step h hl
  | gMark target prev => exact .read h ⟨hl, rfl⟩ nofun nofun
  | gPtr target prev b =>
    obtain ⟨⟨h1, h2⟩, rfl⟩ := hl
    simp only [exec]
    split_ifs with e
    · exact .read h ⟨trivial, nofun, h2, .inr h1, .inl (by rw [← e.1, ← e.2]; rfl)⟩ nofun nofun
    · exact .read h ⟨h1, .inr h2⟩ nofun nofun
  | fWait target prev =>
    obtain ⟨h1, h2⟩ := hl
    simp only [exec]
    split_ifs with e e'
    · exact .read h ⟨h1, h2⟩ nofun nofun
    · exact .read h ⟨h1, known h2 e⟩ nofun nofun
    · exact .read h ⟨h1, known h2 e⟩ nofun nofun
  | fBack target prev => exact .read h ⟨hl.1, h.backlink _⟩ nofun nofun
  | hBack x fs prev del =>
    obtain ⟨h1, h2, h3, h4, h5⟩ := hl
    simp only [exec]
    split_ifs with e
    · exact .read h ⟨h1, h2, h3, h4, h5⟩ (fun _ e => e) fun _ e => e
    · have hL := backlink_later m del prev none none
      refine ⟨backlink_inv h h3 del, ?_, backlink_later .., fun n hn => .inl hn, .inl rfl, fun _ hx => hx,
        fun d hd => .inl hd, fun d h1 h2 => ?_⟩
      · exact hL.stable (l := .hTest x fs prev del) (null_unmarked h) ⟨h1, h2, h5, h3, known h4 e⟩ (fun _ _ => nofun)
          nofun
      · unfold mark at h1 h2; rw [ref_setBacklink] at h2; exact absurd h2 h1
  | hTest x fs prev del | mWhile x fs prev del =>
    simp only [exec]
    split_ifs with e
    · exact .read h hl (fun _ e => e) fun _ e => e
    · exact .read h ⟨hl, not_not.1 e⟩ (fun _ e => e) fun _ e => e
  | mNext x fs prev del => exact .read h hl (fun _ e => e) fun _ e => e
  | mCas x fs prev del next =>
    refine .cas h hl rfl (fun e => ?_) rfl rfl
    obtain ⟨h1, h2⟩ := mark_ok h hl e
    refine ⟨hl.del, by simp [mark, e], by simp only [swings, if_pos e], h1, fun d ed => ?_, h2⟩
    rw [e] at ed; cases ed
  | mMark x fs prev del => exact .read h ⟨hl, rfl⟩ (fun _ e => e) fun _ e => e
  | mPtr x fs prev del b =>
    obtain ⟨hh, rfl⟩ := hl
    simp only [exec]
    split_ifs with e
    · refine .read h ⟨hh.caller, fun f hf => ?_, hh.del, h.succ _ (.inr hh.del), .inl (by rw [← e]; rfl)⟩
        (fun _ e => e) fun _ e => e
      rcases List.mem_cons.1 hf with rfl | hf
      · exact ⟨hh.prev, hh.del, hh.doomed⟩
      · exact hh.frames f hf
    · exact .read h hh (fun _ e => e) fun _ e => e
  | hAssert x fs prev del =>
    simp only [exec]
    split_ifs <;> exact .read h hl (fun _ e => e) fun _ e => e
  | hNext x fs prev del => exact .read h ⟨hl.1, hl.2, rfl⟩ (fun _ e => e) fun _ e => e
  | hCas x fs prev del next =>
    obtain ⟨hh, hd, rfl⟩ := hl
    refine Stepped.helped prev del (Stepped.cas h hh rfl (fun e => ?_) rfl rfl) ?_
    · obtain ⟨h1, h2, h3⟩ := unlink_ok h hh.prev hd e
      exact ⟨h1, h2, by simp only [swings, if_pos e], h3⟩
    · unfold LockFreeList.cas; split <;> rfl

end Step

/-! ## Runs -/

/-- what thread t keeps: its assertion, and every delete of t that flagged a node is in its call or has returned true -/
structure Keeps (t : ℕ) (m : Mem) (l : Loc) : Prop where
  here : At m l
  returns : ∀ d, (d, t) ∈ m.flags → (d, t) ∈ m.returned ∨ flagging l = some d

/-- the new nodes of two threads are not the same -/
def Apart (l o : Loc) : Prop := ∀ n, newNode l = some n → newNode o ≠ some n

variable {l : Loc} {m : Mem} {n : ℕ}

theorem caller_lt {c : Caller} (h : c.Ok m) (hn : c.newNode = some n) : n < m.fresh := by
  cases c with
  | again k v a => cases hn; exact Private.alloc h
  | add k v | delete k | find k => cases hn

theorem helper_lt {x : Helper} (h : x.Ok m) (hn : x.newNode = some n) : n < m.fresh := by
  cases x with
  | flagged k v a => cases hn; exact Private.alloc h
  | failed k v a prev => cases hn; exact h.1.alloc
  | delete target r => cases hn

theorem newNode_lt (h : At m l) (hn : newNode l = some n) : n < m.fresh := by
  cases l with
  | idle | ret _ | create _ _ _ _ | fPtr _ _ | fUnmarked _ _ | fFlagged _ _ | fCas _ _ | gMark _ _ | gPtr _ _ _
  | fWait _ _ | fBack _ _ => cases hn
  | sFirst c => exact caller_lt h hn
  | sKey c _ _ | sMark c _ _ | sReload c _ | sTest c _ _ | sAdvance c _ => exact caller_lt h.1 hn
  | sCurr c _ _ | sNe c _ _ | sEq c _ _ | sAssert c _ _ | sNext c _ _ => exact caller_lt h.caller hn
  | sCas c _ _ _ => exact caller_lt h.1.caller hn
  | aMark _ _ _ _ _ | rMark _ _ _ _ | aWait _ _ _ _ | aBack _ _ _ _ => cases hn; exact h.1.alloc
  | aPtr _ _ _ _ _ _ | aCas _ _ _ _ _ | rPtr _ _ _ _ _ => cases hn; exact h.1.1.alloc
  | hBack x _ _ _ => exact helper_lt h.1 hn
  | hTest x _ _ _ | mNext x _ _ _ | mCas x _ _ _ _ | mMark x _ _ _ | mWhile x _ _ _ => exact helper_lt h.caller hn
  | mPtr x _ _ _ _ | hAssert x _ _ _ | hNext x _ _ _ | hCas x _ _ _ _ => exact helper_lt h.1.caller hn

theorem invoke_read {op : Op} {t : ℕ} (h : Inv m) (hi : canInvoke l op = true) :
    Stepped t m l (m, start op) := by
  have hfl : ∀ d, flagging l = some d → flagging (start op) = some d := by
    cases l with
    | idle | ret r => nofun
    | _ => cases hi
  cases op with
  | add k v | delete k | find k => exact .read h trivial nofun hfl

theorem step_stepped (h : Inv m) (hl : At m l) (t : ℕ) (a : Act) :
    Stepped t m l (step t m l a) := by
  cases a with
  | step => exact exec_step h hl
  | invoke op =>
    simp only [step]
    split_ifs with hi
    · exact invoke_read h hi
    · exact .read h hl (fun _ e => e) fun _ e => e

theorem step_ok (t : ℕ) (m : Mem) (l : Loc) (a : Act) (h : Inv m) (hl : Keeps t m l) :
    sys.StepOkBeside (fun (_ : Unit) => Inv) (fun _ => Keeps) Apart Allowed () t m l a := by
  have hs := step_stepped h hl.here t a
  refine ⟨(), hs.inv, ⟨hs.here, fun d hd => ?_⟩, fun u o hu hK ho hlo hol => ⟨⟨?_, fun d hd => ?_⟩, ?_, ?_⟩⟩
  · -- the thread itself
    change (d, t) ∈ (step t m l a).1.flags at hd
    have old : (d, t) ∈ m.flags → (d, t) ∈ (step t m l a).1.returned ∨ flagging (step t m l a).2 = some d := fun hd =>
      (hl.returns d hd).elim (fun h1 => .inl (hs.returned _ h1)) fun h1 => (hs.flagging d h1).symm
    rcases hs.flags with e | ⟨d', e, hd'⟩
    · exact old (e ▸ hd)
    · rw [e] at hd
      rcases List.mem_cons.1 hd with e' | hd
      · cases e'; exact .inr hd'
      · exact old hd
  · cases a with
    | invoke op => exact ho.here
    | step =>
      -- the other thread does not stand between its reads of the `succ` that changes
      refine hs.later.stable (null_unmarked h) ho.here (fun n hn hn' => hlo n hn' hn) fun p hp hsw => ?_
      exact hK rfl (by simp [hsw]) (hp.trans hsw.symm)
  · change (d, u) ∈ (step t m l a).1.flags at hd
    have old : (d, u) ∈ m.flags → (d, u) ∈ (step t m l a).1.returned ∨ flagging o = some d := fun hd =>
      (ho.returns d hd).imp_left (hs.returned _)
    rcases hs.flags with e | ⟨d', e, -⟩
    · exact old (e ▸ hd)
    · rw [e] at hd
      rcases List.mem_cons.1 hd with e' | hd
      · cases e'; exact absurd rfl hu
      · exact old hd
  · intro n hn hn'
    rcases hs.own n hn with h1 | h1
    · exact hlo n h1 hn'
    · exact absurd (newNode_lt ho.here hn') (by omega)
  · intro n hn hn'
    rcases hs.own n hn' with h1 | h1
    · exact hlo n h1 hn
    · exact absurd (newNode_lt ho.here hn) (by omega)

theorem init_inv : Inv initList := by
  have hhead : nx initList head = tail := rfl
  have hnx : ∀ a, a ≠ head → nx initList a = NULL := fun a ha => by simp [nx, ref, initList, ha]
  have hmk : ∀ a, mark initList a = .NONE := fun a => by
    by_cases e : a = head <;> simp [mark, ref, initList, e]
  have hbl : ∀ a, bl initList a = NULL := fun a => by
    by_cases e : a = head <;> simp [bl, initList, e]
  have hr : Reach (nx initList) head tail := hhead ▸ (Reach.refl _ _).step
  have hmarked : ∀ a, mark initList a ≠ .MARKED := fun a => by simp [hmk]
  have hT : ∀ d, ¬ Target initList d := by
    rintro d ⟨p, -, e⟩
    have := hmk p
    rw [mark, e] at this; cases this
  refine ⟨fun a ha => ?_, fun a => .inl (hbl a), fun a ha => ?_, ?_, hnx NULL (by decide),
    fun a ha => absurd ha (hmarked a), hnx tail (by decide) ▸ hr.step, fun a ha _ => ?_,
    fun p _ hm => absurd hm (hmarked _), fun d _ _ => rfl, fun d hd => (hd.elim (hT d) (hmarked d)).elim⟩
  · by_cases e : a = head
    · rw [e, hhead]; exact .inr (.inr (.inl rfl))
    · exact .inl (hnx a e)
  · rcases ha with rfl | rfl | rfl | ha
    · decide
    · decide
    · decide
    · cases ha
  · rintro (e | e | e)
    · cases e
    · cases e
    · cases e
  · rcases ha with rfl | rfl | ha
    · exact Reach.refl _ _
    · exact hr
    · cases ha

theorem run_good (ls : List (ℕ × Act)) (h : sys.Meets (Sys.Beside Allowed) ls) :
    Inv (sys.run ls).sh ∧ ∀ t, Keeps t (sys.run ls).sh ((sys.run ls).loc t) := by
  obtain ⟨_, hI, hA, _⟩ := sys.meets_good Allowed (fun (_ : Unit) => Inv) (fun _ => Keeps) Apart
    ⟨(), init_inv, fun t => ⟨trivial, nofun⟩⟩ nofun (fun _ t m l a => step_ok t m l a) ls h
  exact ⟨hI, hA⟩

/-- **Only flagged nodes are marked.** In every run under the condition: in the state reached every marked node was
flagged by exactly one delete, which is in its call or has returned true; and in every step of the run a node becomes
MARKED only while a FLAGGED `succ` of the list points to it. -/
theorem marks_flagged (ls : List (ℕ × Act)) (h : sys.Meets (Sys.Beside Allowed) ls) :
    Flagged (sys.run ls) ∧
      ∀ k < ls.length, MarksFlagged (sys.run (ls.take k)).sh (sys.run (ls.take (k + 1))).sh := by
  refine ⟨?_, ?_⟩
  · obtain ⟨hI, hA⟩ := run_good ls h
    exact ⟨fun d hd => hI.once d (.inr hd), fun d t hd => (hA t).returns d hd⟩
  · -- the last step of a run, and before it the shorter run
    induction ls using List.reverseRecOn with
    | nil => nofun
    | append_singleton ls x ih =>
      obtain ⟨h', -⟩ := (sys.meets_snoc _ ls x).1 h
      intro k hk
      rw [List.length_append, List.length_singleton] at hk
      rw [sys.run_take_snoc ls x (by omega)]
      rcases Nat.lt_or_ge k ls.length with hlt | hge
      · rw [sys.run_take_snoc ls x hlt]
        exact ih h' k hlt
      · obtain rfl : k = ls.length := by omega
        obtain ⟨hI, hA⟩ := run_good ls h'
        rw [sys.run_take_length, List.take_of_length_le (by simp), Sys.run_snoc]
        exact (step_stepped hI (hA x.1).here x.1 x.2).marks

/-- key 5 is added; thread 0 flags its node and stops; thread 1, also deleting 5, helps it and returns false; thread 0
returns true -/
def helpedDelete : List (ℕ × Act) :=
  callSteps 0 (.add 5 50) 6 ++ callSteps 0 (.delete 5) 6 ++ callSteps 1 (.delete 5) 20 ++ List.replicate 12 (0, .step)

theorem marks_flagged_helped :
    (sys.run helpedDelete).sh.flags = [(3, 0)] ∧ (sys.run helpedDelete).sh.returned = [(3, 0)] ∧
      mark (sys.run helpedDelete).sh 3 = .MARKED ∧ Flagged (sys.run helpedDelete) ∧
      ∀ k < helpedDelete.length,
        MarksFlagged (sys.run (helpedDelete.take k)).sh (sys.run (helpedDelete.take (k + 1))).sh := by
  have hc : sys.Check Allowed 2 sys.init helpedDelete := by decide +kernel
  exact ⟨by decide +kernel, by decide +kernel, by decide +kernel, marks_flagged _ (sys.meets_of_check _ hc)⟩

/-! ## A node marked without a flag -/

/-- key 7 is added. Thread 0, deleting 7, reads that head points to its node. Thread 1 adds 5 before it and flags it, to
delete it. Thread 0 reads that the `succ` of head is flagged and helps to delete 7; up to the step that marks it -/
def redirected : List (ℕ × Act) :=
  callSteps 0 (.add 7 70) 6 ++ callSteps 0 (.delete 7) 3 ++ callSteps 1 (.add 5 50) 6 ++ callSteps 1 (.delete 5) 6 ++
    List.replicate 5 (0, .step)

/-- the step that marks it, and the rest of both calls -/
def returnedFalse : List (ℕ × Act) := redirected ++ List.replicate 8 (0, .step) ++ List.replicate 11 (1, .step)

/-- **A node is marked that nobody flagged.** The next step of thread 0 marks the node of key 7, to which no FLAGGED
`succ` points. When both calls have returned, the node is marked, no delete has flagged it, and delete(7) returned false. -/
theorem marked_unflagged :
    ¬ MarksFlagged (sys.run redirected).sh (sys.run (redirected ++ [(0, .step)])).sh ∧
      ¬ Flagged (sys.run returnedFalse) ∧ (sys.run returnedFalse).loc 0 = .ret (.delete none) ∧
      (sys.run returnedFalse).loc 1 = .ret (.delete (some 50)) := by
  refine ⟨fun h => ?_, fun h => ?_, by decide +kernel, by decide +kernel⟩
  · obtain ⟨p, hp, e⟩ := h 3 (by decide +kernel) (by decide +kernel)
    -- the nodes from head on are among the first five addresses
    have hclosed : ∀ a < 5, nx (sys.run redirected).sh a < 5 := by decide +kernel
    have hlt : p < 5 := hp.mem (S := {a | a < 5}) (by decide) hclosed
    have hno : ∀ p < 5, ref (sys.run redirected).sh p ≠ ⟨.FLAGGED, 3⟩ := by decide +kernel
    exact hno p hlt e
  · have := h.once 3 (by decide +kernel)
    exact absurd this (by decide +kernel)

end AlgorithmCollection.LockFreeList
