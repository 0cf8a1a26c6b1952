import Ylisp.Eval.Assign
import Ylisp.Eval.BaseBlocks

/-!
# What waits is protected

No block that a waiting function still uses is given back to the pool, in every
run whose assignments to pairs leave the functions that wait what they rely on
(`protected_of_keepsPending`). `Guarded` is the invariant: the base blocks of the
frames are on the base-block stack, and pairs lead from them to the rest.

`not_protected` is an evaluation that takes the list from under the `progn` that
executes it.
-/

namespace Ylisp

namespace Eval

open Mempool Effect

open Ylisp.Parser (Ylerr)

variable {n : ℕ}

/-- What the functions that wait use is valid. -/
def Protected (s : State n) : Prop := ∀ f ∈ s.frames, ∀ r ∈ f.live, s.pool.Valid r

/-- After an assignment of a native function, pairs lead from the base blocks of the
functions below to each variable that a function has not registered itself. -/
def KeepsPending (c : Etcxt n) (s : State n) : Event → Prop
  | .tick => ∀ f e a, s.ctl = .call f e a → Keeps c f e a s.frames s.pool
  | _ => True

/-- The base blocks of the frames are registered, and the functions that wait are
protected by them. -/
structure Guarded (s : State n) : Prop where
  good : s.pool.Good
  bbs : (registered s.frames).Subperm s.pool.bbs
  frames : FramesOk s.pool s.frames

structure Kept (s : State n) : Prop extends Guarded s where
  ctl : CtlOk s.pool s.frames s.ctl

section Stack

variable {p : Pool n} {s : State n} {fs : List (Frame n)} {f : Frame n} {l : List (Ref n)}

theorem good_bbs (hp : p.Good) : Pool.Good { p with bbs := l } :=
  hp.congr rfl (fun _ => rfl) hp.tables

theorem FramesOk.bbs (h : FramesOk p fs) : FramesOk { p with bbs := l } fs :=
  ⟨h.valid, h.own, h.uses⟩

theorem CtlOk.bbs {ctl : Ctl n} (h : CtlOk p fs ctl) : CtlOk { p with bbs := l } fs ctl := by
  cases ctl <;> exact h

theorem FrameOk.bbs (h : FrameOk p fs f) : FrameOk { p with bbs := l } fs f :=
  ⟨h.bb, h.own, h.uses⟩

theorem GoOk.bbs {g : Go n} (h : GoOk p fs g) : GoOk { p with bbs := l } fs g := by
  obtain ⟨ws, ctl⟩ := g
  rcases ws with _ | ⟨w, _ | ⟨w', ws⟩⟩
  · exact CtlOk.bbs h
  · exact ⟨h.1.bbs, h.2.bbs⟩
  · exact h.elim

theorem Guarded.kept {ctl : Ctl n} (h : Guarded s) (hctl : CtlOk s.pool s.frames ctl) :
    Kept { s with ctl := ctl } :=
  ⟨⟨h.good, h.bbs, h.frames⟩, hctl⟩

theorem Guarded.push (h : Guarded s) (hf : FrameOk s.pool s.frames f) : Guarded (s.push f) := by
  have hpool : (s.push f).pool = { s.pool with bbs := f.bb.reverse ++ s.pool.bbs } :=
    foldl_ylmpAddBb f.bb s.pool
  refine ⟨?_, ?_, ?_⟩ <;> rw [hpool]
  · exact good_bbs h.good
  · exact (List.reverse_perm f.bb).symm.subperm.append h.bbs
  · exact (h.frames.cons hf).bbs

theorem pop_eq (s : State n) (f : Frame n) (fs : List (Frame n)) : s.pop f fs =
    { s with pool := { s.pool with bbs := s.pool.bbs.diff f.bb }, frames := fs } := by
  rw [State.pop, foldl_ylmpRmBb]

theorem Guarded.pop (h : Guarded s) (hfs : s.frames = f :: fs) : Guarded (s.pop f fs) := by
  have hbbs := h.bbs
  have hframes := h.frames
  rw [hfs] at hbbs hframes
  rw [pop_eq]
  refine ⟨good_bbs h.good, ?_, ?_⟩
  · exact (append_diff_perm f.bb (registered fs)).symm.subperm.trans (hbbs.diff_right f.bb)
  · exact hframes.tail.bbs

theorem pushWaits_eq (ws : List (Wait n)) : ∃ l, s.pushWaits ws =
    { s with pool := { s.pool with bbs := l }, frames := ws.map .wait ++ s.frames } := by
  induction ws with
  | nil => exact ⟨s.pool.bbs, rfl⟩
  | cons w ws ih =>
      obtain ⟨l, hl⟩ := ih
      refine ⟨w.bb.reverse ++ l, ?_⟩
      show (s.pushWaits ws).push (.wait w) = _
      rw [hl, State.push, foldl_ylmpAddBb]
      rfl

theorem Guarded.pushWaits (ws : List (Wait n)) (h : Guarded s)
    (hws : FramesOk s.pool (ws.map .wait ++ s.frames)) : Guarded (s.pushWaits ws) := by
  induction ws with
  | nil => exact h
  | cons w ws ih =>
      refine (ih hws.tail).push ?_
      obtain ⟨l, hl⟩ := pushWaits_eq (s := s) ws
      rw [hl]
      exact hws.head.bbs

theorem GoOk.framesOk {g : Go n} (h : GoOk p fs g) (hfs : FramesOk p fs) :
    FramesOk p (g.push.map .wait ++ fs) ∧ CtlOk p (g.push.map .wait ++ fs) g.ctl := by
  obtain ⟨ws, ctl⟩ := g
  rcases ws with _ | ⟨w, _ | ⟨w', ws⟩⟩
  · exact ⟨hfs, h⟩
  · exact ⟨hfs.cons h.1, h.2⟩
  · exact h.elim

/-- Functions start to wait, and the next one is executed. -/
theorem Guarded.goOk {g : Go n} (h : Guarded s) (hg : GoOk s.pool s.frames g) :
    Kept ({ s with ctl := g.ctl }.pushWaits g.push) := by
  obtain ⟨hframes, hctl⟩ := hg.framesOk h.frames
  have hctl' : Guarded { s with ctl := g.ctl } := ⟨h.good, h.bbs, h.frames⟩
  refine ⟨hctl'.pushWaits g.push hframes, ?_⟩
  obtain ⟨l, hl⟩ := pushWaits_eq (s := { s with ctl := g.ctl }) g.push
  rw [hl]
  exact hctl.bbs

theorem Guarded.load {q : Pool n} (h : Guarded s) (hq : q.Good)
    (hfs : FramesOk q s.frames) : Guarded (s.load q) :=
  ⟨good_bbs hq, h.bbs, hfs.bbs⟩

theorem Guarded.run {x : Hp n (Go n)} {s' : State n} (h : Guarded s)
    (hx : Wp (framed s.frames) x s.pool fun g q => GoOk q s.frames g)
    (hrun : s.run x = some s') : Kept s' := by
  have hout := hx ⟨h.good, h.frames⟩
  unfold State.run at hrun
  split at hrun
  next g q hxs =>
    rw [hxs] at hout
    obtain ⟨⟨hq, hfs⟩, -, hg⟩ := hout
    cases hrun
    exact Guarded.goOk (s := s.load q) (h.load hq hfs) hg.bbs
  next r q hxs =>
    rw [hxs] at hout
    cases hrun
    exact (h.load hout.1.1 hout.1.2).kept trivial
  next => cases hrun

theorem Guarded.unwind (h : Guarded s) (hfs : fs <:+ s.frames) :
    Guarded { s with frames := fs } := by
  obtain ⟨above, hfs'⟩ := hfs
  refine ⟨h.good, ?_, h.frames.suffix ⟨above, hfs'⟩⟩
  have hbbs := h.bbs
  rw [← hfs', registered, List.flatMap_append] at hbbs
  exact (List.sublist_append_right _ _).subperm.trans hbbs

theorem unwound_suffix (fs : List (Frame n)) : unwound fs <:+ fs := List.dropWhile_suffix _

end Stack

section Step

variable {c : Etcxt n} {s s' : State n} {k : ℕ} {fs : List (Frame n)}

theorem Guarded.exit {r : Ylerr} (hs : Guarded s) (hctl : s.ctl = .exit r)
    (h : s.exit r = some s') : Kept s' := by
  unfold State.exit at h
  split at h
  next caller bbs fs hfs =>
    have hframes := hs.frames
    rw [hfs] at hframes
    have hafter : Guarded ({ s with frames := fs }.showEvalStack r) := by
      have hfs' := hs.unwind (hfs ▸ List.suffix_cons _ fs)
      unfold State.showEvalStack
      split
      · exact hfs'
      · exact ⟨hfs'.good, hfs'.bbs, hfs'.frames⟩
    cases caller with
    | top =>
        cases h
        exact hafter.kept trivial
    | interpret =>
        cases h
        refine hafter.kept ?_
        split <;> exact trivial
    | interpretFile e =>
        have he : s.pool.Held (anchors fs) e := by
          simpa [Frame.uses, Caller.uses] using hframes.head.uses
        simp only [State.finish] at h
        split at h
        next hr =>
          subst hr
          refine Guarded.run (x := do go (.files (← ylcdr e))) hafter (Goes.framed ?_) h
          exact follows_ylcdr.held he fun d hd => goes_go hd
        next =>
          cases h
          exact hafter.kept trivial
  next =>
    cases h
    refine ⟨hs.unwind (unwound_suffix s.frames), ?_⟩
    show CtlOk s.pool (unwound s.frames) s.ctl
    rw [hctl]
    trivial

/-- A function is given the value that it waits for. -/
theorem Guarded.resume {w : Wait n} {v : Ref n} (hs : Guarded s)
    (hframes : FramesOk s.pool (.wait w :: s.frames)) (hv : s.pool.Valid v)
    (h : (s.pushWaits (w.next v)).run (w.resume c k v) = some s') : Kept s' := by
  have hguard := hs.pushWaits (w.next v) (framesOk_resumed hframes hv)
  obtain ⟨l, hl⟩ := pushWaits_eq (s := s) (w.next v)
  rw [hl] at hguard h
  have hgoes : Goes (resumed s.frames w v) (w.resume c k v) { s.pool with bbs := l } :=
    goes_resume hframes.bbs hv
  exact hguard.run hgoes.framed h

theorem Guarded.eval {e a : Ref n} {erange : Bool} (hs : Guarded s) (he : s.pool.Valid e)
    (ha : s.pool.Valid a)
    (h : ({ s with evalstk := e :: s.evalstk }.push (.yleval e a s.evalstk)).run
      (evalForm c erange k e a) = some s') : Kept s' := by
  have hpush : Guarded ({ s with evalstk := e :: s.evalstk }.push (.yleval e a s.evalstk)) := by
    refine Guarded.push ⟨hs.good, hs.bbs, hs.frames⟩ ⟨?_, ?_, nofun⟩
    · intro r hr
      rcases List.mem_cons.1 hr with rfl | hr
      · exact he
      · exact List.mem_singleton.1 hr ▸ ha
    · exact fun r hr => List.mem_append_left _ hr
  have hvalid := hpush.frames.valid
  refine hpush.run (Goes.framed (goes_evalForm ?_ ?_)) h
  · exact Pool.Held.of_mem List.mem_cons_self (hvalid e List.mem_cons_self)
  · have hmem : a ∈ [e, a] := List.mem_cons_of_mem _ List.mem_cons_self
    exact Pool.Held.of_mem (List.mem_append_left _ hmem) (hvalid a (List.mem_append_left _ hmem))

theorem Guarded.ret {v : Ref n} (hs : Guarded s) (hv : s.pool.Valid v)
    (h : s.ret c k v = some s') : Kept s' := by
  unfold State.ret at h
  split at h
  next e a stk fs hfs =>
    cases h
    have hpop : Guarded { s.pop (.yleval e a stk) fs with
        evalstk := s.evalstk.tail, ctl := .safe } :=
      ⟨(hs.pop hfs).good, (hs.pop hfs).bbs, (hs.pop hfs).frames⟩
    refine ⟨hpop.push ⟨?_, fun r hr => List.mem_append_left _ hr, nofun⟩, trivial⟩
    intro r hr
    rw [List.mem_singleton.1 hr, pop_eq]
    exact hv
  next =>
    cases h
    exact hs.kept trivial
  next w fs hfs =>
    have hframes := hs.frames
    rw [hfs] at hframes
    refine (hs.pop hfs).resume ?_ ?_ h <;> rw [pop_eq]
    · exact hframes.bbs
    · exact hv
  next => cases h

theorem kept_next {erange : Bool} (hs : Kept s) (hkeep : KeepsPending c s .tick)
    (h : s.next c k erange = some s') : Kept s' := by
  have hguard := hs.toGuarded
  have hctl := hs.ctl
  unfold State.next at h
  split at h
  next e a hs' =>
    rw [hs'] at hctl
    exact hguard.eval hctl.1 hctl.2 h
  next m a hs' =>
    rw [hs'] at hctl
    exact hguard.run (goes_ylevlis hctl.1 hctl.2).framed h
  next f e a hs' =>
    rw [hs'] at hctl
    exact hguard.run (wp_callFn hctl.1 hctl.2 (hkeep f e a hs')) h
  next key e a hs' =>
    rw [hs'] at hctl
    exact hguard.run (goes_caseTest hctl.1 hctl.2.1 hctl.2.2).framed h
  next e hs' =>
    rw [hs'] at hctl
    split at h
    next key a fs hfs =>
      have hframes := hguard.frames
      rw [hfs] at hframes hctl
      have ha : s.pool.Held (anchors fs) a := by
        simpa [Frame.uses, Wait.uses] using hframes.head.uses
      have hpop := hguard.pop hfs
      rw [pop_eq] at hpop h
      exact hpop.run (Goes.framed (goes_caseDone hctl ha)) h
    next => cases h
  next r w a hs' =>
    rw [hs'] at hctl
    have hr := hguard.frames.valid r hctl.1
    exact hguard.run (goes_mapTest hctl.1 hr hctl.2.1 hctl.2.2).framed h
  next e hs' =>
    rw [hs'] at hctl
    exact hguard.run (goes_files hctl).framed h
  next caller hs' =>
    rw [hs'] at hctl
    cases h
    have hctl' : Guarded { s with ctl := .parse } := ⟨hguard.good, hguard.bbs, hguard.frames⟩
    exact ⟨hctl'.push ⟨by simp [Frame.bb], by simp [Frame.own, Frame.bb], hctl⟩, trivial⟩
  next v hs' =>
    rw [hs'] at hctl
    exact hguard.ret hctl h
  next hs' =>
    split at h
    next r fs hfs =>
      cases h
      have hr := hguard.frames
      rw [hfs] at hr
      refine (hguard.pop hfs).kept ?_
      rw [pop_eq]
      exact hr.valid r List.mem_cons_self
    next => cases h
  next r hs' => exact hguard.exit hs' h
  next => cases h
  next => cases h

/-- The reader and the native functions let the pool grow. -/
theorem Guarded.grow {q : Pool n} (hs : Guarded s) (hq : Grows s.pool q) : Guarded (s.load q) :=
  hs.load (hq.good hs.good) (hs.frames.grown hs.good hq.grown)

/-- A collection keeps what can be reached from the base-block stack. -/
theorem Guarded.collect (hs : Guarded s) : Guarded { s with pool := gc s.pool } := by
  have hreg : registered s.frames ⊆ s.pool.bbs := hs.bbs.subset
  refine ⟨hs.good.gc, ?_, fun r hr => ?_, hs.frames.own, fun f fs hsuf r hr => ?_⟩
  · show (registered s.frames).Subperm (gc s.pool).bbs
    rw [gc_bbs]
    exact hs.bbs
  · exact ((Pool.Held.of_mem hr (hs.frames.valid r hr)).gc hs.good hreg).valid hs.good.gc
  · refine (hs.frames.uses f fs hsuf r hr).gc hs.good fun x hx => hreg ?_
    obtain ⟨g, hg, hx⟩ := List.mem_flatMap.1 (anchors_subset fs hx)
    exact List.mem_flatMap.2 ⟨g, hsuf.subset (List.mem_cons_of_mem f hg), hx⟩

theorem kept_step (s : State n) (e : Event) (s' : State n) (hs : Kept s)
    (hkeep : KeepsPending c s e) (h : Step c s e s') : Kept s' := by
  have hctl := hs.ctl
  cases h with
  | tick k erange h => exact kept_next hs hkeep h
  | form _ hq he => exact (hs.grow hq).kept ⟨he, trivial⟩
  | eof r _ hq => exact (hs.grow hq).kept trivial
  | collect hs' =>
      refine ⟨hs.collect, ?_⟩
      show CtlOk (gc s.pool) s.frames s.ctl
      rw [hs']
      trivial
  | kill => exact hs.kept trivial
  | @native q _ e a v hs' hq hv =>
      rw [hs'] at hctl
      have hvalid : q.Valid v := hv hs.good (hctl.1.valid hs.good)
      exact (hs.grow hq).kept hvalid
  | nativeFail r _ hq => exact (hs.grow hq).kept trivial
  | openFail => exact hs.kept trivial

theorem Kept.isProtected (h : Kept s) : Protected s := by
  intro f hf r hr
  obtain ⟨above, below, hfs⟩ := List.append_of_mem hf
  have hsuf : f :: below <:+ s.frames := ⟨above, hfs.symm⟩
  rcases List.mem_append.1 hr with hr | hr
  · exact (h.frames.suffix hsuf).valid r (h.frames.own f below hsuf r hr)
  · exact (h.frames.uses f below hsuf r hr).valid h.good

theorem kept_init (p : Pool n) (hp : p.Good) : Kept (State.init p) := by
  refine ⟨⟨hp, List.nil_subperm, nofun, fun f fs hsuf => ?_, fun f fs hsuf => ?_⟩, trivial⟩
  · rcases List.suffix_cons_iff.1 hsuf with h | h
    · cases h
      exact nofun
    · exact (List.cons_ne_nil f fs (List.suffix_nil.1 h)).elim
  · rcases List.suffix_cons_iff.1 hsuf with h | h
    · cases h
      exact nofun
    · exact (List.cons_ne_nil f fs (List.suffix_nil.1 h)).elim

/-- In a run whose assignments keep what functions hold on to, every collection leaves exactly the
blocks that were in use and can be reached, and their pairs as they were. -/
theorem collects_of_keepsPending (p : Pool n) (hp : p.Good) (tr : List (Event × State n))
    (hrun : Exec.Run (Step c) (State.init p) tr)
    (hkeep : Exec.AllSteps (KeepsPending c) (State.init p) tr) :
    Exec.AllStates (fun s => ∀ b, ((gc s.pool).m.Used b ↔ s.pool.m.Used b ∧ s.pool.Live (.blk b)) ∧
      ((gc s.pool).m.Used b → ∀ car cdr, (s.pool.blk b).obj = .pair car cdr →
        ((gc s.pool).blk b).obj = .pair car cdr)) (State.init p) tr := by
  refine (hrun.allStates kept_step hkeep (kept_init p hp)).mono fun s hs b => ?_
  have hwf := hs.good.wf
  refine ⟨gc_used_iff hwf b, fun hb car cdr ho => ?_⟩
  have hkept := gc_kept hwf hb
  rw [ho] at hkept
  exact hkept.eq_pair

/-- In every run of an evaluation whose assignments to pairs keep what functions hold on to
while they wait, no block that one of them still uses is given back to the pool. -/
theorem protected_of_keepsPending (p : Pool n) (hp : p.Good) (tr : List (Event × State n))
    (hrun : Exec.Run (Step c) (State.init p) tr)
    (hkeep : Exec.AllSteps (KeepsPending c) (State.init p) tr) :
    Exec.AllStates Protected (State.init p) tr :=
  (hrun.allStates kept_step hkeep (kept_init p hp)).mono fun _ => Kept.isProtected

end Step

/-- A pool with the expression `(setcdr x x)` and the list `(x)` as the value of `x`. -/
def assignPool : Pool 9 :=
  poolOf 9
    [.sym (cstr "setcdr"), .sym (cstr "x"), .nfunc .setcdr,
      .pair (.at (.blk 0)) (.at (.blk 4)), .pair (.at (.blk 1)) (.at (.blk 5)),
      .pair (.at (.blk 1)) (.at ylnil), .pair (.at (.blk 1)) (.at ylnil)]
    (symtab [(cstr "setcdr", .blk 2), (cstr "x", .blk 6)])

/-- Where a native function is called, no function relies on variables of others. -/
def reliesOnNothing (s : State n) : Bool :=
  match s.ctl with
  | .call _ _ _ => s.frames.all fun f => f.uses.isEmpty
  | _ => true

theorem keepsPending_of_reliesOnNothing {c : Etcxt n} (s : State n) (e : Event)
    (h : reliesOnNothing s = true) : KeepsPending c s e := by
  cases e with
  | tick =>
      intro f e a hctl k w q _ g fs hsuf r hr
      rw [reliesOnNothing, hctl] at h
      have hnil := List.all_eq_true.1 h g (hsuf.subset List.mem_cons_self)
      rw [List.isEmpty_iff.1 hnil] at hr
      cases hr
  | _ => trivial

/-- The expression is evaluated, and the collector runs at its last safe point. -/
theorem protected_of_keepsPending_assign :
    let c := plainCxt 9 false
    let s := State.init assignPool
    let s₁ := { s.load s.pool with ctl := .eval (.blk 3) ylnil }
    let s₂ := s₁.after c 4 18
    let s₃ := { s₂ with pool := gc s₂.pool }
    Exec.AllStates Protected s
      ((.form, s₁) :: (s₁.trace c 4 18 ++ (.collect, s₃) :: (s₃.trace c 4 2 ++ []))) := by
  intro c s s₁ s₂ s₃
  have hgood : assignPool.Good :=
    poolOf_good (by decide) (by simp [plain, below, ylnil]) (by simp [below])
  have hform : Step c s .form s₁ :=
    .form rfl ⟨Pool.Grown.refl _, id⟩ ((poolOf_used (by decide) _ _).2 (by decide))
  have hcollect : Step c s₂ .collect s₃ := .collect (by decide +kernel)
  refine protected_of_keepsPending _ hgood _
    (.cons hform (State.run_trace (.cons hcollect (State.run_trace (.nil _))))) ?_
  have hidle : Exec.AllSteps (fun s _ => reliesOnNothing s = true) s
      ((.form, s₁) :: (s₁.trace c 4 18 ++ (.collect, s₃) :: (s₃.trace c 4 2 ++ []))) := by
    decide +kernel
  exact hidle.mono keepsPending_of_reliesOnNothing

/-- A pool with the expression `(eval x)` and the list `(progn (setcdr x x))` as the
value of `x`. -/
def rewirePool : Pool 17 :=
  poolOf 17
    [.sym (cstr "eval"), .nfunc .eval, .sym (cstr "x"), .sym (cstr "progn"), .sfunc .progn,
      .sym (cstr "setcdr"), .nfunc .setcdr,
      .pair (.at (.blk 0)) (.at (.blk 8)), .pair (.at (.blk 2)) (.at ylnil),
      .pair (.at (.blk 3)) (.at (.blk 10)), .pair (.at (.blk 11)) (.at ylnil),
      .pair (.at (.blk 5)) (.at (.blk 12)), .pair (.at (.blk 2)) (.at (.blk 13)),
      .pair (.at (.blk 2)) (.at ylnil)]
    (symtab [(cstr "eval", .blk 1), (cstr "x", .blk 9), (cstr "progn", .blk 4),
      (cstr "setcdr", .blk 6)])

/-- The list that `progn` executes is taken from it, and given back to the pool when the
collector runs before `progn` goes on. -/
theorem not_protected : ¬∀ (p : Pool 17) (tr : List (Event × State 17)), p.Good →
    Exec.Run (Step (plainCxt 17 false)) (State.init p) tr →
      Exec.AllStates Protected (State.init p) tr := by
  intro h
  let c := plainCxt 17 false
  let s := State.init rewirePool
  let s₁ := { s.load s.pool with ctl := .eval (.blk 7) ylnil }
  let s₂ := s₁.after c 8 30
  let s₃ := { s₂ with pool := gc s₂.pool }
  have hgood : rewirePool.Good :=
    poolOf_good (by decide) (by simp [plain, below, ylnil]) (by simp [below])
  have hform : Step c s .form s₁ :=
    .form rfl ⟨Pool.Grown.refl _, id⟩ ((poolOf_used (by decide) _ _).2 (by decide))
  have hcollect : Step c s₂ .collect s₃ := .collect (by decide +kernel)
  have h₁ : ∀ tr, Exec.Run (Step c) s₁ tr → Exec.AllStates Protected s₁ tr := fun tr htr =>
    (Exec.allStates_cons.1 (h _ _ hgood (.cons hform htr))).2
  have hlast := State.allStates_after 8 30 h₁ (.cons hcollect (.nil s₃))
  have hprotected := (Exec.allStates_cons.1 hlast).2.1
  have hprogn : Frame.wait (.progn (.blk 10) ylnil) ∈ s₃.frames := by decide +kernel
  have hfreed : ¬ s₃.pool.m.Used 10 := by decide +kernel
  exact hfreed (hprotected _ hprogn (.blk 10) List.mem_cons_self)

end Eval

end Ylisp
