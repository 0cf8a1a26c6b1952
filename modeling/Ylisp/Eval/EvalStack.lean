import Ylisp.Eval.BaseBlocks

/-!
# The evaluation stack

`yleval` pushes its expression on `evalstk` and pops it before it returns.
`balanced_of_endsWell` says that the stack is then what it was at the call, as
long as no nested interpretation disturbs it: one that fails empties the stack
of the context that it shares with the calls that are waiting, and one that is
stopped leaves its own entries there.
-/

namespace Ylisp

namespace Eval

open Mempool

open Ylisp.Parser (Ylerr)

variable {n : ℕ}

/-- When `yleval` returns, its entry is on top of what was on the stack at its
call: the entry is popped from a stack that is not empty, and what remains is what
there was. -/
def Balanced (s : State n) : Prop :=
  ∀ e a stk fs v, s.frames = .yleval e a stk :: fs → s.ctl = .ret v →
    ∃ x, s.evalstk = x :: stk

/-- How the interpretation that ends was called: one called by `interpret` ends
without a failure and outside `yleval`, and one called by `interpret_file` that
ends without a failure ends outside `yleval`. -/
def NestedEndsWell (s : State n) (_ : Event) : Prop :=
  ∀ r caller bbs fs, s.ctl = .exit r →
    unwound s.frames = .interp caller bbs :: fs →
      match caller with
      | .top => True
      | .interpret => r = .ok ∧ s.frames = .interp caller bbs :: fs
      | .interpretFile _ => r = .ok → s.frames = .interp caller bbs :: fs

/-- The stack holds an entry for each call of `yleval` that waits, above what
there was at the call. -/
def Entries : List (Frame n) → List (Ref n) → Prop
  | [], _ => True
  | .yleval _ _ stk :: fs, l => (∃ x, l = x :: stk) ∧ Entries fs stk
  | _ :: fs, l => Entries fs l

def Ending (s : State n) : Prop :=
  (∃ r, s.ctl = .done r) ∨ ∃ r, s.ctl = .exit r ∧
    (r ≠ .ok ∨ ∃ bbs fs, unwound s.frames = .interp .top bbs :: fs)

def Ctl.Running : Ctl n → Prop
  | .exit _ | .done _ => False
  | _ => True

def Stacked (s : State n) : Prop := Ending s ∨ Entries s.frames s.evalstk

section Step

variable {c : Etcxt n} {s s' : State n}

theorem entries_pushWaits (ws : List (Wait n)) (h : Entries s.frames s.evalstk) :
    Entries (s.pushWaits ws).frames (s.pushWaits ws).evalstk := by
  induction ws with
  | nil => exact h
  | cons w ws ih => exact ih

theorem Stacked.run {x : Hp n (Go n)} (h : Entries s.frames s.evalstk)
    (hrun : s.run x = some s') : Stacked s' := by
  unfold State.run at hrun
  split at hrun
  next g q _ =>
    cases hrun
    exact Or.inr (entries_pushWaits g.push h)
  next r q _ =>
    cases hrun
    exact Or.inr h
  next => cases hrun

theorem Stacked.entries (h : Stacked s) {ctl : Ctl n} (hctl : s.ctl = ctl)
    (hrun : ctl.Running) : Entries s.frames s.evalstk := by
  rw [← hctl] at hrun
  rcases h with (⟨r, hr⟩ | ⟨r, hr, -⟩) | h
  · rw [hr] at hrun
    exact hrun.elim
  · rw [hr] at hrun
    exact hrun.elim
  · exact h

theorem Stacked.exit {r : Ylerr} (hs : Stacked s) (hctl : s.ctl = .exit r)
    (hend : NestedEndsWell s .tick) (h : s.exit r = some s') : Stacked s' := by
  unfold State.exit at h
  split at h
  next caller bbs fs hfs =>
    have hdrop : unwound s.frames = .interp caller bbs :: fs := by
      rw [hfs]
      rfl
    have hwell := hend r caller bbs fs hctl hdrop
    have hentries : caller ≠ .top → r = .ok → Entries fs s.evalstk := by
      rintro hcaller rfl
      rcases hs with (⟨r, hr⟩ | ⟨r, hr, hne | ⟨bbs', fs', htop⟩⟩) | hs
      · rw [hctl] at hr
        cases hr
      · rw [hctl] at hr
        cases hr
        exact absurd rfl hne
      · rw [hdrop] at htop
        cases htop
        exact absurd rfl hcaller
      · rw [hfs] at hs
        exact hs
    cases caller with
    | top =>
        cases h
        exact Or.inl (Or.inl ⟨r, rfl⟩)
    | interpret =>
        obtain ⟨rfl, -⟩ := hwell
        cases h
        exact Or.inr (hentries (by simp) rfl)
    | interpretFile e =>
        simp only [State.finish] at h
        split at h
        next hr =>
          subst hr
          exact Stacked.run (hentries (by simp) rfl) h
        next =>
          cases h
          exact Or.inl (Or.inr ⟨.funcFail, rfl, Or.inl (by simp)⟩)
  next hne =>
    cases h
    by_cases hr : r = .ok
    · rcases unwound_cases s.frames with hun | ⟨caller, bbs, fs, hun⟩
      · refine Or.inr ?_
        show Entries (unwound s.frames) s.evalstk
        rw [hun]
        trivial
      · have hwell := hend r caller bbs fs hctl hun
        cases caller with
        | top =>
            refine Or.inl (Or.inr ⟨r, hctl, Or.inr ⟨bbs, fs, ?_⟩⟩)
            show unwound (unwound s.frames) = _
            rw [hun]
            rfl
        | interpret => exact (hne _ _ _ hwell.2).elim
        | interpretFile e => exact (hne _ _ _ (hwell hr)).elim
    · exact Or.inl (Or.inr ⟨r, hctl, Or.inl hr⟩)

theorem Stacked.ret {k : ℕ} {v : Ref n} (hs : Entries s.frames s.evalstk)
    (h : s.ret c k v = some s') : Stacked s' := by
  unfold State.ret at h
  split at h
  next e a stk fs hfs =>
    cases h
    rw [hfs] at hs
    obtain ⟨⟨x, hx⟩, hfs⟩ := hs
    refine Or.inr ?_
    show Entries fs s.evalstk.tail
    rw [hx]
    exact hfs
  next =>
    cases h
    exact Or.inr hs
  next w fs hfs =>
    rw [hfs] at hs
    exact Stacked.run (entries_pushWaits _ hs) h
  next => cases h

theorem stacked_next {k : ℕ} {erange : Bool} (hs : Stacked s) (hend : NestedEndsWell s .tick)
    (h : s.next c k erange = some s') : Stacked s' := by
  unfold State.next at h
  split at h
  next e a hctl =>
    have hpush : Entries (.yleval e a s.evalstk :: s.frames) (e :: s.evalstk) :=
      ⟨⟨e, rfl⟩, hs.entries hctl trivial⟩
    exact Stacked.run hpush h
  next hctl => exact Stacked.run (hs.entries hctl trivial) h
  next hctl => exact Stacked.run (hs.entries hctl trivial) h
  next hctl => exact Stacked.run (hs.entries hctl trivial) h
  next hctl =>
    have hentries := hs.entries hctl trivial
    split at h
    next key a fs hfs =>
      rw [hfs] at hentries
      exact Stacked.run hentries h
    next => cases h
  next hctl => exact Stacked.run (hs.entries hctl trivial) h
  next hctl => exact Stacked.run (hs.entries hctl trivial) h
  next caller hctl =>
    have hentries := hs.entries hctl trivial
    cases h
    exact Or.inr hentries
  next v hctl => exact Stacked.ret (hs.entries hctl trivial) h
  next hctl =>
    have hentries := hs.entries hctl trivial
    split at h
    next r fs hfs =>
      cases h
      rw [hfs] at hentries
      exact Or.inr hentries
    next => cases h
  next r hctl => exact Stacked.exit hs hctl hend h
  next => cases h
  next => cases h

theorem stacked_step (s : State n) (e : Event) (s' : State n) (hs : Stacked s)
    (hend : NestedEndsWell s e) (h : Step c s e s') : Stacked s' := by
  cases h with
  | tick k erange h => exact stacked_next hs hend h
  | kill hexit hdone => exact Or.inl (Or.inr ⟨.killed, rfl, Or.inl nofun⟩)
  | form hctl | eof _ hctl | collect hctl | native hctl | nativeFail _ hctl
  | openFail hctl => exact Or.inr (hs.entries hctl trivial)

theorem Stacked.balanced (h : Stacked s) : Balanced s := by
  intro e a stk fs v hfs hctl
  have hentries := h.entries hctl trivial
  rw [hfs] at hentries
  exact hentries.1

end Step

/-- A pool with the expression `(interpret c)` and the text `)` as the value of
`c`. -/
def nestedPool : Pool 7 :=
  poolOf 7
    [.sym (cstr "interpret"), .sym (cstr "c"), .nfunc .interpret, .sym (cstr ")"),
      .pair (.at (.blk 0)) (.at (.blk 5)), .pair (.at (.blk 1)) (.at ylnil)]
    (symtab [(cstr "interpret", .blk 2), (cstr "c", .blk 3)])

/-- If a thread ends, it ends without a failure and outside `yleval`. -/
def endsPlainly (s : State n) : Bool :=
  match s.ctl, s.frames with
  | .exit r, .interp _ _ :: _ => r = .ok
  | .exit _, _ => false
  | _, _ => true

end Eval

end Ylisp
