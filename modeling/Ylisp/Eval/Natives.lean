import Ylisp.Eval.Fuel
import Ylisp.Eval.Protect

/-!
# Native functions that do not evaluate anything

`Step` lets such a function return any value in any pool that has grown. Here the functions on
lists and symbol tables of `ylisp/nfunc.c` and `ylbase/nfunc.c` are what the source says, and
`Exact` is the evaluator that calls them. `step_of_exact` is the refinement: a step of this
evaluator is one of `Step`, as long as what is executed is valid. So its runs are runs of `Step`
(`run_of_exact`), and what holds of these holds of them.
-/

namespace Ylisp

namespace Eval

open Mempool Effect

variable {n : ℕ}

inductive Nfunc where
  | eq | equal | isSet | isTset | atom | car | cdr | cons | null | list
  deriving DecidableEq

namespace Nfunc

def code : Nfunc → ℕ
  | .eq => 0
  | .equal => 1
  | .isSet => 2
  | .isTset => 3
  | .atom => 4
  | .car => 5
  | .cdr => 6
  | .cons => 7
  | .null => 8
  | .list => 9

def ofCode (j : ℕ) : Option Nfunc :=
  [eq, equal, isSet, isTset, atom, car, cdr, cons, null, list][j]?

def sym : Nfunc → List UInt8
  | .eq => cstr "eq"
  | .equal => cstr "equal"
  | .isSet => cstr "set?"
  | .isTset => cstr "tset?"
  | .atom => cstr "atom"
  | .car => cstr "car"
  | .cdr => cstr "cdr"
  | .cons => cstr "cons"
  | .null => cstr "null"
  | .list => cstr "list"

theorem ofCode_code (f : Nfunc) : ofCode f.code = some f := by
  cases f <;> rfl

end Nfunc

def ylatom (e : Ref n) : Hp n (Ref n) := do pure (ylb2e (← yleisAtom e))

def ylnull (e : Ref n) : Hp n (Ref n) := do
  let atom ← yleisAtom e
  pure (ylb2e (atom && e = ylnil))

def listCons : ℕ → Ref n → Hp n (Ref n)
  | 0, _ => stuck
  | k + 1, e => do
      if e = ylnil then pure ylnil
      else
        let car ← ylcar e
        let rest ← listCons k (← ylcdr e)
        ylcons car rest

/-- `is_set` and `is_tset`, with the table that they look into. -/
def isSet (table : Pool n → Slut n) (k : ℕ) (e : Ref n) : Hp n (Ref n) := do
  let _ ← pcsz k e 1 1
  match ← symOf (← ylcar e) with
  | none => ylinterpretUndefined .funcInvalidParam
  | some sym =>
      let p ← get
      pure (ylb2e (ylsluGet (table p) sym).isSome)

def Nfunc.call (c : Etcxt n) (k : ℕ) (e : Ref n) : Nfunc → Hp n (Ref n)
  | .eq => do
      let _ ← pcsz k e 2 2
      let x ← ylcar e
      let y ← ylcadr e
      pure (ylb2e (x = y))
  | .equal => do
      let _ ← pcsz k e 2 2
      yleq c k (← ylcar e) (← ylcadr e)
  | .isSet => Eval.isSet Pool.gsym k e
  | .isTset => Eval.isSet c.table k e
  | .atom => do
      let _ ← pcsz k e 1 1
      ylatom (← ylcar e)
  | .car => do
      let _ ← pcsz k e 1 1
      ylcaar e
  | .cdr => do
      let _ ← pcsz k e 1 1
      ylcdar e
  | .cons => do
      let _ ← pcsz k e 2 2
      let x ← ylcar e
      let y ← ylcadr e
      ylcons x y
  | .null => do
      let _ ← pcsz k e 1 1
      ylnull (← ylcar e)
  | .list => do
      let _ ← pcsz k e 0 9999
      listCons k e

/-- The steps of the evaluator with these native functions. -/
inductive Exact (c : Etcxt n) : State n → Event → State n → Prop
  | step {s s' : State n} {ev : Event} (h : Step c s ev s')
      (hother : ∀ j e a, s.ctl = .call (.other j) e a → Nfunc.ofCode j = none ∨ ev = .kill) :
      Exact c s ev s'
  | ret {s : State n} {f : Nfunc} {k : ℕ} {e a v : Ref n} {q : Pool n}
      (hctl : s.ctl = .call (.other f.code) e a) (h : f.call c k e s.pool = .ok v q) :
      Exact c s .native { s.load q with ctl := .ret v }
  | fail {s : State n} {f : Nfunc} {k : ℕ} {e a : Ref n} {r : Parser.Ylerr} {q : Pool n}
      (hctl : s.ctl = .call (.other f.code) e a)
      (h : f.call c k e s.pool = .error (.undefined r) q) :
      Exact c s .nativeFail { s.load q with ctl := .exit r }

section Steady

variable (c : Etcxt n) (e : Ref n)

theorem steady_listCons : Steady fun k => listCons k e := by
  intro k
  induction k generalizing e with
  | zero => exact fun _ _ => approx_stuck
  | succ k ih =>
      intro k' hk
      obtain ⟨k', rfl, hle⟩ := exists_succ_of_succ_le hk
      refine .ite (fun _ => .refl _) fun _ => .bind (.refl _) fun _ => .bind (.refl _) fun _ => ?_
      exact .bind (ih _ _ hle) fun _ => .refl _

theorem steady_isSet (table : Pool n → Slut n) : Steady fun k => isSet table k e :=
  (steady_pcsz e 1 1).bind fun _ => steady_const _

theorem steady_call (f : Nfunc) : Steady fun k => f.call c k e := by
  cases f with
  | equal =>
      refine (steady_pcsz e 2 2).bind fun _ => (steady_const _).bind fun x => ?_
      exact (steady_const _).bind fun y => steady_yleq c x y
  | isSet => exact steady_isSet e _
  | isTset => exact steady_isSet e _
  | list => exact (steady_pcsz e 0 9999).bind fun _ => steady_listCons e
  | _ => exact (steady_pcsz e _ _).bind fun _ => steady_const _

end Steady

section Refine

variable {c : Etcxt n} {p : Pool n} {s s' : State n} {k : ℕ} {e : Ref n}

theorem wp_yleq (c : Etcxt n) (k : ℕ) (e1 e2 : Ref n) :
    Wp (Law.read _) (yleq c k e1 e2) p fun r _ => ∃ b, r = ylb2e b := by
  induction k generalizing e1 e2 with
  | zero => exact wp_stuck
  | succ k ih =>
      refine Wp.ite (fun _ => Wp.pure ⟨true, rfl⟩) fun _ => ?_
      refine Wp.read_bind (wp_yleisAtom p e1) fun _ _ => ?_
      refine Wp.read_bind (wp_yleisAtom p e2) fun _ _ => ?_
      refine Wp.ite (fun _ => ?_) fun _ => Wp.ite (fun _ => ?_) fun _ => Wp.pure ⟨false, rfl⟩
      · exact Wp.read_bind (Wp.ok (Q := fun _ _ => True) rfl trivial) fun _ _ => Wp.pure ⟨_, rfl⟩
      · refine Wp.read_bind (follows_ylcar p e1) fun _ _ => ?_
        refine Wp.read_bind (follows_ylcar p e2) fun _ _ => ?_
        refine Wp.read_bind (ih _ _) fun _ _ => Wp.ite (fun _ => Wp.pure ⟨false, rfl⟩) fun _ => ?_
        refine Wp.read_bind (follows_ylcdr p e1) fun _ _ => ?_
        refine Wp.read_bind (follows_ylcdr p e2) fun _ _ => ?_
        exact Wp.read_bind (ih _ _) fun _ _ => Wp.pure ⟨_, rfl⟩

theorem valid_ylb2e (b : Bool) : p.Valid (ylb2e b) := by
  cases b <;> trivial

theorem returns_listCons (k : ℕ) {e : Ref n} (he : p.Valid e) : Returns (listCons k e) p := by
  induction k generalizing p e with
  | zero => exact wp_stuck
  | succ k ih =>
      refine Wp.ite (fun _ => returns_pure trivial) fun _ => ?_
      refine follows_ylcar.bind he fun car hcar => follows_ylcdr.bind he fun cdr hcdr => ?_
      exact Wp.bind (ih hcdr) fun _ _ _ hle hr => returns_ylcons (hcar.grown hle) hr

theorem returns_isSet (table : Pool n → Slut n) (k : ℕ) (e : Ref n) :
    Returns (isSet table k e) p := by
  refine Wp.read_bind (reads_pcsz k e 1 1) fun _ _ => ?_
  refine Wp.read_bind (follows_ylcar p e) fun x _ => Wp.read_bind (reads_symOf x) fun o _ => ?_
  cases o with
  | none => exact wp_undefined
  | some sym =>
      exact Wp.read_bind (Wp.ok (Q := fun _ _ => True) rfl trivial) fun _ _ =>
        returns_pure (valid_ylb2e _)

/-- A native function lets the pool grow, and returns a valid element. -/
theorem returns_call (f : Nfunc) (he : p.Valid e) : Returns (f.call c k e) p := by
  cases f with
  | eq =>
      refine Wp.read_bind (reads_pcsz k e 2 2) fun _ _ => ?_
      refine Wp.read_bind (follows_ylcar p e) fun _ _ => ?_
      exact Wp.read_bind (follows_ylcadr p e) fun _ _ => returns_pure (valid_ylb2e _)
  | equal =>
      refine Wp.read_bind (reads_pcsz k e 2 2) fun _ _ => ?_
      refine Wp.read_bind (follows_ylcar p e) fun _ _ => ?_
      refine Wp.read_bind (follows_ylcadr p e) fun _ _ => ?_
      refine ((wp_yleq c k _ _).of_read).mono ?_
      rintro _ _ - - ⟨-, b, rfl⟩
      exact valid_ylb2e b
  | isSet => exact returns_isSet _ k e
  | isTset => exact returns_isSet _ k e
  | atom =>
      refine Wp.read_bind (reads_pcsz k e 1 1) fun _ _ => ?_
      refine Wp.read_bind (follows_ylcar p e) fun x _ => ?_
      exact Wp.read_bind (wp_yleisAtom p x) fun _ _ => returns_pure (valid_ylb2e _)
  | car =>
      refine Wp.read_bind (reads_pcsz k e 1 1) fun _ _ => Wp.of_inv fun hp => ?_
      refine ((follows_ylcaar p e).of_read).mono ?_
      rintro r _ - - ⟨rfl, hr⟩
      exact hp.valid_of_path he hr
  | cdr =>
      refine Wp.read_bind (reads_pcsz k e 1 1) fun _ _ => Wp.of_inv fun hp => ?_
      refine ((follows_ylcdar p e).of_read).mono ?_
      rintro r _ - - ⟨rfl, hr⟩
      exact hp.valid_of_path he hr
  | cons =>
      refine Wp.read_bind (reads_pcsz k e 2 2) fun _ _ => ?_
      exact follows_ylcar.bind he fun x hx => follows_ylcadr.bind he fun y hy =>
        returns_ylcons hx hy
  | null =>
      refine Wp.read_bind (reads_pcsz k e 1 1) fun _ _ => ?_
      refine Wp.read_bind (follows_ylcar p e) fun x _ => ?_
      exact Wp.read_bind (wp_yleisAtom p x) fun _ _ => returns_pure (valid_ylb2e _)
  | list =>
      exact Wp.read_bind (reads_pcsz k e 0 9999) fun _ _ => returns_listCons k he

end Refine

/-- A step with the native functions of the source is a step with any native functions, where
what waits is protected. -/
theorem step_of_exact {c : Etcxt n} {s s' : State n} {ev : Event} (hs : Kept s)
    (h : Exact c s ev s') : Step c s ev s' := by
  cases h with
  | step h => exact h
  | @ret f k e a v q hctl h =>
      have hargs := hs.ctl
      rw [hctl] at hargs
      have hcall := returns_call (c := c) (k := k) f (hargs.1.valid hs.good) hs.good
      rw [h] at hcall
      exact .native hctl ⟨hcall.2.1, fun _ => hcall.1⟩ fun _ _ => hcall.2.2
  | @fail f k e a r q hctl h =>
      have hargs := hs.ctl
      rw [hctl] at hargs
      have hcall := returns_call (c := c) (k := k) f (hargs.1.valid hs.good) hs.good
      rw [h] at hcall
      exact .nativeFail r hctl ⟨hcall.2, fun _ => hcall.1⟩

theorem kept_exact {c : Etcxt n} {s s' : State n} {ev : Event} (hs : Kept s)
    (hkeep : KeepsPending c s ev) (h : Exact c s ev s') : Kept s' :=
  kept_step s ev s' hs hkeep (step_of_exact hs h)

theorem exact_tick {c : Etcxt n} {s s' : State n} {k : ℕ} {erange : Bool}
    (h : s.next c k erange = some s') : Exact c s .tick s' := by
  refine .step (.tick k erange h) fun j e a hctl => ?_
  rw [State.next, hctl] at h
  cases h

theorem run_trace_exact {c : Etcxt n} {k j : ℕ} {s : State n} {tr : List (Event × State n)}
    (h : Exec.Run (Exact c) (s.after c k j) tr) :
    Exec.Run (Exact c) s (s.trace c k j ++ tr) := by
  induction j generalizing s with
  | zero => exact h
  | succ j ih =>
      rw [State.after] at h
      rw [State.trace]
      cases hnext : s.next c k false with
      | none =>
          rw [hnext] at h
          exact h
      | some s' =>
          rw [hnext] at h
          exact .cons (exact_tick hnext) (ih h)

theorem run_of_kept {c : Etcxt n} {s : State n} {tr : List (Event × State n)} (hs : Kept s)
    (hrun : Exec.Run (Exact c) s tr) (hkeep : Exec.AllSteps (KeepsPending c) s tr) :
    Exec.Run (Step c) s tr := by
  induction hrun with
  | nil s => exact .nil s
  | cons h _ ih =>
      obtain ⟨hk, hkeep⟩ := hkeep
      exact .cons (step_of_exact hs h) (ih (kept_exact hs hk h) hkeep)

/-- The evaluator with these native functions refines the one with any native functions, in
every run whose assignments to pairs keep what functions hold on to while they wait; and no
block that one of them still uses is given back to the pool. -/
theorem run_of_exact {c : Etcxt n} (p : Pool n) (hp : p.Good) (tr : List (Event × State n))
    (hrun : Exec.Run (Exact c) (State.init p) tr)
    (hkeep : Exec.AllSteps (KeepsPending c) (State.init p) tr) :
    Exec.Run (Step c) (State.init p) tr ∧ Exec.AllStates Protected (State.init p) tr := by
  have hstep := run_of_kept (kept_init p hp) hrun hkeep
  exact ⟨hstep, (hstep.allStates kept_step hkeep (kept_init p hp)).mono fun _ => Kept.isProtected⟩

/-- A pool with the expression `(atom x)` and the symbol `t` as the value of `x`. -/
def atomPool : Pool 8 :=
  poolOf 8
    [.pair (.at (.blk 1)) (.at (.blk 2)), .sym (cstr "atom"), .pair (.at (.blk 3)) (.at ylnil),
      .sym (cstr "x"), .nfunc (.other Nfunc.atom.code)]
    (symtab [(cstr "atom", .blk 4), (cstr "x", ylt)])

/-- The expression is evaluated up to the return of the native function. -/
theorem run_of_exact_atom :
    let c := plainCxt 8 false
    let s := State.init atomPool
    let s₁ := { s.load s.pool with ctl := .eval (.blk 0) ylnil }
    let s₂ := s₁.after c 4 9
    let s₃ := { s₂.load s₂.pool with ctl := .ret ylt }
    let tr := (Event.form, s₁) :: (s₁.trace c 4 9 ++ [(Event.native, s₃)])
    Exec.Run (Step c) s tr ∧ Exec.AllStates Protected s tr := by
  intro c s s₁ s₂ s₃ tr
  have hgood : atomPool.Good :=
    poolOf_good (by decide) (by simp [plain, below, ylnil]) (by simp [below, ylt])
  have hused : atomPool.Valid (.blk 0) := (poolOf_used (by decide) _ _).2 (by decide)
  have hform : Exact c s .form s₁ := by
    refine .step (.form rfl ⟨Pool.Grown.refl _, id⟩ hused) ?_
    rintro _ _ _ ⟨⟩
  have hcall : s₂.ctl = .call (.other Nfunc.atom.code) (.blk 5) ylnil := by decide +kernel
  have hatom : Nfunc.atom.call c 4 (.blk 5) s₂.pool = .ok ylt s₂.pool := rfl
  refine run_of_exact _ hgood _
    (.cons hform (run_trace_exact (.cons (.ret hcall hatom) (.nil s₃)))) ?_
  have hidle : Exec.AllSteps (fun s _ => reliesOnNothing s = true) s tr := by decide +kernel
  exact hidle.mono keepsPending_of_reliesOnNothing

end Eval

end Ylisp
