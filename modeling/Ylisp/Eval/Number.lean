import Ylisp.Eval.BaseBlocks
import Ylisp.Library.Effect

/-!
# Numbers

A symbol without a binding is given to `strtod`: it is a number when all of its text is
consumed and `errno` is not ERANGE. `_assoc` does not clear `errno` before the call, so that
an earlier range error counts, and the end of an empty text is at its start.

A `Thread` is the evaluator with the `errno` of the threads that it runs in; what `strtod` and
the native functions leave there stays. `numbers_iff` says for which runs the numbers depend
on their texts only.
-/

namespace Ylisp

namespace Eval

open Mempool Effect

variable {n : ℕ}

/-- `strtod`: the value of a text, the number of bytes that are consumed, and whether there is
a range error. -/
structure Strtod where
  value : List UInt8 → UInt64
  consumed : List UInt8 → ℕ
  range : List UInt8 → Bool
  consumed_le : ∀ s, consumed s ≤ s.length
  value_of_none : ∀ s, consumed s = 0 → value s = 0
  range_of_none : ∀ s, consumed s = 0 → range s = false

def Strtod.whole (S : Strtod) (s : List UInt8) : Option UInt64 :=
  if S.consumed s = s.length then some (S.value s) else none

def Strtod.cxt (S : Strtod) (c : Etcxt n) : Etcxt n := { c with strtod := S.whole }

def Strtod.Numeric (S : Strtod) (t : List UInt8) : Prop :=
  t ≠ [] ∧ S.consumed t = t.length ∧ S.range t = false

def unbound (c : Etcxt n) (k : ℕ) (x y : Ref n) : Hp n (Option (List UInt8)) := do
  match ← symOf x with
  | none => pure none
  | some sym =>
      match ← listFind c k x y with
      | some _ => pure none
      | none => do
          let p ← get
          match ylsluGet (c.table p) sym <|> ylsluGet p.gsym sym with
          | some _ => pure none
          | none => pure (some sym)

/-- The text that an evaluation of `e` gives to `strtod`: that of a symbol, or of the symbol of
a form. -/
def strtodText (c : Etcxt n) (k : ℕ) (e a : Ref n) : Hp n (Option (List UInt8)) := do
  if ← yleisAtom e then unbound c k e a
  else
    let f ← ylcar e
    if ← yleisAtom f then unbound c k f a else pure none

/-- `yleval` is entered. -/
def State.entered (s : State n) (e a : Ref n) : State n :=
  { s with evalstk := e :: s.evalstk }.push (.yleval e a s.evalstk)

def State.strtodText (c : Etcxt n) (k : ℕ) (s : State n) : Option (List UInt8) :=
  match s.ctl with
  | .eval e a =>
      match Eval.strtodText c k e a (s.entered e a).pool with
      | .ok t _ => t
      | .error _ _ => none
  | _ => none

/-- The evaluator, and for each call of `ylinterpret_internal` that runs, which is a thread of
its own, whether its `errno` is ERANGE; that of the last call first. -/
structure Thread (n : ℕ) where
  state : State n
  errnos : List Bool

namespace Thread

def errno (σ : Thread n) : Bool := σ.errnos.headD false

def erange (S : Strtod) (c : Etcxt n) (k : ℕ) (σ : Thread n) : Bool :=
  match σ.state.strtodText c k with
  | some t => σ.errno || S.range t
  | none => σ.errno

def errnosAfter (S : Strtod) (c : Etcxt n) (k : ℕ) (σ : Thread n) : List Bool :=
  match σ.state.ctl, σ.state.frames with
  | .start _, _ => false :: σ.errnos
  | .exit _, .interp _ _ :: _ => σ.errnos.tail
  | _, _ => σ.erange S c k :: σ.errnos.tail

end Thread

/-- The steps of a thread, labelled with the event and the bound of the recursions. The native
functions and the reader may leave anything in `errno`. -/
inductive ThreadStep (S : Strtod) (c : Etcxt n) : Thread n → Event × ℕ → Thread n → Prop
  | tick {σ : Thread n} {s' : State n} (k : ℕ)
      (h : σ.state.next (S.cxt c) k (σ.erange S (S.cxt c) k) = some s') :
      ThreadStep S c σ (.tick, k) ⟨s', σ.errnosAfter S (S.cxt c) k⟩
  | other {σ : Thread n} {s' : State n} {ev : Event} (k : ℕ) (errno : Bool) (hev : ev ≠ .tick)
      (h : Step (S.cxt c) σ.state ev s') :
      ThreadStep S c σ (ev, k) ⟨s', errno :: σ.errnos.tail⟩

def Evaluates (c : Etcxt n) (k : ℕ) (s : State n) (t : List UInt8) : Prop :=
  ∃ e a, s.ctl = .eval e a ∧ (s.pool.obj e).isAtom = true ∧ s.strtodText c k = some t

def IsNumber (s : State n) (d : UInt64) : Prop :=
  ∃ b, s.ctl = .ret (.blk b) ∧ (s.pool.blk b).obj = .dbl d

/-- A symbol without a binding is evaluated to the number of its text, if that is a number, and
fails otherwise. -/
def Lawful (S : Strtod) (c : Etcxt n) (σ : Thread n) (ev : Event × ℕ) : Prop :=
  ∀ t σ', ev.1 = .tick → Evaluates (S.cxt c) ev.2 σ.state t → ThreadStep S c σ ev σ' →
    (S.Numeric t → IsNumber σ'.state (S.value t)) ∧
      (¬ S.Numeric t → σ'.state.ctl = .exit .evalUndefined)

/-- At an empty text ERANGE is left in `errno`, and at a number it is not. -/
def ErrnoFits (S : Strtod) (c : Etcxt n) (σ : Thread n) (ev : Event × ℕ) : Prop :=
  ∀ t, ev.1 = .tick → Evaluates (S.cxt c) ev.2 σ.state t →
    (t = [] → σ.errno = true) ∧ (σ.errno = true → ¬ S.Numeric t)

section Number

variable {S : Strtod} {c : Etcxt n} {k : ℕ} {e a x y : Ref n} {p q : Pool n} {t : List UInt8}
  {erange : Bool}

theorem State.next_eval {s : State n} (hctl : s.ctl = .eval e a) :
    s.next c k erange = (s.entered e a).run (evalForm c erange k e a) := by
  obtain ⟨pool, evalstk, frames, ctl⟩ := s
  obtain rfl : ctl = .eval e a := hctl
  rfl

theorem State.run_ok {s : State n} {f : Hp n (Go n)} {g : Go n} (h : f s.pool = .ok g q) :
    s.run f = some ({ s.load q with ctl := g.ctl }.pushWaits g.push) := by
  rw [State.run, h]

theorem State.run_undefined {s : State n} {f : Hp n (Go n)} {r : Parser.Ylerr}
    (h : f s.pool = .error (.undefined r) q) : s.run f = some { s.load q with ctl := .exit r } := by
  rw [State.run, h]

theorem State.run_stuck {s : State n} {f : Hp n (Go n)} (h : f s.pool = .error .stuck q) :
    s.run f = none := by
  rw [State.run, h]

theorem symOf_ok (x : Ref n) (p : Pool n) : ∃ o, symOf x p = .ok o p := by
  rw [symOf]
  split <;> exact ⟨_, rfl⟩

theorem assoc_of_unbound (erange : Bool) (h : unbound c k x y p = .ok (some t) q) :
    assoc c erange k x y p =
      match c.strtod t, erange with
      | some d, false => (do let r ← create (.dbl d); pure (0, r) : Hp n (ℕ × Ref n)) q
      | _, _ => .error (.undefined .evalUndefined) q := by
  obtain ⟨o, ho⟩ := symOf_ok x p
  rw [unbound, bind_of_ok ho] at h
  rw [assoc, bind_of_ok ho]
  cases o with
  | none => cases h
  | some sym =>
      dsimp only at h ⊢
      cases hfind : listFind c k x y p with
      | error e p₁ =>
          rw [bind_of_error hfind] at h
          cases h
      | ok found p₁ =>
          rw [bind_of_ok hfind] at h ⊢
          cases found with
          | some r => cases h
          | none =>
              have hget : (get : Hp n (Pool n)) p₁ = .ok p₁ p₁ := rfl
              dsimp only at h ⊢
              rw [bind_of_ok hget] at h ⊢
              cases htab : (ylsluGet (c.table p₁) sym <|> ylsluGet p₁.gsym sym) with
              | some v =>
                  rw [htab] at h
                  cases h
              | none =>
                  rw [htab] at h
                  cases h
                  dsimp only
                  cases c.strtod t <;> cases erange <;> rfl

theorem strtodText_atom (hatom : (p.obj e).isAtom = true) :
    strtodText c k e a p = unbound c k e a p := by
  simp only [strtodText, bind, EStateM.bind, yleisAtom, hatom, if_true]

theorem evalForm_atom (erange : Bool) (hatom : (p.obj e).isAtom = true) :
    evalForm c erange k e a p = evatomForm c erange k e a p := by
  simp only [evalForm, bind, EStateM.bind, yleisAtom, hatom, if_true]

theorem evatomForm_of_unbound (erange : Bool) (h : unbound c k e a p = .ok (some t) q) :
    evatomForm c erange k e a p =
      match c.strtod t, erange with
      | some d, false => (do let r ← create (.dbl d); go (.ret r) : Hp n (Go n)) q
      | _, _ => .error (.undefined .evalUndefined) q := by
  obtain ⟨o, ho⟩ := symOf_ok e p
  have hassoc := assoc_of_unbound erange h
  cases o with
  | none =>
      simp only [unbound, bind, EStateM.bind, ho] at h
      cases h
  | some sym =>
      simp only [evatomForm, bind, EStateM.bind, ho, hassoc]
      cases c.strtod t with
      | none => rfl
      | some d =>
          cases erange with
          | true => rfl
          | false =>
              simp only
              cases create (.dbl d) q <;> rfl

theorem obj_of_create {o : Obj n} {r : Ref n} (h : create o p = .ok r q) :
    ∃ b, r = .blk b ∧ (q.blk b).obj = o := by
  rw [create] at h
  split at h
  next => cases h
  next b p₁ _ =>
    cases h
    exact ⟨b, rfl, by simp [Pool.setBlk]⟩

theorem stuck_of_create {o : Obj n} {f : Fault} (h : create o p = .error f q) : f = .stuck := by
  rw [create] at h
  split at h <;> cases h
  rfl

theorem next_of_evaluates {s s' : State n} (hs : Evaluates c k s t)
    (h : s.next c k erange = some s') :
    (∀ d, c.strtod t = some d → erange = false → IsNumber s' d) ∧
      (c.strtod t = none ∨ erange = true → s'.ctl = .exit .evalUndefined) := by
  obtain ⟨e, a, hctl, hatom, htext⟩ := hs
  rw [State.strtodText, hctl] at htext
  dsimp only at htext
  rw [State.next_eval hctl] at h
  have hatom' : ((s.entered e a).pool.obj e).isAtom = true := hatom
  rw [strtodText_atom hatom'] at htext
  split at htext
  next o q hunbound =>
    subst htext
    have hform := (evalForm_atom erange hatom').trans (evatomForm_of_unbound erange hunbound)
    constructor
    · rintro d hd rfl
      rw [hd] at hform
      simp only [bind, EStateM.bind] at hform
      cases hcreate : create (.dbl d) q with
      | error f q' =>
          rw [hcreate, stuck_of_create hcreate] at hform
          rw [State.run_stuck hform] at h
          cases h
      | ok r q' =>
          rw [hcreate] at hform
          obtain ⟨b, rfl, hb⟩ := obj_of_create hcreate
          rw [State.run_ok hform] at h
          cases h
          exact ⟨b, rfl, hb⟩
    · intro hnone
      have hform' : evalForm c erange k e a (s.entered e a).pool =
          .error (.undefined .evalUndefined) q := by
        rw [hform]
        rcases hnone with hnone | rfl
        · rw [hnone]
        · cases c.strtod t <;> rfl
      rw [State.run_undefined hform'] at h
      cases h
      rfl
  next => cases htext

theorem IsNumber.ctl_ne {s : State n} {d : UInt64} (h : IsNumber s d) :
    s.ctl ≠ .exit .evalUndefined := by
  obtain ⟨b, hctl, -⟩ := h
  rw [hctl]
  exact nofun

section Steps

variable {σ σ' : Thread n} {ev : Event × ℕ} {s' : State n}

theorem erange_of_evaluates (hs : Evaluates c k σ.state t) :
    σ.erange S c k = (σ.errno || S.range t) := by
  obtain ⟨e, a, -, -, htext⟩ := hs
  rw [Thread.erange, htext]

theorem whole_eq_some_iff {d : UInt64} :
    S.whole t = some d ↔ S.consumed t = t.length ∧ S.value t = d := by
  rw [Strtod.whole]
  split
  next h => simp [h]
  next h => simp [h]

theorem tick_of_evaluates (hs : Evaluates (S.cxt c) k σ.state t)
    (h : σ.state.next (S.cxt c) k (σ.erange S (S.cxt c) k) = some s') :
    (S.consumed t = t.length → σ.errno = false → S.range t = false → IsNumber s' (S.value t)) ∧
      (S.consumed t ≠ t.length ∨ σ.errno = true ∨ S.range t = true →
        s'.ctl = .exit .evalUndefined) := by
  rw [erange_of_evaluates hs] at h
  obtain ⟨hnumber, hexit⟩ := next_of_evaluates hs h
  constructor
  · intro hwhole herrno hrange
    refine hnumber _ (whole_eq_some_iff.2 ⟨hwhole, rfl⟩) ?_
    rw [herrno, hrange]
    rfl
  · rintro (hwhole | herrno | hrange)
    · exact hexit (Or.inl (if_neg hwhole))
    · exact hexit (Or.inr (by rw [herrno, Bool.true_or]))
    · exact hexit (Or.inr (by rw [hrange, Bool.or_true]))

theorem not_numeric_nil : ¬ S.Numeric [] := fun h => h.1 rfl

theorem consumed_nil : S.consumed [] = 0 := Nat.le_zero.1 (S.consumed_le [])

theorem lawful_iff (h : ThreadStep S c σ ev σ') : Lawful S c σ ev ↔ ErrnoFits S c σ ev := by
  cases h with
  | other k errno hev _ => exact iff_of_true (fun _ _ h => absurd h hev) fun _ h => absurd h hev
  | tick k h =>
      constructor
      · intro hlaw t _ hs
        obtain ⟨hnumber, hexit⟩ := tick_of_evaluates hs h
        obtain ⟨hyes, hno⟩ := hlaw t _ rfl hs (.tick k h)
        constructor
        · rintro rfl
          by_contra herrno
          have hrange := S.range_of_none [] consumed_nil
          exact (hnumber consumed_nil (Bool.not_eq_true _ ▸ herrno) hrange).ctl_ne
            (hno not_numeric_nil)
        · exact fun herrno ht => (hyes ht).ctl_ne (hexit (Or.inr (Or.inl herrno)))
      · intro hfits t σ' _ hs hstep
        obtain ⟨hnil, herrno⟩ := hfits t rfl hs
        cases hstep with
        | other _ _ hev _ => exact absurd rfl hev
        | tick _ h' =>
            obtain ⟨hnumber, hexit⟩ := tick_of_evaluates hs h'
            constructor
            · intro ht
              refine hnumber ht.2.1 ?_ ht.2.2
              exact Bool.eq_false_iff.2 fun h => herrno h ht
            · intro ht
              apply hexit
              by_cases hwhole : S.consumed t = t.length
              · right
                by_cases h0 : t = []
                · exact Or.inl (hnil h0)
                · right
                  by_contra hrange
                  exact ht ⟨h0, hwhole, Bool.eq_false_iff.2 hrange⟩
              · exact Or.inl hwhole

/-- In a run of a thread, the numbers depend on their texts only, as `strtod` takes them, if and
only if ERANGE is in `errno` when an empty text is evaluated, and not when a number is. -/
theorem numbers_iff {tr : List ((Event × ℕ) × Thread n)}
    (hrun : Exec.Run (ThreadStep S c) σ tr) :
    Exec.AllSteps (Lawful S c) σ tr ↔ Exec.AllSteps (ErrnoFits S c) σ tr := by
  induction hrun with
  | nil σ => exact Iff.rfl
  | cons h _ ih => exact and_congr (lawful_iff h) ih

end Steps

end Number

/-- `strtod` on the text of the number 0 and on texts that start with no number. -/
def zeroStrtod : Strtod where
  value := fun _ => 0
  consumed := fun s => if s = cstr "0" then 1 else 0
  range := fun _ => false
  consumed_le := by
    intro s
    split
    next h => rw [h]; decide
    next => exact Nat.zero_le _
  value_of_none := fun _ _ => rfl
  range_of_none := fun _ _ => rfl

/-- A native function leaves ERANGE, and then an empty text is evaluated, which fails. -/
theorem numbers_erange :
    let c := plainCxt 3 false
    let s : State 3 := { State.init (poolOf 3 [.sym []] (symtab [])) with
      ctl := .call (.other 0) ylnil ylnil }
    let s₁ := { s.load s.pool with ctl := .ret ylnil }
    let s₂ := { s₁ with ctl := .parse }
    let s₃ := { s₂.load s₂.pool with ctl := .eval (.blk 0) ylnil }
    ∃ σ, Exec.Run (ThreadStep zeroStrtod c) ⟨s, [false]⟩ [((.native, 2), ⟨s₁, [true]⟩),
        ((.tick, 2), ⟨s₂, [true]⟩), ((.form, 2), ⟨s₃, [true]⟩), ((.tick, 2), σ)] ∧
      Exec.AllSteps (Lawful zeroStrtod c) ⟨s, [false]⟩ [((.native, 2), ⟨s₁, [true]⟩),
        ((.tick, 2), ⟨s₂, [true]⟩), ((.form, 2), ⟨s₃, [true]⟩), ((.tick, 2), σ)] := by
  intro c s s₁ s₂ s₃
  have hnative : ThreadStep zeroStrtod c ⟨s, [false]⟩ (.native, 2) ⟨s₁, [true]⟩ :=
    .other 2 true nofun (.native rfl ⟨Pool.Grown.refl _, id⟩ fun _ _ => trivial)
  have hret : ThreadStep zeroStrtod c ⟨s₁, [true]⟩ (.tick, 2) ⟨s₂, [true]⟩ := .tick 2 rfl
  have hform : ThreadStep zeroStrtod c ⟨s₂, [true]⟩ (.form, 2) ⟨s₃, [true]⟩ :=
    .other 2 true nofun (.form rfl ⟨Pool.Grown.refl _, id⟩ ((poolOf_used (by decide) _ _).2
      (by decide)))
  have hrun := Exec.Run.cons hnative (.cons hret (.cons hform (.cons (.tick 2 rfl) (.nil _))))
  refine ⟨_, hrun, (numbers_iff hrun).2 ⟨?_, ?_, ?_, ?_, trivial⟩⟩
  · rintro t h
    cases h
  · rintro t - ⟨e, a, hctl, -⟩
    cases hctl
  · rintro t h
    cases h
  · rintro t - ⟨e, a, -, -, htext⟩
    obtain rfl : [] = t := Option.some.inj htext
    exact ⟨fun _ => rfl, fun _ => not_numeric_nil⟩

/-- The empty symbol is taken for the number 0. -/
theorem not_lawful_empty : ¬ ∀ tr, Exec.Run (ThreadStep zeroStrtod (plainCxt 3 false))
    ⟨State.init (poolOf 3 [.sym []] (symtab [])), [false]⟩ tr →
      Exec.AllSteps (Lawful zeroStrtod (plainCxt 3 false))
        ⟨State.init (poolOf 3 [.sym []] (symtab [])), [false]⟩ tr := by
  intro h
  let s := State.init (poolOf 3 [.sym []] (symtab []))
  have hform : ThreadStep zeroStrtod (plainCxt 3 false) ⟨s, [false]⟩ (.form, 2)
      ⟨{ s.load s.pool with ctl := .eval (.blk 0) ylnil }, [false]⟩ :=
    .other 2 false nofun
      (.form rfl ⟨Pool.Grown.refl _, id⟩ ((poolOf_used (by decide) _ _).2 (by decide)))
  have htick : ThreadStep zeroStrtod (plainCxt 3 false)
      ⟨{ s.load s.pool with ctl := .eval (.blk 0) ylnil }, [false]⟩ (.tick, 2) _ := .tick 2 rfl
  have hlaw := (h _ (.cons hform (.cons htick (.nil _)))).2.1
  have hexit := (hlaw [] _ rfl ⟨_, _, rfl, rfl, rfl⟩ htick).2 not_numeric_nil
  cases hexit

end Eval

end Ylisp
