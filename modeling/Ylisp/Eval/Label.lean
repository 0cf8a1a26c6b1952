import Ylisp.Eval.Build
import Ylisp.Eval.Clone
import Ylisp.Eval.Local
import Ylisp.Eval.Number
import Ylisp.Library.Calls

/-!
# Recursion through the name of a label form

`_evlf_label` binds the name of the form to the form, a pair. `_evfunc_form` takes a binding
for a function only when its value is an atom, unless the kind of the name is macro, as
`_evlf_flabel` makes it; then the value is copied in the place of the name. `yields_iff` says
that a call by the name returns what the form returns in its place if and only if the name is
a macro symbol.
-/

namespace Ylisp

namespace Eval

open Mempool Effect

variable {n : ℕ}

def Labelled (p : Pool n) (lbl key a : Ref n) : Prop :=
  ∃ b w r d, p.obj a = .pair (.at b) r ∧ p.obj b = .pair (.at key) (.at w) ∧
    p.obj w = .pair (.at lbl) d

inductive Extends (p : Pool n) (nm : List UInt8) (a₀ : Ref n) : Ref n → Prop
  | refl : Extends p nm a₀ a₀
  | cons {a b r key : Ref n} {d : Ptr n} (ha : p.obj a = .pair (.at b) (.at r))
      (hb : p.obj b = .pair (.at key) d) (hkey : p.obj key ≠ .sym nm) (h : Extends p nm a₀ r) :
      Extends p nm a₀ a

/-- A label form is written down again, with other arguments. -/
def formOf (k : ℕ) (lbl args : Ref n) : Hp n (Ref n) := do
  let l ← listClone k lbl
  ylcons l args

/-- `yleval` evaluates `e'` in the place of the call `e`. -/
def State.instead (s : State n) (e a e' : Ref n) (q : Pool n) : State n :=
  { (s.entered e a).load q with ctl := .eval e' a }

def Yields (c : Etcxt n) (s : State n) (v : Ref n) : Prop :=
  ∃ t, Calls.Returns (Step c) State.frames s t ∧ t.ctl = .ret v

def State.result (c : Etcxt n) (k : ℕ) (fs : List (Frame n)) : ℕ → State n → Option (Ref n)
  | 0, _ => none
  | j + 1, s =>
      if s.frames = fs then
        match s.ctl with
        | .ret v => some v
        | _ => none
      else if fs <:+ s.frames.tail then
        match s.next c k false with
        | none => none
        | some s' => s'.result c k fs j
      else none

/-- A call by the name `nm` of the label form `lbl` is evaluated, in an environment that extends
the one that the form builds without binding the name again. -/
structure CallsLabel (s : State n) (e a lbl key args : Ref n) (nm : List UInt8) : Prop where
  good : s.pool.Good
  valid : s.pool.Valid e
  valid_env : s.pool.Valid a
  ctl : s.ctl = .eval e a
  call : ∃ f, s.pool.obj e = .pair (.at f) (.at args) ∧ s.pool.obj f = .sym nm
  name : s.pool.obj key = .sym nm
  pair : (s.pool.obj lbl).isAtom = false
  env : ∃ a₀, Labelled s.pool lbl key a₀ ∧ Extends s.pool nm a₀ a

section Find

variable {c : Etcxt n} {p : Pool n} {nm : List UInt8} {a a₀ f lbl key : Ref n}

theorem symOf_sym (hf : p.obj f = .sym nm) : symOf f p = .ok (some nm) p := by
  rw [symOf, hf]

/-- The first binding of the name is the one that the form has made. -/
theorem Extends.listFind (h : Extends p nm a₀ a) (henv : Labelled p lbl key a₀)
    (hkey : p.obj key = .sym nm) (hf : p.obj f = .sym nm) :
    ∃ b m, ylcar b p = .ok key p ∧ ylcadr b p = .ok lbl p ∧ 2 ≤ m ∧ ∀ k, listFind c k f a p =
      if m ≤ k then .ok (some b) p else .error .stuck p := by
  have hatom : (p.obj f).isAtom = true := by rw [hf]; rfl
  induction h with
  | refl =>
      obtain ⟨b, w, r, d, ha, hb, hw⟩ := henv
      have hcar : ylcar a₀ p = .ok b p := ylcar_pair ha
      have hkeyb : ylcar b p = .ok key p := ylcar_pair hb
      have hcaar : ylcaar a₀ p = .ok key p := (bind_of_ok hcar).trans hkeyb
      have hw' : ylcdr b p = .ok w p := ylcdr_pair hb
      refine ⟨b, 2, hkeyb, (bind_of_ok hw').trans (ylcar_pair hw), le_rfl, fun k => ?_⟩
      cases k with
      | zero => rfl
      | succ k =>
          rw [Eval.listFind, bind_of_ok (yleisAtom_pair ha), if_neg Bool.false_ne_true,
            bind_of_ok hcar, bind_of_ok (yleisAtom_pair hb), if_neg Bool.false_ne_true,
            bind_of_ok hcaar]
          cases k with
          | zero => rfl
          | succ k =>
              rw [bind_of_ok (yleq_atom c k key hatom), (sameAtom_sym hf).2 hkey,
                if_pos (ylb2e_ne_ylnil.2 rfl), bind_of_ok hcar, if_pos (by omega)]
              rfl
  | @cons a b r key' d ha hb hkey' _ ih =>
      obtain ⟨b', m, hkeyb, hval, hm, ih⟩ := ih
      have hcar : ylcar a p = .ok b p := ylcar_pair ha
      have hcaar : ylcaar a p = .ok key' p := (bind_of_ok hcar).trans (ylcar_pair hb)
      refine ⟨b', m + 1, hkeyb, hval, by omega, fun k => ?_⟩
      cases k with
      | zero => rfl
      | succ k =>
          rw [Eval.listFind, bind_of_ok (yleisAtom_pair ha), if_neg Bool.false_ne_true,
            bind_of_ok hcar, bind_of_ok (yleisAtom_pair hb), if_neg Bool.false_ne_true,
            bind_of_ok hcaar]
          cases k with
          | zero =>
              rw [if_neg (by omega)]
              rfl
          | succ k =>
              have hne : sameAtom c p key' f = false := by
                rw [← Bool.not_eq_true, sameAtom_sym hf]
                exact hkey'
              rw [bind_of_ok (yleq_atom c k key' hatom), hne,
                if_neg fun h => Bool.false_ne_true (ylb2e_ne_ylnil.1 h), bind_of_ok (ylcdr_pair ha),
                ih]
              simp only [Nat.add_le_add_iff_right]

end Find

section Call

variable {c : Etcxt n} {p q : Pool n} {nm : List UInt8} {e a b f lbl key args : Ref n} {k : ℕ}

theorem assoc_of_listFind (erange : Bool) (hf : p.obj f = .sym nm)
    (hfind : listFind c k f a p = .ok (some b) p) (hkey : ylcar b p = .ok key p)
    (hval : ylcadr b p = .ok lbl p) :
    assoc c erange k f a p = associated k (kindOf p key) lbl p := by
  rw [assoc, bind_of_ok (symOf_sym hf)]
  dsimp only
  rw [bind_of_ok hfind]
  dsimp only
  rw [bind_of_ok hkey, bind_of_ok (ylestype_eq p key), bind_of_ok hval]

theorem pair_of_listClone {l : Ref n} {d d' : Ptr n} (hp : p.Good) (hl : p.Valid lbl)
    (h : listClone k lbl p = .ok l q) (he : p.Valid e) (ho : p.obj e = .pair d d') :
    q.obj e = .pair d d' := by
  have hwp := wp_listClone k hl hp
  rw [h] at hwp
  cases e with
  | stat s => cases s <;> cases ho
  | blk b =>
      have ho' : (p.blk b).obj = .pair d d' := ho
      exact (hwp.2.1.fixed b he (by rw [ho']; rfl)).trans ho'

/-- `_evfunc_form` on a name that is bound to a pair. -/
theorem evfuncForm_label (erange : Bool) (hp : p.Good) (he : p.Valid e) (hl : p.Valid lbl)
    (ho : p.obj e = .pair (.at f) (.at args)) (hf : p.obj f = .sym nm)
    (hpair : (p.obj lbl).isAtom = false) (hfind : listFind c k f a p = .ok (some b) p)
    (hkey : ylcar b p = .ok key p) (hval : ylcadr b p = .ok lbl p) :
    evfuncForm c erange k e a p =
      if kindOf p key = symMac then (formOf k lbl args >>= fun e' => go (.eval e' a)) p
      else .error (.undefined .evalUndefined) p := by
  have hassoc := assoc_of_listFind erange hf hfind hkey hval
  have hcar : ylcar e p = .ok f p := ylcar_pair ho
  rw [evfuncForm, bind_of_ok hcar, bind_of_ok (symOf_sym hf)]
  dsimp only
  rw [bind_of_ok hcar]
  by_cases hmac : kindOf p key = symMac
  · rw [if_pos hmac]
    rw [associated, if_pos hmac] at hassoc
    cases hclone : listClone k lbl p with
    | ok l q =>
        have hq := pair_of_listClone hp hl hclone he ho
        rw [bind_of_ok hclone] at hassoc
        rw [bind_of_ok hassoc, hmac]
        dsimp only
        rw [if_pos rfl, bind_of_ok (ylcdr_pair hq), formOf, bind_assoc, bind_of_ok hclone]
    | error r q =>
        rw [bind_of_error hclone] at hassoc
        rw [bind_of_error hassoc, formOf, bind_assoc, bind_of_error hclone]
  · have hget : (get : Hp n (Pool n)) p = .ok p p := rfl
    rw [if_neg hmac]
    rw [associated, if_neg hmac] at hassoc
    rw [bind_of_ok hassoc]
    dsimp only
    rw [if_neg hmac, bind_of_ok hget]
    cases hobj : p.obj lbl with
    | pair d d' => rfl
    | _ =>
        rw [hobj] at hpair
        cases hpair

theorem evfuncForm_stuck (erange : Bool) (ho : p.obj e = .pair (.at f) (.at args))
    (hf : p.obj f = .sym nm) (hfind : listFind c k f a p = .error .stuck p) :
    evfuncForm c erange k e a p = .error .stuck p := by
  have hcar : ylcar e p = .ok f p := ylcar_pair ho
  have hassoc : assoc c erange k f a p = .error .stuck p := by
    rw [assoc, bind_of_ok (symOf_sym hf)]
    exact bind_of_error hfind
  rw [evfuncForm, bind_of_ok hcar, bind_of_ok (symOf_sym hf)]
  dsimp only
  rw [bind_of_ok hcar, bind_of_error hassoc]

theorem evalForm_sym (erange : Bool) (ho : p.obj e = .pair (.at f) (.at args))
    (hf : p.obj f = .sym nm) : evalForm c erange k e a p = evfuncForm c erange k e a p := by
  have hatom : yleisAtom f p = .ok true p := by
    rw [yleisAtom, hf]
    rfl
  rw [evalForm, bind_of_ok (yleisAtom_pair ho), if_neg Bool.false_ne_true,
    bind_of_ok (ylcar_pair ho), bind_of_ok hatom, if_pos rfl]

theorem Extends.congr {a₀ : Ref n} (h : Extends p nm a₀ a) (hobj : ∀ x, q.obj x = p.obj x) :
    Extends q nm a₀ a := by
  induction h with
  | refl => exact .refl
  | cons ha hb hkey _ ih =>
      exact .cons ((hobj _).trans ha) ((hobj _).trans hb) (by rwa [hobj]) ih

end Call

section Step

variable {c : Etcxt n} {s t : State n} {nm : List UInt8} {e a lbl key args : Ref n}

theorem good_entered (hp : s.pool.Good) (e a : Ref n) : (s.entered e a).pool.Good :=
  hp.congr rfl (fun _ => rfl) hp.tables

theorem Extends.path {p : Pool n} {a₀ : Ref n} (h : Extends p nm a₀ a) : p.Path a a₀ := by
  induction h with
  | refl => exact Relation.ReflTransGen.refl
  | cons ha _ _ _ ih => exact Relation.ReflTransGen.head ⟨_, _, ha, Or.inr rfl⟩ ih

theorem CallsLabel.valid_lbl (h : CallsLabel s e a lbl key args nm) : s.pool.Valid lbl := by
  obtain ⟨a₀, ⟨b, w, r, d, ha, hb, hw⟩, hext⟩ := h.env
  have hpath : s.pool.Path a lbl := ((hext.path.tail ⟨_, _, ha, Or.inl rfl⟩).tail
    ⟨_, _, hb, Or.inr rfl⟩).tail ⟨_, _, hw, Or.inl rfl⟩
  exact h.good.valid_of_path h.valid_env hpath

theorem next_of_callsLabel (h : CallsLabel s e a lbl key args nm) :
    ∃ m, ∀ k erange, s.next c k erange =
      if m ≤ k then
        if kindOf s.pool key = symMac then
          (s.entered e a).run (formOf k lbl args >>= fun e' => go (.eval e' a))
        else some { s.entered e a with ctl := .exit .evalUndefined }
      else none := by
  obtain ⟨f, ho, hf⟩ := h.call
  obtain ⟨a₀, henv, hext⟩ := h.env
  have hext' : Extends (s.entered e a).pool nm a₀ a := hext.congr fun _ => rfl
  obtain ⟨b, m, hkey, hval, -, hfind⟩ := hext'.listFind (c := c) henv h.name hf
  refine ⟨m, fun k erange => ?_⟩
  have ho' : (s.entered e a).pool.obj e = .pair (.at f) (.at args) := ho
  have hf' : (s.entered e a).pool.obj f = .sym nm := hf
  have hform := evalForm_sym (c := c) (k := k) (a := a) erange ho' hf'
  rw [State.next_eval h.ctl]
  split
  next hk =>
    have hlabel := evfuncForm_label erange (good_entered h.good e a) h.valid h.valid_lbl ho' hf'
      h.pair ((hfind k).trans (if_pos hk)) hkey hval
    rw [hlabel] at hform
    change _ = if kindOf s.pool key = symMac then _ else _ at hform
    split at hform
    next hmac =>
      rw [if_pos hmac, State.run, State.run, hform]
    next hmac =>
      rw [if_neg hmac]
      rw [State.run_undefined hform]
      rfl
  next hk =>
    rw [evfuncForm_stuck erange ho' hf' ((hfind k).trans (if_neg hk))] at hform
    exact State.run_stuck hform

theorem stuck_of_listClone {p q : Pool n} {x : Ref n} {k : ℕ} {r : Fault}
    (h : listClone k x p = .error r q) : r = .stuck := by
  have hpcar : ∀ {y : Ref n} {p q : Pool n} {r : Fault}, ylpcar y p = .error r q → r = .stuck := by
    intro y p q r h
    unfold ylpcar at h
    split at h <;> cases h
    rfl
  have hpcdr : ∀ {y : Ref n} {p q : Pool n} {r : Fault}, ylpcdr y p = .error r q → r = .stuck := by
    intro y p q r h
    unfold ylpcdr at h
    split at h <;> cases h
    rfl
  induction k generalizing x p q r with
  | zero =>
      cases h
      rfl
  | succ k ih =>
      have hatom : yleisAtom x p = .ok (p.obj x).isAtom p := rfl
      rw [listClone, bind_of_ok hatom] at h
      split at h
      · cases h
      · rcases error_of_bind h with h | ⟨y, p₁, -, h⟩
        · exact hpcar h
        rcases error_of_bind h with h | ⟨car, p₂, -, h⟩
        · exact ih h
        rcases error_of_bind h with h | ⟨z, p₃, -, h⟩
        · exact hpcdr h
        rcases error_of_bind h with h | ⟨cdr, p₄, -, h⟩
        · exact ih h
        · exact stuck_of_create h

theorem listClone_mono {p q : Pool n} {x r : Ref n} {k k' : ℕ} (h : listClone k x p = .ok r q)
    (hk : k ≤ k') : listClone k' x p = .ok r q := by
  induction k generalizing x p r q k' with
  | zero => cases h
  | succ k ih =>
      obtain ⟨k', rfl⟩ : ∃ m, k' = m + 1 := ⟨k' - 1, by omega⟩
      have hatom : yleisAtom x p = .ok (p.obj x).isAtom p := rfl
      rw [listClone, bind_of_ok hatom] at h ⊢
      split at h
      next hx =>
        rw [if_pos hx]
        exact h
      next hx =>
        rw [if_neg hx]
        obtain ⟨y, p₁, hy, h⟩ := ok_of_bind h
        obtain ⟨car, p₂, hcar, h⟩ := ok_of_bind h
        obtain ⟨z, p₃, hz, h⟩ := ok_of_bind h
        obtain ⟨cdr, p₄, hcdr, h⟩ := ok_of_bind h
        rw [bind_of_ok hy, bind_of_ok (ih hcar (by omega)), bind_of_ok hz,
          bind_of_ok (ih hcdr (by omega))]
        exact h

theorem formOf_mono {p q : Pool n} {r : Ref n} {k k' : ℕ} (h : formOf k lbl args p = .ok r q)
    (hk : k ≤ k') : formOf k' lbl args p = .ok r q := by
  obtain ⟨l, p₁, hl, h⟩ := ok_of_bind h
  exact (bind_of_ok (listClone_mono hl hk)).trans h

theorem stuck_of_formOf {p q : Pool n} {k : ℕ} {r : Fault}
    (h : formOf k lbl args p = .error r q) : r = .stuck := by
  rcases error_of_bind h with h | ⟨l, p₁, -, h⟩
  · exact stuck_of_listClone h
  · exact stuck_of_create h

/-- A call that has ended with an error returns nothing: the frames below it are left. -/
theorem exit_of_inner {fs : List (Frame n)} {w u : State n} {r : Parser.Ylerr}
    (hctl : w.ctl = .exit r)
    (hw : (∃ e a stk, w.frames = .yleval e a stk :: fs) ∨ ¬ Calls.Above State.frames fs w)
    (h : Relation.ReflTransGen (Calls.Inner (Step c) State.frames fs) w u) :
    u.ctl = .exit r := by
  suffices hu : u.ctl = .exit r ∧
      ((∃ e a stk, u.frames = .yleval e a stk :: fs) ∨ ¬ Calls.Above State.frames fs u) from hu.1
  induction h with
  | refl => exact ⟨hctl, hw⟩
  | @tail x y _ hxy ih =>
      obtain ⟨habove, ev, hstep⟩ := hxy
      obtain ⟨hx, hframes⟩ := ih
      obtain ⟨e, a, stk, hfs⟩ := hframes.resolve_right fun h => h habove
      cases hstep with
      | tick k erange hnext =>
          rw [State.next, hx] at hnext
          dsimp only at hnext
          rw [State.exit, hfs] at hnext
          cases hnext
          have hdrop : unwound fs <:+ fs := List.dropWhile_suffix _
          exact ⟨hx, Or.inr fun h => h.not_suffix hdrop⟩
      | kill hexit => exact absurd hx (hexit r)
      | form h | eof _ h | collect h | native h | nativeFail _ h | openFail h =>
          rw [hx] at h
          cases h

/-- The step of a call when the name is no macro symbol. -/
theorem exit_of_step (h : CallsLabel s e a lbl key args nm) (hmac : kindOf s.pool key ≠ symMac)
    {ev : Event} (hstep : Step c s ev t) :
    ∃ r, t.ctl = .exit r ∧
      (t.frames = .yleval e a s.evalstk :: s.frames ∨ t.frames = s.frames) := by
  obtain ⟨m, hnext⟩ := next_of_callsLabel (c := c) h
  cases hstep with
  | tick k erange hs =>
      rw [hnext, if_neg hmac] at hs
      split at hs
      · cases hs
        exact ⟨_, rfl, Or.inl rfl⟩
      · cases hs
  | kill hexit => exact ⟨_, rfl, Or.inr rfl⟩
  | form hctl | eof _ hctl | collect hctl | native hctl | nativeFail _ hctl | openFail hctl =>
      rw [h.ctl] at hctl
      cases hctl

/-- When the name is a macro symbol, the step of the call is the evaluation of the form. -/
theorem step_of_mac {k : ℕ} {e' : Ref n} {q : Pool n} (h : CallsLabel s e a lbl key args nm)
    (hform : formOf k lbl args (s.entered e a).pool = .ok e' q)
    (hmac : kindOf s.pool key = symMac) {ev : Event} (hstep : Step c s ev t) :
    ev = .kill ∨ t = s.instead e a e' q := by
  obtain ⟨m, hnext⟩ := next_of_callsLabel (c := c) h
  cases hstep with
  | tick k' erange hs =>
      right
      rw [hnext, if_pos hmac] at hs
      split at hs
      next =>
        cases hform' : formOf k' lbl args (s.entered e a).pool with
        | ok e'' q' =>
            have heq := (formOf_mono hform (le_max_left k k')).symm.trans
              (formOf_mono hform' (le_max_right k k'))
            cases heq
            rw [State.run, bind_of_ok hform'] at hs
            cases hs
            rfl
        | error r q' =>
            obtain rfl := stuck_of_formOf hform'
            rw [State.run, bind_of_error hform'] at hs
            cases hs
      next => cases hs
  | kill => exact Or.inl rfl
  | form hctl | eof _ hctl | collect hctl | native hctl | nativeFail _ hctl | openFail hctl =>
      rw [h.ctl] at hctl
      cases hctl

theorem not_yields (h : CallsLabel s e a lbl key args nm) (hmac : kindOf s.pool key ≠ symMac)
    (v : Ref n) : ¬ Yields c s v := by
  rintro ⟨u, ⟨-, s', ev, hstep, hinner⟩, hret⟩
  obtain ⟨r, hctl, hframes⟩ := exit_of_step h hmac hstep
  have hexit : u.ctl = .exit r := by
    refine exit_of_inner hctl ?_ hinner
    rcases hframes with hframes | hframes
    · exact Or.inl ⟨e, a, s.evalstk, hframes⟩
    · exact Or.inr fun h => h.not_suffix (by rw [hframes])
  rw [hret] at hexit
  cases hexit

/-- `yleval` returns what the evaluation that it ends with returns. -/
theorem yields_of_tail {v : Ref n} {ev : Event} {stk : List (Ref n)} (hstep : Step c s ev t)
    (ht : t.frames = .yleval e a stk :: s.frames) (hv : Yields c t v) : Yields c s v := by
  obtain ⟨u, hreturns, hret⟩ := hv
  have hu : u.frames = .yleval e a stk :: s.frames := hreturns.1.trans ht
  obtain ⟨pool, evalstk, frames, ctl⟩ := u
  obtain rfl : frames = .yleval e a stk :: s.frames := hu
  obtain rfl : ctl = .ret v := hret
  have hsafe : Step c ⟨pool, evalstk, .yleval e a stk :: s.frames, .ret v⟩ .tick _ :=
    .tick 0 false rfl
  refine ⟨_, hreturns.tail_call hstep ht (.head ⟨Calls.above_cons rfl, _, hsafe⟩
    (.single ⟨Calls.above_cons rfl, .tick, .tick 0 false rfl⟩)) rfl, rfl⟩

theorem inner_of_result {fs : List (Frame n)} {k j : ℕ} {v : Ref n}
    (h : s.result c k fs j = some v) :
    ∃ u, Relation.ReflTransGen (Calls.Inner (Step c) State.frames fs) s u ∧ u.frames = fs ∧
      u.ctl = .ret v := by
  induction j generalizing s with
  | zero => cases h
  | succ j ih =>
      rw [State.result] at h
      split at h
      next hfs =>
        split at h
        next v' hctl =>
          cases h
          exact ⟨s, .refl, hfs, hctl⟩
        next => cases h
      next hfs =>
        split at h
        next hsuffix =>
          split at h
          next => cases h
          next s' hnext =>
            obtain ⟨u, hu, hret⟩ := ih h
            refine ⟨u, .head ⟨?_, .tick, .tick k false hnext⟩ hu, hret⟩
            cases hframes : s.frames with
            | nil =>
                rw [hframes] at hsuffix hfs
                exact absurd (List.suffix_nil.1 hsuffix).symm hfs
            | cons f gs =>
                rw [hframes] at hsuffix
                exact ⟨f, gs, hframes, hsuffix⟩
        next => cases h

theorem yields_of_result (k j : ℕ) {v : Ref n}
    (h : ((s.next c k false).bind fun s' => s'.result c k s.frames j) = some v) :
    Yields c s v := by
  obtain ⟨s', hnext, h⟩ := Option.bind_eq_some_iff.1 h
  obtain ⟨u, hu, hfs, hret⟩ := inner_of_result h
  exact ⟨u, ⟨hfs, s', .tick, .tick k false hnext, hu⟩, hret⟩

end Step

/-- When the form returns `v`, a call by its name in the same place returns `v` if and only if
the kind of the name is macro. Then the call is nothing else but an evaluation of the form. -/
theorem yields_iff {c : Etcxt n} {s : State n} {e a lbl key args e' v : Ref n}
    {nm : List UInt8} {k : ℕ} {q : Pool n} (h : CallsLabel s e a lbl key args nm)
    (hform : formOf k lbl args (s.entered e a).pool = .ok e' q)
    (hv : Yields c (s.instead e a e' q) v) :
    (Yields c s v ↔ kindOf s.pool key = symMac) ∧
      (kindOf s.pool key = symMac →
        ∀ ev t, Step c s ev t → ev = .kill ∨ t = s.instead e a e' q) := by
  refine ⟨⟨fun hyields => ?_, fun hmac => ?_⟩, fun hmac _ _ => step_of_mac h hform hmac⟩
  · by_contra hmac
    exact not_yields h hmac v hyields
  · obtain ⟨m, hnext⟩ := next_of_callsLabel (c := c) h
    have hstep : Step c s .tick (s.instead e a e' q) := by
      refine .tick (max k m) false ?_
      rw [hnext, if_pos (le_max_right k m), if_pos hmac, State.run,
        bind_of_ok (formOf_mono hform (le_max_left k m))]
      rfl
    exact yields_of_tail hstep rfl hv

/-- A pool with the call `(f)`, the form `(label f (lambda () 0))` and the environment
`((x t) (f (label f (lambda () 0))))`. -/
def labelPool : Pool 32 :=
  poolOf 32
    [.pair (.at (.blk 1)) (.at ylnil), .sym (cstr "f"), .pair (.at (.blk 3)) (.at (.blk 4)),
      .sym (cstr "label"), .pair (.at (.blk 5)) (.at (.blk 6)), .sym (cstr "f"),
      .pair (.at (.blk 7)) (.at ylnil), .pair (.at (.blk 8)) (.at (.blk 9)),
      .sym (cstr "lambda"), .pair (.at ylnil) (.at (.blk 10)), .pair (.at (.blk 11)) (.at ylnil),
      .sym (cstr "0"), .pair (.at (.blk 5)) (.at (.blk 13)), .pair (.at (.blk 2)) (.at ylnil),
      .pair (.at (.blk 12)) (.at ylnil), .pair (.at (.blk 16)) (.at (.blk 17)),
      .sym (cstr "x"), .pair (.at ylt) (.at ylnil), .pair (.at (.blk 15)) (.at (.blk 14))]
    (symtab [])

def calling (ty : ℕ) : State 32 :=
  { State.init (poolAfter (setEstype (.blk 5) ty) labelPool) with ctl := .eval (.blk 0) (.blk 18) }

theorem callsLabel_calling (ty : ℕ) :
    CallsLabel (calling ty) (.blk 0) (.blk 18) (.blk 2) (.blk 5) ylnil (cstr "f") := by
  have hgood : labelPool.Good :=
    poolOf_good (by decide) (by simp [plain, below, ylnil, ylt]) (by simp)
  have hblk : ∀ b, ((calling ty).pool.blk b).obj = (labelPool.blk b).obj :=
    obj_setSt labelPool 5 ty
  have hobj : ∀ r, (calling ty).pool.obj r = labelPool.obj r := by
    intro r
    cases r with
    | stat s => rfl
    | blk b => exact hblk b
  have hused : ∀ b : Fin 32, b.val < 19 → (calling ty).pool.Valid (.blk b) := fun b hb =>
    (poolOf_used (n := 32) (by decide) b (symtab [])).2 hb
  have henv : Labelled (calling ty).pool (.blk 2) (.blk 5) (.blk 14) :=
    ⟨.blk 12, .blk 13, _, _, hobj _, hobj _, hobj _⟩
  have hext : Extends (calling ty).pool (cstr "f") (.blk 14) (.blk 18) := by
    refine .cons (hobj _) (hobj _) ?_ .refl
    rw [hobj]
    exact fun h => absurd (Obj.sym.inj h) (by decide)
  exact ⟨hgood.congr rfl hblk hgood.tables, hused 0 (by decide), hused 18 (by decide), rfl,
    ⟨.blk 1, hobj _, hobj _⟩, hobj _, by rw [hobj]; rfl, .blk 14, henv, hext⟩

def labelCopied (ty : ℕ) : Pool 32 :=
  poolAfter (formOf 10 (.blk 2) ylnil) ((calling ty).entered (.blk 0) (.blk 18)).pool

theorem formOf_calling (ty : ℕ) :
    formOf 10 (.blk 2) ylnil ((calling ty).entered (.blk 0) (.blk 18)).pool =
      .ok (.blk 25) (labelCopied ty) := rfl

/-- A name of the kind that `flabel` gives it. -/
theorem yields_iff_mac :
    let c := plainCxt 32 true
    let s := calling symMac
    let t := s.instead (.blk 0) (.blk 18) (.blk 25) (labelCopied symMac)
    (Yields c s (.blk 30) ↔ kindOf s.pool (.blk 5) = symMac) ∧
      (kindOf s.pool (.blk 5) = symMac → ∀ ev u, Step c s ev u → ev = .kill ∨ u = t) :=
  yields_iff (callsLabel_calling symMac) (formOf_calling symMac)
    (yields_of_result 12 11 (by decide +kernel))

/-- A name of the kind that the reader gives it. -/
theorem not_yields_label :
    ¬ ∀ (s : State 32) (e a lbl key args e' v : Ref 32) (nm : List UInt8) (k : ℕ) (q : Pool 32),
      CallsLabel s e a lbl key args nm →
      formOf k lbl args (s.entered e a).pool = .ok e' q →
      Yields (plainCxt 32 true) (s.instead e a e' q) v → Yields (plainCxt 32 true) s v := by
  intro h
  have hv : Yields (plainCxt 32 true)
      ((calling symDef).instead (.blk 0) (.blk 18) (.blk 25) (labelCopied symDef)) (.blk 30) :=
    yields_of_result 12 11 (by decide +kernel)
  have hcall := callsLabel_calling symDef
  exact not_yields hcall (by decide) _ (h _ _ _ _ _ _ _ _ _ _ _ hcall (formOf_calling symDef) hv)

end Eval

end Ylisp
