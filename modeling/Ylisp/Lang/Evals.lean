import Ylisp.Lang.Bind

/-!
# The meaning of the language

`Evals` is what an expression evaluates to, on trees: it speaks of no pool, no stack and no
collector. Each rule is one way through `yleval`, through one of the forms of `sfunc.c`, or
through a native function. An association list gives the local names their values, and `Γ` the
global ones. The number is the one of the blocks that are taken on the way, garbage included.

Assignments and numbers are left out, and so are the expressions that fail.
-/

namespace Ylisp

namespace Lang

open Mempool Eval Effect

variable {n : ℕ}

namespace Tree

/-- `ylb2e`. -/
def ofBool (b : Bool) : Tree n := if b then .sym (cstr "t") else .nil

def isNil : Tree n → Bool
  | nil => true
  | _ => false

theorem isNil_eq_false_iff {t : Tree n} : t.isNil = false ↔ t ≠ .nil := by
  cases t <;> simp [isNil]

theorem isNil_ofBool (b : Bool) : (ofBool b : Tree n).isNil = !b := by
  cases b <;> rfl

def IsPlain : Tree n → Prop
  | nil => True
  | atom (.sym _) => True
  | pair t u => t.IsPlain ∧ u.IsPlain
  | _ => False

end Tree

/-- What is evaluated: an expression, the expressions of a list, a call of a native function with
its arguments, and the loops of `f_cond`, `f_and`, `f_or` and `progn`. -/
inductive Task (n : ℕ) where
  | eval (t : Tree n)
  | evlis (ts : List (Tree n))
  | call (f : Fn) (ts : List (Tree n))
  | evcon (cl : List (Tree n))
  | fAnd (ts : List (Tree n))
  | fOr (ts : List (Tree n))
  | progn (ts : List (Tree n))

inductive Gives : Nfunc → List (Tree n) → Tree n → ℕ → Prop
  | car {t u : Tree n} : Gives .car [.pair t u] t 0
  | cdr {t u : Tree n} : Gives .cdr [.pair t u] u 0
  | cons {t u : Tree n} : Gives .cons [t, u] (.pair t u) 1
  | atom {t : Tree n} : Gives .atom [t] (.ofBool t.isAtom) 0
  | null {t : Tree n} : Gives .null [t] (.ofBool t.isNil) 0
  | same {t : Tree n} (ht : t.IsPlain) : Gives .equal [t, t] (.ofBool true) 0
  | differ {t u : Tree n} (ht : t.IsPlain) (hu : u.IsPlain) (hne : t ≠ u) :
      Gives .equal [t, u] (.ofBool false) 0
  | unlike {t u : Tree n} (hne : t.isAtom ≠ u.isAtom) : Gives .equal [t, u] (.ofBool false) 0
  | list {ts : List (Tree n)} (hlen : ts.length ≤ 9999) : Gives .list ts (.list ts) ts.length

/-- The forms that `_evlambda_form` knows. -/
def lambdaForms : List (List UInt8) :=
  [cstr "lambda", cstr "mlambda", cstr "label", cstr "flabel"]

/-- `(label name fun . rest)`. -/
def labelForm (s : List UInt8) (f rest : Tree n) : Tree n :=
  .pair (.sym (cstr "label")) (.pair (.sym s) (.pair f rest))

/-- `(flabel name params body . rest)`. -/
def flabelForm (s : List UInt8) (ss : List (List UInt8)) (body rest : Tree n) : Tree n :=
  .pair (.sym (cstr "flabel"))
    (.pair (.sym s) (.pair (.list (ss.map Tree.sym)) (.pair body rest)))

inductive Evals (names : Set (List UInt8)) (Γ : Globals n) :
    Task n → Locals n → Tree n → ℕ → Prop
  -- `_evatom_form`
  | var {ρ : Locals n} {s : List UInt8} {t : Tree n}
      (h : Found names Γ ρ s false t) : Evals names Γ (.eval (.sym s)) ρ t 0
  | macVar {ρ : Locals n} {s : List UInt8} {m v : Tree n} {d : ℕ}
      (h : Found names Γ ρ s true m) (hm : Evals names Γ (.eval m) ρ v d) :
      Evals names Γ (.eval (.sym s)) ρ v (m.pairs + d)
  -- `_evfunc_form`
  | macCall {ρ : Locals n} {s : List UInt8} {m args v : Tree n} {d : ℕ}
      (h : Found names Γ ρ s true m) (hm : Evals names Γ (.eval (.pair m args)) ρ v d) :
      Evals names Γ (.eval (.pair (.sym s) args)) ρ v (m.pairs + 1 + d)
  | sfunc {ρ : Locals n} {s : List UInt8} {f : Fn} {ts : List (Tree n)} {v : Tree n} {d : ℕ}
      (h : Found names Γ ρ s false (.atom (.sfunc f)))
      (hf : Evals names Γ (.call f ts) ρ v d) :
      Evals names Γ (.eval (.pair (.sym s) (.list ts))) ρ v d
  | nfunc {ρ : Locals n} {s : List UInt8} {f : Fn} {ts vs : List (Tree n)} {v : Tree n} {d d' : ℕ}
      (h : Found names Γ ρ s false (.atom (.nfunc f)))
      (ha : Evals names Γ (.evlis ts) ρ (.list vs) d) (hf : Evals names Γ (.call f vs) ρ v d') :
      Evals names Γ (.eval (.pair (.sym s) (.list ts))) ρ v (d + d')
  -- `_evlambda_form`
  | lambda {ρ : Locals n} {ss : List (List UInt8)} {body rest v : Tree n}
      {ts vs : List (Tree n)} {d d' : ℕ} (ha : Evals names Γ (.evlis ts) ρ (.list vs) d)
      (hlen : ss.length = vs.length) (hss : ∀ s ∈ ss, s ∉ names)
      (hb : Evals names Γ (.eval body) (ss.zip vs ++ ρ) v d') :
      Evals names Γ (.eval (form (cstr "lambda") (.list (ss.map Tree.sym)) body rest (.list ts)))
        ρ v (d + (4 * ss.length + d'))
  | mlambdaNil {ρ : Locals n} {ts : List (Tree n)} {rest args v : Tree n} {d : ℕ} (hne : ts ≠ [])
      (h : Evals names Γ (.eval (Tree.onto args ts)) ρ v d) :
      Evals names Γ (.eval (form (cstr "mlambda") .nil (.list ts) rest args)) ρ v
        ((Tree.list ts).pairs + d)
  | mlambda {ρ : Locals n} {ss : List (List UInt8)} {t rest v : Tree n} {ts : List (Tree n)} {d : ℕ}
      (hss : ss ≠ []) (hlen : ss.length = ts.length)
      (ht : t.isAtom = false) (h : Evals names Γ (.eval (t.subst (ss.zip ts))) ρ v d) :
      Evals names Γ (.eval (form (cstr "mlambda") (.list (ss.map Tree.sym)) t rest (.list ts))) ρ v
        (t.pairs + 4 * ss.length + d)
  | label {ρ : Locals n} {s : List UInt8} {f rest args v : Tree n} {d : ℕ} (hs : s ∉ names)
      (h : Evals names Γ (.eval (.pair f args)) ((s, labelForm s f rest) :: ρ) v d) :
      Evals names Γ (.eval (.pair (labelForm s f rest) args)) ρ v (4 + d)
  | flabel {ρ : Locals n} {s : List UInt8} {ss : List (List UInt8)} {body rest v : Tree n}
      {ts vs : List (Tree n)} {d d' : ℕ} (hs : s ∈ names)
      (ha : Evals names Γ (.evlis ts) ρ (.list vs) d) (hlen : ss.length = vs.length)
      (hss : ∀ s ∈ ss, s ∉ names)
      (hb : Evals names Γ (.eval body) ((s, flabelForm s ss body rest) :: ss.zip vs) v d') :
      Evals names Γ (.eval (.pair (flabelForm s ss body rest) (.list ts))) ρ v
        (d + (3 * ss.length + 3 + d'))
  | ext {ρ : Locals n} {s : List UInt8} {u w args v : Tree n} {d d' : ℕ} (hs : s ∉ lambdaForms)
      (hw : Evals names Γ (.eval (.pair (.sym s) u)) ρ w d)
      (h : Evals names Γ (.eval (.pair w args)) ρ v d') :
      Evals names Γ (.eval (.pair (.pair (.sym s) u) args)) ρ v (d + (1 + d'))
  -- `ylevlis`
  | evlisNil {ρ : Locals n} : Evals names Γ (.evlis []) ρ .nil 0
  | evlisCons {ρ : Locals n} {t v u : Tree n} {ts : List (Tree n)} {d d' : ℕ}
      (ht : Evals names Γ (.eval t) ρ v d)
      (hts : Evals names Γ (.evlis ts) ρ u d') :
      Evals names Γ (.evlis (t :: ts)) ρ (.pair v u) (d + (d' + 1))
  -- native functions
  | native {ρ : Locals n} {f : Nfunc} {ts : List (Tree n)} {v : Tree n} {d : ℕ}
      (h : Gives f ts v d) : Evals names Γ (.call (.other f.code) ts) ρ v d
  | quote {ρ : Locals n} {t : Tree n} : Evals names Γ (.call .quote [t]) ρ t 0
  | apply {ρ : Locals n} {t v : Tree n} {ts : List (Tree n)} {d : ℕ} (hlen : ts.length < 9999)
      (h : Evals names Γ (.eval (.pair t (quoted ts))) ρ v d) :
      Evals names Γ (.call .apply (t :: ts)) ρ v (3 * ts.length + 1 + d)
  | evalFn {ρ : Locals n} {t v : Tree n} {d : ℕ}
      (h : Evals names Γ (.eval t) ρ v d) : Evals names Γ (.call .eval [t]) ρ v d
  | prognFn {ρ : Locals n} {ts : List (Tree n)} {v : Tree n} {d : ℕ}
      (hlen : ts.length ≤ 9999) (h : Evals names Γ (.progn ts) ρ v d) :
      Evals names Γ (.call .progn ts) ρ v d
  | fCond {ρ : Locals n} {cl : List (Tree n)} {v : Tree n} {d : ℕ}
      (hne : cl ≠ []) (hlen : cl.length ≤ 9999)
      (h : Evals names Γ (.evcon cl) ρ v d) : Evals names Γ (.call .fCond cl) ρ v d
  | fAnd {ρ : Locals n} {ts : List (Tree n)} {v : Tree n} {d : ℕ}
      (hne : ts ≠ []) (hlen : ts.length ≤ 9999)
      (h : Evals names Γ (.fAnd ts) ρ v d) : Evals names Γ (.call .fAnd ts) ρ v d
  | fOr {ρ : Locals n} {ts : List (Tree n)} {v : Tree n} {d : ℕ}
      (hne : ts ≠ []) (hlen : ts.length ≤ 9999)
      (h : Evals names Γ (.fOr ts) ρ v d) : Evals names Γ (.call .fOr ts) ρ v d
  -- `_evcon`
  | evconNil {ρ : Locals n} : Evals names Γ (.evcon []) ρ .nil 0
  | evconYes {ρ : Locals n} {t u rest w v : Tree n} {cl : List (Tree n)} {d d' : ℕ}
      (ht : t ≠ .nil) (hw : w ≠ .nil)
      (h : Evals names Γ (.eval t) ρ w d) (hu : Evals names Γ (.eval u) ρ v d') :
      Evals names Γ (.evcon (.pair t (.pair u rest) :: cl)) ρ v (d + d')
  | evconNo {ρ : Locals n} {t rest v : Tree n} {cl : List (Tree n)} {d d' : ℕ}
      (ht : t ≠ .nil) (h : Evals names Γ (.eval t) ρ .nil d)
      (hcl : Evals names Γ (.evcon cl) ρ v d') :
      Evals names Γ (.evcon (.pair t rest :: cl)) ρ v (d + d')
  -- the loops of `f_and`, `f_or` and `progn`
  | andNil {ρ : Locals n} : Evals names Γ (.fAnd []) ρ (.ofBool true) 0
  | andNo {ρ : Locals n} {t : Tree n} {ts : List (Tree n)} {d : ℕ}
      (h : Evals names Γ (.eval t) ρ .nil d) :
      Evals names Γ (.fAnd (t :: ts)) ρ .nil d
  | andYes {ρ : Locals n} {t w v : Tree n} {ts : List (Tree n)} {d d' : ℕ}
      (hw : w ≠ .nil) (h : Evals names Γ (.eval t) ρ w d)
      (hts : Evals names Γ (.fAnd ts) ρ v d') : Evals names Γ (.fAnd (t :: ts)) ρ v (d + d')
  | orNil {ρ : Locals n} : Evals names Γ (.fOr []) ρ .nil 0
  | orYes {ρ : Locals n} {t w : Tree n} {ts : List (Tree n)} {d : ℕ}
      (hw : w ≠ .nil) (h : Evals names Γ (.eval t) ρ w d) :
      Evals names Γ (.fOr (t :: ts)) ρ (.ofBool true) d
  | orNo {ρ : Locals n} {t v : Tree n} {ts : List (Tree n)} {d d' : ℕ}
      (h : Evals names Γ (.eval t) ρ .nil d)
      (hts : Evals names Γ (.fOr ts) ρ v d') : Evals names Γ (.fOr (t :: ts)) ρ v (d + d')
  | prognOne {ρ : Locals n} {t v : Tree n} {d : ℕ}
      (h : Evals names Γ (.eval t) ρ v d) : Evals names Γ (.progn [t]) ρ v d
  | prognCons {ρ : Locals n} {t u w v : Tree n} {ts : List (Tree n)} {d d' : ℕ}
      (h : Evals names Γ (.eval t) ρ w d)
      (hts : Evals names Γ (.progn (u :: ts)) ρ v d') :
      Evals names Γ (.progn (t :: u :: ts)) ρ v (d + d')

end Lang

end Ylisp
