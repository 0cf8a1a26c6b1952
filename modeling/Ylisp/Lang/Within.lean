import Ylisp.Lang.Base

/-!
# Evaluations within a bound

`Evals` counts the blocks exactly, which is not how an evaluation is reasoned about. `Within` says
that an expression evaluates to a value on at most `d` blocks; its rules are the ones that proofs
about programs use. A call of `cond`, `and` or `or` goes through the symbol table, a form of
mlambda, `apply` and a native function (`within_applied`), a call of a function of `base.yl`
through a form of flabel (`within_function`).
-/

namespace Ylisp

namespace Lang

open Mempool Eval

variable {n : ℕ}

/-- The task evaluates to `v` on at most `d` blocks. -/
def Within (names : Set (List UInt8)) (Γ : Globals n) (T : Task n) (ρ : Locals n) (v : Tree n)
    (d : ℕ) : Prop := ∃ d', d' ≤ d ∧ Evals names Γ T ρ v d'

section Rules

variable {names : Set (List UInt8)} {Γ : Globals n} {ρ : Locals n} {T : Task n}
  {t u v w : Tree n} {ts vs : List (Tree n)} {cl : List (Tree n × Tree n)} {s g : String}
  {d d' : ℕ}

theorem Evals.within (h : Evals names Γ T ρ v d) : Within names Γ T ρ v d := ⟨d, le_rfl, h⟩

theorem Within.mono (h : Within names Γ T ρ v d) (hd : d ≤ d') : Within names Γ T ρ v d' := by
  obtain ⟨i, hi, h⟩ := h
  exact ⟨i, hi.trans hd, h⟩

theorem within_var {x : List UInt8} (h : Found names Γ ρ x false t) :
    Within names Γ (.eval (.sym x)) ρ t 0 := (Evals.var h).within

theorem within_quote (h : Knows names Γ ρ) : Within names Γ (.eval (quote t)) ρ t 0 :=
  (Evals.sfunc (h.natives (cstr "quote", .sfunc .quote) (by simp [Yls.natives])) .quote).within

/-! ### Arguments -/

theorem within_nil : Within names Γ (.evlis []) ρ (.list []) 0 := Evals.evlisNil.within

theorem within_cons (ht : Within names Γ (.eval t) ρ v d)
    (hts : Within names Γ (.evlis ts) ρ (.list vs) d') :
    Within names Γ (.evlis (t :: ts)) ρ (.list (v :: vs)) (d + d' + 1) := by
  obtain ⟨i, hi, ht⟩ := ht
  obtain ⟨j, hj, hts⟩ := hts
  exact ⟨i + (j + 1), by omega, .evlisCons ht hts⟩

theorem within_one (h : Within names Γ (.eval t) ρ v d) :
    Within names Γ (.evlis [t]) ρ (.list [v]) (d + 1) := within_cons h within_nil

theorem within_two (ht : Within names Γ (.eval t) ρ v d) (hu : Within names Γ (.eval u) ρ w d') :
    Within names Γ (.evlis [t, u]) ρ (.list [v, w]) (d + d' + 2) :=
  (within_cons ht (within_one hu)).mono (by omega)

/-! ### Calls -/

theorem within_native (f : Nfunc) (h : Knows names Γ ρ)
    (hf : f ∈ [.eq, .equal, .atom, .car, .cdr, .cons, .null, .list])
    (hargs : Within names Γ (.evlis ts) ρ (.list vs) d) (hgives : Gives f vs v d') :
    Within names Γ (.eval (.pair (.sym f.sym) (.list ts))) ρ v (d + d') := by
  have hmem : (f.sym, .nfunc (.other f.code)) ∈ Yls.natives (n := n) :=
    List.mem_append_right _ (List.mem_map_of_mem hf)
  obtain ⟨i, hi, hargs⟩ := hargs
  exact ⟨i + d', by omega, .nfunc (h.natives _ hmem) hargs (.native hgives)⟩

theorem within_car (h : Knows names Γ ρ) (ht : Within names Γ (.eval t) ρ (.pair u v) d) :
    Within names Γ (.eval (call "car" [t])) ρ u (d + 1) :=
  (within_native .car h (by decide) (within_one ht) .car).mono le_rfl

theorem within_cdr (h : Knows names Γ ρ) (ht : Within names Γ (.eval t) ρ (.pair u v) d) :
    Within names Γ (.eval (call "cdr" [t])) ρ v (d + 1) :=
  (within_native .cdr h (by decide) (within_one ht) .cdr).mono le_rfl

theorem within_atom (h : Knows names Γ ρ) (ht : Within names Γ (.eval t) ρ v d) :
    Within names Γ (.eval (call "atom" [t])) ρ (.ofBool v.isAtom) (d + 1) :=
  (within_native .atom h (by decide) (within_one ht) .atom).mono le_rfl

theorem within_null (h : Knows names Γ ρ) (ht : Within names Γ (.eval t) ρ v d) :
    Within names Γ (.eval (call "null" [t])) ρ (.ofBool v.isNil) (d + 1) :=
  (within_native .null h (by decide) (within_one ht) .null).mono le_rfl

theorem within_consed (h : Knows names Γ ρ) (ht : Within names Γ (.eval t) ρ v d)
    (hu : Within names Γ (.eval u) ρ w d') :
    Within names Γ (.eval (call "cons" [t, u])) ρ (.pair v w) (d + d' + 3) :=
  (within_native .cons h (by decide) (within_two ht hu) .cons).mono le_rfl

theorem within_listed (h : Knows names Γ ρ) (ht : Within names Γ (.eval t) ρ v d)
    (hu : Within names Γ (.eval u) ρ w d') :
    Within names Γ (.eval (call "list" [t, u])) ρ (.list [v, w]) (d + d' + 4) := by
  have hlen : [v, w].length ≤ 9999 := Nat.le_of_ble_eq_true rfl
  exact (within_native .list h (by decide) (within_two ht hu) (.list hlen)).mono le_rfl

theorem within_equal {b : Bool} (h : Knows names Γ ρ) (ht : Within names Γ (.eval t) ρ v d)
    (hu : Within names Γ (.eval u) ρ w d') (hv : v.IsPlain) (hw : w.IsPlain)
    (hb : b = true ↔ v = w) :
    Within names Γ (.eval (call "equal" [t, u])) ρ (.ofBool b) (d + d' + 2) := by
  have hgives : Gives .equal [v, w] (.ofBool b) 0 := by
    cases b with
    | true =>
        obtain rfl := hb.1 rfl
        exact .same hv
    | false => exact .differ hv hw fun h => Bool.false_ne_true (hb.2 h)
  exact (within_native .equal h (by decide) (within_two ht hu) hgives).mono le_rfl

theorem evals_quoted (h : Knows names Γ ρ) (ts : List (Tree n)) :
    Evals names Γ (.evlis (ts.map fun t => Tree.list [.sym (cstr "quote"), t])) ρ (.list ts)
      ts.length := by
  induction ts with
  | nil => exact .evlisNil
  | cons t ts ih =>
      have ht : Evals names Γ (.eval (quote t)) ρ t 0 :=
        .sfunc (h.natives (cstr "quote", .sfunc .quote) (by simp [Yls.natives])) .quote
      have h := Evals.evlisCons ht ih
      rwa [Nat.zero_add] at h

/-- A form that applies a native function to its arguments. -/
theorem within_applied {f : Fn} (h : Knows names Γ ρ)
    (hs : (cstr s, applied g) ∈ Yls.macros (n := n))
    (hg : (cstr g, .nfunc f) ∈ Yls.natives (n := n)) (hlen : ts.length < 9999)
    (hf : Within names Γ (.call f ts) ρ v d) :
    Within names Γ (.eval (call s ts)) ρ v (9 + 4 * ts.length + d) := by
  obtain ⟨i, hi, hf⟩ := hf
  have hcall : Evals names Γ (.eval (.pair (var g) (quoted ts))) ρ v (ts.length + i) :=
    .nfunc (h.natives _ hg) (evals_quoted h ts) hf
  have happly : Evals names Γ (.eval (.pair (var "apply") (.list (var g :: ts)))) ρ v
      (3 * ts.length + 1 + (ts.length + i)) :=
    .sfunc (h.natives (cstr "apply", .sfunc .apply) (by simp [Yls.natives])) (.apply hlen hcall)
  have hform : Evals names Γ (.eval (.pair (applied g) (.list ts))) ρ v
      (2 + (3 * ts.length + 1 + (ts.length + i))) :=
    .mlambdaNil (List.cons_ne_nil (var "apply") [var g]) happly
  have hpairs : (applied g : Tree n).pairs = 5 := rfl
  exact ⟨_, by rw [hpairs]; omega, .macCall (h.macros _ hs) hform⟩

theorem within_function {F : Defun n} (hlib : Loaded names Γ) (h : Knows names Γ ρ)
    (hF : F ∈ Yls.functions) (hargs : Within names Γ (.evlis ts) ρ (.list vs) d)
    (hlen : F.params.length = vs.length)
    (hbody : Within names Γ (.eval F.body) (F.env vs) v d') :
    Within names Γ (.eval (.pair (.sym F.name) (.list ts))) ρ v
      (F.form.pairs + 3 * F.params.length + 4 + d + d') := by
  obtain ⟨i, hi, hargs⟩ := hargs
  obtain ⟨j, hj, hbody⟩ := hbody
  have hform : Evals names Γ (.eval (.pair F.form (.list ts))) ρ v
      (i + (3 * F.params.length + 3 + j)) :=
    .flabel (hlib.mem_names F hF) hargs hlen (hlib.params F hF) hbody
  exact ⟨_, by omega, .macCall (h.functions F hF) hform⟩

/-! ### Forms -/

theorem within_cond (h : Knows names Γ ρ) (hne : cl ≠ []) (hlen : cl.length < 9999)
    (hcl : Within names Γ (.evcon (clauses cl)) ρ v d) :
    Within names Γ (.eval (cond cl)) ρ v (9 + 4 * cl.length + d) := by
  have hlen' : (clauses cl).length = cl.length := List.length_map _
  obtain ⟨i, hi, hcl⟩ := hcl
  have hcall : Within names Γ (.call .fCond (clauses cl)) ρ v d :=
    ⟨i, hi, .fCond (fun h => hne (List.map_eq_nil_iff.1 h)) (by omega) hcl⟩
  have hs : (cstr "cond", applied "f-cond") ∈ Yls.macros (n := n) := by simp [Yls.macros]
  have hg : (cstr "f-cond", .nfunc .fCond) ∈ Yls.natives (n := n) := by simp [Yls.natives]
  have hcond := within_applied h hs hg (by omega) hcall
  rwa [hlen'] at hcond

theorem within_yes (ht : t ≠ .nil) (hw : w ≠ .nil) (h : Within names Γ (.eval t) ρ w d)
    (hu : Within names Γ (.eval u) ρ v d') :
    Within names Γ (.evcon (clauses ((t, u) :: cl))) ρ v (d + d') := by
  obtain ⟨i, hi, h⟩ := h
  obtain ⟨j, hj, hu⟩ := hu
  exact ⟨i + j, by omega, .evconYes ht hw h hu⟩

theorem within_no (ht : t ≠ .nil) (h : Within names Γ (.eval t) ρ .nil d)
    (hcl : Within names Γ (.evcon (clauses cl)) ρ v d') :
    Within names Γ (.evcon (clauses ((t, u) :: cl))) ρ v (d + d') := by
  obtain ⟨i, hi, h⟩ := h
  obtain ⟨j, hj, hcl⟩ := hcl
  exact ⟨i + j, by omega, .evconNo ht h hcl⟩

theorem within_end : Within names Γ (.evcon (clauses [])) ρ .nil 0 := Evals.evconNil.within

theorem within_else (h : Knows names Γ ρ) (hu : Within names Γ (.eval u) ρ v d) :
    Within names Γ (.evcon (clauses ((quote (var "t"), u) :: cl))) ρ v d :=
  (within_yes (by simp [quote, call]) (by simp [var]) (within_quote h) hu).mono (Nat.zero_add d).le

theorem ofBool_true_ne : (Tree.ofBool true : Tree n) ≠ .nil := by
  simp [Tree.ofBool]

theorem within_and {a b : Bool} (h : Knows names Γ ρ)
    (ht : Within names Γ (.eval t) ρ (.ofBool a) d)
    (hu : a = true → Within names Γ (.eval u) ρ (.ofBool b) d') :
    Within names Γ (.eval (call "and" [t, u])) ρ (.ofBool (a && b)) (17 + d + d') := by
  have hcall : Within names Γ (.call .fAnd [t, u]) ρ (.ofBool (a && b)) (d + d') := by
    obtain ⟨i, hi, ht⟩ := ht
    cases a with
    | false => exact ⟨i, by omega, .fAnd (by simp) (by simp) (.andNo ht)⟩
    | true =>
        obtain ⟨j, hj, hu⟩ := hu rfl
        have hloop : Evals names Γ (.fAnd [t, u]) ρ (.ofBool b) (i + j) := by
          cases b with
          | false => exact .andYes ofBool_true_ne ht (.andNo hu)
          | true => exact .andYes ofBool_true_ne ht (.andYes ofBool_true_ne hu .andNil)
        exact ⟨i + j, by omega, .fAnd (by simp) (by simp) hloop⟩
  have hs : (cstr "and", applied "f-and") ∈ Yls.macros (n := n) := by simp [Yls.macros]
  have hg : (cstr "f-and", .nfunc .fAnd) ∈ Yls.natives (n := n) := by simp [Yls.natives]
  exact (within_applied h hs hg (by simp) hcall).mono (by simp; omega)

theorem within_or {a b : Bool} (h : Knows names Γ ρ)
    (ht : Within names Γ (.eval t) ρ (.ofBool a) d)
    (hu : a = false → Within names Γ (.eval u) ρ (.ofBool b) d') :
    Within names Γ (.eval (call "or" [t, u])) ρ (.ofBool (a || b)) (17 + d + d') := by
  have hcall : Within names Γ (.call .fOr [t, u]) ρ (.ofBool (a || b)) (d + d') := by
    obtain ⟨i, hi, ht⟩ := ht
    cases a with
    | true => exact ⟨i, by omega, .fOr (by simp) (by simp) (.orYes ofBool_true_ne ht)⟩
    | false =>
        obtain ⟨j, hj, hu⟩ := hu rfl
        have hloop : Evals names Γ (.fOr [t, u]) ρ (.ofBool b) (i + j) := by
          cases b with
          | true => exact .orNo ht (.orYes ofBool_true_ne hu)
          | false => exact .orNo ht (.orNo hu .orNil)
        exact ⟨i + j, by omega, .fOr (by simp) (by simp) hloop⟩
  have hs : (cstr "or", applied "f-or") ∈ Yls.macros (n := n) := by simp [Yls.macros]
  have hg : (cstr "f-or", .nfunc .fOr) ∈ Yls.natives (n := n) := by simp [Yls.natives]
  exact (within_applied h hs hg (by simp) hcall).mono (by simp; omega)

end Rules

end Lang

end Ylisp
