import Ylisp.Lang.Select

/-!
# Property lists

The functions of `ext.yl` on lists of properties `((k₁ v₁) … (kₙ vₙ))`. A property list stands for
a finite map: `pr?` and `pr*` read it, `pr+` and `pr-` update it (`Properties.set`,
`Properties.erase`), whatever is done in between.
-/

namespace Ylisp

namespace Lang

open Mempool Eval

variable {n : ℕ}

/-- The properties with their values, the first one of a name counts. -/
abbrev Properties (n : ℕ) := List (Tree n × Tree n)

namespace Properties

def tree (P : Properties n) : Tree n := .list (P.map fun w => .list [w.1, w.2])

def Keyed (P : Properties n) : Prop := ∀ w ∈ P, w.1.IsPlain

open Classical in
noncomputable def erase (P : Properties n) (k : Tree n) : Properties n :=
  P.filter fun w => decide (k ≠ w.1)

noncomputable def set (P : Properties n) (k v : Tree n) : Properties n := (k, v) :: P.erase k

open Classical in
noncomputable def get (P : Properties n) (k : Tree n) : Option (Tree n) :=
  (P.find? fun w => decide (k = w.1)).map Prod.snd

variable {P : Properties n} {k v : Tree n}

open Classical in
theorem get_cons (w : Tree n × Tree n) :
    get (w :: P) k = if k = w.1 then some w.2 else P.get k := by
  rw [get, List.find?_cons]
  by_cases h : k = w.1
  · rw [if_pos h, decide_eq_true h]
    rfl
  · rw [if_neg h, decide_eq_false h]
    rfl

open Classical in
theorem erase_cons (w : Tree n × Tree n) :
    erase (w :: P) k = if k = w.1 then P.erase k else w :: P.erase k := by
  rw [erase, List.filter_cons]
  by_cases h : k = w.1 <;> simp [h, erase]

theorem Keyed.erase (h : P.Keyed) : (P.erase k).Keyed := fun w hw =>
  h w (List.mem_of_mem_filter hw)

theorem Keyed.set (h : P.Keyed) (hk : k.IsPlain) : (P.set k v).Keyed :=
  List.forall_mem_cons.2 ⟨hk, h.erase⟩

theorem length_erase_le : (P.erase k).length ≤ P.length := List.length_filter_le _ _

open Classical in
theorem get_erase : (P.erase k).get = Function.update P.get k none := by
  funext k'
  rw [Function.update_apply]
  induction P with
  | nil => simp [erase, get]
  | cons w P ih =>
      rw [erase_cons, get_cons]
      by_cases hw : k = w.1
      · rw [if_pos hw, ih]
        by_cases hk : k' = k
        · rw [if_pos hk, if_pos hk]
        · rw [if_neg hk, if_neg hk, if_neg fun h => hk (h.trans hw.symm)]
      · rw [if_neg hw, get_cons, ih]
        by_cases hk : k' = k
        · rw [if_pos hk, if_pos hk, if_neg fun h => hw (hk.symm.trans h)]
        · rw [if_neg hk, if_neg hk]

open Classical in
theorem get_set : (P.set k v).get = Function.update P.get k (some v) := by
  funext k'
  rw [Function.update_apply, set, get_cons, get_erase, Function.update_apply]
  by_cases hk : k' = k
  · rw [if_pos hk, if_pos hk]
  · rw [if_neg hk, if_neg hk, if_neg hk]

end Properties

section Spec

variable {names : Set (List UInt8)} {Γ : Globals n} {ρ : Locals n} {F : Defun n}
  {t u v w k : Tree n} {P : Properties n} {ts us vs xs ys : List (Tree n)} {d d' : ℕ}

/-! ### `mapcar` -/

theorem within_evaled (h : Knows names Γ ρ) (ht : Within names Γ (.eval t) ρ v d)
    (hv : Within names Γ (.eval v) ρ w d') :
    Within names Γ (.eval (call "eval" [t])) ρ w (d + d' + 1) := by
  obtain ⟨i, hi, ht⟩ := within_one ht
  obtain ⟨j, hj, hv⟩ := hv
  exact ⟨i + j, by omega,
    .nfunc (h.natives (cstr "eval", .nfunc .eval) (by simp [Yls.natives])) ht (.evalFn hv)⟩

/-- `mapcar` evaluates each element once more, where it is evaluated itself. -/
theorem computes_mapcar (h : Loaded names Γ) (f : Tree n)
    (hall : List.Forall₂ (fun x y => ∀ ws, Within names Γ (.eval (.list [f, x]))
      (Base.mapcar.env [f, .list ws]) y d) xs ys) :
    Computes names Γ Base.mapcar [f, .list xs] (.list ys) ((d + 150) * xs.length + 70) := by
  have hF : Base.mapcar ∈ Yls.functions (n := n) := mem_of_lists (by simp [Base.lists])
  have henv : ∀ xs : List (Tree n), Knows names Γ (Base.mapcar.env [f, .list xs]) ∧
      Within names Γ (.eval (var "f")) (Base.mapcar.env [f, .list xs]) f 0 ∧
      Within names Γ (.eval (var "L")) (Base.mapcar.env [f, .list xs]) (.list xs) 0 := fun xs =>
    ⟨knows_env h hF _, within_param h hF (.head _) rfl, within_param h hF (.tail _ (.head _)) rfl⟩
  induction hall with
  | nil =>
      obtain ⟨hknows, hf, hL⟩ := henv []
      exact (within_cond hknows (by simp) (by simp) (within_no (by simp [call])
        (within_not h hknows (within_null hknows hL))
          (within_else hknows (within_quote hknows)))).mono (by simp)
  | @cons x y xs ys hx hall ih =>
      obtain ⟨hknows, hf, hL⟩ := henv (x :: xs)
      have hcall := within_evaled hknows (within_listed hknows hf (within_car hknows hL)) (hx _)
      have hrest := within_function h hknows hF (within_two hf (within_cdr hknows hL)) rfl ih
      refine (within_cond hknows (by simp) (by simp) (within_yes (by simp [call]) ofBool_true_ne
        (within_not h hknows (within_null hknows hL)) (within_consed hknows hcall hrest))).mono ?_
      have hpairs : (Base.mapcar : Defun n).form.pairs = 36 := by simp [Base.mapcar, defun]
      have hlen : (Base.mapcar : Defun n).params.length = 2 := rfl
      simp only [hpairs, hlen, List.length_cons, List.length_nil, Nat.mul_succ]
      omega

/-! ### Reading -/

theorem within_caar (h : Loaded names Γ) (hknows : Knows names Γ ρ)
    (ht : Within names Γ (.eval t) ρ v d) :
    Within names Γ (.eval (call "caar" [t])) ρ (v.path [.car, .car]) (d + 88) :=
  ((selects_cxxr h .car .car (mem_cxr 0) v).within h hknows ht).mono (by omega)

theorem within_match {b : Bool} (h : Loaded names Γ) (hknows : Knows names Γ ρ)
    {x : Tree n × Tree n} (hP : (Properties.Keyed (x :: P)))
    (hpair : Within names Γ (.eval (var "PAIR")) ρ (Properties.tree (x :: P)) 0)
    (hkey : Within names Γ (.eval (var "key")) ρ k 0) (hk : k.IsPlain) (hb : b = true ↔ k = x.1) :
    Within names Γ (.eval (call "equal" [var "key", call "caar" [var "PAIR"]])) ρ (.ofBool b) 90 :=
  within_equal hknows hkey (within_caar h hknows hpair) hk (hP x List.mem_cons_self) hb

theorem computes_prIs {b : Bool} (h : Loaded names Γ) (hP : P.Keyed) (hk : k.IsPlain)
    (hb : b = true ↔ (P.get k).isSome) :
    Computes names Γ Ext.prIs [P.tree, k] (.ofBool b) (200 * P.length + 30) := by
  have hF : Ext.prIs ∈ Yls.functions (n := n) := mem_of_properties (by simp [Ext.properties])
  have henv : ∀ P : Properties n, Knows names Γ (Ext.prIs.env [P.tree, k]) ∧
      Within names Γ (.eval (var "PAIR")) (Ext.prIs.env [P.tree, k]) P.tree 0 ∧
      Within names Γ (.eval (var "key")) (Ext.prIs.env [P.tree, k]) k 0 := fun P =>
    ⟨knows_env h hF _, within_param h hF (.head _) rfl, within_param h hF (.tail _ (.head _)) rfl⟩
  have hne : ∀ (f : String) (ts : List (Tree n)), call f ts ≠ .nil := fun _ _ => by simp [call]
  induction P with
  | nil =>
      obtain ⟨hknows, hpair, -⟩ := henv []
      obtain rfl : b = false := Bool.eq_false_iff.2 fun h => by simpa [Properties.get] using hb.1 h
      exact (within_cond hknows (by simp) (by simp) (within_yes (hne _ _) ofBool_true_ne
        (within_null hknows hpair) (within_quote hknows))).mono (by simp)
  | cons x P ih =>
      obtain ⟨hknows, hpair, hkey⟩ := henv (x :: P)
      rw [Properties.get_cons] at hb
      by_cases hkx : k = x.1
      · obtain rfl : b = true := hb.2 (by rw [if_pos hkx]; rfl)
        have hmatch := within_match h hknows hP hpair hkey hk (iff_of_true rfl hkx)
        refine (within_cond hknows (by simp) (by simp) (within_no (hne _ _)
          (within_null hknows hpair) (within_yes (hne _ _) ofBool_true_ne hmatch
            (within_quote hknows)))).mono ?_
        simp only [List.length_cons, List.length_nil]
        omega
      · rw [if_neg hkx] at hb
        have hmatch := within_match h hknows hP hpair hkey hk (iff_of_false Bool.false_ne_true hkx)
        have hrest := within_function h hknows hF (within_two (within_cdr hknows hpair) hkey) rfl
          (ih (List.forall_mem_cons.1 hP).2 hb)
        refine (within_cond hknows (by simp) (by simp) (within_no (hne _ _)
          (within_null hknows hpair) (within_no (hne _ _) hmatch
            (within_else hknows hrest)))).mono ?_
        have hpairs : (Ext.prIs : Defun n).form.pairs = 34 := by simp [Ext.prIs, defun]
        have hlen : (Ext.prIs : Defun n).params.length = 2 := rfl
        simp only [hpairs, hlen, List.length_cons, List.length_nil]
        omega

theorem computes_prGet (h : Loaded names Γ) (hP : P.Keyed) (hk : k.IsPlain) :
    Computes names Γ Ext.prGet [P.tree, k] ((P.get k).getD .nil) (400 * P.length + 30) := by
  have hF : Ext.prGet ∈ Yls.functions (n := n) := mem_of_properties (by simp [Ext.properties])
  have henv : ∀ P : Properties n, Knows names Γ (Ext.prGet.env [P.tree, k]) ∧
      Within names Γ (.eval (var "PAIR")) (Ext.prGet.env [P.tree, k]) P.tree 0 ∧
      Within names Γ (.eval (var "key")) (Ext.prGet.env [P.tree, k]) k 0 := fun P =>
    ⟨knows_env h hF _, within_param h hF (.head _) rfl, within_param h hF (.tail _ (.head _)) rfl⟩
  have hne : ∀ (f : String) (ts : List (Tree n)), call f ts ≠ .nil := fun _ _ => by simp [call]
  induction P with
  | nil =>
      obtain ⟨hknows, hpair, -⟩ := henv []
      exact (within_cond hknows (by simp) (by simp) (within_yes (hne _ _) ofBool_true_ne
        (within_null hknows hpair) (within_quote hknows))).mono (by simp)
  | cons x P ih =>
      obtain ⟨hknows, hpair, hkey⟩ := henv (x :: P)
      rw [Properties.get_cons]
      by_cases hkx : k = x.1
      · rw [if_pos hkx]
        have hmatch := within_match h hknows hP hpair hkey hk (iff_of_true rfl hkx)
        have hdar := selects_cxxr h .cdr .car (mem_cxr 2) (Properties.tree (x :: P))
        have hval := (selects_cxxxr h .car (mem_cxr 6) hdar).within h hknows hpair
        refine (within_cond hknows (by simp) (by simp) (within_no (hne _ _)
          (within_null hknows hpair) (within_yes (hne _ _) ofBool_true_ne hmatch hval))).mono ?_
        simp only [List.length_cons, List.length_nil]
        omega
      · rw [if_neg hkx]
        have hmatch := within_match h hknows hP hpair hkey hk (iff_of_false Bool.false_ne_true hkx)
        have hrest := within_function h hknows hF (within_two (within_cdr hknows hpair) hkey) rfl
          (ih (List.forall_mem_cons.1 hP).2)
        refine (within_cond hknows (by simp) (by simp) (within_no (hne _ _)
          (within_null hknows hpair) (within_no (hne _ _) hmatch
            (within_else hknows hrest)))).mono ?_
        have hpairs : (Ext.prGet : Defun n).form.pairs = 34 := by simp [Ext.prGet, defun]
        have hlen : (Ext.prGet : Defun n).params.length = 2 := rfl
        simp only [hpairs, hlen, List.length_cons, List.length_nil]
        omega

/-! ### Updates -/

theorem computes_prDel (h : Loaded names Γ) (hP : P.Keyed) (hk : k.IsPlain) :
    Computes names Γ Ext.prDel [P.tree, k] (P.erase k).tree (210 * P.length + 30) := by
  have hF : Ext.prDel ∈ Yls.functions (n := n) := mem_of_properties (by simp [Ext.properties])
  have henv : ∀ P : Properties n, Knows names Γ (Ext.prDel.env [P.tree, k]) ∧
      Within names Γ (.eval (var "PAIR")) (Ext.prDel.env [P.tree, k]) P.tree 0 ∧
      Within names Γ (.eval (var "key")) (Ext.prDel.env [P.tree, k]) k 0 := fun P =>
    ⟨knows_env h hF _, within_param h hF (.head _) rfl, within_param h hF (.tail _ (.head _)) rfl⟩
  have hne : ∀ (f : String) (ts : List (Tree n)), call f ts ≠ .nil := fun _ _ => by simp [call]
  have hpairs : (Ext.prDel : Defun n).form.pairs = 42 := by simp [Ext.prDel, defun]
  have hlen : (Ext.prDel : Defun n).params.length = 2 := rfl
  induction P with
  | nil =>
      obtain ⟨hknows, hpair, -⟩ := henv []
      exact (within_cond hknows (by simp) (by simp) (within_yes (hne _ _) ofBool_true_ne
        (within_null hknows hpair) (within_quote hknows))).mono (by simp)
  | cons x P ih =>
      obtain ⟨hknows, hpair, hkey⟩ := henv (x :: P)
      have hrest := within_function h hknows hF (within_two (within_cdr hknows hpair) hkey) rfl
        (ih (List.forall_mem_cons.1 hP).2)
      rw [Properties.erase_cons]
      by_cases hkx : k = x.1
      · rw [if_pos hkx]
        have hmatch := within_match h hknows hP hpair hkey hk (iff_of_true rfl hkx)
        refine (within_cond hknows (by simp) (by simp) (within_no (hne _ _)
          (within_null hknows hpair) (within_yes (hne _ _) ofBool_true_ne hmatch hrest))).mono ?_
        simp only [hpairs, hlen, List.length_cons, List.length_nil]
        omega
      · rw [if_neg hkx]
        have hmatch := within_match h hknows hP hpair hkey hk (iff_of_false Bool.false_ne_true hkx)
        refine (within_cond hknows (by simp) (by simp) (within_no (hne _ _)
          (within_null hknows hpair) (within_no (hne _ _) hmatch (within_else hknows
            (within_consed hknows (within_car hknows hpair) hrest))))).mono ?_
        simp only [hpairs, hlen, List.length_cons, List.length_nil]
        omega

theorem Properties.erase_eq_self (h : P.get k = none) : P.erase k = P := by
  classical
  induction P with
  | nil => rfl
  | cons w P ih =>
      rw [get_cons] at h
      by_cases hkw : k = w.1
      · rw [if_pos hkw] at h
        cases h
      · rw [if_neg hkw] at h
        rw [erase_cons, if_neg hkw, ih h]

theorem within_added (h : Loaded names Γ) (hknows : Knows names Γ ρ)
    (hkey : Within names Γ (.eval (var "key")) ρ k 0)
    (hval : Within names Γ (.eval (var "value")) ρ v 0)
    (ht : Within names Γ (.eval t) ρ P.tree d) :
    Within names Γ (.eval (call "append" [Ext.property, t])) ρ (Properties.tree ((k, v) :: P))
      (d + 140) := by
  have hF : Base.append ∈ Yls.functions (n := n) := mem_of_lists (by simp [Base.lists])
  have hone := within_consed hknows (within_listed hknows hkey hval)
    (within_quote (t := .nil) hknows)
  refine (within_function h hknows hF (within_two hone ht) rfl
    (computes_append h [.list [k, v]] P.tree)).mono ?_
  have hpairs : (Base.append : Defun n).form.pairs = 27 := by simp [Base.append, defun]
  have hlen : (Base.append : Defun n).params.length = 2 := rfl
  simp only [hpairs, hlen, List.length_cons, List.length_nil]
  omega

theorem within_progn (h : Knows names Γ ρ) (ht : Within names Γ (.eval t) ρ v d) :
    Within names Γ (.eval (call "progn" [t])) ρ v d := by
  obtain ⟨i, hi, ht⟩ := ht
  exact ⟨i, hi, .sfunc (h.natives (cstr "progn", .sfunc .progn) (by simp [Yls.natives]))
    (.prognFn (by simp) (.prognOne ht))⟩

theorem within_isEmpty {b : Bool} (h : Knows names Γ ρ)
    (ht : Within names Γ (.eval t) ρ P.tree d) (hb : b = true ↔ P = []) :
    Within names Γ (.eval (call "equal" [t, quote .nil])) ρ (.ofBool b) (d + 2) := by
  cases P with
  | nil => exact within_equal h ht (within_quote h) trivial trivial (iff_of_true (hb.2 rfl) rfl)
  | cons x P =>
      obtain rfl : b = false := Bool.eq_false_iff.2 fun h => by cases hb.1 h
      have hgives : Gives .equal [Properties.tree (x :: P), .nil] (.ofBool false) 0 :=
        .unlike Bool.false_ne_true
      exact (within_native .equal h (by decide) (within_two ht (within_quote h)) hgives).mono le_rfl

theorem computes_prAdd (h : Loaded names Γ) (hP : P.Keyed) (hk : k.IsPlain) :
    Computes names Γ Ext.prAdd [P.tree, k, v] (P.set k v).tree (410 * P.length + 400) := by
  have hF : Ext.prAdd ∈ Yls.functions (n := n) := mem_of_properties (by simp [Ext.properties])
  have hIs : Ext.prIs ∈ Yls.functions (n := n) := mem_of_properties (by simp [Ext.properties])
  have hDel : Ext.prDel ∈ Yls.functions (n := n) := mem_of_properties (by simp [Ext.properties])
  have hknows := knows_env h hF [P.tree, k, v]
  have hpair : Within names Γ (.eval (var "PAIR")) (Ext.prAdd.env [P.tree, k, v]) P.tree 0 :=
    within_param h hF (.head _) rfl
  have hkey : Within names Γ (.eval (var "key")) (Ext.prAdd.env [P.tree, k, v]) k 0 :=
    within_param h hF (.tail _ (.head _)) rfl
  have hval : Within names Γ (.eval (var "value")) (Ext.prAdd.env [P.tree, k, v]) v 0 :=
    within_param h hF (.tail _ (.tail _ (.head _))) rfl
  have hne : ∀ (f : String) (ts : List (Tree n)), call f ts ≠ .nil := fun _ _ => by simp [call]
  by_cases hnil : P = []
  · subst hnil
    have hone := within_consed hknows (within_listed hknows hkey hval)
      (within_quote (t := .nil) hknows)
    exact (within_cond hknows (by simp) (by simp) (within_yes (hne _ _) ofBool_true_ne
      (within_isEmpty hknows hpair (iff_of_true rfl rfl)) hone)).mono (by simp)
  · have hempty := within_isEmpty hknows hpair (iff_of_false Bool.false_ne_true hnil)
    obtain ⟨b, hb⟩ := exists_bool ((P.get k).isSome = true)
    have hpairs : (Ext.prIs : Defun n).form.pairs = 34 := by simp [Ext.prIs, defun]
    have hpairs' : (Ext.prDel : Defun n).form.pairs = 42 := by simp [Ext.prDel, defun]
    have hlen : (Ext.prIs : Defun n).params.length = 2 := rfl
    have hlen' : (Ext.prDel : Defun n).params.length = 2 := rfl
    have hfound := within_function h hknows hIs (within_two hpair hkey) rfl
      (computes_prIs h hP hk hb)
    have hinner : Within names Γ (.eval (cond [(call "pr?" [var "PAIR", var "key"],
        call "append" [Ext.property, call "pr-" [var "PAIR", var "key"]]),
        (quote (var "t"), call "append" [Ext.property, var "PAIR"])]))
        (Ext.prAdd.env [P.tree, k, v]) (P.set k v).tree (410 * P.length + 360) := by
      cases b with
      | true =>
          have hrest := within_function h hknows hDel (within_two hpair hkey) rfl
            (computes_prDel h hP hk)
          refine (within_cond hknows (by simp) (by simp) (within_yes (hne _ _) ofBool_true_ne hfound
            (within_added h hknows hkey hval hrest))).mono ?_
          simp only [hpairs, hpairs', hlen, hlen', List.length_cons, List.length_nil]
          omega
      | false =>
          have hget : P.get k = none := by
            by_contra hsome
            exact Bool.false_ne_true (hb.2 (Option.isSome_iff_ne_none.2 hsome))
          rw [Properties.set, Properties.erase_eq_self hget]
          refine (within_cond hknows (by simp) (by simp) (within_no (hne _ _) hfound
            (within_else hknows (within_added h hknows hkey hval hpair)))).mono ?_
          simp only [hpairs, hlen, List.length_cons, List.length_nil]
          omega
    refine (within_cond hknows (by simp) (by simp) (within_no (hne _ _) hempty
      (within_else hknows (within_progn hknows hinner)))).mono ?_
    simp only [List.length_cons, List.length_nil]
    omega

theorem computes_prFromList {ks : List (Tree n)} (h : Loaded names Γ) (hP : P.Keyed)
    (hks : ∀ k ∈ ks, k.IsPlain) :
    Computes names Γ Ext.prFromList [P.tree, .list ks, v] (ks.foldl (fun P k => P.set k v) P).tree
      ((410 * (P.length + ks.length) + 720) * ks.length + 70) := by
  have hF : Ext.prFromList ∈ Yls.functions (n := n) := mem_of_properties (by simp [Ext.properties])
  have hAdd : Ext.prAdd ∈ Yls.functions (n := n) := mem_of_properties (by simp [Ext.properties])
  have henv : ∀ (P : Properties n) (ks : List (Tree n)),
      Knows names Γ (Ext.prFromList.env [P.tree, .list ks, v]) ∧
      Within names Γ (.eval (var "P")) (Ext.prFromList.env [P.tree, .list ks, v]) P.tree 0 ∧
      Within names Γ (.eval (var "L")) (Ext.prFromList.env [P.tree, .list ks, v]) (.list ks) 0 ∧
      Within names Γ (.eval (var "V")) (Ext.prFromList.env [P.tree, .list ks, v]) v 0 :=
    fun P ks => ⟨knows_env h hF _, within_param h hF (.head _) rfl,
      within_param h hF (.tail _ (.head _)) rfl,
      within_param h hF (.tail _ (.tail _ (.head _))) rfl⟩
  induction ks generalizing P with
  | nil =>
      obtain ⟨hknows, hp, hL, -⟩ := henv P []
      exact (within_cond hknows (by simp) (by simp) (within_no (by simp [call])
        (within_not h hknows (within_null hknows hL)) (within_else hknows hp))).mono (by simp)
  | cons k ks ih =>
      obtain ⟨hk, hks⟩ := List.forall_mem_cons.1 hks
      obtain ⟨hknows, hp, hL, hV⟩ := henv P (k :: ks)
      have hset := within_function h hknows hAdd
        (within_cons hp (within_two (within_car hknows hL) hV)) rfl (computes_prAdd h hP hk)
      have hrest := within_function h hknows hF
        (within_cons hset (within_two (within_cdr hknows hL) hV)) rfl (ih (hP.set hk) hks)
      refine (within_cond hknows (by simp) (by simp) (within_yes (by simp [call]) ofBool_true_ne
        (within_not h hknows (within_null hknows hL)) hrest)).mono ?_
      have hpairs : (Ext.prFromList : Defun n).form.pairs = 32 := by simp [Ext.prFromList, defun]
      have hpairs' : (Ext.prAdd : Defun n).form.pairs = 68 := by
        simp [Ext.prAdd, defun, Ext.property]
      have hlen : (Ext.prFromList : Defun n).params.length = 3 := rfl
      have hlen' : (Ext.prAdd : Defun n).params.length = 3 := rfl
      have hle : (410 * ((P.set k v).length + ks.length) + 720) * ks.length ≤
          (410 * (P.length + (ks.length + 1)) + 720) * ks.length := by
        have h := (Properties.length_erase_le (P := P) (k := k))
        refine Nat.mul_le_mul_right _ ?_
        rw [Properties.set, List.length_cons]
        omega
      simp only [hpairs, hpairs', hlen, hlen', List.length_cons, List.length_nil, Nat.mul_succ]
      omega

open Classical in
theorem get_foldl_set (ks : List (Tree n)) (P : Properties n) (k : Tree n) :
    Properties.get (ks.foldl (fun P k => P.set k v) P) k =
      if k ∈ ks then some v else P.get k := by
  induction ks generalizing P with
  | nil => rfl
  | cons k' ks ih =>
      rw [List.foldl_cons, ih, Properties.get_set, Function.update_apply]
      by_cases hk : k ∈ ks
      · rw [if_pos hk, if_pos (List.mem_cons_of_mem _ hk)]
      · by_cases hk' : k = k'
        · rw [if_neg hk, if_pos hk', if_pos (hk' ▸ List.mem_cons_self)]
        · rw [if_neg hk, if_neg hk', if_neg (not_or.2 ⟨hk', hk⟩ ∘ List.mem_cons.1)]

/-! ### Sequences of updates -/

inductive Update (n : ℕ) where
  | set (k v : Tree n)
  | erase (k : Tree n)

namespace Update

def key : Update n → Tree n
  | set k _ => k
  | erase k => k

/-- The update of the property list that `t` evaluates to. -/
def expr (t : Tree n) : Update n → Tree n
  | set k v => call "pr+" [t, quote k, quote v]
  | erase k => call "pr-" [t, quote k]

noncomputable def apply (P : Properties n) : Update n → Properties n
  | set k v => P.set k v
  | erase k => P.erase k

open Classical in
noncomputable def onMap (m : Tree n → Option (Tree n)) : Update n → Tree n → Option (Tree n)
  | set k v => Function.update m k (some v)
  | erase k => Function.update m k none

theorem get_apply (P : Properties n) (op : Update n) : (op.apply P).get = op.onMap P.get := by
  cases op with
  | set k v => exact Properties.get_set
  | erase k => exact Properties.get_erase

theorem keyed_apply {P : Properties n} {op : Update n} (hP : P.Keyed) (hop : op.key.IsPlain) :
    (op.apply P).Keyed := by
  cases op with
  | set k v => exact hP.set hop
  | erase k => exact hP.erase

theorem length_apply_le (P : Properties n) (op : Update n) :
    (op.apply P).length ≤ P.length + 1 := by
  cases op with
  | set k v => exact Nat.succ_le_succ Properties.length_erase_le
  | erase k => exact Properties.length_erase_le.trans (Nat.le_succ _)

theorem get_foldl (ops : List (Update n)) (P : Properties n) :
    (ops.foldl apply P).get = ops.foldl onMap P.get := by
  induction ops generalizing P with
  | nil => rfl
  | cons op ops ih => rw [List.foldl_cons, List.foldl_cons, ih, get_apply]

end Update

theorem within_update {op : Update n} (h : Loaded names Γ) (hknows : Knows names Γ ρ)
    (hP : P.Keyed) (hop : op.key.IsPlain) (ht : Within names Γ (.eval t) ρ P.tree d) :
    Within names Γ (.eval (op.expr t)) ρ (op.apply P).tree (d + 410 * P.length + 490) := by
  cases op with
  | set k v =>
      have hF : Ext.prAdd ∈ Yls.functions (n := n) := mem_of_properties (by simp [Ext.properties])
      have hpairs : (Ext.prAdd : Defun n).form.pairs = 68 := by
        simp [Ext.prAdd, defun, Ext.property]
      have hlen : (Ext.prAdd : Defun n).params.length = 3 := rfl
      refine (within_function h hknows hF (within_cons ht (within_two (within_quote hknows)
        (within_quote hknows))) rfl (computes_prAdd h hP hop)).mono ?_
      omega
  | erase k =>
      have hF : Ext.prDel ∈ Yls.functions (n := n) := mem_of_properties (by simp [Ext.properties])
      have hpairs : (Ext.prDel : Defun n).form.pairs = 42 := by simp [Ext.prDel, defun]
      have hlen : (Ext.prDel : Defun n).params.length = 2 := rfl
      refine (within_function h hknows hF (within_two ht (within_quote hknows)) rfl
        (computes_prDel h hP hop)).mono ?_
      omega

theorem within_updates {ops : List (Update n)} (h : Loaded names Γ) (hknows : Knows names Γ ρ)
    (hP : P.Keyed) (hops : ∀ op ∈ ops, op.key.IsPlain) (ht : Within names Γ (.eval t) ρ P.tree d) :
    Within names Γ (.eval (ops.foldl Update.expr t)) ρ (ops.foldl Update.apply P).tree
        (d + (410 * (P.length + ops.length) + 490) * ops.length) ∧
      (ops.foldl Update.apply P).Keyed ∧
      (ops.foldl Update.apply P).length ≤ P.length + ops.length := by
  induction ops generalizing t P d with
  | nil => exact ⟨ht, hP, le_rfl⟩
  | cons op ops ih =>
      obtain ⟨hop, hops⟩ := List.forall_mem_cons.1 hops
      obtain ⟨hwithin, hkeyed, hlen⟩ := ih (Update.keyed_apply hP hop) hops
        (within_update h hknows hP hop ht)
      have hlen' := op.length_apply_le P
      refine ⟨hwithin.mono ?_, hkeyed, ?_⟩
      · have hle : (410 * ((op.apply P).length + ops.length) + 490) * ops.length ≤
            (410 * (P.length + (ops.length + 1)) + 490) * ops.length :=
          Nat.mul_le_mul_right _ (by omega)
        rw [List.length_cons, Nat.mul_succ]
        omega
      · rw [List.length_cons]
        exact hlen.trans (by omega)

end Spec

end Lang

end Ylisp
