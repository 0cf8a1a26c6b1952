import Ylisp.Lang.Sfunc
import Ylisp.Lang.Within

/-!
# What the functions of `base.yl` compute

Each function is evaluated where its name and its parameters are bound, whatever the environment
of the call (`within_function`); so the proofs are by induction on the arguments, with one
evaluation of the body for each call.
-/

namespace Ylisp

namespace Lang

open Mempool Eval

variable {n : ℕ}

/-- The function returns `v` for the arguments, on at most `d` blocks. -/
def Computes (names : Set (List UInt8)) (Γ : Globals n) (F : Defun n) (vs : List (Tree n))
    (v : Tree n) (d : ℕ) : Prop := Within names Γ (.eval F.body) (F.env vs) v d

section Spec

variable {names : Set (List UInt8)} {Γ : Globals n} {ρ : Locals n} {F : Defun n}
  {t u v w x y : Tree n} {ts us vs : List (Tree n)} {s : String} {d d' : ℕ}

theorem within_param (hlib : Loaded names Γ) (hF : F ∈ Yls.functions)
    (hs : cstr s ∈ F.params) (h : (F.params.zip vs).lookup (cstr s) = some t) :
    Within names Γ (.eval (var s)) (F.env vs) t 0 := by
  have hno := hlib.params F hF _ hs
  have hne : cstr s ≠ F.name := fun heq => hno (heq ▸ hlib.mem_names F hF)
  refine within_var (.var ?_ hno)
  rw [Defun.env, List.lookup_cons, beq_eq_false_iff_ne.2 hne]
  exact h

/-! ### `not`, `first` and `rest` -/

theorem within_not (h : Loaded names Γ) (hknows : Knows names Γ ρ)
    (ht : Within names Γ (.eval t) ρ v d) :
    Within names Γ (.eval (call "not" [t])) ρ (.ofBool v.isNil) (d + 43) := by
  have hF : Base.not ∈ Yls.functions (n := n) := mem_of_lists (by simp [Base.lists])
  have hin := knows_env h hF [v]
  have he : Within names Γ (.eval (var "e")) (Base.not.env [v]) v 0 :=
    within_param h hF (.head _) rfl
  have hbody : Computes names Γ Base.not [v] (.ofBool v.isNil) 17 := by
    by_cases hv : v = .nil
    · subst hv
      exact within_cond hin (by simp) (by simp) (within_no (by simp [var]) he
        (within_else hin (within_quote hin)))
    · have hnil : v.isNil = false := by cases v <;> first | rfl | exact absurd rfl hv
      rw [hnil]
      exact within_cond hin (by simp) (by simp) (within_yes (by simp [var]) hv he
        (within_quote hin))
  refine (within_function h hknows hF (within_one ht) rfl hbody).mono ?_
  have hpairs : (Base.not : Defun n).form.pairs = 18 := by simp [Base.not, defun]
  have hlen : (Base.not : Defun n).params.length = 1 := rfl
  rw [hpairs, hlen]
  omega

/-- `first` and `rest` of a list that is not empty. -/
theorem within_first (h : Loaded names Γ) (hknows : Knows names Γ ρ)
    (ht : Within names Γ (.eval t) ρ (.pair u v) d) :
    Within names Γ (.eval (call "first" [t])) ρ u (d + 47) := by
  have hF : Base.first ∈ Yls.functions (n := n) := mem_of_lists (by simp [Base.lists])
  have hin := knows_env h hF [.pair u v]
  have hL : Within names Γ (.eval (var "L")) (Base.first.env [.pair u v]) (.pair u v) 0 :=
    within_param h hF (.head _) rfl
  have hbody : Computes names Γ Base.first [.pair u v] u 19 :=
    within_cond hin (by simp) (by simp) (within_no (by simp [call]) (within_null hin hL)
      (within_else hin (within_car hin hL)))
  refine (within_function h hknows hF (within_one ht) rfl hbody).mono ?_
  have hpairs : (Base.first : Defun n).form.pairs = 20 := by simp [Base.first, defun]
  have hlen : (Base.first : Defun n).params.length = 1 := rfl
  rw [hpairs, hlen]
  omega

theorem within_rest (h : Loaded names Γ) (hknows : Knows names Γ ρ)
    (ht : Within names Γ (.eval t) ρ (.pair u v) d) :
    Within names Γ (.eval (call "rest" [t])) ρ v (d + 47) := by
  have hF : Base.rest ∈ Yls.functions (n := n) := mem_of_lists (by simp [Base.lists])
  have hin := knows_env h hF [.pair u v]
  have hL : Within names Γ (.eval (var "L")) (Base.rest.env [.pair u v]) (.pair u v) 0 :=
    within_param h hF (.head _) rfl
  have hbody : Computes names Γ Base.rest [.pair u v] v 19 :=
    within_cond hin (by simp) (by simp) (within_no (by simp [call]) (within_null hin hL)
      (within_else hin (within_cdr hin hL)))
  refine (within_function h hknows hF (within_one ht) rfl hbody).mono ?_
  have hpairs : (Base.rest : Defun n).form.pairs = 20 := by simp [Base.rest, defun]
  have hlen : (Base.rest : Defun n).params.length = 1 := rfl
  rw [hpairs, hlen]
  omega

/-! ### Functions on lists -/

theorem computes_append (h : Loaded names Γ) (ts : List (Tree n)) (u : Tree n) :
    Computes names Γ Base.append [.list ts, u] (Tree.onto u ts) (62 * ts.length + 18) := by
  have hF : Base.append ∈ Yls.functions (n := n) := mem_of_lists (by simp [Base.lists])
  have henv : ∀ ts : List (Tree n), Knows names Γ (Base.append.env [.list ts, u]) ∧
      Within names Γ (.eval (var "base")) (Base.append.env [.list ts, u]) (.list ts) 0 ∧
      Within names Γ (.eval (var "e")) (Base.append.env [.list ts, u]) u 0 := fun ts =>
    ⟨knows_env h hF _, within_param h hF (.head _) rfl, within_param h hF (.tail _ (.head _)) rfl⟩
  induction ts with
  | nil =>
      obtain ⟨hknows, hlib, he⟩ := henv []
      exact (within_cond hknows (by simp) (by simp)
        (within_yes (by simp [call]) ofBool_true_ne (within_null hknows hlib) he)).mono le_rfl
  | cons t ts ih =>
      obtain ⟨hknows, hlib, he⟩ := henv (t :: ts)
      have hrest := within_function h hknows hF (within_two (within_cdr hknows hlib) he) rfl ih
      have hcons := within_consed hknows (within_car hknows hlib) hrest
      refine (within_cond hknows (by simp) (by simp) (within_no (by simp [call])
        (within_null hknows hlib) (within_else hknows hcons))).mono ?_
      have hpairs : (Base.append : Defun n).form.pairs = 27 := by simp [Base.append, defun]
      have hlen : (Base.append : Defun n).params.length = 2 := rfl
      simp only [hpairs, hlen, List.length_cons, List.length_nil]
      omega

theorem computes_pair (h : Loaded names Γ) (ts us : List (Tree n)) :
    Computes names Γ Base.pair [.list ts, .list us] (.list (Tree.twos ts us))
      (230 * min ts.length us.length + 150) := by
  have hF : Base.pair ∈ Yls.functions (n := n) := mem_of_lists (by simp [Base.lists])
  have henv : ∀ ts us : List (Tree n), Knows names Γ (Base.pair.env [.list ts, .list us]) ∧
      Within names Γ (.eval (var "x")) (Base.pair.env [.list ts, .list us]) (.list ts) 0 ∧
      Within names Γ (.eval (var "y")) (Base.pair.env [.list ts, .list us]) (.list us) 0 :=
    fun ts us => ⟨knows_env h hF _, within_param h hF (.head _) rfl,
      within_param h hF (.tail _ (.head _)) rfl⟩
  have hne : ∀ (f : String) (ts : List (Tree n)), call f ts ≠ .nil := fun _ _ => by simp [call]
  induction ts generalizing us with
  | nil =>
      obtain ⟨hknows, hx, hy⟩ := henv [] us
      have hnull := within_and hknows (within_null hknows hx) fun _ => within_null hknows hy
      have hatom := within_and hknows (within_not h hknows (within_atom hknows hx)) fun _ =>
        within_not h hknows (within_atom hknows hy)
      cases us with
      | nil =>
          exact (within_cond hknows (by simp) (by simp)
            (within_yes (hne _ _) ofBool_true_ne hnull (within_quote hknows))).mono (by simp)
      | cons u us =>
          exact (within_cond hknows (by simp) (by simp)
            (within_no (hne _ _) hnull (within_no (hne _ _) hatom within_end))).mono (by simp)
  | cons t ts ih =>
      obtain ⟨hknows, hx, hy⟩ := henv (t :: ts) us
      have hnull := within_and hknows (within_null hknows hx) fun _ => within_null hknows hy
      have hatom := within_and hknows (within_not h hknows (within_atom hknows hx)) fun _ =>
        within_not h hknows (within_atom hknows hy)
      cases us with
      | nil =>
          exact (within_cond hknows (by simp) (by simp)
            (within_no (hne _ _) hnull (within_no (hne _ _) hatom within_end))).mono (by simp)
      | cons u us =>
          have htwo := within_listed hknows (within_car hknows hx) (within_car hknows hy)
          have hrest := within_function h hknows hF
            (within_two (within_cdr hknows hx) (within_cdr hknows hy)) rfl (ih us)
          refine (within_cond hknows (by simp) (by simp) (within_no (hne _ _) hnull
            (within_yes (hne _ _) ofBool_true_ne hatom (within_consed hknows htwo hrest)))).mono ?_
          have hpairs : (Base.pair : Defun n).form.pairs = 50 := by simp [Base.pair, defun]
          have hlen : (Base.pair : Defun n).params.length = 2 := rfl
          simp only [hpairs, hlen, List.length_cons, List.length_nil, Nat.add_min_add_right]
          omega

/-! ### Functions that look for an element -/

theorem exists_bool (P : Prop) : ∃ b : Bool, b = true ↔ P := by
  by_cases hP : P
  · exact ⟨true, iff_of_true rfl hP⟩
  · exact ⟨false, iff_of_false Bool.false_ne_true hP⟩

theorem computes_among {b : Bool} (h : Loaded names Γ) (hx : x.IsPlain)
    (hus : ∀ u ∈ us, u.IsPlain) (hb : b = true ↔ x ≠ .nil ∧ x ∈ us) :
    Computes names Γ Base.among [x, .list us] (.ofBool b) (152 * us.length + 18) := by
  have hF : Base.among ∈ Yls.functions (n := n) := mem_of_lists (by simp [Base.lists])
  have henv : ∀ us : List (Tree n), Knows names Γ (Base.among.env [x, .list us]) ∧
      Within names Γ (.eval (var "x")) (Base.among.env [x, .list us]) x 0 ∧
      Within names Γ (.eval (var "e")) (Base.among.env [x, .list us]) (.list us) 0 := fun us =>
    ⟨knows_env h hF _, within_param h hF (.head _) rfl, within_param h hF (.tail _ (.head _)) rfl⟩
  have hne : ∀ (f : String) (ts : List (Tree n)), call f ts ≠ .nil := fun _ _ => by simp [call]
  induction us generalizing b with
  | nil =>
      obtain ⟨hknows, -, he⟩ := henv []
      obtain rfl : b = false := Bool.eq_false_iff.2 fun h => List.not_mem_nil (hb.1 h).2
      exact (within_cond hknows (by simp) (by simp) (within_yes (hne _ _)
        ofBool_true_ne (within_null hknows he) (within_quote hknows))).mono le_rfl
  | cons u us ih =>
      obtain ⟨hu, hus⟩ := List.forall_mem_cons.1 hus
      obtain ⟨hknows, hx', he⟩ := henv (u :: us)
      obtain ⟨b₁, hb₁⟩ := exists_bool (x = u)
      obtain ⟨b₂, hb₂⟩ := exists_bool (x ≠ .nil ∧ x ∈ us)
      have hfound := within_and hknows (within_not h hknows (within_null hknows hx')) fun _ =>
        within_equal hknows hx' (within_car hknows he) hx hu hb₁
      have hrest := within_function h hknows hF (within_two hx' (within_cdr hknows he)) rfl
        (ih hus hb₂)
      have hval : ((Tree.ofBool (n := n) x.isNil).isNil && b₁ || b₂) = b := by
        rw [Tree.isNil_ofBool, Bool.eq_iff_iff, Bool.or_eq_true, Bool.and_eq_true, hb, hb₁, hb₂,
          Bool.not_eq_true', Tree.isNil_eq_false_iff, List.mem_cons, and_or_left]
      have hor := within_or hknows hfound fun _ => hrest
      rw [hval] at hor
      refine (within_cond hknows (by simp) (by simp) (within_no (hne _ _)
        (within_null hknows he) (within_else hknows hor))).mono ?_
      have hpairs : (Base.among : Defun n).form.pairs = 39 := by simp [Base.among, defun]
      have hlen : (Base.among : Defun n).params.length = 2 := rfl
      simp only [hpairs, hlen, List.length_cons, List.length_nil]
      omega

theorem computes_member {b : Bool} (h : Loaded names Γ) (hx : x.IsPlain)
    (hus : ∀ u ∈ us, u.IsPlain) (hb : b = true ↔ x ∈ us) :
    Computes names Γ Base.member [x, .list us] (.ofBool b) (200 * us.length + 30) := by
  have hF : Base.member ∈ Yls.functions (n := n) := mem_of_lists (by simp [Base.lists])
  have henv : ∀ us : List (Tree n), Knows names Γ (Base.member.env [x, .list us]) ∧
      Within names Γ (.eval (var "e")) (Base.member.env [x, .list us]) x 0 ∧
      Within names Γ (.eval (var "L")) (Base.member.env [x, .list us]) (.list us) 0 := fun us =>
    ⟨knows_env h hF _, within_param h hF (.head _) rfl, within_param h hF (.tail _ (.head _)) rfl⟩
  have hne : ∀ (f : String) (ts : List (Tree n)), call f ts ≠ .nil := fun _ _ => by simp [call]
  induction us generalizing b with
  | nil =>
      obtain ⟨hknows, -, hL⟩ := henv []
      obtain rfl : b = false := Bool.eq_false_iff.2 fun h => List.not_mem_nil (hb.1 h)
      exact (within_cond hknows (by simp) (by simp) (within_yes (hne _ _)
        ofBool_true_ne (within_null hknows hL) (within_quote hknows))).mono (by simp)
  | cons u us ih =>
      obtain ⟨hu, hus⟩ := List.forall_mem_cons.1 hus
      obtain ⟨hknows, hx', hL⟩ := henv (u :: us)
      have hpairs : (Base.member : Defun n).form.pairs = 34 := by simp [Base.member, defun]
      have hlen : (Base.member : Defun n).params.length = 2 := rfl
      by_cases hxu : x = u
      · obtain rfl : b = true := hb.2 (hxu ▸ List.mem_cons_self)
        have hequal := within_equal hknows hx' (within_first h hknows hL) hx hu
          (iff_of_true rfl hxu)
        refine (within_cond hknows (by simp) (by simp) (within_no (hne _ _)
          (within_null hknows hL) (within_yes (hne _ _) ofBool_true_ne hequal
            (within_quote hknows)))).mono ?_
        simp only [List.length_cons, List.length_nil]
        omega
      · have hequal := within_equal hknows hx' (within_first h hknows hL) hx hu
          (iff_of_false Bool.false_ne_true hxu)
        have hb' : b = true ↔ x ∈ us := by rw [hb, List.mem_cons, or_iff_right hxu]
        have hrest := within_function h hknows hF (within_two hx' (within_rest h hknows hL)) rfl
          (ih hus hb')
        refine (within_cond hknows (by simp) (by simp) (within_no (hne _ _)
          (within_null hknows hL) (within_no (hne _ _) hequal
            (within_else hknows hrest)))).mono ?_
        simp only [hpairs, hlen, List.length_cons, List.length_nil]
        omega

/-! ### Functions on trees -/

theorem computes_ff (h : Loaded names Γ) (t : Tree n) :
    Computes names Γ Base.ff [t] t.ff (47 * t.depth + 18) := by
  have hF : Base.ff ∈ Yls.functions (n := n) := mem_of_lists (by simp [Base.lists])
  have henv : ∀ t : Tree n, Knows names Γ (Base.ff.env [t]) ∧
      Within names Γ (.eval (var "e")) (Base.ff.env [t]) t 0 := fun t =>
    ⟨knows_env h hF _, within_param h hF (.head _) rfl⟩
  induction t using Tree.induct with
  | atom t hatom =>
      obtain ⟨hknows, he⟩ := henv t
      have htest := within_atom hknows he
      rw [hatom] at htest
      rw [Tree.ff_of_isAtom hatom]
      exact (within_cond hknows (by simp) (by simp)
        (within_yes (by simp [call]) ofBool_true_ne htest he)).mono (by simp)
  | pair t u iht =>
      obtain ⟨hknows, he⟩ := henv (.pair t u)
      have hrest := within_function h hknows hF (within_one (within_car hknows he)) rfl iht
      refine (within_cond hknows (by simp) (by simp) (within_no (by simp [call])
        (within_atom hknows he) (within_else hknows hrest))).mono ?_
      have hpairs : (Base.ff : Defun n).form.pairs = 20 := by simp [Base.ff, defun]
      have hlen : (Base.ff : Defun n).params.length = 1 := rfl
      simp only [hpairs, hlen, Tree.depth, List.length_cons, List.length_nil]
      omega

theorem computes_lclone (h : Loaded names Γ) (t : Tree n) :
    Computes names Γ Base.lclone [t] t (111 * t.pairs + 18) := by
  have hF : Base.lclone ∈ Yls.functions (n := n) := mem_of_lists (by simp [Base.lists])
  have henv : ∀ t : Tree n, Knows names Γ (Base.lclone.env [t]) ∧
      Within names Γ (.eval (var "E")) (Base.lclone.env [t]) t 0 := fun t =>
    ⟨knows_env h hF _, within_param h hF (.head _) rfl⟩
  induction t using Tree.induct with
  | atom t hatom =>
      obtain ⟨hknows, hE⟩ := henv t
      have htest := within_atom hknows hE
      rw [hatom] at htest
      exact (within_cond hknows (by simp) (by simp)
        (within_yes (by simp [call]) ofBool_true_ne htest hE)).mono (by simp)
  | pair t u iht ihu =>
      obtain ⟨hknows, hE⟩ := henv (.pair t u)
      have hcar := within_function h hknows hF (within_one (within_car hknows hE)) rfl iht
      have hcdr := within_function h hknows hF (within_one (within_cdr hknows hE)) rfl ihu
      refine (within_cond hknows (by simp) (by simp) (within_no (by simp [call])
        (within_atom hknows hE) (within_else hknows (within_consed hknows hcar hcdr)))).mono ?_
      have hpairs : (Base.lclone : Defun n).form.pairs = 27 := by simp [Base.lclone, defun]
      have hlen : (Base.lclone : Defun n).params.length = 1 := rfl
      simp only [hpairs, hlen, Tree.pairs, List.length_cons, List.length_nil]
      omega

/-- The atoms that are equal to `u` are replaced by `x`. -/
theorem computes_subst (h : Loaded names Γ) (x : Tree n) (hu : u.IsPlain) (ht : t.IsPlain) :
    Computes names Γ Base.subst [x, u, t] (Tree.replace x u t) (182 * t.pairs + 37) := by
  have hF : Base.subst ∈ Yls.functions (n := n) := mem_of_lists (by simp [Base.lists])
  have henv : ∀ t : Tree n, Knows names Γ (Base.subst.env [x, u, t]) ∧
      Within names Γ (.eval (var "pARAM")) (Base.subst.env [x, u, t]) x 0 ∧
      Within names Γ (.eval (var "aRG")) (Base.subst.env [x, u, t]) u 0 ∧
      Within names Γ (.eval (var "e")) (Base.subst.env [x, u, t]) t 0 := fun t =>
    ⟨knows_env h hF _, within_param h hF (.head _) rfl, within_param h hF (.tail _ (.head _)) rfl,
      within_param h hF (.tail _ (.tail _ (.head _))) rfl⟩
  induction t using Tree.induct with
  | atom t hatom =>
      obtain ⟨hknows, hp, ha, he⟩ := henv t
      have htest := within_atom hknows he
      rw [hatom] at htest
      have hinner : Within names Γ (.eval (cond [(call "equal" [var "e", var "aRG"], var "pARAM"),
          (quote (var "t"), var "e")])) (Base.subst.env [x, u, t]) (Tree.replace x u t) 19 := by
        rw [Tree.replace, Tree.mapAtoms_of_isAtom hatom]
        by_cases htu : t = u
        · rw [if_pos htu]
          have hequal := within_equal hknows he ha ht hu (iff_of_true rfl htu)
          exact within_cond hknows (by simp) (by simp)
            (within_yes (by simp [call]) ofBool_true_ne hequal hp)
        · rw [if_neg htu]
          have hequal := within_equal hknows he ha ht hu (iff_of_false Bool.false_ne_true htu)
          exact within_cond hknows (by simp) (by simp)
            (within_no (by simp [call]) hequal (within_else hknows he))
      exact (within_cond hknows (by simp) (by simp)
        (within_yes (by simp [call]) ofBool_true_ne htest hinner)).mono (by simp)
  | pair t₁ t₂ ih₁ ih₂ =>
      obtain ⟨hknows, hp, ha, he⟩ := henv (.pair t₁ t₂)
      have hcar := within_function h hknows hF
        (within_cons hp (within_two ha (within_car hknows he))) rfl (ih₁ ht.1)
      have hcdr := within_function h hknows hF
        (within_cons hp (within_two ha (within_cdr hknows he))) rfl (ih₂ ht.2)
      refine (within_cond hknows (by simp) (by simp) (within_no (by simp [call])
        (within_atom hknows he) (within_else hknows (within_consed hknows hcar hcdr)))).mono ?_
      have hpairs : (Base.subst : Defun n).form.pairs = 45 := by simp [Base.subst, defun]
      have hlen : (Base.subst : Defun n).params.length = 3 := rfl
      simp only [hpairs, hlen, Tree.pairs, List.length_cons, List.length_nil]
      omega

end Spec

end Lang

end Ylisp
