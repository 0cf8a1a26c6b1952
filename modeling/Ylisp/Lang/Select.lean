import Ylisp.Lang.BaseSpec

/-!
# `caar` to `cddddr`

The functions of `base.yl` select through the pairs that their names spell, and give nil where
there is no pair. Those of `ylsfunc.h` with the same names fail there.
-/

namespace Ylisp

namespace Lang

open Mempool Eval Effect

variable {n : ℕ}

def Side.sym : Side → String
  | .car => "car"
  | .cdr => "cdr"

/-- `ylcaar` to `ylcddddr`. -/
def ylcxr : List Side → Ref n → Hp n (Ref n)
  | [], e => pure e
  | s :: p, e => do s.get (← ylcxr p e)

namespace Tree

/-- A field of a pair; nil for an atom. -/
def get : Side → Tree n → Tree n
  | .car, pair t _ => t
  | .cdr, pair _ u => u
  | _, _ => nil

def path (p : List Side) (t : Tree n) : Tree n := p.foldr get t

def HasPath : List Side → Tree n → Prop
  | [], _ => True
  | _ :: p, t => t.HasPath p ∧ (t.path p).isAtom = false

theorem get_of_isAtom {s : Side} {t : Tree n} (h : t.isAtom = true) : t.get s = nil := by
  cases t with
  | pair t u => cases h
  | _ => cases s <;> rfl

theorem exists_pair_of_isAtom {t : Tree n} (h : t.isAtom = false) : ∃ u v, t = pair u v := by
  cases t with
  | pair u v => exact ⟨u, v, rfl⟩
  | _ => cases h

end Tree

section Read

variable {p : Pool n} {r : Ref n} {t : Tree n} {ps : List Side}

theorem Denotes.get (s : Side) (h : Denotes p r t) : if t.isAtom
    then s.get r p = .error (.undefined .evalUndefined) p
    else ∃ x, s.get r p = .ok x p ∧ Denotes p x (t.get s) := by
  cases ht : t.isAtom with
  | true =>
      have hatom := h.yleisAtom_eq
      rw [ht] at hatom
      cases s <;> exact bind_of_ok hatom
  | false =>
      obtain ⟨u, v, rfl⟩ := Tree.exists_pair_of_isAtom ht
      obtain ⟨x, y, ho, hx, hy⟩ := h.exists_pair
      cases s with
      | car => exact ⟨x, ylcar_pair ho, hx⟩
      | cdr => exact ⟨y, ylcdr_pair ho, hy⟩

/-- The functions of `ylsfunc.h` select where there are pairs, and fail elsewhere. -/
theorem ylcxr_eq (h : Denotes p r t) :
    (t.HasPath ps → ∃ x, ylcxr ps r p = .ok x p ∧ Denotes p x (t.path ps)) ∧
      (¬ t.HasPath ps → ylcxr ps r p = .error (.undefined .evalUndefined) p) := by
  induction ps with
  | nil => exact ⟨fun _ => ⟨r, rfl, h⟩, fun hno => absurd trivial hno⟩
  | cons s ps ih =>
      obtain ⟨hyes, hno⟩ := ih
      by_cases hpath : t.HasPath ps
      · obtain ⟨x, hx, hden⟩ := hyes hpath
        have hget := hden.get s
        refine ⟨fun hall => ?_, fun hnot => ?_⟩
        · rw [hall.2] at hget
          obtain ⟨y, hy, hden'⟩ := hget
          exact ⟨y, (bind_of_ok hx).trans hy, hden'⟩
        · have hatom : (t.path ps).isAtom = true := by
            by_contra hne
            exact hnot ⟨hpath, Bool.eq_false_iff.2 hne⟩
          rw [hatom] at hget
          exact (bind_of_ok hx).trans hget
      · exact ⟨fun hall => absurd hall.1 hpath, fun _ => bind_of_error (hno hpath)⟩

end Read

section Select

variable {names : Set (List UInt8)} {Γ : Globals n} {ρ : Locals n} {F G : Defun n}
  {t u v : Tree n} {name inner : String} {d : ℕ}

theorem within_side (s : Side) (h : Knows names Γ ρ)
    (ht : Within names Γ (.eval t) ρ v d) (hv : v.isAtom = false) :
    Within names Γ (.eval (call (Side.sym s) [t])) ρ (v.get s) (d + 1) := by
  obtain ⟨u, w, rfl⟩ := Tree.exists_pair_of_isAtom hv
  cases s with
  | car => exact within_car h ht
  | cdr => exact within_cdr h ht

/-- The last clauses: nil for an atom, and a field for a pair. -/
theorem within_selected (s : Side) (h : Knows names Γ ρ) {a : Bool} {test : Tree n} {d' : ℕ}
    (htest : test ≠ .nil) (hatom : Within names Γ (.eval test) ρ (.ofBool a) d')
    (hnil : a = true → v.get s = .nil)
    (hv : a = false → v.isAtom = false ∧ Within names Γ (.eval t) ρ v d) :
    Within names Γ (.eval (cond [(test, quote .nil), (quote (var "t"), call (Side.sym s) [t])])) ρ
      (v.get s) (18 + d' + d) := by
  cases a with
  | true =>
      rw [hnil rfl]
      exact (within_cond h (by simp) (by simp)
        (within_yes htest ofBool_true_ne hatom (within_quote h))).mono (by simp; omega)
  | false =>
      obtain ⟨hv, ht⟩ := hv rfl
      exact (within_cond h (by simp) (by simp)
        (within_no htest hatom (within_else h (within_side s h ht hv)))).mono (by simp; omega)

structure Selects (names : Set (List UInt8)) (Γ : Globals n) (F : Defun n) (name : String)
    (t : Tree n) (p : List Side) (d : ℕ) : Prop where
  mem : F ∈ Yls.functions
  name_eq : F.name = cstr name
  params : F.params.length = 1
  pairs : F.form.pairs ≤ 40
  computes : Computes names Γ F [t] (t.path p) d

theorem selects_cxxr (h : Loaded names Γ) (s₁ s₂ : Side)
    (hF : Base.cxxr name (Side.sym s₁) (Side.sym s₂) ∈ Yls.functions (n := n)) (t : Tree n) :
    Selects names Γ (Base.cxxr name (Side.sym s₁) (Side.sym s₂)) name t [s₁, s₂] 40 := by
  have hknows := knows_env h hF [t]
  have he : Within names Γ (.eval (var "e")) ((Base.cxxr name (Side.sym s₁) (Side.sym s₂)).env [t])
      t 0 := within_param h hF (.head _) rfl
  refine ⟨hF, rfl, rfl, Nat.le_of_ble_eq_true rfl, ?_⟩
  cases ht : t.isAtom with
  | true =>
      have hno : t.isAtom = false →
          Within names Γ (.eval (call "atom" [call (Side.sym s₂) [var "e"]]))
            ((Base.cxxr name (Side.sym s₁) (Side.sym s₂)).env [t]) (.ofBool true) 0 := fun h => by
        rw [ht] at h
        cases h
      have hor := within_or hknows (within_atom hknows he) hno
      refine (within_selected (d := 0) s₁ hknows (by simp [call]) hor (fun _ => ?_)
        fun h => ?_).mono (by simp)
      · show (Tree.get s₂ t).get s₁ = .nil
        rw [Tree.get_of_isAtom ht, Tree.get_of_isAtom rfl]
      · rw [ht] at h
        cases h
  | false =>
      have hin := within_side s₂ hknows he ht
      have hor := within_or hknows (within_atom hknows he) fun _ => within_atom hknows hin
      rw [ht, Bool.false_or] at hor
      exact (within_selected s₁ hknows (by simp [call]) hor Tree.get_of_isAtom
        fun h => ⟨h, hin⟩).mono (by simp)

theorem selects_cxxxr (h : Loaded names Γ) (s : Side) {p : List Side}
    (hF : Base.cxxxr name (Side.sym s) inner ∈ Yls.functions (n := n))
    (hG : Selects names Γ G inner t p d) :
    Selects names Γ (Base.cxxxr name (Side.sym s) inner) name t (s :: p) (2 * d + 120) := by
  have hknows := knows_env h hF [t]
  have he : Within names Γ (.eval (var "e")) ((Base.cxxxr name (Side.sym s) inner).env [t]) t 0 :=
    within_param h hF (.head _) rfl
  have hcall := within_function h hknows hG.mem (within_one he) hG.params hG.computes
  rw [hG.name_eq] at hcall
  refine ⟨hF, rfl, rfl, Nat.le_of_ble_eq_true rfl, (within_selected s hknows (by simp [call])
    (within_atom hknows hcall) Tree.get_of_isAtom fun h => ⟨h, hcall⟩).mono ?_⟩
  have hparams := hG.params
  have hpairs := hG.pairs
  omega

theorem Selects.within {p : List Side} {d' : ℕ} (hsel : Selects names Γ F name v p d)
    (h : Loaded names Γ) (hknows : Knows names Γ ρ) (ht : Within names Γ (.eval t) ρ v d') :
    Within names Γ (.eval (call name [t])) ρ (v.path p) (d' + d + 48) := by
  have hcall := within_function h hknows hsel.mem (within_one ht) hsel.params hsel.computes
  rw [hsel.name_eq] at hcall
  refine hcall.mono ?_
  have hparams := hsel.params
  have hpairs := hsel.pairs
  omega

theorem mem_cxr (i : Fin 28) : (Base.cxrs (n := n)[i]).2 ∈ Yls.functions :=
  mem_of_cxrs (List.getElem_mem _)

theorem Selects.mono {p : List Side} {d' : ℕ} (h : Selects names Γ F name t p d) (hd : d ≤ d') :
    Selects names Γ F name t p d' := { h with computes := h.computes.mono hd }

/-- The functions from `caar` to `cddddr` select what their names spell. -/
theorem selects_cxr (h : Loaded names Γ) (t : Tree n) :
    ∀ w ∈ Base.cxrs, ∃ name, Selects names Γ w.2 name t w.1 520 := by
  have haa : Selects names Γ Base.caar "caar" t [.car, .car] 40 :=
    selects_cxxr h .car .car (mem_cxr 0) t
  have had : Selects names Γ Base.cadr "cadr" t [.car, .cdr] 40 :=
    selects_cxxr h .car .cdr (mem_cxr 1) t
  have hda : Selects names Γ Base.cdar "cdar" t [.cdr, .car] 40 :=
    selects_cxxr h .cdr .car (mem_cxr 2) t
  have hdd : Selects names Γ Base.cddr "cddr" t [.cdr, .cdr] 40 :=
    selects_cxxr h .cdr .cdr (mem_cxr 3) t
  have haaa : Selects names Γ Base.caaar "caaar" t [.car, .car, .car] 200 :=
    selects_cxxxr h .car (mem_cxr 4) haa
  have haad : Selects names Γ Base.caadr "caadr" t [.car, .car, .cdr] 200 :=
    selects_cxxxr h .car (mem_cxr 5) had
  have hada : Selects names Γ Base.cadar "cadar" t [.car, .cdr, .car] 200 :=
    selects_cxxxr h .car (mem_cxr 6) hda
  have hadd : Selects names Γ Base.caddr "caddr" t [.car, .cdr, .cdr] 200 :=
    selects_cxxxr h .car (mem_cxr 7) hdd
  have hdaa : Selects names Γ Base.cdaar "cdaar" t [.cdr, .car, .car] 200 :=
    selects_cxxxr h .cdr (mem_cxr 8) haa
  have hdad : Selects names Γ Base.cdadr "cdadr" t [.cdr, .car, .cdr] 200 :=
    selects_cxxxr h .cdr (mem_cxr 9) had
  have hdda : Selects names Γ Base.cddar "cddar" t [.cdr, .cdr, .car] 200 :=
    selects_cxxxr h .cdr (mem_cxr 10) hda
  have hddd : Selects names Γ Base.cdddr "cdddr" t [.cdr, .cdr, .cdr] 200 :=
    selects_cxxxr h .cdr (mem_cxr 11) hdd
  have haaaa : Selects names Γ Base.caaaar "caaaar" t [.car, .car, .car, .car] 520 :=
    selects_cxxxr h .car (mem_cxr 12) haaa
  have haaad : Selects names Γ Base.caaadr "caaadr" t [.car, .car, .car, .cdr] 520 :=
    selects_cxxxr h .car (mem_cxr 13) haad
  have haada : Selects names Γ Base.caadar "caadar" t [.car, .car, .cdr, .car] 520 :=
    selects_cxxxr h .car (mem_cxr 14) hada
  have haadd : Selects names Γ Base.caaddr "caaddr" t [.car, .car, .cdr, .cdr] 520 :=
    selects_cxxxr h .car (mem_cxr 15) hadd
  have hadaa : Selects names Γ Base.cadaar "cadaar" t [.car, .cdr, .car, .car] 520 :=
    selects_cxxxr h .car (mem_cxr 16) hdaa
  have hadad : Selects names Γ Base.cadadr "cadadr" t [.car, .cdr, .car, .cdr] 520 :=
    selects_cxxxr h .car (mem_cxr 17) hdad
  have hadda : Selects names Γ Base.caddar "caddar" t [.car, .cdr, .cdr, .car] 520 :=
    selects_cxxxr h .car (mem_cxr 18) hdda
  have haddd : Selects names Γ Base.cadddr "cadddr" t [.car, .cdr, .cdr, .cdr] 520 :=
    selects_cxxxr h .car (mem_cxr 19) hddd
  have hdaaa : Selects names Γ Base.cdaaar "cdaaar" t [.cdr, .car, .car, .car] 520 :=
    selects_cxxxr h .cdr (mem_cxr 20) haaa
  have hdaad : Selects names Γ Base.cdaadr "cdaadr" t [.cdr, .car, .car, .cdr] 520 :=
    selects_cxxxr h .cdr (mem_cxr 21) haad
  have hdada : Selects names Γ Base.cdadar "cdadar" t [.cdr, .car, .cdr, .car] 520 :=
    selects_cxxxr h .cdr (mem_cxr 22) hada
  have hdadd : Selects names Γ Base.cdaddr "cdaddr" t [.cdr, .car, .cdr, .cdr] 520 :=
    selects_cxxxr h .cdr (mem_cxr 23) hadd
  have hddaa : Selects names Γ Base.cddaar "cddaar" t [.cdr, .cdr, .car, .car] 520 :=
    selects_cxxxr h .cdr (mem_cxr 24) hdaa
  have hddad : Selects names Γ Base.cddadr "cddadr" t [.cdr, .cdr, .car, .cdr] 520 :=
    selects_cxxxr h .cdr (mem_cxr 25) hdad
  have hddda : Selects names Γ Base.cdddar "cdddar" t [.cdr, .cdr, .cdr, .car] 520 :=
    selects_cxxxr h .cdr (mem_cxr 26) hdda
  have hdddd : Selects names Γ Base.cddddr "cddddr" t [.cdr, .cdr, .cdr, .cdr] 520 :=
    selects_cxxxr h .cdr (mem_cxr 27) hddd
  simp only [Base.cxrs, List.forall_mem_cons]
  exact ⟨⟨_, haa.mono (by decide)⟩, ⟨_, had.mono (by decide)⟩, ⟨_, hda.mono (by decide)⟩,
    ⟨_, hdd.mono (by decide)⟩, ⟨_, haaa.mono (by decide)⟩, ⟨_, haad.mono (by decide)⟩,
    ⟨_, hada.mono (by decide)⟩, ⟨_, hadd.mono (by decide)⟩, ⟨_, hdaa.mono (by decide)⟩,
    ⟨_, hdad.mono (by decide)⟩, ⟨_, hdda.mono (by decide)⟩, ⟨_, hddd.mono (by decide)⟩, ⟨_, haaaa⟩,
    ⟨_, haaad⟩, ⟨_, haada⟩, ⟨_, haadd⟩, ⟨_, hadaa⟩, ⟨_, hadad⟩, ⟨_, hadda⟩, ⟨_, haddd⟩, ⟨_, hdaaa⟩,
    ⟨_, hdaad⟩, ⟨_, hdada⟩, ⟨_, hdadd⟩, ⟨_, hddaa⟩, ⟨_, hddad⟩, ⟨_, hddda⟩, ⟨_, hdddd⟩, by simp⟩

end Select

end Lang

end Ylisp
