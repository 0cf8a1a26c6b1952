import Ylisp.Lang.Evals

/-!
# Native functions on trees

A native function of `Nfunc` returns what `Gives` says. `yleq` compares trees of symbols.
-/

namespace Ylisp

namespace Lang

open Mempool Eval Effect

variable {n : ℕ}

section Compare

variable {c : Etcxt n} {p : Pool n} {x y : Ref n} {t u : Tree n} {k : ℕ}

theorem Tree.IsPlain.cases {t : Tree n} (h : t.IsPlain) :
    t = .nil ∨ (∃ s, t = .sym s) ∨ ∃ a b, t = .pair a b ∧ a.IsPlain ∧ b.IsPlain := by
  cases t with
  | nil => exact Or.inl rfl
  | atom o =>
      cases o with
      | sym s => exact Or.inr (Or.inl ⟨s, rfl⟩)
      | _ => exact h.elim
  | ref r => exact h.elim
  | pair a b => exact Or.inr (Or.inr ⟨a, b, rfl, h⟩)

theorem denotes_ylb2e (b : Bool) : Denotes p (ylb2e b) (.ofBool b) := by
  cases b with
  | true => exact denotes_sym rfl
  | false => exact .nil

theorem atomEq_plain (hx : Denotes p x t) (hy : Denotes p y u) (ht : t.IsPlain) (hu : u.IsPlain)
    (hta : t.isAtom = true) (hua : u.isAtom = true) (hne : x ≠ y) :
    atomEq c p x y = true ↔ t = u := by
  rcases ht.cases with rfl | ⟨s, rfl⟩ | ⟨_, _, rfl, -⟩
  · obtain rfl := hx.eq_ylnil_iff.2 rfl
    rcases hu.cases with rfl | ⟨s', rfl⟩ | ⟨_, _, rfl, -⟩
    · exact absurd (hy.eq_ylnil_iff.2 rfl).symm hne
    · rw [atomEq, hy.obj_eq]
      exact iff_of_false Bool.false_ne_true (by simp)
    · cases hua
  · rcases hu.cases with rfl | ⟨s', rfl⟩ | ⟨_, _, rfl, -⟩
    · obtain rfl := hy.eq_ylnil_iff.2 rfl
      rw [atomEq, hx.obj_eq]
      exact iff_of_false Bool.false_ne_true (by simp)
    · rw [atomEq, hx.obj_eq, hy.obj_eq]
      simp
    · cases hua
  · cases hta

/-- `yleq` decides whether two trees of symbols are the same. -/
theorem yleq_plain (hx : Denotes p x t) (hy : Denotes p y u) (ht : t.IsPlain) (hu : u.IsPlain)
    (hk : t.pairs < k) : ∃ b : Bool, yleq c k x y p = .ok (ylb2e b) p ∧ (b = true ↔ t = u) := by
  induction hx using Denotes.induct generalizing y u k with
  | atom x t hx hta =>
      obtain ⟨k, rfl⟩ : ∃ m, k = m + 1 := ⟨k - 1, by omega⟩
      rw [yleq]
      by_cases hxy : x = y
      · rw [if_pos hxy]
        subst hxy
        exact ⟨true, rfl, iff_of_true rfl (hx.unique hy)⟩
      · rw [if_neg hxy, bind_of_ok hx.yleisAtom_eq, bind_of_ok hy.yleisAtom_eq, hta]
        cases hua : u.isAtom with
        | true => exact ⟨atomEq c p x y, rfl, atomEq_plain hx hy ht hu hta hua hxy⟩
        | false =>
            refine ⟨false, rfl, iff_of_false Bool.false_ne_true ?_⟩
            rintro rfl
            rw [hta] at hua
            cases hua
  | pair x x₁ x₂ t₁ t₂ ho hx₁ hx₂ ih₁ ih₂ =>
      rw [Tree.pairs] at hk
      obtain ⟨k, rfl⟩ : ∃ m, k = m + 1 := ⟨k - 1, by omega⟩
      have hx := Denotes.pair ho hx₁ hx₂
      rw [yleq]
      by_cases hxy : x = y
      · rw [if_pos hxy]
        subst hxy
        exact ⟨true, rfl, iff_of_true rfl (hx.unique hy)⟩
      · rw [if_neg hxy, bind_of_ok hx.yleisAtom_eq, bind_of_ok hy.yleisAtom_eq]
        rcases hu.cases with rfl | ⟨s, rfl⟩ | ⟨u₁, u₂, rfl, hu₁, hu₂⟩
        · exact ⟨false, rfl, iff_of_false Bool.false_ne_true (by simp)⟩
        · exact ⟨false, rfl, iff_of_false Bool.false_ne_true (by simp)⟩
        · obtain ⟨y₁, y₂, ho', hy₁, hy₂⟩ := hy.exists_pair
          obtain ⟨b₁, heq₁, hb₁⟩ := ih₁ hy₁ ht.1 hu₁ (by omega : t₁.pairs < k)
          obtain ⟨b₂, heq₂, hb₂⟩ := ih₂ hy₂ ht.2 hu₂ (by omega : t₂.pairs < k)
          rw [show (Tree.pair t₁ t₂).isAtom = false from rfl,
            show (Tree.pair u₁ u₂).isAtom = false from rfl, if_neg (by decide), if_pos (by decide),
            bind_of_ok (ylcar_pair ho), bind_of_ok (ylcar_pair ho'), bind_of_ok heq₁]
          cases b₁ with
          | false =>
              rw [if_pos (show ylb2e false = ylnil from rfl)]
              refine ⟨false, rfl, iff_of_false Bool.false_ne_true fun h => ?_⟩
              exact Bool.false_ne_true (hb₁.2 (Tree.pair.inj h).1)
          | true =>
              rw [if_neg (ylb2e_ne_ylnil.2 rfl), bind_of_ok (ylcdr_pair ho),
                bind_of_ok (ylcdr_pair ho'), bind_of_ok heq₂]
              refine ⟨b₂, ?_, ?_⟩
              · cases b₂ <;> rfl
              · rw [hb₂, Tree.pair.injEq]
                exact (and_iff_right (hb₁.1 rfl)).symm

theorem yleq_unlike (hx : Denotes p x t) (hy : Denotes p y u) (hne : t.isAtom ≠ u.isAtom) :
    yleq c (k + 1) x y p = .ok ylnil p := by
  have hxy : x ≠ y := by
    rintro rfl
    exact hne (congrArg Tree.isAtom (hx.unique hy))
  rw [yleq, if_neg hxy, bind_of_ok hx.yleisAtom_eq, bind_of_ok hy.yleisAtom_eq]
  cases ht : t.isAtom <;> cases hu : u.isAtom <;> first | rfl | exact absurd (ht.trans hu.symm) hne

end Compare

section Call

variable {c : Etcxt n} {names : Set (List UInt8)} {p : Pool n} {e : Ref n} {f : Nfunc}
  {ts : List (Tree n)} {t u v : Tree n} {d : ℕ}

theorem ylcar_list (h : Denotes p e (Tree.list (t :: ts))) :
    ∃ x, ylcar e p = .ok x p ∧ Denotes p x t := by
  obtain ⟨x, y, ho, hx, -⟩ := h.exists_pair
  exact ⟨x, ylcar_pair ho, hx⟩

theorem ylcadr_list (h : Denotes p e (Tree.list (t :: u :: ts))) :
    ∃ x, ylcadr e p = .ok x p ∧ Denotes p x u := by
  obtain ⟨x, y, ho, -, hy⟩ := h.exists_pair
  obtain ⟨x, hcar, hx⟩ := ylcar_list hy
  exact ⟨x, (bind_of_ok (ylcdr_pair ho)).trans hcar, hx⟩

theorem makes_call (names : Set (List UInt8)) (hp : p.Good) (he : Denotes p e (Tree.list ts))
    (h : Gives f ts v d) (hroom : d ≤ p.m.fbi) :
    ∃ k, Runs (f.call c k e) p (Makes names p v d) := by
  cases h with
  | car =>
      obtain ⟨k, hk⟩ := pcsz_list 1 1 he le_rfl le_rfl
      obtain ⟨x, hcar, hx⟩ := ylcar_list he
      obtain ⟨y, z, ho, hy, -⟩ := hx.exists_pair
      refine ⟨k, Runs.ok_bind (hk k le_rfl) (Runs.ok_bind hcar (.of_ok (ylcar_pair ho) ?_))⟩
      exact ⟨.refl hp, hy⟩
  | cdr =>
      obtain ⟨k, hk⟩ := pcsz_list 1 1 he le_rfl le_rfl
      obtain ⟨x, hcar, hx⟩ := ylcar_list he
      obtain ⟨y, z, ho, -, hz⟩ := hx.exists_pair
      refine ⟨k, Runs.ok_bind (hk k le_rfl) (Runs.ok_bind hcar (.of_ok (ylcdr_pair ho) ?_))⟩
      exact ⟨.refl hp, hz⟩
  | cons =>
      obtain ⟨k, hk⟩ := pcsz_list 2 2 he le_rfl le_rfl
      obtain ⟨x, hcar, hx⟩ := ylcar_list he
      obtain ⟨y, hcadr, hy⟩ := ylcadr_list he
      refine ⟨k, Runs.ok_bind (hk k le_rfl) (Runs.ok_bind hcar (Runs.ok_bind hcadr ?_))⟩
      exact makes_ylcons names hp hx hy hroom
  | atom =>
      obtain ⟨k, hk⟩ := pcsz_list 1 1 he le_rfl le_rfl
      obtain ⟨x, hcar, hx⟩ := ylcar_list he
      refine ⟨k, Runs.ok_bind (hk k le_rfl) (Runs.ok_bind hcar (Runs.ok_bind hx.yleisAtom_eq ?_))⟩
      exact Runs.pure ⟨.refl hp, denotes_ylb2e _⟩
  | @null t =>
      obtain ⟨k, hk⟩ := pcsz_list 1 1 he le_rfl le_rfl
      obtain ⟨x, hcar, hx⟩ := ylcar_list he
      refine ⟨k, Runs.ok_bind (hk k le_rfl) (Runs.ok_bind hcar (Runs.ok_bind hx.yleisAtom_eq ?_))⟩
      have hnil : (t.isAtom && decide (x = ylnil)) = t.isNil := by
        cases t with
        | nil => exact decide_eq_true (hx.eq_ylnil_iff.2 rfl)
        | pair => rfl
        | _ => exact decide_eq_false fun h => by cases hx.eq_ylnil_iff.1 h
      rw [hnil]
      exact Runs.pure ⟨.refl hp, denotes_ylb2e _⟩
  | @same t ht =>
      obtain ⟨k, hk⟩ := pcsz_list 2 2 he le_rfl le_rfl
      obtain ⟨x, hcar, hx⟩ := ylcar_list he
      obtain ⟨y, hcadr, hy⟩ := ylcadr_list he
      obtain ⟨b, heq, hb⟩ := yleq_plain (c := c) (k := k + t.pairs + 1) hx hy ht ht (by omega)
      refine ⟨k + t.pairs + 1, Runs.ok_bind (hk _ (by omega)) (Runs.ok_bind hcar
        (Runs.ok_bind hcadr (.of_ok heq ⟨.refl hp, ?_⟩)))⟩
      rw [hb.2 rfl]
      exact denotes_ylb2e true
  | @differ t u ht hu hne =>
      obtain ⟨k, hk⟩ := pcsz_list 2 2 he le_rfl le_rfl
      obtain ⟨x, hcar, hx⟩ := ylcar_list he
      obtain ⟨y, hcadr, hy⟩ := ylcadr_list he
      obtain ⟨b, heq, hb⟩ := yleq_plain (c := c) (k := k + t.pairs + 1) hx hy ht hu (by omega)
      refine ⟨k + t.pairs + 1, Runs.ok_bind (hk _ (by omega)) (Runs.ok_bind hcar
        (Runs.ok_bind hcadr (.of_ok heq ⟨.refl hp, ?_⟩)))⟩
      rw [Bool.eq_false_iff.2 fun h => hne (hb.1 h)]
      exact denotes_ylb2e false
  | unlike hne =>
      obtain ⟨k, hk⟩ := pcsz_list 2 2 he le_rfl le_rfl
      obtain ⟨x, hcar, hx⟩ := ylcar_list he
      obtain ⟨y, hcadr, hy⟩ := ylcadr_list he
      refine ⟨k + 1, Runs.ok_bind (hk _ (by omega)) (Runs.ok_bind hcar
        (Runs.ok_bind hcadr (.of_ok (yleq_unlike hx hy hne) ⟨.refl hp, .nil⟩)))⟩
  | list hlen =>
      obtain ⟨k, hk⟩ := pcsz_list 0 9999 he (Nat.zero_le _) hlen
      refine ⟨k + ts.length + 1, Runs.ok_bind (hk _ (by omega)) ?_⟩
      exact makes_listCons hp he (by omega) hroom

end Call

end Lang

end Ylisp
