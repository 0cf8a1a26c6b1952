import Ylisp.Lang.Call

/-!
# The recursive S-functions

`ylsfunc.h` has some functions of `base.yl` a second time, in C: `ylappend`, `ylpair`, `ylsubst`,
`ylamong` and `ylff`. What they do on trees; trees of symbols where elements are compared.
-/

namespace Ylisp

namespace Lang

open Mempool Eval Effect

variable {n : ℕ}

def ylff : ℕ → Ref n → Hp n (Ref n)
  | 0, _ => stuck
  | k + 1, e => do
      if ← yleisAtom e then pure e else ylff k (← ylcar e)

def ylsubst (c : Etcxt n) : ℕ → Ref n → Ref n → Ref n → Hp n (Ref n)
  | 0, _, _, _ => stuck
  | k + 1, x, y, z => do
      if ← yleisAtom y then
        if ← yleisAtom z then
          let eq ← yleq c k z y
          if eq ≠ ylnil then pure x else pure z
        else
          let car ← ylsubst c k x y (← ylcar z)
          let cdr ← ylsubst c k x y (← ylcdr z)
          ylcons car cdr
      else ylinterpretUndefined .evalUndefined

def ylamong (c : Etcxt n) : ℕ → Ref n → Ref n → Hp n (Ref n)
  | 0, _, _ => stuck
  | k + 1, x, y => do
      if (← yleisAtom y) && y = ylnil then pure (ylb2e false)
      else
        let eq ← yleq c k x (← ylcar y)
        if eq ≠ ylnil then pure (ylb2e true)
        else
          let among ← ylamong c k x (← ylcdr y)
          pure (ylb2e (among ≠ ylnil))

namespace Tree

/-- The first element, as long as there is one. -/
def ff : Tree n → Tree n
  | pair t _ => t.ff
  | t => t

theorem ff_of_isAtom {t : Tree n} (h : t.isAtom = true) : t.ff = t := by
  cases t with
  | pair t u => cases h
  | _ => rfl

/-- Pairs down to the atom that `ff` finds. -/
def depth : Tree n → ℕ
  | pair t _ => t.depth + 1
  | _ => 0

open Classical in
noncomputable def replace (x a : Tree n) : Tree n → Tree n :=
  mapAtoms fun t => if t = a then x else t

def twos (ts us : List (Tree n)) : List (Tree n) := List.zipWith (fun t u => list [t, u]) ts us

end Tree

section Sfunc

variable {c : Etcxt n} {names : Set (List UInt8)} {p : Pool n} {x y z : Ref n} {t u w : Tree n}
  {ts us : List (Tree n)} {k : ℕ}

theorem makes_ylappend (names : Set (List UInt8)) (hp : p.Good) (hx : Denotes p x (.list ts))
    (hy : Denotes p y u) (hk : ts.length < k) (hroom : ts.length ≤ p.m.fbi) :
    Runs (ylappend k x y) p (Makes names p (Tree.onto u ts) ts.length) := by
  induction ts generalizing p x y k with
  | nil =>
      obtain ⟨k, rfl⟩ := Nat.exists_eq_add_of_lt hk
      obtain rfl := hx.eq_ylnil_iff.2 rfl
      exact Runs.pure ⟨.refl hp, hy⟩
  | cons t ts ih =>
      rw [List.length_cons] at hk hroom
      obtain ⟨k, rfl⟩ : ∃ m, k = m + 1 := ⟨k - 1, by omega⟩
      obtain ⟨a, d, ho, ha, hd⟩ := hx.exists_pair
      rw [ylappend, if_neg (ne_ylnil_of_pair ho)]
      refine Runs.ok_bind (ylcar_pair ho) (Runs.ok_bind (ylcdr_pair ho) ?_)
      refine (ih hp hd hy (by omega) (by omega)).bind ?_
      rintro l q ⟨hadds, hl⟩
      have hroom' := hadds.room
      refine (makes_ylcons names hadds.good (ha.adds hp hadds) hl (by omega)).mono ?_
      rintro r s ⟨hadds', hr⟩
      exact ⟨hadds.trans hadds', hr⟩

theorem makes_ylpair (names : Set (List UInt8)) (hp : p.Good) (hx : Denotes p x (.list ts))
    (hy : Denotes p y (.list us)) (hlen : ts.length = us.length) (hk : ts.length < k)
    (hroom : 3 * ts.length ≤ p.m.fbi) :
    Runs (ylpair k x y) p (Makes names p (.list (Tree.twos ts us)) (3 * ts.length)) := by
  induction ts generalizing p x y us k with
  | nil =>
      obtain ⟨k, rfl⟩ : ∃ m, k = m + 1 := ⟨k - 1, by simp at hk; omega⟩
      obtain rfl := List.eq_nil_of_length_eq_zero hlen.symm
      obtain rfl := hx.eq_ylnil_iff.2 rfl
      obtain rfl := hy.eq_ylnil_iff.2 rfl
      exact Runs.pure ⟨.refl hp, .nil⟩
  | cons t ts ih =>
      rw [List.length_cons] at hk hroom hlen
      obtain ⟨k, rfl⟩ : ∃ m, k = m + 1 := ⟨k - 1, by omega⟩
      obtain ⟨u, us, rfl⟩ : ∃ u vs, us = u :: vs :=
        List.exists_cons_of_length_eq_add_one hlen.symm
      obtain ⟨a, d, ho, ha, hd⟩ := hx.exists_pair
      obtain ⟨a', d', ho', ha', hd'⟩ := hy.exists_pair
      rw [ylpair, if_neg fun h => ne_ylnil_of_pair ho h.1]
      refine Runs.ok_bind (yleisAtom_pair ho) (Runs.ok_bind (yleisAtom_pair ho') ?_)
      refine Runs.ok_bind (ylcar_pair ho) (Runs.ok_bind (ylcar_pair ho') ?_)
      refine (makes_yllist names hp ha ha' (by omega)).bind ?_
      rintro l q ⟨hadds, hl⟩
      have hroom' := hadds.room
      have hox := (hadds.obj x (hx.valid hp.wf)).trans ho
      have hoy := (hadds.obj y (hy.valid hp.wf)).trans ho'
      refine Runs.ok_bind (ylcdr_pair hox) (Runs.ok_bind (ylcdr_pair hoy) ?_)
      refine (ih hadds.good (hd.adds hp hadds) (hd'.adds hp hadds) (by simpa using hlen) (by omega)
        (by omega)).bind ?_
      rintro m s ⟨hadds', hm⟩
      have hroom'' := hadds'.room
      refine (makes_ylcons names hadds'.good (hl.adds hadds.good hadds') hm (by omega)).mono ?_
      rintro r v ⟨hadds'', hr⟩
      have hd : 2 + 3 * ts.length + 1 = 3 * (t :: ts).length := by
        rw [List.length_cons]
        omega
      exact ⟨hd ▸ (hadds.trans hadds').trans hadds'', hr⟩

theorem ylpair_fails (names : Set (List UInt8)) (hp : p.Good) (hx : Denotes p x (.list ts))
    (hy : Denotes p y (.list us)) (hlen : ts.length ≠ us.length) (hk : ts.length < k)
    (hroom : 2 * ts.length ≤ p.m.fbi) :
    ∃ q, ylpair k x y p = .error (.undefined .evalUndefined) q := by
  induction ts generalizing p x y us k with
  | nil =>
      obtain ⟨k, rfl⟩ : ∃ m, k = m + 1 := ⟨k - 1, by simp at hk; omega⟩
      obtain ⟨u, us, rfl⟩ : ∃ u vs, us = u :: vs := by
        cases us with
        | nil => exact absurd rfl hlen
        | cons u us => exact ⟨u, us, rfl⟩
      obtain ⟨a, d, ho, -, -⟩ := hy.exists_pair
      refine ⟨p, ?_⟩
      rw [ylpair, if_neg fun h => ne_ylnil_of_pair ho h.2, bind_of_ok hx.yleisAtom_eq,
        bind_of_ok (yleisAtom_pair ho)]
      rfl
  | cons t ts ih =>
      rw [List.length_cons] at hk hroom hlen
      obtain ⟨k, rfl⟩ : ∃ m, k = m + 1 := ⟨k - 1, by omega⟩
      obtain ⟨a, d, ho, ha, hd⟩ := hx.exists_pair
      rw [ylpair, if_neg fun h => ne_ylnil_of_pair ho h.1, bind_of_ok (yleisAtom_pair ho),
        bind_of_ok hy.yleisAtom_eq]
      cases us with
      | nil => exact ⟨p, rfl⟩
      | cons u us =>
          obtain ⟨a', d', ho', ha', hd'⟩ := hy.exists_pair
          obtain ⟨l, q, hl, hadds, -⟩ := makes_yllist names hp ha ha' (by omega)
          have hroom' := hadds.room
          have hox := (hadds.obj x (hx.valid hp.wf)).trans ho
          have hoy := (hadds.obj y (hy.valid hp.wf)).trans ho'
          have hne : ts.length ≠ us.length := by simpa using hlen
          have hfbi : 2 * ts.length ≤ q.m.fbi := by omega
          obtain ⟨s, hs⟩ := ih hadds.good (hd.adds hp hadds) (hd'.adds hp hadds) hne
            (Nat.lt_of_succ_lt_succ hk) hfbi
          refine ⟨s, ?_⟩
          rw [show (Tree.list (u :: us)).isAtom = false from rfl, if_pos (by decide),
            bind_of_ok (ylcar_pair ho), bind_of_ok (ylcar_pair ho'), bind_of_ok hl,
            bind_of_ok (ylcdr_pair hox), bind_of_ok (ylcdr_pair hoy), bind_of_error hs]

theorem runs_ylff (hx : Denotes p x t) (hk : t.depth < k) :
    Runs (ylff k x) p fun r q => q = p ∧ Denotes p r t.ff := by
  induction t generalizing x k with
  | pair t u iht _ =>
      rw [Tree.depth] at hk
      obtain ⟨k, rfl⟩ : ∃ m, k = m + 1 := ⟨k - 1, by omega⟩
      obtain ⟨a, d, ho, ha, -⟩ := hx.exists_pair
      rw [ylff]
      refine Runs.ok_bind (yleisAtom_pair ho) ?_
      rw [if_neg Bool.false_ne_true]
      exact Runs.ok_bind (ylcar_pair ho) (iht ha (by omega))
  | _ =>
      obtain ⟨k, rfl⟩ : ∃ m, k = m + 1 := ⟨k - 1, by omega⟩
      rw [ylff]
      exact Runs.ok_bind hx.yleisAtom_eq (Runs.pure ⟨rfl, hx⟩)

/-- `yleq` says whether two trees of symbols are the same. -/
theorem yleq_true_iff (hx : Denotes p x t) (hy : Denotes p y u) (ht : t.IsPlain) (hu : u.IsPlain)
    (hk : t.pairs < k) : ∃ r, yleq c k x y p = .ok r p ∧ (r ≠ ylnil ↔ t = u) := by
  obtain ⟨b, heq, hb⟩ := yleq_plain (c := c) hx hy ht hu hk
  exact ⟨_, heq, ylb2e_ne_ylnil.trans hb⟩

theorem ylsubst_atom (hx : Denotes p x t) (hy : Denotes p y u) (hz : Denotes p z w)
    (hatom : u.isAtom = true) (hu : u.IsPlain) (hw : w.IsPlain) (hwatom : w.isAtom = true)
    (hk : 0 < k) : ∃ r, ylsubst c (k + 1) x y z p = .ok r p ∧ Denotes p r (Tree.replace t u w) := by
  have hpairs : w.pairs < k := by rwa [Tree.pairs_of_isAtom hwatom]
  obtain ⟨b, heq, hb⟩ := yleq_true_iff (c := c) hz hy hw hu hpairs
  have hrun : ylsubst c (k + 1) x y z p =
      (if b ≠ ylnil then pure x else pure z : Hp n (Ref n)) p := by
    rw [ylsubst, bind_of_ok hy.yleisAtom_eq, hatom, if_pos rfl, bind_of_ok hz.yleisAtom_eq,
      hwatom, if_pos rfl, bind_of_ok heq]
  rw [hrun, Tree.replace, Tree.mapAtoms_of_isAtom hwatom]
  by_cases h : w = u
  · rw [if_pos (hb.2 h), if_pos h]
    exact ⟨x, rfl, hx⟩
  · rw [if_neg (mt hb.1 h), if_neg h]
    exact ⟨z, rfl, hz⟩

theorem makes_ylsubst (names : Set (List UInt8)) (hp : p.Good) (hx : Denotes p x t)
    (hy : Denotes p y u) (hz : Denotes p z w) (hatom : u.isAtom = true) (hu : u.IsPlain)
    (hw : w.IsPlain) (hk : w.pairs + 1 < k) (hroom : w.pairs ≤ p.m.fbi) :
    Runs (ylsubst c k x y z) p (Makes names p (Tree.replace t u w) w.pairs) := by
  induction w generalizing p x y z k with
  | pair w₁ w₂ ih₁ ih₂ =>
      rw [Tree.pairs] at hk hroom
      obtain ⟨k, rfl⟩ : ∃ m, k = m + 1 := ⟨k - 1, by omega⟩
      obtain ⟨a, d, ho, ha, hd⟩ := hz.exists_pair
      rw [ylsubst]
      refine Runs.ok_bind hy.yleisAtom_eq ?_
      rw [hatom, if_pos rfl]
      refine Runs.ok_bind (yleisAtom_pair ho) ?_
      rw [if_neg Bool.false_ne_true]
      refine Runs.ok_bind (ylcar_pair ho) ?_
      -- the car, then the cdr
      refine (ih₁ hp hx hy ha hw.1 (by omega) (by omega)).bind ?_
      rintro l q ⟨hadds, hl⟩
      have hroom' := hadds.room
      refine Runs.ok_bind (ylcdr_pair ((hadds.obj z (hz.valid hp.wf)).trans ho)) ?_
      refine (ih₂ hadds.good (hx.adds hp hadds) (hy.adds hp hadds) (hd.adds hp hadds) hw.2
        (by omega) (by omega)).bind ?_
      rintro m s ⟨hadds', hm⟩
      have hroom'' := hadds'.room
      refine (makes_ylcons names hadds'.good (hl.adds hadds.good hadds') hm (by omega)).mono ?_
      rintro r v ⟨hadds'', hr⟩
      exact ⟨(hadds.trans hadds').trans hadds'', hr⟩
  | _ =>
      obtain ⟨k, rfl⟩ : ∃ m, k = m + 1 := ⟨k - 1, by omega⟩
      obtain ⟨r, hrun, hr⟩ := ylsubst_atom (c := c) hx hy hz hatom hu hw rfl (by omega : 0 < k)
      exact .of_ok hrun ⟨.refl hp, hr⟩

theorem ylsubst_fails (hy : Denotes p y u) (hatom : u.isAtom = false) :
    ylsubst c (k + 1) x y z p = .error (.undefined .evalUndefined) p := by
  rw [ylsubst, bind_of_ok hy.yleisAtom_eq, hatom]
  rfl

theorem runs_ylamong (hx : Denotes p x t) (hy : Denotes p y (.list us)) (ht : t.IsPlain)
    (hus : ∀ u ∈ us, u.IsPlain) (hk : us.length + t.pairs + 1 < k) :
    ∃ b : Bool, ylamong c k x y p = .ok (ylb2e b) p ∧ (b = true ↔ t ∈ us) := by
  induction us generalizing y k with
  | nil =>
      obtain ⟨k, rfl⟩ : ∃ m, k = m + 1 := ⟨k - 1, by omega⟩
      obtain rfl := hy.eq_ylnil_iff.2 rfl
      exact ⟨false, rfl, iff_of_false Bool.false_ne_true List.not_mem_nil⟩
  | cons u us ih =>
      rw [List.length_cons] at hk
      obtain ⟨k, rfl⟩ : ∃ m, k = m + 1 := ⟨k - 1, by omega⟩
      obtain ⟨hu, hus⟩ := List.forall_mem_cons.1 hus
      obtain ⟨a, d, ho, ha, hd⟩ := hy.exists_pair
      obtain ⟨r, heq, hr⟩ := yleq_true_iff (c := c) hx ha ht hu (by omega : t.pairs < k)
      rw [ylamong, bind_of_ok (yleisAtom_pair ho)]
      rw [if_neg (by simp), bind_of_ok (ylcar_pair ho), bind_of_ok heq]
      by_cases h : t = u
      · rw [if_pos (hr.2 h)]
        exact ⟨true, rfl, iff_of_true rfl (h ▸ List.mem_cons_self)⟩
      · obtain ⟨b, hrest, hb⟩ := ih hd hus (by omega : us.length + t.pairs + 1 < k)
        rw [if_neg (mt hr.1 h), bind_of_ok (ylcdr_pair ho), bind_of_ok hrest]
        refine ⟨b, ?_, ?_⟩
        · cases b <;> rfl
        · rw [hb, List.mem_cons, or_iff_right h]

end Sfunc

end Lang

end Ylisp
