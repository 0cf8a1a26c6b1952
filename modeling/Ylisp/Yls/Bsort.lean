import Mathlib.Data.List.Lex
import Ylisp.Eval.BaseBlocks
import Ylisp.Eval.Build
import Ylisp.Library.Bubble

/-!
# `bsort`

The body of `bsort` over the pool: its variables are those of the `let`, and the natives and the
functions of `base.yl` are given their evaluated arguments. What the interpreter takes from the
pool to evaluate the body is left out.

The list is sorted in place: only the cars of its own pairs are assigned (`Recar`). A round of the
outer loop is a pass (`runs_inner`). `bsort_iff` says for which lists the result is sorted:
`cdr` takes no empty list.
-/

namespace Ylisp

namespace Yls

open Mempool Eval Effect

variable {n : ℕ}

/-! ### Natives and functions of `base.yl` -/

def null (e : Ref n) : Ref n := ylb2e (e = ylnil)

def setcar (e x : Ref n) : Hp n (Ref n) := do
  ylnfcheckParameter !(← yleisAtom e)
  ylpsetcar e x
  pure ylt

def lnot (e : Ref n) : Ref n := if e ≠ ylnil then ylnil else ylt

def cadr (e : Ref n) : Hp n (Ref n) := do
  if ← yleisAtom e then pure ylnil
  else if ← yleisAtom (← ylcdr e) then pure ylnil
  else ylcar (← ylcdr e)

/-- `f_while`, for at most `k` rounds; `v` are the variables that the body sets. -/
def fWhile {β : Type} (cond : β → Hp n (Ref n)) (body : β → Hp n β) : ℕ → β → Hp n β
  | 0, _ => stuck
  | k + 1, v => do
      if (← cond v) ≠ ylnil then
        let v ← body v
        fWhile cond body k v
      else pure v

/-- The text of a symbol as `strcmp` reads it. -/
def text (p : Pool n) (e : Ref n) : List ℕ :=
  match p.obj e with
  | .sym s => s.map UInt8.toNat
  | _ => []

def gtSym (e1 e2 : Ref n) : Hp n (Ref n) := do
  match ← symOf e1, ← symOf e2 with
  | some s1, some s2 => pure (ylb2e (s2.map UInt8.toNat < s1.map UInt8.toNat))
  | _, _ => ylinterpretUndefined .funcInvalidParam

/-! ### The function -/

structure Vars (n : ℕ) where
  etmp : Ref n
  i : Ref n
  j : Ref n

def exchange (c : Etcxt n) (k : ℕ) (cmp : Ref n → Ref n → Hp n (Ref n)) (v : Vars n) :
    Hp n (Vars n) := do
  let gt ← cmp (← ylcar v.j) (← cadr v.j)
  if (← yleq c k ylnil gt) ≠ ylnil then
    let etmp ← ylcar v.j
    let _ ← setcar v.j (← cadr v.j)
    let _ ← setcar (← ylcdr v.j) etmp
    let j ← ylcdr v.j
    pure { v with etmp := etmp, j := j }
  else
    let j ← ylcdr v.j
    pure { v with j := j }

def inner (c : Etcxt n) (k : ℕ) (cmp : Ref n → Ref n → Hp n (Ref n)) (v : Vars n) :
    Hp n (Vars n) :=
  fWhile (fun v => do pure (lnot (null (← ylcdr v.j)))) (exchange c k cmp) k v

def bsort (c : Etcxt n) (k : ℕ) (cmp : Ref n → Ref n → Hp n (Ref n)) (l : Ref n) :
    Hp n (Ref n) := do
  let _ ← fWhile (fun v => do pure (lnot (null (← ylcdr v.i))))
    (fun v => do
      let v ← inner c k cmp { v with j := l }
      let i ← ylcdr v.i
      pure { v with i := i })
    k ⟨ylnil, l, ylnil⟩
  pure l

/-! ### Assignments to cars -/

/-- The pools differ in the cars of pairs in `N` at most. -/
structure Recar (N : Fin n → Prop) (p q : Pool n) : Prop where
  rest : q = { p with blk := q.blk }
  blk : ∀ b, q.blk b = p.blk b ∨ N b ∧ ∃ u u' d, (p.blk b).obj = .pair (.at u) (.at d) ∧
    q.blk b = { p.blk b with obj := .pair (.at u') (.at d) }

section Recar

variable {N N' : Fin n → Prop} {p q s : Pool n} {b : Fin n} {u d x : Ref n} {us vs : List (Ref n)}

theorem Recar.refl (N : Fin n → Prop) (p : Pool n) : Recar N p p := ⟨rfl, fun _ => Or.inl rfl⟩

theorem Recar.mono (h : Recar N p q) (hN : ∀ b, N b → N' b) : Recar N' p q :=
  ⟨h.rest, fun b => (h.blk b).imp_right fun hb => ⟨hN b hb.1, hb.2⟩⟩

theorem Recar.trans (h : Recar N p q) (h' : Recar N q s) : Recar N p s where
  rest := by
    rw [h'.rest, h.rest]
  blk := by
    intro b
    obtain hs | ⟨hb, v, v', d, hq, hs⟩ := h'.blk b
    · rw [hs]
      exact h.blk b
    · right
      obtain hp | ⟨-, u, u', d', ho, hp⟩ := h.blk b
      · rw [hp] at hq hs
        exact ⟨hb, v, v', d, hq, hs⟩
      · rw [hp] at hq hs
        cases hq
        exact ⟨hb, u, v', d, ho, hs⟩

theorem Recar.blk_of_not (h : Recar N p q) (hb : ¬ N b) : q.blk b = p.blk b :=
  (h.blk b).resolve_right fun hN => hb hN.1

theorem Recar.pair (h : Recar N p q) (ho : (p.blk b).obj = .pair (.at u) (.at d)) :
    ∃ u', (q.blk b).obj = .pair (.at u') (.at d) := by
  obtain hq | ⟨-, v, v', d', hp, hq⟩ := h.blk b
  · exact ⟨u, by rw [hq, ho]⟩
  · rw [ho] at hp
    cases hp
    exact ⟨v', by rw [hq]⟩

/-- The pairs of a list are still there, with other elements. -/
theorem Recar.listing (h : Recar N p q) (hx : Listing p N' x us) :
    ∃ vs, Listing q N' x vs ∧ vs.length = us.length := by
  induction hx with
  | nil => exact ⟨[], .nil, rfl⟩
  | cons hb ho _ ih =>
      obtain ⟨u', ho'⟩ := h.pair ho
      obtain ⟨vs, hvs, hlen⟩ := ih
      exact ⟨u' :: vs, .cons hb ho' hvs, congrArg (· + 1) hlen⟩

theorem runs_setcar (ho : (p.blk b).obj = .pair (.at u) (.at d)) (hb : N b) (x : Ref n) :
    Runs (setcar (.blk b) x) p fun _ q => Recar N p q ∧
      (q.blk b).obj = .pair (.at x) (.at d) ∧ ∀ b' ≠ b, q.blk b' = p.blk b' := by
  have hset : ylpsetcar (.blk b) x p =
      .ok () (p.setBlk b { p.blk b with obj := .pair (.at x) (.at d) }) := by
    simp only [ylpsetcar, ylpset, ho]
  refine Runs.ok_bind (yleisAtom_pair (e := .blk b) ho) (Runs.ok_bind rfl ?_)
  refine Runs.ok_bind hset (Runs.pure ⟨⟨rfl, fun b' => ?_⟩, Pool.obj_setBlk_self _ _ _,
    fun b' hb' => Pool.setBlk_of_ne _ _ hb'⟩)
  by_cases hb' : b' = b
  · subst hb'
    exact Or.inr ⟨hb, u, x, d, ho, Pool.setBlk_self _ _ _⟩
  · exact Or.inl (Pool.setBlk_of_ne _ _ hb')

end Recar

/-- On the elements of the list, `cmp` tells which one is greater, whatever the order they are
in. -/
def Compares (cmp : Ref n → Ref n → Hp n (Ref n)) (gt : Ref n → Ref n → Bool) (N : Fin n → Prop)
    (p : Pool n) (xs : List (Ref n)) : Prop :=
  ∀ q, Recar N p q → ∀ x ∈ xs, ∀ y ∈ xs, cmp x y q = .ok (ylb2e (gt x y)) q

section Loops

variable {c : Etcxt n} {k m : ℕ} {cmp : Ref n → Ref n → Hp n (Ref n)}
  {gt : Ref n → Ref n → Bool} {N N' : Fin n → Prop} {p q : Pool n} {xs ys : List (Ref n)}
  {b b' : Fin n} {x y d l : Ref n} {v : Vars n}

theorem yleq_ylnil (c : Etcxt n) (k : ℕ) (t : Bool) (q : Pool n) :
    yleq c (k + 1) ylnil (ylb2e t) q = .ok (ylb2e (!t)) q := by
  cases t with
  | false => rfl
  | true => exact yleq_atom c k ylnil (x := ylt) rfl

theorem runs_cadr (ho : (q.blk b).obj = .pair (.at x) (.at (.blk b')))
    (ho' : (q.blk b').obj = .pair (.at y) (.at d)) : cadr (.blk b) q = .ok y q := by
  have hb : q.obj (.blk b) = .pair (.at x) (.at (.blk b')) := ho
  have hb' : q.obj (.blk b') = .pair (.at y) (.at d) := ho'
  rw [cadr, bind_of_ok (yleisAtom_pair hb)]
  refine (bind_of_ok (ylcdr_pair hb)).trans ?_
  refine (bind_of_ok (yleisAtom_pair hb')).trans ?_
  exact (bind_of_ok (ylcdr_pair hb)).trans (ylcar_pair hb')

/-- A round of the inner loop puts the greater one of two neighbours in front. -/
theorem runs_exchange (hcmp : Compares cmp gt N' p xs) (hpq : Recar N' p q)
    (hx : x ∈ xs) (hy : y ∈ xs) (hb : N b) (hb' : N b') (hne : b' ≠ b) (hj : v.j = .blk b)
    (ho : (q.blk b).obj = .pair (.at x) (.at (.blk b')))
    (ho' : (q.blk b').obj = .pair (.at y) (.at d)) :
    Runs (exchange c (k + 1) cmp v) q fun w s => w.i = v.i ∧ w.j = .blk b' ∧ Recar N q s ∧
      (s.blk b).obj = .pair (.at (if gt x y then x else y)) (.at (.blk b')) ∧
      (s.blk b').obj = .pair (.at (if gt x y then y else x)) (.at d) ∧
      ∀ a, a ≠ b → a ≠ b' → s.blk a = q.blk a := by
  have hob : q.obj (.blk b) = .pair (.at x) (.at (.blk b')) := ho
  rw [exchange, hj]
  refine Runs.ok_bind (ylcar_pair hob) (Runs.ok_bind (runs_cadr ho ho') ?_)
  refine Runs.ok_bind (hcmp q hpq x hx y hy) (Runs.ok_bind (yleq_ylnil c k _ q) ?_)
  cases hgt : gt x y with
  | true =>
      rw [if_neg fun h => h rfl]
      refine Runs.ok_bind (ylcdr_pair hob) (Runs.pure ?_)
      exact ⟨rfl, rfl, .refl N q, by simpa using ho, by simpa using ho', fun _ _ _ => rfl⟩
  | false =>
      rw [if_pos nofun]
      refine Runs.ok_bind (ylcar_pair hob) (Runs.ok_bind (runs_cadr ho ho') ?_)
      refine (runs_setcar ho hb y).bind ?_
      rintro _ q₁ ⟨hq₁, ho₁, hblk₁⟩
      refine Runs.ok_bind (ylcdr_pair (e := .blk b) ho₁) ?_
      refine (runs_setcar (b := b') (by rw [hblk₁ b' hne]; exact ho') hb' x).bind ?_
      rintro _ q₂ ⟨hq₂, ho₂, hblk₂⟩
      have hob₂ : (q₂.blk b).obj = .pair (.at y) (.at (.blk b')) := by
        rw [hblk₂ b hne.symm, ho₁]
      refine Runs.ok_bind (ylcdr_pair (e := .blk b) hob₂) (Runs.pure ?_)
      refine ⟨rfl, rfl, hq₁.trans hq₂, by simpa using hob₂, by simpa using ho₂, fun a ha ha' => ?_⟩
      rw [hblk₂ a ha', hblk₁ a ha]

theorem lnot_null : lnot (null d) ≠ ylnil ↔ d ≠ ylnil := by
  have hnull : null d ≠ ylnil ↔ d = ylnil := ylb2e_ne_ylnil.trans decide_eq_true_iff
  rw [lnot]
  split
  next h => exact iff_of_false (fun h' => h' rfl) fun hd => hd (hnull.1 h)
  next h => exact iff_of_true nofun fun hd => h (hnull.2 hd)

theorem runs_cond {w : Ref n} (ho : q.obj w = .pair (.at x) (.at d)) :
    (do pure (lnot (null (← ylcdr w))) : Hp n (Ref n)) q = .ok (lnot (null d)) q :=
  bind_of_ok (ylcdr_pair ho)

theorem fWhile_stop {β : Type} {cond : β → Hp n (Ref n)} {body : β → Hp n β} {w : β}
    (h : cond w q = .ok ylnil q) : fWhile cond body (k + 1) w q = .ok w q := by
  rw [fWhile, bind_of_ok h]
  rfl

theorem runs_fWhile_round {β : Type} {cond : β → Hp n (Ref n)} {body : β → Hp n β} {w : β}
    {r : Ref n} {Q : β → Pool n → Prop} (h : cond w q = .ok r q) (hr : r ≠ ylnil)
    (hbody : Runs (body w) q fun w' s => Runs (fWhile cond body k w') s Q) :
    Runs (fWhile cond body (k + 1) w) q Q := by
  rw [fWhile]
  refine Runs.ok_bind h ?_
  rw [if_pos hr]
  exact hbody.bind fun _ _ h => h

theorem runs_inner (hcmp : Compares cmp gt N' p xs) (hN : ∀ b, N b → N' b) (hpq : Recar N' p q)
    (hlist : Listing q N (.blk b) (x :: ys)) (hxs : ∀ z ∈ x :: ys, z ∈ xs) (hj : v.j = .blk b)
    (hk : ys.length < m) :
    Runs (fWhile (fun v => do pure (lnot (null (← ylcdr v.j)))) (exchange c (k + 1) cmp) m v) q
      fun w s => w.i = v.i ∧ Recar N q s ∧
        Listing s N (.blk b) (Bubble.pass (fun x y => gt x y = true) x ys) := by
  induction ys generalizing q b x v m N with
  | nil =>
      obtain ⟨m, rfl⟩ : ∃ m', m = m' + 1 := ⟨m - 1, by omega⟩
      cases hlist with
      | cons hb ho hrest =>
          have hcond := runs_cond (w := v.j) (by rw [hj]; exact ho)
          cases hrest
          exact ⟨v, q, fWhile_stop hcond, rfl, .refl N q, .cons hb ho .nil⟩
  | cons y ys ih =>
      obtain ⟨m, rfl⟩ : ∃ m', m = m' + 1 := ⟨m - 1, by omega⟩
      have hlist' := hlist
      cases hlist with
      | cons hb ho hrest =>
          have hbehind := hrest.behind hlist' (Nat.lt_succ_self _)
          have hcond := runs_cond (w := v.j) (by rw [hj]; exact ho)
          cases hbehind with
          | @cons b' _ d _ hb' ho' hd =>
              have hd' := hd.behind (.cons hb' ho' hd) (Nat.lt_succ_self _)
              refine runs_fWhile_round hcond (lnot_null.2 nofun) ?_
              refine (runs_exchange hcmp hpq (hxs x (by simp)) (hxs y (by simp)) hb hb'.1
                hb'.2 hj ho ho').mono ?_
              rintro w s ⟨hi, hj', hqs, hs, hs', hblk⟩
              have hz : (if gt x y then y else x) ∈ xs := by
                split
                · exact hxs y (by simp)
                · exact hxs x (by simp)
              have htail : Listing s (fun a => N a ∧ a ≠ b) (.blk b')
                  ((if gt x y then y else x) :: ys) :=
                .cons hb' hs' (hd'.frame (fun _ ha => ha.1) fun a ha => by
                  rw [hblk a ha.1.2 ha.2])
              refine (ih (N := fun a => N a ∧ a ≠ b) (fun a ha => hN a ha.1)
                (hpq.trans (hqs.mono hN)) htail ?_ hj' (by simpa using hk)).mono ?_
              · exact List.forall_mem_cons.2 ⟨hz, fun z hz => hxs z (by simp [hz])⟩
              · rintro w' s' ⟨hi', hss', hlist''⟩
                refine ⟨hi'.trans hi, hqs.trans (hss'.mono fun a ha => ha.1), ?_⟩
                rw [← hss'.blk_of_not fun h => h.2 rfl] at hs
                have hcell := Listing.cons hb hs (hlist''.frame (fun a ha => ha.1) fun _ _ => rfl)
                rw [Bubble.pass]
                cases hgt : gt x y <;> simpa [hgt] using hcell

/-- The outer loop: with each round, one more element is where it belongs. -/
theorem runs_outer {r : ℕ} {us : List (Ref n)} (hcmp : Compares cmp gt N p xs)
    (hgt : Bubble.StrictOn (fun x y => gt x y = true) {x | x ∈ xs}) (hpq : Recar N p q)
    (hlist : Listing q N l (x :: ys)) (hi : Listing q N v.i us) (hus : us.length = r + 1)
    (hperm : (x :: ys).Perm xs) (hk : ys.length ≤ k) (hm : r < m)
    (hpartly : Bubble.Partly (fun x y => gt x y = true) (r + 1) (x :: ys)) :
    Runs (fWhile (fun v => do pure (lnot (null (← ylcdr v.i))))
      (fun v => do
        let v ← inner c (k + 1) cmp { v with j := l }
        let i ← ylcdr v.i
        pure { v with i := i }) m v) q
      fun _ s => Recar N p s ∧ ∃ zs, Listing s N l zs ∧ zs.Perm xs ∧
        Bubble.Sorted (fun x y => gt x y = true) zs := by
  induction r generalizing q x ys us v m with
  | zero =>
      obtain ⟨m, rfl⟩ : ∃ m', m = m' + 1 := ⟨m - 1, by omega⟩
      obtain ⟨y, rfl⟩ := List.length_eq_one_iff.1 hus
      obtain ⟨etmp, i, j⟩ := v
      cases hi with
      | @cons a _ _ _ ha ho hrest =>
          have hcond := runs_cond (w := .blk a) ho
          cases hrest
          exact ⟨_, q, fWhile_stop hcond, hpq, x :: ys, hlist, hperm, hpartly.sorted⟩
  | succ r ih =>
      obtain ⟨m, rfl⟩ : ∃ m', m = m' + 1 := ⟨m - 1, by omega⟩
      obtain ⟨etmp, i, j⟩ := v
      have hmem : ∀ z ∈ x :: ys, z ∈ xs := fun z hz => hperm.mem_iff.1 hz
      cases hi with
      | nil => cases hus
      | @cons a y d us ha ho hrest =>
          have hrlen : us.length = r + 1 := Nat.succ.inj hus
          have hd := hrest.ne_ylnil (List.ne_nil_of_length_pos (by omega))
          refine runs_fWhile_round (runs_cond (w := .blk a) ho) (lnot_null.2 hd) ?_
          cases hlist with
          | @cons b _ d' _ hb hob hys =>
              refine (runs_inner (m := k + 1) (v := ⟨etmp, .blk a, .blk b⟩) hcmp (fun _ h => h)
                hpq (.cons hb hob hys) hmem rfl (Nat.lt_succ_of_le hk)).bind ?_
              rintro w s ⟨hwi, hqs, hpass⟩
              obtain ⟨u', hos⟩ := hqs.pair ho
              obtain ⟨vs, hvs, hvlen⟩ := hqs.listing hrest
              rw [hwi]
              refine Runs.ok_bind (ylcdr_pair (e := .blk a) hos) (Runs.pure ?_)
              have hp : (Bubble.pass (fun x y => gt x y = true) x ys).Perm (x :: ys) :=
                Bubble.pass_perm x ys
              have hplace := hpartly.pass hgt hmem
              obtain ⟨x', ys', hzs, hlen⟩ : ∃ x' ys',
                  Bubble.pass (fun x y => gt x y = true) x ys = x' :: ys' ∧
                    ys'.length = ys.length := Bubble.exists_pass_eq_cons x ys
              rw [hzs] at hp hplace hpass
              exact ih (hpq.trans hqs) hpass hvs (hvlen.trans hrlen) (hp.trans hperm)
                (by omega) (by omega) hplace

end Loops

/-- `bsort` returns, and the list is a permutation of the one that it was, in which no element is
greater than one before it. Only its own cars have been assigned. -/
def Sorts (c : Etcxt n) (cmp : Ref n → Ref n → Hp n (Ref n)) (gt : Ref n → Ref n → Bool)
    (N : Fin n → Prop) (p : Pool n) (l : Ref n) (xs : List (Ref n)) : Prop :=
  ∃ k, Runs (bsort c k cmp l) p fun r q => r = l ∧ Recar N p q ∧
    ∃ zs, Listing q N l zs ∧ zs.Perm xs ∧ Bubble.Sorted (fun x y => gt x y = true) zs

section Sorts

variable {c : Etcxt n} {cmp : Ref n → Ref n → Hp n (Ref n)} {gt : Ref n → Ref n → Bool}
  {N : Fin n → Prop} {p : Pool n} {l : Ref n} {xs : List (Ref n)}

theorem not_sorts_nil : ¬ Sorts c cmp gt N p ylnil [] := by
  rintro ⟨k, r, q, hrun, -⟩
  cases k with
  | zero => cases hrun
  | succ k => cases hrun

theorem sorts_cons {x : Ref n} {ys : List (Ref n)} (hlist : Listing p N l (x :: ys))
    (hgt : Bubble.StrictOn (fun x y => gt x y = true) {z | z ∈ x :: ys})
    (hcmp : Compares cmp gt N p (x :: ys)) : Sorts c cmp gt N p l (x :: ys) := by
  refine ⟨ys.length + 1, (runs_outer (c := c) (k := ys.length) (v := ⟨ylnil, l, ylnil⟩) hcmp hgt
    (.refl N p) hlist hlist rfl (.refl _) le_rfl (Nat.lt_succ_self _)
    (Bubble.partly_length _)).bind ?_⟩
  rintro _ s ⟨hps, hsorted⟩
  exact Runs.pure ⟨rfl, hps, hsorted⟩

/-- A list is sorted if and only if it is not empty. -/
theorem bsort_iff (hlist : Listing p N l xs)
    (hgt : Bubble.StrictOn (fun x y => gt x y = true) {x | x ∈ xs})
    (hcmp : Compares cmp gt N p xs) : Sorts c cmp gt N p l xs ↔ xs ≠ [] := by
  cases xs with
  | nil =>
      cases hlist
      exact iff_of_false not_sorts_nil fun h => h rfl
  | cons x ys => exact iff_of_true (sorts_cons hlist hgt hcmp) (List.cons_ne_nil x ys)

end Sorts

theorem compares_gtSym {N : Fin n → Prop} {p : Pool n} {xs : List (Ref n)}
    (hsym : ∀ x ∈ xs, ∃ s, p.obj x = .sym s) :
    Compares gtSym (fun x y => text p y < text p x) N p xs := by
  have hkept : ∀ q, Recar N p q → ∀ {x : Ref n} {s : List UInt8}, p.obj x = .sym s →
      q.obj x = .sym s := by
    intro q hq x s hx
    cases x with
    | stat r => exact hx
    | blk b =>
        obtain hb | ⟨-, u, u', d, ho, -⟩ := hq.blk b
        · exact (congrArg Yle.obj hb).trans hx
        · cases ho.symm.trans hx
  intro q hq x hx y hy
  obtain ⟨s, hs⟩ := hsym x hx
  obtain ⟨t, ht⟩ := hsym y hy
  have hsq : symOf x q = .ok (some s) q := by
    rw [symOf, hkept q hq hs]
  have htq : symOf y q = .ok (some t) q := by
    rw [symOf, hkept q hq ht]
  have hx' : text p x = s.map UInt8.toNat := by
    simp only [text, hs]
  have hy' : text p y = t.map UInt8.toNat := by
    simp only [text, ht]
  dsimp only
  rw [hx', hy']
  exact (bind_of_ok hsq).trans (bind_of_ok htq)

def listPool : Pool 5 :=
  poolOf 5
    [.pair (.at (.blk 3)) (.at (.blk 1)), .pair (.at (.blk 4)) (.at (.blk 2)),
      .pair (.at (.blk 3)) (.at ylnil), .sym (cstr "a"), .sym (cstr "b")]
    (symtab [])

theorem bsort_iff_aba :
    let gt : Ref 5 → Ref 5 → Bool := fun x y => text listPool y < text listPool x
    Sorts (plainCxt 5 false) gtSym gt (fun b => b.val < 3) listPool (.blk 0)
      [.blk 3, .blk 4, .blk 3] ↔ ([.blk 3, .blk 4, .blk 3] : List (Ref 5)) ≠ [] := by
  intro gt
  have hlist : Listing listPool (fun b => b.val < 3) (.blk 0) [.blk 3, .blk 4, .blk 3] :=
    .cons (by decide) rfl (.cons (by decide) rfl (.cons (by decide) rfl .nil))
  have hsym : ∀ x ∈ [.blk 3, .blk 4, .blk 3], ∃ s, listPool.obj x = .sym s := by
    intro x hx
    obtain rfl | rfl | rfl : x = .blk 3 ∨ x = .blk 4 ∨ x = .blk 3 := by simpa using hx
    exacts [⟨cstr "a", rfl⟩, ⟨cstr "b", rfl⟩, ⟨cstr "a", rfl⟩]
  refine bsort_iff hlist ?_ (compares_gtSym hsym)
  simpa [gt] using Bubble.strictOn_of_lt (text listPool) _

/-- The empty list is not sorted, whatever it is compared with. -/
theorem not_bsort_nil :
    ¬ ∀ (n : ℕ) (c : Etcxt n) (cmp : Ref n → Ref n → Hp n (Ref n)) (gt : Ref n → Ref n → Bool)
      (N : Fin n → Prop) (p : Pool n) (l : Ref n) (xs : List (Ref n)), Listing p N l xs →
      Bubble.StrictOn (fun x y => gt x y = true) {x | x ∈ xs} → Compares cmp gt N p xs →
      Sorts c cmp gt N p l xs := by
  intro h
  let p : Pool 0 := poolOf 0 [] (symtab [])
  have hgt : Bubble.StrictOn (fun _ _ : Ref 0 => false = true) {x | x ∈ []} :=
    ⟨nofun, nofun, nofun⟩
  exact not_sorts_nil (h 0 (plainCxt 0 false) gtSym (fun _ _ => false) (fun _ => False) p ylnil []
    .nil hgt fun _ _ => nofun)

end Yls

end Ylisp
