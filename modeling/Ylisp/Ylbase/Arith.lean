import Mathlib.Algebra.Order.Ring.Rat
import Mathlib.Tactic.Linarith
import Ylisp.Ylext.ToBin

/-!
# Division and remainder

The natives `/` and `%`, on the doubles of the language. A division of doubles has no trap, and `/`
refuses a divisor that is 0. `%` converts to `long long` first, and checks nothing: a divisor
between -1 and 1 becomes 0, and the lowest dividend overflows with one that becomes -1
(`arith_iff`).
-/

namespace Ylisp

namespace Ylbase

open Float.Model.UnpackedFloat

def value (x : Float) : Option ℚ :=
  match x.toModel.unpack with
  | .zero _ => some 0
  | .finite s m e _ => some ((s.apply (m : ℤ) : ℚ) * 2 ^ e)
  | _ => none

/-- `(long long)x`, of a `double`; undefined where it does not fit. -/
def longOf (x : Float) : Option ℤ := (value x).bind Ylext.toLong

inductive Operand where
  | dbl (x : Float)
  | other

/-- `ylais_type_chain(e, ylaif_dbl())`, with the values of the operands. -/
def dblChain : List Operand → Option (List Float)
  | [] => some []
  | .dbl x :: e => (dblChain e).map (x :: ·)
  | .other :: _ => none

inductive NumEnd where
  | ret (r : Float)
  | fail
  deriving DecidableEq

/-- `YLDEFNF` and `ylnfcheck_parameter`, before the body of a native. -/
def checked (minp maxp : ℕ) (e : List Operand) (body : List Float → Option NumEnd) :
    Option NumEnd :=
  if minp > e.length ∨ e.length > maxp then some .fail
  else
    match dblChain e with
    | none => some .fail
    | some xs => body xs

def longRem (x y : ℤ) : Option ℤ :=
  if y = 0 ∨ x = -2 ^ 63 ∧ y = -1 then none else some (x.tmod y)

def mod (e : List Operand) : Option NumEnd :=
  checked 2 2 e fun xs => do
    let r ← longRem (← longOf (← xs[0]?)) (← longOf (← xs[1]?))
    return .ret (Float.ofInt r)

def divLoop (r : Float) : List Float → NumEnd
  | [] => .ret r
  | x :: e => if 0 == x then .fail else divLoop (r / x) e

def div (e : List Operand) : Option NumEnd :=
  checked 2 9999 e fun xs => do
    let r ← xs[0]?
    return divLoop r xs.tail

inductive Arith where
  | div | mod
  deriving DecidableEq

def Arith.run : Arith → List Operand → Option NumEnd
  | .div => Ylbase.div
  | .mod => Ylbase.mod

/-- The operands that `%` has a trap for: the divisor is less than 1 in its absolute value, or it
becomes -1 and the dividend is the lowest `long long`. -/
def Traps (e : List Operand) : Prop :=
  ∃ a b p q, e = [.dbl a, .dbl b] ∧ value a = some p ∧ value b = some q ∧
    (-1 < q ∧ q < 1 ∨ p ≤ -2 ^ 63 ∧ -2 < q ∧ q ≤ -1)

section Conversion

variable {q : ℚ} {l : ℤ}

theorem toLong_eq_some : Ylext.toLong q = some l ↔ (-2 ^ 63 ≤ l ∧ l < 2 ^ 63) ∧
    (0 ≤ q ∧ l ≤ q ∧ q < l + 1 ∨ q < 0 ∧ l - 1 < q ∧ q ≤ l) := by
  have htrunc : (if 0 ≤ q then q.floor else q.ceil) = l ↔
      0 ≤ q ∧ l ≤ q ∧ q < l + 1 ∨ q < 0 ∧ l - 1 < q ∧ q ≤ l := by
    split
    next hq =>
      have hfloor : q.floor = l ↔ l ≤ q ∧ q < l + 1 := by
        rw [← Rat.le_floor_iff, ← Int.cast_one, ← Int.cast_add, ← Rat.floor_lt_iff]
        omega
      simp only [hfloor, hq, true_and, not_lt.2 hq, false_and, or_false]
    next hq =>
      have hceil : q.ceil = l ↔ l - 1 < q ∧ q ≤ l := by
        rw [← Rat.ceil_le_iff, ← Int.cast_one, ← Int.cast_sub, ← Rat.lt_ceil_iff]
        omega
      simp only [hceil, hq, false_and, not_le.1 hq, true_and, false_or]
  rw [← htrunc, Ylext.toLong, Option.ite_none_right_eq_some, Option.some.injEq]
  exact and_congr_left fun heq => by rw [heq]

theorem toLong_eq_zero : Ylext.toLong q = some 0 ↔ -1 < q ∧ q < 1 := by
  rw [toLong_eq_some]
  constructor
  · rintro ⟨-, ⟨h₁, -, h₂⟩ | ⟨h₁, h₂, -⟩⟩
    · exact ⟨by linarith, by simpa using h₂⟩
    · exact ⟨by simpa using h₂, by linarith⟩
  · rintro ⟨h₁, h₂⟩
    refine ⟨by decide, ?_⟩
    rcases le_or_gt 0 q with hq | hq
    · exact .inl ⟨hq, by simpa using hq, by simpa using h₂⟩
    · exact .inr ⟨hq, by simpa using h₁, by simpa using hq.le⟩

theorem toLong_eq_of_neg (hl : l < 0) (hin : -2 ^ 63 ≤ l) :
    Ylext.toLong q = some l ↔ l - 1 < q ∧ q ≤ l := by
  have hneg : (l : ℚ) + 1 ≤ 0 := by exact_mod_cast hl
  rw [toLong_eq_some]
  constructor
  · rintro ⟨-, ⟨h₁, -, h₂⟩ | ⟨-, h⟩⟩
    · linarith
    · exact h
  · intro h
    exact ⟨⟨hin, by omega⟩, .inr ⟨by linarith, h⟩⟩

/-- The traps, in terms of the operands before they are converted. -/
theorem trap_iff {p : ℚ} {x y : ℤ} (hx : Ylext.toLong p = some x) (hy : Ylext.toLong q = some y) :
    y = 0 ∨ x = -2 ^ 63 ∧ y = -1 ↔
      -1 < q ∧ q < 1 ∨ p ≤ -2 ^ 63 ∧ -2 < q ∧ q ≤ -1 := by
  have hzero : y = 0 ↔ -1 < q ∧ q < 1 := by
    rw [← toLong_eq_zero, hy, Option.some.injEq]
  have hminus : y = -1 ↔ -2 < q ∧ q ≤ -1 := by
    have h := toLong_eq_of_neg (q := q) (l := -1) (by decide) (by decide)
    rw [hy, Option.some.injEq] at h
    norm_num at h
    exact h
  have hlow : x = -2 ^ 63 ↔ p ≤ -2 ^ 63 := by
    have h := toLong_eq_of_neg (q := p) (l := -2 ^ 63) (by decide) le_rfl
    rw [hx, Option.some.injEq] at h
    push_cast at h
    refine h.trans (and_iff_right_of_imp fun _ => ?_)
    obtain ⟨⟨hle, -⟩, ⟨hpos, -⟩ | ⟨-, hgt, -⟩⟩ := toLong_eq_some.1 hx
    · linarith
    · have hcast : (-2 ^ 63 : ℚ) ≤ x := by exact_mod_cast hle
      linarith
  rw [hzero, hminus, hlow]

end Conversion

theorem longRem_eq_none {x y : ℤ} :
    longRem x y = none ↔ y = 0 ∨ x = -2 ^ 63 ∧ y = -1 := by
  rw [longRem]
  split
  next h => exact iff_of_true rfl h
  next h => exact iff_of_false nofun h

section Natives

variable {e : List Operand} {xs : List Float}

theorem dblChain_eq_some : dblChain e = some xs ↔ e = xs.map .dbl := by
  induction e generalizing xs with
  | nil =>
      cases xs with
      | nil => exact iff_of_true rfl rfl
      | cons x xs => exact iff_of_false nofun nofun
  | cons o e ih =>
      cases o with
      | other =>
          refine iff_of_false nofun fun h => ?_
          cases xs with
          | nil => cases h
          | cons x xs => cases h
      | dbl y =>
          rw [dblChain, Option.map_eq_some_iff]
          constructor
          · rintro ⟨ys, hys, rfl⟩
            rw [List.map_cons, ih.1 hys]
          · intro h
            cases xs with
            | nil => cases h
            | cons x xs =>
                obtain ⟨hxy, hrest⟩ := List.cons.inj h
                cases hxy
                exact ⟨xs, ih.2 hrest, rfl⟩

/-- What the checks let through has a number of operands in the bounds, all of them doubles. -/
theorem checked_defined {minp maxp : ℕ} {body : List Float → Option NumEnd} :
    (∃ r, checked minp maxp e body = some r) ↔
      ∀ xs, e = xs.map .dbl → minp ≤ xs.length → xs.length ≤ maxp → ∃ r, body xs = some r := by
  rw [checked]
  split
  next hlen =>
    refine iff_of_true ⟨_, rfl⟩ ?_
    rintro xs rfl hmin hmax
    rw [List.length_map] at hlen
    omega
  next hlen =>
    split
    next hchain =>
      refine iff_of_true ⟨_, rfl⟩ fun xs hxs => ?_
      cases hchain.symm.trans (dblChain_eq_some.2 hxs)
    next xs hchain =>
      have hxs := dblChain_eq_some.1 hchain
      rw [hxs, List.length_map] at hlen
      constructor
      · rintro h ys hys - -
        cases hchain.symm.trans (dblChain_eq_some.2 hys)
        exact h
      · exact fun h => h xs hxs (by omega) (by omega)

theorem exists_div (e : List Operand) : ∃ r, div e = some r := by
  refine checked_defined.2 fun xs _ hmin _ => ?_
  cases xs with
  | nil => cases hmin
  | cons x xs => exact ⟨divLoop x xs, rfl⟩

theorem exists_mod_iff (hin : ∀ x, .dbl x ∈ e → ∃ l, longOf x = some l) :
    (∃ r, mod e = some r) ↔ ¬ Traps e := by
  -- the operands are in the range, so that the remainder alone decides
  have hbody : ∀ {a b : Float} {x y : ℤ}, longOf a = some x → longOf b = some y →
      ((∃ r, mod [.dbl a, .dbl b] = some r) ↔ ¬ (y = 0 ∨ x = -2 ^ 63 ∧ y = -1)) := by
    intro a b x y hx hy
    have hmod : mod [.dbl a, .dbl b] = (longRem x y).bind fun r => some (.ret (Float.ofInt r)) := by
      show (longOf a).bind _ = _
      rw [hx, Option.bind_some]
      show (longOf b).bind _ = _
      rw [hy]
      rfl
    rw [hmod, ← longRem_eq_none]
    cases longRem x y with
    | none => exact iff_of_false nofun fun h => h rfl
    | some r => exact iff_of_true ⟨_, rfl⟩ nofun
  constructor
  · rintro h ⟨a, b, p, q, rfl, hp, hq, htrap⟩
    obtain ⟨x, hx⟩ := hin a (by simp)
    obtain ⟨y, hy⟩ := hin b (by simp)
    have hp' : Ylext.toLong p = some x := by simpa [longOf, hp] using hx
    have hq' : Ylext.toLong q = some y := by simpa [longOf, hq] using hy
    exact (hbody hx hy).1 h ((trap_iff hp' hq').2 htrap)
  · refine fun hno => checked_defined.2 fun xs hxs hmin hmax => ?_
    obtain ⟨a, b, rfl⟩ := List.length_eq_two.1 (Nat.le_antisymm hmax hmin)
    subst hxs
    obtain ⟨x, hx⟩ := hin a (by simp)
    obtain ⟨y, hy⟩ := hin b (by simp)
    obtain ⟨p, hp, hp'⟩ := Option.bind_eq_some_iff.1 hx
    obtain ⟨q, hq, hq'⟩ := Option.bind_eq_some_iff.1 hy
    exact (hbody hx hy).2 fun htrap => hno ⟨a, b, p, q, rfl, hp, hq, (trap_iff hp' hq').1 htrap⟩

/-- **Division and remainder.** Of operands in the range of `long long`, `/` has no trap, and `%`
has one exactly where its divisor truncates to 0 or its quotient overflows. -/
theorem arith_iff (v : Arith) (hin : ∀ x, .dbl x ∈ e → ∃ l, longOf x = some l) :
    (∃ r, v.run e = some r) ↔ v = .div ∨ ¬ Traps e := by
  cases v with
  | div => exact iff_of_true (exists_div e) (.inl rfl)
  | mod =>
      rw [show Arith.mod.run e = mod e from rfl, exists_mod_iff hin]
      simp

/-- `(/ 1 0)` and `(% 7 -2.5)`. -/
theorem arith_iff_div_mod : (∃ r, Arith.div.run [.dbl 1, .dbl 0] = some r) ∧
    ∃ r, Arith.mod.run [.dbl 7, .dbl (-2.5)] = some r := by
  constructor
  · refine (arith_iff .div ?_).2 (.inl rfl)
    intro x hx
    have hcases : x = 1 ∨ x = 0 := by simpa using hx
    rcases hcases with rfl | rfl
    · exact ⟨1, by decide +kernel⟩
    · exact ⟨0, by decide +kernel⟩
  · refine (arith_iff .mod ?_).2 (.inr ?_)
    · intro x hx
      have hcases : x = 7 ∨ x = -2.5 := by simpa using hx
      rcases hcases with rfl | rfl
      · exact ⟨7, by decide +kernel⟩
      · exact ⟨-2, by decide +kernel⟩
    · rintro ⟨a, b, p, q, he, -, hq, htrap⟩
      cases he
      have hval : value (-2.5) = some (-5 / 2) := by decide +kernel
      obtain rfl : -5 / 2 = q := Option.some.inj (hval.symm.trans hq)
      norm_num at htrap

/-- `(% 1 0.5)`. -/
theorem not_arith : ¬ ∀ (v : Arith) (e : List Operand),
    (∀ x, .dbl x ∈ e → ∃ l, longOf x = some l) → ∃ r, v.run e = some r := by
  intro hall
  obtain ⟨r, hr⟩ := hall .mod [.dbl 1, .dbl 0.5] (by
    intro x hx
    have hcases : x = 1 ∨ x = 0.5 := by simpa using hx
    rcases hcases with rfl | rfl
    · exact ⟨1, by decide +kernel⟩
    · exact ⟨0, by decide +kernel⟩)
  have hnone : Arith.mod.run [.dbl 1, .dbl 0.5] = none := by decide +kernel
  cases hnone.symm.trans hr

end Natives

end Ylbase

end Ylisp
