import Mathlib.Data.Rat.Floor
import Ylisp.Library.Rounding

/-!
# `to-bin` and `bin-to-num`

A number becomes the lowest bytes of a `long long`, on a little-endian host, whether it fits in
them or not. Back from the bytes, what is missing is 0, and a binary of the size of a `long long`
is refused.
-/

namespace Ylisp

namespace Ylext

/-- `(double)l`, of a `long long`, in the default rounding mode. -/
def toDouble (l : ℤ) : ℤ := l.sign * Rounding.round 53 l.natAbs

/-- `(long long)d`, of a finite `double`: truncated, and undefined where it does not fit. -/
def toLong (d : ℚ) : Option ℤ :=
  let l := if 0 ≤ d then d.floor else d.ceil
  if -2 ^ 63 ≤ l ∧ l < 2 ^ 63 then some l else none

def longBytes (l : ℤ) : List UInt8 :=
  (List.range 8).map fun i => UInt8.ofNat ((l % 2 ^ 64).toNat / 256 ^ i)

/-- The `long long` with these lowest bytes, fewer than eight. -/
def ofBytes : List UInt8 → ℕ
  | [] => 0
  | c :: b => c.toNat + 256 * ofBytes b

/-- The end of `to_bin` or `bin_to_num`. -/
inductive BinEnd (α : Type) where
  | ret (r : α)
  | fail
  deriving DecidableEq

/-- `to_bin`, of a `double`; `none` where a conversion is undefined. -/
def toBin (exp : ℚ) (size : Option ℚ) : Option (BinEnd (List UInt8)) := do
  let l ← toLong exp
  if (toDouble l : ℚ) ≠ exp then return .fail
  match size with
  | none => return .fail
  | some size =>
      let sz ← toLong size
      if sz < 0 ∨ sz > 8 then return .fail
      return .ret ((longBytes l).take sz.toNat)

/-- `bin_to_num`. In the comparison `(double)n != n`, the second `n` is converted, too. -/
def binToNum (bin : List UInt8) : BinEnd ℤ :=
  if bin.length < 8 then
    let n := ofBytes bin
    if toDouble n ≠ toDouble n then .fail else .ret (toDouble n)
  else .fail

def Representable (l : ℤ) : Prop := ∃ m e : ℕ, m < 2 ^ 53 ∧ l.natAbs = m * 2 ^ e

section Numbers

variable {l : ℤ} {n k : ℕ}

theorem toDouble_of_representable (h : Representable l) : toDouble l = l := by
  obtain ⟨m, e, hm, hl⟩ := h
  rw [toDouble, hl, Rounding.round_of_lt hm, ← hl, Int.sign_mul_natAbs]

theorem toDouble_natCast (n : ℕ) : toDouble n = Rounding.round 53 n := by
  rcases Nat.eq_zero_or_pos n with rfl | hn
  · rfl
  · rw [toDouble, Int.sign_natCast_of_ne_zero hn.ne', Int.one_mul, Int.natAbs_natCast]

theorem toDouble_nonneg (n : ℕ) : 0 ≤ toDouble n := by
  rw [toDouble_natCast]
  exact Int.natCast_nonneg _

theorem toDouble_le (h : n ≤ 2 ^ k) : toDouble n ≤ 2 ^ k := by
  rw [toDouble_natCast]
  exact_mod_cast Rounding.round_le_two_pow (by decide) h

theorem toLong_intCast (hle : -2 ^ 63 ≤ l) (hlt : l < 2 ^ 63) : toLong (l : ℚ) = some l := by
  have htrunc : (if 0 ≤ (l : ℚ) then (l : ℚ).floor else (l : ℚ).ceil) = l := by
    split
    · exact Rat.floor_intCast l
    · exact Rat.ceil_intCast l
  rw [toLong, htrunc, if_pos ⟨hle, hlt⟩]

theorem ofBytes_append (b : List UInt8) (c : UInt8) :
    ofBytes (b ++ [c]) = ofBytes b + 256 ^ b.length * c.toNat := by
  induction b with
  | nil =>
      change c.toNat + 256 * 0 = 0 + 256 ^ 0 * c.toNat
      omega
  | cons d b ih =>
      rw [List.cons_append, ofBytes, ofBytes, ih, List.length_cons, Nat.pow_succ]
      ring

theorem ofBytes_longBytes (h : k ≤ 8) :
    ofBytes ((longBytes l).take k) = (l % 2 ^ 64).toNat % 256 ^ k := by
  have hbytes : ∀ x k : ℕ, ofBytes ((List.range k).map fun i => UInt8.ofNat (x / 256 ^ i)) =
      x % 256 ^ k := by
    intro x k
    induction k with
    | zero => exact (Nat.mod_one x).symm
    | succ k ih =>
        rw [List.range_succ, List.map_append, List.map_singleton, ofBytes_append, ih,
          List.length_map, List.length_range, UInt8.toNat_ofNat']
        exact (Nat.mod_pow_succ).symm
  rw [longBytes, ← List.map_take, List.take_range, Nat.min_eq_left h]
  exact hbytes _ k

/-- The lowest bytes keep the number modulo a power of 256. -/
theorem ofBytes_longBytes_emod (h : k ≤ 8) :
    (ofBytes ((longBytes l).take k) : ℤ) = l % 256 ^ k := by
  have hpow : (256 : ℤ) ^ k ∣ 2 ^ 64 := pow_dvd_pow 256 h
  have hnonneg : 0 ≤ l % 2 ^ 64 := Int.emod_nonneg l (by decide)
  rw [ofBytes_longBytes h, Int.natCast_emod, Int.toNat_of_nonneg hnonneg]
  exact_mod_cast Int.emod_emod_of_dvd l hpow

theorem length_longBytes (h : k ≤ 8) : ((longBytes l).take k).length = k := by
  rw [longBytes, List.length_take, List.length_map, List.length_range, Nat.min_eq_left h]

/-- A number that is a `double` and a `long long` is converted to bytes of every size. -/
theorem toBin_eq {size : ℚ} {sz : ℤ} (hrep : Representable l) (hle : -2 ^ 63 ≤ l)
    (hlt : l < 2 ^ 63) (hsz : toLong size = some sz) (hnonneg : 0 ≤ sz) (hmax : sz ≤ 8) :
    toBin l (some size) = some (.ret ((longBytes l).take sz.toNat)) := by
  have hno : ¬ (sz < 0 ∨ sz > 8) := by omega
  rw [toBin, toLong_intCast hle hlt]
  dsimp only [Option.bind_eq_bind, Option.bind_some]
  rw [toDouble_of_representable hrep, if_neg (fun h => h rfl), hsz]
  dsimp only [Option.bind_some]
  rw [if_neg hno]
  rfl

theorem binToNum_of_lt {bin : List UInt8} (h : bin.length < 8) :
    binToNum bin = .ret (toDouble (ofBytes bin)) := by
  rw [binToNum, if_pos h]
  exact if_neg fun hne => hne rfl

theorem binToNum_of_ge {bin : List UInt8} (h : 8 ≤ bin.length) : binToNum bin = .fail :=
  if_neg (Nat.not_lt.2 h)

/-- A number comes back from fewer than eight bytes if it is one that they can hold. -/
theorem binToNum_iff (hrep : Representable l) (h : k ≤ 8) :
    binToNum ((longBytes l).take k) = .ret l ↔ k < 8 ∧ 0 ≤ l ∧ l < 256 ^ k := by
  have hlen := length_longBytes (l := l) h
  rcases Nat.lt_or_eq_of_le h with hlt | rfl
  · rw [and_iff_right hlt, binToNum_of_lt (hlen.symm ▸ hlt), BinEnd.ret.injEq]
    have hmod := ofBytes_longBytes_emod (l := l) h
    have hpos : (0 : ℤ) < 256 ^ k := Int.pow_pos (by decide)
    have hpow : (2 : ℤ) ^ (8 * k) = 256 ^ k := pow_mul 2 8 k
    constructor
    · intro heq
      have hbound : (ofBytes ((longBytes l).take k) : ℤ) ≤ 2 ^ (8 * k) := by
        rw [hmod, hpow]
        exact Int.le_of_lt (Int.emod_lt_of_pos l hpos)
      have hnonneg := toDouble_nonneg (ofBytes ((longBytes l).take k))
      have hle := toDouble_le (k := 8 * k) (by exact_mod_cast hbound)
      rw [heq, hpow] at hle
      rw [heq] at hnonneg
      -- Of `256 ^ k` itself, all the bytes are 0.
      refine ⟨hnonneg, lt_of_le_of_ne hle fun htop => ?_⟩
      rw [hmod, htop, Int.emod_self] at heq
      exact hpos.ne heq
    · rintro ⟨hnonneg, hl⟩
      rw [hmod, Int.emod_eq_of_lt hnonneg hl, toDouble_of_representable hrep]
  · rw [binToNum_of_ge (Nat.le_of_eq hlen.symm)]
    exact iff_of_false nofun fun h => Nat.lt_irrefl 8 h.1

/-- A number that is a `double` and a `long long` is converted to bytes of every size. They are
its lowest ones; `bin_to_num` takes fewer than eight of them, and gives the number back if it is
not negative and fits in them. -/
theorem toBin_toNum {size : ℚ} {sz : ℤ} (hrep : Representable l) (hle : -2 ^ 63 ≤ l)
    (hlt : l < 2 ^ 63) (hsz : toLong size = some sz) (hnonneg : 0 ≤ sz) (hmax : sz ≤ 8) :
    ∃ b, toBin l (some size) = some (.ret b) ∧ b.length = sz.toNat ∧
      (ofBytes b : ℤ) = l % 256 ^ sz.toNat ∧ (binToNum b ≠ .fail ↔ sz < 8) ∧
        (binToNum b = .ret l ↔ sz < 8 ∧ 0 ≤ l ∧ l < 256 ^ sz.toNat) := by
  have hk : sz.toNat ≤ 8 := by omega
  have hlen := length_longBytes (l := l) hk
  have hiff : sz.toNat < 8 ↔ sz < 8 := by omega
  refine ⟨_, toBin_eq hrep hle hlt hsz hnonneg hmax, hlen, ofBytes_longBytes_emod hk, ?_, ?_⟩
  · rw [← hiff]
    constructor
    · intro hret
      by_contra hge
      exact hret (binToNum_of_ge (hlen.symm ▸ Nat.not_lt.1 hge))
    · intro hshort
      rw [binToNum_of_lt (hlen.symm ▸ hshort)]
      exact nofun
  · rw [← hiff]
    exact binToNum_iff hrep hk

end Numbers

theorem toBin_toNum_300 :
    Representable 300 ∧ toLong 2 = some 2 ∧
      ∃ b, toBin (300 : ℤ) (some 2) = some (.ret b) ∧ b.length = Int.toNat 2 ∧
        (ofBytes b : ℤ) = 300 % 256 ^ Int.toNat 2 ∧ (binToNum b ≠ .fail ↔ (2 : ℤ) < 8) ∧
          (binToNum b = .ret 300 ↔ (2 : ℤ) < 8 ∧ (0 : ℤ) ≤ 300 ∧ (300 : ℤ) < 256 ^ Int.toNat 2) :=
  have hrep : Representable 300 := ⟨300, 0, by decide, by decide⟩
  have hsz : toLong 2 = some 2 := toLong_intCast (l := 2) (by decide) (by decide)
  ⟨hrep, hsz, toBin_toNum hrep (by decide) (by decide) hsz (by decide) (by decide)⟩

/-- In one byte, 300 becomes 44. -/
theorem not_toBin_toNum_truncated :
    ¬ ∀ (l sz : ℤ) (size : ℚ), Representable l → -2 ^ 63 ≤ l → l < 2 ^ 63 →
      toLong size = some sz → 0 ≤ sz → sz ≤ 8 →
        (toBin l (some size) = some .fail ∨
          ∃ b, toBin l (some size) = some (.ret b) ∧ binToNum b = .ret l) ∧
            (0 ≤ l → l < 256 ^ sz.toNat → toBin l (some size) ≠ some .fail) := by
  intro h
  have hrep : Representable 300 := ⟨300, 0, by decide, by decide⟩
  have hsz : toLong 1 = some 1 := toLong_intCast (l := 1) (by decide) (by decide)
  have hbin := toBin_eq hrep (by decide) (by decide) hsz (by decide) (by decide)
  rcases (h 300 1 1 hrep (by decide) (by decide) hsz (by decide) (by decide)).1 with
    hfail | ⟨b, hb, hnum⟩
  · rw [hbin] at hfail
    cases hfail
  · rw [hbin] at hb
    cases hb
    exact absurd ((binToNum_iff hrep (by decide)).1 hnum).2.2 (by decide)

end Ylext

end Ylisp
