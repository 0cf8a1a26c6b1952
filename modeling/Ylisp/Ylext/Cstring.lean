import Mathlib.Algebra.Group.Int.Defs
import Mathlib.Algebra.Group.Nat.Defs
import Ylisp.Library.Occurrence

/-!
# The strings of `nfunc_str.c`

A symbol atom holds a C string. Its length is kept in an `unsigned int`, so that a longer
string is seen up to `cut` only. What is read outside of the given memory is `none`.
-/

namespace Ylisp

namespace Ylext

open Occurrence

/-- The bytes of a C string, without the final 0. -/
structure Cstring where
  bytes : List UInt8
  nul_free : 0 ∉ bytes

namespace Cstring

def take (s : Cstring) (n : ℕ) : Cstring :=
  ⟨s.bytes.take n, fun h => s.nul_free (List.mem_of_mem_take h)⟩

def drop (s : Cstring) (n : ℕ) : Cstring :=
  ⟨s.bytes.drop n, fun h => s.nul_free (List.mem_of_mem_drop h)⟩

def append (s t : Cstring) : Cstring :=
  ⟨s.bytes ++ t.bytes, fun h => (List.mem_append.1 h).elim s.nul_free t.nul_free⟩

end Cstring

/-- `*(mem + i)`. -/
def readAt (mem : List UInt8) (i : ℤ) : Option UInt8 := if 0 ≤ i then mem[i.toNat]? else none

/-- `0 == memcmp(mem + i, t, n)`. -/
def memcmpAt (mem : List UInt8) (i : ℤ) (t : List UInt8) (n : ℕ) : Option Bool :=
  if 0 ≤ i ∧ i.toNat + n ≤ mem.length ∧ n ≤ t.length then
    some ((mem.drop i.toNat).take n = t.take n)
  else none

/-- `*p == *psub && 0 == memcmp(p, psub, subsz)`. -/
def matchAt (mem : List UInt8) (i : ℤ) (t : List UInt8) (n : ℕ) : Option Bool := do
  let c ← readAt mem i
  let d ← readAt t 0
  if c = d then memcmpAt mem i t n else pure false

def u32 (i : ℤ) : ℕ := (i % 2 ^ 32).toNat

def i32 (n : ℕ) : ℤ := (BitVec.ofNat 32 n).toInt

theorem u32_of_nonneg {i : ℤ} (h : 0 ≤ i) (hlt : i < 2 ^ 31) : (u32 i : ℤ) = i := by
  rw [u32]
  omega

theorem u32_of_neg {i : ℤ} (h : i < 0) (hle : -2 ^ 31 ≤ i) : (u32 i : ℤ) = i + 2 ^ 32 := by
  rw [u32]
  omega

theorem toNat_le_u32 {i : ℤ} (hlt : i < 2 ^ 31) : i.toNat ≤ u32 i := by
  rw [u32]
  omega

theorem i32_of_lt {n : ℕ} (h : n < 2 ^ 31) : i32 n = n := by
  rw [i32, BitVec.toInt_eq_toNat_cond, BitVec.toNat_ofNat]
  split <;> omega

theorem i32_of_ge {n : ℕ} (h : 2 ^ 31 ≤ n) (hlt : n < 2 ^ 32) : i32 n < 0 := by
  rw [i32, BitVec.toInt_eq_toNat_cond, BitVec.toNat_ofNat]
  split <;> omega

theorem u32_i32 {n : ℕ} (hlt : n < 2 ^ 32) : u32 (i32 n) = n := by
  rw [u32, i32, BitVec.toInt_eq_toNat_cond, BitVec.toNat_ofNat]
  split <;> omega

theorem i32_eq_min_iff {n : ℕ} (hlt : n < 2 ^ 32) : i32 n = -2 ^ 31 ↔ n = 2 ^ 31 := by
  rw [i32, BitVec.toInt_eq_toNat_cond, BitVec.toNat_ofNat]
  split <;> omega

theorem i32_succ_sub_one {n : ℕ} (hlt : n + 1 < 2 ^ 32) (hne : n + 1 ≠ 2 ^ 31) :
    i32 (n + 1) - 1 = i32 n := by
  simp only [i32, BitVec.toInt_eq_toNat_cond, BitVec.toNat_ofNat]
  split <;> split <;> omega

def strlen32 (s : List UInt8) : ℕ := s.length % 2 ^ 32

/-- What a length in an `unsigned int` lets see of a string. -/
def cut (s : List UInt8) : List UInt8 := s.take (strlen32 s)

theorem length_cut (s : List UInt8) : (cut s).length = strlen32 s :=
  List.length_take_of_le (Nat.mod_le _ _)

theorem cut_of_lt {s : List UInt8} (h : s.length < 2 ^ 32) : cut s = s := by
  rw [cut, strlen32, Nat.mod_eq_of_lt h, List.take_length]

theorem cut_isPrefix (s : List UInt8) : cut s <+: s := List.take_prefix _ _

theorem readAt_natCast (mem : List UInt8) (i : ℕ) : readAt mem i = mem[i]? := by
  rw [readAt, if_pos (Int.natCast_nonneg i), Int.toNat_natCast]

/-- A comparison that stays inside sees whether the string occurs. -/
theorem memcmpAt_natCast {s t : List UInt8} {i : ℕ} (h : i + (cut t).length ≤ (cut s).length) :
    memcmpAt s i t (strlen32 t) = some (decide (OccursAt (cut t) (cut s) i)) := by
  have hs : strlen32 s ≤ s.length := Nat.mod_le _ _
  have ht : strlen32 t ≤ t.length := Nat.mod_le _ _
  rw [length_cut, length_cut] at h
  have hbounds : 0 ≤ (i : ℤ) ∧ (i : ℤ).toNat + strlen32 t ≤ s.length ∧ strlen32 t ≤ t.length := by
    omega
  have hdrop : ((cut s).drop i).take (strlen32 t) = (s.drop i).take (strlen32 t) := by
    rw [cut, List.drop_take, List.take_take, Nat.min_eq_left (by omega)]
  rw [memcmpAt, if_pos hbounds, Int.toNat_natCast]
  simp only [occursAt_iff_take, length_cut, hdrop]
  rfl

theorem getElem?_cut {s : List UInt8} {i : ℕ} (hi : i < (cut s).length) : (cut s)[i]? = s[i]? := by
  rw [length_cut] at hi
  exact List.getElem?_take_of_lt hi

theorem matchAt_natCast {s t : List UInt8} {i : ℕ} (ht : cut t ≠ [])
    (h : i + (cut t).length ≤ (cut s).length) :
    matchAt s i t (strlen32 t) = some (decide (OccursAt (cut t) (cut s) i)) := by
  have hpos := List.length_pos_iff.2 ht
  obtain ⟨c, hc⟩ : ∃ c, (cut s)[i]? = some c := ⟨_, List.getElem?_eq_getElem (by omega)⟩
  obtain ⟨d, hd⟩ : ∃ d, (cut t)[0]? = some d := ⟨_, List.getElem?_eq_getElem hpos⟩
  have hread : readAt s i = some c := by rw [readAt_natCast, ← getElem?_cut (by omega), hc]
  have hread' : readAt t 0 = some d :=
    (readAt_natCast t 0).trans ((getElem?_cut hpos).symm.trans hd)
  rw [matchAt, hread, hread']
  by_cases heq : c = d
  · exact (if_pos heq).trans (memcmpAt_natCast h)
  · have hno : ¬ OccursAt (cut t) (cut s) i := by
      rintro ⟨l, hl⟩
      have hfirst := congrArg (fun l => l[0]?) hl
      rw [List.getElem?_append_left hpos, List.getElem?_drop, Nat.add_zero, hc, hd] at hfirst
      exact heq (Option.some.inj hfirst).symm
    rw [decide_eq_false hno]
    exact if_neg heq

end Ylext

end Ylisp
