import Mathlib.Data.Nat.Notation

/-!
# Reflected cyclic redundancy checks

A register that is shifted to the right: the bits of the message come in at the low end, the
lowest bit of a byte first, and a bit that falls out brings in the polynomial `p`, reflected.
`crc` takes a message bit by bit.

A shift is linear in exclusive or, so that eight shifts of a byte and of what stands above it
come apart: `tableStep_eq` says that a step over a whole byte can be read off a table of the
256 bytes.
-/

namespace Crc

variable {w : ℕ} {p : BitVec w}

def shift (p c : BitVec w) : BitVec w :=
  if c.getLsbD 0 then (c >>> 1) ^^^ p else c >>> 1

def bitStep (p c : BitVec w) (b : Bool) : BitVec w :=
  if c.getLsbD 0 ^^ b then (c >>> 1) ^^^ p else c >>> 1

def bits (b : UInt8) : List Bool := (List.range 8).map b.toBitVec.getLsbD

/-- The register after a message, bit by bit. -/
def crc (p c : BitVec w) (data : List UInt8) : BitVec w :=
  (data.flatMap bits).foldl (bitStep p) c

def shifts (p : BitVec w) : ℕ → BitVec w → BitVec w
  | 0, c => c
  | k + 1, c => shifts p k (shift p c)

def index (c : BitVec w) (b : UInt8) : BitVec 8 := c.setWidth 8 ^^^ b.toBitVec

def tableStep (table : BitVec 8 → BitVec w) (c : BitVec w) (b : UInt8) : BitVec w :=
  (c >>> 8) ^^^ table (index c b)

@[simp] theorem crc_nil (c : BitVec w) : crc p c [] = c := rfl

theorem crc_cons (c : BitVec w) (b : UInt8) (data : List UInt8) :
    crc p c (b :: data) = crc p ((bits b).foldl (bitStep p) c) data := by
  rw [crc, List.flatMap_cons, List.foldl_append, crc]

/-- A message goes on where the one before it has left the register. -/
theorem crc_append (c : BitVec w) (data data' : List UInt8) :
    crc p c (data ++ data') = crc p (crc p c data) data' := by
  rw [crc, List.flatMap_append, List.foldl_append, crc, crc]

/-! ### Linearity -/

theorem shift_xor (c d : BitVec w) : shift p (c ^^^ d) = shift p c ^^^ shift p d := by
  simp only [shift, BitVec.getLsbD_xor, BitVec.ushiftRight_xor_distrib]
  cases c.getLsbD 0 <;> cases d.getLsbD 0
  · rfl
  · exact BitVec.xor_assoc _ _ _
  · simp only [Bool.xor_false, if_true, Bool.false_eq_true, if_false]
    rw [BitVec.xor_assoc, BitVec.xor_comm (d >>> 1) p, ← BitVec.xor_assoc]
  · simp only [Bool.xor_self, if_true, Bool.false_eq_true, if_false]
    rw [BitVec.xor_assoc, BitVec.xor_comm (d >>> 1) p, ← BitVec.xor_assoc p p, BitVec.xor_self,
      BitVec.zero_xor]

theorem shifts_xor (k : ℕ) (c d : BitVec w) :
    shifts p k (c ^^^ d) = shifts p k c ^^^ shifts p k d := by
  induction k generalizing c d with
  | zero => rfl
  | succ k ih => rw [shifts, shifts, shifts, shift_xor, ih]

/-- As long as zeros fall out, the register is only moved. -/
theorem shifts_of_low_clear {k : ℕ} {c : BitVec w} (h : ∀ i < k, c.getLsbD i = false) :
    shifts p k c = c >>> k := by
  induction k generalizing c with
  | zero => rfl
  | succ k ih =>
      have hshift : shift p c = c >>> 1 := by
        rw [shift, h 0 (Nat.succ_pos k), if_neg Bool.false_ne_true]
      have hclear : ∀ i < k, (c >>> 1).getLsbD i = false := fun i hi => by
        rw [BitVec.getLsbD_ushiftRight, Nat.add_comm]
        exact h (i + 1) (Nat.succ_lt_succ hi)
      rw [shifts, hshift, ih hclear, ← BitVec.shiftRight_add, Nat.add_comm]

/-! ### Bytes -/

theorem shift_xor_message (c m : BitVec w) :
    shift p (c ^^^ m) = bitStep p c (m.getLsbD 0) ^^^ (m >>> 1) := by
  rw [shift, bitStep, BitVec.getLsbD_xor, BitVec.ushiftRight_xor_distrib]
  split
  · rw [BitVec.xor_assoc, BitVec.xor_assoc, BitVec.xor_comm p]
  · rfl

/-- Bits that come in one by one might as well have been there from the start. -/
theorem foldl_bitStep {bs : List Bool} {c m : BitVec w}
    (hm : ∀ i, m.getLsbD i = bs[i]?.getD false) :
    bs.foldl (bitStep p) c = shifts p bs.length (c ^^^ m) := by
  induction bs generalizing c m with
  | nil =>
      have hzero : m = 0#w := BitVec.eq_of_getLsbD_eq fun i _ => by simp [hm]
      rw [hzero, BitVec.xor_zero]
      rfl
  | cons b bs ih =>
      have hfirst : m.getLsbD 0 = b := hm 0
      have hrest : ∀ i, (m >>> 1).getLsbD i = bs[i]?.getD false := fun i => by
        rw [BitVec.getLsbD_ushiftRight, Nat.add_comm, hm, List.getElem?_cons_succ]
      rw [List.foldl_cons, List.length_cons, shifts, shift_xor_message, hfirst, ih hrest]

theorem getElem?_bits (b : UInt8) (i : ℕ) : (bits b)[i]?.getD false = b.toBitVec.getLsbD i := by
  by_cases hi : i < 8
  · simp [bits, hi]
  · simp [bits, hi, BitVec.getLsbD_of_ge _ _ (Nat.not_lt.1 hi)]

theorem foldl_bits (hw : 8 ≤ w) (c : BitVec w) (b : UInt8) :
    (bits b).foldl (bitStep p) c = shifts p 8 (c ^^^ b.toBitVec.setWidth w) := by
  refine foldl_bitStep fun i => ?_
  rw [getElem?_bits, BitVec.getLsbD_setWidth]
  by_cases hi : i < w
  · simp [hi]
  · simp [hi, BitVec.getLsbD_of_ge _ _ (Nat.le_trans hw (Nat.not_lt.1 hi))]

/-- Eight shifts come apart into those of the low byte and a move of the rest. -/
theorem shifts_eight (c : BitVec w) :
    shifts p 8 c = (c >>> 8) ^^^ shifts p 8 ((c.setWidth 8).setWidth w) := by
  have hsplit : c = (c ^^^ (c.setWidth 8).setWidth w) ^^^ (c.setWidth 8).setWidth w := by
    rw [BitVec.xor_assoc, BitVec.xor_self, BitVec.xor_zero]
  have hclear : ∀ i < 8, (c ^^^ (c.setWidth 8).setWidth w).getLsbD i = false := fun i hi => by
    by_cases hiw : i < w
    · simp [hi, hiw]
    · simp [BitVec.getLsbD_of_ge _ _ (Nat.not_lt.1 hiw)]
  have hlow : ((c.setWidth 8).setWidth w) >>> 8 = 0#w := BitVec.eq_of_getLsbD_eq fun i _ => by
    simp
  rw [congrArg (shifts p 8) hsplit, shifts_xor, shifts_of_low_clear hclear,
    BitVec.ushiftRight_xor_distrib, hlow, BitVec.xor_zero]

/-- With a table of the 256 bytes, a step over a byte takes its eight bits. -/
theorem tableStep_eq (hw : 8 ≤ w) {table : BitVec 8 → BitVec w}
    (htable : ∀ i, table i = shifts p 8 (i.setWidth w)) (c : BitVec w) (b : UInt8) :
    tableStep table c b = (bits b).foldl (bitStep p) c := by
  have hhigh : (b.toBitVec.setWidth w) >>> 8 = 0#w := BitVec.eq_of_getLsbD_eq fun i _ => by
    simp
  have hindex : (c ^^^ b.toBitVec.setWidth w).setWidth 8 = index c b := by
    rw [BitVec.setWidth_xor, index, BitVec.setWidth_setWidth_of_le _ hw, BitVec.setWidth_eq]
  rw [foldl_bits hw, shifts_eight, hindex, BitVec.ushiftRight_xor_distrib, hhigh, BitVec.xor_zero,
    tableStep, htable]

theorem foldl_tableStep (hw : 8 ≤ w) {table : BitVec 8 → BitVec w}
    (htable : ∀ i, table i = shifts p 8 (i.setWidth w)) (c : BitVec w) (data : List UInt8) :
    data.foldl (tableStep table) c = crc p c data := by
  induction data generalizing c with
  | nil => rfl
  | cons b data ih => rw [List.foldl_cons, tableStep_eq hw htable, ih, crc_cons]

end Crc
