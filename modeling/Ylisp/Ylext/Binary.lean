import Mathlib.Algebra.Group.Nat.Defs
import Mathlib.Data.List.Basic
import Ylisp.Library.Machine

/-!
# `bin-human-read`

The text of a binary is written with a space behind each byte, the last of which becomes the
trailing 0. Without a byte there is no space, and the 0 is written in front of the buffer.
-/

namespace Ylisp

namespace Ylext

open Machine

/-- A binary, whose size is an `unsigned int`. -/
structure Bin where
  d : List UInt8
  sz_lt : d.length < 2 ^ 32

def hextbl : List UInt8 := [48, 49, 50, 51, 52, 53, 54, 55, 56, 57, 97, 98, 99, 100, 101, 102]

def hexDigits (c : UInt8) : List UInt8 :=
  [hextbl[((c >>> 4) &&& 0x0f).toNat]?.getD 0, hextbl[(c &&& 0x0f).toNat]?.getD 0]

/-- A round of the loop of `bin_human_read`, with `room` allocated bytes: the counter and what is
in front of `pd`. Behind the loop, the 0 is written. -/
def humanRound (bin : Bin) (room : ℕ) : ℕ × List UInt8 →
    ℕ × List UInt8 ⊕ Option (List UInt8)
  | (i, out) =>
      if i < bin.d.length then
        match bin.d[i]? with
        | none => .inr none
        | some c =>
            if out.length + 3 ≤ room then .inl (i + 1, out ++ (hexDigits c ++ [32]))
            else .inr none
      else if out = [] then .inr none
      else .inr (some out.dropLast)

/-- `bin_human_read` returns the text `r`, or writes outside of its buffer. -/
def BinHumanRead (bin : Bin) (r : Option (List UInt8)) : Prop :=
  let bsz := bin.d.length * 3 % 2 ^ 32
  Ends (humanRound bin ((bsz + 1) % 2 ^ 32)) (0, []) r

def hexByte (c : UInt8) : List UInt8 :=
  [(Nat.digitChar (c.toNat / 16)).toUInt8, (Nat.digitChar (c.toNat % 16)).toUInt8]

/-- The bytes in hexadecimal, with a space between them. -/
def humanText (l : List UInt8) : List UInt8 := [32].intercalate (l.map hexByte)

def spaced (l : List UInt8) : List UInt8 := l.flatMap fun c => hexByte c ++ [32]

section Text

variable {l l' : List UInt8}

theorem hextbl_eq : ∀ n < 16, hextbl[n]?.getD 0 = (Nat.digitChar n).toUInt8 := by decide

theorem hextbl_idxOf : ∀ n < 16, hextbl.idxOf (Nat.digitChar n).toUInt8 = n := by decide

theorem toNat_and_low (c : UInt8) : (c &&& 0x0f).toNat = c.toNat % 16 := by
  rw [UInt8.toNat_and]
  exact Nat.and_two_pow_sub_one_eq_mod c.toNat 4

theorem toNat_and_high (c : UInt8) : ((c >>> 4) &&& 0x0f).toNat = c.toNat / 16 := by
  have hlt := c.toNat_lt
  rw [toNat_and_low, UInt8.toNat_shiftRight]
  change c.toNat >>> 4 % 16 = c.toNat / 16
  rw [Nat.shiftRight_eq_div_pow]
  omega

/-- The digits of the table are those of a byte. -/
theorem hexDigits_eq (c : UInt8) : hexDigits c = hexByte c := by
  have hlt := c.toNat_lt
  rw [hexDigits, hexByte, toNat_and_high, toNat_and_low, hextbl_eq _ (by omega),
    hextbl_eq _ (by omega)]

def unhex (l : List UInt8) : ℕ := l.foldl (fun n x => 16 * n + hextbl.idxOf x) 0

theorem unhex_hexByte (c : UInt8) : unhex (hexByte c) = c.toNat := by
  have hlt := c.toNat_lt
  rw [hexByte, unhex, List.foldl_cons, List.foldl_cons, List.foldl_nil,
    hextbl_idxOf _ (by omega), hextbl_idxOf _ (by omega)]
  omega

theorem length_spaced (l : List UInt8) : (spaced l).length = 3 * l.length := by
  induction l with
  | nil => rfl
  | cons c l ih =>
      rw [spaced, List.flatMap_cons, ← spaced, List.length_append, ih, List.length_cons]
      change 3 + 3 * l.length = 3 * (l.length + 1)
      omega

theorem spaced_append (l l' : List UInt8) : spaced (l ++ l') = spaced l ++ spaced l' :=
  List.flatMap_append

theorem spaced_cons (c : UInt8) (l : List UInt8) :
    spaced (c :: l) = hexByte c ++ 32 :: spaced l := by
  rw [spaced, List.flatMap_cons, ← spaced, List.append_assoc]
  rfl

theorem spaced_injective : ∀ {l l' : List UInt8}, spaced l = spaced l' → l = l'
  | [], [], _ => rfl
  | [], _ :: _, h => nomatch h
  | _ :: _, [], h => nomatch h
  | c :: l, c' :: l', h => by
      rw [spaced_cons, spaced_cons] at h
      obtain ⟨hc, hrest⟩ := List.append_inj h rfl
      have hbyte := congrArg unhex hc
      rw [unhex_hexByte, unhex_hexByte, UInt8.toNat_inj] at hbyte
      rw [hbyte, spaced_injective (List.cons.inj hrest).2]

/-- The last space is the one that is too much. -/
theorem spaced_eq : ∀ {l : List UInt8}, l ≠ [] → spaced l = humanText l ++ [32]
  | [c], _ => rfl
  | c :: c' :: l, _ => by
      rw [spaced_cons, spaced_eq (List.cons_ne_nil c' l)]
      rfl

theorem humanText_eq_nil (h : humanText l = []) : l = [] := by
  by_contra hne
  have hlen := length_spaced l
  rw [spaced_eq hne, h, List.nil_append, List.length_singleton] at hlen
  omega

theorem humanText_injective (h : humanText l = humanText l') : l = l' := by
  by_cases hl : l = []
  · subst hl
    exact (humanText_eq_nil h.symm).symm
  by_cases hl' : l' = []
  · subst hl'
    exact humanText_eq_nil h
  · refine spaced_injective ?_
    rw [spaced_eq hl, spaced_eq hl', h]

end Text

section HumanRead

variable {bin : Bin}

theorem ends_human (room : ℕ) {l l' : List UInt8} (h : bin.d = l ++ l')
    (hroom : (spaced l).length ≤ room) :
    Ends (humanRound bin room) (l.length, spaced l)
      (if bin.d ≠ [] ∧ 3 * bin.d.length ≤ room then some (humanText bin.d) else none) := by
  induction l' generalizing l with
  | nil =>
      rw [List.append_nil] at h
      have hlast : humanRound bin room (l.length, spaced l) =
          if spaced l = [] then .inr none else .inr (some (spaced l).dropLast) := by
        rw [humanRound, h, if_neg (Nat.lt_irrefl _)]
      refine .of_result (hlast.trans ?_)
      rw [h]
      by_cases hnil : l = []
      · have hno : ¬ (l ≠ [] ∧ 3 * l.length ≤ room) := fun h => h.1 hnil
        rw [if_neg hno, hnil]
        rfl
      · have hlen := length_spaced l
        have hyes : l ≠ [] ∧ 3 * l.length ≤ room := ⟨hnil, by omega⟩
        rw [if_pos hyes, spaced_eq hnil, if_neg (List.concat_ne_nil _ _), List.dropLast_concat]
  | cons c l' ih =>
      have hlen : bin.d.length = l.length + (l'.length + 1) := by
        rw [h, List.length_append, List.length_cons]
      have hread : bin.d[l.length]? = some c := by
        rw [h, List.getElem?_append_right (Nat.le_refl _), Nat.sub_self]
        rfl
      have hround : humanRound bin room (l.length, spaced l) =
          if (spaced l).length + 3 ≤ room then
            .inl ((l ++ [c]).length, spaced (l ++ [c]))
          else .inr none := by
        rw [humanRound, if_pos (by omega), hread]
        dsimp only
        rw [hexDigits_eq, spaced_append, List.length_append]
        rfl
      rw [length_spaced] at hround
      by_cases hfits : 3 * l.length + 3 ≤ room
      · rw [if_pos hfits] at hround
        refine .of_step hround (ih ?_ ?_)
        · rw [h, List.append_assoc]
          rfl
        · rw [length_spaced, List.length_append, List.length_singleton]
          omega
      · rw [if_neg hfits] at hround
        rw [if_neg fun hall => hfits (by omega)]
        exact .of_result hround

/-- The text is written into the buffer, and the binary can be recovered from it, if and only if
there is a byte, and the size of the buffer can be counted. -/
theorem binHumanRead_iff :
    (BinHumanRead bin (some (humanText bin.d)) ∧ ∀ l, humanText l = humanText bin.d → l = bin.d) ↔
      0 < bin.d.length ∧ 3 * bin.d.length + 1 < 2 ^ 32 := by
  rw [and_iff_left fun l => humanText_injective]
  have hends := ends_human ((bin.d.length * 3 % 2 ^ 32 + 1) % 2 ^ 32) (l := [])
    (rfl : bin.d = [] ++ bin.d) (Nat.zero_le _)
  have hcond : bin.d ≠ [] ∧ 3 * bin.d.length ≤ (bin.d.length * 3 % 2 ^ 32 + 1) % 2 ^ 32 ↔
      0 < bin.d.length ∧ 3 * bin.d.length + 1 < 2 ^ 32 := by
    rw [← List.length_pos_iff]
    omega
  constructor
  · intro h
    by_contra hno
    rw [if_neg (mt hcond.1 hno)] at hends
    exact nomatch h.unique hends
  · intro h
    rw [if_pos (hcond.2 h)] at hends
    exact hends

end HumanRead

/-- Of the empty binary, the 0 is written in front of the buffer. -/
theorem not_binHumanRead_empty :
    ¬ ∀ bin : Bin, BinHumanRead bin (some (humanText bin.d)) ∧
      ∀ l, humanText l = humanText bin.d → l = bin.d := by
  intro h
  have hnone : BinHumanRead ⟨[], by decide⟩ none := .of_result rfl
  exact nomatch (h ⟨[], by decide⟩).1.unique hnone

end Ylext

end Ylisp
