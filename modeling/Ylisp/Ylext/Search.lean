import Ylisp.Library.Machine
import Ylisp.Ylext.Cstring

/-!
# `index-of` and `last-index-of`

Both compare a signed index with unsigned lengths, so that a negative index counts as a very
large one: `index_of` finds nothing then, before it comes to the clamp at 0, and
`last_index_of` clamps the index to the end of the string. `index_of` also counts the remaining
bytes in an `int`.
-/

namespace Ylisp

namespace Ylext

open Occurrence

/-- A round of the loop of `index_of`: the pointer and the `int` `remainsz`, which is compared
with an unsigned length. There is no result where the behaviour is undefined: at a read outside
of the strings, or when `remainsz` leaves `int`. -/
def indexRound (s t : List UInt8) : ℕ × ℤ → ℕ × ℤ ⊕ Option ℤ
  | (p, remainsz) =>
      if u32 remainsz ≥ strlen32 t then
        match matchAt s p t (strlen32 t) with
        | none => .inr none
        | some true => .inr (some remainsz)
        | some false => if remainsz = -2 ^ 31 then .inr none else .inl (p + 1, remainsz - 1)
      else .inr (some remainsz)

/-- `index_of` returns `r`, or its behaviour is undefined. Without a third parameter the index
is 0. -/
def IndexOf (s t : Cstring) (fromi : Option ℤ) (r : Option (Option ℕ)) : Prop :=
  let strsz := strlen32 s.bytes
  let subsz := strlen32 t.bytes
  let fromi := fromi.getD 0
  if subsz = 0 ∨ strsz = 0 ∨ subsz > strsz ∨ u32 fromi > strsz - subsz then r = some none
  else
    let fromi := if fromi < 0 then 0 else fromi.toNat
    ∃ e, Machine.Ends (indexRound s.bytes t.bytes)
        (fromi, i32 ((strsz + 2 ^ 32 - fromi) % 2 ^ 32)) e ∧
      r = e.map fun remainsz =>
        if u32 remainsz ≥ subsz then some ((strsz + 2 ^ 32 - u32 remainsz) % 2 ^ 32) else none

/-- A round of the loop of `last_index_of`. -/
def lastRound (s t : List UInt8) (p : ℤ) : ℤ ⊕ Option ℤ :=
  if p ≥ 0 then
    match matchAt s p t (strlen32 t) with
    | none => .inr none
    | some true => .inr (some p)
    | some false => .inl (p - 1)
  else .inr (some p)

/-- `last_index_of` returns `r`, or reads outside of its strings. -/
def LastIndexOf (s t : Cstring) (fromi : Option ℤ) (r : Option (Option ℤ)) : Prop :=
  let strsz := strlen32 s.bytes
  let subsz := strlen32 t.bytes
  let fromi := fromi.getD 0xfffffff
  if subsz = 0 ∨ strsz = 0 ∨ subsz > strsz ∨ u32 fromi < subsz - 1 then r = some none
  else
    let fromi := if u32 fromi > strsz - 1 then i32 (strsz - 1) else fromi
    ∃ e, Machine.Ends (lastRound s.bytes t.bytes) (fromi - subsz + 1) e ∧
      r = e.map fun p => if p ≥ 0 then some (i32 p.toNat) else none

/-- The positions, from `fromi` on, at which `t` occurs. -/
def positionsFrom (s t : List UInt8) (fromi : ℤ) : Set ℕ :=
  {i | fromi ≤ i ∧ t ≠ [] ∧ OccursAt t s i}

/-- The positions at which `t` occurs and ends at or before `fromi`. -/
def positionsTo (s t : List UInt8) (fromi : ℤ) : Set ℕ :=
  {i | i + t.length - 1 ≤ fromi ∧ t ≠ [] ∧ OccursAt t s i}

section Positions

variable {s t : List UInt8} {p : ℕ} {fromi : ℤ}

theorem mem_positionsFrom {i : ℕ} :
    i ∈ positionsFrom s t fromi ↔ fromi ≤ i ∧ t ≠ [] ∧ OccursAt t s i := Iff.rfl

theorem mem_positionsTo {i : ℕ} :
    i ∈ positionsTo s t fromi ↔ i + t.length - 1 ≤ fromi ∧ t ≠ [] ∧ OccursAt t s i := Iff.rfl

theorem positionsFrom_toNat : positionsFrom s t fromi.toNat = positionsFrom s t fromi := by
  ext i
  rw [mem_positionsFrom, mem_positionsFrom]
  refine and_congr_left fun _ => ?_
  omega

theorem positionsFrom_succ (h : ¬ OccursAt t s p) :
    positionsFrom s t (p + 1 : ℕ) = positionsFrom s t p := by
  ext i
  rw [mem_positionsFrom, mem_positionsFrom]
  refine and_congr_left fun hi => ?_
  have hne : i ≠ p := fun heq => h (heq ▸ hi.2)
  omega

/-- Where the rest is too short, there is no position. -/
theorem positionsFrom_eq_empty (h : (s.length : ℤ) < fromi + t.length) :
    positionsFrom s t fromi = ∅ := by
  refine Set.eq_empty_iff_forall_notMem.2 fun i hi => ?_
  obtain ⟨hle, hne, hocc⟩ := hi
  have hlen := hocc.add_length_le hne
  omega

theorem positionsFrom_nil : positionsFrom s [] fromi = ∅ :=
  Set.eq_empty_iff_forall_notMem.2 fun _ hi => hi.2.1 rfl

end Positions

/-- The bytes that remain from `p` on are counted within `int`: there is nothing to look for,
fewer than `2 ^ 31` bytes remain, or the loop ends before the count gets there. -/
def Counted (s t : List UInt8) (p : ℕ) : Prop :=
  cut t = [] ∨ strlen32 s < p + 2 ^ 31 ∨ 2 ^ 31 < strlen32 t ∨
    ∃ i ∈ positionsFrom (cut s) (cut t) p, i + 2 ^ 31 ≤ strlen32 s

section Forward

variable {s t : List UInt8}

theorem counted_succ_iff {p : ℕ} (hocc : ¬ OccursAt (cut t) (cut s) p)
    (hlt : strlen32 s ≠ p + 2 ^ 31) : Counted s t (p + 1) ↔ Counted s t p := by
  unfold Counted
  rw [positionsFrom_succ hocc]
  have hfar : strlen32 s < p + 1 + 2 ^ 31 ↔ strlen32 s < p + 2 ^ 31 := by omega
  rw [hfar]

/-- Where the count is at its end and the loop goes on, it was not counted. -/
theorem Counted.ne {p : ℕ} (h : Counted s t p) (ht : cut t ≠ []) (hlong : strlen32 t ≤ 2 ^ 31)
    (hocc : ¬ OccursAt (cut t) (cut s) p) : strlen32 s ≠ p + 2 ^ 31 := by
  intro heq
  rcases h with hnil | hlt | hlt | ⟨i, hi, hle⟩
  · exact ht hnil
  · omega
  · omega
  · have hpi : (p : ℤ) ≤ i := hi.1
    obtain rfl : i = p := by omega
    exact hocc hi.2.2

/-- The loop of `index_of` finds the first position from `p` on. -/
theorem ends_indexRound (ht : cut t ≠ []) {p n : ℕ} (h : p + n = (cut s).length)
    (hcount : Counted s t p) :
    ∃ e, Machine.Ends (indexRound s t) (p, i32 n) (some (i32 e)) ∧ e ≤ n ∧
      Picks IsLeast (positionsFrom (cut s) (cut t) p)
        (if e ≥ strlen32 t then some (strlen32 s - e) else none) := by
  have hpos := List.length_pos_iff.2 ht
  have hs := length_cut s
  have ht' := length_cut t
  have hlt : strlen32 s < 2 ^ 32 := Nat.mod_lt _ (by decide)
  induction n generalizing p with
  | zero =>
      have hshort : ¬ 0 ≥ strlen32 t := by omega
      refine ⟨0, .of_result (if_neg ?_), le_refl 0, ?_⟩
      · rw [u32_i32 (by decide)]
        exact hshort
      · rw [if_neg hshort]
        exact positionsFrom_eq_empty (by omega)
  | succ n ih =>
      have hu : u32 (i32 (n + 1)) = n + 1 := u32_i32 (by omega)
      by_cases hlong : n + 1 ≥ strlen32 t
      · have hmatch := matchAt_natCast (i := p) ht (by omega : p + (cut t).length ≤ (cut s).length)
        by_cases hocc : OccursAt (cut t) (cut s) p
        · have hround : indexRound s t (p, i32 (n + 1)) = .inr (some (i32 (n + 1))) := by
            rw [indexRound, hu, if_pos hlong, hmatch, decide_eq_true hocc]
          refine ⟨n + 1, .of_result hround, le_refl _, ?_⟩
          rw [if_pos hlong, show strlen32 s - (n + 1) = p by omega]
          exact ⟨⟨le_refl _, ht, hocc⟩, fun i hi => Int.ofNat_le.1 hi.1⟩
        · -- the count is not at its end, since the string still occurs before that
          have hne : n + 1 ≠ 2 ^ 31 := by
            intro hend
            exact hcount.ne ht (by omega) hocc (by omega)
          have hround : indexRound s t (p, i32 (n + 1)) = .inl (p + 1, i32 n) := by
            rw [indexRound, hu, if_pos hlong, hmatch, decide_eq_false hocc]
            dsimp only
            rw [if_neg fun hmin => hne ((i32_eq_min_iff (by omega)).1 hmin),
              i32_succ_sub_one (by omega) hne]
          obtain ⟨e, hends, hle, hpicks⟩ :=
            ih (p := p + 1) (by omega) ((counted_succ_iff hocc (by omega)).2 hcount)
          rw [positionsFrom_succ hocc] at hpicks
          exact ⟨e, .of_step hround hends, Nat.le_succ_of_le hle, hpicks⟩
      · refine ⟨n + 1, .of_result (if_neg ?_), le_refl _, ?_⟩
        · rw [hu]
          exact hlong
        · rw [if_neg hlong]
          exact positionsFrom_eq_empty (by omega)

theorem ends_indexRound_none {p n : ℕ} (h : p + n = (cut s).length) (hcount : ¬ Counted s t p) :
    Machine.Ends (indexRound s t) (p, i32 n) none := by
  have hs := length_cut s
  have ht' := length_cut t
  have hlt : strlen32 s < 2 ^ 32 := Nat.mod_lt _ (by decide)
  have hfacts : ∀ {p}, ¬ Counted s t p → cut t ≠ [] ∧ p + 2 ^ 31 ≤ strlen32 s ∧
      strlen32 t ≤ 2 ^ 31 ∧ ¬ OccursAt (cut t) (cut s) p := by
    intro p hcount
    simp only [Counted, not_or, not_lt] at hcount
    obtain ⟨ht, hle, hle', hnone⟩ := hcount
    exact ⟨ht, hle, hle', fun hocc => hnone ⟨p, ⟨le_refl _, ht, hocc⟩, hle⟩⟩
  have hn : 2 ^ 31 ≤ n := by
    have hle := (hfacts hcount).2.1
    omega
  induction n, hn using Nat.le_induction generalizing p with
  | base =>
      obtain ⟨ht, -, hsub, hocc⟩ := hfacts hcount
      refine .of_result ?_
      rw [indexRound, u32_i32 (by decide), if_pos hsub, matchAt_natCast ht (by omega),
        decide_eq_false hocc]
      exact if_pos ((i32_eq_min_iff (by decide)).2 rfl)
  | succ n hn ih =>
      obtain ⟨ht, -, hsub, hocc⟩ := hfacts hcount
      refine .of_step ?_ (ih (p := p + 1) (by omega)
        fun hc => hcount ((counted_succ_iff hocc (by omega)).1 hc))
      rw [indexRound, u32_i32 (by omega), if_pos (by omega), matchAt_natCast ht (by omega),
        decide_eq_false hocc]
      dsimp only
      rw [if_neg fun hmin => absurd ((i32_eq_min_iff (by omega)).1 hmin) (by omega),
        i32_succ_sub_one (by omega) (by omega)]

end Forward

theorem IndexOf.unique {s t : Cstring} {fromi : Option ℤ} {r r' : Option (Option ℕ)}
    (h : IndexOf s t fromi r) (h' : IndexOf s t fromi r') : r = r' :=
  Machine.Ends.unique_of_ite h h'

/-- The index is not negative, or the comparison with `strsz - subsz` does not take it for a
large one. -/
def Seen (s t : List UInt8) (fromi : ℤ) : Prop :=
  0 ≤ fromi ∨ fromi + 2 ^ 32 ≤ (strlen32 s - strlen32 t : ℕ)

section IndexOf

variable {s t : Cstring} {fromi : ℤ}

theorem u32_le_of_seen (hle : -2 ^ 31 ≤ fromi) (hlt : fromi < 2 ^ 31)
    (hseen : Seen s.bytes t.bytes fromi) :
    u32 fromi ≤ max fromi.toNat (strlen32 s.bytes - strlen32 t.bytes) := by
  rcases Int.lt_or_le fromi 0 with hneg | hnonneg
  · have hfar := hseen.resolve_left (Int.not_le.2 hneg)
    rw [← u32_of_neg hneg hle] at hfar
    exact (Int.ofNat_le.1 hfar).trans (Nat.le_max_right _ _)
  · have hu := u32_of_nonneg hnonneg hlt
    omega

theorem indexOf_picks (hle : -2 ^ 31 ≤ fromi) (hlt : fromi < 2 ^ 31)
    (hseen : Seen s.bytes t.bytes fromi) (hcount : Counted s.bytes t.bytes fromi.toNat) :
    ∃ a, IndexOf s t (some fromi) (some a) ∧
      Picks IsLeast (positionsFrom (cut s.bytes) (cut t.bytes) fromi) a := by
  have hs := length_cut s.bytes
  have ht := length_cut t.bytes
  have hslt : strlen32 s.bytes < 2 ^ 32 := Nat.mod_lt _ (by decide)
  have hu := u32_le_of_seen hle hlt hseen
  have hu' := toNat_le_u32 hlt
  have hclamp : (if fromi < 0 then 0 else fromi.toNat) = fromi.toNat := by
    split <;> omega
  rw [← positionsFrom_toNat]
  unfold IndexOf
  dsimp only [Option.getD_some]
  rw [hclamp]
  split
  next htriv =>
    refine ⟨none, rfl, ?_⟩
    by_cases hnil : cut t.bytes = []
    · rw [hnil]
      exact positionsFrom_nil
    · have hpos := List.length_pos_iff.2 hnil
      refine positionsFrom_eq_empty ?_
      omega
  next htriv =>
    obtain ⟨hsub, htriv⟩ := not_or.1 htriv
    have hnil : cut t.bytes ≠ [] := List.ne_nil_of_length_pos (by omega)
    have hrest : (strlen32 s.bytes + 2 ^ 32 - fromi.toNat) % 2 ^ 32 =
        strlen32 s.bytes - fromi.toNat := by
      omega
    obtain ⟨e, hends, hle', hpicks⟩ :=
      ends_indexRound (s := s.bytes) (p := fromi.toNat) hnil (Nat.add_sub_of_le (by omega)) hcount
    refine ⟨_, ⟨some (i32 e), ?_, rfl⟩, ?_⟩
    · rw [hrest, ← hs]
      exact hends
    · dsimp only
      have hdiff : (strlen32 s.bytes + 2 ^ 32 - e) % 2 ^ 32 = strlen32 s.bytes - e := by
        omega
      rw [u32_i32 (by omega), hdiff]
      exact hpicks

theorem indexOf_uncounted (hle : -2 ^ 31 ≤ fromi) (hlt : fromi < 2 ^ 31)
    (hseen : Seen s.bytes t.bytes fromi) (hcount : ¬ Counted s.bytes t.bytes fromi.toNat) :
    IndexOf s t (some fromi) none := by
  have hs := length_cut s.bytes
  have ht := length_cut t.bytes
  have hslt : strlen32 s.bytes < 2 ^ 32 := Nat.mod_lt _ (by decide)
  have hu := u32_le_of_seen hle hlt hseen
  have hclamp : (if fromi < 0 then 0 else fromi.toNat) = fromi.toNat := by
    split <;> omega
  obtain ⟨hnil, hfar, hsub, -⟩ : cut t.bytes ≠ [] ∧ fromi.toNat + 2 ^ 31 ≤ strlen32 s.bytes ∧
      strlen32 t.bytes ≤ 2 ^ 31 ∧ _ := by
    simpa only [Counted, not_or, not_lt] using hcount
  have hpos := List.length_pos_iff.2 hnil
  have hrest : (strlen32 s.bytes + 2 ^ 32 - fromi.toNat) % 2 ^ 32 =
      strlen32 s.bytes - fromi.toNat := by
    omega
  unfold IndexOf
  dsimp only [Option.getD_some]
  rw [hclamp, if_neg (by omega), hrest, ← hs]
  exact ⟨none, ends_indexRound_none (Nat.add_sub_of_le (by omega)) hcount, rfl⟩

theorem indexOf_unseen (hle : -2 ^ 31 ≤ fromi) (hseen : ¬ Seen s.bytes t.bytes fromi) :
    IndexOf s t (some fromi) (some none) := by
  obtain ⟨hneg, hfar⟩ := not_or.1 hseen
  have hu := u32_of_neg (Int.not_le.1 hneg) hle
  unfold IndexOf
  dsimp only [Option.getD_some]
  rw [if_pos (by omega)]

/-- The answer is right if and only if the index is seen as what it is, the remaining bytes are
counted within `int`, and the strings, as far as their lengths in an `unsigned int` go, have the
same answer; or the index is not seen, and the string does not occur. -/
theorem indexOf_iff (hle : -2 ^ 31 ≤ fromi) (hlt : fromi < 2 ^ 31) :
    (∃ a, IndexOf s t (some fromi) (some a) ∧
        Picks IsLeast (positionsFrom s.bytes t.bytes fromi) a) ↔
      (Seen s.bytes t.bytes fromi ∧ Counted s.bytes t.bytes fromi.toNat ∧
          ∃ a, Picks IsLeast (positionsFrom (cut s.bytes) (cut t.bytes) fromi) a ∧
            Picks IsLeast (positionsFrom s.bytes t.bytes fromi) a) ∨
        (¬ Seen s.bytes t.bytes fromi ∧ positionsFrom s.bytes t.bytes fromi = ∅) := by
  by_cases hseen : Seen s.bytes t.bytes fromi
  · rw [or_iff_left fun h => h.1 hseen, and_iff_right hseen]
    by_cases hcount : Counted s.bytes t.bytes fromi.toNat
    · rw [and_iff_right hcount]
      obtain ⟨a, ha, hpicks⟩ := indexOf_picks hle hlt hseen hcount
      constructor
      · rintro ⟨a', ha', hpicks'⟩
        cases ha.unique ha'
        exact ⟨a, hpicks, hpicks'⟩
      · rintro ⟨a', hcut, hpicks'⟩
        cases hpicks.unique_least hcut
        exact ⟨a, ha, hpicks'⟩
    · have hnone := indexOf_uncounted hle hlt hseen hcount
      constructor
      · rintro ⟨a, ha, -⟩
        cases ha.unique hnone
      · exact fun h => absurd h.1 hcount
  · rw [or_iff_right fun h => hseen h.1, and_iff_right hseen]
    have hnone := indexOf_unseen hle hseen
    constructor
    · rintro ⟨a, ha, hpicks⟩
      cases ha.unique hnone
      exact hpicks
    · exact fun hempty => ⟨none, hnone, hempty⟩

end IndexOf

theorem indexOf_iff_ab :
    let s : Cstring := ⟨[97, 98], by decide⟩
    let t : Cstring := ⟨[98], by decide⟩
    (∃ a, IndexOf s t (some 1) (some a) ∧ Picks IsLeast (positionsFrom s.bytes t.bytes 1) a) ↔
      (Seen s.bytes t.bytes 1 ∧ Counted s.bytes t.bytes (Int.toNat 1) ∧
          ∃ a, Picks IsLeast (positionsFrom (cut s.bytes) (cut t.bytes) 1) a ∧
            Picks IsLeast (positionsFrom s.bytes t.bytes 1) a) ∨
        (¬ Seen s.bytes t.bytes 1 ∧ positionsFrom s.bytes t.bytes 1 = ∅) :=
  indexOf_iff (by decide) (by decide)

/-- From a negative index on, nothing is found. -/
theorem not_indexOf_neg :
    ¬ ∀ (s t : Cstring) (fromi : ℤ), -2 ^ 31 ≤ fromi → fromi < 2 ^ 31 →
      ∃ a, IndexOf s t (some fromi) (some a) ∧
        Picks IsLeast (positionsFrom s.bytes t.bytes fromi) a := by
  intro h
  let s : Cstring := ⟨[97], by decide⟩
  obtain ⟨a, ha, hpicks⟩ := h s s (-1) (by decide) (by decide)
  have hnone : IndexOf s s (some (-1)) (some none) :=
    indexOf_unseen (by decide) (by unfold Seen; decide)
  cases ha.unique hnone
  have hmem : 0 ∈ positionsFrom s.bytes s.bytes (-1) := ⟨by decide, by decide, by decide⟩
  rw [show positionsFrom s.bytes s.bytes (-1) = ∅ from hpicks] at hmem
  exact hmem

section Backward

variable {s t : List UInt8} {fromi : ℤ}

theorem positionsTo_sub_one {p : ℕ} (h : ¬ OccursAt t s p) :
    positionsTo s t (p + t.length - 1) = positionsTo s t (p - 1 + t.length - 1) := by
  ext i
  rw [mem_positionsTo, mem_positionsTo]
  refine and_congr_left fun hi => ?_
  have hne : i ≠ p := fun heq => h (heq ▸ hi.2)
  omega

theorem positionsTo_eq_empty_of_lt (h : fromi + 1 < t.length) : positionsTo s t fromi = ∅ := by
  refine Set.eq_empty_iff_forall_notMem.2 fun i hi => ?_
  have hle := hi.1
  omega

theorem positionsTo_nil : positionsTo s [] fromi = ∅ :=
  Set.eq_empty_iff_forall_notMem.2 fun _ hi => hi.2.1 rfl

theorem positionsTo_eq_empty_of_neg (h : fromi < 0) : positionsTo s t fromi = ∅ := by
  refine Set.eq_empty_iff_forall_notMem.2 fun i hi => ?_
  obtain ⟨hle, hne, -⟩ := hi
  have hpos := List.length_pos_iff.2 hne
  omega

/-- An index beyond the end is as good as that of the last byte. -/
theorem positionsTo_min : positionsTo s t fromi = positionsTo s t (min fromi (s.length - 1)) := by
  ext i
  rw [mem_positionsTo, mem_positionsTo]
  refine and_congr_left fun hi => ?_
  have hlen := hi.2.add_length_le hi.1
  omega

theorem positionsTo_last : positionsTo s t (s.length - 1) = positionsFrom s t 0 := by
  ext i
  rw [mem_positionsTo, mem_positionsFrom]
  refine and_congr_left fun hi => ?_
  have hlen := hi.2.add_length_le hi.1
  omega

/-- The loop of `last_index_of` finds the last one of the positions before `n`. -/
theorem ends_lastRound (ht : cut t ≠ []) {n : ℕ} (h : n + (cut t).length ≤ (cut s).length + 1) :
    ∃ e : ℤ, Machine.Ends (lastRound s t) ((n : ℤ) - 1) (some e) ∧ e < n ∧
      Picks IsGreatest (positionsTo (cut s) (cut t) ((n : ℤ) - 1 + (cut t).length - 1))
        (if e ≥ 0 then some e.toNat else none) := by
  induction n with
  | zero =>
      have hneg : ¬ ((0 : ℕ) : ℤ) - 1 ≥ 0 := by omega
      refine ⟨((0 : ℕ) : ℤ) - 1, .of_result (if_neg hneg), by omega, ?_⟩
      rw [if_neg hneg]
      exact positionsTo_eq_empty_of_lt (by omega)
  | succ n ih =>
      have hpos : (n : ℤ) ≥ 0 := Int.natCast_nonneg n
      have hmatch := matchAt_natCast (i := n) ht (by omega : n + (cut t).length ≤ (cut s).length)
      rw [show ((n + 1 : ℕ) : ℤ) - 1 = n by omega]
      by_cases hocc : OccursAt (cut t) (cut s) n
      · have hround : lastRound s t n = .inr (some (n : ℤ)) := by
          rw [lastRound, if_pos hpos, hmatch, decide_eq_true hocc]
        refine ⟨n, .of_result hround, by omega, ?_⟩
        rw [if_pos hpos]
        exact ⟨⟨by omega, ht, hocc⟩, fun i hi => by have hle := hi.1; omega⟩
      · have hround : lastRound s t n = .inl ((n : ℤ) - 1) := by
          rw [lastRound, if_pos hpos, hmatch, decide_eq_false hocc]
        obtain ⟨e, hends, hlt, hpicks⟩ := ih (by omega)
        rw [← positionsTo_sub_one hocc] at hpicks
        exact ⟨e, .of_step hround hends, by omega, hpicks⟩

end Backward

theorem LastIndexOf.unique {s t : Cstring} {fromi : Option ℤ} {r r' : Option (Option ℤ)}
    (h : LastIndexOf s t fromi r) (h' : LastIndexOf s t fromi r') : r = r' :=
  Machine.Ends.unique_of_ite h h'

section LastIndexOf

variable {s t : Cstring} {fromi : ℤ}

theorem lastIndexOf_of_trivial
    (h : strlen32 t.bytes = 0 ∨ strlen32 s.bytes = 0 ∨ strlen32 t.bytes > strlen32 s.bytes ∨
      u32 fromi < strlen32 t.bytes - 1) : LastIndexOf s t (some fromi) (some none) := by
  unfold LastIndexOf
  dsimp only [Option.getD_some]
  rw [if_pos h]

/-- With an index at which the string can end, the search starts at the last position that is
asked for. -/
theorem lastIndexOf_of_clamp {f : ℤ}
    (hnil : cut t.bytes ≠ []) (hsub : strlen32 t.bytes ≤ strlen32 s.bytes)
    (hguard : ¬ u32 fromi < strlen32 t.bytes - 1)
    (hclamp : (if u32 fromi > strlen32 s.bytes - 1 then i32 (strlen32 s.bytes - 1) else fromi) = f)
    (hf : strlen32 t.bytes ≤ f + 1) (hf' : f < strlen32 s.bytes) (hlt : f < 2 ^ 31) :
    ∃ a : Option ℕ, LastIndexOf s t (some fromi) (some (a.map Nat.cast)) ∧
      Picks IsGreatest (positionsTo (cut s.bytes) (cut t.bytes) f) a := by
  have hs := length_cut s.bytes
  have ht := length_cut t.bytes
  have hpos := List.length_pos_iff.2 hnil
  obtain ⟨n, hn⟩ : ∃ n : ℕ, f - strlen32 t.bytes + 1 = (n : ℤ) - 1 :=
    ⟨(f - strlen32 t.bytes + 2).toNat, by omega⟩
  obtain ⟨e, hends, hle, hpicks⟩ :=
    ends_lastRound (s := s.bytes) (n := n) hnil (by omega)
  rw [show (n : ℤ) - 1 + (cut t.bytes).length - 1 = f by omega] at hpicks
  refine ⟨_, ?_, hpicks⟩
  unfold LastIndexOf
  dsimp only [Option.getD_some]
  rw [if_neg (by omega), hclamp, hn]
  refine ⟨some e, hends, congrArg some ?_⟩
  by_cases he : e ≥ 0
  · dsimp only
    rw [if_pos he, if_pos he, i32_of_lt (by omega), Int.toNat_of_nonneg he, Option.map_some,
      Int.toNat_of_nonneg he]
  · dsimp only
    rw [if_neg he, if_neg he, Option.map_none]

/-- With an index that is not negative, the last position in what is seen is found. -/
theorem lastIndexOf_picks (hnonneg : 0 ≤ fromi) (hlt : fromi < 2 ^ 31) :
    ∃ a : Option ℕ, LastIndexOf s t (some fromi) (some (a.map Nat.cast)) ∧
      Picks IsGreatest (positionsTo (cut s.bytes) (cut t.bytes) fromi) a := by
  have hs := length_cut s.bytes
  have ht := length_cut t.bytes
  have hu := u32_of_nonneg hnonneg hlt
  by_cases hnil : cut t.bytes = []
  · rw [hnil, List.length_nil] at ht
    rw [hnil, positionsTo_nil]
    exact ⟨none, lastIndexOf_of_trivial (.inl ht.symm), rfl⟩
  have hpos := List.length_pos_iff.2 hnil
  rw [positionsTo_min, hs]
  by_cases hroom : (strlen32 t.bytes : ℤ) ≤ min fromi (strlen32 s.bytes - 1) + 1
  · refine lastIndexOf_of_clamp hnil (by omega) (by omega) ?_ (by omega) (by omega) (by omega)
    split
    next hbeyond =>
      rw [i32_of_lt (by omega)]
      omega
    next hinside => omega
  · refine ⟨none, lastIndexOf_of_trivial (by omega), positionsTo_eq_empty_of_lt (by omega)⟩

/-- A negative index is taken for the end of a string of up to `2 ^ 31` bytes. -/
theorem lastIndexOf_neg_picks (hle : -2 ^ 31 ≤ fromi) (hneg : fromi < 0)
    (hshort : strlen32 s.bytes ≤ 2 ^ 31) :
    ∃ a : Option ℕ, LastIndexOf s t (some fromi) (some (a.map Nat.cast)) ∧
      Picks IsGreatest (positionsFrom (cut s.bytes) (cut t.bytes) 0) a := by
  have hs := length_cut s.bytes
  have ht := length_cut t.bytes
  have hu := u32_of_neg hneg hle
  by_cases hnil : cut t.bytes = []
  · rw [hnil, List.length_nil] at ht
    rw [hnil, positionsFrom_nil]
    exact ⟨none, lastIndexOf_of_trivial (.inl ht.symm), rfl⟩
  have hpos := List.length_pos_iff.2 hnil
  rw [← positionsTo_last, hs]
  by_cases hroom : strlen32 t.bytes ≤ strlen32 s.bytes
  · refine lastIndexOf_of_clamp hnil hroom (by omega) ?_ (by omega) (by omega) (by omega)
    rw [if_pos (by omega), i32_of_lt (by omega)]
    omega
  · refine ⟨none, lastIndexOf_of_trivial (by omega), positionsTo_eq_empty_of_lt (by omega)⟩

/-- In a longer string nothing is found from a negative index. -/
theorem lastIndexOf_neg_long (hle : -2 ^ 31 ≤ fromi) (hneg : fromi < 0)
    (hlong : 2 ^ 31 < strlen32 s.bytes) : LastIndexOf s t (some fromi) (some none) := by
  have hslt : strlen32 s.bytes < 2 ^ 32 := Nat.mod_lt _ (by decide)
  unfold LastIndexOf
  dsimp only [Option.getD_some]
  split
  next htriv => rfl
  next htriv =>
    have hstart : ∃ f : ℤ, f < 0 ∧
        (if u32 fromi > strlen32 s.bytes - 1 then i32 (strlen32 s.bytes - 1) else fromi) = f := by
      split
      next hbeyond => exact ⟨_, i32_of_ge (by omega) (by omega), rfl⟩
      next hinside => exact ⟨fromi, hneg, rfl⟩
    obtain ⟨f, hf, hstart⟩ := hstart
    rw [hstart]
    have hbefore : ¬ f - strlen32 t.bytes + 1 ≥ 0 := by omega
    refine ⟨some _, .of_result (if_neg hbefore), ?_⟩
    rw [Option.map_some, if_neg hbefore]

/-- The answer is right if and only if the index is not negative and the strings, as far as
their lengths in an `unsigned int` go, have the same answer; or the index is negative, and the
string is too long or has no occurrence at all. -/
theorem lastIndexOf_iff (hle : -2 ^ 31 ≤ fromi) (hlt : fromi < 2 ^ 31) :
    (∃ a : Option ℕ, LastIndexOf s t (some fromi) (some (a.map Nat.cast)) ∧
        Picks IsGreatest (positionsTo s.bytes t.bytes fromi) a) ↔
      (0 ≤ fromi ∧ ∃ a, Picks IsGreatest (positionsTo (cut s.bytes) (cut t.bytes) fromi) a ∧
          Picks IsGreatest (positionsTo s.bytes t.bytes fromi) a) ∨
        (fromi < 0 ∧ (2 ^ 31 < strlen32 s.bytes ∨
          positionsFrom (cut s.bytes) (cut t.bytes) 0 = ∅)) := by
  have hunique : ∀ {a a' : Option ℕ}, LastIndexOf s t (some fromi) (some (a.map Nat.cast)) →
      LastIndexOf s t (some fromi) (some (a'.map Nat.cast)) → a = a' := fun h h' =>
    Option.map_injective (fun _ _ => Int.ofNat.inj) (Option.some.inj (h.unique h'))
  rcases Int.lt_or_le fromi 0 with hneg | hnonneg
  · rw [or_iff_right fun h => Int.not_le.2 hneg h.1, and_iff_right hneg]
    have hempty := positionsTo_eq_empty_of_neg (s := s.bytes) (t := t.bytes) hneg
    rw [hempty]
    rcases Nat.lt_or_ge (2 ^ 31) (strlen32 s.bytes) with hlong | hshort
    · exact iff_of_true ⟨none, lastIndexOf_neg_long hle hneg hlong, rfl⟩ (.inl hlong)
    · rw [or_iff_right (Nat.not_lt.2 hshort)]
      obtain ⟨a, ha, hpicks⟩ := lastIndexOf_neg_picks (t := t) hle hneg hshort
      constructor
      · rintro ⟨a', ha', hpicks'⟩
        cases hunique ha ha'
        have hnone : Picks IsGreatest ∅ none := rfl
        rw [hpicks'.unique_greatest hnone] at hpicks
        exact hpicks
      · intro hnone
        rw [hnone] at hpicks
        exact ⟨a, ha, hpicks⟩
  · rw [or_iff_left fun h => Int.not_le.2 h.1 hnonneg, and_iff_right hnonneg]
    obtain ⟨a, ha, hpicks⟩ := lastIndexOf_picks (s := s) (t := t) hnonneg hlt
    constructor
    · rintro ⟨a', ha', hpicks'⟩
      cases hunique ha ha'
      exact ⟨a, hpicks, hpicks'⟩
    · rintro ⟨a', hcut, hpicks'⟩
      cases hpicks.unique_greatest hcut
      exact ⟨a, ha, hpicks'⟩

end LastIndexOf

theorem lastIndexOf_iff_ab :
    let s : Cstring := ⟨[97, 98, 98], by decide⟩
    let t : Cstring := ⟨[98], by decide⟩
    (∃ a : Option ℕ, LastIndexOf s t (some 1) (some (a.map Nat.cast)) ∧
        Picks IsGreatest (positionsTo s.bytes t.bytes 1) a) ↔
      (0 ≤ (1 : ℤ) ∧ ∃ a, Picks IsGreatest (positionsTo (cut s.bytes) (cut t.bytes) 1) a ∧
          Picks IsGreatest (positionsTo s.bytes t.bytes 1) a) ∨
        ((1 : ℤ) < 0 ∧ (2 ^ 31 < strlen32 s.bytes ∨
          positionsFrom (cut s.bytes) (cut t.bytes) 0 = ∅)) :=
  lastIndexOf_iff (by decide) (by decide)

/-- A negative index finds what ends at the end. -/
theorem not_lastIndexOf_neg :
    ¬ ∀ (s t : Cstring) (fromi : ℤ), -2 ^ 31 ≤ fromi → fromi < 2 ^ 31 →
      ∃ a : Option ℕ, LastIndexOf s t (some fromi) (some (a.map Nat.cast)) ∧
        Picks IsGreatest (positionsTo s.bytes t.bytes fromi) a := by
  intro h
  let s : Cstring := ⟨[97], by decide⟩
  obtain ⟨a, ha, hpicks⟩ := h s s (-1) (by decide) (by decide)
  have hzero : LastIndexOf s s (some (-1)) (some (some 0)) :=
    ⟨some 0, .of_result rfl, rfl⟩
  have hnone : a = none := hpicks.unique_greatest (positionsTo_eq_empty_of_neg (by decide))
  rw [hnone] at ha
  cases ha.unique hzero

end Ylext

end Ylisp
