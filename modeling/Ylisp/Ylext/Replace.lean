import Ylisp.Library.Machine
import Ylisp.Ylext.Cstring

/-!
# `replace`

The new string is written into a buffer that begins as long as the string. `__check_buf`
doubles it before a replacement and before the rest is copied, but a single character is copied
without it: after replacements by something longer, the buffer can be full then.
-/

namespace Ylisp

namespace Ylext

open Occurrence Machine

/-- The loop of `replace`: the position of `p`, `pbend - pbuf`, the number of allocated bytes
and what is in front of `pb`. -/
structure ReplaceState where
  p : ℕ
  cap : ℕ
  room : ℕ
  out : List UInt8

/-- A round of `__check_buf`. -/
def ReplaceState.grow (st : ReplaceState) : ReplaceState ⊕ Option (List UInt8) :=
  if st.out.length ≤ st.cap * 2 + 1 then .inl ⟨st.p, st.cap * 2, st.cap * 2 + 1, st.out⟩
  else .inr none

/-- A round of the loop of `replace`, or of `__check_buf` in it: nothing that the loop looks at
changes there. A read or a write outside of the memory is `none`. -/
def replaceRound (s old new : List UInt8) (st : ReplaceState) :
    ReplaceState ⊕ Option (List UInt8) :=
  let lenstr := strlen32 s
  let lenold := strlen32 old
  let lennew := strlen32 new
  if st.p < lenstr - lenold + 1 then
    match memcmpAt s st.p old lenold with
    | none => .inr none
    | some true =>
        if st.cap < st.out.length + lennew then st.grow
        else if st.out.length + lennew ≤ st.room then
          .inl ⟨st.p + lenold, st.cap, st.room, st.out ++ new.take lennew⟩
        else .inr none
    | some false =>
        match s[st.p]? with
        | none => .inr none
        | some c =>
            if st.out.length < st.room then .inl ⟨st.p + 1, st.cap, st.room, st.out ++ [c]⟩
            else .inr none
  else
    let remainsz := (lenstr + 2 ^ 32 - st.p) % 2 ^ 32
    if st.cap < st.out.length + remainsz then st.grow
    else if st.out.length + remainsz + 1 ≤ st.room then
      .inr (some (st.out ++ (s.drop st.p).take remainsz))
    else .inr none

/-- `replace` returns `r`, or reads or writes outside of its memory. -/
def Replace (s old new : Cstring) (r : Option (List UInt8)) : Prop :=
  let lenstr := strlen32 s.bytes
  let lenold := strlen32 old.bytes
  if lenold = 0 ∨ lenstr < lenold then
    r = if s.bytes.length + 1 ≤ (lenstr + 1) % 2 ^ 32 then some s.bytes else none
  else
    Ends (replaceRound s.bytes old.bytes new.bytes) ⟨0, lenstr, (lenstr + 1) % 2 ^ 32, []⟩ r

/-- The search for `old` from left to right: a position, the number of occurrences before it,
and the end of the last one. -/
inductive ScanStep (s old : List UInt8) : ℕ × ℕ × ℕ → ℕ × ℕ × ℕ → Prop
  | occurrence {p k e : ℕ} : OccursAt old s p →
      ScanStep s old (p, k, e) (p + old.length, k + 1, p + old.length)
  | other {p k e : ℕ} : p + old.length ≤ s.length → ¬ OccursAt old s p →
      ScanStep s old (p, k, e) (p + 1, k, e)

/-- A byte that is copied alone has room in a buffer that the last occurrence has needed, or in
the one at the beginning: up to a position `i`, `k` occurrences make `i + k * lennew - k * lenold`
bytes. -/
def CopyFits (s old : List UInt8) (lennew : ℕ) : ℕ × ℕ × ℕ → Prop
  | (p, k, e) => p + old.length ≤ s.length → ¬ OccursAt old s p →
      ∃ j, (j = 0 ∨ s.length * 2 ^ (j - 1) + k * old.length < e + k * lennew) ∧
        p + k * lennew ≤ s.length * 2 ^ j + k * old.length

section Scan

variable {s old : List UInt8} {n p k e : ℕ}

theorem always_rest (hold : old ≠ []) (h : s.length < p + old.length) :
    Always (ScanStep s old) (CopyFits s old n) (p, k, e) := by
  refine always_iff.2 ⟨fun hle => absurd hle (Nat.not_le.2 h), ?_⟩
  rintro _ (hocc | ⟨hle, -⟩)
  · exact absurd (hocc.add_length_le hold) (Nat.not_le.2 h)
  · exact absurd hle (Nat.not_le.2 h)

theorem always_occurrence_iff (hocc : OccursAt old s p) :
    Always (ScanStep s old) (CopyFits s old n) (p, k, e) ↔
      Always (ScanStep s old) (CopyFits s old n) (p + old.length, k + 1, p + old.length) := by
  rw [always_iff]
  constructor
  · exact fun h => h.2 _ (.occurrence hocc)
  · refine fun h => ⟨fun _ hno => absurd hocc hno, ?_⟩
    rintro _ (_ | ⟨-, hno⟩)
    · exact h
    · exact absurd hocc hno

theorem always_other_iff (hle : p + old.length ≤ s.length) (hocc : ¬ OccursAt old s p) :
    Always (ScanStep s old) (CopyFits s old n) (p, k, e) ↔
      CopyFits s old n (p, k, e) ∧ Always (ScanStep s old) (CopyFits s old n) (p + 1, k, e) := by
  rw [always_iff]
  refine and_congr_right fun _ => ⟨fun h => h _ (.other hle hocc), ?_⟩
  rintro h _ (hyes | _)
  · exact absurd hyes hocc
  · exact h

end Scan

structure Copied (s old new : List UInt8) (k e : ℕ) (st : ReplaceState) : Prop where
  le : e ≤ st.p
  inside : st.p ≤ s.length
  length : st.out.length + k * old.length = st.p + k * new.length
  cap : ∃ j, st.cap = s.length * 2 ^ j ∧
    (j = 0 ∨ s.length * 2 ^ (j - 1) + k * old.length < e + k * new.length)
  enough : e + k * new.length ≤ st.cap + k * old.length
  room : st.room = st.cap + 1
  fits : st.out.length ≤ st.room
  out : st.out ++ replaceAll old new (s.drop st.p) = replaceAll old new s

section Rounds

variable {s old new : List UInt8} {k e : ℕ} {st : ReplaceState}

theorem Copied.start (s old new : List UInt8) :
    Copied s old new 0 0 ⟨0, s.length, s.length + 1, []⟩ where
  le := Nat.le_refl 0
  inside := Nat.zero_le _
  length := by rw [Nat.zero_mul, Nat.zero_mul]; rfl
  cap := ⟨0, (Nat.mul_one _).symm, .inl rfl⟩
  enough := by rw [Nat.zero_mul, Nat.zero_mul]; exact Nat.zero_le _
  room := rfl
  fits := Nat.zero_le _
  out := rfl

/-- `__check_buf` doubles the buffer until there is room for `m` bytes. -/
theorem reaches_grow {p m : ℕ} {out : List UInt8}
    (hround : ∀ cap, cap < m → replaceRound s old new ⟨p, cap, cap + 1, out⟩ =
      ReplaceState.grow ⟨p, cap, cap + 1, out⟩) (cap : ℕ) (hpos : 0 < cap)
    (hout : out.length ≤ cap + 1) :
    ∃ i, (i = 0 ∨ cap * 2 ^ (i - 1) < m) ∧ m ≤ cap * 2 ^ i ∧
      Reaches (replaceRound s old new) ⟨p, cap, cap + 1, out⟩
        ⟨p, cap * 2 ^ i, cap * 2 ^ i + 1, out⟩ := by
  rcases Nat.lt_or_ge cap m with hlt | hge
  · have hstep : replaceRound s old new ⟨p, cap, cap + 1, out⟩ =
        .inl ⟨p, cap * 2, cap * 2 + 1, out⟩ :=
      (hround cap hlt).trans (if_pos (by dsimp only; omega))
    obtain ⟨i, hlast, hm, hreach⟩ := reaches_grow hround (cap * 2) (by omega) (by omega)
    rw [Nat.mul_assoc, ← Nat.pow_succ'] at hm hreach
    refine ⟨i + 1, .inr ?_, hm, .head hstep hreach⟩
    rw [Nat.add_sub_cancel]
    rcases Nat.eq_zero_or_pos i with rfl | hi
    · rwa [Nat.pow_zero, Nat.mul_one]
    · have hlt := hlast.resolve_left hi.ne'
      rwa [Nat.mul_assoc, ← Nat.pow_succ', Nat.succ_eq_add_one, Nat.sub_add_cancel hi] at hlt
  · refine ⟨0, .inl rfl, ?_, ?_⟩
    · rwa [Nat.pow_zero, Nat.mul_one]
    · rw [Nat.pow_zero, Nat.mul_one]
      exact .refl
termination_by m - cap

theorem replaceRound_occurrence (new : List UInt8) {p : ℕ} (cap room : ℕ) (out : List UInt8)
    (hle : p + (cut old).length ≤ (cut s).length) (hocc : OccursAt (cut old) (cut s) p) :
    replaceRound s old new ⟨p, cap, room, out⟩ =
      if cap < out.length + strlen32 new then ReplaceState.grow ⟨p, cap, room, out⟩
      else if out.length + strlen32 new ≤ room then
        .inl ⟨p + strlen32 old, cap, room, out ++ cut new⟩
      else .inr none := by
  have hmatch := memcmpAt_natCast hle
  rw [length_cut, length_cut] at hle
  have hlt : p < strlen32 s - strlen32 old + 1 := by omega
  rw [replaceRound]
  dsimp only
  rw [if_pos hlt, hmatch, decide_eq_true hocc]
  rfl

theorem Copied.occurrence (h : Copied (cut s) (cut old) (cut new) k e st) (hold : cut old ≠ [])
    (hle : st.p + (cut old).length ≤ (cut s).length) (hocc : OccursAt (cut old) (cut s) st.p) :
    ∃ st', Reaches (replaceRound s old new) st st' ∧
      Copied (cut s) (cut old) (cut new) (k + 1) (st.p + (cut old).length) st' ∧
        st'.p = st.p + (cut old).length := by
  obtain ⟨p, cap, room, out⟩ := st
  obtain ⟨hep, hinside, hlength, ⟨j, hj, hneed⟩, henough, hroom, hfits, hout⟩ := h
  dsimp only at *
  have hposold := List.length_pos_iff.2 hold
  have hpos : 0 < cap := by
    rw [hj]
    exact Nat.mul_pos (by omega) (Nat.two_pow_pos j)
  subst hroom
  have hgrow : ∀ cap, cap < out.length + strlen32 new →
      replaceRound s old new ⟨p, cap, cap + 1, out⟩ =
        ReplaceState.grow ⟨p, cap, cap + 1, out⟩ := fun cap hlt =>
    (replaceRound_occurrence new cap (cap + 1) out hle hocc).trans (if_pos hlt)
  obtain ⟨i, hlast, hm, hreach⟩ := reaches_grow hgrow cap hpos hfits
  have hstep : replaceRound s old new ⟨p, cap * 2 ^ i, cap * 2 ^ i + 1, out⟩ =
      .inl ⟨p + (cut old).length, cap * 2 ^ i, cap * 2 ^ i + 1, out ++ cut new⟩ := by
    rw [replaceRound_occurrence new _ _ _ hle hocc, if_neg (Nat.not_lt.2 hm),
      if_pos (Nat.le_succ_of_le hm), length_cut]
  have hcap : cap * 2 ^ i = (cut s).length * 2 ^ (j + i) := by
    rw [hj, Nat.mul_assoc, ← Nat.pow_add]
  rw [← length_cut] at hlast hm
  refine ⟨_, hreach.tail hstep, ?_, rfl⟩
  constructor <;> dsimp only
  case le => exact Nat.le_refl _
  case inside => exact hle
  case length =>
    rw [List.length_append, Nat.succ_mul, Nat.succ_mul]
    omega
  case cap =>
    refine ⟨j + i, hcap, ?_⟩
    rw [Nat.succ_mul, Nat.succ_mul]
    rcases Nat.eq_zero_or_pos i with rfl | hi
    · rw [Nat.add_zero]
      refine hneed.imp_right fun hneed => ?_
      omega
    · have hlt := hlast.resolve_left hi.ne'
      rw [hj, Nat.mul_assoc, ← Nat.pow_add, show j + (i - 1) = j + i - 1 by omega] at hlt
      right
      omega
  case enough =>
    rw [Nat.succ_mul, Nat.succ_mul]
    omega
  case fits =>
    rw [List.length_append]
    omega
  case out =>
    rw [← hout, replaceAll_drop_of_occursAt hold hocc, List.append_assoc]

/-- A round at another position copies one byte, if there is room for it. -/
theorem replaceRound_other (new : List UInt8) {p : ℕ} (cap room : ℕ) (out : List UInt8)
    {c : UInt8} (hold : cut old ≠ [])
    (hle : p + (cut old).length ≤ (cut s).length) (hocc : ¬ OccursAt (cut old) (cut s) p)
    (hc : (cut s)[p]? = some c) :
    replaceRound s old new ⟨p, cap, room, out⟩ =
      if out.length < room then .inl ⟨p + 1, cap, room, out ++ [c]⟩ else .inr none := by
  have hmatch := memcmpAt_natCast hle
  have hposold := List.length_pos_iff.2 hold
  have hread : s[p]? = some c := (getElem?_cut (by omega)).symm.trans hc
  rw [length_cut, length_cut] at hle
  have hlt : p < strlen32 s - strlen32 old + 1 := by omega
  rw [replaceRound]
  dsimp only
  rw [if_pos hlt, hmatch, decide_eq_false hocc]
  dsimp only
  rw [hread]

theorem Copied.copyFits_iff (h : Copied s old new k e st)
    (hle : st.p + old.length ≤ s.length) (hocc : ¬ OccursAt old s st.p) :
    CopyFits s old new.length (st.p, k, e) ↔ st.out.length < st.room := by
  obtain ⟨j, hj, hneed⟩ := h.cap
  have hlength := h.length
  have henough := h.enough
  rw [h.room]
  constructor
  · intro hfits
    obtain ⟨i, hi, hroom⟩ := hfits hle hocc
    have hcap : s.length * 2 ^ i ≤ st.cap := by
      rw [hj]
      refine Nat.mul_le_mul_left _ (Nat.pow_le_pow_right (by decide) ?_)
      rcases hi with rfl | hi
      · exact Nat.zero_le j
      · have hlt : s.length * 2 ^ (i - 1) < s.length * 2 ^ j := by omega
        have hlt' := Nat.lt_of_mul_lt_mul_left hlt
        rw [Nat.pow_lt_pow_iff_right (by decide)] at hlt'
        omega
    omega
  · intro hlt _ _
    refine ⟨j, hneed, ?_⟩
    rw [← hj]
    omega

theorem Copied.other (h : Copied (cut s) (cut old) (cut new) k e st) (hold : cut old ≠ [])
    (hle : st.p + (cut old).length ≤ (cut s).length) (hocc : ¬ OccursAt (cut old) (cut s) st.p) :
    (st.out.length < st.room ∧ ∃ st', replaceRound s old new st = .inl st' ∧
        Copied (cut s) (cut old) (cut new) k e st' ∧ st'.p = st.p + 1) ∨
      (¬ st.out.length < st.room ∧ replaceRound s old new st = .inr none) := by
  have hposold := List.length_pos_iff.2 hold
  obtain ⟨c, hc⟩ : ∃ c, (cut s)[st.p]? = some c := ⟨_, List.getElem?_eq_getElem (by omega)⟩
  have hround := replaceRound_other new st.cap st.room st.out hold hle hocc hc
  by_cases hlt : st.out.length < st.room
  · refine .inl ⟨hlt, _, hround.trans (if_pos hlt), ?_, rfl⟩
    constructor <;> dsimp only
    case le => exact Nat.le_succ_of_le h.le
    case inside => omega
    case length =>
      have hlength := h.length
      rw [List.length_append, List.length_singleton]
      omega
    case cap => exact h.cap
    case enough => exact h.enough
    case room => exact h.room
    case fits =>
      rw [List.length_append, List.length_singleton]
      exact hlt
    case out =>
      rw [← h.out, replaceAll_drop_of_not hc hocc, List.append_assoc, List.singleton_append]
  · exact .inr ⟨hlt, hround.trans (if_neg hlt)⟩

/-- Behind the last position at which `old` fits, the rest is copied. -/
theorem Copied.ends_rest (h : Copied (cut s) (cut old) (cut new) k e st) (hold : cut old ≠ [])
    (hle : (cut old).length ≤ (cut s).length)
    (hlt : (cut s).length < st.p + (cut old).length) :
    Ends (replaceRound s old new) st (some (replaceAll (cut old) (cut new) (cut s))) := by
  obtain ⟨p, cap, room, out⟩ := st
  obtain ⟨-, hinside, -, ⟨j, hj, -⟩, -, hroom, hfits, hout⟩ := h
  dsimp only at *
  subst hroom
  have hposold := List.length_pos_iff.2 hold
  have hpos : 0 < cap := by
    rw [hj]
    exact Nat.mul_pos (by omega) (Nat.two_pow_pos j)
  have hslt : strlen32 s < 2 ^ 32 := Nat.mod_lt _ (by decide)
  have hs := length_cut s
  have ht := length_cut old
  have hremain : (strlen32 s + 2 ^ 32 - p) % 2 ^ 32 = strlen32 s - p := by omega
  have hround : ∀ cap : ℕ, replaceRound s old new ⟨p, cap, cap + 1, out⟩ =
      if cap < out.length + (strlen32 s - p) then ReplaceState.grow ⟨p, cap, cap + 1, out⟩
      else if out.length + (strlen32 s - p) + 1 ≤ cap + 1 then
        .inr (some (out ++ (s.drop p).take (strlen32 s - p)))
      else .inr none := by
    intro cap
    have hno : ¬ p < strlen32 s - strlen32 old + 1 := by omega
    rw [replaceRound]
    dsimp only
    rw [if_neg hno, hremain]
  obtain ⟨i, -, hm, hreach⟩ := reaches_grow
    (fun cap hlt => (hround cap).trans (if_pos hlt)) cap hpos hfits
  have hlast : replaceRound s old new ⟨p, cap * 2 ^ i, cap * 2 ^ i + 1, out⟩ =
      .inr (some (out ++ (cut s).drop p)) := by
    rw [hround, if_neg (Nat.not_lt.2 hm), if_pos (Nat.succ_le_succ hm), cut, List.drop_take]
  have hshort : ((cut s).drop p).length < (cut old).length := by
    rw [List.length_drop]
    omega
  rw [replaceAll_of_length_lt hshort] at hout
  rw [← hout]
  exact hreach.ends (.of_result hlast)

theorem Copied.ends {k e : ℕ} {st : ReplaceState}
    (h : Copied (cut s) (cut old) (cut new) k e st) (hold : cut old ≠ [])
    (hle : (cut old).length ≤ (cut s).length) :
    (Always (ScanStep (cut s) (cut old)) (CopyFits (cut s) (cut old) (cut new).length)
          (st.p, k, e) ∧
        Ends (replaceRound s old new) st (some (replaceAll (cut old) (cut new) (cut s)))) ∨
      (¬ Always (ScanStep (cut s) (cut old)) (CopyFits (cut s) (cut old) (cut new).length)
          (st.p, k, e) ∧
        Ends (replaceRound s old new) st none) := by
  rcases Nat.lt_or_ge (cut s).length (st.p + (cut old).length) with hlt | hroom
  · exact .inl ⟨always_rest hold hlt, h.ends_rest hold hle hlt⟩
  have hposold := List.length_pos_iff.2 hold
  by_cases hocc : OccursAt (cut old) (cut s) st.p
  · obtain ⟨st', hreach, h', hp⟩ := h.occurrence hold hroom hocc
    have hrest := h'.ends hold hle
    rw [always_occurrence_iff hocc, hreach.ends_iff, hreach.ends_iff, ← hp]
    rw [← hp] at hrest
    exact hrest
  · rw [always_other_iff hroom hocc, h.copyFits_iff hroom hocc]
    rcases h.other hold hroom hocc with ⟨hfits, st', hround, h', hp⟩ | ⟨hfull, hround⟩
    · rw [and_iff_right hfits, Ends.step_iff hround, Ends.step_iff hround, ← hp]
      exact h'.ends hold hle
    · exact .inr ⟨fun hall => hfull hall.1, .of_result hround⟩
termination_by (cut s).length - st.p
decreasing_by
  · omega
  · omega

/-- A string of `2 ^ 32 - 1` bytes gets no buffer at all. -/
theorem ends_of_no_room (new : List UInt8) (hn : strlen32 s + 1 = 2 ^ 32) (hold : cut old ≠ [])
    (hle : (cut old).length ≤ (cut s).length) {p : ℕ} (hp : p ≤ (cut s).length) :
    Ends (replaceRound s old new) ⟨p, strlen32 s, 0, []⟩ none := by
  have hs := length_cut s
  have ht := length_cut old
  have hposold := List.length_pos_iff.2 hold
  have hw : strlen32 new < 2 ^ 32 := Nat.mod_lt _ (by decide)
  rcases Nat.lt_or_ge (cut s).length (p + (cut old).length) with hlt | hroom
  · have hno : ¬ p < strlen32 s - strlen32 old + 1 := by omega
    refine .of_result ?_
    rw [replaceRound]
    dsimp only [List.length_nil]
    rw [if_neg hno, if_neg (by omega), if_neg (by omega)]
  · by_cases hocc : OccursAt (cut old) (cut s) p
    · have hround := replaceRound_occurrence new (strlen32 s) 0 [] hroom hocc
      rw [List.length_nil, if_neg (by omega)] at hround
      by_cases hnew : strlen32 new = 0
      · rw [if_pos (by omega), List.nil_append, List.length_eq_zero_iff.1
          ((length_cut new).trans hnew)] at hround
        exact .of_step hround (ends_of_no_room new hn hold hle (by omega))
      · rw [if_neg (by omega)] at hround
        exact .of_result hround
    · obtain ⟨c, hc⟩ : ∃ c, (cut s)[p]? = some c := ⟨_, List.getElem?_eq_getElem (by omega)⟩
      have hround := replaceRound_other new (strlen32 s) 0 [] hold hroom hocc hc
      exact .of_result (hround.trans (if_neg (Nat.lt_irrefl 0)))
termination_by (cut s).length - p
decreasing_by omega

end Rounds

section Replace

variable {s old new : Cstring}

/-- In the trivial case the string is returned, if it can be copied. -/
theorem replace_trivial_iff (htriv : strlen32 old.bytes = 0 ∨
    strlen32 s.bytes < strlen32 old.bytes) :
    Replace s old new (some (replaceAll old.bytes new.bytes s.bytes)) ↔
      s.bytes.length + 1 < 2 ^ 32 := by
  have hle : strlen32 old.bytes ≤ old.bytes.length := Nat.mod_le _ _
  unfold Replace
  dsimp only
  rw [if_pos htriv]
  have hroom : s.bytes.length + 1 ≤ (strlen32 s.bytes + 1) % 2 ^ 32 ↔
      s.bytes.length + 1 < 2 ^ 32 := by
    rw [strlen32]
    omega
  constructor
  · intro h
    by_contra hlong
    rw [if_neg (mt hroom.1 hlong)] at h
    cases h
  · intro h
    rw [if_pos (hroom.2 h)]
    by_cases hold : old.bytes = []
    · rw [hold, replaceAll_nil_old]
    · have hpos := List.length_pos_iff.2 hold
      rw [replaceAll_of_length_lt]
      rw [strlen32, strlen32] at htriv
      omega

/-- The result is right, and everything is written into the buffer, if and only if nothing is to
be replaced and the string can be copied; or each byte that is copied alone has room, and the
strings, as far as their lengths in an `unsigned int` go, have the same result. -/
theorem replace_iff :
    Replace s old new (some (replaceAll old.bytes new.bytes s.bytes)) ↔
      (strlen32 old.bytes = 0 ∨ strlen32 s.bytes < strlen32 old.bytes) ∧
          s.bytes.length + 1 < 2 ^ 32 ∨
        ¬ (strlen32 old.bytes = 0 ∨ strlen32 s.bytes < strlen32 old.bytes) ∧
          strlen32 s.bytes + 1 < 2 ^ 32 ∧
            Always (ScanStep (cut s.bytes) (cut old.bytes))
              (CopyFits (cut s.bytes) (cut old.bytes) (cut new.bytes).length) (0, 0, 0) ∧
            replaceAll (cut old.bytes) (cut new.bytes) (cut s.bytes) =
              replaceAll old.bytes new.bytes s.bytes := by
  by_cases htriv : strlen32 old.bytes = 0 ∨ strlen32 s.bytes < strlen32 old.bytes
  · rw [replace_trivial_iff htriv, and_iff_right htriv, or_iff_left fun h => h.1 htriv]
  rw [or_iff_right fun h => htriv h.1, and_iff_right htriv]
  have hold : cut old.bytes ≠ [] := by
    intro hnil
    have hlen := length_cut old.bytes
    rw [hnil] at hlen
    exact htriv (.inl hlen.symm)
  have hle : (cut old.bytes).length ≤ (cut s.bytes).length := by
    rw [length_cut, length_cut]
    omega
  have hslt : strlen32 s.bytes < 2 ^ 32 := Nat.mod_lt _ (by decide)
  unfold Replace
  dsimp only
  rw [if_neg htriv]
  by_cases hn : strlen32 s.bytes + 1 < 2 ^ 32
  · rw [and_iff_right hn, Nat.mod_eq_of_lt hn]
    have hstart := Copied.start (cut s.bytes) (cut old.bytes) (cut new.bytes)
    rw [length_cut] at hstart
    rcases hstart.ends hold hle with ⟨hall, hends⟩ | ⟨hall, hends⟩
    · constructor
      · exact fun h => ⟨hall, Option.some.inj (hends.unique h)⟩
      · rintro ⟨-, heq⟩
        rw [← heq]
        exact hends
    · constructor
      · exact fun h => nomatch hends.unique h
      · exact fun h => absurd h.1 hall
  · have hends := ends_of_no_room new.bytes (by omega) hold hle (Nat.zero_le _)
    rw [show (strlen32 s.bytes + 1) % 2 ^ 32 = 0 by omega]
    exact iff_of_false (fun h => nomatch hends.unique h) fun h => hn h.1

end Replace

/-- The third byte of "abcd" is copied behind the end of a buffer of five bytes. -/
theorem not_replace_abcd :
    ¬ ∀ s old new : Cstring,
      Replace s old new (some (replaceAll old.bytes new.bytes s.bytes)) := by
  intro h
  have hrun := h ⟨[97, 98, 99, 100], by decide⟩ ⟨[97], by decide⟩ ⟨[120, 120, 120, 120], by decide⟩
  have hover : Replace ⟨[97, 98, 99, 100], by decide⟩ ⟨[97], by decide⟩
      ⟨[120, 120, 120, 120], by decide⟩ none := ⟨3, rfl⟩
  exact nomatch Ends.unique hrun hover

end Ylext

end Ylisp
