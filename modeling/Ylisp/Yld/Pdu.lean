import Mathlib.Data.List.Basic
import Ylisp.Yld.Dynb

/-!
# Packets

The packets of `pdu.c`: a command, a colon and data. `pdu_build` writes one into a
buffer, and `pdu_parser` takes one apart into two. Lengths are of type `unsigned int`,
and the position of the delimiter is an `int`.
-/

namespace Ylisp

namespace Yld

open Dynb

variable (mem : ℕ → Bool)

def cmdDelimieter : UInt8 := ':'.toUInt8

/-- `_find_delimiter_pos` from the position `i` on: the position, or no position for the
value -1. There is no result when `i` passes the largest `int`. -/
def findDelimiterPos : ℕ → List UInt8 → Option (Option ℕ)
  | _, [] => some none
  | i, c :: stream =>
      if c = cmdDelimieter then some (some i)
      else if i + 1 < 2 ^ 31 then findDelimiterPos (i + 1) stream
      else none

def strlen (s : List UInt8) : ℕ := (s.takeWhile (· ≠ 0)).length

def pduBuild (b : Dynb) (cmd data : List UInt8) (sz : UInt32) : Option Dynb := do
  let b ← b.yldynbReset.yldynbAppend mem (cmd.take (UInt32.ofNat (strlen cmd)).toNat)
  let b ← b.yldynbAppend mem [cmdDelimieter]
  b.yldynbAppend mem (data.take sz.toNat)

def pduParser (cmd data : Dynb) (pdu : List UInt8) (sz : UInt32) :
    Option (Option (Dynb × Dynb)) := do
  match ← findDelimiterPos 0 (pdu.take sz.toNat) with
  | none => some none
  | some i =>
      let cmd ← cmd.yldynbReset.yldynbAppend mem (pdu.take i)
      let cmd ← cmd.yldynbAppend mem [0]
      let data ← data.yldynbReset.yldynbAppend mem ((pdu.drop (i + 1)).take (sz.toNat - i - 1))
      some (some (cmd, data))

def build (b : Dynb) (cmd data : List UInt8) : Option Dynb :=
  pduBuild mem b cmd data (UInt32.ofNat data.length)

def parse (cmd data : Dynb) (pdu : List UInt8) : Option (Option (Dynb × Dynb)) :=
  pduParser mem cmd data pdu (UInt32.ofNat pdu.length)

section Find

variable {s pre post : List UInt8} {i : ℕ}

theorem find_absent (hs : cmdDelimieter ∉ s) (hi : i < 2 ^ 31) :
    findDelimiterPos i s = if i + s.length < 2 ^ 31 then some none else none := by
  induction s generalizing i with
  | nil => rw [findDelimiterPos, List.length_nil, Nat.add_zero, if_pos hi]
  | cons c s ih =>
      have hc : c ≠ cmdDelimieter := fun h => hs (by simp [h])
      have hs' : cmdDelimieter ∉ s := fun h => hs (by simp [h])
      rw [findDelimiterPos, if_neg hc, List.length_cons]
      by_cases hi' : i + 1 < 2 ^ 31
      · rw [if_pos hi', ih hs' hi', Nat.add_right_comm, Nat.add_assoc]
      · rw [if_neg hi', if_neg (by omega)]

theorem find_present (hs : cmdDelimieter ∉ pre) (hi : i < 2 ^ 31) :
    findDelimiterPos i (pre ++ cmdDelimieter :: post) =
      if i + pre.length < 2 ^ 31 then some (some (i + pre.length)) else none := by
  induction pre generalizing i with
  | nil =>
      rw [List.nil_append, findDelimiterPos, if_pos rfl, List.length_nil, Nat.add_zero, if_pos hi]
  | cons c pre ih =>
      have hc : c ≠ cmdDelimieter := fun h => hs (by simp [h])
      have hs' : cmdDelimieter ∉ pre := fun h => hs (by simp [h])
      rw [List.cons_append, findDelimiterPos, if_neg hc, List.length_cons]
      by_cases hi' : i + 1 < 2 ^ 31
      · rw [if_pos hi', ih hs' hi', Nat.add_assoc, Nat.add_comm 1]
      · rw [if_neg hi', if_neg (by omega)]

end Find

section Buffers

variable {mem} {b b₁ b₂ : Dynb}

theorem pow2_reset (hb : b.Pow2) : b.yldynbReset.Pow2 := hb

theorem strlen_append_zero {s : List UInt8} (h : 0 ∉ s) : strlen (s ++ [0]) = s.length := by
  have htake : (s ++ [0]).takeWhile (· ≠ 0) = s := by
    rw [List.takeWhile_append_of_pos]
    · simp
    · intro c hc
      have hne : c ≠ 0 := fun h0 => h (h0 ▸ hc)
      simpa using hne
  rw [strlen, htake]

theorem toNat_ofNat_length {s : List UInt8} (h : s.length < 2 ^ 32) :
    (UInt32.ofNat s.length).toNat = s.length := by
  rw [UInt32.toNat_ofNat']
  exact Nat.mod_eq_of_lt h

theorem build_iff (mem : ℕ → Bool) {b : Dynb} (hb : b.Pow2) {cmd data : List UInt8} (hcmd : 0 ∉ cmd)
    (hdata : data.length < 2 ^ 32) {out : List UInt8} :
    (∃ b', build mem b (cmd ++ [0]) data = some b' ∧ b'.bytes = out) ↔
      Grows mem b.limit ((cmd.take (cmd.length % 2 ^ 32)).length + 1 + data.length) ∧
        out = cmd.take (cmd.length % 2 ^ 32) ++ cmdDelimieter :: data := by
  have hlen : (UInt32.ofNat (strlen (cmd ++ [0]))).toNat = cmd.length % 2 ^ 32 := by
    rw [strlen_append_zero hcmd, UInt32.toNat_ofNat']
  have htake : (cmd ++ [0]).take (cmd.length % 2 ^ 32) = cmd.take (cmd.length % 2 ^ 32) :=
    List.take_append_of_le_length (Nat.mod_le _ _)
  have hbuild : build mem b (cmd ++ [0]) data =
      b.yldynbReset.appends mem [cmd.take (cmd.length % 2 ^ 32), [cmdDelimieter], data] := by
    rw [build, pduBuild, hlen, htake, toNat_ofNat_length hdata, List.take_length]
    simp only [appends, Option.bind_eq_bind, Option.bind_fun_some]
  rw [hbuild, appends_iff mem (pow2_reset hb)]
  have hflat : ([cmd.take (cmd.length % 2 ^ 32), [cmdDelimieter], data] : List (List UInt8)).flatten
      = cmd.take (cmd.length % 2 ^ 32) ++ cmdDelimieter :: data := by simp
  have hsize : (b.yldynbReset.bytes).length +
      (cmd.take (cmd.length % 2 ^ 32) ++ cmdDelimieter :: data).length =
        (cmd.take (cmd.length % 2 ^ 32)).length + 1 + data.length := by
    rw [List.length_append, List.length_cons]
    show 0 + _ = _
    omega
  rw [hflat, hsize]
  rfl

theorem parse_absent {cmd data : Dynb} {pdu : List UInt8} (hpdu : pdu.length < 2 ^ 32)
    (h : cmdDelimieter ∉ pdu) :
    parse mem cmd data pdu = if pdu.length < 2 ^ 31 then some none else none := by
  rw [parse, pduParser, toNat_ofNat_length hpdu, List.take_length,
    find_absent h (Nat.two_pow_pos 31), Nat.zero_add]
  split <;> rfl

theorem parse_present {cmd data : Dynb} {pre post : List UInt8}
    (hpdu : (pre ++ cmdDelimieter :: post).length < 2 ^ 32) (h : cmdDelimieter ∉ pre) :
    parse mem cmd data (pre ++ cmdDelimieter :: post) =
      if pre.length < 2 ^ 31 then
        (cmd.yldynbReset.appends mem [pre, [0]]).bind fun c =>
          (data.yldynbReset.appends mem [post]).bind fun d => some (some (c, d))
      else none := by
  have hpre : (pre ++ cmdDelimieter :: post).take pre.length = pre := by simp
  have hdrop : (pre ++ cmdDelimieter :: post).drop (pre.length + 1) = post := by
    rw [← List.drop_drop, List.drop_left, List.drop_succ_cons, List.drop_zero]
  have hpost : ((pre ++ cmdDelimieter :: post).drop (pre.length + 1)).take
      ((pre ++ cmdDelimieter :: post).length - pre.length - 1) = post := by
    rw [hdrop]
    simp
  rw [parse, pduParser, toNat_ofNat_length hpdu, List.take_length,
    find_present h (Nat.two_pow_pos 31), Nat.zero_add]
  split
  · simp only [appends, Option.bind_eq_bind, Option.bind_fun_some, Option.bind_some, hpre, hpost,
      Option.bind_assoc]
  · rfl

theorem parse_iff {cmd data : Dynb} (hc : cmd.Pow2) (hd : data.Pow2) {pre post : List UInt8}
    (hpdu : (pre ++ cmdDelimieter :: post).length < 2 ^ 32) (h : cmdDelimieter ∉ pre)
    {s t : List UInt8} :
    (∃ c d, parse mem cmd data (pre ++ cmdDelimieter :: post) = some (some (c, d)) ∧
        c.bytes = s ∧ d.bytes = t) ↔
      pre.length < 2 ^ 31 ∧ (Grows mem cmd.limit (pre.length + 1) ∧ s = pre ++ [0]) ∧
        Grows mem data.limit post.length ∧ t = post := by
  have hcmd' : (∃ c, cmd.yldynbReset.appends mem [pre, [0]] = some c ∧ c.bytes = s) ↔
      Grows mem cmd.limit (pre.length + 1) ∧ s = pre ++ [0] := by
    rw [appends_iff mem (pow2_reset hc)]
    simp [yldynbReset]
  have hdata' : (∃ d, data.yldynbReset.appends mem [post] = some d ∧ d.bytes = t) ↔
      Grows mem data.limit post.length ∧ t = post := by
    rw [appends_iff mem (pow2_reset hd)]
    simp [yldynbReset]
  rw [parse_present hpdu h, ← hcmd', ← hdata']
  split
  next hlt =>
    simp only [hlt, true_and]
    constructor
    · rintro ⟨c, d, heq, hs, ht⟩
      obtain ⟨c', hc', heq⟩ := Option.bind_eq_some_iff.1 heq
      obtain ⟨d', hd', heq⟩ := Option.bind_eq_some_iff.1 heq
      cases heq
      exact ⟨⟨c, hc', hs⟩, d, hd', ht⟩
    · rintro ⟨⟨c, hc', hs⟩, d, hd', ht⟩
      refine ⟨c, d, ?_, hs, ht⟩
      rw [hc', Option.bind_some, hd', Option.bind_some]
  next hlt =>
    constructor
    · rintro ⟨c, d, heq, -⟩
      cases heq
    · exact fun hall => absurd hall.1 hlt

end Buffers

/-! ### Round trips -/

/-- A packet that is built from a command and data, and taken apart again. -/
def RoundTrip (b cmdb datab : Dynb) (cmd data : List UInt8) : Prop :=
  ∃ b' cmd' data', build mem b (cmd ++ [0]) data = some b' ∧
    parse mem cmdb datab b'.bytes = some (some (cmd', data')) ∧
      cmd'.bytes = cmd ++ [0] ∧ data'.bytes = data

/-- The parts of a packet, put together again. -/
def Rebuilds (b cmd data : Dynb) (pdu : List UInt8) : Prop :=
  ∃ b', build mem b cmd.bytes data.bytes = some b' ∧ b'.bytes = pdu

/-- A packet is rejected when it has no delimiter, and taken apart when it has one. -/
def Judged (cmdb datab : Dynb) (pdu : List UInt8) : Prop :=
  (cmdDelimieter ∉ pdu → parse mem cmdb datab pdu = some none) ∧
    (cmdDelimieter ∈ pdu →
      ∃ cmd data, parse mem cmdb datab pdu = some (some (cmd, data)))

section RoundTrips

variable {mem} {b cmdb datab : Dynb}

theorem exists_split {pdu : List UInt8} (h : cmdDelimieter ∈ pdu) :
    ∃ pre post, pdu = pre ++ cmdDelimieter :: post ∧ cmdDelimieter ∉ pre ∧
      pdu.idxOf cmdDelimieter = pre.length := by
  obtain ⟨pre, post, rfl, hnot⟩ := List.eq_append_cons_of_mem h
  refine ⟨pre, post, rfl, hnot, ?_⟩
  rw [List.idxOf_append_of_notMem hnot, List.idxOf_cons_self, Nat.add_zero]

theorem roundTrip_iff (hb : b.Pow2) (hc : cmdb.Pow2) (hd : datab.Pow2) {cmd data : List UInt8}
    (hdelim : cmdDelimieter ∉ cmd) (hzero : 0 ∉ cmd) (hdata : data.length < 2 ^ 32) :
    RoundTrip mem b cmdb datab cmd data ↔
      Grows mem b.limit (cmd.length + 1 + data.length) ∧
        Grows mem cmdb.limit (cmd.length + 1) ∧ Grows mem datab.limit data.length := by
  constructor
  · rintro ⟨b', cmd', data', hbuild, hparse, hcmd', hdata'⟩
    obtain ⟨hg, hbytes⟩ := (build_iff mem hb hzero hdata).1 ⟨b', hbuild, rfl⟩
    have hsize : (cmd.take (cmd.length % 2 ^ 32) ++ cmdDelimieter :: data).length < 2 ^ 32 := by
      have h31 := hg.1
      rw [List.length_append, List.length_cons]
      omega
    have hpre : cmdDelimieter ∉ cmd.take (cmd.length % 2 ^ 32) :=
      fun h => hdelim (List.mem_of_mem_take h)
    rw [hbytes] at hparse
    obtain ⟨-, ⟨hg₁, hs⟩, hg₂, -⟩ :=
      (parse_iff hc hd hsize hpre).1 ⟨cmd', data', hparse, hcmd', hdata'⟩
    rw [← List.append_cancel_right hs] at hg hg₁
    exact ⟨hg, hg₁, hg₂⟩
  · rintro ⟨hg, hg₁, hg₂⟩
    have h31 := hg.1
    have htake : cmd.take (cmd.length % 2 ^ 32) = cmd := by
      rw [Nat.mod_eq_of_lt (by omega), List.take_length]
    obtain ⟨b', hbuild, hbytes⟩ :=
      (build_iff mem hb hzero hdata).2 ⟨by rw [htake]; exact hg, rfl⟩
    rw [htake] at hbytes
    have hsize : (cmd ++ cmdDelimieter :: data).length < 2 ^ 32 := by
      rw [List.length_append, List.length_cons]
      omega
    obtain ⟨cmd', data', hparse, hcmd', hdata'⟩ :=
      (parse_iff hc hd hsize hdelim).2 ⟨by omega, ⟨hg₁, rfl⟩, hg₂, rfl⟩
    exact ⟨b', cmd', data', hbuild, hbytes ▸ hparse, hcmd', hdata'⟩

theorem rebuilds_iff (hb : b.Pow2) (hc : cmdb.Pow2) (hd : datab.Pow2) {pdu : List UInt8}
    {cmd data : Dynb} (hpdu : pdu.length < 2 ^ 32)
    (hparse : parse mem cmdb datab pdu = some (some (cmd, data)))
    (hzero : 0 ∉ cmd.bytes.dropLast) :
    Rebuilds mem b cmd data pdu ↔ Grows mem b.limit pdu.length := by
  by_cases hmem : cmdDelimieter ∈ pdu
  · obtain ⟨pre, post, rfl, hpre, -⟩ := exists_split hmem
    obtain ⟨hlt, ⟨-, hcmd⟩, -, hdata⟩ :=
      (parse_iff hc hd hpdu hpre).1 ⟨cmd, data, hparse, rfl, rfl⟩
    have hpost : post.length < 2 ^ 32 := by
      rw [List.length_append, List.length_cons] at hpdu
      omega
    rw [hcmd, List.dropLast_concat] at hzero
    have htake : pre.take (pre.length % 2 ^ 32) = pre := by
      rw [Nat.mod_eq_of_lt (by omega), List.take_length]
    rw [Rebuilds, hcmd, hdata, build_iff mem hb hzero hpost, htake, List.length_append,
      List.length_cons, Nat.add_assoc, Nat.add_comm 1]
    exact and_iff_left rfl
  · rw [parse_absent hpdu hmem] at hparse
    split at hparse <;> cases hparse

theorem judged_iff (hc : cmdb.Pow2) (hd : datab.Pow2) {pdu : List UInt8}
    (hpdu : pdu.length < 2 ^ 32) :
    Judged mem cmdb datab pdu ↔
      pdu.idxOf cmdDelimieter < 2 ^ 31 ∧
        (cmdDelimieter ∈ pdu → Grows mem cmdb.limit (pdu.idxOf cmdDelimieter + 1) ∧
          Grows mem datab.limit (pdu.length - (pdu.idxOf cmdDelimieter + 1))) := by
  by_cases hmem : cmdDelimieter ∈ pdu
  · obtain ⟨pre, post, rfl, hpre, hidx⟩ := exists_split hmem
    have hlen : (pre ++ cmdDelimieter :: post).length - (pre.length + 1) = post.length := by
      rw [List.length_append, List.length_cons]
      omega
    rw [Judged, hidx, hlen]
    simp only [hmem, not_true_eq_false, false_implies, true_and, true_implies]
    constructor
    · rintro ⟨cmd, data, hparse⟩
      obtain ⟨hlt, ⟨hg₁, -⟩, hg₂, -⟩ :=
        (parse_iff hc hd hpdu hpre).1 ⟨cmd, data, hparse, rfl, rfl⟩
      exact ⟨hlt, hg₁, hg₂⟩
    · rintro ⟨hlt, hg₁, hg₂⟩
      obtain ⟨cmd, data, hparse, -⟩ :=
        (parse_iff hc hd hpdu hpre).2 ⟨hlt, ⟨hg₁, rfl⟩, hg₂, rfl⟩
      exact ⟨cmd, data, hparse⟩
  · rw [Judged, List.idxOf_eq_length hmem, parse_absent hpdu hmem]
    simp only [hmem, not_false_eq_true, true_implies, false_implies, and_true]
    split
    next hlt => exact iff_of_true rfl hlt
    next hlt => exact iff_of_false (by simp) hlt

/-- `pdu_build` and `pdu_parser` are inverse to each other, and `pdu_parser` rejects
what has no delimiter, exactly where the buffers can grow to the sizes of the parts, and
the scan for the delimiter stays within the positions of type `int`. -/
theorem pdu_inverse_iff (mem : ℕ → Bool) {b cmdb datab : Dynb} (hb : b.Pow2) (hc : cmdb.Pow2)
    (hd : datab.Pow2) :
    (∀ cmd data, cmdDelimieter ∉ cmd → 0 ∉ cmd → data.length < 2 ^ 32 →
      (RoundTrip mem b cmdb datab cmd data ↔
        Grows mem b.limit (cmd.length + 1 + data.length) ∧
          Grows mem cmdb.limit (cmd.length + 1) ∧ Grows mem datab.limit data.length)) ∧
    (∀ pdu cmd data, pdu.length < 2 ^ 32 → parse mem cmdb datab pdu = some (some (cmd, data)) →
      0 ∉ cmd.bytes.dropLast → (Rebuilds mem b cmd data pdu ↔ Grows mem b.limit pdu.length)) ∧
    ∀ pdu, pdu.length < 2 ^ 32 →
      (Judged mem cmdb datab pdu ↔
        pdu.idxOf cmdDelimieter < 2 ^ 31 ∧
          (cmdDelimieter ∈ pdu → Grows mem cmdb.limit (pdu.idxOf cmdDelimieter + 1) ∧
            Grows mem datab.limit (pdu.length - (pdu.idxOf cmdDelimieter + 1)))) :=
  ⟨fun _ _ => roundTrip_iff hb hc hd, fun _ _ _ => rebuilds_iff hb hc hd,
    fun _ => judged_iff hc hd⟩

/-- The request of a client, with a colon in its data. -/
theorem pdu_inverse_print :
    RoundTrip (fun _ => true) (yldynbInit (2 ^ 12)) (yldynbInit (2 ^ 8)) (yldynbInit (2 ^ 12))
      ['p'.toUInt8] [':'.toUInt8, 'x'.toUInt8] :=
  ((pdu_inverse_iff (fun _ => true) (pow2_init (by decide)) (pow2_init (by decide))
      (pow2_init (by decide))).1 ['p'.toUInt8] [':'.toUInt8, 'x'.toUInt8] (by decide) (by decide)
        (by decide)).2
    ⟨⟨by decide, fun _ _ _ => rfl⟩, ⟨by decide, fun _ _ _ => rfl⟩, ⟨by decide, fun _ _ _ => rfl⟩⟩

/-- With 2^31 bytes of data the buffer would have to double beyond 2^31. -/
theorem not_roundTrip_long :
    ¬ RoundTrip (fun _ => true) (yldynbInit (2 ^ 12)) (yldynbInit (2 ^ 8)) (yldynbInit (2 ^ 12))
      ['p'.toUInt8] (List.replicate (2 ^ 31) 0) := by
  have hlen : (List.replicate (2 ^ 31) (0 : UInt8)).length = 2 ^ 31 := List.length_replicate
  rw [roundTrip_iff (pow2_init (by decide)) (pow2_init (by decide)) (pow2_init (by decide))
    (by decide) (by decide) (by rw [hlen]; exact Nat.pow_lt_pow_right (by omega) (by omega)), hlen]
  rintro ⟨⟨hle, -⟩, -⟩
  rw [List.length_singleton] at hle
  omega

end RoundTrips

end Yld

end Ylisp
