import Mathlib.Algebra.Group.Nat.Defs
import Ylisp.Library.Machine

/-!
# Dynamic buffers

The buffers of `yldynb.h`. A limit is an `unsigned int`, so that the doubling of
`yldynb_expand` wraps around at 2^32; the copy into the new memory then writes past its
end unless the contents fit into what is left. `yldynb_append` looks for a negative
value of `yldynb_secure`, which returns 0 or 1: where the buffer could not grow, the
bytes are written past its end.

`mem n` says whether an allocation of `n` bytes succeeds. A buffer whose limit is a
power of two, as those of the packet code are, takes an append exactly when it `Grows`
to the new size (`append_spec`, `grows_of_append`).
-/

namespace Ylisp

namespace Yld

/-- `struct yldynb`: `bytes` are the first `sz` bytes at `b`. -/
structure Dynb where
  limit : ℕ
  bytes : List UInt8
  fits : bytes.length ≤ limit

namespace Dynb

variable (mem : ℕ → Bool)

def yldynbInit (initLimit : ℕ) : Dynb := ⟨initLimit, [], Nat.zero_le _⟩

def yldynbFreesz (b : Dynb) : ℕ := b.limit - b.bytes.length

def yldynbReset (b : Dynb) : Dynb := ⟨b.limit, [], Nat.zero_le _⟩

/-- How `yldynb_expand` ends; `overrun` is a copy past the end of the new memory. -/
inductive Expanded where
  | done (b : Dynb)
  | noMem
  | overrun

def yldynbExpand (b : Dynb) : Expanded :=
  if mem (b.limit * 2 % 2 ^ 32) then
    if h : b.bytes.length ≤ b.limit * 2 % 2 ^ 32 then .done ⟨b.limit * 2 % 2 ^ 32, b.bytes, h⟩
    else .overrun
  else .noMem

/-- One round of the loop of `yldynb_secure`. It ends with the buffer that it leaves
behind, whatever its limit, or with an overrun. -/
def secureStep (required : ℕ) (b : Dynb) : Dynb ⊕ Option Dynb :=
  if b.yldynbFreesz < required then
    match b.yldynbExpand mem with
    | .done b' => .inl b'
    | .noMem => .inr (some b)
    | .overrun => .inr none
  else .inr (some b)

/-- The rounds after which the loop of `yldynb_secure` has ended, or goes on for ever:
see `secure_run_none`. -/
def secureRounds : ℕ := 33

/-- `yldynb_append`; `none` where bytes are written past the end of a buffer, or where
the loop of `yldynb_secure` does not end. -/
def yldynbAppend (b : Dynb) (d : List UInt8) : Option Dynb :=
  match Machine.run (secureStep mem d.length) secureRounds b with
  | some (some b') =>
      if h : (b'.bytes ++ d).length ≤ b'.limit then some ⟨b'.limit, b'.bytes ++ d, h⟩ else none
  | _ => none

/-- The limit is a power of two, as `yldynb_init` sets it for packets. -/
def Pow2 (b : Dynb) : Prop := ∃ a < 32, b.limit = 2 ^ a

theorem pow2_init {a : ℕ} (ha : a < 32) : (yldynbInit (2 ^ a)).Pow2 := ⟨a, ha, rfl⟩

/-- A buffer with this limit can grow to hold `n` bytes: a power of two below 2^32 is
large enough, and the allocations on the way to it succeed. -/
def Grows (limit n : ℕ) : Prop :=
  n ≤ 2 ^ 31 ∧ ∀ j, limit < 2 ^ j → 2 ^ j < 2 * n → mem (2 ^ j) = true

section Secure

variable {mem} {b b' : Dynb} {n : ℕ}

theorem secureStep_inl (h : secureStep mem n b = .inl b') :
    b.yldynbFreesz < n ∧ mem (b.limit * 2 % 2 ^ 32) = true ∧
      b'.limit = b.limit * 2 % 2 ^ 32 ∧ b'.bytes = b.bytes := by
  rw [secureStep] at h
  split at h
  next hlt =>
    rw [yldynbExpand] at h
    split at h
    next b₁ he =>
      cases h
      split at he
      next hmem =>
        split at he
        · cases he
          exact ⟨hlt, hmem, rfl, rfl⟩
        · cases he
      next => cases he
    next => cases h
    next => cases h
  next => cases h

theorem secureStep_inr (h : secureStep mem n b = .inr (some b')) : b' = b := by
  rw [secureStep] at h
  split at h
  · split at h <;> cases h
    rfl
  · cases h
    rfl

theorem steps_limit {k : ℕ} (h : Machine.Steps (secureStep mem n) (k + 1) b b') :
    b'.limit = b.limit * 2 ^ (k + 1) % 2 ^ 32 := by
  induction k generalizing b with
  | zero =>
      obtain ⟨b₁, h1, rfl⟩ := h
      exact (secureStep_inl h1).2.2.1
  | succ k ih =>
      obtain ⟨b₁, h1, h2⟩ := h
      rw [ih h2, (secureStep_inl h1).2.2.1, Nat.mod_mul_mod, Nat.mul_assoc, ← Nat.pow_succ']

theorem secureStep_fixed (h : secureStep mem n b = .inl b') (hb : b.limit = 0) : b' = b := by
  obtain ⟨-, -, h1, h2⟩ := secureStep_inl h
  obtain ⟨limit, bytes, hfits⟩ := b
  obtain ⟨limit', bytes', hfits'⟩ := b'
  simp only at hb h1 h2
  subst hb
  subst h1
  subst h2
  rfl

/-- The loop that has not ended after `secureRounds` rounds never does: its limit is 0. -/
theorem secure_run_none (h : Machine.run (secureStep mem n) secureRounds b = none) :
    ∀ e, ¬ Machine.Ends (secureStep mem n) b e := by
  intro e he
  obtain ⟨b₁, h1⟩ := Machine.run_eq_none_iff.1 (Machine.run_none_of_le (Nat.le_succ 32) h)
  have hlimit : b₁.limit = 0 := by
    rw [steps_limit h1]
    exact Nat.mul_mod_left _ _
  have hnone : Machine.run (secureStep mem n) 1 b₁ = none := by
    rw [← h1.run_add]
    exact h
  obtain ⟨b₂, b₃, h2, -⟩ := Machine.run_eq_none_iff.1 hnone
  rw [secureStep_fixed h2 hlimit] at h2
  obtain ⟨k, hk⟩ := h1.ends_iff.1 he
  rw [Machine.run_of_fixed h2] at hk
  cases hk

theorem run_of_limit_zero {k : ℕ} (h : Machine.run (secureStep mem n) k b = some (some b'))
    (hb : b.limit = 0) : b' = b := by
  cases k with
  | zero => cases h
  | succ k =>
      cases hs : secureStep mem n b with
      | inl b₁ =>
          rw [secureStep_fixed hs hb] at hs
          rw [Machine.run_of_fixed hs] at h
          cases h
      | inr r =>
          rw [Machine.run, hs] at h
          cases h
          exact secureStep_inr hs

theorem grows_double {a : ℕ} (hn : 2 ^ a < n) :
    Grows mem (2 ^ a) n ↔ mem (2 ^ (a + 1)) = true ∧ Grows mem (2 ^ (a + 1)) n := by
  have hlt : 2 ^ a < 2 ^ (a + 1) := Nat.pow_lt_pow_right (by omega) (by omega)
  constructor
  · rintro ⟨h1, h2⟩
    refine ⟨h2 _ hlt ?_, h1, fun j hj => h2 j (Nat.lt_trans hlt hj)⟩
    rw [Nat.pow_succ]
    omega
  · rintro ⟨h1, h2, h3⟩
    refine ⟨h2, fun j hj hj' => ?_⟩
    have haj : a < j := (Nat.pow_lt_pow_iff_right (by omega)).1 hj
    rcases Nat.lt_or_ge (a + 1) j with hlt' | hge
    · exact h3 j (Nat.pow_lt_pow_right (by omega) hlt') hj'
    · rw [show j = a + 1 by omega]
      exact h1

theorem grows_of_le {a : ℕ} (ha : a < 32) (hn : n ≤ 2 ^ a) : Grows mem (2 ^ a) n := by
  have hle : 2 ^ a ≤ 2 ^ 31 := Nat.pow_le_pow_right (by omega) (by omega)
  refine ⟨Nat.le_trans hn hle, fun j hj hj' => ?_⟩
  have haj : a + 1 ≤ j := (Nat.pow_lt_pow_iff_right (by omega)).1 hj
  have hle' : 2 ^ (a + 1) ≤ 2 ^ j := Nat.pow_le_pow_right (by omega) haj
  rw [Nat.pow_succ] at hle'
  omega

theorem Grows.mono {limit n' : ℕ} (h : Grows mem limit n') (hn : n ≤ n') : Grows mem limit n :=
  ⟨Nat.le_trans hn h.1, fun j hj hj' => h.2 j hj (by omega)⟩

theorem secure_bytes {k : ℕ} (h : Machine.run (secureStep mem n) k b = some (some b')) :
    b'.bytes = b.bytes := by
  induction k generalizing b with
  | zero => cases h
  | succ k ih =>
      rw [Machine.run] at h
      cases hs : secureStep mem n b with
      | inr r =>
          rw [hs] at h
          cases h
          rw [secureStep_inr hs]
      | inl b₁ =>
          rw [hs] at h
          rw [ih h, (secureStep_inl hs).2.2.2]

theorem secureStep_room (h : b.bytes.length + n ≤ b.limit) :
    secureStep mem n b = .inr (some b) := by
  have hfree : ¬ b.yldynbFreesz < n := by
    unfold yldynbFreesz
    omega
  rw [secureStep, if_neg hfree]

theorem double_limit {a : ℕ} (ha : a < 31) : 2 ^ a * 2 % 2 ^ 32 = 2 ^ (a + 1) := by
  rw [← Nat.pow_succ]
  exact Nat.mod_eq_of_lt (Nat.pow_lt_pow_right (by omega) (by omega))

theorem secureStep_double {a : ℕ} (ha : a < 31) (hl : b.limit = 2 ^ a)
    (hn : 2 ^ a < b.bytes.length + n) (hm : mem (2 ^ (a + 1)) = true) :
    ∃ b₁, secureStep mem n b = .inl b₁ ∧ b₁.limit = 2 ^ (a + 1) ∧ b₁.bytes = b.bytes := by
  have hb := b.fits
  rw [hl] at hb
  have hfree : b.yldynbFreesz < n := by
    unfold yldynbFreesz
    omega
  have hfits : b.bytes.length ≤ 2 ^ (a + 1) := by
    rw [Nat.pow_succ]
    omega
  rw [secureStep, if_pos hfree, yldynbExpand]
  simp only [hl, double_limit ha, hm, hfits, if_true, dite_true]
  exact ⟨_, rfl, rfl, rfl⟩

theorem secure_grows {k : ℕ} (h : Machine.run (secureStep mem n) k b = some (some b'))
    (hb : b.Pow2) (hle : b.bytes.length + n ≤ b'.limit) :
    Grows mem b.limit (b.bytes.length + n) := by
  obtain ⟨a, ha, hl⟩ := hb
  induction k generalizing a b with
  | zero => cases h
  | succ k ih =>
      rw [hl]
      by_cases hn : b.bytes.length + n ≤ 2 ^ a
      · exact grows_of_le ha hn
      rw [Machine.run] at h
      cases hs : secureStep mem n b with
      | inr r =>
          rw [hs] at h
          cases h
          rw [secureStep_inr hs, hl] at hle
          exact absurd hle hn
      | inl b₁ =>
          rw [hs] at h
          obtain ⟨hfree, hmem, hl₁, hb₁⟩ := secureStep_inl hs
          rw [hl] at hl₁ hmem
          rcases Nat.lt_or_ge a 31 with ha' | ha'
          · rw [double_limit ha'] at hl₁ hmem
            rw [← hb₁] at hle ⊢
            have hg := ih h hle (a + 1) (by omega) hl₁
            rw [hl₁] at hg
            exact (grows_double (by rw [hb₁]; omega)).2 ⟨hmem, hg⟩
          · have h0 : b₁.limit = 0 := by
              rw [hl₁, show a = 31 by omega]
              rfl
            have hb' := run_of_limit_zero h h0
            rw [hb', h0, ← hb₁] at hle
            omega

theorem secure_spec {a k : ℕ} (ha : a < 32) (hl : b.limit = 2 ^ a) (hk : 32 - a ≤ k)
    (hg : Grows mem b.limit (b.bytes.length + n)) :
    ∃ b', Machine.run (secureStep mem n) k b = some (some b') ∧ b'.bytes = b.bytes ∧ b'.Pow2 ∧
      b.bytes.length + n ≤ b'.limit ∧
      ∀ m, b.bytes.length + n ≤ m → (Grows mem b'.limit m ↔ Grows mem b.limit m) := by
  induction k generalizing a b with
  | zero => omega
  | succ k ih =>
      rw [Machine.run]
      by_cases hn : b.bytes.length + n ≤ 2 ^ a
      · rw [secureStep_room (hl ▸ hn)]
        exact ⟨b, rfl, rfl, ⟨a, ha, hl⟩, hl ▸ hn, fun m _ => Iff.rfl⟩
      · rw [Nat.not_le] at hn
        have ha' : a < 31 := by
          rcases Nat.lt_or_ge a 31 with h | h
          · exact h
          · have h31 := hg.1
            rw [show a = 31 by omega] at hn
            omega
        rw [hl, grows_double hn] at hg
        obtain ⟨b₁, hs, hl₁, hb₁⟩ := secureStep_double ha' hl hn hg.1
        rw [hs]
        obtain ⟨b', hrun, hbytes, hpow, hroom, hsame⟩ :=
          ih (b := b₁) (by omega) hl₁ (by omega) (by rw [hl₁, hb₁]; exact hg.2)
        rw [hb₁] at hbytes hroom hsame
        refine ⟨b', hrun, hbytes, hpow, hroom, fun m hm => ?_⟩
        rw [hsame m hm, hl, hl₁, grows_double (Nat.lt_of_lt_of_le hn hm)]
        exact ⟨fun h => ⟨hg.1, h⟩, fun h => h.2⟩

end Secure

section Append

variable {mem} {b : Dynb} {d : List UInt8}

/-- A buffer with a power of two as its limit takes `d` when it can grow to the new
size, and can then grow further as before. -/
theorem append_spec (hb : b.Pow2) (hg : Grows mem b.limit (b.bytes.length + d.length)) :
    ∃ b', yldynbAppend mem b d = some b' ∧ b'.bytes = b.bytes ++ d ∧ b'.Pow2 ∧
      ∀ m, b.bytes.length + d.length ≤ m → (Grows mem b'.limit m ↔ Grows mem b.limit m) := by
  obtain ⟨a, ha, hl⟩ := hb
  obtain ⟨b', hrun, hbytes, hpow, hroom, hsame⟩ :=
    secure_spec (k := secureRounds) ha hl (Nat.le_trans (Nat.sub_le _ _) (by decide)) hg
  have hfits : (b'.bytes ++ d).length ≤ b'.limit := by
    rw [hbytes, List.length_append]
    exact hroom
  refine ⟨⟨b'.limit, b'.bytes ++ d, hfits⟩, ?_, congrArg (· ++ d) hbytes, hpow, hsame⟩
  rw [yldynbAppend, hrun]
  exact dif_pos hfits

theorem grows_of_append {b' : Dynb} (hb : b.Pow2) (h : yldynbAppend mem b d = some b') :
    Grows mem b.limit (b.bytes.length + d.length) := by
  rw [yldynbAppend] at h
  split at h
  next b₁ hrun =>
    split at h
    next hfits =>
      rw [List.length_append] at hfits
      have hbytes : b₁.bytes = b.bytes := secure_bytes hrun
      exact secure_grows hrun hb (hbytes ▸ hfits)
    next => cases h
  next => cases h

theorem grows_bytes (hb : b.Pow2) : Grows mem b.limit b.bytes.length := by
  obtain ⟨a, ha, hl⟩ := hb
  have hfits := b.fits
  rw [hl] at hfits ⊢
  exact grows_of_le ha hfits

def appends (mem : ℕ → Bool) (b : Dynb) : List (List UInt8) → Option Dynb
  | [] => some b
  | d :: ds => (b.yldynbAppend mem d).bind fun b => appends mem b ds

/-- They succeed together when the buffer can grow to hold all of the bytes. -/
theorem appends_iff (mem : ℕ → Bool) {b : Dynb} (hb : b.Pow2) {ds : List (List UInt8)}
    {out : List UInt8} :
    (∃ b', b.appends mem ds = some b' ∧ b'.bytes = out) ↔
      Grows mem b.limit (b.bytes.length + ds.flatten.length) ∧ out = b.bytes ++ ds.flatten := by
  induction ds generalizing b with
  | nil =>
      have hg : Grows mem b.limit b.bytes.length := grows_bytes hb
      simp [appends, hg, eq_comm]
  | cons d ds ih =>
      rw [appends, List.flatten_cons, List.length_append, ← Nat.add_assoc]
      constructor
      · rintro ⟨b', h, hout⟩
        cases hd : b.yldynbAppend mem d with
        | none =>
            rw [hd] at h
            cases h
        | some b₁ =>
            rw [hd] at h
            obtain ⟨b₂, h2, hbytes, hpow, hsame⟩ := append_spec hb (grows_of_append hb hd)
            rw [hd] at h2
            cases h2
            obtain ⟨hg, rfl⟩ := (ih hpow).1 ⟨b', h, hout⟩
            rw [hbytes, List.length_append] at hg
            rw [hsame _ (Nat.le_add_right _ _)] at hg
            exact ⟨hg, by rw [hbytes, List.append_assoc]⟩
      · rintro ⟨hg, rfl⟩
        obtain ⟨b₁, h1, hbytes, hpow, hsame⟩ := append_spec hb (hg.mono (Nat.le_add_right _ _))
        rw [h1]
        refine (ih hpow).2 ⟨?_, by rw [hbytes, List.append_assoc]⟩
        rw [hbytes, List.length_append, hsame _ (Nat.le_add_right _ _)]
        exact hg

end Append

end Dynb

end Yld

end Ylisp
