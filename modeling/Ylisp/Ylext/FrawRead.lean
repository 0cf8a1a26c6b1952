import Ylisp.Yld.Failures

/-!
# `fraw-read`

The function reads into a buffer that it doubles each time a call of `read` fills it, until a
call does not. An `EAGAIN` empties the buffer, also of what the calls before have read.
-/

namespace Ylisp

namespace Ylext

open Yld Yldynb

open DynbOp (freesz_eq map_overlay expand_spec contents_congr length_contents)

/-- What a call of `read` gives: bytes, no one at the end of the file, or an error. -/
inductive ReadResult where
  | data (l : List UInt8)
  | eagain
  | error

/-- What the `i`-th call of `read` gives, when it is asked for `n` bytes. -/
structure Fd where
  read : ℕ → ℕ → ReadResult
  length_le : ∀ i n l, read i n = .data l → l.length ≤ n

/-- The bytes that a call has taken from the descriptor. -/
def ReadResult.bytes : ReadResult → List UInt8
  | data l => l
  | _ => []

def consumed (calls : List ReadResult) : List UInt8 := calls.flatMap ReadResult.bytes

/-- How `fraw_read` ends: with a binary, with nil, with a failure, or with an access outside of
its buffer. -/
inductive FrawEnd where
  | bin (d : List UInt8)
  | nil
  | fail
  | overrun

/-- The end of `fraw_read`, after its loop. -/
def frawEnd (dynb : Yldynb) : FrawEnd := if dynb.sz > 0 then .bin dynb.contents else .nil

/-- A round of the loop of `fraw_read`, after some calls of `read`. Each of them has been
followed by an allocation. What is asked for stays below `2 ^ 31`, so that `br`, an `int`, is
the number of bytes. -/
def frawRound (fd : Fd) (alloc : Alloc) :
    List ReadResult × Yldynb → List ReadResult × Yldynb ⊕ List ReadResult × FrawEnd
  | (calls, dynb) =>
      let br := fd.read calls.length dynb.yldynbFreesz
      let done (e : FrawEnd) : List ReadResult × Yldynb ⊕ List ReadResult × FrawEnd :=
        .inr (calls ++ [br], e)
      match br with
      | .eagain => done (frawEnd dynb.yldynbReset)
      | .error => done .fail
      | .data l =>
          match dynb.write dynb.sz l with
          | none => done .overrun
          | some b =>
              let dynb' : Yldynb := ⟨b.limit, (b.sz + l.length) % 2 ^ 32, b.b⟩
              if l.length < dynb.yldynbFreesz then done (frawEnd dynb')
              else match dynb'.yldynbExpand (alloc calls.length) with
                | .ret r dynb'' =>
                    if 0 > r then done .fail else .inl (calls ++ [br], dynb'')
                | _ => done .overrun

/-- `fraw_read` ends with `e` after these calls of `read`. The first allocation returns `m`. -/
def FrawRead (fd : Fd) (m : ℕ → UInt8) (alloc : Alloc) (calls : List ReadResult) (e : FrawEnd) :
    Prop :=
  Machine.Ends (frawRound fd alloc) ([], yldynbInit 4096 m) (calls, e)

/-- What is returned is all that has been taken. -/
def FrawEnd.Faithful (calls : List ReadResult) : FrawEnd → Prop
  | bin d => d = consumed calls
  | nil => consumed calls = []
  | fail => True
  | overrun => False

/-- The number of bytes that call `k` is asked for, when all calls before have filled the
buffer. -/
def asked (k : ℕ) : ℕ := 4096 * 2 ^ (k - 1)

def filled (k : ℕ) : ℕ := if k = 0 then 0 else 4096 * 2 ^ (k - 1)

/-- The first `k` calls all fill the buffer, and it can be doubled each time. -/
def Full (fd : Fd) (alloc : Alloc) (k : ℕ) : Prop :=
  ∀ i < k, (∃ l, fd.read i (asked i) = .data l ∧ l.length = asked i) ∧ (alloc i).isSome

theorem filled_add_asked (k : ℕ) : filled k + asked k = 4096 * 2 ^ k := by
  cases k with
  | zero => rfl
  | succ k =>
      rw [filled, if_neg (Nat.succ_ne_zero k), asked, Nat.add_sub_cancel, Nat.pow_succ]
      omega

theorem filled_succ (k : ℕ) : filled (k + 1) = 4096 * 2 ^ k := if_neg (Nat.succ_ne_zero k)

theorem filled_eq_zero_iff {k : ℕ} : filled k = 0 ↔ k = 0 := by
  cases k with
  | zero => exact iff_of_true rfl rfl
  | succ k =>
      rw [filled_succ]
      have hpos := Nat.two_pow_pos k
      omega

theorem limit_lt {k : ℕ} (hk : k < 20) : 4096 * 2 ^ k < 2 ^ 32 :=
  Nat.mul_lt_mul_of_pos_left (Nat.pow_lt_pow_right (by decide) hk) (by decide)

theorem consumed_concat (calls : List ReadResult) (r : ReadResult) :
    consumed (calls ++ [r]) = consumed calls ++ r.bytes := by
  rw [consumed, List.flatMap_append, List.flatMap_singleton]
  rfl

structure Filled (k : ℕ) (calls : List ReadResult) (dynb : Yldynb) : Prop where
  length : calls.length = k
  limit : dynb.limit = 4096 * 2 ^ k
  sz : dynb.sz = filled k
  contents : dynb.contents = consumed calls

section Rounds

variable {fd : Fd} {alloc : Alloc} {k : ℕ} {calls : List ReadResult} {dynb : Yldynb}
  {l : List UInt8}

theorem Filled.init (m : ℕ → UInt8) : Filled 0 [] (yldynbInit 4096 m) := ⟨rfl, rfl, rfl, rfl⟩

theorem Filled.valid (h : Filled k calls dynb) (hk : k < 20) : dynb.Valid := by
  have hadd := filled_add_asked k
  refine ⟨?_, ?_⟩
  · rw [h.sz, h.limit]
    omega
  · rw [h.limit]
    exact limit_lt hk

theorem Filled.freesz (h : Filled k calls dynb) (hk : k < 20) : dynb.yldynbFreesz = asked k := by
  have hadd := filled_add_asked k
  rw [freesz_eq (h.valid hk), h.limit, h.sz]
  omega

/-- The bytes of a call are stored behind those that are there. -/
theorem Filled.write (h : Filled k calls dynb) (hl : l.length ≤ asked k) :
    ∃ b, dynb.write dynb.sz l = some ⟨dynb.limit, dynb.sz, b⟩ ∧
      (List.range (dynb.sz + l.length)).map b = consumed (calls ++ [.data l]) := by
  have hadd := filled_add_asked k
  rw [consumed_concat, ← h.contents]
  by_cases hnil : l = []
  · refine ⟨dynb.b, if_pos hnil, ?_⟩
    rw [hnil]
    exact (List.append_nil _).symm
  · refine ⟨overlay dynb.b dynb.sz l, ?_, map_overlay _ _ _⟩
    rw [Yldynb.write, if_neg hnil, if_pos]
    rw [h.sz, h.limit]
    omega

/-- A call that does not fill the buffer is the last one. -/
theorem Filled.round_short (alloc : Alloc) (h : Filled k calls dynb) (hk : k < 20)
    (hread : fd.read k (asked k) = .data l) (hlt : l.length < asked k) :
    ∃ e, frawRound fd alloc (calls, dynb) = .inr (calls ++ [.data l], e) ∧
      e.Faithful (calls ++ [.data l]) := by
  obtain ⟨b, hw, hb⟩ := h.write (Nat.le_of_lt hlt)
  have hadd := filled_add_asked k
  have hlimit := limit_lt hk
  have hmod : (dynb.sz + l.length) % 2 ^ 32 = dynb.sz + l.length := by
    rw [h.sz]
    omega
  refine ⟨frawEnd ⟨dynb.limit, dynb.sz + l.length, b⟩, ?_, ?_⟩
  · rw [frawRound, h.length, h.freesz hk, hread]
    dsimp only
    rw [hw]
    dsimp only
    rw [if_pos hlt, hmod]
  · rw [frawEnd]
    split
    next hpos => exact hb
    next hzero =>
      have hempty : dynb.sz + l.length = 0 := Nat.eq_zero_of_not_pos hzero
      rw [hempty] at hb
      exact hb.symm

/-- A call that fills the buffer leads to an expansion. -/
theorem Filled.round_full (alloc : Alloc) (h : Filled k calls dynb) (hk : k < 20)
    (hread : fd.read k (asked k) = .data l) (hfull : l.length = asked k) :
    ∃ dynb' : Yldynb, dynb'.limit = 4096 * 2 ^ k ∧ dynb'.sz = 4096 * 2 ^ k ∧
      dynb'.contents = consumed (calls ++ [.data l]) ∧
        (∀ r dynb'', dynb'.yldynbExpand (alloc k) = .ret r dynb'' →
          frawRound fd alloc (calls, dynb) =
            if 0 > r then .inr (calls ++ [.data l], .fail)
            else .inl (calls ++ [.data l], dynb'')) ∧
          (dynb'.yldynbExpand (alloc k) = .overrun →
            frawRound fd alloc (calls, dynb) = .inr (calls ++ [.data l], .overrun)) := by
  obtain ⟨b, hw, hb⟩ := h.write (Nat.le_of_eq hfull)
  have hsum : dynb.sz + l.length = 4096 * 2 ^ k := by
    rw [h.sz, hfull]
    exact filled_add_asked k
  have hmod : (dynb.sz + l.length) % 2 ^ 32 = 4096 * 2 ^ k := by
    rw [hsum]
    exact Nat.mod_eq_of_lt (limit_lt hk)
  refine ⟨⟨dynb.limit, 4096 * 2 ^ k, b⟩, h.limit, rfl, ?_, fun r dynb'' he => ?_, fun he => ?_⟩
  · rw [← hb, hsum]
    rfl
  · rw [frawRound, h.length, h.freesz hk, hread]
    dsimp only
    rw [hw]
    dsimp only
    rw [if_neg (Nat.not_lt.2 (Nat.le_of_eq hfull.symm)), hmod, he]
  · rw [frawRound, h.length, h.freesz hk, hread]
    dsimp only
    rw [hw]
    dsimp only
    rw [if_neg (Nat.not_lt.2 (Nat.le_of_eq hfull.symm)), hmod, he]

end Rounds

section FrawRead

variable {fd : Fd} {alloc : Alloc} {k : ℕ} {calls : List ReadResult} {dynb : Yldynb}
  {l : List UInt8}

/-- No `EAGAIN` follows the calls that fill the buffer, from call `k` on, and they do not go on
until the limit wraps around. -/
def KeptFrom (fd : Fd) (alloc : Alloc) (k : ℕ) : Prop :=
  ∀ j, k ≤ j → 1 ≤ j → Full fd alloc j → j < 20 ∧ fd.read j (asked j) ≠ .eagain

theorem full_succ_iff : Full fd alloc (k + 1) ↔ Full fd alloc k ∧
    (∃ l, fd.read k (asked k) = .data l ∧ l.length = asked k) ∧ (alloc k).isSome :=
  Nat.forall_lt_succ_right

theorem Full.mono {j : ℕ} (h : Full fd alloc j) (hk : k ≤ j) : Full fd alloc k :=
  fun i hi => h i (Nat.lt_of_lt_of_le hi hk)

theorem keptFrom_iff (hfull : Full fd alloc k) (hk : k < 20) :
    KeptFrom fd alloc k ↔
      (1 ≤ k → fd.read k (asked k) ≠ .eagain) ∧ KeptFrom fd alloc (k + 1) := by
  constructor
  · intro h
    exact ⟨fun hpos => (h k (Nat.le_refl k) hpos hfull).2, fun j hj => h j (Nat.le_of_succ_le hj)⟩
  · rintro ⟨hfirst, hrest⟩ j hj hpos hj'
    rcases Nat.eq_or_lt_of_le hj with rfl | hlt
    · exact ⟨hk, hfirst hpos⟩
    · exact hrest j hlt hpos hj'

/-- The loop ends where a call does not fill the buffer, or the buffer cannot be doubled. -/
theorem Filled.round_last (h : Filled k calls dynb) (hfull : Full fd alloc k) (hk : k < 20)
    (hlast : ¬ Full fd alloc (k + 1)) :
    ∃ calls' e, frawRound fd alloc (calls, dynb) = .inr (calls', e) ∧
      (e.Faithful calls' ↔ (1 ≤ k → fd.read k (asked k) ≠ .eagain)) := by
  cases hread : fd.read k (asked k) with
  | data l =>
      have hdata : 1 ≤ k → ReadResult.data l ≠ .eagain := fun _ => nofun
      rcases Nat.lt_or_eq_of_le (fd.length_le k (asked k) l hread) with hlt | heq
      · obtain ⟨e, hround, hfaithful⟩ := h.round_short alloc hk hread hlt
        exact ⟨_, e, hround, iff_of_true hfaithful hdata⟩
      · obtain ⟨dynb', -, -, -, hret, -⟩ := h.round_full alloc hk hread heq
        have hnone : alloc k = none :=
          Option.not_isSome_iff_eq_none.1 fun hsome =>
            hlast (full_succ_iff.2 ⟨hfull, ⟨l, hread, heq⟩, hsome⟩)
        have hround := hret (-1) dynb' (by rw [hnone]; rfl)
        rw [if_pos (by decide)] at hround
        exact ⟨_, _, hround, iff_of_true trivial hdata⟩
  | eagain =>
      have hround : frawRound fd alloc (calls, dynb) = .inr (calls ++ [.eagain], .nil) := by
        rw [frawRound, h.length, h.freesz hk, hread]
        rfl
      refine ⟨_, _, hround, ?_⟩
      have hempty : consumed (calls ++ [.eagain]) = [] ↔ k = 0 := by
        rw [consumed_concat, ← h.contents, show ReadResult.eagain.bytes = [] from rfl,
          List.append_nil, ← List.length_eq_zero_iff, length_contents, h.sz, filled_eq_zero_iff]
      rw [FrawEnd.Faithful, hempty]
      exact ⟨fun hzero hpos => absurd hzero (Nat.ne_of_gt hpos),
        fun hne => Nat.eq_zero_of_not_pos fun hpos => hne hpos rfl⟩
  | error =>
      have hround : frawRound fd alloc (calls, dynb) = .inr (calls ++ [.error], .fail) := by
        rw [frawRound, h.length, h.freesz hk, hread]
      exact ⟨_, _, hround, iff_of_true trivial fun _ => nofun⟩

/-- After a call that fills it, the buffer is doubled. -/
theorem Filled.round_double (h : Filled k calls dynb) (hk : k < 19)
    (hnext : Full fd alloc (k + 1)) :
    ∃ calls' dynb', frawRound fd alloc (calls, dynb) = .inl (calls', dynb') ∧
      Filled (k + 1) calls' dynb' := by
  obtain ⟨-, ⟨l, hread, hlen⟩, hsome⟩ := full_succ_iff.1 hnext
  obtain ⟨dynb', hlimit, hsz, hcontents, hret, -⟩ :=
    h.round_full alloc (Nat.lt_succ_of_lt hk) hread hlen
  have hdouble : dynb'.limit * 2 % 2 ^ 32 = 4096 * 2 ^ (k + 1) := by
    rw [hlimit, Nat.mul_assoc, ← Nat.pow_succ]
    exact Nat.mod_eq_of_lt (limit_lt (Nat.succ_lt_succ hk))
  have hle : dynb'.sz ≤ dynb'.limit * 2 % 2 ^ 32 := by
    rw [hdouble, hsz]
    exact Nat.mul_le_mul_left _ (Nat.pow_le_pow_right (by decide) (Nat.le_succ k))
  obtain ⟨dynb'', he, hl, hsz', hbytes, -⟩ := expand_spec hsome hle
  have hround := hret 0 dynb'' he
  rw [if_neg (by decide)] at hround
  refine ⟨_, _, hround, ?_, hl.trans hdouble, ?_, ?_⟩
  · rw [List.length_append, h.length, List.length_singleton]
  · rw [hsz', hsz, filled_succ]
  · rw [← hcontents]
    exact contents_congr hsz' hbytes

theorem Filled.round_overrun (h : Filled 19 calls dynb) (hnext : Full fd alloc 20) :
    ∃ calls', frawRound fd alloc (calls, dynb) = .inr (calls', .overrun) := by
  obtain ⟨-, ⟨l, hread, hlen⟩, hsome⟩ := full_succ_iff.1 hnext
  obtain ⟨dynb', hlimit, hsz, -, -, hover⟩ := h.round_full alloc (by decide) hread hlen
  obtain ⟨m, hm⟩ := Option.isSome_iff_exists.1 hsome
  have he : dynb'.yldynbExpand (alloc 19) = .overrun := by
    rw [hm]
    refine if_neg ?_
    rw [hsz, hlimit]
    decide
  exact ⟨_, hover he⟩

/-- The run after `k` calls that have filled the buffer. -/
theorem Filled.ends (fd : Fd) (alloc : Alloc) {k : ℕ} {calls : List ReadResult}
    {dynb : Yldynb} (h : Filled k calls dynb) (hfull : Full fd alloc k) (hk : k < 20) :
    ∃ calls' e, Machine.Ends (frawRound fd alloc) (calls, dynb) (calls', e) ∧
      (e.Faithful calls' ↔ KeptFrom fd alloc k) := by
  by_cases hnext : Full fd alloc (k + 1)
  · rcases Nat.lt_or_eq_of_le (Nat.le_of_lt_succ hk) with hlt | rfl
    · obtain ⟨l, hread, -⟩ := (hnext k (Nat.lt_succ_self k)).1
      have hdata : 1 ≤ k → fd.read k (asked k) ≠ .eagain := fun _ => by
        rw [hread]
        exact nofun
      obtain ⟨calls₁, dynb₁, hround, h₁⟩ := h.round_double hlt hnext
      obtain ⟨calls', e, hends, hfaithful⟩ := h₁.ends fd alloc hnext (Nat.succ_lt_succ hlt)
      rw [keptFrom_iff hfull hk, and_iff_right hdata]
      exact ⟨calls', e, .of_step hround hends, hfaithful⟩
    · obtain ⟨calls', hround⟩ := h.round_overrun hnext
      refine ⟨calls', .overrun, .of_result hround, iff_of_false id fun hkept => ?_⟩
      exact absurd (hkept 20 (by decide) (by decide) hnext).1 (Nat.lt_irrefl 20)
  · obtain ⟨calls', e, hround, hfaithful⟩ := h.round_last hfull hk hnext
    have hrest : KeptFrom fd alloc (k + 1) := fun j hj _ hj' => absurd (hj'.mono hj) hnext
    rw [keptFrom_iff hfull hk, and_iff_left hrest]
    exact ⟨calls', e, .of_result hround, hfaithful⟩
termination_by 19 - k

/-- The result is all that has been taken from the descriptor if and only if no `EAGAIN` follows
calls that have all filled the buffer, at least one, and less than 20 of them do. -/
theorem frawRead_iff (m : ℕ → UInt8) :
    (∃ calls e, FrawRead fd m alloc calls e ∧ e.Faithful calls) ↔
      ∀ k, 1 ≤ k → Full fd alloc k → k < 20 ∧ fd.read k (asked k) ≠ .eagain := by
  obtain ⟨calls, e, hends, hfaithful⟩ :=
    (Filled.init m).ends fd alloc (fun _ => nofun) (by decide)
  have hkept : KeptFrom fd alloc 0 ↔
      ∀ k, 1 ≤ k → Full fd alloc k → k < 20 ∧ fd.read k (asked k) ≠ .eagain :=
    ⟨fun h k => h k (Nat.zero_le k), fun h k _ => h k⟩
  rw [← hkept, ← hfaithful]
  constructor
  · rintro ⟨calls', e', hends', hfaithful'⟩
    cases hends.unique hends'
    exact hfaithful'
  · exact fun h => ⟨calls, e, hends, h⟩

end FrawRead

/-- The first call fills the buffer, and the second one finds nothing to read. -/
theorem not_frawRead_faithful :
    ¬ ∀ (fd : Fd) (m : ℕ → UInt8) (alloc : Alloc) (calls : List ReadResult) (e : FrawEnd),
      FrawRead fd m alloc calls e → e.Faithful calls := by
  intro h
  let fd : Fd := ⟨fun i n => if i = 0 then .data (List.replicate n 7) else .eagain, by
    intro i n l hl
    split at hl
    · cases hl
      exact Nat.le_of_eq List.length_replicate
    · cases hl⟩
  let alloc : Alloc := fun _ => some fun _ => 0
  obtain ⟨calls, e, hends, hfaithful⟩ :=
    (Filled.init fun _ => 0).ends fd alloc (fun _ => nofun) (by decide)
  have hfull : Full fd alloc 1 := by
    intro i hi
    rw [Nat.lt_one_iff.1 hi]
    exact ⟨⟨_, rfl, List.length_replicate⟩, rfl⟩
  exact (hfaithful.1 (h _ _ _ _ _ hends) 1 (by decide) (by decide) hfull).2 rfl

end Ylext

end Ylisp
