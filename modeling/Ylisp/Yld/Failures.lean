import Mathlib.Algebra.Group.Nat.Defs
import Ylisp.Library.Machine
import Ylisp.Yld.Dynb

/-!
# Dynamic buffers when allocations fail

The operations of `yldynb.h` and `yldynbstr_append`, with the memory behind a buffer and
with any pattern of allocation failures. An append that cannot get the room it needs writes
past the end of the buffer, since `yldynb_secure` answers 0 where a negative value is looked
for; `yldynbstr_append` has then already written over the trailing 0, and adds the length of
an earlier round to the size.

`Meets` is the condition under which an operation does what it promises, `Keeps`, and
`allSteps_keeps` is about every run whose operations meet it.
-/

namespace Ylisp

namespace Yld

/-- `struct yldynb`, with the memory from `b` on. -/
structure Yldynb where
  limit : ℕ
  sz : ℕ
  b : ℕ → UInt8

/-- How an operation ends: it returns, writes a byte at or behind the limit, or fails in an
assertion. -/
inductive Ended where
  | ret (r : ℤ) (b : Yldynb)
  | overrun
  | assertion

/-- The allocations of an operation: the `i`-th one fails, or returns memory with these
bytes in it. -/
abbrev Alloc := ℕ → Option (ℕ → UInt8)

namespace Yldynb

def contents (b : Yldynb) : List UInt8 := (List.range b.sz).map b.b

structure Valid (b : Yldynb) : Prop where
  sz : b.sz ≤ b.limit
  limit : b.limit < 2 ^ 32

def overlay (m : ℕ → UInt8) (p : ℕ) (d : List UInt8) : ℕ → UInt8 := fun i =>
  if i < p then m i else d[i - p]?.getD (m i)

/-- Write the bytes `d` from `p` on; `none` if one of them is at or behind the limit. -/
def write (b : Yldynb) (p : ℕ) (d : List UInt8) : Option Yldynb :=
  if d = [] then some b
  else if p + d.length ≤ b.limit then some ⟨b.limit, b.sz, overlay b.b p d⟩ else none

def yldynbFreesz (b : Yldynb) : ℕ := (b.limit + 2 ^ 32 - b.sz) % 2 ^ 32

def yldynbInit (initLimit : ℕ) (m : ℕ → UInt8) : Yldynb := ⟨initLimit, 0, m⟩

def yldynbstrInit (initLimit : ℕ) (m : ℕ → UInt8) : Yldynb := ⟨initLimit + 1, 1, overlay m 0 [0]⟩

def yldynbReset (b : Yldynb) : Yldynb := ⟨b.limit, 0, b.b⟩

def yldynbExpand (m : Option (ℕ → UInt8)) (b : Yldynb) : Ended :=
  match m with
  | none => .ret (-1) b
  | some m =>
      if b.sz ≤ b.limit * 2 % 2 ^ 32 then
        .ret 0 ⟨b.limit * 2 % 2 ^ 32, b.sz, overlay m 0 b.contents⟩
      else .overrun

def yldynbShrink (m : Option (ℕ → UInt8)) (szTo : ℕ) (b : Yldynb) : Ended :=
  if b.limit > szTo ∧ b.sz < szTo then
    match m with
    | none => .ret (-1) b
    | some m => .ret 0 ⟨szTo, b.sz, overlay m 0 b.contents⟩
  else .ret (-1) b

/-- A round of the loop of `yldynb_secure`, after `i` allocations. -/
def secureStep (alloc : Alloc) (szRequired : ℕ) (s : ℕ × Yldynb) : ℕ × Yldynb ⊕ Ended :=
  let secured (b : Yldynb) : Ended := .ret (if szRequired ≤ b.yldynbFreesz then 1 else 0) b
  if szRequired > s.2.yldynbFreesz then
    match s.2.yldynbExpand (alloc s.1) with
    | .ret r b => if r = 0 then .inl (s.1 + 1, b) else .inr (secured b)
    | e => .inr e
  else .inr (secured s.2)

/-- The rest of `yldynb_append`, after `yldynb_secure`. -/
def appendEnd (d : List UInt8) : Ended → Ended
  | .ret r b =>
      if 0 > r then .ret (-1) b
      else match b.write b.sz d with
        | some b => .ret 0 ⟨b.limit, (b.sz + d.length) % 2 ^ 32, b.b⟩
        | none => .overrun
  | e => e

/-- What `vsnprintf` stores of a text in `n` bytes. -/
def stored (n : ℕ) (text : List UInt8) : List UInt8 :=
  if n = 0 then [] else text.take (n - 1) ++ [0]

/-- A round of the loop of `yldynbstr_append`, the `i`-th one, with the length `cw` of the
text of the round before. The text of the first round is that of the arguments. The later
rounds go on with the same `va_list`, of which nothing is known then. -/
def strStep (alloc : Alloc) (text : ℕ → List UInt8) :
    ℕ × ℕ × Yldynb → ℕ × ℕ × Yldynb ⊕ Ended
  | (i, cwsv, b) =>
      if (text i).length ≥ 2 ^ 31 then .inr .assertion
      else match b.write ((b.sz + 2 ^ 32 - 1) % 2 ^ 32) (stored b.yldynbFreesz (text i)) with
        | none => .inr .overrun
        | some b =>
            let cw := (text i).length
            if cw ≥ b.yldynbFreesz then
              match b.yldynbExpand (alloc i) with
              | .ret r b =>
                  if 0 > r then .inr (.ret cwsv ⟨b.limit, (b.sz + cwsv) % 2 ^ 32, b.b⟩)
                  else .inl (i + 1, cw, b)
              | e => .inr e
            else .inr (.ret cw ⟨b.limit, (b.sz + cw) % 2 ^ 32, b.b⟩)

end Yldynb

open Yldynb

/-- A call of an operation, with its allocations. -/
inductive DynbOp where
  | append (alloc : Alloc) (d : List UInt8)
  | expand (m : Option (ℕ → UInt8))
  | shrink (m : Option (ℕ → UInt8)) (szTo : ℕ)
  | reset
  | strAppend (alloc : Alloc) (text : ℕ → List UInt8)

namespace DynbOp

def Ends : DynbOp → Yldynb → Ended → Prop
  | append alloc d, b, e => ∃ e', Machine.Ends (secureStep alloc d.length) (0, b) e' ∧
      e = appendEnd d e'
  | expand m, b, e => e = b.yldynbExpand m
  | shrink m szTo, b, e => e = b.yldynbShrink m szTo
  | reset, b, e => e = .ret 0 b.yldynbReset
  | strAppend alloc text, b, e => Machine.Ends (strStep alloc text) (0, 0, b) e

/-- An append adds the bytes, or the text in front of the trailing 0, and reports it; or it
leaves the contents, and reports that. -/
def Reports : DynbOp → Yldynb → ℤ → Yldynb → Prop
  | append _ d, b, r, b' =>
      r = 0 ∧ b'.contents = b.contents ++ d ∨ r < 0 ∧ b'.contents = b.contents
  | strAppend _ text, b, r, b' =>
      (r = (text 0).length ∧ ∃ s, b.contents = s ++ [0] ∧ b'.contents = s ++ text 0 ++ [0]) ∨
        r = 0 ∧ b'.contents = b.contents
  | _, _, _, _ => True

/-- The operation returns, its size is within its limit, and its report is true. -/
def Keeps (o : DynbOp) (b : Yldynb) : Prop :=
  ∃ r b', o.Ends b (.ret r b') ∧ b'.sz ≤ b'.limit ∧ o.Reports b r b'

def Expands (alloc : Alloc) (b : Yldynb) (j : ℕ) : Prop :=
  ∀ i < j, (alloc i).isSome ∧ b.sz ≤ b.limit * 2 ^ (i + 1) % 2 ^ 32

/-- The text of the round `i` has a length that `vsnprintf` can return, and does not fit into
the buffer that has been expanded `i` times, or does. -/
def Fits (text : ℕ → List UInt8) (b : Yldynb) (i : ℕ) (fits : Bool) : Prop :=
  (text i).length < 2 ^ 31 ∧ (fits ↔ b.sz + (text i).length < b.limit * 2 ^ i % 2 ^ 32)

/-- The condition of an operation. An append needs room, after some expansions; the first text
that fits must be that of the arguments, behind a trailing 0. A text whose first expansion
fails does no harm if nothing can be stored, or nothing but a 0 over the trailing one. -/
def Meets : DynbOp → Yldynb → Prop
  | append alloc d, b =>
      ∃ j, Expands alloc b j ∧ b.sz + d.length ≤ b.limit * 2 ^ j % 2 ^ 32
  | expand m, b => m.isSome → b.sz ≤ b.limit * 2 % 2 ^ 32
  | strAppend alloc text, b =>
      ((∃ s, b.contents = s ++ [0]) ∧ ∃ j, Expands alloc b j ∧ (∀ i < j, Fits text b i false) ∧
          Fits text b j true ∧ text j = text 0) ∨
        alloc 0 = none ∧ Fits text b 0 false ∧
          (b.limit = b.sz ∨ b.limit = b.sz + 1 ∧ ∃ s, b.contents = s ++ [0])
  | _, _ => True

/-- A property of every operation of a run, and of the buffer that it finds. -/
def AllSteps (Q : DynbOp → Yldynb → Prop) : List DynbOp → Yldynb → Prop
  | [], _ => True
  | o :: os, b => Q o b ∧ ∀ r b', o.Ends b (.ret r b') → AllSteps Q os b'

/-! ### The memory -/

section Memory

variable {b b' : Yldynb} {m : ℕ → UInt8} {p n : ℕ} {d : List UInt8}

theorem freesz_eq (h : b.Valid) : b.yldynbFreesz = b.limit - b.sz := by
  have h1 := h.sz
  have h2 := h.limit
  rw [yldynbFreesz]
  omega

theorem overlay_of_lt {i : ℕ} (hi : i < p) : overlay m p d i = m i := if_pos hi

theorem map_overlay (m : ℕ → UInt8) (p : ℕ) (d : List UInt8) :
    (List.range (p + d.length)).map (overlay m p d) = (List.range p).map m ++ d := by
  rw [List.range_add, List.map_append, List.map_map]
  congr 1
  · exact List.map_congr_left fun i hi => overlay_of_lt (List.mem_range.1 hi)
  · refine List.ext_getElem (by simp) fun i h1 h2 => ?_
    have hle : ¬ p + i < p := by omega
    simp [overlay, h2, hle]

/-- Two buffers with the same size and the same bytes up to it. -/
theorem contents_congr (hsz : b'.sz = b.sz) (h : ∀ i < b.sz, b'.b i = b.b i) :
    b'.contents = b.contents := by
  rw [contents, contents, hsz]
  exact List.map_congr_left fun i hi => h i (List.mem_range.1 hi)

theorem length_contents (b : Yldynb) : b.contents.length = b.sz := by
  rw [contents, List.length_map, List.length_range]

theorem overlay_contents (b : Yldynb) {i : ℕ} (hi : i < b.sz) :
    overlay m 0 b.contents i = b.b i := by
  simp [overlay, contents, hi]

theorem valid_init {l : ℕ} (hl : l < 2 ^ 32) (m : ℕ → UInt8) : (yldynbInit l m).Valid :=
  ⟨Nat.zero_le _, hl⟩

theorem valid_strInit {l : ℕ} (hl : l + 1 < 2 ^ 32) (m : ℕ → UInt8) :
    (yldynbstrInit l m).Valid := ⟨Nat.le_add_left 1 l, hl⟩

theorem double_mul (l i : ℕ) : l * 2 % 2 ^ 32 * 2 ^ i % 2 ^ 32 = l * 2 ^ (i + 1) % 2 ^ 32 := by
  rw [Nat.mod_mul_mod, Nat.mul_assoc, ← Nat.pow_succ']

theorem expand_spec {o : Option (ℕ → UInt8)} (ho : o.isSome)
    (hsz : b.sz ≤ b.limit * 2 % 2 ^ 32) :
    ∃ b', b.yldynbExpand o = .ret 0 b' ∧ b'.limit = b.limit * 2 % 2 ^ 32 ∧ b'.sz = b.sz ∧
      (∀ i < b.sz, b'.b i = b.b i) ∧ b'.Valid := by
  obtain ⟨m, rfl⟩ := Option.isSome_iff_exists.1 ho
  refine ⟨⟨b.limit * 2 % 2 ^ 32, b.sz, overlay m 0 b.contents⟩, if_pos hsz, rfl, rfl, ?_, hsz, ?_⟩
  · exact fun i hi => overlay_contents b hi
  · exact Nat.mod_lt _ (by decide)

theorem expands_zero {alloc : Alloc} : Expands alloc b 0 := fun i hi =>
  absurd hi (Nat.not_lt_zero i)

theorem Expands.tail {alloc : Alloc} {k j : ℕ} (h : Expands (fun i => alloc (k + i)) b (j + 1))
    (hl : b'.limit = b.limit * 2 % 2 ^ 32) (hsz : b'.sz = b.sz) :
    Expands (fun i => alloc (k + 1 + i)) b' j := by
  intro i hi
  obtain ⟨h1, h2⟩ := h (i + 1) (Nat.succ_lt_succ hi)
  rw [hl, hsz, double_mul]
  refine ⟨?_, h2⟩
  dsimp only
  rw [Nat.add_right_comm k 1 i]
  exact h1

theorem Expands.cons {alloc : Alloc} {k j : ℕ} (h : Expands (fun i => alloc (k + 1 + i)) b' j)
    (hsome : (alloc k).isSome) (hle : b.sz ≤ b.limit * 2 % 2 ^ 32)
    (hl : b'.limit = b.limit * 2 % 2 ^ 32) (hsz : b'.sz = b.sz) :
    Expands (fun i => alloc (k + i)) b (j + 1) := by
  intro i hi
  cases i with
  | zero => exact ⟨hsome, hle⟩
  | succ i =>
      obtain ⟨h1, h2⟩ := h i (Nat.lt_of_succ_lt_succ hi)
      rw [hl, hsz, double_mul] at h2
      dsimp only at h1
      rw [Nat.add_right_comm k 1 i] at h1
      exact ⟨h1, h2⟩

theorem Fits.tail {text : ℕ → List UInt8} {k i : ℕ} {fits : Bool}
    (h : Fits (fun i => text (k + i)) b (i + 1) fits) (hl : b'.limit = b.limit * 2 % 2 ^ 32)
    (hsz : b'.sz = b.sz) : Fits (fun i => text (k + 1 + i)) b' i fits := by
  rw [Fits, hl, hsz, double_mul, Nat.add_right_comm k 1 i]
  exact h

end Memory

/-! ### The operations -/

section Operations

variable {b b' : Yldynb} {alloc : Alloc} {n : ℕ}

theorem secureStep_room {k : ℕ} (h : n ≤ b.yldynbFreesz) :
    secureStep alloc n (k, b) = .inr (.ret 1 b) := by
  rw [secureStep, if_neg (Nat.not_lt.2 h)]
  dsimp only
  rw [if_pos h]

theorem secureStep_expand {k : ℕ} (h : b.yldynbFreesz < n)
    (he : b.yldynbExpand (alloc k) = .ret 0 b') : secureStep alloc n (k, b) = .inl (k + 1, b') := by
  rw [secureStep, if_pos h]
  dsimp only
  rw [he]
  rfl

theorem secureStep_fail {k : ℕ} (h : b.yldynbFreesz < n) (ha : alloc k = none) :
    secureStep alloc n (k, b) = .inr (.ret 0 b) := by
  rw [secureStep, if_pos h]
  dsimp only
  rw [ha]
  dsimp only [yldynbExpand]
  rw [if_neg (by decide), if_neg (Nat.not_le.2 h)]

theorem secureStep_overrun {k : ℕ} (h : b.yldynbFreesz < n) (ha : (alloc k).isSome)
    (hsz : ¬ b.sz ≤ b.limit * 2 % 2 ^ 32) : secureStep alloc n (k, b) = .inr .overrun := by
  obtain ⟨m, hm⟩ := Option.isSome_iff_exists.1 ha
  rw [secureStep, if_pos h]
  dsimp only
  rw [hm]
  dsimp only [yldynbExpand]
  rw [if_neg hsz]

/-- When there is room after `j` expansions, `yldynb_secure` gets it. -/
theorem secure_spec : ∀ {j k : ℕ} {b : Yldynb}, b.Valid →
    Expands (fun i => alloc (k + i)) b j → b.sz + n ≤ b.limit * 2 ^ j % 2 ^ 32 →
      ∃ b', Machine.Ends (secureStep alloc n) (k, b) (.ret 1 b') ∧ b'.Valid ∧ b'.sz = b.sz ∧
        (∀ i < b.sz, b'.b i = b.b i) ∧ b.sz + n ≤ b'.limit := by
  intro j
  induction j with
  | zero =>
      intro k b hb _ hroom
      rw [Nat.pow_zero, Nat.mul_one, Nat.mod_eq_of_lt hb.limit] at hroom
      have hfree := freesz_eq hb
      exact ⟨b, .of_result (secureStep_room (by omega)), hb, rfl, fun _ _ => rfl, hroom⟩
  | succ j ih =>
      intro k b hb hexpands hroom
      have hfree := freesz_eq hb
      have hsz := hb.sz
      by_cases hfits : n ≤ b.yldynbFreesz
      · exact ⟨b, .of_result (secureStep_room hfits), hb, rfl, fun _ _ => rfl, by omega⟩
      · obtain ⟨hsome, hle⟩ := hexpands 0 (Nat.succ_pos j)
        obtain ⟨b₁, he, hl, hsz₁, hbytes, hvalid⟩ := expand_spec hsome hle
        rw [← double_mul, ← hl, ← hsz₁] at hroom
        obtain ⟨b', hends, hvalid', hsz', hbytes', hroom'⟩ :=
          ih hvalid (hexpands.tail hl hsz₁) hroom
        refine ⟨b', .of_step (secureStep_expand (Nat.not_le.1 hfits) he) hends, hvalid',
          hsz'.trans hsz₁, ?_, by omega⟩
        exact fun i hi => (hbytes' i (by omega)).trans (hbytes i hi)

theorem append_spec {d : List UInt8} (hb : b.Valid) (h : Meets (.append alloc d) b) :
    ∃ b', (DynbOp.append alloc d).Ends b (.ret 0 b') ∧ b'.Valid ∧
      b'.contents = b.contents ++ d := by
  obtain ⟨j, hexpands, hroom⟩ := h
  have hexpands' : Expands (fun i => alloc (0 + i)) b j := by simpa using hexpands
  obtain ⟨b₁, hends, hvalid, hsz, hbytes, hfits⟩ := secure_spec hb hexpands' hroom
  have hlimit := hvalid.limit
  have hmod : (b₁.sz + d.length) % 2 ^ 32 = b₁.sz + d.length := Nat.mod_eq_of_lt (by omega)
  have hcontents : b₁.contents = b.contents := contents_congr hsz hbytes
  by_cases hd : d = []
  · subst hd
    refine ⟨b₁, ⟨_, hends, ?_⟩, hvalid, by rw [List.append_nil, hcontents]⟩
    rw [appendEnd, if_neg (by decide), write, if_pos rfl]
    dsimp only
    rw [hmod]
    rfl
  · refine ⟨⟨b₁.limit, b₁.sz + d.length, overlay b₁.b b₁.sz d⟩, ⟨_, hends, ?_⟩, ⟨?_, hlimit⟩, ?_⟩
    · rw [appendEnd, if_neg (by decide), write, if_neg hd, if_pos (by omega)]
      dsimp only
      rw [hmod]
    · dsimp only
      omega
    · rw [contents, map_overlay, ← hcontents]
      rfl

theorem exists_expands {d : List UInt8} {r : ℤ} : ∀ {m k : ℕ} {b : Yldynb} {e : Ended}, b.Valid →
    Machine.run (secureStep alloc d.length) m (k, b) = some e → appendEnd d e = .ret r b' →
      ∃ j, Expands (fun i => alloc (k + i)) b j ∧ b.sz + d.length ≤ b.limit * 2 ^ j % 2 ^ 32 := by
  intro m
  induction m with
  | zero => exact nofun
  | succ m ih =>
      intro k b e hb hrun hret
      have hfree := freesz_eq hb
      have hsz := hb.sz
      rw [Machine.run] at hrun
      by_cases hfits : d.length ≤ b.yldynbFreesz
      · refine ⟨0, expands_zero, ?_⟩
        rw [Nat.pow_zero, Nat.mul_one, Nat.mod_eq_of_lt hb.limit]
        omega
      have hlt := Nat.not_le.1 hfits
      cases ha : alloc k with
      | none =>
          rw [secureStep_fail hlt ha] at hrun
          cases hrun
          rw [appendEnd, if_neg (by decide), write, if_neg (List.ne_nil_of_length_pos (by omega)),
            if_neg (by omega)] at hret
          cases hret
      | some m' =>
          have hsome : (alloc k).isSome := by rw [ha]; rfl
          by_cases hle : b.sz ≤ b.limit * 2 % 2 ^ 32
          · obtain ⟨b₁, he, hl, hsz₁, -, hvalid⟩ := expand_spec hsome hle
            rw [secureStep_expand hlt he] at hrun
            obtain ⟨j, hexpands, hroom⟩ := ih hvalid hrun hret
            rw [hl, hsz₁, double_mul] at hroom
            exact ⟨j + 1, hexpands.cons hsome hle hl hsz₁, hroom⟩
          · rw [secureStep_overrun hlt hsome hle] at hrun
            cases hrun
            cases hret

theorem append_keeps_iff {d : List UInt8} (hb : b.Valid) :
    Keeps (.append alloc d) b ↔ Meets (.append alloc d) b := by
  constructor
  · rintro ⟨r, b', ⟨e, ⟨m, hm⟩, hret⟩, -⟩
    have hex := exists_expands hb hm hret.symm
    simp only [Nat.zero_add] at hex
    exact hex
  · intro h
    obtain ⟨b', hends, hvalid, hcontents⟩ := append_spec hb h
    exact ⟨0, b', hends, hvalid.sz, Or.inl ⟨rfl, hcontents⟩⟩

theorem stored_of_lt {text : List UInt8} (h : text.length < n) : stored n text = text ++ [0] := by
  rw [stored, if_neg (by omega), List.take_of_length_le (by omega)]

theorem length_stored_le (text : List UInt8) : (stored n text).length ≤ n := by
  rw [stored]
  split
  · exact Nat.zero_le _
  · rw [List.length_append, List.length_take, List.length_singleton]
    omega

theorem write_same {b b' : Yldynb} {p : ℕ} {d : List UInt8} (h : b.write p d = some b') :
    b'.limit = b.limit ∧ b'.sz = b.sz := by
  rw [write] at h
  split at h
  · cases h
    exact ⟨rfl, rfl⟩
  · split at h
    · cases h
      exact ⟨rfl, rfl⟩
    · cases h

/-- A text is written within the limit, and changes no byte in front of the trailing 0. -/
theorem write_spec (hb : b.Valid) (hsz : 1 ≤ b.sz) (text : List UInt8) :
    ∃ b₁, b.write ((b.sz + 2 ^ 32 - 1) % 2 ^ 32) (stored b.yldynbFreesz text) = some b₁ ∧
      b₁.limit = b.limit ∧ b₁.sz = b.sz ∧ (∀ i < b.sz - 1, b₁.b i = b.b i) ∧
        (text.length < b.yldynbFreesz → b₁.b = overlay b.b (b.sz - 1) (text ++ [0])) := by
  have h1 := hb.sz
  have h2 := hb.limit
  have hfree := freesz_eq hb
  have hlen := length_stored_le (n := b.yldynbFreesz) text
  rw [write, show (b.sz + 2 ^ 32 - 1) % 2 ^ 32 = b.sz - 1 by omega]
  by_cases hnil : stored b.yldynbFreesz text = []
  · rw [if_pos hnil]
    refine ⟨b, rfl, rfl, rfl, fun _ _ => rfl, fun hlt => ?_⟩
    rw [stored_of_lt hlt] at hnil
    exact absurd hnil (List.concat_ne_nil _ _)
  · rw [if_neg hnil, if_pos (by omega)]
    refine ⟨_, rfl, rfl, rfl, fun i hi => overlay_of_lt hi, fun hlt => ?_⟩
    rw [stored_of_lt hlt]

section Round

variable {text : ℕ → List UInt8} {k cw : ℕ} {b₁ b₂ : Yldynb}

theorem strStep_done (hlen : (text k).length < 2 ^ 31)
    (hw : b.write ((b.sz + 2 ^ 32 - 1) % 2 ^ 32) (stored b.yldynbFreesz (text k)) = some b₁)
    (hlt : (text k).length < b₁.yldynbFreesz) :
    strStep alloc text (k, cw, b) =
      .inr (.ret (text k).length ⟨b₁.limit, (b₁.sz + (text k).length) % 2 ^ 32, b₁.b⟩) := by
  rw [strStep, if_neg (Nat.not_le.2 hlen), hw]
  dsimp only
  rw [if_neg (Nat.not_le.2 hlt)]

theorem strStep_next (hlen : (text k).length < 2 ^ 31)
    (hw : b.write ((b.sz + 2 ^ 32 - 1) % 2 ^ 32) (stored b.yldynbFreesz (text k)) = some b₁)
    (hge : b₁.yldynbFreesz ≤ (text k).length) (he : b₁.yldynbExpand (alloc k) = .ret 0 b₂) :
    strStep alloc text (k, cw, b) = .inl (k + 1, (text k).length, b₂) := by
  rw [strStep, if_neg (Nat.not_le.2 hlen), hw]
  dsimp only
  rw [if_pos hge, he]
  rfl

theorem strStep_fail (hlen : (text k).length < 2 ^ 31)
    (hw : b.write ((b.sz + 2 ^ 32 - 1) % 2 ^ 32) (stored b.yldynbFreesz (text k)) = some b₁)
    (hge : b₁.yldynbFreesz ≤ (text k).length) (ha : alloc k = none) :
    strStep alloc text (k, cw, b) =
      .inr (.ret cw ⟨b₁.limit, (b₁.sz + cw) % 2 ^ 32, b₁.b⟩) := by
  rw [strStep, if_neg (Nat.not_le.2 hlen), hw]
  dsimp only
  rw [if_pos hge, ha]
  rfl

end Round

/-- When the text of the round `j` is the first that fits, it is added. -/
theorem str_spec {text : ℕ → List UInt8} : ∀ {j k cw : ℕ} {b : Yldynb}, b.Valid → 1 ≤ b.sz →
    Expands (fun i => alloc (k + i)) b j → (∀ i < j, Fits (fun i => text (k + i)) b i false) →
      Fits (fun i => text (k + i)) b j true →
        ∃ b', Machine.Ends (strStep alloc text) (k, cw, b) (.ret (text (k + j)).length b') ∧
          b'.Valid ∧
            b'.contents = (List.range (b.sz - 1)).map b.b ++ (text (k + j) ++ [0]) := by
  intro j
  induction j with
  | zero =>
      intro k cw b hb hsz _ _ hfits
      obtain ⟨hlen, hfits⟩ := hfits
      have hlt := hfits.1 rfl
      rw [Nat.pow_zero, Nat.mul_one, Nat.mod_eq_of_lt hb.limit] at hlt
      dsimp only [Nat.add_zero] at hlt hlen ⊢
      have hlimit := hb.limit
      have hfree := freesz_eq hb
      obtain ⟨b₁, hw, hl, hsz₁, -, hover⟩ := write_spec hb hsz (text k)
      have hvalid : b₁.Valid := ⟨by rw [hl, hsz₁]; exact hb.sz, hl ▸ hb.limit⟩
      have hfree₁ := freesz_eq hvalid
      have hmod : (b₁.sz + (text k).length) % 2 ^ 32 = b.sz - 1 + (text k ++ [0]).length := by
        rw [List.length_append, List.length_singleton]
        omega
      refine ⟨_, .of_result (strStep_done hlen hw (by omega)), ⟨?_, hvalid.limit⟩, ?_⟩
      · dsimp only
        omega
      · rw [contents, hmod, hover (by omega), map_overlay]
  | succ j ih =>
      intro k cw b hb hsz hexpands hbefore hfits
      obtain ⟨hlen, hnot⟩ := hbefore 0 (Nat.succ_pos j)
      have hge : ¬ _ := fun h => Bool.false_ne_true (hnot.2 h)
      rw [Nat.pow_zero, Nat.mul_one, Nat.mod_eq_of_lt hb.limit] at hge
      dsimp only [Nat.add_zero] at hge hlen
      have hfree := freesz_eq hb
      obtain ⟨b₁, hw, hl, hsz₁, hbytes, -⟩ := write_spec hb hsz (text k)
      have hvalid : b₁.Valid := ⟨by rw [hl, hsz₁]; exact hb.sz, hl ▸ hb.limit⟩
      have hfree₁ := freesz_eq hvalid
      obtain ⟨hsome, hle⟩ := hexpands 0 (Nat.succ_pos j)
      rw [← hl, ← hsz₁] at hle
      obtain ⟨b₂, he, hl₂, hsz₂, hbytes₂, hvalid₂⟩ := expand_spec hsome hle
      have hl' : b₂.limit = b.limit * 2 % 2 ^ 32 := by rw [hl₂, hl]
      have hsz' : b₂.sz = b.sz := hsz₂.trans hsz₁
      obtain ⟨b', hends, hvalid', hcontents⟩ := @ih (k + 1) (text k).length b₂ hvalid₂ (hsz' ▸ hsz)
        (hexpands.tail hl' hsz') (fun i hi => (hbefore (i + 1) (Nat.succ_lt_succ hi)).tail hl' hsz')
        (hfits.tail hl' hsz')
      have hfront : (List.range (b₂.sz - 1)).map b₂.b = (List.range (b.sz - 1)).map b.b := by
        rw [hsz']
        refine List.map_congr_left fun i hi => ?_
        rw [List.mem_range] at hi
        rw [hbytes₂ i (by omega), hbytes i hi]
      rw [hfront] at hcontents
      rw [Nat.add_right_comm k 1 j] at hends hcontents
      exact ⟨b', .of_step (strStep_next hlen hw (by omega) he) hends, hvalid', hcontents⟩

theorem sz_of_contents {s : List UInt8} (h : b.contents = s ++ [0]) : b.sz = s.length + 1 := by
  rw [← length_contents, h, List.length_append, List.length_singleton]

theorem contents_eq_concat {s : List UInt8} (h : b.contents = s ++ [0]) :
    1 ≤ b.sz ∧ s = (List.range (b.sz - 1)).map b.b := by
  have hsz := sz_of_contents h
  refine ⟨by omega, ?_⟩
  rw [contents, hsz, List.range_succ, List.map_append] at h
  rw [hsz, Nat.add_sub_cancel]
  exact (List.append_inj_left' h rfl).symm

/-- A failure of the first expansion that does no harm. -/
theorem str_fail_spec {text : ℕ → List UInt8} (hb : b.Valid) (ha : alloc 0 = none)
    (hfits : Fits text b 0 false)
    (hroom : b.limit = b.sz ∨ b.limit = b.sz + 1 ∧ ∃ s, b.contents = s ++ [0]) :
    ∃ b', Machine.Ends (strStep alloc text) (0, 0, b) (.ret 0 b') ∧ b'.Valid ∧
      b'.contents = b.contents := by
  obtain ⟨hlen, hnot⟩ := hfits
  have hge : ¬ _ := fun h => Bool.false_ne_true (hnot.2 h)
  rw [Nat.pow_zero, Nat.mul_one, Nat.mod_eq_of_lt hb.limit] at hge
  have hfree := freesz_eq hb
  have hmod : (b.sz + 0) % 2 ^ 32 = b.sz := Nat.mod_eq_of_lt (by have := hb.limit; omega)
  rcases hroom with hfull | ⟨hone, s, hs⟩
  · have hw : b.write ((b.sz + 2 ^ 32 - 1) % 2 ^ 32) (stored b.yldynbFreesz (text 0)) = some b := by
      rw [stored, if_pos (by omega), write, if_pos rfl]
    refine ⟨b, .of_result ?_, hb, rfl⟩
    rw [strStep_fail hlen hw (by omega) ha, hmod]
    rfl
  · obtain ⟨hpos, rfl⟩ := contents_eq_concat hs
    have hlimit := hb.limit
    have hw : b.write ((b.sz + 2 ^ 32 - 1) % 2 ^ 32) (stored b.yldynbFreesz (text 0)) =
        some ⟨b.limit, b.sz, overlay b.b (b.sz - 1) [0]⟩ := by
      have hstored : stored b.yldynbFreesz (text 0) = [0] := by
        rw [stored, if_neg (by omega), show b.yldynbFreesz - 1 = 0 by omega, List.take_zero,
          List.nil_append]
      rw [hstored, write, if_neg (List.cons_ne_nil _ _), List.length_singleton,
        if_pos (by omega), show (b.sz + 2 ^ 32 - 1) % 2 ^ 32 = b.sz - 1 by omega]
    have hvalid : (⟨b.limit, b.sz, overlay b.b (b.sz - 1) [0]⟩ : Yldynb).Valid := ⟨hb.sz, hb.limit⟩
    have hfree₁ := freesz_eq hvalid
    refine ⟨_, .of_result ?_, hvalid, ?_⟩
    · rw [strStep_fail hlen hw (by dsimp only at hfree₁; omega) ha, hmod]
      rfl
    · have hmap := map_overlay b.b (b.sz - 1) [0]
      rw [List.length_singleton, Nat.sub_add_cancel hpos, ← hs] at hmap
      exact hmap

theorem str_keeps {text : ℕ → List UInt8} (hb : b.Valid) (h : Meets (.strAppend alloc text) b) :
    ∃ r b', (DynbOp.strAppend alloc text).Ends b (.ret r b') ∧ b'.Valid ∧
      (DynbOp.strAppend alloc text).Reports b r b' := by
  rcases h with ⟨⟨s, hs⟩, j, hexpands, hbefore, hfits, htext⟩ | ⟨ha, hfits, hroom⟩
  · obtain ⟨hpos, hfront⟩ := contents_eq_concat hs
    have hspec := @str_spec alloc text j 0 0 b hb hpos
    simp only [Nat.zero_add] at hspec
    obtain ⟨b', hends, hvalid, hcontents⟩ := hspec hexpands hbefore hfits
    rw [htext] at hends hcontents
    refine ⟨_, b', hends, hvalid, Or.inl ⟨rfl, s, hs, ?_⟩⟩
    rw [hcontents, ← hfront, List.append_assoc]
  · obtain ⟨b', hends, hvalid, hcontents⟩ := str_fail_spec hb ha hfits hroom
    exact ⟨0, b', hends, hvalid, Or.inr ⟨rfl, hcontents⟩⟩

theorem shrink_spec (hb : b.Valid) (m : Option (ℕ → UInt8)) (szTo : ℕ) :
    ∃ r b', b.yldynbShrink m szTo = .ret r b' ∧ b'.Valid ∧ b'.contents = b.contents := by
  unfold yldynbShrink
  split
  next h =>
    have hlimit := hb.limit
    cases m with
    | none => exact ⟨-1, b, rfl, hb, rfl⟩
    | some m =>
        refine ⟨0, _, rfl, ⟨Nat.le_of_lt h.2, Nat.lt_trans h.1 hlimit⟩, ?_⟩
        exact contents_congr rfl fun i hi => overlay_contents b hi
  next => exact ⟨-1, b, rfl, hb, rfl⟩

theorem keeps_of_meets (o : DynbOp) (hb : b.Valid) (h : o.Meets b) :
    ∃ r b', o.Ends b (.ret r b') ∧ b'.Valid ∧ o.Reports b r b' := by
  cases o with
  | append alloc d =>
      obtain ⟨b', hends, hvalid, hcontents⟩ := append_spec hb h
      exact ⟨0, b', hends, hvalid, Or.inl ⟨rfl, hcontents⟩⟩
  | expand m =>
      cases m with
      | none => exact ⟨-1, b, rfl, hb, trivial⟩
      | some m =>
          obtain ⟨b', he, -, -, -, hvalid⟩ := expand_spec (o := some m) rfl (h rfl)
          exact ⟨0, b', he.symm, hvalid, trivial⟩
  | shrink m szTo =>
      obtain ⟨r, b', he, hvalid, -⟩ := shrink_spec hb m szTo
      exact ⟨r, b', he.symm, hvalid, trivial⟩
  | reset => exact ⟨0, _, rfl, ⟨Nat.zero_le _, hb.limit⟩, trivial⟩
  | strAppend alloc text => exact str_keeps hb h

theorem Ends.unique {o : DynbOp} {e e' : Ended} (h : o.Ends b e) (h' : o.Ends b e') : e = e' := by
  cases o with
  | append alloc d =>
      obtain ⟨e₁, h1, rfl⟩ := h
      obtain ⟨e₂, h2, rfl⟩ := h'
      rw [h1.unique h2]
  | expand m => exact Eq.trans h (Eq.symm h')
  | shrink m szTo => exact Eq.trans h (Eq.symm h')
  | reset => exact Eq.trans h (Eq.symm h')
  | strAppend alloc text => exact Machine.Ends.unique h h'

theorem AllSteps.cons_of_ends {Q : DynbOp → Yldynb → Prop} {o : DynbOp} {os : List DynbOp} {r : ℤ}
    (hQ : Q o b) (hends : o.Ends b (.ret r b')) (h : AllSteps Q os b') :
    AllSteps Q (o :: os) b := by
  refine ⟨hQ, fun r₁ b₁ hends₁ => ?_⟩
  cases hends₁.unique hends
  exact h

/-- In a run whose operations all meet their conditions, each of them keeps its promise. -/
theorem allSteps_keeps : ∀ (os : List DynbOp) {b : Yldynb}, b.Valid → AllSteps Meets os b →
    AllSteps Keeps os b
  | [], _, _, _ => trivial
  | o :: os, b, hb, h => by
      obtain ⟨r, b', hends, hvalid, hreports⟩ := keeps_of_meets o hb h.1
      refine ⟨⟨r, b', hends, hvalid.sz, hreports⟩, fun r₁ b₁ hends₁ => ?_⟩
      cases hends.unique hends₁
      exact allSteps_keeps os hvalid (h.2 _ _ hends)

/-- Three bytes and then a text of four make the buffer grow, and a text that needs more room finds
no memory. -/
theorem allSteps_keeps_grown :
    let os := [.append (fun _ => some fun _ => 0) [7, 8, 0],
      .strAppend (fun _ => some fun _ => 0) (fun _ => [9, 9, 9, 9]),
      .strAppend (fun _ => none) (fun _ => [1])]
    (yldynbInit 1 fun _ => 0).Valid ∧ AllSteps Meets os (yldynbInit 1 fun _ => 0) ∧
      AllSteps Keeps os (yldynbInit 1 fun _ => 0) := by
  intro os
  have hvalid : (yldynbInit 1 fun _ => 0).Valid := valid_init (by decide) _
  have hmeets : AllSteps Meets os (yldynbInit 1 fun _ => 0) := by
    refine .cons_of_ends ⟨2, fun i hi => ⟨rfl, Nat.zero_le _⟩, by decide⟩
      ⟨_, .of_step (secureStep_expand (by decide) rfl) (.of_step
        (secureStep_expand (by decide) rfl) (.of_result (secureStep_room (by decide)))), rfl⟩ ?_
    refine .cons_of_ends (.inl ⟨⟨[7, 8], by decide +kernel⟩, 1, fun i hi => ?_, fun i hi => ?_,
      ?_, rfl⟩) (.of_step (strStep_next (by decide)
        ((if_neg (by decide)).trans (if_pos (by decide))) (by decide) rfl)
          (.of_result (strStep_done (by decide)
            ((if_neg (by decide)).trans (if_pos (by decide))) (by decide)))) ?_
    · obtain rfl : i = 0 := by omega
      exact ⟨rfl, by decide⟩
    · obtain rfl : i = 0 := by omega
      exact ⟨by decide, by decide⟩
    · exact ⟨by decide, by decide⟩
    · refine ⟨.inr ⟨rfl, ⟨by decide, by decide⟩,
        .inr ⟨by decide, [7, 8, 9, 9, 9, 9], by decide +kernel⟩⟩, ?_⟩
      exact fun _ _ _ => trivial
  exact ⟨hvalid, hmeets, allSteps_keeps os hvalid hmeets⟩

/-- Two bytes for a buffer of one, which cannot grow. -/
theorem not_allSteps_keeps_failed :
    ¬ AllSteps Keeps [.append (fun _ => none) [7, 8]] (yldynbInit 1 fun _ => 0) := by
  rintro ⟨⟨r, b', ⟨e', he', hret⟩, -⟩, -⟩
  have hrun : Machine.Ends (secureStep (fun _ => none) [7, 8].length) (0, yldynbInit 1 fun _ => 0)
      (.ret 0 (yldynbInit 1 fun _ => 0)) := .of_result (secureStep_fail (by decide) rfl)
  rw [he'.unique hrun] at hret
  cases hret

end Operations

/-! ### The buffers with bytes -/

section Bytes

variable {mem : ℕ → Bool} {alloc : Alloc} {D' : Dynb} {n : ℕ}

theorem expands_of_secure : ∀ {m k : ℕ} {D : Dynb} {b : Yldynb}, b.Valid → D.limit = b.limit →
    D.bytes.length = b.sz →
      (∀ i, mem (b.limit * 2 ^ (i + 1) % 2 ^ 32) = (alloc (k + i)).isSome) →
        Machine.run (Dynb.secureStep mem n) m D = some (some D') →
          D'.bytes.length + n ≤ D'.limit →
            ∃ j, Expands (fun i => alloc (k + i)) b j ∧
              b.sz + n ≤ b.limit * 2 ^ j % 2 ^ 32 := by
  intro m
  induction m with
  | zero => exact nofun
  | succ m ih =>
      intro k D b hb hl hsz hmem hrun hroom
      rw [Machine.run] at hrun
      cases hs : Dynb.secureStep mem n D with
      | inr r =>
          rw [hs] at hrun
          cases hrun
          rw [Dynb.secureStep_inr hs, hl, hsz] at hroom
          refine ⟨0, expands_zero, ?_⟩
          rwa [Nat.pow_zero, Nat.mul_one, Nat.mod_eq_of_lt hb.limit]
      | inl D₁ =>
          rw [hs] at hrun
          obtain ⟨-, hmem₁, hl₁, hbytes₁⟩ := Dynb.secureStep_inl hs
          have hle := D₁.fits
          rw [hl₁, hbytes₁, hl, hsz] at hle
          have hsome : (alloc k).isSome := by
            rw [← Nat.add_zero k, ← hmem 0, ← hl]
            exact hmem₁
          obtain ⟨b₁, -, hlb, hszb, -, hvalid⟩ := expand_spec hsome hle
          have hmem' : ∀ i, mem (b₁.limit * 2 ^ (i + 1) % 2 ^ 32) = (alloc (k + 1 + i)).isSome := by
            intro i
            rw [hlb, double_mul, hmem (i + 1), Nat.add_right_comm k 1 i]
            rfl
          obtain ⟨j, hexpands, hroom'⟩ := ih hvalid (by rw [hl₁, hl, hlb])
            (by rw [hbytes₁, hsz, hszb]) hmem' hrun hroom
          rw [hlb, hszb, double_mul] at hroom'
          exact ⟨j + 1, hexpands.cons hsome hle hlb hszb, hroom'⟩

/-- Where an append to a buffer of bytes succeeds, the same bytes are added in the memory. -/
theorem append_of_dynb {D : Dynb} {b : Yldynb} {d : List UInt8} (hb : b.Valid)
    (hl : D.limit = b.limit) (hD : D.bytes = b.contents)
    (hmem : ∀ i, mem (b.limit * 2 ^ (i + 1) % 2 ^ 32) = (alloc i).isSome)
    (h : D.yldynbAppend mem d = some D') :
    ∃ b', (DynbOp.append alloc d).Ends b (.ret 0 b') ∧ b'.contents = D'.bytes := by
  rw [Dynb.yldynbAppend] at h
  split at h
  next D₁ hrun =>
    split at h
    next hfits =>
      cases h
      have hbytes : D₁.bytes = D.bytes := Dynb.secure_bytes hrun
      rw [List.length_append] at hfits
      have hsz : D.bytes.length = b.sz := by rw [hD, length_contents]
      obtain ⟨j, hexpands, hroom⟩ := expands_of_secure (k := 0) hb hl hsz
        (by simpa only [Nat.zero_add] using hmem) hrun hfits
      simp only [Nat.zero_add] at hexpands
      obtain ⟨b', hends, -, hcontents⟩ := append_spec hb ⟨j, hexpands, hroom⟩
      refine ⟨b', hends, ?_⟩
      change b'.contents = D₁.bytes ++ d
      rw [hcontents, hbytes, hD]
    next => cases h
  next => cases h

end Bytes

end DynbOp

end Yld

end Ylisp
