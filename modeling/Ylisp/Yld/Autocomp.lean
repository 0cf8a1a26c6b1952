import Mathlib.Data.List.TakeWhile
import Ylisp.Symlookup.Complete
import Ylisp.Yld.Failures
import Ylisp.Yld.Session

/-!
# Completion for a client

`_cmd_autocomp` answers a client with one packet: the longest common continuation of the
prefix that it sent, or the list of all names that extend the prefix. The calls on the table
of names are three, and other threads may call between them; the text of the list is put
together by `yldynbstr_append`, whose later rounds read from a `va_list` that is used up.

`cmdAutocomp_iff` says for which requests the answer is right when no other thread
intervenes, whatever the later rounds read.
-/

namespace Ylisp

namespace Yld

open DynbOp Mempool Symlookup Yldynb

variable {E : Type*}

def cmdAutocompMore : List UInt8 := cstr "AUTOCOMP_MORE"

def cmdAutocompComp : List UInt8 := cstr "AUTOCOMP_COMP"

def cmdAutocompPrint : List UInt8 := cstr "AUTOCOMP_PRINT"

namespace Yldynb

def yldynbstrLen (b : Yldynb) : ℕ := (b.sz + 2 ^ 32 - 1) % 2 ^ 32

def yldynbstrReset (b : Yldynb) : Yldynb := ⟨b.limit, 1, overlay b.b 0 [0]⟩

/-- `strlen` of the string in a buffer; `none` when it reads past the end. -/
def strlen (b : Yldynb) : Option ℕ := (List.range b.limit).find? fun i => b.b i = 0

/-- The rounds after which the loop of `yldynbstr_append` has ended: see `str_run_isSome`. -/
def strRounds : ℕ := 33

/-- `yldynbstr_append`; `none` where bytes are written past the end of the buffer, or an
assertion fails. -/
def yldynbstrAppend (alloc : Alloc) (text : ℕ → List UInt8) (b : Yldynb) : Option Yldynb :=
  match Machine.run (strStep alloc text) strRounds (0, 0, b) with
  | some (.ret _ b') => some b'
  | _ => none

end Yldynb

/-- What a call of `_cmd_autocomp` depends on: which sizes can be allocated, and the bytes in
fresh memory; the calls of other threads in front of `ylsym_nr_candidates`, and between it and
`ylsym_candidates`; the variables that are not set; and what is read from the `va_list` in the
later rounds of each `yldynbstr_append`. -/
structure Autocomp (E : Type*) where
  mem : ℕ → Bool
  fresh : ℕ → UInt8
  grown : ℕ → ℕ → ℕ → UInt8
  between : List (SlutCall E)
  others : List (SlutCall E)
  maxlen : ℕ
  buf : ℕ → UInt8
  buf' : ℕ → UInt8
  rest : ℕ → ℕ → List UInt8

namespace Autocomp

variable (a : Autocomp E)

def client (startWith : List UInt8) : Client E :=
  ⟨startWith, a.others, a.maxlen, a.buf, a.buf'⟩

/-- The end of `_cmd_autocomp`: the packet that is sent. -/
def respond (cmd : List UInt8) (b : Yldynb) (pref : Dynb) : Option (List UInt8) :=
  (pduBuild a.mem pref (cmd ++ [0]) b.contents (UInt32.ofNat b.yldynbstrLen)).map Dynb.bytes

def appendRows (startWith : List UInt8) : ℕ → List (List UInt8) → Yldynb → Option Yldynb
  | _, [], b => some b
  | i, row :: rows, b =>
      (b.yldynbstrAppend
        (fun j => if a.mem (b.limit * 2 ^ (j + 1) % 2 ^ 32) then some (a.grown i j) else none)
        (fun j => if j = 0 then startWith ++ row.takeWhile (· ≠ 0) ++ cstr "\n"
          else a.rest i j)).bind (appendRows startWith (i + 1) rows)

/-- The list of candidates, from the table `s` at `ylsym_nr_candidates` on. -/
def listing (s : Slut E) (startWith : List UInt8) (b : Yldynb) : Option Yldynb :=
  let c := a.client startWith
  let num := (c.nr s).1
  let maxlen := (c.nr s).2
  let filled := c.fill s
  if num > 1 ∧ a.mem (8 * num.toNat) ∧ a.mem (maxlen + 1) ∧
      (∀ row ∈ filled.2.rows, row.length ≤ maxlen + 1) ∧ filled.1 = num then
    a.appendRows startWith 0 filled.2.rows b.yldynbstrReset
  else none

/-- The rest of `_cmd_autocomp`, with the prefix in its buffer. -/
def complete (s : Slut E) (pref : Dynb) : Option (List UInt8) :=
  let startWith := pref.bytes.takeWhile (· ≠ 0)
  let b := yldynbstrInit 4096 a.fresh
  match s.ylsluAutoComplete startWith b.b b.yldynbFreesz with
  | .assertion => none
  | .ret r buf =>
      (Yldynb.mk b.limit b.sz buf).strlen.bind fun len =>
        let b : Yldynb := ⟨b.limit, len + 1, buf⟩
        if r = 0 then
          if b.yldynbstrLen > 0 then a.respond cmdAutocompMore b pref
          else
            (a.listing (Answer.run Slut.step a.between s).2 startWith b).bind fun b =>
              a.respond cmdAutocompPrint b pref
        else if r = 1 then a.respond cmdAutocompComp b pref
        else if r = 2 then a.respond cmdAutocompPrint b.yldynbstrReset pref
        else none

/-- `_cmd_autocomp` on the table `s`: the packet that is sent; `none` where an assertion fails,
or bytes are written or read past the end of a buffer. -/
def cmdAutocomp (s : Slut E) (data : List UInt8) : Option (List UInt8) :=
  if a.mem 4097 ∧ a.mem 4096 then
    (((Dynb.yldynbInit 4096).yldynbAppend a.mem data).bind fun pref =>
      pref.yldynbAppend a.mem [0]).bind (a.complete s)
  else none

end Autocomp

def packet (p : List UInt8 × List UInt8) : List UInt8 := p.1 ++ cmdDelimieter :: p.2

def answer (startWith : List UInt8) : List (List UInt8) → List UInt8 × List UInt8
  | [] => (cmdAutocompPrint, [])
  | [key] => (cmdAutocompComp, key)
  | key :: key' :: keys =>
      if Prefix.commonAll (key :: key' :: keys) = [] then
        (cmdAutocompPrint,
          (key :: key' :: keys).flatMap fun k => startWith ++ k ++ cstr "\n")
      else (cmdAutocompMore, Prefix.commonAll (key :: key' :: keys))

/-! ### Strings in buffers -/

section Strings

variable {alloc : Alloc} {text : ℕ → List UInt8} {b b' : Yldynb} {s : List UInt8}

theorem strStep_inl {i i' cw cw' : ℕ} (h : strStep alloc text (i, cw, b) = .inl (i', cw', b')) :
    b'.limit = b.limit * 2 % 2 ^ 32 ∧ b'.sz = b.sz ∧ b'.sz ≤ b'.limit := by
  rw [strStep] at h
  split at h
  · cases h
  · split at h
    · cases h
    · next b₁ hw =>
        have hsame := write_same hw
        dsimp only at h
        split at h
        · cases halloc : alloc i with
          | none =>
              rw [halloc] at h
              dsimp only [yldynbExpand] at h
              rw [if_pos (by decide)] at h
              cases h
          | some m =>
              rw [halloc, yldynbExpand] at h
              by_cases hsz : b₁.sz ≤ b₁.limit * 2 % 2 ^ 32
              · rw [if_pos hsz] at h
                cases h
                rw [hsame.1] at hsz ⊢
                exact ⟨rfl, hsame.2, hsz⟩
              · rw [if_neg hsz] at h
                cases h
        · cases h

theorem steps_strStep : ∀ {k i cw : ℕ} {b : Yldynb} {t : ℕ × ℕ × Yldynb},
    Machine.Steps (strStep alloc text) (k + 1) (i, cw, b) t →
      t.2.2.limit = b.limit * 2 ^ (k + 1) % 2 ^ 32 ∧ t.2.2.sz = b.sz ∧ t.2.2.sz ≤ t.2.2.limit
  | 0, i, cw, b, t, h => by
      obtain ⟨t₁, h1, rfl⟩ := h
      exact strStep_inl h1
  | k + 1, i, cw, b, t, h => by
      obtain ⟨t₁, h1, h2⟩ := h
      obtain ⟨hl, hsz, -⟩ := strStep_inl h1
      obtain ⟨hl', hsz', hle⟩ := steps_strStep h2
      refine ⟨?_, hsz'.trans hsz, hle⟩
      rw [hl', hl, Nat.mod_mul_mod, Nat.mul_assoc, ← Nat.pow_succ']

/-- The limit is 0 after 32 rounds, and a string does not fit into that. -/
theorem str_run_isSome (alloc : Alloc) (text : ℕ → List UInt8) (hsz : 1 ≤ b.sz) :
    (Machine.run (strStep alloc text) strRounds (0, 0, b)).isSome := by
  by_contra hnone
  rw [Option.not_isSome_iff_eq_none] at hnone
  obtain ⟨t, ht⟩ := Machine.run_eq_none_iff.1 (Machine.run_none_of_le (Nat.le_succ 32) hnone)
  obtain ⟨hl, hsz', hle⟩ := steps_strStep ht
  rw [hsz', hl, Nat.mul_mod_left] at hle
  omega

/-- A text that fits is appended, whatever the later rounds read. -/
theorem yldynbstrAppend_fits (alloc : Alloc) (text : ℕ → List UInt8) (hb : b.Valid)
    (hs : b.contents = s ++ [0]) (hlen : (text 0).length < 2 ^ 31)
    (hfits : s.length + 1 + (text 0).length < b.limit) :
    ∃ b', b.yldynbstrAppend alloc text = some b' ∧ b'.Valid ∧ b'.limit = b.limit ∧
      b'.contents = s ++ text 0 ++ [0] := by
  obtain ⟨hpos, hfront⟩ := contents_eq_concat hs
  have hsz := sz_of_contents hs
  have hlimit := hb.limit
  have hfree := freesz_eq hb
  obtain ⟨b₁, hw, hl, hsz₁, -, hover⟩ := write_spec hb hpos (text 0)
  have hvalid : b₁.Valid := ⟨by rw [hl, hsz₁]; exact hb.sz, hl ▸ hb.limit⟩
  have hfree₁ := freesz_eq hvalid
  have hstep : strStep alloc text (0, 0, b) = _ := strStep_done hlen hw (by omega)
  have hmod : (b₁.sz + (text 0).length) % 2 ^ 32 = b.sz - 1 + (text 0 ++ [0]).length := by
    rw [List.length_append, List.length_singleton]
    omega
  refine ⟨⟨b₁.limit, (b₁.sz + (text 0).length) % 2 ^ 32, b₁.b⟩, ?_, ⟨?_, hvalid.limit⟩, hl, ?_⟩
  · rw [yldynbstrAppend, strRounds, Machine.run, hstep]
  · dsimp only
    omega
  · rw [contents, hmod, hover (by omega), map_overlay, ← hfront, List.append_assoc]

/-- One that does not fit leads to a second round, which may read a text that is too long. -/
theorem yldynbstrAppend_long (hb : b.Valid) (hs : b.contents = s ++ [0]) (halloc : (alloc 0).isSome)
    (hlimit : b.limit < 2 ^ 31) (hlen : (text 0).length < 2 ^ 31)
    (hlong : b.limit ≤ s.length + 1 + (text 0).length) (hrest : 2 ^ 31 ≤ (text 1).length) :
    b.yldynbstrAppend alloc text = none := by
  obtain ⟨hpos, -⟩ := contents_eq_concat hs
  have hsz := sz_of_contents hs
  have hle := hb.sz
  obtain ⟨b₁, hw, hl, hsz₁, -, -⟩ := write_spec hb hpos (text 0)
  have hvalid : b₁.Valid := ⟨by rw [hl, hsz₁]; exact hb.sz, hl ▸ hb.limit⟩
  have hfree₁ := freesz_eq hvalid
  obtain ⟨b₂, he, -, -, -, -⟩ := expand_spec (b := b₁) halloc (by rw [hl, hsz₁]; omega)
  have hnext : strStep alloc text (0, 0, b) = _ := strStep_next hlen hw (by omega) he
  have hassert : strStep alloc text (0 + 1, (text 0).length, b₂) = .inr .assertion := by
    rw [strStep, if_pos hrest]
  rw [yldynbstrAppend, strRounds, Machine.run, hnext]
  dsimp only
  rw [Machine.run, hassert]

theorem strlen_eq {l : ℕ} (hl : s.length < l) (h0 : 0 ∉ s)
    (h : (List.range (s.length + 1)).map b.b = s ++ [0]) (hlimit : b.limit = l) :
    b.strlen = some s.length := by
  have hbyte : ∀ i < s.length + 1, (s ++ [0])[i]? = some (b.b i) := by
    intro i hi
    rw [← h, List.getElem?_map, List.getElem?_range hi, Option.map_some]
  rw [Yldynb.strlen, List.find?_range_eq_some, hlimit]
  refine ⟨?_, List.mem_range.2 hl, fun j hj => ?_⟩
  · have hlast := hbyte s.length (Nat.lt_succ_self _)
    rw [List.getElem?_concat_length] at hlast
    simpa using (Option.some.inj hlast).symm
  · have hj' := hbyte j (by omega)
    rw [List.getElem?_append_left hj] at hj'
    have hne : b.b j ≠ 0 := fun hzero => h0 (hzero ▸ List.mem_of_getElem? hj')
    simpa using hne

end Strings

/-! ### The list of candidates -/

namespace Autocomp

section List

variable {a : Autocomp E} {startWith : List UInt8} {b : Yldynb} {s : List UInt8}

def lines (startWith : List UInt8) (keys : List (List UInt8)) : List UInt8 :=
  keys.flatMap fun key => startWith ++ key ++ cstr "\n"

theorem length_lines_cons (startWith key : List UInt8) (keys : List (List UInt8)) :
    (lines startWith (key :: keys)).length =
      (startWith ++ key ++ cstr "\n").length + (lines startWith keys).length := by
  rw [lines, List.flatMap_cons, List.length_append, lines]

theorem takeWhile_of_notMem {s : List UInt8} (h : 0 ∉ s) : s.takeWhile (· ≠ 0) = s :=
  List.takeWhile_eq_self_iff.2 fun c hc => by simpa using ne_of_mem_of_not_mem hc h

def texts (a : Autocomp E) (startWith key : List UInt8) (i j : ℕ) : List UInt8 :=
  if j = 0 then startWith ++ key ++ cstr "\n" else a.rest i j

theorem appendRows_cons (a : Autocomp E) (startWith : List UInt8) {key : List UInt8}
    (hkey : 0 ∉ key) (i : ℕ) (rows : List (List UInt8)) (b : Yldynb) :
    a.appendRows startWith i ((key ++ [0]) :: rows) b =
      (b.yldynbstrAppend
        (fun j => if a.mem (b.limit * 2 ^ (j + 1) % 2 ^ 32) then some (a.grown i j) else none)
        (a.texts startWith key i)).bind (a.appendRows startWith (i + 1) rows) := by
  rw [appendRows, takeWhile_concat_zero, takeWhile_of_notMem hkey]
  rfl

/-- The rows of names without a 0 are appended as long as they fit. -/
theorem appendRows_fits (a : Autocomp E) (startWith : List UInt8) :
    ∀ (keys : List (List UInt8)) (i : ℕ) {b : Yldynb} {s : List UInt8},
    b.Valid → b.limit < 2 ^ 31 → b.contents = s ++ [0] → (∀ key ∈ keys, 0 ∉ key) →
      s.length + 1 + (lines startWith keys).length < b.limit →
        ∃ b', a.appendRows startWith i (keys.map (· ++ [0])) b = some b' ∧
          b'.contents = s ++ lines startWith keys ++ [0]
  | [], i, b, s, _, _, hs, _, _ => ⟨b, rfl, by rw [hs, lines, List.flatMap_nil, List.append_nil]⟩
  | key :: keys, i, b, s, hb, hlimit, hs, hzero, hfits => by
      rw [length_lines_cons] at hfits
      rw [List.map_cons, appendRows_cons a startWith (hzero key List.mem_cons_self)]
      obtain ⟨b₁, happend, hb₁, hl₁, hs₁⟩ := yldynbstrAppend_fits
        (fun j => if a.mem (b.limit * 2 ^ (j + 1) % 2 ^ 32) then some (a.grown i j) else none)
        (a.texts startWith key i) hb hs (by rw [texts, if_pos rfl]; omega)
        (by rw [texts, if_pos rfl]; omega)
      rw [happend, Option.bind_some]
      obtain ⟨b', hrows, hs'⟩ := appendRows_fits a startWith keys (i + 1) hb₁ (hl₁ ▸ hlimit) hs₁
        (fun k hk => hzero k (List.mem_cons_of_mem _ hk)) (by
          rw [hl₁, List.length_append, texts, if_pos rfl]
          omega)
      refine ⟨b', hrows, ?_⟩
      rw [hs', texts, if_pos rfl, lines, lines, List.flatMap_cons, List.append_assoc s]

/-- If they do not, a later round may read a text that is too long. -/
theorem appendRows_long (hmem : ∀ n, a.mem n = true)
    (hrest : ∀ i j, 2 ^ 31 ≤ (a.rest i j).length) :
    ∀ (keys : List (List UInt8)) (i : ℕ) {b : Yldynb} {s : List UInt8},
      b.Valid → b.limit < 2 ^ 31 → b.contents = s ++ [0] → s.length + 1 < b.limit →
        (∀ key ∈ keys, 0 ∉ key) →
          (∀ key ∈ keys, (startWith ++ key ++ cstr "\n").length < 2 ^ 31) →
            b.limit ≤ s.length + 1 + (lines startWith keys).length →
              a.appendRows startWith i (keys.map (· ++ [0])) b = none
  | [], i, b, s, _, _, _, hroom, _, _, hlong => absurd hroom (Nat.not_lt.2 hlong)
  | key :: keys, i, b, s, hb, hlimit, hs, hroom, hzero, hshort, hlong => by
      have hlen : (a.texts startWith key i 0).length < 2 ^ 31 := hshort key List.mem_cons_self
      rw [length_lines_cons] at hlong
      rw [List.map_cons, appendRows_cons a startWith (hzero key List.mem_cons_self)]
      by_cases hfits : s.length + 1 + (a.texts startWith key i 0).length < b.limit
      · obtain ⟨b₁, happend, hb₁, hl₁, hs₁⟩ := yldynbstrAppend_fits
          (fun j => if a.mem (b.limit * 2 ^ (j + 1) % 2 ^ 32) then some (a.grown i j) else none)
          (a.texts startWith key i) hb hs hlen hfits
        rw [happend, Option.bind_some]
        rw [texts, if_pos rfl] at hfits hs₁
        refine appendRows_long hmem hrest keys (i + 1) hb₁ (hl₁ ▸ hlimit) hs₁ ?_
          (fun k hk => hzero k (List.mem_cons_of_mem _ hk))
          (fun k hk => hshort k (List.mem_cons_of_mem _ hk)) ?_
        · rw [hl₁, List.length_append]
          omega
        · rw [hl₁, List.length_append]
          omega
      · rw [yldynbstrAppend_long hb hs (by rw [hmem]; rfl) hlimit hlen (Nat.not_lt.1 hfits)
          (hrest i 1), Option.bind_none]

end List

/-! ### The answer -/

section Answers

variable {a : Autocomp E} {pref : Dynb} {b : Yldynb} {text cmd : List UInt8}

theorem yldynbstrLen_eq (hb : b.contents = text ++ [0]) (hlen : text.length < 2 ^ 32) :
    b.yldynbstrLen = text.length := by
  rw [yldynbstrLen, sz_of_contents hb]
  omega

/-- The text of a string buffer is sent behind the command. -/
theorem respond_eq (hmem : ∀ n, a.mem n = true) (hpref : pref.Pow2)
    (hcmd : 0 ∉ cmd ∧ cmd.length ≤ 14) (hb : b.contents = text ++ [0])
    (hlen : text.length < 4096) :
    a.respond cmd b pref = some (packet (cmd, text)) := by
  have htext : text.length < 2 ^ 32 := by omega
  have htake : cmd.take (cmd.length % 2 ^ 32) = cmd := by
    rw [Nat.mod_eq_of_lt (by omega), List.take_length]
  obtain ⟨b', hbuild, hbytes⟩ := (build_iff a.mem hpref hcmd.1 htext).2
    ⟨grows_of_mem hmem (by rw [htake]; omega), rfl⟩
  have hsame : pduBuild a.mem pref (cmd ++ [0]) b.contents (UInt32.ofNat b.yldynbstrLen) =
      build a.mem pref (cmd ++ [0]) text := by
    rw [build, pduBuild, pduBuild, yldynbstrLen_eq hb htext, toNat_ofNat_length htext, hb,
      List.take_left, List.take_length]
  rw [respond, hsame, hbuild, Option.map_some, hbytes, htake]
  rfl

theorem contents_reset (b : Yldynb) : b.yldynbstrReset.contents = [] ++ [0] := by
  have hmap := map_overlay b.b 0 [0]
  rw [Nat.zero_add, List.length_singleton] at hmap
  exact hmap

theorem valid_reset (h1 : 1 ≤ b.limit) (h2 : b.limit < 2 ^ 32) : b.yldynbstrReset.Valid := ⟨h1, h2⟩

end Answers

section Undisturbed

variable {a : Autocomp E} {s : Slut E} {startWith data : List UInt8} {b : Yldynb}

theorem le_longest {key : List UInt8} : ∀ {keys : List (List UInt8)}, key ∈ keys →
    key.length ≤ longest keys
  | [], h => absurd h List.not_mem_nil
  | k :: keys, h => by
      rw [longest]
      rcases List.mem_cons.1 h with rfl | h
      · exact Nat.le_max_left _ _
      · exact Nat.le_trans (le_longest h) (Nat.le_max_right _ _)

theorem later_client (hothers : a.others = []) : (a.client startWith).later s = s := by
  rw [Client.later, client, hothers]
  rfl

theorem rows_client (startWith : List UInt8) (hs : s.t.Canonical) (hothers : a.others = []) :
    ((a.client startWith).fill s).2.rows =
      ((s.follow startWith).take ((s.follow startWith).length % 2 ^ 32)).map (· ++ [0]) := by
  have hrows := Client.rows_fill (c := a.client startWith) hs
  rw [later_client hothers] at hrows
  exact hrows

theorem listing_cases (hs : s.t.Canonical) (hothers : a.others = []) :
    a.listing s startWith b = none ∨ ∃ m, a.listing s startWith b =
      a.appendRows startWith 0 (((s.follow startWith).take m).map (· ++ [0])) b.yldynbstrReset := by
  rw [listing, rows_client startWith hs hothers]
  split
  · exact Or.inr ⟨_, rfl⟩
  · exact Or.inl rfl

/-- When their number is an `int`, all of them are. -/
theorem listing_eq (hs : s.t.Canonical) (hmem : ∀ n, a.mem n = true) (hothers : a.others = [])
    (h2 : 2 ≤ (s.follow startWith).length) (hint : (s.follow startWith).length < 2 ^ 31) :
    a.listing s startWith b =
      a.appendRows startWith 0 ((s.follow startWith).map (· ++ [0])) b.yldynbstrReset := by
  have hmod : (s.follow startWith).length % 2 ^ 32 = (s.follow startWith).length :=
    Nat.mod_eq_of_lt (by omega)
  have hrows := rows_client startWith hs hothers
  rw [hmod, List.take_length] at hrows
  have hnr := Client.nr_fst (c := a.client startWith) hs
  change _ = toInt ((s.follow startWith).length % 2 ^ 32) at hnr
  rw [hmod, toInt, if_pos hint] at hnr
  have hinBounds : (a.client startWith).InBounds s := by
    refine (Client.inBounds_iff hs).2 ⟨by rw [client, hmod]; exact hint, fun key hkey => ?_⟩
    rw [later_client hothers] at hkey
    exact le_longest (List.mem_of_mem_take hkey)
  have hcomplete : (a.client startWith).Complete s :=
    (Client.complete_iff hs hothers (by rw [client, hmod]; exact hint)).2
      ⟨Nat.lt_trans hint (by decide), Or.inr (List.ne_nil_of_length_pos
        (show 0 < (s.follow startWith).length by omega))⟩
  have hnum : ((a.client startWith).nr s).1 > 1 := by
    rw [hnr]
    omega
  rw [listing, if_pos ⟨hnum, hmem _, hmem _, hinBounds.2, hcomplete.1⟩, hrows]

theorem freesz_strInit (m : ℕ → UInt8) : (yldynbstrInit 4096 m).yldynbFreesz = 4096 := by
  rw [Yldynb.yldynbFreesz]
  change (4096 + 1 + 2 ^ 32 - 1) % 2 ^ 32 = 4096
  omega

theorem complete_ret {pref : Dynb} {r : ℤ} {buf : ℕ → UInt8} {w : List UInt8}
    (hbytes : pref.bytes.takeWhile (· ≠ 0) = startWith)
    (hret : s.ylsluAutoComplete startWith (yldynbstrInit 4096 a.fresh).b 4096 = .ret r buf)
    (hw : (List.range (w.length + 1)).map buf = w ++ [0]) (h0 : 0 ∉ w) (hlt : w.length < 4096) :
    ∃ b : Yldynb, b.limit = 4097 ∧ b.contents = w ++ [0] ∧ a.complete s pref =
      if r = 0 then
        if w.length > 0 then a.respond cmdAutocompMore b pref
        else (a.listing (Answer.run Slut.step a.between s).2 startWith b).bind fun b =>
          a.respond cmdAutocompPrint b pref
      else if r = 1 then a.respond cmdAutocompComp b pref
      else if r = 2 then a.respond cmdAutocompPrint b.yldynbstrReset pref
      else none := by
  have hstrlen : (Yldynb.mk (yldynbstrInit 4096 a.fresh).limit (yldynbstrInit 4096 a.fresh).sz
      buf).strlen = some w.length := strlen_eq (Nat.lt_succ_of_lt hlt) h0 hw rfl
  have hcontents : (Yldynb.mk (yldynbstrInit 4096 a.fresh).limit (w.length + 1) buf).contents =
      w ++ [0] := hw
  refine ⟨⟨(yldynbstrInit 4096 a.fresh).limit, w.length + 1, buf⟩, rfl, hcontents, ?_⟩
  rw [complete, hbytes, freesz_strInit, hret]
  dsimp only
  rw [hstrlen, Option.bind_some, yldynbstrLen_eq hcontents (by omega)]

theorem notMem_follow (hs : s.t.Canonical)
    (hzero : ∀ sym, (s.t.yltrieGet sym).isSome → 0 ∉ sym) {key : List UInt8}
    (hkey : key ∈ s.follow startWith) : 0 ∉ key := fun h0 =>
  hzero _ ((mem_follow hs).1 hkey) (List.mem_append_right _ h0)

theorem notMem_commonAll (hs : s.t.Canonical)
    (hzero : ∀ sym, (s.t.yltrieGet sym).isSome → 0 ∉ sym) (hne : s.follow startWith ≠ []) :
    0 ∉ Prefix.commonAll (s.follow startWith) := by
  obtain ⟨key, hkey⟩ := List.exists_mem_of_ne_nil _ hne
  have hpre := (Prefix.isLongest_commonAll hne).common key hkey
  exact fun h0 => notMem_follow hs hzero hkey (hpre.subset h0)

/-- The names that extend a prefix have fewer lines than the list has bytes. -/
theorem length_le_lines (startWith : List UInt8) : ∀ keys : List (List UInt8),
    keys.length ≤ (lines startWith keys).length
  | [] => Nat.zero_le _
  | key :: keys => by
      have hle := length_le_lines startWith keys
      have hnl : (startWith ++ key ++ cstr "\n").length = startWith.length + key.length + 1 := by
        rw [List.length_append, List.length_append]
        rfl
      rw [length_lines_cons, List.length_cons, hnl]
      omega

section Answers

variable (hs : s.t.Canonical) (hzero : ∀ sym, (s.t.yltrieGet sym).isSome → 0 ∉ sym)
  (hmem : ∀ n, a.mem n = true) {pref : Dynb} (hpref : pref.Pow2)
  (hbytes : pref.bytes.takeWhile (· ≠ 0) = startWith)

include hs hmem hpref hbytes in
theorem complete_nil (hnil : s.follow startWith = []) :
    a.complete s pref =
      if startWith = [] then none else some (packet (cmdAutocompPrint, [])) := by
  have hspec := Slut.autoComplete_spec hs startWith (yldynbstrInit 4096 a.fresh).b 4096
    (by decide)
  rw [if_pos hnil] at hspec
  by_cases hstart : startWith = []
  · rw [if_pos hstart] at hspec ⊢
    rw [complete, hbytes, freesz_strInit, hspec]
  · rw [if_neg hstart] at hspec ⊢
    obtain ⟨b, -, -, heq⟩ := complete_ret (w := []) hbytes hspec rfl List.not_mem_nil (by decide)
    rw [heq, if_neg (by decide), if_neg (by decide), if_pos (by decide)]
    exact respond_eq hmem hpref (by decide) (contents_reset b) (by decide)

include hs hzero hmem hpref hbytes in
/-- One name does, or several that go on in the same way. -/
theorem complete_common (hne : s.follow startWith ≠ [])
    (hcommon : (s.follow startWith).length ≤ 1 ∨ Prefix.commonAll (s.follow startWith) ≠ []) :
    a.complete s pref = some (packet (answer startWith (s.follow startWith))) := by
  have hspec := Slut.autoComplete_spec hs startWith (yldynbstrInit 4096 a.fresh).b 4096
    (by decide)
  rw [if_neg hne] at hspec
  obtain ⟨buf, hw, hret⟩ := hspec
  have h0 := notMem_commonAll hs hzero hne
  have hlt := Slut.length_commonAll_lt hs hne
  rw [Trie.maxKeyLen] at hlt
  obtain ⟨b, -, hb, heq⟩ := complete_ret hbytes hret hw h0 (by omega)
  rw [heq]
  generalize s.follow startWith = keys at *
  cases keys with
  | nil => exact absurd rfl hne
  | cons key keys =>
      cases keys with
      | nil =>
          have hlen : [key].length ≤ 1 := Nat.le_refl 1
          rw [if_pos hlen, if_neg (by decide), if_pos (by decide)]
          exact respond_eq hmem hpref (by decide) hb (Nat.lt_trans hlt (by decide))
      | cons key' keys =>
          have hlen : ¬ (key :: key' :: keys).length ≤ 1 := by simp
          have hw' : Prefix.commonAll (key :: key' :: keys) ≠ [] := hcommon.resolve_left hlen
          rw [if_neg hlen, if_pos (by decide), if_pos (List.length_pos_of_ne_nil hw'), answer,
            if_neg hw']
          exact respond_eq hmem hpref (by decide) hb (Nat.lt_trans hlt (by decide))

include hs hbytes in
theorem complete_branch (hbetween : a.between = []) (h2 : 2 ≤ (s.follow startWith).length)
    (hcommon : Prefix.commonAll (s.follow startWith) = []) :
    ∃ b : Yldynb, b.limit = 4097 ∧ a.complete s pref =
      (a.listing s startWith b).bind fun b => a.respond cmdAutocompPrint b pref := by
  have hne : s.follow startWith ≠ [] := List.ne_nil_of_length_pos (by omega)
  have hspec := Slut.autoComplete_spec hs startWith (yldynbstrInit 4096 a.fresh).b 4096
    (by decide)
  rw [if_neg hne, hcommon, if_neg (by omega)] at hspec
  obtain ⟨buf, hw, hret⟩ := hspec
  obtain ⟨b, hlimit, -, heq⟩ := complete_ret hbytes hret hw List.not_mem_nil (by decide)
  rw [if_pos (by decide), if_neg (by decide), hbetween] at heq
  exact ⟨b, hlimit, heq⟩

include hs hzero hmem hpref hbytes in
/-- They are listed when the lines fit into the buffer. -/
theorem complete_lines (hbetween : a.between = []) (hothers : a.others = [])
    (h2 : 2 ≤ (s.follow startWith).length)
    (hcommon : Prefix.commonAll (s.follow startWith) = [])
    (hfits : (lines startWith (s.follow startWith)).length < 4096) :
    a.complete s pref =
      some (packet (cmdAutocompPrint, lines startWith (s.follow startWith))) := by
  obtain ⟨b, hlimit, heq⟩ := complete_branch hs hbytes hbetween h2 hcommon
  have hroom : b.yldynbstrReset.limit = 4097 := hlimit
  have hle := length_le_lines startWith (s.follow startWith)
  obtain ⟨b', hrows, hb'⟩ := appendRows_fits a startWith (s.follow startWith) 0
    (valid_reset (by rw [hlimit]; decide) (by rw [hlimit]; decide)) (by rw [hroom]; decide)
    (contents_reset b) (fun _ hkey => notMem_follow hs hzero hkey)
    (by rw [hroom, List.length_nil]; omega)
  rw [heq, listing_eq hs hmem hothers h2 (by omega), hrows, Option.bind_some]
  exact respond_eq hmem hpref (by decide) hb' hfits

include hs hzero hmem hpref hbytes in
/-- If they do not, the answer is not the list when the later rounds read what is too long. -/
theorem complete_lines_long (hbetween : a.between = []) (hothers : a.others = [])
    (h2 : 2 ≤ (s.follow startWith).length)
    (hcommon : Prefix.commonAll (s.follow startWith) = [])
    (hlong : 4096 ≤ (lines startWith (s.follow startWith)).length)
    (hrest : ∀ i j, 2 ^ 31 ≤ (a.rest i j).length) :
    a.complete s pref ≠
      some (packet (cmdAutocompPrint, lines startWith (s.follow startWith))) := by
  intro hsome
  obtain ⟨b, hlimit, heq⟩ := complete_branch hs hbytes hbetween h2 hcommon
  have hroom : b.yldynbstrReset.limit = 4097 := hlimit
  have hvalid : b.yldynbstrReset.Valid :=
    valid_reset (by rw [hlimit]; decide) (by rw [hlimit]; decide)
  rw [heq] at hsome
  rcases listing_cases (a := a) (b := b) hs hothers with hnone | ⟨m, hm⟩
  · rw [hnone] at hsome
    cases hsome
  have hkeys : ∀ key ∈ (s.follow startWith).take m, 0 ∉ key := fun key hkey =>
    notMem_follow hs hzero (List.mem_of_mem_take hkey)
  have hshort : ∀ key ∈ (s.follow startWith).take m,
      (startWith ++ key ++ cstr "\n").length < 2 ^ 31 := by
    intro key hkey
    have hlen := Slut.length_of_mem_follow hs (List.mem_of_mem_take hkey)
    have hnl : (cstr "\n").length = 1 := rfl
    rw [Trie.maxKeyLen] at hlen
    rw [List.length_append, List.length_append, hnl]
    omega
  rw [hm] at hsome
  rcases Nat.lt_or_ge (lines startWith ((s.follow startWith).take m)).length 4096 with hlt | hge
  · -- What is listed is not all, since it fits.
    obtain ⟨b', hrows, hb'⟩ := appendRows_fits a startWith _ 0 hvalid
      (by rw [hroom]; decide) (contents_reset b) hkeys (by rw [hroom, List.length_nil]; omega)
    rw [hrows, Option.bind_some, respond_eq hmem hpref (by decide) hb' hlt] at hsome
    have hsame := List.append_cancel_left (Option.some.inj hsome)
    have hlines : lines startWith ((s.follow startWith).take m) =
        lines startWith (s.follow startWith) := (List.cons.inj hsame).2
    rw [hlines] at hlt
    omega
  · rw [appendRows_long hmem hrest _ 0 hvalid (by rw [hroom]; decide) (contents_reset b)
      (by rw [hroom]; decide) hkeys hshort (by rw [hroom, List.length_nil]; omega)] at hsome
    cases hsome

end Answers

theorem append_pref (hmem : ∀ n, a.mem n = true) (data : List UInt8) :
    if data.length < 2 ^ 31 then
      ∃ pref, (((Dynb.yldynbInit 4096).yldynbAppend a.mem data).bind fun pref =>
        pref.yldynbAppend a.mem [0]) = some pref ∧ pref.bytes = data ++ [0] ∧ pref.Pow2
    else (((Dynb.yldynbInit 4096).yldynbAppend a.mem data).bind fun pref =>
      pref.yldynbAppend a.mem [0]) = none := by
  have hpow : (Dynb.yldynbInit 4096).Pow2 := Dynb.pow2_init (a := 12) (by decide)
  split
  next hlen =>
    obtain ⟨b, happend, hbytes, hb, -⟩ := Dynb.append_spec (d := data) hpow
      (grows_of_mem hmem (by
        change 0 + data.length ≤ 2 ^ 31
        omega))
    have hbytes' : b.bytes = data := hbytes
    obtain ⟨pref, happend', hpref, hpow', -⟩ := Dynb.append_spec (d := [0]) hb
      (grows_of_mem hmem (by
        rw [hbytes']
        exact hlen))
    rw [happend, Option.bind_some]
    exact ⟨pref, happend', hpref.trans (by rw [hbytes']), hpow'⟩
  next hlen =>
    cases happend : (Dynb.yldynbInit 4096).yldynbAppend a.mem data with
    | none => rfl
    | some b =>
        have hg := Dynb.grows_of_append hpow happend
        obtain ⟨b', happend', hbytes, hb, -⟩ := Dynb.append_spec hpow hg
        rw [happend] at happend'
        cases happend'
        have hbytes' : b.bytes = data := hbytes
        rw [Option.bind_some]
        by_contra hne
        obtain ⟨pref, hpref⟩ := Option.ne_none_iff_exists'.1 hne
        have hle := (Dynb.grows_of_append hb hpref).1
        rw [hbytes', List.length_singleton] at hle
        omega

end Undisturbed

end Autocomp

theorem answer_lines {startWith : List UInt8} {keys : List (List UInt8)} (h2 : 2 ≤ keys.length)
    (hcommon : Prefix.commonAll keys = []) :
    answer startWith keys = (cmdAutocompPrint, Autocomp.lines startWith keys) := by
  cases keys with
  | nil => exact absurd h2 (by decide)
  | cons key keys =>
      cases keys with
      | nil => exact absurd h2 (by simp)
      | cons key' keys => rw [answer, if_pos hcommon, Autocomp.lines]

theorem answer_common {startWith : List UInt8} {keys : List (List UInt8)} (hne : keys ≠ [])
    (h : keys.length ≤ 1 ∨ Prefix.commonAll keys ≠ []) :
    (answer startWith keys).2 = Prefix.commonAll keys := by
  cases keys with
  | nil => exact absurd rfl hne
  | cons key keys =>
      cases keys with
      | nil => rfl
      | cons key' keys => rw [answer, if_neg (h.resolve_left (by simp))]

/-- On every table that calls lead to, and when no other thread intervenes: the packet that
answers a request is the right one, whatever `yldynbstr_append` reads from a `va_list` that is
used up, exactly when the request is short enough, the prefix is not empty or there is a name,
and the data of the answer fits into the buffer. -/
theorem cmdAutocomp_iff (calls : List (SlutCall E)) (hcalls : ∀ c ∈ calls, c.Named)
    (value : ℕ → Value E) (text : ℕ → List UInt8) (a : Autocomp E)
    (hmem : ∀ n, a.mem n = true) (hbetween : a.between = []) (hothers : a.others = [])
    (data : List UInt8) :
    let s := (Answer.run Slut.step calls (Slut.ylsluCreate value text)).2
    let startWith := data.takeWhile (· ≠ 0)
    (∀ rest, ({ a with rest := rest } : Autocomp E).cmdAutocomp s data =
        some (packet (answer startWith (s.follow startWith)))) ↔
      data.length < 2 ^ 31 ∧ (startWith ≠ [] ∨ s.follow startWith ≠ []) ∧
        (answer startWith (s.follow startWith)).2.length < 4096 := by
  obtain ⟨hs, hzero⟩ := Slut.named_run hcalls value text
  generalize (Answer.run Slut.step calls (Slut.ylsluCreate value text)).2 = s at hs hzero
  dsimp only
  have hbytes : ∀ pref : Dynb, pref.bytes = data ++ [0] →
      pref.bytes.takeWhile (· ≠ 0) = data.takeWhile (· ≠ 0) := fun pref h => by
    rw [h, takeWhile_concat_zero]
  generalize data.takeWhile (· ≠ 0) = startWith at hbytes
  have hpref := Autocomp.append_pref hmem data
  split at hpref
  next hlen =>
    obtain ⟨pref, happend, hpref, hpow⟩ := hpref
    have heq : ∀ rest, ({ a with rest := rest } : Autocomp E).cmdAutocomp s data =
        ({ a with rest := rest } : Autocomp E).complete s pref := by
      intro rest
      rw [Autocomp.cmdAutocomp, if_pos ⟨hmem _, hmem _⟩, happend, Option.bind_some]
    simp only [heq, hlen, true_and]
    by_cases hnil : s.follow startWith = []
    · have hcomplete := fun rest => Autocomp.complete_nil (a := { a with rest := rest }) hs hmem
        hpow (hbytes pref hpref) hnil
      rw [hnil]
      simp only [hcomplete]
      by_cases hstart : startWith = []
      · rw [if_pos hstart]
        refine iff_of_false (fun h => ?_) fun h => h.1.elim (fun h => h hstart) fun h => h rfl
        cases h fun _ _ => []
      · rw [if_neg hstart]
        exact iff_of_true (fun _ => rfl) ⟨Or.inl hstart, show 0 < 4096 by decide⟩
    by_cases hcommon : (s.follow startWith).length ≤ 1 ∨ Prefix.commonAll (s.follow startWith) ≠ []
    · have hshort := Slut.length_commonAll_lt hs hnil
      rw [Trie.maxKeyLen] at hshort
      refine iff_of_true (fun rest => ?_) ⟨Or.inr hnil, ?_⟩
      · exact Autocomp.complete_common (a := { a with rest := rest }) hs hzero hmem hpow
          (hbytes pref hpref) hnil hcommon
      · rw [answer_common hnil hcommon]
        omega
    · rw [not_or, not_not, Nat.not_le] at hcommon
      rw [answer_lines hcommon.1 hcommon.2]
      constructor
      · intro h
        refine ⟨Or.inr hnil, ?_⟩
        by_contra hlong
        exact Autocomp.complete_lines_long
          (a := { a with rest := fun _ _ => List.replicate (2 ^ 31) 0 }) hs hzero hmem hpow
          (hbytes pref hpref) hbetween hothers hcommon.1 hcommon.2 (Nat.not_lt.1 hlong)
          (fun _ _ => Nat.le_of_eq List.length_replicate.symm) (h _)
      · intro h rest
        exact Autocomp.complete_lines (a := { a with rest := rest }) hs hzero hmem hpow
          (hbytes pref hpref) hbetween hothers hcommon.1 hcommon.2 h.2
  next hlen =>
    refine iff_of_false (fun h => ?_) fun h => hlen h.1
    have hsome := h fun _ _ => []
    rw [Autocomp.cmdAutocomp, if_pos ⟨hmem _, hmem _⟩, hpref, Option.bind_none] at hsome
    cases hsome

/-- A request for what follows `c`, when nothing fails and other threads do nothing. -/
def quietly : Autocomp ℕ :=
  ⟨fun _ => true, fun _ => 0, fun _ _ _ => 0, [], [], 0, fun _ => 0, fun _ => 0, fun _ _ => []⟩

theorem cmdAutocomp_iff_car : (0 ∉ cstr "car" ∧ 0 ∉ cstr "cdr") ∧
    ∀ rest, ({ quietly with rest := rest } : Autocomp ℕ).cmdAutocomp
      (Answer.run Slut.step [.insert (cstr "car") 0 5, .insert (cstr "cdr") 0 6]
        (Slut.ylsluCreate (fun _ => ⟨0, .null, 0⟩) fun _ => [])).2 (cstr "c") =
      some (packet (cmdAutocompPrint, cstr "car\ncdr\n")) := by
  have hzero : 0 ∉ cstr "car" ∧ 0 ∉ cstr "cdr" := by decide
  have hanswer : answer ((cstr "c").takeWhile (· ≠ 0)) ((Answer.run Slut.step
      [.insert (cstr "car") 0 5, .insert (cstr "cdr") 0 6]
      (Slut.ylsluCreate (fun _ => ⟨0, .null, 0⟩) fun _ => [])).2.follow
        ((cstr "c").takeWhile (· ≠ 0))) = (cmdAutocompPrint, cstr "car\ncdr\n") := by
    decide +kernel
  have hiff := cmdAutocomp_iff [.insert (cstr "car") 0 5, .insert (cstr "cdr") 0 6]
    (fun c hc => by
      rcases List.mem_cons.1 hc with rfl | hc
      · exact hzero.1
      · rcases List.mem_singleton.1 hc with rfl
        exact hzero.2)
    (fun _ => ⟨0, .null, 0⟩) (fun _ => []) quietly (fun _ => rfl) rfl rfl (cstr "c")
  dsimp only at hiff
  rw [hanswer] at hiff
  exact ⟨hzero, hiff.2 ⟨by decide, Or.inl (by decide), by decide⟩⟩

end Yld

end Ylisp
