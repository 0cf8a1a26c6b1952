import Mathlib.Data.List.Nodup
import Ylisp.Symlookup.Table

/-!
# Candidates for a prefix

A client asks with `ylsym_nr_candidates` how many symbols extend a prefix and how long the
longest continuation is, allocates that many rows, and has `ylsym_candidates` fill them.
Each call holds the lock of the global table; between the two, other threads may call.

The second call stops at the number of rows, and ignores the size of a row. The exact
condition under which the rows are large enough, and hold all candidates when nobody
intervenes, is `Promised` (`candidates_iff`).
-/

namespace Ylisp

namespace Symlookup

variable {E : Type*}

def toInt (u : ℕ) : ℤ := if u < 2 ^ 31 then u else u - 2 ^ 32

def toUnsigned (i : ℤ) : ℕ := (i % 2 ^ 32).toNat

/-- `struct _candidates_sz`. -/
structure CandidatesSz where
  cnt : ℕ
  maxlen : ℕ

/-- `struct _candidates`, with the bytes that were written to each row. -/
structure Candidates where
  ppbuf : ℕ → List UInt8
  ppbsz : ℕ
  i : ℕ

def cbNrCandidates (st : CandidatesSz) (key : List UInt8) (_v : ℕ) : CandidatesSz × Bool :=
  (⟨(st.cnt + 1) % 2 ^ 32, if st.maxlen < key.length then key.length else st.maxlen⟩, true)

def cbCandidates (st : Candidates) (key : List UInt8) (_v : ℕ) : Candidates × Bool :=
  if st.i ≥ st.ppbsz then (st, false)
  else ({ st with ppbuf := Function.update st.ppbuf st.i (key ++ [0]), i := st.i + 1 }, true)

namespace Candidates

def rows (st : Candidates) : List (List UInt8) := (List.range st.i).map st.ppbuf

end Candidates

namespace Slut

/-- `ylslu_nr_candidates`: the number, and the variable `*max_symlen` after the call. -/
def ylsluNrCandidates (s : Slut E) (startWith : List UInt8) (buf : ℕ → UInt8)
    (maxSymlen : ℕ) : ℤ × ℕ :=
  let r := s.t.yltrieWalk startWith buf cbNrCandidates ⟨0, 0⟩
  if 0 > r.2 then (0, maxSymlen) else (toInt r.1.cnt, r.1.maxlen)

def ylsluCandidates (s : Slut E) (startWith : List UInt8) (buf : ℕ → UInt8)
    (ppbuf : ℕ → List UInt8) (ppbsz _pbsz : ℕ) : ℤ × Candidates :=
  let r := s.t.yltrieWalk startWith buf cbCandidates ⟨ppbuf, ppbsz, 0⟩
  if 0 > r.2 then (-1, r.1) else (toInt r.1.i, r.1)

def follow (s : Slut E) (startWith : List UInt8) : List (List UInt8) :=
  (s.t.continuations startWith).map Prod.fst

end Slut

def longest : List (List UInt8) → ℕ
  | [] => 0
  | key :: keys => max key.length (longest keys)

/-- A client of the two calls, with the calls that other threads make in between. The
buffers of the two walks and the variable `maxlen` hold anything at first. -/
structure Client (E : Type*) where
  startWith : List UInt8
  others : List (SlutCall E)
  maxlen : ℕ
  buf : ℕ → UInt8
  buf' : ℕ → UInt8

namespace Client

open Slut

variable (c : Client E) (s : Slut E)

def later : Slut E := (Answer.run Slut.step c.others s).2

def nr : ℤ × ℕ := s.ylsluNrCandidates c.startWith c.buf c.maxlen

/-- The second call, on rows of `maxlen + 1` bytes. -/
def fill : ℤ × Candidates :=
  (c.later s).ylsluCandidates c.startWith c.buf' (fun _ => []) (toUnsigned (c.nr s).1)
    ((c.nr s).2 + 1)

/-- At most as many rows as there are, and at most as many bytes as each has. -/
def InBounds : Prop :=
  ((c.fill s).2.rows.length : ℤ) ≤ (c.nr s).1 ∧
    ∀ row ∈ (c.fill s).2.rows, row.length ≤ (c.nr s).2 + 1

/-- The answer is the number of the first call, and the rows are the continuations of the
prefix, each with its final 0, in the order of their bytes. -/
def Complete : Prop :=
  (c.fill s).1 = (c.nr s).1 ∧
    ∃ keys : List (List UInt8), (c.fill s).2.rows = keys.map (· ++ [0]) ∧
      keys.Pairwise (· < ·) ∧
      (∀ key, key ∈ keys ↔ (s.t.yltrieGet (c.startWith ++ key)).isSome) ∧
      (keys ≠ [] → longest keys = (c.nr s).2)

def Law : Prop := c.InBounds s ∧ (c.others = [] → c.Complete s)

/-- The number of candidates is an `int`, the first ones at the second call are no longer
than the longest at the first, and when nobody intervenes the prefix is that of a symbol,
or empty. -/
structure Promised : Prop where
  int : (s.follow c.startWith).length % 2 ^ 32 < 2 ^ 31
  short : ∀ key ∈ ((c.later s).follow c.startWith).take ((s.follow c.startWith).length % 2 ^ 32),
    key.length ≤ longest (s.follow c.startWith)
  alone : c.others = [] → (s.follow c.startWith).length < 2 ^ 32 ∧
    (c.startWith = [] ∨ s.follow c.startWith ≠ [])

end Client

/-! ### The two callbacks -/

theorem offer_cbNrCandidates : ∀ (es : List (List UInt8 × ℕ)) (cnt maxlen : ℕ),
    Trie.offer cbNrCandidates es ⟨cnt % 2 ^ 32, maxlen⟩ =
      (⟨(cnt + es.length) % 2 ^ 32, max maxlen (longest (es.map Prod.fst))⟩, 1)
  | [], cnt, maxlen => by simp [Trie.offer, longest]
  | e :: es, cnt, maxlen => by
      have hmax : (if maxlen < e.1.length then e.1.length else maxlen) = max maxlen e.1.length := by
        split <;> omega
      rw [Trie.offer]
      simp only [cbNrCandidates, if_true, hmax, Nat.mod_add_mod]
      rw [offer_cbNrCandidates es, List.length_cons, List.map_cons, longest, max_assoc,
        Nat.add_assoc, Nat.add_comm 1]

theorem offer_cbCandidates : ∀ (es : List (List UInt8 × ℕ)) (st : Candidates),
    st.i ≤ st.ppbsz →
      0 ≤ (Trie.offer cbCandidates es st).2 ∧
      (Trie.offer cbCandidates es st).1.rows =
        st.rows ++ ((es.map Prod.fst).take (st.ppbsz - st.i)).map (· ++ [0])
  | [], st, _ => by simp [Trie.offer]
  | e :: es, st, hle => by
      rw [Trie.offer, cbCandidates]
      split
      next hfull =>
        rw [Nat.sub_eq_zero_of_le hfull]
        simp
      next hroom =>
        obtain ⟨hcode, hrows⟩ := offer_cbCandidates es
          { st with ppbuf := Function.update st.ppbuf st.i (e.1 ++ [0]), i := st.i + 1 }
          (by simp only; omega)
        refine ⟨hcode, hrows.trans ?_⟩
        have hfirst : (List.range st.i).map (Function.update st.ppbuf st.i (e.1 ++ [0])) =
            st.rows := by
          refine List.map_congr_left fun j hj => ?_
          exact Function.update_of_ne (Nat.ne_of_lt (List.mem_range.1 hj)) _ _
        have hsub : st.ppbsz - st.i = st.ppbsz - (st.i + 1) + 1 := by omega
        rw [Candidates.rows, List.range_succ, List.map_append, hfirst, hsub]
        simp

/-! ### The two calls -/

section Calls

variable {s : Slut E}

theorem toUnsigned_toInt {u : ℕ} (hu : u < 2 ^ 32) : toUnsigned (toInt u) = u := by
  rw [toUnsigned, toInt]
  split <;> omega

theorem nrCandidates_eq (startWith : List UInt8) (buf : ℕ → UInt8) (maxlen : ℕ) :
    s.ylsluNrCandidates startWith buf maxlen =
      if (Trie.getNode s.t.rt startWith).isNull then (0, maxlen)
      else (toInt ((s.follow startWith).length % 2 ^ 32), longest (s.follow startWith)) := by
  rw [Slut.ylsluNrCandidates, Trie.yltrieWalk_eq]
  split
  · rfl
  · have hoffer := offer_cbNrCandidates (s.t.continuations startWith) 0 0
    rw [Nat.zero_mod] at hoffer
    rw [hoffer, Slut.follow, List.length_map]
    simp

theorem candidates_eq (startWith : List UInt8) (buf : ℕ → UInt8) (ppbsz pbsz : ℕ) :
    (s.ylsluCandidates startWith buf (fun _ => []) ppbsz pbsz).2.rows =
        ((s.follow startWith).take ppbsz).map (· ++ [0]) ∧
      (s.ylsluCandidates startWith buf (fun _ => []) ppbsz pbsz).1 =
        if (Trie.getNode s.t.rt startWith).isNull then -1
        else toInt (min ppbsz (s.follow startWith).length) := by
  rw [Slut.ylsluCandidates, Trie.yltrieWalk_eq]
  split
  next hnull =>
    have hnil : s.follow startWith = [] := by
      rw [Slut.follow, Trie.continuations, (Trie.Node.isNull_iff _).1 hnull]
      rfl
    rw [hnil]
    exact ⟨by simp [Candidates.rows], rfl⟩
  next =>
    obtain ⟨hcode, hrows⟩ := offer_cbCandidates (s.t.continuations startWith)
      ⟨fun _ => [], ppbsz, 0⟩ (Nat.zero_le _)
    change _ = [] ++ (List.take ppbsz (s.follow startWith)).map _ at hrows
    have hlen := congrArg List.length hrows
    rw [List.nil_append, List.length_map, List.length_take, Candidates.rows, List.length_map,
      List.length_range] at hlen
    rw [if_neg (Int.not_lt.2 hcode)]
    exact ⟨hrows, congrArg toInt hlen⟩

theorem mem_follow (hs : s.t.Canonical) {startWith key : List UInt8} :
    key ∈ s.follow startWith ↔ (s.t.yltrieGet (startWith ++ key)).isSome := by
  rw [Slut.follow, List.mem_map, Option.isSome_iff_exists]
  constructor
  · rintro ⟨e, he, rfl⟩
    exact ⟨e.2, (Trie.mem_continuations hs.1).1 he⟩
  · rintro ⟨x, hx⟩
    exact ⟨(key, x), (Trie.mem_continuations hs.1).2 hx, rfl⟩

theorem follow_sorted (s : Slut E) (startWith : List UInt8) :
    (s.follow startWith).Pairwise (· < ·) :=
  List.pairwise_map.2 (s.t.continuations_sorted startWith)

theorem nodup_of_sorted {keys : List (List UInt8)} (h : keys.Pairwise (· < ·)) : keys.Nodup := by
  refine h.imp ?_
  rintro key _ hlt rfl
  exact List.lt_irrefl key hlt

theorem isNull_iff_follow (hs : s.t.Canonical) (startWith : List UInt8) :
    (Trie.getNode s.t.rt startWith).isNull = true ↔ startWith ≠ [] ∧ s.follow startWith = [] := by
  rw [Trie.isNull_iff_continuations hs, Slut.follow, List.map_eq_nil_iff]

end Calls

namespace Client

variable {c : Client E} {s : Slut E}

theorem nr_fst (hs : s.t.Canonical) :
    (c.nr s).1 = toInt ((s.follow c.startWith).length % 2 ^ 32) := by
  rw [nr, nrCandidates_eq]
  split
  next hnull =>
    rw [((isNull_iff_follow hs _).1 hnull).2]
    rfl
  next => rfl

theorem nr_snd (hs : s.t.Canonical) (h : s.follow c.startWith ≠ []) :
    (c.nr s).2 = longest (s.follow c.startWith) := by
  rw [nr, nrCandidates_eq, if_neg]
  exact fun hnull => h ((isNull_iff_follow hs _).1 hnull).2

theorem rows_fill (hs : s.t.Canonical) : (c.fill s).2.rows =
    (((c.later s).follow c.startWith).take ((s.follow c.startWith).length % 2 ^ 32)).map
      (· ++ [0]) := by
  rw [fill, (candidates_eq _ _ _ _).1, nr_fst hs, toUnsigned_toInt (Nat.mod_lt _ (by decide))]

theorem inBounds_iff (hs : s.t.Canonical) : c.InBounds s ↔
    (s.follow c.startWith).length % 2 ^ 32 < 2 ^ 31 ∧
      ∀ key ∈ ((c.later s).follow c.startWith).take ((s.follow c.startWith).length % 2 ^ 32),
        key.length ≤ longest (s.follow c.startWith) := by
  rw [InBounds, rows_fill hs, nr_fst hs, List.length_map, List.length_take, List.forall_mem_map]
  refine and_congr ?_ (forall₂_congr fun key hkey => ?_)
  · rw [toInt]
    split <;> omega
  · have hne : s.follow c.startWith ≠ [] := by
      intro hnil
      rw [hnil] at hkey
      simp at hkey
    rw [nr_snd hs hne, List.length_append, List.length_singleton, Nat.add_le_add_iff_right]

theorem complete_iff (hs : s.t.Canonical) (hothers : c.others = [])
    (hint : (s.follow c.startWith).length % 2 ^ 32 < 2 ^ 31) : c.Complete s ↔
      (s.follow c.startWith).length < 2 ^ 32 ∧ (c.startWith = [] ∨ s.follow c.startWith ≠ []) := by
  have hlater : c.later s = s := by
    rw [later, hothers]
    rfl
  have hrows := rows_fill (c := c) hs
  have hret : (c.fill s).1 = if (Trie.getNode s.t.rt c.startWith).isNull then -1
      else toInt (min ((s.follow c.startWith).length % 2 ^ 32) (s.follow c.startWith).length) := by
    rw [fill, (candidates_eq _ _ _ _).2, nr_fst hs, toUnsigned_toInt (Nat.mod_lt _ (by decide)),
      hlater]
  rw [hlater] at hrows
  rw [min_eq_left (Nat.mod_le _ _)] at hret
  constructor
  · rintro ⟨hcode, keys, hkeys, hsorted, hmem, -⟩
    constructor
    · have hperm : keys.Perm (s.follow c.startWith) :=
        (List.perm_ext_iff_of_nodup (nodup_of_sorted hsorted)
          (nodup_of_sorted (follow_sorted s _))).2 fun key => (hmem key).trans (mem_follow hs).symm
      rw [hrows] at hkeys
      have hlen := congrArg List.length hkeys
      rw [List.length_map, List.length_map, List.length_take, hperm.length_eq] at hlen
      omega
    · rw [hret, nr_fst hs] at hcode
      split at hcode
      next hnull =>
        rw [toInt, if_pos hint] at hcode
        omega
      next hnode =>
        by_contra hpre
        rw [not_or, not_not] at hpre
        exact hnode ((isNull_iff_follow hs _).2 hpre)
  · rintro ⟨hlt, hpre⟩
    have hnode : ¬ (Trie.getNode s.t.rt c.startWith).isNull = true := by
      rw [isNull_iff_follow hs]
      rintro ⟨hne, hnil⟩
      exact hpre.elim hne fun h => h hnil
    rw [Nat.mod_eq_of_lt hlt, List.take_length] at hrows
    refine ⟨?_, _, hrows, follow_sorted s _, fun key => mem_follow hs, fun hne => ?_⟩
    · rw [hret, if_neg hnode, nr_fst hs]
    · exact (nr_snd hs hne).symm

theorem law_iff (hs : s.t.Canonical) : c.Law s ↔ c.Promised s := by
  rw [Law, inBounds_iff hs]
  constructor
  · rintro ⟨⟨hint, hshort⟩, halone⟩
    exact ⟨hint, hshort, fun hothers => (complete_iff hs hothers hint).1 (halone hothers)⟩
  · rintro ⟨hint, hshort, halone⟩
    exact ⟨⟨hint, hshort⟩, fun hothers => (complete_iff hs hothers hint).2 (halone hothers)⟩

end Client

/-! ### Tables that calls lead to -/

theorem t_ylsluInsert (s : Slut E) (sym : List UInt8) (sty : ℤ) (e : E) :
    (s.ylsluInsert sym sty e).2.t = (s.t.yltrieInsert sym s.nr).2 := by
  simp only [Slut.ylsluInsert, Trie.yltrieInsertFcb_eq]
  split <;> rfl

theorem t_ylsluSetDescription (s : Slut E) (sym : List UInt8)
    (description : Option (List UInt8)) : (s.ylsluSetDescription sym description).2.t = s.t := by
  rw [Slut.ylsluSetDescription]
  split
  next => cases description <;> simp only [Slut.freeDescription_eq] <;> rfl
  next => rfl

theorem canonical_step (call : SlutCall E) {s : Slut E} (hs : s.t.Canonical) :
    (Slut.step call s).2.t.Canonical := by
  cases call with
  | insert sym sty e =>
      rw [Slut.step, t_ylsluInsert]
      exact Trie.canonical_insertPtr hs sym (some s.nr)
  | delete sym =>
      rw [Slut.step, Slut.ylsluDelete_eq hs.1]
      exact Trie.canonical_yltrieDelete hs sym
  | setDescription sym description =>
      rw [Slut.step, t_ylsluSetDescription]
      exact hs

theorem canonical_run (calls : List (SlutCall E)) (value : ℕ → Value E) (text : ℕ → List UInt8) :
    (Answer.run Slut.step calls (Slut.ylsluCreate value text)).2.t.Canonical :=
  Answer.run_induction (I := fun s : Slut E => s.t.Canonical) (Q := fun _ _ => True)
    (fun call _ _ hs => canonical_step call hs) calls _
    (Answer.allSteps_of_forall (fun _ _ _ => trivial) _) Trie.canonical_yltrieCreate

/-- On every table that calls lead to, and whatever the other threads do in between, the
two calls do what they promise exactly under the condition `Promised`. -/
theorem candidates_iff (calls : List (SlutCall E)) (value : ℕ → Value E)
    (text : ℕ → List UInt8) (c : Client E) :
    c.Law (Answer.run Slut.step calls (Slut.ylsluCreate value text)).2 ↔
      c.Promised (Answer.run Slut.step calls (Slut.ylsluCreate value text)).2 :=
  Client.law_iff (canonical_run calls value text)

/-- A client that asks for what follows `a`, while `aaaa` is inserted. -/
def overtaken : Client Unit :=
  ⟨[97], [.insert [97, 97, 97, 97] 0 ()], 0, fun _ => 0, fun _ => 0⟩

def oneSymbol : Slut Unit :=
  (Answer.run Slut.step [.insert [97, 98] 0 ()]
    (Slut.ylsluCreate (fun _ => ⟨0, .null, ()⟩) fun _ => [])).2

/-- One row of two bytes is allocated for `b`, and `aaa` is written to it. -/
theorem overtaken_not_law : ¬ overtaken.Law oneSymbol := by
  rintro ⟨⟨-, hrow⟩, -⟩
  have hrows : (overtaken.fill oneSymbol).2.rows = [[97, 97, 97, 0]] := by decide +kernel
  have hlen : (overtaken.nr oneSymbol).2 = 1 := by decide +kernel
  have h := hrow [97, 97, 97, 0] (by rw [hrows]; exact List.mem_singleton_self _)
  rw [hlen] at h
  simp at h

end Symlookup

end Ylisp
