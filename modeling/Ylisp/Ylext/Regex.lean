import Ylisp.Library.Machine
import Ylisp.Ylext.Cstring

/-!
# `re-replace`

The two versions of the function, for PCRE and for the regular expressions of POSIX, have the
same loop. It searches in what is behind the last substitute, so that an empty match at its
very beginning is found again and again.
-/

namespace Ylisp

namespace Ylext

open Machine (Always always_iff)

inductive ReMatch where
  | noMatch
  | found (so eo : ℕ)
  | error

/-- A compiled pattern. A match is inside of the text, and its ends are of type `int`. -/
structure Regex where
  exec : List UInt8 → ReMatch
  bounds : ∀ t so eo, exec t = .found so eo → so ≤ eo ∧ eo ≤ t.length ∧ eo < 2 ^ 31

/-- The library that the function is compiled for. -/
inductive RegexLib where
  | pcre
  | posix

/-- The text that the library searches: PCRE gets its length, too. -/
def RegexLib.text : RegexLib → Cstring → ℕ → List UInt8
  | pcre, subject, offset =>
      (subject.bytes.drop offset).take ((strlen32 subject.bytes + 2 ^ 32 - offset) % 2 ^ 32)
  | posix, subject, offset => subject.bytes.drop offset

/-- How `re_replace` ends: it returns a string, fails, or writes outside of its memory. -/
inductive ReEnd where
  | ret (s : Cstring)
  | bail
  | overrun

/-- A round of the loop of `re_replace`, the `i`-th one, whose allocation succeeds if `alloc i`
says so. All sums and differences of lengths are in an `unsigned int`. -/
def reRound (lib : RegexLib) (re : Regex) (glob : Bool) (subst : Cstring) (alloc : ℕ → Bool) :
    ℕ × Cstring × ℕ → ℕ × Cstring × ℕ ⊕ ReEnd
  | (i, subject, offset) =>
      let subjlen := strlen32 subject.bytes
      let substlen := strlen32 subst.bytes
      match re.exec (lib.text subject offset) with
      | .noMatch => .inr (.ret subject)
      | .error => .inr .bail
      | .found so eo =>
          let newsz := (subjlen + 2 ^ 32 - (eo - so) + substlen) % 2 ^ 32
          let front := (so + offset) % 2 ^ 32
          let rest := (subjlen + 2 ^ 32 - (eo + offset) % 2 ^ 32) % 2 ^ 32
          if alloc i then
            -- The three parts and the trailing 0, in the `newsz + 1` allocated bytes.
            if front + substlen + rest < (newsz + 1) % 2 ^ 32 then
              let newstr := (subject.take front).append
                ((subst.take substlen).append ((subject.drop (eo + offset)).take rest))
              if glob then .inl (i + 1, newstr, (front + substlen) % 2 ^ 32)
              else .inr (.ret newstr)
            else .inr .overrun
          else .inr .bail

def ReReplace (lib : RegexLib) (re : Regex) (glob : Bool) (subst : Cstring) (alloc : ℕ → Bool)
    (subject : Cstring) (r : ReEnd) : Prop :=
  if alloc 0 then Machine.Ends (reRound lib re glob subst alloc) (1, subject, 0) r
  else r = .bail

/-- A match in a text whose offset is `p.2`, and what is searched after its replacement. -/
def Rescan (re : Regex) (glob : Bool) (substlen : ℕ) (p p' : List UInt8 × ℕ) : Prop :=
  glob = true ∧ ∃ so eo, re.exec p.1 = .found so eo ∧
    p' = (cut (p.1.drop eo), p.2 + so + substlen)

/-- A match leaves less to be searched, and the new subject has a length that can be
allocated. -/
def Passes (re : Regex) (glob : Bool) (substlen : ℕ) (p : List UInt8 × ℕ) : Prop :=
  ∀ so eo, re.exec p.1 = .found so eo →
    (glob = true → (cut (p.1.drop eo)).length < p.1.length) ∧
      p.2 + so + substlen + (cut (p.1.drop eo)).length + 1 < 2 ^ 32

/-- The offset is inside of the subject, and of a subject that is too long for its length it is
the start. -/
structure Within (subject : Cstring) (offset : ℕ) : Prop where
  le : offset ≤ strlen32 subject.bytes
  start : offset = 0 ∨ subject.bytes.length < 2 ^ 32

section Round

variable {lib : RegexLib} {re : Regex} {glob : Bool} {subst : Cstring} {alloc : ℕ → Bool}
  {i offset so eo : ℕ} {subject : Cstring}

/-- The text ends where the subject does, or where its length says so. -/
theorem exists_text (lib : RegexLib) (h : Within subject offset) :
    ∃ n, lib.text subject offset = (subject.bytes.drop offset).take (n - offset) ∧ offset ≤ n ∧
      n ≤ subject.bytes.length ∧ n % 2 ^ 32 = strlen32 subject.bytes := by
  have hoff := h.le
  have hle : strlen32 subject.bytes ≤ subject.bytes.length := Nat.mod_le _ _
  have hlt : strlen32 subject.bytes < 2 ^ 32 := Nat.mod_lt _ (by decide)
  cases lib with
  | pcre =>
      refine ⟨strlen32 subject.bytes, ?_, hoff, hle, Nat.mod_eq_of_lt hlt⟩
      rw [RegexLib.text]
      congr 1
      omega
  | posix =>
      refine ⟨subject.bytes.length, ?_, Nat.le_trans hoff hle, Nat.le_refl _, rfl⟩
      rw [RegexLib.text, ← List.length_drop, List.take_length]

theorem length_text (lib : RegexLib) (h : Within subject offset) :
    (lib.text subject offset).length + offset ≤ subject.bytes.length ∧
      ((lib.text subject offset).length + offset) % 2 ^ 32 = strlen32 subject.bytes := by
  obtain ⟨n, htext, hoff, hle, hmod⟩ := exists_text lib h
  have hlen : (lib.text subject offset).length + offset = n := by
    rw [htext, List.length_take, List.length_drop]
    omega
  rw [hlen]
  exact ⟨hle, hmod⟩

theorem length_cut_drop_text (h : Within subject offset)
    (hle : eo ≤ (lib.text subject offset).length) :
    (cut ((lib.text subject offset).drop eo)).length =
      (strlen32 subject.bytes + 2 ^ 32 - (eo + offset) % 2 ^ 32) % 2 ^ 32 := by
  obtain ⟨-, hmod⟩ := length_text lib h
  rw [length_cut, strlen32, List.length_drop]
  omega

/-- What is behind a match, up to the length that is kept of it. -/
theorem cut_drop_text (h : Within subject offset) (hle : eo ≤ (lib.text subject offset).length) :
    cut ((lib.text subject offset).drop eo) =
      (subject.bytes.drop (eo + offset)).take
        ((strlen32 subject.bytes + 2 ^ 32 - (eo + offset) % 2 ^ 32) % 2 ^ 32) := by
  have hlen := length_cut_drop_text h hle
  obtain ⟨n, htext, -, -, -⟩ := exists_text lib h
  rw [length_cut] at hlen
  have hdrop : (lib.text subject offset).drop eo =
      (subject.bytes.drop (eo + offset)).take (n - offset - eo) := by
    rw [htext, List.drop_take, List.drop_drop, Nat.add_comm offset eo]
  have hmin : strlen32 ((lib.text subject offset).drop eo) ≤ n - offset - eo := by
    rw [hdrop]
    exact Nat.le_trans (Nat.mod_le _ _) (List.length_take_le _ _)
  rw [cut, ← hlen]
  conv => lhs; rw [hdrop, List.take_take, ← hdrop, Nat.min_eq_left hmin]

theorem add_offset_lt (h : Within subject offset) (hso : so ≤ eo) (heo : eo < 2 ^ 31)
    (hle : eo ≤ (lib.text subject offset).length) : so + offset < 2 ^ 32 := by
  obtain ⟨hlen, -⟩ := length_text lib h
  rcases h.start with hzero | hlt
  · omega
  · omega

/-- The length of the new subject, as it is counted and as it is written. -/
theorem fits_iff (h : Within subject offset) (hso : so ≤ eo) (heo : eo < 2 ^ 31)
    (hle : eo ≤ (lib.text subject offset).length) {n : ℕ} :
    (so + offset) % 2 ^ 32 + n +
        (strlen32 subject.bytes + 2 ^ 32 - (eo + offset) % 2 ^ 32) % 2 ^ 32 <
          ((strlen32 subject.bytes + 2 ^ 32 - (eo - so) + n) % 2 ^ 32 + 1) % 2 ^ 32 ↔
      offset + so + n + (cut ((lib.text subject offset).drop eo)).length + 1 < 2 ^ 32 := by
  have hadd := add_offset_lt h hso heo hle
  rw [length_cut_drop_text h hle]
  omega

/-- Behind an offset, the whole rest of a string is searched. -/
theorem text_of_append (lib : RegexLib) {s : Cstring} {l l' : List UInt8}
    (hs : s.bytes = l ++ l') (hlt : l.length + l'.length < 2 ^ 32) :
    lib.text s l.length = l' ∧ Within s l.length := by
  have hlen : s.bytes.length = l.length + l'.length := by rw [hs, List.length_append]
  have hmod : strlen32 s.bytes = l.length + l'.length := by
    rw [strlen32, hlen, Nat.mod_eq_of_lt hlt]
  have hwithin : Within s l.length := ⟨by omega, .inr (by omega)⟩
  refine ⟨?_, hwithin⟩
  cases lib with
  | pcre =>
      rw [RegexLib.text, hmod, hs, List.drop_left, List.take_of_length_le (by omega)]
  | posix => rw [RegexLib.text, hs, List.drop_left]

/-- A match is replaced, and the search goes on behind the substitute. -/
theorem reRound_found (glob : Bool) (subst : Cstring) (alloc : ℕ → Bool) (h : Within subject offset)
    (hm : re.exec (lib.text subject offset) = .found so eo) (ha : alloc i = true)
    (hfits : offset + so + strlen32 subst.bytes +
      (cut ((lib.text subject offset).drop eo)).length + 1 < 2 ^ 32) :
    ∃ newstr, reRound lib re glob subst alloc (i, subject, offset) =
        (if glob then .inl (i + 1, newstr, offset + so + strlen32 subst.bytes)
          else .inr (.ret newstr)) ∧
      lib.text newstr (offset + so + strlen32 subst.bytes) =
          cut ((lib.text subject offset).drop eo) ∧
        Within newstr (offset + so + strlen32 subst.bytes) := by
  obtain ⟨hso, heo, hint⟩ := re.bounds _ _ _ hm
  have hend := (length_text lib h).1
  have hrest := cut_drop_text h heo
  have hfront : (so + offset) % 2 ^ 32 = so + offset :=
    Nat.mod_eq_of_lt (add_offset_lt h hso hint heo)
  have hmod : (so + offset + strlen32 subst.bytes) % 2 ^ 32 =
      offset + so + strlen32 subst.bytes := by
    omega
  refine ⟨(subject.take (so + offset)).append
    ((subst.take (strlen32 subst.bytes)).append ((subject.drop (eo + offset)).take
      ((strlen32 subject.bytes + 2 ^ 32 - (eo + offset) % 2 ^ 32) % 2 ^ 32))), ?_, ?_⟩
  · rw [reRound, hm]
    dsimp only
    rw [if_pos ha, if_pos ((fits_iff h hso hint heo).2 hfits), hfront, hmod]
  · have hlen : (subject.bytes.take (so + offset) ++ cut subst.bytes).length =
        offset + so + strlen32 subst.bytes := by
      rw [List.length_append, List.length_take, length_cut]
      omega
    rw [← hlen]
    refine text_of_append lib ?_ (by omega)
    rw [hrest, List.append_assoc]
    rfl

theorem reRound_overrun (h : Within subject offset)
    (hm : re.exec (lib.text subject offset) = .found so eo) (ha : alloc i = true)
    (hfits : ¬ offset + so + strlen32 subst.bytes +
      (cut ((lib.text subject offset).drop eo)).length + 1 < 2 ^ 32) :
    reRound lib re glob subst alloc (i, subject, offset) = .inr .overrun := by
  obtain ⟨hso, heo, hint⟩ := re.bounds _ _ _ hm
  rw [reRound, hm]
  dsimp only
  rw [if_pos ha, if_neg (mt (fits_iff h hso hint heo).1 hfits)]

end Round

theorem cut_drop_of_length_le {t : List UInt8} {n : ℕ} (h : t.length ≤ (cut (t.drop n)).length) :
    cut (t.drop n) = t :=
  have hsuffix := List.drop_suffix n t
  have heq := (cut_isPrefix (t.drop n)).eq_of_length_le (Nat.le_trans hsuffix.length_le h)
  heq.trans (hsuffix.eq_of_length_le (heq ▸ h))

section Runs

variable {lib : RegexLib} {re : Regex} {glob : Bool} {subst : Cstring} {alloc : ℕ → Bool}

/-- A round with a match that passes is the last one, or leaves less to be searched. -/
theorem reRound_cases (alloc : ℕ → Bool) {i offset : ℕ} {subject : Cstring}
    (h : Within subject offset)
    (hpass : Passes re glob (strlen32 subst.bytes) (lib.text subject offset, offset)) :
    (∃ r, reRound lib re glob subst alloc (i, subject, offset) = .inr r ∧ r ≠ .overrun) ∨
      ∃ newstr offset', reRound lib re glob subst alloc (i, subject, offset) =
          .inl (i + 1, newstr, offset') ∧
        Within newstr offset' ∧
          Rescan re glob (strlen32 subst.bytes) (lib.text subject offset, offset)
            (lib.text newstr offset', offset') ∧
          (lib.text newstr offset').length < (lib.text subject offset).length := by
  cases hm : re.exec (lib.text subject offset) with
  | noMatch =>
      refine .inl ⟨.ret subject, ?_, nofun⟩
      rw [reRound, hm]
  | error =>
      refine .inl ⟨.bail, ?_, nofun⟩
      rw [reRound, hm]
  | found so eo =>
      cases ha : alloc i with
      | false =>
          refine .inl ⟨.bail, ?_, nofun⟩
          rw [reRound, hm]
          dsimp only
          rw [ha, if_neg Bool.false_ne_true]
      | true =>
          obtain ⟨hless, hfits⟩ := hpass so eo hm
          obtain ⟨newstr, hround, htext, hwithin⟩ :=
            reRound_found glob subst alloc h hm ha hfits
          cases glob with
          | false =>
              rw [if_neg Bool.false_ne_true] at hround
              exact .inl ⟨.ret newstr, hround, nofun⟩
          | true =>
              rw [if_pos rfl] at hround
              refine .inr ⟨newstr, _, hround, hwithin, ⟨rfl, so, eo, hm, ?_⟩, ?_⟩
              · rw [htext]
              · rw [htext]
                exact hless rfl

theorem ends_of_passes (alloc : ℕ → Bool) {i offset : ℕ} {subject : Cstring}
    (h : Within subject offset)
    (hpass : Always (Rescan re glob (strlen32 subst.bytes)) (Passes re glob (strlen32 subst.bytes))
      (lib.text subject offset, offset)) :
    ∃ r, Machine.Ends (reRound lib re glob subst alloc) (i, subject, offset) r ∧
      r ≠ .overrun := by
  rcases reRound_cases alloc (i := i) h hpass.head with
    ⟨r, hround, hne⟩ | ⟨newstr, offset', hround, hwithin, hrescan, hless⟩
  · exact ⟨r, .of_result hround, hne⟩
  · obtain ⟨r, hends, hne⟩ := ends_of_passes alloc hwithin (hpass.next hrescan)
    exact ⟨r, .of_step hround hends, hne⟩
termination_by (lib.text subject offset).length

/-- A run that ends with every allocation successful has found passing matches only. -/
theorem passes_of_run {k i offset : ℕ} {subject : Cstring} {r : ReEnd}
    (h : Within subject offset)
    (hrun : Machine.run (reRound lib re glob subst fun _ => true) k (i, subject, offset) = some r)
    (hne : r ≠ .overrun) :
    Always (Rescan re glob (strlen32 subst.bytes)) (Passes re glob (strlen32 subst.bytes))
      (lib.text subject offset, offset) := by
  induction k generalizing i offset subject with
  | zero => cases hrun
  | succ k ih =>
      rw [Machine.run] at hrun
      have hfits : ∀ so eo, re.exec (lib.text subject offset) = .found so eo →
          offset + so + strlen32 subst.bytes +
            (cut ((lib.text subject offset).drop eo)).length + 1 < 2 ^ 32 := by
        intro so eo hm
        by_contra hover
        rw [reRound_overrun h hm rfl hover] at hrun
        exact hne (Option.some.inj hrun).symm
      have hnext : ∀ p, Rescan re glob (strlen32 subst.bytes) (lib.text subject offset, offset) p →
          Always (Rescan re glob (strlen32 subst.bytes))
            (Passes re glob (strlen32 subst.bytes)) p := by
        rintro p ⟨rfl, so, eo, hm, rfl⟩
        obtain ⟨newstr, hround, htext, hwithin⟩ :=
          reRound_found (i := i) true subst (fun _ => true) h hm rfl (hfits so eo hm)
        rw [hround, if_pos rfl] at hrun
        have hpass := ih hwithin hrun
        rwa [htext] at hpass
      -- An empty match at the start is found in the next round, too.
      have hpass : Passes re glob (strlen32 subst.bytes) (lib.text subject offset, offset) := by
        intro so eo hm
        refine ⟨fun hg => Nat.not_le.1 fun hle => ?_, hfits so eo hm⟩
        have hagain := (hnext _ ⟨hg, so, eo, hm, rfl⟩).head
        rw [cut_drop_of_length_le hle] at hagain
        exact Nat.not_lt.2 hle ((hagain so eo hm).1 hg)
      exact always_iff.2 ⟨hpass, hnext⟩

/-- Whatever allocations fail, the function ends, and not by a write outside of its memory. -/
def Terminates (lib : RegexLib) (re : Regex) (glob : Bool) (subst subject : Cstring) : Prop :=
  ∀ alloc, ∃ r, ReReplace lib re glob subst alloc subject r ∧ r ≠ .overrun

theorem within_start (subject : Cstring) : Within subject 0 := ⟨Nat.zero_le _, .inl rfl⟩

theorem terminates_of_passes {subject : Cstring}
    (h : Always (Rescan re glob (strlen32 subst.bytes)) (Passes re glob (strlen32 subst.bytes))
      (lib.text subject 0, 0)) :
    Terminates lib re glob subst subject := by
  intro alloc
  cases ha : alloc 0 with
  | false => exact ⟨.bail, by rw [ReReplace, ha, if_neg Bool.false_ne_true], nofun⟩
  | true =>
      obtain ⟨r, hends, hne⟩ := ends_of_passes alloc (i := 1) (within_start subject) h
      exact ⟨r, by rw [ReReplace, if_pos ha]; exact hends, hne⟩

/-- The function ends if and only if each match that is found in turn, without the option `g`
the first one, leaves less to be searched and a subject that can be allocated. -/
theorem terminates_iff {subject : Cstring} :
    Terminates lib re glob subst subject ↔
      Always (Rescan re glob (strlen32 subst.bytes)) (Passes re glob (strlen32 subst.bytes))
        (lib.text subject 0, 0) := by
  constructor
  · intro h
    obtain ⟨r, hends, hne⟩ := h fun _ => true
    rw [ReReplace, if_pos rfl] at hends
    obtain ⟨k, hk⟩ := hends
    exact passes_of_run (within_start subject) hk hne
  · exact terminates_of_passes

end Runs

def emptyPattern : Regex := ⟨fun _ => .found 0 0, by
  intro t so eo h
  cases h
  exact ⟨Nat.le_refl 0, Nat.zero_le _, by decide⟩⟩

/-- With the option `g`, an empty match is found for ever. -/
theorem not_terminates_empty :
    ¬ ∀ (lib : RegexLib) (re : Regex) (glob : Bool) (subst subject : Cstring),
      Terminates lib re glob subst subject := by
  intro h
  let s : Cstring := ⟨[], by decide⟩
  obtain ⟨r, hends, hne⟩ := h .pcre emptyPattern true s s fun _ => true
  rw [ReReplace, if_pos rfl] at hends
  obtain ⟨k, hk⟩ := hends
  have hpass := (passes_of_run (within_start s) hk hne).head 0 0 rfl
  exact absurd (hpass.1 rfl) (by decide)

end Ylext

end Ylisp
