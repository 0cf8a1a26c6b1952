import Mathlib.Data.List.DropRight
import Ylisp.Library.Machine
import Ylisp.Ylext.Cstring

/-!
# `split-to-line` and `trim`

Both read the byte in front of a position, which may be the first one: `split_to_line` in search
of a carriage return, when the text begins with an empty line, and `trim` when there is nothing
but white space.
-/

namespace Ylisp

namespace Ylext

open Machine

/-- The copy of a line that begins at `ps`, when `p` is at its end, without its carriage
return. The size of the copy is computed in an `unsigned int`; the allocation succeeds. -/
def copyLine (mem : List UInt8) (ps p len : ℕ) : Option (List UInt8) := do
  let c ← readAt mem ((p : ℤ) - 1)
  let len := if c = 13 then (len + 2 ^ 32 - 1) % 2 ^ 32 else len
  if len + 1 ≤ (len + 1) % 2 ^ 32 ∧ ps + len ≤ mem.length then
    some ((mem.drop ps).take len)
  else none

/-- A round of the loops of `split_to_line`: `ps`, `p`, `len` and the lines so far. -/
def splitRound (mem : List UInt8) : ℕ × ℕ × ℕ × List (List UInt8) →
    ℕ × ℕ × ℕ × List (List UInt8) ⊕ Option (List (List UInt8))
  | (ps, p, len, lines) =>
      match readAt mem p with
      | none => .inr none
      | some c =>
          if c ≠ 0 ∧ c ≠ 10 then .inl (ps, p + 1, (len + 1) % 2 ^ 32, lines)
          else
            match copyLine mem ps p len with
            | none => .inr none
            | some ln =>
                if c = 0 then .inr (some (lines ++ [ln]))
                else
                  match readAt mem ((p : ℤ) + 1) with
                  | none => .inr none
                  | some d =>
                      if d = 0 then .inr (some (lines ++ [ln]))
                      else .inl (p + 1, p + 1, 0, lines ++ [ln])

/-- `split_to_line` returns the lines `r`, or reads or writes outside of its memory. -/
def SplitToLine (s : Cstring) (r : Option (List (List UInt8))) : Prop :=
  Ends (splitRound (s.bytes ++ [0])) (0, 0, 0, []) r

def dropLastIf (c : UInt8) (l : List UInt8) : List UInt8 :=
  if l.getLast? = some c then l.dropLast else l

/-- The lines of a text: one newline at its end is dropped, and one carriage return of each
line. -/
def lines (s : List UInt8) : List (List UInt8) := ((dropLastIf 10 s).splitOn 10).map (dropLastIf 13)

section Lines

variable {c : UInt8} {l l' : List UInt8}

theorem dropLastIf_concat (c : UInt8) (l : List UInt8) : dropLastIf c (l ++ [c]) = l := by
  rw [dropLastIf, if_pos List.getLast?_concat, List.dropLast_concat]

theorem dropLastIf_of_notMem (h : c ∉ l) : dropLastIf c l = l :=
  if_neg fun hlast => h (List.mem_of_getLast? hlast)

theorem dropLastIf_append (h : l' ≠ []) : dropLastIf c (l ++ l') = l ++ dropLastIf c l' := by
  rw [dropLastIf, dropLastIf, List.getLast?_append_of_ne_nil l h, List.dropLast_append_of_ne_nil h]
  split <;> rfl

theorem dropLastIf_isPrefix (c : UInt8) (l : List UInt8) : dropLastIf c l <+: l := by
  rw [dropLastIf]
  split
  · exact List.dropLast_prefix l
  · exact List.prefix_rfl

theorem lines_of_notMem (h : 10 ∉ l) : lines l = [dropLastIf 13 l] := by
  rw [lines, dropLastIf_of_notMem h, List.splitOn_eq_singleton h, List.map_singleton]

theorem lines_concat (h : 10 ∉ l) : lines (l ++ [10]) = [dropLastIf 13 l] := by
  rw [lines, dropLastIf_concat, List.splitOn_eq_singleton h, List.map_singleton]

theorem lines_append_cons (h : 10 ∉ l) (h' : l' ≠ []) :
    lines (l ++ 10 :: l') = dropLastIf 13 l :: lines l' := by
  rw [lines, dropLastIf_append (List.cons_ne_nil 10 l')]
  have hrest : dropLastIf 10 (10 :: l') = 10 :: dropLastIf 10 l' :=
    dropLastIf_append (l := [10]) h'
  rw [hrest, List.splitOn_append_cons_self_of_not_mem h, List.map_cons]
  rfl

theorem lines_induction {P : List UInt8 → Prop} (last : ∀ ln, 10 ∉ ln → P ln)
    (final : ∀ ln, 10 ∉ ln → P (ln ++ [10]))
    (next : ∀ ln t, 10 ∉ ln → t ≠ [] → P t → P (ln ++ 10 :: t)) (t : List UInt8) : P t := by
  have hgo : ∀ t ln : List UInt8, 10 ∉ ln → P (ln ++ t) ∧ (t ≠ [] → P t) := by
    intro t
    induction t with
    | nil => exact fun ln hln => ⟨by rw [List.append_nil]; exact last ln hln, fun h => absurd rfl h⟩
    | cons c t ih =>
        have hall : ∀ ln : List UInt8, 10 ∉ ln → P (ln ++ c :: t) := by
          intro ln hln
          by_cases hc : c = 10
          · rw [hc]
            rcases List.eq_nil_or_concat t with rfl | ⟨l, x, rfl⟩
            · exact final ln hln
            · have ht : l.concat x ≠ [] := by
                rw [List.concat_eq_append]
                exact List.concat_ne_nil x l
              exact next ln _ hln ht ((ih [] List.not_mem_nil).2 ht)
          · have hmem : 10 ∉ ln ++ [c] := fun h => (List.mem_append.1 h).elim hln fun h =>
              hc (List.mem_singleton.1 h).symm
            have hrest := (ih (ln ++ [c]) hmem).1
            rwa [List.append_assoc] at hrest
        exact fun ln hln => ⟨hall ln hln, fun _ => hall [] List.not_mem_nil⟩
  exact (hgo t [] List.not_mem_nil).1

end Lines

section Split

variable {pre ln rest t : List UInt8} {acc : List (List UInt8)} {c : UInt8}

theorem readAt_length (l r : List UInt8) (c : UInt8) : readAt (l ++ c :: r) l.length = some c := by
  rw [readAt_natCast, List.getElem?_append_right (Nat.le_refl _), Nat.sub_self]
  rfl

/-- The inner loop runs to the end of the line. -/
theorem reaches_end (hnul : 0 ∉ ln) (hnl : 10 ∉ ln) (l : List UInt8) :
    Reaches (splitRound (pre ++ (l ++ (ln ++ rest))))
      (pre.length, pre.length + l.length, l.length % 2 ^ 32, acc)
      (pre.length, pre.length + (l ++ ln).length, (l ++ ln).length % 2 ^ 32, acc) := by
  induction ln generalizing l with
  | nil =>
      rw [List.append_nil]
      exact .refl
  | cons c ln ih =>
      have hread : readAt (pre ++ (l ++ (c :: ln ++ rest))) (pre.length + l.length : ℕ) =
          some c := by
        rw [← List.append_assoc, ← List.length_append]
        exact readAt_length _ _ c
      obtain ⟨hc, hnul⟩ := not_or.1 (mt List.mem_cons.2 hnul)
      obtain ⟨hc', hnl⟩ := not_or.1 (mt List.mem_cons.2 hnl)
      have hround : splitRound (pre ++ (l ++ (c :: ln ++ rest)))
          (pre.length, pre.length + l.length, l.length % 2 ^ 32, acc) =
          .inl (pre.length, pre.length + (l ++ [c]).length, (l ++ [c]).length % 2 ^ 32, acc) := by
        rw [splitRound, hread]
        dsimp only
        rw [if_pos ⟨Ne.symm hc, Ne.symm hc'⟩, Nat.mod_add_mod, List.length_append]
        rfl
      have hreach := ih hnul hnl (l ++ [c])
      rw [List.append_assoc, List.append_assoc] at hreach
      exact .head hround hreach

def Copiable (l : List UInt8) : Prop := l.length % 2 ^ 32 + 1 < 2 ^ 32

instance : DecidablePred Copiable := fun l =>
  inferInstanceAs (Decidable (l.length % 2 ^ 32 + 1 < 2 ^ 32))

/-- The length of a line without its carriage return, as it is counted. -/
theorem copyLine_of_read {d : UInt8}
    (hread : readAt (pre ++ (ln ++ rest)) ((pre.length + ln.length : ℕ) - 1) = some d)
    (hd : d = 13 ↔ ln.getLast? = some 13) :
    copyLine (pre ++ (ln ++ rest)) pre.length (pre.length + ln.length) (ln.length % 2 ^ 32) =
      if Copiable (dropLastIf 13 ln) then some (cut (dropLastIf 13 ln)) else none := by
  obtain ⟨x, hx⟩ := (dropLastIf_isPrefix 13 ln).trans (List.prefix_append ln rest)
  have hlen : (if d = 13 then (ln.length % 2 ^ 32 + 2 ^ 32 - 1) % 2 ^ 32 else ln.length % 2 ^ 32) =
      strlen32 (dropLastIf 13 ln) := by
    rw [strlen32, dropLastIf]
    by_cases hcr : d = 13
    · have hpos : 0 < ln.length := List.length_pos_of_ne_nil fun hnil => by
        have hlast := hd.1 hcr
        rw [hnil] at hlast
        cases hlast
      rw [if_pos hcr, if_pos (hd.1 hcr), List.length_dropLast]
      omega
    · rw [if_neg hcr, if_neg (mt hd.2 hcr)]
  have hle : strlen32 (dropLastIf 13 ln) ≤ (dropLastIf 13 ln).length := Nat.mod_le _ _
  have htake : (ln ++ rest).take (strlen32 (dropLastIf 13 ln)) = cut (dropLastIf 13 ln) := by
    rw [← hx, List.take_append_of_le_length hle, cut]
  have hfits : strlen32 (dropLastIf 13 ln) + 1 ≤ (strlen32 (dropLastIf 13 ln) + 1) % 2 ^ 32 ∧
      pre.length + strlen32 (dropLastIf 13 ln) ≤ (pre ++ (ln ++ rest)).length ↔
        Copiable (dropLastIf 13 ln) := by
    have hbound := congrArg List.length hx
    rw [List.length_append] at hbound
    rw [List.length_append, ← hbound, Copiable, ← strlen32]
    omega
  rw [copyLine, hread]
  dsimp only [Option.bind_eq_bind, Option.bind_some]
  rw [hlen, List.drop_left, htake]
  exact if_congr hfits rfl rfl

/-- What is copied of a line that is not the first one, or not empty. -/
theorem copyLine_eq (h : ln ≠ [] ∨ ∃ pre', pre = pre' ++ [10]) :
    copyLine (pre ++ (ln ++ rest)) pre.length (pre.length + ln.length) (ln.length % 2 ^ 32) =
      if Copiable (dropLastIf 13 ln) then some (cut (dropLastIf 13 ln)) else none := by
  rcases List.eq_nil_or_concat ln with rfl | ⟨ln', c, rfl⟩
  · obtain ⟨pre', rfl⟩ := h.resolve_left fun hne => hne rfl
    have hpos : ((pre' ++ [10]).length + ([] : List UInt8).length : ℕ) - (1 : ℤ) = pre'.length := by
      rw [List.length_append]
      simp
    have hread : readAt (pre' ++ [10] ++ ([] ++ rest)) pre'.length = some 10 := by
      rw [List.append_assoc]
      exact readAt_length pre' _ 10
    rw [← hpos] at hread
    exact copyLine_of_read hread (iff_of_false (by decide) nofun)
  · rw [List.concat_eq_append]
    have hpos : (pre.length + (ln' ++ [c]).length : ℕ) - (1 : ℤ) = (pre ++ ln').length := by
      rw [List.length_append, List.length_append]
      simp
      omega
    have hread : readAt (pre ++ (ln' ++ [c] ++ rest)) (pre ++ ln').length = some c := by
      rw [List.append_assoc ln', ← List.append_assoc pre]
      exact readAt_length (pre ++ ln') _ c
    rw [← hpos] at hread
    refine copyLine_of_read hread ?_
    rw [List.getLast?_concat, Option.some_inj]

/-- The copies of some lines; `none` if one of them cannot be copied. -/
def copies (ls : List (List UInt8)) : Option (List (List UInt8)) :=
  if ∀ l ∈ ls, Copiable l then some (ls.map cut) else none

theorem copies_cons (l : List UInt8) (ls : List (List UInt8)) :
    copies (l :: ls) = if Copiable l then (copies ls).map (cut l :: ·) else none := by
  rw [copies, copies]
  by_cases hl : Copiable l
  · rw [if_pos hl]
    by_cases hls : ∀ l ∈ ls, Copiable l
    · rw [if_pos hls, if_pos (List.forall_mem_cons.2 ⟨hl, hls⟩)]
      rfl
    · rw [if_neg hls, if_neg fun h => hls (List.forall_mem_cons.1 h).2]
      rfl
  · rw [if_neg hl, if_neg fun h => hl (List.forall_mem_cons.1 h).1]

theorem copies_singleton (l : List UInt8) :
    copies [l] = if Copiable l then some [cut l] else none := by
  rw [copies_cons]
  rfl

theorem copies_eq_some_iff {ls : List (List UInt8)} :
    copies ls = some ls ↔ ∀ l ∈ ls, l.length + 1 < 2 ^ 32 := by
  induction ls with
  | nil => exact iff_of_true rfl (List.forall_mem_nil _)
  | cons l ls ih =>
      rw [List.forall_mem_cons, ← ih, copies_cons]
      constructor
      · intro h
        split at h
        next hcopy =>
          obtain ⟨ls', hls, heq⟩ := Option.map_eq_some_iff.1 h
          obtain ⟨hl, rfl⟩ := List.cons.inj heq
          have hlen := length_cut l
          rw [hl, strlen32] at hlen
          rw [Copiable, ← hlen] at hcopy
          exact ⟨hcopy, hls⟩
        next => cases h
      · rintro ⟨hl, hls⟩
        have hlt := Nat.lt_of_succ_lt hl
        have hcopy : Copiable l := by rwa [Copiable, Nat.mod_eq_of_lt hlt]
        rw [if_pos hcopy, hls, cut_of_lt hlt]
        rfl

theorem reaches_line_end (hnul : 0 ∉ ln) (hnl : 10 ∉ ln) :
    Reaches (splitRound (pre ++ (ln ++ rest))) (pre.length, pre.length, 0, acc)
      (pre.length, pre.length + ln.length, ln.length % 2 ^ 32, acc) :=
  reaches_end hnul hnl []

theorem read_line_end (pre ln rest : List UInt8) (c : UInt8) :
    readAt (pre ++ (ln ++ c :: rest)) (pre.length + ln.length : ℕ) = some c := by
  rw [← List.append_assoc, ← List.length_append]
  exact readAt_length _ _ c

theorem splitRound_zero (h : ln ≠ [] ∨ ∃ pre', pre = pre' ++ [10]) :
    splitRound (pre ++ (ln ++ 0 :: rest))
        (pre.length, pre.length + ln.length, ln.length % 2 ^ 32, acc) =
      .inr (if Copiable (dropLastIf 13 ln) then some (acc ++ [cut (dropLastIf 13 ln)])
        else none) := by
  rw [splitRound, read_line_end]
  dsimp only
  rw [if_neg fun h => h.1 rfl, copyLine_eq h]
  by_cases hcopy : Copiable (dropLastIf 13 ln)
  · rw [if_pos hcopy, if_pos hcopy]
    rfl
  · rw [if_neg hcopy, if_neg hcopy]

theorem splitRound_newline (d : UInt8) (h : ln ≠ [] ∨ ∃ pre', pre = pre' ++ [10]) :
    splitRound (pre ++ (ln ++ 10 :: d :: rest))
        (pre.length, pre.length + ln.length, ln.length % 2 ^ 32, acc) =
      if Copiable (dropLastIf 13 ln) then
        if d = 0 then .inr (some (acc ++ [cut (dropLastIf 13 ln)]))
        else .inl (pre.length + ln.length + 1, pre.length + ln.length + 1, 0,
          acc ++ [cut (dropLastIf 13 ln)])
      else .inr none := by
  have hread : readAt (pre ++ (ln ++ 10 :: d :: rest))
      (((pre.length + ln.length : ℕ) : ℤ) + 1) = some d := by
    have hnext := read_line_end pre (ln ++ [10]) rest d
    rw [List.append_assoc, List.length_append, List.length_singleton, ← Nat.add_assoc] at hnext
    exact hnext
  rw [splitRound, read_line_end]
  dsimp only
  rw [if_neg fun h => h.2 rfl, copyLine_eq h]
  by_cases hcopy : Copiable (dropLastIf 13 ln)
  · rw [if_pos hcopy, if_pos hcopy]
    dsimp only
    rw [if_neg (by decide), hread]
  · rw [if_neg hcopy, if_neg hcopy]

theorem line_of_head (h : (ln ++ 10 :: rest).head? ≠ some 10 ∨ ∃ pre', pre = pre' ++ [10]) :
    ln ≠ [] ∨ ∃ pre', pre = pre' ++ [10] :=
  h.imp_left fun hhead hnil => hhead (by rw [hnil]; rfl)

/-- The run from the beginning of a line, which is not the first one or not empty. -/
theorem ends_copies {t : List UInt8} (hnul : 0 ∉ t) (ht : t ≠ [])
    (h : t.head? ≠ some 10 ∨ ∃ pre', pre = pre' ++ [10]) :
    Ends (splitRound (pre ++ (t ++ [0]))) (pre.length, pre.length, 0, acc)
      ((copies (lines t)).map (acc ++ ·)) := by
  induction t using lines_induction generalizing pre acc with
  | last ln hnl =>
      rw [lines_of_notMem hnl, copies_singleton]
      refine (reaches_line_end hnul hnl).ends (.of_result ?_)
      rw [splitRound_zero (.inl ht)]
      split <;> rfl
  | final ln hnl =>
      rw [lines_concat hnl, copies_singleton, List.append_assoc]
      refine (reaches_line_end (not_or.1 (mt List.mem_append.2 hnul)).1 hnl).ends (.of_result ?_)
      refine (splitRound_newline 0 (line_of_head h)).trans ?_
      split <;> rfl
  | next ln t hnl hne ih =>
      obtain ⟨d, t', rfl⟩ := List.exists_cons_of_ne_nil hne
      obtain ⟨hln, hrest⟩ := not_or.1 (mt List.mem_append.2 hnul)
      have ht' := (not_or.1 (mt List.mem_cons.2 hrest)).2
      have hd : d ≠ 0 := fun hd => ht' (hd ▸ List.mem_cons_self)
      have hmem : ln ++ 10 :: d :: t' ++ [0] = ln ++ 10 :: d :: (t' ++ [0]) :=
        List.append_assoc ln _ _
      have hround := @splitRound_newline pre ln (t' ++ [0]) acc d (line_of_head h)
      rw [lines_append_cons hnl hne, copies_cons, hmem]
      refine (reaches_line_end hln hnl).ends ?_
      by_cases hcopy : Copiable (dropLastIf 13 ln)
      · rw [if_pos hcopy, if_neg hd] at hround
        rw [if_pos hcopy]
        have hrest : Ends (splitRound (pre ++ (ln ++ [10]) ++ (d :: t' ++ [0])))
            ((pre ++ (ln ++ [10])).length, (pre ++ (ln ++ [10])).length, 0,
              acc ++ [cut (dropLastIf 13 ln)])
            ((copies (lines (d :: t'))).map (acc ++ [cut (dropLastIf 13 ln)] ++ ·)) :=
          ih ht' hne (.inr ⟨pre ++ ln, (List.append_assoc _ _ _).symm⟩)
        have hmem' : pre ++ (ln ++ [10]) ++ (d :: t' ++ [0]) =
            pre ++ (ln ++ 10 :: d :: (t' ++ [0])) := by
          rw [List.append_assoc, List.append_assoc]
          rfl
        have hpos : (pre ++ (ln ++ [10])).length = pre.length + ln.length + 1 := by
          rw [List.length_append, List.length_append, List.length_singleton, Nat.add_assoc]
        have hadd : (acc ++ ·) ∘ (cut (dropLastIf 13 ln) :: ·) =
            (acc ++ [cut (dropLastIf 13 ln)] ++ ·) :=
          funext fun ls => List.append_cons acc _ ls
        rw [hmem', hpos] at hrest
        rw [Option.map_map, hadd]
        exact .of_step hround hrest
      · rw [if_neg hcopy] at hround ⊢
        exact .of_result hround

/-- Where the first line is empty, the byte in front of the text is looked at. -/
theorem splitToLine_none {s : Cstring} (h : s.bytes = [] ∨ s.bytes.head? = some 10) :
    SplitToLine s none := by
  have hcopy : ∀ mem, copyLine mem 0 0 0 = none := fun _ => rfl
  have hround : splitRound (s.bytes ++ [0]) (0, 0, 0, []) = .inr none := by
    cases hs : s.bytes with
    | nil => rfl
    | cons c t =>
        rw [hs] at h
        have hc : c = 10 := Option.some.inj (h.resolve_left (List.cons_ne_nil c t))
        rw [hc, List.cons_append, splitRound, readAt_natCast]
        rfl
  exact .of_result hround

/-- The lines are returned, without an access outside of the text, if and only if the first one
is not empty and each of them has a length that can be counted. -/
theorem splitToLine_iff {s : Cstring} :
    SplitToLine s (some (lines s.bytes)) ↔
      s.bytes ≠ [] ∧ s.bytes.head? ≠ some 10 ∧ ∀ l ∈ lines s.bytes, l.length + 1 < 2 ^ 32 := by
  by_cases hempty : s.bytes = [] ∨ s.bytes.head? = some 10
  · refine iff_of_false (fun h => nomatch h.unique (splitToLine_none hempty)) fun h => ?_
    exact hempty.elim h.1 h.2.1
  · obtain ⟨hne, hhead⟩ := not_or.1 hempty
    rw [and_iff_right hne, and_iff_right hhead]
    have hends : SplitToLine s ((copies (lines s.bytes)).map ([] ++ ·)) :=
      @ends_copies [] [] s.bytes s.nul_free hne (.inl hhead)
    have hid : (copies (lines s.bytes)).map ([] ++ ·) = copies (lines s.bytes) := Option.map_id'
    rw [hid] at hends
    rw [iff_comm, ← copies_eq_some_iff]
    exact ⟨fun h => h ▸ hends, fun h => hends.unique h⟩

end Split

/-- The empty text. -/
theorem not_splitToLine_empty :
    ¬ ∀ s : Cstring, SplitToLine s (some (lines s.bytes)) := by
  intro h
  exact nomatch (h ⟨[], by decide⟩).unique (splitToLine_none (.inl rfl))

def isWs (c : UInt8) : Bool := c = 32 || c = 10 || c = 13 || c = 9

def psRound (mem : List UInt8) (pend ps : ℕ) : ℕ ⊕ Option ℕ :=
  if ps < pend then
    match readAt mem ps with
    | none => .inr none
    | some c => if isWs c then .inl (ps + 1) else .inr (some ps)
  else .inr (some ps)

def peRound (mem : List UInt8) (pe : ℤ) : ℤ ⊕ Option ℤ :=
  if pe ≥ 0 then
    match readAt mem (pe - 1) with
    | none => .inr none
    | some c => if isWs c then .inl (pe - 1) else .inr (some (pe - 1))
  else .inr (some pe)

def trimCopy (mem : List UInt8) (ps : ℕ) (pe : ℤ) : List UInt8 :=
  let pe := if ps > pe then (ps : ℤ) - 1 else pe
  (mem.drop ps).take (pe - ps + 1).toNat

/-- `trim` returns the string `r`, or reads outside of its memory. -/
def Trim (s : Cstring) (r : Option (List UInt8)) : Prop :=
  let mem := s.bytes ++ [0]
  let pend := s.bytes.length
  ∃ ps pe, Ends (psRound mem pend) 0 ps ∧ Ends (peRound mem) pend pe ∧
    r = do return trimCopy mem (← ps) (← pe)

/-- The string without its longest leading and trailing runs of white space. -/
def trimmed (s : List UInt8) : List UInt8 := (s.dropWhile isWs).rdropWhile isWs

section Trim

variable {l w : List UInt8}

theorem reaches_ps (rest : List UInt8) {pend : ℕ} (hw : ∀ c ∈ w, isWs c)
    (h : l.length + w.length ≤ pend) :
    Reaches (psRound (l ++ (w ++ rest)) pend) l.length (l.length + w.length) := by
  induction w generalizing l with
  | nil => exact .refl
  | cons c w ih =>
      obtain ⟨hc, hw⟩ := List.forall_mem_cons.1 hw
      rw [List.length_cons] at h ⊢
      have hround : psRound (l ++ (c :: w ++ rest)) pend l.length = .inl (l.length + 1) := by
        rw [psRound, if_pos (by omega), List.cons_append, readAt_length]
        dsimp only
        rw [if_pos hc]
      have hlen : (l ++ [c]).length = l.length + 1 := List.length_append
      have hreach := ih hw (l := l ++ [c]) (by omega)
      rw [List.append_assoc, hlen] at hreach
      rw [← Nat.add_assoc, Nat.add_right_comm]
      exact .head hround hreach

theorem reaches_pe (rest : List UInt8) (hw : ∀ c ∈ w, isWs c) :
    Reaches (peRound (l ++ (w ++ rest))) ((l.length + w.length : ℕ) : ℤ) l.length := by
  induction w using List.reverseRecOn generalizing rest with
  | nil => exact .refl
  | append_singleton w c ih =>
      have hc := hw c (List.mem_append_right w (List.mem_singleton.2 rfl))
      have hread : readAt (l ++ (w ++ [c] ++ rest)) (l ++ w).length = some c := by
        rw [List.append_assoc w, ← List.append_assoc l]
        exact readAt_length (l ++ w) rest c
      have hround : peRound (l ++ (w ++ [c] ++ rest)) ((l.length + (w ++ [c]).length : ℕ) : ℤ) =
          .inl ((l.length + w.length : ℕ) : ℤ) := by
        have hpos : ((l.length + (w ++ [c]).length : ℕ) : ℤ) - 1 = (l ++ w).length := by
          rw [List.length_append, List.length_append, List.length_singleton]
          omega
        rw [peRound, if_pos (Int.natCast_nonneg _), hpos, hread]
        dsimp only
        rw [if_pos hc, List.length_append]
      refine .head hround ?_
      rw [List.append_assoc w]
      exact ih _ fun c hc => hw c (List.mem_append_left _ hc)

theorem Trim.unique {s : Cstring} {r r' : Option (List UInt8)} (h : Trim s r) (h' : Trim s r') :
    r = r' := by
  obtain ⟨ps, pe, hps, hpe, rfl⟩ := h
  obtain ⟨ps', pe', hps', hpe', rfl⟩ := h'
  rw [hps.unique hps', hpe.unique hpe']

/-- Where there is only white space, the byte in front of the string is read. -/
theorem trim_none {s : Cstring} (h : ∀ c ∈ s.bytes, isWs c) : Trim s none := by
  have hps : Reaches (psRound (s.bytes ++ [0]) s.bytes.length) 0 s.bytes.length := by
    have hreach := reaches_ps (l := []) [0] h (Nat.le_of_eq (Nat.zero_add _))
    rwa [List.length_nil, Nat.zero_add] at hreach
  have hpe : Reaches (peRound (s.bytes ++ [0])) s.bytes.length 0 := by
    have hreach := reaches_pe (l := []) [0] h
    rwa [List.length_nil, Nat.zero_add] at hreach
  refine ⟨some s.bytes.length, none, hps.ends (.of_result ?_), hpe.ends (.of_result ?_), rfl⟩
  · exact if_neg (Nat.lt_irrefl _)
  · rfl

/-- A string with something to be kept is three parts. -/
theorem exists_trimmed {s : List UInt8} (h : ∃ c ∈ s, isWs c = false) :
    ∃ w₁ w₂, s = w₁ ++ (trimmed s ++ w₂) ∧ (∀ c ∈ w₁, isWs c) ∧ (∀ c ∈ w₂, isWs c) ∧
      (∃ c m, trimmed s = c :: m ∧ isWs c = false) ∧
        ∃ m c, trimmed s = m ++ [c] ∧ isWs c = false := by
  have hdrop : s.dropWhile isWs ≠ [] := by
    obtain ⟨c, hc, hws⟩ := h
    exact fun hnil => Bool.false_ne_true (hws.symm.trans (List.dropWhile_eq_nil_iff.1 hnil c hc))
  have hhead := List.head_dropWhile_not isWs hdrop
  have hne : trimmed s ≠ [] := fun hnil => by
    have hall := List.rdropWhile_eq_nil_iff.1 hnil _ (List.head_mem hdrop)
    rw [hhead] at hall
    exact Bool.false_ne_true hall
  refine ⟨s.takeWhile isWs, (s.dropWhile isWs).rtakeWhile isWs, ?_, ?_, ?_, ?_, ?_⟩
  · rw [trimmed, List.rdropWhile_append_rtakeWhile, List.takeWhile_append_dropWhile]
  · exact fun c hc => List.mem_takeWhile_imp hc
  · exact fun c hc => List.mem_rtakeWhile_imp hc
  · obtain ⟨c, m, hm⟩ := List.exists_cons_of_ne_nil hne
    refine ⟨c, m, hm, ?_⟩
    obtain ⟨x, hx⟩ : trimmed s <+: s.dropWhile isWs := List.rdropWhile_prefix _ _
    have hfirst : (s.dropWhile isWs).head hdrop = c := by
      simp only [← hx, hm, List.cons_append, List.head_cons]
    rwa [hfirst] at hhead
  · refine ⟨_, _, (List.dropLast_append_getLast hne).symm, ?_⟩
    exact Bool.eq_false_iff.2 (List.rdropWhile_last_not isWs _ hne)

theorem trim_trimmed {s : Cstring} (h : ∃ c ∈ s.bytes, isWs c = false) :
    Trim s (some (trimmed s.bytes)) := by
  obtain ⟨w₁, w₂, hs, hw₁, hw₂, ⟨c, m, hm, hc⟩, m', c', hm', hc'⟩ := exists_trimmed h
  generalize trimmed s.bytes = t at *
  have hmem : s.bytes ++ [0] = w₁ ++ (t ++ (w₂ ++ [0])) := by
    rw [hs, List.append_assoc, List.append_assoc]
  have hlen : s.bytes.length = w₁.length + (t.length + w₂.length) := by
    rw [hs, List.length_append, List.length_append]
  have hpos : 0 < t.length := by
    rw [hm]
    exact Nat.succ_pos _
  have hps : Ends (psRound (s.bytes ++ [0]) s.bytes.length) 0 (some w₁.length) := by
    have hreach := reaches_ps (l := []) (t ++ (w₂ ++ [0])) hw₁
      (by rw [List.length_nil]; omega : [].length + w₁.length ≤ s.bytes.length)
    rw [List.length_nil, Nat.zero_add] at hreach
    rw [hmem]
    refine hreach.ends (.of_result ?_)
    rw [psRound, if_pos (by omega), List.nil_append, hm, List.cons_append, readAt_length]
    dsimp only
    rw [hc, if_neg Bool.false_ne_true]
  have hpe : Ends (peRound (s.bytes ++ [0])) s.bytes.length
      (some ((w₁.length + t.length : ℕ) - 1)) := by
    have hreach := reaches_pe (l := w₁ ++ t) [0] hw₂
    rw [List.append_assoc, List.length_append, Nat.add_assoc, ← hlen, ← hmem] at hreach
    have hread : readAt (s.bytes ++ [0]) ((w₁.length + t.length : ℕ) - 1) = some c' := by
      have hlast : ((w₁.length + t.length : ℕ) : ℤ) - 1 = (w₁ ++ m').length := by
        rw [hm', List.length_append, List.length_append, List.length_singleton]
        omega
      rw [hlast, hmem, hm', List.append_assoc m', ← List.append_assoc w₁]
      exact readAt_length _ _ c'
    refine hreach.ends (.of_result ?_)
    rw [peRound, if_pos (Int.natCast_nonneg _), hread]
    dsimp only
    rw [hc', if_neg Bool.false_ne_true]
  refine ⟨_, _, hps, hpe, congrArg some ?_⟩
  have hno : ¬ ((w₁.length : ℤ) > (w₁.length + t.length : ℕ) - 1) := by omega
  have hcount : ((w₁.length + t.length : ℕ) - 1 - w₁.length + 1 : ℤ).toNat = t.length := by omega
  rw [trimCopy, if_neg hno, hcount, hmem, List.drop_left, List.take_left]

/-- The string without its white space is returned, without an access outside of the string, if
and only if there is something else. -/
theorem trim_iff {s : Cstring} :
    Trim s (some (trimmed s.bytes)) ↔ ∃ c ∈ s.bytes, isWs c = false := by
  refine ⟨fun h => ?_, trim_trimmed⟩
  by_contra hall
  refine nomatch h.unique (trim_none fun c hc => ?_)
  exact Bool.eq_true_of_not_eq_false fun hws => hall ⟨c, hc, hws⟩

end Trim

/-- A string of white space only. -/
theorem not_trim_blank : ¬ ∀ s : Cstring, Trim s (some (trimmed s.bytes)) := by
  intro h
  have hall : ∀ c ∈ [(32 : UInt8)], isWs c := fun c hc => by
    rw [List.mem_singleton.1 hc]
    rfl
  exact nomatch (h ⟨[32], by decide⟩).unique (trim_none hall)

end Ylext

end Ylisp
