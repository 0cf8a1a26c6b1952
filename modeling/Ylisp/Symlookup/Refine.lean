import Ylisp.Symlookup.Candidates

/-!
# The symbol table as a map

What a table says about a name is in a record, and the description in a buffer of its own.
Seen from outside a table is a map from names to entries, `SymMap`: an insertion keeps the
description of the name that it overwrites. `answers_run` says that all answers of a run are
those of the map; records and buffers are never shared.
-/

namespace Ylisp

namespace Symlookup

variable {E : Type*}

structure Entry (E : Type*) where
  ty : ℤ
  desc : List UInt8
  e : E

abbrev SymMap (E : Type*) := List UInt8 → Option (Entry E)

/-- The calls on a table, with those that look a name up. -/
inductive SymCall (E : Type*) where
  | update (c : SlutCall E)
  | get (sym : List UInt8)
  | getDescription (bsz : ℕ) (sym : List UInt8)

/-- An answer: a code, the type and the expression of a name, or the bytes in a buffer, in
front of the final 0. -/
inductive SymAnswer (E : Type*) where
  | code (r : ℤ)
  | got (v : Option (ℤ × E))
  | copied (r : ℤ) (b : List UInt8)
  | overrun

/-- The rest of `ylgsym_get_description`, with the description of the name. The size of an
empty buffer wraps around. -/
def copyDescription (bsz : ℕ) : Option (List UInt8) → SymAnswer E
  | some desc =>
      if desc.length ≥ bsz then
        if bsz = 0 then .overrun else .copied 0 (desc.take (bsz - 1))
      else .copied 0 desc
  | none => .code (-1)

namespace Slut

def descText (s : Slut E) : Desc → Option (List UInt8)
  | .buf b => some (s.text b)
  | .dummyEmptyDesc => some []
  | .null => none

def ylsluGet (s : Slut E) (sym : List UInt8) : Option (ℤ × E) :=
  (s.t.yltrieGet sym).map fun v => ((s.value v).ty, (s.value v).e)

def ylsluGetDescription (s : Slut E) (sym : List UInt8) : Option (List UInt8) :=
  (s.t.yltrieGet sym).bind fun v => s.descText (s.value v).desc

def ylgsymGetDescription (s : Slut E) (bsz : ℕ) (sym : List UInt8) : SymAnswer E :=
  copyDescription bsz (s.ylsluGetDescription sym)

def call : SymCall E → Slut E → SymAnswer E × Slut E
  | .update c, s => (.code (step c s).1, (step c s).2)
  | .get sym, s => (.got (s.ylsluGet sym), s)
  | .getDescription bsz sym, s => (s.ylgsymGetDescription bsz sym, s)

def entry (s : Slut E) (v : ℕ) : Entry E :=
  ⟨(s.value v).ty, (s.descText (s.value v).desc).getD [], (s.value v).e⟩

def abs (s : Slut E) : SymMap E := fun sym => (s.t.yltrieGet sym).map s.entry

structure Sane (s : Slut E) : Prop where
  accounted : ∃ lost, s.Accounted lost
  nonnull : ∀ sym v, s.t.yltrieGet sym = some v → (s.value v).desc ≠ .null

end Slut

namespace SymMap

def update (m : SymMap E) : SlutCall E → ℤ × SymMap E
  | .insert sym sty e =>
      if 1 ≤ sym.length ∧ sym.length < Trie.maxKeyLen then
        (if (m sym).isSome then 1 else 0,
          Function.update m sym (some ⟨sty, ((m sym).map Entry.desc).getD [], e⟩))
      else (-1, m)
  | .delete sym => (if (m sym).isSome then 0 else -1, Function.update m sym none)
  | .setDescription sym description =>
      match m sym with
      | some v => (0, Function.update m sym (some { v with desc := description.getD [] }))
      | none => (-1, m)

def call : SymCall E → SymMap E → SymAnswer E × SymMap E
  | .update c, m => (.code (m.update c).1, (m.update c).2)
  | .get sym, m => (.got ((m sym).map fun v => (v.ty, v.e)), m)
  | .getDescription bsz sym, m => (copyDescription bsz ((m sym).map Entry.desc), m)

end SymMap

namespace Slut

section Records

variable {s s' : Slut E} {lost : List ℕ} {sym sym' : List UInt8} {v v' : ℕ}

/-- Two names have two records: without the one, the record of the other is still there. -/
theorem Accounted.record_injective (hs : s.Accounted lost) (h : s.t.yltrieGet sym = some v)
    (h' : s.t.yltrieGet sym' = some v) : sym = sym' := by
  by_contra hne
  obtain ⟨rest, hrest, hv, -⟩ := hs.split h
  have hupdate := (Trie.yltrieDelete_spec hs.rooted sym).2
  have hvalues := Trie.values_perm_of_update hs.rooted
    (Trie.rooted_yltrieDelete hs.rooted sym) hupdate
  rw [h] at hvalues
  have hrest' : (s.t.yltrieDelete sym).2.values.Perm rest :=
    (hvalues.trans hrest).cons_inv
  have hget : (s.t.yltrieDelete sym).2.yltrieGet sym' = some v := by
    rw [hupdate, Function.update_of_ne (Ne.symm hne), h']
  exact hv (hrest'.subset (Trie.mem_values_of_yltrieGet hget))

/-- The block of a description is not handed out again. -/
theorem Accounted.buf_lt_nr (hs : s.Accounted lost) (h : s.t.yltrieGet sym = some v) {b : ℕ}
    (hb : (s.value v).desc = .buf b) : b < s.nr := by
  have hheld : b ∈ s.held := by
    refine List.mem_flatMap.2 ⟨v, Trie.mem_values_of_yltrieGet h, ?_⟩
    simp [blocks, hb, Desc.buffer]
  exact List.mem_range.1 (hs.perm.subset (by simp [hheld]))

/-- A record that a call leaves alone, in a memory where only the next block may change. -/
theorem entry_congr (hs : s.Accounted lost) (h : s.t.yltrieGet sym = some v)
    (hvalue : s'.value v = s.value v) (htext : ∀ b < s.nr, s'.text b = s.text b) :
    s'.entry v = s.entry v := by
  rw [entry, entry, hvalue]
  cases hdesc : (s.value v).desc with
  | null => rfl
  | dummyEmptyDesc => rfl
  | buf b =>
      rw [descText, descText, htext b (hs.buf_lt_nr h hdesc)]

theorem abs_eq_none : s.abs sym = none ↔ s.t.yltrieGet sym = none := by
  rw [abs, Option.map_eq_none_iff]

theorem isSome_abs (s : Slut E) (sym : List UInt8) :
    (s.abs sym).isSome = (s.t.yltrieGet sym).isSome := by
  rw [abs, Option.isSome_map]

/-- A call that changes what a table says about one name. -/
theorem abs_update (s' : Slut E) (hs : s.Accounted lost) {x : Option ℕ}
    (hget : s'.t.yltrieGet = Function.update s.t.yltrieGet sym x)
    (hvalue : ∀ sym' v, sym' ≠ sym → s.t.yltrieGet sym' = some v → s'.value v = s.value v)
    (htext : ∀ b < s.nr, s'.text b = s.text b) :
    s'.abs = Function.update s.abs sym (x.map s'.entry) := by
  funext sym'
  rw [abs, hget]
  by_cases heq : sym' = sym
  · subst heq
    rw [Function.update_self, Function.update_self]
  · rw [Function.update_of_ne heq, Function.update_of_ne heq, abs]
    cases hget' : s.t.yltrieGet sym' with
    | none => rfl
    | some v =>
        rw [Option.map_some, Option.map_some,
          entry_congr hs hget' (hvalue sym' v heq hget') htext]

end Records

section Calls

variable {s : Slut E} {lost : List ℕ}

theorem fst_ylsluInsert (s : Slut E) (sym : List UInt8) (sty : ℤ) (e : E) :
    (s.ylsluInsert sym sty e).1 = (s.t.yltrieInsert sym s.nr).1 := by
  simp only [ylsluInsert, Trie.yltrieInsertFcb_eq]
  split <;> rfl

theorem yltrieInsert_refused (s : Slut E) {sym : List UInt8}
    (hsym : ¬ (1 ≤ sym.length ∧ sym.length < Trie.maxKeyLen)) :
    s.t.yltrieInsert sym s.nr = (-1, s.t) := by
  have hrefused := Trie.get_insertPtr s.t sym (some s.nr)
  rw [if_neg fun h => hsym ⟨h.1, Nat.lt_succ_of_le h.2.1⟩] at hrefused
  exact hrefused

theorem update_insert (hs : s.Accounted lost) (sym : List UInt8) (sty : ℤ) (e : E) :
    s.abs.update (.insert sym sty e) =
      ((s.ylsluInsert sym sty e).1, (s.ylsluInsert sym sty e).2.abs) := by
  rw [SymMap.update, fst_ylsluInsert, isSome_abs]
  by_cases hsym : 1 ≤ sym.length ∧ sym.length < Trie.maxKeyLen
  · obtain ⟨hcode, hget⟩ := Trie.get_yltrieInsert s.t (List.ne_nil_of_length_pos hsym.1) hsym.2 s.nr
    rw [if_pos hsym, hcode]
    refine Prod.ext rfl ?_
    dsimp only
    cases hold : s.t.yltrieGet sym with
    | none =>
        have heq := ylsluInsert_of_absent hold sty e
        generalize (s.ylsluInsert sym sty e).2 = s' at heq
        have hvalue : s'.value = Function.update s.value s.nr ⟨sty, .dummyEmptyDesc, e⟩ := by
          rw [heq]
        rw [abs_update s' hs (x := some s.nr) (by rw [heq]; exact hget) ?_
          fun b _ => by rw [heq]]
        · rw [abs_eq_none.2 hold, Option.map_some, entry, hvalue, Function.update_self]
          rfl
        · intro sym' v hne hv
          rw [hvalue, Function.update_of_ne
            (Nat.ne_of_lt (hs.lt_nr (Trie.mem_values_of_yltrieGet hv)))]
    | some ov =>
        have hlt := hs.lt_nr (Trie.mem_values_of_yltrieGet hold)
        have heq := ylsluInsert_of_present hold (Nat.ne_of_lt hlt) sty e
        generalize (s.ylsluInsert sym sty e).2 = s' at heq
        have hvalue : s'.value = Function.update (Function.update s.value s.nr
            ⟨sty, (s.value ov).desc, e⟩) ov { s.value ov with desc := .dummyEmptyDesc } := by
          rw [heq]
        have htext : s'.text = s.text := by
          rw [heq]
        rw [abs_update s' hs (x := some s.nr) (by rw [heq]; exact hget) ?_
          fun b _ => by rw [htext]]
        · have hdesc : s'.descText (s.value ov).desc = s.descText (s.value ov).desc := by
            cases (s.value ov).desc <;> simp [descText, htext]
          have hentry : s'.entry s.nr = ⟨sty, (s.descText (s.value ov).desc).getD [], e⟩ := by
            rw [entry, hvalue, Function.update_of_ne (Nat.ne_of_gt hlt), Function.update_self,
              hdesc]
          rw [Option.map_some, hentry, abs, hold]
          rfl
        · intro sym' v hne hv
          have hov : v ≠ ov := by
            rintro rfl
            exact hne (hs.record_injective hv hold)
          rw [hvalue, Function.update_of_ne hov, Function.update_of_ne
            (Nat.ne_of_lt (hs.lt_nr (Trie.mem_values_of_yltrieGet hv)))]
  · have hrefused := yltrieInsert_refused s hsym
    have hold : s.t.yltrieGet sym = none := by
      by_contra hne
      obtain ⟨v, hv⟩ := Option.ne_none_iff_exists'.1 hne
      exact hsym (taken_of_get hv)
    have heq := ylsluInsert_of_absent hold sty e
    rw [hrefused] at heq
    generalize (s.ylsluInsert sym sty e).2 = s' at heq
    rw [if_neg hsym, hrefused]
    refine Prod.ext rfl (funext fun sym' => ?_)
    dsimp only
    rw [abs, abs, show s'.t = s.t by rw [heq]]
    cases hv : s.t.yltrieGet sym' with
    | none => rfl
    | some v =>
        refine congrArg some (entry_congr hs hv ?_ fun b _ => by rw [heq]).symm
        rw [heq]
        exact Function.update_of_ne (Nat.ne_of_lt (hs.lt_nr (Trie.mem_values_of_yltrieGet hv))) _ _

theorem update_delete (hs : s.Accounted lost) (sym : List UInt8) :
    s.abs.update (.delete sym) = ((s.ylsluDelete sym).1, (s.ylsluDelete sym).2.abs) := by
  obtain ⟨hcode, hget⟩ := Trie.yltrieDelete_spec hs.rooted sym
  have hfst : (s.ylsluDelete sym).1 = (s.t.yltrieDelete sym).1 := by
    rw [ylsluDelete, Trie.yltrieDeleteFcb_eq _ hs.rooted]
  have heq := ylsluDelete_eq hs.rooted sym
  rw [SymMap.update, hfst, hcode, isSome_abs]
  refine Prod.ext rfl ?_
  generalize (s.ylsluDelete sym).2 = s' at heq
  dsimp only
  rw [abs_update s' hs (x := none) (by rw [heq]; exact hget)
    (fun sym' v _ _ => by rw [heq]) fun b _ => by rw [heq], Option.map_none]

/-- A new description of a name: its record gets one that reads as it was given. -/
theorem ylsluSetDescription_of_present {sym : List UInt8} {v : ℕ}
    (hv : s.t.yltrieGet sym = some v) (description : Option (List UInt8)) :
    (s.ylsluSetDescription sym description).1 = 0 ∧
      (∀ b < s.nr, (s.ylsluSetDescription sym description).2.text b = s.text b) ∧
      ∃ desc, (s.ylsluSetDescription sym description).2.value =
          Function.update s.value v { s.value v with desc := desc } ∧
        (s.ylsluSetDescription sym description).2.descText desc =
          some (description.getD []) := by
  rw [ylsluSetDescription, hv]
  cases description with
  | some d =>
      simp only [freeDescription_eq]
      exact ⟨trivial, fun b hb => Function.update_of_ne (Nat.ne_of_lt hb) _ _, .buf s.nr, rfl,
        congrArg some (Function.update_self _ _ _)⟩
  | none =>
      simp only [freeDescription_eq]
      exact ⟨trivial, fun b _ => rfl, .dummyEmptyDesc, rfl, rfl⟩

theorem update_setDescription (hs : s.Accounted lost) (sym : List UInt8)
    (description : Option (List UInt8)) :
    s.abs.update (.setDescription sym description) =
      ((s.ylsluSetDescription sym description).1,
        (s.ylsluSetDescription sym description).2.abs) := by
  have ht := t_ylsluSetDescription s sym description
  rw [SymMap.update, abs]
  cases hv : s.t.yltrieGet sym with
  | none =>
      have heq : s.ylsluSetDescription sym description = (-1, s) := by
        rw [ylsluSetDescription, hv]
      rw [heq]
      rfl
  | some v =>
      obtain ⟨hcode, htext, desc, hvalue, hdesc⟩ := ylsluSetDescription_of_present hv description
      rw [hcode]
      generalize (s.ylsluSetDescription sym description).2 = s' at ht htext hvalue hdesc
      have hentry : s'.entry v = ⟨(s.value v).ty, description.getD [], (s.value v).e⟩ := by
        rw [entry, hvalue, Function.update_self, hdesc]
        rfl
      have hget : s'.t.yltrieGet = Function.update s.t.yltrieGet sym (some v) := by
        rw [ht, ← hv, Function.update_eq_self]
      refine Prod.ext rfl ?_
      dsimp only [Option.map_some]
      rw [abs_update s' hs hget ?_ htext, Option.map_some, hentry]
      · rfl
      · intro sym' v' hne hv'
        rw [hvalue]
        refine Function.update_of_ne ?_ _ _
        rintro rfl
        exact hne (hs.record_injective hv' hv)

/-! ### Runs -/

theorem sane_create (value : ℕ → Value E) (text : ℕ → List UInt8) :
    (ylsluCreate value text).Sane where
  accounted := ⟨[], accounted_create value text⟩
  nonnull := by
    intro sym v h
    have hv := Trie.mem_values_of_yltrieGet h
    rw [ylsluCreate, Trie.values_yltrieCreate] at hv
    exact absurd hv List.not_mem_nil

theorem abs_create (value : ℕ → Value E) (text : ℕ → List UInt8) :
    (ylsluCreate value text).abs = fun _ => none := by
  funext sym
  rw [abs_eq_none]
  by_contra hne
  obtain ⟨v, hv⟩ := Option.ne_none_iff_exists'.1 hne
  have hmem := Trie.mem_values_of_yltrieGet hv
  rw [ylsluCreate, Trie.values_yltrieCreate] at hmem
  exact List.not_mem_nil hmem

theorem update_step (hs : s.Sane) (c : SlutCall E) :
    s.abs.update c = ((step c s).1, (step c s).2.abs) := by
  obtain ⟨lost, hacc⟩ := hs.accounted
  cases c with
  | insert sym sty e => exact update_insert hacc sym sty e
  | delete sym => exact update_delete hacc sym
  | setDescription sym description => exact update_setDescription hacc sym description

/-- The record of a new name has the empty description, or that of the record before it. -/
theorem nonnull_insert (hs : s.Sane) (sym : List UInt8) (sty : ℤ) (e : E) {sym' : List UInt8}
    {v : ℕ} (hv : (s.ylsluInsert sym sty e).2.t.yltrieGet sym' = some v) :
    ((s.ylsluInsert sym sty e).2.value v).desc ≠ .null := by
  obtain ⟨lost, hacc⟩ := hs.accounted
  have hget := Trie.get_insertPtr s.t sym (some s.nr)
  change if _ then (_ ∧ (s.t.yltrieInsert sym s.nr).2.yltrieGet = _) else
    s.t.yltrieInsert sym s.nr = _ at hget
  have hold : v = s.nr ∨ v ≠ s.nr ∧ ∃ sym₁, s.t.yltrieGet sym₁ = some v := by
    rw [t_ylsluInsert] at hv
    split at hget
    · rw [hget.2] at hv
      by_cases heq : sym' = sym
      · subst heq
        rw [Function.update_self] at hv
        exact Or.inl (Option.some.inj hv).symm
      · rw [Function.update_of_ne heq] at hv
        exact Or.inr ⟨Nat.ne_of_lt (hacc.lt_nr (Trie.mem_values_of_yltrieGet hv)), sym', hv⟩
    · rw [hget] at hv
      exact Or.inr ⟨Nat.ne_of_lt (hacc.lt_nr (Trie.mem_values_of_yltrieGet hv)), sym', hv⟩
  cases hov : s.t.yltrieGet sym with
  | none =>
      rw [ylsluInsert_of_absent hov]
      rcases hold with rfl | ⟨hne, sym₁, hv₁⟩
      · simp
      · simpa [Function.update_of_ne hne] using hs.nonnull sym₁ v hv₁
  | some ov =>
      have hlt := hacc.lt_nr (Trie.mem_values_of_yltrieGet hov)
      rw [ylsluInsert_of_present hov (Nat.ne_of_lt hlt)]
      by_cases heq : v = ov
      · subst heq
        simp
      · rcases hold with rfl | ⟨hne, sym₁, hv₁⟩
        · simpa [Function.update_of_ne heq] using hs.nonnull sym ov hov
        · simpa [Function.update_of_ne heq, Function.update_of_ne hne] using hs.nonnull sym₁ v hv₁

theorem sane_step (hs : s.Sane) (c : SlutCall E) : (step c s).2.Sane := by
  obtain ⟨lost, hacc⟩ := hs.accounted
  obtain ⟨lost', hacc', -⟩ := accounted_step c hacc
  refine ⟨⟨lost', hacc'⟩, fun sym' v hv => ?_⟩
  cases c with
  | insert sym sty e => exact nonnull_insert hs sym sty e hv
  | delete sym =>
      rw [step, ylsluDelete_eq hacc.rooted] at hv ⊢
      change (s.t.yltrieDelete sym).2.yltrieGet sym' = some v at hv
      rw [(Trie.yltrieDelete_spec hacc.rooted sym).2] at hv
      by_cases heq : sym' = sym
      · rw [heq, Function.update_self] at hv
        cases hv
      · rw [Function.update_of_ne heq] at hv
        exact hs.nonnull sym' v hv
  | setDescription sym description =>
      rw [step] at hv ⊢
      rw [t_ylsluSetDescription] at hv
      cases hold : s.t.yltrieGet sym with
      | none =>
          rw [ylsluSetDescription, hold]
          exact hs.nonnull sym' v hv
      | some ov =>
          obtain ⟨-, -, desc, hvalue, hdesc⟩ := ylsluSetDescription_of_present hold description
          rw [hvalue]
          by_cases heq : v = ov
          · rw [heq, Function.update_self]
            rintro rfl
            cases hdesc
          · rw [Function.update_of_ne heq]
            exact hs.nonnull sym' v hv

/-- The description that a table gives is that of the entry. -/
theorem ylsluGetDescription_eq (hs : s.Sane) (sym : List UInt8) :
    s.ylsluGetDescription sym = (s.abs sym).map Entry.desc := by
  rw [ylsluGetDescription, abs]
  cases hv : s.t.yltrieGet sym with
  | none => rfl
  | some v =>
      have hnonnull := hs.nonnull sym v hv
      rw [Option.map_some, Option.map_some, Option.bind_some, entry]
      cases hdesc : (s.value v).desc with
      | null => exact absurd hdesc hnonnull
      | dummyEmptyDesc => rfl
      | buf b => rfl

theorem call_abs (c : SymCall E) (hs : s.Sane) :
    SymMap.call c s.abs = ((call c s).1, (call c s).2.abs) := by
  cases c with
  | update c => rw [SymMap.call, call, update_step hs]
  | get sym =>
      refine Prod.ext (congrArg SymAnswer.got ?_) rfl
      rw [ylsluGet, abs, Option.map_map]
      rfl
  | getDescription bsz sym =>
      rw [SymMap.call, call, ylgsymGetDescription, ylsluGetDescription_eq hs]

theorem sane_call (c : SymCall E) (hs : s.Sane) : (call c s).2.Sane := by
  cases c with
  | update c => exact sane_step hs c
  | get sym => exact hs
  | getDescription bsz sym => exact hs

end Calls

/-- In every run of calls on a new table, each answer is that of the map from names to entries
that the calls before it have made. -/
theorem answers_run (calls : List (SymCall E)) (value : ℕ → Value E) (text : ℕ → List UInt8) :
    (Answer.run call calls (ylsluCreate value text)).1 =
      (Answer.run SymMap.call calls fun _ => none).1 := by
  rw [← abs_create value text, Answer.run_refines abs (fun c s hs => sane_call c hs)
    (fun c s hs => call_abs c hs) calls _ (sane_create value text)]

end Slut

end Symlookup

end Ylisp
