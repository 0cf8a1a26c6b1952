import Mathlib.Data.List.Count
import Ylisp.Library.Answer
import Ylisp.Trie.Free

/-!
# The symbol table and its memory

The symbol tables of `symlookup.c`: tries whose values are the addresses of records
`struct _value`, each with a description. Records and the buffers of descriptions come from
`ylmalloc`, which numbers the blocks that it hands out; `freed` logs the calls of `ylfree`.

A block that was freed is never reached through the table again, and none is freed twice
(`safe_run`). All blocks are freed in the end exactly if no insertion was refused by the
trie: `ylslu_insert` drops the record then (`freed_once_iff`).
-/

namespace Ylisp

namespace Symlookup

open scoped List

/-- A description: NULL, the address of `_dummy_empty_desc`, or a buffer. -/
inductive Desc where
  | null
  | dummyEmptyDesc
  | buf (b : ℕ)
  deriving DecidableEq

def Desc.buffer : Desc → List ℕ
  | .buf b => [b]
  | .dummyEmptyDesc => []
  | .null => []

/-- `struct _value`. -/
structure Value (E : Type*) where
  ty : ℤ
  desc : Desc
  e : E

/-- A table, the memory of its records and buffers, the number of blocks that were
allocated, and the blocks that were freed. -/
structure Slut (E : Type*) where
  t : Trie ℕ
  value : ℕ → Value E
  text : ℕ → List UInt8
  nr : ℕ
  freed : List ℕ

inductive SlutCall (E : Type*) where
  | insert (sym : List UInt8) (sty : ℤ) (e : E)
  | delete (sym : List UInt8)
  | setDescription (sym : List UInt8) (description : Option (List UInt8))

variable {E : Type*}

namespace Slut

def ylsluCreate (value : ℕ → Value E) (text : ℕ → List UInt8) : Slut E :=
  ⟨Trie.yltrieCreate, value, text, 0, []⟩

def ylfree (s : Slut E) (b : ℕ) : Slut E := { s with freed := s.freed ++ [b] }

def freeDescription (s : Slut E) : Desc → Slut E
  | .buf b => s.ylfree b
  | .dummyEmptyDesc => s
  | .null => s

def allocValue (s : Slut E) (sty : ℤ) (e : E) : ℕ × Slut E :=
  (s.nr, { s with
    value := Function.update s.value s.nr ⟨sty, .dummyEmptyDesc, e⟩
    nr := s.nr + 1 })

def freeValue (s : Slut E) (v : ℕ) : Slut E := (s.freeDescription (s.value v).desc).ylfree v

def setDesc (s : Slut E) (v : ℕ) (desc : Desc) : Slut E :=
  { s with value := Function.update s.value v { s.value v with desc := desc } }

def ylsluInsert (s : Slut E) (sym : List UInt8) (sty : ℤ) (e : E) : ℤ × Slut E :=
  let a := s.allocValue sty e
  let s' := match a.2.t.yltrieGet sym with
    | some ov => (a.2.setDesc a.1 (a.2.value ov).desc).setDesc ov .dummyEmptyDesc
    | none => a.2
  let r := s'.t.yltrieInsertFcb freeValue sym a.1 s'
  (r.2.1, { r.1 with t := r.2.2 })

def ylsluDelete (s : Slut E) (sym : List UInt8) : ℤ × Slut E :=
  let r := s.t.yltrieDeleteFcb freeValue sym s
  (r.2.1, { r.1 with t := r.2.2 })

def ylsluSetDescription (s : Slut E) (sym : List UInt8) (description : Option (List UInt8)) :
    ℤ × Slut E :=
  match s.t.yltrieGet sym with
  | some v =>
      match description with
      | some d =>
          let s' : Slut E := { s with text := Function.update s.text s.nr d, nr := s.nr + 1 }
          (0, (s'.freeDescription (s'.value v).desc).setDesc v (.buf s.nr))
      | none => (0, (s.freeDescription (s.value v).desc).setDesc v .dummyEmptyDesc)
  | none => (-1, s)

def ylsluDestroy (s : Slut E) : Slut E :=
  let r := s.t.yltrieCleanFcb freeValue s
  { r.1 with t := r.2 }

def step (c : SlutCall E) (s : Slut E) : ℤ × Slut E :=
  match c with
  | .insert sym sty e => s.ylsluInsert sym sty e
  | .delete sym => s.ylsluDelete sym
  | .setDescription sym description => s.ylsluSetDescription sym description

def Reachable (s : Slut E) (b : ℕ) : Prop :=
  ∃ sym v, s.t.yltrieGet sym = some v ∧ (b = v ∨ (s.value v).desc = .buf b)

/-- No block was freed twice, or while it is still in the table. -/
def Safe (s : Slut E) : Prop := s.freed.Nodup ∧ ∀ b, s.Reachable b → b ∉ s.freed

/-- Every block that was allocated is freed exactly once. -/
def FreedOnce (s : Slut E) : Prop := s.freed.Nodup ∧ ∀ b, b ∈ s.freed ↔ b < s.nr

end Slut

/-- The trie takes the name that is inserted. -/
def SlutCall.Taken : SlutCall E → Prop
  | .insert sym _ _ => 1 ≤ sym.length ∧ sym.length < Trie.maxKeyLen
  | .delete _ => True
  | .setDescription _ _ => True

namespace Slut

/-! ### The blocks that are held -/

/-- The blocks of a record, in the order in which they are freed. -/
def blocks (s : Slut E) (v : ℕ) : List ℕ := (s.value v).desc.buffer ++ [v]

def held (s : Slut E) : List ℕ := s.t.values.flatMap s.blocks

structure Accounted (s : Slut E) (lost : List ℕ) : Prop where
  rooted : s.t.Rooted
  perm : s.freed ++ s.held ++ lost ~ List.range s.nr

theorem freeDescription_eq (s : Slut E) (desc : Desc) :
    s.freeDescription desc = { s with freed := s.freed ++ desc.buffer } := by
  cases desc with
  | buf b => rfl
  | null => rw [Desc.buffer, List.append_nil]; rfl
  | dummyEmptyDesc => rw [Desc.buffer, List.append_nil]; rfl

theorem freeValue_eq (s : Slut E) (v : ℕ) :
    s.freeValue v = { s with freed := s.freed ++ s.blocks v } := by
  rw [freeValue, freeDescription_eq, ylfree, blocks, List.append_assoc]

theorem foldl_freeValue : ∀ (vs : List ℕ) (s : Slut E),
    vs.foldl freeValue s = { s with freed := s.freed ++ vs.flatMap s.blocks }
  | [], s => by
      rw [List.flatMap_nil, List.append_nil]
      rfl
  | v :: vs, s => by
      rw [List.foldl_cons, foldl_freeValue vs, freeValue_eq, List.flatMap_cons, ← List.append_assoc]
      rfl

theorem sublist_flatMap_blocks (s : Slut E) : ∀ vs : List ℕ, vs <+ vs.flatMap s.blocks
  | [] => List.Sublist.refl _
  | v :: vs => by
      rw [List.flatMap_cons]
      exact (List.sublist_append_right _ [v]).append (sublist_flatMap_blocks s vs)

section Accounted

variable {s : Slut E} {lost : List ℕ}

theorem Accounted.nodup (hs : s.Accounted lost) : (s.freed ++ s.held ++ lost).Nodup :=
  hs.perm.nodup_iff.2 List.nodup_range

theorem Accounted.nodup_values (hs : s.Accounted lost) : s.t.values.Nodup :=
  (hs.nodup.of_append_left.of_append_right).sublist (s.sublist_flatMap_blocks _)

theorem Accounted.lt_nr (hs : s.Accounted lost) {v : ℕ} (hv : v ∈ s.t.values) : v < s.nr := by
  have hheld := (s.sublist_flatMap_blocks s.t.values).subset hv
  exact List.mem_range.1 (hs.perm.subset (by simp [held, hheld]))

/-- A record of the table, the others, and their blocks. -/
theorem Accounted.split (hs : s.Accounted lost) {sym : List UInt8} {v : ℕ}
    (hget : s.t.yltrieGet sym = some v) : ∃ rest, s.t.values ~ v :: rest ∧ v ∉ rest ∧
      s.held ~ s.blocks v ++ rest.flatMap s.blocks := by
  have hperm := List.perm_cons_erase (Trie.mem_values_of_yltrieGet hget)
  refine ⟨_, hperm, ?_, ?_⟩
  · exact (List.nodup_cons.1 (hperm.nodup_iff.1 hs.nodup_values)).1
  · exact hperm.flatMap_right _

theorem flatMap_blocks_congr {s s' : Slut E} {vs : List ℕ}
    (h : ∀ v ∈ vs, (s'.value v).desc = (s.value v).desc) :
    vs.flatMap s'.blocks = vs.flatMap s.blocks :=
  List.flatMap_congr fun v hv => by rw [blocks, blocks, h v hv]

theorem Accounted.safe (hs : s.Accounted lost) : s.Safe := by
  refine ⟨hs.nodup.of_append_left.of_append_left, ?_⟩
  rintro b ⟨sym, v, hget, hb⟩ hfreed
  have hheld : b ∈ s.held := by
    refine List.mem_flatMap.2 ⟨v, Trie.mem_values_of_yltrieGet hget, ?_⟩
    rcases hb with rfl | hb
    · simp [blocks]
    · simp [blocks, hb, Desc.buffer]
  exact (List.nodup_append.1 hs.nodup.of_append_left).2.2 b hfreed b hheld rfl

/-! ### Each call accounts for its blocks -/

theorem Accounted.free (hs : s.Accounted lost) {s' : Slut E} {f : List ℕ} (hrooted : s'.t.Rooted)
    (hfreed : s'.freed = s.freed ++ f) (hnr : s'.nr = s.nr) (hheld : f ++ s'.held ~ s.held) :
    s'.Accounted lost := by
  refine ⟨hrooted, ?_⟩
  rw [hfreed, hnr, List.append_assoc s.freed]
  exact ((hheld.append_left _).append_right _).trans hs.perm

/-- A call that allocates a block, frees the blocks `f` and loses the blocks `l`. -/
theorem Accounted.alloc (hs : s.Accounted lost) {s' : Slut E} {f l : List ℕ}
    (hrooted : s'.t.Rooted) (hfreed : s'.freed = s.freed ++ f) (hnr : s'.nr = s.nr + 1)
    (hheld : f ++ s'.held ++ l ~ s.nr :: s.held) : s'.Accounted (l ++ lost) := by
  refine ⟨hrooted, List.perm_iff_count.2 fun b => ?_⟩
  have hcount := hs.perm.count_eq b
  have hcount' := hheld.count_eq b
  rw [hfreed, hnr, List.range_succ]
  simp only [List.count_append, List.count_cons, List.count_nil] at hcount hcount' ⊢
  omega

theorem ylsluDelete_eq (ht : s.t.Rooted) (sym : List UInt8) :
    (s.ylsluDelete sym).2 = { s with
      t := (s.t.yltrieDelete sym).2
      freed := s.freed ++ (s.t.yltrieGet sym).toList.flatMap s.blocks } := by
  rw [ylsluDelete, Trie.yltrieDeleteFcb_eq _ ht, foldl_freeValue]

theorem accounted_delete (hs : s.Accounted lost) (sym : List UInt8) :
    (s.ylsluDelete sym).2.Accounted lost := by
  have hrooted := Trie.rooted_yltrieDelete hs.rooted sym
  have hvalues := (Trie.values_perm_of_update hs.rooted hrooted
    (Trie.yltrieDelete_spec hs.rooted sym).2).flatMap_right s.blocks
  rw [List.flatMap_append] at hvalues
  rw [ylsluDelete_eq hs.rooted]
  exact hs.free hrooted rfl rfl hvalues

/-- The insertion of a new name, or of one that the trie refuses. -/
theorem ylsluInsert_of_absent {sym : List UInt8} (hget : s.t.yltrieGet sym = none) (sty : ℤ)
    (e : E) : (s.ylsluInsert sym sty e).2 = { s with
      t := (s.t.yltrieInsert sym s.nr).2
      value := Function.update s.value s.nr ⟨sty, .dummyEmptyDesc, e⟩
      nr := s.nr + 1 } := by
  simp only [ylsluInsert, allocValue, hget, Trie.yltrieInsertFcb_eq]
  rfl

/-- The insertion over a name: the record takes the description over. -/
theorem ylsluInsert_of_present {sym : List UInt8} {ov : ℕ} (hget : s.t.yltrieGet sym = some ov)
    (hov : ov ≠ s.nr) (sty : ℤ) (e : E) : (s.ylsluInsert sym sty e).2 = { s with
      t := (s.t.yltrieInsert sym s.nr).2
      value := Function.update (Function.update s.value s.nr ⟨sty, (s.value ov).desc, e⟩) ov
        { s.value ov with desc := .dummyEmptyDesc }
      nr := s.nr + 1
      freed := s.freed ++ [ov] } := by
  simp only [ylsluInsert, allocValue, setDesc, hget, Trie.yltrieInsertFcb_eq, foldl_freeValue,
    Function.update_self, Function.update_of_ne hov, Function.update_idem, Option.toList_some,
    List.flatMap_cons, List.flatMap_nil, List.append_nil, blocks, Desc.buffer, List.nil_append]

theorem taken_of_get {t : Trie ℕ} {sym : List UInt8} {v : ℕ} (hget : t.yltrieGet sym = some v) :
    1 ≤ sym.length ∧ sym.length < Trie.maxKeyLen := by
  refine ⟨?_, Trie.length_of_get (by rw [hget]; rfl)⟩
  rw [Trie.yltrieGet] at hget
  split at hget
  · cases hget
  · omega

/-- The values of the table after an insertion that the trie takes. -/
theorem values_insert (hs : s.Accounted lost) {sym : List UInt8}
    (hsym : 1 ≤ sym.length ∧ sym.length < Trie.maxKeyLen) :
    (s.t.yltrieGet sym).toList ++ (s.t.yltrieInsert sym s.nr).2.values ~ s.nr :: s.t.values :=
  Trie.values_perm_of_update hs.rooted (Trie.rooted_insertPtr hs.rooted sym (some s.nr))
    (Trie.get_yltrieInsert s.t (List.ne_nil_of_length_pos hsym.1) hsym.2 s.nr).2

theorem accounted_insert_absent (hs : s.Accounted lost) {sym : List UInt8}
    (hget : s.t.yltrieGet sym = none) (sty : ℤ) (e : E) :
    (s.ylsluInsert sym sty e).2.Accounted
      (if 1 ≤ sym.length ∧ sym.length < Trie.maxKeyLen then lost else s.nr :: lost) := by
  have hrooted := Trie.rooted_insertPtr hs.rooted sym (some s.nr)
  have heq := ylsluInsert_of_absent hget sty e
  generalize (s.ylsluInsert sym sty e).2 = s' at heq
  have hvalue : s'.value = Function.update s.value s.nr ⟨sty, .dummyEmptyDesc, e⟩ := by
    rw [heq]
  have hcongr : s.t.values.flatMap s'.blocks = s.held := by
    refine flatMap_blocks_congr fun v hv => ?_
    rw [hvalue, Function.update_of_ne (Nat.ne_of_lt (hs.lt_nr hv))]
  have hblocks : s'.blocks s.nr = [s.nr] := by
    rw [blocks, hvalue, Function.update_self]
    rfl
  have hfreed : s'.freed = s.freed ++ [] := by
    rw [heq, List.append_nil]
  have hheld : s'.held = (s.t.yltrieInsert sym s.nr).2.values.flatMap s'.blocks := by
    rw [held, heq]
  have hnr : s'.nr = s.nr + 1 := by
    rw [heq]
  have hrooted' : s'.t.Rooted := by
    rw [heq]
    exact hrooted
  split
  next hsym =>
    have hvalues := (values_insert hs hsym).flatMap_right s'.blocks
    rw [hget, Option.toList_none, List.nil_append, ← hheld, List.flatMap_cons, hblocks,
      hcongr] at hvalues
    have halloc := hs.alloc (l := []) hrooted' hfreed hnr (by simpa using hvalues)
    exact halloc
  next hsym =>
    have hrefused := Trie.get_insertPtr s.t sym (some s.nr)
    rw [if_neg fun h => hsym ⟨h.1, Nat.lt_succ_of_le h.2.1⟩] at hrefused
    change s.t.yltrieInsert sym s.nr = (-1, s.t) at hrefused
    rw [hrefused, hcongr] at hheld
    refine hs.alloc (l := [s.nr]) hrooted' hfreed hnr ?_
    rw [List.nil_append, hheld]
    exact List.perm_append_singleton _ _

theorem accounted_insert_present (hs : s.Accounted lost) {sym : List UInt8} {ov : ℕ}
    (hget : s.t.yltrieGet sym = some ov) (sty : ℤ) (e : E) :
    (s.ylsluInsert sym sty e).2.Accounted lost := by
  have hrooted := Trie.rooted_insertPtr hs.rooted sym (some s.nr)
  have hlt := hs.lt_nr (Trie.mem_values_of_yltrieGet hget)
  obtain ⟨rest, hrest, hov, hheld⟩ := hs.split hget
  have hvalues : (s.t.yltrieInsert sym s.nr).2.values ~ s.nr :: rest := by
    have hperm := values_insert hs (taken_of_get hget)
    rw [hget] at hperm
    exact (hperm.trans ((hrest.cons _).trans (List.Perm.swap _ _ _))).cons_inv
  have heq := ylsluInsert_of_present hget (Nat.ne_of_lt hlt) sty e
  generalize (s.ylsluInsert sym sty e).2 = s' at heq
  have hvalue : s'.value = Function.update (Function.update s.value s.nr
      ⟨sty, (s.value ov).desc, e⟩) ov { s.value ov with desc := .dummyEmptyDesc } := by
    rw [heq]
  have hcongr : rest.flatMap s'.blocks = rest.flatMap s.blocks := by
    refine flatMap_blocks_congr fun v hv => ?_
    have hvnr : v ≠ s.nr := Nat.ne_of_lt (hs.lt_nr (hrest.symm.subset (List.mem_cons_of_mem _ hv)))
    rw [hvalue, Function.update_of_ne (ne_of_mem_of_not_mem hv hov), Function.update_of_ne hvnr]
  have hblocks : s'.blocks s.nr = (s.value ov).desc.buffer ++ [s.nr] := by
    rw [blocks, hvalue, Function.update_of_ne (Nat.ne_of_gt hlt), Function.update_self]
  have hheld' : s'.held ~ s'.blocks s.nr ++ rest.flatMap s.blocks := by
    have hperm := hvalues.flatMap_right s'.blocks
    have ht : s'.t = (s.t.yltrieInsert sym s.nr).2 := by
      rw [heq]
    rw [List.flatMap_cons, hcongr, ← ht] at hperm
    exact hperm
  refine hs.alloc (f := [ov]) (l := []) (by rw [heq]; exact hrooted) (by rw [heq]) (by rw [heq]) ?_
  refine List.perm_iff_count.2 fun b => ?_
  have hcount := hheld.count_eq b
  have hcount' := hheld'.count_eq b
  rw [blocks] at hcount
  rw [hblocks] at hcount'
  simp only [List.count_append, List.count_cons, List.count_nil] at hcount hcount' ⊢
  omega

/-- A new description of a record, after the old one was freed. -/
theorem held_setDesc (hs : s.Accounted lost) {sym : List UInt8} {v : ℕ}
    (hget : s.t.yltrieGet sym = some v) {s' : Slut E} (ht : s'.t = s.t) {desc : Desc}
    (hvalue : s'.value = Function.update s.value v { s.value v with desc := desc }) :
    (s.value v).desc.buffer ++ s'.held ~ desc.buffer ++ s.held := by
  obtain ⟨rest, hrest, hv, hheld⟩ := hs.split hget
  have hcongr : rest.flatMap s'.blocks = rest.flatMap s.blocks := by
    refine flatMap_blocks_congr fun w hw => ?_
    rw [hvalue, Function.update_of_ne (ne_of_mem_of_not_mem hw hv)]
  have hblocks : s'.blocks v = desc.buffer ++ [v] := by
    rw [blocks, hvalue, Function.update_self]
  have hheld' := hrest.flatMap_right s'.blocks
  rw [List.flatMap_cons, hcongr, hblocks, ← ht] at hheld'
  change s'.held ~ _ at hheld'
  refine List.perm_iff_count.2 fun b => ?_
  have hcount := hheld.count_eq b
  have hcount' := hheld'.count_eq b
  rw [blocks] at hcount
  simp only [List.count_append] at hcount hcount' ⊢
  omega

theorem accounted_setDescription (hs : s.Accounted lost) (sym : List UInt8)
    (description : Option (List UInt8)) :
    (s.ylsluSetDescription sym description).2.Accounted lost := by
  rw [ylsluSetDescription]
  split
  next v hget =>
    cases description with
    | some d =>
        simp only [freeDescription_eq]
        refine hs.alloc (l := []) hs.rooted rfl rfl ?_
        rw [List.append_nil]
        change _ ~ (Desc.buf s.nr).buffer ++ s.held
        exact held_setDesc hs hget (by rfl) (by rfl)
    | none =>
        simp only [freeDescription_eq]
        refine hs.free hs.rooted rfl rfl ?_
        change _ ~ Desc.dummyEmptyDesc.buffer ++ s.held
        exact held_setDesc hs hget (by rfl) (by rfl)
  next => exact hs

theorem accounted_step (c : SlutCall E) (hs : s.Accounted lost) :
    ∃ lost', (step c s).2.Accounted lost' ∧ (lost' = [] ↔ lost = [] ∧ c.Taken) := by
  cases c with
  | insert sym sty e =>
      cases hget : s.t.yltrieGet sym with
      | none =>
          refine ⟨_, accounted_insert_absent hs hget sty e, ?_⟩
          split
          next hsym => exact ⟨fun h => ⟨h, hsym⟩, fun h => h.1⟩
          next hsym => exact ⟨nofun, fun h => absurd h.2 hsym⟩
      | some ov =>
          exact ⟨lost, accounted_insert_present hs hget sty e, fun h => ⟨h, taken_of_get hget⟩,
            fun h => h.1⟩
  | delete sym => exact ⟨lost, accounted_delete hs sym, fun h => ⟨h, trivial⟩, fun h => h.1⟩
  | setDescription sym description =>
      exact ⟨lost, accounted_setDescription hs sym description, fun h => ⟨h, trivial⟩,
        fun h => h.1⟩

theorem accounted_run : ∀ (calls : List (SlutCall E)) {s : Slut E} {lost : List ℕ},
    s.Accounted lost → ∃ lost', (Answer.run step calls s).2.Accounted lost' ∧
      (lost' = [] ↔ lost = [] ∧ ∀ c ∈ calls, c.Taken)
  | [], s, lost, hs => ⟨lost, hs, by simp⟩
  | c :: calls, s, lost, hs => by
      obtain ⟨lost', hs', hlost'⟩ := accounted_step c hs
      obtain ⟨lost'', hs'', hlost''⟩ := accounted_run calls hs'
      refine ⟨lost'', hs'', ?_⟩
      rw [hlost'', hlost', List.forall_mem_cons, and_assoc]

theorem accounted_create (value : ℕ → Value E) (text : ℕ → List UInt8) :
    (ylsluCreate value text).Accounted [] := by
  refine ⟨Trie.rooted_yltrieCreate, ?_⟩
  rw [held, ylsluCreate, Trie.values_yltrieCreate]
  exact List.Perm.refl _

/-- What is left after the table was destroyed is what was lost. -/
theorem freedOnce_destroy (hs : s.Accounted lost) : s.ylsluDestroy.FreedOnce ↔ lost = [] := by
  obtain ⟨vs, hvs, hclean⟩ := Trie.yltrieCleanFcb_eq (freeValue (E := E)) hs.rooted
  have heq : s.ylsluDestroy = { s with
      t := s.t.yltrieClean
      freed := s.freed ++ vs.flatMap s.blocks } := by
    rw [ylsluDestroy, hclean, foldl_freeValue]
  have hperm : s.freed ++ vs.flatMap s.blocks ++ lost ~ List.range s.nr :=
    (((hvs.flatMap_right s.blocks).append_left _).append_right _).trans hs.perm
  rw [heq, FreedOnce]
  constructor
  · rintro ⟨hnodup, hmem⟩
    have hrange : s.freed ++ vs.flatMap s.blocks ~ List.range s.nr :=
      (List.perm_ext_iff_of_nodup hnodup List.nodup_range).2 fun b =>
        (hmem b).trans List.mem_range.symm
    have hlen := hperm.length_eq
    rw [List.length_append, hrange.length_eq] at hlen
    exact List.length_eq_zero_iff.1 (by omega)
  · rintro rfl
    rw [List.append_nil] at hperm
    exact ⟨hperm.nodup_iff.2 List.nodup_range, fun b => hperm.mem_iff.trans List.mem_range⟩

end Accounted

/-- No run frees a block twice, or one that can still be reached. -/
theorem safe_run (calls : List (SlutCall E)) (value : ℕ → Value E) (text : ℕ → List UInt8) :
    (Answer.run step calls (ylsluCreate value text)).2.Safe := by
  obtain ⟨lost, hs, -⟩ := accounted_run calls (accounted_create value text)
  exact hs.safe

/-- In every state of a run no block was freed that the table reaches or that was freed
before, and after `ylslu_destroy` each one is freed once, exactly when every name that was
inserted has from 1 to 1023 bytes. -/
theorem freed_once_iff (calls : List (SlutCall E)) (value : ℕ → Value E)
    (text : ℕ → List UInt8) :
    ((∀ pre, pre <+: calls → (Answer.run step pre (ylsluCreate value text)).2.Safe) ∧
      (Answer.run step calls (ylsluCreate value text)).2.ylsluDestroy.FreedOnce) ↔
      ∀ c ∈ calls, c.Taken := by
  obtain ⟨lost, hs, hlost⟩ := accounted_run calls (accounted_create value text)
  rw [freedOnce_destroy hs, hlost]
  exact ⟨fun h => h.2.2, fun h => ⟨fun pre _ => safe_run pre value text, rfl, h⟩⟩

/-- The shortest name that is too long for the trie. -/
def longName : List UInt8 := List.replicate Trie.maxKeyLen 97

/-- The record of a name that the trie refuses is never freed. -/
theorem not_freed_once :
    ¬ (Answer.run step [.insert longName 0 ()]
      (ylsluCreate (fun _ => ⟨0, .null, ()⟩) fun _ => [])).2.ylsluDestroy.FreedOnce := by
  obtain ⟨lost, hs, hlost⟩ := accounted_run [.insert longName 0 ()]
    (accounted_create (fun _ => ⟨0, .null, ()⟩) fun _ => [])
  rw [freedOnce_destroy hs, hlost, List.forall_mem_singleton]
  rintro ⟨-, -, hlen⟩
  rw [longName, List.length_replicate] at hlen
  exact Nat.lt_irrefl _ hlen

end Slut

end Symlookup

end Ylisp
