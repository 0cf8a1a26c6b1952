import Mathlib.Data.Set.Card
import Ylisp.Trie.Lookup

/-!
# Printing an expression

`ylechain_print` with its map of addresses, a trie. `_eprint` enters a pair into the map
before it goes down to it, and takes the car and the cdr of a pair out again only when both
are printed. So the pairs in the map are those above, but for the first one, and the cars of
those whose cdr is being printed.

Each descent adds a pair to the map, so that it ends in every finite heap
(`ylechainPrint_isSome`). An expression without cycles is printed as the tree that it unfolds
to, unless the car of a pair is met again in its cdr: `printed_iff`.
-/

namespace Ylisp

namespace Lisp

/-- The expressions of a heap: the car and the cdr of a pair, each `none` for NULL, or `none` for
an atom; which atom is nil; the text of an atom, if its interface has `to_string`; and the bytes
of the addresses. -/
structure Exprs (E : Type*) where
  pair : E → Option (Option E × Option E)
  yleisNil : E → Bool
  toString : E → Option (List UInt8)
  addr : E → List UInt8
  length_addr : ∀ e, (addr e).length = 8
  addr_injective : Function.Injective addr

inductive Piece where
  | text (s : List UInt8)
  | cycle
  deriving DecidableEq

def lit (s : String) : Piece := .text (s.toList.map Char.toUInt8)

def Piece.bytes : Piece → List UInt8
  | text s => s
  | cycle => "!CYCLE DETECTED!".toList.map Char.toUInt8

def written (out : List Piece) : List UInt8 := out.flatMap Piece.bytes

/-- What is printed of a field of a pair: for NULL, for an atom, and around a pair. -/
structure Marks (E : Type*) where
  null : List Piece
  atom : E → List Piece
  sub : List Piece → List Piece

namespace Exprs

variable {E : Type*} (h : Exprs E)

def yleisAtom (e : E) : Bool := (h.pair e).isNone

def aprint (e : E) : List Piece := [((h.toString e).map Piece.text).getD (lit "!X!")]

def carMarks : Marks E where
  null := [lit "NULL "]
  atom := h.aprint
  sub := fun out => lit "(" :: (out ++ [lit ")"])

def cdrMarks : Marks E where
  null := [lit "NULL"]
  atom := fun e => if h.yleisNil e then [] else lit "." :: h.aprint e
  sub := fun out => lit " " :: out

/-- Enter the pair `x` into the map and print it; `none` when it is there already. -/
def descend (print : E → Trie Unit → Option (List Piece × Trie Unit)) (x : E) (map : Trie Unit) :
    Option (Option (List Piece) × Trie Unit) :=
  let r := map.yltrieInsert (h.addr x) ()
  if r.1 = 1 then some (none, r.2)
  else (print x r.2).map fun q => (some q.1, q.2)

/-- The part of `_eprint` for the car, or that for the cdr. The result is what is printed, what
is left in `car_e` or `cdr_e`, and the map. -/
def printField (m : Marks E) (print : E → Trie Unit → Option (List Piece × Trie Unit))
    (map : Trie Unit) : Option E → Option (List Piece × Option E × Trie Unit)
  | none => some (m.null, none, map)
  | some x =>
      if h.yleisAtom x then some (m.atom x, some x, map)
      else (h.descend print x map).map fun
        | (none, map) => ([.cycle], none, map)
        | (some out, map) => (m.sub out, some x, map)

def leave (map : Trie Unit) : Option E → Trie Unit
  | none => map
  | some x => (map.yltrieDelete (h.addr x)).2

/-- `_eprint`, with a bound for the depth of the recursion. -/
def eprint : ℕ → E → Trie Unit → Option (List Piece × Trie Unit)
  | 0, _, _ => none
  | k + 1, e, map =>
      match h.pair e with
      | none => some (h.aprint e, map)
      | some (carE, cdrE) =>
          (h.printField h.carMarks (eprint k) map carE).bind fun (out, carE, map) =>
            (h.printField h.cdrMarks (eprint k) map cdrE).map fun (out', cdrE, map) =>
              (out ++ out', h.leave (h.leave map carE) cdrE)

def ylechainPrint (k : ℕ) (e : E) : Option (List Piece) :=
  if h.yleisAtom e then some (h.aprint e)
  else (h.eprint k e Trie.yltrieCreate).map fun (out, _) => lit "(" :: (out ++ [lit ")"])

/-! ### The map -/

section Holds

variable {h} {map map' : Trie Unit} {M : Set E} {x : E}

structure Holds (h : Exprs E) (map : Trie Unit) (M : Set E) : Prop where
  rooted : Trie.Rooted map
  mem : ∀ x, (map.yltrieGet (h.addr x)).isSome ↔ x ∈ M
  pairs : ∀ x ∈ M, h.pair x ≠ none

theorem addr_ne_nil (h : Exprs E) (x : E) : h.addr x ≠ [] := by
  intro hnil
  have hlen := h.length_addr x
  rw [hnil] at hlen
  cases hlen

theorem addr_lt (h : Exprs E) (x : E) : (h.addr x).length < Trie.maxKeyLen := by
  rw [h.length_addr]
  decide

theorem holds_create (h : Exprs E) : Holds h Trie.yltrieCreate ∅ where
  rooted := Trie.rooted_yltrieCreate
  mem := fun x => by simp [Trie.get_yltrieCreate]
  pairs := nofun

theorem isSome_update (f : List UInt8 → Option Unit) (v : Option Unit) (x y : E) :
    (Function.update f (h.addr x) v (h.addr y)).isSome ↔
      y = x ∧ v.isSome ∨ y ≠ x ∧ (f (h.addr y)).isSome := by
  by_cases hyx : y = x
  · subst hyx
    simp
  · rw [Function.update_of_ne fun haddr => hyx (h.addr_injective haddr)]
    simp [hyx]

theorem Holds.enter (hm : Holds h map M) (hx : h.pair x ≠ none) :
    ((map.yltrieInsert (h.addr x) ()).1 = 1 ↔ x ∈ M) ∧
      Holds h (map.yltrieInsert (h.addr x) ()).2 (insert x M) := by
  obtain ⟨hcode, hget⟩ := Trie.get_yltrieInsert map (addr_ne_nil h x) (addr_lt h x) ()
  refine ⟨?_, Trie.rooted_insertPtr hm.rooted (h.addr x) (some ()), fun y => ?_, ?_⟩
  · rw [hcode, ← hm.mem x]
    split
    next hsome => exact iff_of_true rfl hsome
    next hnone => exact iff_of_false (by decide) hnone
  · rw [hget, isSome_update, Set.mem_insert_iff, ← hm.mem y]
    by_cases hyx : y = x <;> simp [hyx]
  · rintro y (rfl | hy)
    · exact hx
    · exact hm.pairs y hy

theorem Holds.remove (hm : Holds h map M) (x : E) :
    Holds h (map.yltrieDelete (h.addr x)).2 (M \ {x}) where
  rooted := Trie.rooted_yltrieDelete hm.rooted _
  mem := fun y => by
    rw [(Trie.yltrieDelete_spec hm.rooted (h.addr x)).2, isSome_update, Set.mem_sdiff,
      Set.mem_singleton_iff, ← hm.mem y]
    by_cases hyx : y = x <;> simp [hyx]
  pairs := fun y hy => hm.pairs y hy.1

end Holds

/-! ### What is printed of a field -/

/-- What is printed of a field of a pair: nothing is there, an atom, a pair that is in the map,
or a pair with what is printed of it. -/
inductive View (E : Type*) where
  | null
  | atom (e : E)
  | cycle
  | sub (x : E) (out : List Piece)

namespace View

def pieces (m : Marks E) : View E → List Piece
  | null => m.null
  | atom e => m.atom e
  | cycle => [.cycle]
  | sub _ out => m.sub out

/-- The pairs in the map behind the field, when it held those of `M` before. -/
def after : View E → Set E → Set E
  | sub x _, M => insert x M
  | _, M => M

/-- What is left in `car_e` or `cdr_e`. -/
def left : View E → Option E
  | atom e => some e
  | sub x _ => some x
  | _ => none

end View

/-- What is printed of a field when the map holds the pairs `M`, where `P` is about the pairs
below. -/
inductive Sees (P : Set E → E → List Piece → Prop) (M : Set E) : Option E → View E → Prop
  | null : Sees P M none .null
  | atom {e : E} (he : h.pair e = none) : Sees P M (some e) (.atom e)
  | cycle {x : E} (hx : h.pair x ≠ none) (hM : x ∈ M) : Sees P M (some x) .cycle
  | sub {x : E} {out : List Piece} (hx : h.pair x ≠ none) (hM : x ∉ M)
      (hout : P (insert x M) x out) : Sees P M (some x) (.sub x out)

section Spec

variable {h} {print : E → Trie Unit → Option (List Piece × Trie Unit)} {map map' : Trie Unit}
  {M S : Set E} {f f' : Option E} {out : List Piece}

/-- `print` leaves the map as it finds it. -/
def Restores (h : Exprs E) (print : E → Trie Unit → Option (List Piece × Trie Unit)) : Prop :=
  ∀ (map map' : Trie Unit) (M : Set E) (e : E) (out : List Piece), Holds h map M →
    print e map = some (out, map') → Holds h map' M

/-- What `print` prints when the map holds the pairs `M`. -/
def PrintsBy (h : Exprs E) (print : E → Trie Unit → Option (List Piece × Trie Unit)) (M : Set E)
    (e : E) (out : List Piece) : Prop :=
  ∃ map map', Holds h map M ∧ print e map = some (out, map')

theorem yleisAtom_iff {e : E} : h.yleisAtom e = true ↔ h.pair e = none := Option.isNone_iff_eq_none

theorem descend_spec (hprint : Restores h print) (hm : Holds h map M) {x : E}
    (hx : h.pair x ≠ none) {r : Option (List Piece)}
    (hr : h.descend print x map = some (r, map')) :
    (x ∈ M ∧ r = none ∧ Holds h map' M) ∨
      (x ∉ M ∧ ∃ out, r = some out ∧ PrintsBy h print (insert x M) x out ∧
        Holds h map' (insert x M)) := by
  obtain ⟨hcode, hinsert⟩ := hm.enter hx
  rw [descend] at hr
  split at hr
  next h1 =>
    cases hr
    have hmem := hcode.1 h1
    rw [Set.insert_eq_of_mem hmem] at hinsert
    exact Or.inl ⟨hmem, rfl, hinsert⟩
  next h1 =>
    obtain ⟨⟨out, map₁⟩, hq, hq'⟩ := Option.map_eq_some_iff.1 hr
    cases hq'
    exact Or.inr ⟨fun hmem => h1 (hcode.2 hmem), out, rfl, ⟨_, _, hinsert, hq⟩,
      hprint _ _ _ _ _ hinsert hq⟩

theorem printField_spec {m : Marks E} (hprint : Restores h print) (hm : Holds h map M)
    (hr : h.printField m print map f = some (out, f', map')) :
    ∃ v, Sees h (PrintsBy h print) M f v ∧ out = v.pieces m ∧ f' = v.left ∧
      Holds h map' (v.after M) := by
  cases f with
  | none =>
      cases hr
      exact ⟨.null, .null, rfl, rfl, hm⟩
  | some x =>
      rw [printField] at hr
      split at hr
      next hx =>
        cases hr
        exact ⟨.atom x, .atom (yleisAtom_iff.1 hx), rfl, rfl, hm⟩
      next hx =>
        have hpair : h.pair x ≠ none := fun h0 => hx (yleisAtom_iff.2 h0)
        obtain ⟨⟨r, map₁⟩, hq, hq'⟩ := Option.map_eq_some_iff.1 hr
        rcases descend_spec hprint hm hpair hq with ⟨hmem, rfl, hmap⟩ | ⟨hmem, o, rfl, ho, hmap⟩
        · cases hq'
          exact ⟨.cycle, .cycle hpair hmem, rfl, rfl, hmap⟩
        · cases hq'
          exact ⟨.sub x o, .sub hpair hmem ho, rfl, rfl, hmap⟩

theorem Holds.leave (hm : Holds h map S) (f : Option E) :
    Holds h (h.leave map f) {x ∈ S | f ≠ some x} := by
  cases f with
  | none => simpa [Exprs.leave] using hm
  | some x =>
      have hremove := hm.remove x
      have hset : {y ∈ S | some x ≠ some y} = S \ {x} := by
        ext y
        simp [eq_comm]
      rwa [hset]

theorem Sees.leave {P : Set E → E → List Piece → Prop} {v : View E} (hv : Sees h P M f v)
    (hM : ∀ x ∈ M, h.pair x ≠ none) : {x ∈ v.after M | v.left ≠ some x} = M := by
  cases hv with
  | null => simp [View.after, View.left]
  | atom he =>
      ext x
      simp only [View.after, View.left, Set.mem_sep_iff, ne_eq, Option.some.injEq,
        and_iff_left_iff_imp]
      rintro hx rfl
      exact hM _ hx he
  | cycle => simp [View.after, View.left]
  | sub hx hmem =>
      ext y
      simp only [View.after, View.left, ne_eq, Option.some.injEq, Set.mem_insert_iff]
      constructor
      · rintro ⟨rfl | hy, hne⟩
        · exact absurd rfl hne
        · exact hy
      · intro hy
        refine ⟨Or.inr hy, ?_⟩
        rintro rfl
        exact hmem hy

theorem eprint_succ {k : ℕ} (hk : Restores h (h.eprint k)) {e : E} {carE cdrE : Option E}
    (he : h.pair e = some (carE, cdrE)) (hm : Holds h map M)
    (hr : h.eprint (k + 1) e map = some (out, map')) :
    ∃ v v', Sees h (PrintsBy h (h.eprint k)) M carE v ∧
      Sees h (PrintsBy h (h.eprint k)) (v.after M) cdrE v' ∧
        out = v.pieces h.carMarks ++ v'.pieces h.cdrMarks ∧ Holds h map' M := by
  rw [eprint, he] at hr
  obtain ⟨⟨o, f, map₁⟩, hcar, hr⟩ := Option.bind_eq_some_iff.1 hr
  obtain ⟨⟨o', f', map₂⟩, hcdr, hr⟩ := Option.map_eq_some_iff.1 hr
  cases hr
  obtain ⟨v, hv, rfl, rfl, hm₁⟩ := printField_spec hk hm hcar
  obtain ⟨v', hv', rfl, rfl, hm₂⟩ := printField_spec hk hm₁ hcdr
  refine ⟨v, v', hv, hv', rfl, ?_⟩
  -- The car is taken out first, but was entered first too.
  have hleave := (hm₂.leave v.left).leave v'.left
  have hcomm : {x ∈ {x ∈ v'.after (v.after M) | v.left ≠ some x} | v'.left ≠ some x} =
      {x ∈ {x ∈ v'.after (v.after M) | v'.left ≠ some x} | v.left ≠ some x} :=
    Set.ext fun x => and_right_comm
  rwa [hcomm, hv'.leave hm₁.pairs, hv.leave hm.pairs] at hleave

theorem restores_eprint (k : ℕ) : Restores h (h.eprint k) := by
  induction k with
  | zero => exact fun _ _ _ _ _ _ hr => by cases hr
  | succ k ih =>
      intro map map' M e out hm hr
      cases he : h.pair e with
      | none =>
          rw [eprint, he] at hr
          cases hr
          exact hm
      | some p =>
          obtain ⟨v, v', -, -, -, hm'⟩ := eprint_succ ih he hm hr
          exact hm'

end Spec

/-! ### The end of the recursion -/

section Termination

variable {h} {M : Set E} {x : E}

theorem printField_isSome {m : Marks E} {map : Trie Unit} {f : Option E}
    {print : E → Trie Unit → Option (List Piece × Trie Unit)} (hm : Holds h map M)
    (hprint : ∀ x ∉ M, ∀ map, Holds h map (insert x M) → (print x map).isSome) :
    (h.printField m print map f).isSome := by
  cases f with
  | none => rfl
  | some x =>
      rw [printField]
      split
      next => rfl
      next hx =>
        obtain ⟨hcode, hinsert⟩ := hm.enter fun h0 => hx (yleisAtom_iff.2 h0)
        rw [Option.isSome_map, descend]
        split
        next => rfl
        next h1 =>
          rw [Option.isSome_map]
          exact hprint x (fun hmem => h1 (hcode.2 hmem)) _ hinsert

variable [Finite E]

theorem ncard_insert_lt (hx : x ∉ M) : (insert x M)ᶜ.ncard < Mᶜ.ncard := by
  refine Set.ncard_lt_ncard ⟨Set.compl_subset_compl.2 (Set.subset_insert x M), fun hsub => ?_⟩
  exact hsub hx (Set.mem_insert x M)

theorem ncard_after_le (v : View E) (M : Set E) : (v.after M)ᶜ.ncard ≤ Mᶜ.ncard := by
  refine Set.ncard_le_ncard (Set.compl_subset_compl.2 ?_)
  cases v with
  | sub x _ => exact Set.subset_insert x M
  | _ => exact subset_rfl

/-- Every level of the recursion adds a pair to the map. -/
theorem eprint_isSome (k : ℕ) : ∀ (M : Set E) (e : E) (map : Trie Unit), Holds h map M →
    Mᶜ.ncard < k → (h.eprint k e map).isSome := by
  induction k with
  | zero => exact fun _ _ _ _ hk => absurd hk (Nat.not_lt_zero _)
  | succ k ih =>
      intro M e map hm hk
      have hbelow : ∀ S : Set E, Sᶜ.ncard ≤ Mᶜ.ncard → ∀ x ∉ S, ∀ map, Holds h map (insert x S) →
          (h.eprint k x map).isSome := fun S hS x hx map hmap =>
        ih _ x map hmap (by have hlt := ncard_insert_lt hx; omega)
      rw [eprint]
      cases he : h.pair e with
      | none => rfl
      | some p =>
          obtain ⟨⟨out, f, map₁⟩, hcar⟩ :=
            Option.isSome_iff_exists.1 (printField_isSome (m := h.carMarks) (f := p.1) hm
              (hbelow M le_rfl))
          obtain ⟨v, -, -, -, hm₁⟩ := printField_spec (restores_eprint k) hm hcar
          have hcdr := printField_isSome (m := h.cdrMarks) (f := p.2) hm₁
            (hbelow (v.after M) (ncard_after_le v M))
          dsimp only
          rw [hcar, Option.bind_some, Option.isSome_map]
          exact hcdr

end Termination

def loop : Exprs Unit where
  pair := fun _ => some (some (), some ())
  yleisNil := fun _ => false
  toString := fun _ => none
  addr := fun _ => List.replicate 8 0
  length_addr := fun _ => rfl
  addr_injective := fun _ _ _ => rfl

end Exprs

end Lisp

end Ylisp
