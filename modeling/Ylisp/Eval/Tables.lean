import Ylisp.Eval.BaseBlocks
import Ylisp.Eval.HeapSpec
import Ylisp.Parser.Expr
import Ylisp.Trie.Lookup

/-!
# Assignments to the symbol tables

When the symbol is not bound in the association list, `_set` enters the value
into a symbol table and then sets the description. `entries_assigned` says what
the two calls leave in the table: a name of `maxKeyLen` bytes and more is not
entered, and without a description the one that was there is lost.
-/

namespace Ylisp

namespace Eval

open Mempool

open Effect

open Trie (maxKeyLen)

variable {n : ℕ}

def ylsluGetDescription (t : Slut n) (sym : List UInt8) : Option (List UInt8) :=
  (t.yltrieGet sym).map Value.desc

/-- The global table, or the one of the evaluation. -/
def target (c : Etcxt n) (bgsym : Bool) (p : Pool n) : Slut n :=
  if bgsym then p.gsym else c.table p

def assigned (t : Slut n) (sym : List UInt8) (ty : ℕ) (val : Ref n)
    (desc : Option (List UInt8)) : Slut n :=
  ylsluSetDescription (ylsluInsert t sym ty val) sym (if desc = some [] then none else desc)

/-- The symbol `s` is named `sym`, and the association list has no binding of it. -/
def Unbound (c : Etcxt n) (k : ℕ) (s a : Ref n) (sym : List UInt8) (p : Pool n) : Prop :=
  symOf s p = .ok (some sym) p ∧ listFind c k s a p = .ok none p

section Assigned

variable {t : Slut n} {sym : List UInt8}

theorem entries_ylsluInsert (hsym : sym ≠ []) (hlen : sym.length < maxKeyLen) (ty : ℕ)
    (val : Ref n) :
    (ylsluInsert t sym ty val).yltrieGet = Function.update t.yltrieGet sym
      (some ⟨ty, (ylsluGetDescription t sym).getD [], some val⟩) :=
  (Trie.get_yltrieInsert t hsym hlen _).2

theorem entries_assigned (hsym : sym ≠ []) (hlen : sym.length < maxKeyLen) (ty : ℕ)
    (val : Ref n) (desc : Option (List UInt8)) :
    (assigned t sym ty val desc).yltrieGet =
      Function.update t.yltrieGet sym (some ⟨ty, desc.getD [], some val⟩) := by
  have hins := entries_ylsluInsert (t := t) hsym hlen ty val
  have hdesc : (if desc = some [] then none else desc).getD [] = desc.getD [] := by
    split
    · rename_i h
      rw [h]
      rfl
    · rfl
  have hget : (ylsluInsert t sym ty val).yltrieGet sym =
      some ⟨ty, (ylsluGetDescription t sym).getD [], some val⟩ := by
    rw [hins, Function.update_self]
  rw [assigned, ylsluSetDescription, hget]
  dsimp only
  rw [(Trie.get_yltrieInsert _ hsym hlen _).2, hins, Function.update_idem, hdesc]

theorem get_of_long (hlen : maxKeyLen ≤ sym.length) : t.yltrieGet sym = none := by
  rw [← Option.not_isSome_iff_eq_none]
  intro h
  exact absurd (Trie.length_of_get h) (Nat.not_lt.2 hlen)

theorem assigned_of_long (hlen : maxKeyLen ≤ sym.length) (ty : ℕ) (val : Ref n)
    (desc : Option (List UInt8)) : assigned t sym ty val desc = t := by
  have hins : ylsluInsert t sym ty val = t := by
    rw [ylsluInsert, Trie.yltrieInsert_of_long t hlen]
  rw [assigned, hins, ylsluSetDescription, get_of_long hlen]

theorem get_assigned_of_ne (hsym : sym ≠ []) {name : List UInt8} (hne : name ≠ sym) (ty : ℕ)
    (val : Ref n) (desc : Option (List UInt8)) :
    (assigned t sym ty val desc).yltrieGet name = t.yltrieGet name := by
  by_cases hlen : sym.length < maxKeyLen
  · rw [entries_assigned hsym hlen, Function.update_of_ne hne]
  · rw [assigned_of_long (Nat.not_lt.1 hlen)]

end Assigned

section Set

variable {c : Etcxt n} {k : ℕ} {s a val : Ref n} {sym : List UInt8} {p : Pool n}

def retable (c : Etcxt n) (bgsym : Bool) (f : Slut n → Slut n) (p : Pool n) : Pool n :=
  if bgsym then { p with gsym := f p.gsym } else { p with cxtl := p.cxtl.modify c.slut f }

theorem length_cxtl_retable (c : Etcxt n) (bgsym : Bool) (f : Slut n → Slut n) (p : Pool n) :
    (retable c bgsym f p).cxtl.length = p.cxtl.length := by
  cases bgsym with
  | true => rfl
  | false => exact List.length_modify f p.cxtl c.slut

theorem setTable_eq (c : Etcxt n) (bgsym : Bool) (f : Slut n → Slut n) (p : Pool n) :
    setTable c bgsym f p = .ok () (retable c bgsym f p) := by
  cases bgsym <;> rfl

theorem target_retable (hslut : c.slut < p.cxtl.length) (bgsym b : Bool) (f : Slut n → Slut n) :
    target c b (retable c bgsym f p) = if b = bgsym then f (target c b p) else target c b p := by
  have htable : (p.cxtl.modify c.slut f).getD c.slut Trie.yltrieCreate =
      f (p.cxtl.getD c.slut Trie.yltrieCreate) := by
    simp [List.getD, hslut]
  cases bgsym with
  | true => cases b <;> rfl
  | false =>
      cases b with
      | true => rfl
      | false => exact htable

/-- What `_set` does when the symbol is not bound in the association list. -/
theorem set_unbound (hslut : c.slut < p.cxtl.length) (hs : Unbound c k s a sym p)
    (hsym : sym ≠ []) (val : Ref n) (desc : Option (List UInt8)) (ty : ℕ) (bgsym : Bool) :
    ∃ p', set c k s val a desc ty bgsym p = .ok val p' ∧
      ∀ b, target c b p' =
        if b = bgsym then assigned (target c b p) sym ty val desc else target c b p := by
  have hfind : setFind c k s a p = .ok (sym, none) p := by
    rw [setFind, bind_of_ok hs.1]
    dsimp only
    rw [if_neg hsym, bind_of_ok hs.2]
    rfl
  have hslut' : c.slut < (retable c bgsym (fun t => ylsluInsert t sym ty val) p).cxtl.length := by
    rw [length_cxtl_retable]
    exact hslut
  refine ⟨retable c bgsym
    (fun t => ylsluSetDescription t sym (if desc = some [] then none else desc))
    (retable c bgsym (fun t => ylsluInsert t sym ty val) p), ?_, fun b => ?_⟩
  · rw [set, bind_of_ok hfind]
    dsimp only
    rw [bind_of_ok (setTable_eq c bgsym _ p), bind_of_ok (setTable_eq c bgsym _ _)]
    rfl
  · rw [target_retable hslut', target_retable hslut]
    split <;> rfl

theorem get_other {p' : Pool n} {desc : Option (List UInt8)} {ty : ℕ} {bgsym : Bool}
    (hsym : sym ≠ []) (htarget : ∀ b, target c b p' =
      if b = bgsym then assigned (target c b p) sym ty val desc else target c b p) {b : Bool}
    {name : List UInt8} (hother : b ≠ bgsym ∨ name ≠ sym) :
    (target c b p').yltrieGet name = (target c b p).yltrieGet name := by
  rw [htarget]
  split
  · rename_i hb
    exact get_assigned_of_ne hsym (hother.resolve_left fun h => h hb) ty val desc
  · rfl

/-- After `ylset`, or `yltset`, a lookup yields the value and the kind, and all other names
are as before, if and only if the name is no longer than a key of the trie. -/
theorem found_iff (hslut : c.slut < p.cxtl.length) (name : Parser.Symbol)
    (hs : Unbound c k s a name.val p) (hname : name.val ≠ []) (desc : Option (List UInt8))
    (ty : ℕ) (bgsym : Bool) :
    ∃ p', set c k s val a desc ty bgsym p = .ok val p' ∧
      ((ylsluGet (target c bgsym p') name.val = some (ty, val) ∧
          (∀ b sym, b ≠ bgsym ∨ sym ≠ name.val →
            ylsluGet (target c b p') sym = ylsluGet (target c b p) sym)) ↔
        name.val.length ≤ 1023) := by
  obtain ⟨p', hset, htarget⟩ := set_unbound hslut hs hname val desc ty bgsym
  refine ⟨p', hset, ?_⟩
  constructor
  · rintro ⟨hget, -⟩
    by_contra hlong
    have hlong : maxKeyLen ≤ name.val.length := Nat.lt_of_not_le hlong
    rw [ylsluGet, get_of_long hlong] at hget
    cases hget
  · intro hlen
    refine ⟨?_, fun b sym hother => ?_⟩
    · rw [htarget, if_pos rfl, ylsluGet, entries_assigned hname (Nat.lt_succ_of_le hlen),
        Function.update_self]
      rfl
    · rw [ylsluGet, ylsluGet, get_other hname htarget hother]

def symPool (sym : List UInt8) (gsym : Slut 1) : Pool 1 :=
  { poolOf 1 [.sym sym] gsym with cxtl := [Trie.yltrieCreate] }

theorem unbound_symPool (sym : List UInt8) (gsym : Slut 1) :
    Unbound (plainCxt 1 false) 1 (.blk 0) ylnil sym (symPool sym gsym) := ⟨rfl, rfl⟩

def xName : Parser.Symbol := ⟨cstr "x", by decide⟩

/-- The macro `x` of a thread. -/
theorem found_iff_x :
    let c := plainCxt 1 false
    let p := symPool xName.val (symtab [])
    ∃ p', set c 1 (.blk 0) ylt ylnil none symMac false p = .ok ylt p' ∧
      ((ylsluGet (target c false p') xName.val = some (symMac, ylt) ∧
          (∀ b sym, b ≠ false ∨ sym ≠ xName.val →
            ylsluGet (target c b p') sym = ylsluGet (target c b p) sym)) ↔
        xName.val.length ≤ 1023) :=
  found_iff (by decide) xName (unbound_symPool _ _) (by decide) none symMac false

/-- A name that the reader produces, and that is not entered. -/
def longName : Parser.Symbol :=
  ⟨List.replicate 1024 97,
    fun h => absurd (List.eq_of_mem_replicate h) (by decide),
    by rw [List.length_replicate]; decide⟩

theorem not_found :
    let c := plainCxt 1 false
    let p := symPool longName.val (symtab [])
    Unbound c 1 (.blk 0) ylnil longName.val p ∧
      ∃ p', set c 1 (.blk 0) ylt ylnil none symDef true p = .ok ylt p' ∧
        ylsluGet p'.gsym longName.val = none := by
  intro c p
  have hs : Unbound c 1 (.blk 0) ylnil longName.val p := unbound_symPool _ _
  have hlong : maxKeyLen ≤ longName.val.length := by
    rw [longName, List.length_replicate]
    exact le_refl _
  obtain ⟨p', hset, -⟩ := set_unbound (c := c) (p := p) (by decide) hs
    (List.ne_nil_of_length_pos (Nat.lt_of_lt_of_le (by decide) hlong)) ylt none symDef true
  refine ⟨hs, p', hset, ?_⟩
  rw [ylsluGet, get_of_long hlong]
  rfl

/-- What the comment on `ylset` says of the descriptions. -/
def DescriptionKept (desc : Option (List UInt8)) (t t' : Slut n) (sym : List UInt8) : Prop :=
  ylsluGetDescription t' sym =
    if desc = none ∨ desc = some [] then some ((ylsluGetDescription t sym).getD []) else desc

/-- The descriptions are as documented if and only if the name can be entered and a
description is given or there was none to be kept. -/
theorem descriptionKept_iff (hslut : c.slut < p.cxtl.length) (hs : Unbound c k s a sym p)
    (hsym : sym ≠ []) (desc : Option (List UInt8)) (ty : ℕ) (bgsym : Bool) :
    ∃ p', set c k s val a desc ty bgsym p = .ok val p' ∧
      ((DescriptionKept desc (target c bgsym p) (target c bgsym p') sym ∧
          ∀ b name, b ≠ bgsym ∨ name ≠ sym →
            ylsluGetDescription (target c b p') name = ylsluGetDescription (target c b p) name) ↔
        sym.length ≤ 1023 ∧ (desc.getD [] ≠ [] ∨
          (ylsluGetDescription (target c bgsym p) sym).getD [] = [])) := by
  obtain ⟨p', hset, htarget⟩ := set_unbound hslut hs hsym val desc ty bgsym
  refine ⟨p', hset, ?_⟩
  have hother : ∀ b name, b ≠ bgsym ∨ name ≠ sym →
      ylsluGetDescription (target c b p') name = ylsluGetDescription (target c b p) name := by
    intro b name h
    rw [ylsluGetDescription, get_other hsym htarget h]
    rfl
  by_cases hlen : sym.length ≤ 1023
  · have hdesc : ylsluGetDescription (target c bgsym p') sym = some (desc.getD []) := by
      rw [htarget, if_pos rfl, ylsluGetDescription,
        entries_assigned hsym (Nat.lt_succ_of_le hlen), Function.update_self]
      rfl
    rw [DescriptionKept, hdesc, and_iff_left hother, and_iff_right hlen]
    generalize (ylsluGetDescription (target c bgsym p) sym).getD [] = old
    cases desc with
    | none =>
        rw [if_pos (Or.inl rfl), Option.some_inj, or_iff_right fun h => h rfl]
        exact eq_comm
    | some d =>
        by_cases hd : d = []
        · subst hd
          rw [if_pos (Or.inr rfl), Option.some_inj, or_iff_right fun h => h rfl]
          exact eq_comm
        · rw [if_neg (by simp [hd])]
          exact ⟨fun _ => Or.inl hd, fun _ => rfl⟩
  · have hlong : maxKeyLen ≤ sym.length := Nat.lt_of_not_le hlen
    rw [DescriptionKept, ylsluGetDescription, get_of_long hlong]
    refine iff_of_false (fun h => ?_) fun h => hlen h.1
    have hnone := h.1
    split at hnone
    · cases hnone
    · rename_i hgiven
      exact hgiven (Or.inl hnone.symm)

def describedTable : Slut 1 :=
  ylsluSetDescription (symtab [(cstr "x", ylt)]) (cstr "x") (some (cstr "d"))

theorem descriptionKept_iff_x :
    let c := plainCxt 1 false
    let p := symPool (cstr "x") describedTable
    ∃ p', set c 1 (.blk 0) ylt ylnil (some (cstr "e")) symDef true p = .ok ylt p' ∧
      ((DescriptionKept (some (cstr "e")) (target c true p) (target c true p') (cstr "x") ∧
          ∀ b name, b ≠ true ∨ name ≠ cstr "x" →
            ylsluGetDescription (target c b p') name = ylsluGetDescription (target c b p) name) ↔
        (cstr "x").length ≤ 1023 ∧ ((some (cstr "e")).getD [] ≠ [] ∨
          (ylsluGetDescription (target c true p) (cstr "x")).getD [] = [])) :=
  descriptionKept_iff (by decide) (unbound_symPool _ _) (by decide) (some (cstr "e")) symDef true

/-- An assignment without a description, and the description is lost. -/
theorem not_descriptionKept :
    let c := plainCxt 1 false
    let p := symPool (cstr "x") describedTable
    Unbound c 1 (.blk 0) ylnil (cstr "x") p ∧
      ylsluGetDescription p.gsym (cstr "x") = some (cstr "d") ∧
      ∃ p', set c 1 (.blk 0) ylt ylnil none symDef true p = .ok ylt p' ∧
        ylsluGetDescription p'.gsym (cstr "x") = some [] :=
  ⟨unbound_symPool _ _, by decide +kernel, _, rfl, by decide +kernel⟩

end Set

end Eval

end Ylisp
