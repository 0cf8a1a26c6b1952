import Mathlib.Data.List.Basic
import Ylisp.Mempool.Gc
import Ylisp.Parser.Automata

/-!
# What the evaluator does to the pool

The functions of `ylsfunc.h` and `sfunc.c` that do not call `yleval`, and the
tables of `symlookup.c`, as computations over the pool. Such a computation fails
through `ylinterpret_undefined`, or it does not come to an end: the pool is
exhausted, a recursion does not return, or its behaviour is undefined. `k` bounds
the nesting of recursive calls and the rounds of loops.

Where the source leaves the order of two arguments open, the first one is
evaluated first; next to a call of `yleval` an argument that is only read comes
before it.
-/

namespace Ylisp

namespace Eval

open Mempool

open Ylisp.Parser (Ylerr)

variable {n : ℕ}

inductive Fault where
  | undefined (r : Ylerr)
  | stuck
  deriving DecidableEq

abbrev Hp (n : ℕ) := EStateM Fault (Pool n)

/-- What an evaluation takes from outside: the place of its symbol table on
`_cxtl`, `strtod` on the texts that it consumes whole, the `eq` callbacks of
atoms other than symbols, and the hash function of the extension library. -/
structure Etcxt (n : ℕ) where
  slut : ℕ
  strtod : List UInt8 → Option UInt64
  eq : Pool n → Ref n → Ref n → Bool
  crc32 : List UInt8 → UInt32

def ylinterpretUndefined {α : Type} (r : Ylerr) : Hp n α := fun p => .error (.undefined r) p

def stuck {α : Type} : Hp n α := fun p => .error .stuck p

def ylnil : Ref n := .stat .nil

def ylt : Ref n := .stat .t

def ylq : Ref n := .stat .quote

def ylb2e (b : Bool) : Ref n := if b then ylt else ylnil

/-! ### Elements -/

def yleisAtom (e : Ref n) : Hp n Bool := fun p => .ok (p.obj e).isAtom p

def ylpcar (e : Ref n) : Hp n (Ref n) := fun p =>
  match p.obj e with
  | .pair (.at x) _ => .ok x p
  | _ => .error .stuck p

def ylpcdr (e : Ref n) : Hp n (Ref n) := fun p =>
  match p.obj e with
  | .pair _ (.at x) => .ok x p
  | _ => .error .stuck p

def ylcar (e : Ref n) : Hp n (Ref n) := do
  if ← yleisAtom e then ylinterpretUndefined .evalUndefined else ylpcar e

def ylcdr (e : Ref n) : Hp n (Ref n) := do
  if ← yleisAtom e then ylinterpretUndefined .evalUndefined else ylpcdr e

def ylcaar (e : Ref n) : Hp n (Ref n) := do ylcar (← ylcar e)

def ylcadr (e : Ref n) : Hp n (Ref n) := do ylcar (← ylcdr e)

def ylcddr (e : Ref n) : Hp n (Ref n) := do ylcdr (← ylcdr e)

def ylcdar (e : Ref n) : Hp n (Ref n) := do ylcdr (← ylcar e)

def ylcadar (e : Ref n) : Hp n (Ref n) := do ylcar (← ylcdar e)

def ylcaddr (e : Ref n) : Hp n (Ref n) := do ylcar (← ylcddr e)

def ylcddar (e : Ref n) : Hp n (Ref n) := do ylcdr (← ylcdar e)

def ylcaddar (e : Ref n) : Hp n (Ref n) := do ylcar (← ylcddar e)

def ylcadddr (e : Ref n) : Hp n (Ref n) := do ylcar (← ylcdr (← ylcddr e))

/-- The text of a symbol; `none` for any other element. -/
def symOf (e : Ref n) : Hp n (Option (List UInt8)) := fun p =>
  match p.obj e with
  | .sym s => .ok (some s) p
  | _ => .ok none p

/-- A block taken from the pool and filled. -/
def create (o : Obj n) : Hp n (Ref n) := fun p =>
  match ylmpBlock p with
  | none => .error .stuck p
  | some (b, p) => .ok (.blk b) (p.setBlk b ⟨false, 0, o⟩)

def ylcons (car cdr : Ref n) : Hp n (Ref n) := create (.pair (.at car) (.at cdr))

def yllist (e1 e2 : Ref n) : Hp n (Ref n) := do ylcons e1 (← ylcons e2 ylnil)

inductive Side where
  | car | cdr
  deriving DecidableEq

def Side.get : Side → Ref n → Hp n (Ref n)
  | .car => ylcar
  | .cdr => ylcdr

def ylpset (side : Side) (e x : Ref n) : Hp n Unit := fun p =>
  match e with
  | .stat _ => .error .stuck p
  | .blk b =>
      match (p.blk b).obj, side with
      | .pair _ d, .car => .ok () (p.setBlk b { p.blk b with obj := .pair (.at x) d })
      | .pair a _, .cdr => .ok () (p.setBlk b { p.blk b with obj := .pair a (.at x) })
      | _, _ => .error .stuck p

def ylpsetcar (e x : Ref n) : Hp n Unit := ylpset .car e x

def ylpsetcdr (e x : Ref n) : Hp n Unit := ylpset .cdr e x

/-- `ylestype(e)`. -/
def ylestype (e : Ref n) : Hp n ℕ := fun p =>
  match e with
  | .stat s => .ok (p.statSt s) p
  | .blk b => .ok (p.blk b).st p

/-- `ylestype(e) = ty`. -/
def setEstype (e : Ref n) (ty : ℕ) : Hp n Unit := fun p =>
  match e with
  | .stat s => .ok () { p with statSt := Function.update p.statSt s ty }
  | .blk b => .ok () (p.setBlk b { p.blk b with st := ty })

/-- The interface of an atom, `none` for a pair. -/
inductive Aif where
  | nil | sym | nfunc | sfunc | dbl | bin | fraw | procia | map | arr
  deriving DecidableEq

def aif : Obj n → Option Aif
  | .pair _ _ => none
  | .nil => some .nil
  | .sym _ => some .sym
  | .nfunc _ => some .nfunc
  | .sfunc _ => some .sfunc
  | .dbl _ => some .dbl
  | .bin _ => some .bin
  | .fraw _ => some .fraw
  | .procia _ => some .procia
  | .map _ => some .map
  | .arr _ => some .arr

/-- The comparison of two atoms in `yleq`: the `eq` callback that they share. -/
def atomEq (c : Etcxt n) (p : Pool n) (e1 e2 : Ref n) : Bool :=
  match p.obj e1, p.obj e2 with
  | .sym s1, .sym s2 => s1 = s2
  | o1, o2 => aif o1 = aif o2 && c.eq p e1 e2

def yleq (c : Etcxt n) : ℕ → Ref n → Ref n → Hp n (Ref n)
  | 0, _, _ => stuck
  | k + 1, e1, e2 => do
      if e1 = e2 then pure ylt
      else
        let atom1 ← yleisAtom e1
        let atom2 ← yleisAtom e2
        if atom1 && atom2 then
          let p ← get
          pure (ylb2e (atomEq c p e1 e2))
        else if !atom1 && !atom2 then
          let car ← yleq c k (← ylcar e1) (← ylcar e2)
          if car = ylnil then pure ylnil
          else
            let cdr ← yleq c k (← ylcdr e1) (← ylcdr e2)
            pure (ylb2e (cdr ≠ ylnil))
        else pure ylnil

/-! ### Lists -/

def cdrs : ℕ → Ref n → Hp n ℕ
  | 0, _ => stuck
  | k + 1, p => do
      if ← yleisAtom p then pure 0
      else
        let sz ← cdrs k (← ylcdr p)
        pure (sz + 1)

def ylelistSize (k : ℕ) (e : Ref n) : Hp n ℕ := do
  if e = ylnil then pure 0
  else if ← yleisAtom e then pure 1
  else cdrs k e

def yleisPairChain : ℕ → Ref n → Hp n Bool
  | 0, _ => stuck
  | k + 1, e => do
      if e = ylnil then pure true
      else if ← yleisAtom (← ylpcar e) then pure false
      else yleisPairChain k (← ylpcdr e)

/-- `ylais_type_chain(e, ylaif_sym())`. -/
def ylaisSymChain : ℕ → Ref n → Hp n Bool
  | 0, _ => stuck
  | k + 1, e => do
      if e = ylnil then pure true
      else
        match ← symOf (← ylpcar e) with
        | none => pure false
        | some _ => ylaisSymChain k (← ylpcdr e)

def ylappend : ℕ → Ref n → Ref n → Hp n (Ref n)
  | 0, _, _ => stuck
  | k + 1, x, y => do
      if x = ylnil then pure y
      else
        let car ← ylcar x
        let rest ← ylappend k (← ylcdr x) y
        ylcons car rest

def ylpair : ℕ → Ref n → Ref n → Hp n (Ref n)
  | 0, _, _ => stuck
  | k + 1, x, y => do
      if x = ylnil ∧ y = ylnil then pure ylnil
      else if !(← yleisAtom x) && !(← yleisAtom y) then
        let l ← yllist (← ylcar x) (← ylcar y)
        let rest ← ylpair k (← ylcdr x) (← ylcdr y)
        ylcons l rest
      else ylinterpretUndefined .evalUndefined

def appq : ℕ → Ref n → Hp n (Ref n)
  | 0, _ => stuck
  | k + 1, m => do
      if m = ylnil then pure ylnil
      else
        let l ← yllist ylq (← ylcar m)
        let rest ← appq k (← ylcdr m)
        ylcons l rest

/-- The common part of `_pair_to_1st_element_list` and
`_pair_to_2nd_element_list`. -/
def pairToList (f : Ref n → Hp n (Ref n)) : ℕ → Ref n → Ref n → Hp n (Ref n)
  | 0, _, _ => stuck
  | k + 1, p, l => do
      if p = ylnil then pure l
      else
        let l ← ylcons (← f p) l
        pairToList f k (← ylcdr p) l

def pairTo1stElementList (k : ℕ) (p l : Ref n) : Hp n (Ref n) := pairToList ylcaar k p l

def pairTo2ndElementList (k : ℕ) (p l : Ref n) : Hp n (Ref n) := pairToList ylcadar k p l

def listClone : ℕ → Ref n → Hp n (Ref n)
  | 0, _ => stuck
  | k + 1, e => do
      if ← yleisAtom e then pure e
      else
        let car ← listClone k (← ylpcar e)
        let cdr ← listClone k (← ylpcdr e)
        ylcons car cdr

/-- The last pair of a list, as the loop of `_evlf_mlambda` finds it. -/
def lastPair : ℕ → Ref n → Hp n (Ref n)
  | 0, _ => stuck
  | k + 1, we => do
      let cdr ← ylcdr we
      if cdr = ylnil then pure we else lastPair k cdr

/-! ### Bindings -/

def listFind (c : Etcxt n) : ℕ → Ref n → Ref n → Hp n (Option (Ref n))
  | 0, _, _ => stuck
  | k + 1, x, y => do
      if ← yleisAtom y then pure none
      else if ← yleisAtom (← ylcar y) then pure none
      else
        let eq ← yleq c k (← ylcaar y) x
        if eq ≠ ylnil then
          let r ← ylcar y
          pure (some r)
        else listFind c k x (← ylcdr y)

/-- One half of `_mreplace`: the field of `e` is replaced by what `a` gives for
it, or entered. -/
def mreplaceSide (c : Etcxt n) (k : ℕ) (enter : Ref n → Hp n Bool) (side : Side)
    (e a : Ref n) : Hp n Bool := do
  let x ← side.get e
  if ← yleisAtom x then
    match ← listFind c k x a with
    | none => pure true
    | some r => do
        ylpset side e (← ylcadr r)
        pure true
  else enter x

def mreplace (c : Etcxt n) : ℕ → Ref n → Ref n → Hp n Bool
  | 0, _, _ => stuck
  | k + 1, e, a => do
      if ← yleisAtom e then pure false
      else if ← mreplaceSide c k (fun x => mreplace c k x a) .car e a then
        mreplaceSide c k (fun x => mreplace c k x a) .cdr e a
      else pure false

def ylsluGet (t : Slut n) (sym : List UInt8) : Option (ℕ × Ref n) :=
  (t.yltrieGet sym).bind fun v => v.e.map fun e => (v.ty, e)

def ylsluInsert (t : Slut n) (sym : List UInt8) (sty : ℕ) (e : Ref n) : Slut n :=
  (t.yltrieInsert sym ⟨sty, ((t.yltrieGet sym).map Value.desc).getD [], some e⟩).2

def ylsluSetDescription (t : Slut n) (sym : List UInt8) (description : Option (List UInt8)) :
    Slut n :=
  match t.yltrieGet sym with
  | none => t
  | some v => (t.yltrieInsert sym { v with desc := description.getD [] }).2

def Etcxt.table (c : Etcxt n) (p : Pool n) : Slut n :=
  p.cxtl.getD c.slut Trie.yltrieCreate

/-- `_set_insert` and `_set_description` on the global table, or on the one of
the evaluation. -/
def setTable (c : Etcxt n) (bgsym : Bool) (f : Slut n → Slut n) : Hp n Unit := fun p =>
  if bgsym then .ok () { p with gsym := f p.gsym }
  else .ok () { p with cxtl := p.cxtl.modify c.slut f }

/-- The part of `_set` above the assignment: the binding of `s` in `a`. -/
def setFind (c : Etcxt n) (k : ℕ) (s a : Ref n) :
    Hp n (List UInt8 × Option (Ref n)) := do
  match ← symOf s with
  | none => ylinterpretUndefined .evalUndefined
  | some sym =>
      if sym = [] then ylinterpretUndefined .evalUndefined
      else
        match ← listFind c k s a with
        | none => pure (sym, none)
        | some r =>
            if ← yleisAtom (← ylcdr r) then ylinterpretUndefined .evalUndefined
            else pure (sym, some r)

def set (c : Etcxt n) (k : ℕ) (s val a : Ref n) (desc : Option (List UInt8)) (ty : ℕ)
    (bgsym : Bool) : Hp n (Ref n) := do
  match ← setFind c k s a with
  | (_, some r) => do
      setEstype (← ylcar r) ty
      ylpsetcdr r (← ylcons val ylnil)
      pure val
  | (sym, none) => do
      setTable c bgsym fun t => ylsluInsert t sym ty val
      let desc := if desc = some [] then none else desc
      setTable c bgsym fun t => ylsluSetDescription t sym desc
      pure val

/-- What `_assoc` hands out: a macro is copied. -/
def associated (k : ℕ) (ty : ℕ) (r : Ref n) : Hp n (ℕ × Ref n) := do
  if ty = symMac then
    let r ← listClone k r
    pure (ty, r)
  else pure (ty, r)

def assoc (c : Etcxt n) (erange : Bool) (k : ℕ) (x y : Ref n) : Hp n (ℕ × Ref n) := do
  match ← symOf x with
  | none => ylinterpretUndefined .evalUndefined
  | some sym =>
      match ← listFind c k x y with
      | some r => do
          let ty ← ylestype (← ylcar r)
          associated k ty (← ylcadr r)
      | none => do
          let p ← get
          match ylsluGet (c.table p) sym <|> ylsluGet p.gsym sym with
          | some (ty, r) => associated k ty r
          | none =>
              match c.strtod sym, erange with
              | some d, false => do
                  let r ← create (.dbl d)
                  pure (0, r)
              | _, _ => ylinterpretUndefined .evalUndefined

end Eval

end Ylisp
