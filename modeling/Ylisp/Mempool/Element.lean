import Mathlib.Data.Fintype.Sum
import Ylisp.Hash.Basic
import Ylisp.Trie.Walk

/-!
# Elements

`Obj n` is what an element of a pool of `n` blocks holds: a pair, or an atom of
one of the kinds of `yldev.h` and of the extension library. A pair and an atom
share their storage: `cdr` lies over the data word of an atom. So `acd` and
`setAcd`, which read and write the data word, also act on a pair.

`refs` are the elements an object refers to. `visit` is the traversal that the
collector makes of an object, kind by kind; `visit_eq_foldl` shows that it
passes exactly the references to its callback, in order.
-/

namespace Ylisp

namespace Mempool

/-- Elements that are not blocks of the pool: the predefined ones, and the two
symbols of `ylbase/nfunc.c`. -/
inductive Static where
  | nil | t | quote | lambda | progn
  deriving DecidableEq

instance : Fintype Static where
  elems := {.nil, .t, .quote, .lambda, .progn}
  complete := by
    intro s
    cases s <;> decide

inductive Ref (n : ℕ) where
  | stat (s : Static)
  | blk (b : Fin n)
  deriving DecidableEq

def Ref.equivSum (n : ℕ) : Static ⊕ Fin n ≃ Ref n where
  toFun := Sum.elim .stat .blk
  invFun := fun r => match r with | .stat s => .inl s | .blk b => .inr b
  left_inv := by rintro (s | b) <;> rfl
  right_inv := by rintro (s | b) <;> rfl

instance (n : ℕ) : Fintype (Ref n) := Fintype.ofEquiv _ (Ref.equivSum n)

theorem Ref.card (n : ℕ) : Fintype.card (Ref n) = 5 + n := by
  rw [Fintype.ofEquiv_card, Fintype.card_sum, Fintype.card_fin]
  rfl

/-- The content of a pointer-sized field: NULL, a reference, or a number cast
to a pointer. -/
inductive Ptr (n : ℕ) where
  | null
  | at (r : Ref n)
  | int (k : Int)
  deriving DecidableEq

inductive Fn where
  | dummy | quote | apply | set | tset | fMset | fTmset | eval | interpret
  | interpretFile | progn | fCond | fAnd | fOr | fLet | fCase | fWhile | setcar
  | setcdr | stop | makeTrieMap | makeHashMap
  | other (k : ℕ)
  deriving DecidableEq

/-- `struct procia_cust`. -/
structure Procia (n : ℕ) where
  cpid : Int
  wp : Ref n
  rp : Ref n
  deriving DecidableEq

/-- The data structure behind `struct _amap`. -/
inductive Amap (n : ℕ) where
  | trie (t : Trie (Ref n))
  | hash (h : Hash (Ref n))

inductive Obj (n : ℕ) where
  | pair (car cdr : Ptr n)
  | nil
  | sym (s : List UInt8)
  | nfunc (f : Fn)
  | sfunc (f : Fn)
  | dbl (d : UInt64)
  | bin (d : List UInt8)
  | fraw (fd : Int)
  | procia (pc : Option (Procia n))
  | map (d : Amap n)
  | arr (at' : Option (List (Option (Ref n))))

variable {n : ℕ}

def Ptr.refs : Ptr n → List (Ref n)
  | .at r => [r]
  | _ => []

def Amap.values : Amap n → List (Ref n)
  | .trie t => t.values
  | .hash h => h.values

def Obj.refs : Obj n → List (Ref n)
  | .pair car cdr => car.refs ++ cdr.refs
  | .procia (some pc) => [pc.wp, pc.rp]
  | .map d => d.values
  | .arr (some a) => a.filterMap id
  | _ => []

def Obj.isAtom : Obj n → Bool
  | .pair _ _ => false
  | _ => true

/-- `ylacd` read as a descriptor. A reference there is never read: `Pool.Wf`
keeps the pipes of a process handle descriptor atoms or cleaned blocks. -/
def Obj.acd : Obj n → Int
  | .fraw fd => fd
  | .pair _ (.int k) => k
  | _ => 0

/-- `ylacd(e) = (void*)fd`. -/
def Obj.setAcd (fd : Int) : Obj n → Obj n
  | .fraw _ => .fraw fd
  | .pair car _ => .pair car (.int fd)
  | o => o

section Visit

variable {σ : Type*} (cb : σ → Ref n → σ)

def visitPtr (s : σ) : Ptr n → σ
  | .at r => cb s r
  | _ => s

def aifMapVisit (s : σ) : Amap n → σ
  | .trie t => (t.fullWalk (fun s _ v => (cb s v, true)) s).1
  | .hash h => (h.hashWalk (fun s _ v => (cb s v, true)) s).1

def aifArrVisit (s : σ) (a : List (Option (Ref n))) : σ :=
  a.foldl (fun s x => match x with | some r => cb s r | none => s) s

/-- The part of `_DEF_VISIT_FUNC` below the mark test: the traversal of one
element. A pair is entered when its car is not NULL. -/
def visit (s : σ) : Obj n → σ
  | .pair .null _ => s
  | .pair car cdr => visitPtr cb (visitPtr cb s car) cdr
  | .procia (some pc) => cb (cb s pc.wp) pc.rp
  | .map d => aifMapVisit cb s d
  | .arr (some a) => aifArrVisit cb s a
  | _ => s

end Visit

def Obj.VisitOk : Obj n → Prop
  | .pair .null cdr => cdr.refs = []
  | _ => True

section Spec

variable {σ : Type*} (cb : σ → Ref n → σ)

theorem visitPtr_eq_foldl (s : σ) (p : Ptr n) :
    visitPtr cb s p = p.refs.foldl cb s := by
  cases p <;> rfl

theorem aifMapVisit_eq_foldl (s : σ) (d : Amap n) :
    aifMapVisit cb s d = d.values.foldl cb s := by
  cases d with
  | trie t =>
      have h := Trie.fullWalk_eq_foldl cb t s
      exact congrArg Prod.fst h
  | hash h => rw [aifMapVisit, Hash.hashWalk_eq_foldl, Amap.values]

theorem aifArrVisit_eq_foldl (s : σ) (a : List (Option (Ref n))) :
    aifArrVisit cb s a = (a.filterMap id).foldl cb s := by
  rw [aifArrVisit, List.foldl_filterMap]
  congr 1
  funext s x
  cases x <;> rfl

theorem visit_eq_foldl (s : σ) (o : Obj n) (ho : o.VisitOk) :
    visit cb s o = o.refs.foldl cb s := by
  cases o with
  | pair car cdr =>
      have hcdr := visitPtr_eq_foldl cb
      cases car with
      | null => rw [visit, Obj.refs, show cdr.refs = [] from ho]; rfl
      | «at» r => simp [visit, Obj.refs, hcdr]
      | int k => simp [visit, Obj.refs, hcdr]
  | procia pc => cases pc <;> rfl
  | map d => exact aifMapVisit_eq_foldl cb s d
  | arr a =>
      cases a with
      | none => rfl
      | some a => exact aifArrVisit_eq_foldl cb s a
  | _ => rfl

end Spec

end Mempool

end Ylisp
