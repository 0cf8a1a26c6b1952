import Ylisp.Mempool.Blktbl
import Ylisp.Mempool.Element

/-!
# The memory pool

`Pool n` is the state the collector works on: the block table with the content
of the blocks, the marks of the elements outside the pool, the base-block stack,
the symbol tables of the registered contexts and the global one. `closed` and
`killed` record the descriptors and the processes that clean callbacks close and
kill.

`Pool.Wf` collects what the constructors of elements guarantee. It says nothing
about marks: the marks of static elements are never cleared, and a free block
may carry one.
-/

namespace Ylisp

namespace Mempool

structure Yle (n : ℕ) where
  gcmark : Bool
  st : ℕ
  obj : Obj n

/-- `struct _value` of a symbol table. -/
structure Value (n : ℕ) where
  ty : ℕ
  desc : List UInt8
  e : Option (Ref n)

/-- `slut_t`: a symbol lookup table. -/
abbrev Slut (n : ℕ) := Trie (Value n)

structure Pool (n : ℕ) where
  m : Mbt n
  blk : Fin n → Yle n
  statMark : Static → Bool
  /-- The sub types of the elements outside the pool. -/
  statSt : Static → ℕ
  /-- `_bbs`, the top first. -/
  bbs : List (Ref n)
  /-- The symbol tables of the contexts on `_cxtl`. -/
  cxtl : List (Slut n)
  gsym : Slut n
  closed : List Int
  killed : List Int

variable {n : ℕ}

/-- `YLASym_mac`. -/
def symMac : ℕ := 1

def invalidFd : Int := -1

/-- The bytes of a string literal of the source. -/
def cstr (s : String) : List UInt8 := s.toList.map Char.toUInt8

/-- The content of the elements outside the pool. -/
def Static.obj : Static → Obj n
  | .nil => .nil
  | .t => .sym (cstr "t")
  | .quote => .sym (cstr "quote")
  | .lambda => .sym (cstr "lambda")
  | .progn => .sym (cstr "progn")

/-- `ylmp_clean_block`. -/
def Yle.clean : Yle n := ⟨false, 0, .pair .null .null⟩

namespace Pool

def obj (p : Pool n) : Ref n → Obj n
  | .stat s => s.obj
  | .blk b => (p.blk b).obj

def setBlk (p : Pool n) (b : Fin n) (y : Yle n) : Pool n :=
  { p with blk := Function.update p.blk b y }

theorem setBlk_self (p : Pool n) (b : Fin n) (y : Yle n) : (p.setBlk b y).blk b = y := by
  simp [setBlk]

theorem setBlk_of_ne (p : Pool n) {b x : Fin n} (y : Yle n) (h : x ≠ b) :
    (p.setBlk b y).blk x = p.blk x := by
  simp [setBlk, h]

theorem obj_setBlk_self (p : Pool n) (b : Fin n) (y : Yle n) :
    ((p.setBlk b y).blk b).obj = y.obj := by
  rw [setBlk_self]

theorem obj_setBlk_of_ne (p : Pool n) {b x : Fin n} (y : Yle n) (h : x ≠ b) :
    ((p.setBlk b y).blk x).obj = (p.blk x).obj := by
  rw [setBlk_of_ne p y h]

/-- The roots of a collection: the base blocks and the values of the symbol
tables, the global one last. -/
def roots (p : Pool n) : List (Ref n) :=
  p.bbs.reverse ++ (p.cxtl ++ [p.gsym]).flatMap fun t => t.values.filterMap Value.e

def succ (p : Pool n) (r : Ref n) : List (Ref n) := (p.obj r).refs

end Pool

/-- `ylmp_block`; `none` when the pool is exhausted, which ends the program. -/
def ylmpBlock (p : Pool n) : Option (Fin n × Pool n) :=
  match mbtGet p.m with
  | (none, _) => none
  | (some b, m) => some (b, { p with m := m, blk := Function.update p.blk b Yle.clean })

def ylmpAddBb (p : Pool n) (e : Ref n) : Pool n := { p with bbs := e :: p.bbs }

def ylmpRmBb (p : Pool n) (e : Ref n) : Pool n := { p with bbs := p.bbs.erase e }

def aifFrawClean (p : Pool n) : Ref n → Pool n
  | .stat _ => p
  | .blk b =>
      let fd := (p.blk b).obj.acd
      let p := if fd ≠ invalidFd then { p with closed := p.closed ++ [fd] } else p
      p.setBlk b { p.blk b with obj := (p.blk b).obj.setAcd invalidFd }

/-- The clean callbacks that act on something besides the block itself: those of
a descriptor atom and of a process handle. -/
def aifClean (p : Pool n) (b : Fin n) : Pool n :=
  match (p.blk b).obj with
  | .fraw _ => aifFrawClean p (.blk b)
  | .procia (some pc) =>
      let p := aifFrawClean (aifFrawClean p pc.wp) pc.rp
      { p with killed := p.killed ++ [pc.cpid] }
  | _ => p

def yleclean (p : Pool n) (b : Fin n) : Pool n := (aifClean p b).setBlk b Yle.clean

namespace Pool

def IsFraw (p : Pool n) (r : Ref n) : Prop :=
  ∃ b fd, r = .blk b ∧ p.m.Used b ∧ (p.blk b).obj = .fraw fd

/-- What the constructors guarantee of the content of a used block: a pair has
both of its fields or none, and the pipes of a process handle are descriptor
atoms in use. -/
def Sound (p : Pool n) : Obj n → Prop
  | .pair car cdr =>
      (car = .null ∧ cdr = .null) ∨ ∃ a d, car = .at a ∧ cdr = .at d
  | .procia (some pc) => p.IsFraw pc.wp ∧ p.IsFraw pc.rp
  | _ => True

def Clean : Obj n → Prop
  | .pair .null cdr => cdr.refs = []
  | _ => False

structure Wf (p : Pool n) : Prop where
  m : p.m.Wf
  used : ∀ b, p.m.Used b → p.Sound (p.blk b).obj
  free : ∀ b, ¬ p.m.Used b → Clean (p.blk b).obj

theorem Clean.visitOk {o : Obj n} (h : Clean o) : o.VisitOk := by
  cases o with
  | pair car cdr => cases car <;> trivial
  | _ => trivial

theorem Clean.refs_eq_nil {o : Obj n} (h : Clean o) : o.refs = [] := by
  cases o with
  | pair car cdr =>
      cases car with
      | null => exact h
      | _ => exact h.elim
  | _ => exact h.elim

theorem Sound.visitOk {p : Pool n} {o : Obj n} (h : p.Sound o) : o.VisitOk := by
  cases o with
  | pair car cdr =>
      rcases h with ⟨rfl, rfl⟩ | ⟨a, d, rfl, rfl⟩
      · rfl
      · trivial
  | _ => trivial

theorem Sound.mono {p q : Pool n} {o : Obj n} (h : p.Sound o)
    (hfraw : ∀ r, p.IsFraw r → q.IsFraw r) : q.Sound o := by
  cases o with
  | pair car cdr => exact h
  | procia pc =>
      cases pc with
      | none => trivial
      | some pc => exact ⟨hfraw _ h.1, hfraw _ h.2⟩
  | _ => trivial

theorem Wf.visitOk {p : Pool n} (h : p.Wf) (r : Ref n) : (p.obj r).VisitOk := by
  cases r with
  | stat s => cases s <;> trivial
  | blk b =>
      by_cases hb : p.m.Used b
      · exact (h.used b hb).visitOk
      · exact (h.free b hb).visitOk

theorem succ_stat (p : Pool n) (s : Static) : p.succ (.stat s) = [] := by
  cases s <;> rfl

end Pool

end Mempool

end Ylisp
