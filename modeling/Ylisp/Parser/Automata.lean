import Ylisp.Library.Machine
import Mathlib.Logic.Function.Basic

/-!
# The reader automaton

The automaton of `parser.c`, over a heap of pairs and symbols. Its states
are kept on the stack `ststk`; `pestk` holds, for each open list or quote, the
pair that the list hangs on, and `pe` is the last pair of the list being read.

`eval` stands for `yleval`: it may change the heap in any way, and it may fail.
The expressions handed to it are recorded in `evals`, each with the heap it was
handed over with. Blocks are numbered in the order of their allocation and are
never short.
-/

namespace Ylisp

namespace Parser

/-- The values of `ylerr_t` that the reader returns, or passes on. -/
inductive Ylerr where
  | ok | internal | killed | syntaxUnknown | syntaxEscape | syntaxParenthesis
  | evalUndefined | funcInvalidParam | funcFail
  | other (k : ℕ)
  deriving DecidableEq

/-- A reference to an element: `ylnil()`, `ylq()` or a block. -/
inductive Ref where
  | nil | q
  | blk (b : ℕ)
  deriving DecidableEq

inductive Cell where
  | pair (car cdr : Ref)
  | sym (str : List UInt8)
  deriving DecidableEq

structure Heap where
  /-- The block that is handed out next. -/
  next : ℕ
  cell : ℕ → Cell

namespace Heap

def alloc (h : Heap) (c : Cell) : ℕ × Heap :=
  (h.next, { next := h.next + 1, cell := Function.update h.cell h.next c })

def cons (h : Heap) (car cdr : Ref) : ℕ × Heap := h.alloc (.pair car cdr)

def ylpcar (h : Heap) : Ref → Ref
  | .blk b => match h.cell b with
      | .pair car _ => car
      | .sym _ => .nil
  | _ => .nil

def ylpcdr (h : Heap) : Ref → Ref
  | .blk b => match h.cell b with
      | .pair _ cdr => cdr
      | .sym _ => .nil
  | _ => .nil

def ylpsetcar (h : Heap) (b : ℕ) (r : Ref) : Heap :=
  { h with cell := Function.update h.cell b (.pair r (h.ylpcdr (.blk b))) }

def ylpsetcdr (h : Heap) (b : ℕ) (r : Ref) : Heap :=
  { h with cell := Function.update h.cell b (.pair (h.ylpcar (.blk b)) r) }

end Heap

/-- `struct _fsas`: the states. -/
inductive Fsas where
  | init | list | squote | symbol | dquote | comment | escape
  deriving DecidableEq

/-- What a state answers to a character: stay, `_fsas_exit`, or enter a state. -/
inductive Next where
  | nochg | exit
  | enter (st : Fsas)
  deriving DecidableEq

inductive Pe where
  | sentinel
  | blk (b : ℕ)
  deriving DecidableEq

/-- `struct _fsa`, with the heap. -/
structure Fsa where
  heap : Heap
  /-- The cdr of the sentinel; its car is always NULL. -/
  sentinel : Option ℕ
  pe : Pe
  /-- The bytes between `b` and `pb`. -/
  pb : List UInt8
  line : ℕ
  /-- The top first. -/
  ststk : List Fsas
  pestk : List ℕ
  evals : List (Heap × Ref)

def maxSingleElemStrLen : ℕ := 4096

inductive Kind where
  | dquo | squo | esca | lpar | rpar | semi | white | other
  deriving DecidableEq

def kind (c : UInt8) : Kind :=
  if c = '"'.toUInt8 then .dquo
  else if c = '\''.toUInt8 then .squo
  else if c = '\\'.toUInt8 then .esca
  else if c = '('.toUInt8 then .lpar
  else if c = ')'.toUInt8 then .rpar
  else if c = ';'.toUInt8 then .semi
  else if c = '\r'.toUInt8 ∨ c = '\n'.toUInt8 ∨ c = '\t'.toUInt8 ∨ c = ' '.toUInt8 then .white
  else .other

namespace Fsa

/-- `_fsa_add_symchar`. -/
def addSymchar (fsa : Fsa) (c : UInt8) : Except Ylerr Fsa :=
  if fsa.pb.length < maxSingleElemStrLen - 1 then .ok { fsa with pb := fsa.pb ++ [c] }
  else .error .internal

/-- `ylpsetcdr(fsa->pe, pair)`. -/
def setPeCdr (fsa : Fsa) (pair : ℕ) : Fsa :=
  match fsa.pe with
  | .sentinel => { fsa with sentinel := some pair }
  | .blk b => { fsa with heap := fsa.heap.ylpsetcdr b (.blk pair) }

/-- A new pair at the end of the current list, then a first pair of the list
hanging on it: the common part of `_fsas_list_enter` and `_fsas_squote_enter`. -/
def openList (fsa : Fsa) (car : Ref) : Fsa :=
  let (pair, heap) := fsa.heap.cons .nil .nil
  let fsa := { fsa with heap := heap }.setPeCdr pair
  let (pe, heap) := fsa.heap.cons car .nil
  { fsa with
    heap := heap.ylpsetcar pair (.blk pe)
    pestk := pair :: fsa.pestk
    pe := .blk pe }

/-- `ylpassign(&fsa->sentinel, NULL, NULL)`. -/
def clearSentinel (fsa : Fsa) : Fsa := { fsa with sentinel := none }

/-- `ylcadr(&fsa->sentinel)`. -/
def cadrSentinel (fsa : Fsa) : Ref :=
  match fsa.sentinel with
  | some b => fsa.heap.ylpcar (.blk b)
  | none => .nil

end Fsa

/-! ### Enter -/

def fsasInitEnter (fsa : Fsa) : Fsa := { fsa.clearSentinel with pe := .sentinel }

def fsasListEnter (fsa : Fsa) : Fsa := fsa.openList .nil

def fsasSquoteEnter (fsa : Fsa) : Fsa := fsa.openList .q

def fsasSymbolEnter (fsa : Fsa) : Fsa := { fsa with pb := [] }

def fsasDquoteEnter (fsa : Fsa) : Fsa := fsasSymbolEnter fsa

def enter : Fsas → Fsa → Fsa
  | .init => fsasInitEnter
  | .list => fsasListEnter
  | .squote => fsasSquoteEnter
  | .symbol => fsasSymbolEnter
  | .dquote => fsasDquoteEnter
  | .comment => id
  | .escape => id

/-! ### Come back -/

def fsasInitComeBack (eval : Heap → Ref → Except Ylerr Heap) (fsa : Fsa) : Except Ylerr Fsa :=
  if fsa.pe ≠ .sentinel then
    match eval fsa.heap fsa.cadrSentinel with
    | .error e => .error e
    | .ok heap =>
        .ok
          { fsa with
            heap := heap
            sentinel := none
            pe := .sentinel
            evals := fsa.evals ++ [(fsa.heap, fsa.cadrSentinel)] }
  else .ok { fsa.clearSentinel with pe := .sentinel }

def comeBack (eval : Heap → Ref → Except Ylerr Heap) : Fsas → Fsa → Except Ylerr Fsa
  | .init => fsasInitComeBack eval
  | _ => .ok

/-! ### Next character -/

/-- The answer of a state: whether the character is handled, and the next
state. -/
abbrev Answer := Except Ylerr (Bool × Next)

def fsasInitNextChar (c : UInt8) : Answer :=
  match kind c with
  | .dquo => .ok (true, .enter .dquote)
  | .squo => .ok (true, .enter .squote)
  | .esca => .ok (true, .enter .escape)
  | .lpar => .ok (true, .enter .list)
  | .rpar => .error .syntaxParenthesis
  | .semi => .ok (true, .enter .comment)
  | .white => .ok (true, .nochg)
  | .other => .ok (false, .enter .symbol)

def fsasListNextChar (c : UInt8) : Answer :=
  match kind c with
  | .dquo => .ok (true, .enter .dquote)
  | .squo => .ok (true, .enter .squote)
  | .esca => .ok (true, .enter .escape)
  | .lpar => .ok (true, .enter .list)
  | .rpar => .ok (true, .exit)
  | .semi => .ok (true, .enter .comment)
  | .white => .ok (true, .nochg)
  | .other => .ok (false, .enter .symbol)

def fsasSquoteNextChar (c : UInt8) : Answer :=
  match kind c with
  | .dquo => .ok (true, .enter .dquote)
  | .squo => .ok (true, .enter .squote)
  | .esca => .ok (true, .enter .escape)
  | .lpar => .ok (true, .enter .list)
  | .rpar | .semi | .white => .ok (false, .exit)
  | .other => .ok (false, .enter .symbol)

def fsasSymbolNextChar (c : UInt8) : Answer :=
  match kind c with
  | .esca => .ok (true, .enter .escape)
  | .dquo | .squo | .lpar | .rpar | .semi | .white => .ok (false, .exit)
  | .other => .ok (true, .nochg)

def fsasDquoteNextChar (c : UInt8) : Answer :=
  match kind c with
  | .dquo => .ok (true, .exit)
  | .esca => .ok (true, .enter .escape)
  | _ => .ok (true, .nochg)

def fsasCommentNextChar (c : UInt8) : Answer :=
  .ok (true, if c = '\n'.toUInt8 then .exit else .nochg)

def escaped (c : UInt8) : Option UInt8 :=
  if c = '"'.toUInt8 ∨ c = '\\'.toUInt8 then some c
  else if c = 'n'.toUInt8 then some '\n'.toUInt8
  else none

def fsasEscapeNextChar (fsa : Fsa) (c : UInt8) : Except Ylerr (Bool × Next × Fsa) :=
  match escaped c with
  | none => .error .syntaxEscape
  | some ch => (fsa.addSymchar ch).map fun fsa => (true, .exit, fsa)

def addIfNochg (fsa : Fsa) (c : UInt8) : Answer → Except Ylerr (Bool × Next × Fsa)
  | .error e => .error e
  | .ok (handled, next) =>
      if next = .nochg then (fsa.addSymchar c).map fun fsa => (handled, next, fsa)
      else .ok (handled, next, fsa)

def nextChar (fsa : Fsa) (c : UInt8) : Fsas → Except Ylerr (Bool × Next × Fsa)
  | .init => (fsasInitNextChar c).map fun a => (a.1, a.2, fsa)
  | .list => (fsasListNextChar c).map fun a => (a.1, a.2, fsa)
  | .squote => (fsasSquoteNextChar c).map fun a => (a.1, a.2, fsa)
  | .symbol => addIfNochg fsa c (fsasSymbolNextChar c)
  | .dquote => addIfNochg fsa c (fsasDquoteNextChar c)
  | .comment => (fsasCommentNextChar c).map fun a => (a.1, a.2, fsa)
  | .escape => fsasEscapeNextChar fsa c

/-! ### Exit -/

def fsasListExit (fsa : Fsa) : Fsa :=
  match fsa.pestk with
  | [] => fsa
  | pe :: pestk =>
      { fsa with
        pestk := pestk
        heap := fsa.heap.ylpsetcar pe (fsa.heap.ylpcdr (fsa.heap.ylpcar (.blk pe)))
        pe := .blk pe }

def fsasSquoteExit (fsa : Fsa) : Fsa :=
  match fsa.pestk with
  | [] => fsa
  | pe :: pestk => { fsa with pestk := pestk, pe := .blk pe }

def fsasSymbolExit (fsa : Fsa) : Fsa :=
  let (pair, heap) := fsa.heap.cons .nil .nil
  let (se, heap) := heap.alloc (.sym fsa.pb)
  let fsa := { fsa with heap := heap.ylpsetcar pair (.blk se) }.setPeCdr pair
  { fsa with pe := .blk pair, pb := [] }

def exit : Fsas → Fsa → Fsa
  | .init => Fsa.clearSentinel
  | .list => fsasListExit
  | .squote => fsasSquoteExit
  | .symbol => fsasSymbolExit
  | .dquote => fsasSymbolExit
  | .comment => id
  | .escape => id

/-! ### The loop -/

/-- The local variables of `ylinterp_automata`. `p` is the rest of the stream,
with the line feed that the automaton adds at its end. -/
structure Auto where
  fsa : Fsa
  st : Fsas
  p : List UInt8

/-- How the thread of the automaton ends: with its own value, or in `yleval`. -/
inductive End where
  | ret (e : Ylerr) (fsa : Fsa)
  | eval (e : Ylerr)

/-- `ylstk_push(fsa.ststk, nst); (*nst->enter)(cxt, nst, &fsa)`. -/
def pushState (st : Fsas) (fsa : Fsa) : Fsa := enter st { fsa with ststk := st :: fsa.ststk }

def finish (fsa : Fsa) : End :=
  match fsa.ststk with
  | .init :: ststk =>
      let fsa := exit .init { fsa with ststk := ststk }
      .ret (if fsa.pestk.length = 0 then .ok else .syntaxUnknown) fsa
  | _ => .ret .syntaxUnknown fsa

/-- The body of the loop after the call of `next_char`. -/
def transition (eval : Heap → Ref → Except Ylerr Heap) (st : Fsas) (p : List UInt8) (fsa : Fsa) :
    Next → Auto ⊕ End
  | .nochg => .inl ⟨fsa, st, p⟩
  | .exit =>
      let fsa := exit st fsa
      let fsa := { fsa with ststk := fsa.ststk.tail }
      let st := fsa.ststk.headD .init
      match comeBack eval st fsa with
      | .error e => .inr (.eval e)
      | .ok fsa => .inl ⟨fsa, st, p⟩
  | .enter .escape =>
      let fsa := match fsa.ststk.headD .init with
        | .dquote | .symbol => fsa
        | _ => pushState .symbol fsa
      .inl ⟨pushState .escape fsa, .escape, p⟩
  | .enter nst => .inl ⟨pushState nst fsa, nst, p⟩

def step (eval : Heap → Ref → Except Ylerr Heap) (a : Auto) : Auto ⊕ End :=
  match a.p with
  | [] => .inr (finish a.fsa)
  | c :: p =>
      if c = 0 then .inr (finish a.fsa)
      else
        match nextChar a.fsa c a.st with
        | .error e => .inr (.ret e a.fsa)
        | .ok (true, next, fsa) =>
            let fsa := { fsa with line := if c = '\n'.toUInt8 then fsa.line + 1 else fsa.line }
            transition eval a.st p fsa next
        | .ok (false, next, fsa) => transition eval a.st (c :: p) fsa next

/-- The automaton when it enters the loop on the stream `s`. -/
def start (heap : Heap) (s : List UInt8) : Auto where
  fsa := pushState .init
    { heap := heap, sentinel := none, pe := .sentinel, pb := [], line := 1,
      ststk := [], pestk := [], evals := [] }
  st := .init
  p := s ++ ['\n'.toUInt8]

/-- A bound on the rounds of the loop, see `ylinterpAutomata_ends`. -/
def rounds (s : List UInt8) : ℕ := 5 * s.length + 9

/-- `ylinterp_automata` on a stream that is not empty. -/
def ylinterpAutomata (eval : Heap → Ref → Except Ylerr Heap) (heap : Heap) (s : List UInt8) :
    Option End :=
  Machine.run (step eval) (rounds s) (start heap s)

end Parser

end Ylisp
