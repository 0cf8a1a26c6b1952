import Ylisp.Eval.Heap
import Ylisp.Library.Exec
import Ylisp.Mempool.Grow

/-!
# The evaluator

`yleval` and the native functions that call it, as a machine. Each C function
that waits for a value is a `Frame`; `Ctl` is what is executed. The functions
below return a `Go`: the functions that start to wait and what is executed next.
A call in tail position leaves nothing to wait.

`Frame.bb` are the elements that a C function has put on the base-block stack
while it waits. They are registered when the frame is entered and removed when
it is left; `exit` leaves frames without removing anything, as `pthread_exit`
does.

`Step` adds what happens from outside: the reader hands over an expression or
ends, the collector runs at a safe point, a thread is killed, and a native
function that does not evaluate anything returns or fails.
-/

namespace Ylisp

namespace Eval

open Mempool

open Ylisp.Parser (Ylerr)

variable {n : ℕ}

/-- Who called `ylinterpret_internal`: the outside, `interpret`, or
`interpret_file` with its list of files. -/
inductive Caller (n : ℕ) where
  | top
  | interpret
  | interpretFile (e : Ref n)
  deriving DecidableEq

/-- The C functions between two calls of `yleval` that wait for a value, with the
variables they still use. -/
inductive Wait (n : ℕ) where
  | evfuncArgs (r a : Ref n)
  | evfuncCall (param : Ref n)
  | evlisArg (m a : Ref n)
  | evlisRest (p : Ref n)
  | lambdaArgs (body params a : Ref n)
  | flabelArgs (fln fl fla fle : Ref n)
  | ext (d a : Ref n)
  | progn (e a : Ref n)
  | evcon (c a : Ref n)
  | fAnd (e a : Ref n)
  | fOr (e a : Ref n)
  | caseKey (e a : Ref n)
  | caseKeyed (key a : Ref n)
  | caseAtom (key e a : Ref n)
  | caseList (key e w a : Ref n)
  | whileCond (e cond a : Ref n)
  | whileBody (e cond exp a : Ref n)
  | mapNew (r : Ref n)
  | mapInit (r w a : Ref n)
  deriving DecidableEq

/-- `yleval` with the evaluation stack at its call, `yleval` at its safe point,
`ylinterpret_internal` with the base blocks at its call, or a function that
waits. -/
inductive Frame (n : ℕ) where
  | yleval (e a : Ref n) (stk : List (Ref n))
  | safe (r : Ref n)
  | interp (caller : Caller n) (bbs : List (Ref n))
  | wait (w : Wait n)
  deriving DecidableEq

/-- What is executed. `safe` is the region between `ylmt_notify_safe` and
`ylmt_notify_unsafe`, `caseTest` the head of the loop of `f_case` and `caseDone`
its end, `mapTest` the head of the loop of `_make_map`, `files` the loop of
`interpret_file`, `start` the call of `ylinterpret_internal`, `parse` the reader. -/
inductive Ctl (n : ℕ) where
  | eval (e a : Ref n)
  | evlis (m a : Ref n)
  | call (f : Fn) (e a : Ref n)
  | caseTest (key e a : Ref n)
  | caseDone (e : Ref n)
  | mapTest (r w a : Ref n)
  | files (e : Ref n)
  | start (caller : Caller n)
  | ret (r : Ref n)
  | safe
  | parse
  | exit (r : Ylerr)
  | done (r : Ylerr)
  deriving DecidableEq

structure Go (n : ℕ) where
  push : List (Wait n)
  ctl : Ctl n

def go (ctl : Ctl n) : Hp n (Go n) := pure ⟨[], ctl⟩

def enter (w : Wait n) (ctl : Ctl n) : Hp n (Go n) := pure ⟨[w], ctl⟩

/-! ### Forms -/

def ylevlis (m a : Ref n) : Hp n (Go n) := do
  if m = ylnil then go (.ret ylnil) else enter (.evlisArg m a) (.eval (← ylcar m) a)

def evatomForm (c : Etcxt n) (erange : Bool) (k : ℕ) (e a : Ref n) : Hp n (Go n) := do
  match ← symOf e with
  | none => ylinterpretUndefined .evalUndefined
  | some _ =>
      let (vty, r) ← assoc c erange k e a
      if vty = symMac then go (.eval r a) else go (.ret r)

def evfuncForm (c : Etcxt n) (erange : Bool) (k : ℕ) (e a : Ref n) : Hp n (Go n) := do
  match ← symOf (← ylcar e) with
  | none => ylinterpretUndefined .evalUndefined
  | some _ =>
      let (vty, r) ← assoc c erange k (← ylcar e) a
      if vty = symMac then
        let e ← ylcons r (← ylcdr e)
        go (.eval e a)
      else
        let p ← get
        match p.obj r with
        | .sfunc f => do go (.call f (← ylcdr e) a)
        | .nfunc _ => do enter (.evfuncArgs r a) (.evlis (← ylcdr e) a)
        | _ => ylinterpretUndefined .evalUndefined

/-- `_evlf_lambda`. C leaves open in which order the arguments of a call are taken; those
that are only read come first here, so that the function holds on to them. -/
def evlfLambda (e a : Ref n) : Hp n (Go n) := do
  let body ← ylcaddar e
  let params ← ylcadar e
  enter (.lambdaArgs body params a) (.evlis (← ylcdr e) a)

def evlfMlambda (c : Etcxt n) (k : ℕ) (e a : Ref n) : Hp n (Go n) := do
  let params ← ylcadar e
  let body ← ylcaddar e
  if params = ylnil ∧ body ≠ ylnil then
    let exp ← listClone k body
    let we ← lastPair k exp
    ylpsetcdr we (← ylcdr e)
    go (.eval exp a)
  else
    let exp ← listClone k body
    let l ← ylpair k params (← ylcdr e)
    let l ← ylappend k l ylnil
    if ← mreplace c k exp l then go (.eval exp a) else ylinterpretUndefined .evalUndefined

def evlfLabel (e a : Ref n) : Hp n (Go n) := do
  match ← symOf (← ylcadar e) with
  | none => ylinterpretUndefined .evalUndefined
  | some _ =>
      let e' ← ylcons (← ylcaddar e) (← ylcdr e)
      let l ← yllist (← ylcadar e) (← ylcar e)
      let a' ← ylcons l a
      go (.eval e' a')

def evlfFlabel (e a : Ref n) : Hp n (Go n) := do
  let fl ← ylcar e
  let fln ← ylcadr fl
  let fla ← ylcaddr fl
  let fle ← ylcadddr fl
  let flp ← ylcdr e
  match ← symOf fln with
  | none => ylinterpretUndefined .evalUndefined
  | some _ =>
      setEstype fln symMac
      enter (.flabelArgs fln fl fla fle) (.evlis flp a)

def evlambdaForm (c : Etcxt n) (k : ℕ) (e a : Ref n) : Hp n (Go n) := do
  match ← symOf (← ylcaar e) with
  | none => ylinterpretUndefined .evalUndefined
  | some sym =>
      if sym = cstr "lambda" then evlfLambda e a
      else if sym = cstr "mlambda" then evlfMlambda c k e a
      else if sym = cstr "label" then evlfLabel e a
      else if sym = cstr "flabel" then evlfFlabel e a
      else do
        let d ← ylcdr e
        enter (.ext d a) (.eval (← ylcar e) a)

/-- The dispatch of `yleval`. -/
def evalForm (c : Etcxt n) (erange : Bool) (k : ℕ) (e a : Ref n) : Hp n (Go n) := do
  if ← yleisAtom e then evatomForm c erange k e a
  else if ← yleisAtom (← ylcar e) then evfuncForm c erange k e a
  else if ← yleisAtom (← ylcaar e) then evlambdaForm c k e a
  else ylinterpretUndefined .evalUndefined

/-! ### Native functions -/

def pcsz (k : ℕ) (e : Ref n) (minp maxp : ℕ) : Hp n ℕ := do
  let pcsz ← ylelistSize k e
  if minp > pcsz ∨ pcsz > maxp then ylinterpretUndefined .funcInvalidParam else pure pcsz

def ylnfcheckParameter (cond : Bool) : Hp n Unit := do
  if !cond then ylinterpretUndefined .funcInvalidParam

/-- The loop that evaluates the expressions of a list; `r` is the value if there
is none left. -/
def prognLoop (e a r : Ref n) : Hp n (Go n) := do
  if e = ylnil then go (.ret r) else enter (.progn e a) (.eval (← ylcar e) a)

def evcon (c a : Ref n) : Hp n (Go n) := do
  if c = ylnil then go (.ret ylnil)
  else if ← yleisAtom (← ylcar c) then ylinterpretUndefined .funcInvalidParam
  else
    let test ← ylcaar c
    if test = ylnil then ylinterpretUndefined .funcInvalidParam
    else enter (.evcon c a) (.eval test a)

/-- The loop of `f_and`. -/
def andLoop (e a : Ref n) : Hp n (Go n) := do
  if e = ylnil then go (.ret ylt) else enter (.fAnd e a) (.eval (← ylcar e) a)

def orLoop (e a : Ref n) : Hp n (Go n) := do
  if e = ylnil then go (.ret ylnil) else enter (.fOr e a) (.eval (← ylcar e) a)

def fLet (k : ℕ) (e a : Ref n) : Hp n (Go n) := do
  let vars ← ylcar e
  if (← yleisAtom vars) && vars ≠ ylnil then ylinterpretUndefined .funcInvalidParam
  else
    let argl ← pairTo1stElementList k vars ylnil
    let param ← pairTo2ndElementList k vars ylnil
    let body ← ylcons (.stat .progn) (← ylcdr e)
    if argl = ylnil then go (.eval body a)
    else if param = ylnil then ylinterpretUndefined .funcInvalidParam
    else
      let l ← ylcons body ylnil
      let l ← ylcons argl l
      let f ← ylcons (.stat .lambda) l
      let exp ← ylcons f param
      go (.eval exp a)

/-- The head of the loop of `f_case`. -/
def caseTest (key e a : Ref n) : Hp n (Go n) := do
  if e = ylnil then go (.caseDone e)
  else
    let w ← ylcaar e
    if (← symOf w) = some (cstr "otherwise") then go (.caseDone e)
    else if ← yleisAtom w then enter (.caseAtom key e a) (.eval w a)
    else enter (.caseList key e w a) (.eval (← ylcar w) a)

/-- The end of `f_case`, when `key` is no base block any more. -/
def caseDone (e a : Ref n) : Hp n (Go n) := do
  if e = ylnil then go (.ret ylnil) else prognLoop (← ylcdar e) a ylnil

/-- The body loop of `f_while`. -/
def whileLoop (e cond exp a : Ref n) : Hp n (Go n) := do
  if exp = ylnil then enter (.whileCond e cond a) (.eval cond a)
  else enter (.whileBody e cond exp a) (.eval (← ylcar exp) a)

def checkMap : ℕ → Ref n → Hp n Bool
  | 0, _ => stuck
  | k + 1, w => do
      if w = ylnil then pure true
      else if ← yleisAtom (← ylcar w) then pure false
      else
        match ← symOf (← ylcaar w) with
        | none => pure false
        | some _ => checkMap k (← ylpcdr w)

/-- The part of `_make_map` between the choice of the initial value and the loop over it. -/
def newMap (k : ℕ) (d : Amap n) (w a : Ref n) : Hp n (Go n) := do
  if (← yleisAtom w) && w ≠ ylnil then ylinterpretUndefined .funcFail
  else if ← checkMap k w then
    let r ← create (.map d)
    enter (.mapNew r) (.mapTest r w a)
  else ylinterpretUndefined .funcFail

def makeMap (k : ℕ) (d : Amap n) (e a : Ref n) : Hp n (Go n) := do
  let sz ← pcsz k e 0 1
  if sz > 0 then newMap k d (← ylcar e) a else newMap k d ylnil a

/-- The head of the loop of `_make_map`. -/
def mapTest (r w a : Ref n) : Hp n (Go n) := do
  if w = ylnil then go (.ret r) else enter (.mapInit r w a) (.eval (← ylcadar w) a)

def amapInsert (c : Etcxt n) (key : List UInt8) (v : Ref n) : Amap n → Option (Amap n)
  | .trie t => some (.trie (t.yltrieInsert key v).2)
  | .hash h => (h.hashAdd c.crc32 key v).map fun r => .hash r.2

def mapInsert (c : Etcxt n) (r : Ref n) (key : List UInt8) (v : Ref n) : Hp n Unit := fun p =>
  match r with
  | .stat _ => .error .stuck p
  | .blk b =>
      match (p.blk b).obj with
      | .map d =>
          match amapInsert c key v d with
          | some d => .ok () (p.setBlk b { p.blk b with obj := .map d })
          | none => .error .stuck p
      | _ => .error .stuck p

def setPairArgs (k : ℕ) (e : Ref n) : Hp n (Ref n × Ref n) := do
  let _ ← pcsz k e 2 2
  ylnfcheckParameter !(← yleisAtom (← ylcar e))
  let x ← ylcar e
  let v ← ylcadr e
  pure (x, v)

def setPair (k : ℕ) (side : Side) (e : Ref n) : Hp n (Go n) := do
  let (x, v) ← setPairArgs k e
  ylpset side x v
  go (.ret ylt)

/-- `set`, `tset`, `f_mset` and `f_tmset`, up to the call of `_set`. -/
def setArgs (k : ℕ) (e : Ref n) : Hp n (Ref n × Ref n × Option (List UInt8)) := do
  let sz ← pcsz k e 2 3
  if sz > 2 then
    match ← symOf (← ylcaddr e) with
    | none => ylinterpretUndefined .funcInvalidParam
    | some desc => do
        let s ← ylcar e
        let val ← ylcadr e
        pure (s, val, some desc)
  else
    let s ← ylcar e
    let val ← ylcadr e
    pure (s, val, none)

def setSym (c : Etcxt n) (k : ℕ) (ty : ℕ) (bgsym : Bool) (e a : Ref n) : Hp n (Go n) := do
  let (s, val, desc) ← setArgs k e
  let r ← set c k s val a desc ty bgsym
  go (.ret r)

/-- `interpret`. An empty text is not given to a thread. -/
def interpret (k : ℕ) (e : Ref n) : Hp n (Go n) := do
  let _ ← pcsz k e 1 1
  ylnfcheckParameter (← ylaisSymChain k e)
  match ← symOf (← ylcar e) with
  | none => stuck
  | some code =>
      if code = [] then go (.ret ylt) else go (.start .interpret)

/-- The loop of `interpret_file`. -/
def files (e : Ref n) : Hp n (Go n) := do
  if e = ylnil then go (.ret ylt) else go (.start (.interpretFile e))

/-- `YLASym_def`. -/
def symDef : ℕ := 0

def callFn (c : Etcxt n) (k : ℕ) (f : Fn) (e a : Ref n) : Hp n (Go n) := do
  match f with
  | .dummy =>
      let _ ← pcsz k e 0 0
      ylinterpretUndefined .funcFail
  | .quote =>
      let _ ← pcsz k e 1 1
      go (.ret (← ylcar e))
  | .apply =>
      let _ ← pcsz k e 1 9999
      let f ← ylcar e
      let args ← appq k (← ylcdr e)
      let e ← ylcons f args
      go (.eval e a)
  | .set => setSym c k symDef true e a
  | .tset => setSym c k symDef false e a
  | .fMset => setSym c k symMac true e a
  | .fTmset => setSym c k symMac false e a
  | .eval =>
      let _ ← pcsz k e 1 1
      go (.eval (← ylcar e) a)
  | .interpret => interpret k e
  | .interpretFile =>
      let _ ← pcsz k e 1 9999
      ylnfcheckParameter (← ylaisSymChain k e)
      go (.files e)
  | .progn =>
      let _ ← pcsz k e 1 9999
      prognLoop e a ylnil
  | .fCond =>
      let _ ← pcsz k e 1 9999
      evcon e a
  | .fAnd =>
      let _ ← pcsz k e 1 9999
      andLoop e a
  | .fOr =>
      let _ ← pcsz k e 1 9999
      orLoop e a
  | .fLet =>
      let _ ← pcsz k e 2 9999
      fLet k e a
  | .fCase =>
      let _ ← pcsz k e 2 9999
      ylnfcheckParameter (← yleisPairChain k (← ylcdr e))
      enter (.caseKey e a) (.eval (← ylcar e) a)
  | .fWhile =>
      let _ ← pcsz k e 2 9999
      let cond ← ylcar e
      enter (.whileCond e cond a) (.eval cond a)
  | .setcar => setPair k .car e
  | .setcdr => setPair k .cdr e
  | .stop =>
      let _ ← pcsz k e 0 0
      ylinterpretUndefined .ok
  | .makeTrieMap => makeMap k (.trie Trie.yltrieCreate) e a
  | .makeHashMap => makeMap k (.hash Hash.hashCreate) e a
  | .other _ => stuck

/-! ### Waiting functions -/

namespace Wait

def bb : Wait n → List (Ref n)
  | .evfuncArgs r _ => [r]
  | .evfuncCall param => [param]
  | .evlisRest p => [p]
  | .caseKeyed key _ => [key]
  | .mapNew r => [r]
  | _ => []

/-- What the function waits for next, once it has been given the value `v`. -/
def next (v : Ref n) : Wait n → List (Wait n)
  | .evfuncArgs _ _ => [.evfuncCall v]
  | .evlisArg _ _ => [.evlisRest v]
  | .caseKey _ a => [.caseKeyed v a]
  | _ => []

def resume (c : Etcxt n) (k : ℕ) (v : Ref n) : Wait n → Hp n (Go n)
  | .evfuncArgs r a => do
      let p ← get
      match p.obj r with
      | .nfunc f => go (.call f v a)
      | _ => stuck
  | .evfuncCall _ => go (.ret v)
  | .evlisArg m a => do go (.evlis (← ylcdr m) a)
  | .evlisRest p => do go (.ret (← ylcons p v))
  | .lambdaArgs body params a => do
      let l ← ylpair k params v
      let a' ← ylappend k l a
      go (.eval body a')
  | .flabelArgs fln fl fla fle => do
      let paramAssoc ← ylpair k fla v
      let l ← yllist fln fl
      let a' ← ylcons l paramAssoc
      go (.eval fle a')
  | .ext d a => do
      let e' ← ylcons v d
      go (.eval e' a)
  | .progn e a => do prognLoop (← ylpcdr e) a v
  | .evcon cl a => do
      if v ≠ ylnil then go (.eval (← ylcadar cl) a) else Eval.evcon (← ylcdr cl) a
  | .fAnd e a => do
      if v = ylnil then go (.ret ylnil) else andLoop (← ylcdr e) a
  | .fOr e a => do
      if v ≠ ylnil then go (.ret ylt) else orLoop (← ylcdr e) a
  | .caseKey e a => do go (.caseTest v (← ylcdr e) a)
  | .caseAtom key e a => do
      let eq ← yleq c k key v
      if eq ≠ ylnil then go (.caseDone e) else go (.caseTest key (← ylpcdr e) a)
  | .caseList key e w a => do
      let eq ← yleq c k key v
      if eq ≠ ylnil then go (.caseDone e)
      else
        let w ← ylpcdr w
        if w = ylnil then go (.caseTest key (← ylpcdr e) a)
        else enter (.caseList key e w a) (.eval (← ylcar w) a)
  | .whileCond e cond a => do
      if v ≠ ylnil then whileLoop e cond (← ylcdr e) a else go (.ret ylt)
  | .whileBody e cond exp a => do whileLoop e cond (← ylpcdr exp) a
  | .mapNew r => go (.ret r)
  | .mapInit r w a => do
      match ← symOf (← ylcaar w) with
      | none => stuck
      | some key => do
          mapInsert c r key v
          go (.mapTest r (← ylpcdr w) a)
  | .caseKeyed _ _ => stuck

end Wait

/-! ### Steps -/

namespace Frame

def bb : Frame n → List (Ref n)
  | .yleval e a _ => [e, a]
  | .safe r => [r]
  | .interp _ _ => []
  | .wait w => w.bb

def isInterp : Frame n → Bool
  | .interp _ _ => true
  | _ => false

end Frame

def unwound (fs : List (Frame n)) : List (Frame n) := fs.dropWhile fun f => !f.isInterp

theorem unwound_cases (fs : List (Frame n)) :
    unwound fs = [] ∨ ∃ caller bbs fs', unwound fs = .interp caller bbs :: fs' := by
  induction fs with
  | nil => exact Or.inl rfl
  | cons f fs ih =>
      cases f with
      | interp caller bbs => exact Or.inr ⟨caller, bbs, fs, rfl⟩
      | _ => exact ih

structure State (n : ℕ) where
  pool : Pool n
  /-- `cxt->evalstk`, the top first. -/
  evalstk : List (Ref n)
  frames : List (Frame n)
  ctl : Ctl n

namespace State

/-- The evaluation of a context starts: `ylinterpret_internal` is called. -/
def init (p : Pool n) : State n where
  pool := p
  evalstk := []
  frames := [.interp .top p.bbs]
  ctl := .parse

def push (s : State n) (f : Frame n) : State n :=
  { s with frames := f :: s.frames, pool := f.bb.foldl ylmpAddBb s.pool }

def pushWaits (s : State n) (ws : List (Wait n)) : State n :=
  ws.foldr (fun w s => s.push (.wait w)) s

def pop (s : State n) (f : Frame n) (fs : List (Frame n)) : State n :=
  { s with frames := fs, pool := f.bb.foldl ylmpRmBb s.pool }

def load (s : State n) (q : Pool n) : State n := { s with pool := { q with bbs := s.pool.bbs } }

/-- A computation over the pool. It does not touch the base-block stack. -/
def run (s : State n) (x : Hp n (Go n)) : Option (State n) :=
  match x s.pool with
  | .ok g q => some ({ s.load q with ctl := g.ctl }.pushWaits g.push)
  | .error (.undefined r) q => some { s.load q with ctl := .exit r }
  | .error .stuck _ => none

def showEvalStack (s : State n) (r : Ylerr) : State n :=
  if r = .ok then s else { s with evalstk := [] }

/-- What the caller of `ylinterpret_internal` does with its result. -/
def finish (s : State n) (r : Ylerr) : Caller n → Option (State n)
  | .top => some { s with ctl := .done r }
  | .interpret => some { s with ctl := .ret (if r = .ok then ylt else ylnil) }
  | .interpretFile e =>
      if r = .ok then s.run (do go (.files (← ylcdr e)))
      else some { s with ctl := .exit .funcFail }

/-- The end of a thread: the frames down to its start are gone, and then
`ylinterpret_internal` returns. -/
def exit (s : State n) (r : Ylerr) : Option (State n) :=
  match s.frames with
  | .interp caller _ :: fs => ({ s with frames := fs }.showEvalStack r).finish r caller
  | _ => some { s with frames := unwound s.frames }

/-- A value is given to the frame on top. -/
def ret (c : Etcxt n) (k : ℕ) (s : State n) (v : Ref n) : Option (State n) :=
  match s.frames with
  | .yleval e a stk :: fs =>
      some ({ s.pop (.yleval e a stk) fs with evalstk := s.evalstk.tail, ctl := .safe }.push
        (.safe v))
  | .interp _ _ :: _ => some { s with ctl := .parse }
  | .wait w :: fs => ((s.pop (.wait w) fs).pushWaits (w.next v)).run (w.resume c k v)
  | _ => none

/-- The steps that the evaluator takes by itself. -/
def next (c : Etcxt n) (k : ℕ) (erange : Bool) (s : State n) : Option (State n) :=
  match s.ctl with
  | .eval e a =>
      ({ s with evalstk := e :: s.evalstk }.push (.yleval e a s.evalstk)).run
        (evalForm c erange k e a)
  | .evlis m a => s.run (ylevlis m a)
  | .call f e a => s.run (callFn c k f e a)
  | .caseTest key e a => s.run (Eval.caseTest key e a)
  | .caseDone e =>
      match s.frames with
      | .wait (.caseKeyed key a) :: fs =>
          (s.pop (.wait (.caseKeyed key a)) fs).run (Eval.caseDone e a)
      | _ => none
  | .mapTest r w a => s.run (Eval.mapTest r w a)
  | .files e => s.run (Eval.files e)
  | .start caller => some ({ s with ctl := .parse }.push (.interp caller s.pool.bbs))
  | .ret v => s.ret c k v
  | .safe =>
      match s.frames with
      | .safe r :: fs => some { s.pop (.safe r) fs with ctl := .ret r }
      | _ => none
  | .exit r => s.exit r
  | .parse | .done _ => none

end State

/-- What happens in a step: the evaluator takes it, the reader hands over an
expression or ends, the collector runs, the thread is killed, a native function
returns, or fails, or a file cannot be opened. -/
inductive Event where
  | tick | form | eof | collect | kill | native | nativeFail | openFail

/-- What the reader and the native functions do to a pool. -/
structure Grows (p q : Pool n) : Prop where
  grown : p.Grown q
  good : p.Good → q.Good

inductive Step (c : Etcxt n) : State n → Event → State n → Prop
  | tick {s s' : State n} (k : ℕ) (erange : Bool) (h : s.next c k erange = some s') :
      Step c s .tick s'
  | form {s : State n} {q : Pool n} {e : Ref n} (hctl : s.ctl = .parse)
      (hq : Grows s.pool q) (he : q.Valid e) :
      Step c s .form { s.load q with ctl := .eval e ylnil }
  | eof {s : State n} {q : Pool n} (r : Ylerr) (hctl : s.ctl = .parse)
      (hq : Grows s.pool q) : Step c s .eof { s.load q with ctl := .exit r }
  | collect {s : State n} (hctl : s.ctl = .safe) :
      Step c s .collect { s with pool := gc s.pool }
  | kill {s : State n} (hexit : ∀ r, s.ctl ≠ .exit r) (hdone : ∀ r, s.ctl ≠ .done r) :
      Step c s .kill { s with ctl := .exit .killed }
  | native {s : State n} {q : Pool n} {j : ℕ} {e a v : Ref n}
      (hctl : s.ctl = .call (.other j) e a) (hq : Grows s.pool q)
      (hv : s.pool.Good → s.pool.Valid e → q.Valid v) :
      Step c s .native { s.load q with ctl := .ret v }
  | nativeFail {s : State n} {q : Pool n} {j : ℕ} {e a : Ref n} (r : Ylerr)
      (hctl : s.ctl = .call (.other j) e a) (hq : Grows s.pool q) :
      Step c s .nativeFail { s.load q with ctl := .exit r }
  | openFail {s : State n} {e : Ref n} (hctl : s.ctl = .files e) (he : e ≠ ylnil) :
      Step c s .openFail { s with ctl := .exit .funcFail }

def State.trace (c : Etcxt n) (k : ℕ) : ℕ → State n → List (Event × State n)
  | 0, _ => []
  | j + 1, s =>
      match s.next c k false with
      | none => []
      | some s' => (.tick, s') :: s'.trace c k j

def State.after (c : Etcxt n) (k : ℕ) : ℕ → State n → State n
  | 0, s => s
  | j + 1, s =>
      match s.next c k false with
      | none => s
      | some s' => s'.after c k j

theorem State.run_trace {c : Etcxt n} {k j : ℕ} {s : State n} {tr : List (Event × State n)}
    (h : Exec.Run (Step c) (s.after c k j) tr) :
    Exec.Run (Step c) s (s.trace c k j ++ tr) := by
  induction j generalizing s with
  | zero => exact h
  | succ j ih =>
      rw [State.after] at h
      rw [State.trace]
      cases hnext : s.next c k false with
      | none =>
          rw [hnext] at h
          exact h
      | some s' =>
          rw [hnext] at h
          exact .cons (.tick k false hnext) (ih h)

/-- A property of the states of all runs holds after these steps. -/
theorem State.allStates_after {c : Etcxt n} {P : State n → Prop} {s : State n} (k j : ℕ)
    (h : ∀ tr, Exec.Run (Step c) s tr → Exec.AllStates P s tr) {tr : List (Event × State n)}
    (htr : Exec.Run (Step c) (s.after c k j) tr) : Exec.AllStates P (s.after c k j) tr := by
  induction j generalizing s with
  | zero => exact h tr htr
  | succ j ih =>
      rw [State.after] at htr ⊢
      cases hnext : s.next c k false with
      | none =>
          rw [hnext] at htr
          exact h tr htr
      | some s' =>
          rw [hnext] at htr
          refine ih (fun tr htr => ?_) htr
          exact (Exec.allStates_cons.1 (h _ (.cons (.tick k false hnext) htr))).2

end Eval

end Ylisp
