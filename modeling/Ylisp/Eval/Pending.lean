import Ylisp.Eval.Clone
import Ylisp.Eval.Machine

/-!
# What functions hold on to while they wait

A function that waits has registered some of its variables itself (`own`). The
others it relies on (`uses`): pairs have to lead to them from the base blocks of
the functions below (`anchors`). `Pending` says that this is so.

The rules of this file say for each function of the evaluator that it hands over
what the functions above it rely on (`GoOk`).
-/

namespace Ylisp

namespace Eval

open Mempool Effect

variable {n : ℕ}

namespace Wait

/-- The variables on the base-block stack: the base blocks of the function, and
`key` or `r` in the loops of `f_case` and `_make_map`. -/
def own : Wait n → List (Ref n)
  | .caseAtom key _ _ => [key]
  | .caseList key _ _ _ => [key]
  | .mapInit r _ _ => [r]
  | w => w.bb

/-- The variables that the function has not registered. -/
def uses : Wait n → List (Ref n)
  | .evfuncArgs _ a => [a]
  | .evlisArg m a => [m, a]
  | .lambdaArgs body params a => [body, params, a]
  | .flabelArgs fln fl fla fle => [fln, fl, fla, fle]
  | .ext d a => [d, a]
  | .progn e a => [e, a]
  | .evcon c a => [c, a]
  | .fAnd e a => [e, a]
  | .fOr e a => [e, a]
  | .caseKey e a => [e, a]
  | .caseKeyed _ a => [a]
  | .caseAtom _ e a => [e, a]
  | .caseList _ e w a => [e, w, a]
  | .whileCond e cond a => [e, cond, a]
  | .whileBody e cond exp a => [e, cond, exp, a]
  | .mapInit _ w a => [w, a]
  | _ => []

end Wait

def Caller.uses : Caller n → List (Ref n)
  | .interpretFile e => [e]
  | _ => []

namespace Frame

def own : Frame n → List (Ref n)
  | .wait w => w.own
  | f => f.bb

def uses : Frame n → List (Ref n)
  | .interp caller _ => caller.uses
  | .wait w => w.uses
  | _ => []

/-- The base blocks that stay until the frame is left for good: `f_case` takes `key`
away before it evaluates the clause that it has found. -/
def anchors : Frame n → List (Ref n)
  | .wait (.caseKeyed _ _) => []
  | f => f.bb

def live (f : Frame n) : List (Ref n) := f.own ++ f.uses

end Frame

def registered (fs : List (Frame n)) : List (Ref n) := fs.flatMap Frame.bb

def anchors (fs : List (Frame n)) : List (Ref n) := fs.flatMap Frame.anchors

/-- Pairs lead from the base blocks of the functions below to each variable that a
function has not registered. -/
def Pending (p : Pool n) (fs : List (Frame n)) : Prop :=
  ∀ f fs', f :: fs' <:+ fs → ∀ r ∈ f.uses, p.Held (anchors fs') r

structure FrameOk (p : Pool n) (fs : List (Frame n)) (f : Frame n) : Prop where
  bb : ∀ r ∈ f.bb, p.Valid r
  own : ∀ r ∈ f.own, r ∈ registered (f :: fs)
  uses : ∀ r ∈ f.uses, p.Held (anchors fs) r

structure FramesOk (p : Pool n) (fs : List (Frame n)) : Prop where
  valid : ∀ r ∈ registered fs, p.Valid r
  own : ∀ f fs', f :: fs' <:+ fs → ∀ r ∈ f.own, r ∈ registered (f :: fs')
  uses : Pending p fs

def CtlOk (p : Pool n) (fs : List (Frame n)) : Ctl n → Prop
  | .eval e a => p.Valid e ∧ p.Valid a
  | .evlis m a => p.Held (anchors fs) m ∧ p.Held (anchors fs) a
  | .call _ e a => p.Held (anchors fs) e ∧ p.Held (anchors fs) a
  | .caseTest key e a =>
      key ∈ registered fs ∧ p.Held (anchors fs) e ∧ p.Held (anchors fs) a
  | .caseDone e => p.Held (anchors fs) e
  | .mapTest r w a =>
      r ∈ registered fs ∧ (w ≠ ylnil → p.Held (anchors fs) w) ∧ p.Held (anchors fs) a
  | .files e => p.Held (anchors fs) e
  | .start caller => ∀ r ∈ caller.uses, p.Held (anchors fs) r
  | .ret r => p.Valid r
  | .safe | .parse | .exit _ | .done _ => True

def GoOk (p : Pool n) (fs : List (Frame n)) (g : Go n) : Prop :=
  match g.push with
  | [] => CtlOk p fs g.ctl
  | [w] => FrameOk p fs (.wait w) ∧ CtlOk p (.wait w :: fs) g.ctl
  | _ => False

def Goes (fs : List (Frame n)) (x : Hp n (Go n)) (p : Pool n) : Prop :=
  Wp (growth n) x p fun g q => GoOk q fs g

section Frames

variable {p q : Pool n} {fs fs' : List (Frame n)} {f : Frame n} {r x : Ref n}

theorem anchors_subset (fs : List (Frame n)) : anchors fs ⊆ registered fs := by
  intro r hr
  obtain ⟨f, hf, hr⟩ := List.mem_flatMap.1 hr
  refine List.mem_flatMap.2 ⟨f, hf, ?_⟩
  unfold Frame.anchors at hr
  split at hr
  · cases hr
  · exact hr

theorem FrameOk.of_bb {w : Wait n} (hown : w.own = w.bb) (hbb : ∀ r ∈ w.bb, p.Valid r)
    (huses : ∀ r ∈ w.uses, p.Held (anchors fs) r) : FrameOk p fs (.wait w) where
  bb := hbb
  own := by
    intro r hr
    rw [Frame.own, hown] at hr
    exact List.mem_append_left _ hr
  uses := huses

theorem held_cons (h : p.Held (anchors fs) r) : p.Held (anchors (f :: fs)) r :=
  h.mono (List.subset_append_right _ _)

theorem FramesOk.cons (hf : FrameOk p fs f) (hfs : FramesOk p fs) : FramesOk p (f :: fs) where
  valid := by
    intro r hr
    rw [registered, List.flatMap_cons, List.mem_append] at hr
    exact hr.elim (hf.bb r) (hfs.valid r)
  own := by
    intro g gs hsuf
    rcases List.suffix_cons_iff.1 hsuf with h | h
    · cases h
      exact hf.own
    · exact hfs.own g gs h
  uses := by
    intro g gs hsuf
    rcases List.suffix_cons_iff.1 hsuf with h | h
    · cases h
      exact hf.uses
    · exact hfs.uses g gs h

theorem FramesOk.head (h : FramesOk p (f :: fs)) : FrameOk p fs f where
  bb := fun r hr => h.valid r (List.mem_append_left _ hr)
  own := h.own f fs (List.suffix_refl _)
  uses := h.uses f fs (List.suffix_refl _)

theorem FramesOk.suffix (h : FramesOk p fs) (hsuf : fs' <:+ fs) : FramesOk p fs' where
  valid := by
    intro r hr
    obtain ⟨f, hf, hr⟩ := List.mem_flatMap.1 hr
    exact h.valid r (List.mem_flatMap.2 ⟨f, hsuf.subset hf, hr⟩)
  own := fun f gs hgs => h.own f gs (hgs.trans hsuf)
  uses := fun f gs hgs => h.uses f gs (hgs.trans hsuf)

theorem FramesOk.tail (h : FramesOk p (f :: fs)) : FramesOk p fs := h.suffix (List.suffix_cons f fs)

theorem FramesOk.grown (h : FramesOk p fs) (hp : p.Good) (hle : p.Grown q) : FramesOk q fs where
  valid := fun r hr => (h.valid r hr).grown hle
  own := h.own
  uses := fun f gs hgs r hr => (h.uses f gs hgs r hr).grown hp hle

end Frames

section Go

variable {p : Pool n} {fs : List (Frame n)} {w : Wait n} {ctl : Ctl n} {x e a : Ref n}
  {β : Type} {R : β → Pool n → Prop} {bs : List (Ref n)}

theorem wp_go {L : Law (Pool n)} (h : CtlOk p fs ctl) :
    Wp L (go ctl) p fun g q => GoOk q fs g := Wp.pure h

theorem goes_go (h : CtlOk p fs ctl) : Goes fs (go ctl) p := wp_go h

theorem goes_enter (hw : FrameOk p fs (.wait w)) (h : CtlOk p (.wait w :: fs) ctl) :
    Goes fs (enter w ctl) p := Wp.pure ⟨hw, h⟩

/-- A function that registers nothing waits for the value of an expression. -/
theorem goes_enter_eval (hbb : w.bb = []) (hown : ∀ r ∈ w.own, r ∈ registered fs)
    (hw : ∀ r ∈ w.uses, p.Held (anchors fs) r) (hx : p.Held bs x)
    (ha : p.Held bs a) : Goes fs (enter w (.eval x a)) p := by
  refine Wp.of_inv fun hp => goes_enter ⟨?_, fun r hr => ?_, hw⟩ ⟨hx.valid hp, ha.valid hp⟩
  · intro r hr
    rw [Frame.bb, hbb] at hr
    cases hr
  · exact List.mem_append_right _ (hown r hr)

theorem goes_eval (hx : p.Held bs x) (ha : p.Held bs a) : Goes fs (go (.eval x a)) p :=
  Wp.of_inv fun hp => goes_go ⟨hx.valid hp, ha.valid hp⟩

theorem goes_ret (hx : p.Held bs x) : Goes fs (go (.ret x)) p :=
  Wp.of_inv fun hp => goes_go (hx.valid hp)

theorem Follows.held {f : Ref n → Hp n (Ref n)} {g : Ref n → Hp n β} (hf : Follows f)
    (he : p.Held bs e) (hg : ∀ x, p.Held bs x → Wp (growth n) (g x) p R) :
    Wp (growth n) (f e >>= g) p R :=
  Wp.read_bind (hf p e) fun x hx => hg x (he.path hx)

end Go

end Eval

end Ylisp
