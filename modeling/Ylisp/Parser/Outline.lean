import Ylisp.Parser.Scan

/-!
# The outline of a text

The rounds of the automaton without the expressions that are built: a mode, and
the open lists and quotes, each quote with the number of data behind it.

`OneDatum` says that every quote of a text that is left has one datum behind it,
and `EndsWhole` that nothing of the text is still to be completed by the line
feed that the automaton adds.
-/

namespace Ylisp

namespace Parser

inductive Frame where
  | list
  | quote (data : ℕ)
  deriving DecidableEq

namespace Frame

def st : Frame → Fsas
  | list => .list
  | quote _ => .squote

def bump : List Frame → List Frame
  | .quote k :: fs => .quote (k + 1) :: fs
  | fs => fs

end Frame

abbrev Outline := Mode × List Frame

def Kind.closes : Kind → Bool
  | .rpar | .semi | .white => true
  | _ => false

def roundBase (c : UInt8) : List Frame → Option (Bool × Outline)
  | fs => match kind c with
      | .dquo => some (true, .str 0, fs)
      | .squo => some (true, .base, .quote 0 :: Frame.bump fs)
      | .esca => some (true, .escSym 0, fs)
      | .lpar => some (true, .base, .list :: Frame.bump fs)
      | .other => some (false, .sym 0, fs)
      | k => match fs with
          | .quote _ :: fs => some (false, .base, fs)
          | fs => match k with
              | .semi => some (true, .comment, fs)
              | .rpar => match fs with
                  | [] => none
                  | _ :: fs => some (true, .base, fs)
              | _ => some (true, .base, fs)

/-- A round at the character `c`, `none` at a syntax error. -/
def round (c : UInt8) : Outline → Option (Bool × Outline)
  | (.base, fs) => roundBase c fs
  | (.comment, fs) => some (true, if c = '\n'.toUInt8 then .base else .comment, fs)
  | (.sym k, fs) =>
      match kind c with
      | .other => if k < maxSymbol then some (true, .sym (k + 1), fs) else none
      | .esca => some (true, .escSym k, fs)
      | _ => some (false, .base, Frame.bump fs)
  | (.str k, fs) =>
      match kind c with
      | .dquo => some (true, .base, Frame.bump fs)
      | .esca => some (true, .escStr k, fs)
      | _ => if k < maxSymbol then some (true, .str (k + 1), fs) else none
  | (.escSym k, fs) =>
      if c ∈ escapable ∧ k < maxSymbol then some (true, .sym (k + 1), fs) else none
  | (.escStr k, fs) =>
      if c ∈ escapable ∧ k < maxSymbol then some (true, .str (k + 1), fs) else none

/-- One round on a text. The result is the outline at its end, which is a NUL if it has one. -/
def outlineStep (x : Outline × List UInt8) : (Outline × List UInt8) ⊕ Option Outline :=
  match x.2 with
  | [] => .inr (some x.1)
  | c :: p =>
      if c = 0 then .inr (some x.1)
      else
        match round c x.1 with
        | none => .inr none
        | some (handled, q) => .inl (q, if handled then p else c :: p)

def outlineStart (p : List UInt8) : Outline × List UInt8 := ((.base, []), p)

/-- The outline at the end of a text, `none` when there is a syntax error before. -/
def outline (s : List UInt8) : Option (Option Outline) :=
  Machine.run outlineStep (rounds s) (outlineStart s)

def wellQuoted (x : Outline × List UInt8) : Bool :=
  match x with
  | ((.base, .quote k :: _), c :: _) => !(kind c).closes || k == 1
  | _ => true

/-- In the text, with the line feed at its end, all the quotes that are left have one datum
behind them. -/
def OneDatum (s : List UInt8) : Prop :=
  Machine.checks outlineStep wellQuoted (rounds s) (outlineStart (s ++ ['\n'.toUInt8])) = true

instance (s : List UInt8) : Decidable (OneDatum s) := inferInstanceAs (Decidable (_ = true))

/-- The line feed behind the text adds nothing: the text ends between tokens, with nothing open,
or inside a list that is not closed, or inside a string that is not closed and has room left. -/
def Outline.Whole : Outline → Prop
  | (.base, fs) => fs = [] ∨ .list ∈ fs
  | (.comment, fs) | (.sym _, fs) => .list ∈ fs
  | (.str k, _) => k < maxSymbol
  | (.escSym _, _) | (.escStr _, _) => False

instance : (q : Outline) → Decidable q.Whole
  | (.base, fs) => inferInstanceAs (Decidable (fs = [] ∨ .list ∈ fs))
  | (.comment, fs) | (.sym _, fs) => inferInstanceAs (Decidable (.list ∈ fs))
  | (.str k, _) => inferInstanceAs (Decidable (k < maxSymbol))
  | (.escSym _, _) | (.escStr _, _) => inferInstanceAs (Decidable False)

/-- The text has a syntax error, or its end is as in `Outline.Whole`. -/
def EndsWhole (s : List UInt8) : Prop := ∀ q ∈ outline s, ∀ q' ∈ q, q'.Whole

instance (s : List UInt8) : Decidable (EndsWhole s) :=
  inferInstanceAs (Decidable (∀ q ∈ outline s, ∀ q' ∈ q, q'.Whole))

end Parser

end Ylisp
