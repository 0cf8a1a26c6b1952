import Ylisp.Parser.Lex

/-!
# Expressions, written and in the heap

`Expr.write` writes an expression, with every symbol between double quotes.
`Rep h ok e r` says that the reference `r` leads to the expression `e` in the
heap `h`, through blocks that satisfy `ok`. A heap that keeps these blocks keeps
the expression (`Rep.mono`).
-/

namespace Ylisp

namespace Parser

/-- The symbols: at most `maxSymbol` bytes, none of them NUL. -/
def Symbol := {bs : List UInt8 // 0 ∉ bs ∧ bs.length ≤ maxSymbol}

inductive Expr where
  | sym (s : Symbol)
  | list (es : List Expr)

def writeByte (c : UInt8) : List UInt8 :=
  if c = '"'.toUInt8 ∨ c = '\\'.toUInt8 then ['\\'.toUInt8, c] else [c]

mutual

def Expr.write : Expr → List UInt8
  | .sym s => '"'.toUInt8 :: s.1.flatMap writeByte ++ ['"'.toUInt8]
  | .list es => '('.toUInt8 :: writeElems es ++ [')'.toUInt8]

def writeElems : List Expr → List UInt8
  | [] => []
  | e :: es => e.write ++ writeRest es

def writeRest : List Expr → List UInt8
  | [] => []
  | e :: es => ' '.toUInt8 :: (e.write ++ writeRest es)

end

/-- A sequence of expressions, separated by line feeds. -/
def writeAll (es : List Expr) : List UInt8 :=
  List.intercalate ['\n'.toUInt8] (es.map Expr.write)

mutual

def Rep (h : Heap) (ok : ℕ → Prop) : Expr → Ref → Prop
  | .sym s, r => ∃ b, r = .blk b ∧ ok b ∧ h.cell b = .sym s.1
  | .list es, r => RepList h ok es r

def RepList (h : Heap) (ok : ℕ → Prop) : List Expr → Ref → Prop
  | [], r => r = .nil
  | e :: es, r => ∃ b car cdr, r = .blk b ∧ ok b ∧ h.cell b = .pair car cdr ∧
      Rep h ok e car ∧ RepList h ok es cdr

end

/-- The expression at a reference, in any blocks. -/
def Reads (h : Heap) (r : Ref) (e : Expr) : Prop := Rep h (fun _ => True) e r

mutual

theorem Rep.mono {h h' : Heap} {ok ok' : ℕ → Prop}
    (hok : ∀ b, ok b → ok' b ∧ h'.cell b = h.cell b) :
    ∀ (e : Expr) (r : Ref), Rep h ok e r → Rep h' ok' e r
  | .sym s, r, hr => by
      obtain ⟨b, rfl, hb, hcell⟩ := hr
      exact ⟨b, rfl, (hok b hb).1, by rw [(hok b hb).2, hcell]⟩
  | .list es, r, hr => RepList.mono hok es r hr

theorem RepList.mono {h h' : Heap} {ok ok' : ℕ → Prop}
    (hok : ∀ b, ok b → ok' b ∧ h'.cell b = h.cell b) :
    ∀ (es : List Expr) (r : Ref), RepList h ok es r → RepList h' ok' es r
  | [], _, hr => hr
  | e :: es, r, hr => by
      obtain ⟨b, car, cdr, rfl, hb, hcell, he, hes⟩ := hr
      exact ⟨b, car, cdr, rfl, (hok b hb).1, by rw [(hok b hb).2, hcell],
        Rep.mono hok e car he, RepList.mono hok es cdr hes⟩

end

theorem Rep.reads {h : Heap} {ok : ℕ → Prop} {e : Expr} {r : Ref} (hr : Rep h ok e r) :
    Reads h r e :=
  Rep.mono (fun _ _ => ⟨trivial, rfl⟩) e r hr

end Parser

end Ylisp
