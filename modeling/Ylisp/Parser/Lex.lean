import Mathlib.Data.List.Chain
import Ylisp.Parser.Automata

/-!
# The texts that can be read

`Readable` says of a text that it splits into tokens: white space, comments,
quotes, parentheses, strings and bare symbols, with the parentheses balanced. A
bare symbol is as long as possible, and a comment ends at a line feed.

`depth` counts the open parentheses from token to token; the parentheses are
balanced when it starts and ends at zero (`balanced_iff_depth`).
-/

namespace Ylisp

namespace Parser

inductive Item where
  | chr (c : UInt8)
  | esc (c : UInt8)
  deriving DecidableEq

inductive Token where
  | white (c : UInt8)
  | comment (body : List UInt8)
  | quote | lpar | rpar
  | str (items : List Item)
  | sym (items : List Item)
  deriving DecidableEq

def specials : List UInt8 :=
  ['"', '\'', '\\', '(', ')', ';', '\r', '\n', '\t', ' '].map Char.toUInt8

def escapable : List UInt8 := ['"', '\\', 'n'].map Char.toUInt8

def whites : List UInt8 := ['\r', '\n', '\t', ' '].map Char.toUInt8

def maxSymbol : ℕ := 4095

namespace Item

def text : Item → List UInt8
  | chr c => [c]
  | esc c => ['\\'.toUInt8, c]

def InStr : Item → Prop
  | chr c => c ≠ '"'.toUInt8 ∧ c ≠ '\\'.toUInt8
  | esc c => c ∈ escapable

def InSym : Item → Prop
  | chr c => c ∉ specials
  | esc c => c ∈ escapable

end Item

namespace Token

def text : Token → List UInt8
  | white c => [c]
  | comment body => ';'.toUInt8 :: body
  | quote => ['\''.toUInt8]
  | lpar => ['('.toUInt8]
  | rpar => [')'.toUInt8]
  | str items => '"'.toUInt8 :: items.flatMap Item.text ++ ['"'.toUInt8]
  | sym items => items.flatMap Item.text

def Ok : Token → Prop
  | white c => c ∈ whites
  | comment body => '\n'.toUInt8 ∉ body
  | str items => (∀ i ∈ items, i.InStr) ∧ items.length ≤ maxSymbol
  | sym items => items ≠ [] ∧ (∀ i ∈ items, i.InSym) ∧ items.length ≤ maxSymbol
  | _ => True

/-- What may follow a token: a bare symbol and a comment go on as long as they
can. -/
def Adj : Token → Token → Prop
  | sym _, sym _ => False
  | comment _, t => t = white '\n'.toUInt8
  | _, _ => True

end Token

def Balanced (ts : List Token) : Prop :=
  (∀ us, us <+: ts → us.count .rpar ≤ us.count .lpar) ∧ ts.count .rpar = ts.count .lpar

def Readable (s : List UInt8) : Prop :=
  ∃ ts : List Token, ts.flatMap Token.text = s ∧ (∀ t ∈ ts, t.Ok) ∧
    ts.IsChain Token.Adj ∧ Balanced ts

section Kind

def Kind.chars : Kind → List UInt8
  | .dquo => ['"'.toUInt8]
  | .squo => ['\''.toUInt8]
  | .esca => ['\\'.toUInt8]
  | .lpar => ['('.toUInt8]
  | .rpar => [')'.toUInt8]
  | .semi => [';'.toUInt8]
  | .white => whites
  | .other => []

theorem mem_chars_kind {c : UInt8} (h : kind c ≠ .other) : c ∈ (kind c).chars := by
  unfold kind at *
  split_ifs at * with h1 h2 h3 h4 h5 h6 h7 <;> simp_all [Kind.chars, whites]

theorem kind_eq_of_mem {c : UInt8} {k : Kind} (h : c ∈ k.chars) : kind c = k := by
  cases k <;> simp [Kind.chars, whites] at h <;> rcases h with rfl | rfl | rfl | rfl <;> rfl

theorem kind_eq_other_iff (c : UInt8) : kind c = .other ↔ c ∉ specials := by
  unfold kind
  split_ifs with h1 h2 h3 h4 h5 h6 h7 <;> simp_all [specials]

theorem escaped_isSome_iff (c : UInt8) : (escaped c).isSome = true ↔ c ∈ escapable := by
  unfold escaped
  split_ifs with h1 h2 <;> simp [escapable] <;> tauto

end Kind

section Depth

def Token.move (d : ℕ) : Token → Option ℕ
  | .lpar => some (d + 1)
  | .rpar => match d with
      | 0 => none
      | d + 1 => some d
  | _ => some d

def depth (d : ℕ) : List Token → Option ℕ
  | [] => some d
  | t :: ts => (t.move d).bind fun d' => depth d' ts

theorem depth_eq_some_iff (d e : ℕ) (ts : List Token) :
    depth d ts = some e ↔ (∀ us, us <+: ts → us.count .rpar ≤ d + us.count .lpar) ∧
      ts.count .rpar + e = d + ts.count .lpar := by
  induction ts generalizing d with
  | nil =>
      simp only [depth, List.prefix_nil, List.count_nil, Option.some.injEq]
      constructor
      · rintro rfl
        exact ⟨by rintro us rfl; simp, by omega⟩
      · rintro ⟨-, h⟩
        omega
  | cons t ts ih =>
      have hpre : ∀ n m : ℕ, (∀ us, us <+: t :: ts → us.count .rpar ≤ d + us.count .lpar) ↔
          ∀ us, us <+: ts → (t :: us).count .rpar ≤ d + (t :: us).count .lpar := by
        intro n m
        constructor
        · intro h us hus
          exact h (t :: us) (List.cons_prefix_cons.2 ⟨rfl, hus⟩)
        · intro h us hus
          rcases List.prefix_cons_iff.1 hus with rfl | ⟨us', rfl, hus'⟩
          · simp
          · exact h us' hus'
      rw [hpre 0 0, depth]
      cases t with
      | lpar =>
          rw [Token.move, Option.bind_some, ih]
          simp only [List.count_cons_self, List.count_cons, beq_iff_eq, reduceCtorEq, if_false]
          constructor
          · rintro ⟨h1, h2⟩
            exact ⟨fun us hus => by have := h1 us hus; omega, by omega⟩
          · rintro ⟨h1, h2⟩
            exact ⟨fun us hus => by have := h1 us hus; omega, by omega⟩
      | rpar =>
          simp only [List.count_cons_self, List.count_cons, beq_iff_eq, reduceCtorEq, if_false]
          cases d with
          | zero =>
              simp only [Token.move, Option.bind_none, reduceCtorEq, false_iff, not_and]
              intro h
              have := h [] (List.nil_prefix)
              simp at this
          | succ d =>
              rw [Token.move, Option.bind_some, ih]
              constructor
              · rintro ⟨h1, h2⟩
                exact ⟨fun us hus => by have := h1 us hus; omega, by omega⟩
              · rintro ⟨h1, h2⟩
                exact ⟨fun us hus => by have := h1 us hus; omega, by omega⟩
      | _ =>
          rw [Token.move, Option.bind_some, ih] <;> simp

theorem balanced_iff_depth (ts : List Token) : Balanced ts ↔ depth 0 ts = some 0 := by
  rw [depth_eq_some_iff]
  simp [Balanced]

end Depth

end Parser

end Ylisp
