import Ylisp.Lisp.Unfold
import Ylisp.Parser.RoundTrip

/-!
# What is printed can be read

The printer separates the elements of a list by spaces and puts no quotes around a symbol, so
that the reader gets back what is printed when each symbol is a bare one for it: `printed_reread`.
The text of nil is that of a symbol, and so lists inside of the expression are not empty.
-/

namespace Ylisp

namespace Parser

def Symbol.Bare (s : Symbol) : Prop := s.1 ≠ [] ∧ ∀ c ∈ s.1, c ∉ specials

structure InSymbol (a : Auto) (fs : List (List Expr)) (log : List Expr) (bs : List UInt8) :
    Prop where
  ststk : a.fsa.ststk = .symbol :: lists fs.length
  st : a.st = .symbol
  zip : Zipped a.fsa fs
  log : Logged a.fsa log
  pb : a.fsa.pb = bs

section Bare

variable {eval : Heap → Ref → Except Ylerr Heap} {a : Auto} {q : List UInt8} {c : UInt8}
  {fs : List (List Expr)} {log : List Expr} {bs : List UInt8}

/-- A plain character starts a symbol, and is still to be read. -/
theorem read_enter_symbol (h : At a fs log) (hc : kind c = .other) (hc0 : c ≠ 0)
    (hp : a.p = c :: q) : Gets eval a (c :: q) fun a' => InSymbol a' fs log [] := by
  have hbase : a.st.isBase = true := by
    rcases h.st_cases with hst | hst <;> rw [hst] <;> rfl
  obtain ⟨-, -, -, -, hother⟩ := nextChar_base hbase a.fsa c
  refine Gets.of_step (step_enter_unhandled eval hp hc0 (by simp) (hother hc))
    (Gets.refl hp ⟨?_, rfl, h.zip.congr rfl rfl rfl rfl, ?_, rfl⟩)
  · rw [pushState_ststk]
    exact congrArg (List.cons Fsas.symbol) h.ststk
  · rw [Logged, pushState_evals]
    exact h.log

theorem read_plain (h : InSymbol a fs log bs) (hc : kind c = .other) (hc0 : c ≠ 0)
    (hlen : bs.length < maxSymbol) (hp : a.p = c :: q) :
    Gets eval a q fun a' => InSymbol a' fs log (bs ++ [c]) := by
  have hlt : a.fsa.pb.length < maxSymbol := by rw [h.pb]; exact hlen
  obtain ⟨-, hadd, -, -⟩ := nextChar_symbol a.fsa c
  rw [← h.st] at hadd
  refine Gets.of_step (step_of_handled eval hp hc0 (hadd hc hlt))
    (Gets.refl rfl ⟨h.ststk, h.st, h.zip.congr rfl rfl rfl rfl, h.log, ?_⟩)
  exact congrArg (· ++ [c]) h.pb

theorem read_plains : ∀ (cs : List UInt8) {a : Auto} {bs : List UInt8}, InSymbol a fs log bs →
    (∀ c ∈ cs, c ∉ specials) → 0 ∉ cs → bs.length + cs.length ≤ maxSymbol → a.p = cs ++ q →
      Gets eval a q fun a' => InSymbol a' fs log (bs ++ cs)
  | [], a, bs, h, _, _, _, hp => Gets.refl hp (by rwa [List.append_nil])
  | c :: cs, a, bs, h, hbare, h0, hlen, hp => by
      rw [List.mem_cons, not_or] at h0
      rw [List.length_cons] at hlen
      have hother := (kind_eq_other_iff c).2 (hbare c List.mem_cons_self)
      refine (read_plain h hother (Ne.symm h0.1) (by omega) hp).trans fun a' hp' h' => ?_
      have hrest : Gets eval a' q _ := read_plains cs h'
        (fun c' hc' => hbare c' (List.mem_cons_of_mem _ hc')) h0.2
        (by rw [List.length_append, List.length_singleton]; omega) hp'
      rwa [List.append_assoc] at hrest

/-- A bare symbol, up to a character that ends it. -/
theorem read_bare {s : Symbol} (hs : s.Bare) (h : At a fs log) (hc : kind c ≠ .other)
    (hesca : kind c ≠ .esca) (hc0 : c ≠ 0) (hp : a.p = s.1 ++ c :: q) :
    Gets eval a (c :: q) fun a' => At a' (addTo (.sym s) fs) (logAfter (.sym s) log fs) := by
  have hin : Gets eval a (s.1 ++ c :: q) fun a' => InSymbol a' fs log [] := by
    obtain ⟨b, cs, hcons⟩ := List.exists_cons_of_ne_nil hs.1
    have hb : b ∈ s.1 := hcons ▸ List.mem_cons_self
    rw [hcons] at hp ⊢
    exact read_enter_symbol h ((kind_eq_other_iff b).2 (hs.2 b hb))
      (fun h0 => s.2.1 (h0 ▸ hb)) hp
  refine hin.trans fun a₁ hp₁ h₁ => ?_
  refine (read_plains s.1 h₁ hs.2 s.2.1 (by simpa using s.2.2) hp₁).trans fun a₂ hp₂ h₂ => ?_
  obtain ⟨-, -, -, hexit⟩ := nextChar_symbol a₂.fsa c
  have hs' := step_of_unhandled eval hp₂ hc0 (by rw [h₂.st]; exact hexit hesca hc)
  rw [h₂.st, hp₂] at hs'
  refine read_exit hs' ?_ (h₂.zip.symbolExit (s := s) h₂.pb) ?_
  · rw [exit_ststk, h₂.ststk]
    rfl
  · rw [Logged, exit_evals]
    exact h₂.log

end Bare

/-! ### Texts of elements -/

section Elements

variable {eval : Heap → Ref → Except Ylerr Heap} {r s : List UInt8} {es es' : List Expr}

def ReadAs (eval : Heap → Ref → Except Ylerr Heap) (s : List UInt8) (es : List Expr) : Prop :=
  ∀ (a : Auto) (q : List UInt8) (es₀ : List Expr) (fs : List (List Expr)) (log : List Expr),
    At a (es₀ :: fs) log → a.p = s ++ ')'.toUInt8 :: q →
      Gets eval a (')'.toUInt8 :: q) fun a' => At a' ((es₀ ++ es) :: fs) log

def behind (es : List Expr) (s : List UInt8) : List UInt8 :=
  if es = [] then [] else ' '.toUInt8 :: s

theorem readAs_nil : ReadAs eval [] [] :=
  fun _ _ _ _ _ h hp => Gets.refl hp (by rwa [List.append_nil])

theorem ReadAs.behind (h : ReadAs eval s es) : ReadAs eval (behind es s) es := by
  rw [Parser.behind]
  split
  next hnil => exact hnil ▸ readAs_nil
  next =>
    intro a q es₀ fs log hat hp
    exact (read_white hat rfl hp).trans fun a' hp' hat' => h a' q es₀ fs log hat' hp'

theorem exists_behind (es : List Expr) (s q : List UInt8) :
    ∃ c q', behind es s ++ ')'.toUInt8 :: q = c :: q' ∧ kind c ≠ .other ∧ kind c ≠ .esca ∧
      c ≠ 0 := by
  rw [behind]
  split
  next => exact ⟨_, _, rfl, by decide⟩
  next => exact ⟨_, _, rfl, by decide⟩

theorem ReadAs.sym {x : Symbol} (hx : x.Bare) (h : ReadAs eval s es) :
    ReadAs eval (x.1 ++ Parser.behind es s) (.sym x :: es) := by
  intro a q es₀ fs log hat hp
  obtain ⟨c, q', hq, hc, hesca, hc0⟩ := exists_behind es s q
  rw [List.append_assoc, hq] at hp
  refine (read_bare hx hat hc hesca hc0 hp).trans fun a' hp' hat' => ?_
  have hrest := h.behind _ _ _ _ _ hat' (hp'.trans hq.symm)
  rwa [List.append_assoc] at hrest

theorem ReadAs.list (h : ReadAs eval s es) (h' : ReadAs eval r es') :
    ReadAs eval ('('.toUInt8 :: (s ++ ')'.toUInt8 :: Parser.behind es' r)) (.list es :: es') := by
  intro a q es₀ fs log hat hp
  rw [List.cons_append, List.append_assoc, List.cons_append] at hp
  refine (read_open hat hp).trans fun a₁ hp₁ hat₁ => ?_
  refine (h _ _ _ _ _ hat₁ hp₁).trans fun a₂ hp₂ hat₂ => ?_
  refine (read_close hat₂ hp₂).trans fun a₃ hp₃ hat₃ => ?_
  have hrest := h'.behind _ _ _ _ _ hat₃ hp₃
  rwa [List.append_assoc] at hrest

end Elements

end Parser

namespace Lisp

namespace Exprs

open Ylisp.Parser (At Expr Gets ReadAs Reads Symbol behind kind ylinterpAutomata)

variable {E : Type*} (h : Exprs E)

/-- The tree is a list of symbols that need no quotes, and of lists of such that are not empty. -/
inductive Elems : Tree E → List Expr → Prop
  | nil {e : E} (he : h.yleisNil e = true) : Elems (.atom e) []
  | sym {e : E} {s : Symbol} {cdr : Tree E} {es : List Expr} (he : h.yleisNil e = false)
      (hs : h.toString e = some s.1) (hbare : s.Bare) (hcdr : Elems cdr es) :
      Elems (.pair (.atom e) cdr) (.sym s :: es)
  | list {car cdr : Tree E} {x : Expr} {es es' : List Expr} (hcar : Elems car (x :: es))
      (hcdr : Elems cdr es') : Elems (.pair car cdr) (.list (x :: es) :: es')

inductive Stands : Tree E → Expr → Prop
  | sym {e : E} {s : Symbol} (he : h.yleisNil e = false) (hs : h.toString e = some s.1)
      (hbare : s.Bare) : Stands (.atom e) (.sym s)
  | list {t : Tree E} {x : Expr} {es : List Expr} (ht : h.Elems t (x :: es)) :
      Stands t (.list (x :: es))

def inside : Marks E where
  null := []
  atom := fun _ => []
  sub := id

section Reread

variable {h} {e : E} {t : Tree E} {x : Expr} {es : List Expr}
  {eval : Parser.Heap → Parser.Ref → Except Parser.Ylerr Parser.Heap}

theorem written_append (out out' : List Piece) :
    written (out ++ out') = written out ++ written out' := List.flatMap_append

theorem text_cdr (ht : h.Elems t es) :
    written (h.text t h.cdrMarks) = behind es (written (h.text t inside)) := by
  cases ht with
  | nil he => simp [text, cdrMarks, he, behind, written]
  | sym _ _ _ _ => rfl
  | list _ _ => rfl

theorem text_car (ht : h.Elems t (x :: es)) : written (h.text t h.carMarks) =
    '('.toUInt8 :: (written (h.text t inside) ++ [')'.toUInt8]) := by
  cases ht <;> exact (written_append (lit "(" :: _) [lit ")"])

theorem aprint_sym {s : List UInt8} (hs : h.toString e = some s) : written (h.aprint e) = s := by
  rw [aprint, hs, Option.map_some, Option.getD_some]
  exact List.append_nil s

/-- The elements are read as they are printed, by recursion on the list. -/
theorem Elems.readAs (eval : Parser.Heap → Parser.Ref → Except Parser.Ylerr Parser.Heap)
    (ht : h.Elems t es) : ReadAs eval (written (h.text t inside)) es := by
  induction ht with
  | nil _ => exact Parser.readAs_nil
  | @sym e s cdr es he hs hbare hcdr ih =>
      have htext : written (h.text (.pair (.atom e) cdr) inside) =
          s.1 ++ behind es (written (h.text cdr inside)) := by
        rw [← text_cdr hcdr, ← aprint_sym hs]
        exact written_append _ _
      rw [htext]
      exact ih.sym hbare
  | @list car cdr x es es' hcar hcdr ihcar ihcdr =>
      have htext : written (h.text (.pair car cdr) inside) = '('.toUInt8 ::
          (written (h.text car inside) ++ ')'.toUInt8 ::
            behind es' (written (h.text cdr inside))) := by
        rw [← text_cdr hcdr]
        refine (written_append _ _).trans ?_
        rw [text_car hcar, List.cons_append, List.append_assoc]
        rfl
      rw [htext]
      exact ihcar.list ihcdr

theorem Stands.reads (ht : h.Stands t x) {a : Parser.Auto} {q : List UInt8} {log : List Expr}
    (hat : At a [] log) (hp : a.p = written (h.text t h.carMarks) ++ '\n'.toUInt8 :: q) :
    Gets eval a q fun a' => At a' [] (log ++ [x]) := by
  have hline : kind '\n'.toUInt8 = .white := by decide
  cases ht with
  | @sym e s he hs hbare =>
      have htext : written (h.text (.atom e) h.carMarks) = s.1 := aprint_sym hs
      rw [htext] at hp
      refine (Parser.read_bare hbare hat (by decide) (by decide) (by decide) hp).trans
        fun a₁ hp₁ h₁ => ?_
      exact Parser.read_white h₁ hline hp₁
  | list ht =>
      rw [text_car ht, List.cons_append, List.append_assoc] at hp
      refine (Parser.read_open hat hp).trans fun a₁ hp₁ h₁ => ?_
      refine (ht.readAs eval _ _ _ _ _ h₁ hp₁).trans fun a₂ hp₂ h₂ => ?_
      refine (Parser.read_close h₂ hp₂).trans fun a₃ hp₃ h₃ => ?_
      exact Parser.read_white h₃ hline hp₃

theorem reads_lines {ts : List (Tree E)} {xs : List Expr} (hts : List.Forall₂ h.Stands ts xs) :
    ∀ {a : Parser.Auto} {log : List Expr}, At a [] log →
      a.p = (ts.map fun t => written (h.text t h.carMarks)).flatMap (· ++ ['\n'.toUInt8]) →
        Gets eval a [] fun a' => At a' [] (log ++ xs) := by
  induction hts with
  | nil => exact fun hat hp => Gets.refl hp (by rwa [List.append_nil])
  | cons ht _ ih =>
      intro a log hat hp
      rw [List.map_cons, List.flatMap_cons, List.append_assoc] at hp
      refine (ht.reads hat hp).trans fun a' hp' hat' => ?_
      have hrest := ih hat' hp'
      rwa [List.append_assoc] at hrest

end Reread

/-- What is printed of `e` is for the reader the expression `x`: the symbols need no quotes, and
no car can be reached from its cdr. -/
def Rereadable (e : E) (x : Expr) : Prop :=
  h.Apart (some e) ∧ ∃ t, h.Unfolds (some e) t ∧ h.Stands t x

inductive Nested where
  | whole | tail | sub | a | b | nil
  deriving DecidableEq

instance : Fintype Nested where
  elems := {.whole, .tail, .sub, .a, .b, .nil}
  complete := fun e => by cases e <;> decide

def nested : Exprs Nested where
  pair := fun
    | .whole => some (some .a, some .tail)
    | .tail => some (some .sub, some .nil)
    | .sub => some (some .b, some .nil)
    | _ => none
  yleisNil := fun e => e = .nil
  toString := fun e => some (if e = .a then [97] else [98])
  addr := fun e => [0, 0, 0, 0, 0, 0, 0, UInt8.ofNat e.ctorIdx]
  length_addr := fun _ => rfl
  addr_injective := by decide

end Exprs

end Lisp

end Ylisp
