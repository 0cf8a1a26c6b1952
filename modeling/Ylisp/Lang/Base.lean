import Mathlib.Algebra.Order.Ring.Nat
import Ylisp.Lang.Evals

/-!
# The functions of `base.yl` and `ext.yl`

The library of the language, as the symbol table holds it after the two files: `defun` binds a name
to a form of flabel, as a macro, and `cond`, `and` and `or` are forms of mlambda without parameters.
The functions on numbers and types are left out, and so are the ones that assign.

A name means the same inside of a function as outside: `Knows` holds of the environment that a
function is evaluated in (`knows_env`).
-/

namespace Ylisp

namespace Lang

open Mempool Eval

variable {n : ℕ}

/-! ### Expressions -/

def call (f : String) (ts : List (Tree n)) : Tree n := .pair (.sym (cstr f)) (.list ts)

def var (s : String) : Tree n := .sym (cstr s)

def quote (t : Tree n) : Tree n := call "quote" [t]

def clauses (cl : List (Tree n × Tree n)) : List (Tree n) := cl.map fun w => .list [w.1, w.2]

/-- `(cond (t₁ u₁) … (tₙ uₙ))`. -/
def cond (cl : List (Tree n × Tree n)) : Tree n := call "cond" (clauses cl)

/-- `(mlambda () (apply f))`. -/
def applied (f : String) : Tree n :=
  .list [.sym (cstr "mlambda"), .nil, call "apply" [var f]]

structure Defun (n : ℕ) where
  name : List UInt8
  params : List (List UInt8)
  body : Tree n

namespace Defun

/-- `(flabel name params body)`. -/
def form (F : Defun n) : Tree n := flabelForm F.name F.params F.body .nil

def env (F : Defun n) (vs : List (Tree n)) : Locals n := (F.name, F.form) :: F.params.zip vs

end Defun

/-- `(defun name params body)`. -/
def defun (name : String) (params : List String) (body : Tree n) : Defun n :=
  ⟨cstr name, params.map cstr, body⟩

/-! ### Sizes -/

section Pairs

variable {ts : List (Tree n)} {t : Tree n}

theorem Tree.pairs_list (ts : List (Tree n)) :
    (Tree.list ts).pairs = (ts.map Tree.pairs).sum + ts.length := by
  induction ts with
  | nil => rfl
  | cons t ts ih =>
      rw [list, pairs, ih, List.map_cons, List.sum_cons, List.length_cons]
      omega

@[simp]
theorem pairs_call (f : String) : (call f ts).pairs = (ts.map Tree.pairs).sum + ts.length + 1 := by
  rw [call, Tree.pairs, Tree.pairs_list, Tree.pairs_of_isAtom rfl, Nat.zero_add]

@[simp]
theorem pairs_var (s : String) : (var s : Tree n).pairs = 0 := rfl

@[simp]
theorem pairs_nil : (.nil : Tree n).pairs = 0 := rfl

@[simp]
theorem pairs_quote : (quote t).pairs = t.pairs + 2 := by
  simp [quote]

@[simp]
theorem pairs_cond (cl : List (Tree n × Tree n)) :
    (cond cl).pairs = (cl.map fun w => w.1.pairs + w.2.pairs + 3).sum + 1 := by
  rw [cond, pairs_call, clauses, List.map_map, List.length_map]
  induction cl with
  | nil => rfl
  | cons w cl ih =>
      have hw : (Tree.list [w.1, w.2]).pairs = w.1.pairs + w.2.pairs + 2 := by
        rw [Tree.pairs_list]
        rfl
      simp only [List.map_cons, List.sum_cons, List.length_cons, Function.comp_apply, hw] at ih ⊢
      omega

@[simp]
theorem Defun.pairs_form (F : Defun n) : F.form.pairs = F.body.pairs + F.params.length + 4 := by
  have hparams : ((F.params.map Tree.sym).map (Tree.pairs (n := n))).sum = 0 := by
    rw [List.map_map]
    exact List.sum_eq_zero fun x hx => by
      obtain ⟨s, -, rfl⟩ := List.mem_map.1 hx
      rfl
  rw [form, flabelForm, Tree.pairs, Tree.pairs, Tree.pairs, Tree.pairs, Tree.pairs_list, hparams,
    List.length_map]
  simp only [Tree.pairs]
  omega

end Pairs

/-! ### The functions -/

namespace Base

def cxxr (name outer inner : String) : Defun n :=
  defun name ["e"] (cond
    [(call "or" [call "atom" [var "e"], call "atom" [call inner [var "e"]]], quote .nil),
      (quote (var "t"), call outer [call inner [var "e"]])])

def cxxxr (name outer inner : String) : Defun n :=
  defun name ["e"] (cond
    [(call "atom" [call inner [var "e"]], quote .nil),
      (quote (var "t"), call outer [call inner [var "e"]])])

def caar : Defun n := cxxr "caar" "car" "car"
def cadr : Defun n := cxxr "cadr" "car" "cdr"
def cdar : Defun n := cxxr "cdar" "cdr" "car"
def cddr : Defun n := cxxr "cddr" "cdr" "cdr"
def caaar : Defun n := cxxxr "caaar" "car" "caar"
def caadr : Defun n := cxxxr "caadr" "car" "cadr"
def cadar : Defun n := cxxxr "cadar" "car" "cdar"
def caddr : Defun n := cxxxr "caddr" "car" "cddr"
def cdaar : Defun n := cxxxr "cdaar" "cdr" "caar"
def cdadr : Defun n := cxxxr "cdadr" "cdr" "cadr"
def cddar : Defun n := cxxxr "cddar" "cdr" "cdar"
def cdddr : Defun n := cxxxr "cdddr" "cdr" "cddr"
def caaaar : Defun n := cxxxr "caaaar" "car" "caaar"
def caaadr : Defun n := cxxxr "caaadr" "car" "caadr"
def caadar : Defun n := cxxxr "caadar" "car" "cadar"
def caaddr : Defun n := cxxxr "caaddr" "car" "caddr"
def cadaar : Defun n := cxxxr "cadaar" "car" "cdaar"
def cadadr : Defun n := cxxxr "cadadr" "car" "cdadr"
def caddar : Defun n := cxxxr "caddar" "car" "cddar"
def cadddr : Defun n := cxxxr "cadddr" "car" "cdddr"
def cdaaar : Defun n := cxxxr "cdaaar" "cdr" "caaar"
def cdaadr : Defun n := cxxxr "cdaadr" "cdr" "caadr"
def cdadar : Defun n := cxxxr "cdadar" "cdr" "cadar"
def cdaddr : Defun n := cxxxr "cdaddr" "cdr" "caddr"
def cddaar : Defun n := cxxxr "cddaar" "cdr" "cdaar"
def cddadr : Defun n := cxxxr "cddadr" "cdr" "cdadr"
def cdddar : Defun n := cxxxr "cdddar" "cdr" "cddar"
def cddddr : Defun n := cxxxr "cddddr" "cdr" "cdddr"

def not : Defun n :=
  defun "not" ["e"] (cond [(var "e", quote .nil), (quote (var "t"), quote (var "t"))])

def ff : Defun n :=
  defun "ff" ["e"] (cond [(call "atom" [var "e"], var "e"),
    (quote (var "t"), call "ff" [call "car" [var "e"]])])

def subst : Defun n :=
  defun "subst" ["pARAM", "aRG", "e"] (cond
    [(call "atom" [var "e"],
        cond [(call "equal" [var "e", var "aRG"], var "pARAM"), (quote (var "t"), var "e")]),
      (quote (var "t"), call "cons"
        [call "subst" [var "pARAM", var "aRG", call "car" [var "e"]],
          call "subst" [var "pARAM", var "aRG", call "cdr" [var "e"]]])])

def append : Defun n :=
  defun "append" ["base", "e"] (cond
    [(call "null" [var "base"], var "e"),
      (quote (var "t"), call "cons"
        [call "car" [var "base"], call "append" [call "cdr" [var "base"], var "e"]])])

def among : Defun n :=
  defun "among" ["x", "e"] (cond
    [(call "null" [var "e"], quote .nil),
      (quote (var "t"), call "or"
        [call "and" [call "not" [call "null" [var "x"]],
            call "equal" [var "x", call "car" [var "e"]]],
          call "among" [var "x", call "cdr" [var "e"]]])])

def pair : Defun n :=
  defun "pair" ["x", "y"] (cond
    [(call "and" [call "null" [var "x"], call "null" [var "y"]], quote .nil),
      (call "and" [call "not" [call "atom" [var "x"]], call "not" [call "atom" [var "y"]]],
        call "cons"
          [call "list" [call "car" [var "x"], call "car" [var "y"]],
            call "pair" [call "cdr" [var "x"], call "cdr" [var "y"]]])])

def first : Defun n :=
  defun "first" ["L"] (cond [(call "null" [var "L"], quote .nil),
    (quote (var "t"), call "car" [var "L"])])

def rest : Defun n :=
  defun "rest" ["L"] (cond [(call "null" [var "L"], quote .nil),
    (quote (var "t"), call "cdr" [var "L"])])

def last : Defun n :=
  defun "last" ["L"] (cond
    [(call "null" [var "L"], quote .nil),
      (call "null" [call "cdr" [var "L"]], call "cons" [call "car" [var "L"], quote .nil]),
      (quote (var "t"), call "last" [call "cdr" [var "L"]])])

def member : Defun n :=
  defun "member" ["e", "L"] (cond
    [(call "null" [var "L"], quote .nil),
      (call "equal" [var "e", call "first" [var "L"]], quote (var "t")),
      (quote (var "t"), call "member" [var "e", call "rest" [var "L"]])])

def lclone : Defun n :=
  defun "lclone" ["E"] (cond
    [(call "atom" [var "E"], var "E"),
      (quote (var "t"), call "cons"
        [call "lclone" [call "car" [var "E"]], call "lclone" [call "cdr" [var "E"]]])])

def mapcar : Defun n :=
  defun "mapcar" ["f", "L"] (cond
    [(call "not" [call "null" [var "L"]], call "cons"
        [call "eval" [call "list" [var "f", call "car" [var "L"]]],
          call "mapcar" [var "f", call "cdr" [var "L"]]]),
      (quote (var "t"), quote .nil)])

/-- The functions `caar` to `cddddr`, with the selections that their names spell. -/
def cxrs : List (List Side × Defun n) :=
  [([.car, .car], caar), ([.car, .cdr], cadr), ([.cdr, .car], cdar), ([.cdr, .cdr], cddr),
    ([.car, .car, .car], caaar), ([.car, .car, .cdr], caadr), ([.car, .cdr, .car], cadar),
    ([.car, .cdr, .cdr], caddr), ([.cdr, .car, .car], cdaar), ([.cdr, .car, .cdr], cdadr),
    ([.cdr, .cdr, .car], cddar), ([.cdr, .cdr, .cdr], cdddr), ([.car, .car, .car, .car], caaaar),
    ([.car, .car, .car, .cdr], caaadr), ([.car, .car, .cdr, .car], caadar),
    ([.car, .car, .cdr, .cdr], caaddr), ([.car, .cdr, .car, .car], cadaar),
    ([.car, .cdr, .car, .cdr], cadadr), ([.car, .cdr, .cdr, .car], caddar),
    ([.car, .cdr, .cdr, .cdr], cadddr), ([.cdr, .car, .car, .car], cdaaar),
    ([.cdr, .car, .car, .cdr], cdaadr), ([.cdr, .car, .cdr, .car], cdadar),
    ([.cdr, .car, .cdr, .cdr], cdaddr), ([.cdr, .cdr, .car, .car], cddaar),
    ([.cdr, .cdr, .car, .cdr], cddadr), ([.cdr, .cdr, .cdr, .car], cdddar),
    ([.cdr, .cdr, .cdr, .cdr], cddddr)]

def lists : List (Defun n) :=
  [not, ff, subst, append, among, pair, first, rest, last, member, mapcar, lclone]

end Base

namespace Ext

def prIs : Defun n :=
  defun "pr?" ["PAIR", "key"] (cond
    [(call "null" [var "PAIR"], quote .nil),
      (call "equal" [var "key", call "caar" [var "PAIR"]], quote (var "t")),
      (quote (var "t"), call "pr?" [call "cdr" [var "PAIR"], var "key"])])

def prDel : Defun n :=
  defun "pr-" ["PAIR", "key"] (cond
    [(call "null" [var "PAIR"], quote .nil),
      (call "equal" [var "key", call "caar" [var "PAIR"]],
        call "pr-" [call "cdr" [var "PAIR"], var "key"]),
      (quote (var "t"), call "cons"
        [call "car" [var "PAIR"], call "pr-" [call "cdr" [var "PAIR"], var "key"]])])

/-- `(cons (list key value) '())`. -/
def property : Tree n := call "cons" [call "list" [var "key", var "value"], quote .nil]

def prAdd : Defun n :=
  defun "pr+" ["PAIR", "key", "value"] (cond
    [(call "equal" [var "PAIR", quote .nil], property),
      (quote (var "t"), call "progn"
        [cond [(call "pr?" [var "PAIR", var "key"],
            call "append" [property, call "pr-" [var "PAIR", var "key"]]),
          (quote (var "t"), call "append" [property, var "PAIR"])]])])

def prGet : Defun n :=
  defun "pr*" ["PAIR", "key"] (cond
    [(call "null" [var "PAIR"], quote .nil),
      (call "equal" [var "key", call "caar" [var "PAIR"]], call "cadar" [var "PAIR"]),
      (quote (var "t"), call "pr*" [call "cdr" [var "PAIR"], var "key"])])

def prFromList : Defun n :=
  defun "pr-from-list" ["P", "L", "V"] (cond
    [(call "not" [call "null" [var "L"]], call "pr-from-list"
        [call "pr+" [var "P", call "car" [var "L"], var "V"], call "cdr" [var "L"], var "V"]),
      (quote (var "t"), var "P")])

def properties : List (Defun n) := [prIs, prDel, prAdd, prGet, prFromList]

end Ext

/-! ### The library -/

namespace Yls

def functions : List (Defun n) := Base.cxrs.map Prod.snd ++ (Base.lists ++ Ext.properties)

def natives : List (List UInt8 × Obj n) :=
  [(cstr "quote", .sfunc .quote), (cstr "apply", .sfunc .apply), (cstr "progn", .sfunc .progn),
    (cstr "eval", .nfunc .eval), (cstr "f-cond", .nfunc .fCond), (cstr "f-and", .nfunc .fAnd),
    (cstr "f-or", .nfunc .fOr)] ++
  [.eq, .equal, .atom, .car, .cdr, .cons, .null, .list].map fun f : Nfunc =>
    (f.sym, .nfunc (.other f.code))

def macros : List (List UInt8 × Tree n) :=
  [(cstr "cond", applied "f-cond"), (cstr "and", applied "f-and"), (cstr "or", applied "f-or")]

end Yls

/-! ### What the names mean -/

theorem mem_of_cxrs {w : List Side × Defun n} (h : w ∈ Base.cxrs) : w.2 ∈ Yls.functions :=
  List.mem_append_left _ (List.mem_map_of_mem h)

theorem mem_of_lists {F : Defun n} (h : F ∈ Base.lists) : F ∈ Yls.functions :=
  List.mem_append_right _ (List.mem_append_left _ h)

theorem mem_of_properties {F : Defun n} (h : F ∈ Ext.properties) : F ∈ Yls.functions :=
  List.mem_append_right _ (List.mem_append_right _ h)

structure Loaded (names : Set (List UInt8)) (Γ : Globals n) : Prop where
  natives : ∀ w ∈ Yls.natives (n := n), Γ w.1 = some (false, .atom w.2)
  macros : ∀ w ∈ Yls.macros (n := n), Γ w.1 = some (true, w.2)
  functions : ∀ F ∈ Yls.functions (n := n), Γ F.name = some (true, F.form)
  mem_names : ∀ F ∈ Yls.functions (n := n), F.name ∈ names
  params : ∀ F ∈ Yls.functions (n := n), ∀ s ∈ F.params, s ∉ names

/-- The names mean in an environment what the library says. -/
structure Knows (names : Set (List UInt8)) (Γ : Globals n) (ρ : Locals n) : Prop where
  natives : ∀ w ∈ Yls.natives, Found names Γ ρ w.1 false (.atom w.2)
  macros : ∀ w ∈ Yls.macros, Found names Γ ρ w.1 true w.2
  functions : ∀ F ∈ Yls.functions, Found names Γ ρ F.name true F.form

section Knows

variable {names : Set (List UInt8)} {Γ : Globals n} {ρ : Locals n}

theorem knows_of_lookup (h : Loaded names Γ)
    (hnatives : ∀ w ∈ Yls.natives (n := n), ρ.lookup w.1 = none)
    (hmacros : ∀ w ∈ Yls.macros (n := n), ρ.lookup w.1 = none)
    (hfunctions : ∀ F ∈ Yls.functions, Found names Γ ρ F.name true F.form) : Knows names Γ ρ :=
  ⟨fun w hw => .global (hnatives w hw) (h.natives w hw),
    fun w hw => .global (hmacros w hw) (h.macros w hw), hfunctions⟩

theorem knows_nil (h : Loaded names Γ) : Knows names Γ [] :=
  knows_of_lookup h (fun _ _ => rfl) (fun _ _ => rfl) fun F hF => .global rfl (h.functions F hF)

theorem lookup_zip_eq_none {s : List UInt8} {ss : List (List UInt8)} (hs : s ∉ ss)
    (vs : List (Tree n)) : (ss.zip vs).lookup s = none := by
  induction ss generalizing vs with
  | nil => rfl
  | cons s' ss ih =>
      obtain ⟨hne, hs⟩ := not_or.1 (mt List.mem_cons.2 hs)
      cases vs with
      | nil => rfl
      | cons v vs => rw [List.zip_cons_cons, List.lookup_cons, beq_eq_false_iff_ne.2 hne, ih hs]

theorem Defun.lookup_env {F : Defun n} {s : List UInt8} (hne : s ≠ F.name) (hs : s ∉ F.params)
    (vs : List (Tree n)) : (F.env vs).lookup s = none := by
  rw [Defun.env, List.lookup_cons, beq_eq_false_iff_ne.2 hne, lookup_zip_eq_none hs]

def Defun.header (F : Defun n) : List UInt8 × List (List UInt8) := (F.name, F.params)

theorem disjoint_headers : ∀ h ∈ (Yls.functions (n := 0)).map Defun.header,
    ∀ s ∈ (Yls.natives (n := 0)).map Prod.fst ++ (Yls.macros (n := 0)).map Prod.fst,
      s ≠ h.1 ∧ s ∉ h.2 := by
  decide +kernel

theorem disjoint_functions {F : Defun n} (hF : F ∈ Yls.functions) {s : List UInt8}
    (hs : s ∈ Yls.natives.map (Prod.fst (β := Obj n)) ++ Yls.macros.map (Prod.fst (β := Tree n))) :
    s ≠ F.name ∧ s ∉ F.params :=
  disjoint_headers F.header (List.mem_map_of_mem (f := Defun.header) hF) s hs

theorem nodup_names : ((Yls.functions (n := 0)).map Defun.name).Nodup := by
  decide +kernel

/-- The names mean the same where a function is evaluated. -/
theorem knows_env (h : Loaded names Γ) {F : Defun n} (hF : F ∈ Yls.functions)
    (vs : List (Tree n)) : Knows names Γ (F.env vs) := by
  have hnone : ∀ s ∈ Yls.natives.map (Prod.fst (β := Obj n)) ++
      Yls.macros.map (Prod.fst (β := Tree n)), (F.env vs).lookup s = none := fun s hs =>
    F.lookup_env (disjoint_functions hF hs).1 (disjoint_functions hF hs).2 vs
  refine knows_of_lookup h
    (fun w hw => hnone _ (List.mem_append_left _ (List.mem_map_of_mem hw)))
    (fun w hw => hnone _ (List.mem_append_right _ (List.mem_map_of_mem hw))) fun G hG => ?_
  have hmem : G.name ∈ names := h.mem_names G hG
  by_cases hGF : G.name = F.name
  · have hnodup : (Yls.functions.map (Defun.name (n := n))).Nodup := nodup_names
    obtain rfl : G = F := List.inj_on_of_nodup_map hnodup hG hF hGF
    exact .mac (by rw [Defun.env, List.lookup_cons, beq_self_eq_true]) hmem
  · have hparams : G.name ∉ F.params := fun hs => h.params F hF _ hs hmem
    exact .global (F.lookup_env hGF hparams vs) (h.functions G hG)

end Knows

end Lang

end Ylisp
