import Ylisp.Eval.Tables
import Ylisp.Lang.Base
import Ylisp.Lang.Sound

/-!
# Definitions in a pool

A pool that holds an expression and the definitions of a table: each tree is laid out from its
first block on, and the symbol table leads to the definitions (`loaded`). Such a pool is ready for
the evaluation of the expression (`starts_load`).
-/

namespace Ylisp

namespace Lang

open Mempool Eval

variable {n : ℕ}

/-! ### Layout -/

namespace Tree

def size : Tree n → ℕ
  | pair t u => t.size + u.size + 1
  | atom _ => 1
  | _ => 0

def stored : Tree n → Bool
  | nil => true
  | atom (.sym _) | atom (.nfunc _) | atom (.sfunc _) => true
  | pair t u => t.stored && u.stored
  | _ => false

theorem stored_atom {o : Obj n} (h : (atom o).stored = true) :
    o.isAtom = true ∧ o.isFixed = true ∧ ∀ u, plain u o = true := by
  cases o with
  | sym s => exact ⟨rfl, rfl, fun _ => rfl⟩
  | nfunc f => exact ⟨rfl, rfl, fun _ => rfl⟩
  | sfunc f => exact ⟨rfl, rfl, fun _ => rfl⟩
  | _ => cases h

variable [NeZero n]

def home (i : ℕ) : Tree n → Ref n
  | pair _ _ | atom _ => .blk (Fin.ofNat n i)
  | _ => ylnil

def objs (i : ℕ) : Tree n → List (Obj n)
  | pair t u => .pair (.at (t.home (i + 1))) (.at (u.home (i + 1 + t.size))) ::
      (t.objs (i + 1) ++ u.objs (i + 1 + t.size))
  | atom o => [o]
  | _ => []

theorem length_objs (i : ℕ) (t : Tree n) : (t.objs i).length = t.size := by
  induction t generalizing i with
  | pair t u iht ihu => rw [objs, List.length_cons, List.length_append, iht, ihu, size]
  | _ => rfl

theorem below_home {i u : ℕ} (t : Tree n) (h : i + t.size ≤ u) (hu : u ≤ n) :
    below u (t.home i) = true := by
  have hlt : ∀ m, i + (m + 1) ≤ u → below u (.blk (Fin.ofNat n i) : Ref n) = true := by
    intro m hm
    refine decide_eq_true ?_
    rw [Fin.ofNat_eq_cast, Fin.val_natCast, Nat.mod_eq_of_lt (by omega)]
    omega
  cases t with
  | pair t u => exact hlt (t.size + u.size) h
  | atom o => exact hlt 0 h
  | _ => rfl

theorem plain_objs {i u : ℕ} {t : Tree n} (ht : t.stored = true) (h : i + t.size ≤ u)
    (hu : u ≤ n) : ∀ o ∈ t.objs i, plain u o = true := by
  induction t generalizing i with
  | pair t₁ t₂ ih₁ ih₂ =>
      obtain ⟨ht₁, ht₂⟩ := Bool.and_eq_true_iff.1 ht
      rw [size] at h
      intro o ho
      rcases List.mem_cons.1 ho with rfl | ho
      · exact Bool.and_eq_true_iff.2 ⟨t₁.below_home (by omega) hu, t₂.below_home (by omega) hu⟩
      · rcases List.mem_append.1 ho with ho | ho
        · exact ih₁ ht₁ (by omega) o ho
        · exact ih₂ ht₂ (by omega) o ho
  | atom o =>
      intro o' ho
      rw [List.mem_singleton.1 ho]
      exact (stored_atom ht).2.2 u
  | _ => exact fun o ho => absurd ho List.not_mem_nil

end Tree

section Layout

variable [NeZero n] {p : Pool n} {i : ℕ} {t : Tree n} {os os' : List (Obj n)}

def Has (p : Pool n) (i : ℕ) (os : List (Obj n)) : Prop :=
  ∀ j o, os[j]? = some o → p.obj (.blk (Fin.ofNat n (i + j))) = o

theorem Has.head {o : Obj n} (h : Has p i (o :: os)) : p.obj (.blk (Fin.ofNat n i)) = o := h 0 o rfl

theorem Has.tail {o : Obj n} (h : Has p i (o :: os)) : Has p (i + 1) os := fun j o' ho => by
  rw [Nat.add_assoc, Nat.add_comm 1]
  exact h (j + 1) o' ho

theorem Has.left (h : Has p i (os ++ os')) : Has p i os := fun j o ho =>
  h j o (List.getElem?_append_left (List.getElem?_eq_some_iff.1 ho).1 ▸ ho)

theorem Has.right (h : Has p i (os ++ os')) : Has p (i + os.length) os' := fun j o ho => by
  rw [Nat.add_assoc]
  refine h _ o ?_
  rw [List.getElem?_append_right (Nat.le_add_right _ _), Nat.add_sub_cancel_left, ho]

theorem denotes_home (ht : t.stored = true) (h : Has p i (t.objs i)) : Denotes p (t.home i) t := by
  induction t generalizing i with
  | nil => exact .nil
  | atom o =>
      obtain ⟨hatom, hfixed, -⟩ := Tree.stored_atom ht
      exact .atom h.head hatom hfixed (by simp [Tree.home, ylnil])
  | ref r => cases ht
  | pair t u iht ihu =>
      obtain ⟨ht, hu⟩ := Bool.and_eq_true_iff.1 ht
      have hright := h.tail.right
      rw [Tree.length_objs] at hright
      exact .pair h.head (iht ht h.tail.left) (ihu hu hright)

theorem has_poolOf (l₁ os os' : List (Obj n)) (gsym : Slut n)
    (hlen : (l₁ ++ os ++ os').length ≤ n) :
    Has (poolOf n (l₁ ++ os ++ os') gsym) l₁.length os := by
  intro j o ho
  obtain ⟨hj, hget⟩ := List.getElem?_eq_some_iff.1 ho
  rw [List.length_append, List.length_append] at hlen
  have hval : (Fin.ofNat n (l₁.length + j)).val = l₁.length + j := by
    rw [Fin.ofNat_eq_cast, Fin.val_natCast, Nat.mod_eq_of_lt (by omega)]
  have hobj : (l₁ ++ os ++ os')[l₁.length + j]? = some o := by
    rw [List.append_assoc, List.getElem?_append_right (Nat.le_add_right _ _),
      Nat.add_sub_cancel_left, List.getElem?_append_left hj, ho]
  show ((poolOf n (l₁ ++ os ++ os') gsym).blk _).obj = o
  simp only [poolOf, hval, hobj]

end Layout

/-! ### Tables -/

abbrev Definition (n : ℕ) := List UInt8 × Bool × Tree n

section Tables

variable {ds : List (Definition n)} {s : List UInt8} {x : Bool × Tree n}

theorem lookup_of_mem (h : (s, x) ∈ ds) (hnodup : (ds.map Prod.fst).Nodup) :
    ds.lookup s = some x := by
  induction ds with
  | nil => cases h
  | cons w ds ih =>
      obtain ⟨hw, hnodup⟩ := List.nodup_cons.1 hnodup
      rw [List.lookup_cons]
      rcases List.mem_cons.1 h with rfl | h
      · rw [beq_self_eq_true]
      · have hne : s ≠ w.1 := by
          rintro rfl
          exact hw (List.mem_map.2 ⟨_, h, rfl⟩)
        rw [beq_eq_false_iff_ne.2 hne]
        exact ih h hnodup

theorem ylsluGet_ylsluInsert (t : Slut n) {s' : List UInt8} (hs : s ≠ [])
    (hlen : s.length < Trie.maxKeyLen) (ty : ℕ) (r : Ref n) :
    ylsluGet (ylsluInsert t s ty r) s' = if s' = s then some (ty, r) else ylsluGet t s' := by
  rw [ylsluGet, entries_ylsluInsert hs hlen, Function.update_apply]
  split <;> rfl

variable [NeZero n]

def Definition.ty (w : Definition n) : ℕ := if w.2.1 then symMac else symDef

def layout (i : ℕ) : List (Definition n) → List (Obj n)
  | [] => []
  | w :: ds => w.2.2.objs i ++ layout (i + w.2.2.size) ds

def table (i : ℕ) : List (Definition n) → Slut n
  | [] => Trie.yltrieCreate
  | w :: ds => ylsluInsert (table (i + w.2.2.size) ds) w.1 w.ty (w.2.2.home i)

def sizes (ds : List (Definition n)) : ℕ := (ds.map fun w => w.2.2.size).sum

def Storable (ds : List (Definition n)) : Prop :=
  ∀ w ∈ ds, w.1 ≠ [] ∧ w.1.length < Trie.maxKeyLen ∧ w.2.2.stored = true

instance : DecidablePred (Storable (n := n)) := fun _ =>
  inferInstanceAs (Decidable (∀ w ∈ _, _))

theorem length_layout (i : ℕ) (ds : List (Definition n)) : (layout i ds).length = sizes ds := by
  induction ds generalizing i with
  | nil => rfl
  | cons w ds ih =>
      rw [layout, List.length_append, Tree.length_objs, ih]
      rfl

theorem get_table {i : ℕ} {p : Pool n} (hds : Storable ds) (h : Has p i (layout i ds))
    (hs : ds.lookup s = some x) : ∃ r, ylsluGet (table i ds) s =
      some (if x.1 then symMac else symDef, r) ∧ Denotes p r x.2 := by
  induction ds generalizing i with
  | nil => cases hs
  | cons w ds ih =>
      obtain ⟨⟨hne, hlen, hstored⟩, hds⟩ := List.forall_mem_cons.1 hds
      rw [layout] at h
      rw [table, ylsluGet_ylsluInsert _ hne hlen]
      rw [List.lookup_cons] at hs
      by_cases hw : s = w.1
      · rw [if_pos hw]
        rw [hw, beq_self_eq_true] at hs
        obtain rfl := Option.some.inj hs
        exact ⟨_, rfl, denotes_home hstored h.left⟩
      · rw [if_neg hw]
        rw [beq_eq_false_iff_ne.2 hw] at hs
        have hright := h.right
        rw [Tree.length_objs] at hright
        exact ih hds hright hs

theorem plain_layout {i u : ℕ} (hds : Storable ds) (h : i + sizes ds ≤ u) (hu : u ≤ n) :
    ∀ o ∈ layout i ds, plain u o = true := by
  induction ds generalizing i with
  | nil => exact fun o ho => absurd ho List.not_mem_nil
  | cons w ds ih =>
      obtain ⟨⟨-, -, hstored⟩, hds⟩ := List.forall_mem_cons.1 hds
      rw [sizes, List.map_cons, List.sum_cons] at h
      intro o ho
      rcases List.mem_append.1 ho with ho | ho
      · exact Tree.plain_objs hstored (by omega) hu o ho
      · exact ih hds (by rw [sizes]; omega) o ho

theorem below_table {i u : ℕ} (h : i + sizes ds ≤ u) (hu : u ≤ n) {v : Value n} {r : Ref n}
    (hv : v ∈ (table i ds).values) (hr : v.e = some r) : below u r = true := by
  induction ds generalizing i with
  | nil =>
      rw [table, Trie.values_yltrieCreate] at hv
      cases hv
  | cons w ds ih =>
      rw [sizes, List.map_cons, List.sum_cons] at h
      rcases Trie.mem_values_yltrieInsert hv with rfl | hv
      · obtain rfl := Option.some.inj hr
        exact w.2.2.below_home (by omega) hu
      · exact ih (by rw [sizes]; omega) hv

end Tables

/-! ### The start of an evaluation -/

structure Starts (c : Etcxt n) (names : Set (List UInt8)) (Γ : Globals n) (s : State n)
    (t : Tree n) (ρ : Locals n) (d : ℕ) : Prop where
  kept : Kept s
  eval : ∃ e a, s.ctl = .eval e a ∧ Denotes s.pool e t ∧ Ready c names Γ s.pool a ρ d

section Start

variable [NeZero n] {t : Tree n} {ds : List (Definition n)} {d : ℕ} {names : Set (List UInt8)}

def image (t : Tree n) (ds : List (Definition n)) : Pool n :=
  poolOf n (t.objs 0 ++ layout t.size ds) (table t.size ds)

def globals (ds : List (Definition n)) : Globals n := fun s => ds.lookup s

theorem image_good (ht : t.stored = true) (hds : Storable ds) (hlen : t.size + sizes ds ≤ n) :
    (image t ds).Good := by
  have hlen' : (t.objs 0 ++ layout t.size ds).length = t.size + sizes ds := by
    rw [List.length_append, Tree.length_objs, length_layout]
  have hplain : ∀ o ∈ t.objs 0 ++ layout t.size ds,
      plain (t.objs 0 ++ layout t.size ds).length o = true := by
    intro o ho
    rw [hlen']
    rcases List.mem_append.1 ho with ho | ho
    · exact Tree.plain_objs ht (by omega) hlen o ho
    · exact plain_layout hds le_rfl hlen o ho
  have hempty : (poolOf n (t.objs 0 ++ layout t.size ds) (symtab [])).Good :=
    poolOf_good (hlen'.trans_le hlen) hplain (fun _ h => absurd h List.not_mem_nil)
  refine hempty.congr rfl (fun _ => rfl) fun r hr => ?_
  obtain ⟨t', ht', hr⟩ := List.mem_flatMap.1 hr
  obtain ⟨v, hv, he⟩ := List.mem_filterMap.1 hr
  rw [show t' = table t.size ds from List.mem_singleton.1 ht'] at hv
  have hbelow := below_table le_rfl hlen hv he
  cases r with
  | stat s => trivial
  | blk b =>
      refine (poolOf_used (hlen'.trans_le hlen) b _).2 ?_
      rw [hlen']
      exact of_decide_eq_true hbelow

theorem image_has (hlen : t.size + sizes ds ≤ n) :
    Has (image t ds) 0 (t.objs 0) ∧ Has (image t ds) t.size (layout t.size ds) := by
  have hlen' : (t.objs 0 ++ layout t.size ds).length = t.size + sizes ds := by
    rw [List.length_append, Tree.length_objs, length_layout]
  constructor
  · refine has_poolOf [] (t.objs 0) (layout t.size ds) (table t.size ds) ?_
    rw [List.nil_append, hlen']
    exact hlen
  · have h := has_poolOf (t.objs 0) (layout t.size ds) [] (table t.size ds)
    rw [List.append_nil, hlen', Tree.length_objs] at h
    exact h hlen

theorem image_holds (hds : Storable ds) (hlen : t.size + sizes ds ≤ n) :
    Holds (plainCxt n false) (image t ds) (globals ds) := by
  intro s mac t' hs
  obtain ⟨r, hget, hr⟩ := get_table hds (image_has hlen).2 hs
  refine ⟨if mac then symMac else symDef, r, ?_, ?_, hr⟩
  · have hnone : ylsluGet (Trie.yltrieCreate : Slut n) s = none := by
      rw [ylsluGet, Trie.get_yltrieCreate]
      rfl
    show (ylsluGet (Trie.yltrieCreate : Slut n) s <|> ylsluGet (table t.size ds) s) = _
    rw [hnone, hget]
    rfl
  · cases mac <;> simp [symDef, symMac]

theorem starts_image (ht : t.stored = true) (hds : Storable ds)
    (hlen : t.size + sizes ds + d ≤ n) :
    Starts (plainCxt n false) names (globals ds)
      { State.init (image t ds) with ctl := .eval (t.home 0) ylnil } t [] d := by
  have hle : t.size + sizes ds ≤ n := by omega
  have hgood := image_good ht hds hle
  have hden := denotes_home ht (image_has hle).1
  have hvalid : (image t ds).Valid (t.home 0) := hden.valid hgood.wf
  have hform : Exact (plainCxt n false) (State.init (image t ds)) .form
      { State.init (image t ds) with ctl := .eval (t.home 0) ylnil } := by
    refine .step (.form rfl ⟨Pool.Grown.refl _, id⟩ hvalid) ?_
    rintro _ _ _ ⟨⟩
  have hkeep : KeepsPending (plainCxt n false) (State.init (image t ds)) .form := trivial
  refine ⟨kept_exact (kept_init _ hgood) hkeep hform, _, _, rfl, hden, hgood, kindsOk_poolOf,
    image_holds hds hle, .nil, ?_⟩
  show d ≤ n - (t.objs 0 ++ layout t.size ds).length
  rw [List.length_append, Tree.length_objs, length_layout]
  omega

end Start

end Lang

end Ylisp
