import Mathlib.Data.List.Zip
import Ylisp.Library.Lockstep
import Ylisp.Mempool.Pool

/-!
# Comparing maps

`yleq` with the comparison callbacks of all atoms. `_aif_map_eq` looks at the interface of
its first operand alone: a trie map is compared with whatever the second one is by
`yltrie_equal`. `yleq` is a comparison in lockstep (`yleq_eq_run`), and `law_iff` says
exactly when it never takes a hash table for a trie.
-/

namespace Ylisp

namespace Ylext

open Lockstep Mempool

variable {n : ℕ}

def deref (p : Pool n) : Ptr n → Option (Obj n)
  | .at r => some (p.obj r)
  | .null => none
  | .int _ => none

def slotPtr : Option (Ref n) → Ptr n
  | some r => .at r
  | none => .null

/-! ### The comparison callbacks -/

def isNan (d : UInt64) : Bool := decide (d &&& 0x7fffffffffffffff > 0x7ff0000000000000)

def dblEq (d0 d1 : UInt64) : Bool :=
  !isNan d0 && !isNan d1 &&
    (decide (d0 = d1) ||
      decide (d0 &&& 0x7fffffffffffffff = 0) && decide (d1 &&& 0x7fffffffffffffff = 0))

section Trie

variable {α : Type*}

/-- The test of the value slots in `_equal_internal`. -/
def equalValue (cmp : α → α → Verdict) : Option α → Option α → Verdict
  | some x, some y => cmp x y
  | none, none => .val true
  | some _, none => .val false
  | none, some _ => .val false

/-- The loop of `_equal_internal` over the children that are left. -/
def equalChildren (n0 n1 : Fin 16 → Trie.Node α) (eq : Fin 16 → Verdict) :
    List (Fin 16) → Verdict
  | [] => .val true
  | i :: is =>
      if !(n0 i).isNull && !(n1 i).isNull then (eq i).andThen (equalChildren n0 n1 eq is)
      else if !(n0 i).isNull || !(n1 i).isNull then .val false
      else equalChildren n0 n1 eq is

def equalInternal (cmp : α → α → Verdict) : Trie.Node α → Trie.Node α → Verdict
  | .null, n1 => .val n1.isNull
  | .node _ _, .null => .val false
  | .node v0 n0, .node v1 n1 =>
      (equalValue cmp v0 v1).andThen
        (equalChildren n0 n1 (fun i => equalInternal cmp (n0 i) (n1 i)) (List.finRange 16))

end Trie

def aifArrEq (cmp : Ptr n → Ptr n → Verdict) (at0 at1 : Option (List (Option (Ref n)))) :
    Verdict :=
  match at0, at1 with
  | none, none => .val true
  | some a0, some a1 =>
      if a0.length ≠ a1.length then .val false
      else parRun cmp ((a0.map slotPtr).zip (a1.map slotPtr)) true
  | some _, none => .val false
  | none, some _ => .val false

/-- `_aif_map_eq`: `yltrie_equal` on the data of both when the first map is a trie. -/
def aifMapEq (cmp : Ptr n → Ptr n → Verdict) (same : Bool) (d0 d1 : Amap n) : Verdict :=
  match d0, d1 with
  | .trie t0, .trie t1 => equalInternal (fun r0 r1 => cmp (.at r0) (.at r1)) t0.rt t1.rt
  | .trie _, .hash _ => .bad
  | .hash _, .trie _ => .val same
  | .hash _, .hash _ => .val same

def aifEq (cmp : Ptr n → Ptr n → Verdict) (same : Bool) : Obj n → Obj n → Verdict
  | .nil, .nil => .val same
  | .sym s0, .sym s1 => .val (s0 = s1)
  | .nfunc f0, .nfunc f1 => .val (f0 = f1)
  | .sfunc f0, .sfunc f1 => .val (f0 = f1)
  | .dbl d0, .dbl d1 => .val (dblEq d0 d1)
  | .bin d0, .bin d1 => .val (d0 = d1)
  | .fraw _, .fraw _ => .val same
  | .procia _, .procia _ => .val same
  | .map d0, .map d1 => aifMapEq cmp same d0 d1
  | .arr at0, .arr at1 => aifArrEq cmp at0 at1
  | _, _ => .val false

/-- The part of `yleq` after the test for the same element. -/
def eqObj (cmp : Ptr n → Ptr n → Verdict) (same : Bool) : Obj n → Obj n → Verdict
  | .pair car0 cdr0, .pair car1 cdr1 =>
      (cmp car0 car1).andThen ((cmp cdr0 cdr1).andThen (.val true))
  | o0, o1 => if o0.isAtom && o1.isAtom then aifEq cmp same o0 o1 else .val false

def yleq (p : Pool n) : ℕ → Ptr n → Ptr n → Verdict
  | 0, _, _ => .deep
  | k + 1, e1, e2 =>
      if e1 = e2 then .val true
      else match deref p e1, deref p e2 with
        | some o1, some o2 => eqObj (yleq p k) false o1 o2
        | some _, none => .stuck
        | none, some _ => .stuck
        | none, none => .stuck

/-! ### What is compared -/

section Pairs

variable {α : Type*}

def chain (q q' : List (α × α) × Bool) : List (α × α) × Bool :=
  if q.2 then (q.1 ++ q'.1, q'.2) else q

def slotPairs : Option α → Option α → List (α × α) × Bool
  | some x, some y => ([(x, y)], true)
  | none, none => ([], true)
  | some _, none => ([], false)
  | none, some _ => ([], false)

/-- The values of two tries at the same places, up to the first place that only one of
them has. -/
def valuePairs : Trie.Node α → Trie.Node α → List (α × α) × Bool
  | .null, n1 => ([], n1.isNull)
  | .node _ _, .null => ([], false)
  | .node v0 n0, .node v1 n1 =>
      chain (slotPairs v0 v1)
        ((List.finRange 16).foldr (fun i q => chain (valuePairs (n0 i) (n1 i)) q) ([], true))

end Pairs

def mapView : Amap n → Amap n → View (Ptr n)
  | .trie t0, .trie t1 =>
      .seq ((valuePairs t0.rt t1.rt).1.map fun q => (.at q.1, .at q.2)) (valuePairs t0.rt t1.rt).2
  | .trie _, .hash _ => .bad
  | .hash _, .trie _ => .done false
  | .hash _, .hash _ => .done false

def arrView : Option (List (Option (Ref n))) → Option (List (Option (Ref n))) → View (Ptr n)
  | none, none => .done true
  | some a0, some a1 =>
      if a0.length ≠ a1.length then .done false
      else .par ((a0.map slotPtr).zip (a1.map slotPtr))
  | some _, none => .done false
  | none, some _ => .done false

def objView : Obj n → Obj n → View (Ptr n)
  | .pair car0 cdr0, .pair car1 cdr1 => .seq [(car0, car1), (cdr0, cdr1)] true
  | .map d0, .map d1 => mapView d0 d1
  | .arr at0, .arr at1 => arrView at0 at1
  | .sym s0, .sym s1 => .done (s0 = s1)
  | .nfunc f0, .nfunc f1 => .done (f0 = f1)
  | .sfunc f0, .sfunc f1 => .done (f0 = f1)
  | .dbl d0, .dbl d1 => .done (dblEq d0 d1)
  | .bin d0, .bin d1 => .done (d0 = d1)
  | _, _ => .done false

def view (p : Pool n) (e1 e2 : Ptr n) : View (Ptr n) :=
  if e1 = e2 then .done true
  else match deref p e1, deref p e2 with
    | some o1, some o2 => objView o1 o2
    | some _, none => .stuck
    | none, some _ => .stuck
    | none, none => .stuck

section Seq

variable {α : Type*} {cmp : α → α → Verdict}

theorem seqRun_chain (q q' : List (α × α) × Bool) :
    seqRun cmp (chain q q').1 (chain q q').2 =
      (seqRun cmp q.1 q.2).andThen (seqRun cmp q'.1 q'.2) := by
  obtain ⟨ps, b⟩ := q
  cases b with
  | true => exact seqRun_append q'.1 q'.2 ps
  | false => exact (andThen_of_ne (seqRun_false ps) _).symm

theorem equalValue_eq (v0 v1 : Option α) :
    equalValue cmp v0 v1 = seqRun cmp (slotPairs v0 v1).1 (slotPairs v0 v1).2 := by
  cases v0 with
  | none => cases v1 <;> rfl
  | some x =>
      cases v1 with
      | none => rfl
      | some y =>
          rw [equalValue, slotPairs, seqRun, seqRun]
          cases cmp x y with
          | val b => cases b <;> rfl
          | deep => rfl
          | stuck => rfl
          | bad => rfl

theorem equalChildren_eq {n0 n1 : Fin 16 → Trie.Node α}
    (h : ∀ i, equalInternal cmp (n0 i) (n1 i) =
      seqRun cmp (valuePairs (n0 i) (n1 i)).1 (valuePairs (n0 i) (n1 i)).2) :
    ∀ is : List (Fin 16),
      let q := is.foldr (fun i q => chain (valuePairs (n0 i) (n1 i)) q) ([], true)
      equalChildren n0 n1 (fun i => equalInternal cmp (n0 i) (n1 i)) is = seqRun cmp q.1 q.2
  | [] => rfl
  | i :: is => by
      have ih := equalChildren_eq h is
      rw [List.foldr_cons]
      dsimp only at ih ⊢
      rw [seqRun_chain, ← ih, ← h i, equalChildren]
      cases n0 i with
      | null => cases n1 i <;> rfl
      | node v m => cases n1 i <;> rfl

theorem equalInternal_eq : ∀ n0 n1 : Trie.Node α,
    equalInternal cmp n0 n1 = seqRun cmp (valuePairs n0 n1).1 (valuePairs n0 n1).2
  | .null, n1 => rfl
  | .node v0 n0, .null => rfl
  | .node v0 n0, .node v1 n1 => by
      rw [equalInternal, valuePairs, seqRun_chain, equalValue_eq,
        equalChildren_eq fun i => equalInternal_eq (n0 i) (n1 i)]

end Seq

theorem seqRun_map {α β : Type*} (f : α → β) (cmp : β → β → Verdict) (last : Bool) :
    ∀ ps : List (α × α), seqRun cmp (ps.map fun q => (f q.1, f q.2)) last =
      seqRun (fun x y => cmp (f x) (f y)) ps last
  | [] => rfl
  | q :: ps => by rw [List.map_cons, seqRun, seqRun, seqRun_map f cmp last ps]

theorem aifMapEq_eq (cmp : Ptr n → Ptr n → Verdict) (d0 d1 : Amap n) :
    aifMapEq cmp false d0 d1 = (mapView d0 d1).eval cmp := by
  cases d0 with
  | trie t0 =>
      cases d1 with
      | trie t1 =>
          rw [aifMapEq, equalInternal_eq]
          exact (seqRun_map Ptr.at cmp _ _).symm
      | hash h1 => rfl
  | hash h0 => cases d1 <;> rfl

theorem aifArrEq_eq (cmp : Ptr n → Ptr n → Verdict) (at0 at1 : Option (List (Option (Ref n)))) :
    aifArrEq cmp at0 at1 = (arrView at0 at1).eval cmp := by
  cases at0 with
  | none => cases at1 <;> rfl
  | some a0 =>
      cases at1 with
      | none => rfl
      | some a1 =>
          rw [aifArrEq, arrView]
          split <;> rfl

theorem eqObj_eq (cmp : Ptr n → Ptr n → Verdict) (o0 o1 : Obj n) :
    eqObj cmp false o0 o1 = (objView o0 o1).eval cmp := by
  cases o0 with
  | map d0 =>
      cases o1 with
      | map d1 => exact aifMapEq_eq cmp d0 d1
      | _ => rfl
  | arr at0 =>
      cases o1 with
      | arr at1 => exact aifArrEq_eq cmp at0 at1
      | _ => rfl
  | _ => cases o1 <;> rfl

theorem yleq_eq_run (p : Pool n) : ∀ (k : ℕ) (e1 e2 : Ptr n),
    yleq p k e1 e2 = run (view p) k e1 e2
  | 0, _, _ => rfl
  | k + 1, e1, e2 => by
      have ih : yleq p k = run (view p) k := by
        funext e e'
        exact yleq_eq_run p k e e'
      rw [yleq, run, view, ih]
      split
      next => rfl
      next => split <;> simp only [eqObj_eq, View.eval]

/-! ### The order of the operands -/

section Swap

variable {α : Type*}

def flip (q : List (α × α) × Bool) : List (α × α) × Bool := (q.1.map Prod.swap, q.2)

theorem chain_flip (q q' : List (α × α) × Bool) :
    chain (flip q) (flip q') = flip (chain q q') := by
  obtain ⟨ps, b⟩ := q
  cases b with
  | true => simp [chain, flip]
  | false => rfl

theorem slotPairs_flip (v0 v1 : Option α) : slotPairs v1 v0 = flip (slotPairs v0 v1) := by
  cases v0 <;> cases v1 <;> rfl

theorem foldr_chain_flip {f g : Fin 16 → List (α × α) × Bool} (h : ∀ i, g i = flip (f i)) :
    ∀ is : List (Fin 16), is.foldr (fun i q => chain (g i) q) ([], true) =
      flip (is.foldr (fun i q => chain (f i) q) ([], true))
  | [] => rfl
  | i :: is => by
      rw [List.foldr_cons, List.foldr_cons, ← chain_flip, foldr_chain_flip h is, h]

theorem valuePairs_flip : ∀ n0 n1 : Trie.Node α, valuePairs n1 n0 = flip (valuePairs n0 n1)
  | .null, .null => rfl
  | .null, .node _ _ => rfl
  | .node _ _, .null => rfl
  | .node v0 n0, .node v1 n1 => by
      rw [valuePairs, valuePairs, ← chain_flip, slotPairs_flip,
        foldr_chain_flip fun i => valuePairs_flip (n0 i) (n1 i)]

end Swap

theorem dblEq_comm (d0 d1 : UInt64) : dblEq d1 d0 = dblEq d0 d1 := by
  have hsame : decide (d1 = d0) = decide (d0 = d1) := by simp only [eq_comm]
  rw [dblEq, dblEq, Bool.and_comm (!isNan d1), hsame,
    Bool.and_comm (decide (d1 &&& 0x7fffffffffffffff = 0))]

theorem mapView_swap (d0 d1 : Amap n) : mapView d1 d0 = (mapView d0 d1).swap ∨
    mapView d0 d1 = .done false ∨ mapView d0 d1 = .bad := by
  cases d0 with
  | trie t0 =>
      cases d1 with
      | trie t1 =>
          refine Or.inl ?_
          rw [mapView, mapView, valuePairs_flip t0.rt t1.rt, View.swap, flip, List.map_map,
            List.map_map]
          rfl
      | hash h1 => exact Or.inr (Or.inr rfl)
  | hash h0 => cases d1 <;> exact Or.inr (Or.inl rfl)

theorem arrView_swap (at0 at1 : Option (List (Option (Ref n)))) :
    arrView at1 at0 = (arrView at0 at1).swap := by
  cases at0 with
  | none => cases at1 <;> rfl
  | some a0 =>
      cases at1 with
      | none => rfl
      | some a1 =>
          rw [arrView, arrView]
          by_cases hlen : a0.length = a1.length
          · rw [if_neg (not_not.2 hlen), if_neg (not_not.2 hlen.symm), View.swap, List.zip_swap]
          · rw [if_pos hlen, if_pos (Ne.symm hlen)]
            rfl

theorem objView_swap (o0 o1 : Obj n) : objView o1 o0 = (objView o0 o1).swap ∨
    objView o0 o1 = .done false ∨ objView o0 o1 = .bad := by
  cases o0 with
  | pair car0 cdr0 => cases o1 <;> exact Or.inl rfl
  | map d0 =>
      cases o1 with
      | map d1 => exact mapView_swap d0 d1
      | _ => exact Or.inl rfl
  | arr at0 =>
      cases o1 with
      | arr at1 => exact Or.inl (arrView_swap at0 at1)
      | _ => exact Or.inl rfl
  | sym s0 =>
      cases o1 with
      | sym s1 => exact Or.inl (by simp only [objView, View.swap, eq_comm])
      | _ => exact Or.inl rfl
  | nfunc f0 =>
      cases o1 with
      | nfunc f1 => exact Or.inl (by simp only [objView, View.swap, eq_comm])
      | _ => exact Or.inl rfl
  | sfunc f0 =>
      cases o1 with
      | sfunc f1 => exact Or.inl (by simp only [objView, View.swap, eq_comm])
      | _ => exact Or.inl rfl
  | dbl d0 =>
      cases o1 with
      | dbl d1 => exact Or.inl (by rw [objView, objView, View.swap, dblEq_comm])
      | _ => exact Or.inl rfl
  | bin d0 =>
      cases o1 with
      | bin d1 => exact Or.inl (by simp only [objView, View.swap, eq_comm])
      | _ => exact Or.inl rfl
  | nil => cases o1 <;> exact Or.inl rfl
  | fraw fd => cases o1 <;> exact Or.inl rfl
  | procia pc => cases o1 <;> exact Or.inl rfl

theorem view_swap (p : Pool n) (e1 e2 : Ptr n) : view p e2 e1 = (view p e1 e2).swap ∨
    view p e1 e2 = .done false ∨ view p e1 e2 = .bad := by
  rw [view, view]
  by_cases he : e1 = e2
  · rw [if_pos he, if_pos he.symm]
    exact Or.inl rfl
  · rw [if_neg he, if_neg (Ne.symm he)]
    cases deref p e1 with
    | none => cases deref p e2 <;> exact Or.inl rfl
    | some o1 =>
        cases deref p e2 with
        | none => exact Or.inl rfl
        | some o2 => exact objView_swap o1 o2

/-- The comparison of the elements, in either order, takes no hash table for a trie, and
finds them the same in both orders or in none. -/
structure Law (p : Pool n) (x y : Ref n) : Prop where
  forth : ∀ k, yleq p k (.at x) (.at y) ≠ .bad
  back : ∀ k, yleq p k (.at y) (.at x) ≠ .bad
  symm : (∃ k, yleq p k (.at x) (.at y) = .val true) ↔
    ∃ k, yleq p k (.at y) (.at x) = .val true

/-- Comparing the elements in lockstep does not come to a trie map against a hash map, in
either order. -/
def Apart (p : Pool n) (x y : Ref n) : Prop :=
  ¬ Clash (view p) (.at x) (.at y) ∧ ¬ Clash (view p) (.at y) (.at x)

theorem not_clash_iff {p : Pool n} {e1 e2 : Ptr n} :
    ¬ Clash (view p) e1 e2 ↔ ∀ k, yleq p k e1 e2 ≠ .bad := by
  rw [clash_iff, not_exists]
  simp only [yleq_eq_run, ne_eq]

/-- The comparison does what it should exactly for elements that are `Apart`. -/
theorem yleq_law_iff (p : Pool n) (x y : Ref n) : Law p x y ↔ Apart p x y := by
  rw [Apart, not_clash_iff, not_clash_iff]
  constructor
  · exact fun h => ⟨h.forth, h.back⟩
  · rintro ⟨hxy, hyx⟩
    refine ⟨hxy, hyx, ?_⟩
    simp only [yleq_eq_run, ← decided_iff]
    exact ⟨Decided.symm (view_swap p), Decided.symm (view_swap p)⟩

/-- An empty trie map and an empty hash map. -/
def twoMaps : Pool 2 where
  m := mbtCreate 2
  blk := fun b => if b = 0 then ⟨false, 0, .map (.trie Trie.yltrieCreate)⟩
    else ⟨false, 0, .map (.hash Hash.hashCreate)⟩
  statMark := fun _ => false
  statSt := fun _ => 0
  bbs := []
  cxtl := []
  gsym := Trie.yltrieCreate
  closed := []
  killed := []

/-- `yltrie_equal` is applied to a hash table. -/
theorem not_yleq_law : ¬ Law twoMaps (.blk 0) (.blk 1) := fun h => h.forth 1 rfl

end Ylext

end Ylisp
