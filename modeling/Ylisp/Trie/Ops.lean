import Mathlib.Data.List.FinRange
import Ylisp.Trie.Basic

/-!
# The operations of the trie

`deleteKey` is the recursion of `_delete_key`. Its answer `1` says that the node
it was called on may have become an empty leaf; the caller then removes the back
node of the byte, and the front node too if nothing else hangs from it
(`deleteEmptyByteLeaf`). `nodeClone` threads the user state of the callback
through the nodes in the order of the walk.

An operation works on a family of tries; `step` gives the return value, `0`
where the source has none, and the family after it.
-/

namespace Ylisp

namespace Trie

namespace Node

variable {α : Type*}

def byte (n : Node α) (c : UInt8) : Node α := (n.child (front c)).child (back c)

def setByte (n : Node α) (c : UInt8) (b : Node α) : Node α :=
  n.setChild (front c) ((n.child (front c)).setChild (back c) b)

def clearValue (n : Node α) : Node α := node none n.child

/-- The test of `_delete_empty_leaf`: no child and no value. -/
def isEmptyLeaf (n : Node α) : Bool :=
  n.v.isNone && decide (∀ i, (n.child i).isNull = true)

theorem isEmptyLeaf_iff {n : Node α} :
    n.isEmptyLeaf = true ↔ n.v = none ∧ ∀ i, n.child i = null := by
  simp [isEmptyLeaf]

def deleteEmptyByteLeaf (n : Node α) (c : UInt8) : ℤ × Node α :=
  if (n.byte c).isEmptyLeaf then
    let m := n.setByte c null
    if (m.child (front c)).isEmptyLeaf then (1, m.setChild (front c) null) else (0, m)
  else (0, n)

def deleteKey : Node α → List UInt8 → ℤ × Node α
  | n, [] => if n.v.isSome then (1, n.clearValue) else (-1, n)
  | n, c :: p =>
      if (n.byte c).isNull then (-1, n)
      else
        let r := deleteKey (n.byte c) p
        let m := n.setByte c r.2
        if r.1 = 1 then m.deleteEmptyByteLeaf c else if r.1 = 0 then (0, m) else (-1, m)

/-- `_equal_internal`; the value slots and the children of two nodes are
compared, and `null` stands for a child that is missing. -/
def equalInternal (cmp : α → α → Bool) : Node α → Node α → Bool
  | null, n1 => n1.isNull
  | node _ _, null => false
  | node v0 n0, node v1 n1 =>
      (match v0, v1 with
        | some x, some y => cmp x y
        | none, none => true
        | _, _ => false) &&
      decide (∀ i, equalInternal cmp (n0 i) (n1 i) = true)

end Node

/-- The callback of a copy: it gets the user state and the value, and its answer
may be NULL. -/
abbrev Clonev (σ α : Type*) := σ → α → σ × Option α

section Clone

variable {σ α : Type*}

def cloneValue (clonev : Option (Clonev σ α)) (v : Option α) (user : σ) : σ × Option α :=
  match v, clonev with
  | some x, some f => f user x
  | v, _ => (user, v)

/-- The loop over the sixteen children: a copy is put at each place of `r` where
`n` has a child. -/
def cloneChildren (n : Fin 16 → Node α) (clone : Fin 16 → σ → σ × Node α) :
    List (Fin 16) → σ → (Fin 16 → Node α) → σ × (Fin 16 → Node α)
  | [], user, r => (user, r)
  | i :: is, user, r =>
      if (n i).isNull then cloneChildren n clone is user r
      else
        let x := clone i user
        cloneChildren n clone is x.1 (Function.update r i x.2)

def nodeClone (clonev : Option (Clonev σ α)) : Node α → σ → σ × Node α
  | .null, user => (user, .null)
  | .node v n, user =>
      let x := cloneValue clonev v user
      let r := cloneChildren n (fun i => nodeClone clonev (n i)) (List.finRange 16) x.1
        fun _ => .null
      (r.1, .node x.2 r.2)

end Clone

/-! ### The bound under the operations -/

namespace Node

variable {α : Type*} {n : Node α} {k : ℕ}

@[simp] theorem child_null (i : Fin 16) : (null : Node α).child i = null := rfl

theorem child_setChild (n c : Node α) (i j : Fin 16) :
    (n.setChild i c).child j = if j = i then c else n.child j :=
  Function.update_apply n.child i c j

theorem setChild_child (h : n ≠ null) (i : Fin 16) : n.setChild i (n.child i) = n := by
  cases n with
  | null => exact absurd rfl h
  | node v n =>
      rw [setChild, Function.update_eq_self]
      rfl

theorem child_front_ne_null {c : UInt8} (h : n.byte c ≠ null) : n.child (front c) ≠ null := by
  intro h0
  exact h (by rw [byte, h0, child_null])

theorem ne_null_of_child {i : Fin 16} (h : n.child i ≠ null) : n ≠ null := by
  rintro rfl
  exact h (child_null i)

theorem setByte_byte {c : UInt8} (h : n.byte c ≠ null) : n.setByte c (n.byte c) = n := by
  have hfront := child_front_ne_null h
  rw [setByte, byte, setChild_child hfront, setChild_child (ne_null_of_child hfront)]

theorem child_setByte (n b : Node α) (c : UInt8) :
    (n.setByte c b).child (front c) = (n.child (front c)).setChild (back c) b := by
  rw [setByte, child_setChild, if_pos rfl]

theorem byte_setByte (n b : Node α) (c : UInt8) : (n.setByte c b).byte c = b := by
  rw [byte, child_setByte, child_setChild, if_pos rfl]

theorem Bounded.pos (h : n.Bounded k) {i : Fin 16} (hi : n.child i ≠ null) : 0 < k := by
  cases n with
  | null => exact absurd rfl hi
  | node v n => exact (h.2 i (Bool.eq_false_iff.2 fun h0 => hi ((isNull_iff _).1 h0))).1

theorem Bounded.two_le (h : n.Bounded k) {c : UInt8} (hc : n.byte c ≠ null) : 2 ≤ k := by
  have h1 := h.pos (child_front_ne_null hc)
  have h2 := (h.child (front c)).pos hc
  omega

theorem Bounded.value (h : n.Bounded k) (hv : n.v.isSome) : k % 2 = 0 := by
  cases n with
  | null => cases hv
  | node v n => exact h.1 hv

theorem bounded_of {n : Node α} (hv : n.v.isSome → k % 2 = 0)
    (hchild : ∀ i, n.child i ≠ null → 0 < k ∧ (n.child i).Bounded (k - 1)) : n.Bounded k := by
  cases n with
  | null => exact trivial
  | node v n =>
      refine ⟨hv, fun i hi => hchild i ?_⟩
      intro h0
      rw [show n i = null from h0] at hi
      cases hi

theorem Bounded.setNull (h : n.Bounded k) (i : Fin 16) : (n.setChild i null).Bounded k := by
  apply bounded_of
  · exact h.value
  · intro j hj
    rw [child_setChild] at hj ⊢
    split at hj
    · exact absurd rfl hj
    · rename_i hne
      rw [if_neg hne]
      exact ⟨h.pos hj, h.child j⟩

theorem Bounded.clearValue (h : n.Bounded k) : n.clearValue.Bounded k := by
  apply bounded_of
  · intro hv
    cases hv
  · intro i hi
    exact ⟨h.pos hi, h.child i⟩

theorem Bounded.byte (h : n.Bounded k) (c : UInt8) : (n.byte c).Bounded (k - 1 - 1) :=
  (h.child (front c)).child (back c)

theorem Bounded.setByte (h : n.Bounded k) (hk : 2 ≤ k) (c : UInt8) {b : Node α}
    (hb : b.Bounded (k - 1 - 1)) : (n.setByte c b).Bounded k :=
  h.setChild (by omega) (front c) ((h.child (front c)).setChild (by omega) (back c) hb)

theorem Bounded.deleteEmptyByteLeaf (h : n.Bounded k) (hk : 2 ≤ k) (c : UInt8) :
    (n.deleteEmptyByteLeaf c).2.Bounded k := by
  have hm : (n.setByte c null).Bounded k := h.setByte hk c (bounded_null _)
  unfold Node.deleteEmptyByteLeaf
  split
  · dsimp only
    split
    · exact hm.setNull _
    · exact hm
  · exact h

theorem Bounded.deleteKey : ∀ {n : Node α} {k : ℕ} (key : List UInt8), n.Bounded k →
    (n.deleteKey key).2.Bounded k
  | n, k, [], h => by
      unfold Node.deleteKey
      split
      · exact h.clearValue
      · exact h
  | n, k, c :: p, h => by
      unfold Node.deleteKey
      split
      · exact h
      · rename_i hc
        have hk : 2 ≤ k := h.two_le fun h0 => hc ((isNull_iff _).2 h0)
        have hm : (n.setByte c ((n.byte c).deleteKey p).2).Bounded k :=
          h.setByte hk c ((h.byte c).deleteKey p)
        dsimp only
        split
        · exact hm.deleteEmptyByteLeaf hk c
        · split
          · exact hm
          · exact hm

end Node

section Clone

variable {σ α : Type*} {clonev : Option (Clonev σ α)}

/-- The value that a copy has for a value `v`: the same one without a callback,
otherwise an answer of the callback to `v`. -/
def CopiedValue (clonev : Option (Clonev σ α)) (v v' : Option α) : Prop :=
  match v, clonev with
  | none, _ => v' = none
  | some x, none => v' = some x
  | some x, some f => ∃ user, v' = (f user x).2

theorem copiedValue_cloneValue (clonev : Option (Clonev σ α)) (v : Option α) (user : σ) :
    CopiedValue clonev v (cloneValue clonev v user).2 := by
  cases v with
  | none => rfl
  | some x =>
      cases clonev with
      | none => rfl
      | some f => exact ⟨user, rfl⟩

inductive Copied (clonev : Option (Clonev σ α)) : Node α → Node α → Prop
  | null : Copied clonev .null .null
  | node {v v' : Option α} {n n' : Fin 16 → Node α} (hv : CopiedValue clonev v v')
      (hn : ∀ i, Copied clonev (n i) (n' i)) : Copied clonev (.node v n) (.node v' n')

theorem cloneChildren_of_null {n : Fin 16 → Node α} {clone : Fin 16 → σ → σ × Node α}
    {i : Fin 16} (hi : n i = .null) :
    ∀ (is : List (Fin 16)) (user : σ) (r : Fin 16 → Node α),
      (cloneChildren n clone is user r).2 i = r i
  | [], user, r => rfl
  | j :: is, user, r => by
      unfold cloneChildren
      split
      · exact cloneChildren_of_null hi is user r
      · rename_i hj
        have hne : i ≠ j := by
          rintro rfl
          exact hj ((Node.isNull_iff _).2 hi)
        dsimp only
        rw [cloneChildren_of_null hi is, Function.update_of_ne hne]

theorem copied_cloneChildren {n : Fin 16 → Node α} {clone : Fin 16 → σ → σ × Node α}
    (hclone : ∀ i user, Copied clonev (n i) (clone i user).2) {i : Fin 16} (hi : n i ≠ .null) :
    ∀ (is : List (Fin 16)) (user : σ) (r : Fin 16 → Node α),
      (i ∈ is ∨ Copied clonev (n i) (r i)) →
      Copied clonev (n i) ((cloneChildren n clone is user r).2 i)
  | [], user, r, h => by
      rcases h with h | h
      · cases h
      · exact h
  | j :: is, user, r, h => by
      have ih := copied_cloneChildren hclone hi is
      unfold cloneChildren
      split
      · rename_i hj
        apply ih user r
        rcases h with h | h
        · rcases List.mem_cons.1 h with rfl | h
          · exact absurd ((Node.isNull_iff _).1 hj) hi
          · exact Or.inl h
        · exact Or.inr h
      · apply ih
        by_cases hij : i = j
        · subst hij
          rw [Function.update_self]
          exact Or.inr (hclone i user)
        · rw [Function.update_of_ne hij]
          rcases h with h | h
          · exact Or.inl ((List.mem_cons.1 h).resolve_left hij)
          · exact Or.inr h

theorem copied_nodeClone (clonev : Option (Clonev σ α)) :
    ∀ (n : Node α) (user : σ), Copied clonev n (nodeClone clonev n user).2
  | .null, user => Copied.null
  | .node v n, user => by
      refine Copied.node (copiedValue_cloneValue clonev v user) fun i => ?_
      by_cases hi : n i = .null
      · rw [cloneChildren_of_null hi, hi]
        exact Copied.null
      · exact copied_cloneChildren (fun i user => copied_nodeClone clonev (n i) user) hi _ _ _
          (Or.inl (List.mem_finRange i))

theorem CopiedValue.isSome {v v' : Option α} (h : CopiedValue clonev v v')
    (hv : v'.isSome) : v.isSome := by
  cases v with
  | none =>
      rw [show v' = none from h] at hv
      exact hv
  | some x => rfl

theorem Copied.isNull {n n' : Node α} (h : Copied clonev n n') : n'.isNull = n.isNull := by
  cases h with
  | null => rfl
  | node hv hn => rfl

theorem Copied.bounded {n n' : Node α} (h : Copied clonev n n') :
    ∀ {k : ℕ}, n.Bounded k → n'.Bounded k := by
  induction h with
  | null => exact id
  | node hv hn ih =>
      intro k hk
      refine ⟨fun h => hk.1 (hv.isSome h), fun i hi => ?_⟩
      obtain ⟨hpos, hbelow⟩ := hk.2 i ((hn i).isNull.symm.trans hi)
      exact ⟨hpos, ih i hbelow⟩

end Clone

/-! ### The operations on tries -/

section Tries

variable {α : Type*}

/-- `yltrie_insert`; the value may be NULL. -/
def insertPtr (t : Trie α) (key : List UInt8) (v : Option α) : ℤ × Trie α :=
  match v with
  | none => (-1, t)
  | some x => t.yltrieInsert key x

def yltrieDelete (t : Trie α) (key : List UInt8) : ℤ × Trie α :=
  let r := t.rt.deleteKey key
  (if r.1 = 1 ∨ r.1 = 0 then 0 else -1, ⟨r.2, t.bounded.deleteKey key⟩)

def yltrieClean (t : Trie α) : Trie α :=
  ⟨.node t.rt.v fun _ => .null, fun hv => t.bounded.value hv, fun _ hi => by cases hi⟩

variable {σ : Type*}

theorem copied_copyChildren (clonev : Option (Clonev σ α)) (src : Node α) (user : σ)
    (r : Fin 16 → Node α) {i : Fin 16} (hi : src.child i ≠ .null) :
    Copied clonev (src.child i)
      ((cloneChildren src.child (fun i => nodeClone clonev (src.child i))
        (List.finRange 16) user r).2 i) :=
  copied_cloneChildren (fun i user => copied_nodeClone clonev (src.child i) user) hi _ _ _
    (Or.inl (List.mem_finRange i))

/-- The loop of `yltrie_copy` over the children of the source. -/
def copyChildren (dst src : Trie α) (user : σ) (clonev : Option (Clonev σ α)) : Trie α where
  rt := .node dst.rt.v (cloneChildren src.rt.child (fun i => nodeClone clonev (src.rt.child i))
    (List.finRange 16) user dst.rt.child).2
  bounded := by
    refine ⟨fun hv => dst.bounded.value hv, fun i _ => ⟨by decide, ?_⟩⟩
    by_cases hi : src.rt.child i = .null
    · rw [cloneChildren_of_null hi]
      exact dst.bounded.child i
    · exact (copied_copyChildren clonev src.rt user _ hi).bounded (src.bounded.child i)

def yltrieClone (t : Trie α) (user : σ) (clonev : Option (Clonev σ α)) : Trie α :=
  copyChildren yltrieCreate.yltrieClean t user clonev

def yltrieEqual (t0 t1 : Trie α) (cmp : α → α → Bool) : Bool :=
  Node.equalInternal cmp t0.rt t1.rt

variable {ι : Type*} [DecidableEq ι]

/-- `yltrie_copy`: the target is cleaned before the source is read, so a copy of
a trie to itself empties it. -/
def yltrieCopy (t : ι → Trie α) (dst src : ι) (user : σ) (clonev : Option (Clonev σ α)) :
    ι → Trie α :=
  let t' := Function.update t dst (t dst).yltrieClean
  Function.update t' dst (copyChildren (t' dst) (t' src) user clonev)

end Tries

inductive Op (ι σ α : Type*) where
  | create (i : ι)
  | insert (i : ι) (key : List UInt8) (v : Option α)
  | delete (i : ι) (key : List UInt8)
  | clean (i : ι)
  | copy (dst src : ι) (user : σ) (clonev : Option (Clonev σ α))
  | clone (dst src : ι) (user : σ) (clonev : Option (Clonev σ α))

section Step

variable {ι σ α : Type*} [DecidableEq ι]

/-- An operation on the family: its return value and the family after it. -/
def step (o : Op ι σ α) (t : ι → Trie α) : ℤ × (ι → Trie α) :=
  match o with
  | .create i => (0, Function.update t i yltrieCreate)
  | .insert i key v =>
      let r := (t i).insertPtr key v
      (r.1, Function.update t i r.2)
  | .delete i key =>
      let r := (t i).yltrieDelete key
      (r.1, Function.update t i r.2)
  | .clean i => (0, Function.update t i (t i).yltrieClean)
  | .copy dst src user clonev => (0, yltrieCopy t dst src user clonev)
  | .clone dst src user clonev =>
      (0, Function.update t dst ((t src).yltrieClone user clonev))

end Step

end Trie

end Ylisp
