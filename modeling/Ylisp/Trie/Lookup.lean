import Mathlib.Data.FinEnum
import Mathlib.Data.Set.Finite.List
import Ylisp.Library.Answer
import Ylisp.Trie.Ops

/-!
# The trie as a finite map

`Node.lookup` reads the value of a key below a node. Each operation changes it
the way a finite map changes: `lookup_insert`, `lookup_deleteKey` and
`Copied.lookup`. `MapStep` is the specification of the operations on a family of
finite maps, and `get_run` says that every run of the tries is one that it
allows.
-/

namespace Ylisp

namespace Trie

theorem front_back_injective {c c' : UInt8} (hf : front c = front c')
    (hb : back c = back c') : c = c' := by
  have hf' : c.toNat / 16 = c'.toNat / 16 := congrArg Fin.val hf
  have hb' : c.toNat % 16 = c'.toNat % 16 := congrArg Fin.val hb
  apply UInt8.toNat_inj.1
  omega

namespace Node

variable {α : Type*}

def lookup (n : Node α) (key : List UInt8) : Option α := (getNode n key).v

@[simp] theorem lookup_nil (n : Node α) : n.lookup [] = n.v := rfl

theorem lookup_cons (n : Node α) (c : UInt8) (p : List UInt8) :
    n.lookup (c :: p) = (n.byte c).lookup p := rfl

@[simp] theorem byte_null (c : UInt8) : (null : Node α).byte c = null := rfl

@[simp] theorem lookup_null : ∀ key : List UInt8, (null : Node α).lookup key = none
  | [] => rfl
  | c :: p => by rw [lookup_cons, byte_null, lookup_null p]

theorem byte_setByte_of_ne (n b : Node α) {c c' : UInt8} (h : c' ≠ c) :
    (n.setByte c b).byte c' = n.byte c' := by
  rw [byte, setByte, child_setChild]
  split
  · rename_i hf
    rw [child_setChild, if_neg fun hb => h (front_back_injective hf hb), byte, hf]
  · rfl

/-- The values below a node after a change of one byte. -/
theorem lookup_setByte (n b : Node α) (c : UInt8) : ∀ key : List UInt8,
    (n.setByte c b).lookup key =
      match key with
      | [] => n.v
      | c' :: p => if c' = c then b.lookup p else n.lookup (c' :: p)
  | [] => rfl
  | c' :: p => by
      by_cases h : c' = c
      · rw [lookup_cons, h, byte_setByte]
        exact (if_pos rfl).symm
      · rw [lookup_cons, byte_setByte_of_ne n b h]
        exact (if_neg h).symm

/-! ### Insertion -/

/-- A creating descent changes the byte as a plain one does. -/
theorem setChild_childOrAlloc (n b : Node α) (i j : Fin 16) :
    (n.childOrAlloc i).setChild j b = (n.child i).setChild j b := by
  unfold childOrAlloc
  split
  · rename_i h
    rw [(isNull_iff _).1 h]
    rfl
  · rfl

theorem child_childOrAlloc (n : Node α) (i j : Fin 16) :
    (n.childOrAlloc i).child j = (n.child i).child j := by
  unfold childOrAlloc
  split
  · rename_i h
    rw [(isNull_iff _).1 h]
    rfl
  · rfl

theorem modifyNode_cons (f : Node α → Node α) (n : Node α) (c : UInt8) (p : List UInt8) :
    modifyNode f n (c :: p) =
      n.setByte c (modifyNode f ((n.childOrAlloc (front c)).childOrAlloc (back c)) p) := by
  rw [modifyNode, setByte, setChild_childOrAlloc]

theorem lookup_childOrAlloc (n : Node α) (i : Fin 16) (key : List UInt8) :
    (n.childOrAlloc i).lookup key = (n.child i).lookup key := by
  unfold childOrAlloc
  split
  · rename_i h
    rw [(isNull_iff _).1 h, lookup_null]
    cases key with
    | nil => rfl
    | cons c p => exact lookup_null p
  · rfl

theorem lookup_byteOrAlloc (n : Node α) (c : UInt8) (key : List UInt8) :
    ((n.childOrAlloc (front c)).childOrAlloc (back c)).lookup key =
      (n.byte c).lookup key := by
  rw [lookup_childOrAlloc, child_childOrAlloc]
  rfl

theorem lookup_insert (x : α) : ∀ (key : List UInt8) (n : Node α) (key' : List UInt8),
    (modifyNode (fun m => m.setValue x) n key).lookup key' =
      if key' = key then some x else n.lookup key'
  | [], n, key' => by
      cases key' with
      | nil => rfl
      | cons c p => cases n <;> rfl
  | c :: p, n, key' => by
      rw [modifyNode_cons, lookup_setByte]
      cases key' with
      | nil => rfl
      | cons c' p' =>
          dsimp only
          by_cases hc : c' = c
          · subst hc
            rw [if_pos rfl, lookup_insert x p, lookup_byteOrAlloc, lookup_cons]
            simp
          · rw [if_neg hc, if_neg fun h => hc (List.cons.inj h).1]

/-! ### Deletion -/

theorem lookup_of_isEmptyLeaf {n : Node α} (h : n.isEmptyLeaf = true) :
    ∀ key : List UInt8, n.lookup key = none
  | [] => (isEmptyLeaf_iff.1 h).1
  | c :: p => by rw [lookup_cons, byte, (isEmptyLeaf_iff.1 h).2, child_null, lookup_null]

theorem lookup_setNull {n : Node α} {i : Fin 16} (h : (n.child i).isEmptyLeaf = true) :
    ∀ key : List UInt8, (n.setChild i null).lookup key = n.lookup key
  | [] => rfl
  | c :: p => by
      rw [lookup_cons, lookup_cons, byte, byte, child_setChild]
      split
      · rename_i hi
        rw [hi, (isEmptyLeaf_iff.1 h).2]
        rfl
      · rfl

/-- Removing the empty nodes of a byte changes no value. -/
theorem lookup_deleteEmptyByteLeaf (n : Node α) (c : UInt8) (key : List UInt8) :
    (n.deleteEmptyByteLeaf c).2.lookup key = n.lookup key := by
  unfold deleteEmptyByteLeaf
  split
  · rename_i hleaf
    have hset : (n.setByte c null).lookup key = n.lookup key := by
      rw [lookup_setByte]
      cases key with
      | nil => rfl
      | cons c' p =>
          dsimp only
          split
          · rename_i hc
            rw [lookup_null, hc, lookup_cons, lookup_of_isEmptyLeaf hleaf]
          · rfl
    dsimp only
    split
    · rename_i hfront
      rw [lookup_setNull hfront, hset]
    · exact hset
  · rfl

theorem fst_deleteEmptyByteLeaf (n : Node α) (c : UInt8) :
    (n.deleteEmptyByteLeaf c).1 = 1 ∨ (n.deleteEmptyByteLeaf c).1 = 0 := by
  unfold deleteEmptyByteLeaf
  split
  · dsimp only
    split
    · exact Or.inl rfl
    · exact Or.inr rfl
  · exact Or.inr rfl

/-- A key that is not below the node: nothing is changed. -/
theorem deleteKey_of_none : ∀ {n : Node α} {key : List UInt8}, n.lookup key = none →
    n.deleteKey key = (-1, n)
  | n, [], h => by
      have hv : n.v = none := h
      simp [deleteKey, hv]
  | n, c :: p, h => by
      rw [deleteKey]
      split
      · rfl
      · rename_i hc
        have hbyte : n.byte c ≠ null := fun h0 => hc ((isNull_iff _).2 h0)
        have ih : (n.byte c).deleteKey p = (-1, n.byte c) := deleteKey_of_none h
        simp [ih, setByte_byte hbyte]

/-- A key that is below the node: it is the only one whose value is removed. -/
theorem lookup_deleteKey : ∀ {n : Node α} (key : List UInt8), (n.lookup key).isSome →
    ((n.deleteKey key).1 = 1 ∨ (n.deleteKey key).1 = 0) ∧
      ∀ key', (n.deleteKey key).2.lookup key' = if key' = key then none else n.lookup key'
  | n, [], h => by
      rw [deleteKey, if_pos (show n.v.isSome from h)]
      refine ⟨Or.inl rfl, fun key' => ?_⟩
      cases key' with
      | nil => rfl
      | cons c p => cases n <;> rfl
  | n, c :: p, h => by
      obtain ⟨hcode, hlookup⟩ := lookup_deleteKey (n := n.byte c) p h
      have hbyte : n.byte c ≠ null := by
        intro h0
        rw [lookup_cons, h0, lookup_null] at h
        cases h
      have hset : ∀ key', (n.setByte c ((n.byte c).deleteKey p).2).lookup key' =
          if key' = c :: p then none else n.lookup key' := by
        intro key'
        rw [lookup_setByte]
        cases key' with
        | nil => rfl
        | cons c' p' =>
            dsimp only
            by_cases hc : c' = c
            · subst hc
              rw [if_pos rfl, hlookup, lookup_cons]
              simp
            · rw [if_neg hc, if_neg fun h => hc (List.cons.inj h).1]
      rw [deleteKey, if_neg fun h0 => hbyte ((isNull_iff _).1 h0)]
      dsimp only
      rcases hcode with h1 | h0
      · rw [if_pos h1]
        refine ⟨fst_deleteEmptyByteLeaf _ c, fun key' => ?_⟩
        rw [lookup_deleteEmptyByteLeaf, hset]
      · rw [if_neg (by rw [h0]; decide), if_pos h0]
        exact ⟨Or.inr rfl, hset⟩

theorem Bounded.length_le : ∀ {n : Node α} {k : ℕ} (key : List UInt8), n.Bounded k →
    (n.lookup key).isSome → 2 * key.length ≤ k
  | n, k, [], _, _ => by simp
  | n, k, c :: p, h, hkey => by
      have hbyte : n.byte c ≠ null := by
        intro h0
        rw [lookup_cons, h0, lookup_null] at hkey
        cases hkey
      have hk := h.two_le hbyte
      have hp := (h.byte c).length_le p hkey
      rw [List.length_cons]
      omega

end Node

theorem Copied.child {σ α : Type*} {clonev : Option (Clonev σ α)} {n n' : Node α}
    (h : Copied clonev n n') (i : Fin 16) : Copied clonev (n.child i) (n'.child i) := by
  cases h with
  | null => exact Copied.null
  | node hv hn => exact hn i

theorem Copied.byte {σ α : Type*} {clonev : Option (Clonev σ α)} {n n' : Node α}
    (h : ∀ i, Copied clonev (n.child i) (n'.child i)) (c : UInt8) :
    Copied clonev (n.byte c) (n'.byte c) :=
  (h (front c)).child (back c)

/-- The values below a copy are copies of the values. -/
theorem Copied.lookup {σ α : Type*} {clonev : Option (Clonev σ α)} :
    ∀ {n n' : Node α}, Copied clonev n n' → ∀ key : List UInt8,
      CopiedValue clonev (n.lookup key) (n'.lookup key)
  | _, _, .null, [] => rfl
  | _, _, .node hv _, [] => hv
  | _, _, h, c :: p => (Copied.byte h.child c).lookup p

/-! ### The family of tries as a family of maps -/

section Map

variable {ι σ α : Type*} [DecidableEq ι]

def maps (t : ι → Trie α) : ι → List UInt8 → Option α := fun i => (t i).yltrieGet

/-- What an operation on a family of finite maps answers, and what it does. -/
def MapStep (o : Op ι σ α) (m : ι → List UInt8 → Option α) (r : ℤ)
    (m' : ι → List UInt8 → Option α) : Prop :=
  match o with
  | .create i => r = 0 ∧ m' = Function.update m i fun _ => none
  | .insert i key v =>
      if 1 ≤ key.length ∧ key.length ≤ 1023 ∧ v.isSome then
        r = (if (m i key).isSome then 1 else 0) ∧
          m' = Function.update m i (Function.update (m i) key v)
      else r = -1 ∧ m' = m
  | .delete i key =>
      if (m i key).isSome then
        r = 0 ∧ m' = Function.update m i (Function.update (m i) key none)
      else r = -1 ∧ m' = m
  | .clean i => r = 0 ∧ m' = Function.update m i fun _ => none
  | .copy dst src _ clonev =>
      r = 0 ∧ ∃ c : List UInt8 → Option α,
        (∀ key, CopiedValue clonev (Function.update m dst (fun _ => none) src key) (c key)) ∧
        m' = Function.update m dst c
  | .clone dst src _ clonev =>
      r = 0 ∧ ∃ c : List UInt8 → Option α,
        (∀ key, CopiedValue clonev (m src key) (c key)) ∧ m' = Function.update m dst c

def Rooted (t : Trie α) : Prop := t.rt.v = none

theorem Rooted.get {t : Trie α} (h : Rooted t) (key : List UInt8) :
    t.yltrieGet key = t.rt.lookup key := by
  unfold yltrieGet
  split
  · rename_i hkey
    rw [List.length_eq_zero_iff.1 hkey]
    exact h.symm
  · rfl

theorem rooted_yltrieCreate : Rooted (yltrieCreate : Trie α) := rfl

theorem rooted_insertPtr {t : Trie α} (h : Rooted t) (key : List UInt8) (v : Option α) :
    Rooted (t.insertPtr key v).2 := by
  cases v with
  | none => exact h
  | some x =>
      change Rooted (t.yltrieInsert key x).2
      unfold yltrieInsert
      split
      · exact h
      · rename_i hkey
        split
        · exact h
        · cases key with
          | nil => exact absurd rfl hkey
          | cons c p => exact h

theorem get_yltrieInsert (t : Trie α) {key : List UInt8} (hkey : key ≠ [])
    (hlen : key.length < maxKeyLen) (x : α) :
    (t.yltrieInsert key x).1 = (if (t.yltrieGet key).isSome then 1 else 0) ∧
      (t.yltrieInsert key x).2.yltrieGet = Function.update t.yltrieGet key (some x) := by
  have h0 : key.length ≠ 0 := fun h => hkey (List.length_eq_zero_iff.1 h)
  rw [yltrieInsert, dif_neg h0, dif_neg (Nat.not_le.2 hlen)]
  refine ⟨by rw [yltrieGet, if_neg h0], ?_⟩
  funext key'
  rw [Function.update_apply, yltrieGet, yltrieGet]
  split
  · rename_i h
    rw [List.length_eq_zero_iff.1 h, if_neg fun h' => hkey h'.symm]
  · exact Node.lookup_insert x key t.rt key'

theorem yltrieInsert_of_long (t : Trie α) {key : List UInt8} (hlen : maxKeyLen ≤ key.length)
    (x : α) : t.yltrieInsert key x = (-1, t) := by
  rw [yltrieInsert, dif_pos hlen, dite_eq_ite, ite_self]

theorem get_insertPtr (t : Trie α) (key : List UInt8) (v : Option α) :
    if 1 ≤ key.length ∧ key.length ≤ 1023 ∧ v.isSome then
      (t.insertPtr key v).1 = (if (t.yltrieGet key).isSome then 1 else 0) ∧
        (t.insertPtr key v).2.yltrieGet = Function.update t.yltrieGet key v
    else t.insertPtr key v = (-1, t) := by
  cases v with
  | none => simp [insertPtr]
  | some x =>
      split
      · rename_i hkey
        exact get_yltrieInsert t (List.ne_nil_of_length_pos hkey.1) (Nat.lt_succ_of_le hkey.2.1) x
      · rename_i hkey
        by_cases h0 : key.length = 0
        · rw [insertPtr, yltrieInsert, dif_pos h0]
        · apply yltrieInsert_of_long
          rw [maxKeyLen]
          simp at hkey
          omega

theorem rooted_yltrieDelete {t : Trie α} (h : Rooted t) (key : List UInt8) :
    Rooted (t.yltrieDelete key).2 := by
  have hnil : (t.rt.deleteKey key).2.lookup [] = none := by
    cases hget : t.rt.lookup key with
    | none => rw [Node.deleteKey_of_none hget]; exact h
    | some x =>
        rw [(Node.lookup_deleteKey key (hget ▸ rfl)).2]
        split
        · rfl
        · exact h
  exact hnil

theorem get_yltrieDelete {t : Trie α} (h : Rooted t) (key : List UInt8) :
    if (t.yltrieGet key).isSome then
      (t.yltrieDelete key).1 = 0 ∧
        (t.yltrieDelete key).2.yltrieGet = Function.update t.yltrieGet key none
    else t.yltrieDelete key = (-1, t) := by
  split
  · rename_i hkey
    rw [h.get] at hkey
    obtain ⟨hcode, hlookup⟩ := Node.lookup_deleteKey key hkey
    refine ⟨if_pos hcode, ?_⟩
    funext key'
    rw [(rooted_yltrieDelete h key).get, Function.update_apply, h.get]
    exact hlookup key'
  · rename_i hkey
    rw [h.get, Option.not_isSome_iff_eq_none] at hkey
    obtain ⟨rt, bounded⟩ := t
    simp [yltrieDelete, Node.deleteKey_of_none hkey]

/-- A deletion in terms of the map, whether the key is there or not. -/
theorem yltrieDelete_spec {t : Trie α} (h : Rooted t) (key : List UInt8) :
    (t.yltrieDelete key).1 = (if (t.yltrieGet key).isSome then 0 else -1) ∧
      (t.yltrieDelete key).2.yltrieGet = Function.update t.yltrieGet key none := by
  have hdel := get_yltrieDelete h key
  split at hdel
  next hsome => exact ⟨by rw [if_pos hsome]; exact hdel.1, hdel.2⟩
  next hnone =>
    rw [if_neg hnone, hdel]
    refine ⟨rfl, ?_⟩
    rw [← Option.not_isSome_iff_eq_none.1 hnone, Function.update_eq_self]

theorem Rooted.clean {t : Trie α} (h : Rooted t) : Rooted t.yltrieClean := h

theorem get_yltrieClean {t : Trie α} (h : Rooted t) : t.yltrieClean.yltrieGet = fun _ => none := by
  funext key
  rw [h.clean.get]
  cases key with
  | nil => exact h
  | cons c p => exact Node.lookup_null p

theorem get_yltrieCreate : (yltrieCreate : Trie α).yltrieGet = fun _ => none := by
  funext key
  rw [rooted_yltrieCreate.get]
  cases key with
  | nil => rfl
  | cons c p => exact Node.lookup_null p

theorem rooted_copyChildren {dst : Trie α} (h : Rooted dst) (src : Trie α) (user : σ)
    (clonev : Option (Clonev σ α)) : Rooted (copyChildren dst.yltrieClean src user clonev) := h

theorem copied_child_copyChildren (dst src : Trie α) (user : σ) (clonev : Option (Clonev σ α))
    (i : Fin 16) :
    Copied clonev (src.rt.child i)
      ((copyChildren dst.yltrieClean src user clonev).rt.child i) := by
  by_cases hi : src.rt.child i = .null
  · have hnull : (copyChildren dst.yltrieClean src user clonev).rt.child i = .null :=
      cloneChildren_of_null hi _ _ _
    rw [hi, hnull]
    exact Copied.null
  · exact copied_copyChildren clonev src.rt user _ hi

theorem get_copyChildren {dst src : Trie α} (hdst : Rooted dst) (hsrc : Rooted src) (user : σ)
    (clonev : Option (Clonev σ α)) (key : List UInt8) :
    CopiedValue clonev (src.yltrieGet key)
      ((copyChildren dst.yltrieClean src user clonev).yltrieGet key) := by
  rw [(rooted_copyChildren hdst src user clonev).get, hsrc.get]
  cases key with
  | nil =>
      rw [Node.lookup_nil, Node.lookup_nil, show src.rt.v = none from hsrc]
      exact hdst
  | cons c p =>
      exact (Copied.byte (copied_child_copyChildren dst src user clonev) c).lookup p

theorem forall_update {P : Trie α → Prop} {t : ι → Trie α} (h : ∀ i, P (t i)) {u : Trie α}
    (hu : P u) (i : ι) : ∀ j, P (Function.update t i u j) :=
  (Function.forall_update_iff t fun _ => P).2 ⟨hu, fun j _ => h j⟩

theorem maps_update (t : ι → Trie α) (i : ι) (u : Trie α) :
    maps (Function.update t i u) = Function.update (maps t) i u.yltrieGet := by
  funext j
  rw [maps, Function.update_apply, Function.update_apply]
  split <;> rfl

theorem yltrieCopy_eq (t : ι → Trie α) (dst src : ι) (user : σ) (clonev : Option (Clonev σ α)) :
    yltrieCopy t dst src user clonev =
      Function.update t dst (copyChildren (t dst).yltrieClean
        (Function.update t dst (t dst).yltrieClean src) user clonev) := by
  rw [yltrieCopy, Function.update_idem, Function.update_self]

theorem rooted_step (o : Op ι σ α) (t : ι → Trie α) (h : ∀ i, Rooted (t i)) (i : ι) :
    Rooted ((step o t).2 i) := by
  cases o with
  | create j => exact forall_update h rooted_yltrieCreate j i
  | insert j key v => exact forall_update h (rooted_insertPtr (h j) key v) j i
  | delete j key => exact forall_update h (rooted_yltrieDelete (h j) key) j i
  | clean j => exact forall_update h (h j).clean j i
  | copy dst src user clonev =>
      rw [step, yltrieCopy_eq]
      exact forall_update h (rooted_copyChildren (h dst) _ user clonev) dst i
  | clone dst src user clonev =>
      exact forall_update h (rooted_copyChildren rooted_yltrieCreate (t src) user clonev) dst i

theorem mapStep_step (o : Op ι σ α) (t : ι → Trie α) (h : ∀ i, Rooted (t i)) :
    MapStep o (maps t) (step o t).1 (maps (step o t).2) := by
  cases o with
  | create i => exact ⟨rfl, by rw [step, maps_update, get_yltrieCreate]⟩
  | insert i key v =>
      have hins := get_insertPtr (t i) key v
      simp only [MapStep, step]
      split
      · rename_i hkey
        rw [if_pos hkey] at hins
        exact ⟨hins.1, by rw [maps_update, hins.2]; rfl⟩
      · rename_i hkey
        rw [if_neg hkey] at hins
        rw [hins]
        exact ⟨rfl, by rw [Function.update_eq_self]⟩
  | delete i key =>
      have hdel := get_yltrieDelete (h i) key
      simp only [MapStep, step]
      split
      · rename_i hkey
        rw [if_pos (by exact hkey)] at hdel
        exact ⟨hdel.1, by rw [maps_update, hdel.2]; rfl⟩
      · rename_i hkey
        rw [if_neg (by exact hkey)] at hdel
        rw [hdel]
        exact ⟨rfl, by rw [Function.update_eq_self]⟩
  | clean i => exact ⟨rfl, by rw [step, maps_update, get_yltrieClean (h i)]⟩
  | copy dst src user clonev =>
      have hclean := forall_update h (h dst).clean dst
      have hmaps : maps (Function.update t dst (t dst).yltrieClean) =
          Function.update (maps t) dst fun _ => none := by
        rw [maps_update, get_yltrieClean (h dst)]
      refine ⟨rfl, (copyChildren (t dst).yltrieClean
        (Function.update t dst (t dst).yltrieClean src) user clonev).yltrieGet,
        fun key => ?_, ?_⟩
      · rw [← hmaps]
        exact get_copyChildren (h dst) (hclean src) user clonev key
      · rw [step, yltrieCopy_eq, maps_update]
  | clone dst src user clonev =>
      refine ⟨rfl, _, fun key => ?_, maps_update t dst _⟩
      exact get_copyChildren rooted_yltrieCreate (h src) user clonev key

theorem length_of_get {t : Trie α} {key : List UInt8} (h : (t.yltrieGet key).isSome) :
    key.length < maxKeyLen := by
  unfold yltrieGet at h
  split at h
  · cases h
  · have hlen := t.bounded.length_le key h
    rw [maxKeyLen] at hlen ⊢
    omega

theorem finite_keys (t : Trie α) : {key | (t.yltrieGet key).isSome}.Finite :=
  (List.finite_length_lt UInt8 maxKeyLen).subset fun _ h => length_of_get h

/-- The tries behave as finite maps, whatever operations are made on them. -/
theorem get_run (ops : List (Op ι σ α)) :
    Answer.Run MapStep ops (fun _ _ => none)
        (Answer.run step ops fun _ => (yltrieCreate : Trie α)).1
        (maps (Answer.run step ops fun _ => yltrieCreate).2) ∧
      ∀ i, {key | (maps (Answer.run step ops fun _ => yltrieCreate).2 i key).isSome}.Finite := by
  have hcreate : maps (fun _ : ι => (yltrieCreate : Trie α)) = fun _ _ => none := by
    funext i
    exact get_yltrieCreate
  constructor
  · rw [← hcreate]
    exact Answer.run_spec (Q := fun _ _ => True) maps (fun o t _ => rooted_step o t)
      (fun o t _ => mapStep_step o t) ops _ (Answer.allSteps_of_forall (fun _ _ _ => trivial) _)
      fun _ => rooted_yltrieCreate
  · exact fun i => finite_keys _

end Map

end Trie

end Ylisp
