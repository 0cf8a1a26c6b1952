import Mathlib.Data.List.Perm.Basic
import Ylisp.Trie.Entries

/-!
# The callback that frees values

The operations of `trie.c` with the callback `fcb` of the trie, which is given each value
that leaves it. An insertion and a deletion give it the value that the key had
(`yltrieInsertFcb_eq`, `yltrieDeleteFcb_eq`), and a clean up gives it every stored value
once (`yltrieCleanFcb_eq`). The values of a trie change the way its map does
(`values_perm_of_update`).
-/

namespace Ylisp

namespace Trie

open scoped List

section Free

variable {σ α : Type*} (fcb : σ → α → σ)

namespace Node

def freeNode (n : Node α) (s : σ) : σ :=
  match n.v with
  | some x => fcb s x
  | none => s

def deleteNode : Node α → σ → σ
  | null, s => s
  | node v n, s =>
      freeNode fcb (node v n) ((List.finRange 16).foldl (fun s i => deleteNode (n i) s) s)

/-- `_delete_key` with its callback. -/
def deleteKeyFcb : Node α → List UInt8 → σ → σ × ℤ × Node α
  | n, [], s => if n.v.isSome then (freeNode fcb n s, 1, n.clearValue) else (s, -1, n)
  | n, c :: p, s =>
      if (n.byte c).isNull then (s, -1, n)
      else
        let r := deleteKeyFcb (n.byte c) p s
        let m := n.setByte c r.2.2
        (r.1, if r.2.1 = 1 then m.deleteEmptyByteLeaf c else if r.2.1 = 0 then (0, m) else (-1, m))

/-- The values in the order in which `_delete_node` frees them. -/
def freed : Node α → List α
  | null => []
  | node v n => ((List.finRange 16).flatMap fun i => (n i).freed) ++ v.toList

theorem freeNode_eq (n : Node α) (s : σ) : freeNode fcb n s = n.v.toList.foldl fcb s := by
  rw [freeNode]
  cases n.v <;> rfl

theorem foldl_deleteNode {n : Fin 16 → Node α}
    (h : ∀ i s, (n i).deleteNode fcb s = (n i).freed.foldl fcb s) :
    ∀ (is : List (Fin 16)) (s : σ), is.foldl (fun s i => (n i).deleteNode fcb s) s =
      (is.flatMap fun i => (n i).freed).foldl fcb s
  | [], _ => rfl
  | i :: is, s => by
      rw [List.foldl_cons, foldl_deleteNode h is, h, List.flatMap_cons, List.foldl_append]

theorem deleteNode_eq : ∀ (n : Node α) (s : σ), n.deleteNode fcb s = n.freed.foldl fcb s
  | null, _ => rfl
  | node v n, s => by
      rw [deleteNode, freeNode_eq, foldl_deleteNode fcb fun i => deleteNode_eq (n i), freed,
        List.foldl_append]
      rfl

theorem freed_perm : ∀ n : Node α, n.freed ~ n.values
  | null => List.Perm.refl _
  | node v n => by
      rw [freed, values]
      refine List.perm_append_comm.trans (List.Perm.append_left _ ?_)
      exact List.Perm.flatMap_left _ fun i _ => freed_perm (n i)

theorem deleteKeyFcb_eq : ∀ (n : Node α) (key : List UInt8) (s : σ),
    n.deleteKeyFcb fcb key s = ((n.lookup key).toList.foldl fcb s, n.deleteKey key)
  | n, [], s => by
      rw [deleteKeyFcb, deleteKey, freeNode_eq, lookup_nil]
      cases n.v <;> rfl
  | n, c :: p, s => by
      rw [deleteKeyFcb, deleteKey, lookup_cons, deleteKeyFcb_eq (n.byte c) p s]
      split
      · rename_i hnull
        rw [(isNull_iff _).1 hnull, lookup_null]
        rfl
      · rfl

theorem bounded_deleteKeyFcb {n : Node α} {k : ℕ} (key : List UInt8) (s : σ) (h : n.Bounded k) :
    (n.deleteKeyFcb fcb key s).2.2.Bounded k := by
  rw [deleteKeyFcb_eq]
  exact h.deleteKey key

end Node

/-- `yltrie_insert` of a non-NULL value, with the callback. -/
def yltrieInsertFcb (t : Trie α) (key : List UInt8) (x : α) (s : σ) : σ × ℤ × Trie α :=
  if key.length = 0 then (s, -1, t)
  else if key.length ≥ maxKeyLen then (s, -1, t)
  else (Node.freeNode fcb (getNode t.rt key) s, t.yltrieInsert key x)

/-- `yltrie_delete` with the callback. -/
def yltrieDeleteFcb (t : Trie α) (key : List UInt8) (s : σ) : σ × ℤ × Trie α :=
  let r := t.rt.deleteKeyFcb fcb key s
  have hbounded : r.2.2.Bounded (2 * (maxKeyLen - 1)) :=
    Node.bounded_deleteKeyFcb fcb key s t.bounded
  (r.1, if r.2.1 = 1 ∨ r.2.1 = 0 then 0 else -1, ⟨r.2.2, hbounded⟩)

/-- `yltrie_clean` with the callback. -/
def yltrieCleanFcb (t : Trie α) (s : σ) : σ × Trie α :=
  ((List.finRange 16).foldl (fun s i => (t.rt.child i).deleteNode fcb s) s, t.yltrieClean)

theorem yltrieInsertFcb_eq (t : Trie α) (key : List UInt8) (x : α) (s : σ) :
    t.yltrieInsertFcb fcb key x s =
      ((t.yltrieGet key).toList.foldl fcb s, t.yltrieInsert key x) := by
  rw [yltrieInsertFcb, yltrieInsert]
  split
  · rename_i h0
    rw [yltrieGet, if_pos h0]
    rfl
  · rename_i h0
    split
    · rename_i hlen
      have hnone : t.yltrieGet key = none := by
        rw [← Option.not_isSome_iff_eq_none]
        exact fun h => absurd (length_of_get h) (Nat.not_lt.2 hlen)
      rw [hnone]
      rfl
    · rename_i hlen
      rw [Node.freeNode_eq, yltrieGet, if_neg h0]

theorem yltrieDeleteFcb_eq {t : Trie α} (ht : Rooted t) (key : List UInt8) (s : σ) :
    t.yltrieDeleteFcb fcb key s =
      ((t.yltrieGet key).toList.foldl fcb s, t.yltrieDelete key) := by
  rw [ht.get, yltrieDelete, yltrieDeleteFcb]
  simp only [Node.deleteKeyFcb_eq]

/-- A clean up frees the stored values, each of them once. -/
theorem yltrieCleanFcb_eq {t : Trie α} (ht : Rooted t) : ∃ vs, vs ~ t.values ∧
    ∀ s, t.yltrieCleanFcb fcb s = (vs.foldl fcb s, t.yltrieClean) := by
  refine ⟨t.rt.freed, t.rt.freed_perm, fun s => ?_⟩
  rw [yltrieCleanFcb, Node.foldl_deleteNode fcb fun i => Node.deleteNode_eq fcb _]
  obtain ⟨rt, hbounded⟩ := t
  cases rt with
  | null => simp [Node.child, Node.freed, List.flatMap]
  | node v n =>
      change v = none at ht
      subst ht
      simp [Node.child, Node.freed]

end Free

/-! ### The stored values and the map -/

section Values

variable {α : Type*}

theorem Node.map_flatMap_entries {n : Fin 16 → Node α} {key : Fin 16 → List UInt8}
    {hi : Fin 16 → Option (Fin 16)}
    (h : ∀ i, ((n i).entries (key i) (hi i)).map Prod.snd = (n i).values) :
    ((List.finRange 16).flatMap fun i => (n i).entries (key i) (hi i)).map Prod.snd =
      (List.finRange 16).flatMap fun i => (n i).values := by
  rw [List.map_flatMap]
  simp only [h]

theorem Node.entries_values : ∀ {n : Node α} {k : ℕ} (key : List UInt8) (hi : Option (Fin 16)),
    n.Bounded k → (hi.toList.length + k) % 2 = 0 → (n.entries key hi).map Prod.snd = n.values
  | null, _, _, _, _, _ => rfl
  | node v n, k, key, none, hn, heven => by
      rw [entries, values, List.map_append, map_flatMap_entries, List.map_map]
      · cases v <;> rfl
      · intro i
        cases hi : (n i).isNull with
        | true =>
            rw [(isNull_iff _).1 hi]
            rfl
        | false =>
            obtain ⟨hk, hbelow⟩ := hn.2 i hi
            rw [Option.toList_none, List.length_nil] at heven
            exact entries_values key (some i) hbelow (by simp; omega)
  | node v n, k, key, some i, hn, heven => by
      rw [Option.toList_some, List.length_singleton] at heven
      have hv : v = none := by
        cases v with
        | none => rfl
        | some x =>
            have hk := hn.1 rfl
            omega
      subst hv
      rw [entries, values, map_flatMap_entries]
      · rfl
      · intro j
        cases hj : (n j).isNull with
        | true =>
            rw [(isNull_iff _).1 hj]
            rfl
        | false =>
            obtain ⟨hk, hbelow⟩ := hn.2 j hj
            exact entries_values _ none hbelow (by simp; omega)

theorem values_eq (t : Trie α) : t.values = (t.continuations []).map Prod.snd :=
  (Node.entries_values [] none t.bounded (by decide)).symm

theorem continuations_nodup (t : Trie α) (pre : List UInt8) : (t.continuations pre).Nodup := by
  refine (t.continuations_sorted pre).imp ?_
  rintro e _ hlt rfl
  exact List.lt_irrefl e.1 hlt

theorem mem_at_key {t : Trie α} {key : List UInt8} {e : List UInt8 × α} :
    e ∈ ((t.yltrieGet key).toList.map fun x => (key, x)) ↔
      e.1 = key ∧ t.yltrieGet key = some e.2 := by
  simp only [List.mem_map, Option.mem_toList]
  constructor
  · rintro ⟨x, hx, rfl⟩
    exact ⟨rfl, hx⟩
  · rintro ⟨rfl, hx⟩
    exact ⟨e.2, hx, rfl⟩

/-- The entries of a trie at a key and at the others. -/
theorem continuations_perm {t : Trie α} (ht : Rooted t) (key : List UInt8) :
    t.continuations [] ~ ((t.yltrieGet key).toList.map fun x => (key, x)) ++
      (t.continuations []).filter fun e => e.1 ≠ key := by
  refine (List.perm_ext_iff_of_nodup (t.continuations_nodup []) ?_).2 fun e => ?_
  · refine List.nodup_append.2 ⟨?_, (t.continuations_nodup []).filter _, ?_⟩
    · cases t.yltrieGet key with
      | none => exact List.nodup_nil
      | some x => exact List.nodup_singleton _
    · rintro e he e' he' rfl
      exact of_decide_eq_true (List.mem_filter.1 he').2 (mem_at_key.1 he).1
  · have he : e ∈ t.continuations [] ↔ t.yltrieGet e.1 = some e.2 := mem_continuations ht
    rw [List.mem_append, mem_at_key, List.mem_filter, he, decide_eq_true_iff]
    constructor
    · intro hget
      by_cases hkey : e.1 = key
      · exact Or.inl ⟨hkey, hkey ▸ hget⟩
      · exact Or.inr ⟨hget, hkey⟩
    · rintro (⟨hkey, hget⟩ | ⟨hget, -⟩)
      · exact hkey ▸ hget
      · exact hget

/-- A change of the map at a key leaves the other entries alone. -/
theorem filter_perm_of_update {t t' : Trie α} (ht : Rooted t) (ht' : Rooted t')
    {key : List UInt8} {v : Option α} (h : t'.yltrieGet = Function.update t.yltrieGet key v) :
    ((t'.continuations []).filter fun e => e.1 ≠ key) ~
      (t.continuations []).filter fun e => e.1 ≠ key := by
  refine (List.perm_ext_iff_of_nodup ((t'.continuations_nodup []).filter _)
    ((t.continuations_nodup []).filter _)).2 fun e => ?_
  have he : e ∈ t.continuations [] ↔ t.yltrieGet e.1 = some e.2 := mem_continuations ht
  have he' : e ∈ t'.continuations [] ↔ t'.yltrieGet e.1 = some e.2 := mem_continuations ht'
  rw [List.mem_filter, List.mem_filter, he, he', decide_eq_true_iff, h]
  refine and_congr_left fun hkey => ?_
  rw [Function.update_of_ne hkey]

/-- The values that come and go when a map changes at one key. -/
theorem values_perm_of_update {t t' : Trie α} (ht : Rooted t) (ht' : Rooted t')
    {key : List UInt8} {v : Option α} (h : t'.yltrieGet = Function.update t.yltrieGet key v) :
    (t.yltrieGet key).toList ++ t'.values ~ v.toList ++ t.values := by
  have hsplit : ∀ {u : Trie α}, Rooted u → u.values ~ (u.yltrieGet key).toList ++
      ((u.continuations []).filter fun e => e.1 ≠ key).map Prod.snd := by
    intro u hu
    have hperm := (continuations_perm hu key).map Prod.snd
    rw [List.map_append, List.map_map, ← values_eq] at hperm
    refine hperm.trans (List.Perm.append_right _ ?_)
    cases u.yltrieGet key <;> exact List.Perm.refl _
  have hv : t'.yltrieGet key = v := by
    rw [h, Function.update_self]
  have hrest := (filter_perm_of_update ht ht' h).map Prod.snd
  calc (t.yltrieGet key).toList ++ t'.values
      ~ (t.yltrieGet key).toList ++ (v.toList ++
          ((t.continuations []).filter fun e => e.1 ≠ key).map Prod.snd) :=
        List.Perm.append_left _ ((hv ▸ hsplit ht').trans (List.Perm.append_left _ hrest))
    _ ~ v.toList ++ ((t.yltrieGet key).toList ++
          ((t.continuations []).filter fun e => e.1 ≠ key).map Prod.snd) :=
        List.perm_append_comm_assoc _ _ _
    _ ~ v.toList ++ t.values := List.Perm.append_left _ (hsplit ht).symm

end Values

end Trie

end Ylisp
