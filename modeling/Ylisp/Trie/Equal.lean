import Ylisp.Trie.Lookup

/-!
# Equal tries

`_equal_internal` compares the nodes of two tries. A trie is `Pruned` when no
node below the root is an empty leaf; every operation keeps it so, as long as no
callback answers NULL. In a pruned and bounded trie the nodes are determined by
the keys, so `yltrie_equal` compares the contents (`yltrieEqual_run`).
-/

namespace Ylisp

namespace Trie

namespace Node

variable {α : Type*}

def Pruned : Node α → Prop
  | null => True
  | node _ n => ∀ i, ((n i).isEmptyLeaf = true → n i = null) ∧ (n i).Pruned

theorem pruned_iff {n : Node α} :
    n.Pruned ↔ ∀ i, ((n.child i).isEmptyLeaf = true → n.child i = null) ∧ (n.child i).Pruned := by
  cases n with
  | null => exact ⟨fun _ _ => ⟨fun _ => rfl, trivial⟩, fun _ => trivial⟩
  | node v n => exact Iff.rfl

/-- The value slot of the node itself plays no part. -/
theorem Pruned.congr {n m : Node α} (h : n.Pruned) (hm : m.child = n.child) : m.Pruned := by
  rw [pruned_iff, hm]
  exact pruned_iff.1 h

@[simp] theorem pruned_null : (null : Node α).Pruned := trivial

theorem isEmptyLeaf_null : (null : Node α).isEmptyLeaf = true :=
  isEmptyLeaf_iff.2 ⟨rfl, fun _ => rfl⟩

theorem isEmptyLeaf_of_child {n : Node α} {i : Fin 16} (h : n.child i ≠ null) :
    n.isEmptyLeaf = false :=
  Bool.eq_false_iff.2 fun h0 => h ((isEmptyLeaf_iff.1 h0).2 i)

theorem isEmptyLeaf_of_v {n : Node α} (h : n.v ≠ none) : n.isEmptyLeaf = false :=
  Bool.eq_false_iff.2 fun h0 => h (isEmptyLeaf_iff.1 h0).1

theorem ne_null_of_isEmptyLeaf {n : Node α} (h : n.isEmptyLeaf = false) : n ≠ null := by
  rintro rfl
  rw [isEmptyLeaf_null] at h
  cases h

theorem isEmptyLeaf_setChild {n b : Node α} (h : b ≠ null) (i : Fin 16) :
    (n.setChild i b).isEmptyLeaf = false := by
  apply isEmptyLeaf_of_child (i := i)
  rw [child_setChild, if_pos rfl]
  exact h

theorem Pruned.child {n : Node α} (h : n.Pruned) (i : Fin 16) : (n.child i).Pruned :=
  (pruned_iff.1 h i).2

theorem Pruned.byte {n : Node α} (h : n.Pruned) (c : UInt8) : (n.byte c).Pruned :=
  (h.child (front c)).child (back c)

theorem pruned_allocNode : (allocNode : Node α).Pruned :=
  fun _ => ⟨fun _ => rfl, trivial⟩

theorem Pruned.childOrAlloc {n : Node α} (h : n.Pruned) (i : Fin 16) :
    (n.childOrAlloc i).Pruned := by
  unfold Node.childOrAlloc
  split
  · exact pruned_allocNode
  · exact h.child i

theorem Pruned.setChild {n b : Node α} (h : n.Pruned) (hb : b.Pruned)
    (hleaf : b.isEmptyLeaf = true → b = null) (i : Fin 16) : (n.setChild i b).Pruned := by
  rw [pruned_iff]
  intro j
  rw [child_setChild]
  split
  · exact ⟨hleaf, hb⟩
  · exact pruned_iff.1 h j

theorem Pruned.setByte {n b : Node α} (h : n.Pruned) (hb : b.Pruned)
    (hleaf : b.isEmptyLeaf = false) (c : UInt8) : (n.setByte c b).Pruned := by
  have hfront : ((n.child (front c)).setChild (back c) b).isEmptyLeaf = false :=
    isEmptyLeaf_setChild (ne_null_of_isEmptyLeaf hleaf) _
  refine h.setChild ((h.child _).setChild hb ?_ _) ?_ _
  · rw [hleaf]
    exact nofun
  · rw [hfront]
    exact nofun

theorem isEmptyLeaf_setByte {n b : Node α} (h : b.isEmptyLeaf = false) (c : UInt8) :
    (n.setByte c b).isEmptyLeaf = false :=
  isEmptyLeaf_setChild
    (ne_null_of_isEmptyLeaf (isEmptyLeaf_setChild (ne_null_of_isEmptyLeaf h) _)) _

theorem pruned_insert (x : α) : ∀ (key : List UInt8) {n : Node α}, n.Pruned →
    (modifyNode (fun m => m.setValue x) n key).Pruned ∧
      (modifyNode (fun m => m.setValue x) n key).isEmptyLeaf = false
  | [], n, h => by
      refine ⟨h.congr rfl, isEmptyLeaf_of_v ?_⟩
      exact nofun
  | c :: p, n, h => by
      obtain ⟨hbelow, hleaf⟩ :=
        pruned_insert x p ((h.childOrAlloc (front c)).childOrAlloc (back c))
      rw [modifyNode_cons]
      exact ⟨h.setByte hbelow hleaf c, isEmptyLeaf_setByte hleaf c⟩

theorem setChild_setChild (n a b : Node α) (i : Fin 16) :
    (n.setChild i a).setChild i b = n.setChild i b := by
  change node n.v (Function.update (Function.update n.child i a) i b) = n.setChild i b
  rw [Function.update_idem]
  rfl

theorem setByte_setByte (n a b : Node α) (c : UInt8) :
    (n.setByte c a).setByte c b = n.setByte c b := by
  rw [setByte, child_setByte, setChild_setChild, setByte, setChild_setChild, setByte]

/-- Removing the empty nodes of a byte restores the pruned form. -/
theorem pruned_deleteEmptyByteLeaf {n b : Node α} (h : n.Pruned) (hb : b.Pruned) (c : UInt8) :
    ((n.setByte c b).deleteEmptyByteLeaf c).2.Pruned ∧
      (((n.setByte c b).deleteEmptyByteLeaf c).1 = 0 →
        ((n.setByte c b).deleteEmptyByteLeaf c).2.isEmptyLeaf = false) := by
  have hnull : ((n.child (front c)).setChild (back c) null).Pruned :=
    (h.child _).setChild pruned_null (fun _ => rfl) _
  unfold deleteEmptyByteLeaf
  rw [byte_setByte, setByte_setByte]
  split
  · dsimp only
    rw [child_setByte]
    split
    · refine ⟨?_, by simp⟩
      rw [setByte, setChild_setChild]
      exact h.setChild pruned_null (fun _ => rfl) _
    · rename_i hfront
      rw [Bool.not_eq_true] at hfront
      refine ⟨h.setChild hnull ?_ _, fun _ => ?_⟩
      · rw [hfront]
        simp
      · exact isEmptyLeaf_setChild (ne_null_of_isEmptyLeaf hfront) _
  · rename_i hleaf
    rw [Bool.not_eq_true] at hleaf
    exact ⟨h.setByte hb hleaf c, fun _ => isEmptyLeaf_setByte hleaf c⟩

theorem pruned_deleteKey : ∀ {n : Node α} (key : List UInt8), n.Pruned →
    (n.deleteKey key).2.Pruned ∧
      ((n.deleteKey key).1 = 0 → (n.deleteKey key).2.isEmptyLeaf = false)
  | n, [], h => by
      rw [deleteKey]
      split
      · exact ⟨h.congr rfl, by simp⟩
      · exact ⟨h, by simp⟩
  | n, c :: p, h => by
      obtain ⟨hbelow, hleaf⟩ := pruned_deleteKey p (h.byte c)
      cases hget : n.lookup (c :: p) with
      | none =>
          rw [deleteKey_of_none hget]
          exact ⟨h, by simp⟩
      | some x =>
          obtain ⟨hcode, -⟩ := lookup_deleteKey (n := n.byte c) p
            (show (n.lookup (c :: p)).isSome by rw [hget]; rfl)
          rw [deleteKey]
          split
          · exact ⟨h, by simp⟩
          · dsimp only
            rcases hcode with h1 | h0
            · rw [if_pos h1]
              exact pruned_deleteEmptyByteLeaf h hbelow c
            · rw [if_neg (by rw [h0]; decide), if_pos h0]
              have hleaf := hleaf h0
              exact ⟨h.setByte hbelow hleaf c, fun _ => isEmptyLeaf_setByte hleaf c⟩

theorem setChild_ne_null {n b : Node α} {i : Fin 16} : n.setChild i b ≠ null := by
  simp [setChild]

theorem deleteKey_ne_null {n : Node α} (h : n ≠ null) (key : List UInt8) :
    (n.deleteKey key).2 ≠ null := by
  cases key with
  | nil =>
      rw [deleteKey]
      split
      · simp [clearValue]
      · exact h
  | cons c p =>
      rw [deleteKey]
      split
      · exact h
      · dsimp only
        split
        · unfold deleteEmptyByteLeaf
          split
          · dsimp only
            split <;> exact setChild_ne_null
          · exact setChild_ne_null
        · split <;> exact setChild_ne_null

/-! ### The values of a pruned node -/

def valueAt : Node α → List (Fin 16) → Option α
  | n, [] => n.v
  | n, i :: p => (n.child i).valueAt p

theorem valueAt_cons (n : Node α) (i : Fin 16) (p : List (Fin 16)) :
    n.valueAt (i :: p) = (n.child i).valueAt p := rfl

theorem valueAt_null : ∀ p : List (Fin 16), (null : Node α).valueAt p = none
  | [] => rfl
  | i :: p => by rw [valueAt_cons, child_null, valueAt_null p]

/-- A pruned node that is no empty leaf has a value at it or below it. -/
theorem exists_valueAt : ∀ {n : Node α}, n.Pruned → n.isEmptyLeaf = false →
    ∃ p, (n.valueAt p).isSome
  | null, _, h => absurd isEmptyLeaf_null (Bool.eq_false_iff.1 h)
  | node v n, hn, h => by
      cases v with
      | some x => exact ⟨[], rfl⟩
      | none =>
          have hchild : ∃ i, n i ≠ null := by
            by_contra hnone
            rw [not_exists] at hnone
            have hempty : (node none n).isEmptyLeaf = true :=
              isEmptyLeaf_iff.2 ⟨rfl, fun i => not_not.1 (hnone i)⟩
            rw [hempty] at h
            cases h
          obtain ⟨i, hi⟩ := hchild
          have hleaf : (n i).isEmptyLeaf = false :=
            Bool.eq_false_iff.2 fun h0 => hi ((hn i).1 h0)
          obtain ⟨p, hp⟩ := exists_valueAt (hn i).2 hleaf
          exact ⟨i :: p, hp⟩

/-- A child of a pruned node that is there has a value at it or below it. -/
theorem Pruned.exists_valueAt {n : Node α} (h : n.Pruned) {i : Fin 16} (hi : n.child i ≠ null) :
    ∃ p, ((n.child i).valueAt p).isSome :=
  Node.exists_valueAt (h.child i) (Bool.eq_false_iff.2 fun h0 => hi ((pruned_iff.1 h i).1 h0))

def Agree (cmp : α → α → Bool) (n0 n1 : Node α) : Prop :=
  ∀ p, Option.Rel (fun x y => cmp x y = true) (n0.valueAt p) (n1.valueAt p)

theorem agree_iff {cmp : α → α → Bool} {n0 n1 : Node α} :
    Agree cmp n0 n1 ↔ Option.Rel (fun x y => cmp x y = true) n0.v n1.v ∧
      ∀ i, Agree cmp (n0.child i) (n1.child i) := by
  constructor
  · exact fun h => ⟨h [], fun i p => h (i :: p)⟩
  · rintro ⟨hv, hchild⟩ p
    cases p with
    | nil => exact hv
    | cons i p => exact hchild i p

theorem isSome_of_rel {r : α → α → Prop} {v0 v1 : Option α} (h : Option.Rel r v0 v1) :
    v0.isSome = v1.isSome := by
  cases h <;> rfl

theorem Agree.isSome {cmp : α → α → Bool} {n0 n1 : Node α} (h : Agree cmp n0 n1)
    (p : List (Fin 16)) : (n0.valueAt p).isSome = (n1.valueAt p).isSome :=
  isSome_of_rel (h p)

theorem not_agree_null_left {cmp : α → α → Bool} {n1 : Node α} (h : Agree cmp null n1) :
    ¬ ∃ p, (n1.valueAt p).isSome := by
  rintro ⟨p, hp⟩
  rw [← h.isSome, valueAt_null] at hp
  cases hp

theorem not_agree_null_right {cmp : α → α → Bool} {n0 : Node α} (h : Agree cmp n0 null) :
    ¬ ∃ p, (n0.valueAt p).isSome := by
  rintro ⟨p, hp⟩
  rw [h.isSome, valueAt_null] at hp
  cases hp

theorem agree_null {cmp : α → α → Bool} : Agree cmp (null : Node α) null := by
  intro p
  rw [valueAt_null]
  exact Option.Rel.none

theorem equalInternal_node {cmp : α → α → Bool} {v0 v1 : Option α} {n0 n1 : Fin 16 → Node α} :
    equalInternal cmp (node v0 n0) (node v1 n1) = true ↔
      Option.Rel (fun x y => cmp x y = true) v0 v1 ∧
        ∀ i, equalInternal cmp (n0 i) (n1 i) = true := by
  cases v0 with
  | none => cases v1 <;> simp [equalInternal]
  | some x => cases v1 <;> simp [equalInternal]

/-- Comparing the nodes of pruned tries is comparing the values. -/
theorem equalInternal_iff {cmp : α → α → Bool} : ∀ {n0 n1 : Node α}, n0.Pruned → n1.Pruned →
    (n0 = null ↔ n1 = null) → (equalInternal cmp n0 n1 = true ↔ Agree cmp n0 n1)
  | null, n1, _, _, hnull => by
      rw [hnull.1 rfl]
      exact ⟨fun _ => agree_null, fun _ => rfl⟩
  | node _ _, null, _, _, hnull => absurd (hnull.2 rfl) nofun
  | node v0 n0, node v1 n1, h0, h1, _ => by
      rw [equalInternal_node, agree_iff]
      refine and_congr Iff.rfl (forall_congr' fun i => ?_)
      change equalInternal cmp (n0 i) (n1 i) = true ↔ Agree cmp (n0 i) (n1 i)
      by_cases hi0 : n0 i = null
      · by_cases hi1 : n1 i = null
        · rw [hi0, hi1]
          exact ⟨fun _ => agree_null, fun _ => rfl⟩
        · rw [hi0]
          constructor
          · intro h
            exact absurd ((isNull_iff _).1 h) hi1
          · intro h
            exact absurd (h1.exists_valueAt (i := i) hi1) (not_agree_null_left h)
      · by_cases hi1 : n1 i = null
        · rw [hi1]
          constructor
          · intro h
            cases hn : n0 i with
            | null => exact absurd hn hi0
            | node v n =>
                rw [hn] at h
                cases h
          · intro h
            exact absurd (h0.exists_valueAt (i := i) hi0) (not_agree_null_right h)
        · exact equalInternal_iff (h0 i).2 (h1 i).2
            ⟨fun h => absurd h hi0, fun h => absurd h hi1⟩

/-! ### Keys and paths -/

def nibbles (key : List UInt8) : List (Fin 16) := key.flatMap fun c => [front c, back c]

theorem valueAt_nibbles : ∀ (key : List UInt8) (n : Node α),
    n.valueAt (nibbles key) = n.lookup key
  | [], _ => rfl
  | c :: p, n => valueAt_nibbles p (n.byte c)

theorem exists_byte (i j : Fin 16) : ∃ c, front c = i ∧ back c = j := by
  have hi := i.isLt
  have hj := j.isLt
  have hc : (UInt8.ofNat (16 * i.val + j.val)).toNat = 16 * i.val + j.val := by
    rw [UInt8.toNat_ofNat']
    omega
  refine ⟨UInt8.ofNat (16 * i.val + j.val), Fin.ext ?_, Fin.ext ?_⟩
  · change (UInt8.ofNat (16 * i.val + j.val)).toNat / 16 = i.val
    omega
  · change (UInt8.ofNat (16 * i.val + j.val)).toNat % 16 = j.val
    omega

theorem exists_nibbles : ∀ p : List (Fin 16), p.length % 2 = 0 → ∃ key, nibbles key = p
  | [], _ => ⟨[], rfl⟩
  | [_], h => absurd h (by simp)
  | i :: j :: p, h => by
      have hp : p.length % 2 = 0 := by
        rw [List.length_cons, List.length_cons] at h
        omega
      obtain ⟨key, rfl⟩ := exists_nibbles p hp
      obtain ⟨c, rfl, rfl⟩ := exists_byte i j
      exact ⟨c :: key, rfl⟩

/-- In a bounded node the values sit at byte boundaries. -/
theorem Bounded.even_of_valueAt : ∀ {n : Node α} {k : ℕ} {p : List (Fin 16)}, n.Bounded k →
    (n.valueAt p).isSome → p.length ≤ k ∧ (k - p.length) % 2 = 0
  | n, k, [], h, hp => ⟨Nat.zero_le k, h.value hp⟩
  | n, k, i :: p, h, hp => by
      have hi : n.child i ≠ null := by
        intro h0
        rw [valueAt_cons, h0, valueAt_null] at hp
        cases hp
      have hk := h.pos hi
      obtain ⟨hle, heven⟩ := (h.child i).even_of_valueAt hp
      rw [List.length_cons]
      omega

/-- Bounded nodes agree as soon as they agree on the keys. -/
theorem agree_iff_lookup {cmp : α → α → Bool} {n0 n1 : Node α} {k : ℕ} (hk : k % 2 = 0)
    (h0 : n0.Bounded k) (h1 : n1.Bounded k) :
    Agree cmp n0 n1 ↔
      ∀ key, Option.Rel (fun x y => cmp x y = true) (n0.lookup key) (n1.lookup key) := by
  constructor
  · intro h key
    rw [← valueAt_nibbles, ← valueAt_nibbles]
    exact h _
  · intro h p
    by_cases hp : p.length % 2 = 0
    · obtain ⟨key, rfl⟩ := exists_nibbles p hp
      rw [valueAt_nibbles, valueAt_nibbles]
      exact h key
    · have hnone : ∀ {n : Node α}, n.Bounded k → n.valueAt p = none := by
        intro n hn
        rw [← Option.not_isSome_iff_eq_none]
        intro hsome
        obtain ⟨hle, heven⟩ := hn.even_of_valueAt hsome
        omega
      rw [hnone h0, hnone h1]
      exact Option.Rel.none

end Node

/-! ### Runs -/

section Copy

variable {σ α : Type*} {clonev : Option (Clonev σ α)}

def NeverNull (clonev : Option (Clonev σ α)) : Prop :=
  ∀ f, clonev = some f → ∀ user x, ((f user x).2).isSome

theorem CopiedValue.isSome_iff (hf : NeverNull clonev) {v v' : Option α}
    (h : CopiedValue clonev v v') : v'.isSome = v.isSome := by
  cases v with
  | none => rw [show v' = none from h]
  | some x =>
      cases clonev with
      | none => rw [show v' = some x from h]
      | some f =>
          obtain ⟨user, rfl⟩ := h
          exact hf f rfl user x

theorem Copied.isEmptyLeaf (hf : NeverNull clonev) {n n' : Node α} (h : Copied clonev n n') :
    n'.isEmptyLeaf = n.isEmptyLeaf := by
  cases h with
  | null => rfl
  | node hv hn =>
      rw [Bool.eq_iff_iff, Node.isEmptyLeaf_iff, Node.isEmptyLeaf_iff]
      refine and_congr ?_ (forall_congr' fun i => ?_)
      · rw [← Option.not_isSome_iff_eq_none, ← Option.not_isSome_iff_eq_none]
        exact not_congr (Bool.eq_iff_iff.1 (hv.isSome_iff hf))
      · rw [← Node.isNull_iff, ← Node.isNull_iff]
        exact Bool.eq_iff_iff.1 (hn i).isNull

theorem Copied.pruned (hf : NeverNull clonev) {n n' : Node α} (h : Copied clonev n n') :
    n.Pruned → n'.Pruned := by
  induction h with
  | null => exact id
  | node hv hn ih =>
      intro hp i
      refine ⟨fun h0 => ?_, ih i (hp i).2⟩
      rw [(hn i).isEmptyLeaf hf] at h0
      rw [← Node.isNull_iff, (hn i).isNull, Node.isNull_iff]
      exact (hp i).1 h0

end Copy

section Run

variable {ι σ α : Type*} [DecidableEq ι]

/-- The operations whose callbacks, if any, never answer NULL. -/
def Op.Plain : Op ι σ α → Prop
  | .copy _ _ _ clonev => NeverNull clonev
  | .clone _ _ _ clonev => NeverNull clonev
  | _ => True

/-- The form that the operations keep: a root node with no value, and no empty
leaf below it. -/
def Canonical (t : Trie α) : Prop := Rooted t ∧ t.rt ≠ .null ∧ t.rt.Pruned

theorem canonical_yltrieCreate : Canonical (yltrieCreate : Trie α) :=
  ⟨rooted_yltrieCreate, nofun, Node.pruned_allocNode⟩

theorem canonical_insertPtr {t : Trie α} (h : Canonical t) (key : List UInt8) (v : Option α) :
    Canonical (t.insertPtr key v).2 := by
  refine ⟨rooted_insertPtr h.1 key v, ?_⟩
  cases v with
  | none => exact h.2
  | some x =>
      change (t.yltrieInsert key x).2.rt ≠ .null ∧ (t.yltrieInsert key x).2.rt.Pruned
      unfold yltrieInsert
      split
      · exact h.2
      · split
        · exact h.2
        · obtain ⟨hpruned, hleaf⟩ := Node.pruned_insert x key h.2.2
          exact ⟨Node.ne_null_of_isEmptyLeaf hleaf, hpruned⟩

theorem canonical_yltrieDelete {t : Trie α} (h : Canonical t) (key : List UInt8) :
    Canonical (t.yltrieDelete key).2 :=
  ⟨rooted_yltrieDelete h.1 key, Node.deleteKey_ne_null h.2.1 key,
    (Node.pruned_deleteKey key h.2.2).1⟩

theorem canonical_yltrieClean {t : Trie α} (h : Canonical t) : Canonical t.yltrieClean :=
  ⟨h.1.clean, nofun, fun _ => ⟨fun _ => rfl, trivial⟩⟩

theorem canonical_copyChildren {dst src : Trie α} (hdst : Canonical dst) (hsrc : Canonical src)
    (user : σ) {clonev : Option (Clonev σ α)} (hf : NeverNull clonev) :
    Canonical (copyChildren dst.yltrieClean src user clonev) := by
  refine ⟨rooted_copyChildren hdst.1 src user clonev, nofun, Node.pruned_iff.2 fun i => ?_⟩
  have hi := copied_child_copyChildren dst src user clonev i
  obtain ⟨hleaf, hpruned⟩ := Node.pruned_iff.1 hsrc.2.2 i
  refine ⟨fun h0 => ?_, hi.pruned hf hpruned⟩
  rw [hi.isEmptyLeaf hf] at h0
  rw [← Node.isNull_iff, hi.isNull, Node.isNull_iff]
  exact hleaf h0

theorem canonical_step (o : Op ι σ α) (t : ι → Trie α) (ho : o.Plain)
    (h : ∀ i, Canonical (t i)) (i : ι) : Canonical ((step o t).2 i) := by
  cases o with
  | create j => exact forall_update h canonical_yltrieCreate j i
  | insert j key v => exact forall_update h (canonical_insertPtr (h j) key v) j i
  | delete j key => exact forall_update h (canonical_yltrieDelete (h j) key) j i
  | clean j => exact forall_update h (canonical_yltrieClean (h j)) j i
  | copy dst src user clonev =>
      have hclean := forall_update h (canonical_yltrieClean (h dst)) dst
      rw [step, yltrieCopy_eq]
      exact forall_update h (canonical_copyChildren (h dst) (hclean src) user ho) dst i
  | clone dst src user clonev =>
      exact forall_update h
        (canonical_copyChildren canonical_yltrieCreate (h src) user ho) dst i

theorem canonical_run {ops : List (Op ι σ α)} (h : ∀ o ∈ ops, o.Plain) :
    ∀ i, Canonical ((Answer.run step ops fun _ => yltrieCreate).2 i) :=
  Answer.run_induction (I := fun t : ι → Trie α => ∀ i, Canonical (t i)) canonical_step ops _
    (Answer.allSteps_of_forall (fun o ho _ => h o ho) _) fun _ => canonical_yltrieCreate

theorem yltrieEqual_iff {t0 t1 : Trie α} (h0 : Canonical t0) (h1 : Canonical t1)
    (cmp : α → α → Bool) :
    t0.yltrieEqual t1 cmp = true ↔
      (∀ key, (t0.yltrieGet key).isSome = (t1.yltrieGet key).isSome) ∧
        ∀ key x y, t0.yltrieGet key = some x → t1.yltrieGet key = some y → cmp x y = true := by
  have hnull : t0.rt = .null ↔ t1.rt = .null :=
    ⟨fun h => absurd h h0.2.1, fun h => absurd h h1.2.1⟩
  rw [yltrieEqual, Node.equalInternal_iff h0.2.2 h1.2.2 hnull,
    Node.agree_iff_lookup (Nat.mul_mod_right 2 _) t0.bounded t1.bounded]
  constructor
  · intro h
    refine ⟨fun key => ?_, fun key x y hx hy => ?_⟩
    · rw [h0.1.get, h1.1.get]
      exact Node.isSome_of_rel (h key)
    · have hkey := h key
      rw [← h0.1.get, ← h1.1.get, hx, hy] at hkey
      cases hkey with
      | some h => exact h
  · rintro ⟨hkeys, hvalues⟩ key
    have hkey := hkeys key
    have hvalue := hvalues key
    rw [← h0.1.get, ← h1.1.get]
    cases hx : t0.yltrieGet key with
    | none =>
        rw [hx] at hkey
        rw [Option.not_isSome_iff_eq_none.1 (Bool.eq_false_iff.1 hkey.symm)]
        exact Option.Rel.none
    | some x =>
        rw [hx] at hkey
        obtain ⟨y, hy⟩ := Option.isSome_iff_exists.1 hkey.symm
        rw [hy]
        exact Option.Rel.some (hvalue x y hx hy)

/-- The shape of a trie depends on its contents only. -/
theorem yltrieEqual_run {ι' σ' : Type*} [DecidableEq ι'] {ops0 : List (Op ι σ α)}
    {ops1 : List (Op ι' σ' α)} (h0 : ∀ o ∈ ops0, o.Plain) (h1 : ∀ o ∈ ops1, o.Plain) (i0 : ι)
    (i1 : ι') (cmp : α → α → Bool) :
    let t0 := (Answer.run step ops0 fun _ => yltrieCreate).2 i0
    let t1 := (Answer.run step ops1 fun _ => yltrieCreate).2 i1
    t0.yltrieEqual t1 cmp = true ↔
      (∀ key, (t0.yltrieGet key).isSome = (t1.yltrieGet key).isSome) ∧
        ∀ key x y, t0.yltrieGet key = some x → t1.yltrieGet key = some y → cmp x y = true := by
  intro t0 t1
  exact yltrieEqual_iff (canonical_run h0 i0) (canonical_run h1 i1) cmp

def detour : List (Op Bool Unit ℕ) :=
  [.insert false [1] (some 6), .insert false [1, 2] (some 5), .delete false [1],
    .copy true false () (some fun _ x => ((), some (x + 2)))]

def straight : List (Op Unit Unit ℕ) := [.insert () [1, 2] (some 7)]

theorem detour_plain : ∀ o ∈ detour, o.Plain := by
  intro o ho
  simp only [detour, List.mem_cons, List.not_mem_nil, or_false] at ho
  rcases ho with rfl | rfl | rfl | rfl
  · exact trivial
  · exact trivial
  · exact trivial
  · intro f hf user x
    rw [← Option.some.inj hf]
    rfl

theorem straight_plain : ∀ o ∈ straight, o.Plain := by
  intro o ho
  rw [List.mem_singleton.1 ho]
  exact trivial

theorem yltrieEqual_run_detour :
    let t0 := (Answer.run step detour fun _ => yltrieCreate).2 true
    let t1 := (Answer.run step straight fun _ => yltrieCreate).2 ()
    t0.yltrieEqual t1 (fun x y => x == y) = true ∧
      (t0.yltrieEqual t1 (fun x y => x == y) = true ↔
        (∀ key, (t0.yltrieGet key).isSome = (t1.yltrieGet key).isSome) ∧
          ∀ key x y, t0.yltrieGet key = some x → t1.yltrieGet key = some y →
            (x == y) = true) :=
  ⟨by decide +kernel,
    yltrieEqual_run detour_plain straight_plain true () fun x y => x == y⟩

end Run

end Trie

end Ylisp
