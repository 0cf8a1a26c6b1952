import Mathlib.Data.List.FinRange
import Ylisp.Trie.Basic

/-!
# Walking a trie

`walkInternal` is the recursion of `_walk_internal`: it offers the value of the
node to the callback and then visits the sixteen children in order, writing the
half byte of each into the key buffer. It ends early when the callback asks for
it (result `0`) or when the buffer is full (result `-1`).

There is one buffer: a child leaves its half bytes behind. From the bit offset of a node on, the
walk below it may write anything; in front of it, nothing is changed (`kept_walkInternal`).

On a bounded trie the buffer is never full, so a callback that always continues
is given every value stored in the trie (`fullWalk_eq_foldl`).
-/

namespace Ylisp

namespace Trie

/-- Write the half byte `i` at the bit offset into the buffer. The back half is put into what
is left of the byte when the old one is masked out. -/
def setNibble (buf : ℕ → UInt8) (bitoffset : ℕ) (i : Fin 16) : ℕ → UInt8 :=
  Function.update buf (bitoffset / 8)
    (if bitoffset % 8 = 0 then UInt8.ofNat (i.val * 16)
    else (buf (bitoffset / 8) &&& 0xf0) ||| UInt8.ofNat i.val)

/-- The loop of `_walk_internal` over the children that are left. -/
def walkChildren {σ α : Type*} (bsz : ℕ) (n : Fin 16 → Node α)
    (walk : Fin 16 → (ℕ → UInt8) → σ → (ℕ → UInt8) × σ × ℤ) (bitoffset : ℕ) :
    List (Fin 16) → (ℕ → UInt8) → σ → (ℕ → UInt8) × σ × ℤ
  | [], buf, s => (buf, s, 1)
  | i :: is, buf, s =>
      if (n i).isNull then walkChildren bsz n walk bitoffset is buf s
      else if bitoffset / 8 = bsz then (buf, s, -1)
      else
        let r := walk i (setNibble buf bitoffset i) s
        if r.2.2 ≤ 0 then r else walkChildren bsz n walk bitoffset is r.1 r.2.1

/-- `_walk_internal`. The callback gets the user state, the key bytes written
so far and the value; it answers whether to keep going. The result is the buffer, the user
state and the return value. -/
def walkInternal {σ α : Type*} (cb : σ → List UInt8 → α → σ × Bool) (bsz : ℕ) :
    Node α → (ℕ → UInt8) → ℕ → σ → (ℕ → UInt8) × σ × ℤ
  | .null, buf, _, s => (buf, s, 1)
  | .node v n, buf, bitoffset, s =>
      let children :=
        walkChildren bsz n
          (fun i buf' s' => walkInternal cb bsz (n i) buf' (bitoffset + 4) s')
          bitoffset (List.finRange 16) buf
      match v with
      | none => children s
      | some x =>
          let r := cb s ((List.range (bitoffset / 8)).map buf) x
          if r.2 then children r.1 else (buf, r.1, 0)

/-- `yltrie_full_walk`. -/
def fullWalk {σ α : Type*} (t : Trie α) (cb : σ → List UInt8 → α → σ × Bool)
    (s : σ) : σ × ℤ :=
  (walkInternal cb maxKeyLen t.rt (fun _ => 0) 0 s).2

/-! ### The buffer -/

/-- The two buffers agree in front of the bit offset. -/
structure Kept (bitoffset : ℕ) (buf buf' : ℕ → UInt8) : Prop where
  byte : ∀ j < bitoffset / 8, buf' j = buf j
  half : bitoffset % 8 ≠ 0 → buf' (bitoffset / 8) &&& 0xf0 = buf (bitoffset / 8) &&& 0xf0

section Kept

variable {bitoffset : ℕ} {buf buf' buf'' : ℕ → UInt8}

theorem Kept.refl (bitoffset : ℕ) (buf : ℕ → UInt8) : Kept bitoffset buf buf :=
  ⟨fun _ _ => rfl, fun _ => rfl⟩

theorem Kept.trans (h : Kept bitoffset buf buf') (h' : Kept bitoffset buf' buf'') :
    Kept bitoffset buf buf'' :=
  ⟨fun j hj => (h'.byte j hj).trans (h.byte j hj), fun hb => (h'.half hb).trans (h.half hb)⟩

theorem Kept.parent (hb : bitoffset % 4 = 0) (h : Kept (bitoffset + 4) buf buf') :
    Kept bitoffset buf buf' where
  byte := fun j hj => h.byte j (by omega)
  half := fun hne => congrArg (· &&& 0xf0) (h.byte _ (by omega))

theorem masked_or (x : UInt8) (i : Fin 16) :
    ((x &&& 0xf0) ||| UInt8.ofNat i.val) &&& 0xf0 = x &&& 0xf0 := by
  have hlow : ∀ i : Fin 16, UInt8.ofNat i.val &&& 0xf0 = 0 := by decide
  apply UInt8.toBitVec_inj.1
  have hlow' := congrArg UInt8.toBitVec (hlow i)
  rw [UInt8.toBitVec_and] at hlow'
  rw [UInt8.toBitVec_and, UInt8.toBitVec_or, BitVec.and_or_distrib_right, hlow',
    UInt8.toBitVec_and, BitVec.and_assoc, BitVec.and_self]
  exact BitVec.or_zero

/-- The back half of a byte does not touch the front half. -/
theorem kept_setNibble (bitoffset : ℕ) (buf : ℕ → UInt8) (i : Fin 16) :
    Kept bitoffset buf (setNibble buf bitoffset i) where
  byte := fun j hj => Function.update_of_ne (Nat.ne_of_lt hj) _ _
  half := by
    intro hne
    rw [setNibble, Function.update_self, if_neg hne, masked_or]

theorem kept_walkChildren {σ α : Type*} {bsz : ℕ} {n : Fin 16 → Node α}
    {walk : Fin 16 → (ℕ → UInt8) → σ → (ℕ → UInt8) × σ × ℤ}
    (hwalk : ∀ i buf s, Kept bitoffset buf (walk i buf s).1) :
    ∀ (is : List (Fin 16)) (buf : ℕ → UInt8) (s : σ),
      Kept bitoffset buf (walkChildren bsz n walk bitoffset is buf s).1
  | [], buf, _ => .refl _ buf
  | i :: is, buf, s => by
      have hchild := (kept_setNibble bitoffset buf i).trans (hwalk i _ s)
      rw [walkChildren]
      split
      · exact kept_walkChildren hwalk is buf s
      · split
        · exact .refl _ buf
        · dsimp only
          split
          · exact hchild
          · exact hchild.trans (kept_walkChildren hwalk is _ _)

/-- The frame rule of the walk: in front of its node it leaves the buffer as it is. -/
theorem kept_walkInternal {σ α : Type*} (cb : σ → List UInt8 → α → σ × Bool) (bsz : ℕ) :
    ∀ (n : Node α) (buf : ℕ → UInt8) (bitoffset : ℕ) (s : σ), bitoffset % 4 = 0 →
      Kept bitoffset buf (walkInternal cb bsz n buf bitoffset s).1
  | .null, buf, _, _, _ => .refl _ buf
  | .node v n, buf, bitoffset, s, hb => by
      have hchildren : ∀ s', Kept bitoffset buf (walkChildren bsz n
          (fun i buf' s' => walkInternal cb bsz (n i) buf' (bitoffset + 4) s')
          bitoffset (List.finRange 16) buf s').1 := by
        intro s'
        refine kept_walkChildren (fun i buf' s'' => ?_) _ buf s'
        exact (kept_walkInternal cb bsz (n i) buf' (bitoffset + 4) s'' (by omega)).parent hb
      cases v with
      | none => exact hchildren s
      | some x =>
          rw [walkInternal]
          split
          · exact hchildren _
          · exact .refl _ buf

end Kept

def Node.values {α : Type*} : Node α → List α
  | .null => []
  | .node v n => v.toList ++ (List.finRange 16).flatMap fun i => (n i).values

def values {α : Type*} (t : Trie α) : List α := t.rt.values

section Full

variable {σ α : Type*} (f : σ → α → σ)

def keepGoing (s : σ) (_ : List UInt8) (x : α) : σ × Bool := (f s x, true)

theorem walkChildren_eq_foldl {bsz bitoffset : ℕ} {n : Fin 16 → Node α}
    {walk : Fin 16 → (ℕ → UInt8) → σ → (ℕ → UInt8) × σ × ℤ}
    (hbuf : ∀ i, (n i).isNull = false → bitoffset / 8 ≠ bsz)
    (hwalk : ∀ i buf' s', (n i).isNull = false →
      (walk i buf' s').2 = ((n i).values.foldl f s', 1)) :
    ∀ (is : List (Fin 16)) (buf : ℕ → UInt8) (s : σ),
      (walkChildren bsz n walk bitoffset is buf s).2 =
        ((is.flatMap fun i => (n i).values).foldl f s, 1)
  | [], _, s => rfl
  | i :: is, buf, s => by
      have ih := walkChildren_eq_foldl hbuf hwalk is
      cases hi : (n i).isNull with
      | true =>
          simp [walkChildren, ih, (Node.isNull_iff (n i)).1 hi, Node.values]
      | false =>
          simp [walkChildren, hi, hbuf i hi, hwalk i _ _ hi, ih]

theorem walkInternal_eq_foldl {bsz : ℕ} :
    ∀ (n : Node α) (k : ℕ) (buf : ℕ → UInt8) (bitoffset : ℕ) (s : σ),
      n.Bounded k → bitoffset + 4 * k < 8 * bsz →
      (walkInternal (keepGoing f) bsz n buf bitoffset s).2 = (n.values.foldl f s, 1)
  | .null, k, buf, bitoffset, s, _, _ => rfl
  | .node v n, k, buf, bitoffset, s, hn, hlt => by
      have hchildren : ∀ s', (walkChildren bsz n
          (fun i buf' s' => walkInternal (keepGoing f) bsz (n i) buf' (bitoffset + 4) s')
          bitoffset (List.finRange 16) buf s').2 =
            (((List.finRange 16).flatMap fun i => (n i).values).foldl f s', 1) := by
        intro s'
        refine walkChildren_eq_foldl f (fun i _ => by omega) (fun i buf' s' hi => ?_) _ buf s'
        obtain ⟨hk, hbelow⟩ := hn.2 i hi
        exact walkInternal_eq_foldl (n i) (k - 1) buf' (bitoffset + 4) s' hbelow
          (by omega)
      cases v with
      | none => simp [walkInternal, hchildren, Node.values]
      | some x => simp [walkInternal, keepGoing, hchildren, Node.values]

/-- A full walk whose callback always continues is given every stored value. -/
theorem fullWalk_eq_foldl (t : Trie α) (s : σ) :
    t.fullWalk (keepGoing f) s = (t.values.foldl f s, 1) :=
  walkInternal_eq_foldl f t.rt _ _ 0 s t.bounded (by simp [maxKeyLen])

end Full

/-! ### Values under the operations -/

section Values

variable {α : Type*} {x y : α}

theorem Node.mem_values_node {v : Option α} {n : Fin 16 → Node α} :
    x ∈ (Node.node v n).values ↔ v = some x ∨ ∃ i, x ∈ (n i).values := by
  simp [Node.values]

theorem Node.mem_values_of_child {n : Node α} {i : Fin 16} (h : x ∈ (n.child i).values) :
    x ∈ n.values := by
  cases n with
  | null => exact h
  | node v n => exact Node.mem_values_node.2 (Or.inr ⟨i, h⟩)

theorem Node.mem_values_of_v {n : Node α} (h : n.v = some x) : x ∈ n.values := by
  cases n with
  | null => cases h
  | node v n => exact Node.mem_values_node.2 (Or.inl h)

theorem Node.mem_values_of_childOrAlloc {n : Node α} {i : Fin 16}
    (h : x ∈ (n.childOrAlloc i).values) : x ∈ n.values := by
  unfold Node.childOrAlloc at h
  split at h
  · rw [Node.allocNode, Node.mem_values_node] at h
    rcases h with h | ⟨j, h⟩ <;> cases h
  · exact Node.mem_values_of_child h

theorem values_yltrieCreate : (yltrieCreate : Trie α).values = [] := by
  simp [values, yltrieCreate, Node.allocNode, Node.values]

theorem Node.mem_values_setChild {n c : Node α} {i : Fin 16}
    (h : x ∈ (n.setChild i c).values) : x ∈ c.values ∨ x ∈ n.values := by
  rcases Node.mem_values_node.1 h with h | ⟨j, h⟩
  · exact Or.inr (Node.mem_values_of_v h)
  · rw [Function.update_apply] at h
    split at h
    · exact Or.inl h
    · exact Or.inr (Node.mem_values_of_child h)

theorem Node.mem_values_setValue {n : Node α} (h : y ∈ (n.setValue x).values) :
    y = x ∨ y ∈ n.values := by
  rcases Node.mem_values_node.1 h with h | ⟨i, h⟩
  · exact Or.inl (Option.some.inj h).symm
  · exact Or.inr (Node.mem_values_of_child h)

theorem mem_values_modifyNode : ∀ (n : Node α) (key : List UInt8),
    y ∈ (modifyNode (fun n => n.setValue x) n key).values → y = x ∨ y ∈ n.values
  | n, [], h => Node.mem_values_setValue h
  | n, c :: p, h => by
      rcases Node.mem_values_setChild h with h | h
      · rcases Node.mem_values_setChild h with h | h
        · rcases mem_values_modifyNode _ p h with h | h
          · exact Or.inl h
          · exact Or.inr (Node.mem_values_of_childOrAlloc (Node.mem_values_of_childOrAlloc h))
        · exact Or.inr (Node.mem_values_of_childOrAlloc h)
      · exact Or.inr h

theorem mem_values_yltrieInsert {t : Trie α} {key : List UInt8}
    (h : y ∈ (t.yltrieInsert key x).2.values) : y = x ∨ y ∈ t.values := by
  unfold yltrieInsert at h
  split at h
  · exact Or.inr h
  · split at h
    · exact Or.inr h
    · exact mem_values_modifyNode t.rt key h

theorem mem_values_of_getNode : ∀ (n : Node α) (key : List UInt8),
    x ∈ (getNode n key).values → x ∈ n.values
  | _, [], h => h
  | _, _ :: p, h =>
      Node.mem_values_of_child (Node.mem_values_of_child (mem_values_of_getNode _ p h))

theorem mem_values_of_yltrieGet {t : Trie α} {key : List UInt8}
    (h : t.yltrieGet key = some x) : x ∈ t.values := by
  unfold yltrieGet at h
  split at h
  · cases h
  · exact mem_values_of_getNode t.rt key (Node.mem_values_of_v h)

end Values

end Trie

end Ylisp
