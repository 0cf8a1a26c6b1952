import Mathlib.Data.Fintype.Card
import Mathlib.Logic.Function.Basic

/-!
# The 4-bit trie

A byte of the key takes two nodes, one for each half byte. A node has a value
slot and sixteen children; the NULL pointer is the constructor `null`.

`Node.Bounded n k` says that at most `k` half bytes can still be read below `n`
and that values sit at byte boundaries only. `yltrieInsert` refuses keys of
`maxKeyLen` bytes and more, so every trie built by the operations is bounded;
`Trie` carries the bound as a field.
-/

namespace Ylisp

namespace Trie

/-- `struct _node`, with `null` for the NULL pointer. -/
inductive Node (α : Type*) where
  | null
  | node (v : Option α) (n : Fin 16 → Node α)

namespace Node

variable {α : Type*}

def v : Node α → Option α
  | null => none
  | node v _ => v

def child : Node α → Fin 16 → Node α
  | null, _ => null
  | node _ n, i => n i

def isNull : Node α → Bool
  | null => true
  | node _ _ => false

@[simp] theorem isNull_iff (n : Node α) : n.isNull = true ↔ n = null := by
  cases n <;> simp [isNull]

def allocNode : Node α := node none fun _ => null

def childOrAlloc (n : Node α) (i : Fin 16) : Node α :=
  if (n.child i).isNull then allocNode else n.child i

def setChild (n : Node α) (i : Fin 16) (c : Node α) : Node α :=
  node n.v (Function.update n.child i c)

def setValue (n : Node α) (x : α) : Node α := node (some x) n.child

def Bounded : Node α → ℕ → Prop
  | null, _ => True
  | node v n, k =>
      (v.isSome → k % 2 = 0) ∧ ∀ i, (n i).isNull = false → 0 < k ∧ (n i).Bounded (k - 1)

@[simp] theorem bounded_null (k : ℕ) : (null : Node α).Bounded k := trivial

theorem bounded_node (v : Option α) (n : Fin 16 → Node α) (k : ℕ) :
    (node v n).Bounded k ↔
      (v.isSome → k % 2 = 0) ∧
        ∀ i, (n i).isNull = false → 0 < k ∧ (n i).Bounded (k - 1) :=
  Iff.rfl

theorem bounded_allocNode (k : ℕ) : (allocNode : Node α).Bounded k := by
  simp [allocNode, bounded_node, isNull]

theorem Bounded.child {n : Node α} {k : ℕ} (h : n.Bounded k) (i : Fin 16) :
    (n.child i).Bounded (k - 1) := by
  cases n with
  | null => exact trivial
  | node v n =>
      cases hi : (n i).isNull with
      | true => simp [Node.child, (isNull_iff (n i)).1 hi]
      | false => exact (h.2 i hi).2

theorem Bounded.childOrAlloc {n : Node α} {k : ℕ} (h : n.Bounded k) (i : Fin 16) :
    (n.childOrAlloc i).Bounded (k - 1) := by
  unfold Node.childOrAlloc
  split
  · exact bounded_allocNode _
  · exact h.child i

theorem Bounded.setChild {n c : Node α} {k : ℕ} (h : n.Bounded k) (hk : 0 < k)
    (i : Fin 16) (hc : c.Bounded (k - 1)) : (n.setChild i c).Bounded k := by
  refine ⟨?_, ?_⟩
  · intro hv
    cases n with
    | null => simp [Node.v] at hv
    | node v n => exact h.1 hv
  · intro j _
    by_cases hj : j = i
    · subst hj
      exact ⟨hk, by simpa using hc⟩
    · rw [Function.update_of_ne hj]
      exact ⟨hk, h.child j⟩

theorem Bounded.setValue {n : Node α} {k : ℕ} (h : n.Bounded k) (hk : k % 2 = 0)
    (x : α) : (n.setValue x).Bounded k := by
  refine ⟨fun _ => hk, ?_⟩
  intro i hi
  cases n with
  | null => simp [Node.child, isNull] at hi
  | node v n => exact h.2 i hi

end Node

def front (c : UInt8) : Fin 16 := ⟨c.toNat / 16, by have := c.toNat_lt; omega⟩

/-- The index of the back node of a byte. -/
def back (c : UInt8) : Fin 16 := ⟨c.toNat % 16, Nat.mod_lt _ (by decide)⟩

section Key

variable {α : Type*}

def getNode : Node α → List UInt8 → Node α
  | n, [] => n
  | n, c :: p => getNode ((n.child (front c)).child (back c)) p

/-- `_get_node` with creation, followed by a change of the node it returns. -/
def modifyNode (f : Node α → Node α) : Node α → List UInt8 → Node α
  | n, [] => f n
  | n, c :: p =>
      let m := n.childOrAlloc (front c)
      n.setChild (front c)
        (m.setChild (back c) (modifyNode f (m.childOrAlloc (back c)) p))

theorem bounded_modifyNode {f : Node α → Node α} (x : α)
    (hf : f = fun n => n.setValue x) :
    ∀ (n : Node α) (key : List UInt8) (k : ℕ), n.Bounded k → k % 2 = 0 →
      2 * key.length ≤ k → (modifyNode f n key).Bounded k
  | n, [], k, hn, hk, _ => by
      subst hf
      exact hn.setValue hk x
  | n, c :: p, k, hn, hk, hlen => by
      have hk2 : 2 ≤ k := by
        simp only [List.length_cons] at hlen
        omega
      have hm := hn.childOrAlloc (front c)
      have hsub : k - 1 - 1 = k - 2 := by omega
      have hbelow : (modifyNode f ((n.childOrAlloc (front c)).childOrAlloc (back c))
          p).Bounded (k - 2) := by
        apply bounded_modifyNode x hf
        · exact hsub ▸ hm.childOrAlloc (back c)
        · omega
        · simp only [List.length_cons] at hlen
          omega
      exact hn.setChild (by omega) _ (hm.setChild (by omega) _ (hsub.symm ▸ hbelow))

end Key

def maxKeyLen : ℕ := 1024

end Trie

/-- `struct _trie`. The root node is part of the record, so it is never NULL. -/
structure Trie (α : Type*) where
  rt : Trie.Node α
  bounded : rt.Bounded (2 * (Trie.maxKeyLen - 1))

namespace Trie

variable {α : Type*}

def yltrieCreate : Trie α := ⟨Node.allocNode, Node.bounded_allocNode _⟩

def yltrieGet (t : Trie α) (key : List UInt8) : Option α :=
  if key.length = 0 then none else (getNode t.rt key).v

def yltrieInsert (t : Trie α) (key : List UInt8) (x : α) : ℤ × Trie α :=
  if _h0 : key.length = 0 then (-1, t)
  else if h : key.length ≥ maxKeyLen then (-1, t)
  else
    (if (getNode t.rt key).v.isSome then 1 else 0,
      { rt := modifyNode (fun n => n.setValue x) t.rt key
        bounded := bounded_modifyNode x rfl t.rt key _ t.bounded
          (Nat.mul_mod_right 2 _) (by omega) })

end Trie

end Ylisp
