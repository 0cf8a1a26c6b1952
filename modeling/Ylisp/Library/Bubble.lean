import Mathlib.Data.List.Perm.Basic
import Mathlib.Data.Set.Insert
import Mathlib.Order.Defs.LinearOrder

/-!
# Passes of a bubble sort

`pass` carries an element along a list and leaves the greater one of two neighbours behind,
so that a least element comes to the end. `Partly gt k` says that the elements behind the
first `k` are where they belong; a pass places one more of them (`Partly.pass`).

The order is given by its strict part, on the elements at hand only. Elements neither of which
is greater are exchanged as well.
-/

namespace Bubble

variable {α : Type*} {gt : α → α → Prop} {S : Set α}

/-- A strict total order on `S`, up to the equality of elements neither of which is greater. -/
structure StrictOn (gt : α → α → Prop) (S : Set α) : Prop where
  irrefl : ∀ x ∈ S, ¬ gt x x
  trans : ∀ x ∈ S, ∀ y ∈ S, ∀ z ∈ S, gt x y → gt y z → gt x z
  equal_trans : ∀ x ∈ S, ∀ y ∈ S, ∀ z ∈ S,
    ¬ gt x y ∧ ¬ gt y x → ¬ gt y z ∧ ¬ gt z y → ¬ gt x z ∧ ¬ gt z x

theorem StrictOn.asymm (h : StrictOn gt S) {x y : α} (hx : x ∈ S) (hy : y ∈ S)
    (hxy : gt x y) : ¬ gt y x := fun hyx =>
  h.irrefl x hx (h.trans x hx y hy x hx hxy hyx)

/-- What is not greater than what is not greater is not greater. -/
theorem StrictOn.not_trans (h : StrictOn gt S) {x y z : α} (hx : x ∈ S) (hy : y ∈ S)
    (hz : z ∈ S) (hxy : ¬ gt x y) (hyz : ¬ gt y z) : ¬ gt x z := by
  intro hxz
  by_cases hyx : gt y x
  · exact hyz (h.trans y hy x hx z hz hyx hxz)
  · by_cases hzy : gt z y
    · exact hxy (h.trans x hx z hz y hy hxz hzy)
    · exact (h.equal_trans x hx y hy z hz ⟨hxy, hyx⟩ ⟨hyz, hzy⟩).1 hxz

/-- Elements can be compared by their values in a linear order. -/
theorem strictOn_of_lt {β : Type*} [LinearOrder β] (f : α → β) (S : Set α) :
    StrictOn (fun x y => f y < f x) S where
  irrefl := fun x _ => lt_irrefl (f x)
  trans := fun _ _ _ _ _ _ h h' => lt_trans h' h
  equal_trans := by
    rintro x - y - z - ⟨h1, h2⟩ ⟨h3, h4⟩
    have hxy := le_antisymm (not_lt.1 h1) (not_lt.1 h2)
    have hyz := le_antisymm (not_lt.1 h3) (not_lt.1 h4)
    rw [hxy, hyz]
    exact ⟨lt_irrefl _, lt_irrefl _⟩

def Sorted (gt : α → α → Prop) (l : List α) : Prop := l.Pairwise fun x y => ¬ gt y x

/-- The elements behind the first `k` ones are in order, and none of them is greater than one of
the first `k`. -/
def Partly (gt : α → α → Prop) (k : ℕ) (l : List α) : Prop :=
  ∃ a b, l = a ++ b ∧ a.length = k ∧ Sorted gt b ∧ ∀ x ∈ a, ∀ y ∈ b, ¬ gt y x

theorem partly_length (l : List α) : Partly gt l.length l :=
  ⟨l, [], (List.append_nil l).symm, rfl, .nil, fun _ _ _ h => nomatch h⟩

/-- With all but the first element in place, the list is in order. -/
theorem Partly.sorted {l : List α} (h : Partly gt 1 l) : Sorted gt l := by
  obtain ⟨a, b, rfl, hlen, hb, hab⟩ := h
  obtain ⟨x, rfl⟩ := List.length_eq_one_iff.1 hlen
  exact List.pairwise_cons.2 ⟨hab x List.mem_cons_self, hb⟩

def pass (gt : α → α → Prop) [DecidableRel gt] : α → List α → List α
  | x, [] => [x]
  | x, y :: ys => if gt x y then x :: pass gt y ys else y :: pass gt x ys

variable [DecidableRel gt]

theorem pass_perm (x : α) (l : List α) : (pass gt x l).Perm (x :: l) := by
  induction l generalizing x with
  | nil => exact .refl _
  | cons y ys ih =>
      rw [pass]
      split
      · exact (ih y).cons x
      · exact ((ih x).cons y).trans (.swap x y ys)

theorem exists_pass_eq_cons (x : α) (l : List α) :
    ∃ x' l', pass gt x l = x' :: l' ∧ l'.length = l.length := by
  have hlen : (pass gt x l).length = l.length + 1 := (pass_perm x l).length_eq
  obtain ⟨x', l', heq⟩ := List.exists_cons_of_length_eq_add_one hlen
  rw [heq] at hlen
  exact ⟨x', l', heq, Nat.succ.inj hlen⟩

theorem mem_pass {x y : α} {l : List α} : y ∈ pass gt x l ↔ y = x ∨ y ∈ l := by
  rw [(pass_perm x l).mem_iff, List.mem_cons]

/-- A pass over a list that is in order leaves it so. -/
theorem Sorted.pass {x : α} {l : List α} (h : Sorted gt (x :: l)) : Sorted gt (pass gt x l) := by
  induction l generalizing x with
  | nil => exact h
  | cons y ys ih =>
      obtain ⟨hx, hys⟩ := List.pairwise_cons.1 h
      obtain ⟨hy, hrest⟩ := List.pairwise_cons.1 hys
      rw [Bubble.pass]
      split
      next hxy =>
        refine List.pairwise_cons.2 ⟨fun z hz => ?_, ih hys⟩
        rw [mem_pass] at hz
        exact hx z (List.mem_cons.2 hz)
      next hxy =>
        have hxs : Sorted gt (x :: ys) :=
          List.pairwise_cons.2 ⟨fun z hz => hx z (List.mem_cons_of_mem y hz), hrest⟩
        refine List.pairwise_cons.2 ⟨fun z hz => ?_, ih hxs⟩
        rw [mem_pass] at hz
        obtain rfl | hz := hz
        · exact hxy
        · exact hy z hz

/-- A pass over a list that is partly in order. What comes behind the first `k` elements is not
greater than the element that has been carried along. -/
theorem exists_pass (hgt : StrictOn gt S) {x : α} {a b : List α}
    (hS : ∀ y ∈ x :: (a ++ b), y ∈ S) (hb : Sorted gt b)
    (hab : ∀ z ∈ x :: a, ∀ y ∈ b, ¬ gt y z) :
    ∃ a' b', pass gt x (a ++ b) = a' ++ b' ∧ a'.length = a.length ∧ Sorted gt b' ∧
      (∀ z ∈ a', ∀ y ∈ b', ¬ gt y z) ∧ ∀ y ∈ b', ¬ gt y x := by
  induction a generalizing x with
  | nil =>
      have hxb : Sorted gt (x :: b) :=
        List.pairwise_cons.2 ⟨hab x List.mem_cons_self, hb⟩
      refine ⟨[], pass gt x b, rfl, rfl, hxb.pass, nofun, fun y hy => ?_⟩
      rw [mem_pass] at hy
      obtain rfl | hy := hy
      · exact hgt.irrefl y (hS y List.mem_cons_self)
      · exact hab x List.mem_cons_self y hy
  | cons z a ih =>
      have hxS := hS x List.mem_cons_self
      have hzS := hS z (by simp)
      have hrest : ∀ y ∈ a ++ b, y ∈ S := fun y hy =>
        hS y (List.mem_cons_of_mem x (List.mem_cons_of_mem z hy))
      have hmem : ∀ {w : α} {a' b' : List α}, w ∈ S → pass gt w (a ++ b) = a' ++ b' →
          ∀ y ∈ b', y ∈ S := by
        intro w a' b' hw heq y hy
        have hy' : y ∈ pass gt w (a ++ b) := by
          rw [heq]
          exact List.mem_append_right a' hy
        rw [mem_pass] at hy'
        obtain rfl | hy' := hy'
        · exact hw
        · exact hrest y hy'
      rw [List.cons_append, pass]
      split
      next hxz =>
        obtain ⟨a', b', heq, hlen, hb', hab', hz⟩ :=
          ih (x := z) (by simpa [hzS] using hrest) fun w hw => hab w (List.mem_cons_of_mem x hw)
        have hx : ∀ y ∈ b', ¬ gt y x := fun y hy =>
          hgt.not_trans (hmem hzS heq y hy) hzS hxS (hz y hy) (hgt.asymm hxS hzS hxz)
        refine ⟨x :: a', b', by rw [heq, List.cons_append], congrArg (· + 1) hlen, hb', ?_, hx⟩
        exact List.forall_mem_cons.2 ⟨hx, hab'⟩
      next hxz =>
        have hxa : ∀ w ∈ x :: a, ∀ y ∈ b, ¬ gt y w := by
          refine List.forall_mem_cons.2 ⟨hab x List.mem_cons_self, fun w hw => ?_⟩
          exact hab w (by simp [hw])
        obtain ⟨a', b', heq, hlen, hb', hab', hx⟩ :=
          ih (x := x) (by simpa [hxS] using hrest) hxa
        have hz : ∀ y ∈ b', ¬ gt y z := fun y hy =>
          hgt.not_trans (hmem hxS heq y hy) hxS hzS (hx y hy) hxz
        refine ⟨z :: a', b', by rw [heq, List.cons_append], congrArg (· + 1) hlen, hb', ?_, hx⟩
        exact List.forall_mem_cons.2 ⟨hz, hab'⟩

theorem Partly.pass (hgt : StrictOn gt S) {x : α} {l : List α} {k : ℕ}
    (hS : ∀ y ∈ x :: l, y ∈ S) (h : Partly gt (k + 1) (x :: l)) :
    Partly gt k (pass gt x l) := by
  obtain ⟨a, b, heq, hlen, hb, hab⟩ := h
  cases a with
  | nil => cases hlen
  | cons z a =>
      obtain ⟨rfl, rfl⟩ := List.cons.inj heq
      obtain ⟨a', b', heq', hlen', hb', hab', -⟩ := exists_pass hgt hS hb hab
      exact ⟨a', b', heq', hlen'.trans (Nat.succ.inj hlen), hb', hab'⟩

end Bubble
