import Mathlib.Data.Finset.Card
import Mathlib.Data.Fintype.Basic
import Mathlib.Data.Fintype.Card
import Mathlib.Logic.Relation

/-!
# Depth-first marking

`mark succ k m x` marks `x` and, through the successor lists `succ`, everything
it meets that is not yet in the mark set `m`; the recursion is at most `k` calls
deep. A node that is already marked is not entered again, so cycles and sharing
are harmless.

`Spec succ m m' xs` is what one marking phase does to the mark set: it grows,
it contains the roots `xs`, the new marks are closed under successors and each
of them is reachable from a root. Phases compose (`Spec.append`). From a mark
set that is itself closed, the marks after the phase are the old ones and the
nodes reachable from the roots (`Spec.mem_iff`).
-/

namespace Marking

variable {α : Type*}

def Edge (succ : α → List α) (a b : α) : Prop := b ∈ succ a

abbrev Reach (succ : α → List α) : α → α → Prop :=
  Relation.ReflTransGen (Edge succ)

def Closed (succ : α → List α) (m : Finset α) : Prop :=
  ∀ a ∈ m, ∀ b ∈ succ a, b ∈ m

theorem Closed.mem_of_reach {succ : α → List α} {m : Finset α}
    (hm : Closed succ m) {a b : α} (ha : a ∈ m) (h : Reach succ a b) : b ∈ m := by
  induction h with
  | refl => exact ha
  | tail _ hedge ih => exact hm _ ih _ hedge

section Phase

structure Spec (succ : α → List α) (m m' : Finset α) (xs : List α) : Prop where
  le : m ⊆ m'
  roots : ∀ x ∈ xs, x ∈ m'
  closed : ∀ a ∈ m', a ∉ m → ∀ b ∈ succ a, b ∈ m'
  reach : ∀ a ∈ m', a ∉ m → ∃ x ∈ xs, Reach succ x a

variable {succ : α → List α} {m m₁ m₂ : Finset α}

theorem Spec.nil : Spec succ m m [] where
  le := Finset.Subset.refl m
  roots := by simp
  closed := fun a ha hna => absurd ha hna
  reach := fun a ha hna => absurd ha hna

/-- Two phases in a row are one phase with the roots of both. -/
theorem Spec.append {xs ys : List α} (h₁ : Spec succ m m₁ xs)
    (h₂ : Spec succ m₁ m₂ ys) : Spec succ m m₂ (xs ++ ys) where
  le := h₁.le.trans h₂.le
  roots := by
    intro x hx
    rcases List.mem_append.1 hx with hx | hx
    · exact h₂.le (h₁.roots x hx)
    · exact h₂.roots x hx
  closed := by
    intro a ha hna b hb
    by_cases h : a ∈ m₁
    · exact h₂.le (h₁.closed a h hna b hb)
    · exact h₂.closed a ha h b hb
  reach := by
    intro a ha hna
    by_cases h : a ∈ m₁
    · obtain ⟨x, hx, hr⟩ := h₁.reach a h hna
      exact ⟨x, List.mem_append_left _ hx, hr⟩
    · obtain ⟨x, hx, hr⟩ := h₂.reach a ha h
      exact ⟨x, List.mem_append_right _ hx, hr⟩

/-- From a closed mark set, a phase adds exactly what its roots reach. -/
theorem Spec.mem_iff {m' : Finset α} {xs : List α} (h : Spec succ m m' xs)
    (hm : Closed succ m) (a : α) :
    a ∈ m' ↔ a ∈ m ∨ ∃ x ∈ xs, Reach succ x a := by
  have hm' : Closed succ m' := by
    intro b hb c hc
    by_cases hbm : b ∈ m
    · exact h.le (hm b hbm c hc)
    · exact h.closed b hb hbm c hc
  constructor
  · intro ha
    by_cases ham : a ∈ m
    · exact Or.inl ham
    · exact Or.inr (h.reach a ha ham)
  · rintro (ha | ⟨x, hx, hr⟩)
    · exact h.le ha
    · exact hm'.mem_of_reach (h.roots x hx) hr

end Phase

section Mark

variable [DecidableEq α]

def mark (succ : α → List α) : ℕ → Finset α → α → Finset α
  | 0, m, _ => m
  | k + 1, m, x =>
      if x ∈ m then m else (succ x).foldl (mark succ k) (insert x m)

variable [Fintype α] {succ : α → List α}

/-- Marking the roots one after another is a phase, as soon as marking one root
is a phase from every larger mark set. -/
theorem spec_foldl {f : Finset α → α → Finset α} {k : ℕ}
    (hf : ∀ m x, mᶜ.card ≤ k → Spec succ m (f m x) [x]) :
    ∀ (xs : List α) (m : Finset α), mᶜ.card ≤ k →
      Spec succ m (xs.foldl f m) xs
  | [], _, _ => Spec.nil
  | x :: xs, m, hm => by
      have h₁ := hf m x hm
      have hcard : (f m x)ᶜ.card ≤ k :=
        (Finset.card_le_card (Finset.compl_subset_compl.2 h₁.le)).trans hm
      exact h₁.append (spec_foldl hf xs (f m x) hcard)

/-- Marking is a phase when the depth bound is at least the number of unmarked
nodes: every nested call has marked one more node. -/
theorem mark_spec : ∀ (k : ℕ) (m : Finset α) (x : α), mᶜ.card ≤ k →
    Spec succ m (mark succ k m x) [x]
  | 0, m, x, hm => by
      have hx : ∀ y, y ∈ m := by
        have hempty := Finset.card_eq_zero.1 (Nat.le_zero.1 hm)
        have huniv := (Finset.compl_eq_empty_iff m).1 hempty
        simp [huniv]
      exact ⟨Finset.Subset.refl m, fun y _ => hx y,
        fun a _ hna => absurd (hx a) hna, fun a _ hna => absurd (hx a) hna⟩
  | k + 1, m, x, hm => by
      by_cases hx : x ∈ m
      · rw [mark, if_pos hx]
        exact ⟨Finset.Subset.refl m, by simpa using hx,
          fun a ha hna => absurd ha hna, fun a ha hna => absurd ha hna⟩
      · rw [mark, if_neg hx]
        have hcard : (insert x m)ᶜ.card ≤ k := by
          have hlt : (insert x m)ᶜ.card < mᶜ.card := by
            apply Finset.card_lt_card
            rw [Finset.compl_ssubset_compl]
            exact Finset.ssubset_insert hx
          omega
        have h := spec_foldl (mark_spec k) (succ x) (insert x m) hcard
        have hxm := h.le (Finset.mem_insert_self x m)
        refine ⟨(Finset.subset_insert x m).trans h.le, by simpa using hxm, ?_, ?_⟩
        · intro a ha hna b hb
          by_cases hax : a = x
          · subst hax
            exact h.roots b hb
          · exact h.closed a ha (by simp [hax, hna]) b hb
        · intro a ha hna
          by_cases hax : a = x
          · exact ⟨x, by simp, hax ▸ Relation.ReflTransGen.refl⟩
          · obtain ⟨y, hy, hr⟩ := h.reach a ha (by simp [hax, hna])
            exact ⟨x, by simp, Relation.ReflTransGen.head hy hr⟩

/-- Marking a list of roots, with a depth bound that covers the whole type. -/
theorem mark_roots_spec (succ : α → List α) (k : ℕ) (hk : Fintype.card α ≤ k) (m : Finset α)
    (xs : List α) : Spec succ m (xs.foldl (mark succ k) m) xs :=
  spec_foldl (mark_spec k) xs m ((Finset.card_le_univ _).trans hk)

end Mark

end Marking
