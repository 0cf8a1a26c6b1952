import Mathlib.Data.List.FinRange

/-!
# Counting loops

`foreach a n f s` is the loop `for (k = a; k < n; k++) s = f s k`. The rule
`foreach_induction` is the loop invariant rule: an assertion indexed by the
counter, true at the start and carried over by the body, holds with the counter
at `n` when the loop ends.
-/

namespace Loop

variable {σ : Type*} {n : ℕ}

def foreach (a n : ℕ) (f : σ → Fin n → σ) (s : σ) : σ :=
  ((List.finRange n).drop a).foldl f s

theorem foreach_of_le {a : ℕ} (h : n ≤ a) (f : σ → Fin n → σ) (s : σ) :
    foreach a n f s = s := by
  simp [foreach, List.drop_eq_nil_of_le, h]

theorem foreach_of_lt {a : ℕ} (h : a < n) (f : σ → Fin n → σ) (s : σ) :
    foreach a n f s = foreach (a + 1) n f (f s ⟨a, h⟩) := by
  have ha : a < (List.finRange n).length := by simpa using h
  rw [foreach, List.drop_eq_getElem_cons ha]
  simp [foreach]

theorem foreach_induction (f : σ → Fin n → σ) (P : ℕ → σ → Prop)
    (hstep : ∀ k s, (h : k < n) → P k s → P (k + 1) (f s ⟨k, h⟩)) :
    ∀ (d a : ℕ) (s : σ), a + d = n → P a s → P n (foreach a n f s)
  | 0, a, s, had, ha => by
      rw [foreach_of_le (by omega)]
      exact (show a = n by omega) ▸ ha
  | d + 1, a, s, had, ha => by
      rw [foreach_of_lt (by omega)]
      exact foreach_induction f P hstep d (a + 1) _ (by omega) (hstep a s (by omega) ha)

end Loop
