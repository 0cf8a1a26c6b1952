import Ylisp.Library.Effect

/-!
# Computations with a bound on their recursion

A recursive function of a program is modelled with a number that bounds its nesting; where the
number does not suffice it fails with an exception of its own, `bad`. `Approx bad x y` says that
`y` does what `x` does, unless `x` runs into the bound. The rules follow the structure of a
computation, so that a function with a larger bound is approximated by the one with a smaller
bound, by induction on the bound, and the results of a bounded family are unique.
-/

namespace Effect

variable {ε σ α β : Type} {bad : ε}

def Approx (bad : ε) (x y : EStateM ε σ α) : Prop :=
  ∀ s, (∃ t, x s = .error bad t) ∨ y s = x s

namespace Approx

variable {x y z : EStateM ε σ α} {f g : α → EStateM ε σ β}

theorem refl (x : EStateM ε σ α) : Approx bad x x := fun _ => Or.inr rfl

theorem trans (h : Approx bad x y) (h' : Approx bad y z) : Approx bad x z := by
  intro s
  rcases h s with hbad | hs
  · exact Or.inl hbad
  · rw [← hs]
    exact h' s

theorem of_bad (h : ∀ s, ∃ t, x s = .error bad t) : Approx bad x y := fun s => Or.inl (h s)

theorem bind (hx : Approx bad x y) (hf : ∀ a, Approx bad (f a) (g a)) :
    Approx bad (x >>= f) (y >>= g) := by
  intro s
  rcases hx s with ⟨t, hbad⟩ | hs
  · exact Or.inl ⟨t, bind_of_error hbad⟩
  · cases hxs : x s with
    | ok a t =>
        rw [bind_of_ok hxs, bind_of_ok (hs.trans hxs)]
        exact hf a t
    | error e t =>
        right
        rw [bind_of_error hxs, bind_of_error (hs.trans hxs)]

theorem ite {c : Prop} [Decidable c] {x' y' : EStateM ε σ α} (h : c → Approx bad x y)
    (h' : ¬ c → Approx bad x' y') :
    Approx bad (if c then x else x') (if c then y else y') := by
  split
  next hc => exact h hc
  next hc => exact h' hc

/-- A result that `x` comes to is the result of `y`. -/
theorem ok (h : Approx bad x y) {a : α} {s t : σ} (hx : x s = .ok a t) : y s = .ok a t := by
  rcases h s with ⟨u, hbad⟩ | hs
  · rw [hx] at hbad
    cases hbad
  · exact hs.trans hx

end Approx

def Bounded (bad : ε) (x : ℕ → EStateM ε σ α) : Prop :=
  ∀ k k', k ≤ k' → Approx bad (x k) (x k')

namespace Bounded

variable {x : ℕ → EStateM ε σ α} {f : ℕ → α → EStateM ε σ β}

theorem const (x : EStateM ε σ α) : Bounded bad fun _ => x := fun _ _ _ => .refl x

theorem bind (hx : Bounded bad x) (hf : ∀ a, Bounded bad fun k => f k a) :
    Bounded bad fun k => x k >>= f k :=
  fun k k' hk => (hx k k' hk).bind fun a => hf a k k' hk

theorem ite {c : Prop} [Decidable c] {y : ℕ → EStateM ε σ α} (hx : Bounded bad x)
    (hy : Bounded bad y) : Bounded bad fun k => if c then x k else y k :=
  fun k k' hk => .ite (fun _ => hx k k' hk) fun _ => hy k k' hk

/-- Two results are the same one, however large the bounds are. -/
theorem unique (hx : Bounded bad x) {k k' : ℕ} {s t t' : σ} {a a' : α} (h : x k s = .ok a t)
    (h' : x k' s = .ok a' t') : a = a' ∧ t = t' := by
  have h₁ := (hx k _ (Nat.le_max_left k k')).ok h
  rw [(hx k' _ (Nat.le_max_right k k')).ok h'] at h₁
  cases h₁
  exact ⟨rfl, rfl⟩

/-- A computation that comes to a result fails in no other way than with `bad`. -/
theorem bad_of_error (hx : Bounded bad x) {k k' : ℕ} {s t t' : σ} {a : α} {e : ε}
    (h : x k s = .ok a t) (h' : x k' s = .error e t') : e = bad := by
  have h₁ := (hx k _ (Nat.le_max_left k k')).ok h
  rcases hx k' _ (Nat.le_max_right k k') s with ⟨u, hbad⟩ | hs
  · rw [hbad] at h'
    cases h'
    rfl
  · rw [hs, h'] at h₁
    cases h₁

end Bounded

theorem exists_succ_of_succ_le {k k' : ℕ} (h : k + 1 ≤ k') : ∃ m, k' = m + 1 ∧ k ≤ m := by
  obtain ⟨m, rfl⟩ := Nat.exists_eq_add_of_le' (Nat.le_trans (Nat.le_add_left 1 k) h)
  exact ⟨m, rfl, Nat.le_of_succ_le_succ h⟩

end Effect
