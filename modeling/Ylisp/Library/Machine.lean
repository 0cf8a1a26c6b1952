import Mathlib.Data.Nat.Notation
import Mathlib.Logic.Relation

/-!
# Deterministic machines

A machine takes a state to the next one, `Sum.inl`, or ends with a result,
`Sum.inr`. `run` gives it a number of steps; `Ends` says that it comes to its
result, and `Ends.unique` that there is one result only.

`reaches_induction` is the invariant rule and `run_of_measure` the termination
rule: a measure that every step lowers bounds the number of steps. `Always` is about all that
can be met from a state on, `always_iff` takes it step by step.
-/

namespace Machine

variable {σ ρ : Type*} {step : σ → σ ⊕ ρ}

/-- The result of a run of at most `k` steps, `none` if it has not ended. -/
def run (step : σ → σ ⊕ ρ) : ℕ → σ → Option ρ
  | 0, _ => none
  | k + 1, s =>
      match step s with
      | .inl s' => run step k s'
      | .inr r => some r

/-- A run of at most `k` steps ends, and all the states that it meets satisfy `P`. -/
def checks (step : σ → σ ⊕ ρ) (P : σ → Bool) : ℕ → σ → Bool
  | 0, _ => false
  | k + 1, s => P s && match step s with
      | .inl s' => checks step P k s'
      | .inr _ => true

/-- The state `s'` is met by the run that starts at `s`. -/
def Reaches (step : σ → σ ⊕ ρ) : σ → σ → Prop :=
  Relation.ReflTransGen fun s s' => step s = .inl s'

/-- The run that starts at `s` ends with the result `r`. -/
def Ends (step : σ → σ ⊕ ρ) (s : σ) (r : ρ) : Prop := ∃ k, run step k s = some r

theorem Reaches.of_step {s s' : σ} (h : step s = .inl s') : Reaches step s s' :=
  Relation.ReflTransGen.single h

theorem reaches_induction {P : σ → Prop}
    (hstep : ∀ s s', P s → step s = .inl s' → P s') {s s' : σ} (hs : P s)
    (h : Reaches step s s') : P s' := by
  induction h with
  | refl => exact hs
  | tail _ hlast ih => exact hstep _ _ ih hlast

theorem Ends.of_result {s : σ} {r : ρ} (h : step s = .inr r) : Ends step s r :=
  ⟨1, by rw [run, h]⟩

theorem Ends.of_step {s s' : σ} {r : ρ} (h : step s = .inl s') (hr : Ends step s' r) :
    Ends step s r := by
  obtain ⟨k, hk⟩ := hr
  exact ⟨k + 1, by rw [run, h]; exact hk⟩

theorem run_le {k k' : ℕ} {s : σ} {r : ρ} (hk : k ≤ k') (h : run step k s = some r) :
    run step k' s = some r := by
  induction k generalizing k' s with
  | zero => cases h
  | succ k ih =>
      obtain ⟨k', rfl⟩ := Nat.exists_eq_add_of_le' hk
      rw [run] at h
      rw [← Nat.add_assoc, run]
      cases hs : step s with
      | inl s' =>
          rw [hs] at h
          exact ih (Nat.le_add_left k k') h
      | inr r' =>
          rw [hs] at h
          exact h

theorem Ends.unique {s : σ} {r r' : ρ} (h : Ends step s r) (h' : Ends step s r') :
    r = r' := by
  obtain ⟨k, hk⟩ := h
  obtain ⟨k', hk'⟩ := h'
  have h1 := run_le (Nat.le_max_left k k') hk
  have h2 := run_le (Nat.le_max_right k k') hk'
  rw [h1] at h2
  exact Option.some.inj h2

/-- What is answered at once or by a machine has one answer. -/
theorem Ends.unique_of_ite {α : Type*} {c : Prop} [Decidable c] {s : σ} {x r r' : α} {g : ρ → α}
    (h : if c then r = x else ∃ e, Ends step s e ∧ r = g e)
    (h' : if c then r' = x else ∃ e, Ends step s e ∧ r' = g e) : r = r' := by
  by_cases hc : c
  · rw [if_pos hc] at h h'
    rw [h, h']
  · rw [if_neg hc] at h h'
    obtain ⟨e, he, rfl⟩ := h
    obtain ⟨e', he', rfl⟩ := h'
    rw [he.unique he']

theorem Ends.step_iff {s s' : σ} {r : ρ} (h : step s = .inl s') :
    Ends step s r ↔ Ends step s' r := by
  constructor
  · rintro ⟨k, hk⟩
    cases k with
    | zero => cases hk
    | succ k =>
        rw [run, h] at hk
        exact ⟨k, hk⟩
  · exact Ends.of_step h

theorem Ends.result_iff {s : σ} {r r' : ρ} (h : step s = .inr r') :
    Ends step s r ↔ r = r' := by
  constructor
  · exact fun hr => hr.unique (Ends.of_result h)
  · rintro rfl
    exact Ends.of_result h

theorem Reaches.ends_iff {s s' : σ} {r : ρ} (h : Reaches step s s') :
    Ends step s r ↔ Ends step s' r := by
  induction h using Relation.ReflTransGen.head_induction_on with
  | refl => exact Iff.rfl
  | head hfirst _ ih => exact (Ends.step_iff hfirst).trans ih

theorem Reaches.ends {s s' : σ} {r : ρ} (h : Reaches step s s') (hr : Ends step s' r) :
    Ends step s r :=
  h.ends_iff.2 hr

theorem Reaches.head_cases {s s' : σ} (h : Reaches step s s') :
    s' = s ∨ ∃ s₁, step s = .inl s₁ ∧ Reaches step s₁ s' := by
  rcases Relation.ReflTransGen.cases_head h with rfl | ⟨s₁, hs, hr⟩
  · exact Or.inl rfl
  · exact Or.inr ⟨s₁, hs, hr⟩

theorem checks_iff {P : σ → Bool} {k : ℕ} {s : σ} {r : ρ} (h : run step k s = some r) :
    checks step P k s = true ↔ ∀ s', Reaches step s s' → P s' = true := by
  induction k generalizing s with
  | zero => cases h
  | succ k ih =>
      rw [run] at h
      rw [checks, Bool.and_eq_true]
      constructor
      · rintro ⟨hP, hrest⟩ s' hr
        rcases hr.head_cases with rfl | ⟨s₁, hs, hr⟩
        · exact hP
        · rw [hs] at h hrest
          exact (ih h).1 hrest s' hr
      · intro hall
        refine ⟨hall s Relation.ReflTransGen.refl, ?_⟩
        cases hs : step s with
        | inl s₁ =>
            rw [hs] at h
            exact (ih h).2 fun s' hr => hall s' (Relation.ReflTransGen.head hs hr)
        | inr r' => rfl

/-- `s'` is the state after `k` steps from `s`. -/
def Steps (step : σ → σ ⊕ ρ) : ℕ → σ → σ → Prop
  | 0, s, s' => s' = s
  | k + 1, s, s' => ∃ s₁, step s = .inl s₁ ∧ Steps step k s₁ s'

theorem Steps.measure {P : σ → Prop} {μ : σ → ℕ}
    (hstep : ∀ s s', P s → step s = .inl s' → P s' ∧ μ s' < μ s) {k : ℕ} {s s' : σ}
    (h : Steps step k s s') (hs : P s) : P s' ∧ μ s' + k ≤ μ s := by
  induction k generalizing s with
  | zero =>
      rw [Steps] at h
      rw [h]
      exact ⟨hs, Nat.le_refl _⟩
  | succ k ih =>
      obtain ⟨s₁, h1, h2⟩ := h
      obtain ⟨hs₁, hlt⟩ := hstep s s₁ hs h1
      obtain ⟨hs', hle⟩ := ih h2 hs₁
      exact ⟨hs', by omega⟩

/-- A run whose steps all lower a measure can keep a view of the state for a bounded
time only: then it ends, or a step changes what is seen. -/
theorem Steps.leave {τ : Type*} (f : σ → τ) {P : σ → Prop} {μ : σ → ℕ}
    (hstep : ∀ s s', P s → step s = .inl s' → P s' ∧ μ s' < μ s) {s : σ} (hs : P s) :
    ∃ k s', Steps step k s s' ∧ f s' = f s ∧
      ((∃ r, step s' = .inr r) ∨ ∃ s'', step s' = .inl s'' ∧ f s'' ≠ f s) := by
  induction hμ : μ s using Nat.strongRecOn generalizing s with
  | ind n ih =>
      cases h : step s with
      | inr r => exact ⟨0, s, rfl, rfl, Or.inl ⟨r, h⟩⟩
      | inl s₁ =>
          by_cases hf : f s₁ = f s
          · obtain ⟨hs₁, hlt⟩ := hstep s s₁ hs h
            obtain ⟨k, s', hk, hf', hend⟩ := ih (μ s₁) (hμ ▸ hlt) hs₁ rfl
            rw [hf] at hf' hend
            exact ⟨k + 1, s', ⟨s₁, h, hk⟩, hf', hend⟩
          · exact ⟨0, s, rfl, rfl, Or.inr ⟨s₁, h, hf⟩⟩

theorem run_eq_none_iff {k : ℕ} {s : σ} : run step k s = none ↔ ∃ s', Steps step k s s' := by
  induction k generalizing s with
  | zero => exact ⟨fun _ => ⟨s, rfl⟩, fun _ => rfl⟩
  | succ k ih =>
      rw [run]
      cases h : step s with
      | inl s₁ =>
          rw [ih]
          constructor
          · exact fun ⟨s', hs'⟩ => ⟨s', s₁, h, hs'⟩
          · rintro ⟨s', s₂, h2, hs'⟩
            rw [h] at h2
            cases h2
            exact ⟨s', hs'⟩
      | inr r =>
          constructor
          · exact fun hr => by cases hr
          · rintro ⟨s', s₂, h2, -⟩
            rw [h] at h2
            cases h2

theorem Steps.run_add {k m : ℕ} {s s' : σ} (h : Steps step k s s') :
    run step (k + m) s = run step m s' := by
  induction k generalizing s with
  | zero =>
      rw [Steps] at h
      rw [h, Nat.zero_add]
  | succ k ih =>
      obtain ⟨s₁, h1, h2⟩ := h
      rw [Nat.succ_add, run, h1]
      exact ih h2

theorem Steps.ends_iff {k : ℕ} {s s' : σ} {r : ρ} (h : Steps step k s s') :
    Ends step s r ↔ Ends step s' r := by
  induction k generalizing s with
  | zero =>
      rw [Steps] at h
      rw [h]
  | succ k ih =>
      obtain ⟨s₁, h1, h2⟩ := h
      rw [Ends.step_iff h1]
      exact ih h2

theorem run_none_of_le {k k' : ℕ} {s : σ} (hk : k ≤ k') (h : run step k' s = none) :
    run step k s = none := by
  cases hr : run step k s with
  | none => rfl
  | some r =>
      rw [run_le hk hr] at h
      cases h

theorem run_of_fixed {s : σ} (h : step s = .inl s) : ∀ k, run step k s = none
  | 0 => rfl
  | k + 1 => by
      rw [run, h]
      exact run_of_fixed h k

/-- A machine that keeps step with one that ends does so as well. -/
theorem run_of_lockstep {τ ρ' : Type*} {step' : τ → τ ⊕ ρ'} (R : σ → τ → Prop)
    (hstep : ∀ s t t', R s t → step' t = .inl t' → ∃ s', step s = .inl s' ∧ R s' t') :
    ∀ (k : ℕ) (s : σ) (t : τ), R s t → (run step k s).isSome → (run step' k t).isSome
  | 0, _, _, _, h => h
  | k + 1, s, t, hR, h => by
      rw [run] at h ⊢
      cases ht : step' t with
      | inl t' =>
          obtain ⟨s', hs, hR'⟩ := hstep s t t' hR ht
          rw [hs] at h
          exact run_of_lockstep R hstep k s' t' hR' h
      | inr r' => rfl

/-- The results of two machines in lockstep. One of them may end before the other, with a result
that is related to every result. -/
theorem Ends.related {τ ρ' : Type*} {step' : τ → τ ⊕ ρ'} (R : σ → τ → Prop) (Q : ρ → ρ' → Prop)
    (hstep : ∀ s t, R s t → Sum.LiftRel R Q (step s) (step' t) ∨
      (∃ r, step s = .inr r ∧ ∀ r', Q r r') ∨ ∃ r', step' t = .inr r' ∧ ∀ r, Q r r')
    {s : σ} {t : τ} {r : ρ} {r' : ρ'} (hR : R s t) (hr : Ends step s r) (hr' : Ends step' t r') :
    Q r r' := by
  obtain ⟨k, hk⟩ := hr
  induction k generalizing s t with
  | zero => cases hk
  | succ k ih =>
      rw [run] at hk
      rcases hstep s t hR with hlift | ⟨r₁, hs, hQ⟩ | ⟨r₁, ht, hQ⟩
      · cases hs : step s with
        | inl s' =>
            rw [hs] at hk hlift
            cases ht : step' t with
            | inl t' =>
                rw [ht, Sum.liftRel_inl_inl] at hlift
                exact ih hlift ((Ends.step_iff ht).1 hr') hk
            | inr r₁ =>
                rw [ht] at hlift
                exact absurd hlift Sum.not_liftRel_inl_inr
        | inr r₁ =>
            rw [hs] at hk hlift
            obtain rfl := Option.some.inj hk
            cases ht : step' t with
            | inl t' =>
                rw [ht] at hlift
                exact absurd hlift Sum.not_liftRel_inr_inl
            | inr r₂ =>
                rw [ht, Sum.liftRel_inr_inr] at hlift
                obtain rfl := (Ends.result_iff ht).1 hr'
                exact hlift
      · rw [hs] at hk
        obtain rfl := Option.some.inj hk
        exact hQ r'
      · obtain rfl := (Ends.result_iff ht).1 hr'
        exact hQ r

/-- The states of a machine that is followed by another one. -/
theorem Reaches.follow {τ ρ' : Type*} {step' : τ → τ ⊕ ρ'} (R : σ → τ → Prop)
    (hstep : ∀ s t s', R s t → step s = .inl s' → ∃ t', step' t = .inl t' ∧ R s' t') {s s' : σ}
    {t : τ} (h : Reaches step s s') (hR : R s t) : ∃ t', Reaches step' t t' ∧ R s' t' := by
  induction h with
  | refl => exact ⟨t, Relation.ReflTransGen.refl, hR⟩
  | tail _ hlast ih =>
      obtain ⟨t₁, hr, hR₁⟩ := ih
      obtain ⟨t', ht, hR'⟩ := hstep _ _ _ hR₁ hlast
      exact ⟨t', hr.tail ht, hR'⟩

theorem run_of_measure (P : σ → Prop) (μ : σ → ℕ)
    (hstep : ∀ s s', P s → step s = .inl s' → P s' ∧ μ s' < μ s) :
    ∀ (k : ℕ) (s : σ), P s → μ s < k → ∃ r, run step k s = some r
  | 0, s, _, hk => absurd hk (Nat.not_lt_zero _)
  | k + 1, s, hs, hk => by
      rw [run]
      cases hstep' : step s with
      | inl s' =>
          obtain ⟨hs', hlt⟩ := hstep s s' hs hstep'
          exact run_of_measure P μ hstep k s' hs' (Nat.lt_of_lt_of_le hlt (Nat.le_of_lt_succ hk))
      | inr r => exact ⟨r, rfl⟩

section Always

variable {α : Type*} {R : α → α → Prop} {P : α → Prop} {x x' : α}

/-- All that is met from `x` on satisfies `P`. -/
def Always (R : α → α → Prop) (P : α → Prop) (x : α) : Prop :=
  ∀ y, Relation.ReflTransGen R x y → P y

theorem Always.head (h : Always R P x) : P x := h x .refl

theorem Always.next (h : Always R P x) (hx : R x x') : Always R P x' :=
  fun y hy => h y (.head hx hy)

theorem always_iff : Always R P x ↔ P x ∧ ∀ x', R x x' → Always R P x' := by
  constructor
  · exact fun h => ⟨h.head, fun _ => h.next⟩
  · rintro ⟨hhead, hnext⟩ y hy
    rcases Relation.ReflTransGen.cases_head hy with rfl | ⟨x', hx, hy⟩
    · exact hhead
    · exact hnext x' hx y hy

end Always

end Machine
