import Mathlib.Data.Nat.Find
import Mathlib.Logic.Relation

/-!
# Runs that come to an end whatever happens in between

A transition system with two kinds of steps: those that a program takes, and silent ones, which
the surroundings may take any number of times between two steps of the program. `Must` says that
every run from a state comes to a state of `Q` after finitely many steps of the program: up to
there the states are in `I` and the program is not stuck, whatever silent steps are taken. It is
the total correctness of a program under every schedule; `Must.bind` is its rule of composition,
`Must.not_stuck` and `Must.meets` say what it means for finite and for infinite
runs.
-/

namespace Machine

variable {σ : Type*} {silent step : σ → σ → Prop} {I J Q R : σ → Prop} {s t : σ}

inductive Must (silent step : σ → σ → Prop) (I Q : σ → Prop) : σ → Prop
  | here {s : σ} (h : Q s) : Must silent step I Q s
  | next {s : σ} (hI : I s)
      (hgo : ∀ s', Relation.ReflTransGen silent s s' → ∃ t, step s' t)
      (h : ∀ s' t, Relation.ReflTransGen silent s s' → step s' t → Must silent step I Q t) :
      Must silent step I Q s

theorem Must.mono (h : Must silent step I Q s) (hI : ∀ s, I s → J s) (hQ : ∀ s, Q s → R s) :
    Must silent step J R s := by
  induction h with
  | here h => exact .here (hQ _ h)
  | next hs hgo _ ih => exact .next (hI _ hs) hgo ih

/-- Composition: from the states of `Q` on, every run comes to `R`. -/
theorem Must.bind (h : Must silent step I Q s) (hQ : ∀ t, Q t → Must silent step I R t) :
    Must silent step I R s := by
  induction h with
  | here h => exact hQ _ h
  | next hs hgo _ ih => exact .next hs hgo ih

/-- A step of the program where no silent one is possible. -/
theorem Must.of_step (hI : I s) (hsilent : ∀ t, ¬ silent s t) (hgo : ∃ t, step s t)
    (h : ∀ t, step s t → Must silent step I Q t) : Must silent step I Q s := by
  have hself : ∀ s', Relation.ReflTransGen silent s s' → s' = s := by
    intro s' hs'
    rcases Relation.ReflTransGen.cases_head hs' with rfl | ⟨t, ht, -⟩
    · rfl
    · exact absurd ht (hsilent t)
  refine .next hI (fun s' hs' => ?_) fun s' t hs' => ?_
  · rw [hself s' hs']
    exact hgo
  · rw [hself s' hs']
    exact h t

/-! ### Finite runs -/

theorem Must.goes (h : Must silent step I Q s) : Q s ∨ ∃ t, step s t := by
  cases h with
  | here h => exact Or.inl h
  | next _ hgo _ => exact Or.inr (hgo s .refl)

/-- A step of a run that has not come to `Q` yet. -/
theorem Must.advance (h : Must silent step (fun _ => True) Q s) (hQ : ¬ Q s)
    (hst : silent s t ∨ step s t) : Must silent step (fun _ => True) Q t := by
  cases h with
  | here h => exact absurd h hQ
  | next _ hgo h =>
      rcases hst with hst | hst
      · exact .next trivial (fun s' hs' => hgo s' (.head hst hs'))
          fun s' u hs' => h s' u (.head hst hs')
      · exact h s t .refl hst

/-- A run that has not come to `Q` can go on. -/
theorem Must.not_stuck (h : Must silent step I Q s)
    (hrun : Relation.ReflTransGen (fun x y => ¬ Q x ∧ (silent x y ∨ step x y)) s t) :
    Q t ∨ ∃ u, step t u := by
  have hs : Must silent step (fun _ => True) Q s := h.mono (fun _ _ => trivial) fun _ => id
  have ht : Must silent step (fun _ => True) Q t := by
    induction hrun with
    | refl => exact hs
    | tail _ hstep ih => exact ih.advance hstep.1 hstep.2
  exact ht.goes

/-! ### Infinite runs -/

theorem reaches_of_silent {f : ℕ → σ} {j : ℕ} (h : ∀ i < j, silent (f i) (f (i + 1))) :
    Relation.ReflTransGen silent (f 0) (f j) := by
  induction j with
  | zero => exact .refl
  | succ j ih => exact (ih fun i hi => h i (Nat.lt_succ_of_lt hi)).tail (h j (Nat.lt_succ_self j))

/-- In an infinite run that the program does not leave alone for ever, `Q` is met. -/
theorem Must.meets (h : Must silent step I Q s) (f : ℕ → σ) (hf : f 0 = s)
    (hrun : ∀ i, silent (f i) (f (i + 1)) ∨ step (f i) (f (i + 1)))
    (hfair : ∀ i, ∃ j, i ≤ j ∧ ¬ silent (f j) (f (j + 1))) : ∃ i, Q (f i) := by
  classical
  induction h generalizing f with
  | here h => exact ⟨0, by rwa [hf]⟩
  | @next s hs hgo _ ih =>
      have hex : ∃ j, ¬ silent (f j) (f (j + 1)) := by
        obtain ⟨j, -, hj⟩ := hfair 0
        exact ⟨j, hj⟩
      -- up to the first step of the program all steps are silent
      have hbefore := reaches_of_silent (f := f) fun i hi => not_not.1 (Nat.find_min hex hi)
      rw [hf] at hbefore
      have hstep := (hrun (Nat.find hex)).resolve_left (Nat.find_spec hex)
      obtain ⟨i, hi⟩ := ih (f (Nat.find hex)) _ hbefore hstep
        (fun i => f (Nat.find hex + 1 + i)) rfl (fun i => hrun _) fun i => by
          obtain ⟨m, hm, hm'⟩ := hfair (Nat.find hex + 1 + i)
          obtain ⟨d, rfl⟩ := Nat.exists_eq_add_of_le hm
          exact ⟨i + d, Nat.le_add_right i d, by rwa [Nat.add_assoc _ i d] at hm'⟩
      exact ⟨_, hi⟩

end Machine
