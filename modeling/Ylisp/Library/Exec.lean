import Mathlib.Data.Nat.Notation
import Mathlib.Data.Set.Insert

/-!
# Runs of a labelled transition system

A run is the list of its steps, each with its label and the state after it.
`Run.allStates` is the invariant rule for runs whose steps meet a condition `Q`
on the label and the state before the step. When a step that fails the condition
leads to a state that breaks the property, the condition is exact
(`Run.allStates_iff`).

A partial step function is stuck where the program has no defined behaviour. A list of
labels `Obeys` a law when no step is stuck and each does what the law says; where a
single step does so exactly on a condition, so does a run (`obeys_iff_meets`).
-/

namespace Exec

variable {σ ε : Type*}

inductive Run (step : σ → ε → σ → Prop) : σ → List (ε × σ) → Prop
  | nil (s : σ) : Run step s []
  | cons {s s' : σ} {e : ε} {tr : List (ε × σ)} (h : step s e s') (htr : Run step s' tr) :
      Run step s ((e, s') :: tr)

/-- A property of all the states of a run. -/
def AllStates (P : σ → Prop) (s : σ) (tr : List (ε × σ)) : Prop := P s ∧ ∀ x ∈ tr, P x.2

/-- A property of all the steps of a run: of each label and the state before. -/
def AllSteps (Q : σ → ε → Prop) : σ → List (ε × σ) → Prop
  | _, [] => True
  | s, (e, s') :: tr => Q s e ∧ AllSteps Q s' tr

variable {step : σ → ε → σ → Prop} {P I : σ → Prop} {Q : σ → ε → Prop}

theorem allStates_nil {s : σ} : AllStates P s ([] : List (ε × σ)) ↔ P s := by
  simp [AllStates]

theorem allStates_cons {s s' : σ} {e : ε} {tr : List (ε × σ)} :
    AllStates P s ((e, s') :: tr) ↔ P s ∧ AllStates P s' tr := by
  simp [AllStates]

theorem AllStates.mono (h : ∀ s, I s → P s) {s : σ} {tr : List (ε × σ)}
    (hI : AllStates I s tr) : AllStates P s tr :=
  ⟨h s hI.1, fun x hx => h x.2 (hI.2 x hx)⟩

theorem AllSteps.mono {Q' : σ → ε → Prop} (h : ∀ s e, Q s e → Q' s e) :
    ∀ {s : σ} {tr : List (ε × σ)}, AllSteps Q s tr → AllSteps Q' s tr
  | _, [], _ => trivial
  | s, (e, _) :: _, hQ => ⟨h s e hQ.1, AllSteps.mono h hQ.2⟩

theorem allSteps_true : ∀ (s : σ) (tr : List (ε × σ)), AllSteps (fun _ _ => True) s tr
  | _, [] => trivial
  | _, (_, s') :: tr => ⟨trivial, allSteps_true s' tr⟩

instance decidableAllSteps [∀ s e, Decidable (Q s e)] :
    ∀ (s : σ) (tr : List (ε × σ)), Decidable (AllSteps Q s tr)
  | _, [] => inferInstanceAs (Decidable True)
  | s, (e, s') :: tr =>
      haveI := decidableAllSteps s' tr
      inferInstanceAs (Decidable (Q s e ∧ AllSteps Q s' tr))

theorem Run.allStates (hstep : ∀ s e s', I s → Q s e → step s e s' → I s') {s : σ}
    {tr : List (ε × σ)} (hrun : Run step s tr) (hQ : AllSteps Q s tr) (hs : I s) :
    AllStates I s tr := by
  induction hrun with
  | nil s => exact allStates_nil.2 hs
  | cons h _ ih =>
      obtain ⟨h1, h2⟩ := hQ
      exact allStates_cons.2 ⟨hs, ih h2 (hstep _ _ _ hs h1 h)⟩

/-- The condition is exact when a step that fails it leads out of the property. -/
theorem Run.allStates_iff (hstep : ∀ s e s', I s → Q s e → step s e s' → I s')
    (hP : ∀ s, I s → P s) (hbad : ∀ s e s', I s → step s e s' → P s' → Q s e) {s : σ}
    {tr : List (ε × σ)} (hrun : Run step s tr) (hs : I s) :
    AllStates P s tr ↔ AllSteps Q s tr := by
  constructor
  · intro hall
    induction hrun with
    | nil s => trivial
    | cons h _ ih =>
        obtain ⟨-, hall⟩ := allStates_cons.1 hall
        have hQ := hbad _ _ _ hs h hall.1
        exact ⟨hQ, ih (hstep _ _ _ hs hQ h) hall⟩
  · exact fun hQ => (hrun.allStates hstep hQ hs).mono hP

/-! ### Partial step functions -/

/-- No step is stuck, and each one satisfies the law `L`. -/
def Obeys (f : σ → ε → Option σ) (L : σ → ε → σ → Prop) : σ → List ε → Prop
  | _, [] => True
  | s, e :: es => ∃ s', f s e = some s' ∧ L s e s' ∧ Obeys f L s' es

/-- Each step that is taken meets a condition on its label and the state before. -/
def Meets (f : σ → ε → Option σ) (Q : σ → ε → Prop) : σ → List ε → Prop
  | _, [] => True
  | s, e :: es => Q s e ∧ ∀ s', f s e = some s' → Meets f Q s' es

theorem obeys_iff_meets {f : σ → ε → Option σ} {L : σ → ε → σ → Prop}
    (hstep : ∀ s e s', I s → f s e = some s' → I s')
    (hone : ∀ s e, I s → ((∃ s', f s e = some s' ∧ L s e s') ↔ Q s e)) :
    ∀ {es : List ε} {s : σ}, I s → (Obeys f L s es ↔ Meets f Q s es)
  | [], _, _ => Iff.rfl
  | e :: es, s, hs => by
      constructor
      · rintro ⟨s', hs', hL, hrest⟩
        refine ⟨(hone s e hs).1 ⟨s', hs', hL⟩, fun s₁ hs₁ => ?_⟩
        rw [hs'] at hs₁
        cases hs₁
        exact (obeys_iff_meets hstep hone (hstep s e s' hs hs')).1 hrest
      · rintro ⟨hQ, hrest⟩
        obtain ⟨s', hs', hL⟩ := (hone s e hs).2 hQ
        exact ⟨s', hs', hL, (obeys_iff_meets hstep hone (hstep s e s' hs hs')).2 (hrest s' hs')⟩

end Exec
