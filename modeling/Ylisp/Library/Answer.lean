import Mathlib.Data.Nat.Notation

/-!
# Machines that answer

An operation of such a machine gives an answer and the next state. A
specification is a relation: it says which answers and which next states an
operation may have. `run_spec` is the refinement rule: when each operation of
the machine, seen through `abs`, is one that the specification allows, so is
each run. `tryRun` is the run of a machine whose operations need not have a result, and
`tryRun_spec` its rule, which also says that there is one.
-/

namespace Answer

variable {ω σ τ ρ : Type*}

/-- The answers to a list of operations, and the state after them. -/
def run (step : ω → σ → ρ × σ) : List ω → σ → List ρ × σ
  | [], s => ([], s)
  | o :: os, s =>
      let r := step o s
      let q := run step os r.2
      (r.1 :: q.1, q.2)

inductive Run (spec : ω → τ → ρ → τ → Prop) : List ω → τ → List ρ → τ → Prop
  | nil (t : τ) : Run spec [] t [] t
  | cons {o : ω} {os : List ω} {t t' t'' : τ} {r : ρ} {rs : List ρ}
      (h : spec o t r t') (hrun : Run spec os t' rs t'') : Run spec (o :: os) t (r :: rs) t''

/-- A property of each operation of a run and the state before it. -/
def AllSteps (Q : ω → σ → Prop) (step : ω → σ → ρ × σ) : List ω → σ → Prop
  | [], _ => True
  | o :: os, s => Q o s ∧ AllSteps Q step os (step o s).2

variable {step : ω → σ → ρ × σ} {spec : ω → τ → ρ → τ → Prop} {I : σ → Prop}
  {Q : ω → σ → Prop}

theorem allSteps_of_forall : ∀ {os : List ω}, (∀ o ∈ os, ∀ s, Q o s) → ∀ s,
    AllSteps Q step os s
  | [], _, _ => trivial
  | o :: _, h, s =>
      ⟨h o List.mem_cons_self s,
        allSteps_of_forall (fun o' ho' => h o' (List.mem_cons_of_mem o ho')) _⟩

theorem run_append : ∀ (os os' : List ω) (s : σ),
    run step (os ++ os') s =
      ((run step os s).1 ++ (run step os' (run step os s).2).1,
        (run step os' (run step os s).2).2)
  | [], _, _ => rfl
  | o :: os, os', s => by
      rw [List.cons_append, run, run_append os os']
      rfl

/-- The invariant rule, for runs whose steps meet a condition. -/
theorem run_induction (hstep : ∀ o s, Q o s → I s → I (step o s).2) :
    ∀ (os : List ω) (s : σ), AllSteps Q step os s → I s → I (run step os s).2
  | [], _, _, hs => hs
  | o :: os, s, hQ, hs => run_induction hstep os _ hQ.2 (hstep o s hQ.1 hs)

theorem run_spec (abs : σ → τ) (hI : ∀ o s, Q o s → I s → I (step o s).2)
    (hstep : ∀ o s, Q o s → I s → spec o (abs s) (step o s).1 (abs (step o s).2)) :
    ∀ (os : List ω) (s : σ), AllSteps Q step os s → I s →
      Run spec os (abs s) (run step os s).1 (abs (run step os s).2)
  | [], s, _, _ => Run.nil (abs s)
  | o :: os, s, hQ, hs =>
      Run.cons (hstep o s hQ.1 hs) (run_spec abs hI hstep os _ hQ.2 (hI o s hQ.1 hs))

/-- The refinement rule for a specification that is a machine itself. -/
theorem run_refines (abs : σ → τ) {step' : ω → τ → ρ × τ} (hI : ∀ o s, I s → I (step o s).2)
    (hstep : ∀ o s, I s → step' o (abs s) = ((step o s).1, abs (step o s).2)) :
    ∀ (os : List ω) (s : σ), I s →
      run step' os (abs s) = ((run step os s).1, abs (run step os s).2)
  | [], _, _ => rfl
  | o :: os, s, hs => by
      rw [run, hstep o s hs]
      dsimp only
      rw [run_refines abs hI hstep os _ (hI o s hs)]
      rfl

/-! ### Operations without a result -/

section Try

variable {step : ω → σ → Option (ρ × σ)}

/-- The answers to a list of operations, and the state after them, if each operation has a
result. -/
def tryRun (step : ω → σ → Option (ρ × σ)) : List ω → σ → Option (List ρ × σ)
  | [], s => some ([], s)
  | o :: os, s =>
      (step o s).bind fun r => (tryRun step os r.2).map fun q => (r.1 :: q.1, q.2)

/-- A property of each operation of a run and the state before it. -/
def AllTried (Q : ω → σ → Prop) (step : ω → σ → Option (ρ × σ)) : List ω → σ → Prop
  | [], _ => True
  | o :: os, s => Q o s ∧ ∀ r, step o s = some r → AllTried Q step os r.2

theorem tryRun_cons {o : ω} {os : List ω} {s : σ} {r : ρ × σ} (h : step o s = some r) :
    tryRun step (o :: os) s = (tryRun step os r.2).map fun q => (r.1 :: q.1, q.2) := by
  rw [tryRun, h, Option.bind_some]

theorem tryRun_append {q : List ρ × σ} : ∀ {os : List ω} (os' : List ω) {s : σ},
    tryRun step os s = some q →
      tryRun step (os ++ os') s = (tryRun step os' q.2).map fun q' => (q.1 ++ q'.1, q'.2)
  | [], os', s, h => by
      cases h
      exact (congrFun Option.map_id _).symm
  | o :: os, os', s, h => by
      rw [tryRun, Option.bind_eq_some_iff] at h
      obtain ⟨r, hr, h⟩ := h
      obtain ⟨q, hq, rfl⟩ := Option.map_eq_some_iff.1 h
      rw [List.cons_append, tryRun_cons hr, tryRun_append os' hq, Option.map_map]
      rfl

/-- The refinement rule: under the invariant, each operation that meets the condition has a
result, and the specification allows it. -/
theorem tryRun_spec (abs : σ → τ)
    (hstep : ∀ o s, Q o s → I s → ∃ r, step o s = some r ∧ I r.2 ∧ spec o (abs s) r.1 (abs r.2)) :
    ∀ (os : List ω) (s : σ), AllTried Q step os s → I s →
      ∃ r, tryRun step os s = some r ∧ I r.2 ∧ Run spec os (abs s) r.1 (abs r.2)
  | [], s, _, hs => ⟨([], s), rfl, hs, Run.nil (abs s)⟩
  | o :: os, s, hQ, hs => by
      obtain ⟨r, hr, hI, hspec⟩ := hstep o s hQ.1 hs
      obtain ⟨q, hq, hIq, hrun⟩ := tryRun_spec abs hstep os r.2 (hQ.2 r hr) hI
      exact ⟨_, (tryRun_cons hr).trans (congrArg _ hq), hIq, Run.cons hspec hrun⟩

end Try

end Answer
