import Mathlib.Logic.Function.Basic
import Ylisp.Library.Exec
import Ylisp.Library.Machine

/-!
# Calls in a critical section

Any number of threads call operations on a shared state. The body of a call takes many steps, and
it runs between a lock and an unlock of one mutex. Steps of other threads come in between, but none
of them is a step of a body: what the calls that have returned have done is what they do one after
the other (`run_inv`).

A body may have no defined result. Its thread is then stuck, inside the section.
-/

namespace Critical

variable {τ ε σ κ : Type*}

/-- Where a thread is: outside of all calls, before the lock, or in the body of a call. -/
inductive Phase (ε κ : Type*) where
  | idle
  | waiting (e : ε)
  | inside (e : ε) (k : κ)
  | stuck (e : ε)

structure Body (ε σ κ : Type*) where
  start : ε → κ
  step : κ × σ → (κ × σ) ⊕ Option σ

/-- The threads and the state that they share. The calls that have returned are a history; no step
depends on it. -/
structure Conf (τ ε σ κ : Type*) where
  shared : σ
  owner : Option τ
  phase : τ → Phase ε κ
  done : List (τ × ε)

def init (s : σ) : Conf τ ε σ κ := ⟨s, none, fun _ => .idle, []⟩

inductive Act (τ ε : Type*) where
  | call (t : τ) (e : ε)
  | lock (t : τ)
  | work (t : τ)
  | unlock (t : τ)
  | fault (t : τ)

inductive Step [DecidableEq τ] (b : Body ε σ κ) : Conf τ ε σ κ → Act τ ε → Conf τ ε σ κ → Prop
  | call {c : Conf τ ε σ κ} {t : τ} {e : ε} (ht : c.phase t = .idle) :
      Step b c (.call t e) { c with phase := Function.update c.phase t (.waiting e) }
  | lock {c : Conf τ ε σ κ} {t : τ} {e : ε} (ht : c.phase t = .waiting e) (ho : c.owner = none) :
      Step b c (.lock t)
        { c with owner := some t, phase := Function.update c.phase t (.inside e (b.start e)) }
  | work {c : Conf τ ε σ κ} {t : τ} {e : ε} {k k' : κ} {s : σ} (ht : c.phase t = .inside e k)
      (hs : b.step (k, c.shared) = .inl (k', s)) :
      Step b c (.work t)
        { c with shared := s, phase := Function.update c.phase t (.inside e k') }
  | unlock {c : Conf τ ε σ κ} {t : τ} {e : ε} {k : κ} {s : σ} (ht : c.phase t = .inside e k)
      (hs : b.step (k, c.shared) = .inr (some s)) :
      Step b c (.unlock t) ⟨s, none, Function.update c.phase t .idle, c.done ++ [(t, e)]⟩
  | fault {c : Conf τ ε σ κ} {t : τ} {e : ε} {k : κ} (ht : c.phase t = .inside e k)
      (hs : b.step (k, c.shared) = .inr none) :
      Step b c (.fault t) { c with phase := Function.update c.phase t (.stuck e) }

def Inside (c : Conf τ ε σ κ) (t : τ) : Prop :=
  ∃ e, (∃ k, c.phase t = .inside e k) ∨ c.phase t = .stuck e

/-- The calls, one after the other, lead from the state `s₀` to `s`, and each of them meets the
condition `P` where it starts. -/
inductive Serial (b : Body ε σ κ) (P : σ → ε → Prop) (s₀ : σ) : List ε → σ → Prop
  | nil : Serial b P s₀ [] s₀
  | snoc {es : List ε} {s s' : σ} {e : ε} (hs : Serial b P s₀ es s) (hP : P s e)
      (he : Machine.Ends b.step (b.start e, s) (some s')) : Serial b P s₀ (es ++ [e]) s'

/-- A call that has the lock has come from the state that the other calls have left. -/
def InBody (b : Body ε σ κ) (s : σ) (c : Conf τ ε σ κ) (t : τ) (e : ε) : Prop :=
  (∃ k, c.phase t = .inside e k ∧ Machine.Reaches b.step (b.start e, s) (k, c.shared)) ∨
    c.phase t = .stuck e ∧ Machine.Ends b.step (b.start e, s) none

structure Inv (b : Body ε σ κ) (P : σ → ε → Prop) (s₀ : σ) (c : Conf τ ε σ κ) : Prop where
  only : ∀ t, Inside c t → c.owner = some t
  free : c.owner = none → Serial b P s₀ (c.done.map Prod.snd) c.shared
  held : ∀ t, c.owner = some t → ∃ s e, Serial b P s₀ (c.done.map Prod.snd) s ∧ P s e ∧
    InBody b s c t e

/-- A call that gets the lock meets the condition. -/
def LockMeets (P : σ → ε → Prop) (c : Conf τ ε σ κ) : Act τ ε → Prop
  | .lock t => ∀ e, c.phase t = .waiting e → P c.shared e
  | _ => True

variable {b : Body ε σ κ} {P : σ → ε → Prop} {s₀ : σ}

theorem inv_init : Inv b P s₀ (init s₀ : Conf τ ε σ κ) where
  only := by
    rintro t ⟨e, ⟨k, h⟩ | h⟩
    · cases h
    · cases h
  free _ := .nil
  held _ h := by cases h

theorem inside_of_phase {c : Conf τ ε σ κ} {t : τ} {e : ε} {k : κ} (h : c.phase t = .inside e k) :
    Inside c t :=
  ⟨e, .inl ⟨k, h⟩⟩

/-- A call that has the lock is where its body is. -/
theorem Inv.body {c : Conf τ ε σ κ} {t : τ} {e : ε} {k : κ} (hc : Inv b P s₀ c)
    (ht : c.phase t = .inside e k) :
    c.owner = some t ∧ ∃ s, Serial b P s₀ (c.done.map Prod.snd) s ∧ P s e ∧
      Machine.Reaches b.step (b.start e, s) (k, c.shared) := by
  have ho := hc.only t (inside_of_phase ht)
  refine ⟨ho, ?_⟩
  obtain ⟨s, e', hs, hP, ⟨k', h, hr⟩ | ⟨h, -⟩⟩ := hc.held t ho
  · cases ht.symm.trans h
    exact ⟨s, hs, hP, hr⟩
  · cases ht.symm.trans h

section Step

variable [DecidableEq τ] {c c' : Conf τ ε σ κ} {a : Act τ ε} {t t' : τ} {e : ε} {k : κ}

/-- A thread that leaves the section is not in it. -/
theorem Inside.of_update_self {p : Phase ε κ} {s : σ} {o : Option τ} {es : List (τ × ε)}
    (h : Inside ⟨s, o, Function.update c.phase t p, es⟩ t) :
    ∃ e, (∃ k, p = .inside e k) ∨ p = .stuck e := by
  obtain ⟨e, h⟩ := h
  dsimp only at h
  rw [Function.update_self] at h
  exact ⟨e, h⟩

theorem Inside.of_update {p : Phase ε κ} {s : σ} {o : Option τ} {es : List (τ × ε)}
    (h : Inside ⟨s, o, Function.update c.phase t p, es⟩ t') (hne : t' ≠ t) : Inside c t' := by
  obtain ⟨e, h⟩ := h
  dsimp only at h
  rw [Function.update_of_ne hne] at h
  exact ⟨e, h⟩

theorem Inv.call (hc : Inv b P s₀ c) (ht : c.phase t = .idle) :
    Inv b P s₀ { c with phase := Function.update c.phase t (.waiting e) } := by
  have hne : ∀ t', c.owner = some t' → t' ≠ t := by
    rintro t' ho rfl
    obtain ⟨s, e, -, -, ⟨k, h, -⟩ | ⟨h, -⟩⟩ := hc.held _ ho
    · cases ht.symm.trans h
    · cases ht.symm.trans h
  refine ⟨fun t' h => ?_, hc.free, fun t' ho => ?_⟩
  · by_cases heq : t' = t
    · subst heq
      obtain ⟨e', ⟨k, h⟩ | h⟩ := h.of_update_self
      · cases h
      · cases h
    · exact hc.only t' (h.of_update heq)
  · obtain ⟨s, e', hs, hP, h⟩ := hc.held t' ho
    refine ⟨s, e', hs, hP, ?_⟩
    rw [InBody]
    dsimp only
    rw [Function.update_of_ne (hne t' ho)]
    exact h

theorem Inv.lock (hc : Inv b P s₀ c) (ho : c.owner = none) (hP : P c.shared e) :
    Inv b P s₀
      { c with owner := some t, phase := Function.update c.phase t (.inside e (b.start e)) } := by
  refine ⟨fun t' h => ?_, nofun, fun t' ht' => ?_⟩
  · by_contra hno
    have hne : t' ≠ t := fun heq => hno (heq ▸ rfl)
    cases ho.symm.trans (hc.only t' (h.of_update hne))
  · cases ht'
    exact ⟨_, e, hc.free ho, hP, .inl ⟨_, Function.update_self .., .refl⟩⟩

/-- While a call has the lock, nobody else has come into the section. -/
theorem Inv.only_of_update (hc : Inv b P s₀ c) (ho : c.owner = some t) {p : Phase ε κ} {s : σ}
    {o : Option τ} {es : List (τ × ε)}
    (h : Inside ⟨s, o, Function.update c.phase t p, es⟩ t') : t' = t := by
  by_contra hne
  exact hne (Option.some.inj ((hc.only t' (h.of_update hne)).symm.trans ho))

theorem inv_step (hc : Inv b P s₀ c) (ha : LockMeets P c a) (h : Step b c a c') :
    Inv b P s₀ c' := by
  cases h with
  | call ht => exact hc.call ht
  | lock ht ho => exact hc.lock ho (ha _ ht)
  | work ht hs =>
      obtain ⟨ho, s, hserial, hP, hr⟩ := hc.body ht
      refine ⟨fun t' h => ?_, fun hno => ?_, fun t' ht' => ?_⟩
      · rw [hc.only_of_update ho h]
        exact ho
      · cases ho.symm.trans hno
      · cases ho.symm.trans ht'
        exact ⟨s, _, hserial, hP, .inl ⟨_, Function.update_self .., hr.tail hs⟩⟩
  | unlock ht hs =>
      obtain ⟨ho, s, hserial, hP, hr⟩ := hc.body ht
      refine ⟨fun t' h => ?_, fun _ => ?_, nofun⟩
      · obtain rfl := hc.only_of_update ho h
        obtain ⟨e', ⟨k', h⟩ | h⟩ := h.of_update_self
        · cases h
        · cases h
      · rw [List.map_append]
        exact hserial.snoc hP (hr.ends (.of_result hs))
  | fault ht hs =>
      obtain ⟨ho, s, hserial, hP, hr⟩ := hc.body ht
      refine ⟨fun t' h => ?_, fun hno => ?_, fun t' ht' => ?_⟩
      · rw [hc.only_of_update ho h]
        exact ho
      · cases ho.symm.trans hno
      · cases ho.symm.trans ht'
        exact ⟨s, _, hserial, hP, .inr ⟨Function.update_self .., hr.ends (.of_result hs)⟩⟩

/-- Whatever the order of the steps, the calls that have returned are serial. -/
theorem run_inv {tr : List (Act τ ε × Conf τ ε σ κ)} (hrun : Exec.Run (Step b) (init s₀) tr)
    (hP : Exec.AllSteps (LockMeets P) (init s₀) tr) :
    Exec.AllStates (Inv b P s₀) (init s₀) tr :=
  hrun.allStates (fun _ _ _ hc ha h => inv_step hc ha h) hP inv_init

/-- From one configuration a run leads to the other, on which every run from there goes on. -/
def Leads (b : Body ε σ κ) (c c' : Conf τ ε σ κ) : Prop :=
  ∀ tr', Exec.Run (Step b) c' tr' → ∃ tr, Exec.Run (Step b) c tr ∧
    ∀ P, Exec.AllStates P c tr → Exec.AllStates P c' tr'

theorem Leads.of_step (h : Step b c a c') : Leads b c c' := fun _ hrun =>
  ⟨_, .cons h hrun, fun _ hall => (Exec.allStates_cons.1 hall).2⟩

theorem Leads.trans {c'' : Conf τ ε σ κ} (h : Leads b c c') (h' : Leads b c' c'') :
    Leads b c c'' := by
  intro tr'' hrun
  obtain ⟨tr', hrun', hall'⟩ := h' tr'' hrun
  obtain ⟨tr, hrun, hall⟩ := h tr' hrun'
  exact ⟨tr, hrun, fun P hP => hall' P (hall P hP)⟩

structure Returned (c : Conf τ ε σ κ) (t : τ) (e : ε) (s : σ) (c' : Conf τ ε σ κ) : Prop where
  owner : c'.owner = none
  phase : c'.phase t = .idle
  shared : c'.shared = s
  done : c'.done = c.done ++ [(t, e)]

theorem exists_returned_of_inside {n : ℕ} {s : σ} (ht : c.phase t = .inside e k)
    (hn : Machine.run b.step n (k, c.shared) = some (some s)) :
    ∃ c', Leads b c c' ∧ Returned c t e s c' := by
  induction n generalizing c k with
  | zero => cases hn
  | succ n ih =>
      rw [Machine.run] at hn
      split at hn
      next x hstep =>
        obtain ⟨c', hlead, hret⟩ := ih (c := { c with
          shared := x.2, phase := Function.update c.phase t (.inside e x.1) })
          (Function.update_self ..) hn
        exact ⟨c', (Leads.of_step (.work ht hstep)).trans hlead, hret.owner, hret.phase,
          hret.shared, hret.done⟩
      next hstep =>
        cases hn
        exact ⟨_, .of_step (.unlock ht hstep), rfl, Function.update_self .., rfl, rfl⟩

/-- A thread can do a whole call, when nobody is in the section. -/
theorem exists_returned {s : σ} (ho : c.owner = none) (ht : c.phase t = .idle)
    (he : Machine.Ends b.step (b.start e, c.shared) (some s)) :
    ∃ c', Leads b c c' ∧ Returned c t e s c' := by
  obtain ⟨n, hn⟩ := he
  obtain ⟨c', hlead, hret⟩ := exists_returned_of_inside (c := { c with
    owner := some t
    phase := Function.update (Function.update c.phase t (.waiting e)) t (.inside e (b.start e)) })
    (Function.update_self ..) hn
  exact ⟨c',
    ((Leads.of_step (.call ht)).trans (.of_step (.lock (Function.update_self ..) ho))).trans hlead,
    hret.owner, hret.phase, hret.shared, hret.done⟩

end Step

/-- What each call does that meets the condition, all of them do one after the other. -/
theorem Serial.spec {I : σ → List ε → Prop} (h₀ : I s₀ [])
    (hone : ∀ s es e, I s es → P s e → ∃ s', Machine.Ends b.step (b.start e, s) (some s') ∧
      I s' (es ++ [e])) {es : List ε} {s : σ} (h : Serial b P s₀ es s) : I s es := by
  induction h with
  | nil => exact h₀
  | snoc _ hP he ih =>
      obtain ⟨s', hs', hI⟩ := hone _ _ _ ih hP
      cases he.unique hs'
      exact hI

end Critical
