import Mathlib.Data.Nat.Notation

/-!
# Computations with a state that outlives an exception

A computation of `EStateM ε σ` changes a state and may end with an exception; the
state reached is kept in both cases. A `Law` is an invariant of the states
together with a preorder. `Wp L x s Q` says that `x`, run from `s`, keeps the
invariant and moves along the preorder whatever its outcome, and that a result
meets `Q`.

The rules follow the structure of a computation, so that the specification of a
composed computation is found from those of its parts. In the continuation of
`Wp.bind` the preorder is between the start and the state in between.

`Runs x s Q` says that `x` returns from `s` with a result that meets `Q`.
-/

namespace Effect

variable {ε σ α β : Type}

/-- An invariant of states and a preorder on them. -/
structure Law (σ : Type) where
  inv : σ → Prop
  le : σ → σ → Prop
  refl : ∀ s, le s s
  trans : ∀ {s t u}, le s t → le t u → le s u

/-- What is known of the outcome of a computation that started at `s`. -/
def Outcome (L : Law σ) (s : σ) (Q : α → σ → Prop) : EStateM.Result ε σ α → Prop
  | .ok a t => L.inv t ∧ L.le s t ∧ Q a t
  | .error _ t => L.inv t ∧ L.le s t

def Wp (L : Law σ) (x : EStateM ε σ α) (s : σ) (Q : α → σ → Prop) : Prop :=
  L.inv s → Outcome L s Q (x s)

variable {L : Law σ} {x : EStateM ε σ α} {f : α → EStateM ε σ β} {s : σ}
  {Q R : α → σ → Prop} {Q' : β → σ → Prop}

theorem Wp.of_inv (h : L.inv s → Wp L x s Q) : Wp L x s Q := fun hs => h hs hs

theorem Wp.pure {a : α} (h : Q a s) : Wp L (pure a : EStateM ε σ α) s Q :=
  fun hs => ⟨hs, L.refl s, h⟩

/-- A computation that ends with an exception and leaves the state alone. -/
theorem Wp.error {e : ε} (h : x s = .error e s) : Wp L x s Q := by
  intro hs
  rw [h]
  exact ⟨hs, L.refl s⟩

theorem Wp.ok {a : α} (h : x s = .ok a s) (hQ : Q a s) : Wp L x s Q := by
  intro hs
  rw [h]
  exact ⟨hs, L.refl s, hQ⟩

theorem Wp.ok_of_le {a : α} {t : σ} (h : x s = .ok a t)
    (ht : L.inv s → L.inv t ∧ L.le s t ∧ Q a t) : Wp L x s Q := by
  intro hs
  rw [h]
  exact ht hs

theorem Wp.mono (hx : Wp L x s R) (h : ∀ a t, L.inv t → L.le s t → R a t → Q a t) :
    Wp L x s Q := by
  intro hs
  have hout := hx hs
  cases hxs : x s with
  | ok a t =>
      rw [hxs] at hout
      obtain ⟨ht, hle, hR⟩ := hout
      exact ⟨ht, hle, h a t ht hle hR⟩
  | error e t =>
      rw [hxs] at hout
      exact hout

theorem Wp.bind (hx : Wp L x s R)
    (hf : ∀ a t, L.inv t → L.le s t → R a t → Wp L (f a) t Q') :
    Wp L (x >>= f) s Q' := by
  intro hs
  have hout := hx hs
  show Outcome L s Q' (EStateM.bind x f s)
  cases hxs : x s with
  | ok a t =>
      rw [hxs] at hout
      obtain ⟨ht, hle, hR⟩ := hout
      have hfa := hf a t ht hle hR ht
      rw [EStateM.bind, hxs]
      show Outcome L s Q' (f a t)
      cases hft : f a t with
      | ok b u =>
          rw [hft] at hfa
          obtain ⟨hu, hle', hQ⟩ := hfa
          exact ⟨hu, L.trans hle hle', hQ⟩
      | error e u =>
          rw [hft] at hfa
          exact ⟨hfa.1, L.trans hle hfa.2⟩
  | error e t =>
      rw [hxs] at hout
      rw [EStateM.bind, hxs]
      exact hout

/-- Under another law that the outcomes of the first one meet. -/
theorem Wp.law {L' : Law σ} (hx : Wp L x s Q) (hinv : L'.inv s → L.inv s)
    (hle : ∀ t, L'.inv s → L.inv t → L.le s t → L'.inv t ∧ L'.le s t) : Wp L' x s Q := by
  intro hs
  have hout := hx (hinv hs)
  cases hxs : x s with
  | ok a t =>
      rw [hxs] at hout
      obtain ⟨ht, hst, hQ⟩ := hout
      exact ⟨(hle t hs ht hst).1, (hle t hs ht hst).2, hQ⟩
  | error e t =>
      rw [hxs] at hout
      exact hle t hs hout.1 hout.2

theorem bind_of_ok {a : α} {t : σ} (h : x s = .ok a t) : (x >>= f) s = f a t := by
  show EStateM.bind x f s = f a t
  rw [EStateM.bind, h]

theorem bind_of_error {e : ε} {t : σ} (h : x s = .error e t) : (x >>= f) s = .error e t := by
  show EStateM.bind x f s = .error e t
  rw [EStateM.bind, h]

theorem ok_of_bind {b : β} {u : σ} (h : (x >>= f) s = .ok b u) :
    ∃ a t, x s = .ok a t ∧ f a t = .ok b u := by
  change EStateM.bind x f s = .ok b u at h
  rw [EStateM.bind] at h
  cases hx : x s with
  | ok a t =>
      rw [hx] at h
      exact ⟨a, t, rfl, h⟩
  | error e t =>
      rw [hx] at h
      cases h

theorem error_of_bind {e : ε} {u : σ} (h : (x >>= f) s = .error e u) :
    x s = .error e u ∨ ∃ a t, x s = .ok a t ∧ f a t = .error e u := by
  change EStateM.bind x f s = .error e u at h
  rw [EStateM.bind] at h
  cases hx : x s with
  | ok a t =>
      rw [hx] at h
      exact Or.inr ⟨a, t, rfl, h⟩
  | error e' t =>
      rw [hx] at h
      cases h
      exact Or.inl rfl

def Agree (s t : σ) (x : EStateM ε σ α) : Prop := ∀ a u, x s = .ok a u → u = s ∧ x t = .ok a t

theorem Agree.pure {t : σ} (a : α) : Agree s t (pure a : EStateM ε σ α) := by
  intro b u h
  cases h
  exact ⟨rfl, rfl⟩

theorem Agree.bind {t : σ} (hx : Agree s t x) (hf : ∀ a, x s = .ok a s → Agree s t (f a)) :
    Agree s t (x >>= f) := by
  intro b u h
  obtain ⟨a, v, ha, hb⟩ := ok_of_bind h
  obtain ⟨rfl, hat⟩ := hx a v ha
  obtain ⟨rfl, hbt⟩ := hf a ha b u hb
  exact ⟨rfl, (bind_of_ok hat).trans hbt⟩

theorem Agree.ite {t : σ} {c : Prop} [Decidable c] {y : EStateM ε σ α} (hx : c → Agree s t x)
    (hy : ¬ c → Agree s t y) : Agree s t (if c then x else y) := by
  split
  next h => exact hx h
  next h => exact hy h

def Law.always (I : σ → Prop) : Law σ where
  inv := I
  le := fun _ _ => True
  refl := fun _ => trivial
  trans := fun _ _ => trivial

theorem Wp.always {I : σ → Prop} (hx : Wp L x s Q) (hinv : I s → L.inv s)
    (hI : ∀ t, I s → L.inv t → L.le s t → I t) :
    Wp (Law.always I) x s fun a t => L.le s t ∧ Q a t :=
  (hx.mono fun _ _ _ hle hQ => ⟨hle, hQ⟩).law hinv fun t hs ht hle => ⟨hI t hs ht hle, trivial⟩

/-- The law of computations that only read the state. -/
def Law.read (σ : Type) : Law σ where
  inv := fun _ => True
  le := fun s t => t = s
  refl := fun _ => rfl
  trans := fun h h' => h'.trans h

theorem Wp.of_read (h : Wp (Law.read σ) x s Q) : Wp L x s fun a t => t = s ∧ Q a t := by
  intro hs
  have hout := h trivial
  cases hxs : x s with
  | ok a t =>
      rw [hxs] at hout
      obtain ⟨-, rfl, hQ⟩ := hout
      exact ⟨hs, L.refl t, rfl, hQ⟩
  | error e t =>
      rw [hxs] at hout
      obtain ⟨-, rfl⟩ := hout
      exact ⟨hs, L.refl t⟩

/-- The result of a computation that only reads the state is the one it computes. -/
theorem Wp.read_eq (h : Wp (Law.read σ) x s Q) :
    Wp (Law.read σ) x s fun a _ => x s = .ok a s ∧ Q a s := by
  intro hs
  have hout := h hs
  cases hxs : x s with
  | ok a t =>
      rw [hxs] at hout
      obtain ⟨-, rfl, hQ⟩ := hout
      exact ⟨trivial, rfl, rfl, hQ⟩
  | error e t =>
      rw [hxs] at hout
      exact hout

theorem Wp.of_read_ok (h : Wp (Law.read σ) x s Q) {a : α} {t : σ} (hx : x s = .ok a t) :
    t = s ∧ Q a s := by
  have hout := h trivial
  rw [hx] at hout
  obtain ⟨-, rfl, hQ⟩ := hout
  exact ⟨rfl, hQ⟩

theorem Wp.read_bind (hx : Wp (Law.read σ) x s R) (hf : ∀ a, R a s → Wp L (f a) s Q') :
    Wp L (x >>= f) s Q' := by
  refine Wp.bind (hx.of_read (L := L)) ?_
  rintro a t - - ⟨rfl, hR⟩
  exact hf a hR

theorem Wp.ite {c : Prop} [Decidable c] {y : EStateM ε σ α} (hx : c → Wp L x s Q)
    (hy : ¬ c → Wp L y s Q) : Wp L (if c then x else y) s Q := by
  split
  next h => exact hx h
  next h => exact hy h

/-! ### Computations that return -/

/-- `x` returns from `s`, and its result meets `Q`. -/
def Runs (x : EStateM ε σ α) (s : σ) (Q : α → σ → Prop) : Prop :=
  ∃ a t, x s = .ok a t ∧ Q a t

theorem Runs.of_ok {a : α} {t : σ} (h : x s = .ok a t) (hQ : Q a t) : Runs x s Q := ⟨a, t, h, hQ⟩

theorem Runs.pure {a : α} (h : Q a s) : Runs (pure a : EStateM ε σ α) s Q := ⟨a, s, rfl, h⟩

theorem Runs.mono (hx : Runs x s R) (h : ∀ a t, R a t → Q a t) : Runs x s Q := by
  obtain ⟨a, t, hxs, hR⟩ := hx
  exact ⟨a, t, hxs, h a t hR⟩

theorem Runs.bind (hx : Runs x s R) (hf : ∀ a t, R a t → Runs (f a) t Q') :
    Runs (x >>= f) s Q' := by
  obtain ⟨a, t, hxs, hR⟩ := hx
  obtain ⟨b, u, hft, hQ⟩ := hf a t hR
  exact ⟨b, u, (bind_of_ok hxs).trans hft, hQ⟩

theorem Runs.ok_bind {a : α} {t : σ} (h : x s = .ok a t) (hf : Runs (f a) t Q') :
    Runs (x >>= f) s Q' := by
  obtain ⟨b, u, hft, hQ⟩ := hf
  exact ⟨b, u, (bind_of_ok h).trans hft, hQ⟩

end Effect
