import Ylisp.Lang.Evals
import Ylisp.Lang.Rules

/-!
# What a computation carries

An evaluation needs a pool that is `Ready`: the environment and the symbol tables mean what they
should, and there are blocks for what is taken on the way. A function that computes over the pool
`Carries` a value when the machine delivers it from there: it returns the value itself
(`carries_ret`), leaves it to what is executed in its place (`carries_tail`), or waits for another
value first (`carries_wait`, `carries_waits`).
-/

namespace Ylisp

namespace Lang

open Mempool Eval Effect

variable {n : ℕ}

/-- The pool is ready for an evaluation in the environment `a` that takes `d` blocks. -/
structure Ready (c : Etcxt n) (names : Set (List UInt8)) (Γ : Globals n) (p : Pool n) (a : Ref n)
    (ρ : Locals n) (d : ℕ) : Prop where
  good : p.Good
  kinds : KindsOk names p
  globals : Holds c p Γ
  env : Env p names a ρ
  room : d ≤ p.m.fbi

def Carries (c : Etcxt n) (names : Set (List UInt8)) (s : State n) (x : Hp n (Go n)) (v : Tree n)
    (d : ℕ) : Prop :=
  Runs x s.pool fun g q => Kept (going s g q) → Comes c (fun u => Delivered names s u v d)
    (going s g q)

section Ready

variable {c : Etcxt n} {names : Set (List UInt8)} {Γ : Globals n} {p q : Pool n} {a r : Ref n}
  {ρ : Locals n} {t : Tree n} {d d' d₀ : ℕ} {l : List (Ref n)}

theorem Env.bbs (h : Env p names a ρ) : Env { p with bbs := l } names a ρ :=
  h.transfer (S := fun _ => True) trivial (fun _ _ _ _ => trivial)
    (fun _ _ => ⟨fun _ => rfl, id⟩) fun _ _ => id

theorem Ready.bbs (h : Ready c names Γ p a ρ d) : Ready c names Γ { p with bbs := l } a ρ d :=
  ⟨good_bbs h.good, h.kinds, h.globals.transfer rfl rfl fun _ _ _ ht => ht.bbs, h.env.bbs, h.room⟩

theorem Ready.mono (h : Ready c names Γ p a ρ d) (hd : d' ≤ d) : Ready c names Γ p a ρ d' :=
  { h with room := hd.trans h.room }

theorem Ready.rebind {a' : Ref n} {ρ' : Locals n} (h : Ready c names Γ p a ρ d)
    (ha : Env p names a' ρ') : Ready c names Γ p a' ρ' d :=
  ⟨h.good, h.kinds, h.globals, ha, h.room⟩

theorem Ready.adds (h : Ready c names Γ p a ρ d) (hq : Adds names p q d₀) (hd : d₀ + d' ≤ d) :
    Ready c names Γ q a ρ d' := by
  refine ⟨hq.good, hq.kindsOk h.kinds, h.globals.adds h.good hq, h.env.adds h.good hq, ?_⟩
  have h₁ := hq.room
  have h₂ := h.room
  omega

theorem Ready.preserved (h : Ready c names Γ p a ρ d) (ha : Safe p a) (hq : Preserves p q d₀)
    (hgood : q.Good) (hkinds : KindsOk names q) (hd : d₀ + d' ≤ d) : Ready c names Γ q a ρ d' := by
  refine ⟨hgood, hkinds, h.globals.preserved h.good hq, h.env.preserved ha hq, ?_⟩
  have h₁ := hq.room
  have h₂ := h.room
  omega

theorem Safe.adds (h : Safe p r) (hp : p.Good) (hq : Adds names p q d) : Safe q r :=
  h.preserved (hq.preserves hp)

theorem Safe.push (h : Safe p r) : Safe { p with bbs := l ++ p.bbs } r := by
  obtain ⟨x, hx, hv, hr⟩ := h
  refine ⟨x, ?_, hv, hr⟩
  rcases Pool.mem_roots.1 hx with hx | hx
  · exact Pool.mem_roots.2 (Or.inl (List.mem_append_right _ hx))
  · exact Pool.mem_roots.2 (Or.inr hx)

theorem Safe.path {r' : Ref n} (h : Safe p r) (hr : p.Path r r') : Safe p r' := by
  induction hr with
  | refl => exact h
  | tail _ hl ih => exact ih.link hl

theorem Safe.of_mem (h : r ∈ p.bbs) (hr : p.Valid r) : Safe p r :=
  .of_held (.of_mem h hr) fun _ h => h

end Ready

section Carries

variable {c : Etcxt n} {names : Set (List UInt8)} {s u : State n} {x : Hp n (Go n)} {v t : Tree n}
  {q : Pool n} {r : Ref n} {w : Wait n} {ctl : Ctl n} {d d₀ d₁ d₂ : ℕ} {Q : State n → Prop}

theorem comes_after (hframes : u.frames = s.frames) (hstk : u.evalstk = s.evalstk)
    (hp : Preserves s.pool u.pool d₀) (hd : d₀ + d₁ ≤ d) {z : State n}
    (h : Comes c (fun z => Delivered names u z v d₁) z) :
    Comes c (fun z => Delivered names s z v d) z :=
  h.mono (fun _ => id) fun _ hz => ⟨hz.kept, hz.frames.trans hframes, hz.evalstk.trans hstk,
    (hp.trans hz.preserves).mono hd, hz.kinds, hz.ret⟩

theorem Carries.of_eq {y : Hp n (Go n)} (h : Carries c names s y v d) (heq : x s.pool = y s.pool) :
    Carries c names s x v d := by
  obtain ⟨g, q', hy, hcomes⟩ := h
  exact ⟨g, q', heq.trans hy, hcomes⟩

theorem carries_ret (hp : s.pool.Good) (hk : KindsOk names s.pool)
    (hx : x s.pool = .ok ⟨[], .ret r⟩ q) (hq : Adds names s.pool q d₀) (hd : d₀ ≤ d)
    (hr : Denotes q r v) : Carries c names s x v d := by
  refine .of_ok hx fun hkept => .here ?_
  rw [going_go hq.bbs] at hkept ⊢
  exact ⟨hkept, rfl, rfl, (hq.preserves hp).mono hd, hq.kindsOk hk, r, rfl, hr⟩

/-- Something else is executed in the place of the computation. -/
theorem carries_tail (hp : s.pool.Good) (hx : x s.pool = .ok ⟨[], ctl⟩ q)
    (hq : Adds names s.pool q d₀) (hd : d₀ + d₁ ≤ d)
    (h : Kept { s with pool := q, ctl := ctl } →
      Delivers c names { s with pool := q, ctl := ctl } v d₁) : Carries c names s x v d := by
  refine .of_ok hx fun hkept => ?_
  rw [going_go hq.bbs] at hkept ⊢
  exact comes_after (s := s) (u := { s with pool := q, ctl := ctl }) rfl rfl (hq.preserves hp) hd
    (h hkept)

theorem carries_wait (hp : s.pool.Good) (hx : x s.pool = .ok ⟨[w], ctl⟩ q)
    (hq : Adds names s.pool q d₀) (hnext : ∀ v, w.next v = []) (hd : d₀ + (d₁ + d₂) ≤ d)
    (h : Kept (waiting { s with pool := q } w ctl) →
      Delivers c names (waiting { s with pool := q } w ctl) t d₁)
    (hback : ∀ u r, Back names w.bb { s with pool := q } u r t d₁ →
      ∃ k, Carries c names u (w.resume c k r) v d₂) : Carries c names s x v d := by
  refine .of_ok hx fun hkept => ?_
  rw [going_enter hq.bbs] at hkept ⊢
  refine comes_wait hq.good (h hkept) fun u r hu => ?_
  obtain ⟨k, hcarries⟩ := hback u r hu
  refine ⟨k, ?_⟩
  rw [hnext]
  refine hcarries.mono fun g q' hcomes hkept => ?_
  exact comes_after (s := s) hu.frames hu.evalstk ((hq.preserves hp).trans hu.preserves)
    (by omega : d₀ + d₁ + d₂ ≤ d) (hcomes hkept)

/-- A function waits for a value, and then for another one. -/
theorem carries_waits {b : Ref n → Wait n} {g : Ref n → Ctl n} (hp : s.pool.Good)
    (hx : x s.pool = .ok ⟨[w], ctl⟩ q) (hq : Adds names s.pool q d₀)
    (hnext : ∀ r, w.next r = [b r]) (hd : d₀ + (d₁ + d₂) ≤ d)
    (h : Kept (waiting { s with pool := q } w ctl) →
      Delivers c names (waiting { s with pool := q } w ctl) t d₁)
    (hback : ∀ u r, Back names w.bb { s with pool := q } u r t d₁ →
      (∃ k, w.resume c k r (u.push (.wait (b r))).pool =
        .ok ⟨[], g r⟩ (u.push (.wait (b r))).pool) ∧
      Carries c names u (enter (b r) (g r)) v d₂) : Carries c names s x v d := by
  refine .of_ok hx fun hkept => ?_
  rw [going_enter hq.bbs] at hkept ⊢
  refine comes_wait hq.good (h hkept) fun u r hu => ?_
  obtain ⟨⟨k, hresume⟩, hcarries⟩ := hback u r hu
  refine ⟨k, ?_⟩
  rw [hnext]
  refine .of_ok hresume fun hkept => ?_
  obtain ⟨_, _, hrun, hcomes⟩ := hcarries
  cases hrun
  exact comes_after (s := s) hu.frames hu.evalstk ((hq.preserves hp).trans hu.preserves)
    (by omega : d₀ + d₁ + d₂ ≤ d) (hcomes hkept)

end Carries

/-- What the machine makes of a task that evaluates to `v`. -/
def Sound (c : Etcxt n) (names : Set (List UInt8)) (Γ : Globals n) (ρ : Locals n) (v : Tree n)
    (d : ℕ) : Task n → Prop
  | .eval t => ∀ s e a, Kept s → Ready c names Γ s.pool a ρ d → s.ctl = .eval e a →
      Denotes s.pool e t → Delivers c names s v d
  | .evlis ts => ∀ s e a, Kept s → Ready c names Γ s.pool a ρ d → s.ctl = .evlis e a →
      Safe s.pool a → Safe s.pool e → Denotes s.pool e (.list ts) → Delivers c names s v d
  | .call f ts => ∀ s e a, Kept s → Ready c names Γ s.pool a ρ d → s.ctl = .call f e a →
      Safe s.pool a → Safe s.pool e → Denotes s.pool e (.list ts) → Delivers c names s v d
  | .evcon ts => ∀ s e a, Ready c names Γ s.pool a ρ d → Safe s.pool a → Safe s.pool e →
      Denotes s.pool e (.list ts) → Carries c names s (Eval.evcon e a) v d
  | .fAnd ts => ∀ s e a, Ready c names Γ s.pool a ρ d → Safe s.pool a → Safe s.pool e →
      Denotes s.pool e (.list ts) → Carries c names s (andLoop e a) v d
  | .fOr ts => ∀ s e a, Ready c names Γ s.pool a ρ d → Safe s.pool a → Safe s.pool e →
      Denotes s.pool e (.list ts) → Carries c names s (orLoop e a) v d
  | .progn ts => ∀ s e a r, Ready c names Γ s.pool a ρ d → Safe s.pool a → Safe s.pool e →
      Denotes s.pool e (.list ts) → Carries c names s (prognLoop e a r) v d

section Waiting

variable {c : Etcxt n} {names : Set (List UInt8)} {Γ : Globals n} {ρ : Locals n} {s u : State n}
  {w : Wait n} {ctl : Ctl n} {a r v : Ref n} {t : Tree n} {d d' : ℕ} {bs : List (Ref n)}

theorem waiting_pool (s : State n) (w : Wait n) (ctl : Ctl n) :
    (waiting s w ctl).pool = { s.pool with bbs := w.bb.reverse ++ s.pool.bbs } :=
  foldl_ylmpAddBb w.bb s.pool

theorem Ready.waiting (h : Ready c names Γ s.pool a ρ d) :
    Ready c names Γ (waiting s w ctl).pool a ρ d := by
  rw [waiting_pool]
  exact h.bbs

theorem Safe.waiting (h : Safe s.pool r) : Safe (waiting s w ctl).pool r := by
  rw [waiting_pool]
  exact h.push

theorem Denotes.waiting (h : Denotes s.pool r t) : Denotes (waiting s w ctl).pool r t := by
  rw [waiting_pool]
  exact h.bbs

theorem Back.ready (h : Back names bs s u v t d) (hr : Ready c names Γ s.pool a ρ (d + d'))
    (ha : Safe s.pool a) : Ready c names Γ u.pool a ρ d' :=
  hr.preserved ha h.preserves h.good h.kinds le_rfl

theorem Back.safe (h : Back names bs s u v t d) (hr : Safe s.pool r) : Safe u.pool r :=
  hr.preserved h.preserves

theorem Back.obj_pair {e x y : Ref n} (h : Back names bs s u v t d) (he : Safe s.pool e)
    (ho : s.pool.obj e = .pair (.at x) (.at y)) : u.pool.obj e = .pair (.at x) (.at y) :=
  ((h.preserves.same e he).1 (by rw [ho]; rfl)).trans ho

theorem Back.denotes_safe {u' : Tree n} (h : Back names bs s u v t d) (hr : Safe s.pool r)
    (hu' : Denotes s.pool r u') : Denotes u.pool r u' := hu'.preserved hr h.preserves

/-- A function evaluates an expression, and waits for its value. -/
theorem carries_arg {x : Hp n (Go n)} {e : Ref n} {v u : Tree n} {i j : ℕ}
    (hr : Ready c names Γ s.pool a ρ (i + j)) (ha : Safe s.pool a)
    (hrun : x s.pool = .ok ⟨[w], .eval e a⟩ s.pool) (hnext : ∀ v, w.next v = [])
    (he : Denotes s.pool e t) (h : Sound c names Γ ρ u i (.eval t))
    (hback : ∀ z r, Ready c names Γ z.pool a ρ j → Back names w.bb s z r u i →
      ∃ k, Carries c names z (w.resume c k r) v j) : Carries c names s x v (i + j) := by
  refine carries_wait (t := u) hr.good hrun (.refl hr.good) hnext (Nat.zero_add (i + j)).le
    (fun hkept => ?_) fun z r hz => hback z r (hz.ready hr ha) hz
  exact h _ e a hkept (hr.mono (Nat.le_add_right _ _)).waiting rfl he.waiting

end Waiting

end Lang

end Ylisp
