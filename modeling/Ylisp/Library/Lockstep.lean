import Mathlib.Data.List.Basic
import Mathlib.Data.Nat.Notation

/-!
# Comparing two objects in lockstep

A comparison looks at two objects with `view`: it is decided at once, it is not defined,
it is one that must not be made, or it comes down to comparisons of parts. A sequence of
these ends at the first difference; in parallel all of them are made.

`run` bounds the depth of the recursion, since objects may be cyclic. `Decided` and `Clash`
say without a bound what a comparison comes to (`decided_iff`, `clash_iff`).
-/

namespace Lockstep

inductive View (R : Type*) where
  | done (b : Bool)
  | stuck
  | bad
  | seq (ps : List (R × R)) (last : Bool)
  | par (ps : List (R × R))

inductive Verdict where
  | deep
  | stuck
  | bad
  | val (b : Bool)
  deriving DecidableEq

def Verdict.andThen : Verdict → Verdict → Verdict
  | .val true, r => r
  | .val false, _ => .val false
  | .deep, _ => .deep
  | .stuck, _ => .stuck
  | .bad, _ => .bad

variable {R : Type*}

def seqRun (cmp : R → R → Verdict) : List (R × R) → Bool → Verdict
  | [], last => .val last
  | q :: ps, last => (cmp q.1 q.2).andThen (seqRun cmp ps last)

def parRun (cmp : R → R → Verdict) : List (R × R) → Bool → Verdict
  | [], b => .val b
  | q :: ps, b => match cmp q.1 q.2 with
      | .val b' => parRun cmp ps (b && b')
      | .deep => .deep
      | .stuck => .stuck
      | .bad => .bad

/-- What a view comes to, when its parts are compared with `cmp`. -/
def View.eval (cmp : R → R → Verdict) : View R → Verdict
  | .done b => .val b
  | .stuck => .stuck
  | .bad => .bad
  | .seq ps last => seqRun cmp ps last
  | .par ps => parRun cmp ps true

def run (view : R → R → View R) : ℕ → R → R → Verdict
  | 0, _, _ => .deep
  | k + 1, x, y => (view x y).eval (run view k)

inductive Decided (view : R → R → View R) : R → R → Bool → Prop
  | done {x y : R} {b : Bool} (h : view x y = .done b) : Decided view x y b
  | last {x y : R} {ps : List (R × R)} {b : Bool} (h : view x y = .seq ps b)
      (hps : ∀ q ∈ ps, Decided view q.1 q.2 true) : Decided view x y b
  | first {x y : R} {ps qs : List (R × R)} {q : R × R} {b : Bool}
      (h : view x y = .seq (ps ++ q :: qs) b) (hps : ∀ q ∈ ps, Decided view q.1 q.2 true)
      (hq : Decided view q.1 q.2 false) : Decided view x y false
  | par {x y : R} {ps : List (R × R)} (v : R × R → Bool) (h : view x y = .par ps)
      (hps : ∀ q ∈ ps, Decided view q.1 q.2 (v q)) : Decided view x y (ps.all v)

inductive Clash (view : R → R → View R) : R → R → Prop
  | bad {x y : R} (h : view x y = .bad) : Clash view x y
  | seq {x y : R} {ps qs : List (R × R)} {q : R × R} {b : Bool}
      (h : view x y = .seq (ps ++ q :: qs) b) (hps : ∀ q ∈ ps, Decided view q.1 q.2 true)
      (hq : Clash view q.1 q.2) : Clash view x y
  | par {x y : R} {ps qs : List (R × R)} {q : R × R} (v : R × R → Bool)
      (h : view x y = .par (ps ++ q :: qs)) (hps : ∀ q ∈ ps, Decided view q.1 q.2 (v q))
      (hq : Clash view q.1 q.2) : Clash view x y

section Lists

variable {cmp cmp' : R → R → Verdict}

theorem andThen_assoc (r r' r'' : Verdict) :
    (r.andThen r').andThen r'' = r.andThen (r'.andThen r'') := by
  cases r with
  | val b => cases b <;> rfl
  | deep => rfl
  | stuck => rfl
  | bad => rfl

theorem andThen_of_ne {r : Verdict} (h : r ≠ .val true) (r' : Verdict) : r.andThen r' = r := by
  cases r with
  | val b =>
      cases b with
      | true => exact absurd rfl h
      | false => rfl
  | deep => rfl
  | stuck => rfl
  | bad => rfl

theorem seqRun_append (qs : List (R × R)) (last : Bool) : ∀ ps : List (R × R),
    seqRun cmp (ps ++ qs) last = (seqRun cmp ps true).andThen (seqRun cmp qs last)
  | [] => rfl
  | q :: ps => by rw [List.cons_append, seqRun, seqRun, seqRun_append qs last ps, andThen_assoc]

theorem seqRun_false : ∀ ps : List (R × R), seqRun cmp ps false ≠ .val true
  | [] => nofun
  | q :: ps => by
      rw [seqRun]
      by_cases htrue : cmp q.1 q.2 = .val true
      · rw [htrue]
        exact seqRun_false ps
      · rw [andThen_of_ne htrue]
        exact htrue

theorem seqRun_same {ps : List (R × R)} (h : ∀ q ∈ ps, cmp q.1 q.2 = .val true) (last : Bool) :
    seqRun cmp ps last = .val last := by
  induction ps with
  | nil => rfl
  | cons q ps ih =>
      rw [seqRun, h q List.mem_cons_self]
      exact ih fun q' hq' => h q' (List.mem_cons_of_mem q hq')

theorem andThen_ne_deep {r r' : Verdict} (h : r.andThen r' ≠ .deep) :
    r ≠ .deep ∧ (r = .val true → r' ≠ .deep) := by
  cases r with
  | val b => cases b <;> simp_all [Verdict.andThen]
  | deep => exact absurd rfl h
  | stuck => exact ⟨nofun, nofun⟩
  | bad => exact ⟨nofun, nofun⟩

theorem seqRun_congr : ∀ {ps : List (R × R)} {last : Bool},
    (∀ q ∈ ps, cmp q.1 q.2 ≠ .deep → cmp' q.1 q.2 = cmp q.1 q.2) →
      seqRun cmp ps last ≠ .deep → seqRun cmp' ps last = seqRun cmp ps last
  | [], _, _, _ => rfl
  | q :: ps, last, h, hne => by
      rw [seqRun] at hne
      obtain ⟨hq, hrest⟩ := andThen_ne_deep hne
      rw [seqRun, seqRun, h q List.mem_cons_self hq]
      by_cases htrue : cmp q.1 q.2 = .val true
      · rw [seqRun_congr (fun q' hq' => h q' (List.mem_cons_of_mem q hq')) (hrest htrue)]
      · rw [andThen_of_ne htrue, andThen_of_ne htrue]

theorem parRun_congr : ∀ {ps : List (R × R)} {b : Bool},
    (∀ q ∈ ps, cmp q.1 q.2 ≠ .deep → cmp' q.1 q.2 = cmp q.1 q.2) →
      parRun cmp ps b ≠ .deep → parRun cmp' ps b = parRun cmp ps b
  | [], _, _, _ => rfl
  | q :: ps, b, h, hne => by
      have hq : cmp q.1 q.2 ≠ .deep := by
        intro hdeep
        rw [parRun, hdeep] at hne
        exact hne rfl
      rw [parRun] at hne
      rw [parRun, parRun, h q List.mem_cons_self hq]
      cases hcmp : cmp q.1 q.2 with
      | val b' =>
          rw [hcmp] at hne
          exact parRun_congr (fun q' hq' => h q' (List.mem_cons_of_mem q hq')) hne
      | deep => rfl
      | stuck => rfl
      | bad => rfl

/-- A sequence comes to the end, or to its first part that is not the same. -/
theorem seqRun_cases : ∀ (ps : List (R × R)) (last : Bool),
    ((∀ q ∈ ps, cmp q.1 q.2 = .val true) ∧ seqRun cmp ps last = .val last) ∨
      ∃ as q bs, ps = as ++ q :: bs ∧ (∀ q ∈ as, cmp q.1 q.2 = .val true) ∧
        cmp q.1 q.2 ≠ .val true ∧ seqRun cmp ps last = cmp q.1 q.2
  | [], last => Or.inl ⟨nofun, rfl⟩
  | q :: ps, last => by
      by_cases htrue : cmp q.1 q.2 = .val true
      · rw [seqRun, htrue]
        rcases seqRun_cases ps last with ⟨hall, hrun⟩ | ⟨as, q', bs, rfl, hall, hne, hrun⟩
        · exact Or.inl ⟨List.forall_mem_cons.2 ⟨htrue, hall⟩, hrun⟩
        · exact Or.inr ⟨q :: as, q', bs, rfl, List.forall_mem_cons.2 ⟨htrue, hall⟩, hne, hrun⟩
      · refine Or.inr ⟨[], q, ps, rfl, nofun, htrue, ?_⟩
        rw [seqRun, andThen_of_ne htrue]

def holds (cmp : R → R → Verdict) (q : R × R) : Bool := cmp q.1 q.2 = .val true

theorem holds_of_val {q : R × R} {b : Bool} (h : cmp q.1 q.2 = .val b) :
    cmp q.1 q.2 = .val (holds cmp q) := by
  rw [h, holds, h]
  cases b <;> rfl

/-- Parallel comparisons are all decided, or come to the first one that is not. -/
theorem parRun_cases : ∀ (ps : List (R × R)) (b : Bool),
    ((∀ q ∈ ps, cmp q.1 q.2 = .val (holds cmp q)) ∧
      parRun cmp ps b = .val (b && ps.all (holds cmp))) ∨
      ∃ as q bs, ps = as ++ q :: bs ∧ (∀ q ∈ as, cmp q.1 q.2 = .val (holds cmp q)) ∧
        (∀ b', cmp q.1 q.2 ≠ .val b') ∧ parRun cmp ps b = cmp q.1 q.2
  | [], b => Or.inl ⟨nofun, by rw [List.all_nil, Bool.and_true]; rfl⟩
  | q :: ps, b => by
      cases hcmp : cmp q.1 q.2 with
      | val b' =>
          have hv := holds_of_val hcmp
          rw [parRun, hv]
          rcases parRun_cases ps (b && holds cmp q) with
            ⟨hall, hrun⟩ | ⟨as, q', bs, rfl, hall, hne, hrun⟩
          · refine Or.inl ⟨List.forall_mem_cons.2 ⟨hv, hall⟩, ?_⟩
            rw [List.all_cons, ← Bool.and_assoc]
            exact hrun
          · exact Or.inr ⟨q :: as, q', bs, rfl, List.forall_mem_cons.2 ⟨hv, hall⟩, hne, hrun⟩
      | deep => exact Or.inr ⟨[], q, ps, rfl, nofun, by rw [hcmp]; exact nofun, by rw [parRun, hcmp]⟩
      | stuck =>
          exact Or.inr ⟨[], q, ps, rfl, nofun, by rw [hcmp]; exact nofun, by rw [parRun, hcmp]⟩
      | bad =>
          exact Or.inr ⟨[], q, ps, rfl, nofun, by rw [hcmp]; exact nofun, by rw [parRun, hcmp]⟩

theorem parRun_append {ps : List (R × R)} (qs : List (R × R)) {v : R × R → Bool} {b : Bool}
    (h : ∀ q ∈ ps, cmp q.1 q.2 = .val (v q)) :
    parRun cmp (ps ++ qs) b = parRun cmp qs (b && ps.all v) := by
  induction ps generalizing b with
  | nil => rw [List.all_nil, Bool.and_true]; rfl
  | cons q ps ih =>
      rw [List.cons_append, parRun, h q List.mem_cons_self]
      simp only
      rw [ih fun q' hq' => h q' (List.mem_cons_of_mem q hq'), List.all_cons, Bool.and_assoc]

end Lists

/-! ### The depth -/

section Depth

variable {view : R → R → View R}

theorem run_succ : ∀ {k : ℕ} {x y : R}, run view k x y ≠ .deep →
    run view (k + 1) x y = run view k x y
  | 0, _, _, h => absurd rfl h
  | k + 1, x, y, h => by
      rw [run] at h
      rw [run, run]
      cases hview : view x y with
      | done b => rfl
      | stuck => rfl
      | bad => rfl
      | seq ps last =>
          rw [hview] at h
          exact seqRun_congr (fun q _ => run_succ) h
      | par ps =>
          rw [hview] at h
          exact parRun_congr (fun q _ => run_succ) h

theorem run_mono {k k' : ℕ} (hk : k ≤ k') {x y : R} {r : Verdict} (h : run view k x y = r)
    (hr : r ≠ .deep) : run view k' x y = r := by
  induction hk with
  | refl => exact h
  | step _ ih => rw [run_succ (by rw [ih]; exact hr), ih]

theorem exists_depth {r : R × R → Verdict} : ∀ {ps : List (R × R)}, (∀ q ∈ ps, r q ≠ .deep) →
    (∀ q ∈ ps, ∃ k, run view k q.1 q.2 = r q) → ∃ k, ∀ q ∈ ps, run view k q.1 q.2 = r q
  | [], _, _ => ⟨0, nofun⟩
  | q :: ps, hr, h => by
      obtain ⟨k, hk⟩ := h q List.mem_cons_self
      obtain ⟨k', hk'⟩ := exists_depth (fun q' hq' => hr q' (List.mem_cons_of_mem q hq'))
        fun q' hq' => h q' (List.mem_cons_of_mem q hq')
      refine ⟨max k k', List.forall_mem_cons.2 ⟨?_, fun q' hq' => ?_⟩⟩
      · exact run_mono (Nat.le_max_left k k') hk (hr q List.mem_cons_self)
      · exact run_mono (Nat.le_max_right k k') (hk' q' hq') (hr q' (List.mem_cons_of_mem q hq'))

theorem decided_of_run : ∀ {k : ℕ} {x y : R} {b : Bool}, run view k x y = .val b →
    Decided view x y b
  | 0, _, _, _, h => by cases h
  | k + 1, x, y, b, h => by
      rw [run] at h
      cases hview : view x y with
      | done b' =>
          rw [hview] at h
          cases h
          exact .done hview
      | stuck => rw [hview] at h; cases h
      | bad => rw [hview] at h; cases h
      | seq ps last =>
          rw [hview] at h
          change seqRun (run view k) ps last = .val b at h
          rcases seqRun_cases ps last with ⟨hall, hrun⟩ | ⟨as, q, bs, rfl, hall, hne, hrun⟩
          · rw [hrun] at h
            cases h
            exact .last hview fun q hq => decided_of_run (hall q hq)
          · rw [hrun] at h
            cases b with
            | true => exact absurd h hne
            | false =>
                exact .first hview (fun q hq => decided_of_run (hall q hq)) (decided_of_run h)
      | par ps =>
          rw [hview] at h
          change parRun (run view k) ps true = .val b at h
          rcases parRun_cases ps true with
            ⟨hall, hrun⟩ | ⟨as, q, bs, rfl, hall, hne, hrun⟩
          · rw [hrun, Bool.true_and] at h
            cases h
            exact .par _ hview fun q hq => decided_of_run (hall q hq)
          · rw [hrun] at h
            exact absurd h (hne b)

/-- A sequence that goes on to its part `q` comes to what that one comes to, unless it is the
same. -/
theorem run_of_first {x y : R} {ps qs : List (R × R)} {q : R × R} {b : Bool} {r : Verdict}
    (h : view x y = .seq (ps ++ q :: qs) b) (hr : r ≠ .val true) (hr' : r ≠ .deep)
    (hps : ∀ q ∈ ps, ∃ k, run view k q.1 q.2 = .val true)
    (hq : ∃ k, run view k q.1 q.2 = r) : ∃ k, run view k x y = r := by
  obtain ⟨k, hk⟩ := exists_depth (r := fun _ => .val true) (fun _ _ => nofun) hps
  obtain ⟨k', hk'⟩ := hq
  refine ⟨max k k' + 1, ?_⟩
  have hsame := seqRun_same (fun q hq => run_mono (Nat.le_max_left k k') (hk q hq) nofun) true
  have hrun : run view (max k k') q.1 q.2 = r := run_mono (Nat.le_max_right k k') hk' hr'
  rw [run, h, View.eval, seqRun_append, hsame, seqRun, hrun, andThen_of_ne hr]
  rfl

theorem run_of_decided {x y : R} {b : Bool} (h : Decided view x y b) :
    ∃ k, run view k x y = .val b := by
  induction h with
  | done h => exact ⟨1, by rw [run, h]; rfl⟩
  | @last _ _ ps b h _ ih =>
      obtain ⟨k, hk⟩ := exists_depth (r := fun _ => .val true) (fun _ _ => nofun) ih
      refine ⟨k + 1, ?_⟩
      rw [run, h]
      exact seqRun_same hk b
  | first h _ _ ih ihq => exact run_of_first h nofun nofun ih ihq
  | par v h _ ih =>
      obtain ⟨k, hk⟩ := exists_depth (r := fun q => .val (v q)) (fun _ _ => nofun) ih
      refine ⟨k + 1, ?_⟩
      rw [run, h]
      have happend := parRun_append [] (b := true) hk
      rw [List.append_nil, Bool.true_and] at happend
      exact happend

/-- What a comparison comes to, at some depth and hence at every greater one. -/
theorem decided_iff {x y : R} {b : Bool} :
    Decided view x y b ↔ ∃ k, run view k x y = .val b :=
  ⟨run_of_decided, fun ⟨_, h⟩ => decided_of_run h⟩

theorem clash_of_run : ∀ {k : ℕ} {x y : R}, run view k x y = .bad → Clash view x y
  | 0, _, _, h => by cases h
  | k + 1, x, y, h => by
      rw [run] at h
      cases hview : view x y with
      | done b => rw [hview] at h; cases h
      | stuck => rw [hview] at h; cases h
      | bad => exact .bad hview
      | seq ps last =>
          rw [hview] at h
          change seqRun (run view k) ps last = .bad at h
          rcases seqRun_cases ps last with ⟨hall, hrun⟩ | ⟨as, q, bs, rfl, hall, hne, hrun⟩
          · rw [hrun] at h
            cases h
          · rw [hrun] at h
            exact .seq hview (fun q hq => decided_of_run (hall q hq)) (clash_of_run h)
      | par ps =>
          rw [hview] at h
          change parRun (run view k) ps true = .bad at h
          rcases parRun_cases ps true with
            ⟨hall, hrun⟩ | ⟨as, q, bs, rfl, hall, hne, hrun⟩
          · rw [hrun] at h
            cases h
          · rw [hrun] at h
            exact .par _ hview (fun q hq => decided_of_run (hall q hq)) (clash_of_run h)

theorem run_of_clash {x y : R} (h : Clash view x y) : ∃ k, run view k x y = .bad := by
  induction h with
  | bad h => exact ⟨1, by rw [run, h]; rfl⟩
  | seq h hps _ ihq =>
      exact run_of_first h nofun nofun (fun q hq => run_of_decided (hps q hq)) ihq
  | par v h hps _ ihq =>
      obtain ⟨k, hk⟩ := exists_depth (r := fun q => .val (v q)) (fun _ _ => nofun)
        fun q hq => run_of_decided (hps q hq)
      obtain ⟨k', hk'⟩ := ihq
      refine ⟨max k k' + 1, ?_⟩
      rw [run, h]
      refine (parRun_append _ (v := v) fun q hq => ?_).trans ?_
      · exact run_mono (Nat.le_max_left k k') (hk q hq) nofun
      · rw [parRun, run_mono (Nat.le_max_right k k') hk' nofun]

theorem clash_iff {x y : R} : Clash view x y ↔ ∃ k, run view k x y = .bad :=
  ⟨run_of_clash, fun ⟨_, h⟩ => clash_of_run h⟩

end Depth

/-! ### The order of the objects -/

def View.swap : View R → View R
  | .done b => .done b
  | .stuck => .stuck
  | .bad => .bad
  | .seq ps last => .seq (ps.map Prod.swap) last
  | .par ps => .par (ps.map Prod.swap)

/-- Objects that are the same are so in the other order, when the two views are each
other's unless they find a difference, or one must not be made. -/
theorem Decided.symm {view : R → R → View R}
    (hview : ∀ x y, view y x = (view x y).swap ∨ view x y = .done false ∨ view x y = .bad)
    {x y : R} (h : Decided view x y true) : Decided view y x true := by
  have hmem : ∀ {ps : List (R × R)}, (∀ q ∈ ps, Decided view q.2 q.1 true) →
      ∀ q ∈ ps.map Prod.swap, Decided view q.1 q.2 true := by
    intro ps hps
    rw [List.forall_mem_map]
    exact hps
  generalize hb : true = b at h
  induction h with
  | @done x y _ h =>
      subst hb
      rcases hview x y with hswap | hfalse | hbad
      · rw [h] at hswap
        exact .done hswap
      · rw [h] at hfalse
        cases hfalse
      · rw [h] at hbad
        cases hbad
  | @last x y ps _ h _ ih =>
      subst hb
      rcases hview x y with hswap | hfalse | hbad
      · rw [h] at hswap
        exact .last hswap (hmem fun q hq => ih q hq rfl)
      · rw [h] at hfalse
        cases hfalse
      · rw [h] at hbad
        cases hbad
  | first => cases hb
  | @par x y ps v h _ ih =>
      rcases hview x y with hswap | hfalse | hbad
      · rw [h] at hswap
        have hall := List.all_eq_true.1 hb.symm
        have hpar := Decided.par (fun _ => true) hswap (hmem fun q hq => by
          have hq' := ih q hq (hall q hq).symm
          rwa [hall q hq] at hq')
        rw [show (ps.map Prod.swap).all (fun _ => true) = true by simp] at hpar
        exact hb ▸ hpar
      · rw [h] at hfalse
        cases hfalse
      · rw [h] at hbad
        cases hbad

end Lockstep
