import Mathlib.Data.List.Basic
import Mathlib.Data.List.Perm.Basic
import Ylisp.Library.Exec

/-!
# Process resources of a context

The list `pres` of a context, from `mthread.c`: resources that are to be closed when
the context is killed. The calls may come in any order; `ylmt_close_all_pres` is issued
by the thread of the context or, between two other calls, by `ylmt_kill`. Values of
resources are not NULL.

`ylmt_rm_pres` takes the first entry off the list, whatever value it is given. On an
empty list it frees the link in the context itself, which has no defined behaviour:
the step is stuck.
-/

namespace Ylisp

namespace Mthread

/-- `struct _pres`. `id` numbers the registrations. -/
structure Pres (V C : Type) where
  id : ℕ
  pres : V
  ccb : C
  deriving DecidableEq

/-- The list `pres` of a context, with its history: the number of registrations, the
entries that were taken off the list, and those whose close callback was run. -/
structure Resources (V C : Type) where
  pres : List (Pres V C)
  nr : ℕ
  off : List (Pres V C)
  closed : List (Pres V C)
  deriving DecidableEq

inductive PresCall (V C : Type) where
  | addPres (pres : V) (ccb : C)
  | rmPres (pres : V)
  | closeAllPres

namespace Resources

variable {V C : Type}

def empty : Resources V C := ⟨[], 0, [], []⟩

def ylmtAddPres (cxt : Resources V C) (pres : V) (ccb : C) : Resources V C :=
  { cxt with pres := ⟨cxt.nr, pres, ccb⟩ :: cxt.pres, nr := cxt.nr + 1 }

def ylmtRmPres (cxt : Resources V C) (_pres : V) : Option (Resources V C) :=
  match cxt.pres with
  | [] => none
  | p :: pres => some { cxt with pres := pres, off := cxt.off ++ [p] }

/-- The loop of `ylmt_close_all_pres`, at the item `p` with the next one `n`. -/
def closeAll (cxt : Resources V C) : List (Pres V C) → Resources V C
  | [] => { cxt with pres := [] }
  | p :: n => closeAll { cxt with pres := n, off := cxt.off ++ [p], closed := cxt.closed ++ [p] } n

def ylmtCloseAllPres (cxt : Resources V C) : Resources V C := cxt.closeAll cxt.pres

def step (cxt : Resources V C) : PresCall V C → Option (Resources V C)
  | .addPres pres ccb => some (cxt.ylmtAddPres pres ccb)
  | .rmPres pres => cxt.ylmtRmPres pres
  | .closeAllPres => some cxt.ylmtCloseAllPres

/-! ### The documented behaviour -/

/-- Each registered resource is on the list, or it was taken off exactly once, and each
callback that was run is that of an entry that was taken off. -/
structure Accounted (cxt : Resources V C) : Prop where
  once : ((cxt.pres ++ cxt.off).map Pres.id).Perm (List.range cxt.nr)
  closed : cxt.closed.Sublist cxt.off

/-- What a call does according to its documentation. `ylmt_rm_pres` takes the entry with
its value off that was added last, without running its callback. -/
def Documented (cxt : Resources V C) (call : PresCall V C) (cxt' : Resources V C) : Prop :=
  match call with
  | .addPres pres ccb =>
      cxt'.pres = ⟨cxt.nr, pres, ccb⟩ :: cxt.pres ∧ cxt'.off = cxt.off ∧ cxt'.closed = cxt.closed
  | .rmPres pres =>
      cxt'.closed = cxt.closed ∧
        (pres ∉ cxt.pres.map Pres.pres → cxt'.pres = cxt.pres ∧ cxt'.off = cxt.off) ∧
        ∀ later p earlier, cxt.pres = later ++ p :: earlier → pres ∉ later.map Pres.pres →
          p.pres = pres → cxt'.pres = later ++ earlier ∧ cxt'.off = cxt.off ++ [p]
  | .closeAllPres =>
      cxt'.pres = [] ∧ cxt'.off = cxt.off ++ cxt.pres ∧ cxt'.closed = cxt.closed ++ cxt.pres

/-- The law of the list: the documented behaviour, with each resource accounted for. -/
def Law (cxt : Resources V C) (call : PresCall V C) (cxt' : Resources V C) : Prop :=
  Documented cxt call cxt' ∧ Accounted cxt'

/-- A call of `ylmt_rm_pres` names the value of the first entry. -/
def NamesFirst (cxt : Resources V C) : PresCall V C → Prop
  | .rmPres pres => (cxt.pres.map Pres.pres).head? = some pres
  | _ => True

theorem accounted_empty : (empty : Resources V C).Accounted :=
  ⟨List.Perm.refl _, List.Sublist.refl _⟩

theorem closeAll_eq (cxt : Resources V C) (ps : List (Pres V C)) :
    cxt.closeAll ps =
      { cxt with pres := [], off := cxt.off ++ ps, closed := cxt.closed ++ ps } := by
  induction ps generalizing cxt with
  | nil => simp [closeAll]
  | cons p n ih => simp [closeAll, ih]

/-- No call takes an entry off twice, or loses one: not even `ylmt_rm_pres`. -/
theorem accounted_step {cxt cxt' : Resources V C} {call : PresCall V C} (hc : cxt.Accounted)
    (h : cxt.step call = some cxt') : cxt'.Accounted := by
  cases call with
  | addPres pres ccb =>
      cases h
      refine ⟨?_, hc.closed⟩
      rw [ylmtAddPres, List.range_succ]
      exact (List.Perm.cons cxt.nr hc.once).trans (List.perm_append_singleton _ _).symm
  | rmPres pres =>
      rw [step, ylmtRmPres] at h
      split at h
      · cases h
      next p ps hps =>
        cases h
        refine ⟨List.Perm.trans ?_ hc.once, hc.closed.trans (List.sublist_append_left _ _)⟩
        rw [hps, ← List.append_assoc]
        exact (List.perm_append_singleton p (ps ++ cxt.off)).map Pres.id
  | closeAllPres =>
      cases h
      rw [ylmtCloseAllPres, closeAll_eq]
      refine ⟨?_, hc.closed.append (List.Sublist.refl _)⟩
      show ((cxt.off ++ cxt.pres).map Pres.id).Perm (List.range cxt.nr)
      exact (List.perm_append_comm.map Pres.id).trans hc.once

theorem exists_last_added {ps : List (Pres V C)} {pres : V} (h : pres ∈ ps.map Pres.pres) :
    ∃ later p earlier, ps = later ++ p :: earlier ∧ pres ∉ later.map Pres.pres ∧ p.pres = pres := by
  obtain ⟨vs, ws, hsplit, hnot⟩ := List.eq_append_cons_of_mem h
  obtain ⟨later, rest, rfl, rfl, hrest⟩ := List.map_eq_append_iff.1 hsplit
  obtain ⟨p, earlier, rfl, hp, -⟩ := List.map_eq_cons_iff.1 hrest
  exact ⟨later, p, earlier, rfl, hnot, hp⟩

theorem rmPres_documented {cxt cxt' : Resources V C} {pres : V}
    (h : cxt.step (.rmPres pres) = some cxt') :
    Documented cxt (.rmPres pres) cxt' ↔ NamesFirst cxt (.rmPres pres) := by
  rw [step, ylmtRmPres] at h
  split at h
  · cases h
  next q ps hps =>
    cases h
    constructor
    · rintro ⟨-, habsent, hpresent⟩
      by_cases hmem : pres ∈ cxt.pres.map Pres.pres
      · obtain ⟨later, p, earlier, hsplit, hnot, hp⟩ := exists_last_added hmem
        obtain ⟨-, hoff⟩ := hpresent later p earlier hsplit hnot hp
        have hqp : q = p := by simpa using hoff
        rw [NamesFirst, hps, hqp, ← hp]
        rfl
      · obtain ⟨h1, -⟩ := habsent hmem
        rw [hps] at h1
        simp at h1
    · intro hfirst
      rw [NamesFirst, hps] at hfirst
      have hq : q.pres = pres := by simpa using hfirst
      refine ⟨rfl, fun hnot => ?_, fun later p earlier hsplit hnot hp => ?_⟩
      · rw [hps] at hnot
        simp [hq] at hnot
      · cases later with
        | nil =>
            rw [hps] at hsplit
            cases hsplit
            exact ⟨rfl, rfl⟩
        | cons a later =>
            rw [hps] at hsplit
            cases hsplit
            simp [hq] at hnot

theorem step_law_iff {cxt : Resources V C} (hc : cxt.Accounted) (call : PresCall V C) :
    (∃ cxt', cxt.step call = some cxt' ∧ Law cxt call cxt') ↔ NamesFirst cxt call := by
  cases call with
  | addPres pres ccb =>
      have h : cxt.step (.addPres pres ccb) = some (cxt.ylmtAddPres pres ccb) := rfl
      simp only [NamesFirst, iff_true]
      exact ⟨_, h, ⟨rfl, rfl, rfl⟩, accounted_step hc h⟩
  | rmPres pres =>
      constructor
      · rintro ⟨cxt', h, hlaw, -⟩
        exact (rmPres_documented h).1 hlaw
      · intro hfirst
        cases hps : cxt.pres with
        | nil =>
            rw [NamesFirst, hps] at hfirst
            cases hfirst
        | cons p ps =>
            have h : cxt.step (.rmPres pres) =
                some { cxt with pres := ps, off := cxt.off ++ [p] } := by
              rw [step, ylmtRmPres, hps]
            exact ⟨_, h, (rmPres_documented h).2 hfirst, accounted_step hc h⟩
  | closeAllPres =>
      have h : cxt.step .closeAllPres = some cxt.ylmtCloseAllPres := rfl
      simp only [NamesFirst, iff_true]
      refine ⟨_, h, ?_, accounted_step hc h⟩
      rw [ylmtCloseAllPres, closeAll_eq]
      exact ⟨rfl, rfl, rfl⟩

/-- The calls obey the law exactly when every `ylmt_rm_pres` names the value of the
entry that is first on the list. -/
theorem pres_law_iff (calls : List (PresCall V C)) :
    Exec.Obeys step Law (empty : Resources V C) calls ↔ Exec.Meets step NamesFirst empty calls :=
  Exec.obeys_iff_meets (I := Accounted) (fun _ _ _ => accounted_step)
    (fun _ call hc => step_law_iff hc call) accounted_empty

/-- `sh` registers the child and its output file, a kill closes both, and then `sh`
unregisters the file. -/
theorem not_law_sh_killed :
    ¬ Exec.Obeys step Law (empty : Resources ℕ ℕ)
      [.addPres 4242 0, .addPres 3 1, .closeAllPres, .rmPres 3] := by
  rintro ⟨cxt₁, h1, -, cxt₂, h2, -, cxt₃, h3, -, cxt₄, h4, -⟩
  cases h1
  cases h2
  cases h3
  cases h4

end Resources

end Mthread

end Ylisp
