import Mathlib.Data.List.Basic
import Mathlib.Logic.Relation

/-!
# Calls on a stack

A transition system with a stack of frames. A state `Returns` to another one when a step
starts a call, all the steps after it are taken on top of the frames that were there at the
call, and these frames are back at the end.
-/

namespace Calls

variable {σ ε φ : Type*}

def Above (stack : σ → List φ) (fs : List φ) (s : σ) : Prop :=
  ∃ f gs, stack s = f :: gs ∧ fs <:+ gs

def Inner (step : σ → ε → σ → Prop) (stack : σ → List φ) (fs : List φ) (s t : σ) : Prop :=
  Above stack fs s ∧ ∃ e, step s e t

def Returns (step : σ → ε → σ → Prop) (stack : σ → List φ) (s t : σ) : Prop :=
  stack t = stack s ∧
    ∃ s' e, step s e s' ∧ Relation.ReflTransGen (Inner step stack (stack s)) s' t

variable {step : σ → ε → σ → Prop} {stack : σ → List φ} {s s' t u : σ} {e : ε} {f : φ}
  {fs gs : List φ}

theorem Above.not_suffix (h : Above stack fs s) : ¬ stack s <:+ fs := by
  obtain ⟨f, gs, hs, hfs⟩ := h
  intro hle
  rw [hs] at hle
  have h₁ := hle.length_le
  have h₂ := hfs.length_le
  rw [List.length_cons] at h₁
  omega

theorem above_cons (h : stack s = f :: fs) : Above stack fs s := ⟨f, fs, h, List.suffix_rfl⟩

theorem Above.mono (h : Above stack gs s) (hfs : fs <:+ gs) : Above stack fs s := by
  obtain ⟨f, hs, heq, hgs⟩ := h
  exact ⟨f, hs, heq, hfs.trans hgs⟩

theorem Inner.mono (h : Inner step stack gs s t) (hfs : fs <:+ gs) : Inner step stack fs s t :=
  ⟨h.1.mono hfs, h.2⟩

/-- A call that is made as the last thing of a call, with a frame of it left. -/
theorem Returns.tail_call (h : step s e s') (hs' : stack s' = f :: stack s)
    (hcall : Returns step stack s' t)
    (hend : Relation.ReflTransGen (Inner step stack (stack s)) t u) (hu : stack u = stack s) :
    Returns step stack s u := by
  obtain ⟨-, s₁, e₁, hstep, hinner⟩ := hcall
  refine ⟨hu, s', e, h, .head ⟨above_cons hs', e₁, hstep⟩ (.trans ?_ hend)⟩
  have hfs : stack s <:+ stack s' := by
    rw [hs']
    exact List.suffix_cons f _
  exact Relation.ReflTransGen.mono (fun _ _ hxy => Inner.mono hxy hfs) _ _ hinner

end Calls
