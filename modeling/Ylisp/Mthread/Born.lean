import Ylisp.Mthread.Basic

/-!
# Contexts before their interpretation

Until its base thread has started the interpretation, a context has no thread and its
safe bit is cleared. This holds in every run.
-/

namespace Ylisp

namespace Mthread

def Base.Unborn (b : Base) : Prop := b = .fresh ∨ b = .added

theorem not_unborn_join (u : ℕ) : ¬Base.Unborn (.join u) := by
  rintro (h | h) <;> cases h

theorem not_unborn_returned : ¬Base.Unborn .returned := by
  rintro (h | h) <;> cases h

theorem not_unborn_removed : ¬Base.Unborn .removed := by
  rintro (h | h) <;> cases h

structure Born {κ : Type} (s : State κ) : Prop where
  unborn : ∀ t th, s.thd t = some th → ¬(s.cxt th.cxt).base.Unborn
  quiet : ∀ c, (s.cxt c).base.Unborn → (s.cxt c).safe = false

variable {κ : Type}

theorem born_init : Born (init : State κ) where
  unborn _ _ h := by cases h
  quiet _ _ := rfl

/-- Threads stay on their contexts, and only a context with a thread changes its safe
bit. -/
theorem Born.mono {s s' : State κ} (hs : Born s)
    (hthd : ∀ t th', s'.thd t = some th' →
      (∃ u th, s.thd u = some th ∧ th.cxt = th'.cxt) ∨ ¬(s'.cxt th'.cxt).base.Unborn)
    (hsafe : ∀ c, (s'.cxt c).safe = (s.cxt c).safe ∨ ∃ t th, s.thd t = some th ∧ th.cxt = c)
    (hbase : ∀ c, (s'.cxt c).base.Unborn → (s.cxt c).base.Unborn) : Born s' where
  unborn t th' ht h := by
    rcases hthd t th' ht with ⟨u, th, hu, hcxt⟩ | hnot
    · have hborn := hs.unborn u th hu
      rw [hcxt] at hborn
      exact hborn (hbase _ h)
    · exact hnot h
  quiet c h := by
    rcases hsafe c with hc | ⟨t, th, ht, rfl⟩
    · rw [hc]
      exact hs.quiet c (hbase c h)
    · exact absurd (hbase _ h) (hs.unborn t th ht)

variable [DecidableEq κ] {s s' : State κ}

theorem Born.move {t : ℕ} {th : Thd κ} {pc : Pc} {b : Bool} (hs : Born s)
    (h : Moves s s' t th pc b) (ht : s.thd t = some th) : Born s' := by
  refine hs.mono (fun v thv hv => ?_) (fun c => ?_) fun c hc => ?_
  · left
    by_cases hvt : v = t
    · subst hvt
      rw [h.thd_self hv]
      exact ⟨v, th, ht, rfl⟩
    · rw [h.thd_of_ne hvt] at hv
      exact ⟨v, thv, hv, rfl⟩
  · by_cases hc : c = th.cxt
    · exact .inr ⟨t, th, ht, hc.symm⟩
    · exact .inl (by rw [h.cxt_of_ne hc])
  · rwa [h.base] at hc

/-- A thread more, on a context whose base thread has started or is starting it. -/
theorem Born.spawn (hs : Born s) {c : κ} {parent : Option ℕ} (hc : ¬(s.cxt c).base.Unborn) :
    Born (s.spawn c parent) := by
  refine hs.mono (fun v thv hv => ?_) (fun c' => .inl (spawn_safe s c parent c')) fun c' h => ?_
  · by_cases hvn : v = s.next
    · subst hvn
      have hself : (s.spawn c parent).thd s.next = some ⟨c, .eval, parent⟩ :=
        Function.update_self _ _ _
      rw [hself] at hv
      cases hv
      right
      rwa [spawn_base]
    · have hold : (s.spawn c parent).thd v = s.thd v := Function.update_of_ne hvn _ _
      rw [hold] at hv
      exact .inl ⟨v, thv, hv, rfl⟩
  · rwa [spawn_base] at h

theorem Born.joined (hs : Born s) (c : κ) (u : ℕ) : Born (s.joined c u) := by
  refine hs.mono (fun v thv hv => ?_) (fun c' => .inl (joined_safe s c u c')) fun c' h => ?_
  · have hv' : Function.update s.thd u none v = some thv := hv
    rw [Function.update_apply] at hv'
    split at hv'
    · cases hv'
    · exact .inl ⟨v, thv, hv', rfl⟩
  · rwa [joined_base] at h

theorem Born.setBase (hs : Born s) {c : κ} {b : Base} {l : List κ}
    (hb : b.Unborn → (s.cxt c).base.Unborn) : Born { s.setBase c b with cxtl := l } := by
  refine hs.mono (fun v thv hv => .inl ⟨v, thv, hv, rfl⟩)
    (fun c' => .inl (setBase_safe s c b c')) fun c' h => ?_
  by_cases hc : c' = c
  · subst hc
    exact hb (by rwa [← setBase_base_self s c' b])
  · rwa [← setBase_base_of_ne s b hc]

theorem Born.allSafe (hs : Born s) : Born s.allSafe := by
  unfold State.allSafe
  split
  · exact ⟨hs.unborn, hs.quiet⟩
  · exact hs

theorem Born.kill (hs : Born s) {t : ℕ} {th : Thd κ} (c : κ) (cp : Bool)
    (ht : s.thd t = some th) : Born (s.ylmtKill t th c cp) := by
  have hsend : Born (s.sendKill c) := by
    refine hs.mono (fun v thv hv => ?_) (fun c' => .inl (sendKill_safe s c c')) fun c' h => ?_
    · rw [sendKill_thd] at hv
      exact .inl ⟨v, thv, hv, rfl⟩
    · rwa [sendKill_base] at h
  unfold State.ylmtKill
  split
  · split
    · exact hsend.move (exitLocked_moves _ t th) (by rwa [sendKill_thd])
    · exact ⟨hsend.unborn, hsend.quiet⟩
  · exact hs

theorem born_step (s : State κ) (e : Event κ) (s' : State κ) (hs : Born s)
    (hstep : Step s e s') : Born s' := by
  cases hstep with
  | add hm hc => exact hs.setBase fun _ => .inl hc
  | @start c hc =>
      have h : Born (s.setBase c (.join s.next)) :=
        hs.setBase (l := s.cxtl) fun h => absurd h (not_unborn_join _)
      exact h.spawn (by rw [setBase_base_self]; exact not_unborn_join _)
  | @nest t th ht hpc =>
      have h : Moves s (s.setThd t { th with pc := .join s.next }) t th (.join s.next)
          (s.cxt th.cxt).safe :=
        ⟨rfl, (Function.update_eq_self th.cxt s.cxt).symm, rfl, rfl, rfl, rfl⟩
      exact (hs.move h ht).spawn (hs.unborn t th ht)
  | @notifySafe t th k full cp hm ht hpc =>
      rcases ylmtNotifySafe_moves s t th k full cp with ⟨-, -, h⟩ | ⟨-, -, ⟨-, h⟩ | h⟩
      all_goals exact hs.move h ht
  | wake hm ht hpc => exact hs.move (handleSignal_moves _ _ _ _) ht
  | notifyUnsafe hm ht hpc => exact hs.move (ylmtNotifyUnsafe_moves _ _ _ _) ht
  | evalReturn ht hpc => exact hs.move (evalReturn_moves _ _ _) ht
  | finish ht hpc => exact hs.move (exit_moves _ _ _) ht
  | undefined ht hpc => exact hs.move (exit_moves _ _ _) ht
  | cancelled ht hc hpc => exact hs.move (exit_moves _ _ _) ht
  | cancelledWait hm ht hc hpc => exact hs.move (exitLocked_moves _ _ _) ht
  | @join t u th thu ht hpc hu hdead =>
      have h : Moves s (s.setThd t { th with pc := .eval }) t th .eval (s.cxt th.cxt).safe :=
        ⟨rfl, (Function.update_eq_self th.cxt s.cxt).symm, rfl, rfl, rfl, rfl⟩
      exact (hs.move h ht).joined _ _
  | @joinBase c u thu hc hu hdead =>
      have h : Born (s.setBase c .returned) :=
        hs.setBase (l := s.cxtl) fun h => absurd h not_unborn_returned
      exact h.joined _ _
  | kill hm ht hpc hpeek => exact hs.kill _ _ ht
  | rm hm hc =>
      exact (hs.setBase fun h => absurd h not_unborn_removed).allSafe

end Mthread

end Ylisp
