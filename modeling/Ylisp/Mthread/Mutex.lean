import Ylisp.Mthread.Basic

/-!
# The owner of the mutex

A thread terminates while it owns `_m` when it acts on a cancellation inside of a
critical section: in `pthread_cond_wait` of the `thd_safe` listener, which locks `_m`
again first, or at another cancellation point under the lock. This does not happen
as long as no thread is cancelled while it waits there, and no thread with a
cancellation pending comes to such a point (`unowned_of_notLocked`).
-/

namespace Ylisp

namespace Mthread

variable {κ : Type}

/-- Nobody owns `_m`, so no thread has terminated while it did. -/
def Unowned (s : State κ) : Prop := s.owner = none

def Waiters (s : State κ) : Prop :=
  ∀ t th k, s.thd t = some th → th.pc = .wait k → s.cancel t = false

theorem Waiters.setThd {s : State κ} (hs : Waiters s) {t : ℕ} {th : Thd κ}
    (hpc : ∀ k, th.pc ≠ .wait k) : Waiters (s.setThd t th) := by
  intro v thv k hv hwait
  have hv' : Function.update s.thd t (some th) v = some thv := hv
  rw [Function.update_apply] at hv'
  split at hv'
  · cases hv'
    exact absurd hwait (hpc k)
  · exact hs v thv k hv' hwait

variable [DecidableEq κ] {s s' : State κ}

def NotWaiting (s : State κ) (c : κ) : Prop :=
  (s.cxt c).safe → ∀ u ∈ (s.cxt c).thdstk.head?, ∀ thu k, s.thd u = some thu → thu.pc ≠ .wait k

/-- A kill does not cancel a thread that waits for a collection, and no thread with a
cancellation pending comes to a cancellation point under `_m`. -/
def NotLocked (s : State κ) : Event κ → Prop
  | .kill t c cp => ∀ th, s.thd t = some th → s.Kills th c →
      NotWaiting s c ∧ ¬(s.cancel t ∧ cp)
  | .notifySafe t _ full cp => ∀ th, s.thd t = some th →
      ¬(s.cancel t ∧ s.cancelPoint th.cxt full cp)
  | _ => True

theorem Waiters.move {t : ℕ} {th : Thd κ} {pc : Pc} {b : Bool} (hs : Waiters s)
    (h : Moves s s' t th pc b) (hpc : ∀ k, pc = .wait k → s.cancel t = false) :
    Waiters s' := by
  intro v thv k hv hwait
  rw [h.cancel]
  rw [h.thd, Function.update_apply] at hv
  split at hv
  · cases hv
    rename_i hvt
    rw [hvt]
    exact hpc k hwait
  · exact hs v thv k hv hwait

theorem Waiters.spawn (hs : Waiters s) (c : κ) (parent : Option ℕ) :
    Waiters (s.spawn c parent) := by
  intro v thv k hv hwait
  have hv' : Function.update s.thd s.next (some ⟨c, .eval, parent⟩) v = some thv := hv
  change Function.update s.cancel s.next false v = false
  rw [Function.update_apply] at hv' ⊢
  split at hv'
  · cases hv'
    cases hwait
  · rw [if_neg (by assumption)]
    exact hs v thv k hv' hwait

theorem Waiters.joined (hs : Waiters s) (c : κ) (u : ℕ) : Waiters (s.joined c u) := by
  intro v thv k hv hwait
  have hv' : Function.update s.thd u none v = some thv := hv
  rw [Function.update_apply] at hv'
  split at hv'
  · cases hv'
  · exact hs v thv k hv' hwait

theorem Waiters.sendKill (hs : Waiters s) {c : κ} (hc : NotWaiting s c) :
    Waiters (s.sendKill c) := by
  unfold State.sendKill
  split
  · rename_i hsafe
    cases hstk : (s.cxt c).thdstk with
    | nil => exact hs
    | cons u us =>
        intro v thv k hv hwait
        change Function.update s.cancel u true v = false
        have hvu : v ≠ u := by
          rintro rfl
          exact hc hsafe v (by rw [hstk]; rfl) thv k hv hwait
        rw [Function.update_of_ne hvu]
        exact hs v thv k hv hwait
  · exact hs

theorem sendKill_owner (s : State κ) (c : κ) : (s.sendKill c).owner = s.owner := by
  unfold State.sendKill
  split
  · split <;> rfl
  · rfl

theorem handleSignal_owner (s : State κ) (t : ℕ) (th : Thd κ) (k : Region) :
    (s.handleSignal t th k).owner = s.owner := by
  unfold State.handleSignal
  split <;> rfl

theorem allSafe_owner (s : State κ) : s.allSafe.owner = s.owner := by
  unfold State.allSafe
  split <;> rfl

theorem Waiters.allSafe (hs : Waiters s) : Waiters s.allSafe := by
  unfold State.allSafe
  split <;> exact hs

theorem unowned_step (s : State κ) (e : Event κ) (s' : State κ)
    (h : Unowned s ∧ Waiters s) (hlock : NotLocked s e) (hstep : Step s e s') :
    Unowned s' ∧ Waiters s' := by
  obtain ⟨hs, hw⟩ := h
  cases hstep with
  | add hm hc => exact ⟨hs, hw⟩
  | start hc => exact ⟨hs, Waiters.spawn hw _ _⟩
  | nest ht hpc => exact ⟨hs, (hw.setThd (by simp)).spawn _ _⟩
  | @notifySafe t th k full cp hm ht hpc =>
      rcases ylmtNotifySafe_moves s t th k full cp with ⟨hc, hcp, -⟩ | ⟨-, ho, ⟨hc, h⟩ | h⟩
      · exact absurd ⟨hc, hcp⟩ (hlock th ht)
      · exact ⟨ho.trans hs, hw.move h fun _ _ => hc⟩
      · refine ⟨ho.trans hs, hw.move h fun k' hk => ?_⟩
        unfold afterSignal at hk
        split at hk <;> cases hk
  | @wake t th k hm ht hpc =>
      refine ⟨(handleSignal_owner s t th k).trans hs, hw.move (handleSignal_moves s t th k) ?_⟩
      intro k' hk
      unfold afterSignal at hk
      split at hk <;> cases hk
  | @notifyUnsafe t th k hm ht hpc =>
      refine ⟨hs, hw.move (ylmtNotifyUnsafe_moves s t th k) fun k' hk => ?_⟩
      cases k <;> cases hk
  | evalReturn ht hpc => exact ⟨hs, hw.move (evalReturn_moves _ _ _) nofun⟩
  | finish ht hpc => exact ⟨hs, hw.move (exit_moves _ _ _) nofun⟩
  | undefined ht hpc => exact ⟨hs, hw.move (exit_moves _ _ _) nofun⟩
  | cancelled ht hc hpc => exact ⟨hs, hw.move (exit_moves _ _ _) nofun⟩
  | cancelledWait hm ht hc hpc =>
      rw [hw _ _ _ ht hpc] at hc
      cases hc
  | join ht hpc hu hdead => exact ⟨hs, (hw.setThd (by simp)).joined _ _⟩
  | @joinBase c u thu hc hu hdead => exact ⟨hs, Waiters.joined hw c u⟩
  | @kill t th c cp hm ht hpc hpeek =>
      unfold State.ylmtKill
      split
      · rename_i hkill
        obtain ⟨hnot, hcp⟩ := hlock th ht hkill
        rw [if_neg (by simpa using hcp)]
        exact ⟨(sendKill_owner s c).trans hs, hw.sendKill hnot⟩
      · exact ⟨hs, hw⟩
  | rm hm hc => exact ⟨(allSafe_owner _).trans hs, Waiters.allSafe hw⟩

/-- In every run, no thread terminates while it owns `_m`, provided that no kill
cancels a thread that waits for a collection and no thread with a cancellation
pending comes to a cancellation point under `_m`. -/
theorem unowned_of_notLocked (tr : List (Event κ × State κ)) (hrun : Exec.Run Step init tr)
    (hlock : Exec.AllSteps NotLocked init tr) : Exec.AllStates Unowned init tr :=
  (hrun.allStates unowned_step hlock ⟨rfl, fun _ _ _ h => by cases h⟩).mono fun _ h => h.1

/-- A kill while the target reads a file, and the pool is full at the end of it. -/
theorem unowned_of_notLocked_reading :
    let s₁ := ((init : State ℕ).ylmtAdd 0).ylmtAdd 1
    let s₂ := (s₁.setBase 0 (.join 0)).spawn 0 none
    let s₃ := (s₂.setBase 1 (.join 1)).spawn 1 none
    let s₄ := s₃.ylmtNotifySafe 0 ⟨0, .eval, none⟩ .native false false
    let s₅ := s₄.ylmtKill 1 ⟨1, .eval, none⟩ 0 true
    let s₆ := s₅.exit 0 ⟨0, .safe .native, none⟩
    let s₇ := s₆.ylmtNotifySafe 1 ⟨1, .eval, none⟩ .yleval true true
    Exec.AllStates Unowned init
      [(Event.add 0, init.ylmtAdd 0), (.add 1, s₁), (.start 0, s₂), (.start 1, s₃),
        (.notifySafe 0 .native false false, s₄), (.kill 1 0 true, s₅), (.cancelled 0, s₆),
        (.notifySafe 1 .yleval true true, s₇)] := by
  intro s₁ s₂ s₃ s₄ s₅ s₆ s₇
  have h₅ : Step s₄ (.kill 1 0 true) s₅ :=
    .kill rfl (show s₄.thd 1 = some ⟨1, .eval, none⟩ from rfl) rfl (fun _ _ => nofun)
  have h₆ : Step s₅ (.cancelled 0) s₆ :=
    .cancelled (show s₅.thd 0 = some ⟨0, .safe .native, none⟩ from rfl) rfl (.inr (.inl rfl))
  have h₇ : Step s₆ (.notifySafe 1 .yleval true true) s₇ := .notifySafe rfl rfl rfl
  refine unowned_of_notLocked _ (.cons (.add rfl rfl) <| .cons (.add rfl rfl) <|
    .cons (.start rfl) <| .cons (.start rfl) <| .cons (.notifySafe rfl rfl rfl) <| .cons h₅ <|
    .cons h₆ <| .cons h₇ <| .nil _) ?_
  refine ⟨trivial, trivial, trivial, trivial, ?_, ?_, trivial, ?_, trivial⟩
  · rintro th - ⟨hc, -⟩
    cases hc
  · intro th hth hkill
    refine ⟨fun _ u hu thu k hthu hwait => ?_, fun hc => by cases hc.1⟩
    cases hu
    cases hthu
    cases hwait
  · rintro th - ⟨hc, -⟩
    cases hc

/-- The pool is full and the target waits for a collection when the kill arrives. -/
theorem not_unowned :
    ¬∀ tr : List (Event ℕ × State ℕ), Exec.Run Step init tr →
      Exec.AllStates Unowned init tr := by
  intro h
  let s₁ := ((init : State ℕ).ylmtAdd 0).ylmtAdd 1
  let s₂ := (s₁.setBase 0 (.join 0)).spawn 0 none
  let s₃ := (s₂.setBase 1 (.join 1)).spawn 1 none
  let s₄ := s₃.ylmtNotifySafe 0 ⟨0, .eval, none⟩ .yleval true false
  let s₅ := s₄.ylmtKill 1 ⟨1, .eval, none⟩ 0 false
  let s₆ := s₅.exitLocked 0 ⟨0, .wait .yleval, none⟩
  have h₄ : Step s₃ (.notifySafe 0 .yleval true false) s₄ := .notifySafe rfl rfl rfl
  have h₅ : Step s₄ (.kill 1 0 false) s₅ :=
    .kill rfl (show s₄.thd 1 = some ⟨1, .eval, none⟩ from rfl) rfl (fun _ _ => nofun)
  have h₆ : Step s₅ (.cancelled 0) s₆ :=
    .cancelledWait rfl (show s₅.thd 0 = some ⟨0, .wait .yleval, none⟩ from rfl) rfl rfl
  have hall := h _ (.cons (.add rfl rfl) <| .cons (.add rfl rfl) <| .cons (.start rfl) <|
    .cons (.start rfl) <| .cons h₄ <| .cons h₅ <| .cons h₆ <| .nil _)
  have hlast := hall.2 (.cancelled 0, s₆) (by simp)
  cases hlast

end Mthread

end Ylisp
