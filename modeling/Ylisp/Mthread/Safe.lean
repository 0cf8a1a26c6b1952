import Ylisp.Mthread.OneThread

/-!
# The safe state of a context

A thread that evaluates does so with the safe bit of its context cleared, so no
`all_safe` listener runs while a registered context evaluates
(`guarded_of_diesOutside`).
-/

namespace Ylisp

namespace Mthread

variable {κ : Type}

/-- No thread of a context evaluates while the safe bit is set, and no `all_safe`
listener ran while a thread of a registered context was evaluating. -/
def Guarded (s : State κ) : Prop :=
  (∀ t th, s.thd t = some th → th.pc.Evaluates → (s.cxt th.cxt).safe = false) ∧
    s.raced = false

theorem OneThread.toGuarded {s : State κ} (h : OneThread s) : Guarded s :=
  ⟨fun t th ht heval => h.guarded t th ⟨ht, .inl heval⟩, h.raced⟩

variable [DecidableEq κ]

/-- A step in which a thread fails or is cancelled is taken in evaluation code,
or no other thread waits for this one. -/
def DiesOutside (s : State κ) : Event κ → Prop
  | .undefined t | .cancelled t =>
      ∀ th, s.thd t = some th → th.pc = .eval ∨ ¬Thds.Waited s.thd t
  | .notifySafe t _ full cp =>
      ∀ th, s.thd t = some th → s.cancel t → s.cancelPoint th.cxt full cp →
        ¬Thds.Waited s.thd t
  | _ => True

theorem oneThread_step (s : State κ) (e : Event κ) (s' : State κ)
    (h : Born s ∧ OneThread s) (hdies : DiesOutside s e) (hstep : Step s e s') :
    Born s' ∧ OneThread s' := by
  refine ⟨born_step s e s' h.1 hstep, ?_⟩
  obtain ⟨hborn, hs⟩ := h
  cases hstep with
  | add hm hc => exact hs.setBase nofun
  | start hc => exact hs.start hborn hc
  | nest ht hpc => exact hs.nest ht hpc
  | notifySafe hm ht hpc => exact hs.notifySafe ht hpc (hdies _ ht)
  | wake hm ht hpc =>
      refine hs.afterSignal (handleSignal_moves _ _ _ _)
        (busy_of_pc ht (by simp [hpc]) (by simp [hpc])) (fun h => by simp [h]) ?_
      rw [handleSignal_raced]
      exact hs.raced
  | @notifyUnsafe _ _ k hm ht hpc =>
      refine hs.moveBusy (ylmtNotifyUnsafe_moves _ _ _ _)
        (busy_of_pc ht (by simp [hpc]) (by simp [hpc])) ?_ (fun _ => rfl) hs.raced
      cases k <;> nofun
  | evalReturn ht hpc =>
      refine hs.moveBusy (evalReturn_moves _ _ _) (busy_of_pc ht (by simp [hpc]) (by simp [hpc]))
        nofun (fun _ => ?_) hs.raced
      exact hs.guarded _ _ ⟨ht, .inl (by rw [hpc]; trivial)⟩
  | finish ht hpc => exact hs.exit (exit_moves _ _ _) ht rfl (.inl hpc) hs.raced
  | undefined ht hpc => exact hs.exit (exit_moves _ _ _) ht rfl (hdies _ ht) hs.raced
  | cancelled ht hc hpc => exact hs.exit (exit_moves _ _ _) ht rfl (hdies _ ht) hs.raced
  | cancelledWait hm ht hc hpc =>
      exact hs.exit (exitLocked_moves _ _ _) ht rfl (hdies _ ht) hs.raced
  | join ht hpc hu hdead => exact hs.join ht hpc hu hdead
  | joinBase hc hu hdead => exact hs.joinBase hc hu
  | kill hm ht hpc hpeek => exact hs.kill _ _ ht hpc
  | rm hm hc =>
      refine (OneThread.setBase hs ?_).allSafe
      nofun

/-- In every run, no context evaluates with its safe bit set and no `all_safe` listener
runs while a registered context evaluates, provided that no thread dies in a region
while another one waits for it. -/
theorem guarded_of_diesOutside (tr : List (Event κ × State κ)) (hrun : Exec.Run Step init tr)
    (hdies : Exec.AllSteps DiesOutside init tr) : Exec.AllStates Guarded init tr :=
  (hrun.allStates oneThread_step hdies ⟨born_init, oneThread_init⟩).mono
    fun _ h => h.2.toGuarded

/-- A nested interpretation reads a file, and fails afterwards. -/
theorem guarded_of_diesOutside_nested :
    let s₁ := (init : State ℕ).ylmtAdd 0
    let s₂ := (s₁.setBase 0 (.join 0)).spawn 0 none
    let s₃ := (s₂.setThd 0 ⟨0, .join 1, none⟩).spawn 0 (some 0)
    let s₄ := s₃.ylmtNotifySafe 1 ⟨0, .eval, some 0⟩ .native true false
    let s₅ := s₄.ylmtNotifyUnsafe 1 ⟨0, .safe .native, some 0⟩ .native
    let s₆ := s₅.exit 1 ⟨0, .eval, some 0⟩
    let s₇ := (s₆.setThd 0 ⟨0, .eval, none⟩).joined 0 1
    Exec.AllStates Guarded init
      [(Event.add 0, s₁), (.start 0, s₂), (.nest 0, s₃), (.notifySafe 1 .native true false, s₄),
        (.notifyUnsafe 1, s₅), (.undefined 1, s₆), (.join 0, s₇)] := by
  intro s₁ s₂ s₃ s₄ s₅ s₆ s₇
  have h₃ : Step s₂ (.nest 0) s₃ := .nest (show s₂.thd 0 = some ⟨0, .eval, none⟩ from rfl) rfl
  have h₄ : Step s₃ (.notifySafe 1 .native true false) s₄ := .notifySafe rfl rfl rfl
  have h₅ : Step s₄ (.notifyUnsafe 1) s₅ := .notifyUnsafe rfl rfl rfl
  have h₆ : Step s₅ (.undefined 1) s₆ :=
    .undefined (show s₅.thd 1 = some ⟨0, .eval, some 0⟩ from rfl) (.inl rfl)
  have h₇ : Step s₆ (.join 0) s₇ :=
    .join (show s₆.thd 0 = some ⟨0, .join 1, none⟩ from rfl) rfl
      (show s₆.thd 1 = some ⟨0, .dead, some 0⟩ from rfl) rfl
  refine guarded_of_diesOutside _ (.cons (.add rfl rfl) <| .cons (.start rfl) <| .cons h₃ <|
    .cons h₄ <| .cons h₅ <| .cons h₆ <| .cons h₇ <| .nil _) ?_
  refine ⟨trivial, trivial, trivial, ?_, trivial, ?_, trivial, trivial⟩
  · intro th _ hc
    cases hc
  · intro th hth
    cases hth
    exact .inl rfl

/-- The read of a nested interpretation fails in the region. The outer evaluation goes
on with the safe bit set, and the end of another context runs the listeners. -/
theorem not_guarded :
    ¬∀ tr : List (Event ℕ × State ℕ), Exec.Run Step init tr →
      Exec.AllStates Guarded init tr := by
  intro h
  let s₁ := (init : State ℕ).ylmtAdd 0
  let s₂ := (s₁.setBase 0 (.join 0)).spawn 0 none
  let s₃ := (s₂.setThd 0 ⟨0, .join 1, none⟩).spawn 0 (some 0)
  let s₄ := s₃.ylmtNotifySafe 1 ⟨0, .eval, some 0⟩ .native false false
  let s₅ := s₄.exit 1 ⟨0, .safe .native, some 0⟩
  let s₆ := (s₅.setThd 0 ⟨0, .eval, none⟩).joined 0 1
  let s₇ := s₆.ylmtAdd 1
  let s₈ := s₇.ylmtRm 1
  have h₃ : Step s₂ (.nest 0) s₃ := .nest (show s₂.thd 0 = some ⟨0, .eval, none⟩ from rfl) rfl
  have h₄ : Step s₃ (.notifySafe 1 .native false false) s₄ := .notifySafe rfl rfl rfl
  have h₅ : Step s₄ (.undefined 1) s₅ :=
    .undefined (show s₄.thd 1 = some ⟨0, .safe .native, some 0⟩ from rfl) (.inr rfl)
  have h₆ : Step s₅ (.join 0) s₆ :=
    .join (show s₅.thd 0 = some ⟨0, .join 1, none⟩ from rfl) rfl
      (show s₅.thd 1 = some ⟨0, .dead, some 0⟩ from rfl) rfl
  have h₇ : Step s₆ (.add 1) s₇ := .add rfl rfl
  have h₈ : Step s₇ (.rm 1) s₈ := .rm rfl (.inl rfl)
  have hall := h _ (.cons (.add rfl rfl) <| .cons (.start rfl) <| .cons h₃ <| .cons h₄ <|
    .cons h₅ <| .cons h₆ <| .cons h₇ <| .cons h₈ <| .nil _)
  have hraced : s₈.raced = true := by decide
  have hlast := hall.2 (.rm 1, s₈) (by simp [s₈, s₇])
  rw [hlast.2] at hraced
  cases hraced

end Mthread

end Ylisp
