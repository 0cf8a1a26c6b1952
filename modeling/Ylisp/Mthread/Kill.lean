import Ylisp.Mthread.Born

/-!
# What a kill stops

A kill sets a signal, which the target finds at its next `ylmt_notify_safe`, or it
cancels the innermost thread of a target in the safe state. After a signal no thread
may be past its last check, and after a cancellation no thread may leave its region
and no other thread of the context may go on. Then no `yleval` returns on the
context any more (`silent_of_inTime`).
-/

namespace Ylisp

namespace Mthread

variable {κ : Type}

/-- No `yleval` has returned on a context that `ylmt_kill` returned success for. -/
def Silent (s : State κ) : Prop := s.returned = false

/-- The signal is set, and no thread is between its check and the return of `yleval`. -/
structure Signalled (s : State κ) (c : κ) : Prop where
  kill : (s.cxt c).kill = true
  pc : ∀ t th, s.thd t = some th → th.cxt = c → th.pc ≠ .safe .yleval ∧ th.pc ≠ .leave

structure Doomed (s : State κ) (c : κ) : Prop where
  kill : (s.cxt c).kill = false
  safe : (s.cxt c).safe = true
  pc : ∀ t th, s.thd t = some th → th.cxt = c →
    th.pc = .dead ∨ s.cancel t = true ∧ ∃ k, th.pc = .wait k ∨ th.pc = .safe k

def Stopped (s : State κ) (c : κ) : Prop := Signalled s c ∨ Doomed s c

structure Kept (s : State κ) : Prop where
  stopped : ∀ c, s.killed c = true → Stopped s c
  signal : ∀ c, s.owner = none → (s.cxt c).kill = true → s.killed c = true
  silent : Silent s

theorem kept_init : Kept (init : State κ) where
  stopped _ h := by cases h
  signal _ _ h := by cases h
  silent := rfl

/-- A thread that is neither dead nor in a region is not doomed. -/
theorem Doomed.absurd_pc {s : State κ} {c : κ} (h : Doomed s c) {t : ℕ} {th : Thd κ}
    (ht : s.thd t = some th) (hc : th.cxt = c) (hdead : th.pc ≠ .dead)
    (hwait : ∀ k, th.pc ≠ .wait k) (hsafe : ∀ k, th.pc ≠ .safe k) : False := by
  rcases h.pc t th ht hc with h | ⟨-, k, h | h⟩
  · exact hdead h
  · exact hwait k h
  · exact hsafe k h

/-- The other threads and a cancellation more do not matter. -/
theorem Stopped.mono {s s' : State κ} {c : κ} (h : Stopped s c)
    (hkill : (s'.cxt c).kill = (s.cxt c).kill) (hsafe : (s'.cxt c).safe = (s.cxt c).safe)
    (hthd : ∀ t th, s'.thd t = some th → th.cxt = c →
      s.thd t = some th ∧ (s.cancel t = true → s'.cancel t = true) ∨
      (th.pc = .eval ∨ ∃ u, th.pc = .join u) ∧ ¬Doomed s c) : Stopped s' c := by
  rcases h with h | h
  · refine .inl ⟨hkill.trans h.kill, fun t th ht hc => ?_⟩
    rcases hthd t th ht hc with ⟨ht, -⟩ | ⟨hpc | ⟨u, hpc⟩, -⟩
    · exact h.pc t th ht hc
    · simp [hpc]
    · simp [hpc]
  · refine .inr ⟨hkill.trans h.kill, hsafe.trans h.safe, fun t th ht hc => ?_⟩
    rcases hthd t th ht hc with ⟨ht, hcancel⟩ | ⟨-, hnot⟩
    · exact (h.pc t th ht hc).imp id fun hk => ⟨hcancel hk.1, hk.2⟩
    · exact absurd h hnot

/-- Steps that change neither the signals nor the safe bits nor the kills. -/
theorem Kept.frame {s s' : State κ} (hs : Kept s) (hkilled : s'.killed = s.killed)
    (howner : s'.owner = s.owner) (hreturned : s'.returned = s.returned)
    (hkill : ∀ c, (s'.cxt c).kill = (s.cxt c).kill)
    (hsafe : ∀ c, (s'.cxt c).safe = (s.cxt c).safe)
    (hthd : ∀ t th, s'.thd t = some th →
      s.thd t = some th ∧ (s.cancel t = true → s'.cancel t = true) ∨
      (th.pc = .eval ∨ ∃ u, th.pc = .join u) ∧ ¬Doomed s th.cxt) : Kept s' where
  stopped c hc := by
    rw [hkilled] at hc
    refine (hs.stopped c hc).mono (hkill c) (hsafe c) fun t th ht he => ?_
    subst he
    exact hthd t th ht
  signal c ho hk := by
    rw [howner] at ho
    rw [hkill] at hk
    rw [hkilled]
    exact hs.signal c ho hk
  silent := hreturned.trans hs.silent

/-- A thread in evaluation code starts to wait, or goes on after it has waited. -/
theorem Kept.setPc {s : State κ} (hs : Kept s) {t : ℕ} {th : Thd κ} {pc : Pc}
    (hpc : pc = .eval ∨ ∃ u, pc = .join u) (hdoomed : ¬Doomed s th.cxt) :
    Kept (s.setThd t { th with pc := pc }) := by
  refine hs.frame rfl rfl rfl (fun _ => rfl) (fun _ => rfl) fun v thv hv => ?_
  have hv' : Function.update s.thd t (some { th with pc := pc }) v = some thv := hv
  rw [Function.update_apply] at hv'
  split at hv'
  · cases hv'
    exact .inr ⟨hpc, hdoomed⟩
  · exact .inl ⟨hv', id⟩

variable [DecidableEq κ] {s s' : State κ}

/-- A kill finds no thread past its check, or the only thread that is left in a region.
A thread with a cancellation pending does not leave its region. -/
def InTime (s : State κ) : Event κ → Prop
  | .kill t c _ => ∀ th, s.thd t = some th → s.Kills th c →
      s.killed c = true ∨
      (s.cxt c).safe = false ∧ (∀ u thu, s.thd u = some thu → thu.cxt = c →
        thu.pc ≠ .safe .yleval ∧ thu.pc ≠ .leave) ∨
      (s.cxt c).safe = true ∧ (∀ u thu, s.thd u = some thu → thu.cxt = c → thu.pc = .dead ∨
        (s.cxt c).thdstk.head? = some u ∧ ∃ k, thu.pc = .wait k ∨ thu.pc = .safe k)
  | .notifyUnsafe t => s.cancel t = false
  | _ => True

/-- A thread of a stopped context goes on in a region, or dies. -/
theorem Stopped.move {c : κ} {t : ℕ} {th : Thd κ} {pc : Pc} {b : Bool} (hs : Stopped s c)
    (h : Moves s s' t th pc b)
    (hsignal : th.cxt = c → Signalled s c → pc ≠ .safe .yleval ∧ pc ≠ .leave)
    (hdoomed : th.cxt = c → Doomed s c → b = true ∧
      (pc = .dead ∨ s.cancel t = true ∧ ∃ k, pc = .wait k ∨ pc = .safe k)) :
    Stopped s' c := by
  rcases hs with hs | hs
  · refine .inl ⟨(h.kill c).trans hs.kill, fun v thv hv hc => ?_⟩
    by_cases hvt : v = t
    · subst hvt
      have hself := h.thd_self hv
      subst hself
      exact hsignal hc hs
    · rw [h.thd_of_ne hvt] at hv
      exact hs.pc v thv hv hc
  · refine .inr ⟨(h.kill c).trans hs.kill, ?_, fun v thv hv hc => ?_⟩
    · by_cases hc : th.cxt = c
      · rw [← hc, h.safe]
        exact (hdoomed hc hs).1
      · rw [h.cxt_of_ne (Ne.symm hc)]
        exact hs.safe
    · rw [h.cancel]
      by_cases hvt : v = t
      · subst hvt
        have hself := h.thd_self hv
        subst hself
        exact (hdoomed hc hs).2
      · rw [h.thd_of_ne hvt] at hv
        exact hs.pc v thv hv hc

/-- A move of one thread keeps the invariant when it keeps the stopped contexts. -/
theorem Kept.move {t : ℕ} {th : Thd κ} {pc : Pc} {b : Bool} (hs : Kept s)
    (h : Moves s s' t th pc b) (howner : s'.owner = none → s.owner = none)
    (hsilent : Silent s')
    (hsignal : Signalled s th.cxt → pc ≠ .safe .yleval ∧ pc ≠ .leave)
    (hdoomed : Doomed s th.cxt → b = true ∧
      (pc = .dead ∨ s.cancel t = true ∧ ∃ k, pc = .wait k ∨ pc = .safe k)) : Kept s' where
  stopped c hc := by
    rw [h.killed] at hc
    exact (hs.stopped c hc).move h (fun he => by subst he; exact hsignal)
      (fun he => by subst he; exact hdoomed)
  signal c ho hk := by
    rw [h.killed]
    rw [h.kill] at hk
    exact hs.signal c (howner ho) hk
  silent := hsilent

theorem Kept.exit {t : ℕ} {th : Thd κ} (hs : Kept s)
    (h : Moves s s' t th .dead (s.cxt th.cxt).safe) (howner : s'.owner = none → s.owner = none)
    (hsilent : Silent s') : Kept s' :=
  hs.move h howner hsilent (fun _ => ⟨nofun, nofun⟩) fun hd => ⟨hd.safe, .inl rfl⟩

theorem Kept.spawn (hs : Kept s) {c : κ} (parent : Option ℕ) (hc : ¬Doomed s c) :
    Kept (s.spawn c parent) := by
  refine hs.frame rfl rfl rfl (setCxt_field Cxt.kill s c _ (by rfl)) (spawn_safe s c parent)
    fun v thv hv => ?_
  by_cases hvn : v = s.next
  · subst hvn
    have hself : (s.spawn c parent).thd s.next = some ⟨c, .eval, parent⟩ :=
      Function.update_self _ _ _
    rw [hself] at hv
    cases hv
    exact .inr ⟨.inl rfl, hc⟩
  · have hold : (s.spawn c parent).thd v = s.thd v := Function.update_of_ne hvn _ _
    have hcancel : (s.spawn c parent).cancel v = s.cancel v := Function.update_of_ne hvn _ _
    rw [hold] at hv
    exact .inl ⟨hv, fun h => hcancel.trans h⟩

theorem Kept.joined (hs : Kept s) (c : κ) (u : ℕ) : Kept (s.joined c u) := by
  refine hs.frame rfl rfl rfl (setCxt_field Cxt.kill s c _ (by rfl)) (joined_safe s c u)
    fun v thv hv => ?_
  have hv' : Function.update s.thd u none v = some thv := hv
  rw [Function.update_apply] at hv'
  split at hv'
  · cases hv'
  · exact .inl ⟨hv', id⟩

theorem Kept.setBase (hs : Kept s) (c : κ) (b : Base) (l : List κ) :
    Kept { s.setBase c b with cxtl := l } :=
  hs.frame rfl rfl rfl (setCxt_field Cxt.kill s c _ (by rfl)) (setBase_safe s c b)
    fun _ _ hv => .inl ⟨hv, id⟩

theorem Kept.allSafe (hs : Kept s) : Kept s.allSafe := by
  unfold State.allSafe
  split
  · exact hs.frame rfl rfl rfl (fun _ => rfl) (fun _ => rfl) fun _ _ hv => .inl ⟨hv, id⟩
  · exact hs

theorem Stopped.sendKill {c c' : κ} (hs : Stopped s c') (hc : c' ≠ c) :
    Stopped (s.sendKill c) c' := by
  refine hs.mono ?_ (sendKill_safe s c c') fun t th ht _ => ?_
  · unfold State.sendKill
    split
    · split <;> rfl
    · simp [State.setCxt, hc]
  · rw [sendKill_thd] at ht
    refine .inl ⟨ht, fun hcancel => ?_⟩
    unfold State.sendKill
    split
    · split
      · simp [State.pthreadCancel, Function.update_apply, hcancel]
      · exact hcancel
    · exact hcancel

theorem stopped_sendKill {c : κ} (hs : Kept s) (howner : s.owner = none)
    (hc : s.killed c = true ∨
      (s.cxt c).safe = false ∧ (∀ u thu, s.thd u = some thu → thu.cxt = c →
        thu.pc ≠ .safe .yleval ∧ thu.pc ≠ .leave) ∨
      (s.cxt c).safe = true ∧ (∀ u thu, s.thd u = some thu → thu.cxt = c → thu.pc = .dead ∨
        (s.cxt c).thdstk.head? = some u ∧ ∃ k, thu.pc = .wait k ∨ thu.pc = .safe k)) :
    Stopped (s.sendKill c) c := by
  have hthd := sendKill_thd s c
  have hsafe := sendKill_safe s c c
  by_cases hb : (s.cxt c).safe = true
  · have hkill : ((s.sendKill c).cxt c).kill = (s.cxt c).kill := by
      unfold State.sendKill
      rw [if_pos hb]
      split <;> rfl
    have hcancel : ∀ t, s.cancel t = true ∨ (s.cxt c).thdstk.head? = some t →
        (s.sendKill c).cancel t = true := by
      intro t ht
      unfold State.sendKill
      rw [if_pos hb]
      cases hstk : (s.cxt c).thdstk with
      | nil => simpa [hstk] using ht
      | cons u us =>
          rw [hstk, List.head?_cons, Option.some.injEq] at ht
          change Function.update s.cancel u true t = true
          rw [Function.update_apply]
          split
          · rfl
          · exact ht.resolve_right fun h => by simp_all
    have hkilled : s.killed c = true → Stopped (s.sendKill c) c := fun h =>
      (hs.stopped c h).mono hkill hsafe fun t th ht _ =>
        .inl ⟨by rwa [hthd] at ht, fun h => hcancel t (.inl h)⟩
    rcases hc with hc | ⟨hc, -⟩ | ⟨-, hc⟩
    · exact hkilled hc
    · rw [hb] at hc
      cases hc
    · cases hk : (s.cxt c).kill with
      | true => exact hkilled (hs.signal c howner hk)
      | false =>
          refine .inr ⟨hkill.trans hk, hsafe.trans hb, fun t th ht he => ?_⟩
          rw [hthd] at ht
          exact (hc t th ht he).imp id fun h => ⟨hcancel t (.inr h.1), h.2⟩
  · have hkill : ((s.sendKill c).cxt c).kill = true := by
      unfold State.sendKill
      rw [if_neg hb]
      simp [State.setCxt]
    left
    refine ⟨hkill, fun t th ht he => ?_⟩
    rw [hthd] at ht
    rcases hc with hc | ⟨-, hc⟩ | ⟨hc, -⟩
    · rcases hs.stopped c hc with hst | hst
      · exact hst.pc t th ht he
      · exact absurd hst.safe hb
    · exact hc t th ht he
    · exact absurd hc hb

theorem sendKill_owner_killed (s : State κ) (c : κ) : (s.sendKill c).owner = s.owner ∧
    (s.sendKill c).killed = s.killed ∧ (s.sendKill c).returned = s.returned := by
  unfold State.sendKill
  split
  · split <;> exact ⟨rfl, rfl, rfl⟩
  · exact ⟨rfl, rfl, rfl⟩

theorem sendKill_kill_of_ne (s : State κ) {c c' : κ} (hc : c' ≠ c) :
    ((s.sendKill c).cxt c').kill = (s.cxt c').kill := by
  unfold State.sendKill
  split
  · split <;> rfl
  · simp [State.setCxt, hc]

theorem Kept.kill (hs : Kept s) {t : ℕ} {th : Thd κ} {c : κ} {cp : Bool}
    (howner : s.owner = none) (ht : s.thd t = some th) (hc : InTime s (.kill t c cp)) :
    Kept (s.ylmtKill t th c cp) := by
  obtain ⟨ho, hk, hr⟩ := sendKill_owner_killed s c
  unfold State.ylmtKill
  split
  · rename_i hkills
    have hstopped : ∀ c', s.killed c' = true ∨ c' = c → Stopped (s.sendKill c) c' := by
      intro c' h
      by_cases he : c' = c
      · subst he
        exact stopped_sendKill hs howner (hc th ht hkills)
      · exact (hs.stopped c' (h.resolve_right he)).sendKill he
    split
    · refine ⟨fun c' h => ?_, fun _ h => (by cases h), hr.trans hs.silent⟩
      have hmoves := exitLocked_moves (s.sendKill c) t th
      rw [hmoves.killed, hk] at h
      exact (hstopped c' (.inl h)).move hmoves (fun _ _ => ⟨nofun, nofun⟩)
        fun he hd => ⟨by rw [he]; exact hd.safe, .inl rfl⟩
    · have hkilled : ∀ c', Function.update s.killed c true c' = true ↔
          s.killed c' = true ∨ c' = c := by
        intro c'
        rw [Function.update_apply]
        split <;> simp_all
      refine ⟨fun c' h => ?_, fun c' _ h => ?_, hr.trans hs.silent⟩
      · have hst := hstopped c' ((hkilled c').1 h)
        exact hst.mono rfl rfl fun _ _ hv _ => .inl ⟨hv, id⟩
      · refine (hkilled c').2 ?_
        by_cases he : c' = c
        · exact .inr he
        · have h' : ((s.sendKill c).cxt c').kill = true := h
          rw [sendKill_kill_of_ne s he] at h'
          exact .inl (hs.signal c' howner h')
  · exact hs

/-- The step of a thread in evaluation code, after which it is dead or in a region
that it leaves only by the check of the signals. -/
theorem Kept.moveEval {t : ℕ} {th : Thd κ} {pc : Pc} {b : Bool} (hs : Kept s)
    (h : Moves s s' t th pc b) (ht : s.thd t = some th) (hpc : th.pc = .eval)
    (howner : s'.owner = none → s.owner = none) (hsilent : Silent s')
    (hsignal : (s.cxt th.cxt).kill = true → pc ≠ .safe .yleval ∧ pc ≠ .leave) : Kept s' :=
  hs.move h howner hsilent (fun hd => hsignal hd.kill) fun hd =>
    (hd.absurd_pc ht rfl (by simp [hpc]) (by simp [hpc]) (by simp [hpc])).elim

theorem ylmtNotifySafe_returned (s : State κ) (t : ℕ) (th : Thd κ) (k : Region)
    (full cp : Bool) : (s.ylmtNotifySafe t th k full cp).returned = s.returned := by
  unfold State.ylmtNotifySafe State.handleSignal State.allSafe
  dsimp only
  split_ifs <;> rfl

theorem kept_step (s : State κ) (e : Event κ) (s' : State κ) (h : Born s ∧ Kept s)
    (htime : InTime s e) (hstep : Step s e s') : Born s' ∧ Kept s' := by
  refine ⟨born_step s e s' h.1 hstep, ?_⟩
  obtain ⟨hborn, hs⟩ := h
  cases hstep with
  | add hm hc => exact hs.setBase _ _ _
  | @start c hc =>
      refine (hs.setBase c _ s.cxtl).spawn none fun hd => ?_
      have hsafe := hd.safe
      rw [setBase_safe, hborn.quiet c (.inr hc)] at hsafe
      cases hsafe
  | @nest t th ht hpc =>
      have hnot : ¬Doomed s th.cxt := fun hd =>
        hd.absurd_pc ht rfl (by simp [hpc]) (by simp [hpc]) (by simp [hpc])
      refine (hs.setPc (.inr ⟨_, rfl⟩) hnot).spawn _ fun hd => ?_
      exact hd.absurd_pc (t := t) (Function.update_self _ _ _) rfl nofun nofun nofun
  | @notifySafe t th k full cp hm ht hpc =>
      have hsilent : Silent (s.ylmtNotifySafe t th k full cp) :=
        (ylmtNotifySafe_returned s t th k full cp).trans hs.silent
      rcases ylmtNotifySafe_moves s t th k full cp with ⟨-, -, h⟩ | ⟨-, -, ⟨-, h⟩ | h⟩
      · exact hs.moveEval h ht hpc (fun _ => hm) hsilent fun _ => ⟨nofun, nofun⟩
      · exact hs.moveEval h ht hpc (fun _ => hm) hsilent fun _ => ⟨nofun, nofun⟩
      · refine hs.moveEval h ht hpc (fun _ => hm) hsilent fun hk => ?_
        rw [hk]
        exact ⟨nofun, nofun⟩
  | @wake t th k hm ht hpc =>
      have hsilent : Silent (s.handleSignal t th k) := by
        unfold State.handleSignal
        split <;> exact hs.silent
      refine hs.move (handleSignal_moves s t th k) (fun _ => hm) hsilent (fun hd => ?_)
        fun hd => ?_
      · rw [hd.kill]
        exact ⟨nofun, nofun⟩
      · rw [hd.kill, hd.safe]
        refine ⟨rfl, .inr ⟨?_, k, .inr rfl⟩⟩
        rcases hd.pc t th ht rfl with h | h
        · rw [hpc] at h
          cases h
        · exact h.1
  | @notifyUnsafe t th k hm ht hpc =>
      refine hs.move (ylmtNotifyUnsafe_moves s t th k) (fun _ => hm) hs.silent (fun hd => ?_)
        fun hd => ?_
      · have h := (hd.pc t th ht rfl).1
        cases k with
        | yleval => exact absurd hpc h
        | native => exact ⟨nofun, nofun⟩
      · have hcancel : s.cancel t = false := htime
        rcases hd.pc t th ht rfl with h | ⟨h, -⟩
        · rw [hpc] at h
          cases h
        · rw [hcancel] at h
          cases h
  | @evalReturn t th ht hpc =>
      have hnot : ¬Signalled s th.cxt ∧ ¬Doomed s th.cxt := by
        refine ⟨fun hd => (hd.pc t th ht rfl).2 hpc, fun hd => ?_⟩
        exact hd.absurd_pc ht rfl (by simp [hpc]) (by simp [hpc]) (by simp [hpc])
      have hkilled : s.killed th.cxt = false := by
        by_contra h
        rcases hs.stopped th.cxt (by simpa using h) with hd | hd
        · exact hnot.1 hd
        · exact hnot.2 hd
      have hsilent : Silent (s.evalReturn t th) := by
        change (s.returned || s.killed th.cxt) = false
        rw [hkilled, hs.silent]
        rfl
      exact hs.move (evalReturn_moves s t th) id hsilent (fun hd => absurd hd hnot.1)
        fun hd => absurd hd hnot.2
  | finish ht hpc => exact hs.exit (exit_moves _ _ _) id hs.silent
  | undefined ht hpc => exact hs.exit (exit_moves _ _ _) id hs.silent
  | cancelled ht hc hpc => exact hs.exit (exit_moves _ _ _) id hs.silent
  | cancelledWait hm ht hc hpc => exact hs.exit (exitLocked_moves _ _ _) (fun _ => hm) hs.silent
  | @join t u th thu ht hpc hu hdead =>
      have hnot : ¬Doomed s th.cxt := fun hd =>
        hd.absurd_pc ht rfl (by simp [hpc]) (by simp [hpc]) (by simp [hpc])
      exact (hs.setPc (.inl rfl) hnot).joined _ _
  | joinBase hc hu hdead => exact (hs.setBase _ _ s.cxtl).joined _ _
  | kill hm ht hpc hpeek => exact hs.kill hm ht htime
  | rm hm hc => exact (hs.setBase _ _ _).allSafe

/-- In every run, no `yleval` returns on a context after `ylmt_kill` has returned success
for it, provided that every kill arrives in time and no thread with a cancellation
pending leaves its region. -/
theorem silent_of_inTime (tr : List (Event κ × State κ)) (hrun : Exec.Run Step init tr)
    (htime : Exec.AllSteps InTime init tr) : Exec.AllStates Silent init tr :=
  (hrun.allStates kept_step htime ⟨born_init, kept_init⟩).mono fun _ h => h.2.silent

/-- A kill of an evaluation outside of the safe state: it ends at its next safe point. -/
theorem silent_of_inTime_unsafe :
    let s₁ := ((init : State ℕ).ylmtAdd 0).ylmtAdd 1
    let s₂ := (s₁.setBase 0 (.join 0)).spawn 0 none
    let s₃ := (s₂.setBase 1 (.join 1)).spawn 1 none
    let s₄ := s₃.ylmtKill 1 ⟨1, .eval, none⟩ 0 false
    let s₅ := s₄.ylmtNotifySafe 0 ⟨0, .eval, none⟩ .yleval false false
    let s₆ := s₅.ylmtNotifySafe 1 ⟨1, .eval, none⟩ .yleval false false
    let s₇ := s₆.ylmtNotifyUnsafe 1 ⟨1, .safe .yleval, none⟩ .yleval
    let s₈ := s₇.evalReturn 1 ⟨1, .leave, none⟩
    Exec.AllStates Silent init
      [(Event.add 0, init.ylmtAdd 0), (.add 1, s₁), (.start 0, s₂), (.start 1, s₃),
        (.kill 1 0 false, s₄), (.notifySafe 0 .yleval false false, s₅),
        (.notifySafe 1 .yleval false false, s₆), (.notifyUnsafe 1, s₇), (.evalReturn 1, s₈)] := by
  intro s₁ s₂ s₃ s₄ s₅ s₆ s₇ s₈
  have h₄ : Step s₃ (.kill 1 0 false) s₄ :=
    .kill rfl (show s₃.thd 1 = some ⟨1, .eval, none⟩ from rfl) rfl (fun _ => nofun)
  have h₅ : Step s₄ (.notifySafe 0 .yleval false false) s₅ := .notifySafe rfl rfl rfl
  have h₆ : Step s₅ (.notifySafe 1 .yleval false false) s₆ := .notifySafe rfl rfl rfl
  have h₇ : Step s₆ (.notifyUnsafe 1) s₇ := .notifyUnsafe rfl rfl rfl
  have h₈ : Step s₇ (.evalReturn 1) s₈ := .evalReturn rfl rfl
  refine silent_of_inTime _ (.cons (.add rfl rfl) <| .cons (.add rfl rfl) <|
    .cons (.start rfl) <| .cons (.start rfl) <| .cons h₄ <| .cons h₅ <| .cons h₆ <|
    .cons h₇ <| .cons h₈ <| .nil _) ?_
  refine ⟨trivial, trivial, trivial, trivial, ?_, trivial, trivial, rfl, trivial, trivial⟩
  intro th _ _
  refine .inr (.inl ⟨rfl, fun u thu hu _ => ?_⟩)
  have heval : thu.pc = .eval := by
    have hu' : Function.update (Function.update (fun _ => none) 0 (some ⟨0, .eval, none⟩)) 1
        (some ⟨1, .eval, none⟩) u = some thu := hu
    simp only [Function.update_apply] at hu'
    split_ifs at hu' <;> cases hu' <;> rfl
  rw [heval]
  exact ⟨nofun, nofun⟩

/-- A kill of an evaluation that is suspended in a native of a nested interpretation.
The nested one is cancelled, and the outer evaluation goes on and returns. -/
theorem not_silent :
    ¬∀ tr : List (Event ℕ × State ℕ), Exec.Run Step init tr →
      Exec.AllStates Silent init tr := by
  intro h
  let s₁ := ((init : State ℕ).ylmtAdd 0).ylmtAdd 1
  let s₂ := (s₁.setBase 0 (.join 0)).spawn 0 none
  let s₃ := (s₂.setBase 1 (.join 1)).spawn 1 none
  let s₄ := (s₃.setThd 0 ⟨0, .join 2, none⟩).spawn 0 (some 0)
  let s₅ := s₄.ylmtNotifySafe 2 ⟨0, .eval, some 0⟩ .native false false
  let s₆ := s₅.ylmtKill 1 ⟨1, .eval, none⟩ 0 false
  let s₇ := s₆.exit 2 ⟨0, .safe .native, some 0⟩
  let s₈ := (s₇.setThd 0 ⟨0, .eval, none⟩).joined 0 2
  let s₉ := s₈.ylmtNotifySafe 0 ⟨0, .eval, none⟩ .yleval false false
  let s₁₀ := s₉.ylmtNotifyUnsafe 0 ⟨0, .safe .yleval, none⟩ .yleval
  let s₁₁ := s₁₀.evalReturn 0 ⟨0, .leave, none⟩
  have h₄ : Step s₃ (.nest 0) s₄ := .nest (show s₃.thd 0 = some ⟨0, .eval, none⟩ from rfl) rfl
  have h₅ : Step s₄ (.notifySafe 2 .native false false) s₅ := .notifySafe rfl rfl rfl
  have h₆ : Step s₅ (.kill 1 0 false) s₆ :=
    .kill rfl (show s₅.thd 1 = some ⟨1, .eval, none⟩ from rfl) rfl (fun _ _ => nofun)
  have h₇ : Step s₆ (.cancelled 2) s₇ :=
    .cancelled (show s₆.thd 2 = some ⟨0, .safe .native, some 0⟩ from rfl) rfl (.inr (.inl rfl))
  have h₈ : Step s₇ (.join 0) s₈ :=
    .join (show s₇.thd 0 = some ⟨0, .join 2, none⟩ from rfl) rfl
      (show s₇.thd 2 = some ⟨0, .dead, some 0⟩ from rfl) rfl
  have h₉ : Step s₈ (.notifySafe 0 .yleval false false) s₉ := .notifySafe rfl rfl rfl
  have h₁₀ : Step s₉ (.notifyUnsafe 0) s₁₀ := .notifyUnsafe rfl rfl rfl
  have h₁₁ : Step s₁₀ (.evalReturn 0) s₁₁ := .evalReturn rfl rfl
  have hall := h _ (.cons (.add rfl rfl) <| .cons (.add rfl rfl) <| .cons (.start rfl) <|
    .cons (.start rfl) <| .cons h₄ <| .cons h₅ <| .cons h₆ <| .cons h₇ <| .cons h₈ <|
    .cons h₉ <| .cons h₁₀ <| .cons h₁₁ <| .nil _)
  have hreturned : s₁₁.returned = true := by decide
  have hlast := hall.2 (.evalReturn 0, s₁₁) (by simp [s₁₁, s₁₀, s₉, s₈, s₇])
  rw [show s₁₁.returned = false from hlast] at hreturned
  cases hreturned

end Mthread

end Ylisp
