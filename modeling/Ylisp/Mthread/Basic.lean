import Mathlib.Data.List.Basic
import Mathlib.Logic.Function.Basic
import Ylisp.Library.Exec

/-!
# Management of evaluation threads

The contexts of `mthread.c` and the threads that evaluate on them. A context has one
base thread, that adds it, starts an interpretation on it, joins it and removes it.
An interpretation runs in a thread of its own, and the native `interpret` starts one
more on the same context and waits for it in `pthread_join`.

A step is one critical section of `_m`, or what a thread does outside of it. A thread
in `pthread_cond_wait` does not own `_m`, so between two steps `_m` is free, or it is
owned by a thread that terminated inside a critical section.

A cancellation is deferred: it is marked as pending, and the thread terminates
at one of its next cancellation points, or never. Waiters may wake up at any time.
-/

namespace Ylisp

namespace Mthread

/-- Where a thread is between `ylmt_notify_safe` and `ylmt_notify_unsafe`: at the end
of `yleval`, or in a native around a blocking call. -/
inductive Region where
  | yleval | native
  deriving DecidableEq

inductive Pc where
  /-- It runs evaluation code. -/
  | eval
  /-- It waits for a collection in the `thd_safe` listener. -/
  | wait (k : Region)
  /-- It has returned from `ylmt_notify_safe`. -/
  | safe (k : Region)
  /-- It has returned from `ylmt_notify_unsafe` at the end of `yleval`. -/
  | leave
  /-- It waits in `pthread_join` for the thread of a nested interpretation. -/
  | join (u : ℕ)
  /-- It has terminated and is not joined yet. -/
  | dead
  deriving DecidableEq

/-- A thread of an interpretation. `parent` is the thread whose native `interpret`
has started it, `none` for the base thread of the context. -/
structure Thd (κ : Type) where
  cxt : κ
  pc : Pc
  parent : Option ℕ

/-- What the base thread of a context is doing. -/
inductive Base where
  /-- It has not called `ylmt_add`. -/
  | fresh
  | added
  /-- It waits in `pthread_join` for its interpretation. -/
  | join (u : ℕ)
  | returned
  | removed
  deriving DecidableEq

/-- The fields of `yletcxt_t` that this module uses: `ETST_SAFE` of `state`,
`ETSIG_KILL` of `sig` and `thdstk`, its top first. -/
structure Cxt where
  safe : Bool
  kill : Bool
  thdstk : List ℕ
  base : Base

/-- `cancel` marks the threads with a cancellation pending, and `owner` is the thread
that owns `_m` between two steps. The last three fields are the history: whether the
`all_safe` listeners ran while a thread of a registered context was evaluating, the
contexts that `ylmt_kill` returned success for, and whether a `yleval` returned on
such a context. -/
structure State (κ : Type) where
  cxt : κ → Cxt
  cxtl : List κ
  thd : ℕ → Option (Thd κ)
  next : ℕ
  cancel : ℕ → Bool
  owner : Option ℕ
  raced : Bool
  killed : κ → Bool
  returned : Bool

def init {κ : Type} : State κ where
  cxt := fun _ => ⟨false, false, [], .fresh⟩
  cxtl := []
  thd := fun _ => none
  next := 0
  cancel := fun _ => false
  owner := none
  raced := false
  killed := fun _ => false
  returned := false

def Pc.Evaluates : Pc → Prop
  | .eval | .leave => True
  | _ => False

instance : DecidablePred Pc.Evaluates
  | .eval | .leave => inferInstanceAs (Decidable True)
  | .wait _ | .safe _ | .join _ | .dead => inferInstanceAs (Decidable False)

namespace State

variable {κ : Type} [DecidableEq κ] (s : State κ)

def setCxt (c : κ) (x : Cxt) : State κ := { s with cxt := Function.update s.cxt c x }

def setThd (t : ℕ) (th : Thd κ) : State κ :=
  { s with thd := Function.update s.thd t (some th) }

/-- `_etst_is_all` for `ETST_SAFE`. -/
def etstIsAll : Bool := s.cxtl.all fun c => (s.cxt c).safe

def evaluating (c : κ) : Bool :=
  (List.range s.next).any fun t =>
    match s.thd t with
    | some th => th.cxt = c ∧ th.pc.Evaluates
    | none => false

def allSafe : State κ :=
  if s.etstIsAll then { s with raced := s.raced || s.cxtl.any s.evaluating } else s

def ylmtAdd (c : κ) : State κ :=
  { s.setCxt c { s.cxt c with base := .added } with cxtl := s.cxtl ++ [c] }

def ylmtRm (c : κ) : State κ :=
  State.allSafe
    { s.setCxt c { s.cxt c with base := .removed } with cxtl := s.cxtl.erase c }

def exit (t : ℕ) (th : Thd κ) : State κ := s.setThd t { th with pc := .dead }

def exitLocked (t : ℕ) (th : Thd κ) : State κ := { s.exit t th with owner := some t }

def setSafe (c : κ) (b : Bool) : State κ := s.setCxt c { s.cxt c with safe := b }

/-- The end of `ylmt_notify_safe`, from the check of the signals. -/
def handleSignal (t : ℕ) (th : Thd κ) (k : Region) : State κ :=
  if (s.cxt th.cxt).kill then (s.setSafe th.cxt false).exit t th
  else s.setThd t { th with pc := .safe k }

/-- The listeners of `ylmt_notify_safe` run a cancellation point under `_m`. The pool
is `full` when the usage ratio has reached the collection threshold. Then the
`thd_safe` listener waits on a condition, and the `all_safe` listener collects, with
a cancellation point in it or not (`cp`). -/
def cancelPoint (c : κ) (full cp : Bool) : Bool :=
  full && (cp || !(s.setSafe c true).etstIsAll)

/-- The start of `ylmt_notify_safe`. -/
def enterSafe (t : ℕ) (th : Thd κ) (k : Region) : State κ :=
  (s.setSafe th.cxt true).setThd t { th with pc := .safe k }

def ylmtNotifySafe (t : ℕ) (th : Thd κ) (k : Region) (full cp : Bool) : State κ :=
  let s₁ := (s.enterSafe t th k).allSafe
  if s.cancel t && s.cancelPoint th.cxt full cp then s₁.exitLocked t th
  else if full && !s₁.etstIsAll then s₁.setThd t { th with pc := .wait k }
  else s₁.handleSignal t th k

def ylmtNotifyUnsafe (t : ℕ) (th : Thd κ) (k : Region) : State κ :=
  (s.setSafe th.cxt false).setThd t
    { th with pc := match k with | .yleval => .leave | .native => .eval }

/-- `yleval` returns a value to its caller. -/
def evalReturn (t : ℕ) (th : Thd κ) : State κ :=
  { s.setThd t { th with pc := .eval } with returned := s.returned || s.killed th.cxt }

def pthreadCancel (t : ℕ) : State κ := { s with cancel := Function.update s.cancel t true }

/-- `_kill`, up to the closing of the process resources. -/
def sendKill (c : κ) : State κ :=
  if (s.cxt c).safe then
    match (s.cxt c).thdstk with
    | u :: _ => s.pthreadCancel u
    | [] => s
  else s.setCxt c { s.cxt c with kill := true }

/-- The calls of `ylmt_kill` that find a context to kill: not the own one, and a
registered one. -/
def Kills (th : Thd κ) (c : κ) : Prop := th.cxt ≠ c ∧ c ∈ s.cxtl

instance (th : Thd κ) (c : κ) : Decidable (s.Kills th c) :=
  inferInstanceAs (Decidable (_ ∧ _))

/-- `ylmt_kill`. Closing the process resources of the target is a cancellation point of
the killer or not (`cp`). -/
def ylmtKill (t : ℕ) (th : Thd κ) (c : κ) (cp : Bool) : State κ :=
  if s.Kills th c then
    if s.cancel t && cp then (s.sendKill c).exitLocked t th
    else { s.sendKill c with killed := Function.update s.killed c true }
  else s

/-- `ylinterpret_internal` starts a thread, with `parent` as the caller, and pushes
it. -/
def spawn (c : κ) (parent : Option ℕ) : State κ :=
  { s.setCxt c { s.cxt c with thdstk := s.next :: (s.cxt c).thdstk } with
    thd := Function.update s.thd s.next (some ⟨c, .eval, parent⟩)
    cancel := Function.update s.cancel s.next false
    next := s.next + 1 }

/-- `ylinterpret_internal` has joined the thread `u`, and pops. -/
def joined (c : κ) (u : ℕ) : State κ :=
  { s.setCxt c { s.cxt c with thdstk := (s.cxt c).thdstk.tail } with
    thd := Function.update s.thd u none }

def setBase (c : κ) (b : Base) : State κ := s.setCxt c { s.cxt c with base := b }

end State

inductive Event (κ : Type) where
  | add (c : κ)
  | start (c : κ)
  | nest (t : ℕ)
  | notifySafe (t : ℕ) (k : Region) (full cp : Bool)
  | wake (t : ℕ)
  | notifyUnsafe (t : ℕ)
  | evalReturn (t : ℕ)
  /-- The end of the stream, with `YLOk`. -/
  | finish (t : ℕ)
  /-- `ylinterpret_undefined`: an error, or `stop`. -/
  | undefined (t : ℕ)
  /-- The thread terminates at a cancellation point. -/
  | cancelled (t : ℕ)
  | join (t : ℕ)
  | joinBase (c : κ)
  | kill (t : ℕ) (c : κ) (cp : Bool)
  | rm (c : κ)

open State in
/-- One step. Those that lock `_m` can only be taken while nobody owns it. -/
inductive Step {κ : Type} [DecidableEq κ] : State κ → Event κ → State κ → Prop
  | add {s : State κ} {c : κ} (hm : s.owner = none) (hc : (s.cxt c).base = .fresh) :
      Step s (.add c) (s.ylmtAdd c)
  | start {s : State κ} {c : κ} (hc : (s.cxt c).base = .added) :
      Step s (.start c) ((s.setBase c (.join s.next)).spawn c none)
  | nest {s : State κ} {t : ℕ} {th : Thd κ} (ht : s.thd t = some th) (hpc : th.pc = .eval) :
      Step s (.nest t) ((s.setThd t { th with pc := .join s.next }).spawn th.cxt (some t))
  | notifySafe {s : State κ} {t : ℕ} {th : Thd κ} {k : Region} {full cp : Bool}
      (hm : s.owner = none) (ht : s.thd t = some th) (hpc : th.pc = .eval) :
      Step s (.notifySafe t k full cp) (s.ylmtNotifySafe t th k full cp)
  | wake {s : State κ} {t : ℕ} {th : Thd κ} {k : Region} (hm : s.owner = none)
      (ht : s.thd t = some th) (hpc : th.pc = .wait k) :
      Step s (.wake t) (s.handleSignal t th k)
  | notifyUnsafe {s : State κ} {t : ℕ} {th : Thd κ} {k : Region} (hm : s.owner = none)
      (ht : s.thd t = some th) (hpc : th.pc = .safe k) :
      Step s (.notifyUnsafe t) (s.ylmtNotifyUnsafe t th k)
  | evalReturn {s : State κ} {t : ℕ} {th : Thd κ} (ht : s.thd t = some th)
      (hpc : th.pc = .leave) : Step s (.evalReturn t) (s.evalReturn t th)
  | finish {s : State κ} {t : ℕ} {th : Thd κ} (ht : s.thd t = some th) (hpc : th.pc = .eval) :
      Step s (.finish t) (s.exit t th)
  | undefined {s : State κ} {t : ℕ} {th : Thd κ} (ht : s.thd t = some th)
      (hpc : th.pc = .eval ∨ th.pc = .safe .native) : Step s (.undefined t) (s.exit t th)
  | cancelled {s : State κ} {t : ℕ} {th : Thd κ} (ht : s.thd t = some th)
      (hcancel : s.cancel t = true)
      (hpc : th.pc = .eval ∨ th.pc = .safe .native ∨ ∃ u, th.pc = .join u) :
      Step s (.cancelled t) (s.exit t th)
  /-- `pthread_cond_wait` locks `_m` again before the thread terminates. -/
  | cancelledWait {s : State κ} {t : ℕ} {th : Thd κ} {k : Region} (hm : s.owner = none)
      (ht : s.thd t = some th) (hcancel : s.cancel t = true) (hpc : th.pc = .wait k) :
      Step s (.cancelled t) (s.exitLocked t th)
  | join {s : State κ} {t u : ℕ} {th thu : Thd κ} (ht : s.thd t = some th)
      (hpc : th.pc = .join u) (hu : s.thd u = some thu) (hdead : thu.pc = .dead) :
      Step s (.join t) ((s.setThd t { th with pc := .eval }).joined th.cxt u)
  | joinBase {s : State κ} {c : κ} {u : ℕ} {thu : Thd κ} (hc : (s.cxt c).base = .join u)
      (hu : s.thd u = some thu) (hdead : thu.pc = .dead) :
      Step s (.joinBase c) ((s.setBase c .returned).joined c u)
  /-- The stack of a context in the safe state is asserted not to be empty. -/
  | kill {s : State κ} {t : ℕ} {th : Thd κ} {c : κ} {cp : Bool}
      (hm : s.owner = none) (ht : s.thd t = some th) (hpc : th.pc = .eval)
      (hpeek : s.Kills th c → (s.cxt c).safe → (s.cxt c).thdstk ≠ []) :
      Step s (.kill t c cp) (s.ylmtKill t th c cp)
  | rm {s : State κ} {c : κ} (hm : s.owner = none)
      (hc : (s.cxt c).base = .added ∨ (s.cxt c).base = .returned) :
      Step s (.rm c) (s.ylmtRm c)

/-! ## What the steps do -/

section Moves

variable {κ : Type} [DecidableEq κ]

theorem setCxt_field {β : Type} (f : Cxt → β) (s : State κ) (c : κ) (x : Cxt)
    (hx : f x = f (s.cxt c)) (c' : κ) : f ((s.setCxt c x).cxt c') = f (s.cxt c') := by
  unfold State.setCxt
  by_cases hc : c' = c
  · subst hc
    simpa using hx
  · simp [hc]

theorem setBase_base_of_ne (s : State κ) {c c' : κ} (b : Base) (hc : c' ≠ c) :
    ((s.setBase c b).cxt c').base = (s.cxt c').base := by
  simp [State.setBase, State.setCxt, hc]

theorem setBase_base_self (s : State κ) (c : κ) (b : Base) :
    ((s.setBase c b).cxt c).base = b := by
  simp [State.setBase, State.setCxt]

theorem setBase_safe (s : State κ) (c : κ) (b : Base) (c' : κ) :
    ((s.setBase c b).cxt c').safe = (s.cxt c').safe :=
  setCxt_field Cxt.safe s c _ (by rfl) c'

theorem spawn_safe (s : State κ) (c : κ) (parent : Option ℕ) (c' : κ) :
    ((s.spawn c parent).cxt c').safe = (s.cxt c').safe :=
  setCxt_field Cxt.safe s c _ (by rfl) c'

theorem spawn_base (s : State κ) (c : κ) (parent : Option ℕ) (c' : κ) :
    ((s.spawn c parent).cxt c').base = (s.cxt c').base :=
  setCxt_field Cxt.base s c _ (by rfl) c'

theorem joined_safe (s : State κ) (c : κ) (u : ℕ) (c' : κ) :
    ((s.joined c u).cxt c').safe = (s.cxt c').safe :=
  setCxt_field Cxt.safe s c _ (by rfl) c'

theorem joined_base (s : State κ) (c : κ) (u : ℕ) (c' : κ) :
    ((s.joined c u).cxt c').base = (s.cxt c').base :=
  setCxt_field Cxt.base s c _ (by rfl) c'

theorem sendKill_safe (s : State κ) (c c' : κ) :
    ((s.sendKill c).cxt c').safe = (s.cxt c').safe := by
  unfold State.sendKill
  split
  · split <;> rfl
  · exact setCxt_field Cxt.safe s c _ (by rfl) c'

theorem sendKill_base (s : State κ) (c c' : κ) :
    ((s.sendKill c).cxt c').base = (s.cxt c').base := by
  unfold State.sendKill
  split
  · split <;> rfl
  · exact setCxt_field Cxt.base s c _ (by rfl) c'

theorem sendKill_thd (s : State κ) (c : κ) : (s.sendKill c).thd = s.thd := by
  unfold State.sendKill
  split
  · split <;> rfl
  · rfl

structure Moves (s s' : State κ) (t : ℕ) (th : Thd κ) (pc : Pc) (b : Bool) : Prop where
  thd : s'.thd = Function.update s.thd t (some { th with pc := pc })
  cxt : s'.cxt = Function.update s.cxt th.cxt { s.cxt th.cxt with safe := b }
  cxtl : s'.cxtl = s.cxtl
  next : s'.next = s.next
  cancel : s'.cancel = s.cancel
  killed : s'.killed = s.killed

section Fields

variable {s s' : State κ} {t : ℕ} {th : Thd κ} {pc : Pc} {b : Bool}

theorem Moves.thd_self (h : Moves s s' t th pc b) {thv : Thd κ} (hv : s'.thd t = some thv) :
    thv = { th with pc := pc } := by
  rw [h.thd, Function.update_self] at hv
  exact (Option.some.inj hv).symm

theorem Moves.cxt_of_ne (h : Moves s s' t th pc b) {c : κ} (hc : c ≠ th.cxt) :
    s'.cxt c = s.cxt c := by
  rw [h.cxt, Function.update_of_ne hc]

theorem Moves.base (h : Moves s s' t th pc b) (c : κ) : (s'.cxt c).base = (s.cxt c).base := by
  by_cases hc : c = th.cxt
  · subst hc
    simp [h.cxt]
  · rw [h.cxt_of_ne hc]

theorem Moves.safe (h : Moves s s' t th pc b) : (s'.cxt th.cxt).safe = b := by
  simp [h.cxt]

theorem Moves.kill (h : Moves s s' t th pc b) (c : κ) : (s'.cxt c).kill = (s.cxt c).kill := by
  by_cases hc : c = th.cxt
  · subst hc
    simp [h.cxt]
  · rw [h.cxt_of_ne hc]

theorem Moves.thd_of_ne (h : Moves s s' t th pc b) {v : ℕ} (hv : v ≠ t) :
    s'.thd v = s.thd v := by
  rw [h.thd, Function.update_of_ne hv]

end Fields

theorem exit_moves (s : State κ) (t : ℕ) (th : Thd κ) :
    Moves s (s.exit t th) t th .dead (s.cxt th.cxt).safe where
  thd := rfl
  cxt := (Function.update_eq_self th.cxt s.cxt).symm
  cxtl := rfl
  next := rfl
  cancel := rfl
  killed := rfl

theorem exitLocked_moves (s : State κ) (t : ℕ) (th : Thd κ) :
    Moves s (s.exitLocked t th) t th .dead (s.cxt th.cxt).safe where
  thd := rfl
  cxt := (Function.update_eq_self th.cxt s.cxt).symm
  cxtl := rfl
  next := rfl
  cancel := rfl
  killed := rfl

theorem evalReturn_moves (s : State κ) (t : ℕ) (th : Thd κ) :
    Moves s (s.evalReturn t th) t th .eval (s.cxt th.cxt).safe where
  thd := rfl
  cxt := (Function.update_eq_self th.cxt s.cxt).symm
  cxtl := rfl
  next := rfl
  cancel := rfl
  killed := rfl

theorem ylmtNotifyUnsafe_moves (s : State κ) (t : ℕ) (th : Thd κ) (k : Region) :
    Moves s (s.ylmtNotifyUnsafe t th k) t th
      (match k with | .yleval => .leave | .native => .eval) false :=
  ⟨rfl, rfl, rfl, rfl, rfl, rfl⟩

def afterSignal (kill : Bool) (k : Region) : Pc := if kill then .dead else .safe k

theorem handleSignal_moves (s : State κ) (t : ℕ) (th : Thd κ) (k : Region) :
    Moves s (s.handleSignal t th k) t th (afterSignal (s.cxt th.cxt).kill k)
      (!(s.cxt th.cxt).kill && (s.cxt th.cxt).safe) := by
  unfold State.handleSignal afterSignal
  cases (s.cxt th.cxt).kill with
  | true => exact ⟨rfl, rfl, rfl, rfl, rfl, rfl⟩
  | false => exact ⟨rfl, (Function.update_eq_self th.cxt s.cxt).symm, rfl, rfl, rfl, rfl⟩

theorem enterSafe_moves (s : State κ) (t : ℕ) (th : Thd κ) (k : Region) :
    Moves s (s.enterSafe t th k) t th (.safe k) true :=
  ⟨rfl, rfl, rfl, rfl, rfl, rfl⟩

theorem Moves.allSafe {s s' : State κ} {t : ℕ} {th : Thd κ} {pc : Pc} {b : Bool}
    (h : Moves s s' t th pc b) : Moves s s'.allSafe t th pc b := by
  unfold State.allSafe
  split
  · exact ⟨h.thd, h.cxt, h.cxtl, h.next, h.cancel, h.killed⟩
  · exact h

theorem Moves.trans {s s₁ s' : State κ} {t : ℕ} {th : Thd κ} {pc pc' : Pc} {b b' : Bool}
    (h : Moves s s₁ t th pc b) (h' : Moves s₁ s' t th pc' b') : Moves s s' t th pc' b' where
  thd := by rw [h'.thd, h.thd, Function.update_idem]
  cxt := by simp [h'.cxt, h.cxt]
  cxtl := h'.cxtl.trans h.cxtl
  next := h'.next.trans h.next
  cancel := h'.cancel.trans h.cancel
  killed := h'.killed.trans h.killed

theorem ylmtNotifySafe_moves (s : State κ) (t : ℕ) (th : Thd κ) (k : Region)
    (full cp : Bool) :
    let s' := s.ylmtNotifySafe t th k full cp
    (s.cancel t ∧ s.cancelPoint th.cxt full cp ∧ Moves s s' t th .dead true) ∨
    (¬(s.cancel t ∧ s.cancelPoint th.cxt full cp) ∧ s'.owner = s.owner ∧
      ((s.cancel t = false ∧ Moves s s' t th (.wait k) true) ∨
        Moves s s' t th (afterSignal (s.cxt th.cxt).kill k) (!(s.cxt th.cxt).kill))) := by
  have h₁ := (enterSafe_moves s t th k).allSafe
  have howner : (s.enterSafe t th k).allSafe.owner = s.owner := by
    unfold State.allSafe
    split <;> rfl
  have hsafe : ((s.enterSafe t th k).allSafe.cxt th.cxt).safe = true := by simp [h₁.cxt]
  have hkill : ((s.enterSafe t th k).allSafe.cxt th.cxt).kill = (s.cxt th.cxt).kill := by
    simp [h₁.cxt]
  have hall : (s.enterSafe t th k).allSafe.etstIsAll = (s.setSafe th.cxt true).etstIsAll := by
    unfold State.etstIsAll
    rw [h₁.cxtl, h₁.cxt]
    rfl
  unfold State.ylmtNotifySafe
  dsimp only
  generalize (s.enterSafe t th k).allSafe = s₁ at *
  by_cases hc : s.cancel t ∧ s.cancelPoint th.cxt full cp
  · left
    rw [if_pos (by simpa using hc)]
    have h := h₁.trans (exitLocked_moves s₁ t th)
    rw [hsafe] at h
    exact ⟨hc.1, hc.2, h⟩
  · right
    rw [if_neg (by simpa using hc)]
    by_cases hw : full && !s₁.etstIsAll
    · rw [if_pos hw]
      refine ⟨hc, howner, .inl ⟨?_, ?_⟩⟩
      · by_contra hcancel
        apply hc
        rw [hall] at hw
        unfold State.cancelPoint
        simp_all
      · exact h₁.trans (⟨rfl, by rw [← hsafe]; exact (Function.update_eq_self _ _).symm, rfl,
          rfl, rfl, rfl⟩)
    · rw [if_neg hw]
      have h := h₁.trans (handleSignal_moves s₁ t th k)
      rw [hsafe, hkill, Bool.and_true] at h
      refine ⟨hc, ?_, .inr h⟩
      rw [← howner]
      unfold State.handleSignal
      split <;> rfl

end Moves

end Mthread

end Ylisp
