import Ylisp.Mthread.Born

/-!
# One running thread per context

At most one thread of a context runs; the others wait in `pthread_join`, each one for
the next. So the safe bit, which is per context, says of that thread whether it is in
a safe region.

A thread that dies in a region leaves the bit set. This does no harm, unless
another thread of the context waits for it and goes on with its evaluation.
-/

namespace Ylisp

namespace Mthread

variable {κ : Type}

abbrev Thds (κ : Type) := ℕ → Option (Thd κ)

/-- Some thread waits for `t` in `pthread_join`. -/
def Thds.Waited (d : Thds κ) (t : ℕ) : Prop := ∃ p th, d p = some th ∧ th.pc = .join t

/-- The thread that runs its context: it does not wait for another one, and when it
has terminated, then another one waits for it. -/
structure Thds.Busy (d : Thds κ) (t : ℕ) (th : Thd κ) : Prop where
  thd : d t = some th
  not_join : ∀ u, th.pc ≠ .join u
  waited : th.pc = .dead → d.Waited t

structure Thds.Resumes (d : Thds κ) (t : ℕ) (th : Thd κ) : Prop where
  thd : d t = some th
  pc : th.pc.Evaluates ∨ th.pc = .dead ∧ d.Waited t

/-- What holds of the threads of a context as long as none of them dies in a region
while another one waits for it. -/
structure OneThread (s : State κ) : Prop where
  fresh : ∀ t, s.next ≤ t → s.thd t = none
  based : ∀ c u, (s.cxt c).base = .join u →
    ∃ thu, s.thd u = some thu ∧ thu.cxt = c ∧ thu.parent = none
  child : ∀ t th u, s.thd t = some th → th.pc = .join u →
    ∃ thu, s.thd u = some thu ∧ thu.cxt = th.cxt ∧ thu.parent = some t
  unique : ∀ t u th thu, Thds.Busy s.thd t th → Thds.Busy s.thd u thu →
    th.cxt = thu.cxt → t = u
  guarded : ∀ t th, Thds.Resumes s.thd t th → (s.cxt th.cxt).safe = false
  raced : s.raced = false

theorem Thds.Resumes.busy {d : Thds κ} {t : ℕ} {th : Thd κ} (h : d.Resumes t th) :
    d.Busy t th := by
  obtain ⟨hd, heval | ⟨hdead, hw⟩⟩ := h
  · refine ⟨hd, fun u hu => ?_, fun hdead => ?_⟩
    · rw [hu] at heval
      exact heval
    · rw [hdead] at heval
      exact heval.elim
  · refine ⟨hd, fun u hu => ?_, fun _ => hw⟩
    rw [hu] at hdead
    cases hdead

theorem oneThread_init : OneThread (init : State κ) where
  fresh _ _ := rfl
  based _ _ h := by cases h
  child _ _ _ h := by cases h
  unique _ _ _ _ h := by cases h.thd
  guarded _ _ h := by cases h.thd
  raced := rfl

/-- A thread that is neither waiting for another one nor dead runs its context. -/
theorem busy_of_pc {d : Thds κ} {t : ℕ} {th : Thd κ} (ht : d t = some th)
    (hjoin : ∀ u, th.pc ≠ .join u) (hdead : th.pc ≠ .dead) : d.Busy t th :=
  ⟨ht, hjoin, fun h => absurd h hdead⟩

/-- A step that leaves the threads and the safe bits as they are. -/
theorem OneThread.frame {s s' : State κ} (hs : OneThread s) (hthd : s'.thd = s.thd)
    (hnext : s'.next = s.next) (hsafe : ∀ c, (s'.cxt c).safe = (s.cxt c).safe)
    (hjoin : ∀ c u, (s'.cxt c).base = .join u → (s.cxt c).base = .join u)
    (hraced : s'.raced = false) : OneThread s' where
  fresh := by
    rw [hthd, hnext]
    exact hs.fresh
  based c u h := by
    rw [hthd]
    exact hs.based c u (hjoin c u h)
  child := by
    rw [hthd]
    exact hs.child
  unique := by
    rw [hthd]
    exact hs.unique
  guarded t th h := by
    rw [hthd] at h
    rw [hsafe]
    exact hs.guarded t th h
  raced := hraced

theorem OneThread.lt_next {s : State κ} (hs : OneThread s) {t : ℕ} {th : Thd κ}
    (ht : s.thd t = some th) : t < s.next := by
  by_contra hge
  rw [hs.fresh t (Nat.le_of_not_lt hge)] at ht
  cases ht

/-- The thread `v` after a new one has been started: it is as before, or it is the one
that has started it. -/
def AfterSpawn (s : State κ) (c : κ) (parent : Option ℕ) (v : ℕ) (th thv : Thd κ) : Prop :=
  thv.cxt = th.cxt ∧ thv.parent = th.parent ∧
    (thv.pc = th.pc ∧ parent ≠ some v ∨
      thv.pc = .join s.next ∧ parent = some v ∧ th.cxt = c)

/-- What starting a thread for a context changes: the new thread, its parent, which waits
for it, and the base of the context when there is no parent. -/
structure Spawned (s s' : State κ) (c : κ) (parent : Option ℕ) : Prop where
  self : s'.thd s.next = some ⟨c, .eval, parent⟩
  old : ∀ v thv, v ≠ s.next → s'.thd v = some thv →
    ∃ th, s.thd v = some th ∧ AfterSpawn s c parent v th thv
  kept : ∀ v th, s.thd v = some th →
    ∃ thv, s'.thd v = some thv ∧ AfterSpawn s c parent v th thv
  safe : ∀ c', (s'.cxt c').safe = (s.cxt c').safe
  base : ∀ c', (s'.cxt c').base = (s.cxt c').base ∨
    (s'.cxt c').base = .join s.next ∧ c = c' ∧ parent = none
  next : s'.next = s.next + 1
  raced : s'.raced = s.raced

section Spawned

variable {s s' : State κ} {c : κ} {parent : Option ℕ} {v w : ℕ} {thv thw : Thd κ}

theorem Spawned.waited (h : Spawned s s' c parent) (hv : v ≠ s.next)
    (hw : Thds.Waited s'.thd v) : Thds.Waited s.thd v := by
  obtain ⟨p, thp, hp, hpv⟩ := hw
  by_cases hpn : p = s.next
  · subst hpn
    rw [h.self] at hp
    cases hp
    cases hpv
  · obtain ⟨th, hth, -, -, ⟨hpc, -⟩ | ⟨hpc, -⟩⟩ := h.old p thp hpn hp
    · exact ⟨p, th, hth, by rw [← hpc, hpv]⟩
    · rw [hpc] at hpv
      cases hpv
      exact absurd rfl hv

theorem Spawned.busy (h : Spawned s s' c parent)
    (hfree : ∀ v th, Thds.Busy s.thd v th → th.cxt = c → parent = some v) (hv : v ≠ s.next)
    (hbusy : Thds.Busy s'.thd v thv) :
    ∃ th, Thds.Busy s.thd v th ∧ th.cxt = thv.cxt ∧ th.pc = thv.pc ∧ th.cxt ≠ c := by
  obtain ⟨th, hth, hcxt, -, ⟨hpc, hparent⟩ | ⟨hpc, -⟩⟩ := h.old v thv hv hbusy.thd
  · have hth' : Thds.Busy s.thd v th := by
      refine ⟨hth, ?_, ?_⟩
      · rw [← hpc]
        exact hbusy.not_join
      · rw [← hpc]
        exact fun hdead => h.waited hv (hbusy.waited hdead)
    exact ⟨th, hth', hcxt.symm, hpc.symm, fun hc => hparent (hfree v th hth' hc)⟩
  · exact absurd hpc (hbusy.not_join _)

theorem Spawned.eq_of_busy (h : Spawned s s' c parent)
    (hbusy : Thds.Busy s'.thd s.next thw) : thw = ⟨c, .eval, parent⟩ :=
  Option.some.inj (hbusy.thd.symm.trans h.self)

theorem Spawned.cxt_ne (h : Spawned s s' c parent)
    (hfree : ∀ v th, Thds.Busy s.thd v th → th.cxt = c → parent = some v) (hv : v ≠ s.next)
    (hbusy : Thds.Busy s'.thd v thv) (hbusy' : Thds.Busy s'.thd s.next thw) :
    thv.cxt ≠ thw.cxt := by
  obtain ⟨th, -, hcxt, -, hne⟩ := h.busy hfree hv hbusy
  rw [h.eq_of_busy hbusy', ← hcxt]
  exact hne

theorem Spawned.fresh (h : Spawned s s' c parent) (hs : OneThread s) (hv : s'.next ≤ v) :
    s'.thd v = none := by
  rw [h.next] at hv
  cases hthv : s'.thd v with
  | none => rfl
  | some thv =>
      obtain ⟨th, hth, -⟩ := h.old v thv (by omega) hthv
      have hlt := hs.lt_next hth
      omega

theorem Spawned.based (h : Spawned s s' c parent) (hs : OneThread s) {c' : κ}
    (hjoin : (s'.cxt c').base = .join v) :
    ∃ thv, s'.thd v = some thv ∧ thv.cxt = c' ∧ thv.parent = none := by
  rcases h.base c' with hb | ⟨hb, hcxt⟩
  · rw [hb] at hjoin
    obtain ⟨th, hth, hc', hnone⟩ := hs.based c' v hjoin
    obtain ⟨thv, hthv, hcxt, hparent, -⟩ := h.kept v th hth
    exact ⟨thv, hthv, hcxt.trans hc', hparent.trans hnone⟩
  · rw [hb] at hjoin
    cases hjoin
    exact ⟨_, h.self, hcxt⟩

theorem Spawned.child (h : Spawned s s' c parent) (hs : OneThread s)
    (hv : s'.thd v = some thv) (hjoin : thv.pc = .join w) :
    ∃ thw, s'.thd w = some thw ∧ thw.cxt = thv.cxt ∧ thw.parent = some v := by
  by_cases hvn : v = s.next
  · subst hvn
    rw [h.self] at hv
    cases hv
    cases hjoin
  · obtain ⟨th, hth, hcxt, -, ⟨hpc, -⟩ | ⟨hpc, hparent, hc⟩⟩ := h.old v thv hvn hv
    · obtain ⟨thu, hu, hcu, hpu⟩ := hs.child v th w hth (by rw [← hpc, hjoin])
      obtain ⟨thu', hu', hcu', hpu', -⟩ := h.kept w thu hu
      exact ⟨thu', hu', by rw [hcu', hcu, hcxt], by rw [hpu', hpu]⟩
    · rw [hpc] at hjoin
      cases hjoin
      exact ⟨_, h.self, by rw [hcxt, hc], hparent⟩

/-- A new thread runs on a context that no other thread runs on. -/
theorem OneThread.spawned (hs : OneThread s) (h : Spawned s s' c parent)
    (hfree : ∀ v th, Thds.Busy s.thd v th → th.cxt = c → parent = some v)
    (hc : (s.cxt c).safe = false) : OneThread s' := by
  refine ⟨fun v => h.fresh hs, fun c' u => h.based hs, fun v thv u => h.child hs, ?_, ?_,
    h.raced.trans hs.raced⟩
  · intro v w thv thw hv hw hcxt
    by_cases hvn : v = s.next
    · by_cases hwn : w = s.next
      · rw [hvn, hwn]
      · subst hvn
        exact absurd hcxt.symm (h.cxt_ne hfree hwn hw hv)
    · by_cases hwn : w = s.next
      · subst hwn
        exact absurd hcxt (h.cxt_ne hfree hvn hv hw)
      · obtain ⟨th, hth, hcv, -⟩ := h.busy hfree hvn hv
        obtain ⟨th', hth', hcw, -⟩ := h.busy hfree hwn hw
        exact hs.unique v w th th' hth hth' (by rw [hcv, hcw, hcxt])
  · intro v thv hv
    rw [h.safe]
    by_cases hvn : v = s.next
    · subst hvn
      rw [h.eq_of_busy hv.busy]
      exact hc
    · obtain ⟨th, hth, hcxt, hpc, -⟩ := h.busy hfree hvn hv.busy
      rw [← hcxt]
      refine hs.guarded v th ⟨hth.thd, ?_⟩
      rw [hpc]
      exact hv.pc.imp id fun hd => ⟨hd.1, h.waited hvn hd.2⟩

end Spawned

/-- A dead thread that no thread waits for is joined by its base thread, or has been
joined. -/
theorem OneThread.reap {s s' : State κ} (hs : OneThread s) {u : ℕ} {thu : Thd κ}
    (hu : s.thd u = some thu) (hnot : ¬Thds.Waited s.thd u)
    (hthd : s'.thd = Function.update s.thd u none)
    (hsafe : ∀ c, (s'.cxt c).safe = (s.cxt c).safe)
    (hjoin : ∀ c v, (s'.cxt c).base = .join v → (s.cxt c).base = .join v ∧ v ≠ u)
    (hnext : s'.next = s.next) (hraced : s'.raced = s.raced) : OneThread s' := by
  have hother : ∀ v thv, s'.thd v = some thv → v ≠ u ∧ s.thd v = some thv := by
    intro v thv hv
    rw [hthd, Function.update_apply] at hv
    split at hv
    · cases hv
    · exact ⟨by assumption, hv⟩
  have hkept : ∀ v, v ≠ u → s'.thd v = s.thd v := fun v hv => by
    rw [hthd, Function.update_of_ne hv]
  have hwaited : ∀ v, Thds.Waited s'.thd v → Thds.Waited s.thd v := by
    rintro v ⟨p, thp, hp, hpv⟩
    exact ⟨p, thp, (hother p thp hp).2, hpv⟩
  have hbusy : ∀ v thv, Thds.Busy s'.thd v thv → Thds.Busy s.thd v thv := fun v thv h =>
    ⟨(hother v thv h.thd).2, h.not_join, fun hd => hwaited v (h.waited hd)⟩
  refine ⟨?_, ?_, ?_, ?_, ?_, hraced.trans hs.raced⟩
  · intro v hv
    rw [hnext] at hv
    have hne : v ≠ u := ((hs.lt_next hu).trans_le hv).ne'
    rw [hkept v hne]
    exact hs.fresh v hv
  · intro c v h
    obtain ⟨hb, hne⟩ := hjoin c v h
    rw [hkept v hne]
    exact hs.based c v hb
  · intro v thv w hv hpc
    have hv' := (hother v thv hv).2
    have hne : w ≠ u := by
      rintro rfl
      exact hnot ⟨v, thv, hv', hpc⟩
    rw [hkept w hne]
    exact hs.child v thv w hv' hpc
  · intro v w thv thw hv hw
    exact hs.unique v w thv thw (hbusy v thv hv) (hbusy w thw hw)
  · intro v thv hv
    rw [hsafe]
    exact hs.guarded v thv ⟨(hother v thv hv.thd).2,
      hv.pc.imp id fun h => ⟨h.1, hwaited v h.2⟩⟩

variable [DecidableEq κ]

/-- The listeners find every registered context in the safe state. -/
theorem OneThread.raced_allSafe {s : State κ} (h : OneThread s) : s.allSafe.raced = false := by
  unfold State.allSafe
  split
  · rename_i hall
    simp only [h.raced, Bool.false_or]
    rw [List.any_eq_false]
    intro c hc heval
    obtain ⟨t, -, ht⟩ := List.any_eq_true.1 heval
    cases hth : s.thd t with
    | none => simp [hth] at ht
    | some th =>
        simp only [hth, decide_eq_true_eq] at ht
        have hsafe := List.all_eq_true.1 hall c hc
        rw [← ht.1, h.guarded t th ⟨hth, .inl ht.2⟩] at hsafe
        cases hsafe
  · exact h.raced

/-! ## Moves of one thread -/

section Move

variable {s s' : State κ} {t : ℕ} {th : Thd κ} {pc : Pc} {b : Bool}

theorem Moves.waited (h : Moves s s' t th pc b) (hpc : ∀ u, pc ≠ .join u) {v : ℕ}
    (hv : Thds.Waited s'.thd v) : Thds.Waited s.thd v := by
  obtain ⟨p, thp, hp, hpv⟩ := hv
  rw [h.thd, Function.update_apply] at hp
  split at hp
  · cases hp
    exact absurd hpv (hpc v)
  · exact ⟨p, thp, hp, hpv⟩

theorem Moves.busy (h : Moves s s' t th pc b) (hpc : ∀ u, pc ≠ .join u) {v : ℕ} {thv : Thd κ}
    (hv : Thds.Busy s'.thd v thv) (hne : v ≠ t) : Thds.Busy s.thd v thv := by
  refine ⟨?_, hv.not_join, fun hdead => h.waited hpc (hv.waited hdead)⟩
  have hthd := hv.thd
  rwa [h.thd, Function.update_of_ne hne] at hthd

/-- One thread goes on or dies. Afterwards no other thread runs the context, if this
one does or if the safe bit changes. -/
theorem OneThread.move (hs : OneThread s) (h : Moves s s' t th pc b)
    (ht : s.thd t = some th) (hpc : ∀ u, pc ≠ .join u)
    (halone : Thds.Busy s'.thd t { th with pc := pc } ∨ b ≠ (s.cxt th.cxt).safe →
      ∀ v thv, v ≠ t → Thds.Busy s'.thd v thv → thv.cxt ≠ th.cxt)
    (hguard : pc.Evaluates ∨ pc = .dead ∧ Thds.Waited s.thd t → b = false)
    (hraced : s'.raced = false) : OneThread s' where
  fresh v hv := by
    rw [h.next] at hv
    have hne : v ≠ t := by
      rintro rfl
      rw [hs.fresh v hv] at ht
      cases ht
    rw [h.thd, Function.update_of_ne hne]
    exact hs.fresh v hv
  based c u hc := by
    rw [h.base] at hc
    obtain ⟨thu, hu, hcxt⟩ := hs.based c u hc
    by_cases hut : u = t
    · subst hut
      obtain rfl : th = thu := Option.some.inj (ht.symm.trans hu)
      exact ⟨{ th with pc := pc }, by rw [h.thd, Function.update_self], hcxt⟩
    · exact ⟨thu, by rwa [h.thd, Function.update_of_ne hut], hcxt⟩
  child v thv u hv hjoin := by
    have hvt : v ≠ t := by
      rintro rfl
      rw [h.thd_self hv] at hjoin
      exact hpc u hjoin
    rw [h.thd, Function.update_of_ne hvt] at hv
    obtain ⟨thu, hu, hcxt, hparent⟩ := hs.child v thv u hv hjoin
    by_cases hut : u = t
    · subst hut
      obtain rfl : th = thu := Option.some.inj (ht.symm.trans hu)
      exact ⟨{ th with pc := pc }, by rw [h.thd, Function.update_self], hcxt, hparent⟩
    · exact ⟨thu, by rwa [h.thd, Function.update_of_ne hut], hcxt, hparent⟩
  unique v w thv thw hv hw hcxt := by
    by_cases hvt : v = t
    · subst hvt
      by_contra hne
      have hself := h.thd_self hv.thd
      subst hself
      exact halone (.inl hv) w thw (Ne.symm hne) hw hcxt.symm
    · by_cases hwt : w = t
      · subst hwt
        have hself := h.thd_self hw.thd
        subst hself
        exact absurd hcxt (halone (.inl hw) v thv hvt hv)
      · exact hs.unique v w thv thw (h.busy hpc hv hvt) (h.busy hpc hw hwt) hcxt
  guarded v thv hv := by
    by_cases hvt : v = t
    · subst hvt
      have hself := h.thd_self hv.thd
      subst hself
      rw [h.safe]
      exact hguard (hv.pc.imp id fun hdead => ⟨hdead.1, h.waited hpc hdead.2⟩)
    · have hv' : Thds.Resumes s.thd v thv := by
        refine ⟨(h.busy hpc hv.busy hvt).thd, hv.pc.imp id fun hdead => ?_⟩
        exact ⟨hdead.1, h.waited hpc hdead.2⟩
      by_cases hc : thv.cxt = th.cxt
      · by_cases hb : b = (s.cxt th.cxt).safe
        · rw [hc, h.safe, hb, ← hc]
          exact hs.guarded v thv hv'
        · exact absurd hc (halone (.inr hb) v thv hvt hv.busy)
      · rw [h.cxt_of_ne hc]
        exact hs.guarded v thv hv'
  raced := hraced

/-- The thread that runs its context goes on or dies. -/
theorem OneThread.moveBusy (hs : OneThread s) (h : Moves s s' t th pc b)
    (hbusy : Thds.Busy s.thd t th) (hpc : ∀ u, pc ≠ .join u)
    (hguard : pc.Evaluates ∨ pc = .dead ∧ Thds.Waited s.thd t → b = false)
    (hraced : s'.raced = false) : OneThread s' := by
  refine hs.move h hbusy.thd hpc (fun _ v thv hne hv hc => ?_) hguard hraced
  exact hne (hs.unique v t thv th (h.busy hpc hv hne) hbusy hc)

/-- A thread terminates outside of a region, or nobody waits for it. -/
theorem OneThread.exit (hs : OneThread s) (h : Moves s s' t th .dead b)
    (ht : s.thd t = some th) (hb : b = (s.cxt th.cxt).safe)
    (hpc : th.pc = .eval ∨ ¬Thds.Waited s.thd t) (hraced : s'.raced = false) :
    OneThread s' := by
  rcases hpc with heval | hnot
  · have hbusy : Thds.Busy s.thd t th := busy_of_pc ht (by simp [heval]) (by simp [heval])
    refine hs.moveBusy h hbusy nofun (fun _ => ?_) hraced
    rw [hb]
    exact hs.guarded t th ⟨ht, .inl (by rw [heval]; trivial)⟩
  · refine hs.move h ht nofun ?_ ?_ hraced
    · rintro (hbusy | hne)
      · exact absurd (h.waited nofun (hbusy.waited rfl)) hnot
      · exact absurd hb hne
    · rintro (heval | ⟨-, hw⟩)
      · exact heval.elim
      · exact absurd hw hnot

theorem OneThread.afterSignal (hs : OneThread s) {kill : Bool} {k : Region}
    (h : Moves s s' t th (afterSignal kill k) b) (hbusy : Thds.Busy s.thd t th)
    (hb : kill = true → b = false) (hraced : s'.raced = false) : OneThread s' := by
  cases kill with
  | true => exact hs.moveBusy h hbusy nofun (fun _ => hb rfl) hraced
  | false =>
      refine hs.moveBusy h hbusy nofun ?_ hraced
      rintro (heval | ⟨hdead, -⟩)
      · exact heval.elim
      · cases hdead

end Move

/-! ## The other steps -/

section Other

variable {s s' : State κ}

theorem OneThread.start (hs : OneThread s) (hborn : Born s) {c : κ}
    (hc : (s.cxt c).base = .added) :
    OneThread ((s.setBase c (.join s.next)).spawn c none) := by
  have hunborn : (s.cxt c).base.Unborn := .inr hc
  have hother : ∀ v, v ≠ s.next →
      ((s.setBase c (.join s.next)).spawn c none).thd v = s.thd v := fun v hv =>
    Function.update_of_ne hv _ _
  have hbase_self :
      (((s.setBase c (.join s.next)).spawn c none).cxt c).base = .join s.next :=
    (spawn_base _ _ _ _).trans (setBase_base_self s c _)
  have hspawned : Spawned s ((s.setBase c (.join s.next)).spawn c none) c none := by
    refine ⟨Function.update_self _ _ _, ?_, ?_, ?_, ?_, rfl, rfl⟩
    · intro v thv hv hthv
      rw [hother v hv] at hthv
      exact ⟨thv, hthv, rfl, rfl, .inl ⟨rfl, nofun⟩⟩
    · intro v th hth
      exact ⟨th, by rw [hother v (hs.lt_next hth).ne, hth], rfl, rfl, .inl ⟨rfl, nofun⟩⟩
    · exact fun c' => (spawn_safe _ _ _ _).trans (setBase_safe s c _ c')
    · intro c'
      by_cases hcc : c' = c
      · subst hcc
        exact .inr ⟨hbase_self, rfl, rfl⟩
      · exact .inl ((spawn_base _ _ _ _).trans (setBase_base_of_ne s _ hcc))
  refine hs.spawned hspawned ?_ (hborn.quiet c hunborn)
  rintro v th hth rfl
  exact absurd hunborn (hborn.unborn v th hth.thd)

theorem OneThread.nest (hs : OneThread s) {t : ℕ} {th : Thd κ} (ht : s.thd t = some th)
    (hpc : th.pc = .eval) :
    OneThread ((s.setThd t { th with pc := .join s.next }).spawn th.cxt (some t)) := by
  have htn : t ≠ s.next := (hs.lt_next ht).ne
  have hself : ((s.setThd t { th with pc := .join s.next }).spawn th.cxt (some t)).thd t =
      some { th with pc := .join s.next } := by
    simp [State.spawn, State.setThd, State.setCxt, htn]
  have hother : ∀ v, v ≠ s.next → v ≠ t →
      ((s.setThd t { th with pc := .join s.next }).spawn th.cxt (some t)).thd v = s.thd v := by
    intro v hv hvt
    simp [State.spawn, State.setThd, State.setCxt, hv, hvt]
  have hbusy : Thds.Busy s.thd t th := busy_of_pc ht (by simp [hpc]) (by simp [hpc])
  have hspawned : Spawned s ((s.setThd t { th with pc := .join s.next }).spawn th.cxt (some t))
      th.cxt (some t) := by
    refine ⟨Function.update_self _ _ _, ?_, ?_, fun c' => spawn_safe _ _ _ _,
      fun c' => .inl (spawn_base _ _ _ _), rfl, rfl⟩
    · intro v thv hv hthv
      by_cases hvt : v = t
      · subst hvt
        rw [hself] at hthv
        cases hthv
        exact ⟨th, ht, rfl, rfl, .inr ⟨rfl, rfl, rfl⟩⟩
      · rw [hother v hv hvt] at hthv
        exact ⟨thv, hthv, rfl, rfl, .inl ⟨rfl, fun h => hvt (Option.some.inj h).symm⟩⟩
    · intro v thv hthv
      by_cases hvt : v = t
      · subst hvt
        obtain rfl : th = thv := Option.some.inj (ht.symm.trans hthv)
        exact ⟨_, hself, rfl, rfl, .inr ⟨rfl, rfl, rfl⟩⟩
      · exact ⟨thv, by rw [hother v (hs.lt_next hthv).ne hvt, hthv], rfl, rfl,
          .inl ⟨rfl, fun h => hvt (Option.some.inj h).symm⟩⟩
  refine hs.spawned hspawned ?_ (hs.guarded t th ⟨ht, .inl (by rw [hpc]; trivial)⟩)
  intro v thv hv hcxt
  rw [hs.unique v t thv th hv hbusy hcxt]

theorem OneThread.join (hs : OneThread s) {t u : ℕ} {th thu : Thd κ} (ht : s.thd t = some th)
    (hpc : th.pc = .join u) (hu : s.thd u = some thu) (hdead : thu.pc = .dead) :
    OneThread ((s.setThd t { th with pc := .eval }).joined th.cxt u) := by
  have hut : u ≠ t := by
    rintro rfl
    obtain rfl : th = thu := Option.some.inj (ht.symm.trans hu)
    rw [hdead] at hpc
    cases hpc
  obtain ⟨thu', hu', hcxt, hparent⟩ := hs.child t th u ht hpc
  obtain rfl : thu = thu' := Option.some.inj (hu.symm.trans hu')
  have hwaited : Thds.Waited s.thd u := ⟨t, th, ht, hpc⟩
  have hm : Moves s (s.setThd t { th with pc := .eval }) t th .eval (s.cxt th.cxt).safe :=
    ⟨rfl, (Function.update_eq_self th.cxt s.cxt).symm, rfl, rfl, rfl, rfl⟩
  have hnot : ¬Thds.Waited (s.setThd t { th with pc := .eval }).thd u := by
    rintro ⟨p, thp, hp, hpu⟩
    have hpt : p ≠ t := by
      rintro rfl
      rw [hm.thd_self hp] at hpu
      cases hpu
    have hp' : s.thd p = some thp := by
      rwa [hm.thd, Function.update_of_ne hpt] at hp
    obtain ⟨thu', hu', -, hparent'⟩ := hs.child p thp u hp' hpu
    obtain rfl : thu = thu' := Option.some.inj (hu.symm.trans hu')
    exact hpt (Option.some.inj (hparent'.symm.trans hparent))
  have hs₁ : OneThread (s.setThd t { th with pc := .eval }) := by
    refine hs.move hm ht nofun (fun _ v thv hvt hv hc => ?_) (fun _ => ?_) hs.raced
    · have hvu := hs.unique v u thv thu (hm.busy nofun hv hvt)
        ⟨hu, by simp [hdead], fun _ => hwaited⟩ (hc.trans hcxt.symm)
      subst hvu
      obtain rfl : thv = thu := by
        have hthd := (hm.busy nofun hv hvt).thd
        exact Option.some.inj (hthd.symm.trans hu)
      exact hnot (hv.waited hdead)
    · rw [← hcxt]
      exact hs.guarded u thu ⟨hu, .inr ⟨hdead, hwaited⟩⟩
  have hu₁ : (s.setThd t { th with pc := .eval }).thd u = some thu := by
    rw [hm.thd, Function.update_of_ne hut, hu]
  refine hs₁.reap hu₁ hnot rfl (fun c => joined_safe _ _ _ c)
    (fun c v h => ?_) rfl rfl
  rw [joined_base _ _ _ c] at h
  refine ⟨h, ?_⟩
  rintro rfl
  obtain ⟨thu', hu', -, hnone⟩ := hs₁.based c v h
  obtain rfl : thu = thu' := Option.some.inj (hu₁.symm.trans hu')
  rw [hparent] at hnone
  cases hnone

theorem OneThread.joinBase (hs : OneThread s) {c : κ} {u : ℕ} {thu : Thd κ}
    (hc : (s.cxt c).base = .join u) (hu : s.thd u = some thu) :
    OneThread ((s.setBase c .returned).joined c u) := by
  obtain ⟨thu', hu', hcxt, hnone⟩ := hs.based c u hc
  obtain rfl : thu = thu' := Option.some.inj (hu.symm.trans hu')
  have hnot : ¬Thds.Waited s.thd u := by
    rintro ⟨p, thp, hp, hpu⟩
    obtain ⟨thu', hu', -, hparent⟩ := hs.child p thp u hp hpu
    obtain rfl : thu = thu' := Option.some.inj (hu.symm.trans hu')
    rw [hparent] at hnone
    cases hnone
  have hbase : ∀ c', (((s.setBase c .returned).joined c u).cxt c').base =
      if c' = c then .returned else (s.cxt c').base := by
    intro c'
    rw [joined_base _ _ _ c']
    split
    · rename_i hcc
      rw [hcc, setBase_base_self]
    · rename_i hcc
      exact setBase_base_of_ne s _ hcc
  refine hs.reap hu hnot rfl
    (fun c' => (joined_safe _ _ _ c').trans (setBase_safe s c _ c')) ?_ rfl rfl
  intro c' v h
  rw [hbase] at h
  split at h
  · cases h
  · refine ⟨h, ?_⟩
    rintro rfl
    obtain ⟨thv, hv, hcv, -⟩ := hs.based c' v h
    obtain rfl : thu = thv := Option.some.inj (hu.symm.trans hv)
    exact absurd (hcv.symm.trans hcxt) (by assumption)

theorem handleSignal_raced (s : State κ) (t : ℕ) (th : Thd κ) (k : Region) :
    (s.handleSignal t th k).raced = s.raced := by
  unfold State.handleSignal
  split <;> rfl

theorem OneThread.notifySafe (hs : OneThread s) {t : ℕ} {th : Thd κ} {k : Region}
    {full cp : Bool} (ht : s.thd t = some th) (hpc : th.pc = .eval)
    (hdies : s.cancel t → s.cancelPoint th.cxt full cp → ¬Thds.Waited s.thd t) :
    OneThread (s.ylmtNotifySafe t th k full cp) := by
  have hbusy : Thds.Busy s.thd t th := busy_of_pc ht (by simp [hpc]) (by simp [hpc])
  have hraced : (s.ylmtNotifySafe t th k full cp).raced = false := by
    have hs₁ : OneThread (s.enterSafe t th k) :=
      hs.moveBusy (enterSafe_moves s t th k) hbusy (by simp) (fun h => by simp [Pc.Evaluates] at h)
        hs.raced
    have h₁ := hs₁.raced_allSafe
    unfold State.ylmtNotifySafe
    dsimp only
    split
    · exact h₁
    · split
      · exact h₁
      · rw [handleSignal_raced]
        exact h₁
  rcases ylmtNotifySafe_moves s t th k full cp with ⟨hc, hcp, h⟩ | ⟨-, -, ⟨-, h⟩ | h⟩
  · refine hs.moveBusy h hbusy (by simp) ?_ hraced
    rintro (heval | ⟨-, hw⟩)
    · exact heval.elim
    · exact absurd hw (hdies hc hcp)
  · refine hs.moveBusy h hbusy (by simp) ?_ hraced
    rintro (heval | ⟨hdead, -⟩)
    · exact heval.elim
    · cases hdead
  · exact hs.afterSignal h hbusy (by simp) hraced

theorem OneThread.kill (hs : OneThread s) {t : ℕ} {th : Thd κ} (c : κ) (cp : Bool)
    (ht : s.thd t = some th) (hpc : th.pc = .eval) : OneThread (s.ylmtKill t th c cp) := by
  have hsend : OneThread (s.sendKill c) := by
    refine hs.frame (sendKill_thd s c) ?_ (sendKill_safe s c) (fun c' u h => ?_) ?_
    · unfold State.sendKill
      split
      · split <;> rfl
      · rfl
    · rwa [sendKill_base] at h
    · unfold State.sendKill
      split
      · split <;> exact hs.raced
      · exact hs.raced
  unfold State.ylmtKill
  split
  · split
    · rw [← sendKill_thd s c] at ht
      exact hsend.exit (exitLocked_moves _ t th) ht rfl (.inl hpc) hsend.raced
    · exact hsend.frame rfl rfl (fun _ => rfl) (fun _ _ h => h) hsend.raced
  · exact hs

theorem OneThread.allSafe (hs : OneThread s) : OneThread s.allSafe := by
  have hraced := hs.raced_allSafe
  unfold State.allSafe at *
  split
  · rw [if_pos (by assumption)] at hraced
    exact hs.frame rfl rfl (fun _ => rfl) (fun _ _ h => h) hraced
  · exact hs

/-- Changes of the list of contexts, with the base thread at a point where it does not
wait. -/
theorem OneThread.setBase (hs : OneThread s) {c : κ} {b : Base} {l : List κ}
    (hjoin : ∀ u, b ≠ .join u) : OneThread { s.setBase c b with cxtl := l } := by
  refine hs.frame rfl rfl (setBase_safe s c b) (fun c' u h => ?_) hs.raced
  by_cases hc : c' = c
  · subst hc
    exact absurd ((setBase_base_self s c' b).symm.trans h) (hjoin u)
  · rwa [← setBase_base_of_ne s b hc]

end Other

end Mthread

end Ylisp
