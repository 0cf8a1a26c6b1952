import Ylisp.Eval.Number
import Ylisp.Lang.Adds
import Ylisp.Library.Must

/-!
# How a value is delivered

`Delivers` is the total correctness of an evaluation, with any number of collections at each of
its safe points: every run hands the value over to the frame below, without touching the frames
that wait. The rules of this file are about the steps: what is executed is run (`comes_run`), a
function is given the value that it waits for (`comes_resume`), a native function returns
(`delivers_native`), and `yleval` is entered and left (`delivers_eval`).
-/

namespace Ylisp

namespace Lang

open Mempool Eval Effect Machine

variable {n : ℕ}

def Collects (c : Etcxt n) (s t : State n) : Prop := Exact c s .collect t

/-- A step of the evaluator or of a native function. -/
def Proceeds (c : Etcxt n) (s t : State n) : Prop :=
  ∃ ev, ev ≠ .collect ∧ ev ≠ .kill ∧ Exact c s ev t

abbrev Comes (c : Etcxt n) (Q : State n → Prop) : State n → Prop :=
  Must (Collects c) (Proceeds c) Kept Q

/-- A value that denotes `t` is handed over to what waited in `s`. -/
structure Delivered (names : Set (List UInt8)) (s u : State n) (t : Tree n) (d : ℕ) : Prop where
  kept : Kept u
  frames : u.frames = s.frames
  evalstk : u.evalstk = s.evalstk
  preserves : Preserves s.pool u.pool d
  kinds : KindsOk names u.pool
  ret : ∃ v, u.ctl = .ret v ∧ Denotes u.pool v t

def Delivers (c : Etcxt n) (names : Set (List UInt8)) (s : State n) (t : Tree n) (d : ℕ) : Prop :=
  Comes c (fun u => Delivered names s u t d) s

def Own : Ctl n → Prop
  | .call f _ _ => (∀ j, f ≠ .other j) ∧
      ∀ (c : Etcxt n) (k : ℕ) (e a : Ref n), writeOf c k f e a = pure none
  | .safe | .parse | .files _ | .exit _ | .done _ => False
  | _ => True

section Step

variable {c : Etcxt n} {s z t : State n} {Q : State n → Prop} {ctl : Ctl n}

theorem keepsPending_of_own (hctl : s.ctl = ctl) (hown : Own ctl) : KeepsPending c s .tick := by
  intro f e a hctl' k w q hw
  rw [← hctl, hctl'] at hown
  rw [hown.2] at hw
  cases hw

theorem not_collects (h : s.ctl ≠ .safe) : ¬ Collects c s t := by
  rintro (h' | _)
  cases h' with
  | collect hctl => exact h hctl

theorem tick_of_own (hctl : s.ctl = ctl) (hown : Own ctl ∨ ctl = .safe) (hstep : Proceeds c s t) :
    ∃ k erange, s.next c k erange = some t := by
  have hcall : ∀ {j e a}, s.ctl ≠ .call (.other j) e a := by
    rintro j e a hctl'
    rcases hown with hown | hown <;> rw [← hctl, hctl'] at hown
    · exact hown.1 j rfl
    · cases hown
  have hno : ∀ {ctl'}, ¬ Own ctl' → ctl' ≠ .safe → s.ctl ≠ ctl' := by
    rintro _ hno hsafe rfl
    rw [hctl] at hno hsafe
    exact hown.elim hno hsafe
  obtain ⟨ev, hcollect, hkill, hexact⟩ := hstep
  cases hexact with
  | step hstep _ =>
      cases hstep with
      | tick k erange h => exact ⟨k, erange, h⟩
      | form hctl => exact absurd hctl (hno id nofun)
      | eof _ hctl => exact absurd hctl (hno id nofun)
      | collect => exact absurd rfl hcollect
      | kill => exact absurd rfl hkill
      | native hctl => exact absurd hctl hcall
      | nativeFail _ hctl => exact absurd hctl hcall
      | openFail hctl => exact absurd hctl (hno id nofun)
  | ret hctl => exact absurd hctl hcall
  | fail hctl => exact absurd hctl hcall

theorem proceeds_tick {k : ℕ} {erange : Bool} (h : s.next c k erange = some t) :
    Proceeds c s t := ⟨.tick, nofun, nofun, exact_tick h⟩

/-- The next step of the evaluator is known, whatever `errno` is. -/
theorem comes_next (hs : Kept s) (hctl : s.ctl = ctl) (hown : Own ctl)
    (hnext : ∀ erange, ∃ k t, s.next c k erange = some t ∧ (Kept t → Comes c Q t)) :
    Comes c Q s := by
  refine .of_step hs (fun t => not_collects fun h => ?_) ?_ fun t hstep => ?_
  · rw [← hctl, h] at hown
    exact hown
  · obtain ⟨k, t, ht, -⟩ := hnext false
    exact ⟨t, proceeds_tick ht⟩
  · obtain ⟨k, erange, ht⟩ := tick_of_own hctl (Or.inl hown) hstep
    obtain ⟨k', t', ht', hcomes⟩ := hnext erange
    rw [State.next_unique ht ht']
    exact hcomes (kept_exact hs (keepsPending_of_own hctl hown) (exact_tick ht'))

def going (s : State n) (g : Go n) (q : Pool n) : State n :=
  { s.load q with ctl := g.ctl }.pushWaits g.push

theorem comes_run {x : ℕ → Bool → Hp n (Go n)} (hs : Kept s) (hctl : s.ctl = ctl) (hown : Own ctl)
    (hnext : ∀ k erange, s.next c k erange = z.run (x k erange))
    (hruns : ∀ erange, ∃ k, Runs (x k erange) z.pool fun g q =>
      Kept (going z g q) → Comes c Q (going z g q)) : Comes c Q s := by
  refine comes_next hs hctl hown fun erange => ?_
  obtain ⟨k, g, q, hx, hcomes⟩ := hruns erange
  refine ⟨k, going z g q, ?_, hcomes⟩
  rw [hnext, State.run, hx]
  rfl

end Step

section Frame

variable {c : Etcxt n} {names : Set (List UInt8)} {s u : State n} {t : Tree n} {d d' : ℕ}
  {v e a : Ref n} {w : Wait n} {ctl : Ctl n} {Q : State n → Prop}

theorem load_eq {q : Pool n} (hq : q.bbs = s.pool.bbs) : s.load q = { s with pool := q } := by
  rw [State.load, ← hq]

theorem going_go {q : Pool n} (hq : q.bbs = s.pool.bbs) :
    going s ⟨[], ctl⟩ q = { s with pool := q, ctl := ctl } := by
  show ({ s.load q with ctl := ctl } : State n) = _
  rw [load_eq hq]

theorem Delivers.after (h : Delivers c names u t d') (hframes : u.frames = s.frames)
    (hstk : u.evalstk = s.evalstk) (hp : Preserves s.pool u.pool d) :
    Comes c (fun u => Delivered names s u t (d + d')) u :=
  h.mono (fun _ => id) fun _ hu => ⟨hu.kept, hu.frames.trans hframes, hu.evalstk.trans hstk,
    hp.trans hu.preserves, hu.kinds, hu.ret⟩

/-- The value is at hand again where the state was `s`. The base blocks `bs` of the function that
has waited denote what they did. -/
structure Back (names : Set (List UInt8)) (bs : List (Ref n)) (s u : State n) (v : Ref n)
    (t : Tree n) (d : ℕ) : Prop where
  good : u.pool.Good
  frames : u.frames = s.frames
  evalstk : u.evalstk = s.evalstk
  preserves : Preserves s.pool u.pool d
  kinds : KindsOk names u.pool
  denotes : Denotes u.pool v t
  held : ∀ r ∈ bs, ∀ t', Denotes s.pool r t' → Denotes u.pool r t'

theorem reverse_append_diff (es l : List (Ref n)) : (es.reverse ++ l).diff es = l := by
  rw [← (List.reverse_perm es).diff_left]
  induction es.reverse with
  | nil => rfl
  | cons x xs ih => rw [List.cons_append, List.diff_cons, List.erase_cons_head, ih]

/-- The base blocks that a frame has registered are removed again. -/
theorem preserves_pop {p q : Pool n} {es : List (Ref n)}
    (h : Preserves { p with bbs := es.reverse ++ p.bbs } q d) :
    Preserves p { q with bbs := q.bbs.diff es } d := by
  refine h.frame ?_
  rw [h.bbs]
  exact reverse_append_diff es p.bbs

theorem Denotes.bbs {p : Pool n} {l : List (Ref n)} (h : Denotes p v t) :
    Denotes { p with bbs := l } v t :=
  h.transfer (S := fun _ => True) trivial (fun _ _ _ _ => trivial) fun _ _ => ⟨fun _ => rfl, id⟩

theorem Delivered.back {f : Frame n} {s' : State n} (hp : s.pool.Good)
    (h : Delivered names s' u t d) (hstk : s'.evalstk = s.evalstk)
    (hpool : s'.pool = { s.pool with bbs := f.bb.reverse ++ s.pool.bbs }) :
    ∃ v, u.ctl = .ret v ∧ Back names f.bb s (u.pop f s.frames) v t d := by
  obtain ⟨v, hctl, hv⟩ := h.ret
  have hpres := h.preserves
  rw [hpool] at hpres
  refine ⟨v, hctl, ?_⟩
  rw [pop_eq]
  refine ⟨good_bbs h.kept.good, rfl, h.evalstk.trans hstk, preserves_pop hpres, h.kinds, hv.bbs,
    fun r hr t' ht' => ?_⟩
  have hsafe : Safe { s.pool with bbs := f.bb.reverse ++ s.pool.bbs } r :=
    .of_held (.of_mem (List.mem_append_left _ (List.mem_reverse.2 hr)) (ht'.valid hp.wf))
      fun _ h => h
  exact (ht'.bbs.preserved hsafe hpres).bbs

def waiting (s : State n) (w : Wait n) (ctl : Ctl n) : State n :=
  { s with ctl := ctl }.push (.wait w)

theorem going_enter {q : Pool n} (hq : q.bbs = s.pool.bbs) :
    going s ⟨[w], ctl⟩ q = waiting { s with pool := q } w ctl := by
  show waiting (s.load q) w ctl = _
  rw [load_eq hq]

/-- A function is given the value that it waits for. -/
theorem comes_wait (hp : s.pool.Good) (h : Delivers c names (waiting s w ctl) t d)
    (hback : ∀ u v, Back names w.bb s u v t d →
      ∃ k, Runs (w.resume c k v) (u.pushWaits (w.next v)).pool fun g q =>
        Kept (going (u.pushWaits (w.next v)) g q) →
          Comes c Q (going (u.pushWaits (w.next v)) g q)) :
    Comes c Q (waiting s w ctl) := by
  refine h.bind fun u hu => ?_
  obtain ⟨v, hctl, hv⟩ := hu.back (f := .wait w) hp rfl (foldl_ylmpAddBb w.bb s.pool)
  refine comes_run (z := (u.pop (.wait w) s.frames).pushWaits (w.next v))
    (x := fun k _ => w.resume c k v) hu.kept hctl trivial ?_ fun _ => hback _ v hv
  intro k erange
  rw [State.next, hctl]
  show u.ret c k v = _
  rw [State.ret, show u.frames = .wait w :: s.frames from hu.frames]

theorem kindsOk_gc {p : Pool n} (hp : p.Wf) (hk : KindsOk names p) : KindsOk names (gc p) := by
  intro r nm hr ho hnm
  cases r with
  | stat s =>
      show (gc p).statSt s ≠ symMac
      rw [gc_statSt]
      exact hk (.stat s) nm trivial ho hnm
  | blk b =>
      show ((gc p).blk b).st ≠ symMac
      rw [gc_st hp hr]
      refine hk (.blk b) nm ((gc_used_iff hp b).1 hr).1 ?_ hnm
      rcases gc_kept hp hr with heq | ⟨fd, -, heq⟩
      · exact heq.symm.trans ho
      · rw [show (gc p).obj (.blk b) = _ from heq] at ho
        cases ho

theorem collected (hs : Kept s) (hk : KindsOk names s.pool)
    (h : Relation.ReflTransGen (Collects c) s u) :
    ∃ q, u = { s with pool := q } ∧ Kept u ∧ KindsOk names q ∧ Preserves s.pool q 0 := by
  induction h with
  | refl => exact ⟨s.pool, rfl, hs, hk, .refl hs.good⟩
  | @tail u u' _ hstep ih =>
      obtain ⟨q, rfl, hkept, hkinds, hq⟩ := ih
      have hkept' := @kept_exact _ _ _ _ .collect hkept trivial hstep
      rcases hstep with ⟨hstep, -⟩
      cases hstep with
      | collect =>
          exact ⟨_, rfl, hkept', kindsOk_gc hkept.good.wf hkinds, hq.trans (.gc hkept.good)⟩

theorem comes_safe {bs : List (Ref n)} (hs : Kept (State.push { u with ctl := .safe } (.safe v)))
    (hu : Back names bs s u v t d) :
    Comes c (fun u => Delivered names s u t d) (State.push { u with ctl := .safe } (.safe v)) := by
  -- the step of the evaluator after the collections
  have hnext : ∀ q k erange,
      State.next c k erange ⟨q, u.evalstk, .safe v :: u.frames, .safe⟩ =
        some { s with pool := { q with bbs := q.bbs.diff [v] }, ctl := .ret v } := by
    intro q k erange
    show some { State.pop _ (.safe v) u.frames with ctl := .ret v } = _
    rw [pop_eq, hu.frames]
    show some (State.mk _ u.evalstk _ _) = _
    rw [hu.evalstk]
    rfl
  refine .next hs (fun s' hs' => ?_) fun s' t' hs' hstep => .here ?_
  · obtain ⟨q, rfl, -⟩ := collected hs hu.kinds hs'
    exact ⟨_, proceeds_tick (hnext q 0 false)⟩
  · obtain ⟨q, rfl, hkept, hkinds, hq⟩ := collected hs hu.kinds hs'
    obtain ⟨k, erange, ht⟩ := tick_of_own rfl (Or.inr rfl) hstep
    cases (hnext q k erange).symm.trans ht
    have hkept' := @kept_exact _ _ _ _ .tick hkept nofun (exact_tick (hnext q k erange))
    have hv : Denotes (State.push { u with ctl := .safe } (.safe v)).pool v t := hu.denotes.bbs
    have hsafe : Safe (State.push { u with ctl := .safe } (.safe v)).pool v :=
      .of_held (.of_mem List.mem_cons_self (hv.valid hs.good.wf)) fun _ h => h
    have hpop : Preserves u.pool { q with bbs := q.bbs.diff [v] } 0 :=
      preserves_pop hq
    exact ⟨hkept', rfl, rfl, hu.preserves.trans hpop, hkinds, v, rfl, (hv.preserved hsafe hq).bbs⟩

theorem comes_leave (hp : s.pool.Good) (h : Delivered names (s.entered e a) u t d) :
    Comes c (fun u => Delivered names s u t d) u := by
  obtain ⟨v, hctl, hv⟩ := h.back (f := .yleval e a s.evalstk)
    (s := { s with evalstk := e :: s.evalstk }) hp rfl (foldl_ylmpAddBb [e, a] s.pool)
  refine comes_next h.kept hctl trivial fun erange => ⟨0, State.push
    { u.pop (.yleval e a s.evalstk) s.frames with evalstk := u.evalstk.tail, ctl := .safe }
      (.safe v), ?_, fun hkept => ?_⟩
  · rw [State.next, hctl]
    show u.ret c 0 v = _
    rw [State.ret, show u.frames = .yleval e a s.evalstk :: s.frames from h.frames]
  · have htail : u.evalstk.tail = s.evalstk := by
      rw [show u.evalstk = e :: s.evalstk from h.evalstk]
      rfl
    have hback : Back names [e, a] s
        { u.pop (.yleval e a s.evalstk) s.frames with evalstk := u.evalstk.tail } v t d :=
      ⟨hv.good, hv.frames, htail, hv.preserves, hv.kinds, hv.denotes, hv.held⟩
    exact comes_safe hkept hback

theorem delivers_eval (hs : Kept s) (hctl : s.ctl = .eval e a)
    (hruns : ∀ erange, ∃ k, Runs (evalForm c erange k e a) (s.entered e a).pool fun g q =>
      Kept (going (s.entered e a) g q) → Comes c (fun u => Delivered names (s.entered e a) u t d)
        (going (s.entered e a) g q)) : Delivers c names s t d := by
  refine (comes_run (x := fun k erange => evalForm c erange k e a) hs hctl trivial
    (fun k erange => ?_) hruns).bind fun u hu => comes_leave hs.good hu
  rw [State.next, hctl]
  rfl

theorem same_call {f f' : Nfunc} {e' a' : Ref n} (h : s.ctl = .call (.other f.code) e a)
    (h' : s.ctl = .call (.other f'.code) e' a') : f' = f ∧ e' = e := by
  rw [h] at h'
  injection h' with hf he
  have hcode := Nfunc.ofCode_code f'
  rw [← Fn.other.inj hf, Nfunc.ofCode_code] at hcode
  exact ⟨(Option.some.inj hcode).symm, he.symm⟩

theorem delivers_native {f : Nfunc} {k : ℕ} {q : Pool n} (hs : Kept s)
    (hctl : s.ctl = .call (.other f.code) e a) (hcall : f.call c k e s.pool = .ok v q)
    (hq : Preserves s.pool q d) (hk : KindsOk names q) (hv : Denotes q v t) :
    Delivers c names s t d := by
  have hload := load_eq (s := s) hq.bbs
  have hexact : Exact c s .native { s with pool := q, ctl := .ret v } := by
    have h := Exact.ret hctl hcall
    rwa [hload] at h
  have hkept := @kept_exact _ _ _ _ .native hs trivial hexact
  refine .of_step hs (fun t => not_collects ?_) ⟨_, .native, nofun, nofun, hexact⟩
    fun t' hstep => .here ?_
  · rw [hctl]
    nofun
  · suffices ht' : t' = { s with pool := q, ctl := .ret v } by
      rw [ht']
      exact ⟨hkept, rfl, rfl, hq, hk, v, rfl, hv⟩
    obtain ⟨ev, hcollect, hkill, hexact'⟩ := hstep
    cases hexact' with
    | step hstep hother =>
        rcases hother _ _ _ hctl with h | h
        · rw [Nfunc.ofCode_code] at h
          cases h
        · exact absurd h hkill
    | @ret f' k' _ _ v' q' hctl' hcall' =>
        obtain ⟨rfl, rfl⟩ := same_call hctl hctl'
        obtain ⟨rfl, rfl⟩ := (steady_call c _ _).unique hcall hcall'
        rw [hload]
    | @fail f' k' _ _ r q' hctl' hcall' =>
        obtain ⟨rfl, rfl⟩ := same_call hctl hctl'
        cases (steady_call c _ _).bad_of_error hcall hcall'

end Frame

end Lang

end Ylisp
