import Mathlib.Data.List.Basic
import Ylisp.Library.Exec

/-!
# Reading values from a host program

`ylreadv_ptr`, `ylreadv_str`, `ylreadv_bin` and `ylreadv_dbl`, called by any number
of host threads. Each call saves the enable flag of the collector, clears it, reads
a global symbol and restores what it has saved; the flag is shared.

While calls overlap, the first one holds the value from before and the others hold
zero. So the flag stays cleared as long as that first call ends last, and
only then (`readv_disabled_iff`).
-/

namespace Ylisp

namespace Lisp

inductive Aif where
  | sym (s : List UInt8)
  | bin (d : List UInt8)
  | dbl (d : UInt64)
  | other
  deriving DecidableEq

/-- An element: its kind, and its data word. -/
structure Elem where
  aif : Aif
  cd : UInt64
  deriving DecidableEq

/-- The arguments of a call. A pointer that is only checked is given as whether it
is not NULL. -/
inductive Call where
  | ptr (sym : Option (List UInt8)) (out : Bool)
  | str (sym : Option (List UInt8)) (buf : Bool) (bsz : ℕ)
  | bin (sym : Option (List UInt8)) (buf : Bool) (bsz : ℕ)
  | dbl (sym : Option (List UInt8)) (out : Bool)
  deriving DecidableEq

inductive Ylerr where
  | ok | invalidParam
  deriving DecidableEq

inductive Out where
  | none
  | word (w : UInt64)
  | bytes (bs : List UInt8)
  deriving DecidableEq

def Call.checked : Call → Option (List UInt8)
  | .ptr sym out => if out then sym else none
  | .str sym buf bsz => if buf ∧ bsz ≠ 0 then sym else none
  | .bin sym buf bsz => if buf ∧ bsz ≠ 0 then sym else none
  | .dbl sym out => if out then sym else none

def ylreadvPtr (e : Option Elem) : Ylerr × Out :=
  match e with
  | none => (.invalidParam, .none)
  | some e => (.ok, .word e.cd)

def ylreadvStr (bsz : ℕ) (e : Option Elem) : Ylerr × Out :=
  match e.map Elem.aif with
  | some (.sym s) => (.ok, .bytes ((s ++ [0]).take bsz))
  | _ => (.invalidParam, .none)

def ylreadvBin (bsz : ℕ) (e : Option Elem) : Ylerr × Out :=
  match e.map Elem.aif with
  | some (.bin d) => (.ok, .bytes (d.take bsz))
  | _ => (.invalidParam, .none)

def ylreadvDbl (e : Option Elem) : Ylerr × Out :=
  match e.map Elem.aif with
  | some (.dbl d) => (.ok, .word d)
  | _ => (.invalidParam, .none)

/-- The body of a call, between the prologue and the epilogue. -/
def Call.body : Call → Option Elem → Ylerr × Out
  | .ptr _ _, e => ylreadvPtr e
  | .str _ _ bsz, e => ylreadvStr bsz e
  | .bin _ _ bsz, e => ylreadvBin bsz e
  | .dbl _ _, e => ylreadvDbl e

structure Reader (τ : Type) where
  thd : τ
  call : Call
  sv : Int
  ret : Option (Ylerr × Out)

structure State (τ : Type) where
  gcEnabled : Int
  gsym : List UInt8 → Option Elem
  /-- The calls in progress, in the order in which they started. -/
  readers : List (Reader τ)
  returned : List (τ × Ylerr × Out)

def ylmpGcEnable {τ : Type} (v : Int) (s : State τ) : Int × State τ :=
  (s.gcEnabled, { s with gcEnabled := v })

/-- The steps of a thread: it calls, reads and leaves. `write` is any change of the
global symbols by the interpreter. -/
inductive Event (τ : Type) where
  | call (t : τ) (c : Call)
  | read (t : τ)
  | leave (t : τ)
  | write (gsym : List UInt8 → Option Elem)

section Step

variable {τ : Type} [DecidableEq τ]

/-- The body of a call of thread `t` that has not run it yet. -/
def Reader.run (gsym : List UInt8 → Option Elem) (t : τ) (r : Reader τ) : Reader τ :=
  if r.thd = t then
    { r with ret := some (r.call.body (r.call.checked.bind gsym)) }
  else r

/-- One step of a thread; `none` when the thread cannot take it. -/
def step (s : State τ) : Event τ → Option (State τ)
  | .call t c =>
      if s.readers.any fun r => r.thd = t then none
      else
        match c.checked with
        | none => some { s with returned := s.returned ++ [(t, .invalidParam, .none)] }
        | some _ =>
            let (sv, s) := ylmpGcEnable 0 s
            some { s with readers := s.readers ++ [⟨t, c, sv, none⟩] }
  | .read t => some { s with readers := s.readers.map (Reader.run s.gsym t) }
  | .leave t => do
      let r ← s.readers.find? fun r => r.thd = t
      let ret ← r.ret
      let (_, s) := ylmpGcEnable r.sv s
      some
        { s with
          readers := s.readers.eraseP fun r => r.thd = t
          returned := s.returned ++ [(t, ret)] }
  | .write gsym => some { s with gsym := gsym }

def Step (s : State τ) (e : Event τ) (s' : State τ) : Prop := step s e = some s'

theorem step_leave {s s' : State τ} {t : τ} (h : Step s (.leave t) s') :
    ∃ r, s.readers.find? (fun r => r.thd = t) = some r ∧ s'.gcEnabled = r.sv ∧
      s'.readers = s.readers.eraseP fun r => r.thd = t := by
  simp only [Step, step, Option.bind_eq_bind, Option.bind_eq_some_iff] at h
  obtain ⟨r, hr, ret, -, h⟩ := h
  cases h
  exact ⟨r, hr, rfl, rfl⟩

/-- What a host program relies on: the collector is off during the calls, and its
flag is `v`, the value from before, when no call is in progress. -/
def Disabled (v : Int) (s : State τ) : Prop :=
  (s.readers ≠ [] → s.gcEnabled = 0) ∧ (s.readers = [] → s.gcEnabled = v)

/-- The call that has been in progress longest does not end while there are
others. -/
def FirstOutLast (s : State τ) : Event τ → Prop
  | .leave t => ∀ r rs, s.readers = r :: rs → r.thd = t → rs = []
  | _ => True

def start (v : Int) (gsym : List UInt8 → Option Elem) : State τ := ⟨v, gsym, [], []⟩

def Saved (v : Int) (s : State τ) : Prop :=
  match s.readers with
  | [] => s.gcEnabled = v
  | r :: rs => r.sv = v ∧ (∀ x ∈ rs, x.sv = 0) ∧ s.gcEnabled = 0

omit [DecidableEq τ] in
theorem Saved.disabled {v : Int} {s : State τ} (h : Saved v s) : Disabled v s := by
  unfold Saved at h
  cases hr : s.readers with
  | nil =>
      rw [hr] at h
      exact ⟨fun hne => absurd hr hne, fun _ => h⟩
  | cons r rs =>
      rw [hr] at h
      exact ⟨fun _ => h.2.2, fun hnil => by rw [hr] at hnil; cases hnil⟩

theorem Reader.run_sv (gsym : List UInt8 → Option Elem) (t : τ) (r : Reader τ) :
    (r.run gsym t).sv = r.sv := by
  unfold Reader.run
  split <;> rfl

/-- One step, when the first call in does not go out before the others, or when
the flag was cleared anyway. -/
theorem saved_step {v : Int} (s : State τ) (e : Event τ) (s' : State τ) (h : Saved v s)
    (hQ : v = 0 ∨ FirstOutLast s e) (hstep : Step s e s') : Saved v s' := by
  cases e with
  | write gsym =>
      cases hstep
      exact h
  | call t c =>
      simp only [Step, step] at hstep
      split at hstep
      · cases hstep
      · split at hstep
        · cases hstep
          exact h
        · cases hstep
          unfold Saved at *
          cases hr : s.readers with
          | nil =>
              rw [hr] at h
              simp [ylmpGcEnable, hr, h]
          | cons r rs =>
              rw [hr] at h
              obtain ⟨h1, h2, h3⟩ := h
              simp only [ylmpGcEnable, hr, List.cons_append]
              refine ⟨h1, fun x hx => ?_, trivial⟩
              rcases List.mem_append.1 hx with hx | hx
              · exact h2 x hx
              · rw [List.mem_singleton.1 hx]
                exact h3
  | read t =>
      cases hstep
      unfold Saved at *
      cases hr : s.readers with
      | nil =>
          rw [hr] at h
          exact h
      | cons r rs =>
          rw [hr] at h
          refine ⟨(Reader.run_sv _ _ r).trans h.1, fun x hx => ?_, h.2.2⟩
          obtain ⟨y, hy, rfl⟩ := List.mem_map.1 hx
          exact (Reader.run_sv _ _ y).trans (h.2.1 y hy)
  | leave t =>
      obtain ⟨r, hfind, hflag, hreaders⟩ := step_leave hstep
      unfold Saved at *
      rw [hflag, hreaders]
      cases hr : s.readers with
      | nil =>
          rw [hr] at hfind
          cases hfind
      | cons r₀ rs =>
          rw [hr] at h hfind
          obtain ⟨h1, h2, h3⟩ := h
          by_cases ht : r₀.thd = t
          · rw [List.find?_cons_of_pos (by simpa using ht)] at hfind
            have hrr : r₀ = r := Option.some.inj hfind
            subst hrr
            rw [List.eraseP_cons_of_pos (by simpa using ht)]
            cases rs with
            | nil => exact h1
            | cons r₁ rs =>
                rcases hQ with rfl | hQ
                · exact ⟨h2 r₁ List.mem_cons_self,
                    fun x hx => h2 x (List.mem_cons_of_mem _ hx), h1⟩
                · exact absurd (hQ r₀ (r₁ :: rs) hr ht) (by simp)
          · rw [List.find?_cons_of_neg (by simpa using ht)] at hfind
            rw [List.eraseP_cons_of_neg (by simpa using ht)]
            exact ⟨h1, fun x hx => h2 x (List.mem_of_mem_eraseP hx),
              h2 r (List.mem_of_find?_eq_some hfind)⟩

/-- When the first call goes out before the others, it restores the flag under
them. -/
theorem firstOutLast_of_disabled {v : Int} (hv : v ≠ 0) (s : State τ) (e : Event τ)
    (s' : State τ) (h : Saved v s) (hstep : Step s e s') (h' : Disabled v s') :
    FirstOutLast s e := by
  cases e with
  | leave t =>
      intro r₀ rs hr ht
      obtain ⟨r, hfind, hflag, hreaders⟩ := step_leave hstep
      unfold Saved at h
      rw [hr] at h hfind hreaders
      rw [List.find?_cons_of_pos (by simpa using ht)] at hfind
      rw [List.eraseP_cons_of_pos (by simpa using ht)] at hreaders
      have hrr : r₀ = r := Option.some.inj hfind
      subst hrr
      by_contra hne
      have hoff := h'.1 (by rwa [hreaders])
      exact hv (h.1.symm.trans (hflag.symm.trans hoff))
  | _ => trivial

/-- The collector is off during every call, and the flag is as before after the
calls, exactly if it was off before or no call that has been in progress longest
ends while there are others. -/
theorem readv_disabled_iff (v : Int) (gsym : List UInt8 → Option Elem)
    (tr : List (Event τ × State τ)) (hrun : Exec.Run Step (start v gsym) tr) :
    Exec.AllStates (Disabled v) (start v gsym) tr ↔
      v = 0 ∨ Exec.AllSteps FirstOutLast (start v gsym) tr := by
  have hstart : Saved v (start v gsym : State τ) := rfl
  by_cases hv : v = 0
  · have hall : Exec.AllSteps (fun _ _ => True) (start v gsym) tr := by
      clear hrun hstart
      generalize start v gsym = s
      induction tr generalizing s with
      | nil => trivial
      | cons x tr ih => exact ⟨trivial, ih x.2⟩
    have h := hrun.allStates (fun s e s' hs _ hstep => saved_step s e s' hs (Or.inl hv) hstep)
      hall hstart
    exact iff_of_true (h.mono fun s hs => hs.disabled) (Or.inl hv)
  · rw [or_iff_right hv]
    exact hrun.allStates_iff
      (fun s e s' hs hQ hstep => saved_step s e s' hs (Or.inr hQ) hstep)
      (fun s hs => hs.disabled) (firstOutLast_of_disabled hv) hstart

/-- Two calls that overlap, the second one ending first. -/
theorem readv_disabled_iff_nested :
    let c := Call.ptr (some [97]) true
    let no : Ylerr × Out := (.invalidParam, .none)
    let s₁ : State Bool := ⟨0, fun _ => none, [⟨false, c, 1, none⟩], []⟩
    let s₂ : State Bool := { s₁ with readers := [⟨false, c, 1, none⟩, ⟨true, c, 0, none⟩] }
    let s₃ : State Bool := { s₁ with readers := [⟨false, c, 1, none⟩, ⟨true, c, 0, some no⟩] }
    let s₄ : State Bool := { s₁ with returned := [(true, no)] }
    let tr := [(.call false c, s₁), (.call true c, s₂), (.read true, s₃), (.leave true, s₄)]
    Exec.AllStates (Disabled 1) (start 1 fun _ => none) tr ↔
      (1 : Int) = 0 ∨ Exec.AllSteps FirstOutLast (start 1 fun _ => none) tr :=
  readv_disabled_iff 1 _ _ <|
    .cons (by rfl) <| .cons (by rfl) <| .cons (by rfl) <| .cons (by rfl) (.nil _)

/-- Two calls that overlap, the first one ending first: the collector is on while
the second one is in progress. -/
theorem readv_not_disabled :
    ¬ ∀ (v : Int) (gsym : List UInt8 → Option Elem) (tr : List (Event Bool × State Bool)),
      Exec.Run Step (start v gsym) tr → Exec.AllStates (Disabled v) (start v gsym) tr := by
  intro h
  let c := Call.ptr (some [97]) true
  let no : Ylerr × Out := (.invalidParam, .none)
  let s₁ : State Bool := ⟨0, fun _ => none, [⟨false, c, 1, none⟩], []⟩
  let s₂ : State Bool := { s₁ with readers := [⟨false, c, 1, none⟩, ⟨true, c, 0, none⟩] }
  let s₃ : State Bool := { s₁ with readers := [⟨false, c, 1, some no⟩, ⟨true, c, 0, none⟩] }
  let s₄ : State Bool := ⟨1, fun _ => none, [⟨true, c, 0, none⟩], [(false, no)]⟩
  have hrun : Exec.Run Step (start 1 fun _ => none)
      [(.call false c, s₁), (.call true c, s₂), (.read false, s₃), (.leave false, s₄)] :=
    .cons (by rfl) <| .cons (by rfl) <| .cons (by rfl) <| .cons (by rfl) (.nil _)
  have hall := h 1 (fun _ => none) _ hrun
  have hoff := (hall.2 (.leave false, s₄) (by simp)).1 (by simp [s₄])
  cases hoff

end Step

end Lisp

end Ylisp
