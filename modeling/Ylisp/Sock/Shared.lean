import Mathlib.Data.List.Basic
import Mathlib.Logic.Function.Basic
import Ylisp.Library.Exec
import Ylisp.Sock.Basic

/-!
# Threads that share a socket

Each thread of the daemon sends its buffers by `sock_send`, and the calls of
`send` interleave. `intact_of_alone` says when the stream is made of the frames
of all threads.
-/

namespace Ylisp

namespace Sock

open Framing

variable {ι : Type*}

theorem wireOf_concat (l : List (ι × Buf)) (t : ι) (b : Buf) :
    wireOf ((l ++ [(t, b)]).map Prod.snd) =
      wireOf (l.map Prod.snd) ++ (htonl b.val.length ++ b.val) := by
  rw [wireOf, List.map_append, List.map_append, List.map_singleton, List.map_singleton,
    frames_concat]
  rfl

variable [DecidableEq ι]

/-- The socket and the threads that send: the bytes on the wire, the buffers that each thread has
not sent yet, and where its call of `sock_send` stands. -/
structure Link (ι : Type*) where
  wire : List UInt8
  todo : ι → List Buf
  pos : ι → Pos

def Link.start (bufs : ι → List Buf) : Link ι := ⟨[], bufs, fun _ => .size⟩

/-- The next `send` of the thread `t`, which takes up to `k` bytes. -/
def Link.step (s : Link ι) (t : ι) (k : ℕ) : Option (Link ι) :=
  match s.todo t with
  | [] => none
  | b :: bs =>
      match sendStep b k (s.pos t) with
      | (d, some pos) => some ⟨s.wire ++ d, s.todo, Function.update s.pos t pos⟩
      | (d, none) =>
          some ⟨s.wire ++ d, Function.update s.todo t bs, Function.update s.pos t .size⟩

/-- The steps of the threads, labelled with the thread and the bytes that are taken at most. -/
def Step (s : Link ι) (e : ι × ℕ) (s' : Link ι) : Prop := s.step e.1 e.2 = some s'

def ofThread (t : ι) (l : List (ι × Buf)) : List Buf := (l.filter fun x => x.1 = t).map Prod.snd

/-- Whenever no thread is inside `sock_send`, the stream decodes into the buffers that have been
sent, in an order that keeps the order of each thread. -/
def Intact (bufs : ι → List Buf) (s : Link ι) : Prop :=
  (∀ t, s.pos t = .size) → ∃ l : List (ι × Buf),
    (∀ t, ofThread t l ++ s.todo t = bufs t) ∧
      decode protocol s.wire = some (l.map fun x => x.2.val)

/-- A thread starts a frame while no other thread is inside one, and the size is taken in one
piece. -/
def Alone (s : Link ι) (e : ι × ℕ) : Prop := s.pos e.1 = .size → (∀ t, s.pos t = .size) ∧ 4 ≤ e.2

/-- The frames of `l` are on the wire, and the part of another one that a thread is sending. -/
inductive Framed (l : List (ι × Buf)) (s : Link ι) : Prop
  | idle (hpos : ∀ t, s.pos t = .size) (hwire : s.wire = wireOf (l.map Prod.snd))
  | busy {t : ι} {b : Buf} {bs : List Buf} {k : ℕ} (htodo : s.todo t = b :: bs)
      (hpos : s.pos = Function.update (fun _ => .size) t (.data k)) (hk : k < b.val.length)
      (hwire : s.wire = wireOf (l.map Prod.snd) ++ (htonl b.val.length ++ b.val.take k))

def Inv (bufs : ι → List Buf) (s : Link ι) : Prop :=
  ∃ l, (∀ t, ofThread t l ++ s.todo t = bufs t) ∧ Framed l s

theorem ofThread_concat_self (t : ι) (b : Buf) (l : List (ι × Buf)) :
    ofThread t (l ++ [(t, b)]) = ofThread t l ++ [b] := by
  simp [ofThread]

theorem ofThread_concat_of_ne {t t' : ι} (h : t ≠ t') (b : Buf) (l : List (ι × Buf)) :
    ofThread t' (l ++ [(t, b)]) = ofThread t' l := by
  simp [ofThread, h]

/-- A thread that has sent its buffer moves it to the end of the list. -/
theorem ofThread_done {bufs todo : ι → List Buf} {l : List (ι × Buf)}
    (hl : ∀ t, ofThread t l ++ todo t = bufs t) {t : ι} {b : Buf} {bs : List Buf}
    (htodo : todo t = b :: bs) (t' : ι) :
    ofThread t' (l ++ [(t, b)]) ++ Function.update todo t bs t' = bufs t' := by
  by_cases h : t = t'
  · subst h
    rw [ofThread_concat_self, Function.update_self, ← hl t, htodo, List.append_assoc,
      List.singleton_append]
  · rw [ofThread_concat_of_ne h, Function.update_of_ne (Ne.symm h), hl t']

/-- What is sent of the data is a longer beginning of it. -/
theorem take_append_send (k bs : ℕ) (d : List UInt8) :
    d.take bs ++ send k (d.drop bs) = d.take (bs + (send k (d.drop bs)).length) := by
  rw [List.take_add, send, List.length_take, ← List.take_eq_take_min]

theorem step_cases {s s' : Link ι} {t : ι} {k : ℕ} (h : Step s (t, k) s') :
    ∃ b bs, s.todo t = b :: bs ∧
      ((∃ pos, (sendStep b k (s.pos t)).2 = some pos ∧ s' = ⟨s.wire ++ (sendStep b k (s.pos t)).1,
          s.todo, Function.update s.pos t pos⟩) ∨
        ((sendStep b k (s.pos t)).2 = none ∧ s' = ⟨s.wire ++ (sendStep b k (s.pos t)).1,
          Function.update s.todo t bs, Function.update s.pos t .size⟩)) := by
  rw [Step, Link.step] at h
  dsimp only at h
  cases htodo : s.todo t with
  | nil =>
      rw [htodo] at h
      cases h
  | cons b bs =>
      rw [htodo] at h
      dsimp only at h
      refine ⟨b, bs, rfl, ?_⟩
      revert h
      generalize sendStep b k (s.pos t) = r
      obtain ⟨d, pos⟩ := r
      intro h
      cases pos with
      | some pos => exact .inl ⟨pos, rfl, (Option.some.inj h).symm⟩
      | none => exact .inr ⟨rfl, (Option.some.inj h).symm⟩

theorem inv_size {bufs : ι → List Buf} {s s' : Link ι} {l : List (ι × Buf)} {t : ι} {k : ℕ}
    (hl : ∀ t, ofThread t l ++ s.todo t = bufs t) (hpos : ∀ t, s.pos t = .size)
    (hwire : s.wire = wireOf (l.map Prod.snd)) (hk : 4 ≤ k) (h : Step s (t, k) s') :
    Inv bufs s' := by
  have hall : s.pos = fun _ => .size := funext hpos
  obtain ⟨b, bs, htodo, hnext⟩ := step_cases h
  have hsize : send k (htonl b.val.length) = htonl b.val.length :=
    List.take_of_length_le (Nat.le_trans hk (Nat.le_max_right _ _))
  rw [hpos t, sendStep, hsize, hwire, hall] at hnext
  rcases hnext with ⟨pos, hr, rfl⟩ | ⟨hr, rfl⟩
  · dsimp only at hr
    split_ifs at hr with hlen
    obtain rfl := Option.some.inj hr
    refine ⟨l, hl, .busy htodo rfl hlen ?_⟩
    rw [List.take_zero, List.append_nil]
  · dsimp only at hr
    split_ifs at hr with hlen
    have hnil : b.val = [] := List.eq_nil_of_length_eq_zero (Nat.eq_zero_of_not_pos hlen)
    refine ⟨l ++ [(t, b)], ofThread_done hl htodo, .idle (fun t' => ?_) ?_⟩
    · rw [Function.update_eq_self_iff.2 rfl]
    · rw [wireOf_concat, hnil, List.append_nil]

/-- The thread that is inside a frame sends more of it. -/
theorem inv_data {bufs : ι → List Buf} {s s' : Link ι} {l : List (ι × Buf)} {t : ι} {b : Buf}
    {bs : List Buf} {j k : ℕ} (hl : ∀ t, ofThread t l ++ s.todo t = bufs t)
    (htodo : s.todo t = b :: bs)
    (hpos : s.pos = Function.update (fun _ => .size) t (.data j))
    (hwire : s.wire = wireOf (l.map Prod.snd) ++ (htonl b.val.length ++ b.val.take j))
    (h : Step s (t, k) s') : Inv bufs s' := by
  obtain ⟨b', bs', htodo', hnext⟩ := step_cases h
  obtain ⟨rfl, rfl⟩ := List.cons.inj (htodo.symm.trans htodo')
  rw [hpos, Function.update_self, sendStep, hwire] at hnext
  dsimp only at hnext
  rw [List.append_assoc, List.append_assoc, take_append_send, Function.update_idem] at hnext
  rcases hnext with ⟨pos, hr, rfl⟩ | ⟨hr, rfl⟩
  · split_ifs at hr with hlen
    obtain rfl := Option.some.inj hr
    exact ⟨l, hl, .busy htodo (Function.update_idem _ _ _) hlen rfl⟩
  · split_ifs at hr with hlen
    refine ⟨l ++ [(t, b)], ofThread_done hl htodo, .idle (fun t' => ?_) ?_⟩
    · rw [Function.update_eq_self_iff.2 rfl]
    · rw [wireOf_concat, List.take_of_length_le (Nat.not_lt.1 hlen)]

theorem inv_step {bufs : ι → List Buf} (s : Link ι) (e : ι × ℕ) (s' : Link ι) (hs : Inv bufs s)
    (halone : Alone s e) (h : Step s e s') : Inv bufs s' := by
  obtain ⟨l, hl, hframed⟩ := hs
  cases hframed with
  | idle hpos hwire => exact inv_size hl hpos hwire (halone (hpos e.1)).2 h
  | @busy t b bs j htodo hpos hj hwire =>
      by_cases ht : e.1 = t
      · subst ht
        exact inv_data hl htodo hpos hwire h
      · -- another thread can only start a frame
        have hsize : s.pos e.1 = .size := by rw [hpos, Function.update_of_ne ht]
        have hbusy := (halone hsize).1 t
        rw [hpos, Function.update_self] at hbusy
        cases hbusy

theorem intact_of_inv {bufs : ι → List Buf} (s : Link ι) (hs : Inv bufs s) : Intact bufs s := by
  obtain ⟨l, hl, hframed⟩ := hs
  intro hidle
  refine ⟨l, hl, ?_⟩
  cases hframed with
  | idle hpos hwire =>
      have hmap : l.map (fun x => x.2.val) = (l.map Prod.snd).map Subtype.val := by
        rw [List.map_map]
        rfl
      rw [hwire, hmap]
      refine decode_frames protocol fun m hm => ?_
      obtain ⟨b, -, rfl⟩ := List.mem_map.1 hm
      exact b.property
  | @busy t b bs j htodo hpos hj hwire =>
      have hbusy := hidle t
      rw [hpos, Function.update_self] at hbusy
      cases hbusy

/-- The stream is intact in all the states of a run in which a thread starts a frame only while
no other thread is inside one, and all sizes are taken in one piece. -/
theorem intact_of_alone (bufs : ι → List Buf) (tr : List ((ι × ℕ) × Link ι))
    (hrun : Exec.Run Step (Link.start bufs) tr)
    (halone : Exec.AllSteps Alone (Link.start bufs) tr) :
    Exec.AllStates (Intact bufs) (Link.start bufs) tr := by
  have hstart : Inv bufs (Link.start bufs) := ⟨[], fun t => rfl, .idle (fun t => rfl) rfl⟩
  exact (hrun.allStates inv_step halone hstart).mono intact_of_inv

def Link.trace (s : Link ι) : List (ι × ℕ) → List ((ι × ℕ) × Link ι)
  | [] => []
  | e :: es =>
      match s.step e.1 e.2 with
      | some s' => (e, s') :: s'.trace es
      | none => []

theorem run_trace : ∀ (s : Link ι) (es : List (ι × ℕ)), Exec.Run Step s (s.trace es)
  | s, [] => .nil s
  | s, e :: es => by
      rw [Link.trace]
      cases h : s.step e.1 e.2 with
      | some s' => exact .cons h (run_trace s' es)
      | none => exact .nil s

instance decidableAlone (s : Link Bool) (e : Bool × ℕ) : Decidable (Alone s e) :=
  inferInstanceAs (Decidable (_ → _ ∧ _))

def twoBufs (t : Bool) : List Buf := [⟨[if t then 97 else 98], by simp⟩]

/-- The first thread sends its frame, and then the second one does. -/
theorem intact_of_alone_two :
    let s := Link.start twoBufs
    let tr := s.trace [(true, 4), (true, 1), (false, 4), (false, 1)]
    Exec.AllStates (Intact twoBufs) s tr :=
  intact_of_alone twoBufs _ (run_trace _ _) (by decide)

/-- The second thread starts its frame after the size of the first one. -/
theorem not_intact :
    let s := Link.start twoBufs
    let tr := s.trace [(true, 4), (false, 4), (true, 1), (false, 1)]
    Exec.Run Step s tr ∧ ¬ Exec.AllStates (Intact twoBufs) s tr := by
  intro s tr
  refine ⟨run_trace _ _, fun hall => ?_⟩
  let last := tr.get ⟨3, by decide⟩
  have hidle : ∀ t, last.2.pos t = .size := by decide
  have hnone : decode protocol last.2.wire = none := by decide
  obtain ⟨l, -, hdecode⟩ := hall.2 last (List.get_mem tr _) hidle
  rw [hnone] at hdecode
  cases hdecode

end Sock

end Ylisp
