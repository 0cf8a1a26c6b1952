import Mathlib.Data.List.Basic
import Mathlib.Data.Nat.Notation

/-!
# Length-prefixed frames

A frame is a header of fixed width, which holds the length of the body, and the
body. `decode` reads a stream frame by frame, and `decode_frames` says that it
gives back the bodies that `frames` has put together.
-/

namespace Framing

variable {β : Type*}

structure Header (β : Type*) where
  width : ℕ
  bound : ℕ
  put : ℕ → List β
  get : List β → ℕ
  width_pos : 0 < width
  length_put : ∀ n, (put n).length = width
  get_put : ∀ n, n < bound → get (put n) = n

variable (h : Header β)

def frame (m : List β) : List β := h.put m.length ++ m

/-- The frames of a list of bodies, one after another. -/
def frames : List (List β) → List β
  | [] => []
  | m :: ms => frame h m ++ frames ms

/-- The body of the first frame of a stream and the rest, `none` when the stream ends before. -/
def readFrame (s : List β) : Option (List β × List β) :=
  let n := h.get (s.take h.width)
  let rest := s.drop h.width
  if s.length < h.width ∨ rest.length < n then none else some (rest.take n, rest.drop n)

def decodeUpTo : ℕ → List β → Option (List (List β))
  | 0, s => if s.isEmpty then some [] else none
  | k + 1, s =>
      if s.isEmpty then some []
      else (readFrame h s).bind fun r => (decodeUpTo k r.2).map (r.1 :: ·)

/-- The bodies of the frames of a stream, `none` when it ends inside a frame. -/
def decode (s : List β) : Option (List (List β)) := decodeUpTo h s.length s

theorem length_frame (m : List β) : (frame h m).length = h.width + m.length := by
  rw [frame, List.length_append, h.length_put]

theorem frames_append (l l' : List (List β)) :
    frames h (l ++ l') = frames h l ++ frames h l' := by
  induction l with
  | nil => rfl
  | cons m l ih => rw [List.cons_append, frames, ih, frames, List.append_assoc]

theorem frames_concat (l : List (List β)) (m : List β) :
    frames h (l ++ [m]) = frames h l ++ frame h m := by
  rw [frames_append, frames, frames, List.append_nil]

theorem length_frames_cons (m : List β) (ms : List (List β)) :
    (frames h (m :: ms)).length = h.width + m.length + (frames h ms).length := by
  rw [frames, List.length_append, length_frame]

theorem length_le_length_frames (ms : List (List β)) : ms.length ≤ (frames h ms).length := by
  induction ms with
  | nil => exact Nat.zero_le _
  | cons m ms ih =>
      have hpos := h.width_pos
      rw [length_frames_cons, List.length_cons]
      omega

theorem readFrame_frame {m : List β} (hm : m.length < h.bound) (s : List β) :
    readFrame h (frame h m ++ s) = some (m, s) := by
  have htake : (frame h m ++ s).take h.width = h.put m.length := by
    rw [frame, List.append_assoc, List.take_left' (h.length_put _)]
  have hdrop : (frame h m ++ s).drop h.width = m ++ s := by
    rw [frame, List.append_assoc, List.drop_left' (h.length_put _)]
  have hlen : ¬ ((frame h m ++ s).length < h.width ∨ (m ++ s).length < m.length) := by
    rw [List.length_append, length_frame, List.length_append]
    omega
  rw [readFrame, htake, hdrop, h.get_put _ hm, if_neg hlen, List.take_left, List.drop_left]

theorem decodeUpTo_frames {ms : List (List β)} (hms : ∀ m ∈ ms, m.length < h.bound) :
    ∀ k, ms.length ≤ k → decodeUpTo h k (frames h ms) = some ms := by
  induction ms with
  | nil =>
      intro k _
      cases k <;> rfl
  | cons m ms ih =>
      intro k hk
      obtain ⟨k, rfl⟩ := Nat.exists_eq_add_of_le' (Nat.le_trans (Nat.le_add_left 1 _) hk)
      have hne : ¬ (frames h (m :: ms)).isEmpty := by
        have hpos := h.width_pos
        rw [List.isEmpty_iff_length_eq_zero, length_frames_cons]
        omega
      have htail := ih (fun m' h' => hms m' (List.mem_cons_of_mem _ h')) k
        (Nat.le_of_succ_le_succ hk)
      rw [decodeUpTo, if_neg hne, frames, readFrame_frame h (hms m List.mem_cons_self),
        Option.bind_some, htail]
      rfl

theorem decode_frames {ms : List (List β)} (hms : ∀ m ∈ ms, m.length < h.bound) :
    decode h (frames h ms) = some ms :=
  decodeUpTo_frames h hms _ (length_le_length_frames h ms)

end Framing
