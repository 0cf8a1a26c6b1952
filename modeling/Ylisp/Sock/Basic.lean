import Mathlib.Algebra.Group.Nat.Defs
import Ylisp.Library.Framing
import Ylisp.Library.Machine

/-!
# The daemon's socket

`sock_send` and `sock_recv` of the daemon. The transport takes part of what a
`send` offers and hands out part of what a `recv` asks for: at least one byte,
if there is any. How much is a parameter.
-/

namespace Ylisp

namespace Sock

/-- A buffer whose size is an `unsigned int`. -/
abbrev Buf := {b : List UInt8 // b.length < 2 ^ 32}

def htonl (sz : ℕ) : List UInt8 :=
  [UInt8.ofNat (sz / 2 ^ 24), UInt8.ofNat (sz / 2 ^ 16), UInt8.ofNat (sz / 2 ^ 8), UInt8.ofNat sz]

def ntohl (d : List UInt8) : ℕ := d.foldl (fun sz b => sz * 2 ^ 8 + b.toNat) 0

theorem ntohl_htonl {sz : ℕ} (h : sz < 2 ^ 32) : ntohl (htonl sz) = sz := by
  simp only [ntohl, htonl, List.foldl_cons, List.foldl_nil, UInt8.toNat_ofNat']
  omega

/-- `[size(4bytes)][data...]`. -/
def protocol : Framing.Header UInt8 where
  width := 4
  bound := 2 ^ 32
  put := htonl
  get := ntohl
  width_pos := by decide
  length_put _ := rfl
  get_put _ := ntohl_htonl

def wireOf (bs : List Buf) : List UInt8 := Framing.frames protocol (bs.map Subtype.val)

section Send

def send (k : ℕ) (d : List UInt8) : List UInt8 := d.take (max 1 k)

/-- Where a call of `sock_send` stands: at the size, or with `bs` bytes of the data sent. -/
inductive Pos
  | size
  | data (bs : ℕ)
  deriving DecidableEq

/-- The next `send` of a call of `sock_send`: the bytes that are taken, and where the call
stands then, `none` when it returns. -/
def sendStep (b : Buf) (k : ℕ) : Pos → List UInt8 × Option Pos
  | .size => (send k (htonl b.val.length), if 0 < b.val.length then some (.data 0) else none)
  | .data bs =>
      let d := send k (b.val.drop bs)
      let bs := bs + d.length
      (d, if bs < b.val.length then some (.data bs) else none)

def sends (accept : ℕ → ℕ) (b : Buf) : ℕ → ℕ → Pos → List UInt8
  | 0, _, _ => []
  | n + 1, i, pos =>
      let r := sendStep b (accept i) pos
      r.1 ++ match r.2 with
        | some pos => sends accept b n (i + 1) pos
        | none => []

def sockSend (accept : ℕ → ℕ) (b : Buf) : List UInt8 := sends accept b (b.val.length + 1) 0 .size

/-- The bytes of calls of `sock_send` one after another. -/
def sockSends : (ℕ → ℕ → ℕ) → List Buf → List UInt8
  | _, [] => []
  | accept, b :: bs => sockSend (accept 0) b ++ sockSends (fun j => accept (j + 1)) bs

/-- The loop sends what is left of the data, however it is cut. -/
theorem sends_data (accept : ℕ → ℕ) (b : Buf) : ∀ (n i bs : ℕ), bs < b.val.length →
    b.val.length ≤ bs + n → sends accept b n i (.data bs) = b.val.drop bs
  | 0, _, bs, hlt, hn => absurd hlt (Nat.not_lt.2 hn)
  | n + 1, i, bs, hlt, hn => by
      have hlen : (send (accept i) (b.val.drop bs)).length =
          min (max 1 (accept i)) (b.val.length - bs) := by
        rw [send, List.length_take, List.length_drop]
      have hcut : send (accept i) (b.val.drop bs) ++
          b.val.drop (bs + (send (accept i) (b.val.drop bs)).length) = b.val.drop bs := by
        rw [← List.drop_drop, send, List.length_take, List.length_drop]
        rcases Nat.le_total (max 1 (accept i)) (b.val.length - bs) with h | h
        · rw [Nat.min_eq_left h, List.take_append_drop]
        · rw [Nat.min_eq_right h, List.take_of_length_le (by rw [List.length_drop]; exact h),
            List.drop_drop, Nat.add_sub_cancel' (Nat.le_of_lt hlt), List.drop_length,
            List.append_nil]
      rw [sends, sendStep]
      dsimp only
      by_cases hmore : bs + (send (accept i) (b.val.drop bs)).length < b.val.length
      · rw [if_pos hmore]
        dsimp only
        rw [sends_data accept b n (i + 1) _ hmore (by omega), hcut]
      · rw [if_neg hmore]
        dsimp only
        rw [List.drop_eq_nil_of_le (Nat.not_lt.1 hmore)] at hcut
        exact hcut

/-- The size may be cut short, the data never is. -/
theorem sockSend_eq (accept : ℕ → ℕ) (b : Buf) :
    sockSend accept b = send (accept 0) (htonl b.val.length) ++ b.val := by
  rw [sockSend, sends, sendStep]
  dsimp only
  by_cases hpos : 0 < b.val.length
  · rw [if_pos hpos]
    dsimp only
    rw [sends_data accept b _ 1 0 hpos (by omega), List.drop_zero]
  · rw [if_neg hpos]
    dsimp only
    rw [List.length_eq_zero_iff.1 (Nat.eq_zero_of_not_pos hpos)]

end Send

section Recv

/-- A connection: the bytes that have not been received yet, and the number of calls of `recv`
so far. -/
structure Conn where
  stream : List UInt8
  calls : ℕ

/-- What `sock_recv` depends on: the bytes at hand at each call of `recv`, the sizes that can be
allocated, and the callback, which may look at all the messages passed to it so far. -/
structure Env where
  avail : ℕ → ℕ
  malloc : ℕ → Bool
  rcv : List (List UInt8) → Int

/-- The answer of `_on_recv`, the callback of the daemon. -/
def onRecv : List (List UInt8) → Int := fun _ => 1

def recv (avail : ℕ → ℕ) (sz : ℕ) (c : Conn) : List UInt8 × Conn :=
  let d := c.stream.take (min sz (max 1 (avail c.calls)))
  (d, ⟨c.stream.drop d.length, c.calls + 1⟩)

/-- The number of received bytes as the `int` it is stored in. -/
def received (d : List UInt8) : Int := (BitVec.ofNat 32 d.length).toInt

/-- The state of `sock_recv` at the head of its loop. -/
structure Receiver where
  conn : Conn
  got : List (List UInt8)

/-- One round of the loop of `sock_recv`. The result is the return value and the messages that
the callback was given. -/
def round (e : Env) (s : Receiver) : Receiver ⊕ Int × List (List UInt8) :=
  let (hd, c) := recv e.avail 4 s.conn
  if received hd < 0 then .inr (-1, s.got)
  else if received hd = 0 then .inr (0, s.got)
  else if received hd < 4 then .inr (-1, s.got)
  else
    let sz := ntohl hd
    if e.malloc sz = false then .inr (-1, s.got)
    else
      let (d, c) := recv e.avail sz c
      if received d < 0 then .inr (-1, s.got)
      else if received d = 0 then .inr (0, s.got)
      else if received d ≠ sz then .inr (-1, s.got)
      else if e.rcv (s.got ++ [d]) ≤ 0 then .inr (0, s.got ++ [d])
      else .inl ⟨c, s.got ++ [d]⟩

/-- `sock_recv` on a stream returns `ret` after it has called its callback with `msgs`. -/
def SockRecv (e : Env) (stream : List UInt8) (ret : Int) (msgs : List (List UInt8)) : Prop :=
  Machine.Ends (round e) ⟨⟨stream, 0⟩, []⟩ (ret, msgs)

end Recv

end Sock

end Ylisp
