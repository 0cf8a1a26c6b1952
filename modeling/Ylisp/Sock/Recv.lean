import Ylisp.Sock.Basic

/-!
# Messages through the socket

`sock_recv` takes what one `recv` returns for the whole size, or the whole
message. `received_iff` says for which messages and for which pieces of the
stream the callback is given the messages that were sent.
-/

namespace Ylisp

namespace Sock

open Framing

section Round

variable {e : Env}

theorem received_of_lt {d : List UInt8} (h : d.length < 2 ^ 31) : received d = d.length := by
  rw [received, BitVec.toInt_eq_toNat_of_lt (by rw [BitVec.toNat_ofNat]; omega),
    BitVec.toNat_ofNat, Nat.mod_eq_of_lt (by omega)]

theorem received_neg {d : List UInt8} (h : 2 ^ 31 ≤ d.length) (hlt : d.length < 2 ^ 32) :
    received d < 0 := by
  rw [received, BitVec.toInt_eq_msb_cond, BitVec.msb_eq_true_iff_two_mul_ge.2]
  · rw [if_pos rfl, BitVec.toNat_ofNat]
    omega
  · rw [BitVec.toNat_ofNat, Nat.mod_eq_of_lt hlt]
    omega

theorem length_recv (avail : ℕ → ℕ) (sz : ℕ) (c : Conn) :
    (recv avail sz c).1.length = min (min sz (max 1 (avail c.calls))) c.stream.length := by
  rw [recv, List.length_take]

theorem stream_recv (avail : ℕ → ℕ) (sz : ℕ) (c : Conn) :
    (recv avail sz c).2.stream.length + (recv avail sz c).1.length = c.stream.length := by
  have hlen := length_recv avail sz c
  have hdrop : (recv avail sz c).2.stream = c.stream.drop (recv avail sz c).1.length := rfl
  rw [hdrop, List.length_drop]
  omega

/-- A round ends the loop without a message, or it passes one message that is no longer than the
stream allows. -/
theorem round_cases (e : Env) (s : Receiver) :
    (∃ ret, round e s = .inr (ret, s.got)) ∨ ∃ d c,
      4 + d.length + c.stream.length ≤ s.conn.stream.length ∧
      (round e s = .inr (0, s.got ++ [d]) ∨ round e s = .inl ⟨c, s.got ++ [d]⟩) := by
  have hhead := stream_recv e.avail 4 s.conn
  have hhlen := length_recv e.avail 4 s.conn
  have hreceived : received (recv e.avail 4 s.conn).1 = (recv e.avail 4 s.conn).1.length :=
    received_of_lt (by omega)
  generalize hx : round e s = x
  rw [round] at hx
  revert hhead hreceived hx
  generalize recv e.avail 4 s.conn = r
  obtain ⟨hd, c⟩ := r
  intro hhead hreceived hx
  dsimp only at hhead hreceived hx
  have hbody := stream_recv e.avail (ntohl hd) c
  revert hbody hx
  generalize recv e.avail (ntohl hd) c = r
  obtain ⟨d, c'⟩ := r
  intro hx hbody
  dsimp only at hx hbody
  split_ifs at hx with h1 h2 h3 h4 h5 h6 h7 h8
  · exact .inl ⟨-1, hx.symm⟩
  · exact .inl ⟨0, hx.symm⟩
  · exact .inl ⟨-1, hx.symm⟩
  · exact .inl ⟨-1, hx.symm⟩
  · exact .inl ⟨-1, hx.symm⟩
  · exact .inl ⟨0, hx.symm⟩
  · exact .inl ⟨-1, hx.symm⟩
  · exact .inr ⟨d, c', by omega, .inl hx.symm⟩
  · exact .inr ⟨d, c', by omega, .inr hx.symm⟩

/-- The messages that the callback is given fit in the stream. -/
theorem got_of_run : ∀ (k : ℕ) (s : Receiver) (ret : Int) (msgs : List (List UInt8)),
    Machine.run (round e) k s = some (ret, msgs) →
      ∃ ms, msgs = s.got ++ ms ∧ (frames protocol ms).length ≤ s.conn.stream.length
  | 0, _, _, _, h => nomatch h
  | k + 1, s, ret, msgs, h => by
      rw [Machine.run] at h
      rcases round_cases e s with ⟨ret', hround⟩ | ⟨d, c, hlen, hround | hround⟩
      · rw [hround] at h
        obtain ⟨-, rfl⟩ := Prod.mk.inj (Option.some.inj h)
        exact ⟨[], (List.append_nil _).symm, Nat.zero_le _⟩
      · rw [hround] at h
        obtain ⟨-, rfl⟩ := Prod.mk.inj (Option.some.inj h)
        refine ⟨[d], rfl, ?_⟩
        rw [length_frames_cons]
        exact Nat.le_trans (Nat.add_le_add_left (Nat.zero_le _) _) hlen
      · rw [hround] at h
        obtain ⟨ms, rfl, hms⟩ := got_of_run k _ ret msgs h
        refine ⟨d :: ms, List.append_assoc _ _ _, ?_⟩
        rw [length_frames_cons]
        exact Nat.le_trans (Nat.add_le_add_left hms _) hlen

theorem ends_sockRecv (e : Env) (stream : List UInt8) : ∃ ret msgs, SockRecv e stream ret msgs := by
  have hmeasure : ∀ s s', True → round e s = .inl s' →
      True ∧ s'.conn.stream.length < s.conn.stream.length := by
    intro s s' _ hs
    refine ⟨trivial, ?_⟩
    rcases round_cases e s with ⟨ret, hround⟩ | ⟨d, c, hlen, hround | hround⟩
    · rw [hround] at hs
      cases hs
    · rw [hround] at hs
      cases hs
    · rw [hround] at hs
      obtain rfl := Sum.inl.inj hs
      dsimp only
      omega
  obtain ⟨r, hr⟩ := Machine.run_of_measure (fun _ => True)
    (fun s : Receiver => s.conn.stream.length) hmeasure
    (stream.length + 1) ⟨⟨stream, 0⟩, []⟩ trivial (Nat.lt_succ_self _)
  exact ⟨r.1, r.2, _, hr⟩

end Round

section Frame

variable {e : Env} {i : ℕ} {b : Buf}

theorem recv_whole {avail : ℕ → ℕ} {d : List UInt8} (h : d.length ≤ max 1 (avail i))
    (s : List UInt8) : recv avail d.length ⟨d ++ s, i⟩ = (d, ⟨s, i + 1⟩) := by
  rw [recv]
  dsimp only
  rw [Nat.min_eq_left h, List.take_left, List.drop_left]

/-- The `j`-th message is received: it is not empty, its size is an `int`, and two calls of
`recv` return all of its frame. -/
structure Through (e : Env) (j : ℕ) (b : Buf) : Prop where
  pos : 0 < b.val.length
  isInt : b.val.length < 2 ^ 31
  malloc : e.malloc b.val.length = true
  size : 4 ≤ e.avail (2 * j)
  data : b.val.length ≤ max 1 (e.avail (2 * j + 1))

theorem wireOf_cons (b : Buf) (bs : List Buf) :
    wireOf (b :: bs) = htonl b.val.length ++ (b.val ++ wireOf bs) :=
  List.append_assoc _ _ _

theorem recv_size (h : 4 ≤ e.avail i) (b : Buf) (bs : List Buf) :
    recv e.avail 4 ⟨wireOf (b :: bs), i⟩ = (htonl b.val.length, ⟨b.val ++ wireOf bs, i + 1⟩) := by
  rw [wireOf_cons]
  exact recv_whole (d := htonl b.val.length) (Nat.le_trans h (Nat.le_max_right _ _)) _

theorem received_size (b : Buf) : received (htonl b.val.length) = 4 := by
  rw [received_of_lt (d := htonl b.val.length) (show 4 < 2 ^ 31 by decide)]
  rfl

theorem round_through {j : ℕ} (h : Through e j b) (bs : List Buf) (g : List (List UInt8)) :
    round e ⟨⟨wireOf (b :: bs), 2 * j⟩, g⟩ =
      if e.rcv (g ++ [b.val]) ≤ 0 then .inr (0, g ++ [b.val])
      else .inl ⟨⟨wireOf bs, 2 * (j + 1)⟩, g ++ [b.val]⟩ := by
  have hpos := h.pos
  rw [round, recv_size h.size]
  dsimp only
  rw [ntohl_htonl b.property, recv_whole h.data, received_size, received_of_lt h.isInt, h.malloc]
  dsimp only
  rw [if_neg (by decide), if_neg (by decide), if_neg (by decide), if_neg (by decide),
    if_neg (by omega), if_neg (by omega), if_neg (fun hne => hne rfl)]
  rfl

/-- A message that does not come through ends the loop. -/
theorem round_not_through {j : ℕ} (h : ¬ Through e j b) (bs : List Buf)
    (g : List (List UInt8)) :
    ∃ ret, round e ⟨⟨wireOf (b :: bs), 2 * j⟩, g⟩ = .inr (ret, g) := by
  rw [round]
  by_cases hsize : 4 ≤ e.avail (2 * j)
  · rw [recv_size hsize]
    dsimp only
    rw [ntohl_htonl b.property, received_size, if_neg (by decide), if_neg (by decide),
      if_neg (by decide)]
    by_cases hmalloc : e.malloc b.val.length = true
    · rw [hmalloc, if_neg (by decide)]
      by_cases hdata : b.val.length ≤ max 1 (e.avail (2 * j + 1))
      · rw [recv_whole hdata]
        dsimp only
        by_cases hint : b.val.length < 2 ^ 31
        · rw [received_of_lt hint, if_neg (by omega), if_pos]
          · exact ⟨0, rfl⟩
          · by_contra hne
            exact h ⟨by omega, hint, hmalloc, hsize, hdata⟩
        · rw [if_pos (received_neg (Nat.not_lt.1 hint) b.property)]
          exact ⟨-1, rfl⟩
      · have hlen := length_recv e.avail b.val.length ⟨b.val ++ wireOf bs, 2 * j + 1⟩
        dsimp only at hlen
        rw [List.length_append] at hlen
        revert hlen
        generalize recv e.avail b.val.length ⟨b.val ++ wireOf bs, 2 * j + 1⟩ = r
        obtain ⟨d, c⟩ := r
        intro hlen
        dsimp only at hlen ⊢
        by_cases hint : d.length < 2 ^ 31
        · rw [received_of_lt hint, if_neg (by omega), if_neg (by omega), if_pos (by omega)]
          exact ⟨-1, rfl⟩
        · have hb := b.property
          rw [if_pos (received_neg (Nat.not_lt.1 hint) (by omega))]
          exact ⟨-1, rfl⟩
    · rw [if_pos (by simpa using hmalloc)]
      exact ⟨-1, rfl⟩
  · have hlen := length_recv e.avail 4 ⟨wireOf (b :: bs), 2 * j⟩
    have hwire : 4 ≤ (wireOf (b :: bs)).length := by
      rw [wireOf_cons, List.length_append]
      exact Nat.le_add_right 4 _
    revert hlen
    generalize recv e.avail 4 ⟨wireOf (b :: bs), 2 * j⟩ = r
    obtain ⟨d, c⟩ := r
    intro hlen
    dsimp only at hlen ⊢
    rw [received_of_lt (by omega), if_neg (by omega), if_neg (by omega), if_pos (by omega)]
    exact ⟨-1, rfl⟩

end Frame

section Stream

variable {e : Env}

theorem forall_getElem?_cons {α : Type*} {P : ℕ → α → Prop} (b : α) (bs : List α) :
    (∀ j x, (b :: bs)[j]? = some x → P j x) ↔ P 0 b ∧ ∀ j x, bs[j]? = some x → P (j + 1) x := by
  constructor
  · exact fun h => ⟨h 0 b rfl, fun j x hj => h (j + 1) x hj⟩
  · rintro ⟨hb, hrest⟩ j x hj
    cases j with
    | zero => exact Option.some.inj hj ▸ hb
    | succ j => exact hrest j x hj

def Passed (e : Env) (i : ℕ) (g : List (List UInt8)) (bs : List Buf) : Prop :=
  ∃ ret, Machine.Ends (round e) ⟨⟨wireOf bs, 2 * i⟩, g⟩ (ret, g ++ bs.map Subtype.val)

theorem passed_nil (e : Env) (i : ℕ) (g : List (List UInt8)) : Passed e i g [] := by
  refine ⟨0, Machine.Ends.of_result ?_⟩
  rw [List.map_nil, List.append_nil]
  simp [round, recv, wireOf, frames, received]

theorem passed_cons (i : ℕ) (g : List (List UInt8)) (b : Buf) (bs : List Buf) :
    Passed e i g (b :: bs) ↔
      Through e i b ∧ (bs ≠ [] → 0 < e.rcv (g ++ [b.val])) ∧
        Passed e (i + 1) (g ++ [b.val]) bs := by
  have hgot : g ++ (b :: bs).map Subtype.val = g ++ [b.val] ++ bs.map Subtype.val := by
    rw [List.map_cons, List.append_assoc, List.singleton_append]
  by_cases hb : Through e i b
  · have hround := round_through hb bs g
    rw [and_iff_right hb, Passed, hgot]
    by_cases hrcv : e.rcv (g ++ [b.val]) ≤ 0
    · rw [if_pos hrcv] at hround
      constructor
      · rintro ⟨ret, hret⟩
        have hsame := (Prod.mk.inj ((Machine.Ends.result_iff hround).1 hret)).2
        have hnil : bs = [] := List.map_eq_nil_iff.1 (List.append_right_eq_self.1 hsame)
        rw [hnil]
        exact ⟨fun hne => absurd rfl hne, passed_nil e (i + 1) _⟩
      · rintro ⟨hgo, -⟩
        have hnil : bs = [] := by
          by_contra hne
          exact Int.not_lt.2 hrcv (hgo hne)
        refine ⟨0, (Machine.Ends.result_iff hround).2 ?_⟩
        rw [hnil, List.map_nil, List.append_nil]
    · rw [if_neg hrcv] at hround
      rw [and_iff_right fun _ => Int.not_le.1 hrcv]
      exact exists_congr fun ret => Machine.Ends.step_iff hround
  · obtain ⟨ret', hround⟩ := round_not_through hb bs g
    refine iff_of_false ?_ fun h => hb h.1
    rintro ⟨ret, hret⟩
    simpa using (Machine.Ends.result_iff hround).1 hret

theorem passed_iff : ∀ (bs : List Buf) (i : ℕ) (g : List (List UInt8)),
    Passed e i g bs ↔ ∀ j b, bs[j]? = some b → Through e (i + j) b ∧
      (j + 1 < bs.length → 0 < e.rcv (g ++ (bs.take (j + 1)).map Subtype.val))
  | [], i, g => iff_of_true (passed_nil e i g) fun j b h => nomatch h
  | b :: bs, i, g => by
      rw [passed_cons, passed_iff bs (i + 1), forall_getElem?_cons, and_assoc.symm]
      refine and_congr (and_congr Iff.rfl ?_) ?_
      · rw [List.length_cons, Nat.add_lt_add_iff_right, List.length_pos_iff]
        rfl
      · simp only [List.length_cons, Nat.add_lt_add_iff_right, List.take_succ_cons, List.map_cons,
          List.append_assoc, List.singleton_append, Nat.add_right_comm i 1, Nat.add_assoc i]

end Stream

section Sizes

/-- A size that is cut short leaves the stream too short for the frames. -/
theorem sockSends_cases : ∀ (accept : ℕ → ℕ → ℕ) (bs : List Buf),
    (∀ j b, bs[j]? = some b → 4 ≤ accept j 0) ∧ sockSends accept bs = wireOf bs ∨
      ¬ (∀ j b, bs[j]? = some b → 4 ≤ accept j 0) ∧
        (sockSends accept bs).length < (wireOf bs).length
  | _, [] => .inl ⟨fun j b h => (nomatch h), rfl⟩
  | accept, b :: bs => by
      have hrest := sockSends_cases (fun j => accept (j + 1)) bs
      rw [sockSends, sockSend_eq, wireOf_cons, forall_getElem?_cons]
      have hle : (sockSends (fun j => accept (j + 1)) bs).length ≤ (wireOf bs).length := by
        rcases hrest with ⟨-, heq⟩ | ⟨-, hlt⟩
        · exact Nat.le_of_eq (congrArg List.length heq)
        · exact Nat.le_of_lt hlt
      by_cases hsize : 4 ≤ accept 0 0
      · have hwhole : send (accept 0 0) (htonl b.val.length) = htonl b.val.length :=
          List.take_of_length_le (Nat.le_trans hsize (Nat.le_max_right _ _))
        rw [and_iff_right hsize, hwhole]
        rcases hrest with ⟨hall, heq⟩ | ⟨hnot, hlt⟩
        · exact .inl ⟨hall, by rw [heq, List.append_assoc]⟩
        · refine .inr ⟨hnot, ?_⟩
          simp only [List.length_append]
          omega
      · refine .inr ⟨fun h => hsize h.1, ?_⟩
        have hcut : (send (accept 0 0) (htonl b.val.length)).length < 4 := by
          rw [send, List.length_take]
          omega
        have hfull : (htonl b.val.length).length = 4 := rfl
        simp only [List.length_append]
        omega

end Sizes

/-- The callback is given the messages that were sent if and only if `send` takes each size in
one piece and each message comes through (and the callback does not end the communication
before the last one). -/
theorem received_iff (e : Env) (accept : ℕ → ℕ → ℕ) (bs : List Buf) :
    (∃ ret, SockRecv e (sockSends accept bs) ret (bs.map Subtype.val)) ↔
      ∀ j b, bs[j]? = some b → 4 ≤ accept j 0 ∧ Through e j b ∧
        (j + 1 < bs.length → 0 < e.rcv ((bs.take (j + 1)).map Subtype.val)) := by
  rcases sockSends_cases accept bs with ⟨hall, heq⟩ | ⟨hnot, hlt⟩
  · have hpassed := passed_iff (e := e) bs 0 []
    simp only [Nat.zero_add, List.nil_append] at hpassed
    rw [heq]
    refine hpassed.trans (forall_congr' fun j => forall_congr' fun b => forall_congr' fun hj => ?_)
    rw [and_iff_right (hall j b hj)]
  · refine iff_of_false ?_ fun h => hnot fun j b hj => (h j b hj).1
    rintro ⟨ret, k, hk⟩
    obtain ⟨ms, hms, hlen⟩ := got_of_run k _ ret _ hk
    rw [List.nil_append] at hms
    rw [← hms] at hlen
    exact absurd hlt (Nat.not_lt.2 hlen)

/-- The daemon on a transport that has at most `m` bytes at hand. -/
def pieces (m : ℕ) : Env := ⟨fun _ => m, fun _ => true, onRecv⟩

def ab : Buf := ⟨[97, 98], by decide⟩

/-- An empty message ends the communication, and so does a size that arrives byte by byte. -/
theorem not_received :
    (¬ ∃ ret, SockRecv (pieces 4) (sockSends (fun _ _ => 4) [⟨[], by decide⟩, ab]) ret
      [[], ab.val]) ∧
      ¬ ∃ ret, SockRecv (pieces 1) (sockSends (fun _ _ => 4) [ab]) ret [ab.val] := by
  have hempty : SockRecv (pieces 4) (sockSends (fun _ _ => 4) [⟨[], by decide⟩, ab]) 0 [] :=
    ⟨1, by decide⟩
  have hcut : SockRecv (pieces 1) (sockSends (fun _ _ => 4) [ab]) (-1) [] := ⟨1, by decide⟩
  constructor
  · rintro ⟨ret, hret⟩
    cases hret.unique hempty
  · rintro ⟨ret, hret⟩
    cases hret.unique hcut

end Sock

end Ylisp
