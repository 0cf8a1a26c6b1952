import Mathlib.Data.List.Find
import Mathlib.Logic.Relation
import Ylisp.Mempool.Pool
import Ylisp.Sock.Recv
import Ylisp.Yld.Pdu

/-!
# Sessions of the daemon

`sock_recv` gives each message to `_on_recv`, which starts a thread that runs
`_packet_handler`: it takes the packet apart, and `cmd_do` calls the handler that the
command names. Nothing waits for these threads: they come to their calls in any order, and the
process ends under them when `sock_recv` returns, or when a thread cannot be created.

`requested` is what a packet asks for, and `session_served` says which calls a session makes.
-/

namespace Ylisp

namespace Yld

open Dynb Mempool Sock

/-- The functions of `_cmdtbl`. -/
inductive Handler where
  | autocomp
  | changeLoglv
  | interp
  deriving DecidableEq

def cmdtbl : List (List UInt8 × Handler) :=
  [(cstr "AUTOCOMP", .autocomp), (cstr "CHGLOGLV", .changeLoglv), (cstr "INTERP", .interp)]

def sameString (s t : List UInt8) : Bool := s.takeWhile (· ≠ 0) = t.takeWhile (· ≠ 0)

def cmdDo (cmd : List UInt8) : Option Handler :=
  (cmdtbl.find? fun c => sameString c.1 cmd).map Prod.snd

/-- `_packet_handler`: the function that is called and its data, if any; `none` where bytes
are written past the end of a buffer. -/
def packetHandler (mem : ℕ → Bool) (p : List UInt8) : Option (Option (Handler × List UInt8)) :=
  if mem 256 ∧ mem 4096 then
    (parse mem (yldynbInit 256) (yldynbInit 4096) p).map fun r =>
      r.bind fun b => (cmdDo b.1.bytes).map fun f => (f, b.2.bytes)
  else none

structure Session where
  /-- The main thread in `sock_recv`; there is none when the process has ended. -/
  main : Option Receiver
  /-- The packets of the threads that have not come to their call. -/
  threads : List (List UInt8)
  /-- The calls that have been made, in their order. -/
  calls : List (Handler × List UInt8)

namespace Session

/-- The daemon at the call of `sock_recv`. -/
def start (stream : List UInt8) : Session := ⟨some ⟨⟨stream, 0⟩, []⟩, [], []⟩

/-- A step of the main thread or of one of the others. `create` says whether `pthread_create`
succeeds for the packet that follows on a number of packets. -/
inductive Step (mem create : ℕ → Bool) (e : Env) : Session → Session → Prop
  | created {r r' : Receiver} {threads : List (List UInt8)} {calls : List (Handler × List UInt8)}
      {p : List UInt8} (hround : Sock.round e r = .inl r') (hgot : r'.got = r.got ++ [p])
      (hcreate : create r.got.length = true) :
      Step mem create e ⟨some r, threads, calls⟩ ⟨some r', threads ++ [p], calls⟩
  | notCreated {r r' : Receiver} {threads : List (List UInt8)}
      {calls : List (Handler × List UInt8)} (hround : Sock.round e r = .inl r')
      (hcreate : create r.got.length = false) :
      Step mem create e ⟨some r, threads, calls⟩ ⟨none, threads, calls⟩
  | returned {r : Receiver} {res : Int × List (List UInt8)} {threads : List (List UInt8)}
      {calls : List (Handler × List UInt8)} (hround : Sock.round e r = .inr res) :
      Step mem create e ⟨some r, threads, calls⟩ ⟨none, threads, calls⟩
  | handled {r : Receiver} {before after : List (List UInt8)} {p : List UInt8}
      {call : Option (Handler × List UInt8)} {calls : List (Handler × List UInt8)}
      (hcall : packetHandler mem p = some call) :
      Step mem create e ⟨some r, before ++ p :: after, calls⟩
        ⟨some r, before ++ after, calls ++ call.toList⟩

end Session

/-- What a packet asks for: the name in front of the first colon, up to a 0, is that of a
handler, and all that is behind the colon is its data. -/
def requested (p : List UInt8) : Option (Handler × List UInt8) :=
  if cmdDelimieter ∈ p then
    let name := (p.take (p.idxOf cmdDelimieter)).takeWhile (· ≠ 0)
    (cmdtbl.find? fun c => c.1 = name).map fun c =>
      (c.2, p.drop (p.idxOf cmdDelimieter + 1))
  else none

/-! ### A packet -/

section Packet

variable {mem : ℕ → Bool}

theorem grows_of_mem (hmem : ∀ n, mem n = true) {limit n : ℕ} (hn : n ≤ 2 ^ 31) :
    Grows mem limit n := ⟨hn, fun _ _ _ => hmem _⟩

theorem takeWhile_concat_zero (s : List UInt8) :
    (s ++ [0]).takeWhile (· ≠ 0) = s.takeWhile (· ≠ 0) := by
  induction s with
  | nil => rfl
  | cons c s ih => rw [List.cons_append, List.takeWhile_cons, List.takeWhile_cons, ih]

theorem cmdDo_concat_zero (pre : List UInt8) :
    cmdDo (pre ++ [0]) =
      (cmdtbl.find? fun c => c.1 = pre.takeWhile (· ≠ 0)).map Prod.snd := by
  have hname : ∀ c ∈ cmdtbl, c.1.takeWhile (· ≠ 0) = c.1 := by decide
  have hsame : ∀ c ∈ cmdtbl,
      sameString c.1 (pre ++ [0]) = decide (c.1 = pre.takeWhile (· ≠ 0)) := by
    intro c hc
    rw [sameString, hname c hc, takeWhile_concat_zero]
  rw [cmdDo, List.find?_congr hsame]

/-- A thread does what the packet of its message asks for. -/
theorem packetHandler_eq (hmem : ∀ n, mem n = true) {p : List UInt8} (hp : p.length < 2 ^ 31) :
    packetHandler mem p = some (requested p) := by
  have hp' : p.length < 2 ^ 32 := by omega
  rw [packetHandler, if_pos ⟨hmem _, hmem _⟩]
  by_cases hmem' : cmdDelimieter ∈ p
  · obtain ⟨pre, post, rfl, hpre, hidx⟩ := exists_split hmem'
    rw [List.length_append, List.length_cons] at hp
    obtain ⟨c, d, hparse, hc, hd⟩ := (parse_iff (pow2_init (a := 8) (by decide))
      (pow2_init (a := 12) (by decide)) hp' hpre).2
        ⟨by omega, ⟨grows_of_mem hmem (by omega), rfl⟩, grows_of_mem hmem (by omega), rfl⟩
    have hdrop : (pre ++ cmdDelimieter :: post).drop (pre.length + 1) = post := by
      rw [← List.drop_drop, List.drop_left, List.drop_succ_cons, List.drop_zero]
    change parse mem (yldynbInit 256) (yldynbInit 4096) _ = _ at hparse
    rw [hparse, requested, if_pos hmem', hidx, List.take_left, hdrop]
    simp only [Option.map_some, Option.bind_some, hc, hd, cmdDo_concat_zero, Option.map_map]
    rfl
  · rw [parse_absent hp' hmem', if_pos hp, requested, if_neg hmem']
    rfl

/-- A request with the name of a command is one for its handler. -/
theorem requested_packet {name : List UInt8} {f : Handler} (h : (name, f) ∈ cmdtbl)
    (data : List UInt8) : requested (name ++ cmdDelimieter :: data) = some (f, data) := by
  have hnames : ∀ c ∈ cmdtbl, cmdDelimieter ∉ c.1 ∧ c.1.takeWhile (· ≠ 0) = c.1 ∧
      cmdtbl.find? (fun c' => c'.1 = c.1) = some c := by decide
  obtain ⟨hcolon, hzero, hfind⟩ := hnames _ h
  have hmem : cmdDelimieter ∈ name ++ cmdDelimieter :: data := by simp
  have hidx : (name ++ cmdDelimieter :: data).idxOf cmdDelimieter = name.length := by
    rw [List.idxOf_append_of_notMem hcolon, List.idxOf_cons_self, Nat.add_zero]
  have hdrop : (name ++ cmdDelimieter :: data).drop (name.length + 1) = data := by
    rw [← List.drop_drop, List.drop_left, List.drop_succ_cons, List.drop_zero]
  rw [requested, if_pos hmem, hidx, List.take_left, hdrop, hzero]
  dsimp only at hfind ⊢
  rw [hfind]
  rfl

end Packet

/-! ### A stream of frames -/

section Frames

open scoped List

variable {mem create : ℕ → Bool} {e : Env} {bs : List Buf}

/-- The `k`-th frame comes through, and its thread is created. -/
def Served (create : ℕ → Bool) (e : Env) (k : ℕ) (b : Buf) : Prop :=
  Through e k b ∧ create k = true

/-- What the packets in front of the `k`-th one ask for. -/
def requests (bs : List Buf) (k : ℕ) : List (Handler × List UInt8) :=
  ((bs.take k).map Subtype.val).filterMap requested

theorem requests_succ {k : ℕ} {b : Buf} (hb : bs[k]? = some b) :
    requests bs (k + 1) = requests bs k ++ (requested b.val).toList := by
  rw [requests, List.take_add_one, hb, List.map_append, List.filterMap_append, requests]
  cases h : requested b.val <;> simp [h]

theorem requests_sublist {k j : ℕ} (h : k ≤ j) : (requests bs k).Sublist (requests bs j) :=
  ((List.take_sublist_take_left h).map _).filterMap _

theorem exists_first (P : ℕ → Buf → Prop) : ∀ (bs : List Buf) (i : ℕ), ∃ j ≤ bs.length,
    (∀ k b, bs[k]? = some b → k < j → P (i + k) b) ∧ ∀ b, bs[j]? = some b → ¬ P (i + j) b
  | [], _ => ⟨0, Nat.le_refl _, fun _ _ hk => by simp at hk, fun _ hb => by simp at hb⟩
  | b :: bs, i => by
      by_cases hb : P i b
      · obtain ⟨j, hj, hbefore, hafter⟩ := exists_first P bs (i + 1)
        refine ⟨j + 1, Nat.succ_le_succ hj, fun k b' hk hlt => ?_, fun b' hb' => ?_⟩
        · cases k with
          | zero => exact Option.some.inj hk ▸ hb
          | succ k =>
              have hP := hbefore k b' hk (Nat.lt_of_succ_lt_succ hlt)
              rwa [Nat.add_right_comm, Nat.add_assoc] at hP
        · have hnot := hafter b' hb'
          rwa [Nat.add_right_comm, Nat.add_assoc] at hnot
      · refine ⟨0, Nat.zero_le _, fun k b' _ hlt => absurd hlt (Nat.not_lt_zero k), ?_⟩
        exact fun b' hb' => Option.some.inj hb' ▸ hb

/-- `sock_recv` in front of the `k`-th frame. -/
def receiverAt (bs : List Buf) (k : ℕ) : Receiver :=
  ⟨⟨wireOf (bs.drop k), 2 * k⟩, (bs.take k).map Subtype.val⟩

theorem round_receiverAt (hrcv : e.rcv = onRecv) {k : ℕ} {r' : Receiver}
    (h : Sock.round e (receiverAt bs k) = .inl r') :
    ∃ b, bs[k]? = some b ∧ Through e k b ∧ r' = receiverAt bs (k + 1) := by
  cases hb : bs[k]? with
  | none =>
      have hdrop : bs.drop k = [] := List.drop_eq_nil_of_le (List.getElem?_eq_none_iff.1 hb)
      rw [receiverAt, hdrop] at h
      simp [Sock.round, recv, wireOf, Framing.frames, received] at h
  | some b =>
      have hdrop : bs.drop k = b :: bs.drop (k + 1) := List.drop_eq_getElem?_toList_append.trans
        (by rw [hb]; rfl)
      rw [receiverAt, hdrop] at h
      by_cases hthrough : Through e k b
      · rw [round_through hthrough, hrcv, onRecv, if_neg (by decide)] at h
        refine ⟨b, rfl, hthrough, ?_⟩
        rw [← Sum.inl.inj h, receiverAt, List.take_add_one, hb, List.map_append]
        rfl
      · obtain ⟨ret, hret⟩ := round_not_through hthrough (bs.drop (k + 1))
          ((bs.take k).map Subtype.val)
        rw [hret] at h
        cases h

theorem round_of_through (hrcv : e.rcv = onRecv) {k : ℕ} {b : Buf} (hb : bs[k]? = some b)
    (h : Through e k b) : Sock.round e (receiverAt bs k) = .inl (receiverAt bs (k + 1)) := by
  have hdrop : bs.drop k = b :: bs.drop (k + 1) := List.drop_eq_getElem?_toList_append.trans
    (by rw [hb]; rfl)
  rw [receiverAt, hdrop, round_through h, hrcv, onRecv, if_neg (by decide), receiverAt,
    List.take_add_one, hb, List.map_append]
  rfl

namespace Session

/-- The threads of the first `k` packets have been created; what they have called and what they
are still to call is what these packets ask for. -/
structure Serves (bs : List Buf) (j : ℕ) (s : Session) (k : ℕ) : Prop where
  le : k ≤ j
  main : ∀ r, s.main = some r → r = receiverAt bs k
  short : ∀ p ∈ s.threads, p.length < 2 ^ 31
  perm : s.calls ++ s.threads.filterMap requested ~ requests bs k

variable {j : ℕ} {s t : Session}

theorem serves_start (bs : List Buf) (j : ℕ) : Serves bs j (start (wireOf bs)) 0 where
  le := Nat.zero_le j
  main := by
    intro r hr
    cases hr
    rfl
  short := nofun
  perm := List.Perm.refl []

theorem Serves.step (hmem : ∀ n, mem n = true) (hrcv : e.rcv = onRecv)
    (hj : ∀ b, bs[j]? = some b → ¬ Served create e j b) {k : ℕ} (h : Serves bs j s k)
    (hstep : Step mem create e s t) : ∃ k', Serves bs j t k' := by
  obtain ⟨hle, hmain, hshort, hperm⟩ := h
  cases hstep with
  | @created r r' threads calls p hround hgot hcreate =>
      obtain rfl := hmain r rfl
      obtain ⟨b, hb, hthrough, rfl⟩ := round_receiverAt hrcv hround
      have hlen : k < bs.length := (List.getElem?_eq_some_iff.1 hb).1
      have hnext : (receiverAt bs (k + 1)).got = (receiverAt bs k).got ++ [b.val] := by
        simp [receiverAt, List.take_add_one, hb]
      have hcount : (receiverAt bs k).got.length = k := by
        rw [receiverAt, List.length_map, List.length_take, Nat.min_eq_left hlen.le]
      obtain rfl : p = b.val := by
        have heq := List.append_cancel_left (hnext.symm.trans hgot)
        exact (List.cons.inj heq).1.symm
      rw [hcount] at hcreate
      have hne : k ≠ j := by
        rintro rfl
        exact hj b hb ⟨hthrough, hcreate⟩
      refine ⟨k + 1, by omega, fun r hr => (Option.some.inj hr).symm, ?_, ?_⟩
      · intro p hp
        rcases List.mem_append.1 hp with hp | hp
        · exact hshort p hp
        · rw [List.mem_singleton.1 hp]
          exact hthrough.isInt
      · have hone : [b.val].filterMap requested = (requested b.val).toList := by
          cases h : requested b.val <;> simp [h]
        rw [List.filterMap_append, hone, ← List.append_assoc, requests_succ hb]
        exact hperm.append_right _
  | notCreated hround hcreate => exact ⟨k, hle, nofun, hshort, hperm⟩
  | returned hround => exact ⟨k, hle, nofun, hshort, hperm⟩
  | @handled r before after p call calls hcall =>
      have hp := hshort p (by simp)
      rw [packetHandler_eq hmem hp] at hcall
      cases hcall
      refine ⟨k, hle, hmain, fun q hq => hshort q ?_, ?_⟩
      · rcases List.mem_append.1 hq with hq | hq
        · exact List.mem_append_left _ hq
        · exact List.mem_append_right _ (List.mem_cons_of_mem _ hq)
      · refine List.Perm.trans ?_ hperm
        have hone : (p :: after).filterMap requested =
            (requested p).toList ++ after.filterMap requested := by
          cases h : requested p <;> simp [h]
        rw [List.filterMap_append, List.filterMap_append, hone, List.append_assoc]
        refine List.Perm.append_left calls ?_
        rw [← List.append_assoc, ← List.append_assoc]
        exact (List.perm_append_comm).append_right _

/-- The main thread comes in front of the `k`-th frame while none of the others moves. -/
theorem exists_created (mem : ℕ → Bool) (hrcv : e.rcv = onRecv)
    (hbefore : ∀ k b, bs[k]? = some b → k < j → Served create e k b) :
    ∀ k ≤ j, k ≤ bs.length → Relation.ReflTransGen (Step mem create e) (start (wireOf bs))
      ⟨some (receiverAt bs k), (bs.take k).map Subtype.val, []⟩
  | 0, _, _ => Relation.ReflTransGen.refl
  | k + 1, hk, hlen => by
      have ih := exists_created mem hrcv hbefore k (by omega) (by omega)
      obtain ⟨b, hb⟩ : ∃ b, bs[k]? = some b := ⟨_, List.getElem?_eq_getElem (by omega)⟩
      obtain ⟨hthrough, hcreate⟩ := hbefore k b hb (by omega)
      have hnext : (bs.take (k + 1)).map Subtype.val = (bs.take k).map Subtype.val ++ [b.val] := by
        simp [List.take_add_one, hb]
      have hcount : (receiverAt bs k).got.length = k := by
        rw [receiverAt, List.length_map, List.length_take, Nat.min_eq_left (by omega)]
      refine ih.tail ?_
      rw [hnext]
      exact .created (round_of_through hrcv hb hthrough) hnext (by rw [hcount]; exact hcreate)

/-- The threads come to any of their calls, in any order. -/
theorem exists_handled (create : ℕ → Bool) (e : Env) (hmem : ∀ n, mem n = true) {r : Receiver} :
    ∀ (calls : List (Handler × List UInt8)) {threads : List (List UInt8)}
      (made : List (Handler × List UInt8)), (∀ p ∈ threads, p.length < 2 ^ 31) →
      calls <+~ threads.filterMap requested →
        ∃ threads', Relation.ReflTransGen (Step mem create e) ⟨some r, threads, made⟩
          ⟨some r, threads', made ++ calls⟩
  | [], threads, made, _, _ => by
      rw [List.append_nil]
      exact ⟨threads, Relation.ReflTransGen.refl⟩
  | c :: calls, threads, made, hshort, hsub => by
      obtain ⟨p, hp, hc⟩ := List.mem_filterMap.1 (hsub.subset List.mem_cons_self)
      obtain ⟨before, after, rfl⟩ := List.append_of_mem hp
      have hcall : packetHandler mem p = some (some c) := by
        rw [packetHandler_eq hmem (hshort p hp), hc]
      have hrest : calls <+~ (before ++ after).filterMap requested := by
        refine (List.subperm_cons c).1 (hsub.trans (List.Perm.subperm ?_))
        rw [List.filterMap_append, List.filterMap_append, List.filterMap_cons_some hc]
        exact List.perm_middle
      have hshort' : ∀ q ∈ before ++ after, q.length < 2 ^ 31 := by
        intro q hq
        rcases List.mem_append.1 hq with hq | hq
        · exact hshort q (List.mem_append_left _ hq)
        · exact hshort q (List.mem_append_right _ (List.mem_cons_of_mem _ hq))
      obtain ⟨threads', hrun⟩ := exists_handled create e hmem calls (made ++ [c]) hshort' hrest
      rw [List.append_assoc] at hrun
      exact ⟨threads', Relation.ReflTransGen.head (.handled hcall) hrun⟩

end Session

/-- For every stream of frames, what a session can have called at some moment is: some of the
requests of the packets in front of the first one that does not come through, or whose thread is
not created, each at most once, in any order, and nothing else. -/
theorem session_served (mem : ℕ → Bool) (hmem : ∀ n, mem n = true) (create : ℕ → Bool) (e : Env)
    (hrcv : e.rcv = onRecv) (bs : List Buf) :
    ∃ j ≤ bs.length, (∀ k b, bs[k]? = some b → k < j → Served create e k b) ∧
      (∀ b, bs[j]? = some b → ¬ Served create e j b) ∧
        ∀ calls, (∃ s, Relation.ReflTransGen (Session.Step mem create e)
            (Session.start (wireOf bs)) s ∧ s.calls = calls) ↔ calls <+~ requests bs j := by
  obtain ⟨j, hj, hbefore, hafter⟩ := exists_first (Served create e) bs 0
  simp only [Nat.zero_add] at hbefore hafter
  refine ⟨j, hj, hbefore, hafter, fun calls => ⟨?_, fun hsub => ?_⟩⟩
  · rintro ⟨s, hrun, rfl⟩
    have hserves : ∃ k, Session.Serves bs j s k := by
      induction hrun with
      | refl => exact ⟨0, Session.serves_start bs j⟩
      | tail _ hstep ih =>
          obtain ⟨k, hk⟩ := ih
          exact hk.step hmem hrcv hafter hstep
    obtain ⟨k, hk⟩ := hserves
    have hmade : s.calls <+~ requests bs k :=
      (List.sublist_append_left _ _).subperm.trans hk.perm.subperm
    exact hmade.trans (requests_sublist hk.le).subperm
  · have hshort : ∀ p ∈ (bs.take j).map Subtype.val, p.length < 2 ^ 31 := by
      intro p hp
      obtain ⟨b, hb, rfl⟩ := List.mem_map.1 hp
      obtain ⟨k, hk⟩ := List.mem_iff_getElem?.1 hb
      rw [List.getElem?_take] at hk
      split at hk
      next hlt => exact (hbefore k b hk hlt).1.isInt
      next => cases hk
    have hcreated := Session.exists_created mem hrcv hbefore j le_rfl hj
    obtain ⟨threads, hhandled⟩ := Session.exists_handled create e hmem calls [] hshort hsub
    exact ⟨_, hcreated.trans hhandled, rfl⟩

def interpA : Buf := ⟨cstr "INTERP:a", by decide⟩

def autocompA : Buf := ⟨cstr "AUTOCOMP:a", by decide⟩

/-- The second request may be served before the first one. -/
theorem session_served_interp : ∃ s, Relation.ReflTransGen
    (Session.Step (fun _ => true) (fun _ => true) (pieces 16))
    (Session.start (wireOf [interpA, autocompA])) s ∧
      s.calls = [(.autocomp, cstr "a"), (.interp, cstr "a")] := by
  obtain ⟨j, hj, -, hafter, hiff⟩ := session_served (fun _ => true) (fun _ => rfl) (fun _ => true)
    (pieces 16) rfl [interpA, autocompA]
  have hthrough : ∀ k b, [interpA, autocompA][k]? = some b →
      Served (fun _ => true) (pieces 16) k b := by
    intro k b hb
    have hmem := List.mem_of_getElem? hb
    have hall : ∀ b ∈ [interpA, autocompA], 0 < b.val.length ∧ b.val.length ≤ 16 := by decide
    obtain ⟨hpos, hle⟩ := hall b hmem
    have hsize : 4 ≤ 16 := by decide
    exact ⟨⟨hpos, by omega, rfl, hsize, hle.trans (Nat.le_max_right _ _)⟩, rfl⟩
  have htwo : j = 2 := by
    rcases Nat.lt_or_ge j 2 with hlt | hge
    · obtain ⟨b, hb⟩ : ∃ b, [interpA, autocompA][j]? = some b :=
        ⟨_, List.getElem?_eq_getElem hlt⟩
      exact absurd (hthrough j b hb) (hafter b hb)
    · exact Nat.le_antisymm hj hge
  subst htwo
  refine (hiff _).2 (List.Perm.subperm ?_)
  have hreq : requests [interpA, autocompA] 2 = [(.interp, cstr "a"), (.autocomp, cstr "a")] := by
    decide
  rw [hreq]
  exact List.Perm.swap _ _ _

end Frames

end Yld

end Ylisp
