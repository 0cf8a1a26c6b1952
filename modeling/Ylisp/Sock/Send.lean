import Mathlib.Algebra.Group.Int.Defs
import Mathlib.Algebra.GroupWithZero.Nat
import Mathlib.Data.List.Infix
import Mathlib.Data.Nat.Find
import Ylisp.Sock.Basic

/-!
# `sock_send` when `send` fails

A `send` takes at least one byte of what it is offered, or fails. `sock_send` adds the
result of every `send` of the data to an unsigned counter, -1 too. `delivered_iff` says for
which results of `send` the frame is offered in order and the answer is true.
-/

namespace Ylisp

namespace Sock

/-- The result of a `send` that is offered `sz` bytes: `none` for a failure, or a number of
bytes that it takes at most. -/
def sendResult (sz : ℕ) : Option ℕ → ℤ
  | none => -1
  | some k => min (max 1 k) sz

structure Offer where
  pos : ℕ
  bytes : List UInt8
  result : ℤ
  deriving DecidableEq

def Offer.taken (o : Offer) : ℕ := o.result.toNat

/-- The state of `sock_send`: where it stands, and the calls of `send` so far. -/
structure Sender where
  pos : Pos
  offers : List Offer

def addTo (bs : ℕ) (r : ℤ) : ℕ := ((bs + r) % 2 ^ 32).toNat

/-- The size as the `int` that `sock_send` returns. -/
def sizeInt (b : Buf) : ℤ := (BitVec.ofNat 32 b.val.length).toInt

/-- The next `send` of `sock_send`, or its return. The `i`-th `send` has the result `res i`. -/
def sendRound (res : ℕ → Option ℕ) (b : Buf) (s : Sender) : Sender ⊕ ℤ × List Offer :=
  match s.pos with
  | .size =>
      let r := sendResult 4 (res s.offers.length)
      let offers := s.offers ++ [⟨0, htonl b.val.length, r⟩]
      if 0 > r then .inr (-1, offers) else .inl ⟨.data 0, offers⟩
  | .data bs =>
      if bs < b.val.length then
        let r := sendResult (b.val.length - bs) (res s.offers.length)
        .inl ⟨.data (addTo bs r), s.offers ++ [⟨4 + bs, b.val.drop bs, r⟩]⟩
      else .inr (sizeInt b, s.offers)

def SockSend (res : ℕ → Option ℕ) (b : Buf) (ret : ℤ) (offers : List Offer) : Prop :=
  Machine.Ends (sendRound res b) ⟨.size, []⟩ (ret, offers)

def accepted (l : List Offer) : ℕ := (l.map Offer.taken).sum

/-- Each call offers bytes of `frame` from the first one on that has not been taken, when `n`
bytes were taken before. -/
def InOrder (frame : List UInt8) : ℕ → List Offer → Prop
  | _, [] => True
  | n, o :: l =>
      (o.pos = n ∧ o.bytes ≠ [] ∧ o.bytes <+: frame.drop n) ∧ InOrder frame (n + o.taken) l

/-- `sock_send` returns, has offered the frame in order, and its answer is the size when all has
been taken, and negative otherwise. -/
def Delivered (res : ℕ → Option ℕ) (b : Buf) : Prop :=
  ∃ ret l, SockSend res b ret l ∧ InOrder (htonl b.val.length ++ b.val) 0 l ∧
    if accepted l = 4 + b.val.length then ret = b.val.length else ret < 0

def total (res : ℕ → Option ℕ) : ℕ → ℕ
  | 0 => 0
  | i + 1 => total res i + ((res (i + 1)).map (max 1)).getD 0

/-- No `send` fails as long as data is left. -/
def NoFailure (res : ℕ → Option ℕ) (sz : ℕ) : Prop := ∀ i, total res i < sz → res (i + 1) ≠ none

/-! ### The order of the offers -/

section Order

variable {frame : List UInt8} {l l' : List Offer} {n : ℕ}

@[simp] theorem accepted_nil : accepted [] = 0 := rfl

@[simp] theorem accepted_append : accepted (l ++ l') = accepted l + accepted l' := by
  rw [accepted, List.map_append, List.sum_append, accepted, accepted]

theorem inOrder_append : ∀ (l : List Offer) (n : ℕ),
    InOrder frame n (l ++ l') ↔ InOrder frame n l ∧ InOrder frame (n + accepted l) l'
  | [], n => by simp [InOrder]
  | o :: l, n => by
      have hsum : accepted (o :: l) = o.taken + accepted l := rfl
      rw [List.cons_append, InOrder, InOrder, inOrder_append l, hsum, Nat.add_assoc]
      simp only [and_assoc]

theorem InOrder.of_prefix (h : InOrder frame n l') (hl : l <+: l') : InOrder frame n l := by
  obtain ⟨l₁, rfl⟩ := hl
  exact ((inOrder_append l n).1 h).1

/-- The next call offers other bytes than those that are left. -/
theorem not_inOrder_of_pos {o : Offer} (ho : o.pos ≠ n + accepted l) (hl : l ++ [o] <+: l') :
    ¬ InOrder frame n l' := fun h => ho ((inOrder_append l n).1 (h.of_prefix hl)).2.1.1

end Order

/-! ### The counter -/

theorem addTo_of_lt {bs k : ℕ} (h : bs + k < 2 ^ 32) : addTo bs k = bs + k := by
  rw [addTo]
  omega

theorem addTo_neg {bs : ℕ} (h0 : 0 < bs) (h : bs < 2 ^ 32) : addTo bs (-1) = bs - 1 := by
  rw [addTo]
  omega

theorem sizeInt_eq (b : Buf) :
    sizeInt b = if b.val.length < 2 ^ 31 then (b.val.length : ℤ) else b.val.length - 2 ^ 32 := by
  have hb := b.property
  rw [sizeInt, BitVec.toInt_eq_toNat_cond, BitVec.toNat_ofNat, Nat.mod_eq_of_lt hb]
  split <;> split <;> first | rfl | omega

/-! ### The calls -/

section Calls

variable {res : ℕ → Option ℕ} {b : Buf} {s s' : Sender} {bs i k : ℕ} {l : List Offer}
  {ret : ℤ}

theorem sendResult_some (sz k : ℕ) : sendResult sz (some k) = (min (max 1 k) sz : ℕ) := by
  rw [sendResult]
  omega

theorem sendRound_prefix (h : sendRound res b s = .inl s') : s.offers <+: s'.offers := by
  rw [sendRound] at h
  split at h <;> dsimp only at h <;> split at h <;> cases h <;> exact List.prefix_append _ _

theorem sendRound_prefix_ret (h : sendRound res b s = .inr (ret, l)) : s.offers <+: l := by
  rw [sendRound] at h
  split at h <;> dsimp only at h <;> split at h <;> cases h
  · exact List.prefix_append _ _
  · exact List.prefix_rfl

/-- The calls of a state are among those at the end. -/
theorem prefix_of_ends (h : Machine.Ends (sendRound res b) s (ret, l)) : s.offers <+: l := by
  obtain ⟨k, hk⟩ := h
  induction k generalizing s with
  | zero => cases hk
  | succ k ih =>
      rw [Machine.run] at hk
      cases hs : sendRound res b s with
      | inl s' =>
          rw [hs] at hk
          have hround := sendRound_prefix hs
          exact hround.trans (ih hk)
      | inr r =>
          rw [hs] at hk
          obtain rfl := Option.some.inj hk
          exact sendRound_prefix_ret hs

theorem sendRound_size (hpos : s.pos = .size) (hk : res s.offers.length = some k) :
    sendRound res b s =
      .inl ⟨.data 0, s.offers ++ [⟨0, htonl b.val.length, (min (max 1 k) 4 : ℕ)⟩]⟩ := by
  rw [sendRound, hpos, hk]
  dsimp only
  rw [sendResult_some, if_neg (by omega)]

theorem sendRound_size_none (hpos : s.pos = .size) (hk : res s.offers.length = none) :
    sendRound res b s = .inr (-1, s.offers ++ [⟨0, htonl b.val.length, -1⟩]) := by
  rw [sendRound, hpos, hk]
  rfl

theorem sendRound_data (hpos : s.pos = .data bs) (hbs : bs < b.val.length)
    (hk : res s.offers.length = some k) :
    sendRound res b s = .inl ⟨.data (min (bs + max 1 k) b.val.length),
      s.offers ++ [⟨4 + bs, b.val.drop bs, (min (max 1 k) (b.val.length - bs) : ℕ)⟩]⟩ := by
  have hb := b.property
  rw [sendRound, hpos, hk]
  dsimp only
  rw [if_pos hbs, sendResult_some, addTo_of_lt (by omega)]
  rw [show bs + min (max 1 k) (b.val.length - bs) = min (bs + max 1 k) b.val.length by omega]

theorem sendRound_data_none (hpos : s.pos = .data bs) (hbs : bs < b.val.length)
    (hk : res s.offers.length = none) :
    sendRound res b s =
      .inl ⟨.data (addTo bs (-1)), s.offers ++ [⟨4 + bs, b.val.drop bs, -1⟩]⟩ := by
  rw [sendRound, hpos, hk]
  dsimp only
  rw [if_pos hbs]
  rfl

/-- As long as data is left, there is a next call. -/
theorem sendRound_next (res : ℕ → Option ℕ) (hpos : s.pos = .data bs) (hbs : bs < b.val.length) :
    ∃ s' o, sendRound res b s = .inl s' ∧ o.pos = 4 + bs ∧ s'.offers = s.offers ++ [o] := by
  rw [sendRound, hpos]
  dsimp only
  rw [if_pos hbs]
  exact ⟨_, _, rfl, rfl, rfl⟩

theorem sendRound_done (hpos : s.pos = .data bs) (hbs : b.val.length ≤ bs) :
    sendRound res b s = .inr (sizeInt b, s.offers) := by
  rw [sendRound, hpos]
  dsimp only
  rw [if_neg (Nat.not_lt.2 hbs)]

structure Sent (res : ℕ → Option ℕ) (b : Buf) (i : ℕ) (s : Sender) : Prop where
  pos : s.pos = .data (min (total res i) b.val.length)
  calls : s.offers.length = i + 1
  inOrder : InOrder (htonl b.val.length ++ b.val) 0 s.offers
  taken : accepted s.offers = 4 + min (total res i) b.val.length

theorem total_succ (hk : res (i + 1) = some k) : total res (i + 1) = total res i + max 1 k := by
  rw [total, hk]
  rfl

theorem total_le : ∀ {i j : ℕ}, i ≤ j → total res i ≤ total res j := by
  intro i j h
  induction h with
  | refl => exact le_rfl
  | step _ ih => exact ih.trans (Nat.le_add_right _ _)

theorem Sent.step (h : Sent res b i s) (hlt : total res i < b.val.length)
    (hk : res (i + 1) ≠ none) : ∃ s', sendRound res b s = .inl s' ∧ Sent res b (i + 1) s' := by
  obtain ⟨k, hk⟩ := Option.ne_none_iff_exists'.1 hk
  have hpos := h.pos
  have haccepted := h.taken
  rw [Nat.min_eq_left hlt.le] at hpos haccepted
  refine ⟨_, sendRound_data hpos hlt (by rw [h.calls, hk]), ?_⟩
  refine ⟨by rw [total_succ hk], by rw [List.length_append, h.calls]; rfl, ?_, ?_⟩
  · refine (inOrder_append _ _).2 ⟨h.inOrder, ⟨?_, ?_, ?_⟩, trivial⟩
    · dsimp only
      omega
    · simpa using hlt
    · rw [Nat.zero_add, haccepted, ← List.drop_drop]
      exact List.prefix_rfl
  · rw [accepted_append, haccepted, total_succ hk]
    simp only [accepted, List.map_cons, List.map_nil, List.sum_cons, List.sum_nil,
      Offer.taken, Int.toNat_natCast]
    omega

theorem Sent.reaches {s₀ : Sender} (h : Sent res b 0 s₀) : ∀ {i : ℕ},
    (∀ j < i, total res j < b.val.length ∧ res (j + 1) ≠ none) →
      ∃ s, Machine.Reaches (sendRound res b) s₀ s ∧ Sent res b i s
  | 0, _ => ⟨s₀, Relation.ReflTransGen.refl, h⟩
  | i + 1, hi => by
      obtain ⟨s, hs, hsent⟩ := h.reaches fun j hj => hi j (Nat.lt_succ_of_lt hj)
      obtain ⟨s', hs', hsent'⟩ := hsent.step (hi i i.lt_succ_self).1 (hi i i.lt_succ_self).2
      exact ⟨s', hs.tail hs', hsent'⟩

theorem exists_total (h : NoFailure res b.val.length) : ∃ i, b.val.length ≤ total res i := by
  by_contra hall
  simp only [not_exists, not_le] at hall
  have hle : ∀ i, i ≤ total res i := by
    intro i
    induction i with
    | zero => exact le_rfl
    | succ i ih =>
        obtain ⟨k, hk⟩ := Option.ne_none_iff_exists'.1 (h i (hall i))
        rw [total_succ hk]
        omega
  exact absurd (hall b.val.length) (Nat.not_lt.2 (hle _))

theorem Sent.ends {s₀ : Sender} (h : Sent res b 0 s₀) (hno : NoFailure res b.val.length) :
    ∃ l, Machine.Ends (sendRound res b) s₀ (sizeInt b, l) ∧
      InOrder (htonl b.val.length ++ b.val) 0 l ∧ accepted l = 4 + b.val.length := by
  have hex := exists_total hno
  have hi := Nat.find_spec hex
  obtain ⟨s, hs, hsent⟩ := h.reaches (i := Nat.find hex) fun j hj =>
    have hlt := Nat.not_le.1 (Nat.find_min hex hj)
    ⟨hlt, hno j hlt⟩
  refine ⟨s.offers, hs.ends (.of_result (sendRound_done hsent.pos ?_)), hsent.inOrder, ?_⟩
  · rw [Nat.min_eq_right hi]
  · rw [hsent.taken, Nat.min_eq_right hi]

theorem Sent.first_failure {s₀ : Sender} (h : Sent res b 0 s₀)
    (hno : ¬ NoFailure res b.val.length) :
    ∃ i s, Machine.Reaches (sendRound res b) s₀ s ∧ Sent res b i s ∧
      total res i < b.val.length ∧ res (i + 1) = none ∧ (i = 0 ↔ res 1 = none) := by
  simp only [NoFailure, not_forall, not_not] at hno
  have hspec := Nat.find_spec hno
  have hmin := fun j hj => Nat.find_min hno (m := j) hj
  generalize Nat.find hno = i at *
  have hbefore : ∀ j < i, total res j < b.val.length ∧ res (j + 1) ≠ none := fun j hj =>
    have hlt := (total_le hj.le).trans_lt hspec.1
    ⟨hlt, fun hj' => hmin j hj ⟨hlt, hj'⟩⟩
  obtain ⟨s, hs, hsent⟩ := h.reaches hbefore
  refine ⟨i, s, hs, hsent, hspec.1, hspec.2, ?_, fun h1 => ?_⟩
  · rintro rfl
    exact hspec.2
  · by_contra h0
    exact (hbefore 0 (Nat.pos_of_ne_zero h0)).2 h1

/-- A failure behind the first byte makes the next call offer that byte again. -/
theorem Sent.not_inOrder {s₀ : Sender} (h : Sent res b i s)
    (hs : Machine.Reaches (sendRound res b) s₀ s) (hi : 0 < total res i)
    (hlt : total res i < b.val.length) (hk : res (i + 1) = none)
    (hends : Machine.Ends (sendRound res b) s₀ (ret, l)) :
    ¬ InOrder (htonl b.val.length ++ b.val) 0 l := by
  have hb := b.property
  have hpos := h.pos
  have htaken := h.taken
  rw [Nat.min_eq_left hlt.le] at hpos htaken
  have hcall : res s.offers.length = none := by rw [h.calls, hk]
  have hfail := sendRound_data_none hpos hlt hcall
  have hback := addTo_neg hi (by omega)
  obtain ⟨s', o, hs', ho, hoffers⟩ := sendRound_next res (b := b)
    (s := ⟨.data (addTo (total res i) (-1)), _⟩) rfl (by omega)
  have hreaches : Machine.Reaches (sendRound res b) s₀ s' := (hs.tail hfail).tail hs'
  have hends' := hreaches.ends_iff.1 hends
  refine not_inOrder_of_pos ?_ (hoffers ▸ prefix_of_ends hends')
  have hone : accepted [⟨4 + total res i, b.val.drop (total res i), -1⟩] = 0 := rfl
  rw [ho, accepted_append, htaken, hone, hback]
  omega

theorem Sent.ends_first {s₀ : Sender} (h : Sent res b 0 s₀) (hpos : 0 < b.val.length)
    (hk : res 1 = none) : ∃ l, Machine.Ends (sendRound res b) s₀ (sizeInt b, l) ∧
      InOrder (htonl b.val.length ++ b.val) 0 l ∧ accepted l = 4 := by
  have hb := b.property
  have hcall : res s₀.offers.length = none := by rw [h.calls, hk]
  have hfail := sendRound_data_none h.pos (by simpa [total] using hpos) hcall
  have htaken := h.taken
  refine ⟨_, .of_step hfail (.of_result (sendRound_done rfl ?_)), ?_, ?_⟩
  · rw [total, addTo]
    omega
  · refine (inOrder_append _ _).2 ⟨h.inOrder, ⟨?_, ?_, ?_⟩, trivial⟩
    · rw [Nat.zero_add, htaken]
    · rw [total, Nat.zero_min, List.drop_zero]
      exact List.ne_nil_of_length_pos hpos
    · rw [Nat.zero_add, htaken, ← List.drop_drop]
      exact List.prefix_rfl
  · rw [accepted_append, htaken, total, Nat.zero_min]
    rfl

theorem delivered_iff_of_ends (h : SockSend res b ret l) : Delivered res b ↔
    InOrder (htonl b.val.length ++ b.val) 0 l ∧
      if accepted l = 4 + b.val.length then ret = b.val.length else ret < 0 := by
  constructor
  · rintro ⟨ret', l', h', hlaw⟩
    obtain ⟨rfl, rfl⟩ := Prod.mk.inj (h'.unique h)
    exact hlaw
  · exact fun hlaw => ⟨ret, l, h, hlaw⟩

/-- The header is offered, and taken with `k` bytes at most. -/
theorem reaches_data (hk : res 0 = some k) :
    Machine.Reaches (sendRound res b) ⟨.size, []⟩
      ⟨.data 0, [⟨0, htonl b.val.length, (min (max 1 k) 4 : ℕ)⟩]⟩ :=
  .of_step (sendRound_size rfl hk)

theorem inOrder_header (b : Buf) (r : ℤ) :
    InOrder (htonl b.val.length ++ b.val) 0 [⟨0, htonl b.val.length, r⟩] :=
  ⟨⟨rfl, by simp [htonl], List.prefix_append _ _⟩, trivial⟩

theorem sent_zero (hk : 4 ≤ k) :
    Sent res b 0 ⟨.data 0, [⟨0, htonl b.val.length, (min (max 1 k) 4 : ℕ)⟩]⟩ where
  pos := by rw [total, Nat.zero_min]
  calls := rfl
  inOrder := inOrder_header b _
  taken := by
    rw [total, Nat.zero_min, show min (max 1 k) 4 = 4 by omega]
    rfl

/-- The size is cut: the first byte of the data is not the next one of the frame. -/
theorem not_delivered_of_cut (hk : res 0 = some k) (hcut : k < 4) : ¬ Delivered res b := by
  have hreaches := reaches_data (b := b) hk
  rintro ⟨ret, l, hends, horder, hret⟩
  have hends' := hreaches.ends_iff.1 hends
  have htaken : accepted [⟨0, htonl b.val.length, (min (max 1 k) 4 : ℕ)⟩] = max 1 k := by
    simp only [accepted, List.map_cons, List.map_nil, List.sum_cons, List.sum_nil,
      Offer.taken, Int.toNat_natCast]
    omega
  by_cases hpos : 0 < b.val.length
  · obtain ⟨s', o, hs', ho, hoffers⟩ := sendRound_next res (b := b) (s := ⟨.data 0, _⟩) rfl hpos
    refine not_inOrder_of_pos ?_ (hoffers ▸ prefix_of_ends ((Machine.Ends.step_iff hs').1 hends'))
      horder
    rw [ho, htaken]
    omega
  · have hdone := (Machine.Ends.result_iff (sendRound_done rfl (Nat.not_lt.1 hpos))).1 hends'
    obtain ⟨rfl, rfl⟩ := Prod.mk.inj hdone
    rw [htaken, if_neg (by omega), sizeInt_eq, if_pos (by omega)] at hret
    omega

/-- No `send` fails: the answer is the size as an `int`. -/
theorem delivered_of_noFailure (hk : res 0 = some k) (hcut : 4 ≤ k)
    (hno : NoFailure res b.val.length) : Delivered res b ↔ b.val.length < 2 ^ 31 := by
  have hsent : Sent res b 0 _ := sent_zero hcut
  obtain ⟨l, hends, horder, htaken⟩ := hsent.ends hno
  rw [delivered_iff_of_ends ((reaches_data hk).ends hends), if_pos htaken, and_iff_right horder,
    sizeInt_eq]
  split
  next hlt => exact iff_of_true rfl hlt
  next hlt => exact iff_of_false (by omega) hlt

/-- A `send` of the data fails: after the first one the data would be offered again, from a byte
before. -/
theorem delivered_of_failure (hk : res 0 = some k) (hcut : 4 ≤ k)
    (hno : ¬ NoFailure res b.val.length) :
    Delivered res b ↔ 2 ^ 31 ≤ b.val.length ∧ res 1 = none := by
  have hsent : Sent res b 0 _ := sent_zero hcut
  have hreaches := reaches_data (b := b) hk
  obtain ⟨i, s, hs, hsent', hlt, hnone, hi⟩ := hsent.first_failure hno
  by_cases h0 : i = 0
  · obtain ⟨l, hends, horder, htaken⟩ := hsent.ends_first (by omega) (hi.1 h0)
    rw [delivered_iff_of_ends (hreaches.ends hends), htaken, if_neg (by omega),
      and_iff_right horder, sizeInt_eq, and_iff_left (hi.1 h0)]
    have hb := b.property
    split <;> omega
  · have hpos : 0 < total res i := by
      obtain ⟨k', hk'⟩ := Option.ne_none_iff_exists'.1 fun h => h0 (hi.2 h)
      have hle : total res 1 ≤ total res i := total_le (Nat.pos_of_ne_zero h0)
      rw [total_succ hk'] at hle
      omega
    refine iff_of_false ?_ fun h => h0 (hi.2 h.2)
    rintro ⟨ret, l, hends, horder, -⟩
    exact hsent'.not_inOrder hs hpos hlt hnone (hreaches.ends_iff.1 hends) horder

/-- `sock_send` offers the frame in order and its answer is true if and only if the `send` of
the size fails, or takes it whole and then no `send` fails; the latter for data of less than
2^31 bytes. For longer data, the answer is true when the first `send` of it fails. -/
theorem delivered_iff (res : ℕ → Option ℕ) (b : Buf) :
    Delivered res b ↔ res 0 = none ∨ (∃ k, res 0 = some k ∧ 4 ≤ k) ∧
      (b.val.length < 2 ^ 31 ∧ NoFailure res b.val.length ∨
        2 ^ 31 ≤ b.val.length ∧ res 1 = none) := by
  cases hk : res 0 with
  | none =>
      have hends : SockSend res b (-1) [⟨0, htonl b.val.length, -1⟩] :=
        .of_result (sendRound_size_none rfl hk)
      refine iff_of_true ((delivered_iff_of_ends hends).2 ⟨inOrder_header b _, ?_⟩) (Or.inl rfl)
      have htaken : accepted [⟨0, htonl b.val.length, -1⟩] = 0 := rfl
      rw [htaken, if_neg (by omega)]
      decide
  | some k =>
      by_cases hcut : k < 4
      · refine iff_of_false (not_delivered_of_cut hk hcut) ?_
        rintro (h | ⟨⟨k', h, hk'⟩, -⟩)
        · cases h
        · cases h
          omega
      have hwhole := Nat.not_lt.1 hcut
      rw [or_iff_right (Option.some_ne_none k), and_iff_right ⟨k, rfl, hwhole⟩]
      by_cases hno : NoFailure res b.val.length
      · have hfirst : 0 < b.val.length → res 1 ≠ none := hno 0
        rw [delivered_of_noFailure hk hwhole hno, and_iff_left hno]
        exact (or_iff_left fun h => hfirst (by omega) h.2).symm
      · rw [delivered_of_failure hk hwhole hno, or_iff_right fun h => hno h.2]

/-- One byte, which `send` refuses: `sock_send` answers that it has sent it. -/
theorem not_delivered_refused :
    ¬ Delivered (fun i => if i = 0 then some 4 else none) ⟨[7], by decide⟩ := by
  have hends : SockSend (fun i => if i = 0 then some 4 else none) ⟨[7], by decide⟩ 1
      [⟨0, [0, 0, 0, 1], 4⟩, ⟨4, [7], -1⟩] := ⟨3, by decide⟩
  rw [delivered_iff_of_ends hends]
  rintro ⟨-, hret⟩
  rw [if_neg (by decide)] at hret
  exact absurd hret (by decide)

def wire (l : List Offer) : List UInt8 := l.flatMap fun o => o.bytes.take o.taken

theorem wire_append (l l' : List Offer) : wire (l ++ l') = wire l ++ wire l' :=
  List.flatMap_append

theorem wire_singleton (o : Offer) : wire [o] = o.bytes.take o.taken := List.flatMap_singleton _ _

theorem wire_data {accept : ℕ → ℕ} (hres : ∀ i, res i = some (accept i)) :
    ∀ (n : ℕ) {bs : ℕ} {l₀ : List Offer}, bs ≤ b.val.length →
      Machine.run (sendRound res b) n ⟨.data bs, l₀⟩ = some (ret, l) →
        wire l = wire l₀ ++ b.val.drop bs
  | 0, _, _, _, h => by cases h
  | n + 1, bs, l₀, hbs, h => by
      rw [Machine.run] at h
      rcases Nat.lt_or_ge bs b.val.length with hlt | hge
      · rw [sendRound_data rfl hlt (hres _)] at h
        rw [wire_data hres n (Nat.min_le_right _ _) h, wire_append, wire_singleton,
          List.append_assoc]
        congr 1
        rw [Offer.taken, Int.toNat_natCast,
          show min (bs + max 1 (accept l₀.length)) b.val.length =
            bs + min (max 1 (accept l₀.length)) (b.val.length - bs) by omega,
          ← List.drop_drop, List.take_append_drop]
      · rw [sendRound_done rfl hge] at h
        obtain ⟨rfl, rfl⟩ := Prod.mk.inj (Option.some.inj h)
        rw [List.drop_of_length_le hge, List.append_nil]

/-- When no `send` fails, the bytes on the wire are those of `sockSend`. -/
theorem wire_eq_sockSend {accept : ℕ → ℕ} (hres : ∀ i, res i = some (accept i))
    (h : SockSend res b ret l) : wire l = sockSend accept b := by
  obtain ⟨n, hn⟩ := (reaches_data (hres 0)).ends_iff.1 h
  rw [wire_data hres n (Nat.zero_le _) hn, wire_singleton, sockSend_eq, List.drop_zero]
  congr 1
  rw [Offer.taken, Int.toNat_natCast, send, show 4 = (htonl b.val.length).length from rfl,
    ← List.take_eq_take_min]

end Calls

end Sock

end Ylisp
