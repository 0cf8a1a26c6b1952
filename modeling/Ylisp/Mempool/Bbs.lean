import Mathlib.Algebra.BigOperators.Group.Finset.Piecewise
import Mathlib.Algebra.Order.BigOperators.Group.Finset
import Ylisp.Library.Critical
import Ylisp.Mempool.Pool

/-!
# The stack of the base blocks

`ylmp_add_bb` and `ylmp_rm_bb` on the one stack of all threads, under the mutex `_mbbs`. The limit
and the size of the stack are values of `unsigned int`, the index of the search is an `int`: the
stack grows right as long as its limit can be doubled, and a block is found as long as the size is
at most 2^31. In every run in which the calls meet this (`Fits`), the contents are what the calls
leave one after the other (`bbs_law`).
-/

namespace Ylisp

namespace Mempool

variable {α : Type*}

/-- `ylstk_t`. An item that has not been written to is `none`. -/
structure Ylstk (α : Type*) where
  item : List (Option α)
  limit : ℕ
  sz : ℕ

def ylstkCreate (initLimit : ℕ) : Ylstk α :=
  let initLimit := if 0 = initLimit then 16 else initLimit
  ⟨List.replicate initLimit none, initLimit, 0⟩

/-- The doubling in `ylstk_push`: the new items have the size that is asked for, and what does not
fit in an `unsigned int` is lost in `limit` only. Undefined where `memcpy` leaves its memory. -/
def Ylstk.grow (s : Ylstk α) : Option (Ylstk α) :=
  if s.sz ≤ s.limit * 2 ∧ s.sz ≤ s.item.length then
    some { s with
      item := s.item.take s.sz ++ List.replicate (s.limit * 2 - s.sz) none
      limit := s.limit * 2 % 2 ^ 32 }
  else none

/-- `s->item[s->sz++] = item`. -/
def Ylstk.store (s : Ylstk α) (item : α) : Option (Ylstk α) :=
  if s.sz < s.item.length then
    some { s with item := s.item.set s.sz (some item), sz := (s.sz + 1) % 2 ^ 32 }
  else none

def ylstkPush (s : Ylstk α) (item : α) : Option (Ylstk α) := do
  let s ← if s.sz ≥ s.limit then s.grow else some s
  s.store item

/-- The `memmove` of `ylmp_rm_bb` and the new size. -/
def Ylstk.removeAt (s : Ylstk α) (i : ℕ) : Option (Ylstk α) :=
  if s.sz ≤ s.item.length then
    some { s with
      item := s.item.take i ++ (s.item.take s.sz).drop (i + 1) ++ s.item.drop (s.sz - 1)
      sz := s.sz - 1 }
  else none

structure Ylstk.Holds (s : Ylstk α) (l : List α) : Prop where
  items : s.item.take s.sz = l.reverse.map some
  size : s.sz = l.length
  limit_le : s.limit ≤ s.item.length
  limit_lt : s.limit < 2 ^ 32
  sz_lt : s.sz < 2 ^ 32

section Stack

variable {s : Ylstk α} {l : List α} {e : α}

theorem Ylstk.Holds.le_length (hs : s.Holds l) : s.sz ≤ s.item.length := by
  have h := congrArg List.length hs.items
  rw [List.length_take, List.length_map, List.length_reverse, ← hs.size] at h
  omega

theorem holds_ylstkCreate {k : ℕ} (hk : k < 2 ^ 32) : (ylstkCreate k : Ylstk α).Holds [] := by
  have hlimit : (if 0 = k then 16 else k) < 2 ^ 32 := by
    split <;> omega
  exact ⟨rfl, rfl, (List.length_replicate ..).ge, hlimit, Nat.two_pow_pos 32⟩

/-- The doubled stack has room, but its limit may be lost. -/
theorem Ylstk.Holds.grow (hs : s.Holds l) (hsz : s.sz ≤ s.limit * 2) :
    ∃ s', s.grow = some s' ∧ s'.Holds l ∧ s'.item.length = s.limit * 2 ∧ s'.sz = s.sz := by
  have hle := hs.le_length
  have hlen : (s.item.take s.sz ++ List.replicate (s.limit * 2 - s.sz) none).length =
      s.limit * 2 := by
    rw [List.length_append, List.length_take, List.length_replicate]
    omega
  refine ⟨_, if_pos ⟨hsz, hle⟩, ⟨?_, hs.size, ?_, Nat.mod_lt _ (by decide), hs.sz_lt⟩, hlen, rfl⟩
  · rw [← hs.items]
    exact List.take_left' (List.length_take_of_le hle)
  · exact (Nat.mod_le _ _).trans hlen.ge

theorem Ylstk.Holds.store_iff (hs : s.Holds l) :
    (∃ s', s.store e = some s' ∧ s'.Holds (e :: l)) ↔
      s.sz < s.item.length ∧ s.sz + 1 < 2 ^ 32 := by
  rw [Ylstk.store]
  constructor
  · rintro ⟨s', h, hs'⟩
    split at h
    next hlen =>
      cases h
      have hsize : (s.sz + 1) % 2 ^ 32 = l.length + 1 := hs'.size
      have hlt := Nat.mod_lt (s.sz + 1) (Nat.two_pow_pos 32)
      rw [hsize, ← hs.size] at hlt
      exact ⟨hlen, hlt⟩
    · cases h
  · rintro ⟨hlen, hsz⟩
    have hmod : (s.sz + 1) % 2 ^ 32 = s.sz + 1 := Nat.mod_eq_of_lt hsz
    refine ⟨_, if_pos hlen, ?_, ?_, ?_, hs.limit_lt, Nat.mod_lt _ (by decide)⟩
    · dsimp only
      rw [hmod, List.take_add_one, List.take_set_of_le le_rfl, hs.items,
        List.getElem?_set_self hlen, List.reverse_cons, List.map_append]
      rfl
    · dsimp only
      rw [hmod, List.length_cons, hs.size]
    · dsimp only
      rw [List.length_set]
      exact hs.limit_le

/-- A block is pushed as long as the stack has room for it, or can be doubled. -/
theorem ylstkPush_iff (hs : s.Holds l) :
    (∃ s', ylstkPush s e = some s' ∧ s'.Holds (e :: l)) ↔
      s.sz < s.limit * 2 ∧ s.sz + 1 < 2 ^ 32 := by
  have hlt := hs.limit_lt
  have hle := hs.limit_le
  rw [ylstkPush]
  split
  next hfull =>
    by_cases hsz : s.sz ≤ s.limit * 2
    · obtain ⟨s₁, h₁, hs₁, hlen, hsame⟩ := hs.grow hsz
      rw [h₁]
      refine hs₁.store_iff.trans ?_
      rw [hlen, hsame]
    · rw [Ylstk.grow, if_neg fun h => hsz h.1]
      exact iff_of_false nofun fun h => hsz h.1.le
  next hroom =>
    refine hs.store_iff.trans (iff_of_true ⟨?_, ?_⟩ ⟨?_, ?_⟩) <;> omega

theorem Ylstk.Holds.mem_take (hs : s.Holds l) : some e ∈ s.item.take s.sz ↔ e ∈ l := by
  rw [hs.items]
  simp

/-- The items above the one that is removed are moved down. -/
theorem Ylstk.Holds.removeAt {as bs : List α} (hs : s.Holds (as ++ e :: bs).reverse) :
    ∃ s', s.removeAt as.length = some s' ∧ s'.Holds (as ++ bs).reverse := by
  have hle := hs.le_length
  have hitems := hs.items
  have hsize := hs.size
  rw [List.reverse_reverse, List.map_append, List.map_cons] at hitems
  rw [List.length_reverse, List.length_append, List.length_cons] at hsize
  have hlow : s.item.take as.length = as.map some := by
    have h := congrArg (List.take as.length) hitems
    rwa [List.take_take, min_eq_left (by omega), List.take_left' (List.length_map ..)] at h
  have hhigh : (s.item.take s.sz).drop (as.length + 1) = bs.map some := by
    have hdrop : as.length + 1 = (as.map some ++ [some e]).length := by simp
    rw [hitems, List.append_cons, hdrop, List.drop_left]
  have hlen : (as.map some ++ bs.map some : List (Option α)).length = s.sz - 1 := by
    rw [List.length_append, List.length_map, List.length_map]
    omega
  refine ⟨_, if_pos hle, ?_, ?_, ?_, hs.limit_lt, ?_⟩
  · dsimp only
    rw [hlow, hhigh, List.take_left' hlen, List.reverse_reverse, List.map_append]
  · dsimp only
    rw [List.length_reverse, List.length_append]
    omega
  · dsimp only
    rw [hlow, hhigh, List.length_append, hlen, List.length_drop]
    have hlimit := hs.limit_le
    omega
  · have hlt := hs.sz_lt
    dsimp only
    omega

theorem Ylstk.store_limit {s' : Ylstk α} (h : s.store e = some s') : s'.limit = s.limit := by
  rw [Ylstk.store] at h
  split at h
  · cases h
    rfl
  · cases h

theorem ylstkPush_limit {s' : Ylstk α} (h : ylstkPush s e = some s') :
    s'.limit = if s.sz ≥ s.limit then s.limit * 2 % 2 ^ 32 else s.limit := by
  rw [ylstkPush] at h
  split at h
  next hfull =>
    obtain ⟨s₁, h₁, h₂⟩ := Option.bind_eq_some_iff.1 h
    rw [Ylstk.store_limit h₂, if_pos hfull]
    rw [Ylstk.grow] at h₁
    split at h₁
    · cases h₁
      rfl
    · cases h₁
  next hroom => rw [Ylstk.store_limit h, if_neg hroom]

end Stack

inductive BbCall (α : Type*) where
  | add (e : α)
  | rm (e : α)
  deriving DecidableEq

/-- The places in the bodies of the calls. -/
inductive BbPc (α : Type*) where
  | push (e : α)
  | top (e : α)
  | loop (e : α) (i : ℤ)

variable [DecidableEq α]

/-- `ylmp_add_bb` and `ylmp_rm_bb`, between the lock and the unlock. The index is an `int`. -/
def bbStep : BbPc α × Ylstk α → (BbPc α × Ylstk α) ⊕ Option (Ylstk α)
  | (.push e, s) => .inr (ylstkPush s e)
  | (.top e, s) => .inl (.loop e (((s.sz : ℤ) - 1).bmod (2 ^ 32)), s)
  | (.loop e i, s) =>
      if 0 ≤ i then
        match (s.item[i.toNat]?).join with
        | none => .inr none
        | some x => if x = e then .inr (s.removeAt i.toNat) else .inl (.loop e (i - 1), s)
      else .inr (some s)

def bbBody : Critical.Body (BbCall α) (Ylstk α) (BbPc α) where
  start
    | .add e => .push e
    | .rm e => .top e
  step := bbStep

def bbsAfter (l : List α) : BbCall α → List α
  | .add e => e :: l
  | .rm e => l.erase e

theorem bbs_ylmpAddBb {n : ℕ} (p : Pool n) (e : Ref n) :
    (ylmpAddBb p e).bbs = bbsAfter p.bbs (.add e) := rfl

theorem bbs_ylmpRmBb {n : ℕ} (p : Pool n) (e : Ref n) :
    (ylmpRmBb p e).bbs = bbsAfter p.bbs (.rm e) := rfl

/-- The condition that a call does what it is to do. -/
def Fits (s : Ylstk α) : BbCall α → Prop
  | .add _ => s.sz < s.limit * 2 ∧ s.sz + 1 < 2 ^ 32
  | .rm e => s.sz ≤ 2 ^ 31 ∨ some e ∉ s.item.take s.sz

section Calls

variable {s : Ylstk α} {l : List α} {e : α}

/-- The search from an item on, when the block is not among the items above. -/
theorem ends_loop {as bs : List α} (hs : s.Holds (as ++ bs).reverse) (he : e ∉ bs) :
    ∃ s', Machine.Ends bbStep (.loop e ((as.length : ℤ) - 1), s) (some s') ∧
      s'.Holds ((as ++ bs).reverse.erase e) := by
  induction as using List.reverseRecOn generalizing bs with
  | nil =>
      refine ⟨s, .of_result ?_, ?_⟩
      · rw [bbStep, if_neg (by simp)]
      · rw [List.erase_of_not_mem (by simpa using he)]
        exact hs
  | append_singleton as a ih =>
      rw [List.append_assoc, List.singleton_append] at hs ⊢
      have hidx : ((as ++ [a]).length : ℤ) - 1 = as.length := by simp
      have hread : (s.item[as.length]?).join = some a := by
        have hlt : as.length < s.sz := by
          rw [hs.size, List.length_reverse, List.length_append, List.length_cons]
          omega
        rw [← List.getElem?_take_of_lt hlt, hs.items, List.reverse_reverse]
        simp
      by_cases heq : a = e
      · subst heq
        obtain ⟨s', h', hs'⟩ := hs.removeAt
        refine ⟨s', .of_result ?_, ?_⟩
        · rw [hidx, bbStep, if_pos (by omega), Int.toNat_natCast, hread]
          dsimp only
          rw [if_pos rfl, h']
        · have herase : (as ++ a :: bs).reverse.erase a = (as ++ bs).reverse := by
            rw [List.reverse_append, List.reverse_cons, List.append_assoc, List.singleton_append,
              List.erase_append_right _ (by simpa using he), List.erase_cons_head,
              List.reverse_append]
          rw [herase]
          exact hs'
      · obtain ⟨s', h', hs'⟩ := ih hs (by simp [Ne.symm heq, he])
        refine ⟨s', .of_step ?_ h', hs'⟩
        rw [hidx, bbStep, if_pos (by omega), Int.toNat_natCast, hread]
        dsimp only
        rw [if_neg heq]

/-- With 2^31 + 1 items and more, the index is negative, and the loop is not entered. -/
theorem ends_top_of_gt (hgt : 2 ^ 31 < s.sz) (hlt : s.sz < 2 ^ 32) :
    Machine.Ends bbStep (.top e, s) (some s) := by
  have hneg : ((s.sz : ℤ) - 1).bmod (2 ^ 32) < 0 := by
    rw [Int.bmod_neg_iff (by omega) (by omega)]
    omega
  exact .of_step rfl (.of_result (by rw [bbStep, if_neg (by omega)]))

theorem ends_top_iff (hs : s.Holds l) :
    (∃ s', Machine.Ends bbStep (.top e, s) (some s') ∧ s'.Holds (l.erase e)) ↔
      s.sz ≤ 2 ^ 31 ∨ some e ∉ s.item.take s.sz := by
  have hlt := hs.sz_lt
  rcases le_or_gt s.sz (2 ^ 31) with hle | hgt
  · refine iff_of_true ?_ (.inl hle)
    have hidx : ((s.sz : ℤ) - 1).bmod (2 ^ 32) = (l.reverse.length : ℤ) - 1 := by
      rw [List.length_reverse, ← hs.size]
      rw [Int.bmod_eq_of_le_mul_two] <;> omega
    rw [← List.reverse_reverse l, ← List.append_nil l.reverse] at hs
    obtain ⟨s', h', hs'⟩ := ends_loop hs (e := e) List.not_mem_nil
    rw [List.append_nil, List.reverse_reverse] at hs'
    exact ⟨s', .of_step (by rw [bbStep, hidx]) h', hs'⟩
  · have hends : Machine.Ends bbStep (.top e, s) (some s) := ends_top_of_gt hgt hlt
    have hnot : ¬ s.sz ≤ 2 ^ 31 := by omega
    rw [or_iff_right hnot, hs.mem_take]
    constructor
    · rintro ⟨s', h', hs'⟩ hmem
      cases hends.unique h'
      have hlen := List.length_erase_of_mem hmem
      have hpos := List.length_pos_of_mem hmem
      rw [← hs'.size, ← hs.size] at hlen
      rw [← hs.size] at hpos
      omega
    · intro hmem
      refine ⟨s, hends, ?_⟩
      rw [List.erase_of_not_mem hmem]
      exact hs

/-- A call does what it is to do exactly where it fits. -/
theorem call_iff (hs : s.Holds l) (a : BbCall α) :
    (∃ s', Machine.Ends bbBody.step (bbBody.start a, s) (some s') ∧ s'.Holds (bbsAfter l a)) ↔
      Fits s a := by
  cases a with
  | add e =>
      rw [Fits, ← ylstkPush_iff hs (e := e)]
      have hends : ∀ s', Machine.Ends bbStep (.push e, s) (some s') ↔ ylstkPush s e = some s' :=
        fun s' => (Machine.Ends.result_iff (by rw [bbStep])).trans eq_comm
      exact exists_congr fun s' => and_congr_left' (hends s')
  | rm e => exact ends_top_iff hs

end Calls

section Runs

open Critical

variable {τ : Type*} [DecidableEq τ]

def registered (es : List (BbCall α)) : List α := es.foldl bbsAfter []

/-- At no time has a thread removed a block more often than it has added it. -/
def Tidy (done : List (τ × BbCall α)) : Prop :=
  ∀ p, p <+: done → ∀ t e, p.count (t, .rm e) ≤ p.count (t, .add e)

/-- What is to hold in a state. Where no thread has the mutex, the stack holds what the calls that
have returned leave. When the threads are tidy, these are the blocks added without those removed,
and a block stays that some thread has added more often than it has removed it. -/
structure BbsLaw (c : Conf τ (BbCall α) (Ylstk α) (BbPc α)) : Prop where
  defined : ∀ t e, c.phase t ≠ .stuck e
  exclusive : ∀ t t', Inside c t → Inside c t' → t = t'
  contents : c.owner = none → c.shared.Holds (registered (c.done.map Prod.snd))
  balance : Tidy c.done → ∀ e, (registered (c.done.map Prod.snd)).count e +
    (c.done.map Prod.snd).count (.rm e) = (c.done.map Prod.snd).count (.add e)
  kept : c.owner = none → Tidy c.done → ∀ t e,
    c.done.count (t, .rm e) < c.done.count (t, .add e) → some e ∈ c.shared.item.take c.shared.sz

variable {done : List (τ × BbCall α)} {e : α}

omit [DecidableEq τ] in
theorem registered_snoc (es : List (BbCall α)) (a : BbCall α) :
    registered (es ++ [a]) = bbsAfter (registered es) a := List.foldl_concat ..

theorem count_map_snd (done : List (τ × BbCall α)) (a : BbCall α) {S : Finset τ}
    (hS : ∀ x ∈ done, x.1 ∈ S) :
    (done.map Prod.snd).count a = ∑ t ∈ S, done.count (t, a) := by
  induction done with
  | nil => simp
  | cons x done ih =>
      obtain ⟨u, a'⟩ := x
      have hu : u ∈ S := hS _ List.mem_cons_self
      have hone : ∑ t ∈ S, (if (u, a') = (t, a) then 1 else 0) = if a' = a then 1 else 0 := by
        by_cases ha : a' = a
        · simp [ha, hu]
        · simp [ha]
      simp only [List.map_cons, List.count_cons, beq_iff_eq, Finset.sum_add_distrib, hone,
        ih fun y hy => hS y (List.mem_cons_of_mem _ hy)]

/-- The calls of one kind, added up over the threads that have made a call. -/
theorem count_eq_sum (done : List (τ × BbCall α)) (a : BbCall α) :
    (done.map Prod.snd).count a = ∑ t ∈ (done.map Prod.fst).toFinset, done.count (t, a) :=
  count_map_snd done a fun _ hx => List.mem_toFinset.2 (List.mem_map_of_mem hx)

theorem Tidy.of_snoc {x : τ × BbCall α} (h : Tidy (done ++ [x])) : Tidy done :=
  fun p hp => h p (hp.trans (List.prefix_append _ _))

theorem Tidy.count_le (h : Tidy done) (e : α) :
    (done.map Prod.snd).count (.rm e) ≤ (done.map Prod.snd).count (.add e) := by
  rw [count_eq_sum, count_eq_sum]
  exact Finset.sum_le_sum fun t _ => h done List.prefix_rfl t e

theorem Tidy.count_lt (h : Tidy done) {t : τ}
    (ht : done.count (t, .rm e) < done.count (t, .add e)) :
    (done.map Prod.snd).count (.rm e) < (done.map Prod.snd).count (.add e) := by
  have hmem : (t, .add e) ∈ done := List.count_pos_iff.1 (by omega)
  have hthread : t ∈ (done.map Prod.fst).toFinset :=
    List.mem_toFinset.2 (List.mem_map_of_mem hmem)
  rw [count_eq_sum, count_eq_sum]
  exact Finset.sum_lt_sum (fun t _ => h done List.prefix_rfl t e) ⟨t, hthread, ht⟩

theorem Tidy.balance (h : Tidy done) (e : α) :
    (registered (done.map Prod.snd)).count e + (done.map Prod.snd).count (.rm e) =
      (done.map Prod.snd).count (.add e) := by
  induction done using List.reverseRecOn with
  | nil => rfl
  | append_singleton done x ih =>
      obtain ⟨t, a⟩ := x
      have hold := ih h.of_snoc
      have hle := h.count_le e
      rw [List.map_append, List.map_singleton, registered_snoc, List.count_append,
        List.count_append]
      rw [List.map_append, List.map_singleton, List.count_append, List.count_append] at hle
      cases a with
      | add x =>
          have hrm : ([.add x] : List (BbCall α)).count (.rm e) = 0 := by simp
          have hadd : ([.add x] : List (BbCall α)).count (.add e) = if x = e then 1 else 0 := by
            simp [List.count_singleton]
          have hcount := List.count_cons (a := e) (b := x) (l := registered (done.map Prod.snd))
          simp only [beq_iff_eq] at hcount
          rw [bbsAfter, hcount, hrm, hadd]
          omega
      | rm x =>
          have hrm : ([.rm x] : List (BbCall α)).count (.rm e) = if x = e then 1 else 0 := by
            simp [List.count_singleton]
          have hadd : ([.rm x] : List (BbCall α)).count (.add e) = 0 := by simp
          rw [hrm, hadd] at hle ⊢
          by_cases hx : x = e
          · subst hx
            rw [bbsAfter, List.count_erase_self]
            rw [if_pos rfl] at hle ⊢
            omega
          · rw [bbsAfter, List.count_erase_of_ne (Ne.symm hx), if_neg hx]
            omega

/-- Calls that fit, one after the other, do what they are to do. -/
theorem holds_of_serial {k : ℕ} (hk : k < 2 ^ 32) {es : List (BbCall α)} {s : Ylstk α}
    (h : Serial bbBody Fits (ylstkCreate k) es s) : s.Holds (registered es) := by
  refine h.spec (I := fun s es => s.Holds (registered es)) (holds_ylstkCreate hk) ?_
  intro s es a hs ha
  rw [registered_snoc]
  exact (call_iff hs a).2 ha

theorem bbsLaw_of_inv {k : ℕ} (hk : k < 2 ^ 32) {c : Conf τ (BbCall α) (Ylstk α) (BbPc α)}
    (hc : Inv bbBody Fits (ylstkCreate k) c) : BbsLaw c where
  defined t e h := by
    obtain ⟨s, e', hs, hP, ⟨k', h', -⟩ | ⟨h', hends⟩⟩ := hc.held t (hc.only t ⟨e, .inr h⟩)
    · cases h.symm.trans h'
    · obtain ⟨s', hs', -⟩ := (call_iff (holds_of_serial hk hs) e').2 hP
      cases hends.unique hs'
  exclusive t t' ht ht' := Option.some.inj ((hc.only t ht).symm.trans (hc.only t' ht'))
  contents ho := holds_of_serial hk (hc.free ho)
  balance h e := h.balance e
  kept ho h t e ht := by
    have hcount := h.balance e
    have hlt := h.count_lt ht
    rw [(holds_of_serial hk (hc.free ho)).mem_take, ← List.count_pos_iff]
    omega

section Full

/-- Nobody is in the section, and the stack holds what the calls leave. -/
structure Alone (c : Conf ℕ (BbCall ℕ) (Ylstk ℕ) (BbPc ℕ)) : Prop where
  owner : c.owner = none
  phase : c.phase 0 = .idle
  holds : c.shared.Holds (registered (c.done.map Prod.snd))

variable {c : Conf ℕ (BbCall ℕ) (Ylstk ℕ) (BbPc ℕ)}

theorem Alone.exists_push (hc : Alone c) (hfits : Fits c.shared (.add 0)) :
    ∃ c', Leads bbBody c c' ∧ Alone c' ∧ ylstkPush c.shared 0 = some c'.shared ∧
      registered (c'.done.map Prod.snd) = 0 :: registered (c.done.map Prod.snd) := by
  obtain ⟨s, hs, hholds⟩ := (ylstkPush_iff hc.holds).2 hfits
  have hends : Machine.Ends bbBody.step (bbBody.start (.add 0), c.shared) (some s) :=
    .of_result (congrArg Sum.inr hs)
  obtain ⟨c', hlead, howner, hphase, hshared, hdone⟩ := exists_returned hc.owner hc.phase hends
  have hreg : registered (c'.done.map Prod.snd) = 0 :: registered (c.done.map Prod.snd) := by
    rw [hdone, List.map_append, List.map_singleton, registered_snoc]
    rfl
  exact ⟨c', hlead, ⟨howner, hphase, by rwa [hshared, hreg]⟩, by rw [hs, hshared], hreg⟩

/-- A limit that is a power of two lets 2^31 + 1 blocks be added. -/
theorem Alone.exists_full {d : ℕ} (hc : Alone c)
    (hlimit : ∃ j ≤ 31, c.shared.limit = 2 ^ j ∧ c.shared.sz ≤ 2 ^ j)
    (hd : c.shared.sz + d = 2 ^ 31) :
    ∃ c', Leads bbBody c c' ∧ Alone c' ∧ c'.shared.sz = 2 ^ 31 + 1 ∧
      0 ∈ registered (c'.done.map Prod.snd) := by
  induction d generalizing c with
  | zero =>
      obtain ⟨j, hj, hl, hle⟩ := hlimit
      obtain ⟨c', hlead, hc', -, hreg⟩ := hc.exists_push ⟨by omega, by omega⟩
      refine ⟨c', hlead, hc', ?_, ?_⟩
      · rw [hc'.holds.size, hreg, List.length_cons, ← hc.holds.size, ← hd]
      · rw [hreg]
        exact List.mem_cons_self
  | succ d ih =>
      obtain ⟨j, hj, hl, hle⟩ := hlimit
      have hpos := Nat.two_pow_pos j
      obtain ⟨c₁, hlead₁, hc₁, hpush, hreg⟩ := hc.exists_push ⟨by omega, by omega⟩
      have hsz : c₁.shared.sz = c.shared.sz + 1 := by
        rw [hc₁.holds.size, hreg, List.length_cons, ← hc.holds.size]
      have hlimit₁ : ∃ j ≤ 31, c₁.shared.limit = 2 ^ j ∧ c₁.shared.sz ≤ 2 ^ j := by
        rw [ylstkPush_limit hpush, hsz]
        split
        next hfull =>
          -- the limit is less than 2^31, so that its double is kept
          have hlt : j < 31 := (Nat.pow_lt_pow_iff_right (a := 2) (by decide)).1 (by omega)
          have hdouble : c.shared.limit * 2 = 2 ^ (j + 1) := by rw [hl, Nat.pow_succ]
          have hbound : 2 ^ (j + 1) < 2 ^ 32 := Nat.pow_lt_pow_right (by decide) (by omega)
          refine ⟨j + 1, hlt, ?_, by omega⟩
          rw [hdouble, Nat.mod_eq_of_lt hbound]
        next hroom => exact ⟨j, hj, hl, by omega⟩
      obtain ⟨c', hlead, hrest⟩ := ih hc₁ hlimit₁ (by omega)
      exact ⟨c', hlead₁.trans hlead, hrest⟩

end Full

/-- **The base blocks.** In every run of any number of threads from an empty stack, in which every
call fits that gets the mutex, the law holds in every state. -/
theorem bbs_law {k : ℕ} (hk : k < 2 ^ 32)
    {tr : List (Act τ (BbCall α) × Conf τ (BbCall α) (Ylstk α) (BbPc α))}
    (hrun : Exec.Run (Step bbBody) (init (ylstkCreate k)) tr)
    (hfits : Exec.AllSteps (LockMeets Fits) (init (ylstkCreate k)) tr) :
    Exec.AllStates BbsLaw (init (ylstkCreate k)) tr :=
  (run_inv hrun hfits).mono fun _ hc => bbsLaw_of_inv hk hc

/-- One thread adds a block, and another one that has waited for the mutex removes it. -/
theorem bbs_law_add_rm :
    ∃ tr : List (Act ℕ (BbCall ℕ) × Conf ℕ (BbCall ℕ) (Ylstk ℕ) (BbPc ℕ)),
      Exec.AllStates BbsLaw (init (ylstkCreate 16)) tr ∧ tr.length = 7 := by
  have hfit : Fits (ylstkCreate 16 : Ylstk ℕ) (.add 7) := ⟨by decide, by decide⟩
  refine ⟨_, bbs_law (by decide)
    (.cons (.call (t := 0) (e := .add 7) rfl) (.cons (.call (t := 1) (e := .rm 7) rfl)
      (.cons (.lock (t := 0) rfl rfl) (.cons (.unlock (t := 0) rfl rfl)
        (.cons (.lock (t := 1) rfl rfl) (.cons (.work (t := 1) rfl rfl)
          (.cons (.unlock (t := 1) rfl rfl) (.nil _))))))))
    ⟨trivial, trivial, fun e he => ?_, trivial, fun e he => ?_, trivial, trivial, trivial⟩, rfl⟩
  · cases he
    exact hfit
  · cases he
    exact .inl (by decide)

/-- With a stack of 16 items to start with, and the same block added 2^31 + 1 times. -/
theorem not_bbsLaw :
    ¬ ∀ (k : ℕ) (tr : List (Act ℕ (BbCall ℕ) × Conf ℕ (BbCall ℕ) (Ylstk ℕ) (BbPc ℕ))), k < 2 ^ 32 →
      Exec.Run (Step bbBody) (init (ylstkCreate k)) tr →
        Exec.AllStates BbsLaw (init (ylstkCreate k)) tr := by
  intro hall
  have hstart : Alone (init (ylstkCreate 16)) := ⟨rfl, rfl, holds_ylstkCreate (by decide)⟩
  obtain ⟨c, hlead, hc, hsz, hmem⟩ :=
    hstart.exists_full (d := 2 ^ 31) ⟨4, by decide, rfl, Nat.zero_le _⟩ rfl
  have hends : Machine.Ends bbBody.step (bbBody.start (.rm 0), c.shared) (some c.shared) :=
    ends_top_of_gt (by omega) hc.holds.sz_lt
  obtain ⟨c', hlead', howner, -, hshared, hdone⟩ := exists_returned hc.owner hc.phase hends
  obtain ⟨tr, hrun, hsub⟩ := (hlead.trans hlead') [] (.nil c')
  have hlaw := (Exec.allStates_nil.1 (hsub _ (hall 16 tr (by decide) hrun))).contents howner
  rw [hshared, hdone, List.map_append, List.map_singleton, registered_snoc] at hlaw
  have hfits := (call_iff hc.holds (.rm 0)).1 ⟨_, hends, hlaw⟩
  rw [Fits, hc.holds.mem_take, hsz] at hfits
  rcases hfits with hle | hno
  · exact absurd hle (by decide)
  · exact hno hmem

end Runs

end Mempool

end Ylisp
