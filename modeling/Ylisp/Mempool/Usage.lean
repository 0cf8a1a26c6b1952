import Mathlib.Data.Set.Card
import Ylisp.Mempool.Table

/-!
# The usage of the pool

`_usage_ratio`, in the arithmetic of an `int` and an `unsigned int` of 32 bits. `ylinit` checks
the trigger point and not the size of the pool, so the number of blocks is any `unsigned int`. The
product of the used blocks and 100 is one of `int`, and from 21474837 used blocks on it overflows:
`usage_iff`.
-/

namespace Ylisp

namespace Mempool

variable {n : ℕ}

/-- `_mbt_nr_used_blk`: an `unsigned int`, returned as an `int`. -/
def mbtNrUsedInt (m : Mbt n) : ℤ := ((n : ℤ) - m.fbi).bmod (2 ^ 32)

theorem mbtNrUsedInt_eq (hn : n < 2 ^ 31) (m : Mbt n) : mbtNrUsedInt m = mbtNrUsedBlk m := by
  have hle := m.fbi_le
  rw [mbtNrUsedInt, mbtNrUsedBlk, Int.bmod_eq_of_le_mul_two] <;> omega

/-- `_usage_ratio`; `none` where the product overflows or the size is 0. The product is divided as
an `unsigned int`. -/
def usageRatio (m : Mbt n) : Option ℤ :=
  let p := mbtNrUsedInt m * 100
  if -2 ^ 31 ≤ p ∧ p < 2 ^ 31 then
    if n = 0 then none else some ((p % 2 ^ 32 / n).bmod (2 ^ 32))
  else none

/-- The condition of a collection in `_mt_listener_thd_safe` and in `_mt_listener_all_safe`. -/
def gcDue (gctp : ℤ) (m : Mbt n) : Option Bool := (usageRatio m).map fun r => gctp ≤ r

namespace InUse

structure Measured (gctp : ℤ) (c : InUse n) : Prop where
  usage : usageRatio c.mbt = some ((100 * c.held.ncard / n : ℕ) : ℤ)
  due : gcDue gctp c.mbt = some (decide (gctp * n ≤ 100 * c.held.ncard))

theorem Inv.ncard_held {c : InUse n} (hc : c.Inv) : c.held.ncard = mbtNrUsedBlk c.mbt := by
  have hheld : c.held = ((usedBlocks c.mbt).toFinset : Set (Fin n)) := by
    ext b
    rw [List.coe_toFinset, Set.mem_ofPred_eq, mem_usedBlocks hc.wf, hc.used]
  rw [hheld, Set.ncard_coe_finset, List.toFinset_card_of_nodup (usedBlocks_nodup hc.wf),
    usedBlocks, List.length_map, List.length_drop, List.length_finRange, mbtNrUsedBlk]

theorem inv_of_run {tr : List (MbtCall n × InUse n)}
    (hrun : Exec.Run MbtStep ⟨mbtCreate n, ∅⟩ tr) :
    Exec.AllStates InUse.Inv ⟨mbtCreate n, ∅⟩ tr :=
  hrun.allStates (Q := fun _ _ => True) (fun _ _ _ hc _ h => inv_step hc h)
    (Exec.allSteps_true _ _) inv_create

/-- Where the table fits in an `int`, what decides is the product. -/
theorem Inv.measured_iff {c : InUse n} (hc : c.Inv) (hn : n < 2 ^ 31) (gctp : ℤ) :
    c.Measured gctp ↔ 0 < n ∧ 100 * c.held.ncard < 2 ^ 31 := by
  have hused : mbtNrUsedInt c.mbt = (c.held.ncard : ℤ) := by
    rw [hc.ncard_held, mbtNrUsedInt_eq hn]
  constructor
  · intro hm
    have husage := hm.usage
    rw [usageRatio, hused] at husage
    split at husage
    next hp =>
      split at husage
      · cases husage
      next hpos => exact ⟨Nat.pos_of_ne_zero hpos, by omega⟩
    · cases husage
  · rintro ⟨hpos, hp⟩
    have hprod : ((c.held.ncard : ℤ) * 100 % 2 ^ 32) / n = ((100 * c.held.ncard / n : ℕ) : ℤ) := by
      rw [Int.emod_eq_of_lt (by omega) (by omega), Int.mul_comm]
      push_cast
      rfl
    have hint : ∀ q : ℕ, q < 2 ^ 31 → (q : ℤ).bmod (2 ^ 32) = q := by
      intro q hq
      rw [Int.bmod_eq_of_le_mul_two] <;> omega
    have husage : usageRatio c.mbt = some ((100 * c.held.ncard / n : ℕ) : ℤ) := by
      rw [usageRatio, hused, if_pos ⟨by omega, by omega⟩, if_neg hpos.ne', hprod,
        hint _ (lt_of_le_of_lt (Nat.div_le_self _ _) hp)]
    have hdue : gctp ≤ ((100 * c.held.ncard / n : ℕ) : ℤ) ↔ gctp * n ≤ 100 * c.held.ncard := by
      rw [Int.natCast_ediv, Int.le_ediv_iff_mul_le (by omega)]
      push_cast
      exact Iff.rfl
    refine ⟨husage, ?_⟩
    rw [gcDue, husage, Option.map_some]
    exact congrArg some (decide_eq_decide.2 hdue)

/-- The blocks of a table can be taken one after the other. -/
theorem exists_run_fbi {j : ℕ} (d : ℕ) {c : InUse n} (h : c.mbt.fbi = j + d) :
    ∃ tr, Exec.Run MbtStep c tr ∧ ¬ Exec.AllStates (fun c' => c'.mbt.fbi ≠ j) c tr := by
  induction d generalizing c with
  | zero => exact ⟨[], .nil c, fun hall => (Exec.allStates_nil.1 hall) h⟩
  | succ d ih =>
      obtain ⟨b, m, hget, hfbi⟩ : ∃ b m, mbtGet c.mbt = (b, m) ∧ m.fbi = c.mbt.fbi - 1 := by
        have hlt : ¬ c.mbt.fbi ≤ 0 := by omega
        exact ⟨_, _, dif_neg hlt, rfl⟩
      obtain ⟨tr, hrun, hnot⟩ := ih (c := ⟨m, {x | x ∈ c.held ∨ some x = b}⟩) (by
        show m.fbi = j + d
        omega)
      exact ⟨_, .cons (.get hget) hrun, fun hall => hnot (Exec.allStates_cons.1 hall).2⟩

end InUse

/-- What is to hold in a pool of `n` blocks, of which `u` are in use; `i` and `fbp` are what the
memory of the table holds before. -/
def UsageLaw (n u : ℕ) (gctp : ℤ) (i fbp : Fin n → Fin n) : Prop :=
  ∃ m, mbtCreateInt n i fbp = some m ∧
    ∀ tr : List (MbtCall n × InUse n), Exec.Run MbtStep ⟨m, ∅⟩ tr →
      Exec.AllStates (fun c => c.held.ncard = u → c.Measured gctp) ⟨m, ∅⟩ tr

theorem UsageLaw.bounds {u : ℕ} {gctp : ℤ} {i fbp : Fin n → Fin n} (hu : u ≤ n)
    (h : UsageLaw n u gctp i fbp) : 0 < n ∧ n < 2 ^ 31 ∧ 100 * u < 2 ^ 31 := by
  obtain ⟨m, hm, hall⟩ := h
  rw [mbtCreateInt_eq] at hm
  split at hm
  next hn =>
    cases hm
    obtain ⟨tr, hrun, hnot⟩ := InUse.exists_run_fbi (j := n - u) u
      (c := ⟨mbtCreate n, ∅⟩) (Nat.sub_add_cancel hu).symm
    by_contra hbad
    have hinv := InUse.inv_of_run hrun
    have hno : ∀ c : InUse n, (c.held.ncard = u → c.Measured gctp) → c.Inv →
        c.mbt.fbi ≠ n - u := by
      intro c hmeasured hc hfbi
      have hcard : c.held.ncard = u := by
        rw [hc.ncard_held, mbtNrUsedBlk]
        omega
      obtain ⟨hpos, hp⟩ := (hc.measured_iff hn gctp).1 (hmeasured hcard)
      exact hbad ⟨hpos, hn, hcard ▸ hp⟩
    refine hnot ⟨hno _ (hall tr hrun).1 hinv.1, fun x hx => ?_⟩
    exact hno _ ((hall tr hrun).2 x hx) (hinv.2 x hx)
  · cases hm

/-- **The usage of the pool.** It is right as long as the table is there, some block is in it, and
100 times the number of the used blocks is an `int`. -/
theorem usage_iff {u : ℕ} (hu : u ≤ n) (gctp : ℤ) (i fbp : Fin n → Fin n) :
    UsageLaw n u gctp i fbp ↔ 0 < n ∧ n < 2 ^ 31 ∧ 100 * u < 2 ^ 31 := by
  refine ⟨UsageLaw.bounds hu, fun ⟨hpos, hn, hp⟩ => ⟨mbtCreate n, ?_, fun tr hrun => ?_⟩⟩
  · rw [mbtCreateInt_eq, if_pos hn]
  · refine (InUse.inv_of_run hrun).mono fun c hc hcard =>
      (hc.measured_iff hn gctp).2 ⟨hpos, ?_⟩
    rw [hcard]
    exact hp

theorem usage_iff_1024 : UsageLaw 1024 820 80 id id :=
  (usage_iff (by decide) 80 id id).2 ⟨by decide, by decide, by decide⟩

/-- In a pool of 30 million blocks the product overflows before 72 percent are used. -/
theorem not_usageLaw : ¬ UsageLaw 30000000 21474837 80 id id := by
  intro h
  have hp := (UsageLaw.bounds (by decide) h).2.2
  revert hp
  decide

end Mempool

end Ylisp
