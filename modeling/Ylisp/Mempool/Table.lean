import Mathlib.Algebra.Group.Nat.Defs
import Mathlib.Data.List.Nodup
import Ylisp.Library.Exec
import Ylisp.Mempool.Blktbl

/-!
# Runs of the memory block table

The table under any sequence of `_mbt_get` and `_mbt_put`, where a block is put only
while it is in use: it was handed out and not put since. In every table of such a run
`fbp` and the stored positions are inverse permutations, and the part from `fbi` on
holds the blocks in use (`InUse.Inv`), so that a sweep visits these and no others, each
of them once, whichever it frees.

The index `fbi` and the loop variables are of type `int`, the number of blocks is an
`unsigned int`: the loop of `_mbt_create` has no defined result for 2^31 blocks and more.
-/

namespace Ylisp

namespace Mempool

variable {n : ℕ}

/-- The loop of `_mbt_create` with `k` blocks to go, from the block `n - k` on. Its
variable is an `int`. -/
def createLoop (m : Mbt n) : (k : ℕ) → k ≤ n → Option (Mbt n)
  | 0, _ => some m
  | k + 1, h =>
      let i : Fin n := ⟨n - (k + 1), by omega⟩
      let m := { m with fbp := Function.update m.fbp i i, i := Function.update m.i i i }
      if i.val + 1 < 2 ^ 31 then createLoop m k (by omega) else none

/-- `_mbt_create` on `n` blocks, when its allocations succeed; `i` and `fbp` are what the
memory holds before. -/
def mbtCreateInt (n : ℕ) (i fbp : Fin n → Fin n) : Option (Mbt n) :=
  createLoop { i := i, fbp := fbp, fbi := n, fbi_le := le_rfl } n le_rfl

/-- A table with the blocks that its clients hold. -/
structure InUse (n : ℕ) where
  mbt : Mbt n
  held : Set (Fin n)

/-- A call, with the answer of `_mbt_get`. -/
inductive MbtCall (n : ℕ) where
  | get (b : Option (Fin n))
  | put (b : Fin n)

/-- The calls that the clients of a table make. -/
inductive MbtStep : InUse n → MbtCall n → InUse n → Prop
  | get {c : InUse n} {b : Option (Fin n)} {m : Mbt n} (h : mbtGet c.mbt = (b, m)) :
      MbtStep c (.get b) ⟨m, {x | x ∈ c.held ∨ some x = b}⟩
  | put {c : InUse n} {b : Fin n} (h : b ∈ c.held) :
      MbtStep c (.put b) ⟨mbtPut c.mbt b, {x | x ∈ c.held ∧ x ≠ b}⟩

def mbtSweep (free : Fin n → Bool) (m : Mbt n) : Mbt n × List (Fin n) :=
  foreachUsed Prod.fst
    (fun s b => (if free b then mbtPut s.1 b else s.1, s.2 ++ [b])) (m, [])

namespace InUse

structure Law (c : InUse n) : Prop where
  fbp_bijective : Function.Bijective c.mbt.fbp
  fbp_i : ∀ b, c.mbt.fbp (c.mbt.i b) = b
  fbi_le : c.mbt.fbi ≤ n
  get_free : ∀ b, (mbtGet c.mbt).1 = some b → b ∉ c.held
  get_full : (mbtGet c.mbt).1 = none → ∀ b, b ∈ c.held
  sweep_once : ∀ free, (mbtSweep free c.mbt).2.Nodup ∧
    ∀ b, b ∈ (mbtSweep free c.mbt).2 ↔ b ∈ c.held
  sweep_frees : ∀ free b, (mbtSweep free c.mbt).1.Used b ↔ b ∈ c.held ∧ free b = false

structure Inv (c : InUse n) : Prop where
  wf : c.mbt.Wf
  used : ∀ b, c.mbt.Used b ↔ b ∈ c.held

theorem inv_create : (⟨mbtCreate n, ∅⟩ : InUse n).Inv :=
  ⟨mbtCreate_wf, fun b => iff_of_false (not_used_mbtCreate b) id⟩

theorem inv_step {c c' : InUse n} {call : MbtCall n} (hc : c.Inv) (h : MbtStep c call c') :
    c'.Inv := by
  cases h with
  | @get b m h =>
      cases b with
      | none =>
          have hm : m = c.mbt := by
            unfold mbtGet at h
            split at h <;> cases h
            rfl
          exact ⟨hm ▸ hc.wf, fun x => by rw [hm, hc.used]; simp⟩
      | some b =>
          refine ⟨mbtGet_wf hc.wf h, fun x => ?_⟩
          rw [mbtGet_used hc.wf h, hc.used]
          simp
  | @put b hb =>
      have hu : c.mbt.Used b := (hc.used b).2 hb
      refine ⟨mbtPut_wf hc.wf hu, fun x => ?_⟩
      rw [mbtPut_used hc.wf hu, hc.used]
      rfl

/-- Freeing blocks during the sweep hides no block from it and shows none twice. -/
theorem sweep_spec {m : Mbt n} (hm : m.Wf) (free : Fin n → Bool) :
    ((mbtSweep free m).2.Nodup ∧ ∀ b, b ∈ (mbtSweep free m).2 ↔ m.Used b) ∧
      ∀ b, (mbtSweep free m).1.Used b ↔ m.Used b ∧ free b = false := by
  have hspec := foreachUsed_spec (σ := Mbt n × List (Fin n)) Prod.fst
    (fun s b => (if free b then mbtPut s.1 b else s.1, s.2 ++ [b])) (fun b => free b = true)
    (fun V s => s.2.Nodup ∧ ∀ b, b ∈ s.2 ↔ b ∈ V) (m, []) hm ⟨List.nodup_nil, by simp⟩ ?_
  · obtain ⟨⟨hnodup, hmem⟩, -, hused⟩ := hspec
    exact ⟨⟨hnodup, hmem⟩, fun b => by rw [← Bool.not_eq_true]; exact hused b⟩
  · rintro V s' b ⟨hnodup, hmem⟩ - hnew - -
    refine ⟨⟨?_, fun x => ?_⟩, rfl⟩
    · rw [List.nodup_append]
      refine ⟨hnodup, List.nodup_singleton b, ?_⟩
      rintro x hx y hy rfl
      rw [List.mem_singleton] at hy
      exact hnew (hy ▸ (hmem x).1 hx)
    · rw [List.mem_append, List.mem_singleton, hmem, Set.mem_insert_iff, or_comm]

theorem Inv.law {c : InUse n} (hc : c.Inv) : c.Law where
  fbp_bijective :=
    ⟨fun k k' h => by rw [← hc.wf.i_fbp k, h, hc.wf.i_fbp],
      fun b => ⟨c.mbt.i b, hc.wf.fbp_i b⟩⟩
  fbp_i := hc.wf.fbp_i
  fbi_le := c.mbt.fbi_le
  get_free b h := by
    rw [← hc.used]
    exact mbtGet_not_used hc.wf (Prod.ext h rfl : mbtGet c.mbt = (some b, _))
  get_full h b := by
    rw [← hc.used, Mbt.Used]
    unfold mbtGet at h
    split at h
    next hfbi => exact Nat.le_trans hfbi (Nat.zero_le _)
    next => cases h
  sweep_once free := by
    obtain ⟨⟨hnodup, hmem⟩, -⟩ := sweep_spec hc.wf free
    exact ⟨hnodup, fun b => (hmem b).trans (hc.used b)⟩
  sweep_frees free b := by
    rw [(sweep_spec hc.wf free).2, hc.used]

theorem law_of_run {tr : List (MbtCall n × InUse n)}
    (hrun : Exec.Run MbtStep ⟨mbtCreate n, ∅⟩ tr) :
    Exec.AllStates Law (⟨mbtCreate n, ∅⟩ : InUse n) tr :=
  (hrun.allStates (Q := fun _ _ => True) (fun _ _ _ hc _ h => inv_step hc h)
    (Exec.allSteps_true _ _) inv_create).mono fun _ hc => hc.law

end InUse

section Order

variable {σ : Type*}

def usedBlocks (m : Mbt n) : List (Fin n) := ((List.finRange n).drop m.fbi).map m.fbp

theorem mem_usedBlocks {m : Mbt n} (hm : m.Wf) (b : Fin n) : b ∈ usedBlocks m ↔ m.Used b := by
  rw [usedBlocks, List.mem_map, Mbt.Used]
  constructor
  · rintro ⟨k, hk, rfl⟩
    obtain ⟨j, hj, rfl⟩ := List.mem_drop_iff_getElem.1 hk
    rw [hm.i_fbp]
    simp
  · intro hb
    refine ⟨m.i b, List.mem_drop_iff_getElem.2 ⟨(m.i b).val - m.fbi, ?_, ?_⟩, hm.fbp_i b⟩
    · simp only [List.length_finRange]
      omega
    · simp only [List.getElem_finRange, Fin.cast_mk]
      exact Fin.ext (Nat.add_sub_cancel' hb)

theorem usedBlocks_sorted {m : Mbt n} (hm : m.Wf) :
    (usedBlocks m).Pairwise fun b b' => m.i b < m.i b' := by
  rw [usedBlocks, List.pairwise_map]
  simp only [hm.i_fbp]
  exact (List.pairwise_lt_finRange n).sublist (List.drop_sublist _ _)

theorem usedBlocks_nodup {m : Mbt n} (hm : m.Wf) : (usedBlocks m).Nodup :=
  (usedBlocks_sorted hm).imp fun h heq => absurd (heq ▸ h) (lt_irrefl _)

/-- The loop over the used blocks, whose body may put the block it visits, visits the
blocks that are in use at its start, in the order that they have then. -/
theorem foreachUsed_eq_foldl (mbt : σ → Mbt n) (body : σ → Fin n → σ)
    (hbody : ∀ s b, mbt (body s b) = mbt s ∨ mbt (body s b) = mbtPut (mbt s) b) (s : σ)
    (hs : (mbt s).Wf) : foreachUsed mbt body s = (usedBlocks (mbt s)).foldl body s := by
  have key : ∀ (d k : ℕ) (s' : σ), k + d = n → (mbt s').Wf → (mbt s').fbi ≤ k →
      (∀ j : Fin n, k ≤ j.val → (mbt s').fbp j = (mbt s).fbp j) →
        Loop.foreach k n (fun s' j => body s' ((mbt s').fbp j)) s' =
          (((List.finRange n).drop k).map (mbt s).fbp).foldl body s' := by
    intro d
    induction d with
    | zero =>
        intro k s' hk _ _ _
        rw [Loop.foreach_of_le (by omega), List.drop_eq_nil_of_le (by simp; omega)]
        rfl
    | succ d ih =>
        intro k s' hk hwf hfbi hfbp
        have hkn : k < n := by omega
        have hdrop : (List.finRange n).drop k = ⟨k, hkn⟩ :: (List.finRange n).drop (k + 1) := by
          rw [List.drop_eq_getElem_cons (by simpa using hkn)]
          simp
        have hpos : (mbt s').i ((mbt s').fbp ⟨k, hkn⟩) = ⟨k, hkn⟩ := hwf.i_fbp _
        have hu : (mbt s').Used ((mbt s').fbp ⟨k, hkn⟩) := by
          rw [Mbt.Used, hpos]
          exact hfbi
        rw [Loop.foreach_of_lt hkn, hdrop, List.map_cons, List.foldl_cons, ← hfbp ⟨k, hkn⟩ le_rfl]
        rcases hbody s' ((mbt s').fbp ⟨k, hkn⟩) with hsame | hput
        · refine ih (k + 1) _ (by omega) (by rw [hsame]; exact hwf) (by rw [hsame]; omega)
            fun j hj => ?_
          rw [hsame]
          exact hfbp j (by omega)
        · refine ih (k + 1) _ (by omega) (by rw [hput]; exact mbtPut_wf hwf hu) ?_ fun j hj => ?_
          · rw [hput, mbtPut_fbi hu]
            omega
          · rw [hput, mbtPut_fbp_of_lt hwf hu (by rw [hpos]; exact hj)]
            exact hfbp j (by omega)
  exact key (n - (mbt s).fbi) (mbt s).fbi s (by have := (mbt s).fbi_le; omega) hs le_rfl
    fun _ _ => rfl

end Order

theorem createLoop_eq {m : Mbt n} (hn : n < 2 ^ 31) (k : ℕ) (hk : k ≤ n) :
    createLoop m k hk =
      some { m with
        i := fun x => if n - k ≤ x.val then x else m.i x
        fbp := fun x => if n - k ≤ x.val then x else m.fbp x } := by
  induction k generalizing m with
  | zero =>
      have hlt : ∀ x : Fin n, ¬ n ≤ x.val := fun x => Nat.not_le.2 x.isLt
      simp [createLoop, hlt]
  | succ k ih =>
      have hnext : n - (k + 1) + 1 < 2 ^ 31 := by omega
      have hupdate : ∀ (f : Fin n → Fin n) (h : n - (k + 1) < n) (x : Fin n),
          (if n - k ≤ x.val then x
            else Function.update f ⟨n - (k + 1), h⟩ ⟨n - (k + 1), h⟩ x) =
          if n - (k + 1) ≤ x.val then x else f x := by
        intro f h x
        by_cases hx : x = ⟨n - (k + 1), h⟩
        · rw [hx, Function.update_self, if_pos (Nat.le_refl _), ite_self]
        · have hne : x.val ≠ n - (k + 1) := fun hc => hx (Fin.ext hc)
          rw [Function.update_of_ne hx]
          by_cases hle : n - k ≤ x.val
          · rw [if_pos hle, if_pos (by omega)]
          · rw [if_neg hle, if_neg (by omega)]
      rw [createLoop, if_pos hnext, ih]
      simp only [hupdate]

theorem createLoop_none {m : Mbt n} (hn : 2 ^ 31 ≤ n) (k : ℕ) (hk : k + 1 ≤ n) :
    createLoop m (k + 1) hk = none := by
  induction k generalizing m with
  | zero =>
      rw [createLoop, if_neg]
      simp only
      omega
  | succ k ih =>
      rw [createLoop]
      split
      · exact ih _
      · rfl

/-- The loop counts to the number of blocks, so the table comes out exactly when that is
a value of type `int`. -/
theorem mbtCreateInt_eq (i fbp : Fin n → Fin n) :
    mbtCreateInt n i fbp = if n < 2 ^ 31 then some (mbtCreate n) else none := by
  unfold mbtCreateInt
  split
  next hn =>
    rw [createLoop_eq hn]
    simp only [Nat.sub_self, Nat.zero_le, if_true]
    rfl
  next hn =>
    obtain ⟨k, rfl⟩ : ∃ k, n = k + 1 := ⟨n - 1, by omega⟩
    exact createLoop_none (by omega) k le_rfl

/-- A table of `n` blocks comes out of `_mbt_create`, and the law holds in every state of
every run from it, exactly for less than 2^31 blocks. -/
theorem table_law_iff (n : ℕ) (i fbp : Fin n → Fin n) :
    (∃ m, mbtCreateInt n i fbp = some m ∧
      ∀ tr : List (MbtCall n × InUse n), Exec.Run MbtStep ⟨m, ∅⟩ tr →
        Exec.AllStates InUse.Law ⟨m, ∅⟩ tr) ↔ n < 2 ^ 31 := by
  rw [mbtCreateInt_eq]
  constructor
  · rintro ⟨m, hm, -⟩
    split at hm
    next hlt => exact hlt
    next => cases hm
  · exact fun hlt => ⟨mbtCreate n, if_pos hlt, fun _ => InUse.law_of_run⟩

/-- With 2^31 blocks the loop of `_mbt_create` passes the largest `int`. -/
theorem not_table_law :
    ¬ ∃ m, mbtCreateInt (2 ^ 31) id id = some m ∧
      ∀ tr : List (MbtCall (2 ^ 31) × InUse (2 ^ 31)), Exec.Run MbtStep ⟨m, ∅⟩ tr →
        Exec.AllStates InUse.Law ⟨m, ∅⟩ tr := by
  rintro ⟨m, hm, -⟩
  rw [mbtCreateInt_eq, if_neg (Nat.lt_irrefl _)] at hm
  cases hm

end Mempool

end Ylisp
