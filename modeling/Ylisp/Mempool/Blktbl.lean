import Ylisp.Library.Loop
import Mathlib.Data.Set.Insert
import Mathlib.Logic.Function.Basic

/-!
# The memory block table

`fbp` lists the blocks, free ones below `fbi` and used ones from `fbi` on; each
block stores its own position in `i`. Freeing a block swaps it with the lowest
used one and moves the border up.

`Mbt.Wf` says that the two arrays are inverse to each other. `foreachUsed` reads
the table while its body may free the block just visited; `foreachUsed_spec`
shows that it still visits every block that was used at its start.
-/

namespace Ylisp

namespace Mempool

/-- `struct _mbt` over `n` blocks; a block is named by its place in `pool`. -/
structure Mbt (n : ℕ) where
  i : Fin n → Fin n
  fbp : Fin n → Fin n
  fbi : ℕ
  fbi_le : fbi ≤ n

namespace Mbt

variable {n : ℕ}

/-- The block is in the used part of the table. -/
def Used (m : Mbt n) (b : Fin n) : Prop := m.fbi ≤ (m.i b).val

instance (m : Mbt n) (b : Fin n) : Decidable (m.Used b) :=
  inferInstanceAs (Decidable (_ ≤ _))

structure Wf (m : Mbt n) : Prop where
  fbp_i : ∀ b, m.fbp (m.i b) = b
  i_fbp : ∀ k, m.i (m.fbp k) = k

end Mbt

variable {n : ℕ}

def mbtCreate (n : ℕ) : Mbt n where
  i := id
  fbp := id
  fbi := n
  fbi_le := le_rfl

/-- `_mbt_get`: the highest free block, `none` when all are in use. -/
def mbtGet (m : Mbt n) : Option (Fin n) × Mbt n :=
  if h : m.fbi ≤ 0 then (none, m)
  else
    have hle := m.fbi_le
    (some (m.fbp ⟨m.fbi - 1, by omega⟩),
      { m with fbi := m.fbi - 1, fbi_le := by omega })

/-- `_mbt_put`. The table is left alone when no block is in use: the source
reads `fbp[fbi]` unguarded and is only called on used blocks. -/
def mbtPut (m : Mbt n) (b : Fin n) : Mbt n :=
  if h : m.fbi < n then
    let b2 := m.fbp ⟨m.fbi, h⟩
    let i' := Function.update (Function.update m.i b (m.i b2)) b2 (m.i b)
    { i := i'
      fbp := Function.update (Function.update m.fbp (i' b) b) (i' b2) b2
      fbi := m.fbi + 1
      fbi_le := h }
  else m

def mbtNrUsedBlk (m : Mbt n) : ℕ := n - m.fbi

/-- `_mbt_foreach_used`: the table is part of the loop state and is read anew in
every round. -/
def foreachUsed {σ : Type*} (mbt : σ → Mbt n) (body : σ → Fin n → σ) (s : σ) : σ :=
  Loop.foreach (mbt s).fbi n (fun s k => body s ((mbt s).fbp k)) s

theorem mbtCreate_wf : (mbtCreate n).Wf := ⟨fun _ => rfl, fun _ => rfl⟩

theorem not_used_mbtCreate (b : Fin n) : ¬ (mbtCreate n).Used b := by
  simp [Mbt.Used, mbtCreate]

section Get

variable {m m' : Mbt n} {b : Fin n}

/-- A block that `_mbt_get` hands out is the one just below the border. -/
theorem mbtGet_some (h : mbtGet m = (some b, m')) :
    ∃ hk : m.fbi - 1 < n, 0 < m.fbi ∧ b = m.fbp ⟨m.fbi - 1, hk⟩ ∧
      m'.i = m.i ∧ m'.fbp = m.fbp ∧ m'.fbi = m.fbi - 1 := by
  unfold mbtGet at h
  split at h
  · simp at h
  next hpos =>
    have hle := m.fbi_le
    simp only [Prod.mk.injEq, Option.some.injEq] at h
    obtain ⟨rfl, rfl⟩ := h
    exact ⟨by omega, by omega, rfl, rfl, rfl, rfl⟩

theorem mbtGet_wf (hm : m.Wf) (h : mbtGet m = (some b, m')) : m'.Wf := by
  obtain ⟨_, _, _, hi, hfbp, _⟩ := mbtGet_some h
  exact ⟨by rw [hi, hfbp]; exact hm.fbp_i, by rw [hi, hfbp]; exact hm.i_fbp⟩

theorem mbtGet_used (hm : m.Wf) (h : mbtGet m = (some b, m')) (x : Fin n) :
    m'.Used x ↔ m.Used x ∨ x = b := by
  obtain ⟨hk, hpos, rfl, hi, _, hfbi⟩ := mbtGet_some h
  unfold Mbt.Used
  rw [hi, hfbi]
  constructor
  · intro hx
    by_cases heq : (m.i x).val = m.fbi - 1
    · right
      have hix : m.i x = ⟨m.fbi - 1, hk⟩ := Fin.ext heq
      rw [← hm.fbp_i x, hix]
    · left
      omega
  · rintro (hx | rfl)
    · omega
    · rw [hm.i_fbp]

theorem mbtGet_not_used (hm : m.Wf) (h : mbtGet m = (some b, m')) : ¬ m.Used b := by
  obtain ⟨hk, hpos, rfl, -⟩ := mbtGet_some h
  unfold Mbt.Used
  rw [hm.i_fbp]
  simp only
  omega

end Get

section Put

variable {m : Mbt n} {b : Fin n}

/-- A block that is not stored at `k` has another position. -/
theorem Mbt.Wf.i_ne (hm : m.Wf) {x k : Fin n} (hx : x ≠ m.fbp k) : m.i x ≠ k :=
  fun hc => hx (by rw [← hc, hm.fbp_i])

/-- A position that is not the one of `x` holds another block. -/
theorem Mbt.Wf.fbp_ne (hm : m.Wf) {x k : Fin n} (hk : k ≠ m.i x) : m.fbp k ≠ x :=
  fun hc => hk (by rw [← hc, hm.i_fbp])

theorem mbtPut_of_used (hb : m.Used b) :
    ∃ h : m.fbi < n, mbtPut m b =
      let b2 := m.fbp ⟨m.fbi, h⟩
      let i' := Function.update (Function.update m.i b (m.i b2)) b2 (m.i b)
      { i := i'
        fbp := Function.update (Function.update m.fbp (i' b) b) (i' b2) b2
        fbi := m.fbi + 1
        fbi_le := h } := by
  have h : m.fbi < n := lt_of_le_of_lt hb (m.i b).isLt
  exact ⟨h, by rw [mbtPut, dif_pos h]⟩

theorem mbtPut_fbi (hb : m.Used b) : (mbtPut m b).fbi = m.fbi + 1 := by
  obtain ⟨h, heq⟩ := mbtPut_of_used hb
  rw [heq]

/-- Freeing `b` exchanges its position with that of the lowest used block. -/
theorem mbtPut_i (hm : m.Wf) (hb : m.Used b) (h : m.fbi < n) (x : Fin n) :
    (mbtPut m b).i x =
      if x = b then ⟨m.fbi, h⟩
      else if x = m.fbp ⟨m.fbi, h⟩ then m.i b else m.i x := by
  obtain ⟨_, heq⟩ := mbtPut_of_used hb
  rw [heq]
  by_cases hxb : x = b <;> by_cases hx2 : x = m.fbp ⟨m.fbi, h⟩
  · subst hxb
    simp [hx2, hm.i_fbp]
  · subst hxb
    simp [hx2, hm.i_fbp]
  · simp [hx2, hx2 ▸ hxb]
  · simp [hxb, hx2]

theorem mbtPut_fbp (hm : m.Wf) (hb : m.Used b) (h : m.fbi < n) (k : Fin n) :
    (mbtPut m b).fbp k =
      if k = ⟨m.fbi, h⟩ then b
      else if k = m.i b then m.fbp ⟨m.fbi, h⟩ else m.fbp k := by
  obtain ⟨_, heq⟩ := mbtPut_of_used hb
  rw [heq]
  by_cases hb2 : b = m.fbp ⟨m.fbi, h⟩
  · have hib : m.i b = ⟨m.fbi, h⟩ := by rw [hb2, hm.i_fbp]
    by_cases hk : k = ⟨m.fbi, h⟩
    · simp [hk, ← hb2, hib]
    · simp [hk, ← hb2, hib]
  · have hne : m.fbp ⟨m.fbi, h⟩ ≠ b := fun hc => hb2 hc.symm
    have hib : m.i b ≠ ⟨m.fbi, h⟩ := hm.i_ne hb2
    by_cases hk : k = ⟨m.fbi, h⟩
    · simp [hk, hm.i_fbp, hb2, hib.symm]
    · by_cases hki : k = m.i b
      · simp [hki, hib]
      · simp [hk, hki, hm.i_fbp, hb2]

theorem mbtPut_wf (hm : m.Wf) (hb : m.Used b) : (mbtPut m b).Wf := by
  have h : m.fbi < n := lt_of_le_of_lt hb (m.i b).isLt
  constructor
  · intro x
    rw [mbtPut_fbp hm hb h, mbtPut_i hm hb h]
    by_cases hxb : x = b
    · simp [hxb]
    · by_cases hx2 : x = m.fbp ⟨m.fbi, h⟩
      · have hne : m.i b ≠ ⟨m.fbi, h⟩ := hm.i_ne fun hc => hxb (hx2.trans hc.symm)
        simp [hx2, hne, hx2 ▸ hxb]
      · have h1 : m.i x ≠ ⟨m.fbi, h⟩ := hm.i_ne hx2
        have h2 : m.i x ≠ m.i b := hm.i_ne (by rwa [hm.fbp_i])
        simp [hxb, hx2, h1, h2, hm.fbp_i]
  · intro k
    rw [mbtPut_i hm hb h, mbtPut_fbp hm hb h]
    by_cases hk : k = ⟨m.fbi, h⟩
    · simp [hk]
    · by_cases hki : k = m.i b
      · have hk' : m.i b ≠ ⟨m.fbi, h⟩ := hki ▸ hk
        have hne : m.fbp ⟨m.fbi, h⟩ ≠ b := hm.fbp_ne hk'.symm
        simp [hki, hk', hne]
      · have h1 : m.fbp k ≠ b := hm.fbp_ne hki
        have h2 : m.fbp k ≠ m.fbp ⟨m.fbi, h⟩ := hm.fbp_ne (by rwa [hm.i_fbp])
        simp [hk, hki, h1, h2, hm.i_fbp]

theorem mbtPut_used (hm : m.Wf) (hb : m.Used b) (x : Fin n) :
    (mbtPut m b).Used x ↔ m.Used x ∧ x ≠ b := by
  have h : m.fbi < n := lt_of_le_of_lt hb (m.i b).isLt
  unfold Mbt.Used
  rw [mbtPut_fbi hb, mbtPut_i hm hb h]
  by_cases hxb : x = b
  · simp [hxb]
  · by_cases hx2 : x = m.fbp ⟨m.fbi, h⟩
    · have hne : m.i b ≠ ⟨m.fbi, h⟩ := hm.i_ne fun hc => hxb (hx2.trans hc.symm)
      have hlt : m.fbi ≠ (m.i b).val := fun hc => hne (Fin.ext hc.symm)
      have hle : m.fbi ≤ (m.i b).val := hb
      rw [if_neg hxb, if_pos hx2]
      rw [hx2, hm.i_fbp]
      simp only [le_refl, true_and]
      constructor
      · intro _
        exact hx2 ▸ hxb
      · intro _
        omega
    · have hne : m.fbi ≠ (m.i x).val := fun hc => hm.i_ne hx2 (Fin.ext hc.symm)
      rw [if_neg hxb, if_neg hx2]
      simp only [hxb, ne_eq, not_false_eq_true, and_true]
      omega

/-- Freeing a used block moves nothing at the positions above its own. -/
theorem mbtPut_fbp_of_lt (hm : m.Wf) (hb : m.Used b) {k : Fin n}
    (hk : (m.i b).val < k.val) : (mbtPut m b).fbp k = m.fbp k := by
  have h : m.fbi < n := lt_of_le_of_lt hb (m.i b).isLt
  have hle : m.fbi ≤ (m.i b).val := hb
  rw [mbtPut_fbp hm hb h, if_neg, if_neg]
  · rintro rfl
    omega
  · rintro rfl
    simp only at hk
    omega

end Put

section Walk

/-- The loop over the blocks used in `m` stands at position `k`: the table is now
`m'`, nothing has moved from `k` on, and the visited blocks with `free` are gone. -/
structure WalkedTo (m m' : Mbt n) (free : Fin n → Prop) (k : ℕ) : Prop where
  wf : m'.Wf
  fbi_le : m'.fbi ≤ k
  start_le : m.fbi ≤ k
  fbp : ∀ j : Fin n, k ≤ j.val → m'.fbp j = m.fbp j
  used : ∀ b, m'.Used b ↔ m.Used b ∧ ((m.i b).val < k → ¬ free b)

def walked (m : Mbt n) (k : ℕ) : Set (Fin n) := {b | m.Used b ∧ (m.i b).val < k}

variable {m m' : Mbt n} {free : Fin n → Prop} {k : ℕ}

/-- The block at a position is the only one there. -/
theorem Mbt.Wf.eq_fbp (hm : m.Wf) (hk : k < n) {b : Fin n} (hb : (m.i b).val = k) :
    b = m.fbp ⟨k, hk⟩ := by
  rw [← hm.fbp_i b]
  exact congrArg _ (Fin.ext hb)

theorem walked_start (m : Mbt n) : walked m m.fbi = ∅ := by
  ext b
  simp only [walked, Set.mem_ofPred_eq, Set.mem_empty_iff_false, iff_false, not_and, not_lt]
  exact fun hb => hb

theorem walked_succ (hm : m.Wf) (hstart : m.fbi ≤ k) (hk : k < n) :
    walked m (k + 1) = insert (m.fbp ⟨k, hk⟩) (walked m k) := by
  have hi : m.i (m.fbp ⟨k, hk⟩) = ⟨k, hk⟩ := hm.i_fbp _
  ext b
  simp only [walked, Set.mem_ofPred_eq, Set.mem_insert_iff]
  constructor
  · rintro ⟨hb, hlt⟩
    by_cases heq : (m.i b).val = k
    · exact Or.inl (hm.eq_fbp hk heq)
    · exact Or.inr ⟨hb, by omega⟩
  · rintro (rfl | ⟨hb, hlt⟩)
    · refine ⟨?_, ?_⟩
      · rw [Mbt.Used, hi]
        exact hstart
      · rw [hi]
        exact Nat.lt_succ_self k
    · exact ⟨hb, by omega⟩

theorem WalkedTo.start (hm : m.Wf) : WalkedTo m m free m.fbi where
  wf := hm
  fbi_le := le_rfl
  start_le := le_rfl
  fbp := fun _ _ => rfl
  used := by
    intro b
    refine ⟨fun hb => ⟨hb, fun hlt => ?_⟩, fun hb => hb.1⟩
    have hle : m.fbi ≤ (m.i b).val := hb
    omega

/-- The position of the block that the loop visits is the same in both tables. -/
theorem WalkedTo.i_fbp (h : WalkedTo m m' free k) (hk : k < n) :
    m'.i (m.fbp ⟨k, hk⟩) = ⟨k, hk⟩ := by
  rw [← h.fbp ⟨k, hk⟩ le_rfl]
  exact h.wf.i_fbp _

theorem WalkedTo.used_fbp (h : WalkedTo m m' free k) (hk : k < n) :
    m'.Used (m.fbp ⟨k, hk⟩) := by
  rw [Mbt.Used, h.i_fbp hk]
  exact h.fbi_le

theorem WalkedTo.keep (h : WalkedTo m m' free k) (hm : m.Wf) (hk : k < n)
    (hfree : ¬ free (m.fbp ⟨k, hk⟩)) : WalkedTo m m' free (k + 1) where
  wf := h.wf
  fbi_le := le_trans h.fbi_le (Nat.le_succ k)
  start_le := le_trans h.start_le (Nat.le_succ k)
  fbp := fun j hj => h.fbp j (by omega)
  used := by
    intro b
    rw [h.used]
    refine and_congr_right fun _ => ⟨fun hlt hbk => ?_, fun hlt hbk => hlt (by omega)⟩
    by_cases heq : (m.i b).val = k
    · rw [hm.eq_fbp hk heq]
      exact hfree
    · exact hlt (by omega)

theorem WalkedTo.put (h : WalkedTo m m' free k) (hm : m.Wf) (hk : k < n)
    (hfree : free (m.fbp ⟨k, hk⟩)) : WalkedTo m (mbtPut m' (m.fbp ⟨k, hk⟩)) free (k + 1) where
  wf := mbtPut_wf h.wf (h.used_fbp hk)
  fbi_le := by
    have hle := h.fbi_le
    rw [mbtPut_fbi (h.used_fbp hk)]
    omega
  start_le := le_trans h.start_le (Nat.le_succ k)
  fbp := by
    intro j hj
    rw [mbtPut_fbp_of_lt h.wf (h.used_fbp hk) (by rw [h.i_fbp hk]; exact hj)]
    exact h.fbp j (by omega)
  used := by
    intro b
    rw [mbtPut_used h.wf (h.used_fbp hk), h.used]
    constructor
    · rintro ⟨⟨hb, hlt⟩, hne⟩
      refine ⟨hb, fun hbk => ?_⟩
      by_cases heq : (m.i b).val = k
      · exact absurd (hm.eq_fbp hk heq) hne
      · exact hlt (by omega)
    · rintro ⟨hb, hlt⟩
      refine ⟨⟨hb, fun hbk => hlt (by omega)⟩, ?_⟩
      rintro rfl
      exact hlt (by rw [hm.i_fbp]; exact Nat.lt_succ_self k) hfree

end Walk

/-- The rule for the loop over the used blocks, with a body that either keeps
the block it visits or frees it (`free`). `P` is indexed by the blocks visited
so far; the body is told that the block was used at the start, that it is
visited for the first time and that the table is still well formed. At the end
every block that was used has been visited and the kept ones are in use. -/
theorem foreachUsed_spec {σ : Type*} (mbt : σ → Mbt n) (body : σ → Fin n → σ)
    (free : Fin n → Prop) [DecidablePred free] (P : Set (Fin n) → σ → Prop) (s : σ)
    (hs : (mbt s).Wf) (hP : P ∅ s)
    (hbody : ∀ V s' b, P V s' → (mbt s).Used b → b ∉ V → (mbt s').Wf →
      (mbt s').Used b → P (insert b V) (body s' b) ∧
        mbt (body s' b) = if free b then mbtPut (mbt s') b else mbt s') :
    P {b | (mbt s).Used b} (foreachUsed mbt body s) ∧
      (mbt (foreachUsed mbt body s)).Wf ∧
      ∀ b, (mbt (foreachUsed mbt body s)).Used b ↔ (mbt s).Used b ∧ ¬ free b := by
  have hinv := Loop.foreach_induction
    (fun s' k => body s' ((mbt s').fbp k))
    (fun k s' => P (walked (mbt s) k) s' ∧ WalkedTo (mbt s) (mbt s') free k)
    ?_ (n - (mbt s).fbi) (mbt s).fbi s (by have := (mbt s).fbi_le; omega) ?_
  · obtain ⟨hwalked, hat⟩ := hinv
    refine ⟨by simpa [foreachUsed, walked] using hwalked, hat.wf, fun b => ?_⟩
    rw [foreachUsed, hat.used b]
    simp
  · rintro k s' hk ⟨hP', hat⟩
    have hi : (mbt s).i ((mbt s).fbp ⟨k, hk⟩) = ⟨k, hk⟩ := hs.i_fbp _
    have hused : (mbt s).Used ((mbt s).fbp ⟨k, hk⟩) := by
      rw [Mbt.Used, hi]
      exact hat.start_le
    obtain ⟨hP'', hmbt⟩ :=
      hbody _ s' _ hP' hused (by simp [walked, hi]) hat.wf (hat.used_fbp hk)
    rw [hat.fbp ⟨k, hk⟩ le_rfl, walked_succ hs hat.start_le hk]
    refine ⟨hP'', ?_⟩
    rw [hmbt]
    by_cases hfree : free ((mbt s).fbp ⟨k, hk⟩)
    · rw [if_pos hfree]
      exact hat.put hs hk hfree
    · rw [if_neg hfree]
      exact hat.keep hs hk hfree
  · exact ⟨by rw [walked_start]; exact hP, WalkedTo.start hs⟩

end Mempool

end Ylisp
