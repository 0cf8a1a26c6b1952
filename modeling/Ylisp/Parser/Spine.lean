import Ylisp.Parser.Outline
import Ylisp.Parser.Zipper

/-!
# The length of a quote

The blocks that are open while a text is read, from the outermost list or quote
to `pe`, have growing numbers. `Spined` keeps this order, and for each open quote
the number of pairs behind the quote symbol.
-/

namespace Ylisp

namespace Parser

def Quoted (h : Heap) (r : Ref) : Prop :=
  ∃ s b x, r = .blk s ∧ h.cell s = .pair .q (.blk b) ∧ h.cell b = .pair x .nil

def Chain (h : Heap) : ℕ → ℕ → ℕ → Prop
  | 0, s, l => s = l
  | k + 1, s, l => ∃ b, s < b ∧ h.ylpcdr (.blk s) = .blk b ∧ Chain h k b l

def Held (h : Heap) (t l : ℕ) : Frame → Prop
  | .list => t < l
  | .quote k => ∃ s, t < s ∧ h.ylpcar (.blk t) = .blk s ∧ h.ylpcar (.blk s) = .q ∧ Chain h k s l

def Entry (h : Heap) (t : ℕ) : Prop := ∃ s, h.cell t = .pair (.blk s) .nil

def Spine (h : Heap) : List Frame → List ℕ → ℕ → Prop
  | [], [], _ => True
  | f :: fs, t :: ts, l => Entry h t ∧ Held h t l f ∧ Spine h fs ts t
  | _, _, _ => False

def Last (h : Heap) (l : ℕ) : Prop := l < h.next ∧ ∃ c, h.cell l = .pair c .nil

def Spined (fsa : Fsa) : List Frame → Prop
  | [] => fsa.pestk = [] ∧ fsa.pe = .sentinel
  | f :: fs => ∃ l, fsa.pe = .blk l ∧ Last fsa.heap l ∧ Spine fsa.heap (f :: fs) fsa.pestk l

section Chain

variable {h h' : Heap}

theorem Chain.le : ∀ {k s l : ℕ}, Chain h k s l → s ≤ l
  | 0, _, _, hc => Nat.le_of_eq hc
  | _ + 1, _, _, ⟨_, hlt, _, hc⟩ => Nat.le_of_lt (Nat.lt_of_lt_of_le hlt hc.le)

/-- A chain depends on the pairs before its last one only. -/
theorem Chain.congr : ∀ {k s l : ℕ}, (∀ b < l, h'.cell b = h.cell b) → Chain h k s l →
    Chain h' k s l
  | 0, _, _, _, hc => hc
  | k + 1, s, l, hcell, ⟨b, hlt, hcdr, hc⟩ => by
      refine ⟨b, hlt, ?_, hc.congr hcell⟩
      rw [Heap.ylpcdr, hcell s (Nat.lt_of_lt_of_le hlt hc.le)]
      exact hcdr

theorem Chain.concat {l l' : ℕ} (hlt : l < l') (hcdr : h.ylpcdr (.blk l) = .blk l') :
    ∀ {k s : ℕ}, Chain h k s l → Chain h (k + 1) s l'
  | 0, s, hc => by
      obtain rfl := hc
      exact ⟨l', hlt, hcdr, rfl⟩
  | k + 1, s, ⟨b, hb, hs, hc⟩ => ⟨b, hb, hs, hc.concat hlt hcdr⟩

theorem cell_of_ylpcdr {b : ℕ} {r : Ref} (hcdr : h.ylpcdr (.blk b) = r) (hr : r ≠ .nil) :
    ∃ c, h.cell b = .pair c r := by
  rw [Heap.ylpcdr] at hcdr
  cases hb : h.cell b with
  | pair c d =>
      rw [hb] at hcdr
      exact ⟨c, congrArg (Cell.pair c) hcdr⟩
  | sym str =>
      rw [hb] at hcdr
      exact absurd hcdr.symm hr

/-- The list of a quote has as many data as pairs behind the quote symbol. -/
theorem quoted_iff {k s l : ℕ} (hq : h.ylpcar (.blk s) = .q) (hc : Chain h k s l)
    (hl : ∃ c, h.cell l = .pair c .nil) : Quoted h (.blk s) ↔ k = 1 := by
  obtain ⟨c, hl⟩ := hl
  constructor
  · rintro ⟨s', b, x, heq, hs, hb⟩
    obtain rfl := Ref.blk.inj heq
    have hcdr : h.ylpcdr (.blk s) = .blk b := by rw [Heap.ylpcdr, hs]
    rcases k with _ | _ | k
    · obtain rfl := hc
      rw [hl] at hs
      cases hs
    · rfl
    · obtain ⟨b₁, _, hb₁, b₂, _, hb₂, _⟩ := hc
      obtain rfl := Ref.blk.inj (hcdr.symm.trans hb₁)
      rw [Heap.ylpcdr, hb] at hb₂
      cases hb₂
  · rintro rfl
    obtain ⟨b, -, hb, rfl⟩ := hc
    obtain ⟨c', hs⟩ := cell_of_ylpcdr hb (by simp)
    rw [Heap.ylpcar, hs] at hq
    exact ⟨s, b, c, rfl, hq ▸ hs, hl⟩

end Chain

section Spine

variable {h h' : Heap}

theorem ylpcar_congr {b : ℕ} (hb : h'.cell b = h.cell b) :
    h'.ylpcar (.blk b) = h.ylpcar (.blk b) := by
  rw [Heap.ylpcar, hb]
  rfl

/-- A list or quote depends on the pairs up to its last one only. -/
theorem Held.congr {t l : ℕ} {f : Frame} (hcell : ∀ b < l, h'.cell b = h.cell b)
    (hcar : h.ylpcar (.blk l) = .q → h'.ylpcar (.blk l) = .q) (hf : Held h t l f) :
    Held h' t l f := by
  cases f with
  | list => exact hf
  | quote k =>
      obtain ⟨s, hts, ht, hq, hc⟩ := hf
      have htl := hcell t (Nat.lt_of_lt_of_le hts hc.le)
      refine ⟨s, hts, (ylpcar_congr htl).trans ht, ?_, hc.congr hcell⟩
      rcases Nat.lt_or_eq_of_le hc.le with hlt | rfl
      · exact (ylpcar_congr (hcell s hlt)).trans hq
      · exact hcar hq

theorem Held.lt {t l : ℕ} {f : Frame} (hf : Held h t l f) : t < l := by
  cases f with
  | list => exact hf
  | quote k =>
      obtain ⟨s, hts, -, -, hc⟩ := hf
      exact Nat.lt_of_lt_of_le hts hc.le

theorem Spine.congr : ∀ {fs : List Frame} {ts : List ℕ} {l : ℕ},
    (∀ b < l, h'.cell b = h.cell b) → (h.ylpcar (.blk l) = .q → h'.ylpcar (.blk l) = .q) →
    Spine h fs ts l → Spine h' fs ts l
  | [], [], _, _, _, _ => trivial
  | [], _ :: _, _, _, _, hs => hs.elim
  | _ :: _, [], _, _, _, hs => hs.elim
  | f :: fs, t :: ts, l, hcell, hcar, ⟨hentry, hheld, hrest⟩ => by
      have ht := hcell t hheld.lt
      refine ⟨by rw [Entry, ht]; exact hentry, hheld.congr hcell hcar, hrest.congr ?_ ?_⟩
      · exact fun b hb => hcell b (Nat.lt_trans hb hheld.lt)
      · exact fun hq => (ylpcar_congr ht).trans hq

/-- A pair that is hung behind the last one is the last one then. -/
theorem Spine.hang {fsa fsa' : Fsa} {c : Cell} (hh : Hangs fsa fsa' c) {f : Frame}
    {fs : List Frame} {ts : List ℕ} {l : ℕ} (hpe : fsa.pe = .blk l) (hl : l < fsa.heap.next)
    (hs : Spine fsa.heap (f :: fs) ts l) :
    Spine fsa'.heap (Frame.bump (f :: fs)) ts fsa.heap.next := by
  have hcell : ∀ b < l, fsa'.heap.cell b = fsa.heap.cell b := by
    intro b hb
    apply hh.cell b (Nat.lt_trans hb hl)
    rw [hpe]
    intro hc
    exact Nat.ne_of_gt hb (Pe.blk.inj hc)
  have hnew := (hh.pe l hpe).2
  have hcar : fsa'.heap.ylpcar (.blk l) = fsa.heap.ylpcar (.blk l) := by
    rw [Heap.ylpcar, hnew]
  have hcdr : fsa'.heap.ylpcdr (.blk l) = .blk fsa.heap.next := by
    rw [Heap.ylpcdr, hnew]
  have hs' := hs.congr hcell fun hq => hcar.trans hq
  cases ts with
  | nil => exact hs'.elim
  | cons t ts =>
      obtain ⟨hentry, hheld, hrest⟩ := hs'
      cases f with
      | list => exact ⟨hentry, Nat.lt_trans hheld hl, hrest⟩
      | quote k =>
          obtain ⟨s, hts, ht, hq, hc⟩ := hheld
          exact ⟨hentry, ⟨s, hts, ht, hq, hc.concat hl hcdr⟩, hrest⟩

end Spine

section Operations

variable {fsa : Fsa} {fs : List Frame}

def Added (fsa : Fsa) : List Frame → Prop
  | [] => fsa.pestk = [] ∧ fsa.pe ≠ .sentinel
  | f :: fs => Spined fsa (f :: fs)

theorem Spined.congr {fsa' : Fsa} (h : Spined fsa fs) (hheap : fsa'.heap = fsa.heap)
    (hpe : fsa'.pe = fsa.pe) (hps : fsa'.pestk = fsa.pestk) : Spined fsa' fs := by
  cases fs with
  | nil => exact ⟨hps.trans h.1, hpe.trans h.2⟩
  | cons f fs =>
      obtain ⟨l, hl, hlast, hs⟩ := h
      refine ⟨l, hpe.trans hl, ?_, ?_⟩
      · rw [hheap]
        exact hlast
      · rw [hheap, hps]
        exact hs

theorem Spined.lt (h : Spined fsa fs) (l : ℕ) (hl : fsa.pe = .blk l) : l < fsa.heap.next := by
  cases fs with
  | nil => rw [h.2] at hl; cases hl
  | cons f fs =>
      obtain ⟨l', hl', hlast, -⟩ := h
      obtain rfl := Pe.blk.inj (hl.symm.trans hl')
      exact hlast.1

theorem openList_pestk (fsa : Fsa) (car : Ref) :
    (fsa.openList car).pestk = fsa.heap.next :: fsa.pestk ∧
      (fsa.openList car).pe = .blk (fsa.heap.next + 1) := by
  unfold Fsa.openList Fsa.setPeCdr
  cases fsa.pe <;> exact ⟨rfl, rfl⟩

theorem Spined.openList (h : Spined fsa fs) {car : Ref} {f : Frame}
    (hf : f = .list ∨ f = .quote 0 ∧ car = .q) :
    Spined (fsa.openList car) (f :: Frame.bump fs) := by
  have hh := openList_hangs h.lt car
  obtain ⟨hps, hpe⟩ := openList_pestk fsa car
  have hlast : Last (fsa.openList car).heap (fsa.heap.next + 1) := by
    refine ⟨?_, car, hh.car⟩
    rw [hh.next]
    exact Nat.lt_succ_self _
  have hheld : Held (fsa.openList car).heap fsa.heap.next (fsa.heap.next + 1) f := by
    rcases hf with rfl | ⟨rfl, rfl⟩
    · exact Nat.lt_succ_self _
    · refine ⟨fsa.heap.next + 1, Nat.lt_succ_self _, ?_, ?_, rfl⟩
      · rw [Heap.ylpcar, hh.pair]
      · rw [Heap.ylpcar, hh.car]
  refine ⟨fsa.heap.next + 1, hpe, hlast, ?_⟩
  rw [hps]
  refine ⟨⟨_, hh.pair⟩, hheld, ?_⟩
  cases fs with
  | nil =>
      rw [h.1]
      trivial
  | cons f' fs =>
      obtain ⟨l, hl, hlast', hs⟩ := h
      exact Spine.hang hh hl hlast'.1 hs

theorem fsasSymbolExit_pestk (fsa : Fsa) :
    (fsasSymbolExit fsa).pestk = fsa.pestk ∧ (fsasSymbolExit fsa).pe = .blk fsa.heap.next := by
  unfold fsasSymbolExit Fsa.setPeCdr
  cases fsa.pe <;> exact ⟨rfl, rfl⟩

theorem Spined.symbolExit (h : Spined fsa fs) : Added (fsasSymbolExit fsa) (Frame.bump fs) := by
  have hh := fsasSymbolExit_hangs h.lt
  obtain ⟨hps, hpe⟩ := fsasSymbolExit_pestk fsa
  cases fs with
  | nil => exact ⟨hps.trans h.1, by rw [hpe]; simp⟩
  | cons f fs =>
      obtain ⟨l, hl, hlast, hs⟩ := h
      have hs' := Spine.hang hh hl hlast.1 hs
      have hnext : Last (fsasSymbolExit fsa).heap fsa.heap.next := by
        refine ⟨?_, _, hh.pair⟩
        rw [hh.next]
        omega
      rw [← hps] at hs'
      cases f <;> exact ⟨_, hpe, hnext, hs'⟩

theorem Added.of_spine {fsa' : Fsa} {t : ℕ} {ts : List ℕ} (hps : fsa'.pestk = ts)
    (hpe : fsa'.pe = .blk t) (hlast : Last fsa'.heap t) (hs : Spine fsa'.heap fs ts t) :
    Added fsa' fs := by
  cases fs with
  | nil =>
      cases ts with
      | nil => exact ⟨hps, by rw [hpe]; simp⟩
      | cons t' ts => exact hs.elim
  | cons f fs => exact ⟨t, hpe, hlast, hps ▸ hs⟩

theorem Spined.squoteExit {f : Frame} (h : Spined fsa (f :: fs)) :
    Added (fsasSquoteExit fsa) fs := by
  obtain ⟨l, hl, hlast, hs⟩ := h
  cases hps : fsa.pestk with
  | nil =>
      rw [hps] at hs
      exact hs.elim
  | cons t ts =>
      rw [hps] at hs
      obtain ⟨⟨s, ht⟩, hheld, hrest⟩ := hs
      have hexit : fsasSquoteExit fsa = { fsa with pestk := ts, pe := .blk t } := by
        rw [fsasSquoteExit, hps]
      rw [hexit]
      exact Added.of_spine rfl rfl ⟨Nat.lt_trans hheld.lt hlast.1, _, ht⟩ hrest

theorem Spined.listExit {f : Frame} (h : Spined fsa (f :: fs)) : Added (fsasListExit fsa) fs := by
  obtain ⟨l, hl, hlast, hs⟩ := h
  cases hps : fsa.pestk with
  | nil =>
      rw [hps] at hs
      exact hs.elim
  | cons t ts =>
      rw [hps] at hs
      obtain ⟨⟨s, ht⟩, hheld, hrest⟩ := hs
      have hleaves := fsasListExit_leaves hps ht
      refine Added.of_spine hleaves.pestk hleaves.pe ?_ ?_
      · exact ⟨by rw [hleaves.next]; exact Nat.lt_trans hheld.lt hlast.1, _, hleaves.pair⟩
      · refine hrest.congr (fun b hb => hleaves.cell b (Nat.ne_of_lt hb)) fun hq => ?_
        rw [Heap.ylpcar, ht] at hq
        cases hq

end Operations

end Parser

end Ylisp
