import Ylisp.Parser.Accept
import Mathlib.Data.List.Forall2

/-!
# The same expressions in other blocks

Two automata that read the same text build the same expressions, but not in the
same blocks: `FsaShift k k' n` says that one of them has used the `n` blocks from
`k` on for the expression that it reads, and the other one those from `k'` on.

The references from a block lead to later ones only (`CellShift`), so what hangs on
a block is finite, and `SameExpr` compares it.
-/

namespace Ylisp

namespace Parser

inductive SameExpr (h h' : Heap) : Ref → Ref → Prop
  | nil : SameExpr h h' .nil .nil
  | q : SameExpr h h' .q .q
  | sym {b b' : ℕ} {str : List UInt8} (hb : h.cell b = .sym str) (hb' : h'.cell b' = .sym str) :
      SameExpr h h' (.blk b) (.blk b')
  | pair {b b' : ℕ} {car cdr car' cdr' : Ref} (hb : h.cell b = .pair car cdr)
      (hb' : h'.cell b' = .pair car' cdr') (hcar : SameExpr h h' car car')
      (hcdr : SameExpr h h' cdr cdr') : SameExpr h h' (.blk b) (.blk b')

/-- The two automata hand the same expression to `yleval`. -/
def SameEval (x x' : Heap × Ref) : Prop := SameExpr x.1 x'.1 x.2 x'.2

def BlkShift (k k' n b b' : ℕ) : Prop := ∃ i < n, b = k + i ∧ b' = k' + i

inductive RefShift (k k' lo n : ℕ) : Ref → Ref → Prop
  | nil : RefShift k k' lo n .nil .nil
  | q : RefShift k k' lo n .q .q
  | blk {i : ℕ} (hlo : lo ≤ i) (hi : i < n) : RefShift k k' lo n (.blk (k + i)) (.blk (k' + i))

inductive CellShift (k k' lo n : ℕ) : Cell → Cell → Prop
  | sym (str : List UInt8) : CellShift k k' lo n (.sym str) (.sym str)
  | pair {car cdr car' cdr' : Ref} (hcar : RefShift k k' lo n car car')
      (hcdr : RefShift k k' lo n cdr cdr') :
      CellShift k k' lo n (.pair car cdr) (.pair car' cdr')

structure HeapShift (k k' n : ℕ) (h h' : Heap) : Prop where
  next : h.next = k + n
  next' : h'.next = k' + n
  cell : ∀ i < n, CellShift k k' (i + 1) n (h.cell (k + i)) (h'.cell (k' + i))

structure FsaShift (k k' n : ℕ) (fsa fsa' : Fsa) : Prop where
  heap : HeapShift k k' n fsa.heap fsa'.heap
  sentinel : fsa.pe ≠ .sentinel ∨ fsa.pestk ≠ [] →
    ∃ b b', fsa.sentinel = some b ∧ fsa'.sentinel = some b' ∧ BlkShift k k' n b b'
  pe : fsa.pe = .sentinel ∧ fsa'.pe = .sentinel ∨
    ∃ b b', fsa.pe = .blk b ∧ fsa'.pe = .blk b' ∧ BlkShift k k' n b b'
  ststk : fsa'.ststk = fsa.ststk
  pestk : List.Forall₂ (BlkShift k k' n) fsa.pestk fsa'.pestk

section Heap

variable {k k' lo n : ℕ} {h h' : Heap} {r r' : Ref} {c c' : Cell}

theorem BlkShift.mono {m b b' : ℕ} (hb : BlkShift k k' n b b') (hm : n ≤ m) :
    BlkShift k k' m b b' := by
  obtain ⟨i, hi, rfl, rfl⟩ := hb
  exact ⟨i, Nat.lt_of_lt_of_le hi hm, rfl, rfl⟩

theorem RefShift.mono {lo' m : ℕ} (hr : RefShift k k' lo n r r') (hlo : lo' ≤ lo) (hm : n ≤ m) :
    RefShift k k' lo' m r r' := by
  cases hr with
  | nil => exact .nil
  | q => exact .q
  | blk h1 h2 => exact .blk (Nat.le_trans hlo h1) (Nat.lt_of_lt_of_le h2 hm)

theorem CellShift.mono {lo' m : ℕ} (hc : CellShift k k' lo n c c') (hlo : lo' ≤ lo)
    (hm : n ≤ m) : CellShift k k' lo' m c c' := by
  cases hc with
  | sym str => exact .sym str
  | pair hcar hcdr => exact .pair (hcar.mono hlo hm) (hcdr.mono hlo hm)

theorem HeapShift.ylpcar_ylpcdr (hh : HeapShift k k' n h h') (hr : RefShift k k' lo n r r') :
    RefShift k k' (lo + 1) n (h.ylpcar r) (h'.ylpcar r') ∧
      RefShift k k' (lo + 1) n (h.ylpcdr r) (h'.ylpcdr r') := by
  cases hr with
  | nil => exact ⟨.nil, .nil⟩
  | q => exact ⟨.nil, .nil⟩
  | @blk i hlo hi =>
      have hc := hh.cell i hi
      rw [Heap.ylpcar, Heap.ylpcar, Heap.ylpcdr, Heap.ylpcdr]
      generalize h.cell (k + i) = c at hc ⊢
      generalize h'.cell (k' + i) = c' at hc ⊢
      cases hc with
      | sym str => exact ⟨.nil, .nil⟩
      | pair hcar hcdr =>
          have hlo' := Nat.succ_le_succ hlo
          exact ⟨hcar.mono hlo' le_rfl, hcdr.mono hlo' le_rfl⟩

theorem HeapShift.ylpcar (hh : HeapShift k k' n h h') (hr : RefShift k k' lo n r r') :
    RefShift k k' (lo + 1) n (h.ylpcar r) (h'.ylpcar r') :=
  (hh.ylpcar_ylpcdr hr).1

theorem HeapShift.ylpcdr (hh : HeapShift k k' n h h') (hr : RefShift k k' lo n r r') :
    RefShift k k' (lo + 1) n (h.ylpcdr r) (h'.ylpcdr r') :=
  (hh.ylpcar_ylpcdr hr).2

theorem HeapShift.alloc (hh : HeapShift k k' n h h') (hc : CellShift k k' (n + 1) (n + 1) c c') :
    HeapShift k k' (n + 1) (h.alloc c).2 (h'.alloc c').2 := by
  refine ⟨congrArg Nat.succ hh.next, congrArg Nat.succ hh.next', fun i hi => ?_⟩
  rw [Heap.alloc, Heap.alloc, hh.next, hh.next']
  rcases Nat.lt_or_eq_of_le (Nat.le_of_lt_succ hi) with hlt | rfl
  · dsimp only
    rw [Function.update_of_ne (by omega), Function.update_of_ne (by omega)]
    exact (hh.cell i hlt).mono le_rfl (Nat.le_succ n)
  · dsimp only
    rw [Function.update_self, Function.update_self]
    exact hc

theorem HeapShift.update (hh : HeapShift k k' n h h') {i : ℕ}
    (hc : CellShift k k' (i + 1) n c c') :
    HeapShift k k' n { h with cell := Function.update h.cell (k + i) c }
      { h' with cell := Function.update h'.cell (k' + i) c' } := by
  refine ⟨hh.next, hh.next', fun j hj => ?_⟩
  dsimp only
  by_cases hij : j = i
  · subst hij
    rw [Function.update_self, Function.update_self]
    exact hc
  · rw [Function.update_of_ne (by omega), Function.update_of_ne (by omega)]
    exact hh.cell j hj

theorem HeapShift.ylpsetcar (hh : HeapShift k k' n h h') {i : ℕ} (hi : i < n)
    (hr : RefShift k k' (i + 1) n r r') :
    HeapShift k k' n (h.ylpsetcar (k + i) r) (h'.ylpsetcar (k' + i) r') :=
  hh.update (.pair hr (hh.ylpcdr (.blk le_rfl hi)))

theorem HeapShift.ylpsetcdr (hh : HeapShift k k' n h h') {i : ℕ} (hi : i < n)
    (hr : RefShift k k' (i + 1) n r r') :
    HeapShift k k' n (h.ylpsetcdr (k + i) r) (h'.ylpsetcdr (k' + i) r') :=
  hh.update (.pair (hh.ylpcar (.blk le_rfl hi)) hr)

/-- What hangs on the same block is the same expression: the induction is on the number of blocks
behind it. -/
theorem HeapShift.sameExpr (hh : HeapShift k k' n h h') (hr : RefShift k k' lo n r r') :
    SameExpr h h' r r' := by
  induction hd : n - lo using Nat.strongRecOn generalizing lo r r' with
  | ind d ih =>
      cases hr with
      | nil => exact .nil
      | q => exact .q
      | @blk i hlo hi =>
          have hrec : ∀ {r r' : Ref}, RefShift k k' (i + 1) n r r' → SameExpr h h' r r' :=
            fun hr => ih (n - (i + 1)) (by omega) hr rfl
          have hc := hh.cell i hi
          generalize hb : h.cell (k + i) = c at hc
          generalize hb' : h'.cell (k' + i) = c' at hc
          cases hc with
          | sym str => exact .sym hb hb'
          | pair hcar hcdr => exact .pair hb hb' (hrec hcar) (hrec hcdr)

end Heap

section Operations

variable {k k' n : ℕ} {fsa fsa' : Fsa}

/-- The new pair `n` is hung behind the current expression. -/
theorem FsaShift.setPeCdr (hf : FsaShift k k' n fsa fsa') {m : ℕ} {h h' : Heap}
    (hh : HeapShift k k' m h h') (hm : n < m) :
    HeapShift k k' m ({ fsa with heap := h }.setPeCdr (k + n)).heap
        ({ fsa' with heap := h' }.setPeCdr (k' + n)).heap ∧
      ∃ b b', ({ fsa with heap := h }.setPeCdr (k + n)).sentinel = some b ∧
        ({ fsa' with heap := h' }.setPeCdr (k' + n)).sentinel = some b' ∧
        BlkShift k k' m b b' := by
  rcases hf.pe with ⟨hpe, hpe'⟩ | ⟨b, b', hpe, hpe', i, hi, rfl, rfl⟩
  · simp only [Fsa.setPeCdr, hpe, hpe']
    exact ⟨hh, _, _, rfl, rfl, n, hm, rfl, rfl⟩
  · obtain ⟨b, b', hs, hs', hb⟩ := hf.sentinel (Or.inl (by rw [hpe]; simp))
    simp only [Fsa.setPeCdr, hpe, hpe']
    refine ⟨hh.ylpsetcdr (Nat.lt_trans hi hm) (.blk hi hm), b, b', hs, hs', ?_⟩
    exact hb.mono (Nat.le_of_lt hm)

theorem FsaShift.pestk_mono (hf : FsaShift k k' n fsa fsa') {m : ℕ} (hm : n ≤ m) :
    List.Forall₂ (BlkShift k k' m) fsa.pestk fsa'.pestk :=
  hf.pestk.imp fun _ _ hb => hb.mono hm

theorem openList_eq (fsa : Fsa) (car : Ref) :
    fsa.openList car =
      let f := { fsa with heap := (fsa.heap.cons .nil .nil).2 }.setPeCdr fsa.heap.next
      { f with
        heap := (f.heap.cons car .nil).2.ylpsetcar fsa.heap.next (.blk f.heap.next)
        pestk := fsa.heap.next :: f.pestk
        pe := .blk f.heap.next } := rfl

theorem FsaShift.openList (hf : FsaShift k k' n fsa fsa') {car : Ref}
    (hcar : car = .nil ∨ car = .q) :
    FsaShift k k' (n + 2) (fsa.openList car) (fsa'.openList car) := by
  have hpair : HeapShift k k' (n + 1) (fsa.heap.cons .nil .nil).2 (fsa'.heap.cons .nil .nil).2 :=
    hf.heap.alloc (.pair .nil .nil)
  have hcell : CellShift k k' (n + 2) (n + 2) (.pair car .nil) (.pair car .nil) := by
    rcases hcar with rfl | rfl
    · exact .pair .nil .nil
    · exact .pair .q .nil
  obtain ⟨hheap, b, b', hs, hs', hb⟩ := hf.setPeCdr hpair (Nat.lt_succ_self n)
  rw [openList_eq, openList_eq, hf.heap.next, hf.heap.next']
  dsimp only
  rw [hheap.next, hheap.next', setPeCdr_pestk, setPeCdr_pestk]
  refine ⟨?_, fun _ => ⟨b, b', hs, hs', hb.mono (Nat.le_succ _)⟩, ?_, ?_, ?_⟩
  · exact (hheap.alloc hcell).ylpsetcar (by omega) (.blk le_rfl (by omega))
  · exact Or.inr ⟨_, _, rfl, rfl, n + 1, by omega, rfl, rfl⟩
  · simpa using hf.ststk
  · exact .cons ⟨n, by omega, rfl, rfl⟩ (hf.pestk_mono (by omega))

theorem fsasSymbolExit_eq (fsa : Fsa) :
    fsasSymbolExit fsa =
      let h := ((fsa.heap.cons .nil .nil).2.alloc (.sym fsa.pb)).2.ylpsetcar fsa.heap.next
        (.blk (fsa.heap.next + 1))
      { { fsa with heap := h }.setPeCdr fsa.heap.next with
        pe := .blk fsa.heap.next
        pb := [] } := rfl

theorem FsaShift.symbolExit (hf : FsaShift k k' n fsa fsa') (hpb : fsa'.pb = fsa.pb) :
    FsaShift k k' (n + 2) (fsasSymbolExit fsa) (fsasSymbolExit fsa') := by
  have hpair : HeapShift k k' (n + 1) (fsa.heap.cons .nil .nil).2 (fsa'.heap.cons .nil .nil).2 :=
    hf.heap.alloc (.pair .nil .nil)
  have hcell : CellShift k k' (n + 2) (n + 2) (.sym fsa.pb) (.sym fsa'.pb) := by
    rw [hpb]
    exact .sym fsa.pb
  have hsym := (hpair.alloc hcell).ylpsetcar (i := n) (by omega)
    (.blk le_rfl (Nat.lt_succ_self (n + 1)))
  obtain ⟨hheap, b, b', hs, hs', hb⟩ := hf.setPeCdr hsym (by omega)
  rw [fsasSymbolExit_eq, fsasSymbolExit_eq, hf.heap.next, hf.heap.next']
  refine ⟨hheap, fun _ => ⟨b, b', hs, hs', hb⟩, ?_, ?_, ?_⟩
  · exact Or.inr ⟨_, _, rfl, rfl, n, by omega, rfl, rfl⟩
  · simpa using hf.ststk
  · simpa using hf.pestk_mono (Nat.le_add_right n 2)

theorem FsaShift.listExit (hf : FsaShift k k' n fsa fsa') :
    FsaShift k k' n (fsasListExit fsa) (fsasListExit fsa') := by
  have hps := hf.pestk
  rw [fsasListExit, fsasListExit]
  cases hp : fsa.pestk with
  | nil =>
      rw [hp, List.forall₂_nil_left_iff] at hps
      rw [hps]
      exact hf
  | cons b ps =>
      obtain ⟨b', ps', ⟨i, hi, rfl, rfl⟩, hps', hp'⟩ := List.forall₂_cons_left_iff.1 (hp ▸ hps)
      have hcar := hf.heap.ylpcar (.blk le_rfl hi)
      have hcdr := (hf.heap.ylpcdr hcar).mono (Nat.le_succ _) le_rfl
      rw [hp']
      exact ⟨hf.heap.ylpsetcar hi hcdr, fun _ => hf.sentinel (Or.inr (by rw [hp]; simp)),
        Or.inr ⟨_, _, rfl, rfl, i, hi, rfl, rfl⟩, hf.ststk, hps'⟩

theorem FsaShift.squoteExit (hf : FsaShift k k' n fsa fsa') :
    FsaShift k k' n (fsasSquoteExit fsa) (fsasSquoteExit fsa') := by
  have hps := hf.pestk
  rw [fsasSquoteExit, fsasSquoteExit]
  cases hp : fsa.pestk with
  | nil =>
      rw [hp, List.forall₂_nil_left_iff] at hps
      rw [hps]
      exact hf
  | cons b ps =>
      obtain ⟨b', ps', hb, hps', hp'⟩ := List.forall₂_cons_left_iff.1 (hp ▸ hps)
      rw [hp']
      exact ⟨hf.heap, fun _ => hf.sentinel (Or.inr (by rw [hp]; simp)),
        Or.inr ⟨b, b', rfl, rfl, hb⟩, hf.ststk, hps'⟩

theorem FsaShift.sameEval (hf : FsaShift k k' n fsa fsa') (hpe : fsa.pe ≠ .sentinel) :
    SameEval (fsa.heap, fsa.cadrSentinel) (fsa'.heap, fsa'.cadrSentinel) := by
  obtain ⟨b, b', hs, hs', i, hi, rfl, rfl⟩ := hf.sentinel (Or.inl hpe)
  rw [Fsa.cadrSentinel, Fsa.cadrSentinel, hs, hs']
  exact hf.heap.sameExpr (hf.heap.ylpcar (.blk le_rfl hi))

end Operations

end Parser

end Ylisp
