import Ylisp.Parser.Expr

/-!
# The partly built expression

While a list is read, the heap holds a tree that is open along one path: for each
open list, a pair to hang it on (kept in `pestk`) and a chain of the elements
read so far, which starts at a sentinel and ends at `pe` or at the pair of the
list below. `Zipped` describes this heap by the lists of the elements.

Only the cells of this path are written to. All others are `Frozen`, and the
elements that have been read consist of frozen blocks.
-/

namespace Ylisp

namespace Parser

def Seg (h : Heap) (ok : ℕ → Prop) : List Expr → ℕ → ℕ → Prop
  | [], s, l => s = l
  | e :: es, s, l => ∃ c b car cdr, ok s ∧ h.cell s = .pair c (.blk b) ∧
      h.cell b = .pair car cdr ∧ Rep h ok e car ∧ Seg h ok es b l

def Linked (h : Heap) (ok : ℕ → Prop) (sentinel : Option ℕ) (pe : Pe) (pair : ℕ) : Prop :=
  match pe with
  | .sentinel => sentinel = some pair
  | .blk l => ok l ∧ ∃ c, h.cell l = .pair c (.blk pair)

def Zip (h : Heap) (ok : ℕ → Prop) (sentinel : Option ℕ) :
    List (List Expr) → List ℕ → Pe → Prop
  | [], [], pe => pe = .sentinel
  | es :: fs, pair :: ps, pe => ∃ s l pe', pe = .blk l ∧ h.cell pair = .pair (.blk s) .nil ∧
      Seg h ok es s l ∧ Linked h ok sentinel pe' pair ∧ Zip h ok sentinel fs ps pe'
  | _, _, _ => False

def Tail (h : Heap) : Pe → Prop
  | .sentinel => True
  | .blk l => ∃ c, h.cell l = .pair c .nil

def Frozen (fsa : Fsa) (b : ℕ) : Prop :=
  b < fsa.heap.next ∧ fsa.pe ≠ .blk b ∧ b ∉ fsa.pestk

structure Owned (fsa : Fsa) : Prop where
  pe : ∀ l, fsa.pe = .blk l → l < fsa.heap.next ∧ l ∉ fsa.pestk
  pestk : ∀ b ∈ fsa.pestk, b < fsa.heap.next
  nodup : fsa.pestk.Nodup

structure Zipped (fsa : Fsa) (fs : List (List Expr)) : Prop where
  owned : Owned fsa
  zip : Zip fsa.heap (Frozen fsa) fsa.sentinel fs fsa.pestk fsa.pe
  tail : Tail fsa.heap fsa.pe

structure Hung (fsa : Fsa) (fs : List (List Expr)) (e : Expr) : Prop where
  owned : Owned fsa
  added : ∃ pair pe r, fsa.pe = .blk pair ∧
    Zip fsa.heap (Frozen fsa) fsa.sentinel fs fsa.pestk pe ∧
    Linked fsa.heap (Frozen fsa) fsa.sentinel pe pair ∧
    fsa.heap.cell pair = .pair r .nil ∧ Rep fsa.heap (Frozen fsa) e r

section Mono

variable {h h' : Heap} {ok ok' : ℕ → Prop}

def KeepsCar (h h' : Heap) (l : ℕ) : Prop :=
  ∀ car cdr, h.cell l = .pair car cdr → ∃ cdr', h'.cell l = .pair car cdr'

theorem Seg.mono (hok : ∀ b, ok b → ok' b ∧ h'.cell b = h.cell b) :
    ∀ (es : List Expr) (s l : ℕ), KeepsCar h h' l → Seg h ok es s l → Seg h' ok' es s l
  | [], _, _, _, hseg => hseg
  | [e], s, l, hl, hseg => by
      obtain ⟨c, b, car, cdr, hs, hcell, hb, he, rfl⟩ := hseg
      obtain ⟨cdr', hb'⟩ := hl car cdr hb
      exact ⟨c, b, car, cdr', (hok s hs).1, by rw [(hok s hs).2, hcell], hb',
        Rep.mono hok e car he, rfl⟩
  | e :: e' :: es, s, l, hl, hseg => by
      obtain ⟨c, b, car, cdr, hs, hcell, hb, he, hrest⟩ := hseg
      have hbok : ok b := by
        obtain ⟨_, _, _, _, hbok, _⟩ := hrest
        exact hbok
      exact ⟨c, b, car, cdr, (hok s hs).1, by rw [(hok s hs).2, hcell],
        by rw [(hok b hbok).2, hb], Rep.mono hok e car he, Seg.mono hok (e' :: es) b l hl hrest⟩

theorem Seg.snoc {e : Expr} {b : ℕ} {car : Ref} (he : Rep h ok e car)
    (hb : ∃ cdr, h.cell b = .pair car cdr) :
    ∀ (es : List Expr) (s l : ℕ), Seg h ok es s l → ok l →
      (∃ c, h.cell l = .pair c (.blk b)) → Seg h ok (es ++ [e]) s b
  | [], s, l, hseg, hl, hc => by
      obtain rfl := hseg
      obtain ⟨c, hc⟩ := hc
      obtain ⟨cdr, hb⟩ := hb
      exact ⟨c, b, car, cdr, hl, hc, hb, he, rfl⟩
  | e' :: es, s, l, hseg, hl, hc => by
      obtain ⟨c, b', car', cdr', hs, hcell, hb', he', hrest⟩ := hseg
      exact ⟨c, b', car', cdr', hs, hcell, hb', he', Seg.snoc he hb es b' l hrest hl hc⟩

theorem Seg.repList : ∀ (es : List Expr) (s l : ℕ), Seg h ok es s l → ok l →
    (∃ c, h.cell l = .pair c .nil) → RepList h ok es (h.ylpcdr (.blk s))
  | [], s, l, hseg, _, hc => by
      obtain rfl := hseg
      obtain ⟨c, hc⟩ := hc
      simp [RepList, Heap.ylpcdr, hc]
  | e :: es, s, l, hseg, hl, hc => by
      obtain ⟨c, b, car, cdr, hs, hcell, hb, he, hrest⟩ := hseg
      have hbok : ok b := by
        cases es with
        | nil => exact hrest ▸ hl
        | cons e' es =>
            obtain ⟨_, _, _, _, hbok, _⟩ := hrest
            exact hbok
      have ih := Seg.repList es b l hrest hl hc
      simp only [Heap.ylpcdr, hb] at ih
      exact ⟨b, car, cdr, by simp [Heap.ylpcdr, hcell], hbok, hb, he, ih⟩

theorem Linked.mono {sentinel sentinel' : Option ℕ} {pe : Pe} {pair : ℕ}
    (hok : ∀ b, ok b → ok' b ∧ h'.cell b = h.cell b) (hsen : sentinel' = sentinel)
    (hl : Linked h ok sentinel pe pair) : Linked h' ok' sentinel' pe pair := by
  subst hsen
  cases pe with
  | sentinel => exact hl
  | blk l =>
      obtain ⟨hl, c, hcell⟩ := hl
      exact ⟨(hok l hl).1, c, by rw [(hok l hl).2, hcell]⟩

theorem Zip.mono {sentinel sentinel' : Option ℕ}
    (hok : ∀ b, ok b → ok' b ∧ h'.cell b = h.cell b) :
    ∀ (fs : List (List Expr)) (ps : List ℕ) (pe : Pe), (∀ b ∈ ps, h'.cell b = h.cell b) →
      (∀ l, pe = .blk l → KeepsCar h h' l ∧ sentinel' = sentinel) →
      Zip h ok sentinel fs ps pe → Zip h' ok' sentinel' fs ps pe
  | [], [], pe, _, _, hz => hz
  | [], _ :: _, pe, _, _, hz => hz.elim
  | _ :: _, [], pe, _, _, hz => hz.elim
  | es :: fs, pair :: ps, pe, hps, hpe, hz => by
      obtain ⟨s, l, pe', rfl, hcell, hseg, hlink, hrest⟩ := hz
      obtain ⟨hcar, hsen⟩ := hpe l rfl
      refine ⟨s, l, pe', rfl, ?_, Seg.mono hok es s l hcar hseg, hlink.mono hok hsen, ?_⟩
      · rw [hps pair List.mem_cons_self, hcell]
      · apply Zip.mono hok fs ps pe' (fun b hb => hps b (List.mem_cons_of_mem _ hb)) ?_ hrest
        rintro l' rfl
        refine ⟨fun car cdr hl' => ⟨cdr, ?_⟩, hsen⟩
        rw [(hok l' hlink.1).2, hl']

end Mono

section Hang

variable {fsa fsa' : Fsa} {fs : List (List Expr)}

/-- The change common to entering a list and leaving a symbol: a new pair is hung
behind `pe`, with a new block of content `c` as its car. -/
structure Hangs (fsa fsa' : Fsa) (c : Cell) : Prop where
  next : fsa'.heap.next = fsa.heap.next + 2
  cell : ∀ b, b < fsa.heap.next → fsa.pe ≠ .blk b → fsa'.heap.cell b = fsa.heap.cell b
  pair : fsa'.heap.cell fsa.heap.next = .pair (.blk (fsa.heap.next + 1)) .nil
  car : fsa'.heap.cell (fsa.heap.next + 1) = c
  sentinel : fsa.pe = .sentinel → fsa'.sentinel = some fsa.heap.next
  pe : ∀ l, fsa.pe = .blk l → fsa'.sentinel = fsa.sentinel ∧
    fsa'.heap.cell l = .pair (fsa.heap.ylpcar (.blk l)) (.blk fsa.heap.next)

theorem openList_hangs (ho : ∀ l, fsa.pe = .blk l → l < fsa.heap.next) (car : Ref) :
    Hangs fsa (fsa.openList car) (.pair car .nil) := by
  cases hpe : fsa.pe with
  | sentinel =>
      constructor <;> simp [Fsa.openList, Fsa.setPeCdr, Heap.cons, Heap.alloc, Heap.ylpsetcar,
        Heap.ylpcdr, hpe]
      intro b hb
      rw [Function.update_of_ne (by omega), Function.update_of_ne (by omega),
        Function.update_of_ne (by omega)]
  | blk l =>
      have hl := ho l hpe
      constructor <;> simp [Fsa.openList, Fsa.setPeCdr, Heap.cons, Heap.alloc, Heap.ylpsetcar,
        Heap.ylpsetcdr, Heap.ylpcdr, Heap.ylpcar, hpe]
      · intro b hb hne
        rw [Function.update_of_ne (by omega), Function.update_of_ne (by omega),
          Function.update_of_ne (Ne.symm hne), Function.update_of_ne (by omega)]
      · rw [Function.update_of_ne (by omega), Function.update_self]
      · rw [Function.update_of_ne (by omega), Function.update_of_ne (by omega),
          Function.update_self, Function.update_of_ne (by omega)]

theorem fsasSymbolExit_hangs (ho : ∀ l, fsa.pe = .blk l → l < fsa.heap.next) :
    Hangs fsa (fsasSymbolExit fsa) (.sym fsa.pb) := by
  cases hpe : fsa.pe with
  | sentinel =>
      constructor <;> simp [fsasSymbolExit, Fsa.setPeCdr, Heap.cons, Heap.alloc, Heap.ylpsetcar,
        Heap.ylpcdr, hpe]
      intro b hb
      rw [Function.update_of_ne (by omega), Function.update_of_ne (by omega),
        Function.update_of_ne (by omega)]
  | blk l =>
      have hl := ho l hpe
      constructor <;> simp [fsasSymbolExit, Fsa.setPeCdr, Heap.cons, Heap.alloc, Heap.ylpsetcar,
        Heap.ylpsetcdr, Heap.ylpcdr, Heap.ylpcar, hpe]
      · intro b hb hne
        rw [Function.update_of_ne (Ne.symm hne), Function.update_of_ne (by omega),
          Function.update_of_ne (by omega), Function.update_of_ne (by omega)]
      · rw [Function.update_of_ne (by omega)]
        simp
      · rw [Function.update_of_ne (by omega), Function.update_of_ne (by omega)]
        simp
      · rw [Function.update_of_ne (by omega), Function.update_of_ne (by omega),
          Function.update_of_ne (by omega)]

/-- After the change the open lists are as before, and the new pair is linked. -/
theorem Hangs.zip {c : Cell} (hh : Hangs fsa fsa' c) (h : Zipped fsa fs)
    (hfrozen : ∀ b, Frozen fsa b → Frozen fsa' b)
    (hpe : ∀ l, fsa.pe = .blk l → Frozen fsa' l) :
    Zip fsa'.heap (Frozen fsa') fsa'.sentinel fs fsa.pestk fsa.pe ∧
      Linked fsa'.heap (Frozen fsa') fsa'.sentinel fsa.pe fsa.heap.next := by
  constructor
  · refine h.zip.mono (fun b hb => ⟨hfrozen b hb, hh.cell b hb.1 hb.2.1⟩) _ _ _ ?_ ?_
    · intro b hb
      apply hh.cell b (h.owned.pestk b hb)
      intro hc
      exact (h.owned.pe b hc).2 hb
    · intro l hl
      refine ⟨fun car cdr hcell => ⟨.blk fsa.heap.next, ?_⟩, (hh.pe l hl).1⟩
      rw [(hh.pe l hl).2, Heap.ylpcar, hcell]
  · cases hp : fsa.pe with
    | sentinel => exact hh.sentinel hp
    | blk l => exact ⟨hpe l hp, _, (hh.pe l hp).2⟩

theorem Zipped.congr (h : Zipped fsa fs) (hheap : fsa'.heap = fsa.heap)
    (hsen : fsa'.sentinel = fsa.sentinel) (hpe : fsa'.pe = fsa.pe)
    (hps : fsa'.pestk = fsa.pestk) : Zipped fsa' fs := by
  obtain ⟨⟨h1, h2, h3⟩, h4, h5⟩ := h
  have hfrozen : Frozen fsa' = Frozen fsa := by
    funext b
    rw [Frozen, Frozen, hheap, hpe, hps]
  exact ⟨⟨by rw [hheap, hpe, hps]; exact h1, by rw [hheap, hps]; exact h2, hps ▸ h3⟩,
    by rw [hheap, hsen, hpe, hps, hfrozen]; exact h4, by rw [hheap, hpe]; exact h5⟩

end Hang

section Operations

variable {fsa : Fsa} {fs : List (List Expr)} {es : List Expr} {e : Expr}

theorem Zipped.listEnter (h : Zipped fsa fs) : Zipped (fsasListEnter fsa) ([] :: fs) := by
  have hh : Hangs fsa (fsasListEnter fsa) (.pair .nil .nil) :=
    openList_hangs (fun l hl => (h.owned.pe l hl).1) .nil
  have hps : (fsasListEnter fsa).pestk = fsa.heap.next :: fsa.pestk := by
    unfold fsasListEnter Fsa.openList Fsa.setPeCdr
    cases fsa.pe <;> rfl
  have hpe : (fsasListEnter fsa).pe = .blk (fsa.heap.next + 1) := by
    unfold fsasListEnter Fsa.openList Fsa.setPeCdr
    cases fsa.pe <;> rfl
  have hne : ∀ b < fsa.heap.next, b ≠ fsa.heap.next + 1 ∧ b ≠ fsa.heap.next :=
    fun b hb => by omega
  have hnew : ∀ b < fsa.heap.next, b ∉ fsa.pestk → Frozen (fsasListEnter fsa) b := by
    intro b hb hmem
    obtain ⟨h1, h2⟩ := hne b hb
    refine ⟨by rw [hh.next]; omega, ?_, ?_⟩
    · rw [hpe]
      simpa using Ne.symm h1
    · rw [hps]
      simp [h2, hmem]
  obtain ⟨hz, hl⟩ := hh.zip h (fun b hb => hnew b hb.1 hb.2.2)
    fun l hl => hnew l (h.owned.pe l hl).1 (h.owned.pe l hl).2
  refine ⟨⟨?_, ?_, ?_⟩, ?_, ?_⟩
  · intro l hl'
    rw [hpe] at hl'
    cases hl'
    rw [hps, hh.next, List.mem_cons, not_or]
    exact ⟨by omega, by omega, fun hmem => by have := h.owned.pestk _ hmem; omega⟩
  · intro b hb
    rw [hps] at hb
    rw [hh.next]
    rcases List.mem_cons.1 hb with rfl | hb
    · omega
    · have := h.owned.pestk b hb
      omega
  · rw [hps]
    exact List.nodup_cons.2
      ⟨fun hmem => by have := h.owned.pestk _ hmem; omega, h.owned.nodup⟩
  · rw [hps, hpe]
    exact ⟨_, _, _, rfl, hh.pair, rfl, hl, hz⟩
  · rw [hpe]
    exact ⟨_, hh.car⟩

theorem Zipped.symbolExit (h : Zipped fsa fs) {s : Symbol} (hs : fsa.pb = s.1) :
    Hung (fsasSymbolExit fsa) fs (.sym s) := by
  have hh := fsasSymbolExit_hangs fun l hl => (h.owned.pe l hl).1
  have hps : (fsasSymbolExit fsa).pestk = fsa.pestk := by
    unfold fsasSymbolExit Fsa.setPeCdr
    cases fsa.pe <;> rfl
  have hpe : (fsasSymbolExit fsa).pe = .blk fsa.heap.next := by
    unfold fsasSymbolExit Fsa.setPeCdr
    cases fsa.pe <;> rfl
  have hnew : ∀ b < fsa.heap.next + 2, b ≠ fsa.heap.next → b ∉ fsa.pestk →
      Frozen (fsasSymbolExit fsa) b := by
    intro b hb hne hmem
    refine ⟨by rw [hh.next]; exact hb, ?_, by rw [hps]; exact hmem⟩
    rw [hpe]
    simpa using Ne.symm hne
  have hnotin : ∀ b, fsa.heap.next ≤ b → b ∉ fsa.pestk :=
    fun b hb hmem => by have := h.owned.pestk b hmem; omega
  obtain ⟨hz, hl⟩ := hh.zip h (fun b hb => hnew b (by have := hb.1; omega)
    (by have := hb.1; omega) hb.2.2) fun l hl => by
      obtain ⟨h1, h2⟩ := h.owned.pe l hl
      exact hnew l (by omega) (by omega) h2
  refine ⟨⟨?_, ?_, by rw [hps]; exact h.owned.nodup⟩, ?_⟩
  · intro l hl'
    rw [hpe] at hl'
    cases hl'
    rw [hps, hh.next]
    exact ⟨by omega, hnotin _ le_rfl⟩
  · intro b hb
    rw [hps] at hb
    rw [hh.next]
    have := h.owned.pestk b hb
    omega
  · rw [hps]
    exact ⟨_, _, _, hpe, hz, hl, hh.pair, _, rfl,
      hnew _ (by omega) (by omega) (hnotin _ (by omega)), by rw [hh.car, hs]⟩

/-- The change that leaving a list makes: the pair `t` that the list hangs on gets the reference
`r` to its first element, and is the current expression. -/
structure Leaves (fsa fsa' : Fsa) (t : ℕ) (ts : List ℕ) (r : Ref) : Prop where
  pestk : fsa'.pestk = ts
  pe : fsa'.pe = .blk t
  next : fsa'.heap.next = fsa.heap.next
  sentinel : fsa'.sentinel = fsa.sentinel
  pair : fsa'.heap.cell t = .pair r .nil
  cell : ∀ b, b ≠ t → fsa'.heap.cell b = fsa.heap.cell b

theorem fsasListExit_leaves {t s : ℕ} {ts : List ℕ} (hps : fsa.pestk = t :: ts)
    (ht : fsa.heap.cell t = .pair (.blk s) .nil) :
    Leaves fsa (fsasListExit fsa) t ts (fsa.heap.ylpcdr (.blk s)) := by
  have hexit : fsasListExit fsa =
      { fsa with
        pestk := ts
        heap := fsa.heap.ylpsetcar t (fsa.heap.ylpcdr (.blk s))
        pe := .blk t } := by
    simp only [fsasListExit, hps, Heap.ylpcar, ht]
  rw [hexit]
  refine ⟨rfl, rfl, rfl, rfl, ?_, fun b hb => Function.update_of_ne hb _ _⟩
  simp [Heap.ylpsetcar, Heap.ylpcdr, ht]

/-- The blocks of the open lists stay as they are when a list is left, and more blocks are
frozen then. -/
theorem Leaves.frozen {t : ℕ} {ts : List ℕ} {r : Ref} (hl : Leaves fsa fsa' t ts r)
    (hps : fsa.pestk = t :: ts) :
    (∀ b < fsa.heap.next, b ≠ t → b ∉ ts → Frozen fsa' b) ∧
      ∀ b, Frozen fsa b → Frozen fsa' b ∧ fsa'.heap.cell b = fsa.heap.cell b := by
  have hnew : ∀ b < fsa.heap.next, b ≠ t → b ∉ ts → Frozen fsa' b := by
    intro b hb hne hmem
    refine ⟨by rw [hl.next]; exact hb, ?_, by rw [hl.pestk]; exact hmem⟩
    rw [hl.pe]
    simpa using Ne.symm hne
  refine ⟨hnew, fun b hb => ?_⟩
  obtain ⟨h1, -, h3⟩ := hb
  rw [hps, List.mem_cons, not_or] at h3
  exact ⟨hnew b h1 h3.1 h3.2, hl.cell b h3.1⟩

theorem Leaves.owned {t : ℕ} {ts : List ℕ} {r : Ref} (hl : Leaves fsa fsa' t ts r)
    (hps : fsa.pestk = t :: ts) (h : Owned fsa) : Owned fsa' := by
  have hnodup := h.nodup
  rw [hps] at hnodup
  obtain ⟨ht, hnodup⟩ := List.nodup_cons.1 hnodup
  refine ⟨?_, ?_, by rw [hl.pestk]; exact hnodup⟩
  · intro x hx
    rw [hl.pe] at hx
    cases hx
    rw [hl.next, hl.pestk]
    exact ⟨h.pestk t (by rw [hps]; exact List.mem_cons_self), ht⟩
  · intro b hb
    rw [hl.pestk] at hb
    rw [hl.next]
    exact h.pestk b (by rw [hps]; exact List.mem_cons_of_mem _ hb)

/-- Leaving a list adds it to the list around it. -/
theorem Zipped.listExit (h : Zipped fsa (es :: fs)) : Hung (fsasListExit fsa) fs (.list es) := by
  obtain ⟨howned, hzip, htail⟩ := h
  cases hps : fsa.pestk with
  | nil =>
      rw [hps] at hzip
      exact hzip.elim
  | cons pair ps =>
      rw [hps] at hzip
      obtain ⟨s, l, pe', hpe, hcell, hseg, hlink, hrest⟩ := hzip
      rw [hpe] at htail
      obtain ⟨hlt, hmem⟩ := howned.pe l hpe
      have hpair : pair ∉ ps := (List.nodup_cons.1 (hps ▸ howned.nodup)).1
      rw [hps, List.mem_cons, not_or] at hmem
      have hleaves := fsasListExit_leaves hps hcell
      obtain ⟨hnew, hok⟩ := hleaves.frozen hps
      have hlok := hnew l hlt hmem.1 hmem.2
      have hseg' : Seg (fsasListExit fsa).heap (Frozen (fsasListExit fsa)) es s l :=
        hseg.mono hok es s l fun car cdr hl => ⟨cdr, by rw [hleaves.cell l hmem.1, hl]⟩
      have htail' : ∃ c, (fsasListExit fsa).heap.cell l = .pair c .nil := by
        rw [hleaves.cell l hmem.1]
        exact htail
      have hlist := hseg'.repList es s l hlok htail'
      have hs : s ≠ pair := by
        cases es with
        | nil =>
            rintro rfl
            exact hmem.1 (Eq.symm hseg)
        | cons e es =>
            obtain ⟨_, _, _, _, hsok, _⟩ := hseg
            rintro rfl
            exact hsok.2.2 (by rw [hps]; exact List.mem_cons_self)
      have hcdr : (fsasListExit fsa).heap.ylpcdr (.blk s) = fsa.heap.ylpcdr (.blk s) := by
        rw [Heap.ylpcdr, Heap.ylpcdr, hleaves.cell s hs]
      have hzip' : Zip (fsasListExit fsa).heap (Frozen (fsasListExit fsa)) fsa.sentinel fs ps
          pe' := hrest.mono hok fs ps pe'
        (fun b hb => hleaves.cell b fun hc => hpair (hc ▸ hb)) (by
          rintro l' rfl
          refine ⟨fun car cdr hl' => ⟨cdr, ?_⟩, rfl⟩
          rw [(hok l' hlink.1).2, hl'])
      rw [← hcdr] at hleaves
      refine ⟨hleaves.owned hps howned, pair, pe', _, hleaves.pe, ?_, ?_, hleaves.pair, hlist⟩
      · rw [hleaves.pestk, hleaves.sentinel]
        exact hzip'
      · exact hlink.mono hok hleaves.sentinel

/-- In an open list, the expression that was added is its last element. -/
theorem Hung.zipped (h : Hung fsa (es :: fs) e) : Zipped fsa ((es ++ [e]) :: fs) := by
  obtain ⟨howned, pair, pe, r, hpe, hzip, hlink, hcell, hrep⟩ := h
  refine ⟨howned, ?_, by rw [hpe]; exact ⟨r, hcell⟩⟩
  cases hps : fsa.pestk with
  | nil =>
      rw [hps] at hzip
      exact hzip.elim
  | cons p ps =>
      rw [hps] at hzip
      obtain ⟨s, l, pe', rfl, hp, hseg, hlink', hrest⟩ := hzip
      exact ⟨s, pair, pe', hpe, hp,
        hseg.snoc hrep ⟨.nil, hcell⟩ es s l hlink.1 hlink.2, hlink', hrest⟩

/-- With no list open, it is the expression behind the sentinel. -/
theorem Hung.reads (h : Hung fsa [] e) :
    Reads fsa.heap fsa.cadrSentinel e ∧ fsa.pestk = [] ∧ fsa.pe ≠ .sentinel := by
  obtain ⟨-, pair, pe, r, hpe, hzip, hlink, hcell, hrep⟩ := h
  cases hps : fsa.pestk with
  | nil =>
      rw [hps] at hzip
      cases hzip
      refine ⟨?_, rfl, by rw [hpe]; simp⟩
      rw [Fsa.cadrSentinel, show fsa.sentinel = some pair from hlink]
      simp only [Heap.ylpcar, hcell]
      exact hrep.reads
  | cons p ps =>
      rw [hps] at hzip
      exact hzip.elim

theorem zipped_nil (hpe : fsa.pe = .sentinel) (hps : fsa.pestk = []) : Zipped fsa [] := by
  refine ⟨⟨?_, ?_, ?_⟩, ?_, ?_⟩
  · intro l hl
    rw [hpe] at hl
    cases hl
  · simp [hps]
  · simp [hps]
  · rw [hps]
    exact hpe
  · rw [hpe]
    trivial

end Operations

end Parser

end Ylisp
