import Ylisp.Library.Closing
import Ylisp.Mempool.GcSpec
import Ylisp.Mempool.Table

/-!
# Which descriptors a collection closes

The sweep cleans the unreachable blocks in the order of their positions in the block
table. The clean callback of a process handle closes its pipes, which are blocks of
their own: a pipe that the sweep has cleaned before has a NULL cdr, and this is read as
the descriptor 0.

`sweep_closed` says what is closed, as the log of a family of words; `gc_closes_iff`
when each closed descriptor is one that a descriptor atom held, closed once.
-/

namespace Ylisp

namespace Mempool

open Closing Pool

variable {n : ℕ}

def Ref.blk? : Ref n → Option (Fin n)
  | .blk b => some b
  | .stat _ => none

/-- The blocks whose descriptors `_aif_procia_clean` closes. -/
def Obj.pipes : Obj n → List (Fin n)
  | .procia (some pc) => [pc.wp, pc.rp].filterMap Ref.blk?
  | _ => []

def Obj.events (b : Fin n) : Obj n → List (Event (Fin n))
  | .fraw _ => [.touch b, .wipe b]
  | o => o.pipes.map .touch

def Pool.words (p : Pool n) (b : Fin n) : Int := (p.blk b).obj.acd

def Pool.garbage (p : Pool n) : List (Fin n) :=
  (usedBlocks p.m).filter fun b => !p.isGcmark (.blk b)

section Sweep

theorem aifFrawClean_m (p : Pool n) (r : Ref n) : (aifFrawClean p r).m = p.m := by
  cases r with
  | stat s => rfl
  | blk b =>
      rw [aifFrawClean]
      dsimp only
      split <;> rfl

theorem aifFrawClean_blk (p : Pool n) (b x : Fin n) :
    (aifFrawClean p (.blk b)).blk x =
      if x = b then { p.blk b with obj := (p.blk b).obj.setAcd invalidFd } else p.blk x := by
  rw [aifFrawClean]
  dsimp only
  split <;> exact Function.update_apply _ _ _ _

theorem aifFrawClean_closed (p : Pool n) (b : Fin n) :
    (aifFrawClean p (.blk b)).closed = p.closed ++ close invalidFd (p.blk b).obj.acd := by
  rw [aifFrawClean, close]
  dsimp only
  split
  · rfl
  next heq =>
    rw [if_pos (not_not.1 heq), List.append_nil]
    rfl

theorem aifFrawClean_gcmark (p : Pool n) (r : Ref n) (x : Fin n) :
    ((aifFrawClean p r).blk x).gcmark = (p.blk x).gcmark := by
  cases r with
  | stat s => rfl
  | blk b =>
      rw [aifFrawClean_blk]
      split
      next hx => rw [hx]
      next => rfl

theorem aifClean_m (p : Pool n) (b : Fin n) : (aifClean p b).m = p.m := by
  unfold aifClean
  split
  · exact aifFrawClean_m _ _
  · exact (aifFrawClean_m _ _).trans (aifFrawClean_m _ _)
  · rfl

theorem aifClean_gcmark (p : Pool n) (b x : Fin n) :
    ((aifClean p b).blk x).gcmark = (p.blk x).gcmark := by
  unfold aifClean
  split
  · exact aifFrawClean_gcmark _ _ _
  · exact (aifFrawClean_gcmark _ _ _).trans (aifFrawClean_gcmark _ _ _)
  · rfl

theorem cleanBlock_gcmark (p : Pool n) {b x : Fin n} (h : x ≠ b) :
    (cleanBlock p b).isGcmark (.blk x) = p.isGcmark (.blk x) := by
  show (((aifClean p b).setBlk b Yle.clean).blk x).gcmark = _
  rw [setBlk_of_ne _ _ h]
  exact aifClean_gcmark p b x

theorem foldl_unmarked (l : List (Fin n)) (hl : l.Nodup) (p : Pool n) :
    l.foldl (fun p b => if p.isGcmark (.blk b) then p else cleanBlock p b) p =
      (l.filter fun b => !p.isGcmark (.blk b)).foldl cleanBlock p := by
  induction l generalizing p with
  | nil => rfl
  | cons b l ih =>
      obtain ⟨hb, hl⟩ := List.nodup_cons.1 hl
      rw [List.foldl_cons]
      cases hm : p.isGcmark (.blk b) with
      | true =>
          rw [if_pos rfl, List.filter_cons_of_neg (by simp [hm])]
          exact ih hl p
      | false =>
          have hmark : ∀ x ∈ l,
              (!(cleanBlock p b).isGcmark (.blk x)) = !p.isGcmark (.blk x) := by
            intro x hx
            rw [cleanBlock_gcmark p fun h => hb (by rw [← h]; exact hx)]
          rw [if_neg (by simp), List.filter_cons_of_pos (by simp [hm]), List.foldl_cons, ih hl,
            List.filter_congr hmark]

theorem sweep_eq_foldl {p : Pool n} (hp : p.Wf) : sweep p = p.garbage.foldl cleanBlock p := by
  rw [sweep, foreachUsed_eq_foldl Pool.m _ ?_ p hp.m, foldl_unmarked _ (usedBlocks_nodup hp.m)]
  · rfl
  · intro q b
    split
    · exact Or.inl rfl
    · refine Or.inr ?_
      show mbtPut (aifClean q b).m b = _
      rw [aifClean_m]

theorem mem_garbage {p : Pool n} (hp : p.Wf) (b : Fin n) :
    b ∈ p.garbage ↔ p.m.Used b ∧ p.isGcmark (.blk b) = false := by
  simp [garbage, mem_usedBlocks hp.m]

theorem garbage_sorted {p : Pool n} (hp : p.Wf) :
    p.garbage.Pairwise fun b b' => p.m.i b < p.m.i b' :=
  (usedBlocks_sorted hp.m).sublist List.filter_sublist

end Sweep

section Words

def HasWord (o : Obj n) (k : Int) : Prop :=
  o = .fraw k ∨ ∃ car cdr, o = .pair car cdr ∧ (cdr = .int k ∨ cdr = .null ∧ k = 0)

theorem HasWord.acd {o : Obj n} {k : Int} (h : HasWord o k) : o.acd = k := by
  rcases h with rfl | ⟨car, cdr, rfl, rfl | ⟨rfl, rfl⟩⟩ <;> rfl

theorem HasWord.setAcd {o : Obj n} {k : Int} (h : HasWord o k) (k' : Int) :
    HasWord (o.setAcd k') k' := by
  rcases h with rfl | ⟨car, cdr, rfl, -⟩
  · exact Or.inl rfl
  · exact Or.inr ⟨car, .int k', rfl, Or.inl rfl⟩

/-- The pool `q` in the middle of a sweep of `p` that has cleaned the blocks `F`: the
words are `f`, and the blocks still to come are descriptor atoms with their words, or
hold what they held. -/
structure Words (p : Pool n) (F : Set (Fin n)) (f : Fin n → Int) (q : Pool n) : Prop where
  word : ∀ b fd, p.m.Used b → (p.blk b).obj = .fraw fd → HasWord (q.blk b).obj (f b)
  fraw : ∀ b ∉ F, ∀ fd, (p.blk b).obj = .fraw fd → (q.blk b).obj = .fraw (f b)
  other : ∀ b ∉ F, (∀ fd, (p.blk b).obj ≠ .fraw fd) → (q.blk b).obj = (p.blk b).obj

theorem Words.start (p : Pool n) : Words p ∅ p.words p := by
  have hfraw : ∀ b fd, (p.blk b).obj = .fraw fd → (p.blk b).obj = .fraw (p.words b) := by
    intro b fd h
    rw [words, h]
    rfl
  exact ⟨fun b fd _ h => Or.inl (hfraw b fd h), fun b _ fd h => hfraw b fd h, fun _ _ _ => rfl⟩

variable {p q : Pool n} {F : Set (Fin n)} {f : Fin n → Int}

theorem Words.aifFrawClean (h : Words p F f q) {w : Fin n} {fd : Int} (hu : p.m.Used w)
    (hw : (p.blk w).obj = .fraw fd) :
    Words p F (Function.update f w invalidFd) (aifFrawClean q (.blk w)) ∧
      (aifFrawClean q (.blk w)).closed = q.closed ++ close invalidFd (f w) := by
  have hword := h.word w fd hu hw
  have hobj_self : ((Mempool.aifFrawClean q (.blk w)).blk w).obj =
      (q.blk w).obj.setAcd invalidFd := by
    rw [aifFrawClean_blk, if_pos rfl]
  have hobj_ne : ∀ b, b ≠ w → ((Mempool.aifFrawClean q (.blk w)).blk b).obj = (q.blk b).obj := by
    intro b hb
    rw [aifFrawClean_blk, if_neg hb]
  refine ⟨⟨fun b fd' hb hobj => ?_, fun b hb fd' hobj => ?_, fun b hb hobj => ?_⟩, ?_⟩
  · by_cases hbw : b = w
    · subst hbw
      rw [hobj_self, Function.update_self]
      exact hword.setAcd invalidFd
    · rw [hobj_ne b hbw, Function.update_of_ne hbw]
      exact h.word b fd' hb hobj
  · by_cases hbw : b = w
    · subst hbw
      rw [hobj_self, Function.update_self, h.fraw b hb fd' hobj]
      rfl
    · rw [hobj_ne b hbw, Function.update_of_ne hbw]
      exact h.fraw b hb fd' hobj
  · rw [hobj_ne b fun heq => hobj fd (heq ▸ hw)]
    exact h.other b hb hobj
  · rw [aifFrawClean_closed, hword.acd]

theorem Words.clean (h : Words p F f q) (b : Fin n) :
    Words p (insert b F) (Function.update f b 0) (q.setBlk b Yle.clean) := by
  constructor
  · intro x fd hx hobj
    by_cases hxb : x = b
    · subst hxb
      rw [obj_setBlk_self, Function.update_self]
      exact Or.inr ⟨.null, .null, rfl, Or.inr ⟨rfl, rfl⟩⟩
    · rw [obj_setBlk_of_ne _ _ hxb, Function.update_of_ne hxb]
      exact h.word x fd hx hobj
  · intro x hx fd hobj
    obtain ⟨hxb, hxF⟩ := not_or.1 hx
    rw [obj_setBlk_of_ne _ _ hxb, Function.update_of_ne hxb]
    exact h.fraw x hxF fd hobj
  · intro x hx hobj
    obtain ⟨hxb, hxF⟩ := not_or.1 hx
    rw [obj_setBlk_of_ne _ _ hxb]
    exact h.other x hxF hobj

/-- The words of blocks that are no descriptor atoms do not matter. -/
theorem Words.congr {g : Fin n → Int} (h : Words p F f q)
    (hg : ∀ b fd, (p.blk b).obj = .fraw fd → g b = f b) : Words p F g q := by
  refine ⟨fun b fd hb hobj => ?_, fun b hb fd hobj => ?_, h.other⟩
  · rw [hg b fd hobj]
    exact h.word b fd hb hobj
  · rw [hg b fd hobj]
    exact h.fraw b hb fd hobj

theorem cleanBlock_closed (q : Pool n) (b : Fin n) :
    (Mempool.cleanBlock q b).closed = (aifClean q b).closed := rfl

/-- What is left to do after the clean function of the atom. -/
theorem Words.afterAif {b : Fin n} (h : Words p F f (aifClean q b)) :
    Words p (insert b F) (Function.update f b 0) (Mempool.cleanBlock q b) :=
  ⟨(h.clean b).word, (h.clean b).fraw, (h.clean b).other⟩

theorem Words.cleanBlock_plain (h : Words p F f q) {b : Fin n}
    (hne : ∀ fd, (p.blk b).obj ≠ .fraw fd) (hq : aifClean q b = q) :
    Words p (insert b F) f (Mempool.cleanBlock q b) ∧
      (Mempool.cleanBlock q b).closed = q.closed := by
  have haif : Words p F f (aifClean q b) := hq.symm ▸ h
  refine ⟨haif.afterAif.congr fun x fd hx => ?_, by rw [cleanBlock_closed, hq]⟩
  rw [Function.update_of_ne]
  rintro rfl
  exact hne fd hx

theorem Words.cleanBlock_procia (h : Words p F f q) {b w r : Fin n} {pc : Procia n}
    (hb : b ∉ F) (ho : (p.blk b).obj = .procia (some pc)) {fd fd' : Int}
    (hw : pc.wp = .blk w) (huw : p.m.Used w) (how : (p.blk w).obj = .fraw fd)
    (hr : pc.rp = .blk r) (hur : p.m.Used r) (hor : (p.blk r).obj = .fraw fd') :
    Words p (insert b F) (Function.update (Function.update f w invalidFd) r invalidFd)
        (Mempool.cleanBlock q b) ∧
      (Mempool.cleanBlock q b).closed = q.closed ++ (close invalidFd (f w) ++
        close invalidFd (Function.update f w invalidFd r)) := by
  have hq := h.other b hb (by rw [ho]; simp)
  have haif : aifClean q b =
      { Mempool.aifFrawClean (Mempool.aifFrawClean q (.blk w)) (.blk r) with
        killed := (Mempool.aifFrawClean (Mempool.aifFrawClean q (.blk w))
          (.blk r)).killed ++ [pc.cpid] } := by
    rw [aifClean, hq, ho, ← hw, ← hr]
  obtain ⟨h1, hcl1⟩ := h.aifFrawClean huw how
  obtain ⟨h2, hcl2⟩ := h1.aifFrawClean hur hor
  have h3 : Words p F (Function.update (Function.update f w invalidFd) r invalidFd)
      (aifClean q b) := by
    rw [haif]
    exact ⟨h2.word, h2.fraw, h2.other⟩
  constructor
  · refine h3.afterAif.congr fun x fd hx => ?_
    have hxb : x ≠ b := by
      rintro rfl
      rw [ho] at hx
      cases hx
    exact (Function.update_of_ne hxb _ _).symm
  · rw [cleanBlock_closed, haif, ← List.append_assoc, ← hcl1, ← hcl2]

/-- Cleaning a block that is still to come does what its events say. -/
theorem Words.cleanBlock (h : Words p F f q) {b : Fin n} (hb : b ∉ F) (hu : p.m.Used b)
    (hs : p.Sound (p.blk b).obj) :
    Words p (insert b F) (after invalidFd 0 f ((p.blk b).obj.events b)) (cleanBlock q b) ∧
      (cleanBlock q b).closed =
        q.closed ++ log invalidFd 0 f ((p.blk b).obj.events b) := by
  cases ho : (p.blk b).obj with
  | fraw fd =>
      have haif : aifClean q b = Mempool.aifFrawClean q (.blk b) := by
        rw [aifClean, h.fraw b hb fd ho]
      obtain ⟨hw, hcl⟩ := h.aifFrawClean hu ho
      rw [cleanBlock_closed, haif, hcl]
      refine ⟨(haif.symm ▸ hw).afterAif, ?_⟩
      rw [Obj.events, log, log, log, List.append_nil]
  | procia pc =>
      cases pc with
      | none =>
          have hne : ∀ fd, (p.blk b).obj ≠ .fraw fd := by
            rw [ho]
            simp
          have haif : aifClean q b = q := by rw [aifClean, h.other b hb hne, ho]
          obtain ⟨hwords, hcl⟩ := h.cleanBlock_plain hne haif
          exact ⟨hwords, hcl.trans (List.append_nil _).symm⟩
      | some pc =>
          rw [ho] at hs
          obtain ⟨⟨w, fd, hw, huw, how⟩, r, fd', hr, hur, hor⟩ := hs
          have hevents : (Obj.procia (some pc)).events b = [.touch w, .touch r] := by
            rw [Obj.events, Obj.pipes, hw, hr]
            · rfl
            · simp
          rw [hevents, after, after, after, log, log, log, List.append_nil]
          exact h.cleanBlock_procia hb ho hw huw how hr hur hor
  | _ =>
      have hne : ∀ fd, (p.blk b).obj ≠ .fraw fd := by
        rw [ho]
        simp
      have haif : aifClean q b = q := by rw [aifClean, h.other b hb hne, ho]
      obtain ⟨hwords, hcl⟩ := h.cleanBlock_plain hne haif
      exact ⟨hwords, hcl.trans (List.append_nil _).symm⟩

theorem Words.foldl (hsound : ∀ b, p.m.Used b → p.Sound (p.blk b).obj) {l : List (Fin n)}
    (h : Words p F f q) (hl : l.Nodup) (hnew : ∀ b ∈ l, b ∉ F ∧ p.m.Used b) :
    (l.foldl Mempool.cleanBlock q).closed =
      q.closed ++ log invalidFd 0 f (l.flatMap fun b => (p.blk b).obj.events b) := by
  induction l generalizing q F f with
  | nil => exact (List.append_nil _).symm
  | cons b l ih =>
      obtain ⟨hb, hl⟩ := List.nodup_cons.1 hl
      obtain ⟨hbF, hu⟩ := hnew b List.mem_cons_self
      obtain ⟨hw, hcl⟩ := h.cleanBlock hbF hu (hsound b hu)
      have hnew' : ∀ x ∈ l, x ∉ insert b F ∧ p.m.Used x := by
        intro x hx
        obtain ⟨hxF, hxu⟩ := hnew x (List.mem_cons_of_mem _ hx)
        exact ⟨fun h => h.elim (fun h => hb (h ▸ hx)) hxF, hxu⟩
      rw [List.foldl_cons, ih hw hl hnew', hcl, List.flatMap_cons, log_append, List.append_assoc]

theorem sweep_closed (hp : p.Wf) : (sweep p).closed =
    p.closed ++
      log invalidFd 0 p.words (p.garbage.flatMap fun b => (p.blk b).obj.events b) := by
  rw [sweep_eq_foldl hp]
  exact (Words.start p).foldl hp.used ((garbage_sorted hp).imp fun h heq =>
    absurd (heq ▸ h) (lt_irrefl _)) fun b hb => ⟨fun h => h, ((mem_garbage hp b).1 hb).1⟩

end Words

/-! ### One word -/

namespace Pool

variable (p : Pool n) (G : Fin n → Prop)

/-- A descriptor atom that the sweep of the blocks `G` cleans, or that is a pipe of a
process handle among them. -/
def Reaped (w : Fin n) (fd : Int) : Prop :=
  (p.blk w).obj = .fraw fd ∧ (G w ∨ ∃ b, G b ∧ w ∈ (p.blk b).obj.pipes)

def Stale (w : Fin n) : Prop :=
  (∃ fd, (p.blk w).obj = .fraw fd) ∧ G w ∧
    ∃ b, G b ∧ w ∈ (p.blk b).obj.pipes ∧ p.m.i w < p.m.i b

/-- The descriptors of the atoms that the sweep closes differ, and no pipe is stale: or
one is, which closes 0, and 0 is the descriptor of an atom that the sweep leaves open. -/
def ClosesApart : Prop :=
  (∀ w w' fd, p.Reaped G w fd → p.Reaped G w' fd → fd ≠ invalidFd → w = w') ∧
    ∀ w, p.Stale G w → (∀ w', p.Stale G w' → w' = w) ∧ (∀ w', ¬ p.Reaped G w' 0) ∧
      ∃ b, p.m.Used b ∧ (p.blk b).obj = .fraw 0

end Pool

section OneWord

variable {p : Pool n}

theorem word_of_mem_events {b : Fin n} {o : Obj n} {e : Event (Fin n)} (h : e ∈ o.events b) :
    (∃ fd, o = .fraw fd ∧ (e = .touch b ∨ e = .wipe b)) ∨
      e = .touch e.word ∧ e.word ∈ o.pipes := by
  cases o with
  | fraw fd =>
      refine Or.inl ⟨fd, rfl, ?_⟩
      simpa [Obj.events] using h
  | _ =>
      obtain ⟨w, hw, rfl⟩ := List.mem_map.1 h
      exact Or.inr ⟨rfl, hw⟩

theorem mem_events_of_pipe {b w : Fin n} {o : Obj n} (h : w ∈ o.pipes) :
    .touch w ∈ o.events b := by
  cases o with
  | procia pc => exact List.mem_map_of_mem h
  | _ => cases h

theorem pipe_fraw (hp : p.Wf) {b w : Fin n} (hb : p.m.Used b) (hw : w ∈ (p.blk b).obj.pipes) :
    p.m.Used w ∧ ∃ fd, (p.blk w).obj = .fraw fd := by
  have hs := hp.used b hb
  cases ho : (p.blk b).obj with
  | procia pc =>
      rw [ho] at hs hw
      cases pc with
      | none => cases hw
      | some pc =>
          obtain ⟨⟨x, fd, hx, hux, hox⟩, y, fd', hy, huy, hoy⟩ := hs
          rw [Obj.pipes, hx, hy] at hw
          rcases List.mem_cons.1 hw with rfl | hw
          · exact ⟨hux, fd, hox⟩
          · rw [List.mem_singleton.1 hw]
            exact ⟨huy, fd', hoy⟩
  | _ =>
      rw [ho] at hw
      cases hw

/-- The events of blocks other than `w` touch it when it is their pipe. -/
theorem about_touches {l : List (Fin n)} {w : Fin n} (hw : w ∉ l) :
    ∀ e ∈ about (l.flatMap fun b => (p.blk b).obj.events b) w, e = .touch w := by
  intro e he
  obtain ⟨he, hword⟩ := List.mem_filter.1 he
  have hword : e.word = w := by simpa using hword
  obtain ⟨b, hb, he⟩ := List.mem_flatMap.1 he
  rcases word_of_mem_events he with ⟨fd, -, rfl | rfl⟩ | ⟨he, -⟩
  · exact absurd (hword ▸ hb) hw
  · exact absurd (hword ▸ hb) hw
  · rw [he, hword]

theorem about_eq_nil_iff {l : List (Fin n)} {w : Fin n} (hw : w ∉ l) :
    about (l.flatMap fun b => (p.blk b).obj.events b) w = [] ↔
      ¬ ∃ b ∈ l, w ∈ (p.blk b).obj.pipes := by
  constructor
  · rintro hnil ⟨b, hb, hpipe⟩
    have hmem : Event.touch w ∈ about (l.flatMap fun b => (p.blk b).obj.events b) w := by
      refine List.mem_filter.2 ⟨List.mem_flatMap.2 ⟨b, hb, mem_events_of_pipe hpipe⟩, ?_⟩
      simp [Event.word]
    rw [hnil] at hmem
    cases hmem
  · intro hnone
    rw [List.eq_nil_iff_forall_not_mem]
    intro e he
    have htouch := about_touches hw e he
    obtain ⟨b, hb, he'⟩ := List.mem_flatMap.1 (List.mem_filter.1 he).1
    rcases word_of_mem_events he' with ⟨fd, -, rfl | rfl⟩ | ⟨-, hpipe⟩
    · cases htouch
      exact hw hb
    · cases htouch
    · rw [htouch] at hpipe
      exact hnone ⟨b, hb, hpipe⟩

/-- What the sweep closes for a descriptor atom: its descriptor if it gets at the atom,
and 0 if the atom is stale. -/
theorem log_fraw {l : List (Fin n)} (hl : l.Pairwise fun b b' => p.m.i b < p.m.i b')
    {w : Fin n} {fd : Int} (hw : (p.blk w).obj = .fraw fd) :
    ∃ cs cs' : List Int,
      log invalidFd 0 p.words (about (l.flatMap fun b => (p.blk b).obj.events b) w) = cs ++ cs' ∧
        (p.Reaped (· ∈ l) w fd ∧ cs = close invalidFd fd ∨
          ¬ p.Reaped (· ∈ l) w fd ∧ cs = []) ∧
        (p.Stale (· ∈ l) w ∧ cs' = [0] ∨ ¬ p.Stale (· ∈ l) w ∧ cs' = []) := by
  have hword : p.words w = fd := by
    rw [words, hw]
    rfl
  by_cases hmem : w ∈ l
  · obtain ⟨l₁, l₂, rfl⟩ := List.append_of_mem hmem
    obtain ⟨-, hl₂, hlt⟩ := List.pairwise_append.1 hl
    obtain ⟨hafter, hl₂⟩ := List.pairwise_cons.1 hl₂
    have h₁ : w ∉ l₁ := fun h => absurd (hlt w h w List.mem_cons_self) (lt_irrefl _)
    have h₂ : w ∉ l₂ := fun h => absurd (hafter w h) (lt_irrefl _)
    have hsplit : about ((l₁ ++ w :: l₂).flatMap fun b => (p.blk b).obj.events b) w =
        about (l₁.flatMap fun b => (p.blk b).obj.events b) w ++
          .touch w :: .wipe w :: about (l₂.flatMap fun b => (p.blk b).obj.events b) w := by
      simp [about, hw, Obj.events, Event.word]
    have hstale : p.Stale (· ∈ l₁ ++ w :: l₂) w ↔ ∃ b ∈ l₂, w ∈ (p.blk b).obj.pipes := by
      constructor
      · rintro ⟨-, -, b, hb, hpipe, hlt'⟩
        rcases List.mem_append.1 hb with hb | hb
        · exact absurd (hlt b hb w List.mem_cons_self) (lt_asymm hlt')
        · rcases List.mem_cons.1 hb with rfl | hb
          · exact absurd hlt' (lt_irrefl _)
          · exact ⟨b, hb, hpipe⟩
      · rintro ⟨b, hb, hpipe⟩
        exact ⟨⟨fd, hw⟩, hmem, b, List.mem_append_right _ (List.mem_cons_of_mem _ hb), hpipe,
          hafter b hb⟩
    rw [hsplit, log_wiped _ _ _ (about_touches h₁) (about_touches h₂), hword]
    refine ⟨_, _, rfl, Or.inl ⟨⟨hw, Or.inl hmem⟩, rfl⟩, ?_⟩
    rw [hstale]
    by_cases hnone : ∃ b ∈ l₂, w ∈ (p.blk b).obj.pipes
    · refine Or.inl ⟨hnone, ?_⟩
      rw [if_neg fun h => (about_eq_nil_iff h₂).1 h hnone]
      rfl
    · exact Or.inr ⟨hnone, if_pos ((about_eq_nil_iff h₂).2 hnone)⟩
  · have hreaped : p.Reaped (· ∈ l) w fd ↔ ∃ b ∈ l, w ∈ (p.blk b).obj.pipes :=
      ⟨fun h => h.2.resolve_left hmem, fun h => ⟨hw, Or.inr h⟩⟩
    rw [log_touches _ _ _ (about_touches hmem), hword, hreaped]
    refine ⟨_, [], (List.append_nil _).symm, ?_, Or.inr ⟨fun h => hmem h.2.1, rfl⟩⟩
    by_cases hnone : ∃ b ∈ l, w ∈ (p.blk b).obj.pipes
    · exact Or.inl ⟨hnone, if_neg fun h => (about_eq_nil_iff hmem).1 h hnone⟩
    · exact Or.inr ⟨hnone, if_pos ((about_eq_nil_iff hmem).2 hnone)⟩

end OneWord

section AllWords

variable {p : Pool n} {l : List (Fin n)}

theorem mem_log_fraw (hl : l.Pairwise fun b b' => p.m.i b < p.m.i b') {w : Fin n} {fd : Int}
    (hw : (p.blk w).obj = .fraw fd) (x : Int) :
    x ∈ log invalidFd 0 p.words (about (l.flatMap fun b => (p.blk b).obj.events b) w) ↔
      (p.Reaped (· ∈ l) w x ∧ x ≠ invalidFd) ∨ (p.Stale (· ∈ l) w ∧ x = 0) := by
  obtain ⟨cs, cs', heq, hcs, hcs'⟩ := log_fraw hl hw
  have hfd : ∀ x, p.Reaped (· ∈ l) w x → x = fd := by
    intro x h
    have hobj := h.1
    rw [hw] at hobj
    cases hobj
    rfl
  have hclose : x ∈ close invalidFd fd ↔ x = fd ∧ x ≠ invalidFd := by
    rw [close]
    split
    next h => simp [h]
    next h =>
      rw [List.mem_singleton]
      exact ⟨fun hx => ⟨hx, hx ▸ h⟩, fun hx => hx.1⟩
  rw [heq, List.mem_append]
  refine or_congr ?_ ?_
  · rcases hcs with ⟨hr, rfl⟩ | ⟨hr, rfl⟩
    · rw [hclose]
      exact and_congr_left fun _ => ⟨fun hx => hx ▸ hr, hfd x⟩
    · exact iff_of_false List.not_mem_nil fun h => hr (hfd x h.1 ▸ h.1)
  · rcases hcs' with ⟨hs, rfl⟩ | ⟨hs, rfl⟩
    · rw [List.mem_singleton]
      exact ⟨fun hx => ⟨hs, hx⟩, fun hx => hx.2⟩
    · exact iff_of_false List.not_mem_nil fun h => hs h.1

theorem nodup_log_fraw (hl : l.Pairwise fun b b' => p.m.i b < p.m.i b') {w : Fin n} {fd : Int}
    (hw : (p.blk w).obj = .fraw fd) :
    (log invalidFd 0 p.words (about (l.flatMap fun b => (p.blk b).obj.events b) w)).Nodup ↔
      (p.Stale (· ∈ l) w → ¬ p.Reaped (· ∈ l) w 0) := by
  obtain ⟨cs, cs', heq, hcs, hcs'⟩ := log_fraw hl hw
  have hnodup : (close invalidFd fd).Nodup := by
    rw [close]
    split
    · exact List.nodup_nil
    · exact List.nodup_singleton fd
  have hcs_nodup : cs.Nodup := by
    rcases hcs with ⟨-, rfl⟩ | ⟨-, rfl⟩
    · exact hnodup
    · exact List.nodup_nil
  rw [heq]
  rcases hcs' with ⟨hs, rfl⟩ | ⟨hs, rfl⟩
  · have hr : p.Reaped (· ∈ l) w fd := ⟨hw, Or.inl hs.2.1⟩
    have hzero : (0 : Int) ∈ cs ↔ p.Reaped (· ∈ l) w 0 := by
      rcases hcs with ⟨-, rfl⟩ | ⟨hn, -⟩
      · rw [close]
        constructor
        · intro h
          split at h
          · cases h
          · rw [List.mem_singleton.1 h]
            exact hr
        · intro h
          have hobj := h.1
          rw [hw] at hobj
          cases hobj
          exact List.mem_singleton_self _
      · exact absurd hr hn
    rw [List.nodup_append]
    constructor
    · rintro ⟨-, -, hdisj⟩ - h0
      exact hdisj 0 (hzero.2 h0) 0 (List.mem_singleton_self _) rfl
    · intro h
      refine ⟨hcs_nodup, List.nodup_singleton _, ?_⟩
      rintro x hx y hy rfl
      rw [List.mem_singleton.1 hy] at hx
      exact h hs (hzero.1 hx)
  · rw [List.append_nil]
    exact ⟨fun _ h => absurd h hs, fun _ => hcs_nodup⟩

/-- A block that is no descriptor atom has no events about it. -/
theorem log_of_not_fraw (hp : p.Wf) (hu : ∀ b ∈ l, p.m.Used b) {w : Fin n}
    (hw : ∀ fd, (p.blk w).obj ≠ .fraw fd) :
    log invalidFd 0 p.words (about (l.flatMap fun b => (p.blk b).obj.events b) w) = [] := by
  have hnil : about (l.flatMap fun b => (p.blk b).obj.events b) w = [] := by
    rw [List.eq_nil_iff_forall_not_mem]
    intro e he
    obtain ⟨he, hword⟩ := List.mem_filter.1 he
    have hword : e.word = w := by simpa using hword
    obtain ⟨b, hb, he⟩ := List.mem_flatMap.1 he
    rcases word_of_mem_events he with ⟨fd, hobj, rfl | rfl⟩ | ⟨-, hpipe⟩
    · exact hw fd (hword ▸ hobj)
    · exact hw fd (hword ▸ hobj)
    · obtain ⟨-, fd, hobj⟩ := pipe_fraw hp (hu b hb) hpipe
      exact hw fd (hword ▸ hobj)
  rw [hnil]
  rfl

theorem mem_sweepLog_iff (hp : p.Wf) (hu : ∀ b ∈ l, p.m.Used b)
    (hl : l.Pairwise fun b b' => p.m.i b < p.m.i b') (x : Int) :
    x ∈ log invalidFd 0 p.words (l.flatMap fun b => (p.blk b).obj.events b) ↔
      ∃ w, (p.Reaped (· ∈ l) w x ∧ x ≠ invalidFd) ∨ (p.Stale (· ∈ l) w ∧ x = 0) := by
  rw [mem_log_iff invalidFd 0 p.words (List.nodup_finRange n)
    (fun e _ => List.mem_finRange e.word)]
  constructor
  · rintro ⟨w, -, hx⟩
    by_cases hw : ∃ fd, (p.blk w).obj = .fraw fd
    · obtain ⟨fd, hw⟩ := hw
      exact ⟨w, (mem_log_fraw hl hw x).1 hx⟩
    · rw [log_of_not_fraw hp hu fun fd h => hw ⟨fd, h⟩] at hx
      cases hx
  · rintro ⟨w, hx⟩
    have hw : ∃ fd, (p.blk w).obj = .fraw fd := by
      rcases hx with hx | hx
      · exact ⟨x, hx.1.1⟩
      · exact hx.1.1
    obtain ⟨fd, hw⟩ := hw
    exact ⟨w, List.mem_finRange w, (mem_log_fraw hl hw x).2 hx⟩

theorem nodup_sweepLog_iff (hp : p.Wf) (hu : ∀ b ∈ l, p.m.Used b)
    (hl : l.Pairwise fun b b' => p.m.i b < p.m.i b') :
    (log invalidFd 0 p.words (l.flatMap fun b => (p.blk b).obj.events b)).Nodup ↔
      (∀ w w' fd, p.Reaped (· ∈ l) w fd → p.Reaped (· ∈ l) w' fd → fd ≠ invalidFd → w = w') ∧
        ∀ w, p.Stale (· ∈ l) w →
          (∀ w', p.Stale (· ∈ l) w' → w' = w) ∧ ∀ w', ¬ p.Reaped (· ∈ l) w' 0 := by
  rw [nodup_log_iff invalidFd 0 p.words (List.nodup_finRange n)
    (fun e _ => List.mem_finRange e.word)]
  constructor
  · rintro ⟨hone, happart⟩
    have hdisj := fun w w' => happart w (List.mem_finRange w) w' (List.mem_finRange w')
    have hstale0 : ∀ w, p.Stale (· ∈ l) w →
        (0 : Int) ∈ log invalidFd 0 p.words
          (about (l.flatMap fun b => (p.blk b).obj.events b) w) := by
      intro w hs
      obtain ⟨fd, hw⟩ := hs.1
      exact (mem_log_fraw hl hw 0).2 (Or.inr ⟨hs, rfl⟩)
    refine ⟨fun w w' fd hr hr' hfd => ?_, fun w hs => ⟨fun w' hs' => ?_, fun w' hr => ?_⟩⟩
    · exact hdisj w w' fd ((mem_log_fraw hl hr.1 fd).2 (Or.inl ⟨hr, hfd⟩))
        ((mem_log_fraw hl hr'.1 fd).2 (Or.inl ⟨hr', hfd⟩))
    · exact hdisj w' w 0 (hstale0 w' hs') (hstale0 w hs)
    · have hww' := hdisj w' w 0
        ((mem_log_fraw hl hr.1 0).2 (Or.inl ⟨hr, by decide⟩)) (hstale0 w hs)
      subst hww'
      exact (nodup_log_fraw hl hr.1).1 (hone w' (List.mem_finRange w')) hs hr
  · rintro ⟨hreaped, hstale⟩
    refine ⟨fun w _ => ?_, fun w _ w' _ x hx hx' => ?_⟩
    · by_cases hw : ∃ fd, (p.blk w).obj = .fraw fd
      · obtain ⟨fd, hw⟩ := hw
        exact (nodup_log_fraw hl hw).2 fun hs => (hstale w hs).2 w
      · rw [log_of_not_fraw hp hu fun fd h => hw ⟨fd, h⟩]
        exact List.nodup_nil
    · have hfraw : ∀ w, x ∈ log invalidFd 0 p.words
          (about (l.flatMap fun b => (p.blk b).obj.events b) w) →
            (p.Reaped (· ∈ l) w x ∧ x ≠ invalidFd) ∨ (p.Stale (· ∈ l) w ∧ x = 0) := by
        intro w hx
        by_cases hw : ∃ fd, (p.blk w).obj = .fraw fd
        · obtain ⟨fd, hw⟩ := hw
          exact (mem_log_fraw hl hw x).1 hx
        · rw [log_of_not_fraw hp hu fun fd h => hw ⟨fd, h⟩] at hx
          cases hx
      rcases hfraw w hx with ⟨hr, hne⟩ | ⟨hs, rfl⟩ <;> rcases hfraw w' hx' with ⟨hr', -⟩ | ⟨hs', h0⟩
      · exact hreaped w w' x hr hr' hne
      · subst h0
        exact absurd hr ((hstale w' hs').2 w)
      · exact absurd hr' ((hstale w hs).2 w')
      · exact (hstale w' hs').1 w hs

end AllWords

/-! ### The collection -/

namespace Pool

/-- A block that the collection is to clean. -/
def Unreachable (p : Pool n) (b : Fin n) : Prop := p.m.Used b ∧ ¬ p.Live (.blk b)

/-- The collection closes descriptors that descriptor atoms hold, each of them once. -/
def ClosesHeld (p : Pool n) : Prop :=
  ∃ fds, (gc p).closed = p.closed ++ fds ∧ fds.Nodup ∧
    ∀ fd ∈ fds, ∃ b, p.m.Used b ∧ (p.blk b).obj = .fraw fd

end Pool

theorem closesHeld_iff {p : Pool n} (hp : p.Wf) : p.ClosesHeld ↔ p.ClosesApart p.Unreachable := by
  obtain ⟨hdata, -, hlive⟩ := markRoots_spec hp
  have hwf := hdata.wf hp
  have hgarbage : ∀ b, b ∈ (markRoots (clearMarks p)).garbage ↔ p.Unreachable b := by
    intro b
    rw [mem_garbage hwf, hdata.m, Unreachable]
    refine and_congr_right fun hb => ?_
    rw [← hlive b hb, Bool.not_eq_true]
  have hreaped : ∀ w fd, (markRoots (clearMarks p)).Reaped
      (· ∈ (markRoots (clearMarks p)).garbage) w fd ↔ p.Reaped p.Unreachable w fd := by
    intro w fd
    simp only [Reaped, hgarbage, hdata.obj]
  have hstale : ∀ w, (markRoots (clearMarks p)).Stale
      (· ∈ (markRoots (clearMarks p)).garbage) w ↔ p.Stale p.Unreachable w := by
    intro w
    simp only [Stale, hgarbage, hdata.obj, hdata.m]
  have hu : ∀ b ∈ (markRoots (clearMarks p)).garbage, (markRoots (clearMarks p)).m.Used b :=
    fun b hb => ((mem_garbage hwf b).1 hb).1
  have hclosed := (sweep_closed hwf).trans (by rw [hdata.closed])
  have hnodup := nodup_sweepLog_iff hwf hu (garbage_sorted hwf)
  have hmem := mem_sweepLog_iff hwf hu (garbage_sorted hwf)
  simp only [hreaped, hstale] at hnodup hmem
  constructor
  · rintro ⟨fds, hfds, hn, hheld⟩
    rw [gc, hclosed, List.append_cancel_left_eq] at hfds
    rw [hfds] at hnodup hmem
    obtain ⟨hapart, hone⟩ := hnodup.1 hn
    refine ⟨hapart, fun w hs => ⟨(hone w hs).1, (hone w hs).2, ?_⟩⟩
    exact hheld 0 ((hmem 0).2 ⟨w, Or.inr ⟨hs, rfl⟩⟩)
  · rintro ⟨hapart, hone⟩
    refine ⟨_, hclosed, hnodup.2 ⟨hapart, fun w hs => ⟨(hone w hs).1, (hone w hs).2.1⟩⟩, ?_⟩
    intro fd hfd
    obtain ⟨w, ⟨⟨hw, hg⟩, -⟩ | ⟨hs, rfl⟩⟩ := (hmem fd).1 hfd
    · rcases hg with hg | ⟨b, hb, hpipe⟩
      · exact ⟨w, hg.1, hw⟩
      · exact ⟨w, (pipe_fraw hp hb.1 hpipe).1, hw⟩
    · exact (hone w hs).2.2

/-- Each descriptor that a collection closes is one that a descriptor atom holds, and is
closed once, exactly when the atoms it closes hold different descriptors and no pipe is
cleaned before its process handle; or one is, and 0 is held by an atom left open. -/
theorem gc_closes_iff (p : WfPool n) : p.1.ClosesHeld ↔ p.1.ClosesApart p.1.Unreachable :=
  closesHeld_iff p.2

section Sample

/-- The table after four allocations, the first of which is then freed: the last block
takes the place of the first. -/
def handleTable : Mbt 4 :=
  mbtPut (mbtGet (mbtGet (mbtGet (mbtGet (mbtCreate 4)).2).2).2).2 3

/-- A process handle that was allocated after its two pipes. -/
def handlePool : Pool 4 where
  m := handleTable
  blk := fun b => match b with
    | 0 => ⟨false, 0, .procia (some ⟨4242, .blk 2, .blk 1⟩)⟩
    | 1 => ⟨false, 0, .fraw 6⟩
    | 2 => ⟨false, 0, .fraw 5⟩
    | 3 => Yle.clean
  statMark := fun _ => false
  statSt := fun _ => 0
  bbs := []
  cxtl := []
  gsym := Trie.yltrieCreate
  closed := []
  killed := []

theorem handlePool_wf : handlePool.Wf := by
  have hused : ∀ b, handlePool.m.Used b ↔ b ≠ 3 := by decide
  refine ⟨⟨by decide, by decide⟩, fun b hb => ?_, fun b hb => ?_⟩
  · match b with
    | 0 =>
        exact ⟨⟨2, 5, rfl, (hused 2).2 (by decide), rfl⟩, 1, 6, rfl, (hused 1).2 (by decide), rfl⟩
    | 1 => trivial
    | 2 => trivial
    | 3 => exact absurd rfl ((hused 3).1 hb)
  · have hb3 : b = 3 := not_not.1 fun h => hb ((hused b).2 h)
    subst hb3
    rfl

/-- Nothing is reachable: both pipes are cleaned before the process handle, and 0 is
closed twice. -/
theorem not_closesHeld : ¬ (⟨handlePool, handlePool_wf⟩ : WfPool 4).1.ClosesHeld := by
  rintro ⟨fds, hfds, hnodup, -⟩
  have hclosed : (gc handlePool).closed = [] ++ [6, 5, 0, 0] := by decide
  rw [hclosed] at hfds
  rw [← List.append_cancel_left hfds] at hnodup
  revert hnodup
  decide

end Sample

end Mempool

end Ylisp
