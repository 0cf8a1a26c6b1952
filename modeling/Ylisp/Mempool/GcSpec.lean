import Ylisp.Mempool.Gc

/-!
# What a collection does

The three loops of `_gc`, one after the other: `clearMarks` leaves marks on
static elements and on free blocks only, which lead nowhere; `markRoots` adds
what the roots reach; `sweep` frees the used blocks without a mark and keeps the
content of the others.
-/

namespace Ylisp

namespace Mempool

variable {n : ℕ}

namespace Pool

/-- The element can be reached from a root. -/
def Live (p : Pool n) (r : Ref n) : Prop :=
  ∃ x ∈ p.roots, Marking.Reach p.succ x r

end Pool

open Pool

section Clear

theorem clearMarks_spec {p : Pool n} (hp : p.Wf) :
    SameData p (clearMarks p) ∧
      (∀ s, (clearMarks p).isGcmark (.stat s) = p.isGcmark (.stat s)) ∧
      ∀ b, p.m.Used b → (clearMarks p).isGcmark (.blk b) = false := by
  have h := foreachUsed_spec Pool.m
    (fun p b => p.setGcmark false (.blk b)) (fun _ => False)
    (fun V q => SameData p q ∧ (∀ s, q.isGcmark (.stat s) = p.isGcmark (.stat s)) ∧
      ∀ b ∈ V, q.isGcmark (.blk b) = false)
    p hp.m ⟨SameData.refl p, fun _ => rfl, by simp⟩ ?_
  · exact h.1
  · rintro V q b ⟨hq, hstat, hV⟩ _ _ _ _
    refine ⟨⟨hq.trans (SameData.setGcmark q false _), fun s => ?_, fun x hx => ?_⟩, ?_⟩
    · rw [isGcmark_setGcmark, if_neg (by simp), hstat]
    · rw [isGcmark_setGcmark]
      rcases Set.mem_insert_iff.1 hx with rfl | hx
      · rw [if_pos rfl]
      · rw [hV x hx, ite_self]
    · rw [if_neg not_false]
      exact (SameData.setGcmark q false _).m

theorem clearMarks_closed {p : Pool n} (hp : p.Wf) :
    Marking.Closed p.succ (clearMarks p).marks := by
  obtain ⟨-, -, hused⟩ := clearMarks_spec hp
  intro r hr x hx
  cases r with
  | stat s => simp [succ_stat] at hx
  | blk b =>
      rw [mem_marks] at hr
      have hfree : ¬ p.m.Used b := by
        intro hb
        rw [hused b hb] at hr
        cases hr
      rw [succ, obj, (hp.free b hfree).refs_eq_nil] at hx
      cases hx

end Clear

section Mark

theorem ylsluGcmark_eq_foldl (p : Pool n) (t : Slut n) :
    ylsluGcmark p t = (t.values.filterMap Value.e).foldl (gcmark (depth n)) p := by
  rw [List.foldl_filterMap]
  refine (congrArg Prod.fst (Trie.fullWalk_eq_foldl _ t p)).trans ?_
  dsimp only
  congr 1
  funext p v
  cases v.e <;> rfl

theorem markRoots_eq_foldl {p : Pool n} (hp : p.Wf) :
    markRoots p = p.roots.foldl (gcmark (depth n)) p := by
  have hf := sameData_foldl (gcmark_spec hp (depth n))
  have htable : ∀ (ts : List (Slut n)) (q : Pool n), ts.foldl ylsluGcmark q =
      (ts.flatMap fun t => t.values.filterMap Value.e).foldl (gcmark (depth n)) q := by
    intro ts
    induction ts with
    | nil => exact fun _ => rfl
    | cons t ts ih =>
        intro q
        rw [List.foldl_cons, ih, ylsluGcmark_eq_foldl, List.flatMap_cons, List.foldl_append]
  obtain ⟨h1, -⟩ := hf p.bbs.reverse p (SameData.refl p)
  obtain ⟨h2, -⟩ := hf (p.cxtl.flatMap fun t => t.values.filterMap Value.e) _ h1
  rw [markRoots, htable, h1.cxtl, h2.gsym, ylsluGcmark_eq_foldl, roots, List.flatMap_append,
    List.foldl_append, List.foldl_append]
  simp

/-- The marks when the sweep starts: those of static elements and free blocks
that were there before, and everything that is live. -/
theorem markRoots_spec {p : Pool n} (hp : p.Wf) :
    SameData p (markRoots (clearMarks p)) ∧
      (∀ s, p.isGcmark (.stat s) = true →
        (markRoots (clearMarks p)).isGcmark (.stat s) = true) ∧
      ∀ b, p.m.Used b → ((markRoots (clearMarks p)).isGcmark (.blk b) = true ↔
        p.Live (.blk b)) := by
  obtain ⟨hclear, hstat, hused⟩ := clearMarks_spec hp
  have hwf := hclear.wf hp
  obtain ⟨hdata, hmarks⟩ := sameData_foldl (gcmark_spec hwf (depth n)) p.roots
    (clearMarks p) (SameData.refl _)
  rw [← hclear.roots_eq, ← markRoots_eq_foldl hwf] at hdata hmarks
  have hspec := Marking.mark_roots_spec (clearMarks p).succ (depth n)
    (Ref.card n).le (clearMarks p).marks (clearMarks p).roots
  rw [← hmarks, hclear.succ_eq, hclear.roots_eq] at hspec
  refine ⟨hclear.trans hdata, fun s hs => ?_, fun b hb => ?_⟩
  · rw [← mem_marks]
    apply hspec.le
    rwa [mem_marks, hstat]
  · rw [← mem_marks, hspec.mem_iff (clearMarks_closed hp), mem_marks, hused b hb]
    simp [Live]

end Mark

section Sweep

/-- What the sweep may do to a block it keeps: nothing, except that a descriptor
atom may have been closed by the clean callback of a process handle. -/
def Kept (o o' : Obj n) : Prop :=
  o' = o ∨ ∃ fd, o = .fraw fd ∧ o' = .fraw invalidFd

theorem Kept.eq_pair {o' : Obj n} {car cdr : Ptr n} (h : Kept (.pair car cdr) o') :
    o' = .pair car cdr := by
  rcases h with h | ⟨fd, h, -⟩
  · exact h
  · cases h

theorem Kept.fraw {o' : Obj n} {fd : Int} (h : Kept (.fraw fd) o') :
    ∃ fd', o' = .fraw fd' := by
  rcases h with h | ⟨_, -, h⟩
  · exact ⟨fd, h⟩
  · exact ⟨invalidFd, h⟩

theorem Kept.refs_eq {o o' : Obj n} (h : Kept o o') : o'.refs = o.refs := by
  rcases h with rfl | ⟨fd, rfl, rfl⟩ <;> rfl

theorem Pool.Clean.setAcd {o : Obj n} (h : Clean o) (fd : Int) : Clean (o.setAcd fd) := by
  cases o with
  | pair car cdr => cases car <;> trivial
  | _ => exact h.elim

structure Swept (p : Pool n) (F : Set (Fin n)) (q : Pool n) : Prop where
  statMark : q.statMark = p.statMark
  bbs : q.bbs = p.bbs
  cxtl : q.cxtl = p.cxtl
  gsym : q.gsym = p.gsym
  gcmark : ∀ b ∉ F, (q.blk b).gcmark = (p.blk b).gcmark
  kept : ∀ b ∉ F, Kept (p.blk b).obj (q.blk b).obj
  freed : ∀ b ∈ F, Clean (q.blk b).obj

theorem Swept.start (p : Pool n) : Swept p ∅ p :=
  ⟨rfl, rfl, rfl, rfl, fun _ _ => rfl, fun _ _ => Or.inl rfl, fun _ hb => hb.elim⟩

/-- Cleaning a pipe of a process handle, freed already or not. -/
theorem Swept.aifFrawClean {p q : Pool n} {F : Set (Fin n)} (h : Swept p F q)
    {r : Ref n} (hr : p.IsFraw r) :
    Swept p F (aifFrawClean q r) ∧ (aifFrawClean q r).m = q.m := by
  obtain ⟨b, fd, rfl, -, hobj⟩ := hr
  have hset : ∀ cl, Swept p F
      ({ q with closed := cl }.setBlk b
        { q.blk b with obj := (q.blk b).obj.setAcd invalidFd }) := by
    intro cl
    refine ⟨h.statMark, h.bbs, h.cxtl, h.gsym, fun x hx => ?_, fun x hx => ?_,
      fun x hx => ?_⟩
    all_goals
      simp only [setBlk, Function.update_apply]
      split
    · next hxb => exact hxb ▸ h.gcmark x hx
    · exact h.gcmark x hx
    · next hxb =>
        subst hxb
        have hk := h.kept x hx
        rw [hobj] at hk
        obtain ⟨fd', hfd'⟩ := hk.fraw
        rw [hobj, hfd']
        exact Or.inr ⟨fd, rfl, rfl⟩
    · exact h.kept x hx
    · next hxb => exact Clean.setAcd (hxb ▸ h.freed x hx) _
    · exact h.freed x hx
  unfold Mempool.aifFrawClean
  dsimp only
  split
  · exact ⟨hset _, rfl⟩
  · exact ⟨hset q.closed, rfl⟩

theorem Swept.aifClean {p q : Pool n} {F : Set (Fin n)} (h : Swept p F q)
    {b : Fin n} (hb : b ∉ F) (hu : p.m.Used b) (hs : p.Sound (p.blk b).obj) :
    Swept p F (aifClean q b) ∧ (aifClean q b).m = q.m := by
  have hkept := h.kept b hb
  unfold Mempool.aifClean
  split
  next fd hq =>
    rcases hkept with hp | ⟨fd', hp, -⟩
    · exact h.aifFrawClean ⟨b, fd, rfl, hu, by rw [← hp, hq]⟩
    · exact h.aifFrawClean ⟨b, fd', rfl, hu, hp⟩
  next pc hq =>
    have hobj : (p.blk b).obj = .procia (some pc) := by
      rcases hkept with hp | ⟨_, -, hp⟩
      · rw [← hp, hq]
      · rw [hp] at hq
        cases hq
    rw [hobj] at hs
    obtain ⟨h1, hm1⟩ := h.aifFrawClean hs.1
    obtain ⟨h2, hm2⟩ := h1.aifFrawClean hs.2
    exact ⟨⟨h2.statMark, h2.bbs, h2.cxtl, h2.gsym, h2.gcmark, h2.kept, h2.freed⟩,
      hm2.trans hm1⟩
  next => exact ⟨h, rfl⟩

theorem Swept.cleanBlock {p q : Pool n} {F : Set (Fin n)} (h : Swept p F q)
    {b : Fin n} (hb : b ∉ F) (hu : p.m.Used b) (hs : p.Sound (p.blk b).obj) :
    Swept p (insert b F) (cleanBlock q b) ∧ (cleanBlock q b).m = mbtPut q.m b := by
  obtain ⟨h', hm⟩ := h.aifClean hb hu hs
  have hne : ∀ x ∉ insert b F, x ≠ b ∧ x ∉ F := by
    intro x hx
    rw [Set.mem_insert_iff, not_or] at hx
    exact hx
  refine ⟨⟨h'.statMark, h'.bbs, h'.cxtl, h'.gsym, fun x hx => ?_, fun x hx => ?_,
    fun x hx => ?_⟩, by rw [Mempool.cleanBlock]; exact congrArg (mbtPut · b) hm⟩
  · obtain ⟨hxb, hxF⟩ := hne x hx
    simpa [Mempool.cleanBlock, yleclean, setBlk, hxb] using h'.gcmark x hxF
  · obtain ⟨hxb, hxF⟩ := hne x hx
    simpa [Mempool.cleanBlock, yleclean, setBlk, hxb] using h'.kept x hxF
  · simp only [Mempool.cleanBlock, yleclean, setBlk, Function.update_apply]
    split
    · rfl
    · next hxb => exact h'.freed x (Set.mem_of_mem_insert_of_ne hx hxb)

theorem sweep_spec {p : Pool n} (hp : p.Wf) :
    Swept p {b | p.m.Used b ∧ p.isGcmark (.blk b) = false} (sweep p) ∧
      (sweep p).m.Wf ∧
      ∀ b, (sweep p).m.Used b ↔ p.m.Used b ∧ p.isGcmark (.blk b) = true := by
  have h := foreachUsed_spec Pool.m
    (fun p b => if p.isGcmark (.blk b) then p else cleanBlock p b)
    (fun b => p.isGcmark (.blk b) = false)
    (fun V q => Swept p {b | b ∈ V ∧ p.isGcmark (.blk b) = false} q)
    p hp.m (by simpa using Swept.start p) ?_
  · simpa [sweep] using h
  · intro V q b hq hu hbV _ _
    have hbF : b ∉ {b | b ∈ V ∧ p.isGcmark (.blk b) = false} := fun hb => hbV hb.1
    have hmark : q.isGcmark (.blk b) = p.isGcmark (.blk b) := hq.gcmark b hbF
    cases hm : p.isGcmark (.blk b) with
    | true =>
        rw [hmark, hm, if_pos rfl, if_neg (by simp)]
        refine ⟨?_, rfl⟩
        convert hq using 1
        ext x
        simp only [Set.mem_ofPred_eq, Set.mem_insert_iff]
        constructor
        · rintro ⟨rfl | hx, hxm⟩
          · rw [hm] at hxm
            cases hxm
          · exact ⟨hx, hxm⟩
        · exact fun hx => ⟨Or.inr hx.1, hx.2⟩
    | false =>
        rw [hmark, hm, if_neg (by simp), if_pos rfl]
        obtain ⟨h1, h2⟩ := hq.cleanBlock hbF hu (hp.used b hu)
        refine ⟨?_, h2⟩
        convert h1 using 1
        ext x
        simp only [Set.mem_ofPred_eq, Set.mem_insert_iff]
        constructor
        · rintro ⟨rfl | hx, hxm⟩
          · exact Or.inl rfl
          · exact Or.inr ⟨hx, hxm⟩
        · rintro (rfl | hx)
          · exact ⟨Or.inl rfl, hm⟩
          · exact ⟨Or.inr hx.1, hx.2⟩

end Sweep

section BaseBlocks

theorem foldl_bbs {α : Type*} {f : Pool n → α → Pool n} (hf : ∀ p a, (f p a).bbs = p.bbs)
    (l : List α) (p : Pool n) : (l.foldl f p).bbs = p.bbs := by
  induction l generalizing p with
  | nil => rfl
  | cons a l ih => rw [List.foldl_cons, ih, hf]

theorem visit_bbs {cb : Pool n → Ref n → Pool n} (hcb : ∀ p r, (cb p r).bbs = p.bbs)
    (p : Pool n) (o : Obj n) : (visit cb p o).bbs = p.bbs := by
  have hptr : ∀ p x, (visitPtr cb p x).bbs = p.bbs := by
    intro p x
    cases x with
    | «at» r => exact hcb p r
    | _ => rfl
  cases o with
  | pair car cdr =>
      cases car with
      | null => rfl
      | _ => exact (hptr _ _).trans (hptr _ _)
  | procia pc =>
      cases pc with
      | none => rfl
      | some pc => exact (hcb _ _).trans (hcb _ _)
  | map d =>
      show (aifMapVisit cb p d).bbs = p.bbs
      rw [aifMapVisit_eq_foldl, foldl_bbs hcb]
  | arr a =>
      cases a with
      | none => rfl
      | some a =>
          show (aifArrVisit cb p a).bbs = p.bbs
          rw [aifArrVisit_eq_foldl, foldl_bbs hcb]
  | _ => rfl

theorem setGcmark_bbs (p : Pool n) (v : Bool) (r : Ref n) :
    (p.setGcmark v r).bbs = p.bbs := by
  cases r <;> rfl

theorem gcmark_bbs (k : ℕ) (p : Pool n) (r : Ref n) : (gcmark k p r).bbs = p.bbs := by
  induction k generalizing p r with
  | zero => rfl
  | succ k ih =>
      rw [gcmark]
      split
      · rfl
      · rw [visit_bbs ih, setGcmark_bbs]

theorem cleanBlock_bbs (p : Pool n) (b : Fin n) : (cleanBlock p b).bbs = p.bbs := by
  have hfraw : ∀ (p : Pool n) r, (aifFrawClean p r).bbs = p.bbs := by
    intro p r
    cases r with
    | stat s => rfl
    | blk b =>
        rw [aifFrawClean]
        dsimp only
        split <;> rfl
  show (aifClean p b).bbs = p.bbs
  rw [aifClean]
  split
  · exact hfraw _ _
  · exact (hfraw _ _).trans (hfraw _ _)
  · rfl

theorem gc_bbs (p : Pool n) : (gc p).bbs = p.bbs := by
  have htable : ∀ (p : Pool n) t, (ylsluGcmark p t).bbs = p.bbs := by
    intro p t
    rw [ylsluGcmark_eq_foldl, foldl_bbs (gcmark_bbs _)]
  have hclear : ∀ p : Pool n, (clearMarks p).bbs = p.bbs := by
    intro p
    rw [clearMarks, foreachUsed, Loop.foreach, foldl_bbs fun p b => setGcmark_bbs p _ _]
  have hsweep : ∀ p : Pool n, (sweep p).bbs = p.bbs := by
    intro p
    rw [sweep, foreachUsed, Loop.foreach, foldl_bbs]
    intro p b
    split
    · rfl
    · exact cleanBlock_bbs p _
  rw [gc, hsweep, markRoots, htable, foldl_bbs htable, foldl_bbs (gcmark_bbs _), hclear]

end BaseBlocks

section Collection

variable {p : Pool n}

/-- The used blocks after a collection are the live ones. -/
theorem gc_used_iff (hp : p.Wf) (b : Fin n) :
    (gc p).m.Used b ↔ p.m.Used b ∧ p.Live (.blk b) := by
  obtain ⟨hdata, -, hlive⟩ := markRoots_spec hp
  rw [gc, (sweep_spec (hdata.wf hp)).2.2, hdata.m]
  exact and_congr_right fun hb => hlive b hb

theorem gc_swept (hp : p.Wf) :
    Swept (markRoots (clearMarks p)) {b | p.m.Used b ∧ ¬ p.Live (.blk b)} (gc p) := by
  obtain ⟨hdata, -, hlive⟩ := markRoots_spec hp
  have h := (sweep_spec (hdata.wf hp)).1
  rw [gc]
  convert h using 1
  ext b
  simp only [Set.mem_ofPred_eq, hdata.m]
  refine and_congr_right fun hb => ?_
  rw [← hlive b hb, Bool.not_eq_true]

theorem gc_kept (hp : p.Wf) {b : Fin n} (hb : (gc p).m.Used b) :
    Kept (p.blk b).obj ((gc p).blk b).obj := by
  obtain ⟨hdata, -, -⟩ := markRoots_spec hp
  rw [← hdata.obj b]
  exact (gc_swept hp).kept b fun hF => hF.2 ((gc_used_iff hp b).1 hb).2

theorem gc_cxtl (hp : p.Wf) : (gc p).cxtl = p.cxtl :=
  (gc_swept hp).cxtl.trans (markRoots_spec hp).1.cxtl

theorem gc_gsym (hp : p.Wf) : (gc p).gsym = p.gsym :=
  (gc_swept hp).gsym.trans (markRoots_spec hp).1.gsym

theorem gc_statMark (hp : p.Wf) {s : Static} (hs : p.statMark s = true) :
    (gc p).statMark s = true := by
  rw [(gc_swept hp).statMark]
  exact (markRoots_spec hp).2.1 s hs

theorem Pool.Live.succ {r x : Ref n} (h : p.Live r) (hx : x ∈ p.succ r) : p.Live x := by
  obtain ⟨y, hy, hr⟩ := h
  exact ⟨y, hy, hr.tail hx⟩

theorem gc_wf (hp : p.Wf) : (gc p).Wf := by
  obtain ⟨hdata, -, -⟩ := markRoots_spec hp
  have hswept := gc_swept hp
  refine ⟨(sweep_spec (hdata.wf hp)).2.1, fun b hb => ?_, fun b hb => ?_⟩
  · obtain ⟨hu, hl⟩ := (gc_used_iff hp b).1 hb
    have hsound := hp.used b hu
    have hfraw : ∀ r ∈ p.succ (.blk b), p.IsFraw r → (gc p).IsFraw r := by
      rintro r hr ⟨x, fd, rfl, hx, hobj⟩
      have hx' := (gc_used_iff hp x).2 ⟨hx, hl.succ hr⟩
      have hk := gc_kept hp hx'
      rw [hobj] at hk
      obtain ⟨fd', hfd'⟩ := hk.fraw
      exact ⟨x, fd', rfl, hx', hfd'⟩
    rcases gc_kept hp hb with heq | ⟨fd, -, heq⟩
    · rw [heq]
      cases ho : (p.blk b).obj with
      | pair car cdr =>
          rw [ho] at hsound
          exact hsound
      | procia pc =>
          cases pc with
          | none => trivial
          | some pc =>
              rw [ho] at hsound
              have hrefs : p.succ (.blk b) = [pc.wp, pc.rp] := by
                rw [Pool.succ, Pool.obj, ho]
                rfl
              exact ⟨hfraw _ (by simp [hrefs]) hsound.1, hfraw _ (by simp [hrefs]) hsound.2⟩
      | _ => trivial
    · rw [heq]
      trivial
  · by_cases hu : p.m.Used b
    · exact hswept.freed b ⟨hu, fun hl => hb ((gc_used_iff hp b).2 ⟨hu, hl⟩)⟩
    · have hk := hswept.kept b fun hF => hu hF.1
      have hclean := hp.free b hu
      rw [hdata.obj b] at hk
      rcases hk with heq | ⟨fd, ho, -⟩
      · rwa [heq]
      · rw [ho] at hclean
        exact hclean.elim

end Collection

def WfPool (n : ℕ) := {p : Pool n // p.Wf}

namespace WfPool

def collect (p : WfPool n) : WfPool n := ⟨gc p.1, gc_wf p.2⟩

/-- A run that starts at `p`: after each collection the program does one of `fs`
to the pool. What the steps of the program do is among these functions: they keep the pool well
formed (`Good.fill`, `Wired.good_setBlk` and `Good.gc` for the pool, `collects_of_keepsPending` for
the runs of the evaluator). -/
def run (p : WfPool n) (fs : List (WfPool n → WfPool n)) : WfPool n :=
  fs.foldl (fun p f => f p.collect) p

end WfPool

end Mempool

end Ylisp
