import Mathlib.Order.Interval.Finset.Nat
import Ylisp.Mempool.GcSpec

/-!
# What a collection leaves alone

The sub types of the elements that a collection keeps are as they were (`gc_st`, `gc_statSt`), and
there are at least as many free blocks as before (`fbi_le_gc`).
-/

namespace Ylisp

namespace Mempool

variable {n : ℕ}

section Projection

variable {α : Type*} {π : Pool n → α}

theorem foldl_proj {β : Type*} {f : Pool n → β → Pool n} (hf : ∀ p a, π (f p a) = π p)
    (l : List β) (p : Pool n) : π (l.foldl f p) = π p := by
  induction l generalizing p with
  | nil => rfl
  | cons a l ih => rw [List.foldl_cons, ih, hf]

theorem visit_proj {cb : Pool n → Ref n → Pool n} (hcb : ∀ p r, π (cb p r) = π p)
    (p : Pool n) (o : Obj n) : π (visit cb p o) = π p := by
  have hptr : ∀ p x, π (visitPtr cb p x) = π p := by
    intro p x
    cases x with
    | «at» r => exact hcb p r
    | _ => rfl
  cases o with
  | pair car cdr =>
      cases car with
      | null => rfl
      | _ => exact (hptr _ _).trans (hptr _ _)
  | procia pc =>
      cases pc with
      | none => rfl
      | some pc => exact (hcb _ _).trans (hcb _ _)
  | map d =>
      show π (aifMapVisit cb p d) = π p
      rw [aifMapVisit_eq_foldl, foldl_proj hcb]
  | arr a =>
      cases a with
      | none => rfl
      | some a =>
          show π (aifArrVisit cb p a) = π p
          rw [aifArrVisit_eq_foldl, foldl_proj hcb]
  | _ => rfl

/-- What neither a mark nor the cleaning of a block changes is left alone by a collection. -/
theorem gc_proj (hmark : ∀ p v r, π (p.setGcmark v r) = π p)
    (hclean : ∀ p b, π (cleanBlock p b) = π p) (p : Pool n) : π (gc p) = π p := by
  have hgcmark : ∀ k p r, π (gcmark k p r) = π p := by
    intro k
    induction k with
    | zero => exact fun _ _ => rfl
    | succ k ih =>
        intro p r
        rw [gcmark]
        split
        · rfl
        · rw [visit_proj ih, hmark]
  have htable : ∀ (p : Pool n) t, π (ylsluGcmark p t) = π p := by
    intro p t
    rw [ylsluGcmark_eq_foldl, foldl_proj (hgcmark _)]
  have hclear : ∀ p : Pool n, π (clearMarks p) = π p := by
    intro p
    rw [clearMarks, foreachUsed, Loop.foreach]
    exact foldl_proj (fun p b => hmark p _ _) _ p
  have hsweep : ∀ p : Pool n, π (sweep p) = π p := by
    intro p
    rw [sweep, foreachUsed, Loop.foreach]
    refine foldl_proj (fun p b => ?_) _ p
    split
    · rfl
    · exact hclean p _
  rw [gc, hsweep, markRoots, htable, foldl_proj htable, foldl_proj (hgcmark _), hclear]

end Projection

section Kind

variable {p : Pool n}

structure SameHead (p q : Pool n) : Prop where
  statSt : q.statSt = p.statSt
  st : ∀ b, (q.blk b).st = (p.blk b).st
  gcmark : ∀ b, (q.blk b).gcmark = (p.blk b).gcmark

theorem SameHead.refl (p : Pool n) : SameHead p p := ⟨rfl, fun _ => rfl, fun _ => rfl⟩

theorem SameHead.trans {q s : Pool n} (h : SameHead p q) (h' : SameHead q s) : SameHead p s :=
  ⟨h'.statSt.trans h.statSt, fun b => (h'.st b).trans (h.st b),
    fun b => (h'.gcmark b).trans (h.gcmark b)⟩

theorem sameHead_setObj (p : Pool n) (b : Fin n) (o : Obj n) :
    SameHead p (p.setBlk b { p.blk b with obj := o }) := by
  refine ⟨rfl, fun x => ?_, fun x => ?_⟩ <;>
  · by_cases hx : x = b
    · rw [hx, Pool.setBlk_self]
    · rw [Pool.setBlk_of_ne _ _ hx]

theorem sameHead_aifFrawClean (p : Pool n) (r : Ref n) : SameHead p (aifFrawClean p r) := by
  cases r with
  | stat s => exact SameHead.refl p
  | blk b =>
      rw [aifFrawClean]
      dsimp only
      split
      · have h := sameHead_setObj p b ((p.blk b).obj.setAcd invalidFd)
        exact ⟨rfl, h.st, h.gcmark⟩
      · exact sameHead_setObj p b _

theorem sameHead_aifClean (p : Pool n) (b : Fin n) : SameHead p (aifClean p b) := by
  rw [aifClean]
  split
  next => exact sameHead_aifFrawClean p _
  next pc _ =>
    have h := (sameHead_aifFrawClean p pc.wp).trans (sameHead_aifFrawClean _ pc.rp)
    exact ⟨h.statSt, h.st, h.gcmark⟩
  next => exact SameHead.refl p

theorem gc_statSt (p : Pool n) : (gc p).statSt = p.statSt := by
  refine gc_proj (π := Pool.statSt) (fun p v r => ?_) (fun p b => ?_) p
  · cases r <;> rfl
  · exact (sameHead_aifClean p b).statSt

theorem blk_cleanBlock (p : Pool n) {b x : Fin n} (hx : x ≠ b) :
    (cleanBlock p b).blk x = (aifClean p b).blk x :=
  Pool.setBlk_of_ne (aifClean p b) Yle.clean hx

/-- The sweep leaves the sub type of a marked block alone. -/
theorem sweep_st {q : Pool n} {x : Fin n} (hx : q.isGcmark (.blk x) = true) :
    ((sweep q).blk x).st = (q.blk x).st := by
  rw [sweep, foreachUsed, Loop.foreach]
  suffices h : ∀ (ks : List (Fin n)) (s : Pool n), s.isGcmark (.blk x) = true →
      ((ks.foldl (fun s k => if s.isGcmark (.blk (s.m.fbp k)) then s
        else cleanBlock s (s.m.fbp k)) s).blk x).st = (s.blk x).st from h _ q hx
  intro ks
  induction ks with
  | nil => exact fun _ _ => rfl
  | cons k ks ih =>
      intro s hs
      rw [List.foldl_cons]
      split
      next => exact ih s hs
      next hb =>
        have hne : x ≠ s.m.fbp k := by
          rintro rfl
          exact hb hs
        have hhead := sameHead_aifClean s (s.m.fbp k)
        have hmark : (cleanBlock s (s.m.fbp k)).isGcmark (.blk x) = true := by
          rw [Pool.isGcmark, blk_cleanBlock s hne, hhead.gcmark]
          exact hs
        rw [ih _ hmark, blk_cleanBlock s hne, hhead.st]

theorem gc_st (hp : p.Wf) {b : Fin n} (hb : (gc p).m.Used b) :
    ((gc p).blk b).st = (p.blk b).st := by
  obtain ⟨hdata, -, hlive⟩ := markRoots_spec hp
  obtain ⟨hused, hb⟩ := (gc_used_iff hp b).1 hb
  rw [gc, sweep_st ((hlive b hused).2 hb), hdata.st]

end Kind

theorem fbi_le_gc {p : Pool n} (hp : p.Wf) : p.m.fbi ≤ (gc p).m.fbi := by
  have hq := (gc_wf hp).m
  -- the places of the blocks that are in use afterwards, in the table from before
  have hinj : ∀ k ∈ Finset.Ico (gc p).m.fbi n, ∀ h : k < n,
      ((p.m.i ((gc p).m.fbp ⟨k, h⟩)).val) ∈ Finset.Ico p.m.fbi n := by
    intro k hk h
    have hused : (gc p).m.Used ((gc p).m.fbp ⟨k, h⟩) := by
      rw [Mbt.Used, hq.i_fbp]
      exact (Finset.mem_Ico.1 hk).1
    exact Finset.mem_Ico.2 ⟨((gc_used_iff hp _).1 hused).1, Fin.isLt _⟩
  have hcard := Finset.card_le_card_of_injOn (s := Finset.Ico (gc p).m.fbi n)
    (t := Finset.Ico p.m.fbi n)
    (fun k => if h : k < n then (p.m.i ((gc p).m.fbp ⟨k, h⟩)).val else 0)
    (fun k hk => by
      have h := (Finset.mem_Ico.1 hk).2
      simp only [dif_pos h]
      exact hinj k hk h)
    (fun k hk k' hk' heq => by
      have h := (Finset.mem_Ico.1 hk).2
      have h' := (Finset.mem_Ico.1 hk').2
      simp only [dif_pos h, dif_pos h'] at heq
      have hfbp := congrArg p.m.fbp (Fin.ext heq)
      rw [hp.m.fbp_i, hp.m.fbp_i] at hfbp
      have hi := congrArg (gc p).m.i hfbp
      rw [hq.i_fbp, hq.i_fbp] at hi
      exact congrArg Fin.val hi)
  rw [Nat.card_Ico, Nat.card_Ico] at hcard
  have hle := (gc p).m.fbi_le
  have hle' := p.m.fbi_le
  omega

end Mempool

end Ylisp
