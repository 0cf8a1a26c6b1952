import Ylisp.Library.Marking
import Ylisp.Mempool.Pool

/-!
# The collector

`gc` is `_gc`: it clears the marks of the used blocks, marks from the base
blocks and from the symbol tables, and frees the used blocks that are still
unmarked. `gcmark` nests at most `depth` calls; `gcmark_marks` shows that
it is the depth-first marking of the library over the references of the pool, so
that this bound is never met.
-/

namespace Ylisp

namespace Mempool

variable {n : ℕ}

namespace Pool

def isGcmark (p : Pool n) : Ref n → Bool
  | .stat s => p.statMark s
  | .blk b => (p.blk b).gcmark

def setGcmark (p : Pool n) (v : Bool) : Ref n → Pool n
  | .stat s => { p with statMark := Function.update p.statMark s v }
  | .blk b => p.setBlk b { p.blk b with gcmark := v }

end Pool

def gcmark : ℕ → Pool n → Ref n → Pool n
  | 0, p, _ => p
  | k + 1, p, e =>
      if p.isGcmark e then p else visit (gcmark k) (p.setGcmark true e) (p.obj e)

/-- A bound on the nesting of `_gcmark`: the number of elements there are. -/
def depth (n : ℕ) : ℕ := 5 + n

def ylsluGcmark (p : Pool n) (t : Slut n) : Pool n :=
  (t.fullWalk
    (fun p _ v => (match v.e with | some r => gcmark (depth n) p r | none => p, true)) p).1

def clearMarks (p : Pool n) : Pool n :=
  foreachUsed Pool.m (fun p b => p.setGcmark false (.blk b)) p

def markRoots (p : Pool n) : Pool n :=
  let p := p.bbs.reverse.foldl (gcmark (depth n)) p
  let p := p.cxtl.foldl ylsluGcmark p
  ylsluGcmark p p.gsym

def cleanBlock (p : Pool n) (b : Fin n) : Pool n :=
  let p := yleclean p b
  { p with m := mbtPut p.m b }

def sweep (p : Pool n) : Pool n :=
  foreachUsed Pool.m (fun p b => if p.isGcmark (.blk b) then p else cleanBlock p b) p

def gc (p : Pool n) : Pool n := sweep (markRoots (clearMarks p))

/-! ### Marks -/

namespace Pool

structure SameData (p q : Pool n) : Prop where
  m : q.m = p.m
  obj : ∀ b, (q.blk b).obj = (p.blk b).obj
  st : ∀ b, (q.blk b).st = (p.blk b).st
  bbs : q.bbs = p.bbs
  cxtl : q.cxtl = p.cxtl
  gsym : q.gsym = p.gsym
  closed : q.closed = p.closed
  killed : q.killed = p.killed

namespace SameData

theorem refl (p : Pool n) : SameData p p :=
  ⟨rfl, fun _ => rfl, fun _ => rfl, rfl, rfl, rfl, rfl, rfl⟩

theorem trans {p q r : Pool n} (h : SameData p q) (h' : SameData q r) :
    SameData p r where
  m := h'.m.trans h.m
  obj := fun b => (h'.obj b).trans (h.obj b)
  st := fun b => (h'.st b).trans (h.st b)
  bbs := h'.bbs.trans h.bbs
  cxtl := h'.cxtl.trans h.cxtl
  gsym := h'.gsym.trans h.gsym
  closed := h'.closed.trans h.closed
  killed := h'.killed.trans h.killed

theorem obj_eq {p q : Pool n} (h : SameData p q) (r : Ref n) : q.obj r = p.obj r := by
  cases r with
  | stat s => rfl
  | blk b => exact h.obj b

theorem succ_eq {p q : Pool n} (h : SameData p q) : q.succ = p.succ := by
  funext r
  rw [succ, succ, h.obj_eq]

theorem roots_eq {p q : Pool n} (h : SameData p q) : q.roots = p.roots := by
  rw [roots, roots, h.bbs, h.cxtl, h.gsym]

theorem wf {p q : Pool n} (h : SameData p q) (hp : p.Wf) : q.Wf := by
  have hfraw : ∀ r, p.IsFraw r → q.IsFraw r := by
    rintro r ⟨b, fd, rfl, hu, ho⟩
    exact ⟨b, fd, rfl, by rwa [h.m], by rw [h.obj b, ho]⟩
  constructor
  · rw [h.m]
    exact hp.m
  · intro b hb
    rw [h.obj b]
    exact (hp.used b (by rwa [h.m] at hb)).mono hfraw
  · intro b hb
    rw [h.obj b]
    exact hp.free b (by rwa [h.m] at hb)

theorem setGcmark (p : Pool n) (v : Bool) (r : Ref n) :
    SameData p (p.setGcmark v r) := by
  cases r with
  | stat s => exact ⟨rfl, fun _ => rfl, fun _ => rfl, rfl, rfl, rfl, rfl, rfl⟩
  | blk b =>
      refine ⟨rfl, fun x => ?_, fun x => ?_, rfl, rfl, rfl, rfl, rfl⟩ <;>
      · simp only [Pool.setGcmark, setBlk, Function.update_apply]
        split
        next hx => rw [hx]
        next => rfl

end SameData

def marks (p : Pool n) : Finset (Ref n) := Finset.univ.filter fun r => p.isGcmark r

theorem mem_marks (p : Pool n) (r : Ref n) : r ∈ p.marks ↔ p.isGcmark r = true := by
  simp [marks]

theorem isGcmark_setGcmark (p : Pool n) (v : Bool) (r x : Ref n) :
    (p.setGcmark v r).isGcmark x = if x = r then v else p.isGcmark x := by
  cases r with
  | stat s =>
      cases x with
      | stat s' => simp [setGcmark, isGcmark, Function.update_apply]
      | blk b => simp [setGcmark, isGcmark]
  | blk b =>
      cases x with
      | stat s => simp [setGcmark, isGcmark, setBlk]
      | blk b' =>
          simp only [setGcmark, isGcmark, setBlk, Function.update_apply, Ref.blk.injEq]
          split <;> rfl

theorem marks_setGcmark (p : Pool n) (r : Ref n) :
    (p.setGcmark true r).marks = insert r p.marks := by
  ext x
  rw [mem_marks, isGcmark_setGcmark, Finset.mem_insert, mem_marks]
  by_cases hx : x = r <;> simp [hx]

end Pool

open Pool in
/-- A loop over elements whose body changes marks only and marks like `g`. -/
theorem sameData_foldl {p : Pool n} {f : Pool n → Ref n → Pool n}
    {g : Finset (Ref n) → Ref n → Finset (Ref n)}
    (hf : ∀ q r, SameData p q → SameData p (f q r) ∧ (f q r).marks = g q.marks r) :
    ∀ (rs : List (Ref n)) (q : Pool n), SameData p q →
      SameData p (rs.foldl f q) ∧ (rs.foldl f q).marks = rs.foldl g q.marks
  | [], q, hq => ⟨hq, rfl⟩
  | r :: rs, q, hq => by
      obtain ⟨h1, h2⟩ := hf q r hq
      rw [List.foldl_cons, List.foldl_cons, ← h2]
      exact sameData_foldl hf rs (f q r) h1

open Pool in
/-- `_gcmark` changes marks only, and it marks what the depth-first marking of
the library marks. -/
theorem gcmark_spec {p : Pool n} (hp : p.Wf) : ∀ (k : ℕ) (q : Pool n) (r : Ref n),
    SameData p q → SameData p (gcmark k q r) ∧
      (gcmark k q r).marks = Marking.mark p.succ k q.marks r
  | 0, q, r, hq => ⟨hq, rfl⟩
  | k + 1, q, r, hq => by
      by_cases hr : q.isGcmark r = true
      · rw [gcmark, if_pos hr, Marking.mark, if_pos ((mem_marks q r).2 hr)]
        exact ⟨hq, rfl⟩
      · have hvisit := visit_eq_foldl (gcmark k) (q.setGcmark true r) (q.obj r)
          (by rw [hq.obj_eq]; exact hp.visitOk r)
        have hset := hq.trans (SameData.setGcmark q true r)
        rw [gcmark, if_neg hr, Marking.mark, if_neg (by rwa [mem_marks]), hvisit,
          ← marks_setGcmark, ← show (q.obj r).refs = p.succ r from congrFun hq.succ_eq r]
        exact sameData_foldl (gcmark_spec hp k) _ _ hset

end Mempool

end Ylisp
