import Ylisp.Eval.Machine

/-!
# The base-block stack over an interpretation

Every interpretation of a run leaves the base blocks that it has found, if and
only if none of them ends inside `yleval` (`restored_iff`): the base blocks that
`yleval` has registered are not removed when the thread ends there.

`Accounted` says what is on the stack while functions wait; `Rooted` says that a
function waits in a call of `yleval`, and `yleval` in an interpretation.
-/

namespace Ylisp

namespace Eval

open Mempool

open Ylisp.Parser (Ylerr)

variable {n : ℕ}

/-- The base blocks when `ylinterpret_internal` returns are those at its call. -/
def Restored (s : State n) : Prop :=
  ∀ r caller bbs fs, s.ctl = .exit r → s.frames = .interp caller bbs :: fs →
    s.pool.bbs.Perm bbs

/-- A thread that ends has no call of `yleval` that is waiting. -/
def EndsOutside (s : State n) (_ : Event) : Prop :=
  ∀ r, s.ctl = .exit r → ∃ caller bbs fs, s.frames = .interp caller bbs :: fs

/-- The base-block stack holds the base blocks of the frames down to the start of
the interpretation, and those that were there at its start. -/
def Accounted : List (Frame n) → List (Ref n) → Prop
  | [], _ => True
  | .interp _ bbs :: fs, l => l.Perm bbs ∧ Accounted fs bbs
  | f :: fs, l => ∃ bs, l.Perm (f.bb ++ bs) ∧ Accounted fs bs

def Inner : List (Frame n) → Prop
  | [] => False
  | .interp _ _ :: _ => False
  | _ :: _ => True

/-- Functions wait inside `yleval`, nested interpretations inside functions. -/
def Rooted : List (Frame n) → Prop
  | [] => False
  | .interp .top _ :: _ => True
  | .interp _ _ :: fs => Inner fs ∧ Rooted fs
  | .wait _ :: fs => Inner fs ∧ Rooted fs
  | _ :: fs => Rooted fs

/-- What is executed belongs to a function inside `yleval`. -/
def Ctl.Inside : Ctl n → Prop
  | .evlis _ _ | .call _ _ _ | .caseTest _ _ _ | .mapTest _ _ _ | .files _ | .start _ => True
  | _ => False

section Stack

variable {fs : List (Frame n)} {l l' bs : List (Ref n)} {s : State n}

theorem foldl_ylmpAddBb (es : List (Ref n)) (p : Pool n) :
    es.foldl ylmpAddBb p = { p with bbs := es.reverse ++ p.bbs } := by
  induction es generalizing p with
  | nil => rfl
  | cons e es ih => simp [ih, ylmpAddBb]

theorem foldl_ylmpRmBb (es : List (Ref n)) (p : Pool n) :
    es.foldl ylmpRmBb p = { p with bbs := p.bbs.diff es } := by
  induction es generalizing p with
  | nil => rfl
  | cons e es ih => rw [List.foldl_cons, ih, List.diff_cons]; rfl

theorem append_diff_perm (es l : List (Ref n)) : ((es ++ l).diff es).Perm l := by
  rw [← Multiset.coe_eq_coe, ← Multiset.coe_sub, ← Multiset.coe_add, add_tsub_cancel_left]

theorem Accounted.perm (h : Accounted fs l) (hl : l'.Perm l) : Accounted fs l' := by
  cases fs with
  | nil => trivial
  | cons f fs =>
      cases f with
      | interp caller bbs => exact ⟨hl.trans h.1, h.2⟩
      | _ =>
          obtain ⟨bs, hbs, hfs⟩ := h
          exact ⟨bs, hl.trans hbs, hfs⟩

theorem Accounted.push {f : Frame n} (h : Accounted s.frames s.pool.bbs)
    (hf : f.isInterp = false) : Accounted (s.push f).frames (s.push f).pool.bbs := by
  have hbbs : (s.push f).pool.bbs.Perm (f.bb ++ s.pool.bbs) := by
    rw [State.push, foldl_ylmpAddBb]
    exact (List.reverse_perm f.bb).append_right _
  cases f with
  | interp caller bbs => cases hf
  | _ => exact ⟨_, hbbs, h⟩

theorem Accounted.pop {f : Frame n} (h : Accounted (f :: fs) s.pool.bbs)
    (hf : f.isInterp = false) : Accounted (s.pop f fs).frames (s.pop f fs).pool.bbs := by
  have hpop : ∃ bs, s.pool.bbs.Perm (f.bb ++ bs) ∧ Accounted fs bs := by
    cases f with
    | interp caller bbs => cases hf
    | _ => exact h
  obtain ⟨bs, hbs, hfs⟩ := hpop
  refine hfs.perm ?_
  have hdiff : (f.bb.foldl ylmpRmBb s.pool).bbs.Perm ((f.bb ++ bs).diff f.bb) := by
    rw [foldl_ylmpRmBb]
    exact hbs.diff_right f.bb
  exact hdiff.trans (append_diff_perm f.bb bs)

end Stack

/-- What is on the stacks while a function inside `yleval` is executed. -/
def Within (s : State n) : Prop :=
  Accounted s.frames s.pool.bbs ∧ Rooted s.frames ∧ Inner s.frames

/-- The invariant of a run whose interpretations end outside `yleval`. -/
def Tidy (s : State n) : Prop :=
  (∃ r, s.ctl = .done r) ∨
    Accounted s.frames s.pool.bbs ∧ Rooted s.frames ∧ (s.ctl.Inside → Inner s.frames)

section Step

variable {c : Etcxt n} {s s' : State n}

theorem Within.tidy (h : Within s) : Tidy s := Or.inr ⟨h.1, h.2.1, fun _ => h.2.2⟩

theorem Within.pushWaits (h : Within s) (ws : List (Wait n)) : Within (s.pushWaits ws) := by
  induction ws with
  | nil => exact h
  | cons w ws ih => exact ⟨ih.1.push rfl, ⟨ih.2.2, ih.2.1⟩, trivial⟩

theorem Within.run {x : Hp n (Go n)} (h : Within s) (hrun : s.run x = some s') : Tidy s' := by
  unfold State.run at hrun
  split at hrun
  next g q _ =>
    cases hrun
    exact (Within.pushWaits (show Within { s.load q with ctl := g.ctl } from h) g.push).tidy
  next r q _ =>
    cases hrun
    exact Or.inr ⟨h.1, h.2.1, fun _ => h.2.2⟩
  next => cases hrun

theorem Within.resume {w : Wait n} {fs : List (Frame n)} {x : Hp n (Go n)} {ws : List (Wait n)}
    (hacc : Accounted (.wait w :: fs) s.pool.bbs) (hroot : Rooted (.wait w :: fs))
    (hrun : ((s.pop (.wait w) fs).pushWaits ws).run x = some s') : Tidy s' := by
  have hpop : Within (s.pop (.wait w) fs) := ⟨hacc.pop rfl, hroot.2, hroot.1⟩
  exact (hpop.pushWaits ws).run hrun

theorem Tidy.exit {r : Ylerr} {caller : Caller n} {bbs : List (Ref n)} {fs : List (Frame n)}
    (hfs : s.frames = .interp caller bbs :: fs) (hacc : Accounted s.frames s.pool.bbs)
    (hroot : Rooted s.frames) (h : s.exit r = some s') : Tidy s' := by
  rw [hfs] at hacc hroot
  rw [State.exit, hfs] at h
  have hafter : ∀ (hin : Inner fs ∧ Rooted fs),
      Within ({ s with frames := fs }.showEvalStack r) := by
    intro hin
    unfold State.showEvalStack
    split <;> exact ⟨hacc.2.perm hacc.1, hin.2, hin.1⟩
  cases caller with
  | top =>
      cases h
      exact Or.inl ⟨r, rfl⟩
  | interpret =>
      cases h
      exact Within.tidy (hafter hroot)
  | interpretFile e =>
      simp only [State.finish] at h
      split at h
      · exact (hafter hroot).run h
      · cases h
        exact Within.tidy (hafter hroot)

theorem Tidy.ret {k : ℕ} {v : Ref n} (hacc : Accounted s.frames s.pool.bbs)
    (hroot : Rooted s.frames) (h : s.ret c k v = some s') : Tidy s' := by
  unfold State.ret at h
  split at h
  next e a stk fs hfs =>
    rw [hfs] at hacc hroot
    cases h
    have hpop := hacc.pop rfl
    exact Or.inr ⟨hpop.push rfl, hroot, fun _ => trivial⟩
  next caller bbs fs hfs =>
    cases h
    exact Or.inr ⟨hacc, hroot, False.elim⟩
  next w fs hfs =>
    rw [hfs] at hacc hroot
    exact Within.resume hacc hroot h
  next => cases h

theorem tidy_next {k : ℕ} {erange : Bool} (hs : Tidy s) (hend : EndsOutside s .tick)
    (h : s.next c k erange = some s') : Tidy s' := by
  rcases hs with ⟨r, hr⟩ | ⟨hacc, hroot, hin⟩
  · simp [State.next, hr] at h
  · unfold State.next at h
    split at h
    next e a hctl =>
      have hpush := Accounted.push (f := .yleval e a s.evalstk) hacc rfl
      have hw : Within ({ s with evalstk := e :: s.evalstk }.push (.yleval e a s.evalstk)) :=
        ⟨hpush, hroot, trivial⟩
      exact hw.run h
    next hctl => exact Within.run ⟨hacc, hroot, hin (by rw [hctl]; trivial)⟩ h
    next hctl => exact Within.run ⟨hacc, hroot, hin (by rw [hctl]; trivial)⟩ h
    next hctl => exact Within.run ⟨hacc, hroot, hin (by rw [hctl]; trivial)⟩ h
    next hctl =>
      split at h
      next key a fs hfs =>
        rw [hfs] at hacc hroot
        exact Within.run ⟨hacc.pop rfl, hroot.2, hroot.1⟩ h
      next => cases h
    next hctl => exact Within.run ⟨hacc, hroot, hin (by rw [hctl]; trivial)⟩ h
    next hctl => exact Within.run ⟨hacc, hroot, hin (by rw [hctl]; trivial)⟩ h
    next caller hctl =>
      cases h
      have hinner := hin (by rw [hctl]; trivial)
      refine Or.inr ⟨⟨List.Perm.refl _, hacc⟩, ?_, False.elim⟩
      cases caller with
      | top => trivial
      | _ => exact ⟨hinner, hroot⟩
    next v hctl => exact Tidy.ret hacc hroot h
    next hctl =>
      split at h
      next r fs hfs =>
        rw [hfs] at hacc hroot
        cases h
        exact Or.inr ⟨hacc.pop rfl, hroot, False.elim⟩
      next => cases h
    next r hctl =>
      obtain ⟨caller, bbs, fs, hfs⟩ := hend r hctl
      exact Tidy.exit hfs hacc hroot h
    next => cases h
    next => cases h

theorem tidy_step (s : State n) (e : Event) (s' : State n) (hs : Tidy s)
    (hend : EndsOutside s e) (h : Step c s e s') : Tidy s' := by
  cases h with
  | tick k erange h => exact tidy_next hs hend h
  | collect hctl =>
      rcases hs with ⟨r, hr⟩ | ⟨hacc, hroot, hin⟩
      · rw [hctl] at hr
        cases hr
      · exact Or.inr ⟨by rw [gc_bbs]; exact hacc, hroot, hin⟩
  | kill hexit hdone =>
      rcases hs with ⟨r, hr⟩ | ⟨hacc, hroot, -⟩
      · exact absurd hr (hdone r)
      · exact Or.inr ⟨hacc, hroot, False.elim⟩
  | form hctl | eof r hctl | native hctl | nativeFail r hctl | openFail hctl =>
      rcases hs with ⟨r, hr⟩ | ⟨hacc, hroot, -⟩
      · rw [hctl] at hr
        cases hr
      · exact Or.inr ⟨hacc, hroot, False.elim⟩

/-- The frames of a thread that ends, and the base blocks that they leave behind. -/
theorem Accounted.unwind {fs : List (Frame n)} {l : List (Ref n)} (hacc : Accounted fs l)
    (hroot : Rooted fs) : ∃ caller bbs fs' above,
      unwound fs = .interp caller bbs :: fs' ∧
        l.Perm (above ++ bbs) ∧ (Inner fs → above ≠ []) := by
  induction fs generalizing l with
  | nil => exact hroot.elim
  | cons f fs ih =>
      cases f with
      | interp caller bbs => exact ⟨caller, bbs, fs, [], rfl, hacc.1, False.elim⟩
      | wait w =>
          obtain ⟨bs, hl, hfs⟩ := hacc
          obtain ⟨caller, bbs, fs', above, hdrop, hbs, hne⟩ := ih hfs hroot.2
          refine ⟨caller, bbs, fs', w.bb ++ above, hdrop, ?_, fun _ => ?_⟩
          · rw [List.append_assoc]
            exact hl.trans (hbs.append_left _)
          · exact List.append_ne_nil_of_right_ne_nil _ (hne hroot.1)
      | yleval e a stk =>
          obtain ⟨bs, hl, hfs⟩ := hacc
          obtain ⟨caller, bbs, fs', above, hdrop, hbs, -⟩ := ih hfs hroot
          exact ⟨caller, bbs, fs', e :: a :: above, hdrop, hl.trans (hbs.append_left _),
            fun _ => List.cons_ne_nil _ _⟩
      | safe r =>
          obtain ⟨bs, hl, hfs⟩ := hacc
          obtain ⟨caller, bbs, fs', above, hdrop, hbs, -⟩ := ih hfs hroot
          exact ⟨caller, bbs, fs', r :: above, hdrop, hl.trans (hbs.append_left _),
            fun _ => List.cons_ne_nil _ _⟩

/-- A thread that ends inside `yleval` leaves base blocks behind. -/
theorem endsOutside_of_restored (s : State n) (e : Event) (s' : State n) (hs : Tidy s)
    (h : Step c s e s') (hP : Restored s') : EndsOutside s e := by
  intro r hr
  obtain ⟨hacc, hroot, -⟩ : Accounted s.frames s.pool.bbs ∧ Rooted s.frames ∧ _ := by
    rcases hs with ⟨r', hr'⟩ | hs
    · rw [hr] at hr'
      cases hr'
    · exact hs
  by_contra hne
  have hinner : Inner s.frames := by
    cases hfs : s.frames with
    | nil =>
        rw [hfs] at hroot
        exact hroot
    | cons f fs =>
        cases f with
        | interp caller bbs => exact hne ⟨caller, bbs, fs, hfs⟩
        | _ => trivial
  obtain ⟨caller, bbs, fs', above, hdrop, hl, habove⟩ := hacc.unwind hroot
  have hexit : s' = { s with frames := .interp caller bbs :: fs' } := by
    cases h with
    | tick k erange h =>
        simp only [State.next, hr, State.exit] at h
        split at h
        next caller bbs fs hfs => exact (hne ⟨caller, bbs, fs, hfs⟩).elim
        next =>
          rw [hdrop] at h
          rw [hr]
          exact (Option.some.inj h).symm
    | kill hexit hdone => exact absurd hr (hexit r)
    | form hctl | eof _ hctl | collect hctl | native hctl | nativeFail _ hctl
    | openFail hctl =>
        rw [hr] at hctl
        cases hctl
  have hperm := hP r caller bbs fs' (by rw [hexit]; exact hr) (by rw [hexit])
  rw [hexit] at hperm
  have hlen := (hperm.symm.trans hl).length_eq
  rw [List.length_append] at hlen
  exact habove hinner (List.length_eq_zero_iff.1 (by omega))

theorem tidy_init (p : Pool n) : Tidy (State.init p) :=
  Or.inr ⟨⟨List.Perm.refl _, trivial⟩, trivial, False.elim⟩

theorem Tidy.restored (h : Tidy s) : Restored s := by
  intro r caller bbs fs hctl hfs
  rcases h with ⟨r', hr'⟩ | ⟨hacc, -⟩
  · rw [hctl] at hr'
    cases hr'
  · rw [hfs] at hacc
    exact hacc.1

end Step

/-- A context that takes each text for zero, or for no number. -/
def plainCxt (n : ℕ) (isNumber : Bool) : Etcxt n where
  slut := 0
  strtod := fun _ => if isNumber then some 0 else none
  eq := fun _ _ _ => false
  crc32 := fun _ => 0

def symtab (l : List (List UInt8 × Ref n)) : Slut n :=
  l.foldr (fun x t => ylsluInsert t x.1 symDef x.2) Trie.yltrieCreate

/-- A pool whose first blocks hold `objs`, and whose other blocks are free. -/
def poolOf (n : ℕ) (objs : List (Obj n)) (gsym : Slut n) : Pool n where
  m :=
    { i := Fin.rev
      fbp := Fin.rev
      fbi := n - objs.length
      fbi_le := Nat.sub_le _ _ }
  blk := fun b => match objs[b.val]? with | some o => ⟨false, 0, o⟩ | none => Yle.clean
  statMark := fun _ => false
  statSt := fun _ => 0
  bbs := []
  cxtl := []
  gsym := gsym
  closed := []
  killed := []

section Small

variable {u : ℕ} {objs : List (Obj n)} {l : List (List UInt8 × Ref n)}

def below (u : ℕ) : Ref n → Bool
  | .stat _ => true
  | .blk b => b.val < u

def plain (u : ℕ) : Obj n → Bool
  | .pair (.at a) (.at d) => below u a && below u d
  | .nil | .sym _ | .nfunc _ | .sfunc _ | .dbl _ | .bin _ => true
  | _ => false

theorem plain_sound {o : Obj n} (h : plain u o = true) (p : Pool n) : p.Sound o := by
  cases o with
  | pair car cdr =>
      cases car with
      | «at» a =>
          cases cdr with
          | «at» d => exact Or.inr ⟨a, d, rfl, rfl⟩
          | _ => cases h
      | _ => cases h
  | procia pc => cases h
  | _ => trivial

theorem plain_refs {o : Obj n} (h : plain u o = true) {r : Ref n} (hr : r ∈ o.refs) :
    below u r = true := by
  cases o with
  | pair car cdr =>
      cases car with
      | «at» a =>
          cases cdr with
          | «at» d =>
              obtain ⟨ha, hd⟩ := Bool.and_eq_true_iff.1 h
              rcases List.mem_cons.1 hr with rfl | hr
              · exact ha
              · exact List.mem_singleton.1 hr ▸ hd
          | _ => cases h
      | _ => cases h
  | procia pc => cases h
  | map d => cases h
  | arr a => cases h
  | _ => cases hr

theorem mem_symtab {v : Value n} (h : v ∈ (symtab l).values) :
    ∃ x ∈ l, v.e = some x.2 := by
  induction l with
  | nil =>
      rw [symtab, List.foldr_nil, Trie.values_yltrieCreate] at h
      cases h
  | cons x l ih =>
      rcases Trie.mem_values_yltrieInsert h with rfl | h
      · exact ⟨x, List.mem_cons_self, rfl⟩
      · obtain ⟨y, hy, hv⟩ := ih h
        exact ⟨y, List.mem_cons_of_mem _ hy, hv⟩

theorem poolOf_used (hn : objs.length ≤ n) (b : Fin n) (gsym : Slut n) :
    (poolOf n objs gsym).m.Used b ↔ b.val < objs.length := by
  show n - objs.length ≤ b.rev.val ↔ _
  rw [Fin.val_rev]
  omega

theorem poolOf_good (hn : objs.length ≤ n) (hobj : ∀ o ∈ objs, plain objs.length o = true)
    (hl : ∀ x ∈ l, below objs.length x.2 = true) : (poolOf n objs (symtab l)).Good := by
  have hused : ∀ b, (poolOf n objs (symtab l)).m.Used b ↔ b.val < objs.length := fun b =>
    poolOf_used hn b _
  have hvalid : ∀ r, below objs.length r = true → (poolOf n objs (symtab l)).Valid r := by
    intro r hr
    cases r with
    | stat s => trivial
    | blk b => exact (hused b).2 (of_decide_eq_true hr)
  have hblk : ∀ b, (poolOf n objs (symtab l)).m.Used b →
      ∃ o ∈ objs, ((poolOf n objs (symtab l)).blk b).obj = o := by
    intro b hb
    have hlt := (hused b).1 hb
    exact ⟨objs[b.val], List.getElem_mem hlt, by simp [poolOf, hlt]⟩
  refine ⟨⟨⟨⟨Fin.rev_rev, Fin.rev_rev⟩, fun b hb => ?_, fun b hb => ?_⟩, fun b hb r hr => ?_,
    fun r hr => ?_⟩, fun b hb hnull => ?_⟩
  · obtain ⟨o, ho, hb⟩ := hblk b hb
    rw [hb]
    exact plain_sound (hobj o ho) _
  · rw [hused, not_lt] at hb
    simp only [poolOf, List.getElem?_eq_none hb]
    rfl
  · obtain ⟨o, ho, hb⟩ := hblk b hb
    rw [hb] at hr
    exact hvalid r (plain_refs (hobj o ho) hr)
  · obtain ⟨t, ht, hr⟩ := List.mem_flatMap.1 hr
    obtain ⟨v, hv, he⟩ := List.mem_filterMap.1 hr
    rw [show t = symtab l from List.mem_singleton.1 ht] at hv
    obtain ⟨x, hx, hvx⟩ := mem_symtab hv
    rw [hvx] at he
    exact hvalid r (Option.some.inj he ▸ hl x hx)
  · obtain ⟨o, ho, hb⟩ := hblk b hb
    have hplain := hobj o ho
    rw [← hb, hnull] at hplain
    cases hplain

end Small

end Eval

end Ylisp
