import Ylisp.Eval.Sublis
import Ylisp.Mempool.GcKind

/-!
# Expressions as trees

A `Tree` is what an expression is, away from the pool: `nil`, atoms by their content, pairs. An
atom whose content may change stands for itself. `Denotes` is the meaning of an element as a tree
and `Env` that of an association list as bindings.

`Preserves` says what an evaluation leaves alone: what can be reached from the base blocks and
from the symbol tables. A collection does so, too (`Preserves.gc`), and what such elements denote
stays (`Denotes.preserved`).
-/

namespace Ylisp

namespace Lang

open Mempool Eval Effect

variable {n : ℕ}

inductive Tree (n : ℕ) where
  | nil
  | atom (o : Obj n)
  | ref (r : Ref n)
  | pair (t u : Tree n)

namespace Tree

abbrev sym (s : List UInt8) : Tree n := .atom (.sym s)

def isAtom : Tree n → Bool
  | pair _ _ => false
  | _ => true

def pairs : Tree n → ℕ
  | pair t u => t.pairs + u.pairs + 1
  | _ => 0

@[elab_as_elim]
theorem induct {motive : Tree n → Prop} (atom : ∀ t, t.isAtom = true → motive t)
    (pair : ∀ t u, motive t → motive u → motive (.pair t u)) (t : Tree n) : motive t := by
  induction t with
  | pair t u iht ihu => exact pair t u iht ihu
  | _ => exact atom _ rfl

def list : List (Tree n) → Tree n
  | [] => nil
  | t :: ts => pair t (list ts)

end Tree

inductive Denotes (p : Pool n) : Ref n → Tree n → Prop
  | nil : Denotes p ylnil .nil
  | atom {r : Ref n} {o : Obj n} (ho : p.obj r = o) (hatom : o.isAtom = true)
      (hfixed : o.isFixed = true) (hne : r ≠ ylnil) : Denotes p r (.atom o)
  | ref {r : Ref n} (hfixed : (p.obj r).isFixed = false) : Denotes p r (.ref r)
  | pair {r x y : Ref n} {t u : Tree n} (ho : p.obj r = .pair (.at x) (.at y))
      (hx : Denotes p x t) (hy : Denotes p y u) : Denotes p r (.pair t u)

/-- Names with their values, the last binding first. -/
abbrev Locals (n : ℕ) := List (List UInt8 × Tree n)

/-- The bindings of an association list. A symbol of `names` is bound as a macro. -/
inductive Env (p : Pool n) (names : Set (List UInt8)) :
    Ref n → Locals n → Prop
  | nil : Env p names ylnil []
  | cons {a b r key w v : Ref n} {d : Ptr n} {s : List UInt8} {t : Tree n}
      {ρ : Locals n} (ha : p.obj a = .pair (.at b) (.at r))
      (hb : p.obj b = .pair (.at key) (.at w)) (hkey : p.obj key = .sym s)
      (hmac : s ∈ names → kindOf p key = symMac) (hw : p.obj w = .pair (.at v) d)
      (hv : Denotes p v t) (h : Env p names r ρ) : Env p names a ((s, t) :: ρ)

def KindsOk (names : Set (List UInt8)) (p : Pool n) : Prop :=
  ∀ r s, p.Valid r → p.obj r = .sym s → s ∉ names → kindOf p r ≠ symMac

def SameAt (p q : Pool n) (r : Ref n) : Prop :=
  ((p.obj r).isFixed = true → q.obj r = p.obj r) ∧
    ((p.obj r).isFixed = false → (q.obj r).isFixed = false)

section Denotes

variable {p q : Pool n} {r x : Ref n} {t u : Tree n} {S : Ref n → Prop}
  {names : Set (List UInt8)} {ρ : Locals n}

theorem denotes_sym {s : List UInt8} (ho : p.obj r = .sym s) : Denotes p r (.sym s) := by
  refine .atom ho rfl rfl ?_
  rintro rfl
  cases ho

theorem isAtom_of_isFixed {o : Obj n} (h : o.isFixed = false) : o.isAtom = true := by
  cases o <;> first | rfl | cases h

theorem Denotes.isAtom (h : Denotes p r t) : (p.obj r).isAtom = t.isAtom := by
  cases h with
  | nil => rfl
  | atom ho hatom => rw [ho, hatom]; rfl
  | ref hfixed => exact isAtom_of_isFixed hfixed
  | pair ho => rw [ho]; rfl

theorem Denotes.eq_ylnil_iff (h : Denotes p r t) : r = ylnil ↔ t = .nil := by
  cases h with
  | nil => simp
  | atom ho _ _ hne => simp [hne]
  | ref hfixed =>
      simp only [reduceCtorEq, iff_false]
      rintro rfl
      cases hfixed
  | pair ho => simp [ne_ylnil_of_pair ho]

theorem Denotes.unique (h : Denotes p r t) (h' : Denotes p r u) : t = u := by
  induction h generalizing u with
  | nil =>
      cases h' with
      | nil => rfl
      | atom _ _ _ hne => exact absurd rfl hne
      | ref hfixed => cases hfixed
      | pair ho => cases ho
  | atom ho hatom hfixed hne =>
      cases h' with
      | nil => exact absurd rfl hne
      | atom ho' => rw [ho.symm.trans ho']
      | ref hfixed' => rw [ho, hfixed] at hfixed'; cases hfixed'
      | pair ho' => rw [ho.symm.trans ho'] at hatom; cases hatom
  | ref hfixed =>
      cases h' with
      | nil => cases hfixed
      | atom ho _ hfixed' => rw [ho, hfixed'] at hfixed; cases hfixed
      | ref => rfl
      | pair ho => rw [ho] at hfixed; cases hfixed
  | pair ho _ _ ihx ihy =>
      cases h' with
      | nil => cases ho
      | atom ho' hatom => rw [← ho', ho] at hatom; cases hatom
      | ref hfixed => rw [ho] at hfixed; cases hfixed
      | pair ho' hx hy =>
          rw [ho] at ho'
          cases ho'
          rw [ihx hx, ihy hy]

/-- Where elements are the same along pairs, so is what they denote. -/
theorem Denotes.transfer (h : Denotes p r t) (hr : S r)
    (hclosed : ∀ x y, S x → p.Link x y → S y) (hsame : ∀ x, S x → SameAt p q x) :
    Denotes q r t := by
  induction h with
  | nil => exact .nil
  | atom ho hatom hfixed hne =>
      exact .atom (((hsame _ hr).1 (by rw [ho, hfixed])).trans ho) hatom hfixed hne
  | ref hfixed => exact .ref ((hsame _ hr).2 hfixed)
  | pair ho _ _ ihx ihy =>
      have ho' := (hsame _ hr).1 (by rw [ho]; rfl)
      exact .pair (ho'.trans ho) (ihx (hclosed _ _ hr ⟨_, _, ho, Or.inl rfl⟩))
        (ihy (hclosed _ _ hr ⟨_, _, ho, Or.inr rfl⟩))

theorem Env.transfer (h : Env p names r ρ) (hr : S r)
    (hclosed : ∀ x y, S x → p.Link x y → S y) (hsame : ∀ x, S x → SameAt p q x)
    (hmac : ∀ x, S x → kindOf p x = symMac → kindOf q x = symMac) : Env q names r ρ := by
  induction h with
  | nil => exact .nil
  | cons ha hb hkey hkind hw hv _ ih =>
      have hSb := hclosed _ _ hr ⟨_, _, ha, Or.inl rfl⟩
      have hSkey := hclosed _ _ hSb ⟨_, _, hb, Or.inl rfl⟩
      have hSw := hclosed _ _ hSb ⟨_, _, hb, Or.inr rfl⟩
      have hSv := hclosed _ _ hSw ⟨_, _, hw, Or.inl rfl⟩
      refine .cons (((hsame _ hr).1 (by rw [ha]; rfl)).trans ha)
        (((hsame _ hSb).1 (by rw [hb]; rfl)).trans hb)
        (((hsame _ hSkey).1 (by rw [hkey]; rfl)).trans hkey)
        (fun hs => hmac _ hSkey (hkind hs))
        (((hsame _ hSw).1 (by rw [hw]; rfl)).trans hw)
        (hv.transfer hSv hclosed hsame) (ih (hclosed _ _ hr ⟨_, _, ha, Or.inr rfl⟩))

theorem pair_of_clean {o : Obj n} (h : Pool.Clean o) : ∃ d, o = .pair .null d := by
  cases o with
  | pair car cdr =>
      cases car with
      | null => exact ⟨cdr, rfl⟩
      | _ => exact h.elim
  | _ => exact h.elim

theorem Denotes.valid (h : Denotes p r t) (hp : p.Wf) : p.Valid r := by
  cases r with
  | stat s => trivial
  | blk b =>
      by_contra hb
      obtain ⟨d, hfree⟩ := pair_of_clean (hp.free b hb)
      have hobj : p.obj (.blk b) = .pair .null d := hfree
      cases h with
      | atom ho hatom =>
          rw [← ho, hobj] at hatom
          cases hatom
      | ref hfixed =>
          rw [hobj] at hfixed
          cases hfixed
      | pair ho =>
          rw [hobj] at ho
          cases ho

end Denotes

/-! ### What an evaluation preserves -/

/-- The element can be reached from a root, so that no collection takes it away. -/
def Safe (p : Pool n) (r : Ref n) : Prop :=
  ∃ x ∈ p.roots, p.Valid x ∧ Marking.Reach p.succ x r

structure Preserves (p q : Pool n) (d : ℕ) : Prop where
  bbs : q.bbs = p.bbs
  cxtl : q.cxtl = p.cxtl
  gsym : q.gsym = p.gsym
  valid : ∀ r, Safe p r → q.Valid r
  same : ∀ r, Safe p r → SameAt p q r
  refs : ∀ r, Safe p r → q.succ r = p.succ r
  mac : ∀ r, Safe p r → kindOf p r = symMac → kindOf q r = symMac
  room : p.m.fbi ≤ q.m.fbi + d

section Preserves

variable {p q s : Pool n} {r x y : Ref n} {d d' : ℕ} {t : Tree n} {bs : List (Ref n)}
  {names : Set (List UInt8)} {ρ : Locals n}

theorem Safe.succ (h : Safe p x) (hy : y ∈ p.succ x) : Safe p y := by
  obtain ⟨z, hz, hv, hr⟩ := h
  exact ⟨z, hz, hv, hr.tail hy⟩

theorem Safe.link (h : Safe p x) (hy : p.Link x y) : Safe p y := h.succ hy.mem_succ

theorem Safe.live (h : Safe p r) : p.Live r := by
  obtain ⟨x, hx, -, hr⟩ := h
  exact ⟨x, hx, hr⟩

theorem Safe.valid (h : Safe p r) (hp : p.Good) : p.Valid r := by
  obtain ⟨x, -, hv, hr⟩ := h
  induction hr with
  | refl => exact hv
  | tail _ hy ih => exact hp.valid_of_mem_succ ih hy

theorem Safe.of_held (h : p.Held bs r) (hbs : bs ⊆ p.bbs) : Safe p r := by
  obtain ⟨x, hx, hv, hr⟩ := h
  have hsafe : Safe p x := ⟨x, Pool.mem_roots.2 (Or.inl (hbs hx)), hv, .refl⟩
  induction hr with
  | refl => exact hsafe
  | tail _ hl ih => exact ih.link hl

theorem Safe.of_tables (hp : p.Good) (hr : r ∈ p.tables) : Safe p r :=
  ⟨r, Pool.mem_roots.2 (Or.inr hr), hp.tables r hr, .refl⟩

theorem Preserves.refl (hp : p.Good) : Preserves p p 0 :=
  ⟨rfl, rfl, rfl, fun _ h => h.valid hp, fun _ _ => ⟨fun _ => rfl, id⟩, fun _ _ => rfl,
    fun _ _ => id, le_rfl⟩

theorem Preserves.roots (h : Preserves p q d) : q.roots = p.roots := by
  rw [Pool.roots, Pool.roots, h.bbs, h.cxtl, h.gsym]

theorem Safe.preserved (hr : Safe p r) (h : Preserves p q d) : Safe q r := by
  obtain ⟨x, hx, hv, hr⟩ := hr
  refine ⟨x, by rwa [h.roots], h.valid x ⟨x, hx, hv, .refl⟩, ?_⟩
  induction hr with
  | refl => exact .refl
  | @tail y z hxy hyz ih =>
      refine ih.tail ?_
      show z ∈ q.succ y
      rw [h.refs y ⟨x, hx, hv, hxy⟩]
      exact hyz

theorem Preserves.trans (h : Preserves p q d) (h' : Preserves q s d') :
    Preserves p s (d + d') where
  bbs := h'.bbs.trans h.bbs
  cxtl := h'.cxtl.trans h.cxtl
  gsym := h'.gsym.trans h.gsym
  valid := fun r hr => h'.valid r (hr.preserved h)
  same := by
    intro r hr
    obtain ⟨hfix, hvar⟩ := h.same r hr
    obtain ⟨hfix', hvar'⟩ := h'.same r (hr.preserved h)
    refine ⟨fun hf => ?_, fun hf => hvar' (hvar hf)⟩
    rw [hfix' (by rw [hfix hf, hf]), hfix hf]
  refs := fun r hr => (h'.refs r (hr.preserved h)).trans (h.refs r hr)
  mac := fun r hr hk => h'.mac r (hr.preserved h) (h.mac r hr hk)
  room := by
    have h₁ := h.room
    have h₂ := h'.room
    omega

theorem Preserves.mono (h : Preserves p q d) (hd : d ≤ d') : Preserves p q d' :=
  { h with room := by have := h.room; omega }

theorem Preserves.frame {l l' : List (Ref n)} (h : Preserves { p with bbs := l ++ p.bbs } q d)
    (hl : l' = p.bbs) : Preserves p { q with bbs := l' } d := by
  have hsafe : ∀ r, Safe p r → Safe { p with bbs := l ++ p.bbs } r := by
    rintro r ⟨x, hx, hv, hr⟩
    refine ⟨x, ?_, hv, hr⟩
    rcases Pool.mem_roots.1 hx with hx | hx
    · exact Pool.mem_roots.2 (Or.inl (List.mem_append_right _ hx))
    · exact Pool.mem_roots.2 (Or.inr hx)
  exact ⟨hl, h.cxtl, h.gsym, fun r hr => h.valid r (hsafe r hr), fun r hr => h.same r (hsafe r hr),
    fun r hr => h.refs r (hsafe r hr), fun r hr => h.mac r (hsafe r hr), h.room⟩

theorem Preserves.gc (hp : p.Good) : Preserves p (Mempool.gc p) 0 := by
  have hused : ∀ b, Safe p (.blk b) → (Mempool.gc p).m.Used b := fun b hb =>
    (gc_used_iff hp.wf b).2 ⟨hb.valid hp, hb.live⟩
  refine ⟨gc_bbs p, gc_cxtl hp.wf, gc_gsym hp.wf, fun r hr => ?_, fun r hr => ?_, fun r hr => ?_,
    fun r hr hk => ?_, Nat.le_add_right_of_le (fbi_le_gc hp.wf)⟩
  · cases r with
    | stat s => trivial
    | blk b => exact hused b hr
  · cases r with
    | stat s => exact ⟨fun _ => rfl, id⟩
    | blk b =>
        rcases gc_kept hp.wf (hused b hr) with heq | ⟨fd, ho, heq⟩
        · exact ⟨fun _ => heq, fun hf => (congrArg Obj.isFixed heq).trans hf⟩
        · refine ⟨fun hf => ?_, fun _ => congrArg Obj.isFixed heq⟩
          rw [show p.obj (.blk b) = .fraw fd from ho] at hf
          cases hf
  · cases r with
    | stat s => rfl
    | blk b => exact (gc_kept hp.wf (hused b hr)).refs_eq
  · cases r with
    | stat s => exact (congrFun (gc_statSt p) s).trans hk
    | blk b => exact (gc_st hp.wf (hused b hr)).trans hk

theorem Denotes.preserved (ht : Denotes p r t) (hr : Safe p r) (h : Preserves p q d) :
    Denotes q r t := ht.transfer hr (fun _ _ hx hl => hx.link hl) h.same

theorem Env.preserved (hρ : Env p names r ρ) (hr : Safe p r) (h : Preserves p q d) :
    Env q names r ρ := hρ.transfer hr (fun _ _ hx hl => hx.link hl) h.same h.mac

end Preserves

end Lang

end Ylisp
