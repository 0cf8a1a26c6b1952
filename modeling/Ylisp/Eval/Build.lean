import Ylisp.Eval.HeapSpec

/-!
# What the heap functions build

A pool is `Filled` from another one when new blocks have been taken and every block
that was in use is as it was. With enough room the functions below return, and the
lists that they read and build are described by their elements and by the blocks that
they are made of: `Listing` for a list, `Alist` for an association list.
-/

namespace Ylisp

namespace Eval

open Mempool Effect

variable {n : ℕ}

structure Filled (p q : Pool n) (d : ℕ) : Prop where
  wf : q.m.Wf
  used : ∀ b, p.m.Used b → q.m.Used b
  blk : ∀ b, p.m.Used b → q.blk b = p.blk b
  room : q.m.fbi + d = p.m.fbi

/-- A list of the elements `us`, on blocks in `N`. -/
inductive Listing (p : Pool n) (N : Fin n → Prop) : Ref n → List (Ref n) → Prop
  | nil : Listing p N ylnil []
  | cons {b : Fin n} {u d : Ref n} {us : List (Ref n)} (hb : N b)
      (ho : (p.blk b).obj = .pair (.at u) (.at d)) (h : Listing p N d us) :
      Listing p N (.blk b) (u :: us)

def Entry (p : Pool n) (N : Fin n → Prop) (z : Ref n) (w : Ref n × Ref n) : Prop :=
  ∃ b b' d, z = .blk b ∧ N b ∧ N b' ∧ (p.blk b).obj = .pair (.at w.1) (.at (.blk b')) ∧
    (p.blk b').obj = .pair (.at w.2) (.at d)

inductive Alist (p : Pool n) (N : Fin n → Prop) (y : Ref n) :
    Ref n → List (Ref n × Ref n) → Prop
  | nil : Alist p N y y []
  | cons {b : Fin n} {z l : Ref n} {w : Ref n × Ref n} {ps : List (Ref n × Ref n)} (hb : N b)
      (ho : (p.blk b).obj = .pair (.at z) (.at l)) (hz : Entry p N z w)
      (h : Alist p N y l ps) : Alist p N y (.blk b) (w :: ps)

/-- The block has been taken between `p` and `q`. -/
def Taken (p q : Pool n) (b : Fin n) : Prop := ¬ p.m.Used b ∧ q.m.Used b

def sameAtom (c : Etcxt n) (p : Pool n) (u x : Ref n) : Bool :=
  u = x || ((p.obj u).isAtom && atomEq c p u x)

section Filled

variable {p q s : Pool n} {d d' : ℕ} {x : Ref n}

theorem Filled.refl (hp : p.m.Wf) : Filled p p 0 := ⟨hp, fun _ h => h, fun _ _ => rfl, rfl⟩

theorem Filled.trans (h : Filled p q d) (h' : Filled q s d') : Filled p s (d + d') where
  wf := h'.wf
  used := fun b hb => h'.used b (h.used b hb)
  blk := fun b hb => (h'.blk b (h.used b hb)).trans (h.blk b hb)
  room := by
    have h₁ := h.room
    have h₂ := h'.room
    omega

theorem Taken.mono {p' q' : Pool n} {b : Fin n} (h : Taken p q b)
    (hp : ∀ b, p'.m.Used b → p.m.Used b) (hq : ∀ b, q.m.Used b → q'.m.Used b) : Taken p' q' b :=
  ⟨fun hb => h.1 (hp b hb), hq b h.2⟩

theorem Filled.obj (h : Filled p q d) (hx : p.Valid x) : q.obj x = p.obj x := by
  cases x with
  | stat s => rfl
  | blk b => exact congrArg Yle.obj (h.blk b hx)

theorem Filled.valid (h : Filled p q d) (hx : p.Valid x) : q.Valid x := by
  cases x with
  | stat s => trivial
  | blk b => exact h.used b hx

end Filled

section Frame

variable {p q : Pool n} {N N' : Fin n → Prop} {x y l z : Ref n} {w : Ref n × Ref n}
  {ps : List (Ref n × Ref n)} {us : List (Ref n)}

/-- What is built on blocks that are left alone stays. -/
theorem Listing.frame (h : Listing p N x us) (hN : ∀ b, N b → N' b)
    (hobj : ∀ b, N b → (q.blk b).obj = (p.blk b).obj) : Listing q N' x us := by
  induction h with
  | nil => exact .nil
  | cons hb ho _ ih => exact .cons (hN _ hb) ((hobj _ hb).trans ho) ih

theorem Listing.ne_ylnil (h : Listing p N x us) (hne : us ≠ []) :
    x ≠ ylnil := by
  cases h with
  | nil => exact absurd rfl hne
  | cons => exact nofun

theorem Listing.unique {vs : List (Ref n)} (h : Listing p N x us) (h' : Listing p N' x vs) :
    us = vs := by
  induction h generalizing vs with
  | nil =>
      cases h'
      rfl
  | cons _ ho _ ih =>
      cases h' with
      | cons _ ho' hrest =>
          rw [ho] at ho'
          cases ho'
          rw [ih hrest]

theorem Listing.behind {b : Fin n} {vs : List (Ref n)} (h : Listing p N x us)
    (hb : Listing p N (.blk b) vs) (hlen : us.length < vs.length) :
    Listing p (fun b' => N b' ∧ b' ≠ b) x us := by
  induction h with
  | nil => exact .nil
  | @cons b' u d us hb' ho hrest ih =>
      have hne : b' ≠ b := by
        rintro rfl
        rw [hb.unique (.cons hb' ho hrest)] at hlen
        exact Nat.lt_irrefl _ hlen
      exact .cons ⟨hb', hne⟩ ho (ih (Nat.lt_of_succ_lt hlen))

theorem Entry.frame (h : Entry p N z w) (hN : ∀ b, N b → N' b)
    (hobj : ∀ b, N b → (q.blk b).obj = (p.blk b).obj) : Entry q N' z w := by
  obtain ⟨b, b', d, rfl, hb, hb', ho, ho'⟩ := h
  exact ⟨b, b', d, rfl, hN b hb, hN b' hb', (hobj b hb).trans ho, (hobj b' hb').trans ho'⟩

theorem Alist.frame (h : Alist p N y l ps) (hN : ∀ b, N b → N' b)
    (hobj : ∀ b, N b → (q.blk b).obj = (p.blk b).obj) : Alist q N' y l ps := by
  induction h with
  | nil => exact .nil
  | cons hb ho hz _ ih => exact .cons (hN _ hb) ((hobj _ hb).trans ho) (hz.frame hN hobj) ih

theorem Alist.mono (h : Alist p N y l ps) (hN : ∀ b, N b → N' b) : Alist p N' y l ps :=
  h.frame hN fun _ _ => rfl

theorem Listing.filled {s : Pool n} {d : ℕ} (h : Listing q q.m.Used x us) (hqs : Filled q s d) :
    Listing s s.m.Used x us :=
  h.frame hqs.used fun b hb => congrArg Yle.obj (hqs.blk b hb)

theorem Entry.filled {s : Pool n} {d : ℕ} (h : Entry q (Taken p q) z w) (hqs : Filled q s d) :
    Entry s (Taken p s) z w :=
  h.frame (fun b hb => ⟨hb.1, hqs.used b hb.2⟩) fun b hb => congrArg Yle.obj (hqs.blk b hb.2)

theorem Alist.filled {s : Pool n} {d : ℕ} (h : Alist q (Taken p q) y l ps)
    (hqs : Filled q s d) : Alist s (Taken p s) y l ps :=
  h.frame (fun b hb => ⟨hb.1, hqs.used b hb.2⟩) fun b hb => congrArg Yle.obj (hqs.blk b hb.2)

theorem valid_of_pair {e a d : Ref n} (hp : p.Good) (he : p.Valid e)
    (ho : p.obj e = .pair (.at a) (.at d)) : p.Valid a ∧ p.Valid d :=
  ⟨hp.valid_of_mem_succ he (Pool.Link.mem_succ ⟨_, _, ho, Or.inl rfl⟩),
    hp.valid_of_mem_succ he (Pool.Link.mem_succ ⟨_, _, ho, Or.inr rfl⟩)⟩

theorem Listing.valid (h : Listing p p.m.Used x us) (hp : p.Good) : ∀ u ∈ us, p.Valid u := by
  induction h with
  | nil => exact nofun
  | @cons b u d us hb ho _ ih =>
      exact List.forall_mem_cons.2 ⟨(valid_of_pair (e := .blk b) hp hb ho).1, ih⟩

end Frame

section Runs

variable {p q : Pool n} {N : Fin n → Prop}

theorem runs_create (hp : p.m.Wf) (hroom : 0 < p.m.fbi) (o : Obj n) :
    Runs (create o) p fun r q =>
      Filled p q 1 ∧ ∃ b, r = .blk b ∧ ¬ p.m.Used b ∧ q.m.Used b ∧ (q.blk b).obj = o := by
  have hget : ∃ b m, mbtGet p.m = (some b, m) := by
    unfold mbtGet
    rw [dif_neg (Nat.not_le.2 hroom)]
    exact ⟨_, _, rfl⟩
  obtain ⟨b, m, hget⟩ := hget
  have hused := mbtGet_used hp hget
  have hnew := mbtGet_not_used hp hget
  obtain ⟨-, -, -, -, -, hfbi⟩ := mbtGet_some hget
  have hrun : create o p = .ok (.blk b) ({ p with
      m := m
      blk := Function.update p.blk b Yle.clean }.setBlk b ⟨false, 0, o⟩) := by
    simp only [create, ylmpBlock, hget]
  refine Runs.of_ok hrun ⟨⟨mbtGet_wf hp hget, fun x hx => (hused x).2 (Or.inl hx), ?_, ?_⟩,
    b, rfl, hnew, (hused b).2 (Or.inr rfl), Pool.obj_setBlk_self _ b _⟩
  · intro x hx
    have hxb : x ≠ b := by
      rintro rfl
      exact hnew hx
    rw [Pool.setBlk_of_ne _ _ hxb]
    exact Function.update_of_ne hxb _ _
  · show m.fbi + 1 = p.m.fbi
    omega

theorem runs_ylcons (hp : p.m.Wf) (hroom : 0 < p.m.fbi) (a d : Ref n) :
    Runs (ylcons a d) p fun r q => Filled p q 1 ∧
      ∃ b, r = .blk b ∧ ¬ p.m.Used b ∧ q.m.Used b ∧ (q.blk b).obj = .pair (.at a) (.at d) :=
  runs_create hp hroom _

theorem runs_yllist (hp : p.m.Wf) (hroom : 2 ≤ p.m.fbi) (e1 e2 : Ref n) :
    Runs (yllist e1 e2) p fun r q =>
      Filled p q 2 ∧ Entry q (Taken p q) r (e1, e2) ∧ q.Valid r := by
  refine (runs_ylcons hp (by omega) e2 ylnil).bind ?_
  rintro _ q ⟨hpq, b', rfl, hb', hused', ho'⟩
  have hq := hpq.room
  refine (runs_ylcons hpq.wf (by omega) e1 (.blk b')).mono ?_
  rintro _ s ⟨hqs, b, rfl, hb, hused, ho⟩
  refine ⟨hpq.trans hqs, ⟨b, b', ylnil, rfl, ⟨?_, hused⟩, ⟨hb', hqs.used b' hused'⟩, ho, ?_⟩, hused⟩
  · exact fun h => hb (hpq.used b h)
  · rw [hqs.blk b' hused', ho']

theorem yleisAtom_pair {e : Ref n} {a d : Ptr n} (ho : p.obj e = .pair a d) :
    yleisAtom e p = .ok false p := by
  rw [yleisAtom, ho]
  rfl

theorem ne_ylnil_of_pair {e : Ref n} {a d : Ptr n} (ho : p.obj e = .pair a d) : e ≠ ylnil := by
  rintro rfl
  cases ho

theorem runs_ylpair {x y : Ref n} {us vs : List (Ref n)} {k : ℕ} (hq : q.m.Wf)
    (hus : Listing q q.m.Used x us) (hvs : Listing q q.m.Used y vs)
    (hlen : us.length = vs.length) (hk : us.length < k) (hroom : 3 * us.length ≤ q.m.fbi) :
    Runs (ylpair k x y) q fun l s =>
      Filled q s (3 * us.length) ∧ Alist s (Taken q s) ylnil l (us.zip vs) := by
  induction us generalizing q x y vs k with
  | nil =>
      cases hus
      obtain rfl : vs = [] := List.length_eq_zero_iff.1 hlen.symm
      cases hvs
      cases k with
      | zero => exact absurd hk (Nat.not_lt_zero _)
      | succ k =>
          rw [ylpair, if_pos ⟨rfl, rfl⟩]
          exact Runs.pure ⟨Filled.refl hq, .nil⟩
  | cons u us ih =>
      cases hvs with
      | nil => cases hlen
      | @cons c v y' vs hc hyo hvs =>
          cases hus with
          | @cons b _ x' _ hb hxo hus =>
              cases k with
              | zero => exact absurd hk (Nat.not_lt_zero _)
              | succ k =>
                  rw [List.length_cons] at hk hroom
                  have hx : q.obj (.blk b) = .pair (.at u) (.at x') := hxo
                  have hy : q.obj (.blk c) = .pair (.at v) (.at y') := hyo
                  rw [ylpair, if_neg fun h => ne_ylnil_of_pair hx h.1]
                  refine Runs.ok_bind (yleisAtom_pair hx) (Runs.ok_bind (yleisAtom_pair hy) ?_)
                  refine Runs.ok_bind (ylcar_pair hx) (Runs.ok_bind (ylcar_pair hy) ?_)
                  refine (runs_yllist hq (by omega) u v).bind ?_
                  rintro z q₁ ⟨hq₁, hz, -⟩
                  have hroom₁ := hq₁.room
                  refine Runs.ok_bind (ylcdr_pair ((hq₁.obj (x := .blk b) hb).trans hx))
                    (Runs.ok_bind (ylcdr_pair ((hq₁.obj (x := .blk c) hc).trans hy)) ?_)
                  refine (ih hq₁.wf (hus.filled hq₁) (hvs.filled hq₁) (Nat.succ.inj hlen)
                    (by omega) (by omega)).bind ?_
                  rintro l q₂ ⟨hq₂, hl⟩
                  have hroom₂ := hq₂.room
                  refine (runs_ylcons hq₂.wf (by omega) z l).mono ?_
                  rintro _ s ⟨hs, b', rfl, hb', hused, ho⟩
                  have hqs := hq₁.trans (hq₂.trans hs)
                  have htaken : Taken q s b' := ⟨fun h => hb' (hq₂.used b' (hq₁.used b' h)), hused⟩
                  have hzs := hz.filled (hq₂.trans hs)
                  have hls := (hl.filled hs).mono fun x hx => hx.mono hq₁.used fun _ h => h
                  refine ⟨?_, .cons htaken ho hzs hls⟩
                  have heq : 2 + (3 * us.length + 1) = 3 * (us.length + 1) := by omega
                  rw [List.length_cons, ← heq]
                  exact hqs

/-- The pairs of an association list in front of `y` are copied. -/
theorem runs_ylappend {x y : Ref n} {ps : List (Ref n × Ref n)} {d k : ℕ} (hpq : Filled p q d)
    (hx : Alist q (Taken p q) ylnil x ps) (hk : ps.length < k) (hroom : ps.length ≤ q.m.fbi) :
    Runs (ylappend k x y) q fun l s =>
      Filled q s ps.length ∧ Alist s (Taken p s) y l ps := by
  induction hx generalizing k with
  | nil =>
      cases k with
      | zero => exact absurd hk (Nat.not_lt_zero _)
      | succ k => exact Runs.pure ⟨Filled.refl hpq.wf, .nil⟩
  | @cons b z l w ps hb ho hz hl ih =>
      cases k with
      | zero => exact absurd hk (Nat.not_lt_zero _)
      | succ k =>
          rw [List.length_cons] at hk hroom
          have ho' : q.obj (.blk b) = .pair (.at z) (.at l) := ho
          refine Runs.ok_bind (ylcar_pair ho') (Runs.ok_bind (ylcdr_pair ho') ?_)
          refine (ih (by omega) (by omega)).bind ?_
          rintro l' q₁ ⟨hq₁, hl'⟩
          have hroom₁ := hq₁.room
          refine (runs_ylcons hq₁.wf (by omega) z l').mono ?_
          rintro _ s ⟨hs, c, rfl, hc, hused, hoc⟩
          have hqs := hq₁.trans hs
          have hnew : ¬ p.m.Used c := fun h => hc (hq₁.used c (hpq.used c h))
          exact ⟨hqs, .cons ⟨hnew, hused⟩ hoc (hz.filled hqs) (hl'.filled hs)⟩

end Runs

section Compare

variable {q : Pool n} {u x : Ref n}

theorem ylcadar_eq (e : Ref n) : ylcadar e = ylcar e >>= ylcadr := bind_assoc _ _ _

theorem yleq_atom (c : Etcxt n) (k : ℕ) (u : Ref n) (hx : (q.obj x).isAtom = true) :
    yleq c (k + 1) u x q = .ok (ylb2e (sameAtom c q u x)) q := by
  rw [yleq]
  by_cases hux : u = x
  · rw [if_pos hux, sameAtom, decide_eq_true hux, Bool.true_or]
    rfl
  · have hx' : yleisAtom x q = .ok true q := by rw [yleisAtom, hx]
    rw [if_neg hux, bind_of_ok (show yleisAtom u q = .ok (q.obj u).isAtom q from rfl),
      bind_of_ok hx', sameAtom, decide_eq_false hux, Bool.false_or]
    cases (q.obj u).isAtom <;> rfl

theorem ylb2e_ne_ylnil {b : Bool} : (ylb2e b : Ref n) ≠ ylnil ↔ b = true := by
  cases b <;> simp [ylb2e, ylt, ylnil]

/-- A symbol is equal to the symbols of its name. -/
theorem sameAtom_sym {c : Etcxt n} {nm : List UInt8} (hx : q.obj x = .sym nm) :
    sameAtom c q u x = true ↔ q.obj u = .sym nm := by
  rw [sameAtom, Bool.or_eq_true, decide_eq_true_iff, Bool.and_eq_true]
  constructor
  · rintro (rfl | ⟨hatom, heq⟩)
    · exact hx
    · rw [atomEq, hx] at heq
      cases hu : q.obj u with
      | sym nm' =>
          rw [hu] at heq
          rw [of_decide_eq_true heq]
      | _ =>
          rw [hu] at heq
          cases heq
  · intro hu
    right
    rw [atomEq, hu, hx]
    exact ⟨rfl, decide_eq_true rfl⟩

end Compare

end Eval

end Ylisp
