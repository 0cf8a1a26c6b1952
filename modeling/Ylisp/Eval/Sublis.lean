import Mathlib.Data.List.Find
import Ylisp.Eval.Build
import Ylisp.Eval.Clone
import Ylisp.Eval.Local

/-!
# Substitution by mlambda

`_evlf_mlambda` copies the body of the form and replaces its atoms in place, by what
`_list_find` finds for them on the list of the parameters and arguments. `ylsublis` is the
substitution of the report that the source quotes, which builds its result.

An `Sexpr` is what an expression is unfolded to, down to its atoms. `Built` describes new
pairs that make up such a tree, over leaves that may be any elements: the replaced atoms are
not entered.
-/

namespace Ylisp

namespace Eval

open Mempool Effect

variable {n : ℕ}

def ylsub2 (c : Etcxt n) : ℕ → Ref n → Ref n → Hp n (Ref n)
  | 0, _, _ => stuck
  | k + 1, x, z => do
      if x = ylnil then pure z
      else
        let eq ← yleq c k (← ylcaar x) z
        if eq ≠ ylnil then ylcadar x else ylsub2 c k (← ylcdr x) z

def ylsublis (c : Etcxt n) : ℕ → Ref n → Ref n → Hp n (Ref n)
  | 0, _, _ => stuck
  | k + 1, x, y => do
      if ← yleisAtom y then ylsub2 c k x y
      else
        let car ← ylsublis c k x (← ylcar y)
        let cdr ← ylsublis c k x (← ylcdr y)
        ylcons car cdr

inductive Sexpr (n : ℕ) where
  | leaf (r : Ref n)
  | pair (t u : Sexpr n)

namespace Sexpr

def pairs : Sexpr n → ℕ
  | leaf _ => 0
  | pair t u => t.pairs + u.pairs + 1

def leaves : Sexpr n → List (Ref n)
  | leaf r => [r]
  | pair t u => t.leaves ++ u.leaves

/-- The elements at the leaves are replaced at once. -/
def map (f : Ref n → Ref n) : Sexpr n → Sexpr n
  | leaf r => leaf (f r)
  | pair t u => pair (t.map f) (u.map f)

end Sexpr

inductive Unfolds (p : Pool n) : Ref n → Sexpr n → Prop
  | leaf {e : Ref n} (he : (p.obj e).isAtom = true) : Unfolds p e (.leaf e)
  | pair {e x y : Ref n} {t u : Sexpr n} (ho : p.obj e = .pair (.at x) (.at y))
      (hx : Unfolds p x t) (hy : Unfolds p y u) : Unfolds p e (.pair t u)

/-- The pairs of the blocks `bs` make up the tree, in the order car before cdr. -/
inductive Built (p : Pool n) : List (Fin n) → Ref n → Sexpr n → Prop
  | leaf {r : Ref n} : Built p [] r (.leaf r)
  | pair {b : Fin n} {bs cs : List (Fin n)} {x y : Ref n} {t u : Sexpr n}
      (ho : (p.blk b).obj = .pair (.at x) (.at y)) (hx : Built p bs x t) (hy : Built p cs y u) :
      Built p (b :: (bs ++ cs)) (.blk b) (.pair t u)

/-- The tree is made of pairs that share no block, all of them taken between `p` and `q`. -/
def Fresh (p q : Pool n) (r : Ref n) (t : Sexpr n) : Prop :=
  ∃ bs, Built q bs r t ∧ bs.Nodup ∧ ∀ b ∈ bs, Taken p q b

/-- What is substituted for an atom: the argument of the first parameter that it is equal to. -/
def substituted (c : Etcxt n) (p : Pool n) (ps : List (Ref n × Ref n)) (x : Ref n) : Ref n :=
  ((ps.find? fun w => sameAtom c p w.1 x).map Prod.snd).getD x

/-- The `eq` callbacks of atoms compare what the two elements refer to. -/
def Etcxt.EqLocal (c : Etcxt n) : Prop :=
  ∀ (p q : Pool n) (x y : Ref n), p.Good → p.Valid x → p.Valid y →
    (∀ b, p.m.Used b → q.blk b = p.blk b) → c.eq q x y = c.eq p x y

section Sexpr

variable {p q : Pool n} {bs : List (Fin n)} {e r : Ref n} {t : Sexpr n} {d : ℕ}

theorem Unfolds.leaves (h : Unfolds p e t) (hp : p.Good) (he : p.Valid e) :
    ∀ r ∈ t.leaves, p.Valid r ∧ (p.obj r).isAtom = true := by
  induction h with
  | leaf hatom =>
      intro r hr
      rw [List.mem_singleton.1 hr]
      exact ⟨he, hatom⟩
  | pair ho _ _ ihx ihy =>
      obtain ⟨hx, hy⟩ := valid_of_pair hp he ho
      intro r hr
      rcases List.mem_append.1 hr with hr | hr
      · exact ihx hx r hr
      · exact ihy hy r hr

theorem Built.frame (h : Built p bs r t) (hbs : ∀ b ∈ bs, (q.blk b).obj = (p.blk b).obj) :
    Built q bs r t := by
  induction h with
  | leaf => exact .leaf
  | pair ho _ _ ihx ihy =>
      obtain ⟨hb, hcs⟩ := List.forall_mem_cons.1 hbs
      obtain ⟨hxs, hys⟩ := List.forall_mem_append.1 hcs
      exact .pair (hb.trans ho) (ihx hxs) (ihy hys)

theorem Fresh.leaf (p : Pool n) (r : Ref n) : Fresh p p r (.leaf r) :=
  ⟨[], .leaf, List.nodup_nil, nofun⟩

theorem Fresh.pair {q₁ q₂ s : Pool n} {d₁ d₂ : ℕ} {b : Fin n} {x y : Ref n} {u : Sexpr n}
    (hq₁ : Filled q q₁ d₁) (hq₂ : Filled q₁ q₂ d₂) (hs : Filled q₂ s 1) (hx : Fresh q q₁ x t)
    (hy : Fresh q₁ q₂ y u) (hb : ¬ q₂.m.Used b) (hused : s.m.Used b)
    (ho : (s.blk b).obj = .pair (.at x) (.at y)) : Fresh q s (.blk b) (.pair t u) := by
  obtain ⟨bs, hbs, hnbs, hnew₁⟩ := hx
  obtain ⟨cs, hcs, hncs, hnew₂⟩ := hy
  have hbs' : Built s bs x t := hbs.frame fun z hz =>
    congrArg Yle.obj ((hq₂.trans hs).blk z (hnew₁ z hz).2)
  have hcs' : Built s cs y u := hcs.frame fun z hz => congrArg Yle.obj (hs.blk z (hnew₂ z hz).2)
  have hdisj : bs.Disjoint cs := fun z hz hz' => (hnew₂ z hz').1 (hnew₁ z hz).2
  have hnb : b ∉ bs ++ cs := by
    intro h
    rcases List.mem_append.1 h with h | h
    · exact hb (hq₂.used b (hnew₁ b h).2)
    · exact hb (hnew₂ b h).2
  refine ⟨b :: (bs ++ cs), .pair ho hbs' hcs',
    List.nodup_cons.2 ⟨hnb, List.nodup_append'.2 ⟨hnbs, hncs, hdisj⟩⟩, fun z hz => ?_⟩
  rcases List.mem_cons.1 hz with rfl | hz
  · exact ⟨fun h => hb (hq₂.used z (hq₁.used z h)), hused⟩
  · rcases List.mem_append.1 hz with hz | hz
    · exact (hnew₁ z hz).mono (fun _ h => h) (hq₂.trans hs).used
    · exact (hnew₂ z hz).mono hq₁.used hs.used

/-- A copy of an expression that is unfolded in `p`, made later. -/
theorem runs_listClone {k : ℕ} (hp : p.Good) (hpq : Filled p q d) (he : p.Valid e)
    (h : Unfolds p e t) (hk : t.pairs < k) (hroom : t.pairs ≤ q.m.fbi) :
    Runs (listClone k e) q fun r s => Filled q s t.pairs ∧ Fresh q s r t := by
  induction h generalizing q d k with
  | @leaf e hatom =>
      cases k with
      | zero => exact absurd hk (Nat.not_lt_zero _)
      | succ k =>
          have hq : yleisAtom e q = .ok true q := by rw [yleisAtom, hpq.obj he, hatom]
          exact Runs.ok_bind hq
            (Runs.pure ⟨Filled.refl hpq.wf, Fresh.leaf q e⟩)
  | @pair e x y t u ho _ _ ihx ihy =>
      cases k with
      | zero => exact absurd hk (Nat.not_lt_zero _)
      | succ k =>
          rw [Sexpr.pairs] at hk hroom
          obtain ⟨hx, hy⟩ := valid_of_pair hp he ho
          have hq := (hpq.obj he).trans ho
          refine Runs.ok_bind (yleisAtom_pair hq) ?_
          have hcar : ylpcar e q = .ok x q := by simp only [ylpcar, hq]
          refine Runs.ok_bind hcar ?_
          refine (ihx hpq hx (by omega) (by omega)).bind ?_
          rintro car q₁ ⟨hq₁, hcar'⟩
          have hroom₁ := hq₁.room
          have hpq₁ := hpq.trans hq₁
          have hcdr : ylpcdr e q₁ = .ok y q₁ := by simp only [ylpcdr, (hpq₁.obj he).trans ho]
          refine Runs.ok_bind hcdr ?_
          refine (ihy hpq₁ hy (by omega) (by omega)).bind ?_
          rintro cdr q₂ ⟨hq₂, hcdr'⟩
          have hroom₂ := hq₂.room
          refine (runs_ylcons hq₂.wf (by omega) car cdr).mono ?_
          rintro _ s ⟨hs, b, rfl, hb, hused, hob⟩
          exact ⟨hq₁.trans (hq₂.trans hs), Fresh.pair hq₁ hq₂ hs hcar' hcdr' hb hused hob⟩

end Sexpr

section Find

variable {c : Etcxt n} {p q : Pool n} {N : Fin n → Prop} {u x z l : Ref n} {w : Ref n × Ref n}
  {ps : List (Ref n × Ref n)} {k : ℕ}

theorem Entry.yleisAtom (h : Entry q N z w) : yleisAtom z q = .ok false q := by
  obtain ⟨b, b', d, rfl, -, -, ho, -⟩ := h
  exact yleisAtom_pair ho

theorem Entry.ylcar (h : Entry q N z w) : ylcar z q = .ok w.1 q := by
  obtain ⟨b, b', d, rfl, -, -, ho, -⟩ := h
  exact ylcar_pair ho

theorem Entry.ylcadr (h : Entry q N z w) : ylcadr z q = .ok w.2 q := by
  obtain ⟨b, b', d, rfl, -, -, ho, ho'⟩ := h
  have hcdr : ylcdr (.blk b) q = .ok (.blk b') q := ylcdr_pair ho
  have hcar : Eval.ylcar (.blk b') q = .ok w.2 q := ylcar_pair ho'
  rw [Eval.ylcadr, bind_of_ok hcdr, hcar]

/-- `_list_find` finds the first entry whose key is equal to the atom. -/
theorem runs_listFind (hx : (q.obj x).isAtom = true) (hl : Alist q N ylnil l ps)
    (hk : ps.length < k) :
    Runs (listFind c k x l) q fun r s => s = q ∧
      match ps.find? fun w => sameAtom c q w.1 x with
      | none => r = none
      | some w => ∃ z, r = some z ∧ ylcadr z q = .ok w.2 q := by
  induction hl generalizing k with
  | nil =>
      cases k with
      | zero => exact absurd hk (Nat.not_lt_zero _)
      | succ k => exact Runs.pure ⟨rfl, rfl⟩
  | @cons b z l w ps _ ho hz _ ih =>
      cases k with
      | zero => exact absurd hk (Nat.not_lt_zero _)
      | succ k =>
          rw [List.length_cons] at hk
          have ho' : q.obj (.blk b) = .pair (.at z) (.at l) := ho
          have hcaar : ylcaar (.blk b) q = .ok w.1 q := (bind_of_ok (ylcar_pair ho')).trans hz.ylcar
          obtain ⟨k, rfl⟩ : ∃ m, k = m + 1 := ⟨k - 1, by omega⟩
          refine Runs.ok_bind (yleisAtom_pair ho') (Runs.ok_bind (ylcar_pair ho') ?_)
          refine Runs.ok_bind hz.yleisAtom (Runs.ok_bind hcaar ?_)
          refine Runs.ok_bind (yleq_atom c k w.1 hx) ?_
          rw [List.find?_cons]
          cases hsame : sameAtom c q w.1 x with
          | true =>
              rw [if_pos (ylb2e_ne_ylnil.2 rfl)]
              exact Runs.ok_bind (ylcar_pair ho') (Runs.pure ⟨rfl, z, rfl, hz.ylcadr⟩)
          | false =>
              rw [if_neg fun h => absurd (ylb2e_ne_ylnil.1 h) Bool.false_ne_true]
              exact Runs.ok_bind (ylcdr_pair ho') (ih (by omega))

theorem runs_ylsub2 (hx : (q.obj x).isAtom = true) (hl : Alist q N ylnil l ps)
    (hk : ps.length < k) :
    Runs (ylsub2 c k l x) q fun r s => s = q ∧ r = substituted c q ps x := by
  induction hl generalizing k with
  | nil =>
      cases k with
      | zero => exact absurd hk (Nat.not_lt_zero _)
      | succ k => exact Runs.pure ⟨rfl, rfl⟩
  | @cons b z l w ps _ ho hz _ ih =>
      cases k with
      | zero => exact absurd hk (Nat.not_lt_zero _)
      | succ k =>
          rw [List.length_cons] at hk
          have ho' : q.obj (.blk b) = .pair (.at z) (.at l) := ho
          have hcar : ylcar (.blk b) q = .ok z q := ylcar_pair ho'
          obtain ⟨k, rfl⟩ : ∃ m, k = m + 1 := ⟨k - 1, by omega⟩
          rw [ylsub2, if_neg (ne_ylnil_of_pair ho')]
          refine Runs.ok_bind ((bind_of_ok hcar).trans hz.ylcar)
            (Runs.ok_bind (yleq_atom c k w.1 hx) ?_)
          rw [substituted, List.find?_cons]
          cases hsame : sameAtom c q w.1 x with
          | true =>
              rw [if_pos (ylb2e_ne_ylnil.2 rfl)]
              rw [ylcadar_eq]
              exact Runs.of_ok ((bind_of_ok hcar).trans hz.ylcadr) ⟨rfl, rfl⟩
          | false =>
              rw [if_neg fun h => absurd (ylb2e_ne_ylnil.1 h) Bool.false_ne_true]
              exact Runs.ok_bind (ylcdr_pair ho') (ih (by omega))

/-- The comparisons with the elements of a pool stay as they are. -/
theorem substituted_congr (hc : c.EqLocal) (hp : p.Good)
    (hkept : ∀ b, p.m.Used b → q.blk b = p.blk b) (hps : ∀ w ∈ ps, p.Valid w.1)
    (hx : p.Valid x) : substituted c q ps x = substituted c p ps x := by
  have hobj : ∀ r, p.Valid r → q.obj r = p.obj r := by
    intro r hr
    cases r with
    | stat s => rfl
    | blk b => exact congrArg Yle.obj (hkept b hr)
  have hsame : ∀ w ∈ ps, sameAtom c q w.1 x = sameAtom c p w.1 x := by
    intro w hw
    rw [sameAtom, sameAtom, atomEq, atomEq, hobj _ (hps w hw), hobj x hx,
      hc p q w.1 x hp (hps w hw) hx hkept]
  rw [substituted, substituted, List.find?_congr hsame]

end Find

/-- Pairs of the blocks `bs` are assigned to. -/
structure Rewritten (bs : List (Fin n)) (q s : Pool n) : Prop where
  m : s.m = q.m
  blk : ∀ b, b ∉ bs → s.blk b = q.blk b

section Replace

variable {c : Etcxt n} {p q : Pool n} {N : Fin n → Prop} {x y l e : Ref n} {b : Fin n}
  {bs : List (Fin n)} {ps : List (Ref n × Ref n)} {t : Sexpr n} {k : ℕ}

theorem rewritten_setBlk (q : Pool n) (b : Fin n) (z : Yle n) :
    Rewritten (b :: bs) q (q.setBlk b z) :=
  ⟨rfl, fun _ hx => Pool.setBlk_of_ne q z (List.ne_of_not_mem_cons hx)⟩

theorem Rewritten.mono {cs : List (Fin n)} {s : Pool n} (h : Rewritten bs q s) (hbs : bs ⊆ cs) :
    Rewritten cs q s := ⟨h.m, fun b hb => h.blk b fun hb' => hb (hbs hb')⟩

theorem Rewritten.trans {s s' : Pool n} (h : Rewritten bs q s) (h' : Rewritten bs s s') :
    Rewritten bs q s' := ⟨h'.m.trans h.m, fun b hb => (h'.blk b hb).trans (h.blk b hb)⟩

theorem Built.rewritten {s : Pool n} {cs : List (Fin n)} (h : Built q bs x t)
    (hs : Rewritten (b :: cs) q s) (hb : b ∉ bs) (hdisj : bs.Disjoint cs) : Built s bs x t := by
  refine h.frame fun z hz => congrArg Yle.obj (hs.blk z fun hmem => ?_)
  rcases List.mem_cons.1 hmem with rfl | hmem
  · exact hb hz
  · exact hdisj hz hmem

/-- What `_mreplace` relies on while it rewrites the pairs of `bs`: the blocks of `p` and the
association list are elsewhere. -/
structure Rewriting (p q : Pool n) (bs : List (Fin n)) (N : Fin n → Prop) (l : Ref n)
    (ps : List (Ref n × Ref n)) : Prop where
  kept : ∀ b, p.m.Used b → q.blk b = p.blk b
  free : ∀ b ∈ bs, ¬ p.m.Used b
  list : Alist q N ylnil l ps
  apart : ∀ b ∈ bs, ¬ N b

theorem Rewriting.step {s : Pool n} (h : Rewriting p q bs N l ps) (hs : Rewritten bs q s) :
    Rewriting p s bs N l ps where
  kept := fun b hb => (hs.blk b fun hbs => h.free b hbs hb).trans (h.kept b hb)
  free := h.free
  list := h.list.frame (fun _ hb => hb) fun b hb =>
    congrArg Yle.obj (hs.blk b fun hbs => h.apart b hbs hb)
  apart := h.apart

theorem Rewriting.sub {cs : List (Fin n)} (h : Rewriting p q bs N l ps) (hcs : cs ⊆ bs) :
    Rewriting p q cs N l ps :=
  ⟨h.kept, fun b hb => h.free b (hcs hb), h.list, fun b hb => h.apart b (hcs hb)⟩

theorem Rewriting.obj (h : Rewriting p q bs N l ps) {r : Ref n} (hr : p.Valid r) :
    q.obj r = p.obj r := by
  cases r with
  | stat s => rfl
  | blk b => exact congrArg Yle.obj (h.kept b hr)

theorem get_pair {side : Side} (ho : (q.blk b).obj = side.pair x y) :
    side.get (.blk b) q = .ok x q := by
  cases side with
  | car => exact ylcar_pair ho
  | cdr => exact ylcdr_pair ho

/-- One half of `_mreplace`. The pairs below are rewritten when they are entered. -/
theorem runs_mreplaceSide (hc : c.EqLocal) (hp : p.Good) (hps : ∀ w ∈ ps, p.Valid w.1)
    (enter : Ref n → Hp n Bool) {side : Side} (h : Rewriting p q (b :: bs) N l ps)
    (ho : (q.blk b).obj = side.pair x y) (hx : Built q bs x t) (hb : b ∉ bs)
    (hleaf : ∀ r ∈ t.leaves, p.Valid r ∧ (p.obj r).isAtom = true) (hk : ps.length < k)
    (henter : ∀ t₁ t₂, t = .pair t₁ t₂ → Runs (enter x) q fun ok s =>
      ok = true ∧ Rewritten bs q s ∧ Built s bs x (t.map (substituted c p ps))) :
    Runs (mreplaceSide c k enter side (.blk b) l) q fun ok s => ok = true ∧
      Rewritten (b :: bs) q s ∧ ∃ x', (s.blk b).obj = side.pair x' y ∧
        Built s bs x' (t.map (substituted c p ps)) := by
  refine Runs.ok_bind (get_pair ho) ?_
  cases hx with
  | leaf =>
      obtain ⟨hvalid, hatom⟩ := hleaf x (List.mem_singleton.2 rfl)
      have hq : (q.obj x).isAtom = true := by rw [h.obj hvalid, hatom]
      refine Runs.ok_bind (show yleisAtom x q = .ok true q by rw [yleisAtom, hq]) ?_
      refine (runs_listFind hq h.list hk).bind ?_
      rintro r s ⟨rfl, hr⟩
      rw [Sexpr.map, ← substituted_congr hc hp h.kept hps hvalid, substituted]
      split at hr
      next hfind =>
        subst hr
        rw [hfind]
        exact Runs.pure ⟨rfl, ⟨rfl, fun _ _ => rfl⟩, x, ho, .leaf⟩
      next w hfind =>
        obtain ⟨z, rfl, hz⟩ := hr
        rw [hfind]
        refine Runs.ok_bind hz (Runs.ok_bind (ylpset_pair ho) (Runs.pure ⟨rfl, ?_, w.2, ?_, .leaf⟩))
        · exact rewritten_setBlk s b _
        · exact Pool.obj_setBlk_self s b _
  | @pair b' bs₁ bs₂ x₁ x₂ t₁ t₂ ho' hx₁ hx₂ =>
      have ho'' : q.obj (.blk b') = .pair (.at x₁) (.at x₂) := ho'
      refine Runs.ok_bind (yleisAtom_pair ho'') ((henter t₁ t₂ rfl).mono ?_)
      rintro ok s ⟨hok, hs, hbuilt⟩
      refine ⟨hok, hs.mono (List.subset_cons_self _ _), _, ?_, hbuilt⟩
      rw [hs.blk b hb, ho]

theorem runs_mreplace (hc : c.EqLocal) (hp : p.Good) (hps : ∀ w ∈ ps, p.Valid w.1)
    (h : Rewriting p q bs N l ps) (he : Built q bs e t) (hpair : t.pairs ≠ 0) (hnodup : bs.Nodup)
    (hleaf : ∀ r ∈ t.leaves, p.Valid r ∧ (p.obj r).isAtom = true)
    (hk : t.pairs + ps.length < k) :
    Runs (mreplace c k e l) q fun ok s =>
      ok = true ∧ Rewritten bs q s ∧ Built s bs e (t.map (substituted c p ps)) := by
  induction t generalizing q e bs k with
  | leaf r => exact absurd rfl hpair
  | pair t u iht ihu =>
      cases k with
      | zero => exact absurd hk (Nat.not_lt_zero _)
      | succ k =>
          cases he with
          | @pair b bs cs x y _ _ ho hx hy =>
              rw [Sexpr.pairs] at hk
              obtain ⟨hb, hnodup⟩ := List.nodup_cons.1 hnodup
              obtain ⟨hnbs, hncs, hdisj⟩ := List.nodup_append'.1 hnodup
              obtain ⟨hbbs, hbcs⟩ := not_or.1 fun hmem => hb (List.mem_append.2 hmem)
              obtain ⟨hlt, hlu⟩ := List.forall_mem_append.1 hleaf
              have hleft : b :: bs ⊆ b :: (bs ++ cs) :=
                List.cons_subset_cons b (List.subset_append_left bs cs)
              have hright : b :: cs ⊆ b :: (bs ++ cs) :=
                List.cons_subset_cons b (List.subset_append_right bs cs)
              have ho' : q.obj (.blk b) = .pair (.at x) (.at y) := ho
              refine Runs.ok_bind (yleisAtom_pair ho') ?_
              rw [if_neg Bool.false_ne_true]
              have hlen : ps.length < k := by omega
              have hkt : t.pairs + ps.length < k := by omega
              have hku : u.pairs + ps.length < k := by omega
              have hcar : (q.blk b).obj = Side.car.pair x y := ho
              have hbs := (h.sub hleft).sub (List.subset_cons_self b bs)
              refine (runs_mreplaceSide hc hp hps (fun x => mreplace c k x l) (h.sub hleft) hcar hx
                hbbs hlt hlen fun t₁ t₂ ht =>
                  iht hbs hx (by rw [ht]; exact nofun) hnbs hlt hkt).bind ?_
              rintro ok q₁ ⟨rfl, hq₁, x', ho₁, hx'⟩
              have h₁ := h.step (hq₁.mono hleft)
              have hcdr : (q₁.blk b).obj = Side.cdr.pair y x' := ho₁
              have hy₁ := hy.rewritten hq₁ hbcs hdisj.symm
              have hcs := (h₁.sub hright).sub (List.subset_cons_self b cs)
              refine (runs_mreplaceSide hc hp hps (fun x => mreplace c k x l) (h₁.sub hright) hcdr
                hy₁ hbcs hlu hlen fun t₁ t₂ ht =>
                  ihu hcs hy₁ (by rw [ht]; exact nofun) hncs hlu hku).mono ?_
              rintro ok s ⟨rfl, hs, y', ho₂, hy'⟩
              exact ⟨rfl, (hq₁.mono hleft).trans (hs.mono hright),
                .pair ho₂ (hx'.rewritten hs hbbs hdisj) hy'⟩

theorem runs_ylsublis {d : ℕ} (hc : c.EqLocal) (hp : p.Good) (hps : ∀ w ∈ ps, p.Valid w.1)
    (hpq : Filled p q d) (hl : Alist q (Taken p q) ylnil l ps) (hy : p.Valid y)
    (h : Unfolds p y t) (hk : t.pairs + ps.length + 1 < k) (hroom : t.pairs ≤ q.m.fbi) :
    Runs (ylsublis c k l y) q fun r s =>
      Filled q s t.pairs ∧ Fresh q s r (t.map (substituted c p ps)) := by
  induction h generalizing q d k with
  | @leaf y hatom =>
      cases k with
      | zero => exact absurd hk (Nat.not_lt_zero _)
      | succ k =>
          have hq : (q.obj y).isAtom = true := by rw [hpq.obj hy, hatom]
          refine Runs.ok_bind (show yleisAtom y q = .ok true q by rw [yleisAtom, hq]) ?_
          rw [Sexpr.pairs] at hk
          refine (runs_ylsub2 hq hl (by omega)).mono ?_
          rintro r s ⟨rfl, rfl⟩
          rw [substituted_congr hc hp hpq.blk hps hy]
          exact ⟨Filled.refl hpq.wf, Fresh.leaf s _⟩
  | @pair y x₁ x₂ t u ho _ _ ih₁ ih₂ =>
      cases k with
      | zero => exact absurd hk (Nat.not_lt_zero _)
      | succ k =>
          rw [Sexpr.pairs] at hk hroom
          obtain ⟨hx₁, hx₂⟩ := valid_of_pair hp hy ho
          have hq := (hpq.obj hy).trans ho
          refine Runs.ok_bind (yleisAtom_pair hq) (Runs.ok_bind (ylcar_pair hq) ?_)
          refine (ih₁ hpq hl hx₁ (by omega) (by omega)).bind ?_
          rintro car q₁ ⟨hq₁, hcar⟩
          have hroom₁ := hq₁.room
          have hpq₁ := hpq.trans hq₁
          refine Runs.ok_bind (ylcdr_pair ((hpq₁.obj hy).trans ho)) ?_
          refine (ih₂ hpq₁ (hl.filled hq₁) hx₂ (by omega) (by omega)).bind ?_
          rintro cdr q₂ ⟨hq₂, hcdr⟩
          have hroom₂ := hq₂.room
          refine (runs_ylcons hq₂.wf (by omega) car cdr).mono ?_
          rintro _ s ⟨hs, b, rfl, hb, hused, hob⟩
          exact ⟨hq₁.trans (hq₂.trans hs), Fresh.pair hq₁ hq₂ hs hcar hcdr hb hused hob⟩

end Replace

/-- A mlambda form with the parameters `us`, the body `t`, which is a pair, and as many
arguments `vs`. -/
structure Mlambda (p : Pool n) (e params body args : Ref n) (us vs : List (Ref n))
    (t : Sexpr n) : Prop where
  valid : p.Valid e
  cadar : ylcadar e p = .ok params p
  caddar : ylcaddar e p = .ok body p
  cdr : ylcdr e p = .ok args p
  listing : Listing p p.m.Used params us
  arguments : Listing p p.m.Used args vs
  length : us.length = vs.length
  ne_nil : params ≠ ylnil
  unfolds : Unfolds p body t
  pairs : t.pairs ≠ 0

/-- `_evlf_mlambda` clones the body and replaces the atoms in the clone. -/
theorem runs_evlfMlambda {c : Etcxt n} {p : Pool n} {e params body args : Ref n}
    {us vs : List (Ref n)} {t : Sexpr n} {k : ℕ} (hc : c.EqLocal) (hp : p.Good)
    (h : Mlambda p e params body args us vs t) (a : Ref n)
    (hroom : t.pairs + 4 * us.length ≤ p.m.fbi) (hk : t.pairs + us.length + 1 < k) :
    Runs (evlfMlambda c k e a) p fun g q => ∃ exp, g = ⟨[], .eval exp a⟩ ∧
      (∀ b, p.m.Used b → q.blk b = p.blk b) ∧
      Fresh p q exp (t.map (substituted c p (us.zip vs))) := by
  have hbody := hp.valid_of_path h.valid ((follows_ylcaddar p e).of_read_ok h.caddar).2
  have hps : ∀ w ∈ us.zip vs, p.Valid w.1 := fun w hw =>
    h.listing.valid hp w.1 (List.of_mem_zip hw).1
  have hlen : (us.zip vs).length = us.length := by rw [List.length_zip, h.length, min_self]
  refine Runs.ok_bind h.cadar (Runs.ok_bind h.caddar ?_)
  rw [if_neg fun hnil => h.ne_nil hnil.1]
  -- the clone
  refine (runs_listClone hp (Filled.refl hp.wf.m) hbody h.unfolds (by omega) (by omega)).bind ?_
  rintro exp p₁ ⟨hp₁, bs, hbs, hnodup, htaken⟩
  have hroom₁ := hp₁.room
  obtain ⟨-, d, ho⟩ := ylcdr_ok h.cdr
  -- the association list
  refine Runs.ok_bind (ylcdr_pair ((hp₁.obj h.valid).trans ho)) ?_
  refine (runs_ylpair hp₁.wf (h.listing.filled hp₁) (h.arguments.filled hp₁) h.length (by omega)
    (by omega)).bind ?_
  rintro l₂ p₂ ⟨hp₂, hl₂⟩
  have hroom₂ := hp₂.room
  refine (runs_ylappend (y := ylnil) hp₂ hl₂ (by omega) (by omega)).bind ?_
  rintro l₃ p₃ ⟨hp₃, hl₃⟩
  have hp₁₃ := hp₂.trans hp₃
  -- the replacement
  have hrewriting : Rewriting p p₃ bs (Taken p₁ p₃) l₃ (us.zip vs) :=
    ⟨(hp₁.trans hp₁₃).blk, fun b hb => (htaken b hb).1, hl₃, fun b hb h => h.1 (htaken b hb).2⟩
  have hbs₃ : Built p₃ bs exp t := hbs.frame fun b hb =>
    congrArg Yle.obj (hp₁₃.blk b (htaken b hb).2)
  refine (runs_mreplace hc hp hps hrewriting hbs₃ h.pairs hnodup (h.unfolds.leaves hp hbody)
    (by omega)).bind ?_
  rintro ok s ⟨rfl, hs, hexp⟩
  refine Runs.pure ⟨exp, rfl, (hrewriting.step hs).kept, bs, hexp, hnodup, fun b hb => ?_⟩
  refine ⟨(htaken b hb).1, ?_⟩
  rw [hs.m]
  exact hp₁₃.used b (htaken b hb).2

/-- `_evlf_mlambda` evaluates the expression that `ylsublis` builds, on new pairs: in the body,
each atom that is equal to a parameter is replaced by the argument. The pairs that were there
are left as they are. -/
theorem evlfMlambda_ylsublis {c : Etcxt n} {p : Pool n} {e params body args : Ref n}
    {us vs : List (Ref n)} {t : Sexpr n} {k : ℕ} (hc : c.EqLocal) (hp : p.Good)
    (h : Mlambda p e params body args us vs t) (a : Ref n)
    (hroom : t.pairs + 4 * us.length ≤ p.m.fbi) (hk : t.pairs + us.length + 1 < k) :
    ∃ exp q, evlfMlambda c k e a p = .ok ⟨[], .eval exp a⟩ q ∧
      (∀ b, p.m.Used b → q.blk b = p.blk b) ∧
      ∃ l q₁ r q₂, ylpair k params args p = .ok l q₁ ∧ ylsublis c k l body q₁ = .ok r q₂ ∧
        Fresh p q exp (t.map (substituted c p (us.zip vs))) ∧
        Fresh q₁ q₂ r (t.map (substituted c p (us.zip vs))) := by
  have hbody := hp.valid_of_path h.valid ((follows_ylcaddar p e).of_read_ok h.caddar).2
  have hps : ∀ w ∈ us.zip vs, p.Valid w.1 := fun w hw =>
    h.listing.valid hp w.1 (List.of_mem_zip hw).1
  have hlen : (us.zip vs).length = us.length := by rw [List.length_zip, h.length, min_self]
  obtain ⟨l, q₁, hpair, hq₁, hl⟩ := runs_ylpair (k := k) hp.wf.m h.listing h.arguments h.length
    (by omega) (by omega)
  have hroom₁ := hq₁.room
  obtain ⟨r, q₂, hsublis, -, hr⟩ := runs_ylsublis (k := k) hc hp hps hq₁ hl hbody h.unfolds
    (by omega) (by omega)
  obtain ⟨_, q, hrun, exp, rfl, hkept, hexp⟩ := runs_evlfMlambda hc hp h a hroom hk
  exact ⟨exp, q, hrun, hkept, l, q₁, r, q₂, hpair, hsublis, hexp, hr⟩

/-- A pool with `((mlambda (x) (x x)) (x x))`, whose body is the argument, and its rest the list
of the parameters. -/
def mlambdaPool : Pool 18 :=
  poolOf 18
    [.pair (.at (.blk 1)) (.at (.blk 8)), .pair (.at (.blk 2)) (.at (.blk 3)),
      .sym (cstr "mlambda"), .pair (.at (.blk 4)) (.at (.blk 6)), .pair (.at (.blk 5)) (.at ylnil),
      .sym (cstr "x"), .pair (.at (.blk 7)) (.at ylnil), .pair (.at (.blk 5)) (.at (.blk 4)),
      .pair (.at (.blk 7)) (.at ylnil)]
    (symtab [])

theorem evlfMlambda_ylsublis_shared :
    let c := plainCxt 18 false
    let t : Sexpr 18 := .pair (.leaf (.blk 5)) (.pair (.leaf (.blk 5)) (.leaf ylnil))
    ∃ exp q, evlfMlambda c 5 (.blk 0) ylnil mlambdaPool = .ok ⟨[], .eval exp ylnil⟩ q ∧
      (∀ b, mlambdaPool.m.Used b → q.blk b = mlambdaPool.blk b) ∧
      ∃ l q₁ r q₂, ylpair 5 (.blk 4) (.blk 8) mlambdaPool = .ok l q₁ ∧
        ylsublis c 5 l (.blk 7) q₁ = .ok r q₂ ∧
        Fresh mlambdaPool q exp (t.map (substituted c mlambdaPool [(.blk 5, .blk 7)])) ∧
        Fresh q₁ q₂ r (t.map (substituted c mlambdaPool [(.blk 5, .blk 7)])) := by
  intro c t
  have hgood : mlambdaPool.Good :=
    poolOf_good (by decide) (by simp [plain, below, ylnil]) (by simp)
  have hused : ∀ b : Fin 18, b.val < 9 → mlambdaPool.m.Used b := fun b hb =>
    (poolOf_used (n := 18) (by decide) b (symtab [])).2 hb
  have hbody : Unfolds mlambdaPool (.blk 7) t :=
    .pair rfl (.leaf rfl) (.pair rfl (.leaf rfl) (.leaf rfl))
  have hform : Mlambda mlambdaPool (.blk 0) (.blk 4) (.blk 7) (.blk 8) [.blk 5] [.blk 7] t :=
    ⟨hused 0 (by decide), rfl, rfl, rfl, .cons (hused 4 (by decide)) rfl .nil,
      .cons (hused 8 (by decide)) rfl .nil, rfl, by simp [ylnil], hbody, Nat.succ_ne_zero _⟩
  exact evlfMlambda_ylsublis (fun _ _ _ _ _ _ _ _ => rfl) hgood hform ylnil (by decide) (by decide)

end Eval

end Ylisp
