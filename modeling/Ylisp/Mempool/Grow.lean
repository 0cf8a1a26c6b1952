import Ylisp.Mempool.GcSpec

/-!
# Pools between two collections

`Valid` elements are no free blocks. A pool is `Wired` when its used blocks and
its symbol tables refer to valid elements only, and `Good` when moreover the pairs
in use are filled. `Grown p q` says what every
function but the pair assignments does: used blocks stay in use, and the pairs
among them stay as they are. So whatever pairs lead to in `p` they lead to in
`q` (`Held.grown`), and a collection keeps what pairs lead to from a base block
(`Held.gc`).
-/

namespace Ylisp

namespace Mempool

variable {n : ℕ}

def Obj.isFixed : Obj n → Bool
  | .fraw _ | .procia _ | .map _ | .arr _ => false
  | _ => true

namespace Pool

def Valid (p : Pool n) : Ref n → Prop
  | .stat _ => True
  | .blk b => p.m.Used b

def tables (p : Pool n) : List (Ref n) :=
  (p.cxtl ++ [p.gsym]).flatMap fun t => t.values.filterMap Value.e

structure Wired (p : Pool n) : Prop where
  wf : p.Wf
  refs : ∀ b, p.m.Used b → ∀ r ∈ (p.blk b).obj.refs, p.Valid r
  tables : ∀ r ∈ p.tables, p.Valid r

structure Good (p : Pool n) : Prop extends Wired p where
  full : ∀ b, p.m.Used b → (p.blk b).obj ≠ .pair .null .null

/-- A field of the pair `x` refers to `y`. -/
def Link (p : Pool n) (x y : Ref n) : Prop :=
  ∃ car cdr, p.obj x = .pair car cdr ∧ (car = .at y ∨ cdr = .at y)

def Held (p : Pool n) (bs : List (Ref n)) (r : Ref n) : Prop :=
  ∃ x ∈ bs, p.Valid x ∧ Relation.ReflTransGen p.Link x r

structure Grown (p q : Pool n) : Prop where
  used : ∀ b, p.m.Used b → q.m.Used b
  fixed : ∀ b, p.m.Used b → (p.blk b).obj.isFixed → (q.blk b).obj = (p.blk b).obj
  atom : ∀ b, p.m.Used b → (q.blk b).obj.isAtom = (p.blk b).obj.isAtom

variable {p q : Pool n} {bs : List (Ref n)} {r x y : Ref n}

theorem mem_roots : r ∈ p.roots ↔ r ∈ p.bbs ∨ r ∈ p.tables := by
  simp [roots, tables]

theorem not_link_stat {s : Static} : ¬ p.Link (.stat s) y := by
  rintro ⟨car, cdr, h, -⟩
  cases s <;> cases h

theorem Link.mem_succ (h : p.Link x y) : y ∈ p.succ x := by
  obtain ⟨car, cdr, hx, rfl | rfl⟩ := h <;> simp [succ, hx, Obj.refs, Ptr.refs]

theorem Good.valid_of_mem_succ (hp : p.Good) (hx : p.Valid x) (h : y ∈ p.succ x) :
    p.Valid y := by
  cases x with
  | stat s => simp [succ_stat] at h
  | blk b => exact hp.refs b hx y h

section Held

theorem Held.of_mem (h : r ∈ bs) (hr : p.Valid r) : p.Held bs r :=
  ⟨r, h, hr, Relation.ReflTransGen.refl⟩

theorem Held.mono {bs' : List (Ref n)} (h : p.Held bs r) (hbs : bs ⊆ bs') : p.Held bs' r := by
  obtain ⟨x, hx, hv, hr⟩ := h
  exact ⟨x, hbs hx, hv, hr⟩

theorem Good.valid_of_reach (hp : p.Good) (hx : p.Valid x)
    (h : Relation.ReflTransGen p.Link x r) : p.Valid r := by
  induction h with
  | refl => exact hx
  | tail _ hl ih => exact hp.valid_of_mem_succ ih hl.mem_succ

theorem Held.valid (h : p.Held bs r) (hp : p.Good) : p.Valid r := by
  obtain ⟨x, -, hv, hr⟩ := h
  exact hp.valid_of_reach hv hr

end Held

section Grown

theorem Grown.refl (p : Pool n) : p.Grown p :=
  ⟨fun _ h => h, fun _ _ _ => rfl, fun _ _ => rfl⟩

theorem Grown.trans {s : Pool n} (h : p.Grown q) (h' : q.Grown s) : p.Grown s where
  used := fun b hb => h'.used b (h.used b hb)
  fixed := by
    intro b hb hf
    have hq := h.fixed b hb hf
    rw [h'.fixed b (h.used b hb) (by rwa [hq]), hq]
  atom := fun b hb => (h'.atom b (h.used b hb)).trans (h.atom b hb)

theorem Grown.of_blk (hm : ∀ b, p.m.Used b → q.m.Used b)
    (hblk : ∀ b, p.m.Used b → (q.blk b).obj = (p.blk b).obj) : p.Grown q :=
  ⟨hm, fun b hb _ => hblk b hb, fun b hb => by rw [hblk b hb]⟩

theorem Valid.grown (hr : p.Valid r) (h : p.Grown q) : q.Valid r := by
  cases r with
  | stat s => trivial
  | blk b => exact h.used b hr

theorem Grown.isAtom (h : p.Grown q) (hr : p.Valid r) (hatom : (p.obj r).isAtom = true) :
    (q.obj r).isAtom = true := by
  cases r with
  | stat s => exact hatom
  | blk b => exact (h.atom b hr).trans hatom

theorem Link.grown (hl : p.Link x y) (hx : p.Valid x) (h : p.Grown q) : q.Link x y := by
  cases x with
  | stat s => exact (not_link_stat hl).elim
  | blk b =>
      obtain ⟨car, cdr, ho, hy⟩ := hl
      have ho' : (p.blk b).obj = .pair car cdr := ho
      have hq := h.fixed b hx (by rw [ho']; rfl)
      exact ⟨car, cdr, hq.trans ho', hy⟩

/-- Another pool keeps what pairs lead to if it keeps each field of a pair, or
pairs that lead to the same element. -/
theorem Held.lift (hr : p.Held bs r) (hp : p.Good) (hvalid : ∀ x, p.Valid x → q.Valid x)
    (hlink : ∀ x y, p.Valid x → p.Link x y → Relation.ReflTransGen q.Link x y) :
    q.Held bs r := by
  obtain ⟨x, hx, hv, hr⟩ := hr
  refine ⟨x, hx, hvalid x hv, ?_⟩
  induction hr with
  | refl => exact Relation.ReflTransGen.refl
  | tail hxy hl ih => exact ih.trans (hlink _ _ (hp.valid_of_reach hv hxy) hl)

theorem Held.grown (hr : p.Held bs r) (hp : p.Good) (h : p.Grown q) : q.Held bs r :=
  hr.lift hp (fun _ hv => hv.grown h) fun _ _ hv hl =>
    Relation.ReflTransGen.single (hl.grown hv h)

end Grown

section Update

/-- What a wired pool is made of, marks and sub types apart. -/
theorem Wired.congr (hp : p.Wired) (hm : q.m = p.m) (ho : ∀ b, (q.blk b).obj = (p.blk b).obj)
    (ht : ∀ r ∈ q.tables, p.Valid r) : q.Wired := by
  have hvalid : ∀ r, p.Valid r → q.Valid r := by
    intro r hr
    cases r with
    | stat s => trivial
    | blk b => exact (show q.m.Used b by rw [hm]; exact hr)
  have hfraw : ∀ r, p.IsFraw r → q.IsFraw r := by
    rintro r ⟨b, fd, rfl, hu, hobj⟩
    exact ⟨b, fd, rfl, by rwa [hm], by rw [ho, hobj]⟩
  refine ⟨⟨hm ▸ hp.wf.m, fun b hb => ?_, fun b hb => ?_⟩, fun b hb r hr => ?_, fun r hr => ?_⟩
  · rw [hm] at hb
    rw [ho]
    exact (hp.wf.used b hb).mono hfraw
  · rw [hm] at hb
    rw [ho]
    exact hp.wf.free b hb
  · rw [hm] at hb
    rw [ho] at hr
    exact hvalid r (hp.refs b hb r hr)
  · exact hvalid r (ht r hr)

theorem Good.congr (hp : p.Good) (hm : q.m = p.m) (ho : ∀ b, (q.blk b).obj = (p.blk b).obj)
    (ht : ∀ r ∈ q.tables, p.Valid r) : q.Good := by
  refine ⟨hp.toWired.congr hm ho ht, fun b hb => ?_⟩
  rw [hm] at hb
  rw [ho]
  exact hp.full b hb

/-- A used block that is no descriptor atom is given another content. -/
theorem Wired.setBlk (hp : p.Wired) {b : Fin n} {y : Yle n} (hb : p.m.Used b)
    (hfraw : ∀ fd, (p.blk b).obj ≠ .fraw fd) (hs : ∀ q : Pool n, q.Sound y.obj)
    (hr : ∀ r ∈ y.obj.refs, p.Valid r) : (p.setBlk b y).Wired := by
  have hblk : ∀ x, x ≠ b → (p.setBlk b y).blk x = p.blk x := fun _ hx => setBlk_of_ne p y hx
  have hself : (p.setBlk b y).blk b = y := setBlk_self p b y
  have hisFraw : ∀ r, p.IsFraw r → (p.setBlk b y).IsFraw r := by
    rintro r ⟨x, fd, rfl, hu, hobj⟩
    have hx : x ≠ b := by
      rintro rfl
      exact hfraw fd hobj
    exact ⟨x, fd, rfl, hu, by rw [hblk x hx, hobj]⟩
  refine ⟨⟨hp.wf.m, fun x hx => ?_, fun x hx => ?_⟩, fun x hx r hr' => ?_, hp.tables⟩
  · by_cases hxb : x = b
    · rw [hxb, hself]
      exact hs _
    · rw [hblk x hxb]
      exact (hp.wf.used x hx).mono hisFraw
  · have hxb : x ≠ b := by
      rintro rfl
      exact hx hb
    rw [hblk x hxb]
    exact hp.wf.free x hx
  · by_cases hxb : x = b
    · rw [hxb, hself] at hr'
      exact hr r hr'
    · rw [hblk x hxb] at hr'
      exact hp.refs x hx r hr'

/-- A block that is filled, while the other pairs are full. -/
theorem Wired.good_setBlk (hp : p.Wired) {b : Fin n} {y : Yle n} (hb : p.m.Used b)
    (hfull : ∀ x, p.m.Used x → x ≠ b → (p.blk x).obj ≠ .pair .null .null)
    (hfraw : ∀ fd, (p.blk b).obj ≠ .fraw fd) (hs : ∀ q : Pool n, q.Sound y.obj)
    (hr : ∀ r ∈ y.obj.refs, p.Valid r) (hy : y.obj ≠ .pair .null .null) :
    (p.setBlk b y).Good := by
  refine ⟨hp.setBlk hb hfraw hs hr, fun x hx => ?_⟩
  by_cases hxb : x = b
  · rw [hxb, obj_setBlk_self]
    exact hy
  · rw [obj_setBlk_of_ne p y hxb]
    exact hfull x hx hxb

theorem Wired.ylmpBlock (hp : p.Wired) {b : Fin n} (h : Mempool.ylmpBlock p = some (b, q)) :
    q.Wired ∧ (∀ x, q.m.Used x ↔ p.m.Used x ∨ x = b) ∧ ¬ p.m.Used b ∧
      (q.blk b).obj = .pair .null .null ∧ ∀ x, x ≠ b → q.blk x = p.blk x := by
  unfold Mempool.ylmpBlock at h
  split at h
  next => cases h
  next b' m hget =>
    obtain ⟨rfl, rfl⟩ := Prod.mk.inj (Option.some.inj h)
    have hused := mbtGet_used hp.wf.m hget
    have hnot := mbtGet_not_used hp.wf.m hget
    have hself : Function.update p.blk b' Yle.clean b' = Yle.clean :=
      Function.update_self _ _ _
    have hblk : ∀ x, x ≠ b' → Function.update p.blk b' Yle.clean x = p.blk x := fun x hx =>
      Function.update_of_ne hx _ _
    have hne : ∀ x, p.m.Used x → x ≠ b' := by
      rintro x hx rfl
      exact hnot hx
    have hgrown : p.Grown { p with m := m, blk := Function.update p.blk b' Yle.clean } := by
      refine Grown.of_blk (fun x hx => (hused x).2 (Or.inl hx)) fun x hx => ?_
      exact congrArg Yle.obj (hblk x (hne x hx))
    refine ⟨⟨⟨mbtGet_wf hp.wf.m hget, fun x hx => ?_, fun x hx => ?_⟩, fun x hx r hr => ?_,
      fun r hr => (hp.tables r hr).grown hgrown⟩, hused, hnot, congrArg Yle.obj hself, hblk⟩
    all_goals
      by_cases hxb : x = b'
    · subst hxb
      show Sound _ (Function.update p.blk x Yle.clean x).obj
      rw [hself]
      exact Or.inl ⟨rfl, rfl⟩
    · show Sound _ (Function.update p.blk b' Yle.clean x).obj
      rw [hblk x hxb]
      have hisFraw : ∀ r, p.IsFraw r →
          IsFraw { p with m := m, blk := Function.update p.blk b' Yle.clean } r := by
        rintro r ⟨z, fd, rfl, hu, hobj⟩
        refine ⟨z, fd, rfl, hgrown.used z hu, ?_⟩
        exact (congrArg Yle.obj (hblk z (hne z hu))).trans hobj
      exact (hp.wf.used x (((hused x).1 hx).resolve_right hxb)).mono hisFraw
    · exact absurd ((hused x).2 (Or.inr hxb)) hx
    · show Clean (Function.update p.blk b' Yle.clean x).obj
      rw [hblk x hxb]
      exact hp.wf.free x fun hpx => hx ((hused x).2 (Or.inl hpx))
    · subst hxb
      have hr' : r ∈ (Function.update p.blk x Yle.clean x).obj.refs := hr
      rw [hself] at hr'
      cases hr'
    · have hr' : r ∈ (Function.update p.blk b' Yle.clean x).obj.refs := hr
      rw [hblk x hxb] at hr'
      exact (hp.refs x (((hused x).1 hx).resolve_right hxb) r hr').grown hgrown

theorem Good.fill (hp : p.Good) {b : Fin n} {y : Yle n} (h : Mempool.ylmpBlock p = some (b, q))
    (hs : ∀ q : Pool n, q.Sound y.obj) (hr : ∀ r ∈ y.obj.refs, p.Valid r)
    (hy : y.obj ≠ .pair .null .null) :
    (q.setBlk b y).Good ∧ p.Grown (q.setBlk b y) ∧ ¬ p.m.Used b ∧ q.m.Used b := by
  obtain ⟨hq, hused, hnew, hobj, hblk⟩ := hp.toWired.ylmpBlock h
  have hne : ∀ x, p.m.Used x → x ≠ b := by
    rintro x hx rfl
    exact hnew hx
  have hsame : ∀ x, p.m.Used x → ((q.setBlk b y).blk x).obj = (p.blk x).obj := by
    intro x hx
    rw [obj_setBlk_of_ne q y (hne x hx), hblk x (hne x hx)]
  have hgrown : p.Grown (q.setBlk b y) := Grown.of_blk (fun x hx => (hused x).2 (Or.inl hx)) hsame
  refine ⟨hq.good_setBlk ((hused b).2 (Or.inr rfl)) (fun x hx hxb => ?_) (fun fd => ?_) hs ?_ hy,
    hgrown, hnew, (hused b).2 (Or.inr rfl)⟩
  · rw [hblk x hxb]
    exact hp.full x (((hused x).1 hx).resolve_right hxb)
  · rw [hobj]
    exact nofun
  · intro r h
    have hr' : (q.setBlk b y).Valid r := (hr r h).grown hgrown
    exact hr'

end Update

section Collect

theorem Good.gc (hp : p.Good) : (gc p).Good := by
  have hlive : ∀ r, p.Valid r → p.Live r → (Mempool.gc p).Valid r := by
    intro r hv hl
    cases r with
    | stat s => trivial
    | blk b => exact (gc_used_iff hp.wf b).2 ⟨hv, hl⟩
  refine ⟨⟨gc_wf hp.wf, fun b hb r hr => ?_, fun r hr => ?_⟩, fun b hb hnull => ?_⟩
  · obtain ⟨hu, hl⟩ := (gc_used_iff hp.wf b).1 hb
    rw [(gc_kept hp.wf hb).refs_eq] at hr
    exact hlive r (hp.refs b hu r hr) (hl.succ hr)
  · have hr' : r ∈ p.tables := by
      rwa [Pool.tables, gc_cxtl hp.wf, gc_gsym hp.wf] at hr
    exact hlive r (hp.tables r hr') ⟨r, mem_roots.2 (Or.inr hr'), Relation.ReflTransGen.refl⟩
  · rcases gc_kept hp.wf hb with hk | ⟨fd, -, hk⟩
    · exact hp.full b ((gc_used_iff hp.wf b).1 hb).1 (hk.symm.trans hnull)
    · rw [hk] at hnull
      cases hnull

/-- What pairs lead to from a base block is kept by a collection. -/
theorem Held.gc (h : p.Held bs r) (hp : p.Good) (hbs : bs ⊆ p.bbs) :
    (Mempool.gc p).Held bs r := by
  obtain ⟨x, hx, hv, hr⟩ := h
  have hroot : x ∈ p.roots := mem_roots.2 (Or.inl (hbs hx))
  have hkept : ∀ y, Relation.ReflTransGen p.Link x y → (Mempool.gc p).Valid y := by
    intro y hy
    have hreach : Marking.Reach p.succ x y := by
      induction hy with
      | refl => exact Relation.ReflTransGen.refl
      | tail _ hl ih => exact ih.tail hl.mem_succ
    cases y with
    | stat s => trivial
    | blk b => exact (gc_used_iff hp.wf b).2 ⟨hp.valid_of_reach hv hy, x, hroot, hreach⟩
  refine ⟨x, hx, hkept x Relation.ReflTransGen.refl, ?_⟩
  induction hr with
  | refl => exact Relation.ReflTransGen.refl
  | @tail y z hxy hl ih =>
      refine ih.tail ?_
      cases y with
      | stat s => exact (not_link_stat hl).elim
      | blk b =>
          obtain ⟨car, cdr, ho, hz⟩ := hl
          have hk := gc_kept hp.wf (hkept (.blk b) hxy)
          rw [show (p.blk b).obj = .pair car cdr from ho] at hk
          exact ⟨car, cdr, hk.eq_pair, hz⟩

end Collect

end Pool

end Mempool

end Ylisp
