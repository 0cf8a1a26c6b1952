import Ylisp.Eval.Heap
import Ylisp.Library.Effect
import Ylisp.Mempool.Grow

/-!
# What the heap functions keep

The accessors follow the pairs of the pool and change nothing (`Path`). The
other functions take blocks from the pool and fill them: the pool that they leave
has grown, and what they return is a valid element. `growth` is the law of these
functions.
-/

namespace Ylisp

namespace Mempool

namespace Pool

variable {n : ℕ}

def Path (p : Pool n) : Ref n → Ref n → Prop := Relation.ReflTransGen p.Link

theorem Good.valid_of_path {p : Pool n} {x y : Ref n} (hp : p.Good) (hx : p.Valid x)
    (h : p.Path x y) : p.Valid y := hp.valid_of_reach hx h

theorem Held.path {p : Pool n} {bs : List (Ref n)} {x y : Ref n} (hx : p.Held bs x)
    (h : p.Path x y) : p.Held bs y := by
  obtain ⟨b, hb, hv, hr⟩ := hx
  exact ⟨b, hb, hv, hr.trans h⟩

end Pool

end Mempool

namespace Eval

open Mempool Effect

open Ylisp.Parser (Ylerr)

variable {n : ℕ} {p : Pool n} {α β : Type} {Q : α → Pool n → Prop}

def growth (n : ℕ) : Law (Pool n) where
  inv := Pool.Good
  le := Pool.Grown
  refl := Pool.Grown.refl
  trans := Pool.Grown.trans

def Reads (x : Hp n α) (p : Pool n) : Prop := Wp (Law.read _) x p fun _ _ => True

def Follows (f : Ref n → Hp n (Ref n)) : Prop :=
  ∀ p e, Wp (Law.read _) (f e) p fun x _ => p.Path e x

def Returns (x : Hp n (Ref n)) (p : Pool n) : Prop := Wp (growth n) x p fun r q => q.Valid r

section Read

theorem wp_undefined {L : Law (Pool n)} {r : Ylerr} :
    Wp L (ylinterpretUndefined r : Hp n α) p Q := Wp.error rfl

theorem wp_stuck {L : Law (Pool n)} : Wp L (stuck : Hp n α) p Q := Wp.error rfl

theorem wp_yleisAtom (p : Pool n) (e : Ref n) :
    Wp (Law.read _) (yleisAtom e) p fun b _ => b = (p.obj e).isAtom := Wp.ok rfl rfl

theorem ylcar_pair {e a : Ref n} {d : Ptr n} (ho : p.obj e = .pair (.at a) d) :
    ylcar e p = .ok a p := by
  have hatom : yleisAtom e p = .ok false p := by
    rw [yleisAtom, ho]
    rfl
  rw [ylcar, bind_of_ok hatom]
  simp [ylpcar, ho]

theorem ylcdr_pair {e a : Ref n} {d : Ptr n} (ho : p.obj e = .pair d (.at a)) :
    ylcdr e p = .ok a p := by
  have hatom : yleisAtom e p = .ok false p := by
    rw [yleisAtom, ho]
    rfl
  rw [ylcdr, bind_of_ok hatom]
  simp [ylpcdr, ho]

theorem follows_ylpcar : Follows (n := n) ylpcar := by
  intro p e _
  unfold ylpcar
  split
  next x cdr ho =>
    exact ⟨trivial, rfl, Relation.ReflTransGen.single ⟨_, cdr, ho, Or.inl rfl⟩⟩
  next => exact ⟨trivial, rfl⟩

theorem follows_ylpcdr : Follows (n := n) ylpcdr := by
  intro p e _
  unfold ylpcdr
  split
  next car x ho =>
    exact ⟨trivial, rfl, Relation.ReflTransGen.single ⟨car, _, ho, Or.inr rfl⟩⟩
  next => exact ⟨trivial, rfl⟩

theorem follows_ylcar : Follows (n := n) ylcar := fun p e =>
  Wp.read_bind (wp_yleisAtom p e) fun _ _ =>
    Wp.ite (fun _ => wp_undefined) fun _ => follows_ylpcar p e

theorem follows_ylcdr : Follows (n := n) ylcdr := fun p e =>
  Wp.read_bind (wp_yleisAtom p e) fun _ _ =>
    Wp.ite (fun _ => wp_undefined) fun _ => follows_ylpcdr p e

theorem Follows.comp {f g : Ref n → Hp n (Ref n)} (hf : Follows f) (hg : Follows g) :
    Follows fun e => f e >>= g := fun p e =>
  Wp.read_bind (hf p e) fun x hx => (hg p x).mono fun _ _ _ _ hy => hx.trans hy

theorem follows_ylcaar : Follows (n := n) ylcaar := follows_ylcar.comp follows_ylcar

theorem follows_ylcadr : Follows (n := n) ylcadr := follows_ylcdr.comp follows_ylcar

theorem follows_ylcddr : Follows (n := n) ylcddr := follows_ylcdr.comp follows_ylcdr

theorem follows_ylcdar : Follows (n := n) ylcdar := follows_ylcar.comp follows_ylcdr

theorem follows_ylcadar : Follows (n := n) ylcadar := follows_ylcdar.comp follows_ylcar

theorem follows_ylcaddr : Follows (n := n) ylcaddr := follows_ylcddr.comp follows_ylcar

theorem follows_ylcddar : Follows (n := n) ylcddar := follows_ylcdar.comp follows_ylcdr

theorem follows_ylcaddar : Follows (n := n) ylcaddar := follows_ylcddar.comp follows_ylcar

theorem follows_ylcadddr : Follows (n := n) ylcadddr :=
  follows_ylcddr.comp (follows_ylcdr.comp follows_ylcar)

theorem Reads.bind {x : Hp n α} {f : α → Hp n β} {R : α → Pool n → Prop}
    (hx : Wp (Law.read _) x p R) (hf : ∀ a, Reads (f a) p) : Reads (x >>= f) p :=
  Wp.read_bind hx fun a _ => hf a

theorem reads_pure (a : α) : Reads (pure a : Hp n α) p := Wp.pure trivial

theorem reads_symOf (e : Ref n) : Reads (symOf e) p := by
  intro _
  unfold symOf
  split <;> exact ⟨trivial, rfl, trivial⟩

theorem reads_ylestype (e : Ref n) : Reads (ylestype e) p := by
  intro _
  unfold ylestype
  split <;> exact ⟨trivial, rfl, trivial⟩

theorem reads_yleq (c : Etcxt n) (k : ℕ) (e1 e2 : Ref n) : Reads (yleq c k e1 e2) p := by
  induction k generalizing e1 e2 with
  | zero => exact wp_stuck
  | succ k ih =>
      refine Wp.ite (fun _ => reads_pure _) fun _ => ?_
      refine Reads.bind (wp_yleisAtom p e1) fun _ => Reads.bind (wp_yleisAtom p e2) fun _ => ?_
      refine Wp.ite (fun _ => ?_) fun _ => Wp.ite (fun _ => ?_) fun _ => reads_pure _
      · exact Reads.bind (Wp.ok (Q := fun _ _ => True) rfl trivial) fun _ => reads_pure _
      · refine Reads.bind (follows_ylcar p e1) fun _ => Reads.bind (follows_ylcar p e2) fun _ => ?_
        refine Reads.bind (ih _ _) fun _ => Wp.ite (fun _ => reads_pure _) fun _ => ?_
        refine Reads.bind (follows_ylcdr p e1) fun _ => Reads.bind (follows_ylcdr p e2) fun _ => ?_
        exact Reads.bind (ih _ _) fun _ => reads_pure _

theorem reads_cdrs (k : ℕ) (e : Ref n) : Reads (cdrs k e) p := by
  induction k generalizing e with
  | zero => exact wp_stuck
  | succ k ih =>
      refine Reads.bind (wp_yleisAtom p e) fun _ => Wp.ite (fun _ => reads_pure _) fun _ => ?_
      exact Reads.bind (follows_ylcdr p e) fun _ => Reads.bind (ih _) fun _ => reads_pure _

theorem reads_ylelistSize (k : ℕ) (e : Ref n) : Reads (ylelistSize k e) p :=
  Wp.ite (fun _ => reads_pure _) fun _ =>
    Reads.bind (wp_yleisAtom p e) fun _ =>
      Wp.ite (fun _ => reads_pure _) fun _ => reads_cdrs k e

theorem reads_yleisPairChain (k : ℕ) (e : Ref n) : Reads (yleisPairChain k e) p := by
  induction k generalizing e with
  | zero => exact wp_stuck
  | succ k ih =>
      refine Wp.ite (fun _ => reads_pure _) fun _ => Reads.bind (follows_ylpcar p e) fun x => ?_
      refine Reads.bind (wp_yleisAtom p x) fun _ => Wp.ite (fun _ => reads_pure _) fun _ => ?_
      exact Reads.bind (follows_ylpcdr p e) fun _ => ih _

theorem reads_ylaisSymChain (k : ℕ) (e : Ref n) : Reads (ylaisSymChain k e) p := by
  induction k generalizing e with
  | zero => exact wp_stuck
  | succ k ih =>
      refine Wp.ite (fun _ => reads_pure _) fun _ => Reads.bind (follows_ylpcar p e) fun x => ?_
      refine Reads.bind (reads_symOf x) fun s => ?_
      cases s with
      | none => exact reads_pure _
      | some s => exact Reads.bind (follows_ylpcdr p e) fun _ => ih _

theorem path_listFind (c : Etcxt n) (k : ℕ) (x y : Ref n) :
    Wp (Law.read _) (listFind c k x y) p fun r _ => ∀ e ∈ r, p.Path y e := by
  induction k generalizing y with
  | zero => exact wp_stuck
  | succ k ih =>
      refine Wp.read_bind (wp_yleisAtom p y) fun _ _ => Wp.ite (fun _ => Wp.pure nofun) fun _ => ?_
      refine Wp.read_bind (follows_ylcar p y) fun z _ => ?_
      refine Wp.read_bind (wp_yleisAtom p z) fun _ _ => ?_
      refine Wp.ite (fun _ => Wp.pure nofun) fun _ => ?_
      refine Wp.read_bind (follows_ylcaar p y) fun w _ => ?_
      refine Wp.read_bind (reads_yleq c k w x) fun _ _ => Wp.ite (fun _ => ?_) fun _ => ?_
      · refine Wp.read_bind (follows_ylcar p y) fun r hr => Wp.pure ?_
        rintro _ ⟨⟩
        exact hr
      · refine Wp.read_bind (follows_ylcdr p y) fun w hw => ?_
        exact (ih w).mono fun _ _ _ _ hr e he => hw.trans (hr e he)

end Read

section Take

theorem wp_create {o : Obj n} (hs : ∀ q : Pool n, q.Sound o) (hr : ∀ r ∈ o.refs, p.Valid r)
    (ho : o ≠ .pair .null .null) :
    Wp (growth n) (create o) p fun r q =>
      ∃ b, r = .blk b ∧ ¬ p.m.Used b ∧ q.m.Used b ∧ (q.blk b).obj = o := by
  intro hp
  unfold create
  split
  next => exact ⟨hp, Pool.Grown.refl p⟩
  next b q hb =>
    obtain ⟨hgood, hgrown, hnew, hused⟩ := hp.fill (y := ⟨false, 0, o⟩) hb hs hr ho
    exact ⟨hgood, hgrown, b, rfl, hnew, hused, Pool.obj_setBlk_self q b ⟨false, 0, o⟩⟩

theorem returns_create {o : Obj n} (hs : ∀ q : Pool n, q.Sound o)
    (hr : ∀ r ∈ o.refs, p.Valid r) (ho : o ≠ .pair .null .null) : Returns (create o) p :=
  (wp_create hs hr ho).mono fun r q _ _ h => by
    obtain ⟨b, rfl, -, hb, -⟩ := h
    exact hb

theorem wp_ylcons {a d : Ref n} (ha : p.Valid a) (hd : p.Valid d) :
    Wp (growth n) (ylcons a d) p fun r q =>
      ∃ b, r = .blk b ∧ ¬ p.m.Used b ∧ q.m.Used b ∧ (q.blk b).obj = .pair (.at a) (.at d) := by
  refine wp_create (fun _ => Or.inr ⟨a, d, rfl, rfl⟩) (fun r hr => ?_) nofun
  rcases List.mem_cons.1 hr with rfl | hr
  · exact ha
  · exact List.mem_singleton.1 hr ▸ hd

theorem returns_ylcons {a d : Ref n} (ha : p.Valid a) (hd : p.Valid d) :
    Returns (ylcons a d) p :=
  (wp_ylcons ha hd).mono fun r q _ _ h => by
    obtain ⟨b, rfl, -, hb, -⟩ := h
    exact hb

theorem returns_yllist {e1 e2 : Ref n} (h1 : p.Valid e1) (h2 : p.Valid e2) :
    Returns (yllist e1 e2) p :=
  Wp.bind (returns_ylcons h2 trivial) fun _ _ _ hle hr => returns_ylcons (h1.grown hle) hr

/-- An accessor of a valid element in front of a computation. -/
theorem Follows.bind {f : Ref n → Hp n (Ref n)} {g : Ref n → Hp n β} {e : Ref n}
    {R : β → Pool n → Prop} (hf : Follows f) (he : p.Valid e)
    (hg : ∀ x, p.Valid x → Wp (growth n) (g x) p R) : Wp (growth n) (f e >>= g) p R :=
  Wp.of_inv fun hp => Wp.read_bind (hf p e) fun x hx => hg x (hp.valid_of_path he hx)

theorem returns_pure {r : Ref n} (hr : p.Valid r) : Returns (pure r) p := Wp.pure hr

theorem returns_ylappend (k : ℕ) {x y : Ref n} (hx : p.Valid x) (hy : p.Valid y) :
    Returns (ylappend k x y) p := by
  induction k generalizing p x with
  | zero => exact wp_stuck
  | succ k ih =>
      refine Wp.ite (fun _ => returns_pure hy) fun _ => ?_
      refine follows_ylcar.bind hx fun car hcar => follows_ylcdr.bind hx fun cdr hcdr => ?_
      exact Wp.bind (ih hcdr hy) fun _ _ _ hle hr => returns_ylcons (hcar.grown hle) hr

theorem returns_ylpair (k : ℕ) {x y : Ref n} (hx : p.Valid x) (hy : p.Valid y) :
    Returns (ylpair k x y) p := by
  induction k generalizing p x y with
  | zero => exact wp_stuck
  | succ k ih =>
      refine Wp.ite (fun _ => returns_pure trivial) fun _ => ?_
      refine Wp.read_bind (wp_yleisAtom p x) fun _ _ => ?_
      refine Wp.read_bind (wp_yleisAtom p y) fun _ _ => ?_
      refine Wp.ite (fun _ => ?_) fun _ => wp_undefined
      refine follows_ylcar.bind hx fun a ha => follows_ylcar.bind hy fun b hb => ?_
      refine Wp.bind (returns_yllist ha hb) fun l q _ hle hl => ?_
      refine follows_ylcdr.bind (hx.grown hle) fun a ha => ?_
      refine follows_ylcdr.bind (hy.grown hle) fun b hb => ?_
      exact Wp.bind (ih ha hb) fun _ _ _ hle hr => returns_ylcons (hl.grown hle) hr

theorem returns_appq (k : ℕ) {m : Ref n} (hm : p.Valid m) : Returns (appq k m) p := by
  induction k generalizing p m with
  | zero => exact wp_stuck
  | succ k ih =>
      refine Wp.ite (fun _ => returns_pure trivial) fun _ => ?_
      refine follows_ylcar.bind hm fun a ha => ?_
      refine Wp.bind (returns_yllist trivial ha) fun l q _ hle hl => ?_
      refine follows_ylcdr.bind (hm.grown hle) fun d hd => ?_
      exact Wp.bind (ih hd) fun _ _ _ hle hr => returns_ylcons (hl.grown hle) hr

theorem returns_pairToList {f : Ref n → Hp n (Ref n)} (hf : Follows f) (k : ℕ) {e l : Ref n}
    (he : p.Valid e) (hl : p.Valid l) : Returns (pairToList f k e l) p := by
  induction k generalizing p e l with
  | zero => exact wp_stuck
  | succ k ih =>
      refine Wp.ite (fun _ => returns_pure hl) fun _ => hf.bind he fun x hx => ?_
      refine Wp.bind (returns_ylcons hx hl) fun l q _ hle hl => ?_
      exact follows_ylcdr.bind (he.grown hle) fun d hd => ih hd hl

end Take

def held (t : Slut n) : List (Ref n) := t.values.filterMap Value.e

section Tables

variable {r : Ref n} {t : Slut n} {sym : List UInt8}

theorem mem_held : r ∈ held t ↔ ∃ v ∈ t.values, v.e = some r := List.mem_filterMap

theorem mem_tables : r ∈ p.tables ↔ (∃ t ∈ p.cxtl, r ∈ held t) ∨ r ∈ held p.gsym := by
  simp only [Pool.tables, List.mem_flatMap, List.mem_append, List.mem_singleton]
  constructor
  · rintro ⟨t, ht | rfl, hr⟩
    · exact Or.inl ⟨t, ht, hr⟩
    · exact Or.inr hr
  · rintro (⟨t, ht, hr⟩ | hr)
    · exact ⟨t, Or.inl ht, hr⟩
    · exact ⟨p.gsym, Or.inr rfl, hr⟩

theorem mem_held_ylsluInsert {ty : ℕ} {e : Ref n} (h : r ∈ held (ylsluInsert t sym ty e)) :
    r ∈ held t ∨ r = e := by
  obtain ⟨v, hv, hr⟩ := mem_held.1 h
  rcases Trie.mem_values_yltrieInsert hv with rfl | hv
  · exact Or.inr (Option.some.inj hr).symm
  · exact Or.inl (mem_held.2 ⟨v, hv, hr⟩)

theorem mem_held_ylsluSetDescription {desc : Option (List UInt8)}
    (h : r ∈ held (ylsluSetDescription t sym desc)) : r ∈ held t := by
  unfold ylsluSetDescription at h
  split at h
  next => exact h
  next v hget =>
    obtain ⟨w, hw, hr⟩ := mem_held.1 h
    rcases Trie.mem_values_yltrieInsert hw with rfl | hw
    · exact mem_held.2 ⟨v, Trie.mem_values_of_yltrieGet hget, hr⟩
    · exact mem_held.2 ⟨w, hw, hr⟩

theorem mem_held_of_ylsluGet {ty : ℕ} (h : ylsluGet t sym = some (ty, r)) : r ∈ held t := by
  obtain ⟨v, hget, hv⟩ := Option.bind_eq_some_iff.1 h
  obtain ⟨e, he, heq⟩ := Option.map_eq_some_iff.1 hv
  cases heq
  exact mem_held.2 ⟨v, Trie.mem_values_of_yltrieGet hget, he⟩

theorem mem_tables_of_ylsluGet (c : Etcxt n) {ty : ℕ}
    (h : (ylsluGet (c.table p) sym <|> ylsluGet p.gsym sym) = some (ty, r)) : r ∈ p.tables := by
  refine mem_tables.2 ?_
  cases hget : ylsluGet (c.table p) sym with
  | some x =>
      rw [hget] at h
      cases h
      have hr := mem_held_of_ylsluGet hget
      unfold Etcxt.table at hr
      rw [List.getD_eq_getElem?_getD] at hr
      cases ht : p.cxtl[c.slut]? with
      | none =>
          rw [ht] at hr
          obtain ⟨v, hv, -⟩ := mem_held.1 hr
          rw [Option.getD_none, Trie.values_yltrieCreate] at hv
          cases hv
      | some t =>
          rw [ht] at hr
          exact Or.inl ⟨t, List.mem_of_getElem? ht, hr⟩
  | none =>
      rw [hget] at h
      exact Or.inr (mem_held_of_ylsluGet h)

theorem valid_of_ylsluGet (hp : p.Good) (c : Etcxt n) {ty : ℕ}
    (h : (ylsluGet (c.table p) sym <|> ylsluGet p.gsym sym) = some (ty, r)) : p.Valid r :=
  hp.tables r (mem_tables_of_ylsluGet c h)

theorem wp_setTable (c : Etcxt n) (bgsym : Bool) {f : Slut n → Slut n}
    (hf : ∀ t, ∀ r ∈ held (f t), r ∈ held t ∨ p.Valid r) :
    Wp (growth n) (setTable c bgsym f) p fun _ _ => True := by
  intro hp
  have htable : ∀ r, r ∈ p.tables ∨ p.Valid r → p.Valid r := by
    rintro r (hr | hr)
    · exact hp.tables r hr
    · exact hr
  unfold setTable
  split
  · refine ⟨hp.congr rfl (fun _ => rfl) fun r hr => htable r ?_,
      Pool.Grown.of_blk (fun _ h => h) fun _ _ => rfl, trivial⟩
    rcases mem_tables.1 hr with ⟨t, ht, hr⟩ | hr
    · exact Or.inl (mem_tables.2 (Or.inl ⟨t, ht, hr⟩))
    · exact (hf _ r hr).imp_left fun h => mem_tables.2 (Or.inr h)
  · refine ⟨hp.congr rfl (fun _ => rfl) fun r hr => htable r ?_,
      Pool.Grown.of_blk (fun _ h => h) fun _ _ => rfl, trivial⟩
    rcases mem_tables.1 hr with ⟨t, ht, hr⟩ | hr
    · obtain ⟨i, hi⟩ := List.mem_iff_getElem?.1 ht
      rw [List.getElem?_modify] at hi
      obtain ⟨u, hu, rfl⟩ := Option.map_eq_some_iff.1 hi
      have hmem := List.mem_of_getElem? hu
      split at hr
      · exact (hf u r hr).imp_left fun h => mem_tables.2 (Or.inl ⟨u, hmem, h⟩)
      · exact Or.inl (mem_tables.2 (Or.inl ⟨u, hmem, hr⟩))
    · exact Or.inl (mem_tables.2 (Or.inr hr))

/-- A write of the sub type leaves the contents alone. -/
theorem obj_setSt (p : Pool n) (b : Fin n) (ty : ℕ) (x : Fin n) :
    ((p.setBlk b { p.blk b with st := ty }).blk x).obj = (p.blk x).obj := by
  by_cases hx : x = b
  · rw [hx, Pool.obj_setBlk_self]
  · exact Pool.obj_setBlk_of_ne p _ hx

theorem wp_setEstype (e : Ref n) (ty : ℕ) :
    Wp (growth n) (setEstype e ty) p fun _ _ => True := by
  intro hp
  cases e with
  | stat s =>
      exact ⟨hp.congr rfl (fun _ => rfl) hp.tables,
        Pool.Grown.of_blk (fun _ h => h) fun _ _ => rfl, trivial⟩
  | blk b =>
      have hobj := obj_setSt p b ty
      exact ⟨hp.congr rfl hobj hp.tables,
        Pool.Grown.of_blk (fun _ h => h) fun x _ => hobj x, trivial⟩

end Tables

end Eval

end Ylisp
