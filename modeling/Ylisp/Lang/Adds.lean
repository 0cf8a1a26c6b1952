import Ylisp.Eval.Natives
import Ylisp.Lang.Tree

/-!
# Steps that only add pairs

Between two safe points no block is taken away. `Adds` says that a step of an evaluation without
assignments adds pairs and numbers, leaves the other elements alone, and makes no symbol a macro
symbol that is not the name of a function. `consing` is the law of the functions that do so.
-/

namespace Ylisp

namespace Lang

open Mempool Eval Effect

variable {n : ℕ}

structure Adds (names : Set (List UInt8)) (p q : Pool n) (d : ℕ) : Prop where
  good : q.Good
  bbs : q.bbs = p.bbs
  cxtl : q.cxtl = p.cxtl
  gsym : q.gsym = p.gsym
  used : ∀ b, p.m.Used b → q.m.Used b
  obj : ∀ r, p.Valid r → q.obj r = p.obj r
  sym : ∀ r s, q.Valid r → q.obj r = .sym s → p.Valid r
  kind : ∀ r, p.Valid r →
    kindOf q r = kindOf p r ∨ kindOf q r = symMac ∧ ∃ s ∈ names, p.obj r = .sym s
  room : q.m.fbi + d = p.m.fbi

section Adds

variable {names : Set (List UInt8)} {p q s : Pool n} {d d' : ℕ} {r : Ref n} {t : Tree n}
  {ρ : Locals n}

theorem Adds.refl (hp : p.Good) : Adds names p p 0 :=
  ⟨hp, rfl, rfl, rfl, fun _ h => h, fun _ _ => rfl, fun _ _ h _ => h, fun _ _ => Or.inl rfl, rfl⟩

theorem Adds.valid (h : Adds names p q d) (hr : p.Valid r) : q.Valid r := by
  cases r with
  | stat s => trivial
  | blk b => exact h.used b hr

theorem Adds.trans (h : Adds names p q d) (h' : Adds names q s d') :
    Adds names p s (d + d') where
  good := h'.good
  bbs := h'.bbs.trans h.bbs
  cxtl := h'.cxtl.trans h.cxtl
  gsym := h'.gsym.trans h.gsym
  used := fun b hb => h'.used b (h.used b hb)
  obj := fun r hr => (h'.obj r (h.valid hr)).trans (h.obj r hr)
  sym := by
    intro r nm hr ho
    have hq := h'.sym r nm hr ho
    exact h.sym r nm hq ((h'.obj r hq).symm.trans ho)
  kind := by
    intro r hr
    rcases h'.kind r (h.valid hr) with hk | ⟨hk, nm, hnm, ho⟩
    · rw [hk]
      exact h.kind r hr
    · exact Or.inr ⟨hk, nm, hnm, (h.obj r hr).symm.trans ho⟩
  room := by
    have h₁ := h.room
    have h₂ := h'.room
    omega

theorem Adds.sameAt (h : Adds names p q d) (hr : p.Valid r) : SameAt p q r :=
  ⟨fun _ => h.obj r hr, fun hf => by rw [h.obj r hr, hf]⟩

theorem Adds.mac (h : Adds names p q d) (hr : p.Valid r) (hk : kindOf p r = symMac) :
    kindOf q r = symMac := by
  rcases h.kind r hr with h | ⟨h, -⟩
  · rw [h, hk]
  · exact h

theorem Adds.kindsOk (h : Adds names p q d) (hp : KindsOk names p) : KindsOk names q := by
  intro r nm hr ho hnm hk
  have hv := h.sym r nm hr ho
  have ho' := (h.obj r hv).symm.trans ho
  rcases h.kind r hv with hk' | ⟨-, nm', hnm', ho''⟩
  · exact hp r nm hv ho' hnm (hk'.symm.trans hk)
  · rw [ho'] at ho''
    cases ho''
    exact hnm hnm'

theorem Adds.preserves (h : Adds names p q d) (hp : p.Good) : Preserves p q d where
  bbs := h.bbs
  cxtl := h.cxtl
  gsym := h.gsym
  valid := fun _ hr => h.valid (hr.valid hp)
  same := fun _ hr => h.sameAt (hr.valid hp)
  refs := fun r hr => congrArg Obj.refs (h.obj r (hr.valid hp))
  mac := fun _ hr => h.mac (hr.valid hp)
  room := by
    have := h.room
    omega

theorem Denotes.adds (ht : Denotes p r t) (hp : p.Good) (h : Adds names p q d) :
    Denotes q r t :=
  ht.transfer (S := p.Valid) (ht.valid hp.wf)
    (fun _ _ hx hl => hp.valid_of_mem_succ hx hl.mem_succ) fun _ => h.sameAt

theorem Env.valid (hρ : Env p names r ρ) (hp : p.Wf) : p.Valid r := by
  cases hρ with
  | nil => trivial
  | @cons _ b r' _ _ _ _ _ _ _ ha =>
      cases r with
      | stat s => trivial
      | blk b =>
          by_contra hb
          obtain ⟨d, hfree⟩ := pair_of_clean (hp.free b hb)
          rw [show p.obj (.blk b) = .pair .null d from hfree] at ha
          cases ha

theorem Env.adds {names' : Set (List UInt8)} (hρ : Env p names' r ρ) (hp : p.Good)
    (h : Adds names p q d) : Env q names' r ρ :=
  hρ.transfer (S := p.Valid) (hρ.valid hp.wf)
    (fun _ _ hx hl => hp.valid_of_mem_succ hx hl.mem_succ) (fun _ => h.sameAt) fun _ => h.mac

end Adds

/-! ### Functions that only make pairs -/

def consing (n : ℕ) : Law (Pool n) where
  inv := fun p => p.m.Wf
  le := fun p q => q.bbs = p.bbs ∧ q.cxtl = p.cxtl ∧ q.gsym = p.gsym ∧ q.statSt = p.statSt ∧
    (∀ b, p.m.Used b → q.m.Used b) ∧
    ∀ b nm, q.m.Used b → (q.blk b).obj = .sym nm → p.m.Used b ∧ (p.blk b).obj = .sym nm
  refl := fun p => ⟨rfl, rfl, rfl, rfl, fun _ h => h, fun _ _ hb ho => ⟨hb, ho⟩⟩
  trans := by
    rintro p q s ⟨h₁, h₂, h₃, h₄, h₅, h₆⟩ ⟨h₁', h₂', h₃', h₄', h₅', h₆'⟩
    refine ⟨h₁'.trans h₁, h₂'.trans h₂, h₃'.trans h₃, h₄'.trans h₄,
      fun b hb => h₅' b (h₅ b hb), fun b nm hb ho => ?_⟩
    obtain ⟨hb', ho'⟩ := h₆' b nm hb ho
    exact h₆ b nm hb' ho'

def Conses {α : Type} (x : Hp n α) : Prop := ∀ p, Wp (consing n) x p fun _ _ => True

section Conses

variable {α β : Type} {p q : Pool n}

theorem Conses.pure (a : α) : Conses (pure a : Hp n α) := fun _ => Wp.pure trivial

theorem Conses.bind {x : Hp n α} {f : α → Hp n β} (hx : Conses x) (hf : ∀ a, Conses (f a)) :
    Conses (x >>= f) := fun p => (hx p).bind fun a t _ _ _ => hf a t

theorem Conses.ite {c : Prop} [Decidable c] {x y : Hp n α} (hx : Conses x) (hy : Conses y) :
    Conses (if c then x else y) := fun p => Wp.ite (fun _ => hx p) fun _ => hy p

theorem conses_of_follows {f : Ref n → Hp n (Ref n)} (h : Follows f) (e : Ref n) :
    Conses (f e) := fun p => (h p e).of_read.mono fun _ _ _ _ _ => trivial

theorem conses_yleisAtom (e : Ref n) : Conses (yleisAtom e) := fun p =>
  (wp_yleisAtom p e).of_read.mono fun _ _ _ _ _ => trivial

theorem conses_ylcons (a d : Ref n) : Conses (ylcons a d) := by
  intro p hp
  unfold ylcons create
  split
  next => exact ⟨hp, (consing n).refl p⟩
  next b q hb =>
    unfold ylmpBlock at hb
    split at hb
    next => cases hb
    next b' m hget =>
      obtain ⟨rfl, rfl⟩ := Prod.mk.inj (Option.some.inj hb)
      have hused := mbtGet_used hp hget
      refine ⟨mbtGet_wf hp hget, ⟨rfl, rfl, rfl, rfl, fun x hx => (hused x).2 (Or.inl hx),
        fun x nm hx ho => ?_⟩, trivial⟩
      by_cases hxb : x = b'
      · rw [hxb, Pool.obj_setBlk_self] at ho
        cases ho
      · rw [Pool.obj_setBlk_of_ne _ _ hxb] at ho
        have hblk : Function.update p.blk b' Yle.clean x = p.blk x := Function.update_of_ne hxb _ _
        exact ⟨((hused x).1 hx).resolve_right hxb, (congrArg Yle.obj hblk).symm.trans ho⟩

theorem conses_yllist (a d : Ref n) : Conses (yllist a d) :=
  (conses_ylcons d ylnil).bind fun _ => conses_ylcons a _

theorem conses_stuck : Conses (stuck : Hp n α) := fun _ => wp_stuck

theorem conses_listClone (k : ℕ) (e : Ref n) : Conses (listClone k e) := by
  induction k generalizing e with
  | zero => exact conses_stuck
  | succ k ih =>
      refine (conses_yleisAtom e).bind fun _ => (Conses.pure e).ite ?_
      refine (conses_of_follows follows_ylpcar e).bind fun x => (ih x).bind fun car => ?_
      exact (conses_of_follows follows_ylpcdr e).bind fun y => (ih y).bind fun _ =>
        conses_ylcons car _

theorem conses_ylappend (k : ℕ) (x y : Ref n) : Conses (ylappend k x y) := by
  induction k generalizing x with
  | zero => exact conses_stuck
  | succ k ih =>
      refine (Conses.pure y).ite ((conses_of_follows follows_ylcar x).bind fun car => ?_)
      exact (conses_of_follows follows_ylcdr x).bind fun d => (ih d).bind fun _ =>
        conses_ylcons car _

theorem conses_ylpair (k : ℕ) (x y : Ref n) : Conses (ylpair k x y) := by
  induction k generalizing x y with
  | zero => exact conses_stuck
  | succ k ih =>
      refine (Conses.pure ylnil).ite ((conses_yleisAtom x).bind fun _ => ?_)
      refine (conses_yleisAtom y).bind fun _ => .ite ?_ fun _ => wp_undefined
      refine (conses_of_follows follows_ylcar x).bind fun a => ?_
      refine (conses_of_follows follows_ylcar y).bind fun b => (conses_yllist a b).bind fun l => ?_
      refine (conses_of_follows follows_ylcdr x).bind fun a => ?_
      exact (conses_of_follows follows_ylcdr y).bind fun b => (ih a b).bind fun _ =>
        conses_ylcons l _

theorem conses_ylpset (side : Side) (e x : Ref n) : Conses (ylpset side e x) := by
  intro p hp
  cases e with
  | stat s => exact ⟨hp, (consing n).refl p⟩
  | blk b =>
      have hset : ∀ o : Obj n, (∀ s, o ≠ .sym s) →
          (consing n).le p (p.setBlk b { p.blk b with obj := o }) := by
        refine fun o hno => ⟨rfl, rfl, rfl, rfl, fun _ h => h, fun z nm hz ho => ⟨hz, ?_⟩⟩
        by_cases hzb : z = b
        · rw [hzb, Pool.obj_setBlk_self] at ho
          exact absurd ho (hno nm)
        · rwa [Pool.obj_setBlk_of_ne _ _ hzb] at ho
      cases ho : (p.blk b).obj with
      | pair a d =>
          cases side with
          | car =>
              simp only [ylpset, ho]
              exact ⟨hp, hset _ (by simp), trivial⟩
          | cdr =>
              simp only [ylpset, ho]
              exact ⟨hp, hset _ (by simp), trivial⟩
      | _ =>
          simp only [ylpset, ho]
          exact ⟨hp, (consing n).refl p⟩

theorem conses_lastPair (k : ℕ) (e : Ref n) : Conses (lastPair k e) := by
  induction k generalizing e with
  | zero => exact conses_stuck
  | succ k ih =>
      exact (conses_of_follows follows_ylcdr e).bind fun d => (Conses.pure e).ite (ih d)

theorem conses_listFind (c : Etcxt n) (k : ℕ) (x y : Ref n) : Conses (listFind c k x y) :=
  fun _ => ((path_listFind c k x y).of_read).mono fun _ _ _ _ _ => trivial

theorem conses_mreplaceSide (c : Etcxt n) (k : ℕ) {enter : Ref n → Hp n Bool}
    (h : ∀ x, Conses (enter x)) (side : Side) (e a : Ref n) :
    Conses (mreplaceSide c k enter side e a) := by
  have hget : Conses (side.get e) := by
    cases side with
    | car => exact conses_of_follows follows_ylcar e
    | cdr => exact conses_of_follows follows_ylcdr e
  refine hget.bind fun x => (conses_yleisAtom x).bind fun _ => .ite ?_ (h x)
  refine (conses_listFind c k x a).bind fun r => ?_
  cases r with
  | none => exact Conses.pure true
  | some r =>
      exact (conses_of_follows follows_ylcadr r).bind fun v => (conses_ylpset side e v).bind
        fun _ => Conses.pure true

theorem conses_mreplace (c : Etcxt n) (k : ℕ) (e a : Ref n) : Conses (mreplace c k e a) := by
  induction k generalizing e with
  | zero => exact conses_stuck
  | succ k ih =>
      refine (conses_yleisAtom e).bind fun _ => (Conses.pure false).ite ?_
      refine (conses_mreplaceSide c k (fun x => ih x) .car e a).bind fun _ => .ite ?_ (.pure false)
      exact conses_mreplaceSide c k (fun x => ih x) .cdr e a

theorem conses_evlfMlambda (c : Etcxt n) (k : ℕ) (e a : Ref n) :
    Conses (evlfMlambda c k e a) := by
  refine (conses_of_follows follows_ylcadar e).bind fun params => ?_
  refine (conses_of_follows follows_ylcaddar e).bind fun body => .ite ?_ ?_
  · refine (conses_listClone k body).bind fun exp => (conses_lastPair k exp).bind fun we => ?_
    refine (conses_of_follows follows_ylcdr e).bind fun d => ?_
    exact (conses_ylpset .cdr we d).bind fun _ => Conses.pure _
  · refine (conses_listClone k body).bind fun exp => ?_
    refine (conses_of_follows follows_ylcdr e).bind fun d => ?_
    refine (conses_ylpair k params d).bind fun l => (conses_ylappend k l ylnil).bind fun l => ?_
    exact (conses_mreplace c k exp l).bind fun _ => (Conses.pure _).ite fun _ => wp_undefined

/-- What a function that only makes pairs leaves, when it leaves the blocks in use alone. -/
theorem Conses.adds {x : Hp n α} {a : α} {d : ℕ} {R : α → Pool n → Prop} (h : Conses x)
    (names : Set (List UInt8)) (hw : Wp (growth n) x p R) (hp : p.Good)
    (hx : x p = .ok a q) (hfill : Filled p q d) : Adds names p q d := by
  have hout := h p hp.wf.m
  have hgrowth := hw hp
  rw [hx] at hout hgrowth
  obtain ⟨-, ⟨hbbs, hcxtl, hgsym, hstat, hused, hsym⟩, -⟩ := hout
  refine ⟨hgrowth.1, hbbs, hcxtl, hgsym, hused, fun r hr => hfill.obj hr, fun r nm hr ho => ?_,
    fun r hr => Or.inl ?_, hfill.room⟩
  · cases r with
    | stat s => trivial
    | blk b => exact (hsym b nm hr ho).1
  · cases r with
    | stat s => exact congrFun hstat s
    | blk b => exact congrArg Yle.st (hfill.blk b hr)

end Conses

end Lang

end Ylisp
