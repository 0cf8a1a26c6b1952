import Ylisp.Eval.Forms

/-!
# The assignments to pairs

`setcar`, `setcdr` and the natives that change a binding are the functions that can
take away what leads to a variable. `writeOf` is the assignment that a call makes,
read off the pool before the call; `Write.apply` is the pool after it. If all that
functions wait for can be reached there too, the call keeps what they hold on to.
-/

namespace Ylisp

namespace Eval

open Mempool Effect

variable {n : ℕ}

structure Write (n : ℕ) where
  side : Side
  e : Ref n
  x : Ref n

def Write.apply (w : Write n) (p : Pool n) : Pool n :=
  match ylpset w.side w.e w.x p with
  | .ok _ q => q
  | .error _ _ => p

/-- The assignment that a native function makes. The one of `_set` is to the cdr of
the binding, to a list that holds the value only. -/
def writeOf (c : Etcxt n) (k : ℕ) (f : Fn) (e a : Ref n) : Hp n (Option (Write n)) := do
  match f with
  | .setcar =>
      let (x, v) ← setPairArgs k e
      pure (some ⟨.car, x, v⟩)
  | .setcdr =>
      let (x, v) ← setPairArgs k e
      pure (some ⟨.cdr, x, v⟩)
  | .set | .tset | .fMset | .fTmset =>
      let (s, val, _) ← setArgs k e
      let (_, r) ← setFind c k s a
      pure (r.map fun r => ⟨.cdr, r, val⟩)
  | _ => pure none

/-- What the functions that wait hold on to is kept by the assignment of the call. -/
def Keeps (c : Etcxt n) (f : Fn) (e a : Ref n) (fs : List (Frame n)) (p : Pool n) : Prop :=
  ∀ k w q, writeOf c k f e a p = .ok (some w) q → Pending (w.apply p) fs

def framed (fs : List (Frame n)) : Law (Pool n) :=
  Law.always fun q => q.Good ∧ FramesOk q fs

variable {p q : Pool n} {fs : List (Frame n)} {e a x y v : Ref n} {b : Fin n} {c : Etcxt n}
  {k : ℕ} {side : Side} {bs : List (Ref n)} {α : Type} {Q : α → Pool n → Prop}

theorem wp_framed {f : Hp n α} (h : Wp (growth n) f p Q) :
    Wp (framed fs) f p fun r s => p.Grown s ∧ Q r s :=
  h.always And.left fun _ hp ht hle => ⟨ht, hp.2.grown hp.1 hle⟩

theorem Goes.framed {f : Hp n (Go n)} (h : Goes fs f p) :
    Wp (framed fs) f p fun g s => GoOk s fs g :=
  (wp_framed h).mono fun _ _ _ _ h => h.2

/-- The elements of a good pool: atoms, and pairs with both of their fields. -/
theorem atom_or_pair (hp : p.Good) (he : p.Valid e) (side : Side) :
    (p.obj e).isAtom = true ∨ ∃ b x y, e = .blk b ∧ (p.blk b).obj = side.pair x y := by
  cases e with
  | stat s => cases s <;> exact Or.inl rfl
  | blk b =>
      cases ho : (p.blk b).obj with
      | pair car cdr =>
          have hs := hp.wf.used b he
          rw [ho] at hs
          rcases hs with ⟨rfl, rfl⟩ | ⟨x, y, rfl, rfl⟩
          · exact (hp.full b he ho).elim
          · cases side with
            | car => exact Or.inr ⟨b, x, y, rfl, ho⟩
            | cdr => exact Or.inr ⟨b, y, x, rfl, ho⟩
      | _ => exact Or.inl (congrArg Obj.isAtom ho)

theorem ylpset_atom (h : (p.obj e).isAtom = true) : ylpset side e v p = .error .stuck p := by
  cases e with
  | stat s => rfl
  | blk b =>
      cases ho : (p.blk b).obj with
      | pair car cdr =>
          have hatom : (p.blk b).obj.isAtom = true := h
          rw [ho] at hatom
          cases hatom
      | _ => simp [ylpset, ho]

/-- The result of an assignment, if the functions that wait keep what they hold on to. -/
theorem wp_ylpset_framed (he : p.Valid e) (hv : p.Valid v)
    (hkeep : Pending (Write.apply ⟨side, e, v⟩ p) fs) :
    Wp (framed fs) (ylpset side e v) p fun _ q => q.m = p.m := by
  rintro ⟨hp, hfs⟩
  rcases atom_or_pair hp he side with h | ⟨b, x, y, rfl, ho⟩
  · rw [ylpset_atom h]
    exact ⟨⟨hp, hfs⟩, trivial⟩
  · have hset := ylpset_pair (v := v) ho
    rw [Write.apply, hset] at hkeep
    rw [hset]
    exact ⟨⟨good_assign hp he ho hv, hfs.valid, hfs.own, hkeep⟩, trivial, rfl⟩

theorem path_setPairArgs (k : ℕ) (e : Ref n) :
    Wp (Law.read _) (setPairArgs k e) p fun r _ => p.Path e r.1 ∧ p.Path e r.2 := by
  refine Wp.read_bind (reads_pcsz k e 2 2) fun _ _ => Wp.read_bind (follows_ylcar p e) fun x _ => ?_
  refine Wp.read_bind (wp_yleisAtom p x) fun _ _ => ?_
  refine Wp.read_bind (reads_ylnfcheckParameter _) fun _ _ => ?_
  refine Wp.read_bind (follows_ylcar p e) fun x hx => ?_
  exact Wp.read_bind (follows_ylcadr p e) fun v hv => Wp.pure ⟨hx, hv⟩

theorem wp_setPair (he : p.Held bs e)
    (hkeep : ∀ x v, setPairArgs k e p = .ok (x, v) p → Pending (Write.apply ⟨side, x, v⟩ p) fs) :
    Wp (framed fs) (setPair k side e) p fun g q => GoOk q fs g := by
  refine Wp.of_inv fun hp => Wp.read_bind (path_setPairArgs k e).read_eq ?_
  rintro ⟨x, v⟩ ⟨hargs, hx, hv⟩
  refine Wp.bind (wp_ylpset_framed ((he.path hx).valid hp.1) ((he.path hv).valid hp.1)
    (hkeep x v hargs)) fun _ _ _ _ _ => ?_
  exact wp_go trivial

theorem path_setArgs (k : ℕ) (e : Ref n) :
    Wp (Law.read _) (setArgs k e) p fun r _ => p.Path e r.2.1 := by
  refine Wp.read_bind (reads_pcsz k e 2 3) fun _ _ => Wp.ite (fun _ => ?_) fun _ => ?_
  · refine Wp.read_bind (follows_ylcaddr p e) fun x _ => Wp.read_bind (reads_symOf x) fun s _ => ?_
    cases s with
    | none => exact wp_undefined
    | some desc =>
        refine Wp.read_bind (follows_ylcar p e) fun x _ => ?_
        exact Wp.read_bind (follows_ylcadr p e) fun v hv => Wp.pure hv
  · refine Wp.read_bind (follows_ylcar p e) fun x _ => ?_
    exact Wp.read_bind (follows_ylcadr p e) fun v hv => Wp.pure hv

theorem path_setFind (c : Etcxt n) (k : ℕ) (x a : Ref n) :
    Wp (Law.read _) (setFind c k x a) p fun r _ => ∀ b ∈ r.2, p.Path a b := by
  refine Wp.read_bind (reads_symOf x) fun s _ => ?_
  cases s with
  | none => exact wp_undefined
  | some sym =>
      refine Wp.ite (fun _ => wp_undefined) fun _ => ?_
      refine Wp.read_bind (path_listFind c k x a) fun r hr => ?_
      cases r with
      | none => exact Wp.pure nofun
      | some r =>
          refine Wp.read_bind (follows_ylcdr p r) fun d _ => ?_
          refine Wp.read_bind (wp_yleisAtom p d) fun _ _ => ?_
          exact Wp.ite (fun _ => wp_undefined) fun _ => Wp.pure hr

/-- `_set` assigns a new pair with the value. What can be reached with the value itself in
its place can be reached through the new pair. -/
theorem pending_set {d : Fin n} (hp : p.Good) (hb : p.m.Used b)
    (ho : (p.blk b).obj = Side.cdr.pair y x) (hv : p.Valid v) (hle : p.Grown q)
    (hnew : ¬ p.m.Used d) (hd : (q.blk d).obj = .pair (.at v) (.at ylnil))
    (hkeep : Pending (p.setBlk b { p.blk b with obj := Side.cdr.pair v x }) fs) :
    Pending (q.setBlk b { q.blk b with obj := Side.cdr.pair (.blk d) x }) fs := by
  set z : Yle n := { q.blk b with obj := Side.cdr.pair (.blk d) x } with hz
  have hself : ((q.setBlk b z).blk b).obj = Side.cdr.pair (.blk d) x := by
    rw [Pool.setBlk_self]
  have hdb : d ≠ b := by
    rintro rfl
    exact hnew hb
  have hnext : (q.setBlk b z).Link (.blk d) v :=
    ⟨_, _, (congrArg Yle.obj (q.setBlk_of_ne z hdb)).trans hd, Or.inl rfl⟩
  intro f fs' hsuf r hr
  refine (hkeep f fs' hsuf r hr).lift (good_assign hp hb ho hv) ?_ ?_
  · intro u hu
    have hu' : q.Valid u := Pool.Valid.grown (p := p) hu hle
    exact hu'
  · rintro u w hu ⟨car, cdr, hobj, hw⟩
    cases u with
    | stat s => cases s <;> cases hobj
    | blk u =>
        by_cases hub : u = b
        · subst hub
          have hobj' : Side.cdr.pair v x = .pair car cdr :=
            (congrArg Yle.obj (p.setBlk_self u _)).symm.trans hobj
          cases hobj'
          rcases hw with hw | hw
          · cases hw
            exact Relation.ReflTransGen.single ⟨_, _, hself, Or.inl rfl⟩
          · cases hw
            exact (Relation.ReflTransGen.single ⟨_, _, hself, Or.inr rfl⟩).tail hnext
        · have hobj' : (p.blk u).obj = .pair car cdr :=
            (congrArg Yle.obj (p.setBlk_of_ne _ hub)).symm.trans hobj
          have hq := (hle.fixed u hu (by rw [hobj']; rfl)).trans hobj'
          have hqs : ((q.setBlk b z).blk u).obj = .pair car cdr :=
            (congrArg Yle.obj (q.setBlk_of_ne z hub)).trans hq
          exact Relation.ReflTransGen.single ⟨car, cdr, hqs, hw⟩

theorem wp_rebind {r : Ref n} (hr : p.Valid r) (hv : p.Valid v) (ty : ℕ)
    (hkeep : Pending (Write.apply ⟨.cdr, r, v⟩ p) fs) :
    Wp (framed fs) (do
      setEstype (← ylcar r) ty
      ylpsetcdr r (← ylcons v ylnil)
      pure v) p fun u q => q.Valid u := by
  refine Wp.of_inv fun hp => Wp.read_bind (follows_ylcar p r) fun u _ => ?_
  refine Wp.bind (wp_framed (wp_setEstype u ty)) ?_
  rintro _ q hq - ⟨hpq, -⟩
  refine Wp.bind (wp_framed (wp_ylcons (hv.grown hpq) trivial)) ?_
  rintro _ s hs - ⟨hqs, d, rfl, hnew, hused, hd⟩
  have hps := hpq.trans hqs
  refine Wp.bind (R := fun _ t => t.m = s.m) ?_ fun _ t _ _ ht => Wp.pure ?_
  · rintro -
    rcases atom_or_pair hp.1 hr .cdr with h | ⟨b, y, x, rfl, ho⟩
    · rw [ylpsetcdr, ylpset_atom (hps.isAtom hr h)]
      exact ⟨hs, trivial⟩
    · have ho' : (s.blk b).obj = Side.cdr.pair y x :=
        (hps.fixed b hr (by rw [ho]; rfl)).trans ho
      have hset := ylpset_pair (v := .blk d) ho'
      rw [Write.apply, ylpset_pair ho] at hkeep
      rw [ylpsetcdr, hset]
      have hpend := pending_set hp.1 hr ho hv hps (fun h => hnew (hpq.used d h)) hd hkeep
      exact ⟨⟨good_assign hs.1 (hps.used b hr) ho' hused, hs.2.valid, hs.2.own, hpend⟩,
        trivial, rfl⟩
  · cases v with
    | stat => trivial
    | blk v => exact (show t.m.Used v by rw [ht]; exact hps.used v hv)

theorem wp_setSym (ty : ℕ) (bgsym : Bool) (he : p.Held bs e) (ha : p.Held bs a)
    (hkeep : ∀ x v desc sym r, setArgs k e p = .ok (x, v, desc) p →
      setFind c k x a p = .ok (sym, some r) p → Pending (Write.apply ⟨.cdr, r, v⟩ p) fs) :
    Wp (framed fs) (setSym c k ty bgsym e a) p fun g q => GoOk q fs g := by
  refine Wp.of_inv fun hp => Wp.read_bind (path_setArgs k e).read_eq ?_
  rintro ⟨x, v, desc⟩ ⟨hargs, hv⟩
  have hv := (he.path hv).valid hp.1
  have hset : Wp (framed fs) (set c k x v a desc ty bgsym) p fun u q => q.Valid u := by
    refine Wp.read_bind (path_setFind c k x a).read_eq ?_
    rintro ⟨sym, r⟩ ⟨hfind, hr⟩
    cases r with
    | some r =>
        exact wp_rebind ((ha.path (hr r rfl)).valid hp.1) hv ty (hkeep x v desc sym r hargs hfind)
    | none =>
        refine Wp.bind (wp_framed (wp_setTable c bgsym fun t u hu => ?_)) ?_
        · rcases mem_held_ylsluInsert hu with hu | rfl
          · exact Or.inl hu
          · exact Or.inr hv
        · rintro _ q - - ⟨hpq, -⟩
          refine Wp.bind (wp_framed (wp_setTable c bgsym fun t u hu => ?_)) ?_
          · exact Or.inl (mem_held_ylsluSetDescription hu)
          · rintro _ s - - ⟨hqs, -⟩
            exact Wp.pure ((hv.grown hpq).grown hqs)
  exact Wp.bind hset fun u q _ _ hu => wp_go hu

/-- Every native function, if its assignment keeps what the functions that wait hold on to. -/
theorem wp_callFn {f : Fn} (he : p.Held (anchors fs) e) (ha : p.Held (anchors fs) a)
    (hkeep : Keeps c f e a fs p) :
    Wp (framed fs) (callFn c k f e a) p fun g q => GoOk q fs g := by
  have hpair : ∀ {side : Side}, (∀ x v, setPairArgs k e p = .ok (x, v) p →
      writeOf c k f e a p = .ok (some ⟨side, x, v⟩) p) →
        Wp (framed fs) (setPair k side e) p fun g q => GoOk q fs g := fun h =>
    wp_setPair he fun x v hargs => hkeep k _ p (h x v hargs)
  have hsym : ∀ (ty : ℕ) (bgsym : Bool), (∀ x v desc sym r,
      setArgs k e p = .ok (x, v, desc) p → setFind c k x a p = .ok (sym, some r) p →
        writeOf c k f e a p = .ok (some ⟨.cdr, r, v⟩) p) →
          Wp (framed fs) (setSym c k ty bgsym e a) p fun g q => GoOk q fs g := fun ty bgsym h =>
    wp_setSym ty bgsym he ha fun x v desc sym r hargs hfind =>
      hkeep k _ p (h x v desc sym r hargs hfind)
  cases f with
  | setcar => exact hpair fun x v hargs => bind_of_ok hargs
  | setcdr => exact hpair fun x v hargs => bind_of_ok hargs
  | set => exact hsym symDef true fun _ _ _ _ _ h h' => (bind_of_ok h).trans (bind_of_ok h')
  | tset => exact hsym symDef false fun _ _ _ _ _ h h' => (bind_of_ok h).trans (bind_of_ok h')
  | fMset => exact hsym symMac true fun _ _ _ _ _ h h' => (bind_of_ok h).trans (bind_of_ok h')
  | fTmset => exact hsym symMac false fun _ _ _ _ _ h h' => (bind_of_ok h).trans (bind_of_ok h')
  | _ => exact (goes_callFn rfl he ha).framed

end Eval

end Ylisp
