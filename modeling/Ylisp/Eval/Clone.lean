import Mathlib.Data.Set.Lattice
import Mathlib.Order.CompletePartialOrder
import Ylisp.Eval.HeapSpec

/-!
# The copies that the evaluator assigns to

`_evlf_mlambda` copies the body of the form and assigns to the pairs of the copy.
`Tree` says that a copy is a tree of pairs of its own, so that no assignment meets
a pair that was there before, nor one that is still to be read.
-/

namespace Ylisp

namespace Eval

open Mempool Effect

variable {n : ℕ} {p : Pool n}

/-- A tree of pairs that share no block, all of them in `S`. -/
inductive Tree (p : Pool n) : Set (Fin n) → Ref n → Prop
  | atom {S : Set (Fin n)} {e : Ref n} (he : (p.obj e).isAtom = true) : Tree p S e
  | pair {S T U : Set (Fin n)} {b : Fin n} {x y : Ref n}
      (ho : (p.blk b).obj = .pair (.at x) (.at y)) (hx : Tree p T x) (hy : Tree p U y)
      (hb : b ∈ S) (hT : T ⊆ S) (hU : U ⊆ S) (hbT : b ∉ T) (hbU : b ∉ U)
      (hTU : Disjoint T U) : Tree p S (.blk b)

/-- Fields of pairs in `S` are assigned to. -/
structure Patched (S : Set (Fin n)) (p q : Pool n) : Prop where
  m : q.m = p.m
  blk : ∀ b, b ∉ S → (q.blk b).obj = (p.blk b).obj
  atom : ∀ b, (q.blk b).obj.isAtom = (p.blk b).obj.isAtom

def patching (S : Set (Fin n)) : Law (Pool n) where
  inv := Pool.Good
  le := Patched S
  refl := fun _ => ⟨rfl, fun _ _ => rfl, fun _ => rfl⟩
  trans := fun h h' =>
    ⟨h'.m.trans h.m, fun b hb => (h'.blk b hb).trans (h.blk b hb),
      fun b => (h'.atom b).trans (h.atom b)⟩

section Copy

variable {q : Pool n} {S T : Set (Fin n)} {e x y a v : Ref n} {b : Fin n}

theorem Tree.grown (h : Tree p S e) (hp : p.Good) (he : p.Valid e) (hle : p.Grown q) :
    Tree q S e := by
  induction h with
  | atom hatom => exact .atom (hle.isAtom he hatom)
  | @pair S T U b x y ho _ _ hb hT hU hbT hbU hTU ihx ihy =>
      have hrefs := hp.refs b he
      rw [ho] at hrefs
      have hx := ihx (hrefs x List.mem_cons_self)
      have hy := ihy (hrefs y (List.mem_cons_of_mem _ List.mem_cons_self))
      exact .pair ((hle.fixed b he (by rw [ho]; rfl)).trans ho) hx hy hb hT hU hbT hbU hTU

theorem Tree.patched (h : Tree p S e) (hle : Patched T p q) (hST : Disjoint S T) :
    Tree q S e := by
  induction h with
  | @atom S e hatom =>
      refine .atom ?_
      cases e with
      | stat s => exact hatom
      | blk b => exact (hle.atom b).trans hatom
  | pair ho _ _ hb hT hU hbT hbU hTU ihx ihy =>
      have ho' := (hle.blk _ (Set.disjoint_left.1 hST hb)).trans ho
      exact .pair ho' (ihx (hST.mono_left hT)) (ihy (hST.mono_left hU)) hb hT hU hbT hbU hTU

theorem Patched.mono (h : Patched S p q) (hST : S ⊆ T) : Patched T p q :=
  ⟨h.m, fun b hb => h.blk b fun hS => hb (hST hS), h.atom⟩

theorem Patched.valid (h : Patched S p q) (hx : p.Valid x) : q.Valid x := by
  cases x with
  | stat s => trivial
  | blk b => exact (show q.m.Used b by rw [h.m]; exact hx)

/-- The pairs of a copy are no blocks of the pool before it. -/
theorem Patched.grown {s : Pool n} (h : Patched S q s) (hle : p.Grown q)
    (hS : ∀ b ∈ S, ¬ p.m.Used b) : p.Grown s where
  used := by
    intro b hb
    rw [h.m]
    exact hle.used b hb
  fixed := fun b hb hf => (h.blk b fun hbS => hS b hbS hb).trans (hle.fixed b hb hf)
  atom := fun b hb => (h.atom b).trans (hle.atom b hb)

theorem wp_listClone (k : ℕ) (he : p.Valid e) :
    Wp (growth n) (listClone k e) p fun r q =>
      q.Valid r ∧ ∃ S, Tree q S r ∧ ∀ b ∈ S, ¬ p.m.Used b ∧ q.m.Used b := by
  induction k generalizing p e with
  | zero => exact wp_stuck
  | succ k ih =>
      refine Wp.read_bind (wp_yleisAtom p e) fun atom hatom => ?_
      subst hatom
      refine Wp.ite (fun h => Wp.pure ⟨he, ∅, .atom h, nofun⟩) fun _ => ?_
      refine follows_ylpcar.bind he fun x hx => ?_
      refine Wp.bind (ih hx) ?_
      rintro car q hq hle ⟨hcar, T, hT, hTnew⟩
      refine follows_ylpcdr.bind (he.grown hle) fun y hy => ?_
      refine Wp.bind (ih hy) ?_
      rintro cdr q' hq' hle' ⟨hcdr, U, hU, hUnew⟩
      refine (wp_ylcons (hcar.grown hle') hcdr).mono ?_
      rintro _ s - hle'' ⟨b, rfl, hnew, hb, ho⟩
      have hT' := (hT.grown hq hcar hle').grown hq' (hcar.grown hle') hle''
      have hU' := hU.grown hq' hcdr hle''
      have hTU : Disjoint T U := Set.disjoint_left.2 fun x hxT hxU =>
        (hUnew x hxU).1 (hTnew x hxT).2
      refine ⟨hb, insert b (T ∪ U), .pair ho hT' hU' (Set.mem_insert b _) ?_ ?_ ?_ ?_ hTU, ?_⟩
      · exact fun x hx => Or.inr (Or.inl hx)
      · exact fun x hx => Or.inr (Or.inr hx)
      · exact fun hbT => hnew (hle'.used b (hTnew b hbT).2)
      · exact fun hbU => hnew (hUnew b hbU).2
      · rintro x (rfl | hx | hx)
        · exact ⟨fun h => hnew (hle'.used x (hle.used x h)), hb⟩
        · exact ⟨(hTnew x hx).1, hle''.used x (hle'.used x (hTnew x hx).2)⟩
        · exact ⟨fun h => (hUnew x hx).1 (hle.used x h), hle''.used x (hUnew x hx).2⟩

theorem wp_associated (k ty : ℕ) (he : p.Valid e) :
    Wp (growth n) (associated k ty e) p fun r q => q.Valid r.2 :=
  Wp.ite (fun _ => Wp.bind (wp_listClone k he) fun _ _ _ _ h => Wp.pure h.1) fun _ => Wp.pure he

theorem wp_assoc (c : Etcxt n) (erange : Bool) (k : ℕ) (x : Ref n) (hy : p.Valid y) :
    Wp (growth n) (assoc c erange k x y) p fun r q => q.Valid r.2 := by
  refine Wp.of_inv fun hp => Wp.read_bind (reads_symOf x) fun s _ => ?_
  cases s with
  | none => exact wp_undefined
  | some sym =>
      refine Wp.read_bind (path_listFind c k x y) fun r hr => ?_
      cases r with
      | some r =>
          have hr := hp.valid_of_path hy (hr r rfl)
          refine follows_ylcar.bind hr fun s _ => Wp.read_bind (reads_ylestype s) fun ty _ => ?_
          exact follows_ylcadr.bind hr fun v hv => wp_associated k ty hv
      | none =>
          refine Wp.read_bind (Wp.ok (Q := fun q _ => q = p) rfl rfl) ?_
          rintro q rfl
          cases hget : ylsluGet (c.table q) sym <|> ylsluGet q.gsym sym with
          | some v => exact wp_associated k v.1 (valid_of_ylsluGet hp c hget)
          | none =>
              have hnumber : ∀ d, Wp (growth n)
                  (create (.dbl d) >>= fun r => pure (0, r)) q fun r q => q.Valid r.2 := fun d =>
                Wp.bind (returns_create (fun _ => trivial) nofun nofun) fun _ _ _ _ h => Wp.pure h
              cases c.strtod sym with
              | none => exact wp_undefined
              | some d =>
                  cases erange with
                  | true => exact wp_undefined
                  | false => exact hnumber d

/-- The object of a pair with the given field and the other one. -/
def Side.pair (x y : Ref n) : Side → Obj n
  | .car => .pair (.at x) (.at y)
  | .cdr => .pair (.at y) (.at x)

theorem wp_get {side : Side} (ho : (p.blk b).obj = side.pair x y) :
    Wp (Law.read _) (side.get (.blk b)) p fun r _ => r = x := by
  cases side with
  | car => exact Wp.ok (ylcar_pair ho) rfl
  | cdr => exact Wp.ok (ylcdr_pair ho) rfl

theorem ylpset_pair {side : Side} (ho : (p.blk b).obj = side.pair x y) :
    ylpset side (.blk b) v p =
      .ok () (p.setBlk b { p.blk b with obj := side.pair v y }) := by
  cases side <;> simp [ylpset, ho, Side.pair]

theorem good_assign {side : Side} (hp : p.Good) (hb : p.m.Used b)
    (ho : (p.blk b).obj = side.pair x y) (hv : p.Valid v) :
    (p.setBlk b { p.blk b with obj := side.pair v y }).Good := by
  have hrefs := hp.refs b hb
  rw [ho] at hrefs
  have hy : p.Valid y := by
    cases side <;> exact hrefs y (by simp [Side.pair, Obj.refs, Ptr.refs])
  refine hp.good_setBlk hb (fun x hx _ => hp.full x hx) (fun fd => ?_) (fun q => ?_) ?_ ?_
  · rw [ho]
    cases side <;> simp [Side.pair]
  · cases side <;> exact Or.inr ⟨_, _, rfl, rfl⟩
  · intro r hr
    have hr' : r = v ∨ r = y := by
      cases side <;> simpa [Side.pair, Obj.refs, Ptr.refs, or_comm] using hr
    rcases hr' with rfl | rfl
    · exact hv
    · exact hy
  · cases side <;> simp [Side.pair]

theorem wp_ylpset {side : Side} (hb : p.m.Used b) (ho : (p.blk b).obj = side.pair x y)
    (hv : p.Valid v) (hbS : b ∈ S) :
    Wp (patching S) (ylpset side (.blk b) v) p fun _ q => (q.blk b).obj = side.pair v y := by
  refine Wp.ok_of_le (ylpset_pair ho) fun hp => ?_
  have hself := Pool.obj_setBlk_self p b { p.blk b with obj := side.pair v y }
  refine ⟨good_assign hp hb ho hv, ⟨rfl, fun z hz => ?_, fun z => ?_⟩, hself⟩
  · have hzb : z ≠ b := by
      rintro rfl
      exact hz hbS
    exact Pool.obj_setBlk_of_ne p _ hzb
  · by_cases hzb : z = b
    · rw [hzb, ho]
      refine (congrArg Obj.isAtom hself).trans ?_
      cases side <;> rfl
    · exact congrArg Obj.isAtom (Pool.obj_setBlk_of_ne p _ hzb)

theorem wp_lastPair (k : ℕ) (he : Tree p S e) :
    Wp (Law.read _) (lastPair k e) p fun w _ =>
      p.Path e w ∧ ∃ b ∈ S, ∃ x y, w = .blk b ∧ (p.blk b).obj = .pair (.at x) (.at y) := by
  induction k generalizing S e with
  | zero => exact wp_stuck
  | succ k ih =>
      cases he with
      | atom hatom =>
          refine Wp.read_bind (R := fun _ _ => False) ?_ nofun
          refine Wp.read_bind (wp_yleisAtom p e) fun b hb => ?_
          rw [hb, hatom]
          exact wp_undefined
      | @pair _ T U b x y ho hx hy hb hT hU hbT hbU hTU =>
          have hcdr : ylcdr (.blk b) p = .ok _ p := ylcdr_pair ho
          refine Wp.read_bind (Wp.ok (Q := fun r _ => r = _) hcdr rfl) ?_
          rintro _ rfl
          refine Wp.ite (fun _ => Wp.pure ?_) fun _ => (ih hy).mono ?_
          · exact ⟨Relation.ReflTransGen.refl, b, hb, x, _, rfl, ho⟩
          · rintro w _ - - ⟨hpath, b', hb', h⟩
            exact ⟨Relation.ReflTransGen.head ⟨_, _, ho, Or.inr rfl⟩ hpath, b', hU hb', h⟩

theorem Wp.patching_mono {α : Type} {f : Hp n α} {Q : α → Pool n → Prop}
    (h : Wp (patching S) f p Q) (hST : S ⊆ T) : Wp (patching T) f p Q :=
  h.law id fun _ _ ht hle => ⟨ht, hle.mono hST⟩

/-- One half of `_mreplace` assigns to the pair itself or to the pairs of one side. -/
theorem wp_mreplaceSide (c : Etcxt n) (k : ℕ) (enter : Ref n → Hp n Bool) (side : Side)
    (hb : p.m.Used b) (ho : (p.blk b).obj = side.pair x y) (ha : p.Valid a) (hbT : b ∉ T)
    (henter : Wp (patching T) (enter x) p fun _ _ => True) :
    Wp (patching (insert b T)) (mreplaceSide c k enter side (.blk b) a) p fun _ q =>
      ∃ x', (q.blk b).obj = side.pair x' y := by
  refine Wp.of_inv fun hp => Wp.read_bind (wp_get ho) ?_
  rintro x rfl
  refine Wp.read_bind (wp_yleisAtom p x) fun _ _ => Wp.ite (fun _ => ?_) fun _ => ?_
  · refine Wp.read_bind (path_listFind c k _ a) fun r hr => ?_
    cases r with
    | none => exact Wp.pure ⟨_, ho⟩
    | some r =>
        refine Wp.read_bind (follows_ylcadr p r) fun v hv => ?_
        have hvalid := hp.valid_of_path ha ((hr r rfl).trans hv)
        exact Wp.bind (wp_ylpset hb ho hvalid (Set.mem_insert b T)) fun _ _ _ _ h =>
          Wp.pure ⟨v, h⟩
  · have hkeep : Wp (patching T) (enter x) p fun _ q => ∃ x', (q.blk b).obj = side.pair x' y :=
      henter.mono fun _ q _ hle _ => ⟨x, (hle.blk b hbT).trans ho⟩
    exact Wp.patching_mono hkeep (Set.subset_insert b T)

theorem wp_mreplace (c : Etcxt n) (k : ℕ) (he : Tree p S e) (hv : p.Valid e)
    (ha : p.Valid a) : Wp (patching S) (mreplace c k e a) p fun _ _ => True := by
  induction k generalizing p S e with
  | zero => exact wp_stuck
  | succ k ih =>
      refine Wp.read_bind (wp_yleisAtom p e) fun atom hatom => ?_
      cases he with
      | atom he =>
          rw [hatom, he]
          exact Wp.pure trivial
      | @pair _ T U b x y ho hx hy hb hT hU hbT hbU hTU =>
          refine Wp.ite (fun _ => Wp.pure trivial) fun _ => Wp.of_inv fun hp => ?_
          have hrefs := hp.refs b hv
          rw [ho] at hrefs
          have hcar := hrefs x List.mem_cons_self
          have hcdr := hrefs y (List.mem_cons_of_mem _ List.mem_cons_self)
          have hleft := wp_mreplaceSide c k (fun x => mreplace c k x a) .car hv ho ha hbT
            (ih hx hcar ha)
          have hTS : insert b T ⊆ S := Set.insert_subset hb hT
          refine Wp.bind (Wp.patching_mono (hleft.mono fun _ q _ hle h => (⟨hle, h⟩ :
            Patched (insert b T) p q ∧ _)) hTS) ?_
          rintro ok q - - ⟨hle, x', ho'⟩
          refine Wp.ite (fun _ => ?_) fun _ => Wp.pure trivial
          have hdisj : Disjoint U (insert b T) :=
            Set.disjoint_insert_right.2 ⟨hbU, hTU.symm⟩
          have hright := wp_mreplaceSide c k (fun x => mreplace c k x a) .cdr (hle.valid hv) ho'
            (hle.valid ha) hbU (ih (hy.patched hle hdisj) (hle.valid hcdr) (hle.valid ha))
          have hUS : insert b U ⊆ S := Set.insert_subset hb hU
          exact (Wp.patching_mono hright hUS).mono fun _ _ _ _ _ => trivial

end Copy

end Eval

end Ylisp
