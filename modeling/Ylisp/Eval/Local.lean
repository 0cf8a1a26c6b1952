import Ylisp.Eval.BaseBlocks
import Ylisp.Eval.HeapSpec

/-!
# Assignments to a binding

When the symbol is bound in the association list, `_set` writes the kind into
the symbol atom that is the key of the binding, and a new cdr into the binding.
`Rebound` says what is left of the heap. Every other binding keeps its value,
and a symbol atom keeps its kind unless it is that key; so the assignment
changes nothing but the binding if and only if the key has the kind already
(`onlyBinding_iff`).
-/

namespace Ylisp

namespace Eval

open Mempool Effect

variable {n : ℕ}

/-- The kind and the value that the association list `y` gives to `x`, with the
binding, as `_assoc` reads them. -/
def given (c : Etcxt n) (k : ℕ) (x y : Ref n) : Hp n (Option (Ref n × ℕ × Ref n)) := do
  match ← listFind c k x y with
  | none => pure none
  | some r => do
      let ty ← ylestype (← ylcar r)
      let v ← ylcadr r
      pure (some (r, ty, v))

def kindOf (p : Pool n) : Ref n → ℕ
  | .stat s => p.statSt s
  | .blk b => (p.blk b).st

theorem ylestype_eq (p : Pool n) (e : Ref n) : ylestype e p = .ok (kindOf p e) p := by
  cases e <;> rfl

structure Rebound (p q : Pool n) (r key : Ref n) (ty : ℕ) : Prop where
  obj : ∀ e, p.Valid e → e ≠ r → q.obj e = p.obj e
  binding : ∃ d d', p.obj r = .pair (.at key) (.at d) ∧ q.obj r = .pair (.at key) (.at d')
  kind : ∀ e, p.Valid e → kindOf q e = if e = key then ty else kindOf p e
  gsym : q.gsym = p.gsym
  cxtl : q.cxtl = p.cxtl

section Rebound

variable {p q : Pool n} {r key val v x y : Ref n} {ty : ℕ}

theorem ylcar_ok {e a : Ref n} (h : ylcar e p = .ok a q) :
    q = p ∧ ∃ d, p.obj e = .pair (.at a) d := by
  obtain ⟨atom, t, hatom, h⟩ := ok_of_bind h
  cases hatom
  split at h
  · cases h
  · unfold ylpcar at h
    split at h
    · rename_i a' d hobj
      cases h
      exact ⟨rfl, d, hobj⟩
    · cases h

theorem setEstype_eq (p : Pool n) (e : Ref n) (ty : ℕ) :
    ∃ q, setEstype e ty p = .ok () q ∧ q.m = p.m ∧ q.gsym = p.gsym ∧ q.cxtl = p.cxtl ∧
      (∀ x, q.obj x = p.obj x) ∧ ∀ x, kindOf q x = if x = e then ty else kindOf p x := by
  cases e with
  | stat s =>
      refine ⟨_, rfl, rfl, rfl, rfl, fun x => by cases x <;> rfl, fun x => ?_⟩
      cases x with
      | stat s' =>
          change Function.update p.statSt s ty s' = _
          rw [Function.update_apply]
          simp only [Ref.stat.injEq]
          rfl
      | blk b => rfl
  | blk b =>
      refine ⟨_, rfl, rfl, rfl, rfl, fun x => ?_, fun x => ?_⟩
      · cases x with
        | stat s => rfl
        | blk x => exact obj_setSt p b ty x
      · cases x with
        | stat s => rfl
        | blk x =>
            by_cases hx : x = b
            · subst hx
              rw [if_pos rfl, kindOf, Pool.setBlk_self]
            · rw [if_neg fun h => hx (Ref.blk.inj h), kindOf, Pool.setBlk_of_ne p _ hx, kindOf]

theorem create_ok {o : Obj n} (hp : p.Wired) (h : create o p = .ok x q) :
    ∃ b, x = .blk b ∧ ¬ p.m.Used b ∧ q.gsym = p.gsym ∧ q.cxtl = p.cxtl ∧
      q.statSt = p.statSt ∧ ∀ z, z ≠ b → q.blk z = p.blk z := by
  unfold create at h
  split at h
  · cases h
  · rename_i b t hb
    cases h
    obtain ⟨-, -, hnew, -, hblk⟩ := hp.ylmpBlock hb
    unfold Mempool.ylmpBlock at hb
    split at hb
    · cases hb
    · cases hb
      refine ⟨b, rfl, hnew, rfl, rfl, rfl, fun z hz => ?_⟩
      rw [Pool.setBlk_of_ne _ _ hz, hblk z hz]

theorem ylpsetcdr_ok (h : ylpsetcdr r x p = .ok () q) :
    ∃ b a d, r = .blk b ∧ (p.blk b).obj = .pair a d ∧
      q = p.setBlk b { p.blk b with obj := .pair a (.at x) } := by
  unfold ylpsetcdr ylpset at h
  split at h
  · cases h
  · rename_i b
    dsimp only at h
    cases hobj : (p.blk b).obj with
    | pair a d =>
        rw [hobj] at h
        cases h
        exact ⟨b, a, d, rfl, hobj, rfl⟩
    | _ =>
        rw [hobj] at h
        cases h

/-- What `_set` does to a binding that it has found. -/
theorem rebound_of_set {c : Etcxt n} {k : ℕ} {s a : Ref n} {sym : List UInt8}
    {desc : Option (List UInt8)} {bgsym : Bool} (hp : p.Good) (hr : p.Valid r)
    (hfind : setFind c k s a p = .ok (sym, some r) p)
    (hset : set c k s val a desc ty bgsym p = .ok v q) :
    ∃ key, ylcar r p = .ok key p ∧ Rebound p q r key ty := by
  rw [set, bind_of_ok hfind] at hset
  dsimp only at hset
  obtain ⟨key, p₀, hkey, hkind⟩ := ok_of_bind hset
  obtain ⟨rfl, d, hobj⟩ := ylcar_ok hkey
  obtain ⟨p₁, hst, hm, hgsym, hcxtl, hobj₁, hkind₁⟩ := setEstype_eq p₀ key ty
  rw [bind_of_ok hst] at hkind
  obtain ⟨x, p₂, hcons, htail⟩ := ok_of_bind hkind
  obtain ⟨u, p₃, hcdr, hend⟩ := ok_of_bind htail
  cases hend
  have hwired : p₁.Wired := by
    refine hp.toWired.congr hm (fun b => hobj₁ (.blk b)) fun e he => hp.tables e ?_
    rw [Pool.tables, hgsym, hcxtl] at he
    exact he
  obtain ⟨b', rfl, hnew, hgsym₂, hcxtl₂, hstat₂, hblk₂⟩ := create_ok hwired hcons
  obtain ⟨b, a', d', rfl, hpair, rfl⟩ := ylpsetcdr_ok hcdr
  rw [hm] at hnew
  have hne : ∀ z, p₀.m.Used z → z ≠ b' := by
    rintro z hz rfl
    exact hnew hz
  have hobj₂ : ∀ e, p₀.Valid e → p₂.obj e = p₀.obj e := by
    intro e he
    rw [← hobj₁]
    cases e with
    | stat s => rfl
    | blk z => exact congrArg Yle.obj (hblk₂ z (hne z he))
  have hkind₂ : ∀ e, p₀.Valid e → kindOf p₂ e = kindOf p₁ e := by
    intro e he
    cases e with
    | stat s => exact congrFun hstat₂ s
    | blk z => exact congrArg Yle.st (hblk₂ z (hne z he))
  refine ⟨key, hkey, ?_, ?_, ?_, ?_, ?_⟩
  · intro e he her
    rw [← hobj₂ e he]
    cases e with
    | stat s => rfl
    | blk z =>
        have hz : z ≠ b := fun h => her (congrArg Ref.blk h)
        exact congrArg Yle.obj (Pool.setBlk_of_ne p₂ _ hz)
  · have hpair' : (p₂.blk b).obj = .pair (.at key) d := (hobj₂ (.blk b) hr).trans hobj
    rw [hpair] at hpair'
    obtain ⟨rfl, rfl⟩ := Obj.pair.inj hpair'
    have hsound := hp.wf.used b hr
    rw [show (p₀.blk b).obj = .pair (.at key) d' from hobj] at hsound
    rcases hsound with ⟨h, -⟩ | ⟨x, y, -, rfl⟩
    · cases h
    · exact ⟨y, _, hobj, congrArg Yle.obj (Pool.setBlk_self p₂ b _)⟩
  · intro e he
    rw [← hkind₁, ← hkind₂ e he]
    cases e with
    | stat s => rfl
    | blk z =>
        by_cases hz : z = b
        · rw [hz, kindOf, Pool.setBlk_self, kindOf]
        · exact congrArg Yle.st (Pool.setBlk_of_ne p₂ _ hz)
  · exact hgsym₂.trans hgsym
  · exact hcxtl₂.trans hcxtl

/-! ### What lookups see of it -/

section Lookup

variable {c : Etcxt n} {e a : Ref n} {nm : List UInt8}

theorem ylcdr_ok (h : ylcdr e p = .ok a q) : q = p ∧ ∃ d, p.obj e = .pair d (.at a) := by
  obtain ⟨atom, t, hatom, h⟩ := ok_of_bind h
  cases hatom
  split at h
  · cases h
  · unfold ylpcdr at h
    split at h
    · rename_i d a' hobj
      cases h
      exact ⟨rfl, d, hobj⟩
    · cases h

theorem valid_of_ylcar (hp : p.Good) (he : p.Valid e) (h : ylcar e p = .ok a p) : p.Valid a := by
  obtain ⟨-, d, hobj⟩ := ylcar_ok h
  exact hp.valid_of_mem_succ he (Pool.Link.mem_succ ⟨_, d, hobj, Or.inl rfl⟩)

theorem valid_of_ylcdr (hp : p.Good) (he : p.Valid e) (h : ylcdr e p = .ok a p) : p.Valid a := by
  obtain ⟨-, d, hobj⟩ := ylcdr_ok h
  exact hp.valid_of_mem_succ he (Pool.Link.mem_succ ⟨d, _, hobj, Or.inr rfl⟩)

theorem Rebound.isAtom (h : Rebound p q r key ty) (he : p.Valid e) :
    (q.obj e).isAtom = (p.obj e).isAtom := by
  by_cases her : e = r
  · obtain ⟨d, d', hp, hq⟩ := h.binding
    rw [her, hp, hq]
    rfl
  · rw [h.obj e he her]

theorem Rebound.ne_of_isAtom (h : Rebound p q r key ty) (he : (p.obj e).isAtom = true) :
    e ≠ r := by
  rintro rfl
  obtain ⟨d, d', hp, -⟩ := h.binding
  rw [hp] at he
  cases he

theorem Rebound.agree_yleisAtom (h : Rebound p q r key ty) (he : p.Valid e) :
    Agree p q (yleisAtom e) := by
  intro b u hu
  cases hu
  exact ⟨rfl, by rw [yleisAtom, h.isAtom he]⟩

theorem Rebound.agree_ylcar (h : Rebound p q r key ty) (he : p.Valid e) :
    Agree p q (ylcar e) := by
  intro b u hu
  obtain ⟨rfl, d, hobj⟩ := ylcar_ok hu
  refine ⟨rfl, ?_⟩
  by_cases her : e = r
  · obtain ⟨x, y, hp, hq⟩ := h.binding
    rw [her, hp] at hobj
    cases hobj
    rw [her]
    exact ylcar_pair hq
  · exact ylcar_pair ((h.obj e he her).trans hobj)

theorem Rebound.agree_ylcdr (h : Rebound p q r key ty) (he : p.Valid e) (her : e ≠ r) :
    Agree p q (ylcdr e) := by
  intro b u hu
  obtain ⟨rfl, d, hobj⟩ := ylcdr_ok hu
  exact ⟨rfl, ylcdr_pair ((h.obj e he her).trans hobj)⟩

/-- A symbol is compared by its name, which no assignment changes. -/
theorem Rebound.atomEq (h : Rebound p q r key ty) (hx : p.obj x = .sym nm) (hvx : p.Valid x)
    (he : p.Valid e) (hatom : (p.obj e).isAtom = true) :
    Eval.atomEq c q e x = Eval.atomEq c p e x := by
  have hqx : q.obj x = .sym nm := by
    rw [h.obj x hvx (h.ne_of_isAtom (by rw [hx]; rfl)), hx]
  unfold Eval.atomEq
  rw [hqx, hx, h.obj e he (h.ne_of_isAtom hatom)]
  cases p.obj e <;> rfl

theorem Rebound.agree_yleq (h : Rebound p q r key ty) (hx : p.obj x = .sym nm) (hvx : p.Valid x)
    (he : p.Valid e) (k : ℕ) : Agree p q (yleq c k e x) := by
  cases k with
  | zero => exact nofun
  | succ k =>
      refine Agree.ite (fun _ => Agree.pure _) fun _ => ?_
      refine Agree.bind (h.agree_yleisAtom he) fun atom1 h1 => ?_
      refine Agree.bind (h.agree_yleisAtom hvx) fun atom2 h2 => ?_
      have h2 : atom2 = true := by
        rw [yleisAtom, hx] at h2
        cases h2
        rfl
      subst h2
      cases atom1 with
      | false => exact Agree.pure _
      | true =>
          have hatom : (p.obj e).isAtom = true := (EStateM.Result.ok.inj h1).1
          intro b u hu
          cases hu
          exact ⟨rfl, congrArg (fun b => EStateM.Result.ok (ylb2e b) q) (h.atomEq hx hvx he hatom)⟩

theorem Rebound.agree_listFind (h : Rebound p q r key ty) (hp : p.Good)
    (hkey : (p.obj key).isAtom = true) (hx : p.obj x = .sym nm) (hvx : p.Valid x) :
    ∀ (k : ℕ) {y : Ref n}, p.Valid y → Agree p q (listFind c k x y)
  | 0, _, _ => nofun
  | k + 1, y, hy => by
      refine Agree.bind (h.agree_yleisAtom hy) fun _ _ => ?_
      refine Agree.ite (fun _ => Agree.pure _) fun _ => ?_
      refine Agree.bind (h.agree_ylcar hy) fun z hz => ?_
      have hvz := valid_of_ylcar hp hy hz
      refine Agree.bind (h.agree_yleisAtom hvz) fun atom hatom => ?_
      refine Agree.ite (fun _ => Agree.pure _) fun hpair => ?_
      -- the car of the binding is an atom, so the search ends before it follows its cdr
      have hyr : y ≠ r := by
        rintro rfl
        obtain ⟨d, d', hpy, -⟩ := h.binding
        obtain ⟨-, d'', hobj⟩ := ylcar_ok hz
        rw [hpy] at hobj
        cases hobj
        exact hpair ((EStateM.Result.ok.inj hatom).1.symm.trans hkey)
      refine Agree.bind (Agree.bind (h.agree_ylcar hy) fun w hw =>
        h.agree_ylcar (valid_of_ylcar hp hy hw)) fun w hw => ?_
      obtain ⟨w', t, hw', hw⟩ := ok_of_bind hw
      rw [(ylcar_ok hw').1] at hw hw'
      have hvw := valid_of_ylcar hp (valid_of_ylcar hp hy hw') hw
      refine Agree.bind (h.agree_yleq hx hvx hvw k) fun eq _ => Agree.ite (fun _ => ?_) fun _ => ?_
      · exact Agree.bind (h.agree_ylcar hy) fun _ _ => Agree.pure _
      · refine Agree.bind (h.agree_ylcdr hy hyr) fun d hd => ?_
        exact Rebound.agree_listFind h hp hkey hx hvx k (valid_of_ylcdr hp hy hd)

theorem valid_of_listFind {k : ℕ} {y : Ref n} (hp : p.Good) (hy : p.Valid y)
    (h : listFind c k x y p = .ok (some e) q) : q = p ∧ p.Valid e := by
  obtain ⟨rfl, hpath⟩ := (path_listFind c k x y).of_read_ok h
  exact ⟨rfl, hp.valid_of_path hy (hpath e rfl)⟩

/-- An element equal to a symbol is a symbol of that name. -/
theorem sym_of_yleq (hx : p.obj x = .sym nm) (e : Ref n) (k : ℕ) :
    Wp (Law.read _) (yleq c k e x) p fun eq _ => eq ≠ ylnil → p.obj e = .sym nm := by
  cases k with
  | zero => exact wp_stuck
  | succ k =>
      refine Wp.ite (fun hex => Wp.pure fun _ => by rw [hex, hx]) fun _ => ?_
      refine Wp.read_bind (wp_yleisAtom p e) fun atom1 _ => ?_
      refine Wp.read_bind (wp_yleisAtom p x) fun atom2 h2 => ?_
      rw [hx] at h2
      subst h2
      cases atom1 with
      | false => exact Wp.pure fun h => absurd rfl h
      | true =>
          refine Wp.ok rfl fun hne => ?_
          have heq : atomEq c p e x = true := by
            by_contra hfalse
            rw [Bool.not_eq_true] at hfalse
            exact hne (congrArg ylb2e hfalse)
          unfold atomEq at heq
          rw [hx] at heq
          cases he : p.obj e with
          | sym nm' =>
              rw [he] at heq
              rw [of_decide_eq_true heq]
          | _ =>
              rw [he] at heq
              cases heq

/-- The key of a binding that is found for a symbol is a symbol of that name. -/
theorem key_listFind (hx : p.obj x = .sym nm) : ∀ (k : ℕ) (y : Ref n),
    Wp (Law.read _) (listFind c k x y) p fun r _ =>
      ∀ e ∈ r, ∃ key, ylcar e p = .ok key p ∧ p.obj key = .sym nm
  | 0, _ => wp_stuck
  | k + 1, y => by
      refine Wp.read_bind (wp_yleisAtom p y) fun _ _ => Wp.ite (fun _ => Wp.pure nofun) fun _ => ?_
      refine Wp.read_bind (follows_ylcar p y) fun z _ => ?_
      refine Wp.read_bind (wp_yleisAtom p z) fun _ _ => Wp.ite (fun _ => Wp.pure nofun) fun _ => ?_
      refine Wp.read_bind (follows_ylcaar p y).read_eq fun w hw => ?_
      refine Wp.read_bind (sym_of_yleq hx w k) fun eq heq => Wp.ite (fun hne => ?_) fun _ => ?_
      · refine Wp.read_bind (follows_ylcar p y).read_eq fun e he => Wp.pure ?_
        rintro _ ⟨⟩
        have hcar : ylcar e p = .ok w p := (bind_of_ok he.1).symm.trans hw.1
        exact ⟨w, hcar, heq hne⟩
      · exact Wp.read_bind (follows_ylcdr p y) fun d _ => key_listFind hx k d

theorem Rebound.kind_eq (h : Rebound p q r key ty) (hkind : kindOf p key = ty)
    (he : p.Valid e) : kindOf q e = kindOf p e := by
  rw [h.kind e he]
  split
  · rename_i hek
    rw [hek, hkind]
  · rfl

theorem Rebound.agree_binding (h : Rebound p q r key ty) (hp : p.Good)
    (hkind : kindOf p key = ty) (he : p.Valid e) (her : e ≠ r) :
    Agree p q (do
      let ty ← ylestype (← ylcar e)
      let v ← ylcadr e
      pure (some (e, ty, v))) := by
  refine Agree.bind (h.agree_ylcar he) fun u hu => ?_
  have hst : Agree p q (ylestype u) := by
    intro m t hm
    rw [ylestype_eq] at hm ⊢
    cases hm
    rw [h.kind_eq hkind (valid_of_ylcar hp he hu)]
    exact ⟨rfl, rfl⟩
  refine Agree.bind hst fun m _ => Agree.bind ?_ fun v _ => Agree.pure _
  exact Agree.bind (h.agree_ylcdr he her) fun d hd => h.agree_ylcar (valid_of_ylcdr hp he hd)

theorem given_some {res : Option (Ref n × ℕ × Ref n)}
    (h : (do
      let ty ← ylestype (← ylcar e)
      let v ← ylcadr e
      pure (some (e, ty, v)) : Hp n _) p = .ok res q) : ∃ w, res = some (e, w) := by
  obtain ⟨u, p₁, -, h⟩ := ok_of_bind h
  obtain ⟨m, p₂, -, h⟩ := ok_of_bind h
  obtain ⟨v, p₃, -, h⟩ := ok_of_bind h
  cases h
  exact ⟨_, rfl⟩

theorem Rebound.agree_given (h : Rebound p q r key ty) (hp : p.Good)
    (hkey : (p.obj key).isAtom = true) (hkind : kindOf p key = ty) (hx : p.obj x = .sym nm)
    (hvx : p.Valid x) {k : ℕ} {y : Ref n} (hy : p.Valid y) {res : Option (Ref n × ℕ × Ref n)}
    (hres : given c k x y p = .ok res p) (hne : ∀ e ∈ res, e.1 ≠ r) :
    given c k x y q = .ok res q := by
  obtain ⟨o, t, hfind, htail⟩ := ok_of_bind hres
  obtain ⟨ht, hfindq⟩ := h.agree_listFind hp hkey hx hvx k hy o t hfind
  rw [ht] at hfind htail
  rw [given, bind_of_ok hfindq]
  cases o with
  | none =>
      cases htail
      rfl
  | some e =>
      have he := (valid_of_listFind hp hy hfind).2
      have her : e ≠ r := by
        obtain ⟨w, rfl⟩ := given_some htail
        exact hne _ rfl
      exact (h.agree_binding hp hkind he her _ _ htail).2

end Lookup

end Rebound

theorem listFind_of_setFind {c : Etcxt n} {k : ℕ} {s a r : Ref n} {sym : List UInt8}
    {p : Pool n} (h : setFind c k s a p = .ok (sym, some r) p) :
    p.obj s = .sym sym ∧ listFind c k s a p = .ok (some r) p := by
  obtain ⟨o, t, hs, hfind⟩ := ok_of_bind h
  have ht := ((reads_symOf s).of_read_ok hs).1
  rw [ht] at hs hfind
  cases o with
  | none => cases hfind
  | some name =>
      have hobj : p.obj s = .sym name := by
        unfold symOf at hs
        split at hs
        · rename_i name' hname
          cases hs
          exact hname
        · cases hs
      dsimp only at hfind
      split at hfind
      · cases hfind
      · obtain ⟨o, u, hlist, hend⟩ := ok_of_bind hfind
        have hu := ((path_listFind c k s a).of_read_ok hlist).1
        rw [hu] at hlist hend
        cases o with
        | none => cases hend
        | some e =>
            obtain ⟨d, u₁, -, hend⟩ := ok_of_bind hend
            obtain ⟨atom, u₂, -, hend⟩ := ok_of_bind hend
            split at hend
            · cases hend
            · cases hend
              exact ⟨hobj, hlist⟩

/-- What an assignment to the binding `r` is to leave alone: the symbol tables, the kind and
the value that an association list gives by any other binding, and the kind of the symbol
atoms, which is the kind that a fresh binding of a parameter receives. Among these is the atom that
is the key of `r` itself, even where no other pair refers to it. -/
structure OnlyBinding (c : Etcxt n) (r : Ref n) (p q : Pool n) : Prop where
  gsym : q.gsym = p.gsym
  cxtl : q.cxtl = p.cxtl
  others : ∀ k x y nm res, p.Valid x → p.obj x = .sym nm → p.Valid y →
    given c k x y p = .ok res p → (∀ e ∈ res, e.1 ≠ r) → given c k x y q = .ok res q
  fresh : ∀ e nm, p.Valid e → p.obj e = .sym nm → kindOf q e = kindOf p e

/-- The result of a computation, `none` when it fails. -/
def answerOf {α : Type} (x : Hp n α) (p : Pool n) : Option α :=
  match x p with
  | .ok a _ => some a
  | .error _ _ => none

def poolAfter {α : Type} (x : Hp n α) (p : Pool n) : Pool n :=
  match x p with
  | .ok _ q => q
  | .error _ q => q

/-- The assignment changes nothing but the binding if and only if the key of the binding has
the kind already. -/
theorem onlyBinding_iff {c : Etcxt n} {k : ℕ} {s a r val v : Ref n} {sym : List UInt8}
    {desc : Option (List UInt8)} {ty : ℕ} {bgsym : Bool} {p q : Pool n} (hp : p.Good)
    (ha : p.Valid a) (hfind : setFind c k s a p = .ok (sym, some r) p)
    (hset : set c k s val a desc ty bgsym p = .ok v q) :
    OnlyBinding c r p q ↔ (ylcar r >>= ylestype) p = .ok ty p := by
  obtain ⟨hx, hlist⟩ := listFind_of_setFind hfind
  have hr := (valid_of_listFind hp ha hlist).2
  obtain ⟨key, hcar, hobj⟩ := ((key_listFind hx k a).of_read_ok hlist).2 r rfl
  obtain ⟨key', hcar', h⟩ := rebound_of_set hp hr hfind hset
  obtain rfl : key = key' := (EStateM.Result.ok.inj (hcar.symm.trans hcar')).1
  have hkey := valid_of_ylcar hp hr hcar
  have hst : (ylcar r >>= ylestype) p = .ok (kindOf p key) p :=
    (bind_of_ok hcar).trans (ylestype_eq p key)
  rw [hst]
  constructor
  · intro honly
    have hsame := honly.fresh key sym hkey hobj
    rw [h.kind key hkey, if_pos rfl] at hsame
    rw [hsame]
  · intro heq
    have hkind : kindOf p key = ty := (EStateM.Result.ok.inj heq).1
    refine ⟨h.gsym, h.cxtl, ?_, fun e nm he _ => h.kind_eq hkind he⟩
    intro k x y nm res hvx hx hy hres hne
    exact h.agree_given hp (by rw [hobj]; rfl) hkind hx hvx hy hres hne

/-- A pool with the association lists `((x t))` and `((x t))` of two calls of a function with
the parameter list `(x)`, all with one symbol atom, and the argument list `(t)`. -/
def callPool : Pool 20 :=
  poolOf 20
    [.sym (cstr "x"), .pair (.at (.blk 0)) (.at (.blk 2)), .pair (.at ylt) (.at ylnil),
      .pair (.at (.blk 1)) (.at ylnil), .pair (.at (.blk 0)) (.at (.blk 5)),
      .pair (.at ylt) (.at ylnil), .pair (.at (.blk 4)) (.at ylnil),
      .pair (.at (.blk 0)) (.at ylnil), .pair (.at ylt) (.at ylnil)]
    (symtab [])

theorem onlyBinding_iff_call :
    let c := plainCxt 20 false
    let q := poolAfter (set c 5 (.blk 0) ylnil (.blk 3) none symDef true) callPool
    OnlyBinding c (.blk 1) callPool q ↔
      (ylcar (.blk 1) >>= ylestype) callPool = .ok symDef callPool := by
  intro c q
  have hgood : callPool.Good :=
    poolOf_good (by decide) (by simp [plain, below, ylnil, ylt]) (by simp)
  have hvalid : callPool.Valid (.blk 3) :=
    (poolOf_used (n := 20) (by decide) 3 (symtab [])).2 (by decide)
  have hfind : setFind c 5 (.blk 0) (.blk 3) callPool = .ok (cstr "x", some (.blk 1)) callPool :=
    rfl
  have hset : set c 5 (.blk 0) ylnil (.blk 3) none symDef true callPool = .ok ylnil q := rfl
  exact onlyBinding_iff hgood hvalid hfind hset

/-- The kind `x` has in the other association list, and the one it receives in a fresh call,
before and after `x` is made a macro in the first one. -/
theorem not_onlyBinding :
    let c := plainCxt 20 false
    let assign := set c 5 (.blk 0) ylt (.blk 3) none symMac true
    let other := given c 5 (.blk 0) (.blk 6)
    let fresh := ylpair 3 (.blk 7) (.blk 8) >>= given c 5 (.blk 0)
    let q := poolAfter assign callPool
    answerOf assign callPool = some ylt ∧
      answerOf other callPool = some (some (.blk 4, symDef, ylt)) ∧
      answerOf other q = some (some (.blk 4, symMac, ylt)) ∧
      (answerOf fresh callPool).map (Option.map fun w => w.2) = some (some (symDef, ylt)) ∧
      (answerOf fresh q).map (Option.map fun w => w.2) = some (some (symMac, ylt)) := by
  decide +kernel

end Eval

end Ylisp
