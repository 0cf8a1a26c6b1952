import Ylisp.Lang.Call
import Ylisp.Lang.Carries

/-!
# The evaluator delivers what the language means

The machine of `yleval`, with its stacks and a collector that may run at each safe point, delivers
what `Evals` says, as long as the pool has the blocks that are taken on the way. The proof is by
induction on the evaluation: what an expression comes to does not depend on the frames below, so
each rule is one step of `yleval` followed by what its parts deliver.
-/

namespace Ylisp

namespace Lang

open Mempool Eval Effect

variable {n : ℕ}

section Eval

variable {c : Etcxt n} {names : Set (List UInt8)} {Γ : Globals n} {ρ : Locals n}
  {v w t u m : Tree n} {nm : List UInt8} {d d₁ d₂ : ℕ} {f : Fn} {ts vs : List (Tree n)}

theorem sound_eval (h : ∀ s e a erange, Ready c names Γ s.pool a ρ d → Safe s.pool a →
    Safe s.pool e → Denotes s.pool e t → ∃ k, Carries c names s (evalForm c erange k e a) v d) :
    Sound c names Γ ρ v d (.eval t) := by
  intro s e a hs hr hctl he
  refine delivers_eval hs hctl fun erange => ?_
  have hpool : (s.entered e a).pool = { s.pool with bbs := [a, e] ++ s.pool.bbs } := rfl
  have hr' : Ready c names Γ (s.entered e a).pool a ρ d := hpool ▸ hr.bbs
  have he' : Denotes (s.entered e a).pool e t := hpool ▸ he.bbs
  refine h _ e a erange hr' (.of_mem List.mem_cons_self (hr'.env.valid hr'.good.wf)) ?_ he'
  exact .of_mem (List.mem_cons_of_mem _ List.mem_cons_self) (he'.valid hr'.good.wf)

/-! ### Names -/

theorem evalForm_atom {p : Pool n} {e a : Ref n} {erange : Bool} {k : ℕ}
    (he : Denotes p e (.sym nm)) : evalForm c erange k e a p = evatomForm c erange k e a p := by
  rw [evalForm, bind_of_ok he.yleisAtom_eq]
  rfl

theorem evalForm_of_assoc {p q : Pool n} {e a : Ref n} {erange : Bool} {k : ℕ} {x : ℕ × Ref n}
    (he : Denotes p e (.sym nm)) (hx : assoc c erange k e a p = .ok x q) :
    evalForm c erange k e a p =
      (if x.1 = symMac then go (.eval x.2 a) else go (.ret x.2) : Hp n (Go n)) q := by
  rw [evalForm_atom he, evatomForm, bind_of_ok he.symOf_eq]
  dsimp only
  rw [bind_of_ok hx]

theorem sound_var (h : Found names Γ ρ nm false t) : Sound c names Γ ρ t 0 (.eval (.sym nm)) := by
  refine sound_eval fun s e a erange hr _ _ he => ?_
  obtain ⟨k, x, q, hassoc, hty, hadds, hx⟩ := makes_assoc erange hr.good he.obj_eq hr.env
    hr.globals hr.kinds h nofun
  have hrun : evalForm c erange k e a s.pool = .ok ⟨[], .ret x.2⟩ q := by
    rw [evalForm_of_assoc he hassoc, if_neg fun h => Bool.false_ne_true (hty.1 h)]
    rfl
  exact ⟨k, carries_ret hr.good hr.kinds hrun hadds le_rfl hx⟩

theorem sound_macVar (h : Found names Γ ρ nm true m) (hm : Sound c names Γ ρ v d (.eval m)) :
    Sound c names Γ ρ v (m.pairs + d) (.eval (.sym nm)) := by
  refine sound_eval fun s e a erange hr _ _ he => ?_
  obtain ⟨k, x, q, hassoc, hty, hadds, hx⟩ := makes_assoc erange hr.good he.obj_eq hr.env
    hr.globals hr.kinds h fun _ => (Nat.le_add_right _ _).trans hr.room
  have hrun : evalForm c erange k e a s.pool = .ok ⟨[], .eval x.2 a⟩ q := by
    rw [evalForm_of_assoc he hassoc, if_pos (hty.2 rfl)]
    rfl
  refine ⟨k, carries_tail hr.good hrun hadds le_rfl fun hkept => ?_⟩
  exact hm _ x.2 a hkept (hr.adds hadds le_rfl) rfl hx

/-! ### Calls by name -/

/-- A call by name, with what `_assoc` hands out for it. -/
theorem evalForm_of_name {p q : Pool n} {e f a l : Ref n} {erange : Bool} {k : ℕ} {x : ℕ × Ref n}
    (ho : p.obj e = .pair (.at f) (.at l)) (hf : p.obj f = .sym nm)
    (hx : assoc c erange k f a p = .ok x q) : evalForm c erange k e a p =
      (if x.1 = symMac then do
        let e ← ylcons x.2 (← ylcdr e)
        go (.eval e a)
      else do
        let p ← get
        match p.obj x.2 with
        | .sfunc f => do go (.call f (← ylcdr e) a)
        | .nfunc _ => do enter (.evfuncArgs x.2 a) (.evlis (← ylcdr e) a)
        | _ => ylinterpretUndefined .evalUndefined : Hp n (Go n)) q := by
  rw [evalForm_sym erange ho hf, evfuncForm, bind_of_ok (ylcar_pair ho), bind_of_ok (symOf_sym hf)]
  exact (bind_of_ok (ylcar_pair ho)).trans (bind_of_ok hx)

theorem sound_macCall (h : Found names Γ ρ nm true m)
    (hm : Sound c names Γ ρ v d (.eval (.pair m t))) :
    Sound c names Γ ρ v (m.pairs + 1 + d) (.eval (.pair (.sym nm) t)) := by
  refine sound_eval fun s e a erange hr _ _ he => ?_
  have hroom := hr.room
  obtain ⟨f, l, ho, hf, hl⟩ := he.exists_pair
  obtain ⟨k, x, q, hassoc, hty, hadds, hx⟩ := makes_assoc erange hr.good hf.obj_eq hr.env
    hr.globals hr.kinds h fun _ => by omega
  have hq := hadds.room
  rw [if_pos rfl] at hq hadds
  obtain ⟨e', q', hcons, hadds', he'⟩ := makes_ylcons names hadds.good hx
    (hl.adds hr.good hadds) (by omega)
  have ho' := (hadds.obj e (he.valid hr.good.wf)).trans ho
  have hrun : evalForm c erange k e a s.pool = .ok ⟨[], .eval e' a⟩ q' := by
    rw [evalForm_of_name ho hf.obj_eq hassoc, if_pos (hty.2 rfl), bind_of_ok (ylcdr_pair ho'),
      bind_of_ok hcons]
    rfl
  have hq' := hadds.trans hadds'
  refine ⟨k, carries_tail hr.good hrun hq' le_rfl fun hkept => ?_⟩
  exact hm _ e' a hkept (hr.adds hq' le_rfl) rfl he'

theorem sound_sfunc (h : Found names Γ ρ nm false (.atom (.sfunc f)))
    (hf : Sound c names Γ ρ v d (.call f ts)) :
    Sound c names Γ ρ v d (.eval (.pair (.sym nm) (.list ts))) := by
  refine sound_eval fun s e a erange hr ha he hd => ?_
  obtain ⟨g, l, ho, hg, hl⟩ := hd.exists_pair
  obtain ⟨k, x, q, hassoc, hty, hadds, hx⟩ := makes_assoc erange hr.good hg.obj_eq hr.env
    hr.globals hr.kinds h nofun
  rw [if_neg Bool.false_ne_true] at hadds
  have ho' := (hadds.obj e (hd.valid hr.good.wf)).trans ho
  have hsafe : Safe s.pool l := he.link ⟨_, _, ho, Or.inr rfl⟩
  have hget : (get : Hp n (Pool n)) q = .ok q q := rfl
  have hrun : evalForm c erange k e a s.pool = .ok ⟨[], .call f l a⟩ q := by
    rw [evalForm_of_name ho hg.obj_eq hassoc, if_neg fun h => Bool.false_ne_true (hty.1 h),
      bind_of_ok hget, hx.obj_eq]
    exact bind_of_ok (ylcdr_pair ho')
  refine ⟨k, carries_tail hr.good hrun hadds (Nat.zero_add d).le fun hkept => ?_⟩
  exact hf _ l a hkept (hr.adds hadds (Nat.zero_add d).le) rfl (ha.adds hr.good hadds)
    (hsafe.adds hr.good hadds) (hl.adds hr.good hadds)

theorem sound_nfunc (h : Found names Γ ρ nm false (.atom (.nfunc f)))
    (hargs : Sound c names Γ ρ (.list vs) d₁ (.evlis ts))
    (hf : Sound c names Γ ρ v d₂ (.call f vs)) :
    Sound c names Γ ρ v (d₁ + d₂) (.eval (.pair (.sym nm) (.list ts))) := by
  refine sound_eval fun s e a erange hr ha he hd => ?_
  obtain ⟨g, l, ho, hg, hl⟩ := hd.exists_pair
  obtain ⟨k, x, q, hassoc, hty, hadds, hx⟩ := makes_assoc erange hr.good hg.obj_eq hr.env
    hr.globals hr.kinds h nofun
  rw [if_neg Bool.false_ne_true] at hadds
  have ho' := (hadds.obj e (hd.valid hr.good.wf)).trans ho
  have hsafe : Safe s.pool l := he.link ⟨_, _, ho, Or.inr rfl⟩
  have hr' := hr.adds hadds (Nat.zero_add (d₁ + d₂)).le
  have ha' := ha.adds hr.good hadds
  have hget : ∀ p : Pool n, (get : Hp n (Pool n)) p = .ok p p := fun _ => rfl
  have hrun : evalForm c erange k e a s.pool = .ok ⟨[.evfuncArgs x.2 a], .evlis l a⟩ q := by
    rw [evalForm_of_name ho hg.obj_eq hassoc, if_neg fun h => Bool.false_ne_true (hty.1 h),
      bind_of_ok (hget q), hx.obj_eq]
    exact bind_of_ok (ylcdr_pair ho')
  -- the arguments, then the call
  refine ⟨k, carries_waits (t := .list vs) (g := fun r => .call f r a) hr.good hrun hadds
    (fun r => rfl) (Nat.zero_add (d₁ + d₂)).le (fun hkept => ?_) fun z r hz => ⟨⟨0, ?_⟩, ?_⟩⟩
  · exact hargs _ l a hkept (hr'.mono (Nat.le_add_right _ _)).waiting rfl ha'.waiting
      (hsafe.adds hr.good hadds).waiting (hl.adds hr.good hadds).waiting
  · have hnf : (z.push (.wait (.evfuncCall r))).pool.obj x.2 = .nfunc f :=
      (hz.held x.2 List.mem_cons_self _ hx).obj_eq
    rw [Wait.resume, bind_of_ok (hget _), hnf]
    rfl
  · have hrz : Ready c names Γ z.pool a ρ d₂ := hz.ready hr' ha'
    have hrun' : enter (.evfuncCall r) (.call f r a) z.pool =
        .ok ⟨[.evfuncCall r], .call f r a⟩ z.pool := rfl
    refine carries_wait (t := v) hz.good hrun' (.refl hz.good) (fun _ => rfl)
      (Nat.zero_add (d₂ + 0)).le (fun hkept => ?_) fun z' r' hz' => ⟨0, ?_⟩
    · exact hf _ r a hkept hrz.waiting rfl (hz.safe ha').waiting
        (.of_mem List.mem_cons_self (hz.denotes.valid hz.good.wf)) hz.denotes.waiting
    · exact carries_ret hz'.good hz'.kinds rfl (.refl hz'.good) le_rfl hz'.denotes

/-! ### The forms of lambda -/

theorem evalForm_form {p : Pool n} {e a l x l' y : Ref n} {erange : Bool} {k : ℕ}
    (ho : p.obj e = .pair (.at l) (.at l')) (hl : p.obj l = .pair (.at x) (.at y))
    (hx : p.obj x = .sym nm) : evalForm c erange k e a p =
      (if nm = cstr "lambda" then evlfLambda e a
      else if nm = cstr "mlambda" then evlfMlambda c k e a
      else if nm = cstr "label" then evlfLabel e a
      else if nm = cstr "flabel" then evlfFlabel e a
      else do
        let d ← ylcdr e
        enter (.ext d a) (.eval (← ylcar e) a)) p := by
  have hatom : yleisAtom x p = .ok true p := by
    rw [yleisAtom, hx]
    rfl
  have hcaar : ylcaar e p = .ok x p := (bind_of_ok (ylcar_pair ho)).trans (ylcar_pair hl)
  rw [evalForm, bind_of_ok (yleisAtom_pair ho), if_neg Bool.false_ne_true,
    bind_of_ok (ylcar_pair ho), bind_of_ok (yleisAtom_pair hl), if_neg Bool.false_ne_true,
    bind_of_ok hcaar, bind_of_ok hatom, if_pos rfl, evlambdaForm, bind_of_ok hcaar,
    bind_of_ok (symOf_sym hx)]

theorem safe_of_follows {p : Pool n} {g : Ref n → Hp n (Ref n)} {e r : Ref n} (he : Safe p e)
    (hg : Follows g) (h : g e p = .ok r p) : Safe p r := he.path ((hg p e).of_read_ok h).2

theorem sound_lambda {ss : List (List UInt8)}
    (hargs : Sound c names Γ ρ (.list vs) d₁ (.evlis ts)) (hlen : ss.length = vs.length)
    (hss : ∀ s ∈ ss, s ∉ names) (hb : Sound c names Γ (ss.zip vs ++ ρ) v d₂ (.eval t)) :
    Sound c names Γ ρ v (d₁ + (4 * ss.length + d₂))
      (.eval (form (cstr "lambda") (.list (ss.map Tree.sym)) t u (.list ts))) := by
  refine sound_eval fun s e a erange hr ha he hd => ?_
  obtain ⟨l, l', ho, hl, -⟩ := hd.exists_pair
  obtain ⟨x, y, hlo, hx, -⟩ := hl.exists_pair
  obtain ⟨_, params, body, d, -, -, hcadar, hcaddar, hcdr, hparams, hbody, hd'⟩ := hd.form
  have hrun : evalForm c erange 0 e a s.pool =
      .ok ⟨[.lambdaArgs body params a], .evlis d a⟩ s.pool := by
    rw [evalForm_form ho hlo hx.obj_eq, if_pos rfl, evlfLambda, bind_of_ok hcaddar,
      bind_of_ok hcadar, bind_of_ok hcdr]
    rfl
  refine ⟨0, carries_wait (t := .list vs) hr.good hrun (.refl hr.good) (fun _ => rfl)
    (Nat.zero_add (d₁ + (4 * ss.length + d₂))).le (fun hkept => ?_)
    fun z r hz => ⟨ss.length + 1, ?_⟩⟩
  · exact hargs _ d a hkept (hr.mono (Nat.le_add_right _ _)).waiting rfl ha.waiting
      (safe_of_follows he follows_ylcdr hcdr).waiting hd'.waiting
  · have hrz : Ready c names Γ z.pool a ρ (4 * ss.length + d₂) := hz.ready hr ha
    have hroom := hrz.room
    obtain ⟨a', q, hbind, hadds, henv⟩ := binds_lambda hrz.good
      (hz.denotes_safe (safe_of_follows he follows_ylcadar hcadar) hparams) hz.denotes hrz.env hlen
      hss (Nat.lt_succ_self _) (by omega)
    have hbody' := hz.denotes_safe (safe_of_follows he follows_ylcaddar hcaddar) hbody
    have hresume : Wait.resume c (ss.length + 1) r (.lambdaArgs body params a) z.pool =
        .ok ⟨[], .eval body a'⟩ q := by
      rw [Wait.resume, ← bind_assoc, bind_of_ok hbind]
      rfl
    refine carries_tail hz.good hresume hadds le_rfl fun hkept => ?_
    exact hb _ body a' hkept ((hrz.adds hadds le_rfl).rebind henv) rfl
      (hbody'.adds hz.good hadds)

theorem sound_mlambdaNil (hne : ts ≠ []) (h : Sound c names Γ ρ v d (.eval (Tree.onto t ts))) :
    Sound c names Γ ρ v ((Tree.list ts).pairs + d)
      (.eval (form (cstr "mlambda") .nil (.list ts) u t)) := by
  refine sound_eval fun s e a erange hr ha he hd => ?_
  obtain ⟨l, l', ho, hl, -⟩ := hd.exists_pair
  obtain ⟨x, y, hlo, hx, -⟩ := hl.exists_pair
  obtain ⟨_, q, hmlambda, exp, rfl, hadds, hexp⟩ := makes_mlambda_nil (c := c) names hr.good
    (hr.env.valid hr.good.wf) hd hne (Nat.lt_succ_self _) ((Nat.le_add_right _ _).trans hr.room)
  have hrun : evalForm c erange ((Tree.list ts).pairs + 1) e a s.pool =
      .ok ⟨[], .eval exp a⟩ q := by
    rw [evalForm_form ho hlo hx.obj_eq, if_neg (by decide), if_pos rfl]
    exact hmlambda
  refine ⟨_, carries_tail hr.good hrun hadds le_rfl fun hkept => ?_⟩
  exact h _ exp a hkept (hr.adds hadds le_rfl) rfl hexp

theorem sound_mlambda {ss : List (List UInt8)} (hc : c.EqLocal) (hss : ss ≠ [])
    (hlen : ss.length = ts.length) (ht : t.isAtom = false)
    (h : Sound c names Γ ρ v d (.eval (t.subst (ss.zip ts)))) :
    Sound c names Γ ρ v (t.pairs + 4 * ss.length + d)
      (.eval (form (cstr "mlambda") (.list (ss.map Tree.sym)) t u (.list ts))) := by
  refine sound_eval fun s e a erange hr ha he hd => ?_
  obtain ⟨l, l', ho, hl, -⟩ := hd.exists_pair
  obtain ⟨x, y, hlo, hx, -⟩ := hl.exists_pair
  obtain ⟨_, q, hmlambda, exp, rfl, hadds, hexp⟩ := makes_mlambda names hc hr.good
    (hr.env.valid hr.good.wf) hd hss hlen ht (Nat.lt_succ_self _)
    ((Nat.le_add_right _ _).trans hr.room)
  have hrun : evalForm c erange (t.pairs + ss.length + 2) e a s.pool =
      .ok ⟨[], .eval exp a⟩ q := by
    rw [evalForm_form ho hlo hx.obj_eq, if_neg (by decide), if_pos rfl]
    exact hmlambda
  refine ⟨_, carries_tail hr.good hrun hadds le_rfl fun hkept => ?_⟩
  exact h _ exp a hkept (hr.adds hadds le_rfl) rfl hexp

theorem sound_label (hnm : nm ∉ names)
    (h : Sound c names Γ ((nm, labelForm nm t u) :: ρ) v d (.eval (.pair t m))) :
    Sound c names Γ ρ v (4 + d) (.eval (.pair (labelForm nm t u) m)) := by
  refine sound_eval fun s e a erange hr ha he hd => ?_
  have hroom := hr.room
  have hv := hd.valid hr.good.wf
  obtain ⟨l, _, ho, hl, -⟩ := hd.exists_pair
  obtain ⟨x, _, hlo, hx, -⟩ := hl.exists_pair
  have hform : Denotes s.pool e (form (cstr "label") (.sym nm) t u m) := hd
  obtain ⟨_, x', fe, d', -, -, hcadar, hcaddar, hcdr, hx', hfe, hd'⟩ := hform.form
  obtain ⟨e', q, hcons, hadds, he'⟩ := makes_ylcons names hr.good hfe hd' (by omega)
  have hroom₁ := hadds.room
  -- the accessors in the new pool
  obtain ⟨_, key, _, _, -, -, hcadar', -, -, hkey, -, -⟩ := (hform.adds hr.good hadds).form
  have hcar : ylcar e q = .ok l q := ylcar_pair ((hadds.obj e hv).trans ho)
  obtain ⟨a', q', hbind, hadds', henv⟩ := binds_name hadds.good hkey (fun h => absurd h hnm)
    (hl.adds hr.good hadds) (hr.env.adds hr.good hadds) (by omega)
  have hrun : evalForm c erange 0 e a s.pool = .ok ⟨[], .eval e' a'⟩ q' := by
    rw [evalForm_form ho hlo hx.obj_eq, if_neg (by decide), if_neg (by decide), if_pos rfl,
      evlfLabel, bind_of_ok hcadar, bind_of_ok hx'.symOf_eq]
    dsimp only
    rw [bind_of_ok hcaddar, bind_of_ok hcdr, bind_of_ok hcons, bind_of_ok hcadar',
      bind_of_ok hcar, ← bind_assoc, bind_of_ok hbind]
    rfl
  have hq := hadds.trans hadds'
  refine ⟨0, carries_tail hr.good hrun hq le_rfl fun hkept => ?_⟩
  exact h _ e' a' hkept ((hr.adds hq le_rfl).rebind henv) rfl (he'.adds hadds.good hadds')

theorem sound_flabel {ss : List (List UInt8)} (hnm : nm ∈ names)
    (hargs : Sound c names Γ ρ (.list vs) d₁ (.evlis ts)) (hlen : ss.length = vs.length)
    (hss : ∀ s ∈ ss, s ∉ names)
    (hb : Sound c names Γ ((nm, flabelForm nm ss t u) :: ss.zip vs) v d₂ (.eval t)) :
    Sound c names Γ ρ v (d₁ + (3 * ss.length + 3 + d₂))
      (.eval (.pair (flabelForm nm ss t u) (.list ts))) := by
  refine sound_eval fun s e a erange hr ha he hd => ?_
  have hv := hd.valid hr.good.wf
  obtain ⟨fl, flp, ho, hfl, hflp⟩ := hd.exists_pair
  obtain ⟨x, l₁, hlo, hx, hl₁⟩ := hfl.exists_pair
  obtain ⟨fln, l₂, ho₁, hfln, hl₂⟩ := hl₁.exists_pair
  obtain ⟨fla, l₃, ho₂, hfla, hl₃⟩ := hl₂.exists_pair
  obtain ⟨fle, l₄, ho₃, hfle, -⟩ := hl₃.exists_pair
  have hcddr : ylcddr fl s.pool = .ok l₂ s.pool :=
    (bind_of_ok (ylcdr_pair hlo)).trans (ylcdr_pair ho₁)
  have hcadr : ylcadr fl s.pool = .ok fln s.pool :=
    (bind_of_ok (ylcdr_pair hlo)).trans (ylcar_pair ho₁)
  have hcaddr : ylcaddr fl s.pool = .ok fla s.pool := (bind_of_ok hcddr).trans (ylcar_pair ho₂)
  have hcadddr : ylcadddr fl s.pool = .ok fle s.pool :=
    (bind_of_ok hcddr).trans ((bind_of_ok (ylcdr_pair ho₂)).trans (ylcar_pair ho₃))
  -- the name becomes the one of a macro
  obtain ⟨q, hset, hadds, hkind⟩ := adds_setEstype hr.good hfln.obj_eq hnm
  have hrun : evalForm c erange 0 e a s.pool =
      .ok ⟨[.flabelArgs fln fl fla fle], .evlis flp a⟩ q := by
    rw [evalForm_form ho hlo hx.obj_eq, if_neg (by decide), if_neg (by decide), if_neg (by decide),
      if_pos rfl, evlfFlabel, bind_of_ok (ylcar_pair ho), bind_of_ok hcadr, bind_of_ok hcaddr,
      bind_of_ok hcadddr, bind_of_ok (ylcdr_pair ho), bind_of_ok hfln.symOf_eq]
    exact bind_of_ok hset
  have hr' := hr.adds hadds (Nat.zero_add (d₁ + (3 * ss.length + 3 + d₂))).le
  have ha' := ha.adds hr.good hadds
  have hsfl : Safe s.pool fl := he.link ⟨_, _, ho, Or.inl rfl⟩
  have hsfln := (safe_of_follows hsfl follows_ylcadr hcadr).adds hr.good hadds
  have hsfla := (safe_of_follows hsfl follows_ylcaddr hcaddr).adds hr.good hadds
  have hsfle := (safe_of_follows hsfl follows_ylcadddr hcadddr).adds hr.good hadds
  have hsflp : Safe s.pool flp := he.link ⟨_, _, ho, Or.inr rfl⟩
  refine ⟨0, carries_wait (t := .list vs) hr.good hrun hadds (fun _ => rfl)
    (Nat.zero_add (d₁ + (3 * ss.length + 3 + d₂))).le (fun hkept => ?_)
    fun z r hz => ⟨ss.length + 1, ?_⟩⟩
  · exact hargs _ flp a hkept (hr'.mono (Nat.le_add_right _ _)).waiting rfl ha'.waiting
      (hsflp.adds hr.good hadds).waiting (hflp.adds hr.good hadds).waiting
  · have hrz : Ready c names Γ z.pool a ρ (3 * ss.length + 3 + d₂) := hz.ready hr' ha'
    have hroom := hrz.room
    have hfle' := hz.denotes_safe hsfle (hfle.adds hr.good hadds)
    obtain ⟨a', q', hbind, hadds', henv⟩ := binds_flabel hrz.good
      (hz.denotes_safe hsfln (hfln.adds hr.good hadds)) (hz.preserves.mac fln hsfln hkind)
      (hz.denotes_safe (hsfl.adds hr.good hadds) (hfl.adds hr.good hadds))
      (hz.denotes_safe hsfla (hfla.adds hr.good hadds)) hz.denotes hlen hss (Nat.lt_succ_self _)
      (by omega)
    have hresume : Wait.resume c (ss.length + 1) r (.flabelArgs fln fl fla fle) z.pool =
        .ok ⟨[], .eval fle a'⟩ q' := by
      have h := bind_of_ok (f := fun a' => go (.eval fle a')) hbind
      simp only [bind_assoc] at h
      exact h
    refine carries_tail hz.good hresume hadds' le_rfl fun hkept => ?_
    exact hb _ fle a' hkept ((hrz.adds hadds' le_rfl).rebind henv) rfl
      (hfle'.adds hz.good hadds')

theorem sound_ext (hnm : nm ∉ lambdaForms)
    (hw : Sound c names Γ ρ w d₁ (.eval (.pair (.sym nm) u)))
    (h : Sound c names Γ ρ v d₂ (.eval (.pair w m))) :
    Sound c names Γ ρ v (d₁ + (1 + d₂)) (.eval (.pair (.pair (.sym nm) u) m)) := by
  refine sound_eval fun s e a erange hr ha he hd => ?_
  obtain ⟨l, y, ho, hl, hy⟩ := hd.exists_pair
  obtain ⟨x, _, hlo, hx, -⟩ := hl.exists_pair
  have hrun : evalForm c erange 0 e a s.pool = .ok ⟨[.ext y a], .eval l a⟩ s.pool := by
    have hne : ∀ f ∈ lambdaForms, nm ≠ f := by
      rintro f hf rfl
      exact hnm hf
    rw [evalForm_form ho hlo hx.obj_eq, if_neg (hne _ (by simp [lambdaForms])),
      if_neg (hne _ (by simp [lambdaForms])), if_neg (hne _ (by simp [lambdaForms])),
      if_neg (hne _ (by simp [lambdaForms])), bind_of_ok (ylcdr_pair ho)]
    exact bind_of_ok (ylcar_pair ho)
  have hsy : Safe s.pool y := he.link ⟨_, _, ho, Or.inr rfl⟩
  refine ⟨0, carries_arg hr ha hrun (fun _ => rfl) hl hw fun z r hrz hz => ⟨0, ?_⟩⟩
  have hroom := hrz.room
  obtain ⟨e', q, hcons, hadds, he'⟩ := makes_ylcons names hz.good hz.denotes
    (hz.denotes_safe hsy hy) (by omega)
  have hresume : Wait.resume c 0 r (.ext y a) z.pool = .ok ⟨[], .eval e' a⟩ q := by
    rw [Wait.resume, bind_of_ok hcons]
    rfl
  refine carries_tail hz.good hresume hadds le_rfl fun hkept => ?_
  exact h _ e' a hkept (hrz.adds hadds le_rfl) rfl he'

/-! ### Arguments -/

theorem sound_evlis (h : ∀ s e a, Ready c names Γ s.pool a ρ d → Safe s.pool a → Safe s.pool e →
    Denotes s.pool e (.list ts) → Carries c names s (ylevlis e a) v d) :
    Sound c names Γ ρ v d (.evlis ts) := by
  intro s e a hs hr hctl ha he hd
  refine comes_run (z := s) (x := fun _ _ => ylevlis e a) hs hctl trivial ?_
    fun _ => ⟨0, h s e a hr ha he hd⟩
  intro k erange
  rw [State.next, hctl]

theorem sound_evlisNil : Sound c names Γ ρ .nil 0 (.evlis []) := by
  refine sound_evlis fun s e a hr _ _ hd => ?_
  have hrun : ylevlis e a s.pool = .ok ⟨[], .ret ylnil⟩ s.pool := by
    rw [ylevlis, if_pos (hd.eq_ylnil_iff.2 rfl)]
    rfl
  exact carries_ret hr.good hr.kinds hrun (.refl hr.good) le_rfl .nil

theorem sound_evlisCons (ht : Sound c names Γ ρ v d₁ (.eval t))
    (hts : Sound c names Γ ρ w d₂ (.evlis ts)) :
    Sound c names Γ ρ (.pair v w) (d₁ + (d₂ + 1)) (.evlis (t :: ts)) := by
  refine sound_evlis fun s e a hr ha he hd => ?_
  obtain ⟨x, y, ho, hx, hy⟩ := hd.exists_pair
  have hrun : ylevlis e a s.pool = .ok ⟨[.evlisArg e a], .eval x a⟩ s.pool := by
    rw [ylevlis, if_neg (ne_ylnil_of_pair ho)]
    exact bind_of_ok (ylcar_pair ho)
  have hsy : Safe s.pool y := he.link ⟨_, _, ho, Or.inr rfl⟩
  -- the first value, then the others
  refine carries_waits (t := v) (g := fun _ => .evlis y a) hr.good hrun (.refl hr.good)
    (fun r => rfl) (Nat.zero_add (d₁ + (d₂ + 1))).le (fun hkept => ?_)
    fun z r hz => ⟨⟨0, ?_⟩, ?_⟩
  · exact ht _ x a hkept (hr.mono (Nat.le_add_right _ _)).waiting rfl hx.waiting
  · have ho' : (z.push (.wait (.evlisRest r))).pool.obj e = .pair (.at x) (.at y) :=
      hz.obj_pair he ho
    exact bind_of_ok (ylcdr_pair ho')
  · have hrz : Ready c names Γ z.pool a ρ (d₂ + 1) := hz.ready hr ha
    have hrun' : enter (.evlisRest r) (.evlis y a) z.pool =
        .ok ⟨[.evlisRest r], .evlis y a⟩ z.pool := rfl
    refine carries_wait (t := w) hz.good hrun' (.refl hz.good) (fun _ => rfl)
      (Nat.zero_add (d₂ + 1)).le (fun hkept => ?_) fun z' r' hz' => ⟨0, ?_⟩
    · exact hts _ y a hkept (hrz.mono (Nat.le_add_right _ _)).waiting rfl (hz.safe ha).waiting
        (hz.safe hsy).waiting (hz.denotes_safe hsy hy).waiting
    · have hroom := hrz.room
      have hroom' := hz'.preserves.room
      obtain ⟨l, q, hcons, hadds, hl⟩ := makes_ylcons names hz'.good
        (hz'.held r List.mem_cons_self _ hz.denotes) hz'.denotes (by
          have : z.pool.m.fbi ≤ z'.pool.m.fbi + d₂ := hroom'
          omega)
      have hresume : Wait.resume c 0 r' (.evlisRest r) z'.pool = .ok ⟨[], .ret l⟩ q :=
        bind_of_ok hcons
      exact carries_ret hz'.good hz'.kinds hresume hadds le_rfl hl

/-! ### Native functions -/

theorem sound_call (hf : ∀ e a : Ref n, Own (.call f e a))
    (h : ∀ s e a, Ready c names Γ s.pool a ρ d → Safe s.pool a → Safe s.pool e →
      Denotes s.pool e (.list ts) → ∃ k, Carries c names s (callFn c k f e a) v d) :
    Sound c names Γ ρ v d (.call f ts) := by
  intro s e a hs hr hctl ha he hd
  refine comes_run (z := s) (x := fun k _ => callFn c k f e a) hs hctl (hf e a) ?_
    fun _ => h s e a hr ha he hd
  intro k erange
  rw [State.next, hctl]

theorem sound_native {f : Nfunc} (h : Gives f ts v d) :
    Sound c names Γ ρ v d (.call (.other f.code) ts) := by
  intro s e a hs hr hctl _ _ hd
  obtain ⟨k, r, q, hcall, hadds, hv⟩ := makes_call (c := c) names hr.good hd h hr.room
  exact delivers_native hs hctl hcall (hadds.preserves hr.good) (hadds.kindsOk hr.kinds) hv

theorem sound_quote : Sound c names Γ ρ t 0 (.call .quote [t]) := by
  refine sound_call (fun _ _ => ⟨nofun, fun _ _ _ _ => rfl⟩) fun s e a hr _ _ hd => ?_
  obtain ⟨k, hk⟩ := pcsz_list 1 1 hd le_rfl le_rfl
  obtain ⟨x, hcar, hx⟩ := ylcar_list hd
  have hrun : callFn c k .quote e a s.pool = .ok ⟨[], .ret x⟩ s.pool :=
    (bind_of_ok (hk k le_rfl)).trans (bind_of_ok hcar)
  exact ⟨k, carries_ret hr.good hr.kinds hrun (.refl hr.good) le_rfl hx⟩

theorem sound_apply (hlen : ts.length < 9999)
    (h : Sound c names Γ ρ v d (.eval (.pair t (quoted ts)))) :
    Sound c names Γ ρ v (3 * ts.length + 1 + d) (.call .apply (t :: ts)) := by
  refine sound_call (fun _ _ => ⟨nofun, fun _ _ _ _ => rfl⟩) fun s e a hr _ _ hd => ?_
  have hroom := hr.room
  have hminp : 1 ≤ (t :: ts).length := Nat.succ_pos _
  obtain ⟨k, hk⟩ := pcsz_list 1 9999 hd hminp (Nat.succ_le_of_lt hlen)
  obtain ⟨x, y, ho, hx, hy⟩ := hd.exists_pair
  have hts : ts.length < k + ts.length + 1 := by omega
  obtain ⟨args, q, happq, hadds, hargs⟩ := makes_appq names hr.good hy hts (by omega)
  have hroom₁ := hadds.room
  obtain ⟨e', q', hcons, hadds', he'⟩ := makes_ylcons names hadds.good (hx.adds hr.good hadds)
    hargs (by omega)
  have hrun : callFn c (k + ts.length + 1) .apply e a s.pool = .ok ⟨[], .eval e' a⟩ q' := by
    refine (bind_of_ok (hk _ (by omega))).trans ((bind_of_ok (ylcar_pair ho)).trans ?_)
    refine (bind_of_ok (ylcdr_pair ho)).trans ((bind_of_ok happq).trans ?_)
    exact bind_of_ok hcons
  have hq := hadds.trans hadds'
  refine ⟨_, carries_tail hr.good hrun hq le_rfl fun hkept => ?_⟩
  exact h _ e' a hkept (hr.adds hq le_rfl) rfl he'

theorem sound_evalFn (h : Sound c names Γ ρ v d (.eval t)) :
    Sound c names Γ ρ v d (.call .eval [t]) := by
  refine sound_call (fun _ _ => ⟨nofun, fun _ _ _ _ => rfl⟩) fun s e a hr _ _ hd => ?_
  obtain ⟨k, hk⟩ := pcsz_list 1 1 hd le_rfl le_rfl
  obtain ⟨x, hcar, hx⟩ := ylcar_list hd
  have hrun : callFn c k .eval e a s.pool = .ok ⟨[], .eval x a⟩ s.pool :=
    (bind_of_ok (hk k le_rfl)).trans (bind_of_ok hcar)
  refine ⟨k, carries_tail hr.good hrun (.refl hr.good) (Nat.zero_add d).le fun hkept => ?_⟩
  exact h _ x a hkept hr rfl hx

/-- A native function that checks the number of its arguments first. -/
theorem sound_checked {g : Ref n → Ref n → Hp n (Go n)} (hf : ∀ e a : Ref n, Own (.call f e a))
    (hcall : ∀ k e a, callFn c k f e a = pcsz k e 1 9999 >>= fun _ => g e a) (hne : ts ≠ [])
    (hlen : ts.length ≤ 9999)
    (h : ∀ s e a, Ready c names Γ s.pool a ρ d → Safe s.pool a → Safe s.pool e →
      Denotes s.pool e (.list ts) → Carries c names s (g e a) v d) :
    Sound c names Γ ρ v d (.call f ts) := by
  refine sound_call hf fun s e a hr ha he hd => ?_
  obtain ⟨k, hk⟩ := pcsz_list 1 9999 hd (List.length_pos_of_ne_nil hne) hlen
  refine ⟨k, (h s e a hr ha he hd).of_eq ?_⟩
  rw [hcall, bind_of_ok (hk k le_rfl)]

/-! ### Loops -/

theorem sound_evconNil : Sound c names Γ ρ .nil 0 (.evcon []) := by
  intro s e a hr _ _ hd
  have hrun : Eval.evcon e a s.pool = .ok ⟨[], .ret ylnil⟩ s.pool := by
    rw [Eval.evcon, if_pos (hd.eq_ylnil_iff.2 rfl)]
    rfl
  exact carries_ret hr.good hr.kinds hrun (.refl hr.good) le_rfl .nil

theorem evcon_clause {p : Pool n} {e a : Ref n} {cl : List (Tree n)} (ht : t ≠ .nil)
    (hd : Denotes p e (.list (.pair t u :: cl))) : ∃ x,
      Eval.evcon e a p = .ok ⟨[.evcon e a], .eval x a⟩ p ∧ Denotes p x t := by
  obtain ⟨x, y, ho, hx, -⟩ := hd.exists_pair
  obtain ⟨x₁, y₁, ho₁, hx₁, -⟩ := hx.exists_pair
  have hcaar : ylcaar e p = .ok x₁ p := (bind_of_ok (ylcar_pair ho)).trans (ylcar_pair ho₁)
  have hne : x₁ ≠ ylnil := fun h => ht (hx₁.eq_ylnil_iff.1 h)
  refine ⟨x₁, ?_, hx₁⟩
  rw [Eval.evcon, if_neg (ne_ylnil_of_pair ho), bind_of_ok (ylcar_pair ho),
    bind_of_ok (yleisAtom_pair ho₁), if_neg Bool.false_ne_true, bind_of_ok hcaar, if_neg hne]
  rfl

theorem sound_evconYes {cl : List (Tree n)} (ht : t ≠ .nil) (hw : w ≠ .nil)
    (h : Sound c names Γ ρ w d₁ (.eval t)) (hu : Sound c names Γ ρ v d₂ (.eval u)) :
    Sound c names Γ ρ v (d₁ + d₂) (.evcon (.pair t (.pair u m) :: cl)) := by
  intro s e a hr ha he hd
  obtain ⟨x, hrun, hx⟩ := evcon_clause (a := a) ht hd
  refine carries_arg hr ha hrun (fun _ => rfl) hx h fun z r hrz hz => ⟨0, ?_⟩
  obtain ⟨y, y', ho, hy, -⟩ := (hz.denotes_safe he hd).exists_pair
  obtain ⟨_, l, ho₁, -, hl⟩ := hy.exists_pair
  obtain ⟨b, _, ho₂, hb, -⟩ := hl.exists_pair
  have hcadar : ylcadar e z.pool = .ok b z.pool :=
    (bind_of_ok ((bind_of_ok (ylcar_pair ho)).trans (ylcdr_pair ho₁))).trans (ylcar_pair ho₂)
  have hne : r ≠ ylnil := fun h => hw (hz.denotes.eq_ylnil_iff.1 h)
  have hresume : Wait.resume c 0 r (.evcon e a) z.pool = .ok ⟨[], .eval b a⟩ z.pool := by
    rw [Wait.resume, if_pos hne]
    exact bind_of_ok hcadar
  refine carries_tail hz.good hresume (.refl hz.good) (Nat.zero_add d₂).le fun hkept => ?_
  exact hu _ b a hkept hrz rfl hb

theorem sound_evconNo {cl : List (Tree n)} (ht : t ≠ .nil)
    (h : Sound c names Γ ρ .nil d₁ (.eval t)) (hcl : Sound c names Γ ρ v d₂ (.evcon cl)) :
    Sound c names Γ ρ v (d₁ + d₂) (.evcon (.pair t u :: cl)) := by
  intro s e a hr ha he hd
  obtain ⟨x, hrun, hx⟩ := evcon_clause (a := a) ht hd
  obtain ⟨_, y, ho, -, hy⟩ := hd.exists_pair
  have hsy : Safe s.pool y := he.link ⟨_, _, ho, Or.inr rfl⟩
  refine carries_arg hr ha hrun (fun _ => rfl) hx h fun z r hrz hz => ⟨0, ?_⟩
  refine (hcl z y a hrz (hz.safe ha) (hz.safe hsy) (hz.denotes_safe hsy hy)).of_eq ?_
  rw [Wait.resume, if_neg (not_not.2 (hz.denotes.eq_ylnil_iff.2 rfl)),
    bind_of_ok (ylcdr_pair (hz.obj_pair he ho))]

theorem sound_andNil : Sound c names Γ ρ (.ofBool true) 0 (.fAnd []) := by
  intro s e a hr _ _ hd
  have hrun : andLoop e a s.pool = .ok ⟨[], .ret ylt⟩ s.pool := by
    rw [andLoop, if_pos (hd.eq_ylnil_iff.2 rfl)]
    rfl
  exact carries_ret hr.good hr.kinds hrun (.refl hr.good) le_rfl (denotes_ylb2e true)

theorem andLoop_cons {p : Pool n} {e a x y : Ref n} (ho : p.obj e = .pair (.at x) (.at y)) :
    andLoop e a p = .ok ⟨[.fAnd e a], .eval x a⟩ p := by
  rw [andLoop, if_neg (ne_ylnil_of_pair ho)]
  exact bind_of_ok (ylcar_pair ho)

theorem sound_andNo (h : Sound c names Γ ρ .nil d (.eval t)) :
    Sound c names Γ ρ .nil d (.fAnd (t :: ts)) := by
  intro s e a hr ha he hd
  obtain ⟨x, y, ho, hx, -⟩ := hd.exists_pair
  refine carries_arg (j := 0) hr ha (andLoop_cons ho) (fun _ => rfl) hx h fun z r hrz hz =>
    ⟨0, ?_⟩
  have hresume : Wait.resume c 0 r (.fAnd e a) z.pool = .ok ⟨[], .ret ylnil⟩ z.pool := by
    rw [Wait.resume, if_pos (hz.denotes.eq_ylnil_iff.2 rfl)]
    rfl
  exact carries_ret hz.good hz.kinds hresume (.refl hz.good) le_rfl .nil

theorem sound_andYes (hw : w ≠ .nil) (h : Sound c names Γ ρ w d₁ (.eval t))
    (hts : Sound c names Γ ρ v d₂ (.fAnd ts)) :
    Sound c names Γ ρ v (d₁ + d₂) (.fAnd (t :: ts)) := by
  intro s e a hr ha he hd
  obtain ⟨x, y, ho, hx, hy⟩ := hd.exists_pair
  have hsy : Safe s.pool y := he.link ⟨_, _, ho, Or.inr rfl⟩
  refine carries_arg hr ha (andLoop_cons ho) (fun _ => rfl) hx h fun z r hrz hz => ⟨0, ?_⟩
  refine (hts z y a hrz (hz.safe ha) (hz.safe hsy) (hz.denotes_safe hsy hy)).of_eq ?_
  rw [Wait.resume, if_neg fun h => hw (hz.denotes.eq_ylnil_iff.1 h),
    bind_of_ok (ylcdr_pair (hz.obj_pair he ho))]

theorem sound_orNil : Sound c names Γ ρ .nil 0 (.fOr []) := by
  intro s e a hr _ _ hd
  have hrun : orLoop e a s.pool = .ok ⟨[], .ret ylnil⟩ s.pool := by
    rw [orLoop, if_pos (hd.eq_ylnil_iff.2 rfl)]
    rfl
  exact carries_ret hr.good hr.kinds hrun (.refl hr.good) le_rfl .nil

theorem orLoop_cons {p : Pool n} {e a x y : Ref n} (ho : p.obj e = .pair (.at x) (.at y)) :
    orLoop e a p = .ok ⟨[.fOr e a], .eval x a⟩ p := by
  rw [orLoop, if_neg (ne_ylnil_of_pair ho)]
  exact bind_of_ok (ylcar_pair ho)

theorem sound_orYes (hw : w ≠ .nil) (h : Sound c names Γ ρ w d (.eval t)) :
    Sound c names Γ ρ (.ofBool true) d (.fOr (t :: ts)) := by
  intro s e a hr ha he hd
  obtain ⟨x, y, ho, hx, -⟩ := hd.exists_pair
  refine carries_arg (j := 0) hr ha (orLoop_cons ho) (fun _ => rfl) hx h fun z r hrz hz =>
    ⟨0, ?_⟩
  have hresume : Wait.resume c 0 r (.fOr e a) z.pool = .ok ⟨[], .ret ylt⟩ z.pool := by
    rw [Wait.resume, if_pos fun h => hw (hz.denotes.eq_ylnil_iff.1 h)]
    rfl
  exact carries_ret hz.good hz.kinds hresume (.refl hz.good) le_rfl (denotes_ylb2e true)

theorem sound_orNo (h : Sound c names Γ ρ .nil d₁ (.eval t))
    (hts : Sound c names Γ ρ v d₂ (.fOr ts)) :
    Sound c names Γ ρ v (d₁ + d₂) (.fOr (t :: ts)) := by
  intro s e a hr ha he hd
  obtain ⟨x, y, ho, hx, hy⟩ := hd.exists_pair
  have hsy : Safe s.pool y := he.link ⟨_, _, ho, Or.inr rfl⟩
  refine carries_arg hr ha (orLoop_cons ho) (fun _ => rfl) hx h fun z r hrz hz => ⟨0, ?_⟩
  refine (hts z y a hrz (hz.safe ha) (hz.safe hsy) (hz.denotes_safe hsy hy)).of_eq ?_
  rw [Wait.resume, if_neg (not_not.2 (hz.denotes.eq_ylnil_iff.2 rfl)),
    bind_of_ok (ylcdr_pair (hz.obj_pair he ho))]

theorem prognLoop_cons {p : Pool n} {e a x y r : Ref n} (ho : p.obj e = .pair (.at x) (.at y)) :
    prognLoop e a r p = .ok ⟨[.progn e a], .eval x a⟩ p := by
  rw [prognLoop, if_neg (ne_ylnil_of_pair ho)]
  exact bind_of_ok (ylcar_pair ho)

theorem ylpcdr_pair {p : Pool n} {e y : Ref n} {x : Ptr n} (ho : p.obj e = .pair x (.at y)) :
    ylpcdr e p = .ok y p := by
  simp only [ylpcdr, ho]

theorem sound_prognOne (h : Sound c names Γ ρ v d (.eval t)) :
    Sound c names Γ ρ v d (.progn [t]) := by
  intro s e a r hr ha he hd
  obtain ⟨x, y, ho, hx, hy⟩ := hd.exists_pair
  obtain rfl := hy.eq_ylnil_iff.2 rfl
  refine carries_arg (j := 0) hr ha (prognLoop_cons ho) (fun _ => rfl) hx h fun z r hrz hz =>
    ⟨0, ?_⟩
  have hresume : Wait.resume c 0 r (.progn e a) z.pool = .ok ⟨[], .ret r⟩ z.pool := by
    rw [Wait.resume, bind_of_ok (ylpcdr_pair (hz.obj_pair he ho)), prognLoop, if_pos rfl]
    rfl
  exact carries_ret hz.good hz.kinds hresume (.refl hz.good) le_rfl hz.denotes

theorem sound_prognCons (h : Sound c names Γ ρ w d₁ (.eval t))
    (hts : Sound c names Γ ρ v d₂ (.progn (u :: ts))) :
    Sound c names Γ ρ v (d₁ + d₂) (.progn (t :: u :: ts)) := by
  intro s e a r hr ha he hd
  obtain ⟨x, y, ho, hx, hy⟩ := hd.exists_pair
  have hsy : Safe s.pool y := he.link ⟨_, _, ho, Or.inr rfl⟩
  refine carries_arg hr ha (prognLoop_cons ho) (fun _ => rfl) hx h fun z r hrz hz => ⟨0, ?_⟩
  refine (hts z y a r hrz (hz.safe ha) (hz.safe hsy) (hz.denotes_safe hsy hy)).of_eq ?_
  rw [Wait.resume, bind_of_ok (ylpcdr_pair (hz.obj_pair he ho))]

/-! ### Every evaluation -/

theorem sound {T : Task n} (hc : c.EqLocal) (h : Evals names Γ T ρ v d) :
    Sound c names Γ ρ v d T := by
  induction h with
  | var h => exact sound_var h
  | macVar h _ ih => exact sound_macVar h ih
  | macCall h _ ih => exact sound_macCall h ih
  | sfunc h _ ih => exact sound_sfunc h ih
  | nfunc h _ _ iha ihf => exact sound_nfunc h iha ihf
  | lambda _ hlen hss _ iha ihb => exact sound_lambda iha hlen hss ihb
  | mlambdaNil hne _ ih => exact sound_mlambdaNil hne ih
  | mlambda hss hlen ht _ ih => exact sound_mlambda hc hss hlen ht ih
  | label hs _ ih => exact sound_label hs ih
  | flabel hs _ hlen hss _ iha ihb => exact sound_flabel hs iha hlen hss ihb
  | ext hs _ _ ihw ih => exact sound_ext hs ihw ih
  | evlisNil => exact sound_evlisNil
  | evlisCons _ _ iht ihts => exact sound_evlisCons iht ihts
  | native h => exact sound_native h
  | quote => exact sound_quote
  | apply hlen _ ih => exact sound_apply hlen ih
  | evalFn _ ih => exact sound_evalFn ih
  | @prognFn ρ ts v d hlen hts ih =>
      have hne : ts ≠ [] := by
        rintro rfl
        cases hts
      exact sound_checked (g := fun e a => prognLoop e a ylnil)
        (fun _ _ => ⟨nofun, fun _ _ _ _ => rfl⟩) (fun _ _ _ => rfl) hne hlen
        fun s e a => ih s e a ylnil
  | fCond hne hlen _ ih =>
      exact sound_checked (fun _ _ => ⟨nofun, fun _ _ _ _ => rfl⟩) (fun _ _ _ => rfl) hne hlen ih
  | fAnd hne hlen _ ih =>
      exact sound_checked (fun _ _ => ⟨nofun, fun _ _ _ _ => rfl⟩) (fun _ _ _ => rfl) hne hlen ih
  | fOr hne hlen _ ih =>
      exact sound_checked (fun _ _ => ⟨nofun, fun _ _ _ _ => rfl⟩) (fun _ _ _ => rfl) hne hlen ih
  | evconNil => exact sound_evconNil
  | evconYes ht hw _ _ ih ihu => exact sound_evconYes ht hw ih ihu
  | evconNo ht _ _ ih ihcl => exact sound_evconNo ht ih ihcl
  | andNil => exact sound_andNil
  | andNo _ ih => exact sound_andNo ih
  | andYes hw _ _ ih ihts => exact sound_andYes hw ih ihts
  | orNil => exact sound_orNil
  | orYes hw _ ih => exact sound_orYes hw ih
  | orNo _ _ ih ihts => exact sound_orNo ih ihts
  | prognOne _ ih => exact sound_prognOne ih
  | prognCons _ _ ih ihts => exact sound_prognCons ih ihts

end Eval

/-! ### Runs -/

/-- An expression that evaluates to `v` on trees is evaluated to `v` by the machine, whatever the
collector does: no run is stuck or fails before the value is handed over, and every run that the
collector does not keep for ever hands it over. The frames below, the base blocks and what can be
reached from them are as they were, and no more than `d` blocks are taken. -/
theorem evals_delivered {c : Etcxt n} {names : Set (List UInt8)} {Γ : Globals n} {ρ : Locals n}
    {s : State n} {e a : Ref n} {t v : Tree n} {d : ℕ} (hc : c.EqLocal)
    (h : Evals names Γ (.eval t) ρ v d) (hs : Kept s) (hr : Ready c names Γ s.pool a ρ d)
    (hctl : s.ctl = .eval e a) (he : Denotes s.pool e t) :
    (∀ u, Relation.ReflTransGen (fun x y => ¬ Delivered names s x v d ∧
        (Collects c x y ∨ Proceeds c x y)) s u →
      Delivered names s u v d ∨ ∃ u', Proceeds c u u') ∧
    ∀ f : ℕ → State n, f 0 = s →
      (∀ i, Collects c (f i) (f (i + 1)) ∨ Proceeds c (f i) (f (i + 1))) →
      (∀ i, ∃ j, i ≤ j ∧ ¬ Collects c (f j) (f (j + 1))) → ∃ i, Delivered names s (f i) v d := by
  have hmust : Delivers c names s v d := sound hc h s e a hs hr hctl he
  exact ⟨fun u hu => hmust.not_stuck hu, fun f hf hrun hfair => hmust.meets f hf hrun hfair⟩

/-- No symbol of such a pool is a macro symbol. -/
theorem kindsOk_poolOf {objs : List (Obj n)} {gsym : Slut n} {names : Set (List UInt8)} :
    KindsOk names (poolOf n objs gsym) := by
  intro r s _ _ _
  have hst : kindOf (poolOf n objs gsym) r = 0 := by
    cases r with
    | stat s => rfl
    | blk b =>
        rw [kindOf, poolOf]
        dsimp only
        split <;> rfl
  rw [hst]
  decide

/-- A pool with `((lambda (x) (cons x x)) (quote a))`, and the native functions that it calls. -/
def consPool : Pool 26 :=
  poolOf 26
    [.pair (.at (.blk 1)) (.at (.blk 2)), .pair (.at (.blk 3)) (.at (.blk 4)),
      .pair (.at (.blk 12)) (.at ylnil), .sym (cstr "lambda"),
      .pair (.at (.blk 5)) (.at (.blk 6)), .pair (.at (.blk 7)) (.at ylnil),
      .pair (.at (.blk 8)) (.at ylnil), .sym (cstr "x"), .pair (.at (.blk 9)) (.at (.blk 10)),
      .sym (cstr "cons"), .pair (.at (.blk 7)) (.at (.blk 11)), .pair (.at (.blk 7)) (.at ylnil),
      .pair (.at ylq) (.at (.blk 13)), .pair (.at (.blk 14)) (.at ylnil), .sym (cstr "a"),
      .nfunc (.other Nfunc.cons.code), .sfunc .quote]
    (symtab [(cstr "cons", .blk 15), (cstr "quote", .blk 16)])

def consGlobals : Globals 26 := fun s =>
  if s = cstr "cons" then some (false, .atom (.nfunc (.other Nfunc.cons.code)))
  else if s = cstr "quote" then some (false, .atom (.sfunc .quote))
  else none

theorem evals_delivered_cons :
    let c := plainCxt 26 false
    let s : State 26 := { State.init consPool with ctl := .eval (.blk 0) ylnil }
    let v : Tree 26 := .pair (.sym (cstr "a")) (.sym (cstr "a"))
    (∀ u, Relation.ReflTransGen (fun x y => ¬ Delivered ∅ s x v 8 ∧
        (Collects c x y ∨ Proceeds c x y)) s u → Delivered ∅ s u v 8 ∨ ∃ u', Proceeds c u u') ∧
    ∀ f : ℕ → State 26, f 0 = s →
      (∀ i, Collects c (f i) (f (i + 1)) ∨ Proceeds c (f i) (f (i + 1))) →
      (∀ i, ∃ j, i ≤ j ∧ ¬ Collects c (f j) (f (j + 1))) → ∃ i, Delivered ∅ s (f i) v 8 := by
  intro c s v
  have hgood : consPool.Good :=
    poolOf_good (by decide) (by simp [plain, below, ylnil, ylq]) (by simp [below])
  have hused : consPool.Valid (.blk 0) := (poolOf_used (by decide) _ _).2 (by decide)
  have hform : Exact c (State.init consPool) .form s := by
    refine .step (.form rfl ⟨Pool.Grown.refl _, id⟩ hused) ?_
    rintro _ _ _ ⟨⟩
  have hkeep : KeepsPending c (State.init consPool) .form := trivial
  have hs : Kept s := kept_exact (kept_init _ hgood) hkeep hform
  have hglobals : Holds c consPool consGlobals := by
    intro s mac t hs
    rw [consGlobals] at hs
    split_ifs at hs with h₁ h₂ <;> cases hs
    · exact ⟨symDef, .blk 15, by rw [h₁]; decide +kernel, by decide,
        .atom rfl rfl rfl (by simp [ylnil])⟩
    · exact ⟨symDef, .blk 16, by rw [h₂]; decide +kernel, by decide,
        .atom rfl rfl rfl (by simp [ylnil])⟩
  have hx : Denotes consPool (.blk 7) (.sym (cstr "x")) := denotes_sym rfl
  have hquoted : Denotes consPool (.blk 12) (.list [.sym (cstr "quote"), .sym (cstr "a")]) :=
    .pair rfl (denotes_sym rfl) (.pair rfl (denotes_sym rfl) .nil)
  have hbody : Denotes consPool (.blk 8) (.list [.sym (cstr "cons"), .sym (cstr "x"),
      .sym (cstr "x")]) :=
    .pair rfl (denotes_sym rfl) (.pair rfl hx (.pair rfl hx .nil))
  have he : Denotes consPool (.blk 0) (form (cstr "lambda") (.list [.sym (cstr "x")])
      (.list [.sym (cstr "cons"), .sym (cstr "x"), .sym (cstr "x")]) .nil
      (.list [.list [.sym (cstr "quote"), .sym (cstr "a")]])) := by
    refine .pair rfl (.pair rfl (denotes_sym rfl) ?_) (.pair rfl hquoted .nil)
    exact .pair rfl (.pair rfl hx .nil) (.pair rfl hbody .nil)
  have hargs : Evals ∅ consGlobals (.evlis [.list [.sym (cstr "quote"), .sym (cstr "a")]]) []
      (.list [.sym (cstr "a")]) 1 := .evlisCons (.sfunc (.global rfl rfl) .quote) .evlisNil
  have hvar : Evals ∅ consGlobals (.eval (.sym (cstr "x"))) [(cstr "x", .sym (cstr "a"))]
      (.sym (cstr "a")) 0 := .var (.var rfl id)
  have hcons : Evals ∅ consGlobals (.eval (.list [.sym (cstr "cons"), .sym (cstr "x"),
      .sym (cstr "x")])) [(cstr "x", .sym (cstr "a"))] v 3 :=
    .nfunc (.global rfl rfl) (.evlisCons hvar (.evlisCons hvar .evlisNil)) (.native .cons)
  have hlen : [cstr "x"].length = [(.sym (cstr "a") : Tree 26)].length := rfl
  have hss : ∀ s ∈ [cstr "x"], s ∉ (∅ : Set (List UInt8)) := fun _ _ => id
  have hevals : Evals ∅ consGlobals (.eval (form (cstr "lambda") (.list [.sym (cstr "x")])
      (.list [.sym (cstr "cons"), .sym (cstr "x"), .sym (cstr "x")]) .nil
      (.list [.list [.sym (cstr "quote"), .sym (cstr "a")]]))) [] v 8 :=
    .lambda hargs hlen hss hcons
  exact evals_delivered (fun _ _ _ _ _ _ _ _ => rfl) hevals hs
    ⟨hgood, kindsOk_poolOf, hglobals, .nil, by decide⟩ rfl he

end Lang

end Ylisp
