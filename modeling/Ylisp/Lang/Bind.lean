import Ylisp.Eval.Label
import Ylisp.Lang.Heap

/-!
# Names

What a name means: `_assoc` looks into the association list, and then into the symbol tables.
The names of functions that call themselves are bound as macros; `names` are these names.
-/

namespace Ylisp

namespace Lang

open Mempool Eval Effect

variable {n : ℕ}

/-- What the symbol tables say: the value of a name, and whether it is the one of a macro. -/
abbrev Globals (n : ℕ) := List UInt8 → Option (Bool × Tree n)

def Holds (c : Etcxt n) (p : Pool n) (Γ : Globals n) : Prop :=
  ∀ s mac t, Γ s = some (mac, t) → ∃ ty r,
    (ylsluGet (c.table p) s <|> ylsluGet p.gsym s) = some (ty, r) ∧
      (ty = symMac ↔ mac = true) ∧ Denotes p r t

inductive Found (names : Set (List UInt8)) (Γ : Globals n) (ρ : Locals n)
    (s : List UInt8) : Bool → Tree n → Prop
  | mac {t : Tree n} (h : ρ.lookup s = some t) (hs : s ∈ names) : Found names Γ ρ s true t
  | var {t : Tree n} (h : ρ.lookup s = some t) (hs : s ∉ names) : Found names Γ ρ s false t
  | global {mac : Bool} {t : Tree n} (h : ρ.lookup s = none) (hΓ : Γ s = some (mac, t)) :
      Found names Γ ρ s mac t

section Find

variable {c : Etcxt n} {names : Set (List UInt8)} {p q : Pool n} {a x : Ref n} {s : List UInt8}
  {ρ : Locals n} {t : Tree n} {Γ : Globals n} {mac : Bool} {d k : ℕ}

theorem listFind_env (h : Env p names a ρ) (hx : p.obj x = .sym s) (hk : ρ.length + 1 < k) :
    ∃ o, listFind c k x a p = .ok o p ∧ match ρ.lookup s with
      | none => o = none
      | some t => ∃ z key w v d, o = some z ∧ p.obj z = .pair (.at key) (.at w) ∧
          p.obj key = .sym s ∧ (s ∈ names → kindOf p key = symMac) ∧
          p.obj w = .pair (.at v) d ∧ Denotes p v t := by
  have hatom : (p.obj x).isAtom = true := by
    rw [hx]
    rfl
  induction h generalizing k with
  | nil =>
      cases k with
      | zero => exact absurd hk (Nat.not_lt_zero _)
      | succ k => exact ⟨none, rfl, rfl⟩
  | @cons a b r key w v d s' t ρ ha hb hkey hmac hw hv henv ih =>
      rw [List.length_cons] at hk
      obtain ⟨k, rfl⟩ : ∃ m, k = m + 2 := ⟨k - 2, by omega⟩
      have hcaar : ylcaar a p = .ok key p := (bind_of_ok (ylcar_pair ha)).trans (ylcar_pair hb)
      have hfind : listFind c (k + 2) x a p =
          (if (ylb2e (sameAtom c p key x) : Ref n) ≠ ylnil then do
            let r ← ylcar a
            pure (some r)
          else ylcdr a >>= listFind c (k + 1) x) p := by
        rw [listFind, bind_of_ok (yleisAtom_pair ha), if_neg Bool.false_ne_true,
          bind_of_ok (ylcar_pair ha), bind_of_ok (yleisAtom_pair hb), if_neg Bool.false_ne_true,
          bind_of_ok hcaar, bind_of_ok (yleq_atom c k key hatom)]
      rw [hfind, List.lookup_cons]
      by_cases hs : s = s'
      · subst hs
        rw [if_pos (ylb2e_ne_ylnil.2 ((sameAtom_sym hx).2 hkey)), bind_of_ok (ylcar_pair ha)]
        rw [beq_self_eq_true]
        exact ⟨_, rfl, b, key, w, v, d, rfl, hb, hkey, hmac, hw, hv⟩
      · have hsame : ¬ ylb2e (n := n) (sameAtom c p key x) ≠ ylnil := by
          rw [ylb2e_ne_ylnil, sameAtom_sym hx, hkey]
          exact fun h => hs (Obj.sym.inj h).symm
        rw [if_neg hsame, beq_eq_false_iff_ne.2 hs, bind_of_ok (ylcdr_pair ha)]
        exact ih (by omega)

/-- The tables are the same, and what they hold denotes what it did. -/
theorem Holds.transfer (h : Holds c p Γ) (hcxtl : q.cxtl = p.cxtl)
    (hgsym : q.gsym = p.gsym) (hden : ∀ r t, r ∈ p.tables → Denotes p r t → Denotes q r t) :
    Holds c q Γ := by
  intro s mac t hs
  obtain ⟨ty, r, hget, hty, hr⟩ := h s mac t hs
  refine ⟨ty, r, ?_, hty, hden r t (mem_tables_of_ylsluGet c hget) hr⟩
  rw [Etcxt.table, hcxtl, hgsym]
  exact hget

theorem Holds.preserved (h : Holds c p Γ) (hp : p.Good) (hq : Preserves p q d) : Holds c q Γ :=
  h.transfer hq.cxtl hq.gsym fun _ _ hr ht => ht.preserved (.of_tables hp hr) hq

theorem Holds.adds (h : Holds c p Γ) (hp : p.Good) (hq : Adds names p q d) : Holds c q Γ :=
  h.transfer hq.cxtl hq.gsym fun _ _ _ ht => ht.adds hp hq

theorem valid_of_sym (hp : p.Wf) (hx : p.obj x = .sym s) : p.Valid x := by
  cases x with
  | stat s => trivial
  | blk b =>
      by_contra hb
      obtain ⟨d, hfree⟩ := pair_of_clean (hp.free b hb)
      cases hfree.symm.trans hx

theorem makes_associated {ty : ℕ} {r : Ref n} (hp : p.Good) (hr : Denotes p r t)
    (hty : ty = symMac ↔ mac = true) (hk : t.pairs < k)
    (hroom : mac = true → t.pairs ≤ p.m.fbi) : Runs (associated k ty r) p fun w q =>
      (w.1 = symMac ↔ mac = true) ∧ Makes names p t (if mac then t.pairs else 0) w.2 q := by
  cases mac with
  | true =>
      rw [associated, if_pos (hty.2 rfl)]
      refine (makes_listClone names hp hr hk (hroom rfl)).bind ?_
      exact fun v q hv => Runs.pure ⟨hty, hv⟩
  | false =>
      rw [associated, if_neg fun h => Bool.false_ne_true (hty.1 h)]
      exact Runs.pure ⟨hty, .refl hp, hr⟩

theorem makes_bound {z key w v : Ref n} {d' : Ptr n} (hp : p.Good) (hkinds : KindsOk names p)
    (hz : p.obj z = .pair (.at key) (.at w)) (hkey : p.obj key = .sym s)
    (hkind : s ∈ names → kindOf p key = symMac) (hw : p.obj w = .pair (.at v) d')
    (hv : Denotes p v t) (hmac : s ∈ names ↔ mac = true) (hk : t.pairs < k)
    (hroom : mac = true → t.pairs ≤ p.m.fbi) :
    Runs (do associated k (← ylestype (← ylcar z)) (← ylcadr z)) p fun w q =>
      (w.1 = symMac ↔ mac = true) ∧ Makes names p t (if mac then t.pairs else 0) w.2 q := by
  refine Runs.ok_bind (ylcar_pair hz) (Runs.ok_bind (ylestype_eq p key) ?_)
  refine Runs.ok_bind ((bind_of_ok (ylcdr_pair hz)).trans (ylcar_pair hw)) ?_
  refine makes_associated hp hv ⟨fun hk => ?_, fun h => hkind (hmac.2 h)⟩ hk hroom
  by_contra hno
  exact hkinds key s (valid_of_sym hp.wf hkey) hkey (fun h => hno (hmac.1 h)) hk

theorem makes_assoc (erange : Bool) (hp : p.Good) (hx : p.obj x = .sym s)
    (henv : Env p names a ρ) (hΓ : Holds c p Γ) (hkinds : KindsOk names p)
    (hs : Found names Γ ρ s mac t) (hroom : mac = true → t.pairs ≤ p.m.fbi) :
    ∃ k, Runs (assoc c erange k x a) p fun w q => (w.1 = symMac ↔ mac = true) ∧
      Makes names p t (if mac then t.pairs else 0) w.2 q := by
  refine ⟨ρ.length + t.pairs + 2, ?_⟩
  obtain ⟨o, hfind, ho⟩ := listFind_env (c := c) (k := ρ.length + t.pairs + 2) henv hx (by omega)
  refine Runs.ok_bind (symOf_sym hx) (Runs.ok_bind hfind ?_)
  cases hs with
  | mac h hs =>
      rw [h] at ho
      obtain ⟨z, key, w, v, d, rfl, hz, hkey, hkind, hw, hv⟩ := ho
      exact makes_bound hp hkinds hz hkey hkind hw hv (iff_of_true hs rfl) (by omega) hroom
  | var h hs =>
      rw [h] at ho
      obtain ⟨z, key, w, v, d, rfl, hz, hkey, hkind, hw, hv⟩ := ho
      exact makes_bound hp hkinds hz hkey hkind hw hv (iff_of_false hs Bool.false_ne_true)
        (by omega) hroom
  | @global _ _ h hΓs =>
      rw [h] at ho
      obtain rfl := ho
      obtain ⟨ty, r, hget, hty, hr⟩ := hΓ s mac t hΓs
      have hp' : (get : Hp n (Pool n)) p = .ok p p := rfl
      refine Runs.ok_bind hp' ?_
      rw [hget]
      exact makes_associated hp hr hty (by omega) hroom

end Find

/-! ### New bindings -/

section Bind

variable {names : Set (List UInt8)} {p q : Pool n} {N : Fin n → Prop} {a l v params : Ref n}
  {us vs : List (Ref n)} {ss : List (List UInt8)} {ts : List (Tree n)}
  {ρ : Locals n} {k : ℕ}

/-- The pairs of parameters and values, in front of an association list. -/
theorem env_of_alist (h : Alist p N a l (us.zip vs)) (hlen : us.length = vs.length)
    (hus : List.Forall₂ (fun u s => p.obj u = .sym s) us ss) (hss : ∀ s ∈ ss, s ∉ names)
    (hvs : List.Forall₂ (Denotes p) vs ts) (ha : Env p names a ρ) :
    Env p names l (ss.zip ts ++ ρ) := by
  induction hus generalizing vs ts l with
  | nil =>
      cases h with
      | nil => exact ha
  | @cons u s us ss hu _ ih =>
      cases hvs with
      | nil => cases hlen
      | @cons v t vs ts hv hvs =>
          obtain ⟨hs, hss⟩ := List.forall_mem_cons.1 hss
          cases h with
          | cons hb ho hz h =>
              obtain ⟨b, b', d, rfl, -, -, hob, hob'⟩ := hz
              exact .cons ho hob hu (fun h => absurd h hs) hob' hv
                (ih h (Nat.succ.inj hlen) hss hvs)

theorem alist_ylpair (names : Set (List UInt8)) (hp : p.Good)
    (hparams : Denotes p params (Tree.list (ss.map Tree.sym))) (hv : Denotes p v (Tree.list ts))
    (hlen : ss.length = ts.length) (hk : ss.length < k) (hroom : 3 * ss.length ≤ p.m.fbi) :
    ∃ l q us vs, ylpair k params v p = .ok l q ∧ Adds names p q (3 * ss.length) ∧ q.Valid l ∧
      Filled p q (3 * ss.length) ∧ Alist q (Taken p q) ylnil l (us.zip vs) ∧
      us.length = ss.length ∧ vs.length = ss.length ∧
      List.Forall₂ (fun u s => q.obj u = .sym s) us ss ∧ List.Forall₂ (Denotes q) vs ts := by
  obtain ⟨us, hus, hus'⟩ := hparams.listing hp.wf
  obtain ⟨vs, hvs, hvs'⟩ := hv.listing hp.wf
  have hlenu : us.length = ss.length := by rw [hus'.length_eq, List.length_map]
  have hlenv : vs.length = ss.length := by rw [hvs'.length_eq, hlen]
  obtain ⟨l, q, hpair, hfill, hl⟩ := runs_ylpair (k := k) hp.wf.m hus hvs (by omega) (by omega)
    (by omega)
  rw [hlenu] at hfill
  have hreturns := returns_ylpair k (hparams.valid hp.wf) (hv.valid hp.wf)
  have hadds := (conses_ylpair k params v).adds names hreturns hp hpair hfill
  have hout := hreturns hp
  rw [hpair] at hout
  refine ⟨l, q, us, vs, hpair, hadds, hout.2.2, hfill, hl, hlenu, hlenv,
    obj_of_syms (hus'.imp fun _ _ h => h.adds hp hadds), hvs'.imp fun _ _ h => h.adds hp hadds⟩

theorem binds_lambda (hp : p.Good) (hparams : Denotes p params (Tree.list (ss.map Tree.sym)))
    (hv : Denotes p v (Tree.list ts)) (ha : Env p names a ρ) (hlen : ss.length = ts.length)
    (hss : ∀ s ∈ ss, s ∉ names) (hk : ss.length < k) (hroom : 4 * ss.length ≤ p.m.fbi) :
    Runs (do ylappend k (← ylpair k params v) a) p fun r q =>
      Adds names p q (4 * ss.length) ∧ Env q names r (ss.zip ts ++ ρ) := by
  obtain ⟨l, q, us, vs, hpair, hadds, hvalid, hfill, hl, hlenu, hlenv, hus, hvs⟩ :=
    alist_ylpair names hp hparams hv hlen hk (by omega)
  have hroom₁ := hfill.room
  have hlenz : (us.zip vs).length = ss.length := by
    rw [List.length_zip, hlenu, hlenv, min_self]
  have ha' := ha.adds hp hadds
  obtain ⟨r, s, happend, hfill', hr⟩ := runs_ylappend (k := k) (y := a) hfill hl (by omega)
    (by omega)
  rw [hlenz] at hfill'
  have hadds' := (conses_ylappend k l a).adds names
    (returns_ylappend k hvalid (ha'.valid hadds.good.wf)) hadds.good happend hfill'
  have hd : 3 * ss.length + ss.length = 4 * ss.length := by omega
  refine Runs.ok_bind hpair (.of_ok happend ⟨hd ▸ hadds.trans hadds', ?_⟩)
  have hus' := hus.imp fun u _ h => (hadds'.obj u (valid_of_sym hadds.good.wf h)).trans h
  exact env_of_alist hr (hlenu.trans hlenv.symm) hus' hss
    (hvs.imp fun _ _ h => h.adds hadds.good hadds') (ha'.adds hadds.good hadds')

theorem binds_name {fln fl : Ref n} {f : List UInt8} {t : Tree n} (hp : p.Good)
    (hfln : Denotes p fln (.sym f)) (hmac : f ∈ names → kindOf p fln = symMac)
    (hfl : Denotes p fl t) (ha : Env p names a ρ) (hroom : 3 ≤ p.m.fbi) :
    Runs (do ylcons (← yllist fln fl) a) p fun r q =>
      Adds names p q 3 ∧ Env q names r ((f, t) :: ρ) := by
  -- the entry
  have hentry := returns_yllist (hfln.valid hp.wf) (hfl.valid hp.wf)
  obtain ⟨z, q₁, hlist, hfill₁, ⟨b, b', d, rfl, -, -, hob, hob'⟩, hz⟩ :=
    runs_yllist hp.wf.m (by omega) fln fl
  have h₁ := (conses_yllist fln fl).adds names hentry hp hlist hfill₁
  have hroom₁ := h₁.room
  refine Runs.ok_bind hlist ?_
  obtain ⟨r, q₂, hcons, hfill₂, b₂, rfl, -, -, hor⟩ :=
    runs_ylcons h₁.good.wf.m (by omega) (.blk b) a
  have h₂ := (conses_ylcons (.blk b) a).adds names
    (returns_ylcons hz (h₁.valid (ha.valid hp.wf))) h₁.good hcons hfill₂
  have h₁₂ := h₁.trans h₂
  have hb' : q₁.Valid (.blk b') := (valid_of_pair h₁.good hz hob).2
  refine .of_ok hcons ⟨h₁₂, .cons hor ((h₂.obj _ hz).trans hob) (hfln.adds hp h₁₂).obj_eq
    (fun hf => ?_) ((h₂.obj _ hb').trans hob') (hfl.adds hp h₁₂) (ha.adds hp h₁₂)⟩
  exact h₁₂.mac (hfln.valid hp.wf) (hmac hf)

/-- `_evlf_flabel` binds the name of the function in front of its parameters. -/
theorem binds_flabel {fln fl : Ref n} {f : List UInt8} {t : Tree n} (hp : p.Good)
    (hfln : Denotes p fln (.sym f)) (hmac : kindOf p fln = symMac) (hfl : Denotes p fl t)
    (hparams : Denotes p params (Tree.list (ss.map Tree.sym))) (hv : Denotes p v (Tree.list ts))
    (hlen : ss.length = ts.length) (hss : ∀ s ∈ ss, s ∉ names) (hk : ss.length < k)
    (hroom : 3 * ss.length + 3 ≤ p.m.fbi) :
    Runs (do
      let paramAssoc ← ylpair k params v
      ylcons (← yllist fln fl) paramAssoc) p fun r q =>
        Adds names p q (3 * ss.length + 3) ∧ Env q names r ((f, t) :: ss.zip ts) := by
  obtain ⟨l, q, us, vs, hpair, hadds, hvalid, hfill, hl, hlenu, hlenv, hus, hvs⟩ :=
    alist_ylpair names hp hparams hv hlen hk (by omega)
  have hroom₁ := hfill.room
  have henv := env_of_alist hl (hlenu.trans hlenv.symm) hus hss hvs .nil
  rw [List.append_nil] at henv
  refine Runs.ok_bind hpair ((binds_name hadds.good (hfln.adds hp hadds)
    (fun _ => hadds.mac (hfln.valid hp.wf) hmac) (hfl.adds hp hadds) henv (by omega)).mono ?_)
  exact fun r s h => ⟨hadds.trans h.1, h.2⟩

/-- `_evlf_flabel` makes the name of the function the one of a macro. -/
theorem adds_setEstype {x : Ref n} {s : List UInt8} (hp : p.Good) (hx : p.obj x = .sym s)
    (hs : s ∈ names) : ∃ q, setEstype x symMac p = .ok () q ∧ Adds names p q 0 ∧
      kindOf q x = symMac := by
  obtain ⟨q, hrun, hm, hgsym, hcxtl, hobj, hkind⟩ := setEstype_eq p x symMac
  have hgood := wp_setEstype x symMac hp
  rw [hrun] at hgood
  refine ⟨q, hrun, ⟨hgood.1, ?_, hcxtl, hgsym, fun b hb => by rwa [hm], fun r _ => hobj r,
    fun r s hr _ => ?_, fun r _ => ?_, by rw [hm]; rfl⟩, by rw [hkind, if_pos rfl]⟩
  · cases x <;> (cases hrun; rfl)
  · cases r with
    | stat s => trivial
    | blk b =>
        show p.m.Used b
        rw [← hm]
        exact hr
  · rw [hkind]
    split
    next h =>
      rw [h]
      exact Or.inr ⟨rfl, s, hs, hx⟩
    next => exact Or.inl rfl

end Bind

end Lang

end Ylisp
