import Ylisp.Lang.Adds

/-!
# The heap functions on trees

What the functions of `ylsfunc.h` and `sfunc.c` that build and read lists do, in terms of the
trees that their arguments denote.
-/

namespace Ylisp

namespace Lang

open Mempool Eval Effect

variable {n : ℕ}

/-- An element that denotes `t` is made on `d` blocks. -/
structure Makes (names : Set (List UInt8)) (p : Pool n) (t : Tree n) (d : ℕ) (r : Ref n)
    (q : Pool n) : Prop where
  adds : Adds names p q d
  denotes : Denotes q r t

section Read

variable {p : Pool n} {r : Ref n} {t u : Tree n} {ts : List (Tree n)} {s : List UInt8} {k : ℕ}

theorem Denotes.exists_pair (h : Denotes p r (.pair t u)) :
    ∃ x y, p.obj r = .pair (.at x) (.at y) ∧ Denotes p x t ∧ Denotes p y u := by
  cases h with
  | pair ho hx hy => exact ⟨_, _, ho, hx, hy⟩

theorem Denotes.obj_eq {o : Obj n} (h : Denotes p r (.atom o)) : p.obj r = o := by
  cases h with
  | atom ho => exact ho

theorem Denotes.symOf_eq (h : Denotes p r (.sym s)) : symOf r p = .ok (some s) p := by
  simp only [symOf, h.obj_eq]

theorem Denotes.yleisAtom_eq (h : Denotes p r t) : yleisAtom r p = .ok t.isAtom p := by
  rw [yleisAtom, h.isAtom]

theorem Denotes.listing (h : Denotes p r (Tree.list ts)) (hp : p.Wf) :
    ∃ us, Listing p p.m.Used r us ∧ List.Forall₂ (Denotes p) us ts := by
  induction ts generalizing r with
  | nil =>
      obtain rfl := h.eq_ylnil_iff.2 rfl
      exact ⟨[], .nil, .nil⟩
  | cons t ts ih =>
      have hv := h.valid hp
      obtain ⟨x, y, ho, hx, hy⟩ := h.exists_pair
      obtain ⟨us, hus, hall⟩ := ih hy
      cases r with
      | stat s => cases s <;> cases ho
      | blk b => exact ⟨x :: us, .cons hv ho hus, .cons hx hall⟩

theorem Tree.list_eq_nil : Tree.list ts = .nil ↔ ts = [] := by
  cases ts <;> simp [Tree.list]

theorem runs_cdrs (h : Denotes p r (Tree.list ts)) (hk : ts.length < k) :
    Runs (cdrs k r) p fun m q => m = ts.length ∧ q = p := by
  induction ts generalizing r k with
  | nil =>
      cases k with
      | zero => exact absurd hk (Nat.not_lt_zero _)
      | succ k => exact Runs.ok_bind h.yleisAtom_eq (Runs.pure ⟨rfl, rfl⟩)
  | cons t ts ih =>
      cases k with
      | zero => exact absurd hk (Nat.not_lt_zero _)
      | succ k =>
          obtain ⟨x, y, ho, -, hy⟩ := h.exists_pair
          refine Runs.ok_bind (yleisAtom_pair ho) (Runs.ok_bind (ylcdr_pair ho) ?_)
          refine (ih hy (Nat.lt_of_succ_lt_succ hk)).bind ?_
          rintro m q ⟨rfl, rfl⟩
          exact Runs.pure ⟨rfl, rfl⟩

/-- The head of a native function accepts a list of arguments. -/
theorem pcsz_list (minp maxp : ℕ) (h : Denotes p r (Tree.list ts)) (hmin : minp ≤ ts.length)
    (hmax : ts.length ≤ maxp) : ∃ k, ∀ k', k ≤ k' → pcsz k' r minp maxp p = .ok ts.length p := by
  refine ⟨ts.length + 1, fun k hk => ?_⟩
  have hsize : ylelistSize k r p = .ok ts.length p := by
    rw [ylelistSize]
    by_cases hr : r = ylnil
    · rw [if_pos hr, Tree.list_eq_nil.1 (h.eq_ylnil_iff.1 hr)]
      rfl
    · obtain ⟨t, ts, rfl⟩ : ∃ t us, ts = t :: us :=
        List.exists_cons_of_ne_nil fun hts => hr (h.eq_ylnil_iff.2 (Tree.list_eq_nil.2 hts))
      rw [if_neg hr, bind_of_ok h.yleisAtom_eq]
      obtain ⟨m, q, hrun, rfl, rfl⟩ := runs_cdrs h hk
      exact hrun
  rw [pcsz, bind_of_ok hsize, if_neg (not_or.2 ⟨Nat.not_lt.2 hmin, Nat.not_lt.2 hmax⟩)]
  rfl

end Read

section Build

variable {names : Set (List UInt8)} {p q : Pool n} {r x y : Ref n} {t u : Tree n}
  {ts us : List (Tree n)} {k d : ℕ}

theorem makes_ylcons (names : Set (List UInt8)) (hp : p.Good) (hx : Denotes p x t)
    (hy : Denotes p y u) (hroom : 0 < p.m.fbi) :
    Runs (ylcons x y) p (Makes names p (.pair t u) 1) := by
  obtain ⟨r, q, hrun, hfill, b, rfl, -, -, ho⟩ := runs_ylcons hp.wf.m hroom x y
  have hadds := (conses_ylcons x y).adds names
    (returns_ylcons (hx.valid hp.wf) (hy.valid hp.wf)) hp hrun hfill
  exact .of_ok hrun ⟨hadds, .pair ho (hx.adds hp hadds) (hy.adds hp hadds)⟩

theorem makes_yllist (names : Set (List UInt8)) (hp : p.Good) (hx : Denotes p x t)
    (hy : Denotes p y u) (hroom : 2 ≤ p.m.fbi) :
    Runs (yllist x y) p (Makes names p (Tree.list [t, u]) 2) := by
  refine (makes_ylcons names hp hy .nil (Nat.lt_of_lt_of_le Nat.two_pos hroom)).bind ?_
  rintro l q ⟨hadds, hl⟩
  have hq := hadds.room
  refine (makes_ylcons names hadds.good (hx.adds hp hadds) hl (by omega)).mono ?_
  rintro r s ⟨hadds', hr⟩
  exact ⟨hadds.trans hadds', hr⟩

/-- `((quote t₁) … (quote tₙ))`. -/
def quoted (ts : List (Tree n)) : Tree n :=
  Tree.list (ts.map fun t => Tree.list [.sym (cstr "quote"), t])

theorem makes_appq (names : Set (List UInt8)) (hp : p.Good) (hr : Denotes p r (Tree.list ts))
    (hk : ts.length < k) (hroom : 3 * ts.length ≤ p.m.fbi) :
    Runs (appq k r) p (Makes names p (quoted ts) (3 * ts.length)) := by
  induction ts generalizing p r k with
  | nil =>
      cases k with
      | zero => exact absurd hk (Nat.not_lt_zero _)
      | succ k =>
          rw [appq, if_pos (hr.eq_ylnil_iff.2 rfl)]
          exact Runs.pure ⟨.refl hp, .nil⟩
  | cons t ts ih =>
      cases k with
      | zero => exact absurd hk (Nat.not_lt_zero _)
      | succ k =>
          rw [List.length_cons] at hk hroom
          obtain ⟨x, y, ho, hx, hy⟩ := hr.exists_pair
          have hq : Denotes p ylq (.sym (cstr "quote")) := denotes_sym rfl
          rw [appq, if_neg (ne_ylnil_of_pair ho)]
          refine Runs.ok_bind (ylcar_pair ho) ?_
          refine (makes_yllist names hp hq hx (by omega)).bind ?_
          rintro l p₁ ⟨h₁, hl⟩
          have hroom₁ := h₁.room
          have ho₁ := (h₁.obj r (hr.valid hp.wf)).trans ho
          refine Runs.ok_bind (ylcdr_pair ho₁) ?_
          refine (ih h₁.good (hy.adds hp h₁) (by omega) (by omega)).bind ?_
          rintro m p₂ ⟨h₂, hm⟩
          have hroom₂ := h₂.room
          refine (makes_ylcons names h₂.good (hl.adds h₁.good h₂) hm (by omega)).mono ?_
          rintro v p₃ ⟨h₃, hv⟩
          have hd : 2 + 3 * ts.length + 1 = 3 * (t :: ts).length := by
            rw [List.length_cons]
            omega
          exact ⟨hd ▸ (h₁.trans h₂).trans h₃, hv⟩

theorem makes_listCons (hp : p.Good) (hr : Denotes p r (Tree.list ts)) (hk : ts.length < k)
    (hroom : ts.length ≤ p.m.fbi) :
    Runs (listCons k r) p (Makes names p (Tree.list ts) ts.length) := by
  induction ts generalizing p r k with
  | nil =>
      cases k with
      | zero => exact absurd hk (Nat.not_lt_zero _)
      | succ k =>
          rw [listCons, if_pos (hr.eq_ylnil_iff.2 rfl)]
          exact Runs.pure ⟨.refl hp, .nil⟩
  | cons t ts ih =>
      cases k with
      | zero => exact absurd hk (Nat.not_lt_zero _)
      | succ k =>
          rw [List.length_cons] at hk hroom
          obtain ⟨x, y, ho, hx, hy⟩ := hr.exists_pair
          rw [listCons, if_neg (ne_ylnil_of_pair ho)]
          refine Runs.ok_bind (ylcar_pair ho) (Runs.ok_bind (ylcdr_pair ho) ?_)
          refine (ih hp hy (by omega) (by omega)).bind ?_
          rintro m p₁ ⟨h₁, hm⟩
          have hroom₁ := h₁.room
          refine (makes_ylcons names h₁.good (hx.adds hp h₁) hm (by omega)).mono ?_
          rintro v p₂ ⟨h₂, hv⟩
          exact ⟨h₁.trans h₂, hv⟩

end Build

/-! ### Copies -/

namespace Tree

def mapAtoms (g : Tree n → Tree n) : Tree n → Tree n
  | pair t u => pair (t.mapAtoms g) (u.mapAtoms g)
  | t => g t

/-- The list of the trees in front of `u`. -/
def onto (u : Tree n) : List (Tree n) → Tree n
  | [] => u
  | t :: ts => pair t (onto u ts)

def substAtom (σ : Locals n) : Tree n → Tree n
  | .atom (.sym s) => (σ.lookup s).getD (.atom (.sym s))
  | t => t

def subst (σ : Locals n) : Tree n → Tree n := mapAtoms (substAtom σ)

theorem mapAtoms_id (t : Tree n) : t.mapAtoms id = t := by
  induction t with
  | pair t u iht ihu => rw [mapAtoms, iht, ihu]
  | _ => rfl

theorem mapAtoms_of_isAtom {g : Tree n → Tree n} {t : Tree n} (h : t.isAtom = true) :
    t.mapAtoms g = g t := by
  cases t with
  | pair t u => cases h
  | _ => rfl

theorem pairs_of_isAtom {t : Tree n} (h : t.isAtom = true) : t.pairs = 0 := by
  cases t with
  | pair t u => cases h
  | _ => rfl

end Tree

section Copy

variable {names : Set (List UInt8)} {p q : Pool n} {e r : Ref n} {t : Tree n} {T : Sexpr n}
  {bs : List (Fin n)} {f : Ref n → Ref n} {g : Tree n → Tree n} {k : ℕ}

theorem Sexpr.map_id (T : Sexpr n) : T.map id = T := by
  induction T with
  | leaf r => rfl
  | pair t u iht ihu => rw [Sexpr.map, iht, ihu]

@[elab_as_elim]
theorem Denotes.induct {motive : ∀ r t, Denotes p r t → Prop}
    (atom : ∀ r t (h : Denotes p r t), t.isAtom = true → motive r t h)
    (pair : ∀ r x y t u (ho : p.obj r = .pair (.at x) (.at y)) (hx : Denotes p x t)
      (hy : Denotes p y u), motive x t hx → motive y u hy → motive r (.pair t u) (.pair ho hx hy))
    {r : Ref n} {t : Tree n} (h : Denotes p r t) : motive r t h := by
  induction h with
  | nil => exact atom _ _ .nil rfl
  | atom ho hatom hfixed hne => exact atom _ _ (.atom ho hatom hfixed hne) rfl
  | ref hfixed => exact atom _ _ (.ref hfixed) rfl
  | pair ho hx hy ihx ihy => exact pair _ _ _ _ _ ho hx hy ihx ihy

/-- An element that denotes a tree, down to its atoms. -/
theorem Denotes.unfolds (h : Denotes p r t) : ∃ T, Unfolds p r T ∧ T.pairs = t.pairs := by
  induction h using Denotes.induct with
  | atom r t h hatom =>
      exact ⟨.leaf r, .leaf (h.isAtom.trans hatom), (Tree.pairs_of_isAtom hatom).symm⟩
  | pair r x y t u ho _ _ ihx ihy =>
      obtain ⟨T, hT, hpairs⟩ := ihx
      obtain ⟨U, hU, hpairs'⟩ := ihy
      exact ⟨.pair T U, .pair ho hT hU, by rw [Sexpr.pairs, Tree.pairs, hpairs, hpairs']⟩

/-- A copy denotes the tree whose atoms are replaced as the leaves of the copy are. -/
theorem Denotes.built (he : Denotes p e t) (hT : Unfolds p e T) (hr : Built q bs r (T.map f))
    (h : ∀ y u, Denotes p y u → u.isAtom = true → Denotes q (f y) (g u)) :
    Denotes q r (t.mapAtoms g) := by
  induction he using Denotes.induct generalizing T r bs with
  | atom e t he hatom =>
      rw [Tree.mapAtoms_of_isAtom hatom]
      cases hT with
      | leaf =>
          cases hr with
          | leaf => exact h e t he hatom
      | pair ho =>
          rw [← he.isAtom, ho] at hatom
          cases hatom
  | pair e x y t u ho _ _ ihx ihy =>
      cases hT with
      | leaf hatom =>
          rw [ho] at hatom
          cases hatom
      | pair ho' hTx hTy =>
          rw [ho] at ho'
          cases ho'
          cases hr with
          | pair hob hbx hby => exact .pair hob (ihx hTx hbx) (ihy hTy hby)

theorem copies_listClone (names : Set (List UInt8)) (hp : p.Good) (hr : Denotes p r t)
    (hk : t.pairs < k) (hroom : t.pairs ≤ p.m.fbi) :
    Runs (listClone k r) p fun v q =>
      Makes names p t t.pairs v q ∧ ∃ T, Unfolds p r T ∧ Fresh p q v T := by
  obtain ⟨T, hT, hpairs⟩ := hr.unfolds
  rw [← hpairs] at hk hroom ⊢
  have hv := hr.valid hp.wf
  obtain ⟨v, q, hrun, hfill, hfresh⟩ := runs_listClone hp (.refl hp.wf.m) hv hT hk hroom
  have hadds := (conses_listClone k r).adds names (wp_listClone k hv) hp hrun hfill
  have ⟨_, hbuilt, _, _⟩ := hfresh
  rw [← Sexpr.map_id T] at hbuilt
  have hv' := hr.built (g := id) hT hbuilt fun y u hy _ => hy.adds hp hadds
  rw [Tree.mapAtoms_id] at hv'
  exact .of_ok hrun ⟨⟨hadds, hv'⟩, T, hT, hfresh⟩

theorem makes_listClone (names : Set (List UInt8)) (hp : p.Good) (hr : Denotes p r t)
    (hk : t.pairs < k) (hroom : t.pairs ≤ p.m.fbi) :
    Runs (listClone k r) p (Makes names p t t.pairs) :=
  (copies_listClone names hp hr hk hroom).mono fun _ _ h => h.1

end Copy

/-! ### Macros -/

/-- `((name x y . rest) . args)`. -/
def form (name : List UInt8) (x y rest args : Tree n) : Tree n :=
  .pair (.pair (.sym name) (.pair x (.pair y rest))) args

section Macro

variable {names : Set (List UInt8)} {p q : Pool n} {e r a : Ref n} {t u rest args : Tree n}
  {ts : List (Tree n)} {T : Sexpr n} {bs : List (Fin n)} {c : Etcxt n} {k : ℕ} {nm : List UInt8}

theorem Denotes.form (h : Denotes p e (form nm t u rest args)) : ∃ s x y d,
    ylcaar e p = .ok s p ∧ symOf s p = .ok (some nm) p ∧ ylcadar e p = .ok x p ∧
      ylcaddar e p = .ok y p ∧ ylcdr e p = .ok d p ∧ Denotes p x t ∧ Denotes p y u ∧
        Denotes p d args := by
  obtain ⟨l, d, ho, hl, hd⟩ := h.exists_pair
  obtain ⟨s, l₁, ho₁, hs, hl₁⟩ := hl.exists_pair
  obtain ⟨x, l₂, ho₂, hx, hl₂⟩ := hl₁.exists_pair
  obtain ⟨y, l₃, ho₃, hy, -⟩ := hl₂.exists_pair
  have hcdar : ylcdar e p = .ok l₁ p := (bind_of_ok (ylcar_pair ho)).trans (ylcdr_pair ho₁)
  have hcddar : ylcddar e p = .ok l₂ p := (bind_of_ok hcdar).trans (ylcdr_pair ho₂)
  exact ⟨s, x, y, d, (bind_of_ok (ylcar_pair ho)).trans (ylcar_pair ho₁), hs.symOf_eq,
    (bind_of_ok hcdar).trans (ylcar_pair ho₂), (bind_of_ok hcddar).trans (ylcar_pair ho₃),
    ylcdr_pair ho, hx, hy, hd⟩

theorem lastPair_built (hts : Denotes p e (Tree.list ts)) (hT : Unfolds p e T)
    (hr : Built q bs r T) (hnodup : bs.Nodup) (hne : ts ≠ []) (hk : ts.length ≤ k) :
    ∃ b x, lastPair k r q = .ok (.blk b) q ∧ b ∈ bs ∧ (q.blk b).obj = .pair (.at x) (.at ylnil) ∧
      ∀ (s : Pool n) d, (∀ b' ∈ bs, b' ≠ b → (s.blk b').obj = (q.blk b').obj) →
        (s.blk b).obj = .pair (.at x) (.at d) → (∀ y t, Denotes p y t → Denotes s y t) →
          Denotes s d u → Denotes s r (Tree.onto u ts) := by
  induction ts generalizing e r T bs k with
  | nil => exact absurd rfl hne
  | cons t ts ih =>
      cases k with
      | zero => exact absurd hk (Nat.not_succ_le_zero _)
      | succ k =>
          obtain ⟨x₀, y₀, ho, hx₀, hy₀⟩ := hts.exists_pair
          cases hT with
          | leaf hatom =>
              rw [ho] at hatom
              cases hatom
          | @pair _ _ _ T U ho' hTx hTy =>
              rw [ho] at ho'
              cases ho'
              cases hr with
              | @pair b bs₁ bs₂ x y _ _ hob hbx hby =>
                  obtain ⟨hb, hnodup⟩ := List.nodup_cons.1 hnodup
                  obtain ⟨-, hnodup₂, hdisj⟩ := List.nodup_append'.1 hnodup
                  have hcdr : ylcdr (.blk b) q = .ok y q := ylcdr_pair hob
                  -- the copy of the car stays
                  have hcar : ∀ s : Pool n, (∀ b' ∈ bs₁, (s.blk b').obj = (q.blk b').obj) →
                      (∀ y t, Denotes p y t → Denotes s y t) → Denotes s x t := by
                    intro s hs hold
                    have hbx' := hbx.frame hs
                    rw [← Sexpr.map_id T] at hbx'
                    have h := hx₀.built (g := id) hTx hbx' fun y u hy _ => hold y u hy
                    rwa [Tree.mapAtoms_id] at h
                  cases ts with
                  | nil =>
                      obtain rfl := hy₀.eq_ylnil_iff.2 rfl
                      cases hTy with
                      | pair ho => cases ho
                      | leaf =>
                          cases hby with
                          | leaf =>
                              refine ⟨b, x, ?_, List.mem_cons_self, hob, ?_⟩
                              · rw [lastPair, bind_of_ok hcdr, if_pos rfl]
                                rfl
                              · intro s d hs hbs hold hd
                                refine .pair hbs (hcar s (fun b' hb' => hs b' ?_ ?_) hold) hd
                                · exact List.mem_cons_of_mem _ (List.mem_append_left _ hb')
                                · rintro rfl
                                  exact hb (List.mem_append_left _ hb')
                  | cons t' ts =>
                      obtain ⟨w, x', hrun, hw, how, hext⟩ :=
                        ih hy₀ hTy hby hnodup₂ (List.cons_ne_nil _ _) (Nat.le_of_succ_le_succ hk)
                      have hne : y ≠ ylnil := by
                        obtain ⟨_, _, ho₁, -, -⟩ := hy₀.exists_pair
                        cases hTy with
                        | leaf hatom =>
                            rw [ho₁] at hatom
                            cases hatom
                        | pair =>
                            cases hby with
                            | pair hob' => exact ne_ylnil_of_pair hob'
                      have hmem := List.mem_cons_of_mem b (List.mem_append_right bs₁ hw)
                      refine ⟨w, x', ?_, hmem, how, ?_⟩
                      · rw [lastPair, bind_of_ok hcdr, if_neg hne]
                        exact hrun
                      · intro s d hs hbs hold hd
                        have hbw : b ≠ w := by
                          rintro rfl
                          exact hb (List.mem_append_right _ hw)
                        have hbb := (hs b List.mem_cons_self hbw).trans hob
                        refine .pair hbb (hcar s (fun b' hb' => hs b' ?_ ?_) hold)
                          (hext s d (fun b' hb' hne' => hs b' ?_ hne') hbs hold hd)
                        · exact List.mem_cons_of_mem _ (List.mem_append_left _ hb')
                        · rintro rfl
                          exact hdisj hb' hw
                        · exact List.mem_cons_of_mem _ (List.mem_append_right _ hb')

theorem Tree.length_le_pairs (ts : List (Tree n)) : ts.length ≤ (Tree.list ts).pairs := by
  induction ts with
  | nil => exact Nat.zero_le _
  | cons t ts ih =>
      rw [List.length_cons, Tree.list, Tree.pairs]
      omega

theorem filled_of_rewritten {d : ℕ} {s : Pool n} (h : Filled p q d) (hs : Rewritten bs q s)
    (hbs : ∀ b ∈ bs, ¬ p.m.Used b) : Filled p s d := by
  refine ⟨?_, fun b hb => ?_, fun b hb => ?_, ?_⟩
  · rw [hs.m]
    exact h.wf
  · rw [hs.m]
    exact h.used b hb
  · rw [hs.blk b fun hmem => hbs b hmem hb, h.blk b hb]
  · rw [hs.m]
    exact h.room

/-- A form of mlambda leaves a pool in which `exp` is evaluated instead. -/
theorem adds_evlfMlambda (names : Set (List UInt8)) {g : Go n} {d : ℕ} (hp : p.Good)
    (he : p.Valid e) (ha : p.Valid a) (hrun : evlfMlambda c k e a p = .ok g q)
    (hfill : Filled p q d) : Adds names p q d := by
  have hgoes : Goes [] (evlfMlambda c k e a) p :=
    goes_evlfMlambda (.of_mem List.mem_cons_self he : p.Held [e, a] e)
      (.of_mem (List.mem_cons_of_mem _ List.mem_cons_self) ha)
  exact (conses_evlfMlambda c k e a).adds names hgoes hp hrun hfill

theorem makes_mlambda_nil (names : Set (List UInt8)) (hp : p.Good) (ha : p.Valid a)
    (he : Denotes p e (form nm .nil (Tree.list ts) rest args)) (hne : ts ≠ [])
    (hk : (Tree.list ts).pairs < k) (hroom : (Tree.list ts).pairs ≤ p.m.fbi) :
    Runs (evlfMlambda c k e a) p fun g q => ∃ exp, g = ⟨[], .eval exp a⟩ ∧
      Makes names p (Tree.onto args ts) (Tree.list ts).pairs exp q := by
  have hv := he.valid hp.wf
  obtain ⟨_, params, body, d, -, -, hcadar, hcaddar, hcdr, hparams, hbody, hd⟩ := he.form
  obtain rfl := hparams.eq_ylnil_iff.2 rfl
  obtain ⟨T, hT, hpairs⟩ := hbody.unfolds
  obtain ⟨exp, p₁, hclone, hfill, bs, hbs, hnodup, htaken⟩ := runs_listClone hp (.refl hp.wf.m)
    (hbody.valid hp.wf) hT (by omega : T.pairs < k) (by omega)
  obtain ⟨b, x, hlast, hb, hob, hext⟩ := lastPair_built (u := args) hbody hT hbs hnodup hne
    (by have := Tree.length_le_pairs ts; omega : ts.length ≤ k)
  obtain ⟨-, l, ho⟩ := ylcdr_ok hcdr
  have hset : ylpsetcdr (.blk b) d p₁ =
      .ok () (p₁.setBlk b { p₁.blk b with obj := .pair (.at x) (.at d) }) :=
    @ylpset_pair _ _ _ _ _ _ .cdr hob
  have hbodyne : body ≠ ylnil := fun h => hne (Tree.list_eq_nil.1 (hbody.eq_ylnil_iff.1 h))
  have hrun : evlfMlambda c k e a p = .ok ⟨[], .eval exp a⟩
      (p₁.setBlk b { p₁.blk b with obj := .pair (.at x) (.at d) }) := by
    rw [evlfMlambda, bind_of_ok hcadar, bind_of_ok hcaddar, if_pos ⟨rfl, hbodyne⟩,
      bind_of_ok hclone, bind_of_ok hlast, bind_of_ok (ylcdr_pair ((hfill.obj hv).trans ho)),
      bind_of_ok hset]
    rfl
  have hset' : Rewritten [b] p₁ (p₁.setBlk b { p₁.blk b with obj := .pair (.at x) (.at d) }) :=
    rewritten_setBlk p₁ b _
  have hadds := adds_evlfMlambda names hp hv ha hrun (filled_of_rewritten hfill hset'
    (List.forall_mem_singleton.2 (htaken b hb).1))
  rw [hpairs] at hadds
  refine .of_ok hrun ⟨exp, rfl, hadds, hext _ d (fun b' _ hne => ?_) ?_
    (fun y t hy => hy.adds hp hadds) (hd.adds hp hadds)⟩
  · exact Pool.obj_setBlk_of_ne _ _ hne
  · exact Pool.obj_setBlk_self _ _ _

theorem obj_of_syms {ss : List (List UInt8)} {us : List (Ref n)}
    (h : List.Forall₂ (Denotes p) us (ss.map Tree.sym)) :
    List.Forall₂ (fun u s => p.obj u = .sym s) us ss := by
  rw [List.forall₂_map_right_iff] at h
  exact h.imp fun _ _ h => h.obj_eq

/-- Other atoms than symbols are not equal to a symbol. -/
theorem sameAtom_eq_false {u : Ref n} {s : List UInt8} (hu : p.obj u = .sym s)
    (hr : ∀ s, p.obj r ≠ .sym s) : sameAtom c p u r = false := by
  have hur : u ≠ r := by
    rintro rfl
    exact hr s hu
  have heq : atomEq c p u r = false := by
    rw [atomEq, hu]
    cases ho : p.obj r with
    | sym s' => exact absurd ho (hr s')
    | _ => rfl
  rw [sameAtom, heq, decide_eq_false hur, Bool.and_false, Bool.or_false]

/-- A symbol is replaced by what its name is bound to, and nothing else is. -/
theorem denotes_substituted {ss : List (List UInt8)} {us vs : List (Ref n)}
    (hus : List.Forall₂ (fun u s => p.obj u = .sym s) us ss) (hvs : List.Forall₂ (Denotes p) vs ts)
    (hr : Denotes p r t) (hatom : t.isAtom = true) :
    Denotes p (substituted c p (us.zip vs) r) (Tree.substAtom (ss.zip ts) t) := by
  by_cases hsym : ∃ s, p.obj r = .sym s
  · obtain ⟨s, ho⟩ := hsym
    obtain rfl : t = .sym s := hr.unique (denotes_sym ho)
    rw [Tree.substAtom]
    induction hus generalizing vs ts with
    | nil => exact hr
    | @cons u s' us ss hu _ ih =>
        cases hvs with
        | nil => exact hr
        | @cons v t' vs ts hv hvs =>
            rw [substituted, List.zip_cons_cons, List.zip_cons_cons, List.find?_cons,
              List.lookup_cons]
            by_cases hs : s = s'
            · have hsame : sameAtom c p u r = true := (sameAtom_sym ho).2 (hs ▸ hu)
              rw [hsame, beq_iff_eq.2 hs]
              exact hv
            · have hsame : sameAtom c p u r = false := by
                refine Bool.eq_false_iff.2 fun h => hs ?_
                have hu' := (sameAtom_sym ho).1 h
                rw [hu] at hu'
                exact (Obj.sym.inj hu').symm
              rw [hsame, beq_eq_false_iff_ne.2 hs]
              exact ih hvs
  · have hne : ∀ s, p.obj r ≠ .sym s := fun s h => hsym ⟨s, h⟩
    have hsyms : ∀ u ∈ us, ∃ s, p.obj u = .sym s := by
      clear hvs
      induction hus with
      | nil => exact fun u hu => absurd hu List.not_mem_nil
      | cons hu _ ih => exact List.forall_mem_cons.2 ⟨⟨_, hu⟩, ih⟩
    have hfind : (us.zip vs).find? (fun w => sameAtom c p w.1 r) = none := by
      rw [List.find?_eq_none]
      intro w hw
      obtain ⟨s, hs⟩ := hsyms w.1 (List.of_mem_zip hw).1
      rw [sameAtom_eq_false hs hne]
      exact Bool.false_ne_true
    have hsubst : Tree.substAtom (ss.zip ts) t = t := by
      cases t with
      | atom o =>
          cases o with
          | sym s => exact absurd hr.obj_eq (hne s)
          | _ => rfl
      | _ => rfl
    rw [substituted, hfind, hsubst]
    exact hr

theorem makes_mlambda (names : Set (List UInt8)) {ss : List (List UInt8)} (hc : c.EqLocal)
    (hp : p.Good) (ha : p.Valid a)
    (he : Denotes p e (form nm (Tree.list (ss.map Tree.sym)) t rest (Tree.list ts)))
    (hss : ss ≠ []) (hlen : ss.length = ts.length) (ht : t.isAtom = false)
    (hk : t.pairs + ss.length + 1 < k) (hroom : t.pairs + 4 * ss.length ≤ p.m.fbi) :
    Runs (evlfMlambda c k e a) p fun g q => ∃ exp, g = ⟨[], .eval exp a⟩ ∧
      Makes names p (t.subst (ss.zip ts)) (t.pairs + 4 * ss.length) exp q := by
  have hv := he.valid hp.wf
  obtain ⟨_, params, body, d, -, -, hcadar, hcaddar, hcdr, hparams, hbody, hd⟩ := he.form
  obtain ⟨T, hT, hpairs⟩ := hbody.unfolds
  obtain ⟨us, hus, hus'⟩ := hparams.listing hp.wf
  obtain ⟨vs, hvs, hvs'⟩ := hd.listing hp.wf
  have hlenu : us.length = ss.length := by rw [hus'.length_eq, List.length_map]
  have hlenv : vs.length = ts.length := hvs'.length_eq
  have hlenz : (us.zip vs).length = ss.length := by
    rw [List.length_zip, hlenu, hlenv, hlen, min_self]
  have hps : ∀ w ∈ us.zip vs, p.Valid w.1 := fun w hw =>
    hus.valid hp w.1 (List.of_mem_zip hw).1
  have hnil : ¬ (params = ylnil ∧ body ≠ ylnil) := fun h =>
    hss (List.map_eq_nil_iff.1 (Tree.list_eq_nil.1 (hparams.eq_ylnil_iff.1 h.1)))
  -- the clone
  obtain ⟨exp, p₁, hclone, hfill₁, bs, hbs, hnodup, htaken⟩ := runs_listClone hp (.refl hp.wf.m)
    (hbody.valid hp.wf) hT (by omega : T.pairs < k) (by omega)
  have hroom₁ := hfill₁.room
  -- the association list
  obtain ⟨l, p₂, hpair, hfill₂, hl⟩ := runs_ylpair (k := k) hfill₁.wf (hus.filled hfill₁)
    (hvs.filled hfill₁) (by omega) (by omega) (by omega)
  have hroom₂ := hfill₂.room
  obtain ⟨l', p₃, happend, hfill₃, hl'⟩ := runs_ylappend (k := k) (y := ylnil) hfill₂ hl (by omega)
    (by omega)
  -- the replacement
  have hfill := hfill₁.trans (hfill₂.trans hfill₃)
  have hrewriting : Rewriting p p₃ bs (Taken p₁ p₃) l' (us.zip vs) :=
    ⟨hfill.blk, fun b hb => (htaken b hb).1, hl', fun b hb h => h.1 (htaken b hb).2⟩
  have hbs₃ : Built p₃ bs exp T := hbs.frame fun b hb =>
    congrArg Yle.obj ((hfill₂.trans hfill₃).blk b (htaken b hb).2)
  have hpair' : T.pairs ≠ 0 := by
    rw [hpairs]
    cases t with
    | pair t u => exact Nat.succ_ne_zero _
    | _ => cases ht
  obtain ⟨ok, q, hreplace, rfl, hq, hexp⟩ := runs_mreplace hc hp hps hrewriting hbs₃ hpair' hnodup
    (hT.leaves hp (hbody.valid hp.wf)) (by omega : T.pairs + (us.zip vs).length < k)
  obtain ⟨-, x, ho⟩ := ylcdr_ok hcdr
  have hrun : evlfMlambda c k e a p = .ok ⟨[], .eval exp a⟩ q := by
    rw [evlfMlambda, bind_of_ok hcadar, bind_of_ok hcaddar, if_neg hnil, bind_of_ok hclone,
      bind_of_ok (ylcdr_pair ((hfill₁.obj hv).trans ho)), bind_of_ok hpair, bind_of_ok happend,
      bind_of_ok hreplace]
    rfl
  have hadds := adds_evlfMlambda names hp hv ha hrun
    (filled_of_rewritten hfill hq fun b hb => (htaken b hb).1)
  have hd : T.pairs + (3 * us.length + (us.zip vs).length) = t.pairs + 4 * ss.length := by omega
  rw [hd] at hadds
  refine .of_ok hrun ⟨exp, rfl, hadds, hbody.built hT hexp fun y u hy hu => ?_⟩
  exact (denotes_substituted (obj_of_syms hus') hvs' hy hu).adds hp hadds

end Macro

end Lang

end Ylisp
