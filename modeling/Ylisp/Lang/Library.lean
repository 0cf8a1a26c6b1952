import Ylisp.Lang.ExtSpec
import Ylisp.Lang.Load

/-!
# The library on the machine

What the functions of `base.yl` and `ext.yl` return when the machine evaluates their calls, beside
the functions of `ylsfunc.h` that are meant to do the same.
-/

namespace Ylisp

namespace Lang

open Mempool Eval Effect

variable {n : ℕ}

/-- Wherever it starts, the machine evaluates the expression to `v` on `d` blocks. -/
def Computed (c : Etcxt n) (names : Set (List UInt8)) (Γ : Globals n) (ρ : Locals n) (t v : Tree n)
    (d : ℕ) : Prop := ∀ s, Starts c names Γ s t ρ d → Delivers c names s v d

/-! ### The library in a pool -/

namespace Yls

def definitions : List (Definition n) :=
  natives.map (fun w => (w.1, false, .atom w.2)) ++ macros.map (fun w => (w.1, true, w.2)) ++
    functions.map fun F => (F.name, true, F.form)

def names : Set (List UInt8) := {s | s ∈ (functions (n := 0)).map Defun.name}

theorem nodup_definitions : ((definitions (n := 0)).map Prod.fst).Nodup := by
  decide +kernel

theorem params_notMem_names : ∀ h ∈ (functions (n := 0)).map Defun.header,
    ∀ s ∈ h.2, s ∉ (functions (n := 0)).map Defun.name := by
  decide +kernel

theorem loaded : Loaded names (globals (definitions (n := n))) := by
  have hnodup : ((definitions (n := n)).map Prod.fst).Nodup := nodup_definitions
  refine ⟨fun w hw => lookup_of_mem ?_ hnodup, fun w hw => lookup_of_mem ?_ hnodup,
    fun F hF => lookup_of_mem ?_ hnodup, fun F hF => List.mem_map_of_mem (f := Defun.name) hF,
    fun F hF => params_notMem_names F.header (List.mem_map_of_mem (f := Defun.header) hF)⟩
  · exact List.mem_append_left _ (List.mem_append_left _ (List.mem_map_of_mem hw))
  · exact List.mem_append_left _ (List.mem_append_right _ (List.mem_map_of_mem hw))
  · exact List.mem_append_right _ (List.mem_map_of_mem hF)

theorem knows : Knows names (globals (definitions (n := n))) [] := knows_nil loaded

theorem storable : Storable (definitions (n := 16384)) := by
  decide +kernel

/-- The machine starts on an expression, with the library. -/
def start (t : Tree 16384) : State 16384 :=
  { State.init (image t definitions) with ctl := .eval (t.home 0) ylnil }

theorem starts {t : Tree 16384} {d : ℕ} (ht : t.stored = true) (hlen : t.size + d ≤ 14000) :
    Starts (plainCxt 16384 false) names (globals definitions) (start t) t [] d := by
  have hsizes : sizes (definitions (n := 16384)) ≤ 2384 := by decide +kernel
  exact starts_image ht storable (by omega)

end Yls

section Library

variable {c : Etcxt n} {names : Set (List UInt8)} {Γ : Globals n} {ρ : Locals n}
  {t u v x y z : Tree n} {ts us : List (Tree n)} {d d₁ d₂ : ℕ}

theorem Within.computed (h : Within names Γ (.eval t) ρ v d) (hc : c.EqLocal) :
    Computed c names Γ ρ t v d := by
  obtain ⟨i, hi, h⟩ := h
  rintro s ⟨hs, e, a, hctl, he, hr⟩
  exact (sound hc h s e a hs (hr.mono hi) hctl he).mono (fun _ => id) fun _ hu =>
    { hu with preserves := hu.preserves.mono hi }

/-! ### Functions that are in `ylsfunc.h`, too -/

/-- `append` and `ylappend`. -/
theorem append_computed (hc : c.EqLocal) (hlib : Loaded names Γ) (hknows : Knows names Γ ρ)
    (hx : Within names Γ (.eval x) ρ (.list ts) d₁) (hy : Within names Γ (.eval y) ρ u d₂) :
    Computed c names Γ ρ (call "append" [x, y]) (Tree.onto u ts) (d₁ + d₂ + 62 * ts.length + 57) ∧
      ∀ (p : Pool n) (r r' : Ref n), p.Good → Denotes p r (.list ts) → Denotes p r' u →
        ts.length ≤ p.m.fbi → ∀ k, ts.length < k →
          Runs (ylappend k r r') p (Makes names p (Tree.onto u ts) ts.length) := by
  refine ⟨Within.computed ?_ hc, fun p r r' hp hr hr' hroom k hk =>
    makes_ylappend names hp hr hr' hk hroom⟩
  have hF : Base.append ∈ Yls.functions (n := n) := mem_of_lists (by simp [Base.lists])
  have hpairs : (Base.append : Defun n).form.pairs = 27 := by simp [Base.append, defun]
  have hlen : (Base.append : Defun n).params.length = 2 := rfl
  refine (within_function hlib hknows hF (within_two hx hy) rfl
    (computes_append hlib ts u)).mono ?_
  omega

theorem append_computed_abc :
    let t : Tree 16384 :=
      call "append" [quote (.list [var "a", var "b"]), quote (.list [var "c"])]
    let v : Tree 16384 := .list [var "a", var "b", var "c"]
    Delivers (plainCxt 16384 false) Yls.names (Yls.start t) v 181 :=
  (append_computed (fun _ _ _ _ _ _ _ _ => rfl) Yls.loaded Yls.knows (within_quote Yls.knows)
    (within_quote Yls.knows)).1 _ (Yls.starts rfl (by decide))

/-- `pair` and `ylpair`: lists of different lengths are cut by the one, and refused by the
other. -/
theorem pair_computed (hc : c.EqLocal) (hlib : Loaded names Γ) (hknows : Knows names Γ ρ)
    (hx : Within names Γ (.eval x) ρ (.list ts) d₁)
    (hy : Within names Γ (.eval y) ρ (.list us) d₂) :
    Computed c names Γ ρ (call "pair" [x, y]) (.list (Tree.twos ts us))
        (d₁ + d₂ + 230 * min ts.length us.length + 212) ∧
      ∀ (p : Pool n) (r r' : Ref n), p.Good → Denotes p r (.list ts) → Denotes p r' (.list us) →
        3 * ts.length ≤ p.m.fbi → ∀ k, ts.length < k →
          (ts.length = us.length →
            Runs (ylpair k r r') p (Makes names p (.list (Tree.twos ts us)) (3 * ts.length))) ∧
          (ts.length ≠ us.length →
            ∃ q, ylpair k r r' p = .error (.undefined .evalUndefined) q) := by
  refine ⟨Within.computed ?_ hc, fun p r r' hp hr hr' hroom k hk =>
    ⟨fun hlen => makes_ylpair names hp hr hr' hlen hk hroom, fun hlen =>
      ylpair_fails names hp hr hr' hlen hk (by omega)⟩⟩
  have hF : Base.pair ∈ Yls.functions (n := n) := mem_of_lists (by simp [Base.lists])
  have hpairs : (Base.pair : Defun n).form.pairs = 50 := by simp [Base.pair, defun]
  have hlen : (Base.pair : Defun n).params.length = 2 := rfl
  refine (within_function hlib hknows hF (within_two hx hy) rfl
    (computes_pair hlib ts us)).mono ?_
  omega

theorem pair_computed_abc :
    let t : Tree 16384 := call "pair" [quote (.list [var "a", var "b"]), quote (.list [var "c"])]
    let v : Tree 16384 := .list [.list [var "a", var "c"]]
    Delivers (plainCxt 16384 false) Yls.names (Yls.start t) v 442 :=
  (pair_computed (fun _ _ _ _ _ _ _ _ => rfl) Yls.loaded Yls.knows (within_quote Yls.knows)
    (within_quote Yls.knows)).1 _ (Yls.starts rfl (by decide))

/-- `subst` and `ylsubst`: the one finds no pair, and the other does not look for one. -/
theorem subst_computed (hc : c.EqLocal) (hlib : Loaded names Γ) (hknows : Knows names Γ ρ)
    (hu : u.IsPlain) (hv : v.IsPlain) (hx : Within names Γ (.eval x) ρ t d)
    (hy : Within names Γ (.eval y) ρ u d₁) (hz : Within names Γ (.eval z) ρ v d₂) :
    Computed c names Γ ρ (call "subst" [x, y, z]) (Tree.replace t u v)
        (d + d₁ + d₂ + 182 * v.pairs + 98) ∧
      ∀ (p : Pool n) (r r' r'' : Ref n), p.Good → Denotes p r t → Denotes p r' u →
        Denotes p r'' v → v.pairs ≤ p.m.fbi → ∀ k, v.pairs + 1 < k →
          (u.isAtom = true →
            Runs (ylsubst c k r r' r'') p (Makes names p (Tree.replace t u v) v.pairs)) ∧
          (u.isAtom = false →
            ylsubst c k r r' r'' p = .error (.undefined .evalUndefined) p) := by
  refine ⟨Within.computed ?_ hc, fun p r r' r'' hp hr hr' hr'' hroom k hk =>
    ⟨fun hatom => makes_ylsubst names hp hr hr' hr'' hatom hu hv hk hroom, fun hatom => ?_⟩⟩
  · have hF : Base.subst ∈ Yls.functions (n := n) := mem_of_lists (by simp [Base.lists])
    have hpairs : (Base.subst : Defun n).form.pairs = 45 := by simp [Base.subst, defun]
    have hlen : (Base.subst : Defun n).params.length = 3 := rfl
    refine (within_function hlib hknows hF (within_cons hx (within_two hy hz)) rfl
      (computes_subst hlib t hu hv)).mono ?_
    omega
  · obtain ⟨k, rfl⟩ : ∃ m, k = m + 1 := ⟨k - 1, by omega⟩
    exact ylsubst_fails hr' hatom

theorem subst_computed_abc :
    let t : Tree 16384 := call "subst" [quote (var "x"), quote (var "a"),
      quote (.list [var "a", .list [var "b", var "a"]])]
    let v : Tree 16384 := .list [var "x", .list [var "b", var "x"]]
    Delivers (plainCxt 16384 false) Yls.names (Yls.start t) v 826 := by
  intro t v
  have ha : (var "a" : Tree 16384).IsPlain := trivial
  have hz : (Tree.list [var "a", .list [var "b", var "a"]] : Tree 16384).IsPlain :=
    ⟨trivial, ⟨trivial, trivial, trivial⟩, trivial⟩
  have hba : (var "b" : Tree 16384) ≠ var "a" := fun h =>
    absurd (Obj.sym.inj (Tree.atom.inj h)) (by decide)
  have hnil : (.nil : Tree 16384) ≠ var "a" := by simp [var]
  have hv : Tree.replace (var "x") (var "a") (.list [var "a", .list [var "b", var "a"]]) = v := by
    simp [Tree.replace, Tree.list, Tree.mapAtoms, Tree.mapAtoms_of_isAtom (t := var _) rfl, hba,
      hnil, v]
  rw [← hv]
  exact (subst_computed (fun _ _ _ _ _ _ _ _ => rfl) Yls.loaded Yls.knows ha hz
    (within_quote Yls.knows) (within_quote Yls.knows) (within_quote Yls.knows)).1 _
      (Yls.starts rfl (by decide))

/-- `among`, `member` and `ylamong`: the first does not find nil. -/
theorem among_computed {b : Bool} (hc : c.EqLocal) (hlib : Loaded names Γ)
    (hknows : Knows names Γ ρ) (ht : t.IsPlain) (hus : ∀ u ∈ us, u.IsPlain)
    (hx : Within names Γ (.eval x) ρ t d₁) (hy : Within names Γ (.eval y) ρ (.list us) d₂)
    (hb : b = true ↔ t ∈ us) :
    Computed c names Γ ρ (call "among" [x, y]) (.ofBool (!t.isNil && b))
        (d₁ + d₂ + 152 * us.length + 69) ∧
      Computed c names Γ ρ (call "member" [x, y]) (.ofBool b) (d₁ + d₂ + 200 * us.length + 76) ∧
      ∀ (p : Pool n) (r r' : Ref n), Denotes p r t → Denotes p r' (.list us) →
        ∀ k, us.length + t.pairs + 1 < k → ylamong c k r r' p = .ok (ylb2e b) p := by
  refine ⟨Within.computed ?_ hc, Within.computed ?_ hc, fun p r r' hr hr' k hk => ?_⟩
  · have hF : Base.among ∈ Yls.functions (n := n) := mem_of_lists (by simp [Base.lists])
    have hpairs : (Base.among : Defun n).form.pairs = 39 := by simp [Base.among, defun]
    have hlen : (Base.among : Defun n).params.length = 2 := rfl
    have hval : (!t.isNil && b) = true ↔ t ≠ .nil ∧ t ∈ us := by
      rw [Bool.and_eq_true, Bool.not_eq_true', Tree.isNil_eq_false_iff, hb]
    refine (within_function hlib hknows hF (within_two hx hy) rfl
      (computes_among hlib ht hus hval)).mono ?_
    omega
  · have hF : Base.member ∈ Yls.functions (n := n) := mem_of_lists (by simp [Base.lists])
    have hpairs : (Base.member : Defun n).form.pairs = 34 := by simp [Base.member, defun]
    have hlen : (Base.member : Defun n).params.length = 2 := rfl
    refine (within_function hlib hknows hF (within_two hx hy) rfl
      (computes_member hlib ht hus hb)).mono ?_
    omega
  · obtain ⟨b', hrun, hb'⟩ := runs_ylamong (c := c) hr hr' ht hus hk
    rw [hrun, Bool.eq_iff_iff.2 (hb'.trans hb.symm)]

theorem among_computed_nil :
    let t : Tree 16384 := call "among" [quote .nil, quote (.list [var "a", .nil])]
    Delivers (plainCxt 16384 false) Yls.names (Yls.start t) .nil 373 := by
  intro t
  have hnil : (.nil : Tree 16384).IsPlain := trivial
  have hus : ∀ u ∈ [var "a", (.nil : Tree 16384)], u.IsPlain :=
    List.forall_mem_cons.2 ⟨trivial, List.forall_mem_singleton.2 trivial⟩
  have hmem : true = true ↔ (.nil : Tree 16384) ∈ [var "a", .nil] := by simp
  exact (among_computed (fun _ _ _ _ _ _ _ _ => rfl) Yls.loaded Yls.knows hnil hus
    (within_quote Yls.knows) (within_quote Yls.knows) hmem).1 _ (Yls.starts rfl (by decide))

/-- `ff` and `ylff`. -/
theorem ff_computed (hc : c.EqLocal) (hlib : Loaded names Γ) (hknows : Knows names Γ ρ)
    (hx : Within names Γ (.eval x) ρ t d) :
    Computed c names Γ ρ (call "ff" [x]) t.ff (d + 47 * t.depth + 46) ∧
      ∀ (p : Pool n) (r : Ref n), Denotes p r t → ∀ k, t.depth < k →
        Runs (ylff k r) p fun r' q => q = p ∧ Denotes p r' t.ff := by
  refine ⟨Within.computed ?_ hc, fun p r hr k hk => runs_ylff hr hk⟩
  have hF : Base.ff ∈ Yls.functions (n := n) := mem_of_lists (by simp [Base.lists])
  have hpairs : (Base.ff : Defun n).form.pairs = 20 := by simp [Base.ff, defun]
  have hlen : (Base.ff : Defun n).params.length = 1 := rfl
  refine (within_function hlib hknows hF (within_one hx) rfl (computes_ff hlib t)).mono ?_
  omega

theorem ff_computed_abc :
    let t : Tree 16384 := call "ff" [quote (.list [.list [var "a", var "b"], var "c"])]
    Delivers (plainCxt 16384 false) Yls.names (Yls.start t) (var "a") 140 :=
  (ff_computed (fun _ _ _ _ _ _ _ _ => rfl) Yls.loaded Yls.knows (within_quote Yls.knows)).1 _
    (Yls.starts rfl (by decide))

/-- `lclone` and `_list_clone`. The pairs of the copy that the latter makes are all new. -/
theorem lclone_computed (hc : c.EqLocal) (hlib : Loaded names Γ) (hknows : Knows names Γ ρ)
    (hx : Within names Γ (.eval x) ρ t d) :
    Computed c names Γ ρ (call "lclone" [x]) t (d + 111 * t.pairs + 53) ∧
      ∀ (p : Pool n) (r : Ref n), p.Good → Denotes p r t → t.pairs ≤ p.m.fbi → ∀ k, t.pairs < k →
        Runs (listClone k r) p fun v q =>
          Makes names p t t.pairs v q ∧ ∃ T, Unfolds p r T ∧ Fresh p q v T := by
  refine ⟨Within.computed ?_ hc, fun p r hp hr hroom k hk => copies_listClone names hp hr hk hroom⟩
  have hF : Base.lclone ∈ Yls.functions (n := n) := mem_of_lists (by simp [Base.lists])
  have hpairs : (Base.lclone : Defun n).form.pairs = 27 := by simp [Base.lclone, defun]
  have hlen : (Base.lclone : Defun n).params.length = 1 := rfl
  refine (within_function hlib hknows hF (within_one hx) rfl (computes_lclone hlib t)).mono ?_
  omega

theorem lclone_computed_abc :
    let t : Tree 16384 := .list [.list [var "a", var "b"], var "c"]
    Delivers (plainCxt 16384 false) Yls.names (Yls.start (call "lclone" [quote t])) t 497 :=
  (lclone_computed (fun _ _ _ _ _ _ _ _ => rfl) Yls.loaded Yls.knows
    (within_quote Yls.knows)).1 _ (Yls.starts rfl (by decide))

/-- `caar` to `cddddr` and `ylcaar` to `ylcddddr`: where there is no pair, the ones give nil and
the others fail. -/
theorem cxr_computed (hc : c.EqLocal) (hlib : Loaded names Γ) (hknows : Knows names Γ ρ)
    (hx : Within names Γ (.eval x) ρ t d) : ∀ w ∈ Base.cxrs (n := n),
    Computed c names Γ ρ (.pair (.sym w.2.name) (.list [x])) (t.path w.1) (d + 568) ∧
      ∀ (p : Pool n) (r : Ref n), Denotes p r t →
        (t.HasPath w.1 → ∃ r', ylcxr w.1 r p = .ok r' p ∧ Denotes p r' (t.path w.1)) ∧
          (¬ t.HasPath w.1 → ylcxr w.1 r p = .error (.undefined .evalUndefined) p) := by
  intro w hw
  refine ⟨Within.computed ?_ hc, fun p r hr => ylcxr_eq hr⟩
  obtain ⟨name, hsel⟩ := selects_cxr hlib t w hw
  rw [hsel.name_eq]
  exact hsel.within hlib hknows hx

theorem cxr_computed_caddr :
    let t : Tree 16384 := call "caddr" [quote (.list [var "a", var "b", var "c"])]
    Delivers (plainCxt 16384 false) Yls.names (Yls.start t) (var "c") 568 := by
  intro t
  have hw : ([.car, .cdr, .cdr], Base.caddr) ∈ Base.cxrs (n := 16384) := by simp [Base.cxrs]
  exact (cxr_computed (fun _ _ _ _ _ _ _ _ => rfl) Yls.loaded Yls.knows
    (within_quote Yls.knows) _ hw).1 _ (Yls.starts rfl (by decide))

/-! ### Functions that are only in Lisp -/

/-- `mapcar`: each element is evaluated once more, where `mapcar` is evaluated. -/
theorem mapcar_computed {xs ys : List (Tree n)} (hc : c.EqLocal) (hlib : Loaded names Γ)
    (hknows : Knows names Γ ρ) (hx : Within names Γ (.eval x) ρ t d₁)
    (hy : Within names Γ (.eval y) ρ (.list xs) d₂)
    (hall : List.Forall₂ (fun u v => ∀ ws, Within names Γ (.eval (.list [t, u]))
      (Base.mapcar.env [t, .list ws]) v d) xs ys) :
    Computed c names Γ ρ (call "mapcar" [x, y]) (.list ys)
      (d₁ + d₂ + (d + 150) * xs.length + 118) := by
  refine Within.computed ?_ hc
  have hF : Base.mapcar ∈ Yls.functions (n := n) := mem_of_lists (by simp [Base.lists])
  have hpairs : (Base.mapcar : Defun n).form.pairs = 36 := by simp [Base.mapcar, defun]
  have hlen : (Base.mapcar : Defun n).params.length = 2 := rfl
  refine (within_function hlib hknows hF (within_two hx hy) rfl
    (computes_mapcar hlib t hall)).mono ?_
  omega

/-- The elements are quoted, so that they can be evaluated once more. -/
theorem mapcar_computed_car :
    let u : Tree 16384 := .list [var "a", var "b"]
    let t : Tree 16384 := call "mapcar" [quote (var "car"), quote (.list [quote u, quote u])]
    Delivers (plainCxt 16384 false) Yls.names (Yls.start t) (.list [var "a", var "a"]) 420 := by
  intro u t
  have hF : Base.mapcar ∈ Yls.functions (n := 16384) := mem_of_lists (by simp [Base.lists])
  have hcar : ∀ ws, Within Yls.names (globals Yls.definitions) (.eval (.list [var "car", quote u]))
      (Base.mapcar.env [var "car", .list ws]) (var "a") 1 := fun ws =>
    within_car (knows_env Yls.loaded hF _) (within_quote (knows_env Yls.loaded hF _))
  exact mapcar_computed (fun _ _ _ _ _ _ _ _ => rfl) Yls.loaded Yls.knows
    (within_quote Yls.knows) (within_quote Yls.knows) (.cons hcar (.cons hcar .nil)) _
      (Yls.starts rfl (by decide))

/-- After any sequence of `pr+` and `pr-`, the functions `pr*` and `pr?` read what the sequence
leaves in the map that the first property list stands for. -/
theorem properties_computed {P : Properties n} {ops : List (Update n)} {k : Tree n} {b : Bool}
    (hc : c.EqLocal) (hlib : Loaded names Γ) (hknows : Knows names Γ ρ) (hP : P.Keyed)
    (hops : ∀ op ∈ ops, op.key.IsPlain) (hk : k.IsPlain)
    (hx : Within names Γ (.eval x) ρ P.tree d)
    (hb : b = true ↔ (ops.foldl Update.onMap P.get k).isSome) :
    Computed c names Γ ρ (call "pr*" [ops.foldl Update.expr x, quote k])
        ((ops.foldl Update.onMap P.get k).getD .nil)
        (d + (410 * (P.length + ops.length) + 890) * (ops.length + 1)) ∧
      Computed c names Γ ρ (call "pr?" [ops.foldl Update.expr x, quote k]) (.ofBool b)
        (d + (410 * (P.length + ops.length) + 890) * (ops.length + 1)) := by
  obtain ⟨hwithin, hkeyed, hlen⟩ := within_updates hlib hknows hP hops hx
  have hget := Update.get_foldl ops P
  have hle : (410 * (P.length + ops.length) + 490) * ops.length ≤
      (410 * (P.length + ops.length) + 890) * ops.length := Nat.mul_le_mul_right _ (by omega)
  refine ⟨Within.computed ?_ hc, Within.computed ?_ hc⟩
  · have hF : Ext.prGet ∈ Yls.functions (n := n) := mem_of_properties (by simp [Ext.properties])
    have hpairs : (Ext.prGet : Defun n).form.pairs = 34 := by simp [Ext.prGet, defun]
    have hparams : (Ext.prGet : Defun n).params.length = 2 := rfl
    have hget' := computes_prGet hlib hkeyed hk
    rw [hget] at hget'
    refine (within_function hlib hknows hF (within_two hwithin (within_quote hknows)) rfl
      hget').mono ?_
    rw [Nat.mul_succ]
    omega
  · have hF : Ext.prIs ∈ Yls.functions (n := n) := mem_of_properties (by simp [Ext.properties])
    have hpairs : (Ext.prIs : Defun n).form.pairs = 34 := by simp [Ext.prIs, defun]
    have hparams : (Ext.prIs : Defun n).params.length = 2 := rfl
    rw [← hget] at hb
    refine (within_function hlib hknows hF (within_two hwithin (within_quote hknows)) rfl
      (computes_prIs hlib hkeyed hk hb)).mono ?_
    rw [Nat.mul_succ]
    omega

theorem properties_computed_ab :
    let t : Tree 16384 := call "pr*" [call "pr-" [call "pr+" [call "pr+" [quote .nil,
      quote (var "a"), quote (var "x")], quote (var "b"), quote (var "y")], quote (var "a")],
      quote (var "b")]
    Delivers (plainCxt 16384 false) Yls.names (Yls.start t) (var "y") 8480 := by
  intro t
  let ops : List (Update 16384) :=
    [.set (var "a") (var "x"), .set (var "b") (var "y"), .erase (var "a")]
  have hops : ∀ op ∈ ops, op.key.IsPlain := by simp [ops, Update.key, var, Tree.IsPlain]
  have hba : (var "b" : Tree 16384) ≠ var "a" := fun h =>
    absurd (Obj.sym.inj (Tree.atom.inj h)) (by decide)
  have hval : ops.foldl Update.onMap (Properties.get []) (var "b") = some (var "y") := by
    simp [ops, Update.onMap, hba]
  have hb : true = true ↔ (ops.foldl Update.onMap (Properties.get []) (var "b")).isSome := by
    simp [hval]
  have hx : Within Yls.names (globals Yls.definitions) (.eval (quote .nil)) []
      (Properties.tree (n := 16384) []) 0 := within_quote Yls.knows
  have hc : (plainCxt 16384 false).EqLocal := fun _ _ _ _ _ _ _ _ => rfl
  have hkey : (var "b" : Tree 16384).IsPlain := trivial
  have h := (properties_computed hc Yls.loaded Yls.knows
    (fun _ h => absurd h List.not_mem_nil) hops hkey hx hb).1
  have hlen : ops.length = 3 := rfl
  simp only [hval, hlen, List.length_nil, Nat.zero_add, Nat.reduceMul, Nat.reduceAdd] at h
  exact h _ (Yls.starts rfl (by decide))

open Classical in
/-- `pr-from-list` sets the keys of a list to one value, and leaves the others alone. -/
theorem prFromList_computed {P : Properties n} {ks : List (Tree n)} (hc : c.EqLocal)
    (hlib : Loaded names Γ) (hknows : Knows names Γ ρ) (hP : P.Keyed) (hks : ∀ k ∈ ks, k.IsPlain)
    (hx : Within names Γ (.eval x) ρ P.tree d) (hy : Within names Γ (.eval y) ρ (.list ks) d₁)
    (hz : Within names Γ (.eval z) ρ v d₂) :
    ∃ Q : Properties n, Computed c names Γ ρ (call "pr-from-list" [x, y, z]) Q.tree
        (d + d₁ + d₂ + (410 * (P.length + ks.length) + 720) * ks.length + 118) ∧
      ∀ k, Q.get k = if k ∈ ks then some v else P.get k := by
  refine ⟨ks.foldl (fun P k => P.set k v) P, Within.computed ?_ hc, get_foldl_set ks P⟩
  have hF : Ext.prFromList ∈ Yls.functions (n := n) := mem_of_properties (by simp [Ext.properties])
  have hpairs : (Ext.prFromList : Defun n).form.pairs = 32 := by simp [Ext.prFromList, defun]
  have hlen : (Ext.prFromList : Defun n).params.length = 3 := rfl
  refine (within_function hlib hknows hF (within_cons hx (within_two hy hz)) rfl
    (computes_prFromList hlib hP hks)).mono ?_
  omega

theorem prFromList_computed_ab :
    let t : Tree 16384 := call "pr-from-list" [quote .nil, quote (.list [var "a", var "b"]),
      quote (var "x")]
    ∃ Q : Properties 16384,
      Delivers (plainCxt 16384 false) Yls.names (Yls.start t) Q.tree 3198 ∧
        Q.get (var "b") = some (var "x") := by
  intro t
  have hc : (plainCxt 16384 false).EqLocal := fun _ _ _ _ _ _ _ _ => rfl
  have hks : ∀ k ∈ [var "a", (var "b" : Tree 16384)], k.IsPlain :=
    List.forall_mem_cons.2 ⟨trivial, List.forall_mem_singleton.2 trivial⟩
  have hx : Within Yls.names (globals Yls.definitions) (.eval (quote .nil)) []
      (Properties.tree (n := 16384) []) 0 := within_quote Yls.knows
  obtain ⟨Q, hQ, hget⟩ := prFromList_computed hc Yls.loaded Yls.knows
    (fun _ h => absurd h List.not_mem_nil) hks hx (within_quote Yls.knows)
      (within_quote (t := var "x") Yls.knows)
  simp only [List.length_nil, List.length_cons, Nat.zero_add, Nat.reduceMul, Nat.reduceAdd] at hQ
  exact ⟨Q, hQ _ (Yls.starts rfl (by decide)), (hget _).trans (if_pos (by simp))⟩

end Library

end Lang

end Ylisp
