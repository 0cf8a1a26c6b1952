import Ylisp.Eval.Pending

/-!
# What the evaluator hands over

One rule for each form that `yleval` dispatches to, for each native function and
for each function that is given the value it waits for: what it relies on while
it waits, and what is executed next, can be reached from the base blocks that are
there (`Goes`). The pair assignments are left out; they are in the next file.
-/

namespace Ylisp

namespace Eval

open Mempool Effect

variable {n : ℕ} {p : Pool n} {fs : List (Frame n)} {e a : Ref n}

def since (p : Pool n) : Law (Pool n) := Law.always fun q => q.Good ∧ p.Grown q

section Since

variable {α : Type} {x : Hp n α} {q : Pool n} {Q : α → Pool n → Prop} {S : Set (Fin n)}

theorem wp_since (h : Wp (growth n) x q Q) : Wp (since p) x q fun r s => q.Grown s ∧ Q r s :=
  h.always And.left fun _ hq ht hle => ⟨ht, hq.2.trans hle⟩

theorem wp_since_patching (h : Wp (patching S) x q Q) (hS : ∀ b ∈ S, ¬ p.m.Used b) :
    Wp (since p) x q fun r s => Patched S q s ∧ Q r s :=
  h.always And.left fun _ hq ht hle => ⟨ht, hle.grown hq.2 hS⟩

theorem Wp.growth_of_since (h : Wp (since p) x p Q) : Wp (growth n) x p Q := by
  intro hp
  have hout := h ⟨hp, Pool.Grown.refl p⟩
  cases hx : x p with
  | ok r q =>
      rw [hx] at hout
      exact ⟨hout.1.1, hout.1.2, hout.2.2⟩
  | error r q =>
      rw [hx] at hout
      exact hout.1

end Since

section Form

variable {bs : List (Ref n)} {c : Etcxt n} {k : ℕ} {erange : Bool}

theorem goes_ylevlis (he : p.Held (anchors fs) e) (ha : p.Held (anchors fs) a) :
    Goes fs (ylevlis e a) p := by
  refine Wp.ite (fun _ => goes_go trivial) fun _ => follows_ylcar.held he fun x hx => ?_
  exact goes_enter_eval rfl nofun (by simp [Wait.uses, he, ha]) hx ha

theorem goes_evatomForm (ha : p.Held bs a) :
    Goes fs (evatomForm c erange k e a) p := by
  refine Wp.of_inv fun hp => Wp.read_bind (reads_symOf e) fun s _ => ?_
  cases s with
  | none => exact wp_undefined
  | some s =>
      refine Wp.bind (wp_assoc c erange k e (ha.valid hp)) ?_
      rintro ⟨vty, r⟩ q - hle hr
      exact Wp.ite (fun _ => goes_go ⟨hr, (ha.valid hp).grown hle⟩) fun _ => goes_go hr

theorem goes_evfuncForm (he : p.Held (anchors fs) e) (ha : p.Held (anchors fs) a) :
    Goes fs (evfuncForm c erange k e a) p := by
  refine Wp.of_inv fun hp => Wp.read_bind (follows_ylcar p e) fun x _ => ?_
  refine Wp.read_bind (reads_symOf x) fun s _ => ?_
  cases s with
  | none => exact wp_undefined
  | some s =>
      refine Wp.read_bind (follows_ylcar p e) fun x _ => ?_
      refine Wp.bind (wp_assoc c erange k x (ha.valid hp)) ?_
      rintro ⟨vty, r⟩ q hq hle hr
      have he := he.grown hp hle
      have ha := ha.grown hp hle
      refine Wp.ite (fun _ => ?_) fun _ => ?_
      · refine follows_ylcdr.bind (he.valid hq) fun d hd => ?_
        refine Wp.bind (returns_ylcons hr hd) fun e' q' _ hle' he' => ?_
        exact goes_go ⟨he', (ha.valid hq).grown hle'⟩
      · refine Wp.read_bind (Wp.ok (Q := fun s _ => s = q) rfl rfl) ?_
        rintro q rfl
        split
        next f _ => exact follows_ylcdr.held he fun d hd => goes_go ⟨hd, ha⟩
        next f _ =>
          refine follows_ylcdr.held he fun d hd => goes_enter (.of_bb rfl ?_ ?_) ?_
          · simpa [Wait.bb] using hr
          · simpa [Wait.uses] using ha
          · exact ⟨held_cons hd, held_cons ha⟩
        next => exact wp_undefined

theorem goes_evlfLambda (he : p.Held (anchors fs) e) (ha : p.Held (anchors fs) a) :
    Goes fs (evlfLambda e a) p := by
  refine follows_ylcaddar.held he fun body hbody => ?_
  refine follows_ylcadar.held he fun params hparams => follows_ylcdr.held he fun d hd => ?_
  exact goes_enter (.of_bb rfl nofun (by simp [Wait.uses, hbody, hparams, ha]))
    ⟨held_cons hd, held_cons ha⟩

theorem goes_evlfMlambda (he : p.Held bs e) (ha : p.Held bs a) :
    Goes fs (evlfMlambda c k e a) p := by
  refine follows_ylcadar.held he fun params hparams => ?_
  refine follows_ylcaddar.held he fun body hbody => Wp.of_inv fun hp => ?_
  refine Wp.growth_of_since (Wp.ite (fun _ => ?_) fun _ => ?_)
  · refine Wp.bind (wp_since (wp_listClone k (hbody.valid hp))) ?_
    rintro exp q ⟨hq, hle⟩ - ⟨-, hexp, S, hS, hnew⟩
    refine Wp.read_bind (wp_lastPair k hS) ?_
    rintro _ ⟨-, b, hb, x, y, rfl, ho⟩
    refine Wp.read_bind (follows_ylcdr q e) fun d hd => ?_
    have hd := hq.valid_of_path ((he.valid hp).grown hle) hd
    have hset : Wp (patching S) (ylpset .cdr (.blk b) d) q _ :=
      wp_ylpset (y := x) (hnew b hb).2 ho hd hb
    refine Wp.bind (wp_since_patching hset fun b hb => (hnew b hb).1) ?_
    rintro _ s ⟨hs, hle'⟩ - ⟨hpatch, -⟩
    exact wp_go ⟨hpatch.valid hexp, (ha.valid hp).grown hle'⟩
  · refine Wp.bind (wp_since (wp_listClone k (hbody.valid hp))) ?_
    rintro exp q ⟨hq, hle⟩ - ⟨-, hexp, S, hS, hnew⟩
    refine Wp.read_bind (follows_ylcdr q e) fun d hd => ?_
    have hd := hq.valid_of_path ((he.valid hp).grown hle) hd
    refine Wp.bind (wp_since (returns_ylpair k ((hparams.valid hp).grown hle) hd)) ?_
    rintro l s ⟨hs, hle'⟩ - ⟨hqs, hl⟩
    refine Wp.bind (wp_since (returns_ylappend k hl trivial)) ?_
    rintro l t ⟨ht, hle''⟩ - ⟨hst, hl⟩
    have hqt := hqs.trans hst
    refine Wp.bind (wp_since_patching (wp_mreplace c k (hS.grown hq hexp hqt) (hexp.grown hqt) hl)
      fun b hb => (hnew b hb).1) ?_
    rintro ok u ⟨hu, hpu⟩ - ⟨hpatch, -⟩
    refine Wp.ite (fun _ => ?_) fun _ => wp_undefined
    exact wp_go ⟨hpatch.valid (hexp.grown hqt), (ha.valid hp).grown hpu⟩

theorem goes_evlfLabel (he : p.Held bs e) (ha : p.Held bs a) : Goes fs (evlfLabel e a) p := by
  refine follows_ylcadar.held he fun x _ => Wp.read_bind (reads_symOf x) fun s _ => ?_
  cases s with
  | none => exact wp_undefined
  | some s =>
      refine Wp.of_inv fun hp => ?_
      have he := he.valid hp
      refine follows_ylcaddar.bind he fun f hf => follows_ylcdr.bind he fun d hd => ?_
      refine Wp.bind (returns_ylcons hf hd) fun e' q _ hle he' => ?_
      have he := he.grown hle
      refine follows_ylcadar.bind he fun x hx => follows_ylcar.bind he fun y hy => ?_
      refine Wp.bind (returns_yllist hx hy) fun l s _ hle' hl => ?_
      have ha := ((ha.valid hp).grown hle).grown hle'
      refine Wp.bind (returns_ylcons hl ha) fun a' t _ hle'' ha' => ?_
      exact goes_go ⟨(he'.grown hle').grown hle'', ha'⟩

theorem goes_evlfFlabel (he : p.Held (anchors fs) e) (ha : p.Held (anchors fs) a) :
    Goes fs (evlfFlabel e a) p := by
  refine follows_ylcar.held he fun fl hfl => follows_ylcadr.held hfl fun fln hfln => ?_
  refine follows_ylcaddr.held hfl fun fla hfla => follows_ylcadddr.held hfl fun fle hfle => ?_
  refine follows_ylcdr.held he fun flp hflp => Wp.read_bind (reads_symOf fln) fun s _ => ?_
  cases s with
  | none => exact wp_undefined
  | some s =>
      refine Wp.of_inv fun hp => Wp.bind (wp_setEstype fln symMac) fun _ q _ hle _ => ?_
      have hheld : ∀ {r}, p.Held (anchors fs) r → q.Held (anchors fs) r := fun h => h.grown hp hle
      refine goes_enter (.of_bb rfl nofun ?_) ⟨held_cons (hheld hflp), held_cons (hheld ha)⟩
      simp [Wait.uses, hheld hfln, hheld hfl, hheld hfla, hheld hfle]

theorem goes_evlambdaForm (he : p.Held (anchors fs) e) (ha : p.Held (anchors fs) a) :
    Goes fs (evlambdaForm c k e a) p := by
  refine follows_ylcaar.held he fun x _ => Wp.read_bind (reads_symOf x) fun s _ => ?_
  cases s with
  | none => exact wp_undefined
  | some sym =>
      refine Wp.ite (fun _ => goes_evlfLambda he ha) fun _ => ?_
      refine Wp.ite (fun _ => goes_evlfMlambda he ha) fun _ => ?_
      refine Wp.ite (fun _ => goes_evlfLabel he ha) fun _ => ?_
      refine Wp.ite (fun _ => goes_evlfFlabel he ha) fun _ => follows_ylcdr.held he fun d hd => ?_
      refine follows_ylcar.held he fun x hx => ?_
      exact goes_enter_eval rfl nofun (by simp [Wait.uses, hd, ha]) hx ha

theorem goes_evalForm (he : p.Held (anchors fs) e) (ha : p.Held (anchors fs) a) :
    Goes fs (evalForm c erange k e a) p := by
  refine Wp.read_bind (wp_yleisAtom p e) fun _ _ => Wp.ite (fun _ => goes_evatomForm ha) fun _ => ?_
  refine follows_ylcar.held he fun x _ => Wp.read_bind (wp_yleisAtom p x) fun _ _ => ?_
  refine Wp.ite (fun _ => goes_evfuncForm he ha) fun _ => follows_ylcaar.held he fun x _ => ?_
  refine Wp.read_bind (wp_yleisAtom p x) fun _ _ => ?_
  exact Wp.ite (fun _ => goes_evlambdaForm he ha) fun _ => wp_undefined

end Form

section Native

variable {bs : List (Ref n)} {c : Etcxt n} {k : ℕ} {r v cond exp w key : Ref n}

theorem reads_pcsz (k : ℕ) (e : Ref n) (minp maxp : ℕ) : Reads (pcsz k e minp maxp) p :=
  Reads.bind (reads_ylelistSize k e) fun _ => Wp.ite (fun _ => wp_undefined) fun _ => reads_pure _

theorem reads_ylnfcheckParameter (cond : Bool) : Reads (ylnfcheckParameter cond) p :=
  Wp.ite (fun _ => wp_undefined) fun _ => reads_pure _

theorem goes_prognLoop (he : p.Held (anchors fs) e) (ha : p.Held (anchors fs) a)
    (hr : p.Valid r) : Goes fs (prognLoop e a r) p := by
  refine Wp.ite (fun _ => goes_go hr) fun _ => follows_ylcar.held he fun x hx => ?_
  exact goes_enter_eval rfl nofun (by simp [Wait.uses, he, ha]) hx ha

theorem goes_evcon (he : p.Held (anchors fs) e) (ha : p.Held (anchors fs) a) :
    Goes fs (evcon e a) p := by
  refine Wp.ite (fun _ => goes_go trivial) fun _ => follows_ylcar.held he fun x _ => ?_
  refine Wp.read_bind (wp_yleisAtom p x) fun _ _ => Wp.ite (fun _ => wp_undefined) fun _ => ?_
  refine follows_ylcaar.held he fun x hx => Wp.ite (fun _ => wp_undefined) fun _ => ?_
  exact goes_enter_eval rfl nofun (by simp [Wait.uses, he, ha]) hx ha

theorem goes_andLoop (he : p.Held (anchors fs) e) (ha : p.Held (anchors fs) a) :
    Goes fs (andLoop e a) p := by
  refine Wp.ite (fun _ => goes_go trivial) fun _ => follows_ylcar.held he fun x hx => ?_
  exact goes_enter_eval rfl nofun (by simp [Wait.uses, he, ha]) hx ha

theorem goes_orLoop (he : p.Held (anchors fs) e) (ha : p.Held (anchors fs) a) :
    Goes fs (orLoop e a) p := by
  refine Wp.ite (fun _ => goes_go trivial) fun _ => follows_ylcar.held he fun x hx => ?_
  exact goes_enter_eval rfl nofun (by simp [Wait.uses, he, ha]) hx ha

theorem goes_fLet (he : p.Held bs e) (ha : p.Held bs a) : Goes fs (fLet k e a) p := by
  refine follows_ylcar.held he fun vars hvars => Wp.read_bind (wp_yleisAtom p vars) fun _ _ => ?_
  refine Wp.ite (fun _ => wp_undefined) fun _ => Wp.of_inv fun hp => ?_
  have hvars := hvars.valid hp
  refine Wp.bind (returns_pairToList follows_ylcaar k hvars trivial) fun argl q _ hq hargl => ?_
  refine Wp.bind (returns_pairToList follows_ylcadar k (hvars.grown hq) trivial)
    fun param s _ hs hparam => ?_
  have hle := hq.trans hs
  have ha := (ha.valid hp).grown hle
  refine follows_ylcdr.bind ((he.valid hp).grown hle) fun d hd => ?_
  refine Wp.bind (returns_ylcons trivial hd) fun body t _ ht hbody => ?_
  refine Wp.ite (fun _ => goes_go ⟨hbody, ha.grown ht⟩) fun _ => ?_
  refine Wp.ite (fun _ => wp_undefined) fun _ => ?_
  refine Wp.bind (returns_ylcons hbody trivial) fun l u _ hu hl => ?_
  refine Wp.bind (returns_ylcons (((hargl.grown hs).grown ht).grown hu) hl) fun l v _ hv hl => ?_
  refine Wp.bind (returns_ylcons trivial hl) fun f w _ hw hf => ?_
  have hstw := ((ht.trans hu).trans hv).trans hw
  refine Wp.bind (returns_ylcons hf (hparam.grown hstw)) fun exp x _ hx hexp => ?_
  exact goes_go ⟨hexp, (ha.grown hstw).grown hx⟩

theorem goes_caseTest (hkey : key ∈ registered fs) (he : p.Held (anchors fs) e)
    (ha : p.Held (anchors fs) a) : Goes fs (caseTest key e a) p := by
  refine Wp.ite (fun _ => goes_go he) fun _ => follows_ylcaar.held he fun w hw => ?_
  refine Wp.read_bind (reads_symOf w) fun _ _ => Wp.ite (fun _ => goes_go he) fun _ => ?_
  refine Wp.read_bind (wp_yleisAtom p w) fun _ _ => Wp.ite (fun _ => ?_) fun _ => ?_
  · exact goes_enter_eval rfl (by simpa [Wait.own] using hkey) (by simp [Wait.uses, he, ha]) hw ha
  · refine follows_ylcar.held hw fun x hx => ?_
    exact goes_enter_eval rfl (by simpa [Wait.own] using hkey) (by simp [Wait.uses, he, hw, ha])
      hx ha

theorem goes_caseDone (he : p.Held (anchors fs) e) (ha : p.Held (anchors fs) a) :
    Goes fs (caseDone e a) p := by
  refine Wp.ite (fun _ => goes_go trivial) fun _ => follows_ylcdar.held he fun d hd => ?_
  exact goes_prognLoop hd ha trivial

theorem goes_whileLoop (he : p.Held (anchors fs) e) (hcond : p.Held (anchors fs) cond)
    (hexp : p.Held (anchors fs) exp) (ha : p.Held (anchors fs) a) :
    Goes fs (whileLoop e cond exp a) p := by
  refine Wp.ite (fun _ => ?_) fun _ => follows_ylcar.held hexp fun x hx => ?_
  · exact goes_enter_eval rfl nofun (by simp [Wait.uses, he, hcond, ha]) hcond ha
  · exact goes_enter_eval rfl nofun (by simp [Wait.uses, he, hcond, hexp, ha]) hx ha

theorem reads_checkMap (k : ℕ) (w : Ref n) : Reads (checkMap k w) p := by
  induction k generalizing w with
  | zero => exact wp_stuck
  | succ k ih =>
      refine Wp.ite (fun _ => reads_pure _) fun _ => Reads.bind (follows_ylcar p w) fun x => ?_
      refine Reads.bind (wp_yleisAtom p x) fun _ => Wp.ite (fun _ => reads_pure _) fun _ => ?_
      refine Reads.bind (follows_ylcaar p w) fun x => Reads.bind (reads_symOf x) fun s => ?_
      cases s with
      | none => exact reads_pure _
      | some s => exact Reads.bind (follows_ylpcdr p w) fun _ => ih _

theorem goes_newMap {d : Amap n} (hd : d.values = []) (hw : w ≠ ylnil → p.Held (anchors fs) w)
    (ha : p.Held (anchors fs) a) : Goes fs (newMap k d w a) p := by
  refine Wp.read_bind (wp_yleisAtom p w) fun _ _ => Wp.ite (fun _ => wp_undefined) fun _ => ?_
  refine Wp.read_bind (reads_checkMap k w) fun _ _ => Wp.ite (fun _ => ?_) fun _ => wp_undefined
  have hrefs : ∀ r ∈ (Obj.map d).refs, p.Valid r := by
    intro r hr
    rw [Obj.refs, hd] at hr
    cases hr
  refine Wp.of_inv fun hp => ?_
  refine Wp.bind (returns_create (fun _ => trivial) hrefs (by simp)) fun r q _ hle hr => ?_
  have hbb : ∀ s ∈ (Wait.mapNew r).bb, q.Valid s := by simpa [Wait.bb] using hr
  refine goes_enter (.of_bb rfl hbb (by simp [Wait.uses])) ⟨?_, fun h => ?_, ?_⟩
  · exact List.mem_cons_self
  · exact held_cons ((hw h).grown hp hle)
  · exact held_cons (ha.grown hp hle)

theorem goes_makeMap {d : Amap n} (hd : d.values = []) (he : p.Held (anchors fs) e)
    (ha : p.Held (anchors fs) a) : Goes fs (makeMap k d e a) p := by
  refine Wp.read_bind (reads_pcsz k e 0 1) fun _ _ => Wp.ite (fun _ => ?_) fun _ => ?_
  · exact follows_ylcar.held he fun w hw => goes_newMap hd (fun _ => hw) ha
  · exact goes_newMap hd (fun h => (h rfl).elim) ha

theorem goes_mapTest (hr : r ∈ registered fs) (hvalid : p.Valid r)
    (hw : w ≠ ylnil → p.Held (anchors fs) w) (ha : p.Held (anchors fs) a) :
    Goes fs (mapTest r w a) p := by
  refine Wp.ite (fun _ => goes_go hvalid) fun hne => ?_
  have hw := hw hne
  refine follows_ylcadar.held hw fun x hx => ?_
  exact goes_enter_eval rfl (by simpa [Wait.own] using hr) (by simp [Wait.uses, hw, ha]) hx ha

theorem values_amapInsert {d d' : Amap n} {key : List UInt8} (hd : amapInsert c key v d = some d')
    (h : r ∈ d'.values) : r = v ∨ r ∈ d.values := by
  cases d with
  | trie t =>
      cases hd
      exact Trie.mem_values_yltrieInsert h
  | hash t =>
      obtain ⟨q, hq, rfl⟩ := Option.map_eq_some_iff.1 hd
      exact (Hash.mem_values_hashAdd hq h).symm

theorem wp_mapInsert (hr : p.Valid r) (hv : p.Valid v) (key : List UInt8) :
    Wp (growth n) (mapInsert c r key v) p fun _ _ => True := by
  intro hp
  unfold mapInsert
  split
  next => exact ⟨hp, Pool.Grown.refl p⟩
  next b =>
    split
    next d ho =>
      have hrefs := hp.refs b hr
      rw [ho] at hrefs
      split
      next d' hd =>
        have hself := Pool.obj_setBlk_self p b { p.blk b with obj := .map d' }
        refine ⟨hp.good_setBlk hr (fun x hx _ => hp.full x hx) ?_ (fun _ => trivial) ?_ nofun,
          ⟨fun _ h => h, fun x _ hf => ?_, fun x _ => ?_⟩, trivial⟩
        · rw [ho]
          exact nofun
        · intro r hr
          rcases values_amapInsert hd hr with rfl | hr
          · exact hv
          · exact hrefs r hr
        · by_cases hx : x = b
          · rw [hx, ho] at hf
            cases hf
          · exact Pool.obj_setBlk_of_ne p _ hx
        · by_cases hx : x = b
          · rw [hx, ho]
            exact (congrArg Obj.isAtom hself).trans rfl
          · exact congrArg Obj.isAtom (Pool.obj_setBlk_of_ne p _ hx)
      next => exact ⟨hp, Pool.Grown.refl p⟩
    next => exact ⟨hp, Pool.Grown.refl p⟩

theorem goes_interpret : Goes fs (interpret k e) p := by
  refine Wp.read_bind (reads_pcsz k e 1 1) fun _ _ => ?_
  refine Wp.read_bind (reads_ylaisSymChain k e) fun _ _ => ?_
  refine Wp.read_bind (reads_ylnfcheckParameter _) fun _ _ => ?_
  refine Wp.read_bind (follows_ylcar p e) fun x _ => Wp.read_bind (reads_symOf x) fun s _ => ?_
  cases s with
  | none => exact wp_stuck
  | some code => exact Wp.ite (fun _ => goes_go trivial) fun _ => goes_go nofun

theorem goes_files (he : p.Held (anchors fs) e) : Goes fs (files e) p :=
  Wp.ite (fun _ => goes_go trivial) fun _ => goes_go (by simpa [CtlOk, Caller.uses] using he)

def Fn.assigns : Fn → Bool
  | .set | .tset | .fMset | .fTmset | .setcar | .setcdr => true
  | _ => false

/-- The native functions that do not assign to a pair. -/
theorem goes_callFn {f : Fn} (hf : Fn.assigns f = false) (he : p.Held (anchors fs) e)
    (ha : p.Held (anchors fs) a) : Goes fs (callFn c k f e a) p := by
  cases f with
  | set | tset | fMset | fTmset | setcar | setcdr => cases hf
  | dummy => exact Wp.read_bind (reads_pcsz k e 0 0) fun _ _ => wp_undefined
  | quote =>
      refine Wp.read_bind (reads_pcsz k e 1 1) fun _ _ => ?_
      exact follows_ylcar.held he fun x hx => goes_ret hx
  | apply =>
      refine Wp.read_bind (reads_pcsz k e 1 9999) fun _ _ => Wp.of_inv fun hp => ?_
      refine follows_ylcar.bind (he.valid hp) fun f hf => ?_
      refine follows_ylcdr.bind (he.valid hp) fun d hd => ?_
      refine Wp.bind (returns_appq k hd) fun args q _ hle hargs => ?_
      refine Wp.bind (returns_ylcons (hf.grown hle) hargs) fun e' s _ hle' he' => ?_
      exact goes_go ⟨he', ((ha.valid hp).grown hle).grown hle'⟩
  | eval =>
      refine Wp.read_bind (reads_pcsz k e 1 1) fun _ _ => ?_
      exact follows_ylcar.held he fun x hx => goes_eval hx ha
  | interpret => exact goes_interpret
  | interpretFile =>
      refine Wp.read_bind (reads_pcsz k e 1 9999) fun _ _ => ?_
      refine Wp.read_bind (reads_ylaisSymChain k e) fun _ _ => ?_
      exact Wp.read_bind (reads_ylnfcheckParameter _) fun _ _ => goes_go he
  | progn =>
      exact Wp.read_bind (reads_pcsz k e 1 9999) fun _ _ => goes_prognLoop he ha trivial
  | fCond => exact Wp.read_bind (reads_pcsz k e 1 9999) fun _ _ => goes_evcon he ha
  | fAnd => exact Wp.read_bind (reads_pcsz k e 1 9999) fun _ _ => goes_andLoop he ha
  | fOr => exact Wp.read_bind (reads_pcsz k e 1 9999) fun _ _ => goes_orLoop he ha
  | fLet => exact Wp.read_bind (reads_pcsz k e 2 9999) fun _ _ => goes_fLet he ha
  | fCase =>
      refine Wp.read_bind (reads_pcsz k e 2 9999) fun _ _ => ?_
      refine follows_ylcdr.held he fun d _ => Wp.read_bind (reads_yleisPairChain k d) fun _ _ => ?_
      refine Wp.read_bind (reads_ylnfcheckParameter _) fun _ _ => ?_
      refine follows_ylcar.held he fun x hx => ?_
      exact goes_enter_eval rfl nofun (by simp [Wait.uses, he, ha]) hx ha
  | fWhile =>
      refine Wp.read_bind (reads_pcsz k e 2 9999) fun _ _ => ?_
      refine follows_ylcar.held he fun x hx => ?_
      exact goes_enter_eval rfl nofun (by simp [Wait.uses, he, hx, ha]) hx ha
  | stop => exact Wp.read_bind (reads_pcsz k e 0 0) fun _ _ => wp_undefined
  | makeTrieMap => exact goes_makeMap Trie.values_yltrieCreate he ha
  | makeHashMap => exact goes_makeMap Hash.values_hashCreate he ha
  | other j => exact wp_stuck

end Native

section Resume

variable {c : Etcxt n} {k : ℕ} {v : Ref n} {w : Wait n}

def resumed (fs : List (Frame n)) (w : Wait n) (v : Ref n) : List (Frame n) :=
  (w.next v).map .wait ++ fs

theorem framesOk_resumed (hfs : FramesOk p (.wait w :: fs)) (hv : p.Valid v) :
    FramesOk p (resumed fs w v) := by
  have huses := hfs.head.uses
  cases w with
  | evfuncArgs r a => exact hfs.tail.cons (.of_bb rfl (by simpa [Wait.bb] using hv) nofun)
  | evlisArg m a => exact hfs.tail.cons (.of_bb rfl (by simpa [Wait.bb] using hv) nofun)
  | caseKey e a =>
      refine hfs.tail.cons (.of_bb rfl (by simpa [Wait.bb] using hv) ?_)
      simpa [Wait.uses] using huses a (by simp [Frame.uses, Wait.uses])
  | _ => exact hfs.tail

/-- A function that has registered nothing itself relies on the functions below. -/
theorem registered_below {w : Wait n} (hbb : w.bb = [])
    (hown : ∀ r ∈ w.own, r ∈ registered (.wait w :: fs)) : ∀ r ∈ w.own, r ∈ registered fs := by
  rwa [registered, List.flatMap_cons, Frame.bb, hbb, List.nil_append] at hown

/-- A function is given the value that it waits for. -/
theorem goes_resume (hfs : FramesOk p (.wait w :: fs)) (hv : p.Valid v) :
    Goes (resumed fs w v) (w.resume c k v) p := by
  have huses : ∀ r ∈ w.uses, p.Held (anchors fs) r := hfs.head.uses
  have hvalid : ∀ r ∈ registered (.wait w :: fs), p.Valid r := hfs.valid
  have hown : ∀ r ∈ w.own, r ∈ registered (.wait w :: fs) := hfs.head.own
  cases w with
  | evfuncArgs r a =>
      have ha : p.Held (anchors fs) a := by simpa [Wait.uses] using huses
      refine Wp.read_bind (Wp.ok (Q := fun s _ => s = p) rfl rfl) ?_
      rintro _ rfl
      split
      next f _ => exact goes_go ⟨Pool.Held.of_mem List.mem_cons_self hv, held_cons ha⟩
      next => exact wp_stuck
  | evfuncCall param => exact goes_go hv
  | evlisArg m a =>
      obtain ⟨hm, ha⟩ : p.Held (anchors fs) m ∧ p.Held (anchors fs) a := by
        simpa [Wait.uses] using huses
      exact follows_ylcdr.held hm fun d hd => goes_go ⟨held_cons hd, held_cons ha⟩
  | evlisRest x =>
      have hx : p.Valid x := hvalid x List.mem_cons_self
      exact Wp.bind (returns_ylcons hx hv) fun r q _ _ hr => goes_go hr
  | lambdaArgs body params a =>
      obtain ⟨hbody, hparams, ha⟩ : p.Held (anchors fs) body ∧ p.Held (anchors fs) params ∧
          p.Held (anchors fs) a := by simpa [Wait.uses] using huses
      refine Wp.of_inv fun hp => ?_
      refine Wp.bind (returns_ylpair k (hparams.valid hp) hv) fun l q _ hle hl => ?_
      refine Wp.bind (returns_ylappend k hl ((ha.valid hp).grown hle)) fun a' s _ hle' ha' => ?_
      exact goes_go ⟨((hbody.valid hp).grown hle).grown hle', ha'⟩
  | flabelArgs fln fl fla fle =>
      obtain ⟨hfln, hfl, hfla, hfle⟩ : p.Held (anchors fs) fln ∧ p.Held (anchors fs) fl ∧
          p.Held (anchors fs) fla ∧ p.Held (anchors fs) fle := by simpa [Wait.uses] using huses
      refine Wp.of_inv fun hp => ?_
      refine Wp.bind (returns_ylpair k (hfla.valid hp) hv) fun l q _ hle hl => ?_
      refine Wp.bind (returns_yllist ((hfln.valid hp).grown hle) ((hfl.valid hp).grown hle))
        fun l' s _ hle' hl' => ?_
      refine Wp.bind (returns_ylcons hl' (hl.grown hle')) fun a' t _ hle'' ha' => ?_
      exact goes_go ⟨(((hfle.valid hp).grown hle).grown hle').grown hle'', ha'⟩
  | ext d a =>
      obtain ⟨hd, ha⟩ : p.Held (anchors fs) d ∧ p.Held (anchors fs) a := by
        simpa [Wait.uses] using huses
      refine Wp.of_inv fun hp => Wp.bind (returns_ylcons hv (hd.valid hp)) fun r q _ hle hr => ?_
      exact goes_go ⟨hr, (ha.valid hp).grown hle⟩
  | progn e a =>
      obtain ⟨he, ha⟩ : p.Held (anchors fs) e ∧ p.Held (anchors fs) a := by
        simpa [Wait.uses] using huses
      exact follows_ylpcdr.held he fun d hd => goes_prognLoop hd ha hv
  | evcon cl a =>
      obtain ⟨hcl, ha⟩ : p.Held (anchors fs) cl ∧ p.Held (anchors fs) a := by
        simpa [Wait.uses] using huses
      refine Wp.ite (fun _ => ?_) fun _ => ?_
      · exact follows_ylcadar.held hcl fun x hx => goes_eval hx ha
      · exact follows_ylcdr.held hcl fun d hd => goes_evcon hd ha
  | fAnd e a =>
      obtain ⟨he, ha⟩ : p.Held (anchors fs) e ∧ p.Held (anchors fs) a := by
        simpa [Wait.uses] using huses
      exact Wp.ite (fun _ => goes_go trivial) fun _ =>
        follows_ylcdr.held he fun d hd => goes_andLoop hd ha
  | fOr e a =>
      obtain ⟨he, ha⟩ : p.Held (anchors fs) e ∧ p.Held (anchors fs) a := by
        simpa [Wait.uses] using huses
      exact Wp.ite (fun _ => goes_go trivial) fun _ =>
        follows_ylcdr.held he fun d hd => goes_orLoop hd ha
  | caseKey e a =>
      obtain ⟨he, ha⟩ : p.Held (anchors fs) e ∧ p.Held (anchors fs) a := by
        simpa [Wait.uses] using huses
      exact follows_ylcdr.held he fun d hd => goes_go ⟨List.mem_cons_self, hd, ha⟩
  | caseKeyed key a => exact wp_stuck
  | caseAtom key e a =>
      have hkey := registered_below rfl hown key List.mem_cons_self
      obtain ⟨he, ha⟩ : p.Held (anchors fs) e ∧ p.Held (anchors fs) a := by
        simpa [Wait.uses] using huses
      refine Wp.read_bind (reads_yleq c k key v) fun _ _ => Wp.ite (fun _ => goes_go he) fun _ => ?_
      exact follows_ylpcdr.held he fun d hd => goes_go ⟨hkey, hd, ha⟩
  | caseList key e w a =>
      have hkey := registered_below rfl hown key List.mem_cons_self
      obtain ⟨he, hw, ha⟩ : p.Held (anchors fs) e ∧ p.Held (anchors fs) w ∧
          p.Held (anchors fs) a := by simpa [Wait.uses] using huses
      refine Wp.read_bind (reads_yleq c k key v) fun _ _ => Wp.ite (fun _ => goes_go he) fun _ => ?_
      refine follows_ylpcdr.held hw fun w hw => Wp.ite (fun _ => ?_) fun _ => ?_
      · exact follows_ylpcdr.held he fun d hd => goes_go ⟨hkey, hd, ha⟩
      · refine follows_ylcar.held hw fun x hx => ?_
        show Goes fs _ p
        exact goes_enter_eval rfl (by simpa [Wait.own] using hkey)
          (by simp [Wait.uses, he, hw, ha]) hx ha
  | whileCond e cond a =>
      obtain ⟨he, hcond, ha⟩ : p.Held (anchors fs) e ∧ p.Held (anchors fs) cond ∧
          p.Held (anchors fs) a := by simpa [Wait.uses] using huses
      refine Wp.ite (fun _ => ?_) fun _ => goes_go trivial
      exact follows_ylcdr.held he fun d hd => goes_whileLoop he hcond hd ha
  | whileBody e cond exp a =>
      obtain ⟨he, hcond, hexp, ha⟩ : p.Held (anchors fs) e ∧ p.Held (anchors fs) cond ∧
          p.Held (anchors fs) exp ∧ p.Held (anchors fs) a := by simpa [Wait.uses] using huses
      exact follows_ylpcdr.held hexp fun d hd => goes_whileLoop he hcond hd ha
  | mapNew r => exact goes_go (hvalid r List.mem_cons_self)
  | mapInit r w a =>
      have hr := registered_below rfl hown r List.mem_cons_self
      obtain ⟨hw, ha⟩ : p.Held (anchors fs) w ∧ p.Held (anchors fs) a := by
        simpa [Wait.uses] using huses
      refine follows_ylcaar.held hw fun x _ => Wp.read_bind (reads_symOf x) fun s _ => ?_
      cases s with
      | none => exact wp_stuck
      | some key =>
          have hr' : p.Valid r := hvalid r (List.mem_append_right _ hr)
          refine Wp.of_inv fun hp => Wp.bind (wp_mapInsert hr' hv key) fun _ q _ hle _ => ?_
          refine follows_ylpcdr.held (hw.grown hp hle) fun d hd => ?_
          exact goes_go ⟨hr, fun _ => hd, ha.grown hp hle⟩

end Resume

end Eval

end Ylisp
