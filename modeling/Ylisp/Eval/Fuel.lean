import Ylisp.Eval.Machine
import Ylisp.Library.Approx

/-!
# The bound on recursion does not matter

The functions of the evaluator take a number `k` that bounds the nesting of their calls. With a
larger one they do the same, unless they are stuck with the smaller one; so the step that the
evaluator takes from a state is unique, however large the bound is (`State.next_unique`).
-/

namespace Ylisp

namespace Eval

open Mempool Effect

variable {n : ℕ} {α β : Type}

abbrev Steady (x : ℕ → Hp n α) : Prop := Bounded Fault.stuck x

theorem approx_stuck {y : Hp n α} : Approx Fault.stuck stuck y := .of_bad fun p => ⟨p, rfl⟩

theorem steady_const (x : Hp n α) : Steady fun _ => x := Bounded.const x

theorem steady_yleq (c : Etcxt n) (e1 e2 : Ref n) : Steady fun k => yleq c k e1 e2 := by
  intro k
  induction k generalizing e1 e2 with
  | zero => exact fun _ _ => approx_stuck
  | succ k ih =>
      intro k' hk
      obtain ⟨k', rfl, hle⟩ := exists_succ_of_succ_le hk
      refine .ite (fun _ => .refl _) fun _ => .bind (.refl _) fun _ => .bind (.refl _) fun _ => ?_
      refine .ite (fun _ => .refl _) fun _ => .ite (fun _ => ?_) fun _ => .refl _
      refine .bind (.refl _) fun _ => .bind (.refl _) fun _ => .bind (ih _ _ _ hle) fun _ => ?_
      refine .ite (fun _ => .refl _) fun _ => .bind (.refl _) fun _ => .bind (.refl _) fun _ => ?_
      exact .bind (ih _ _ _ hle) fun _ => .refl _

theorem steady_cdrs (e : Ref n) : Steady fun k => cdrs k e := by
  intro k
  induction k generalizing e with
  | zero => exact fun _ _ => approx_stuck
  | succ k ih =>
      intro k' hk
      obtain ⟨k', rfl, hle⟩ := exists_succ_of_succ_le hk
      refine .bind (.refl _) fun _ => .ite (fun _ => .refl _) fun _ => .bind (.refl _) fun _ => ?_
      exact .bind (ih _ _ hle) fun _ => .refl _

theorem steady_ylelistSize (e : Ref n) : Steady fun k => ylelistSize k e :=
  (steady_const _).ite ((steady_const _).bind fun _ => (steady_const _).ite (steady_cdrs e))

theorem steady_yleisPairChain (e : Ref n) : Steady fun k => yleisPairChain k e := by
  intro k
  induction k generalizing e with
  | zero => exact fun _ _ => approx_stuck
  | succ k ih =>
      intro k' hk
      obtain ⟨k', rfl, hle⟩ := exists_succ_of_succ_le hk
      refine .ite (fun _ => .refl _) fun _ => .bind (.refl _) fun _ => .bind (.refl _) fun _ => ?_
      exact .ite (fun _ => .refl _) fun _ => .bind (.refl _) fun _ => ih _ _ hle

theorem steady_ylaisSymChain (e : Ref n) : Steady fun k => ylaisSymChain k e := by
  intro k
  induction k generalizing e with
  | zero => exact fun _ _ => approx_stuck
  | succ k ih =>
      intro k' hk
      obtain ⟨k', rfl, hle⟩ := exists_succ_of_succ_le hk
      refine .ite (fun _ => .refl _) fun _ => .bind (.refl _) fun _ => .bind (.refl _) fun s => ?_
      cases s with
      | none => exact .refl _
      | some s => exact .bind (.refl _) fun _ => ih _ _ hle

theorem steady_ylappend (x y : Ref n) : Steady fun k => ylappend k x y := by
  intro k
  induction k generalizing x with
  | zero => exact fun _ _ => approx_stuck
  | succ k ih =>
      intro k' hk
      obtain ⟨k', rfl, hle⟩ := exists_succ_of_succ_le hk
      refine .ite (fun _ => .refl _) fun _ => .bind (.refl _) fun _ => .bind (.refl _) fun _ => ?_
      exact .bind (ih _ _ hle) fun _ => .refl _

theorem steady_ylpair (x y : Ref n) : Steady fun k => ylpair k x y := by
  intro k
  induction k generalizing x y with
  | zero => exact fun _ _ => approx_stuck
  | succ k ih =>
      intro k' hk
      obtain ⟨k', rfl, hle⟩ := exists_succ_of_succ_le hk
      refine .ite (fun _ => .refl _) fun _ => .bind (.refl _) fun _ => .bind (.refl _) fun _ => ?_
      refine .ite (fun _ => ?_) fun _ => .refl _
      refine .bind (.refl _) fun _ => .bind (.refl _) fun _ => .bind (.refl _) fun _ => ?_
      refine .bind (.refl _) fun _ => .bind (.refl _) fun _ => ?_
      exact .bind (ih _ _ _ hle) fun _ => .refl _

theorem steady_appq (m : Ref n) : Steady fun k => appq k m := by
  intro k
  induction k generalizing m with
  | zero => exact fun _ _ => approx_stuck
  | succ k ih =>
      intro k' hk
      obtain ⟨k', rfl, hle⟩ := exists_succ_of_succ_le hk
      refine .ite (fun _ => .refl _) fun _ => .bind (.refl _) fun _ => .bind (.refl _) fun _ => ?_
      exact .bind (.refl _) fun _ => .bind (ih _ _ hle) fun _ => .refl _

theorem steady_pairToList (f : Ref n → Hp n (Ref n)) (e l : Ref n) :
    Steady fun k => pairToList f k e l := by
  intro k
  induction k generalizing e l with
  | zero => exact fun _ _ => approx_stuck
  | succ k ih =>
      intro k' hk
      obtain ⟨k', rfl, hle⟩ := exists_succ_of_succ_le hk
      refine .ite (fun _ => .refl _) fun _ => .bind (.refl _) fun _ => .bind (.refl _) fun _ => ?_
      exact .bind (.refl _) fun _ => ih _ _ _ hle

theorem steady_listClone (e : Ref n) : Steady fun k => listClone k e := by
  intro k
  induction k generalizing e with
  | zero => exact fun _ _ => approx_stuck
  | succ k ih =>
      intro k' hk
      obtain ⟨k', rfl, hle⟩ := exists_succ_of_succ_le hk
      refine .bind (.refl _) fun _ => .ite (fun _ => .refl _) fun _ => .bind (.refl _) fun _ => ?_
      refine .bind (ih _ _ hle) fun _ => .bind (.refl _) fun _ => ?_
      exact .bind (ih _ _ hle) fun _ => .refl _

theorem steady_lastPair (e : Ref n) : Steady fun k => lastPair k e := by
  intro k
  induction k generalizing e with
  | zero => exact fun _ _ => approx_stuck
  | succ k ih =>
      intro k' hk
      obtain ⟨k', rfl, hle⟩ := exists_succ_of_succ_le hk
      exact .bind (.refl _) fun _ => .ite (fun _ => .refl _) fun _ => ih _ _ hle

theorem steady_listFind (c : Etcxt n) (x y : Ref n) : Steady fun k => listFind c k x y := by
  intro k
  induction k generalizing y with
  | zero => exact fun _ _ => approx_stuck
  | succ k ih =>
      intro k' hk
      obtain ⟨k', rfl, hle⟩ := exists_succ_of_succ_le hk
      refine .bind (.refl _) fun _ => .ite (fun _ => .refl _) fun _ => .bind (.refl _) fun _ => ?_
      refine .bind (.refl _) fun _ => .ite (fun _ => .refl _) fun _ => .bind (.refl _) fun _ => ?_
      refine .bind (steady_yleq c _ _ k k' hle) fun _ => .ite (fun _ => .refl _) fun _ => ?_
      exact .bind (.refl _) fun _ => ih _ _ hle

theorem approx_mreplaceSide (c : Etcxt n) {k k' : ℕ} {f g : Ref n → Hp n Bool} (hk : k ≤ k')
    (h : ∀ x, Approx Fault.stuck (f x) (g x)) (side : Side) (e a : Ref n) :
    Approx Fault.stuck (mreplaceSide c k f side e a) (mreplaceSide c k' g side e a) := by
  refine .bind (.refl _) fun x => .bind (.refl _) fun _ => .ite (fun _ => ?_) fun _ => h x
  refine .bind (steady_listFind c x a k k' hk) fun o => ?_
  cases o with
  | none => exact .refl _
  | some r => exact .refl _

theorem steady_mreplace (c : Etcxt n) (e a : Ref n) : Steady fun k => mreplace c k e a := by
  intro k
  induction k generalizing e with
  | zero => exact fun _ _ => approx_stuck
  | succ k ih =>
      intro k' hk
      obtain ⟨k', rfl, hle⟩ := exists_succ_of_succ_le hk
      have hside := approx_mreplaceSide c hle (fun x => ih x k' hle)
      refine .bind (.refl _) fun _ => .ite (fun _ => .refl _) fun _ => ?_
      exact .bind (hside _ _ _) fun _ => .ite (fun _ => hside _ _ _) fun _ => .refl _

theorem steady_associated (ty : ℕ) (r : Ref n) : Steady fun k => associated k ty r :=
  ((steady_listClone r).bind fun r => steady_const (pure (ty, r))).ite (steady_const _)

theorem steady_assoc (c : Etcxt n) (erange : Bool) (x y : Ref n) :
    Steady fun k => assoc c erange k x y := by
  refine (steady_const _).bind fun o => ?_
  cases o with
  | none => exact steady_const _
  | some sym =>
      refine (steady_listFind c x y).bind fun r => ?_
      cases r with
      | some r =>
          exact (steady_const _).bind fun _ => (steady_const _).bind fun ty =>
            (steady_const _).bind fun r => steady_associated ty r
      | none =>
          refine (steady_const _).bind fun p => ?_
          cases hget : ylsluGet (c.table p) sym <|> ylsluGet p.gsym sym with
          | some v =>
              exact fun k k' hk => by
                simpa only [hget] using steady_associated v.1 v.2 k k' hk
          | none => exact fun _ _ _ => by simpa only [hget] using Approx.refl _

theorem steady_setFind (c : Etcxt n) (s a : Ref n) : Steady fun k => setFind c k s a := by
  refine (steady_const _).bind fun o => ?_
  cases o with
  | none => exact steady_const _
  | some sym =>
      refine (steady_const _).ite ((steady_listFind c s a).bind fun r => ?_)
      cases r with
      | none => exact steady_const _
      | some r => exact steady_const _

theorem steady_set (c : Etcxt n) (s val a : Ref n) (desc : Option (List UInt8)) (ty : ℕ)
    (bgsym : Bool) : Steady fun k => set c k s val a desc ty bgsym := by
  refine (steady_setFind c s a).bind fun r => ?_
  obtain ⟨sym, r⟩ := r
  cases r with
  | none => exact steady_const _
  | some r => exact steady_const _

/-! ### Forms -/

section Form

variable (c : Etcxt n) (erange : Bool) (e a : Ref n)

theorem steady_evatomForm : Steady fun k => evatomForm c erange k e a := by
  refine (steady_const _).bind fun o => ?_
  cases o with
  | none => exact steady_const _
  | some sym => exact (steady_assoc c erange e a).bind fun _ => steady_const _

theorem steady_evfuncForm : Steady fun k => evfuncForm c erange k e a := by
  refine (steady_const _).bind fun x => (steady_const _).bind fun o => ?_
  cases o with
  | none => exact steady_const _
  | some sym =>
      exact (steady_const _).bind fun x => (steady_assoc c erange x a).bind fun _ =>
        steady_const _

theorem steady_evlfMlambda : Steady fun k => evlfMlambda c k e a := by
  refine (steady_const _).bind fun params => (steady_const _).bind fun body => .ite ?_ ?_
  · refine (steady_listClone body).bind fun exp => (steady_lastPair exp).bind fun _ => ?_
    exact steady_const _
  · refine (steady_listClone body).bind fun exp => (steady_const _).bind fun args => ?_
    refine (steady_ylpair params args).bind fun l => (steady_ylappend l ylnil).bind fun l => ?_
    exact (steady_mreplace c exp l).bind fun _ => steady_const _

theorem steady_evlambdaForm : Steady fun k => evlambdaForm c k e a := by
  refine (steady_const _).bind fun x => (steady_const _).bind fun o => ?_
  cases o with
  | none => exact steady_const _
  | some sym => exact (steady_const _).ite ((steady_evlfMlambda c e a).ite (steady_const _))

theorem steady_evalForm : Steady fun k => evalForm c erange k e a := by
  refine (steady_const _).bind fun _ => (steady_evatomForm c erange e a).ite ?_
  refine (steady_const _).bind fun _ => (steady_const _).bind fun _ => ?_
  refine (steady_evfuncForm c erange e a).ite ((steady_const _).bind fun _ => ?_)
  exact (steady_const _).bind fun _ => (steady_evlambdaForm c e a).ite (steady_const _)

end Form

/-! ### Native functions -/

section Native

variable (c : Etcxt n) (e a : Ref n)

theorem steady_pcsz (minp maxp : ℕ) : Steady fun k => pcsz k e minp maxp :=
  (steady_ylelistSize e).bind fun _ => steady_const _

theorem steady_native {minp maxp : ℕ} {f : ℕ → Hp n (Go n)} (hf : Steady f) :
    Steady fun k => pcsz k e minp maxp >>= fun _ => f k :=
  (steady_pcsz e minp maxp).bind fun _ => hf

theorem steady_fLet : Steady fun k => fLet k e a := by
  refine (steady_const _).bind fun vars => (steady_const _).bind fun _ => (steady_const _).ite ?_
  refine (steady_pairToList ylcaar vars ylnil).bind fun _ => ?_
  exact (steady_pairToList ylcadar vars ylnil).bind fun _ => steady_const _

theorem steady_checkMap (w : Ref n) : Steady fun k => checkMap k w := by
  intro k
  induction k generalizing w with
  | zero => exact fun _ _ => approx_stuck
  | succ k ih =>
      intro k' hk
      obtain ⟨k', rfl, hle⟩ := exists_succ_of_succ_le hk
      refine .ite (fun _ => .refl _) fun _ => .bind (.refl _) fun _ => .bind (.refl _) fun _ => ?_
      refine .ite (fun _ => .refl _) fun _ => .bind (.refl _) fun _ => .bind (.refl _) fun s => ?_
      cases s with
      | none => exact .refl _
      | some s => exact .bind (.refl _) fun _ => ih _ _ hle

theorem steady_newMap (d : Amap n) (w : Ref n) : Steady fun k => newMap k d w a :=
  (steady_const _).bind fun _ => (steady_const _).ite
    ((steady_checkMap w).bind fun _ => steady_const _)

theorem steady_makeMap (d : Amap n) : Steady fun k => makeMap k d e a := by
  refine (steady_pcsz e 0 1).bind fun sz => .ite ?_ (steady_newMap a d ylnil)
  exact (steady_const _).bind fun w => steady_newMap a d w

theorem steady_setPair (side : Side) : Steady fun k => setPair k side e :=
  Bounded.bind ((steady_pcsz e 2 2).bind fun _ => steady_const _) fun _ => steady_const _

theorem steady_setArgs : Steady fun k => setArgs k e :=
  (steady_pcsz e 2 3).bind fun _ => steady_const _

theorem steady_setSym (ty : ℕ) (bgsym : Bool) : Steady fun k => setSym c k ty bgsym e a :=
  (steady_setArgs e).bind fun x => (steady_set c x.1 x.2.1 a x.2.2 ty bgsym).bind fun _ =>
    steady_const _

theorem steady_interpret : Steady fun k => interpret k e :=
  steady_native e ((steady_ylaisSymChain e).bind fun _ => steady_const _)

theorem steady_callFn (f : Fn) : Steady fun k => callFn c k f e a := by
  cases f with
  | apply =>
      refine steady_native e ((steady_const _).bind fun f => (steady_const _).bind fun m => ?_)
      exact (steady_appq m).bind fun _ => steady_const _
  | set => exact steady_setSym c e a symDef true
  | tset => exact steady_setSym c e a symDef false
  | fMset => exact steady_setSym c e a symMac true
  | fTmset => exact steady_setSym c e a symMac false
  | interpret => exact steady_interpret e
  | interpretFile =>
      exact steady_native e ((steady_ylaisSymChain e).bind fun _ => steady_const _)
  | fLet => exact steady_native e (steady_fLet e a)
  | fCase =>
      refine steady_native e ((steady_const _).bind fun d => ?_)
      exact (steady_yleisPairChain d).bind fun _ => steady_const _
  | setcar => exact steady_setPair e .car
  | setcdr => exact steady_setPair e .cdr
  | makeTrieMap => exact steady_makeMap e a _
  | makeHashMap => exact steady_makeMap e a _
  | other => exact steady_const _
  | _ => exact steady_native e (steady_const _)

theorem steady_resume (v : Ref n) (w : Wait n) : Steady fun k => w.resume c k v := by
  cases w with
  | lambdaArgs body params a =>
      refine (steady_ylpair params v).bind fun l => (steady_ylappend l a).bind fun _ => ?_
      exact steady_const _
  | flabelArgs fln fl fla fle => exact (steady_ylpair fla v).bind fun _ => steady_const _
  | caseAtom key e a => exact (steady_yleq c key v).bind fun _ => steady_const _
  | caseList key e w a => exact (steady_yleq c key v).bind fun _ => steady_const _
  | _ => exact steady_const _

end Native

/-! ### Steps -/

namespace State

variable {c : Etcxt n} {k k' : ℕ} {erange : Bool} {s s' t t' : State n}

theorem run_approx {x y : Hp n (Go n)} (h : Approx Fault.stuck x y) (hx : s.run x = some t) :
    s.run y = some t := by
  rcases h s.pool with ⟨q, hbad⟩ | hs
  · rw [State.run, hbad] at hx
    cases hx
  · rw [State.run, hs]
    exact hx

/-- With more room for recursion, the step is the same. -/
theorem next_mono (h : s.next c k erange = some t) (hk : k ≤ k') :
    s.next c k' erange = some t := by
  unfold State.next at h ⊢
  split at h
  next e a hctl => exact run_approx (steady_evalForm c erange e a k k' hk) h
  next m a hctl => exact h
  next f e a hctl => exact run_approx (steady_callFn c e a f k k' hk) h
  next key e a hctl => exact h
  next e hctl => exact h
  next r w a hctl => exact h
  next e hctl => exact h
  next caller hctl => exact h
  next v hctl =>
    unfold State.ret at h ⊢
    split at h
    next e a stk fs hfs => exact h
    next caller bbs fs hfs => exact h
    next w fs hfs => exact run_approx (steady_resume c v w k k' hk) h
    next => cases h
  next hctl => exact h
  next r hctl => exact h
  next => cases h
  next => cases h

theorem next_unique (h : s.next c k erange = some t) (h' : s.next c k' erange = some t') :
    t = t' := by
  have h₁ := next_mono h (Nat.le_max_left k k')
  rw [next_mono h' (Nat.le_max_right k k')] at h₁
  exact (Option.some.inj h₁).symm

end State

end Eval

end Ylisp
