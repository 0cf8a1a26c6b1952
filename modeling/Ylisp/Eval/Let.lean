import Ylisp.Eval.Build
import Ylisp.Eval.Number

/-!
# The order of a let

`let` is documented as `let*`: each initial value is evaluated where the variables before it
are bound. `f_let` hands the variables and the initial values over to a lambda expression, as
two lists that `_pair_to_1st_element_list` and `_pair_to_2nd_element_list` build from the front
of the accumulator.

A call of `f_let` is looked at as a dialogue. It asks for evaluations, which may return any
value and leave any pool in which the pairs that it still holds are as they were. `Sequential`
says what `let*` asks for, and in which environments; `sequential_iff` says for which bindings
`f_let` does so.
-/

namespace Ylisp

namespace Eval

open Mempool Effect

variable {n : ℕ}

/-- The lambda expression that a call of `f_let` at `s₀` has built. -/
def IsOwn (s₀ s : State n) (e : Ref n) : Prop :=
  ∃ b f d d', e = .blk b ∧ ¬ s₀.pool.m.Used b ∧ (s.pool.blk b).obj = .pair (.at f) d ∧
    s.pool.obj f = .pair (.at (.stat .lambda)) d'

def Quiet (c : Etcxt n) (k : ℕ) (s₀ s t : State n) : Prop :=
  (∀ e a, s.ctl = .eval e a → IsOwn s₀ s e) ∧ s.next c k false = some t

abbrev QuietSteps (c : Etcxt n) (k : ℕ) (s₀ : State n) : State n → State n → Prop :=
  Relation.ReflTransGen (Quiet c k s₀)

def State.answer (t : State n) (v : Ref n) (q : Pool n) : State n :=
  { t.load q with ctl := .ret v }

/-- What this evaluation leaves: the pairs that the call has made and that the base blocks lead
to are as they were, and there is room. -/
structure Answers (s₀ t : State n) (room : ℕ) (q : Pool n) : Prop where
  wf : q.m.Wf
  kept : ∀ b, Taken s₀.pool t.pool b → t.pool.Held t.pool.bbs (.blk b) →
    q.m.Used b ∧ (q.blk b).obj = (t.pool.blk b).obj
  room : room ≤ q.m.fbi

def Bound (t : State n) (a env : Ref n) (bound : List (Ref n × Ref n)) : Prop :=
  Alist t.pool (fun _ => True) a env bound

/-- What is left of a `let*`: for the bindings that are left, their initial values are evaluated
in order, each where the variables before it are bound, then the expressions `exprs`, where
all of them are; their value is returned. -/
def Sequential (c : Etcxt n) (k : ℕ) (s₀ : State n) (a exprs : Ref n) (room : ℕ) :
    List (Ref n × Ref n) → List (Ref n × Ref n) → State n → Prop
  | [], bound, s =>
      ∃ t body env, QuietSteps c k s₀ s t ∧ t.ctl = .eval body env ∧
        t.pool.obj body = .pair (.at (.stat .progn)) (.at exprs) ∧ Bound t a env bound ∧
        ∀ v q, Answers s₀ t room q →
          ∃ u, QuietSteps c k s₀ (t.answer v q) u ∧ u.frames = s₀.frames ∧ u.ctl = .ret v
  | w :: todo, bound, s =>
      ∃ t env, QuietSteps c k s₀ s t ∧ t.ctl = .eval w.2 env ∧ Bound t a env bound ∧
        ∀ x q, Answers s₀ t room q →
          Sequential c k s₀ a exprs room todo ((w.1, x) :: bound) (t.answer x q)

/-- `f_let` is called with the bindings `bs` and the expressions `es`. -/
structure LetCall (s : State n) (e a exprs : Ref n) (bs : List (Ref n × Ref n))
    (es : List (Ref n)) : Prop where
  good : s.pool.Good
  valid : s.pool.Valid e
  valid_env : s.pool.Valid a
  ctl : s.ctl = .call .fLet e a
  call : ∃ vars, s.pool.obj e = .pair (.at vars) (.at exprs) ∧
    Alist s.pool s.pool.m.Used ylnil vars bs
  exprs : Listing s.pool s.pool.m.Used exprs es
  ne_nil : es ≠ []
  length : es.length < 9999

section Lists

variable {p q : Pool n} {N : Fin n → Prop} {x l z : Ref n} {w : Ref n × Ref n}
  {bs : List (Ref n × Ref n)} {us : List (Ref n)} {f : Ref n → Hp n (Ref n)}
  {proj : Ref n × Ref n → Ref n}

def ReadsEntry (f : Ref n → Hp n (Ref n)) (proj : Ref n × Ref n → Ref n) : Prop :=
  ∀ (q : Pool n) (N : Fin n → Prop) (b : Fin n) (z d : Ref n) (w : Ref n × Ref n),
    (q.blk b).obj = .pair (.at z) (.at d) → Entry q N z w → f (.blk b) q = .ok (proj w) q

theorem readsEntry_ylcaar : ReadsEntry (n := n) ylcaar Prod.fst := by
  rintro q N b z d w ho ⟨c, c', d', rfl, -, -, hc, -⟩
  have hcar : ylcar (.blk b) q = .ok (.blk c) q := ylcar_pair ho
  exact (bind_of_ok hcar).trans (ylcar_pair hc)

theorem readsEntry_ylcadar : ReadsEntry (n := n) ylcadar Prod.snd := by
  rintro q N b z d w ho ⟨c, c', d', rfl, -, -, hc, hc'⟩
  have hcar : ylcar (.blk b) q = .ok (.blk c) q := ylcar_pair ho
  have hcdr : ylcdr (.blk c) q = .ok (.blk c') q := ylcdr_pair hc
  rw [ylcadar_eq, bind_of_ok hcar]
  exact (bind_of_ok hcdr).trans (ylcar_pair hc')

/-- The accumulator gets the elements in front, so that the list is reversed. -/
theorem runs_pairToList {d k : ℕ} (hf : ReadsEntry f proj) (hpq : Filled p q d)
    (hx : Alist q q.m.Used ylnil x bs) (hl : Listing q (Taken p q) l us) (hk : bs.length < k)
    (hroom : bs.length ≤ q.m.fbi) :
    Runs (pairToList f k x l) q fun r s =>
      Filled q s bs.length ∧ Listing s (Taken p s) r ((bs.map proj).reverse ++ us) := by
  induction bs generalizing q x l us d k with
  | nil =>
      cases hx
      cases k with
      | zero => exact absurd hk (Nat.not_lt_zero _)
      | succ k => exact Runs.pure ⟨Filled.refl hpq.wf, hl⟩
  | cons w bs ih =>
      cases hx with
      | @cons b z x' _ _ hb ho hz hx =>
          cases k with
          | zero => exact absurd hk (Nat.not_lt_zero _)
          | succ k =>
              rw [List.length_cons] at hk hroom
              have ho' : q.obj (.blk b) = .pair (.at z) (.at x') := ho
              rw [pairToList, if_neg (ne_ylnil_of_pair ho')]
              refine Runs.ok_bind (hf q _ b z x' w ho hz) ?_
              refine (runs_ylcons hpq.wf (by omega) (proj w) l).bind ?_
              rintro _ q₁ ⟨hq₁, c, rfl, hc, hused, hoc⟩
              have hroom₁ := hq₁.room
              have hobj : ∀ b, q.m.Used b → (q₁.blk b).obj = (q.blk b).obj := fun b hb =>
                congrArg Yle.obj (hq₁.blk b hb)
              have hpq₁ := hpq.trans hq₁
              have hl₁ : Listing q₁ (Taken p q₁) l us :=
                hl.frame (fun b hb => ⟨hb.1, hq₁.used b hb.2⟩) fun b hb => hobj b hb.2
              have hc' : Taken p q₁ c := ⟨fun h => hc (hpq.used c h), hused⟩
              refine Runs.ok_bind (ylcdr_pair ((hq₁.obj (x := .blk b) hb).trans ho')) ?_
              refine (ih hpq₁ (hx.frame hq₁.used hobj) (.cons hc' hoc hl₁) (by omega)
                (by omega)).mono ?_
              rintro r s ⟨hs, hr⟩
              have heq : 1 + bs.length = bs.length + 1 := by omega
              rw [List.length_cons, ← heq, List.map_cons, List.reverse_cons, List.append_assoc]
              exact ⟨hq₁.trans hs, hr⟩

end Lists

section Call

variable {p q : Pool n} {e a exprs : Ref n} {bs : List (Ref n × Ref n)} {es us : List (Ref n)}
  {k : ℕ}

theorem runs_cdrs {x : Ref n} (hx : Listing p p.m.Used x us) (hk : us.length < k) :
    cdrs k x p = .ok us.length p := by
  induction hx generalizing k with
  | nil =>
      cases k with
      | zero => exact absurd hk (Nat.not_lt_zero _)
      | succ k => rfl
  | @cons b u d us hb ho _ ih =>
      cases k with
      | zero => exact absurd hk (Nat.not_lt_zero _)
      | succ k =>
          rw [List.length_cons] at hk
          have ho' : p.obj (.blk b) = .pair (.at u) (.at d) := ho
          rw [cdrs, bind_of_ok (yleisAtom_pair ho'), if_neg Bool.false_ne_true,
            bind_of_ok (ylcdr_pair ho'), bind_of_ok (ih (by omega))]
          rfl

/-- The head of `f_let` lets a list of bindings and at least one expression pass. -/
theorem pcsz_let {vars : Ref n} (he : p.obj e = .pair (.at vars) (.at exprs))
    (hes : Listing p p.m.Used exprs es) (hne : es ≠ []) (hlen : es.length < 9999)
    (hk : es.length + 1 < k) : pcsz k e 2 9999 p = .ok (es.length + 1) p := by
  have hpos := List.length_pos_iff.2 hne
  obtain ⟨k, rfl⟩ : ∃ m, k = m + 1 := ⟨k - 1, by omega⟩
  have hcdrs : cdrs (k + 1) e p = .ok (es.length + 1) p := by
    rw [cdrs, bind_of_ok (yleisAtom_pair he), if_neg Bool.false_ne_true,
      bind_of_ok (ylcdr_pair he), bind_of_ok (runs_cdrs hes (by omega))]
    rfl
  have hsize : ylelistSize (k + 1) e p = .ok (es.length + 1) p := by
    rw [ylelistSize, if_neg (ne_ylnil_of_pair he), bind_of_ok (yleisAtom_pair he),
      if_neg Bool.false_ne_true, hcdrs]
  rw [pcsz, bind_of_ok hsize, if_neg (by omega)]
  rfl

structure LetExp (q : Pool n) (N : Fin n → Prop) (b f l l' body : Fin n) (argl param exprs : Ref n)
    (bs : List (Ref n × Ref n)) : Prop where
  blocks : ∀ x ∈ [b, f, l, l', body], N x
  call : (q.blk b).obj = .pair (.at (.blk f)) (.at param)
  lambda : (q.blk f).obj = .pair (.at (.stat .lambda)) (.at (.blk l))
  args : (q.blk l).obj = .pair (.at argl) (.at (.blk l'))
  rest : (q.blk l').obj = .pair (.at (.blk body)) (.at ylnil)
  progn : (q.blk body).obj = .pair (.at (.stat .progn)) (.at exprs)
  vars : Listing q N argl (bs.map Prod.fst).reverse
  inits : Listing q N param (bs.map Prod.snd).reverse

theorem LetExp.frame {N N' : Fin n → Prop} {s : Pool n} {b f l l' body : Fin n}
    {argl param : Ref n} (h : LetExp q N b f l l' body argl param exprs bs)
    (hN : ∀ b, N b → N' b) (hobj : ∀ b, N b → (s.blk b).obj = (q.blk b).obj) :
    LetExp s N' b f l l' body argl param exprs bs where
  blocks := fun x hx => hN x (h.blocks x hx)
  call := (hobj b (h.blocks b (by simp))).trans h.call
  lambda := (hobj f (h.blocks f (by simp))).trans h.lambda
  args := (hobj l (h.blocks l (by simp))).trans h.args
  rest := (hobj l' (h.blocks l' (by simp))).trans h.rest
  progn := (hobj body (h.blocks body (by simp))).trans h.progn
  vars := h.vars.frame hN hobj
  inits := h.inits.frame hN hobj

/-- Without bindings, the expressions are evaluated where the call is. -/
theorem runs_fLet_nil {vars : Ref n} (hp : p.Good)
    (he : p.obj e = .pair (.at vars) (.at exprs)) (hvars : Alist p p.m.Used ylnil vars [])
    (hk : 0 < k) (hroom : 0 < p.m.fbi) :
    Runs (fLet k e a) p fun g q => Filled p q 1 ∧ ∃ b, g = ⟨[], .eval (.blk b) a⟩ ∧
      Taken p q b ∧ (q.blk b).obj = .pair (.at (.stat .progn)) (.at exprs) := by
  obtain ⟨k, rfl⟩ : ∃ m, k = m + 1 := ⟨k - 1, by omega⟩
  cases hvars
  have hnil : yleisAtom (ylnil : Ref n) p = .ok true p := rfl
  refine Runs.ok_bind (ylcar_pair he) (Runs.ok_bind hnil ?_)
  rw [if_neg (by simp)]
  have hlist : ∀ f : Ref n → Hp n (Ref n), pairToList f (k + 1) ylnil ylnil p = .ok ylnil p :=
    fun f => by rw [pairToList, if_pos rfl]; rfl
  refine Runs.ok_bind (hlist _) (Runs.ok_bind (hlist _) (Runs.ok_bind (ylcdr_pair he) ?_))
  refine (runs_ylcons hp.wf.m hroom _ _).bind ?_
  rintro _ q ⟨hq, b, rfl, hb, hused, ho⟩
  rw [if_pos rfl]
  exact Runs.pure ⟨hq, b, rfl, ⟨hb, hused⟩, ho⟩

theorem runs_fLet_cons {vars : Ref n} (hp : p.Good) (hev : p.Valid e)
    (he : p.obj e = .pair (.at vars) (.at exprs)) (hvars : Alist p p.m.Used ylnil vars bs)
    (hbs : bs ≠ []) (hk : bs.length < k) (hroom : 2 * bs.length + 5 ≤ p.m.fbi) :
    Runs (fLet k e a) p fun g q => Filled p q (bs.length + bs.length + 5) ∧
      ∃ b f l l' body argl param, g = ⟨[], .eval (.blk b) a⟩ ∧
        LetExp q (Taken p q) b f l l' body argl param exprs bs := by
  have hatom : yleisAtom vars p = .ok false p := by
    cases hvars with
    | nil => exact absurd rfl hbs
    | cons _ ho => exact yleisAtom_pair (e := .blk _) ho
  refine Runs.ok_bind (ylcar_pair he) (Runs.ok_bind hatom ?_)
  rw [if_neg (by simp)]
  have hrefl := Filled.refl hp.wf.m
  refine (runs_pairToList readsEntry_ylcaar hrefl hvars .nil hk (by omega)).bind ?_
  rintro argl q₁ ⟨hq₁, hargl⟩
  have hroom₁ := hq₁.room
  have hobj : ∀ b, p.m.Used b → (q₁.blk b).obj = (p.blk b).obj := fun b hb =>
    congrArg Yle.obj (hq₁.blk b hb)
  refine (runs_pairToList readsEntry_ylcadar hq₁ (hvars.frame hq₁.used hobj) .nil hk
    (by omega)).bind ?_
  rintro param q₂ ⟨hq₂, hparam⟩
  have hroom₂ := hq₂.room
  rw [List.append_nil] at hargl hparam
  have hpq₂ := hq₁.trans hq₂
  refine Runs.ok_bind (ylcdr_pair ((hpq₂.obj hev).trans he)) ?_
  refine (runs_ylcons hq₂.wf (by omega) _ _).bind ?_
  rintro _ q₃ ⟨hq₃, body, rfl, hbody, hused₃, ho₃⟩
  have hroom₃ := hq₃.room
  rw [if_neg (hargl.ne_ylnil (by simpa using hbs)), if_neg (hparam.ne_ylnil (by simpa using hbs))]
  refine (runs_ylcons hq₃.wf (by omega) _ _).bind ?_
  rintro _ q₄ ⟨hq₄, l', rfl, hl', hused₄, ho₄⟩
  have hroom₄ := hq₄.room
  refine (runs_ylcons hq₄.wf (by omega) _ _).bind ?_
  rintro _ q₅ ⟨hq₅, l, rfl, hl, hused₅, ho₅⟩
  have hroom₅ := hq₅.room
  refine (runs_ylcons hq₅.wf (by omega) _ _).bind ?_
  rintro _ q₆ ⟨hq₆, f, rfl, hf, hused₆, ho₆⟩
  have hroom₆ := hq₆.room
  refine (runs_ylcons hq₆.wf (by omega) _ _).bind ?_
  rintro _ q ⟨hq, b, rfl, hb, hused, ho⟩
  have h₆ := hq₆.trans hq
  have h₅ := hq₅.trans h₆
  have h₄ := hq₄.trans h₅
  have hpq₃ := hpq₂.trans hq₃
  have hpq₄ := hpq₃.trans hq₄
  have hpq₅ := hpq₄.trans hq₅
  have hpq₆ := hpq₅.trans hq₆
  have hlist : ∀ {q' : Pool n} {x : Ref n} {us : List (Ref n)} {d : ℕ}, Filled q' q d →
      Listing q' (Taken p q') x us → Listing q (Taken p q) x us := fun hfill h =>
    h.frame (fun b hb => ⟨hb.1, hfill.used b hb.2⟩) fun b hb => congrArg Yle.obj (hfill.blk b hb.2)
  refine Runs.pure ⟨hpq₆.trans hq, b, f, l, l', body, argl, param, rfl, ?_, ho, ?_, ?_, ?_, ?_,
    hlist ((hq₂.trans hq₃).trans h₄) hargl, hlist (hq₃.trans h₄) hparam⟩
  · simp only [List.forall_mem_cons]
    exact ⟨⟨fun h => hb (hpq₆.used b h), hused⟩,
      ⟨fun h => hf (hpq₅.used f h), hq.used f hused₆⟩,
      ⟨fun h => hl (hpq₄.used l h), h₆.used l hused₅⟩,
      ⟨fun h => hl' (hpq₃.used l' h), h₅.used l' hused₄⟩,
      ⟨fun h => hbody (hpq₂.used body h), h₄.used body hused₃⟩, nofun⟩
  · exact (congrArg Yle.obj (hq.blk f hused₆)).trans ho₆
  · exact (congrArg Yle.obj (h₆.blk l hused₅)).trans ho₅
  · exact (congrArg Yle.obj (h₅.blk l' hused₄)).trans ho₄
  · exact (congrArg Yle.obj (h₄.blk body hused₃)).trans ho₃

/-- `yleval` of the lambda expression: the arguments are evaluated next. -/
theorem evalForm_letExp {c : Etcxt n} {N : Fin n → Prop} {b f l l' body : Fin n}
    {argl param : Ref n} (erange : Bool)
    (h : LetExp q N b f l l' body argl param exprs bs) :
    evalForm c erange k (.blk b) a q =
      .ok ⟨[.lambdaArgs (.blk body) argl a], .evlis param a⟩ q := by
  have hcall : q.obj (.blk b) = .pair (.at (.blk f)) (.at param) := h.call
  have hlambda : q.obj (.blk f) = .pair (.at (.stat .lambda)) (.at (.blk l)) := h.lambda
  have hcar : ylcar (.blk b) q = .ok (.blk f) q := ylcar_pair hcall
  have hcaar : ylcaar (.blk b) q = .ok (.stat .lambda) q :=
    (bind_of_ok hcar).trans (ylcar_pair hlambda)
  have hcdar : ylcdar (.blk b) q = .ok (.blk l) q := (bind_of_ok hcar).trans (ylcdr_pair hlambda)
  have hcadar : ylcadar (.blk b) q = .ok argl q :=
    (bind_of_ok hcdar).trans (ylcar_pair (e := .blk l) h.args)
  have hcddar : ylcddar (.blk b) q = .ok (.blk l') q :=
    (bind_of_ok hcdar).trans (ylcdr_pair (e := .blk l) h.args)
  have hcaddar : ylcaddar (.blk b) q = .ok (.blk body) q :=
    (bind_of_ok hcddar).trans (ylcar_pair (e := .blk l') h.rest)
  have hatom : yleisAtom (.stat .lambda : Ref n) q = .ok true q := rfl
  have hsym : symOf (.stat .lambda : Ref n) q = .ok (some (cstr "lambda")) q := rfl
  rw [evalForm, bind_of_ok (yleisAtom_pair hcall), if_neg Bool.false_ne_true, bind_of_ok hcar,
    bind_of_ok (yleisAtom_pair hlambda), if_neg Bool.false_ne_true, bind_of_ok hcaar,
    bind_of_ok hatom, if_pos rfl, evlambdaForm, bind_of_ok hcaar, bind_of_ok hsym]
  dsimp only
  rw [if_pos rfl, evlfLambda, bind_of_ok hcaddar, bind_of_ok hcadar, bind_of_ok (ylcdr_pair hcall)]
  rfl

end Call

section Steps

variable {c : Etcxt n} {k : ℕ} {s₀ s : State n} {q : Pool n} {e a x d v m : Ref n}
  {fs : List (Frame n)}

theorem run_go {f : Hp n (Go n)} {ctl : Ctl n} (h : f s.pool = .ok ⟨[], ctl⟩ q) :
    ∃ t, s.run f = some t ∧ t.frames = s.frames ∧ t.ctl = ctl ∧ t.pool.m = q.m ∧
      t.pool.blk = q.blk ∧ t.pool.bbs = s.pool.bbs :=
  ⟨_, State.run_ok h, rfl, rfl, rfl, rfl, rfl⟩

/-- A C function that starts to wait without base blocks of its own. -/
theorem run_enter {f : Hp n (Go n)} {w : Wait n} {ctl : Ctl n} (hw : w.bb = [])
    (h : f s.pool = .ok ⟨[w], ctl⟩ q) :
    ∃ t, s.run f = some t ∧ t.frames = .wait w :: s.frames ∧ t.ctl = ctl ∧ t.pool.m = q.m ∧
      t.pool.blk = q.blk ∧ t.pool.bbs = s.pool.bbs := by
  have hbb : (Frame.wait w).bb = [] := hw
  refine ⟨_, State.run_ok h, rfl, rfl, ?_, ?_, ?_⟩ <;>
    simp only [State.pushWaits, List.foldr_cons, List.foldr_nil, State.push, hbb, List.foldl_nil,
      State.load]

theorem quiet_of_next {t : State n} {ctl : Ctl n} (hctl : s.ctl = ctl)
    (hne : ∀ e a, ctl ≠ .eval e a) (h : s.next c k false = some t) : Quiet c k s₀ s t :=
  ⟨fun e a h' => absurd (hctl.symm.trans h') (hne e a), h⟩

theorem quiet_evlis (hctl : s.ctl = .evlis m a) (hm : s.pool.obj m = .pair (.at x) (.at d)) :
    ∃ t, Quiet c k s₀ s t ∧ t.frames = .wait (.evlisArg m a) :: s.frames ∧ t.ctl = .eval x a ∧
      t.pool.m = s.pool.m ∧ t.pool.blk = s.pool.blk ∧ t.pool.bbs = s.pool.bbs := by
  have hrun : ylevlis m a s.pool = .ok ⟨[.evlisArg m a], .eval x a⟩ s.pool := by
    rw [ylevlis, if_neg (ne_ylnil_of_pair hm), bind_of_ok (ylcar_pair hm)]
    rfl
  obtain ⟨t, ht, hfacts⟩ := run_enter (s := s) rfl hrun
  refine ⟨t, quiet_of_next hctl nofun ?_, hfacts⟩
  rw [State.next, hctl, ← ht]

theorem next_ret_wait {w : Wait n} (erange : Bool) (hctl : s.ctl = .ret v)
    (hfs : s.frames = .wait w :: fs) :
    s.next c k erange = ((s.pop (.wait w) fs).pushWaits (w.next v)).run (w.resume c k v) := by
  rw [State.next, hctl]
  dsimp only
  rw [State.ret, hfs]

/-- A C function that waits gets the value and goes on. -/
theorem quiet_resume {w : Wait n} {ctl : Ctl n} (hctl : s.ctl = .ret v)
    (hfs : s.frames = .wait w :: fs)
    (hrun : w.resume c k v ((s.pop (.wait w) fs).pushWaits (w.next v)).pool = .ok ⟨[], ctl⟩ q) :
    ∃ t, Quiet c k s₀ s t ∧ t.frames = ((s.pop (.wait w) fs).pushWaits (w.next v)).frames ∧
      t.ctl = ctl ∧ t.pool.m = q.m ∧ t.pool.blk = q.blk := by
  obtain ⟨t, ht, hframes, hctl', hm, hblk, -⟩ := run_go hrun
  refine ⟨t, quiet_of_next hctl nofun ?_, hframes, hctl', hm, hblk⟩
  rw [next_ret_wait false hctl hfs, ← ht]

theorem quiet_answer (hctl : s.ctl = .ret v) (hfs : s.frames = .wait (.evlisArg m a) :: fs)
    (hm : s.pool.obj m = .pair (.at x) (.at d)) :
    ∃ t, Quiet c k s₀ s t ∧ t.frames = .wait (.evlisRest v) :: fs ∧ t.ctl = .evlis d a ∧
      t.pool.m = s.pool.m ∧ t.pool.blk = s.pool.blk := by
  let s' := (s.pop (.wait (.evlisArg m a)) fs).pushWaits [.evlisRest v]
  have hm' : s'.pool.obj m = .pair (.at x) (.at d) := hm
  have hrun : (Wait.evlisArg m a).resume c k v s'.pool = .ok ⟨[], .evlis d a⟩ s'.pool := by
    rw [Wait.resume, bind_of_ok (ylcdr_pair hm')]
    rfl
  obtain ⟨t, hquiet, hframes, hctl', hm, hblk⟩ := quiet_resume hctl hfs hrun
  exact ⟨t, hquiet, hframes, hctl', hm, hblk⟩

/-- The value of an argument is put in front of the others. -/
theorem quiet_rest {p : Ref n} (hctl : s.ctl = .ret v) (hfs : s.frames = .wait (.evlisRest p) :: fs)
    (hwf : s.pool.m.Wf) (hroom : 0 < s.pool.m.fbi) :
    ∃ t b, Quiet c k s₀ s t ∧ t.frames = fs ∧ t.ctl = .ret (.blk b) ∧
      Filled s.pool t.pool 1 ∧ Taken s.pool t.pool b ∧
      (t.pool.blk b).obj = .pair (.at p) (.at v) := by
  let s' := (s.pop (.wait (.evlisRest p)) fs).pushWaits []
  obtain ⟨r, q, hcons, hfill, b, rfl, hb, hused, ho⟩ :=
    runs_ylcons (p := s'.pool) hwf hroom p v
  have hrun : (Wait.evlisRest p).resume c k v s'.pool = .ok ⟨[], .ret (.blk b)⟩ q := by
    rw [Wait.resume, bind_of_ok hcons]
    rfl
  obtain ⟨t, hquiet, hframes, hctl', hpm, hblk⟩ := quiet_resume hctl hfs hrun
  have hused' : t.pool.m.Used b := by rw [hpm]; exact hused
  refine ⟨t, b, hquiet, hframes, hctl', ⟨?_, ?_, ?_, ?_⟩, ⟨hb, hused'⟩, ?_⟩
  · rw [hpm]
    exact hfill.wf
  · rw [hpm]
    exact hfill.used
  · rw [hblk]
    exact hfill.blk
  · rw [hpm]
    exact hfill.room
  · rw [hblk]
    exact ho

/-- The body is asked for, where the variables have the values. -/
theorem quiet_lambda {body argl : Ref n} {us vs : List (Ref n)} (hctl : s.ctl = .ret v)
    (hfs : s.frames = .wait (.lambdaArgs body argl a) :: fs) (hwf : s.pool.m.Wf)
    (hus : Listing s.pool s.pool.m.Used argl us) (hvs : Listing s.pool s.pool.m.Used v vs)
    (hlen : us.length = vs.length) (hk : us.length < k) (hroom : 4 * us.length ≤ s.pool.m.fbi) :
    ∃ t env, Quiet c k s₀ s t ∧ t.frames = fs ∧ t.ctl = .eval body env ∧
      Alist t.pool (fun _ => True) a env (us.zip vs) ∧
      ∀ b, s.pool.m.Used b → (t.pool.blk b).obj = (s.pool.blk b).obj := by
  let s' := (s.pop (.wait (.lambdaArgs body argl a)) fs).pushWaits []
  have hzip : (us.zip vs).length = us.length := by rw [List.length_zip, hlen, min_self]
  obtain ⟨l, q₁, hpair, hq₁, hl⟩ := runs_ylpair (q := s'.pool) (k := k) hwf hus hvs hlen hk (by
    have : s'.pool.m.fbi = s.pool.m.fbi := rfl
    omega)
  have hroom₁ : q₁.m.fbi + 3 * us.length = s.pool.m.fbi := hq₁.room
  obtain ⟨env, q, happend, hq, henv⟩ := runs_ylappend (y := a) (k := k) hq₁ hl (by omega)
    (by omega)
  have hrun : (Wait.lambdaArgs body argl a).resume c k v s'.pool = .ok ⟨[], .eval body env⟩ q := by
    rw [Wait.resume, bind_of_ok hpair, bind_of_ok happend]
    rfl
  obtain ⟨t, hquiet, hframes, hctl', -, hblk⟩ := quiet_resume hctl hfs hrun
  refine ⟨t, env, hquiet, hframes, hctl', ?_, fun b hb => ?_⟩
  · exact henv.frame (fun _ _ => trivial) fun b _ => by rw [hblk]
  · rw [hblk]
    exact congrArg Yle.obj ((hq₁.trans hq).blk b hb)

structure Asking (s t : State n) (x a : Ref n) (b f l l' body : Fin n) (argl param exprs : Ref n)
    (stk : List (Ref n)) (bs : List (Ref n × Ref n)) : Prop where
  frames : t.frames = .wait (.evlisArg param a) :: .wait (.lambdaArgs (.blk body) argl a) ::
    .yleval (.blk b) a stk :: s.frames
  ctl : t.ctl = .eval x a
  bbs : t.pool.bbs = a :: .blk b :: s.pool.bbs
  wf : t.pool.m.Wf
  room : t.pool.m.fbi + (bs.length + bs.length + 5) = s.pool.m.fbi
  exp : LetExp t.pool (Taken s.pool t.pool) b f l l' body argl param exprs bs

theorem quiet_call {exprs : Ref n} {bs : List (Ref n × Ref n)} {es : List (Ref n)} {ctl : Ctl n}
    (h : LetCall s e a exprs bs es) (hk : es.length + 1 < k)
    (hlet : fLet k e a s.pool = .ok ⟨[], ctl⟩ q) :
    ∃ t, Quiet c k s s t ∧ t.frames = s.frames ∧ t.ctl = ctl ∧ t.pool.m = q.m ∧
      t.pool.blk = q.blk ∧ t.pool.bbs = s.pool.bbs := by
  obtain ⟨vars, he, -⟩ := h.call
  have hcall : callFn c k .fLet e a s.pool = .ok ⟨[], ctl⟩ q := by
    rw [callFn, bind_of_ok (pcsz_let (k := k) he h.exprs h.ne_nil h.length hk), hlet]
  obtain ⟨t, ht, hfacts⟩ := run_go hcall
  refine ⟨t, quiet_of_next h.ctl nofun ?_, hfacts⟩
  rw [State.next, h.ctl, ← ht]

/-- `f_let` hands the lambda expression over to `yleval`, which asks for the initial values, the
last one first. -/
theorem asks_last {exprs : Ref n} {bs : List (Ref n × Ref n)} {es xs : List (Ref n)}
    (h : LetCall s e a exprs bs es) (hbs : (bs.map Prod.snd).reverse = x :: xs)
    (hk : es.length + bs.length + 1 < k) (hroom : 2 * bs.length + 5 ≤ s.pool.m.fbi) :
    ∃ t b f l l' body argl param stk, QuietSteps c k s s t ∧
      Asking s t x a b f l l' body argl param exprs stk bs := by
  obtain ⟨vars, he, hvars⟩ := h.call
  have hne : bs ≠ [] := by
    rintro rfl
    cases hbs
  obtain ⟨g, q, hlet, hfill, b, f, l, l', body, argl, param, rfl, hexp⟩ :=
    runs_fLet_cons (a := a) (k := k) h.good h.valid he hvars hne (by omega) hroom
  -- the call
  obtain ⟨s₁, hstep₁, hframes₁, hctl₁, hm₁, hblk₁, hbbs₁⟩ := quiet_call h (by omega) hlet
  have hexp₁ : LetExp s₁.pool (Taken s.pool s₁.pool) b f l l' body argl param exprs bs :=
    hexp.frame (fun b hb => ⟨hb.1, by rw [hm₁]; exact hb.2⟩) fun b _ => by rw [hblk₁]
  have hentered : LetExp (s₁.entered (.blk b) a).pool (Taken s.pool s₁.pool) b f l l' body argl
      param exprs bs := hexp₁.frame (fun _ h => h) fun _ _ => rfl
  -- the lambda expression
  obtain ⟨s₂, hs₂, hframes₂, hctl₂, hm₂, hblk₂, hbbs₂⟩ := run_enter (s := s₁.entered (.blk b) a) rfl
    (evalForm_letExp (c := c) (k := k) (a := a) false hentered)
  have hstep₂ : Quiet c k s s₁ s₂ := by
    refine ⟨fun e a hctl => ?_, ?_⟩
    · rw [hctl₁] at hctl
      cases hctl
      exact ⟨b, _, _, _, rfl, (hexp₁.blocks b (by simp)).1, hexp₁.call, hexp₁.lambda⟩
    · rw [State.next_eval hctl₁, ← hs₂]
  have hexp₂ : LetExp s₂.pool (Taken s.pool s₂.pool) b f l l' body argl param exprs bs :=
    hexp₁.frame (fun b hb => ⟨hb.1, by rw [hm₂]; exact hb.2⟩) fun b _ => by rw [hblk₂]; rfl
  -- the arguments
  have hinits := hexp₂.inits
  rw [hbs] at hinits
  cases hinits with
  | @cons c' _ d _ hc' hoc hrest =>
      obtain ⟨t, hstep, hframes, hctl, hm, hblk, hbbs⟩ :=
        quiet_evlis hctl₂ hoc
      refine ⟨t, b, f, l, l', body, argl, .blk c', s₁.evalstk,
        .head hstep₁ (.head hstep₂ (.single hstep)), ?_, hctl, ?_, ?_, ?_, ?_⟩
      · rw [hframes, hframes₂, ← hframes₁]
        rfl
      · rw [hbbs, hbbs₂, ← hbbs₁]
        rfl
      · rw [hm, hm₂]
        exact hm₁ ▸ hfill.wf
      · rw [hm, hm₂]
        exact hm₁ ▸ hfill.room
      · exact hexp₂.frame (fun b hb => ⟨hb.1, by rw [hm]; exact hb.2⟩) fun b _ => by rw [hblk]

theorem quiet_evlis_nil (hctl : s.ctl = .evlis ylnil a) :
    ∃ t, Quiet c k s₀ s t ∧ t.frames = s.frames ∧ t.ctl = .ret ylnil ∧
      t.pool.m = s.pool.m ∧ t.pool.blk = s.pool.blk := by
  have hrun : ylevlis ylnil a s.pool = .ok ⟨[], .ret ylnil⟩ s.pool := by
    rw [ylevlis, if_pos rfl]
    rfl
  obtain ⟨t, ht, hframes, hctl', hm, hblk, -⟩ := run_go hrun
  refine ⟨t, quiet_of_next hctl nofun ?_, hframes, hctl', hm, hblk⟩
  rw [State.next, hctl, ← ht]

theorem quiet_return {stk : List (Ref n)} (hctl : s.ctl = .ret v)
    (hfs : s.frames = .yleval e a stk :: fs) :
    ∃ t, QuietSteps c k s₀ s t ∧ t.frames = fs ∧ t.ctl = .ret v := by
  obtain ⟨pool, evalstk, frames, ctl⟩ := s
  obtain rfl : frames = .yleval e a stk :: fs := hfs
  obtain rfl : ctl = .ret v := hctl
  exact ⟨_, .head ⟨nofun, rfl⟩ (.single ⟨nofun, rfl⟩), rfl, rfl⟩

def LeadsTo (p : Pool n) (y : Ref n) (b : Fin n) : Prop :=
  Relation.ReflTransGen p.Link y (.blk b)

theorem Listing.leadsTo {p : Pool n} {N : Fin n → Prop} {y : Ref n} {us : List (Ref n)}
    (h : Listing p N x us) (hx : Relation.ReflTransGen p.Link y x) :
    Listing p (fun b => N b ∧ LeadsTo p y b) x us := by
  induction h with
  | nil => exact .nil
  | cons hb ho _ ih => exact .cons ⟨hb, hx⟩ ho (ih (hx.tail ⟨_, _, ho, Or.inr rfl⟩))

theorem LetExp.leadsTo {p : Pool n} {N : Fin n → Prop} {b f l l' body : Fin n}
    {argl param exprs : Ref n} {bs : List (Ref n × Ref n)}
    (h : LetExp p N b f l l' body argl param exprs bs) :
    LetExp p (fun x => N x ∧ LeadsTo p (.blk b) x) b f l l' body argl param exprs bs := by
  have hparam : Relation.ReflTransGen p.Link (.blk b) param :=
    .single ⟨_, _, h.call, Or.inr rfl⟩
  have hf : LeadsTo p (.blk b) f := .single ⟨_, _, h.call, Or.inl rfl⟩
  have hl : LeadsTo p (.blk b) l := hf.tail ⟨_, _, h.lambda, Or.inr rfl⟩
  have hargl : Relation.ReflTransGen p.Link (.blk b) argl := hl.tail ⟨_, _, h.args, Or.inl rfl⟩
  have hl' : LeadsTo p (.blk b) l' := hl.tail ⟨_, _, h.args, Or.inr rfl⟩
  have hbody : LeadsTo p (.blk b) body := hl'.tail ⟨_, _, h.rest, Or.inl rfl⟩
  refine ⟨fun x hx => ⟨h.blocks x hx, ?_⟩, h.call, h.lambda, h.args, h.rest, h.progn,
    h.vars.leadsTo hargl, h.inits.leadsTo hparam⟩
  simp only [List.mem_cons, List.not_mem_nil, or_false] at hx
  obtain rfl | rfl | rfl | rfl | rfl := hx
  exacts [.refl, hf, hl, hl', hbody]

/-- The lambda expression is there when an evaluation has returned: it is a base block. -/
theorem Asking.kept {t : State n} {b f l l' body : Fin n} {argl param exprs y : Ref n}
    {stk : List (Ref n)} {bs : List (Ref n × Ref n)} {room : ℕ}
    (h : Asking s t x a b f l l' body argl param exprs stk bs) (hq : Answers s t room q) :
    LetExp (t.answer y q).pool (t.answer y q).pool.m.Used b f l l' body argl param exprs bs := by
  have hb : t.pool.Valid (.blk b) := (h.exp.blocks b (by simp)).2
  have hkept : ∀ x, Taken s.pool t.pool x ∧ LeadsTo t.pool (.blk b) x →
      q.m.Used x ∧ (q.blk x).obj = (t.pool.blk x).obj := fun x hx =>
    hq.kept x hx.1 ⟨.blk b, by simp [h.bbs], hb, hx.2⟩
  exact h.exp.leadsTo.frame (fun x hx => (hkept x hx).1) fun x hx => (hkept x hx).2

end Steps

section Few

variable {c : Etcxt n} {k : ℕ} {s : State n} {e a exprs : Ref n} {es : List (Ref n)}
  {w : Ref n × Ref n}

theorem sequential_nil (h : LetCall s e a exprs [] es) (hk : es.length + 1 < k)
    (hroom : 0 < s.pool.m.fbi) (room : ℕ) : Sequential c k s a exprs room [] [] s := by
  obtain ⟨vars, he, hvars⟩ := h.call
  obtain ⟨g, q, hlet, -, b, rfl, -, ho⟩ :=
    runs_fLet_nil (a := a) (k := k) h.good he hvars (by omega) hroom
  obtain ⟨t, hstep, hframes, hctl, -, hblk, -⟩ := quiet_call h hk hlet
  refine ⟨t, .blk b, a, .single hstep, hctl, ?_, .nil, fun v q _ => ⟨_, .refl, hframes, rfl⟩⟩
  show (t.pool.blk b).obj = _
  rw [hblk]
  exact ho

/-- A single initial value is evaluated where the call is. -/
theorem sequential_single (h : LetCall s e a exprs [w] es) (hk : es.length + 2 < k)
    (hroom : 12 ≤ s.pool.m.fbi) : Sequential c k s a exprs 5 [w] [] s := by
  obtain ⟨t, b, f, l, l', body, argl, param, stk, hsteps, hasking⟩ :=
    asks_last (c := c) (k := k) (x := w.2) h rfl hk (by simp; omega)
  refine ⟨t, a, hsteps, hasking.ctl, .nil, fun x q hq => ?_⟩
  have hexp := hasking.kept (y := x) hq
  have hinits := hexp.inits
  cases hinits with
  | @cons c' _ d _ hc' hoc hrest =>
      cases hrest with
      | nil =>
          obtain ⟨t₁, h₁, hframes₁, hctl₁, hm₁, hblk₁⟩ :=
            quiet_answer (c := c) (k := k) (s := t.answer x q) rfl hasking.frames hoc
          obtain ⟨t₂, h₂, hframes₂, hctl₂, hm₂, hblk₂⟩ := quiet_evlis_nil hctl₁
          have hm : t₂.pool.m = q.m := hm₂.trans hm₁
          have hblk : t₂.pool.blk = q.blk := hblk₂.trans hblk₁
          have hroom₂ : 5 ≤ t₂.pool.m.fbi := hm ▸ hq.room
          obtain ⟨t₃, b', h₃, hframes₃, hctl₃, hfill, hb', ho'⟩ :=
            quiet_rest hctl₂ (hframes₂.trans hframes₁) (hm ▸ hq.wf) (by omega)
          have hroom₃ := hfill.room
          have hexp₃ : LetExp t₃.pool t₃.pool.m.Used b f l l' body argl (.blk c') exprs [w] :=
            hexp.frame (fun b hb => hfill.used b (hm ▸ hb)) fun b hb => by
              rw [hfill.blk b (hm ▸ hb), hblk]
              rfl
          obtain ⟨u, env, h₄, hframes, hctl, henv, hobj⟩ :=
            quiet_lambda (c := c) (k := k) hctl₃ hframes₃ hfill.wf hexp₃.vars
              (.cons hb'.2 ho' .nil) rfl (by simp; omega) (by simp; omega)
          refine ⟨u, .blk body, env, .head h₁ (.head h₂ (.head h₃ (.single h₄))), hctl,
            (hobj body (hexp₃.blocks body (by simp))).trans hexp₃.progn, henv, fun v q' _ => ?_⟩
          exact quiet_return rfl hframes

end Few

section Many

variable {c : Etcxt n} {k : ℕ} {s₀ s t t' : State n} {p : Pool n} {N : Fin n → Prop}
  {e e' a a' y l z exprs : Ref n} {w w' : Ref n × Ref n} {bs ps ps' : List (Ref n × Ref n)}
  {es : List (Ref n)}

theorem Entry.unique (h : Entry p N z w) (h' : Entry p N z w') : w = w' := by
  obtain ⟨b, c, d, rfl, -, -, ho, hc⟩ := h
  obtain ⟨b', c', d', hz, -, -, ho', hc'⟩ := h'
  cases hz
  obtain ⟨hfst, hsnd⟩ := Obj.pair.inj (ho.symm.trans ho')
  cases hsnd
  exact Prod.ext (Ptr.at.inj hfst) (Ptr.at.inj (Obj.pair.inj (hc.symm.trans hc')).1)

/-- A list is an association list of a given length in one way only. -/
theorem Alist.unique (h : Alist p N y l ps) (h' : Alist p N y l ps')
    (hlen : ps.length = ps'.length) : ps = ps' := by
  induction h generalizing ps' with
  | nil => exact (List.length_eq_zero_iff.1 hlen.symm).symm
  | @cons b z l w ps _ ho hz _ ih =>
      cases h' with
      | nil => cases hlen
      | cons _ ho' hz' h' =>
          obtain ⟨hcar, hcdr⟩ := Obj.pair.inj (ho.symm.trans ho')
          cases hcar
          cases hcdr
          rw [hz.unique hz', ih h' (Nat.succ.inj hlen)]

theorem Alist.valid (h : Alist p p.m.Used y l ps) (hp : p.Good) : ∀ w ∈ ps, p.Valid w.2 := by
  induction h with
  | nil => exact nofun
  | cons _ _ hz _ ih =>
      refine List.forall_mem_cons.2 ⟨?_, ih⟩
      obtain ⟨-, b', d, -, -, hb', -, ho'⟩ := hz
      exact (valid_of_pair (e := .blk b') hp hb' ho').1

theorem exists_cons_cons {α : Type*} {us : List α} (h : 2 ≤ us.length) :
    ∃ u u' us', us = u :: u' :: us' := by
  match us, h with
  | u :: u' :: us', _ => exact ⟨u, u', us', rfl⟩

theorem quiet_unique : Relator.RightUnique (Quiet c k s₀) := fun _ _ _ h h' =>
  Option.some.inj (h.2.symm.trans h'.2)

/-- An evaluation that the call asks for ends the quiet steps. -/
theorem eq_of_asks (h : QuietSteps c k s₀ s t) (h' : QuietSteps c k s₀ s t')
    (ht : t.ctl = .eval e a) (he : s₀.pool.Valid e) (ht' : t'.ctl = .eval e' a')
    (he' : s₀.pool.Valid e') : t = t' := by
  have hlast : ∀ {u u' : State n} {e a : Ref n}, u.ctl = .eval e a → s₀.pool.Valid e →
      QuietSteps c k s₀ u u' → u = u' := by
    intro u u' e a hctl he hsteps
    obtain rfl | ⟨v, hquiet, -⟩ := hsteps.cases_head
    · rfl
    · obtain ⟨b, -, -, -, rfl, hb, -⟩ := hquiet.1 e a hctl
      exact absurd he hb
  obtain h | h := Relation.ReflTransGen.total_of_right_unique quiet_unique h h'
  · exact hlast ht he h
  · exact (hlast ht' he' h).symm

/-- With two bindings or more, the initial value that is evaluated second is evaluated where the
first one is not bound. -/
theorem not_sequential (h : LetCall s e a exprs bs es) (hbs : 2 ≤ bs.length)
    (hk : es.length + bs.length + 1 < k) (hroom : 7 * bs.length + 5 ≤ s.pool.m.fbi) :
    ¬ Sequential c k s a exprs (5 * bs.length) bs [] s := by
  intro hseq
  obtain ⟨vars, -, hvars⟩ := h.call
  have hvalid : ∀ x ∈ (bs.map Prod.snd).reverse, s.pool.Valid x := fun x hx => by
    obtain ⟨w, hw, rfl⟩ := List.mem_map.1 (List.mem_reverse.1 hx)
    exact hvars.valid h.good w hw
  obtain ⟨x, x', xs, hrev⟩ : ∃ x x' xs, (bs.map Prod.snd).reverse = x :: x' :: xs :=
    exists_cons_cons (by simpa using hbs)
  obtain ⟨w, w', todo, rfl⟩ := exists_cons_cons hbs
  rw [hrev] at hvalid
  obtain ⟨t, b, f, l, l', body, argl, param, stk, hsteps, hasking⟩ :=
    asks_last (c := c) h hrev hk (by omega)
  obtain ⟨t', env, hsteps', hctl', henv, hnext⟩ := hseq
  have hroomt := hasking.room
  obtain rfl := eq_of_asks hsteps hsteps' hasking.ctl (hvalid x (by simp)) hctl'
    (hvars.valid h.good w (by simp))
  cases henv
  have hanswer : Answers s t (5 * (w :: w' :: todo).length) t.pool :=
    ⟨hasking.wf, fun b hb _ => ⟨hb.2, rfl⟩, by omega⟩
  -- the value of the last one does not matter for where the one before it is evaluated
  have hbound : ∀ v, Alist t.pool (fun _ => True) a a [(w.1, v)] := fun v => by
    have hinits := (hasking.kept (y := v) hanswer).inits
    rw [hrev] at hinits
    cases hinits with
    | @cons c₁ _ d _ hc hoc hrest =>
        cases hrest with
        | @cons c₂ _ d' _ hc' hoc' _ =>
            obtain ⟨t₁, h₁, -, hctl₁, hm₁, hblk₁⟩ :=
              quiet_answer (c := c) (k := k) (s := t.answer v t.pool) rfl hasking.frames hoc
            have hoc₁ : t₁.pool.obj (.blk c₂) = .pair (.at x') (.at d') :=
              (congrArg (fun g => (g c₂).obj) hblk₁).trans hoc'
            obtain ⟨t₂, h₂, -, hctl₂, -, hblk₂, -⟩ := quiet_evlis hctl₁ hoc₁
            obtain ⟨t₃, env, hsteps₃, hctl₃, henv, -⟩ := hnext v t.pool hanswer
            obtain rfl := eq_of_asks (.head h₁ (.single h₂)) hsteps₃ hctl₂
              (hvalid x' (by simp)) hctl₃ (hvars.valid h.good w' (by simp))
            obtain rfl : a = env := (Ctl.eval.inj (hctl₂.symm.trans hctl₃)).2
            exact henv.frame (fun _ h => h) fun b _ => by
              rw [hblk₂, hblk₁]
              rfl
  have heq := (hbound ylt).unique (hbound ylnil) rfl
  cases heq

end Many

/-- `f_let` does what `let*` does if and only if there is at most one binding. -/
theorem sequential_iff {c : Etcxt n} {k : ℕ} {s : State n} {e a exprs : Ref n}
    {bs : List (Ref n × Ref n)} {es : List (Ref n)} (h : LetCall s e a exprs bs es)
    (hk : es.length + bs.length + 1 < k) (hroom : 7 * bs.length + 5 ≤ s.pool.m.fbi) :
    Sequential c k s a exprs (5 * bs.length) bs [] s ↔ bs.length ≤ 1 := by
  constructor
  · intro hseq
    by_contra hbs
    exact not_sequential h (by omega) hk hroom hseq
  · intro hbs
    match bs with
    | [] => exact sequential_nil h (by simpa using hk) (by simp at hroom; omega) _
    | [w] => exact sequential_single h (by simpa using hk) (by simpa using hroom)
    | w :: w' :: bs => simp at hbs

/-- A pool with the arguments `(((x y) (z x)) z)`: the second initial value is the first
variable. -/
def letPairPool : Pool 36 :=
  poolOf 36
    [.pair (.at (.blk 1)) (.at (.blk 10)), .pair (.at (.blk 2)) (.at (.blk 6)),
      .pair (.at (.blk 3)) (.at (.blk 4)), .sym (cstr "x"), .pair (.at (.blk 5)) (.at ylnil),
      .sym (cstr "y"), .pair (.at (.blk 7)) (.at ylnil), .pair (.at (.blk 8)) (.at (.blk 9)),
      .sym (cstr "z"), .pair (.at (.blk 3)) (.at ylnil), .pair (.at (.blk 8)) (.at ylnil)]
    (symtab [])

theorem letCall_pair :
    LetCall { State.init letPairPool with ctl := .call .fLet (.blk 0) ylnil } (.blk 0) ylnil
      (.blk 10) [(.blk 3, .blk 5), (.blk 8, .blk 3)] [.blk 8] := by
  have hgood : letPairPool.Good :=
    poolOf_good (by decide) (by simp [plain, below, ylnil]) (by simp)
  have hused : ∀ b : Fin 36, b.val < 11 → letPairPool.m.Used b := fun b hb =>
    (poolOf_used (n := 36) (by decide) b (symtab [])).2 hb
  have hentry : Entry letPairPool letPairPool.m.Used (.blk 2) (.blk 3, .blk 5) :=
    ⟨2, 4, ylnil, rfl, hused 2 (by decide), hused 4 (by decide), rfl, rfl⟩
  have hentry' : Entry letPairPool letPairPool.m.Used (.blk 7) (.blk 8, .blk 3) :=
    ⟨7, 9, ylnil, rfl, hused 7 (by decide), hused 9 (by decide), rfl, rfl⟩
  exact ⟨hgood, hused 0 (by decide), trivial, rfl,
    ⟨.blk 1, rfl, .cons (hused 1 (by decide)) rfl hentry
      (.cons (hused 6 (by decide)) rfl hentry' .nil)⟩,
    .cons (hused 10 (by decide)) rfl .nil, List.cons_ne_nil _ _, by decide⟩

/-- With two bindings, neither side holds. -/
theorem sequential_iff_two :
    let s : State 36 := { State.init letPairPool with ctl := .call .fLet (.blk 0) ylnil }
    let bs : List (Ref 36 × Ref 36) := [(.blk 3, .blk 5), (.blk 8, .blk 3)]
    Sequential (plainCxt 36 false) 5 s ylnil (.blk 10) (5 * bs.length) bs [] s ↔ bs.length ≤ 1 :=
  sequential_iff letCall_pair (by decide) (by decide)

/-- The second initial value is not evaluated where the first variable is bound. -/
theorem not_sequential_pair :
    ¬ ∀ (k : ℕ) (s : State 36) (e a exprs : Ref 36) (bs : List (Ref 36 × Ref 36))
      (es : List (Ref 36)), LetCall s e a exprs bs es → es.length + bs.length + 1 < k →
      7 * bs.length + 5 ≤ s.pool.m.fbi →
      Sequential (plainCxt 36 false) k s a exprs (5 * bs.length) bs [] s := by
  intro h
  exact not_sequential letCall_pair (by decide) (by decide) (by decide)
    (h 5 _ _ _ _ _ _ letCall_pair (by decide) (by decide))

end Eval

end Ylisp
