import Ylisp.Parser.Shift
import Ylisp.Parser.Trailing

/-!
# Reading one text behind another

When a text ends well, with the line feed behind it, the automaton is as it was in
the beginning, but for the heap, the buffer and the line number. What it reads then is
read in the same way by an automaton that starts anew: `Same` relates the two, round
for round (`twins_step`), and `ylinterpAutomata_append` is the result for the texts.
-/

namespace Ylisp

namespace Parser

def Fsas.isText : Fsas → Bool
  | symbol | dquote | escape => true
  | _ => false

def SameEvals (E E' : List (Heap × Ref)) (fsa fsa' : Fsa) : Prop :=
  ∃ l l', fsa.evals = E ++ l ∧ fsa'.evals = E' ++ l' ∧ List.Forall₂ SameEval l l'

structure Same (E E' : List (Heap × Ref)) (st : Fsas) (fsa fsa' : Fsa) : Prop where
  shift : ∃ k k' n, FsaShift k k' n fsa fsa'
  pb : st.isText = true → fsa'.pb = fsa.pb
  evals : SameEvals E E' fsa fsa'

structure Twins (E E' : List (Heap × Ref)) (a a' : Auto) : Prop where
  st : a'.st = a.st
  p : a'.p = a.p
  fsa : Same E E' a.st a.fsa a'.fsa

def SameEnd (E E' : List (Heap × Ref)) : End → End → Prop
  | .ret e fsa, .ret e' fsa' => e' = e ∧ SameEvals E E' fsa fsa'
  | _, _ => True

section Evals

variable {E E' : List (Heap × Ref)} {fsa fsa' g g' : Fsa}

theorem SameEvals.congr (h : SameEvals E E' fsa fsa') (hg : g.evals = fsa.evals)
    (hg' : g'.evals = fsa'.evals) : SameEvals E E' g g' := by
  obtain ⟨l, l', hl, hl', hsame⟩ := h
  exact ⟨l, l', hg.trans hl, hg'.trans hl', hsame⟩

theorem SameEvals.concat (h : SameEvals E E' fsa fsa') {x x' : Heap × Ref}
    (hg : g.evals = fsa.evals ++ [x]) (hg' : g'.evals = fsa'.evals ++ [x'])
    (hx : SameEval x x') : SameEvals E E' g g' := by
  obtain ⟨l, l', hl, hl', hsame⟩ := h
  refine ⟨l ++ [x], l' ++ [x'], ?_, ?_, List.rel_append hsame (.cons hx .nil)⟩
  · rw [hg, hl, List.append_assoc]
  · rw [hg', hl', List.append_assoc]

theorem fsaShift_fresh (hpe : fsa.pe = .sentinel) (hpe' : fsa'.pe = .sentinel)
    (hps : fsa.pestk = []) (hps' : fsa'.pestk = []) (hstk : fsa'.ststk = fsa.ststk) :
    FsaShift fsa.heap.next fsa'.heap.next 0 fsa fsa' := by
  refine ⟨⟨rfl, rfl, nofun⟩, ?_, Or.inl ⟨hpe, hpe'⟩, hstk, by rw [hps, hps']; exact .nil⟩
  rintro (hc | hc)
  · exact absurd hpe hc
  · exact absurd hps hc

end Evals

section Push

variable {k k' n : ℕ} {fsa fsa' : Fsa} {st nst : Fsas} {E E' : List (Heap × Ref)}

theorem pushState_shift (hf : FsaShift k k' n fsa fsa') (hst : nst ≠ .init) :
    ∃ m, FsaShift k k' m (pushState nst fsa) (pushState nst fsa') := by
  have hstk : FsaShift k k' n { fsa with ststk := nst :: fsa.ststk }
      { fsa' with ststk := nst :: fsa'.ststk } :=
    ⟨hf.heap, hf.sentinel, hf.pe, congrArg (List.cons nst) hf.ststk, hf.pestk⟩
  cases nst with
  | init => exact absurd rfl hst
  | list => exact ⟨n + 2, hstk.openList (Or.inl rfl)⟩
  | squote => exact ⟨n + 2, hstk.openList (Or.inr rfl)⟩
  | symbol | dquote => exact ⟨n, hstk.heap, hstk.sentinel, hstk.pe, hstk.ststk, hstk.pestk⟩
  | comment | escape => exact ⟨n, hstk⟩

theorem pushState_pb (fsa : Fsa) (nst : Fsas) : (nst = .escape → (pushState nst fsa).pb = fsa.pb) ∧
    (nst = .symbol ∨ nst = .dquote → (pushState nst fsa).pb = []) := by
  cases nst <;> simp [pushState, enter, fsasDquoteEnter, fsasSymbolEnter]

theorem pushState_same (h : Same E E' st fsa fsa') (hst : nst ≠ .init)
    (hesc : nst = .escape → st.isText = true) :
    Same E E' nst (pushState nst fsa) (pushState nst fsa') := by
  obtain ⟨k, k', n, hf⟩ := h.shift
  obtain ⟨m, hf'⟩ := pushState_shift hf hst
  refine ⟨⟨k, k', m, hf'⟩, fun htext => ?_,
    h.evals.congr (pushState_evals fsa nst) (pushState_evals fsa' nst)⟩
  obtain ⟨hkeep, hclear⟩ := pushState_pb fsa nst
  obtain ⟨hkeep', hclear'⟩ := pushState_pb fsa' nst
  by_cases hnst : nst = .escape
  · rw [hkeep hnst, hkeep' hnst]
    exact h.pb (hesc hnst)
  · have hsym : nst = .symbol ∨ nst = .dquote := by
      cases nst <;> simp_all [Fsas.isText]
    rw [hclear hsym, hclear' hsym]

theorem exit_shift (hf : FsaShift k k' n fsa fsa') (hst : st ≠ .init)
    (hpb : st.isText = true → fsa'.pb = fsa.pb) :
    ∃ m, FsaShift k k' m (exit st fsa) (exit st fsa') := by
  cases st with
  | init => exact absurd rfl hst
  | list => exact ⟨n, hf.listExit⟩
  | squote => exact ⟨n, hf.squoteExit⟩
  | symbol | dquote => exact ⟨n + 2, hf.symbolExit (hpb rfl)⟩
  | comment | escape => exact ⟨n, hf⟩

end Push

section Transition

variable {fsa fsa' : Fsa} {st : Fsas} {E E' : List (Heap × Ref)}

/-- What is below the state on top: text below an escape only, and nothing open below the state that
is left for `init`. -/
structure Below (st : Fsas) (fsa : Fsa) : Prop where
  top : st = fsa.ststk.headD .init
  text : (fsa.ststk.tail.headD .init).isText = true → st = .escape
  pestk : st ≠ .init → fsa.ststk.tail.headD .init = .init → (exit st fsa).pestk = []

/-- Leaving a state, before the state below it is come back to. -/
theorem exit_same (h : Same E E' st fsa fsa') (hbelow : Below st fsa) (hst : st ≠ .init) :
    Same E E' (fsa.ststk.tail.headD .init)
      { exit st fsa with ststk := (exit st fsa).ststk.tail }
      { exit st fsa' with ststk := (exit st fsa').ststk.tail } := by
  obtain ⟨k, k', n, hf⟩ := h.shift
  obtain ⟨m, hf'⟩ := exit_shift hf hst h.pb
  refine ⟨⟨k, k', m, hf'.heap, hf'.sentinel, hf'.pe, congrArg List.tail hf'.ststk, hf'.pestk⟩,
    fun htext => ?_, h.evals.congr (exit_evals fsa st) (exit_evals fsa' st)⟩
  obtain rfl := hbelow.text htext
  exact h.pb rfl

/-- Coming back to a state: if nothing is open and there is an expression, both evaluate it, and
start anew. -/
theorem comeBack_same (eval eval' : Heap → Ref → Except Ylerr Heap)
    (h : Same E E' st fsa fsa') (hps : st = .init → fsa.pestk = []) :
    (∃ g g', comeBack eval st fsa = .ok g ∧ comeBack eval' st fsa' = .ok g' ∧ Same E E' st g g') ∨
      (∃ e, comeBack eval st fsa = .error e) ∨ ∃ e, comeBack eval' st fsa' = .error e := by
  by_cases hst : st = .init
  · subst hst
    obtain ⟨k, k', n, hf⟩ := h.shift
    have hps : fsa.pestk = [] := hps rfl
    have hps' : fsa'.pestk = [] := List.forall₂_nil_left_iff.1 (hps ▸ hf.pestk)
    rcases hf.pe with ⟨hpe, hpe'⟩ | ⟨b, b', hpe, hpe', -⟩
    · refine Or.inl ⟨_, _, if_neg (by simp [hpe]), if_neg (by simp [hpe']), ?_⟩
      exact ⟨⟨_, _, 0, fsaShift_fresh rfl rfl hps hps' hf.ststk⟩, nofun, h.evals⟩
    · have hne : fsa.pe ≠ .sentinel := by simp [hpe]
      have hne' : fsa'.pe ≠ .sentinel := by simp [hpe']
      simp only [comeBack, fsasInitComeBack, if_pos hne, if_pos hne']
      cases heval : eval fsa.heap fsa.cadrSentinel with
      | error e => exact Or.inr (Or.inl ⟨e, rfl⟩)
      | ok g =>
          cases heval' : eval' fsa'.heap fsa'.cadrSentinel with
          | error e => exact Or.inr (Or.inr ⟨e, rfl⟩)
          | ok g' =>
              refine Or.inl ⟨_, _, rfl, rfl, ?_⟩
              exact ⟨⟨_, _, 0, fsaShift_fresh rfl rfl hps hps' hf.ststk⟩, nofun,
                h.evals.concat rfl rfl (hf.sameEval hne)⟩
  · have hback : ∀ (eval : Heap → Ref → Except Ylerr Heap) (f : Fsa),
        comeBack eval st f = .ok f := by
      intro eval f
      cases st <;> first | rfl | exact absurd rfl hst
    exact Or.inl ⟨fsa, fsa', hback eval fsa, hback eval' fsa', h⟩

theorem transition_same (eval eval' : Heap → Ref → Except Ylerr Heap) (p : List UInt8)
    (h : Same E E' st fsa fsa') (hbelow : Below st fsa) {c : UInt8} {handled : Bool} {next : Next}
    (hans : Answered st c handled next) :
    Sum.LiftRel (Twins E E') (SameEnd E E') (transition eval st p fsa next)
        (transition eval' st p fsa' next) ∨
      (∃ r, transition eval st p fsa next = .inr r ∧ ∀ r', SameEnd E E' r r') ∨
        ∃ r', transition eval' st p fsa' next = .inr r' ∧ ∀ r, SameEnd E E' r r' := by
  obtain ⟨k, k', n, hf⟩ := h.shift
  cases next with
  | nochg => exact Or.inl (.inl ⟨rfl, rfl, h⟩)
  | exit =>
      have hst := hans.exit rfl
      have hsame := exit_same h hbelow hst
      have htail : (exit st fsa).ststk.tail = fsa.ststk.tail := by rw [exit_ststk]
      have htail' : (exit st fsa').ststk.tail = fsa.ststk.tail := by
        rw [exit_ststk, hf.ststk]
      have hback := comeBack_same eval eval' hsame (hbelow.pestk hst)
      simp only [transition]
      rw [htail, htail'] at hback ⊢
      rcases hback with ⟨g, g', hg, hg', hsame'⟩ | ⟨e, he⟩ | ⟨e, he⟩
      · rw [hg, hg']
        exact Or.inl (.inl ⟨rfl, rfl, hsame'⟩)
      · rw [he]
        exact Or.inr (Or.inl ⟨_, rfl, fun r' => trivial⟩)
      · rw [he]
        exact Or.inr (Or.inr ⟨_, rfl, fun r => by cases r <;> trivial⟩)
  | enter nst =>
      by_cases hesc : nst = .escape
      · subst hesc
        simp only [transition]
        rw [hf.ststk, ← hbelow.top]
        refine Or.inl (.inl ⟨rfl, rfl, ?_⟩)
        have hsym : Same E E' .symbol (pushState .symbol fsa) (pushState .symbol fsa') :=
          pushState_same h (by simp) (by simp)
        cases st with
        | symbol | dquote => exact pushState_same h (by simp) fun _ => rfl
        | init | list | squote | comment | escape =>
            exact pushState_same hsym (by simp) fun _ => rfl
      · have hsame := pushState_same h (hans.enter nst rfl) fun hc => absurd hc hesc
        rw [transition_enter eval hesc, transition_enter eval' hesc]
        exact Or.inl (.inl ⟨rfl, rfl, hsame⟩)

end Transition

section Step

variable {eval eval' : Heap → Ref → Except Ylerr Heap} {fsa fsa' : Fsa} {st : Fsas}
  {E E' : List (Heap × Ref)} {a a' : Auto}

theorem Same.setPb (h : Same E E' st fsa fsa') (bs : List UInt8) :
    Same E E' st { fsa with pb := bs } { fsa' with pb := bs } := by
  obtain ⟨⟨k, k', n, hf⟩, -, hevals⟩ := h
  exact ⟨⟨k, k', n, hf.heap, hf.sentinel, hf.pe, hf.ststk, hf.pestk⟩, fun _ => rfl, hevals⟩

theorem Same.countLine (h : Same E E' st fsa fsa') (c : UInt8) :
    Same E E' st (fsa.countLine c) (fsa'.countLine c) := by
  obtain ⟨⟨k, k', n, hf⟩, hpb, hevals⟩ := h
  exact ⟨⟨k, k', n, hf.heap, hf.sentinel, hf.pe, hf.ststk, hf.pestk⟩, hpb, hevals⟩

inductive SameAnswer (E E' : List (Heap × Ref)) (st : Fsas) :
    Except Ylerr (Bool × Next × Fsa) → Except Ylerr (Bool × Next × Fsa) → Prop
  | error (e : Ylerr) : SameAnswer E E' st (.error e) (.error e)
  | ok {g g' : Fsa} (handled : Bool) (next : Next) (h : Same E E' st g g') :
      SameAnswer E E' st (.ok (handled, next, g)) (.ok (handled, next, g'))

theorem SameAnswer.of_addSymchar (h : Same E E' st fsa fsa') (hst : st.isText = true) (c : UInt8)
    (handled : Bool) (next : Next) :
    SameAnswer E E' st ((fsa.addSymchar c).map fun g => (handled, next, g))
      ((fsa'.addSymchar c).map fun g => (handled, next, g)) := by
  rw [Fsa.addSymchar, Fsa.addSymchar, h.pb hst]
  by_cases hlt : fsa.pb.length < maxSingleElemStrLen - 1
  · rw [if_pos hlt, if_pos hlt]
    exact .ok handled next (h.setPb (fsa.pb ++ [c]))
  · rw [if_neg hlt, if_neg hlt]
    exact .error .internal

theorem SameAnswer.of_answer (h : Same E E' st fsa fsa') (r : Answer) :
    SameAnswer E E' st (r.map fun x => (x.1, x.2, fsa)) (r.map fun x => (x.1, x.2, fsa')) := by
  cases r with
  | error e => exact .error e
  | ok x => exact .ok x.1 x.2 h

theorem SameAnswer.of_addIfNochg (h : Same E E' st fsa fsa') (hst : st.isText = true) (c : UInt8)
    (r : Answer) : SameAnswer E E' st (addIfNochg fsa c r) (addIfNochg fsa' c r) := by
  cases r with
  | error e => exact .error e
  | ok x =>
      obtain ⟨handled, next⟩ := x
      simp only [addIfNochg]
      split_ifs
      · exact .of_addSymchar h hst c handled next
      · exact .ok handled next h

theorem nextChar_same (h : Same E E' st fsa fsa') (c : UInt8) :
    SameAnswer E E' st (nextChar fsa c st) (nextChar fsa' c st) := by
  cases st with
  | init | list | squote => exact .of_answer h _
  | comment => exact .of_answer h (fsasCommentNextChar c)
  | symbol | dquote => exact .of_addIfNochg h rfl c _
  | escape =>
      simp only [nextChar, fsasEscapeNextChar]
      cases escaped c with
      | none => exact .error _
      | some ch => exact .of_addSymchar h rfl ch true .exit

theorem Open.head {fr : List Fsas} (h : Open fr) :
    ((fr ++ [Fsas.init]).headD .init).isText = false ∧
      ((fr ++ [Fsas.init]).headD .init = .init → fr = []) := by
  cases fr with
  | nil => exact ⟨rfl, fun _ => rfl⟩
  | cons st fr =>
      have hst := h st List.mem_cons_self
      cases st with
      | list | squote => exact ⟨rfl, fun hc => by simp at hc⟩
      | _ => cases hst

/-- The open lists and quotes `fr` are below the state on top. -/
theorem Open.below {fr : List Fsas} (h : Open fr) (htop : st = fsa.ststk.headD .init)
    (htail : fsa.ststk.tail = fr ++ [.init]) (hps : fr = [] → (exit st fsa).pestk = []) :
    Below st fsa := by
  obtain ⟨htext, hinit⟩ := h.head
  refine ⟨htop, fun hc => ?_, fun _ hc => ?_⟩
  · rw [htail, htext] at hc
    cases hc
  · rw [htail] at hc
    exact hps (hinit hc)

/-- The states below the one on top, in an automaton that follows the outline. -/
theorem Sim.below {m : Mode} {d : ℕ} {fr : List Fsas} (h : Sim a m d fr)
    (hstk : fsa.ststk = a.fsa.ststk) (hps : fsa.pestk = a.fsa.pestk) : Below a.st fsa := by
  have htop : a.st = fsa.ststk.headD .init := by rw [hstk, ← h.st]
  have hstk' : fsa.ststk = m.states ++ fr ++ [.init] := hstk.trans h.ststk
  have hlen : fsa.pestk.length = fr.length := by rw [hps, h.pestk]
  cases m with
  | base =>
      cases fr with
      | nil =>
          rw [hstk'] at htop
          refine ⟨by rw [htop, hstk'], ?_, fun hne => absurd htop hne⟩
          rw [hstk']
          nofun
      | cons st fr =>
          have hst : a.st = st := by rw [htop, hstk']; rfl
          refine h.isOpen.tail.below htop (by rw [hstk']; rfl) ?_
          rintro rfl
          rw [exit_pestk, hst, if_pos (h.isOpen st List.mem_cons_self)]
          exact List.eq_nil_of_length_eq_zero (by rw [List.length_tail, hlen]; rfl)
  | comment | sym k | str k =>
      refine h.isOpen.below htop (by rw [hstk']; rfl) ?_
      rintro rfl
      rw [exit_pestk, htop, hstk']
      exact List.eq_nil_of_length_eq_zero hlen
  | escSym k | escStr k =>
      refine ⟨htop, fun _ => ?_, fun _ hc => ?_⟩
      · rw [htop, hstk']
        rfl
      · rw [hstk'] at hc
        cases hc

theorem finish_same (h : Same E E' st fsa fsa') :
    SameEnd E E' (finish fsa) (finish fsa') := by
  obtain ⟨k, k', n, hf⟩ := h.shift
  rw [finish, finish, hf.ststk]
  cases fsa.ststk with
  | nil => exact ⟨rfl, h.evals⟩
  | cons st' sts =>
      cases st' with
      | init =>
          have hlen := hf.pestk.length_eq.symm
          exact ⟨congrArg (fun k => if k = 0 then Ylerr.ok else .syntaxUnknown) hlen, h.evals⟩
      | list | squote | symbol | dquote | comment | escape => exact ⟨rfl, h.evals⟩

/-- A round of the two automata, unless an evaluation fails. -/
theorem twins_step (eval eval' : Heap → Ref → Except Ylerr Heap) (h : Twins E E' a a')
    {m : Mode} {d : ℕ} {fr : List Fsas} (hsim : Sim a m d fr) :
    Sum.LiftRel (Twins E E') (SameEnd E E') (step eval a) (step eval' a') ∨
      (∃ r, step eval a = .inr r ∧ ∀ r', SameEnd E E' r r') ∨
        ∃ r', step eval' a' = .inr r' ∧ ∀ r, SameEnd E E' r r' := by
  obtain ⟨hst, hp, hsame⟩ := h
  cases hpa : a.p with
  | nil =>
      rw [step, step, hp, hpa]
      exact Or.inl (.inr (finish_same hsame))
  | cons c p =>
      have hpa' : a'.p = c :: p := hp.trans hpa
      by_cases hc : c = 0
      · rw [step, step, hpa, hpa']
        simp only [if_pos hc]
        exact Or.inl (.inr (finish_same hsame))
      · have hans := nextChar_same hsame c
        generalize hr : nextChar a.fsa c a.st = r at hans
        generalize hr' : nextChar a'.fsa c a.st = r' at hans
        rw [← hst] at hr'
        cases hans with
        | error e =>
            rw [step_of_error eval hpa hc hr, step_of_error eval' hpa' hc hr']
            exact Or.inl (.inr ⟨rfl, hsame.evals⟩)
        | @ok g g' handled next hg =>
            obtain ⟨⟨pb, hpb⟩, hanswer⟩ := nextChar_ok hr
            have hbelow : Below a.st g := hsim.below (by rw [hpb]) (by rw [hpb])
            cases handled with
            | true =>
                rw [step_of_handled eval hpa hc hr, step_of_handled eval' hpa' hc hr', hst]
                have hbelow' : Below a.st (g.countLine c) :=
                  hsim.below (by rw [hpb]; rfl) (by rw [hpb]; rfl)
                exact transition_same eval eval' p (hg.countLine c) hbelow' hanswer
            | false =>
                rw [step_of_unhandled eval hpa hc hr, step_of_unhandled eval' hpa' hc hr', hst, hp]
                exact transition_same eval eval' a.p hg hbelow hanswer

end Step

section Append

variable {eval eval' : Heap → Ref → Except Ylerr Heap} {a a' : Auto} {heap heap' : Heap}
  {E E' : List (Heap × Ref)} {s s' : List UInt8} {fsa fsa' : Fsa}

/-- Two automata at the same place of the same text end in the same way. -/
theorem twins_ends (h : Twins E E' a a') (hout : ∃ x, Outlines a x) {r r' : End}
    (hr : Machine.Ends (step eval) a r) (hr' : Machine.Ends (step eval') a' r') :
    SameEnd E E' r r' := by
  refine Machine.Ends.related (fun a a' => Twins E E' a a' ∧ ∃ x, Outlines a x) (SameEnd E E') ?_
    ⟨h, hout⟩ hr hr'
  rintro a a' ⟨h, x, hout⟩
  obtain ⟨d, hsim⟩ := hout.sim
  rcases twins_step eval eval' h hsim with hlift | hfail
  · refine Or.inl ?_
    generalize ha : step eval a = r at hlift
    generalize step eval' a' = r' at hlift
    cases hlift with
    | inl htwins =>
        obtain ⟨x', -, hout'⟩ := outlineStep_of_inl hout ha
        exact .inl ⟨htwins, x', hout'⟩
    | inr hend => exact .inr hend
  · exact Or.inr hfail

/-- A text that ends well leaves the automaton between tokens, with nothing open, whatever
follows it. -/
theorem reaches_base (eval : Heap → Ref → Except Ylerr Heap) : ∀ (k : ℕ) {a : Auto}
    {x : Outline × List UInt8}, Machine.run (step eval) k a = some (.ret .ok fsa) →
      Outlines a x → 0 ∉ x.2 → ∃ a', Outlines a' ((.base, []), []) ∧ a'.fsa.evals = fsa.evals ∧
        ∀ t, Machine.Reaches (step eval) (a.append t) (a'.append t)
  | 0, _, _, h, _, _ => nomatch h
  | k + 1, a, (q, []), h, hout, _ => by
      obtain ⟨e, g, he, -, hq⟩ := ret_of_outlineStep eval hout rfl
      obtain ⟨e', g', hfinish, hevals⟩ := finish_evals a.fsa
      have hp : a.p = [] := hout.p
      rw [Machine.run, step, hp, hfinish] at h
      rw [step, hp, hfinish] at he
      cases he
      cases h
      have hbase : q = (.base, []) := by
        by_contra hne
        rw [if_neg hne] at hq
        cases hq
      exact ⟨a, hbase ▸ hout, hevals.symm, fun t => Relation.ReflTransGen.refl⟩
  | k + 1, a, (q, c :: p), h, hout, h0 => by
      have hc : c ≠ 0 := fun hc => h0 (hc ▸ List.mem_cons_self)
      rw [Machine.run] at h
      cases ha : step eval a with
      | inl a₁ =>
          rw [ha] at h
          obtain ⟨x', hx, hout'⟩ := outlineStep_of_inl hout ha
          obtain ⟨a', hbase, hevals, hreach⟩ :=
            reaches_base eval k h hout' (not_mem_of_outlineStep hx h0)
          refine ⟨a', hbase, hevals, fun t => Relation.ReflTransGen.head ?_ (hreach t)⟩
          rw [step_append hout.p, ha]
          rfl
      | inr r =>
          rw [ha] at h
          obtain rfl := Option.some.inj h
          cases hx : outlineStep (q, c :: p) with
          | inl x' =>
              rcases lands_of_outlineStep eval hout hx with ⟨a', ha', -⟩ | ⟨e, he⟩
              · rw [ha] at ha'
                cases ha'
              · rw [ha] at he
                cases he
          | inr r =>
              obtain ⟨e, g, he, hr⟩ := ret_of_outlineStep eval hout hx
              obtain rfl := outlineStep_inr hc hx
              rw [ha] at he
              cases he
              exact absurd rfl hr.1

/-- An automaton that is between tokens with nothing open reads on like a new one. -/
theorem twins_startOn (heap : Heap) {t : List UInt8} (h : Outlines a ((.base, []), t)) :
    Twins a.fsa.evals [] a (startOn heap t) := by
  obtain ⟨d, hsim⟩ := h.sim
  obtain ⟨hps, hpe⟩ := h.spined
  have hstk : a.fsa.ststk = [.init] := hsim.ststk
  have hst : a.st = .init := by rw [hsim.st, hstk]; rfl
  refine ⟨hst.symm, h.p.symm, ⟨_, _, 0, fsaShift_fresh hpe rfl hps rfl hstk.symm⟩, ?_, ?_⟩
  · rw [hst]
    nofun
  · exact ⟨[], [], (List.append_nil _).symm, rfl, .nil⟩

/-- Reading is compositional: behind a text that ends well, the second text hands the same
expressions to `yleval`, and ends with the same status, as alone, as long as evaluations do not
fail. -/
theorem ylinterpAutomata_append {e : Ylerr} (h0 : 0 ∉ s)
    (hs : ylinterpAutomata eval heap s = some (.ret .ok fsa))
    (hs' : ylinterpAutomata eval' heap' s' = some (.ret e fsa'))
    (heval : ∀ e', ylinterpAutomata eval heap (s ++ '\n'.toUInt8 :: s') ≠ some (.eval e')) :
    ∃ g l, ylinterpAutomata eval heap (s ++ '\n'.toUInt8 :: s') = some (.ret e g) ∧
      g.evals = fsa.evals ++ l ∧ List.Forall₂ SameEval l fsa'.evals := by
  have hnul : 0 ∉ s ++ ['\n'.toUInt8] := by
    simp only [List.mem_append, h0, List.mem_singleton, false_or]
    decide
  obtain ⟨a, hout, hevals, hreach⟩ :=
    reaches_base eval _ hs (outlines_startOn heap (s ++ ['\n'.toUInt8])) hnul
  have hstart : start heap (s ++ '\n'.toUInt8 :: s') =
      (start heap s).append (s' ++ ['\n'.toUInt8]) := by
    simp [start, Auto.append]
  have hout' := hout.append (s' ++ ['\n'.toUInt8])
  obtain ⟨r, hr⟩ := ylinterpAutomata_ends eval heap (s ++ '\n'.toUInt8 :: s')
  have hends := ylinterpAutomata_eq_some.1 hr
  rw [hstart, Machine.Reaches.ends_iff (hreach _)] at hends
  have hsame := twins_ends (twins_startOn heap' hout') ⟨_, hout'⟩ hends
    (ylinterpAutomata_eq_some.1 hs')
  cases r with
  | eval e' => exact absurd hr (heval e')
  | ret e' g =>
      obtain ⟨rfl, l, l', hl, hl', hforall⟩ := hsame
      rw [List.nil_append] at hl'
      refine ⟨g, l, hr, ?_, hl' ▸ hforall⟩
      rw [hl, ← hevals]
      rfl

/-- A comment that the first text does not end, and a list that the second one does not. -/
theorem ylinterpAutomata_append_sample :
    ∃ fsa fsa' g l,
      let run := fun s : String => ylinterpAutomata (fun h _ => .ok h) ⟨0, fun _ => .sym []⟩
        (s.toList.map Char.toUInt8)
      run "a ;b" = some (.ret .ok fsa) ∧ run "'c (d" = some (.ret .syntaxUnknown fsa') ∧
        run "a ;b\n'c (d" = some (.ret .syntaxUnknown g) ∧ g.evals = fsa.evals ++ l ∧
        List.Forall₂ SameEval l fsa'.evals := by
  have hs : ylinterpAutomata (fun h _ => .ok h) ⟨0, fun _ => .sym []⟩
      ("a ;b".toList.map Char.toUInt8) = some (.ret .ok _) := rfl
  have hs' : ylinterpAutomata (fun h _ => .ok h) ⟨0, fun _ => .sym []⟩
      ("'c (d".toList.map Char.toUInt8) = some (.ret .syntaxUnknown _) := rfl
  obtain ⟨g, l, hg, hl, hsame⟩ := ylinterpAutomata_append (by decide) hs hs' fun e' h => nomatch h
  exact ⟨_, _, g, l, rfl, rfl, hg, hl, hsame⟩

end Append

end Parser

end Ylisp
