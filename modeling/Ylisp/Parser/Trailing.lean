import Ylisp.Parser.Rounds

/-!
# A NUL behind the text

A script file is read with a NUL behind it, and the NUL counts as part of the
stream: the automaton stops there, and does not add its line feed.
`sameResult_iff` says for which texts this makes no difference.
-/

namespace Ylisp

namespace Parser

/-- The status that the thread of the automaton ends with. -/
def End.status : End → Ylerr
  | .ret e _ => e
  | .eval e => e

/-- What is handed to `yleval` when the state on top is left. -/
def handsBack (st : Fsas) (fsa : Fsa) : Option (Heap × Ref) :=
  let fsa := exit st fsa
  if fsa.ststk.tail.headD .init = .init ∧ fsa.pe ≠ .sentinel then some (fsa.heap, fsa.cadrSentinel)
  else none

/-- What a round hands to `yleval`. -/
def Auto.hands (a : Auto) : Option (Heap × Ref) :=
  match a.p with
  | [] => none
  | c :: _ =>
      if c = 0 then none
      else
        match nextChar a.fsa c a.st with
        | .ok (true, .exit, fsa) => handsBack a.st (fsa.countLine c)
        | .ok (false, .exit, fsa) => handsBack a.st fsa
        | _ => none

/-- The automaton, with the status and the sequence of expressions handed to `yleval` as its
result, the one included in whose evaluation it may have ended. -/
def observed (eval : Heap → Ref → Except Ylerr Heap) (a : Auto) :
    Auto ⊕ Ylerr × List (Heap × Ref) :=
  match step eval a with
  | .inl a' => .inl a'
  | .inr e => .inr (e.status, a.fsa.evals ++ a.hands.toList)

/-- The text gives the same status and the same expressions with a NUL behind it. -/
def SameResult (eval : Heap → Ref → Except Ylerr Heap) (heap : Heap) (s : List UInt8) : Prop :=
  ∃ r, Machine.Ends (observed eval) (start heap s) r ∧
    Machine.Ends (observed eval) (start heap (s ++ [0])) r

section Hands

variable {eval : Heap → Ref → Except Ylerr Heap} {a a' : Auto}

/-- Leaving a state either evaluates what `handsBack` says, or it evaluates nothing. -/
theorem transition_exit_cases (eval : Heap → Ref → Except Ylerr Heap) (st : Fsas)
    (p : List UInt8) (fsa : Fsa) :
    (∃ a', transition eval st p fsa .exit = .inl a' ∧
        a'.fsa.evals = fsa.evals ++ (handsBack st fsa).toList) ∨
      (handsBack st fsa).isSome ∧ ∃ e, transition eval st p fsa .exit = .inr (.eval e) := by
  have hevals : (exit st fsa).evals = fsa.evals := exit_evals fsa st
  simp only [transition, handsBack]
  generalize exit st fsa = fsa' at *
  by_cases hinit : fsa'.ststk.tail.headD .init = .init
  · by_cases hpe : fsa'.pe = .sentinel
    · rw [if_neg fun h => h.2 hpe, hinit]
      simp only [comeBack, fsasInitComeBack, ne_eq, hpe, not_true, if_false]
      exact Or.inl ⟨_, rfl, by simp [Fsa.clearSentinel, hevals]⟩
    · rw [if_pos ⟨hinit, hpe⟩]
      simp only [hinit, comeBack, fsasInitComeBack, ne_eq, hpe, not_false_iff, if_true]
      have hcadr : ({ fsa' with ststk := fsa'.ststk.tail } : Fsa).cadrSentinel =
          fsa'.cadrSentinel := rfl
      rw [hcadr]
      cases eval fsa'.heap fsa'.cadrSentinel with
      | error e => exact Or.inr ⟨rfl, e, rfl⟩
      | ok heap => exact Or.inl ⟨_, rfl, by simp [hevals]⟩
  · rw [if_neg fun h => hinit h.1]
    have hback : comeBack eval (fsa'.ststk.tail.headD .init)
        { fsa' with ststk := fsa'.ststk.tail } = .ok { fsa' with ststk := fsa'.ststk.tail } := by
      revert hinit
      generalize fsa'.ststk.tail.headD .init = st'
      intro hinit
      cases st' <;> first | rfl | exact absurd rfl hinit
    rw [hback]
    exact Or.inl ⟨_, rfl, by simp [hevals]⟩

theorem transition_ne_exit (eval : Heap → Ref → Except Ylerr Heap) (st : Fsas) (p : List UInt8)
    (fsa : Fsa) {next : Next} (h : next ≠ .exit) :
    ∃ a', transition eval st p fsa next = .inl a' ∧ a'.fsa.evals = fsa.evals := by
  cases next with
  | nochg => exact ⟨_, rfl, rfl⟩
  | exit => exact absurd rfl h
  | enter nst =>
      by_cases hnst : nst = .escape
      · subst hnst
        refine ⟨_, rfl, ?_⟩
        rw [pushState_evals]
        split
        · rfl
        · rfl
        · exact pushState_evals fsa .symbol
      · exact ⟨_, transition_enter eval hnst st p fsa, pushState_evals fsa nst⟩

/-- A round ends the loop by itself, or it is a transition. -/
theorem step_cases (eval : Heap → Ref → Except Ylerr Heap) (a : Auto) :
    (∃ e fsa, step eval a = .inr (.ret e fsa) ∧ a.hands = none) ∨
      ∃ p fsa next, step eval a = transition eval a.st p fsa next ∧
        fsa.evals = a.fsa.evals ∧
        a.hands = if next = .exit then handsBack a.st fsa else none := by
  obtain ⟨e, fsa, hfinish, -⟩ := finish_evals a.fsa
  cases hp : a.p with
  | nil => exact Or.inl ⟨e, fsa, by rw [step, hp, hfinish], by rw [Auto.hands, hp]⟩
  | cons c p =>
      by_cases hc : c = 0
      · refine Or.inl ⟨e, fsa, ?_, ?_⟩
        · rw [step, hp]
          simp only [if_pos hc, hfinish]
        · rw [Auto.hands, hp]
          simp only [if_pos hc]
      · cases hnext : nextChar a.fsa c a.st with
        | error e =>
            refine Or.inl ⟨e, a.fsa, step_of_error eval hp hc hnext, ?_⟩
            rw [Auto.hands, hp]
            simp only [if_neg hc, hnext]
        | ok r =>
            obtain ⟨handled, next, fsa'⟩ := r
            obtain ⟨pb, hfsa⟩ := (nextChar_ok hnext).1
            have hevals : fsa'.evals = a.fsa.evals := by rw [hfsa]
            cases handled with
            | true =>
                refine Or.inr ⟨p, fsa'.countLine c, next, step_of_handled eval hp hc hnext,
                  hevals, ?_⟩
                rw [Auto.hands, hp]
                simp only [if_neg hc, hnext]
                cases next <;> simp
            | false =>
                refine Or.inr ⟨a.p, fsa', next, step_of_unhandled eval hp hc hnext, hevals, ?_⟩
                rw [Auto.hands, hp]
                simp only [if_neg hc, hnext]
                cases next <;> simp

/-- What a round adds to the expressions that have been evaluated. -/
theorem evals_of_step (eval : Heap → Ref → Except Ylerr Heap) (a : Auto) :
    (∀ a', step eval a = .inl a' → a'.fsa.evals = a.fsa.evals ++ a.hands.toList) ∧
      (∀ e, step eval a = .inr (.eval e) → a.hands.isSome) ∧
      ∀ e fsa, step eval a = .inr (.ret e fsa) → a.hands = none := by
  rcases step_cases eval a with ⟨e, fsa, hs, hhands⟩ | ⟨p, fsa, next, hs, hevals, hhands⟩
  · rw [hs]
    refine ⟨fun _ h => ?_, fun _ h => ?_, fun _ _ _ => hhands⟩
    · cases h
    · cases h
  · rw [hs, hhands, ← hevals]
    by_cases hnext : next = .exit
    · subst hnext
      rw [if_pos rfl]
      rcases transition_exit_cases eval a.st p fsa with ⟨a', hs', h'⟩ | ⟨hsome, e, he⟩
      · rw [hs']
        refine ⟨fun _ h => Sum.inl.inj h ▸ h', fun _ h => ?_, fun _ _ h => ?_⟩
        · cases h
        · cases h
      · rw [he]
        refine ⟨fun _ h => ?_, fun _ _ => hsome, fun _ _ h => ?_⟩
        · cases h
        · cases h
    · obtain ⟨a', hs', h'⟩ := transition_ne_exit eval a.st p fsa hnext
      rw [hs', if_neg hnext]
      refine ⟨fun _ h => ?_, fun _ h => ?_, fun _ _ h => ?_⟩
      · obtain rfl := Sum.inl.inj h
        simpa using h'
      · cases h
      · cases h

end Hands

section Completes

def completes (c : UInt8) : Outline → Bool
  | (.base, [.list]) => kind c == .rpar
  | (.base, [.quote _]) => (kind c).closes
  | (.sym _, []) => kind c != .other && kind c != .esca
  | (.str _, []) => kind c == .dquo
  | _ => false

variable {a : Auto} {c : UInt8} {p : List UInt8} {q : Outline} {fs : List Frame} {st : Fsas}
  {fsa : Fsa}

theorem hands_eq (hp : a.p = c :: p) (hc : c ≠ 0) :
    a.hands = match nextChar a.fsa c a.st with
      | .ok (true, .exit, fsa) => handsBack a.st (fsa.countLine c)
      | .ok (false, .exit, fsa) => handsBack a.st fsa
      | _ => none := by
  rw [Auto.hands, hp]
  simp only [if_neg hc]

theorem handsBack_of_added (st : Fsas) (hstk : fsa.ststk.tail = fs.map Frame.st ++ [.init])
    (hadded : Added (exit st fsa) fs) : (handsBack st fsa).isSome = fs.isEmpty := by
  have htail : (exit st fsa).ststk.tail = fs.map Frame.st ++ [.init] := by
    rw [exit_ststk, hstk]
  rw [handsBack]
  simp only [htail]
  rcases fs with _ | ⟨_ | k, fs⟩
  · have hpe : (exit st fsa).pe ≠ .sentinel := hadded.2
    simp [hpe]
  · simp [Frame.st]
  · simp [Frame.st]

theorem handsBack_of_spined (st : Fsas) (hstk : fsa.ststk.tail = fs.map Frame.st ++ [.init])
    (hspined : Spined (exit st fsa) fs) : handsBack st fsa = none := by
  cases fs with
  | nil =>
      have hpe : (exit st fsa).pe = .sentinel := hspined.2
      rw [handsBack, if_neg fun h => h.2 hpe]
  | cons f fs =>
      have h := handsBack_of_added st hstk hspined
      exact Option.not_isSome_iff_eq_none.1 (by rw [h]; simp)

theorem hands_base (h : Outlines a ((.base, fs), c :: p)) (hc : c ≠ 0) :
    a.hands.isSome = completes c (.base, fs) := by
  obtain ⟨d, hsim⟩ := h.sim
  have hline : Spined (a.fsa.countLine c) fs := h.spined.congr rfl rfl rfl
  rw [hands_eq h.p hc]
  rcases h.base_cases with ⟨hst, rfl⟩ | ⟨fs', hst, rfl⟩ | ⟨k, fs', hst, rfl⟩
  · rw [hst]
    cases hk : kind c <;> simp [nextChar, fsasInitNextChar, hk, Except.map, completes]
  · have htail : (a.fsa.countLine c).ststk.tail = fs'.map Frame.st ++ [.init] :=
      congrArg List.tail hsim.ststk
    have hback := handsBack_of_added .list htail hline.listExit
    rw [hst]
    cases hk : kind c with
    | rpar =>
        simp only [nextChar, fsasListNextChar, hk, Except.map]
        rw [hback]
        cases fs' <;> simp [completes, hk]
    | _ => cases fs' <;> simp [nextChar, fsasListNextChar, hk, Except.map, completes]
  · have hback := handsBack_of_added .squote (congrArg List.tail hsim.ststk)
      h.spined.squoteExit
    rw [hst]
    cases hk : kind c with
    | rpar | semi | white =>
        simp only [nextChar, fsasSquoteNextChar, hk, Except.map]
        rw [hback]
        cases fs' <;> simp [completes, hk, Kind.closes]
    | _ => cases fs' <;> simp [nextChar, fsasSquoteNextChar, hk, Except.map, completes, Kind.closes]

theorem handsBack_symbol {m : Mode} {d : ℕ} (fsa : Fsa) (hsim : Sim a m d (fs.map Frame.st))
    (hm : m.states = [st]) (hst : st = .symbol ∨ st = .dquote)
    (hstk : fsa.ststk = a.fsa.ststk) (hspined : Spined fsa fs) :
    (handsBack st fsa).isSome = fs.isEmpty := by
  have htail : fsa.ststk.tail = (Frame.bump fs).map Frame.st ++ [.init] := by
    rw [hstk, hsim.ststk, hm, map_st_bump]
    rfl
  have hempty : (Frame.bump fs).isEmpty = fs.isEmpty := by
    rcases fs with _ | ⟨_ | k, fs⟩ <;> rfl
  rw [← hempty]
  rcases hst with rfl | rfl <;> exact handsBack_of_added _ htail hspined.symbolExit

theorem hands_sym {k : ℕ} (h : Outlines a ((.sym k, fs), c :: p)) (hc : c ≠ 0) :
    a.hands.isSome = completes c (.sym k, fs) := by
  obtain ⟨d, hsim⟩ := h.sim
  have hst : a.st = .symbol := hsim.st_of_states rfl
  have hback := handsBack_symbol a.fsa hsim rfl (Or.inl rfl) rfl h.spined
  rw [hands_eq h.p hc, hst]
  cases hk : kind c with
  | other =>
      simp only [nextChar, fsasSymbolNextChar, hk, addIfNochg, if_true]
      cases a.fsa.addSymchar c <;> cases fs <;> simp [Except.map, completes, hk]
  | esca => cases fs <;> simp [nextChar, fsasSymbolNextChar, hk, addIfNochg, completes]
  | _ =>
      simp only [nextChar, fsasSymbolNextChar, hk, addIfNochg, reduceCtorEq, if_false]
      rw [hback]
      cases fs <;> simp [completes, hk]

theorem hands_str {k : ℕ} (h : Outlines a ((.str k, fs), c :: p)) (hc : c ≠ 0) :
    a.hands.isSome = completes c (.str k, fs) := by
  obtain ⟨d, hsim⟩ := h.sim
  have hst : a.st = .dquote := hsim.st_of_states rfl
  have hline : Spined (a.fsa.countLine c) fs := h.spined.congr rfl rfl rfl
  have hback := handsBack_symbol (a.fsa.countLine c) hsim rfl (Or.inr rfl) rfl hline
  rw [hands_eq h.p hc, hst]
  cases hk : kind c with
  | dquo =>
      simp only [nextChar, fsasDquoteNextChar, hk, addIfNochg, reduceCtorEq, if_false]
      rw [hback]
      cases fs <;> simp [completes, hk]
  | esca => cases fs <;> simp [nextChar, fsasDquoteNextChar, hk, addIfNochg, completes]
  | _ =>
      simp only [nextChar, fsasDquoteNextChar, hk, addIfNochg, if_true]
      cases a.fsa.addSymchar c <;> cases fs <;> simp [Except.map, completes, hk]

theorem hands_esc {m : Mode} {st : Fsas} (h : Outlines a ((m, fs), c :: p))
    (hm : m.states = [.escape, st]) (hst : st = .symbol ∨ st = .dquote) (hc : c ≠ 0) :
    a.hands = none := by
  obtain ⟨d, hsim⟩ := h.sim
  have hast : a.st = .escape := hsim.st_of_states hm
  have hstk : a.fsa.ststk = .escape :: st :: (fs.map Frame.st ++ [.init]) := by
    rw [hsim.ststk, hm]
    rfl
  rw [hands_eq h.p hc, hast]
  simp only [nextChar, fsasEscapeNextChar]
  cases escaped c with
  | none => rfl
  | some ch =>
      cases hadd : a.fsa.addSymchar ch with
      | error e => simp only [hadd, Except.map]
      | ok fsa =>
          obtain ⟨-, rfl⟩ := addSymchar_ok hadd
          simp only [hadd, Except.map]
          refine if_neg fun hinit => ?_
          have htop : st = .init := by simpa [exit, Fsa.countLine, hstk] using hinit.1
          rcases hst with rfl | rfl <;> cases htop

theorem hands_comment (h : Outlines a ((.comment, fs), c :: p)) (hc : c ≠ 0) : a.hands = none := by
  obtain ⟨d, hsim⟩ := h.sim
  have hst : a.st = .comment := hsim.st_of_states rfl
  have hline : Spined (a.fsa.countLine c) fs := h.spined.congr rfl rfl rfl
  have htail : (a.fsa.countLine c).ststk.tail = fs.map Frame.st ++ [.init] :=
    congrArg List.tail hsim.ststk
  have hback := handsBack_of_spined .comment htail hline
  rw [hands_eq h.p hc, hst]
  simp only [nextChar, fsasCommentNextChar, Except.map]
  by_cases hnl : c = '\n'.toUInt8
  · rw [if_pos hnl]
    exact hback
  · rw [if_neg hnl]

/-- An expression is evaluated in the rounds that complete one. -/
theorem hands_isSome (h : Outlines a (q, c :: p)) (hc : c ≠ 0) :
    a.hands.isSome = completes c q := by
  obtain ⟨m, fs⟩ := q
  cases m with
  | base => exact hands_base h hc
  | sym k => exact hands_sym h hc
  | str k => exact hands_str h hc
  | comment => rw [hands_comment h hc]; rfl
  | escSym k => rw [hands_esc h rfl (Or.inl rfl) hc]; rfl
  | escStr k => rw [hands_esc h rfl (Or.inr rfl) hc]; rfl

end Completes

section Ending

variable {eval : Heap → Ref → Except Ylerr Heap} {a a' : Auto} {c : UInt8} {p : List UInt8}
  {q : Outline} {x' : Outline × List UInt8}

theorem observed_of_inl (h : step eval a = .inl a') : observed eval a = .inl a' := by
  rw [observed, h]

theorem observed_of_inr {e : End} (h : step eval a = .inr e) :
    observed eval a = .inr (e.status, a.fsa.evals ++ a.hands.toList) := by
  rw [observed, h]

theorem quiet_round (eval : Heap → Ref → Except Ylerr Heap) (h : Outlines a (q, c :: p))
    (hc : c ≠ 0) (hs : outlineStep (q, c :: p) = .inl x') (hcomp : completes c q = false) :
    ∃ a', observed eval a = .inl a' ∧ Outlines a' x' ∧ a'.fsa.evals = a.fsa.evals := by
  have hhands : a.hands = none := by
    rw [← Option.not_isSome_iff_eq_none, hands_isSome h hc, hcomp]
    simp
  obtain ⟨hevals, hfail, -⟩ := evals_of_step eval a
  rcases lands_of_outlineStep eval h hs with ⟨a', ha', hout⟩ | ⟨e, he⟩
  · refine ⟨a', observed_of_inl ha', hout, ?_⟩
    rw [hevals a' ha', hhands]
    simp
  · have hsome := hfail e he
    rw [hhands] at hsome
    cases hsome

theorem complete_round (eval : Heap → Ref → Except Ylerr Heap) (h : Outlines a (q, c :: p))
    (hc : c ≠ 0) (hs : outlineStep (q, c :: p) = .inl x') (hcomp : completes c q = true) :
    ∃ v, (∃ a', observed eval a = .inl a' ∧ Outlines a' x' ∧
        a'.fsa.evals = a.fsa.evals ++ [v]) ∨
      ∃ e, observed eval a = .inr (e, a.fsa.evals ++ [v]) := by
  have hsome : a.hands.isSome := by rw [hands_isSome h hc, hcomp]
  obtain ⟨v, hv⟩ := Option.isSome_iff_exists.1 hsome
  refine ⟨v, ?_⟩
  rcases lands_of_outlineStep eval h hs with ⟨a', ha', hout⟩ | ⟨e, he⟩
  · refine Or.inl ⟨a', observed_of_inl ha', hout, ?_⟩
    rw [(evals_of_step eval a).1 a' ha', hv]
    rfl
  · refine Or.inr ⟨e, ?_⟩
    rw [observed_of_inr he, hv]
    rfl

def statusAt (q : Outline) : Ylerr := if q = (.base, []) then .ok else .syntaxUnknown

theorem ends_of_end (eval : Heap → Ref → Except Ylerr Heap) {x : Outline × List UInt8}
    (h : Outlines a x) (hs : outlineStep x = .inr (some q)) :
    Machine.Ends (observed eval) a (statusAt q, a.fsa.evals) := by
  obtain ⟨e, fsa, he, rfl, rfl⟩ := ret_of_outlineStep eval h hs
  refine Machine.Ends.of_result ?_
  rw [observed_of_inr he, (evals_of_step eval a).2.2 _ _ he]
  simp [End.status, statusAt]

theorem ends_of_syntax (eval : Heap → Ref → Except Ylerr Heap) {x : Outline × List UInt8}
    (h : Outlines a x) (hs : outlineStep x = .inr none) :
    ∃ e, e ≠ .ok ∧ e ≠ .syntaxUnknown ∧ Machine.Ends (observed eval) a (e, a.fsa.evals) := by
  obtain ⟨e, fsa, he, hok, hunknown⟩ := ret_of_outlineStep eval h hs
  refine ⟨e, hok, hunknown, Machine.Ends.of_result ?_⟩
  rw [observed_of_inr he, (evals_of_step eval a).2.2 _ _ he]
  simp [End.status]

/-- The line feed between tokens: it leaves the quotes on top, which completes an expression if
these are all that is open. -/
theorem ends_base (eval : Heap → Ref → Except Ylerr Heap) : ∀ (fs : List Frame) {a : Auto},
    Outlines a ((.base, fs), ['\n'.toUInt8]) →
      (fs = [] ∨ .list ∈ fs →
        Machine.Ends (observed eval) a (statusAt (.base, fs), a.fsa.evals)) ∧
      (¬ (fs = [] ∨ .list ∈ fs) → ∃ e v, Machine.Ends (observed eval) a (e, a.fsa.evals ++ [v]))
  | [], a, h => by
      refine ⟨fun _ => ?_, fun hnot => absurd (Or.inl rfl) hnot⟩
      obtain ⟨a', ha', hout, hevals⟩ := quiet_round eval h (by decide) rfl rfl
      rw [← hevals]
      exact (ends_of_end eval hout rfl).of_step ha'
  | .list :: fs, a, h => by
      refine ⟨fun _ => ?_, fun hnot => absurd (Or.inr List.mem_cons_self) hnot⟩
      obtain ⟨a', ha', hout, hevals⟩ := quiet_round eval h (by decide) rfl (by cases fs <;> rfl)
      rw [← hevals]
      exact (ends_of_end eval hout rfl).of_step ha'
  | [.quote k], a, h => by
      refine ⟨fun hw => by simp at hw, fun _ => ?_⟩
      obtain ⟨v, ⟨a', ha', hout, hevals⟩ | ⟨e, he⟩⟩ := complete_round eval h (by decide) rfl rfl
      · have hrest := (ends_base eval [] hout).1 (Or.inl rfl)
        rw [hevals] at hrest
        exact ⟨_, v, hrest.of_step ha'⟩
      · exact ⟨e, v, Machine.Ends.of_result he⟩
  | .quote k :: f :: fs, a, h => by
      obtain ⟨a', ha', hout, hevals⟩ := quiet_round eval h (by decide) rfl rfl
      obtain ⟨hwhole, hnot⟩ := ends_base eval (f :: fs) hout
      rw [hevals] at hwhole hnot
      constructor
      · intro hw
        exact (hwhole (by simpa using hw)).of_step ha'
      · intro hw
        obtain ⟨e, v, hv⟩ := hnot (by simpa using hw)
        exact ⟨e, v, hv.of_step ha'⟩

theorem list_mem_bump (fs : List Frame) : .list ∈ Frame.bump fs ↔ .list ∈ fs := by
  rcases fs with _ | ⟨_ | k, fs⟩ <;> simp [Frame.bump]

theorem bump_eq_nil (fs : List Frame) : Frame.bump fs = [] ↔ fs = [] := by
  rcases fs with _ | ⟨_ | k, fs⟩ <;> simp [Frame.bump]

theorem statusAt_of_ne (h : q ≠ (.base, [])) : statusAt q = .syntaxUnknown := if_neg h

/-- What the line feed comes to at the end of a text: nothing, in the cases of
`Outline.Whole`, and otherwise one more expression or another status. -/
def NewlineLaw (eval : Heap → Ref → Except Ylerr Heap) (a : Auto) (q : Outline) : Prop :=
  (q.Whole → Machine.Ends (observed eval) a (statusAt q, a.fsa.evals)) ∧
    (¬ q.Whole → ∃ r, r ≠ (statusAt q, a.fsa.evals) ∧ Machine.Ends (observed eval) a r)

theorem ne_of_more {e e' : Ylerr} {l : List (Heap × Ref)} {v : Heap × Ref} :
    (e, l ++ [v]) ≠ (e', l) := by
  intro hc
  have hlen := congrArg List.length (Prod.mk.inj hc).2
  simp at hlen

theorem newline_base (eval : Heap → Ref → Except Ylerr Heap) {fs : List Frame}
    (h : Outlines a ((.base, fs), ['\n'.toUInt8])) : NewlineLaw eval a (.base, fs) := by
  obtain ⟨hwhole, hnot⟩ := ends_base eval fs h
  refine ⟨hwhole, fun hw => ?_⟩
  obtain ⟨e, v, hv⟩ := hnot hw
  exact ⟨_, ne_of_more, hv⟩

/-- A symbol outside all lists: the line feed completes it. -/
theorem newline_sym_nil (eval : Heap → Ref → Except Ylerr Heap) {k : ℕ}
    (h : Outlines a ((.sym k, []), ['\n'.toUInt8])) : NewlineLaw eval a (.sym k, []) := by
  have hstatus : statusAt (.sym k, []) = .syntaxUnknown := statusAt_of_ne (by simp)
  refine ⟨fun hw => absurd hw List.not_mem_nil, fun _ => ?_⟩
  rw [hstatus]
  obtain ⟨v, ⟨a', ha', hout, hevals⟩ | ⟨e, he⟩⟩ := complete_round eval h (by decide) rfl rfl
  · have hrest := (ends_base eval [] hout).1 (Or.inl rfl)
    rw [hevals] at hrest
    exact ⟨_, ne_of_more, hrest.of_step ha'⟩
  · exact ⟨_, ne_of_more, Machine.Ends.of_result he⟩

/-- A symbol in a list or behind quotes: the line feed leaves it and then the quotes. -/
theorem newline_sym_cons (eval : Heap → Ref → Except Ylerr Heap) {k : ℕ} {f : Frame}
    {fs : List Frame} (h : Outlines a ((.sym k, f :: fs), ['\n'.toUInt8])) :
    NewlineLaw eval a (.sym k, f :: fs) := by
  have hstatus : statusAt (.sym k, f :: fs) = .syntaxUnknown := statusAt_of_ne (by simp)
  have hbase : statusAt (.base, Frame.bump (f :: fs)) = .syntaxUnknown :=
    statusAt_of_ne (by simp [bump_eq_nil])
  obtain ⟨a', ha', hout, hevals⟩ := quiet_round eval h (by decide) rfl rfl
  obtain ⟨hwhole, hnot⟩ := ends_base eval _ hout
  rw [hevals, bump_eq_nil, list_mem_bump, or_iff_right (List.cons_ne_nil f fs)]
    at hwhole hnot
  rw [hbase] at hwhole
  rw [NewlineLaw, hstatus]
  constructor
  · exact fun hw => (hwhole hw).of_step ha'
  · intro hw
    obtain ⟨e, v, hv⟩ := hnot hw
    exact ⟨_, ne_of_more, hv.of_step ha'⟩

/-- In a string the line feed is one more character, unless the string is full. -/
theorem newline_str (eval : Heap → Ref → Except Ylerr Heap) {k : ℕ} {fs : List Frame}
    (h : Outlines a ((.str k, fs), ['\n'.toUInt8])) : NewlineLaw eval a (.str k, fs) := by
  have hstatus : ∀ k', statusAt (.str k', fs) = .syntaxUnknown :=
    fun _ => statusAt_of_ne (by simp)
  have hzero : '\n'.toUInt8 ≠ 0 := by decide
  have hnl : kind '\n'.toUInt8 = .white := rfl
  by_cases hk : k < maxSymbol
  · refine ⟨fun _ => ?_, fun hw => absurd hk hw⟩
    have hs : outlineStep ((.str k, fs), ['\n'.toUInt8]) = .inl ((.str (k + 1), fs), []) := by
      simp [outlineStep, round, hnl, hk, hzero]
    obtain ⟨a', ha', hout, hevals⟩ := quiet_round eval h (by decide) hs (by cases fs <;> rfl)
    have hend := ends_of_end eval hout rfl
    rw [hstatus, hevals] at hend
    rw [hstatus]
    exact hend.of_step ha'
  · refine ⟨fun hw => absurd hw hk, fun _ => ?_⟩
    have hs : outlineStep ((.str k, fs), ['\n'.toUInt8]) = .inr none := by
      simp [outlineStep, round, hnl, hk, hzero]
    obtain ⟨e, -, he, hends⟩ := ends_of_syntax eval h hs
    rw [hstatus]
    exact ⟨_, fun hc => he (Prod.mk.inj hc).1, hends⟩

theorem newline_comment (eval : Heap → Ref → Except Ylerr Heap) {fs : List Frame}
    (h : Outlines a ((.comment, fs), ['\n'.toUInt8])) : NewlineLaw eval a (.comment, fs) := by
  obtain ⟨a', ha', hout, hevals⟩ := quiet_round eval h (by decide) rfl (by cases fs <;> rfl)
  have hend := (ends_of_end eval hout rfl).of_step ha'
  rw [hevals] at hend
  rcases fs with _ | ⟨_ | k, fs⟩
  · refine ⟨fun hw => absurd hw List.not_mem_nil, fun _ => ⟨_, ?_, hend⟩⟩
    simp [statusAt]
  · refine ⟨fun _ => ?_, fun hw => absurd List.mem_cons_self hw⟩
    rw [statusAt_of_ne (by simp)] at hend ⊢
    exact hend
  -- A comment is never entered on top of quotes.
  · obtain ⟨d, hsim⟩ := h.sim
    exact absurd rfl (hsim.comment rfl)

theorem newline_esc (eval : Heap → Ref → Except Ylerr Heap) {m : Mode} {fs : List Frame} {k : ℕ}
    (hm : m = .escSym k ∨ m = .escStr k) (h : Outlines a ((m, fs), ['\n'.toUInt8])) :
    NewlineLaw eval a (m, fs) := by
  have hesc : '\n'.toUInt8 ∉ escapable := by decide
  have hzero : '\n'.toUInt8 ≠ 0 := by decide
  have hs : outlineStep ((m, fs), ['\n'.toUInt8]) = .inr none := by
    rcases hm with rfl | rfl <;> simp [outlineStep, round, hesc, hzero]
  have hstatus : statusAt (m, fs) = .syntaxUnknown :=
    statusAt_of_ne (by rcases hm with rfl | rfl <;> simp)
  obtain ⟨e, -, he, hends⟩ := ends_of_syntax eval h hs
  rw [NewlineLaw, hstatus]
  refine ⟨fun hw => ?_, fun _ => ⟨_, fun hc => he (Prod.mk.inj hc).1, hends⟩⟩
  rcases hm with rfl | rfl <;> exact hw.elim

theorem ends_newline (eval : Heap → Ref → Except Ylerr Heap)
    (h : Outlines a (q, ['\n'.toUInt8])) : NewlineLaw eval a q := by
  obtain ⟨m, fs⟩ := q
  cases m with
  | base => exact newline_base eval h
  | sym k =>
      cases fs with
      | nil => exact newline_sym_nil eval h
      | cons f fs => exact newline_sym_cons eval h
  | str k => exact newline_str eval h
  | comment => exact newline_comment eval h
  | escSym k => exact newline_esc eval (Or.inl rfl) h
  | escStr k => exact newline_esc eval (Or.inr rfl) h

end Ending

section Append

variable {eval : Heap → Ref → Except Ylerr Heap} {a a' : Auto} {x : Outline × List UInt8}

def Auto.append (a : Auto) (t : List UInt8) : Auto := { a with p := a.p ++ t }

theorem transition_append (st : Fsas) (p t : List UInt8) (fsa : Fsa) (next : Next) :
    transition eval st (p ++ t) fsa next =
      (transition eval st p fsa next).map (fun a => a.append t) id := by
  cases next with
  | nochg => rfl
  | exit =>
      simp only [transition]
      split <;> rfl
  | enter nst => cases nst <;> rfl

/-- Before the end of the stream a round does not depend on what follows. -/
theorem step_append {c : UInt8} {p : List UInt8} (hp : a.p = c :: p) (t : List UInt8) :
    step eval (a.append t) = (step eval a).map (fun a => a.append t) id := by
  have hp' : (a.append t).p = c :: (p ++ t) := by rw [Auto.append, hp]; rfl
  by_cases hc : c = 0
  · simp only [step, hp, hp', if_pos hc]
    rfl
  · cases hnext : nextChar a.fsa c a.st with
    | error e =>
        rw [step_of_error eval hp hc hnext, step_of_error eval hp' hc hnext]
        rfl
    | ok r =>
        obtain ⟨handled, next, fsa⟩ := r
        cases handled with
        | true =>
            rw [step_of_handled eval hp hc hnext, step_of_handled eval hp' hc hnext]
            exact transition_append _ _ _ _ _
        | false =>
            rw [step_of_unhandled eval hp hc hnext, step_of_unhandled eval hp' hc hnext]
            exact transition_append _ _ _ _ _

theorem observed_append {c : UInt8} {p : List UInt8} (hp : a.p = c :: p) (t : List UInt8) :
    observed eval (a.append t) = (observed eval a).map (fun a => a.append t) id := by
  have hp' : (a.append t).p = c :: (p ++ t) := by rw [Auto.append, hp]; rfl
  have hhands : (a.append t).hands = a.hands := by
    by_cases hc : c = 0
    · simp only [Auto.hands, hp, hp', if_pos hc]
    · rw [hands_eq hp hc, hands_eq hp' hc]
      rfl
  rw [observed, observed, step_append hp, hhands]
  cases step eval a <;> rfl

theorem rest_of_outlineStep {q : Outline} {c : UInt8} {p : List UInt8}
    {x' : Outline × List UInt8} (hs : outlineStep (q, c :: p) = .inl x') :
    x'.2 = p ∨ x'.2 = c :: p := by
  rw [outlineStep] at hs
  dsimp only at hs
  split_ifs at hs with hc
  cases hround : round c q with
  | none =>
      rw [hround] at hs
      cases hs
  | some r =>
      obtain ⟨handled, q'⟩ := r
      rw [hround] at hs
      obtain rfl := Sum.inl.inj hs
      cases handled with
      | true => exact Or.inl rfl
      | false => exact Or.inr rfl

theorem not_mem_of_outlineStep {q : Outline} {c b : UInt8} {p : List UInt8}
    {x' : Outline × List UInt8} (hs : outlineStep (q, c :: p) = .inl x') (hb : b ∉ c :: p) :
    b ∉ x'.2 := by
  rcases rest_of_outlineStep hs with hx' | hx'
  · rw [hx']
    exact fun hmem => hb (List.mem_cons_of_mem c hmem)
  · rw [hx']
    exact hb

theorem outlineStep_inr {q : Outline} {c : UInt8} {p : List UInt8} {r : Option Outline}
    (hc : c ≠ 0) (hs : outlineStep (q, c :: p) = .inr r) : r = none := by
  rw [outlineStep] at hs
  dsimp only at hs
  rw [if_neg hc] at hs
  cases hround : round c q with
  | none =>
      rw [hround] at hs
      exact (Sum.inr.inj hs).symm
  | some r' =>
      rw [hround] at hs
      cases hs

/-- A run on a text comes to the end of it, where it goes on with what follows; or it ends before,
in a syntax error or an evaluation that fails, whatever follows. -/
theorem run_cases (eval : Heap → Ref → Except Ylerr Heap) : ∀ (k : ℕ)
    {a : Auto} {x : Outline × List UInt8} {r : Option Outline},
    Machine.run outlineStep k x = some r → Outlines a x → 0 ∉ x.2 →
      (∃ q a', r = some q ∧ Outlines a' (q, []) ∧ ∀ t res,
        Machine.Ends (observed eval) (a.append t) res ↔
          Machine.Ends (observed eval) (a'.append t) res) ∨
      (r = none ∨ ¬ Succeeds eval) ∧
        ∃ res, ∀ t, Machine.Ends (observed eval) (a.append t) res
  | 0, _, _, _, h, _, _ => nomatch h
  | k + 1, a, (q, []), r, h, hout, _ => by
      obtain rfl := Option.some.inj h
      exact Or.inl ⟨q, a, rfl, hout, fun t res => Iff.rfl⟩
  | k + 1, a, (q, c :: p), r, h, hout, h0 => by
      have hc : c ≠ 0 := fun hc => h0 (hc ▸ List.mem_cons_self)
      rw [Machine.run] at h
      cases hs : outlineStep (q, c :: p) with
      | inl x' =>
          rw [hs] at h
          rcases lands_of_outlineStep eval hout hs with ⟨a', ha', hout'⟩ | ⟨e, he⟩
          · have hnext : ∀ t, observed eval (a.append t) = .inl (a'.append t) := by
              intro t
              rw [observed_append hout.p, observed_of_inl ha']
              rfl
            have h0' : 0 ∉ x'.2 := not_mem_of_outlineStep hs h0
            rcases run_cases eval k h hout' h0' with ⟨q', a₁, hr, hout₁, hends⟩ | ⟨hr, res, hres⟩
            · refine Or.inl ⟨q', a₁, hr, hout₁, fun t res => ?_⟩
              rw [Machine.Ends.step_iff (hnext t), hends]
            · exact Or.inr ⟨hr, res, fun t => (hres t).of_step (hnext t)⟩
          · refine Or.inr ⟨Or.inr fun hok => step_ne_eval hok e he,
              (e, a.fsa.evals ++ a.hands.toList), fun t => Machine.Ends.of_result ?_⟩
            rw [observed_append hout.p, observed_of_inr he]
            rfl
      | inr r' =>
          rw [hs] at h
          obtain rfl := Option.some.inj h
          obtain rfl := outlineStep_inr hc hs
          obtain ⟨e, fsa, he, -⟩ := ret_of_outlineStep eval hout hs
          refine Or.inr ⟨Or.inl rfl, (e, a.fsa.evals ++ a.hands.toList), fun t =>
            Machine.Ends.of_result ?_⟩
          rw [observed_append hout.p, observed_of_inr he]
          rfl

theorem Outlines.append {q : Outline} (h : Outlines a (q, [])) (t : List UInt8) :
    Outlines (a.append t) (q, t) := by
  obtain ⟨hp, ⟨d, hsim⟩, hspined⟩ := h
  have hp' : a.p ++ t = t := by rw [show a.p = [] from hp, List.nil_append]
  exact ⟨hp', ⟨d, hsim.ststk, hsim.st, hsim.isOpen, hsim.depth, hsim.pestk, hsim.pb,
    hsim.comment⟩, hspined⟩

end Append

section Same

variable {eval : Heap → Ref → Except Ylerr Heap} {heap : Heap} {s : List UInt8}

/-- With the NUL behind it, a text ends as it is. -/
theorem ends_nul (eval : Heap → Ref → Except Ylerr Heap) {a : Auto} {q : Outline} {t : List UInt8}
    (h : Outlines a (q, 0 :: t)) :
    Machine.Ends (observed eval) a (statusAt q, a.fsa.evals) :=
  ends_of_end eval h rfl

/-- The two ends of a text agree exactly in the cases of `Outline.Whole`. -/
theorem same_at_end (eval : Heap → Ref → Except Ylerr Heap) {a : Auto} {q : Outline}
    (h : Outlines a (q, [])) :
    (∃ r, Machine.Ends (observed eval) (a.append ['\n'.toUInt8]) r ∧
      Machine.Ends (observed eval) (a.append [0, '\n'.toUInt8]) r) ↔ q.Whole := by
  have hnul := ends_nul eval (h.append [0, '\n'.toUInt8])
  obtain ⟨hwhole, hnot⟩ := ends_newline eval (h.append ['\n'.toUInt8])
  constructor
  · rintro ⟨r, hnl, hr⟩
    by_contra hq
    obtain ⟨r', hne, hr'⟩ := hnot hq
    refine hne ?_
    rw [← hnl.unique hr', hr.unique hnul]
    rfl
  · exact fun hq => ⟨_, hwhole hq, hnul⟩

theorem sameResult_cases (eval : Heap → Ref → Except Ylerr Heap) (heap : Heap) (hs : 0 ∉ s)
    {r : Option Outline} (hr : outline s = some r) :
    (∃ q, r = some q ∧ (SameResult eval heap s ↔ q.Whole)) ∨
      (r = none ∨ ¬ Succeeds eval) ∧ SameResult eval heap s := by
  have hstart : start heap s = (startOn heap s).append ['\n'.toUInt8] := rfl
  have hstart' : start heap (s ++ [0]) = (startOn heap s).append [0, '\n'.toUInt8] := by
    rw [start_eq, List.append_assoc]
    rfl
  rcases run_cases eval (rounds s) hr (outlines_startOn heap s) hs with
    ⟨q, a, rfl, hout, hends⟩ | ⟨hr, res, hres⟩
  · refine Or.inl ⟨q, rfl, ?_⟩
    rw [SameResult, hstart, hstart', ← same_at_end eval hout]
    exact exists_congr fun r => and_congr (hends _ r) (hends _ r)
  · refine Or.inr ⟨hr, res, ?_, ?_⟩
    · rw [hstart]
      exact hres _
    · rw [hstart']
      exact hres _

theorem endsWhole_iff {r : Option Outline} (hr : outline s = some r) :
    EndsWhole s ↔ ∀ q ∈ r, q.Whole := by
  simp [EndsWhole, hr]

theorem SameResult.of_endsWhole (h : EndsWhole s) (hs : 0 ∉ s) : SameResult eval heap s := by
  obtain ⟨r, hr⟩ := outline_ends (s := s) (p := s) (by omega)
  rcases sameResult_cases eval heap hs hr with ⟨q, rfl, hiff⟩ | ⟨-, hsame⟩
  · exact hiff.2 ((endsWhole_iff hr).1 h q rfl)
  · exact hsame

theorem SameResult.endsWhole (heval : Succeeds eval) (h : SameResult eval heap s) (hs : 0 ∉ s) :
    EndsWhole s := by
  obtain ⟨r, hr⟩ := outline_ends (s := s) (p := s) (by omega)
  rw [endsWhole_iff hr]
  rcases sameResult_cases eval heap hs hr with ⟨q, rfl, hiff⟩ | ⟨rfl | hfail, -⟩
  · intro q' hq
    obtain rfl := Option.mem_some_iff.1 hq
    exact hiff.1 h
  · exact fun q hq => nomatch hq
  · exact absurd heval hfail

/-- A NUL behind a text makes no difference, whatever the evaluation of its expressions does,
exactly if the line feed of the automaton adds nothing to the text. -/
theorem sameResult_iff (s : List UInt8) (hs : 0 ∉ s) :
    ((∀ eval heap, SameResult eval heap s) ↔ EndsWhole s) ∧
      ∀ eval heap, Succeeds eval → (SameResult eval heap s ↔ EndsWhole s) := by
  have heval : Succeeds fun h _ => .ok h := fun h _ => ⟨h, rfl⟩
  refine ⟨⟨fun h => ?_, fun h eval heap => SameResult.of_endsWhole h hs⟩,
    fun eval heap heval => ⟨fun h => h.endsWhole heval hs, fun h => .of_endsWhole h hs⟩⟩
  exact (h _ ⟨0, fun _ => .sym []⟩).endsWhole heval hs

/-- `(b) ` is read in the same way with a NUL behind it. -/
theorem sameResult_list :
    SameResult (fun h _ => .ok h) ⟨0, fun _ => .sym []⟩ ("(b) ".toList.map Char.toUInt8) :=
  (sameResult_iff _ (by decide)).1.2 (by decide) _ _

/-- The symbol at the end of `a` is lost, and the status is another one. -/
theorem not_sameResult :
    ¬ SameResult (fun h _ => .ok h) ⟨0, fun _ => .sym []⟩ ("a".toList.map Char.toUInt8) := by
  have heval : Succeeds fun h _ => .ok h := fun h _ => ⟨h, rfl⟩
  exact fun h => absurd (h.endsWhole heval (by decide)) (by decide)

end Same

end Parser

end Ylisp
