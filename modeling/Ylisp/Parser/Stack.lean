import Ylisp.Parser.Automata

/-!
# The two stacks of the automaton

In every state of a run `init` is at the bottom of the state stack and nowhere
else, and the expression stack has one entry for each list or quote state on the
state stack (`stacks_of_reaches`). Every round of the loop lowers `measure`, so the
automaton ends on every stream (`ylinterpAutomata_ends`), and it cannot go on for long
without consuming a character (`mainLoop_terminates`).
-/

namespace Ylisp

namespace Parser

namespace Fsas

def isBase : Fsas → Bool
  | init | list | squote => true
  | _ => false

def isOpen : Fsas → Bool
  | list | squote => true
  | _ => false

end Fsas

section Fields

variable (fsa : Fsa) (st : Fsas)

@[simp] theorem setPeCdr_ststk (b : ℕ) : (fsa.setPeCdr b).ststk = fsa.ststk := by
  unfold Fsa.setPeCdr
  split <;> rfl

@[simp] theorem setPeCdr_pestk (b : ℕ) : (fsa.setPeCdr b).pestk = fsa.pestk := by
  unfold Fsa.setPeCdr
  split <;> rfl

@[simp] theorem setPeCdr_evals (b : ℕ) : (fsa.setPeCdr b).evals = fsa.evals := by
  unfold Fsa.setPeCdr
  split <;> rfl

theorem exit_evals : (exit st fsa).evals = fsa.evals := by
  cases st <;> simp [exit, Fsa.clearSentinel, fsasListExit, fsasSquoteExit, fsasSymbolExit] <;>
    split <;> rfl

theorem pushState_evals : (pushState st fsa).evals = fsa.evals := by
  cases st <;>
    simp [pushState, enter, fsasInitEnter, Fsa.clearSentinel, fsasListEnter, fsasSquoteEnter,
      Fsa.openList, fsasDquoteEnter, fsasSymbolEnter]

theorem finish_evals : ∃ e fsa', finish fsa = .ret e fsa' ∧ fsa'.evals = fsa.evals := by
  rw [finish]
  split
  · exact ⟨_, _, rfl, rfl⟩
  · exact ⟨_, _, rfl, rfl⟩

theorem exit_ststk : (exit st fsa).ststk = fsa.ststk := by
  cases st <;> simp [exit, Fsa.clearSentinel, fsasListExit, fsasSquoteExit, fsasSymbolExit] <;>
    split <;> rfl

theorem exit_pestk :
    (exit st fsa).pestk = if st.isOpen then fsa.pestk.tail else fsa.pestk := by
  cases st <;>
    simp [exit, Fsa.clearSentinel, fsasListExit, fsasSquoteExit, fsasSymbolExit, Fsas.isOpen] <;>
    split <;> simp_all

theorem pushState_ststk : (pushState st fsa).ststk = st :: fsa.ststk := by
  cases st <;>
    simp [pushState, enter, fsasInitEnter, Fsa.clearSentinel, fsasListEnter, fsasSquoteEnter,
      Fsa.openList, fsasDquoteEnter, fsasSymbolEnter]

theorem pushState_pestk_length :
    (pushState st fsa).pestk.length = fsa.pestk.length + if st.isOpen then 1 else 0 := by
  cases st <;>
    simp [pushState, enter, fsasInitEnter, Fsa.clearSentinel, fsasListEnter, fsasSquoteEnter,
      Fsa.openList, fsasDquoteEnter, fsasSymbolEnter, Fsas.isOpen]

theorem comeBack_stacks {eval : Heap → Ref → Except Ylerr Heap} {fsa fsa' : Fsa}
    (h : comeBack eval st fsa = .ok fsa') :
    fsa'.ststk = fsa.ststk ∧ fsa'.pestk = fsa.pestk := by
  cases st with
  | init =>
      rw [comeBack, fsasInitComeBack] at h
      split at h
      · split at h
        · cases h
        · cases h
          exact ⟨rfl, rfl⟩
      · cases h
        exact ⟨rfl, rfl⟩
  | _ =>
      cases h
      exact ⟨rfl, rfl⟩

end Fields

section Step

variable {eval : Heap → Ref → Except Ylerr Heap}

theorem addSymchar_ok {fsa fsa' : Fsa} {c : UInt8} (h : fsa.addSymchar c = .ok fsa') :
    fsa.pb.length < maxSingleElemStrLen - 1 ∧ fsa' = { fsa with pb := fsa.pb ++ [c] } := by
  unfold Fsa.addSymchar at h
  split at h
  next hlt =>
    cases h
    exact ⟨hlt, rfl⟩
  next => cases h

structure Answered (st : Fsas) (c : UInt8) (handled : Bool) (next : Next) : Prop where
  exit : next = .exit → st ≠ .init
  enter : ∀ nst, next = .enter nst → nst ≠ .init
  unhandled : handled = false →
    next = .exit ∧ kind c ≠ .other ∨
      next = .enter .symbol ∧ kind c = .other ∧ st.isBase = true

theorem nextChar_ok {fsa fsa' : Fsa} {c : UInt8} {st : Fsas} {handled : Bool} {next : Next}
    (h : nextChar fsa c st = .ok (handled, next, fsa')) :
    (∃ pb, fsa' = { fsa with pb := pb }) ∧ Answered st c handled next := by
  have hsame : ∃ pb, fsa = { fsa with pb := pb } := ⟨fsa.pb, rfl⟩
  have hadd : ∀ {b : Bool} {n : Next} {ch : UInt8},
      (fsa.addSymchar ch).map (fun fsa => (b, n, fsa)) = .ok (handled, next, fsa') →
        (∃ pb, fsa' = { fsa with pb := pb }) ∧ handled = b ∧ next = n := by
    intro b n ch h
    cases hc : fsa.addSymchar ch with
    | error e =>
        rw [hc] at h
        cases h
    | ok fsa₁ =>
        rw [hc] at h
        cases h
        exact ⟨⟨_, (addSymchar_ok hc).2⟩, rfl, rfl⟩
  cases st with
  | init =>
      simp only [nextChar, fsasInitNextChar] at h
      cases hk : kind c <;> rw [hk] at h <;> cases h <;>
        exact ⟨hsame, by constructor <;> simp [hk, Fsas.isBase]⟩
  | list =>
      simp only [nextChar, fsasListNextChar] at h
      cases hk : kind c <;> rw [hk] at h <;> cases h <;>
        exact ⟨hsame, by constructor <;> simp [hk, Fsas.isBase]⟩
  | squote =>
      simp only [nextChar, fsasSquoteNextChar] at h
      cases hk : kind c <;> rw [hk] at h <;> cases h <;>
        exact ⟨hsame, by constructor <;> simp [hk, Fsas.isBase]⟩
  | symbol =>
      simp only [nextChar, fsasSymbolNextChar] at h
      cases hk : kind c <;> rw [hk] at h
      case other =>
        obtain ⟨hpb, rfl, rfl⟩ := hadd h
        exact ⟨hpb, by constructor <;> simp⟩
      all_goals
        cases h
        exact ⟨hsame, by constructor <;> simp [hk]⟩
  | dquote =>
      simp only [nextChar, fsasDquoteNextChar] at h
      cases hk : kind c <;> rw [hk] at h
      case dquo | esca =>
        cases h
        exact ⟨hsame, by constructor <;> simp⟩
      all_goals
        obtain ⟨hpb, rfl, rfl⟩ := hadd h
        exact ⟨hpb, by constructor <;> simp⟩
  | comment =>
      cases h
      refine ⟨hsame, by simp, ?_, by simp⟩
      intro nst hn
      split at hn <;> cases hn
  | escape =>
      rw [nextChar, fsasEscapeNextChar] at h
      split at h
      · cases h
      · obtain ⟨hpb, rfl, rfl⟩ := hadd h
        exact ⟨hpb, by constructor <;> simp⟩

/-- One round of the loop that does not end it. -/
theorem step_inl {a a' : Auto} (h : step eval a = .inl a') :
    ∃ c p fsa handled next, a.p = c :: p ∧ Answered a.st c handled next ∧
      fsa.ststk = a.fsa.ststk ∧ fsa.pestk = a.fsa.pestk ∧
      transition eval a.st (if handled then p else c :: p) fsa next = .inl a' := by
  rw [step] at h
  split at h
  · cases h
  next c p hp =>
    split at h
    · cases h
    · split at h
      · cases h
      next hn =>
        obtain ⟨⟨pb, rfl⟩, hans⟩ := nextChar_ok hn
        refine ⟨c, p, _, true, _, hp, hans, ?_, ?_, h⟩ <;> rfl
      next hn =>
        obtain ⟨⟨pb, rfl⟩, hans⟩ := nextChar_ok hn
        refine ⟨c, p, _, false, _, hp, hans, ?_, ?_, h⟩ <;> rfl

def Moved (st : Fsas) (fsa : Fsa) (a' : Auto) : Next → Prop
  | .nochg => a'.st = st ∧ a'.fsa.ststk = fsa.ststk ∧ a'.fsa.pestk = fsa.pestk
  | .exit => a'.st = fsa.ststk.tail.headD .init ∧ a'.fsa.ststk = fsa.ststk.tail ∧
      a'.fsa.pestk = if st.isOpen then fsa.pestk.tail else fsa.pestk
  | .enter nst => a'.st = nst ∧
      (a'.fsa.ststk = nst :: fsa.ststk ∨
        nst = .escape ∧ a'.fsa.ststk = .escape :: .symbol :: fsa.ststk) ∧
      a'.fsa.pestk.length = fsa.pestk.length + if nst.isOpen then 1 else 0

theorem transition_inl {st : Fsas} {p : List UInt8} {fsa : Fsa} {next : Next} {a' : Auto}
    (h : transition eval st p fsa next = .inl a') : a'.p = p ∧ Moved st fsa a' next := by
  cases next with
  | nochg =>
      cases h
      exact ⟨rfl, rfl, rfl, rfl⟩
  | exit =>
      simp only [transition] at h
      split at h
      · cases h
      next fsa' hback =>
        cases h
        obtain ⟨h1, h2⟩ := comeBack_stacks _ hback
        simp [Moved, h1, h2, exit_ststk, exit_pestk]
  | enter nst =>
      by_cases hnst : nst = .escape
      · subst hnst
        simp only [transition] at h
        split at h <;> cases h
        · simp [Moved, pushState_ststk, pushState_pestk_length, Fsas.isOpen]
        · simp [Moved, pushState_ststk, pushState_pestk_length, Fsas.isOpen]
        · simp [Moved, pushState_ststk, pushState_pestk_length, Fsas.isOpen]
      · have ha : a' = ⟨pushState nst fsa, nst, p⟩ := by
          cases nst <;> first | contradiction | (cases h; rfl)
        rw [ha]
        exact ⟨rfl, rfl, Or.inl (pushState_ststk fsa nst), pushState_pestk_length fsa nst⟩

end Step

/-- The stacks of the automaton: `init` at the bottom only, one expression for
each open list or quote, and `st` on top. -/
structure Stacks (a : Auto) (above : List Fsas) : Prop where
  ststk : a.fsa.ststk = above ++ [.init]
  init : .init ∉ above
  pestk : a.fsa.pestk.length = above.countP Fsas.isOpen
  st : a.st = a.fsa.ststk.headD .init

theorem stacks_start (heap : Heap) (s : List UInt8) : Stacks (start heap s) [] := by
  constructor
  · simp [start, pushState_ststk]
  · simp
  · rw [start, pushState_pestk_length]
    rfl
  · rw [start, pushState_ststk]
    rfl

theorem stacks_step {eval : Heap → Ref → Except Ylerr Heap} {a a' : Auto} {above : List Fsas}
    (ha : Stacks a above) (h : step eval a = .inl a') : ∃ above', Stacks a' above' := by
  obtain ⟨c, p, fsa, handled, next, -, hans, hst, hpe, htr⟩ := step_inl h
  obtain ⟨-, hnext⟩ := transition_inl htr
  unfold Moved at hnext
  rw [hst, hpe] at hnext
  cases next with
  | nochg =>
      obtain ⟨h1, h2, h3⟩ := hnext
      exact ⟨above, h2.trans ha.ststk, ha.init, h3 ▸ ha.pestk, by rw [h1, h2]; exact ha.st⟩
  | exit =>
      obtain ⟨h1, h2, h3⟩ := hnext
      have hne := hans.exit rfl
      cases above with
      | nil =>
          have hst := ha.st
          rw [ha.ststk] at hst
          exact absurd hst hne
      | cons st above =>
          have hst := ha.st
          rw [ha.ststk] at hst
          have hlen := ha.pestk
          rw [ha.ststk] at h1 h2
          refine ⟨above, h2, fun hmem => ha.init (List.mem_cons_of_mem _ hmem), ?_,
            by rw [h1, h2]⟩
          rw [h3, hst]
          rw [List.countP_cons] at hlen
          cases hopen : st.isOpen with
          | true => simp [hopen, hlen]
          | false => simp [hopen, hlen]
  | enter nst =>
      obtain ⟨h1, h2, h3⟩ := hnext
      have hne := hans.enter nst rfl
      rw [ha.ststk, ha.pestk] at *
      rcases h2 with h2 | ⟨rfl, h2⟩
      · refine ⟨nst :: above, h2, by simp [ha.init, hne.symm], ?_, by rw [h1, h2]; rfl⟩
        rw [h3, List.countP_cons]
      · refine ⟨.escape :: .symbol :: above, h2, by simp [ha.init], ?_, by rw [h1, h2]; rfl⟩
        rw [h3]
        simp [Fsas.isOpen]

theorem stacks_of_reaches {eval : Heap → Ref → Except Ylerr Heap} {heap : Heap} {s : List UInt8}
    {a : Auto} (h : Machine.Reaches (step eval) (start heap s) a) : ∃ above, Stacks a above :=
  Machine.reaches_induction (P := fun a => ∃ above, Stacks a above)
    (fun _ _ ⟨_, ha⟩ hstep => stacks_step ha hstep) ⟨[], stacks_start heap s⟩ h

section Rounds

def beforeSymbol (a : Auto) : Bool := a.st.isBase && (a.p.head?.map kind == some .other)

def measure (a : Auto) : ℕ :=
  5 * a.p.length + a.fsa.ststk.length + if beforeSymbol a then 2 else 0

theorem measure_step {eval : Heap → Ref → Except Ylerr Heap} {a a' : Auto}
    (ha : ∃ above, Stacks a above) (h : step eval a = .inl a') : measure a' < measure a := by
  obtain ⟨above, ha⟩ := ha
  obtain ⟨c, p, fsa, handled, next, hp, hans, hst, -, htr⟩ := step_inl h
  obtain ⟨hp', hnext⟩ := transition_inl htr
  have hpos : 0 < a.fsa.ststk.length := by
    rw [ha.ststk]
    simp
  have hbonus : (if beforeSymbol a' then 2 else 0) ≤ 2 := by split <;> omega
  unfold Moved at hnext
  rw [hst] at hnext
  unfold measure
  rw [hp', hp]
  cases handled with
  | true =>
      have hlen : a'.fsa.ststk.length ≤ a.fsa.ststk.length + 2 ∧
          (a'.fsa.ststk.length = a.fsa.ststk.length + 2 → beforeSymbol a' = false) := by
        cases next with
        | nochg => simp [hnext.2.1]
        | exit =>
            rw [hnext.2.1, List.length_tail]
            omega
        | enter nst =>
            obtain ⟨h1, h2 | ⟨rfl, h2⟩, -⟩ := hnext
            · rw [h2, List.length_cons]
              omega
            · simp [h2, beforeSymbol, h1, Fsas.isBase]
      obtain ⟨h1, h2⟩ := hlen
      simp only [if_true, List.length_cons]
      by_cases heq : a'.fsa.ststk.length = a.fsa.ststk.length + 2
      · rw [h2 heq]
        simp only [Bool.false_eq_true, if_false]
        omega
      · omega
  | false =>
      simp only [Bool.false_eq_true, if_false]
      rcases hans.unhandled rfl with ⟨rfl, hk⟩ | ⟨rfl, hk, hbase⟩
      · have h0 : beforeSymbol a' = false := by
          simp [beforeSymbol, hp', hk]
        rw [h0, hnext.2.1, List.length_tail]
        simp only [Bool.false_eq_true, if_false]
        omega
      · have h0 : beforeSymbol a' = false := by
          simp [beforeSymbol, hnext.1, Fsas.isBase]
        have h1 : beforeSymbol a = true := by
          simp [beforeSymbol, hbase, hp, hk]
        have h2 : a'.fsa.ststk = .symbol :: a.fsa.ststk := by
          obtain ⟨-, h2 | ⟨hc, -⟩, -⟩ := hnext
          · exact h2
          · cases hc
        rw [h0, h1, h2]
        simp only [Bool.false_eq_true, if_false, if_true, List.length_cons]
        omega

/-- The rounds for a text suffice for what is to be read of it and the line feed. -/
theorem rounds_suffice (eval : Heap → Ref → Except Ylerr Heap) {a : Auto} {s : List UInt8}
    (ha : Stacks a []) (hp : a.p.length ≤ s.length + 1) :
    ∃ e, Machine.run (step eval) (rounds s) a = some e := by
  apply Machine.run_of_measure (fun a => ∃ above, Stacks a above) measure
  · exact fun a a' ha h => ⟨stacks_step ha.choose_spec h, measure_step ha h⟩
  · exact ⟨[], ha⟩
  · have hstk : a.fsa.ststk.length = 1 := by
      rw [ha.ststk]
      rfl
    unfold measure rounds
    rw [hstk]
    split <;> omega

theorem ylinterpAutomata_ends (eval : Heap → Ref → Except Ylerr Heap) (heap : Heap)
    (s : List UInt8) : ∃ e, ylinterpAutomata eval heap s = some e :=
  rounds_suffice eval (stacks_start heap s) (by simp [start])

theorem ylinterpAutomata_eq_some {eval : Heap → Ref → Except Ylerr Heap} {heap : Heap}
    {s : List UInt8} {e : End} :
    ylinterpAutomata eval heap s = some e ↔ Machine.Ends (step eval) (start heap s) e := by
  constructor
  · exact fun h => ⟨_, h⟩
  · intro h
    obtain ⟨e', he'⟩ := ylinterpAutomata_ends eval heap s
    rw [he', Machine.Ends.unique ⟨_, he'⟩ h]

end Rounds

section Idle

variable {eval : Heap → Ref → Except Ylerr Heap}

/-- A round consumes the next character of the stream, or nothing. -/
theorem step_consumes {a a' : Auto} (h : step eval a = .inl a') :
    a'.p = a.p ∨ ∃ c, a.p = c :: a'.p := by
  obtain ⟨c, p, fsa, handled, next, hp, -, -, -, htr⟩ := step_inl h
  obtain ⟨hp', -⟩ := transition_inl htr
  rw [hp', hp]
  cases handled with
  | true => exact Or.inr ⟨c, rfl⟩
  | false => exact Or.inl rfl

/-- Rounds that consume nothing leave a state or enter a symbol, so there are no more
of them than states on the stack, and one. -/
theorem idle_le {a a' : Auto} {k : ℕ} (ha : ∃ above, Stacks a above)
    (h : Machine.Steps (step eval) k a a') (hp : a'.p = a.p) :
    k ≤ a.fsa.ststk.length + 1 := by
  obtain ⟨⟨above', ha'⟩, hle⟩ :=
    h.measure (fun _ _ ha h => ⟨stacks_step ha.choose_spec h, measure_step ha h⟩) ha
  have hpos : 0 < a'.fsa.ststk.length := by
    rw [ha'.ststk]
    simp
  have hbonus : (if beforeSymbol a then 2 else 0) ≤ 2 := by split <;> omega
  unfold measure at hle
  rw [hp] at hle
  omega

/-- The main loop ends; in every state of a run only boundedly many rounds that
consume nothing follow, and then it ends or consumes the next character. -/
theorem mainLoop_terminates (eval : Heap → Ref → Except Ylerr Heap) (heap : Heap)
    (s : List UInt8) :
    (∃ e, Machine.Ends (step eval) (start heap s) e) ∧
      ∀ a, Machine.Reaches (step eval) (start heap s) a →
        (∀ k a', Machine.Steps (step eval) k a a' → a'.p = a.p →
          k ≤ a.fsa.ststk.length + 1) ∧
        ∃ k a', Machine.Steps (step eval) k a a' ∧ a'.p = a.p ∧
          ((∃ e, step eval a' = .inr e) ∨
            ∃ a'' c, step eval a' = .inl a'' ∧ a.p = c :: a''.p) := by
  refine ⟨?_, fun a hr => ⟨fun k a' => idle_le (stacks_of_reaches hr), ?_⟩⟩
  · obtain ⟨e, he⟩ := ylinterpAutomata_ends eval heap s
    exact ⟨e, rounds s, he⟩
  · have hleave : ∃ k a', Machine.Steps (step eval) k a a' ∧ a'.p = a.p ∧
        ((∃ e, step eval a' = .inr e) ∨ ∃ a'', step eval a' = .inl a'' ∧ a''.p ≠ a.p) :=
      Machine.Steps.leave Auto.p
        (fun _ _ ha h => ⟨stacks_step ha.choose_spec h, measure_step ha h⟩) (stacks_of_reaches hr)
    obtain ⟨k, a', hk, hp, hend⟩ := hleave
    refine ⟨k, a', hk, hp, ?_⟩
    rcases hend with hend | ⟨a'', hs, hne⟩
    · exact Or.inl hend
    · rcases step_consumes hs with heq | ⟨c, hc⟩
      · exact absurd (heq.trans hp) hne
      · exact Or.inr ⟨a'', c, hs, hp ▸ hc⟩

end Idle

end Parser

end Ylisp
