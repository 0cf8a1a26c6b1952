import Ylisp.Parser.Scan
import Ylisp.Parser.Stack

/-!
# The accepted texts

The automaton follows the scan: `Sim a m d` relates a state of the automaton to
a mode and a number of open parentheses. One character takes the automaton one
round or several, since a squote state hands the character on when it is left;
`sim_char` is the step for a character, and `accepts_iff_scan` follows by
induction on the text.
-/

namespace Ylisp

namespace Parser

def Mode.states : Mode → List Fsas
  | .base => []
  | .comment => [.comment]
  | .sym _ => [.symbol]
  | .str _ => [.dquote]
  | .escSym _ => [.escape, .symbol]
  | .escStr _ => [.escape, .dquote]

def Mode.Buffered (n : ℕ) : Mode → Prop
  | .base | .comment => True
  | .sym k | .str k | .escSym k | .escStr k => n = k

def Open (fr : List Fsas) : Prop := ∀ st ∈ fr, st.isOpen = true

structure Sim (a : Auto) (m : Mode) (d : ℕ) (fr : List Fsas) : Prop where
  ststk : a.fsa.ststk = m.states ++ fr ++ [.init]
  st : a.st = a.fsa.ststk.headD .init
  isOpen : Open fr
  depth : fr.count .list = d
  pestk : a.fsa.pestk.length = fr.length
  pb : m.Buffered a.fsa.pb.length
  comment : m = .comment → fr.head? ≠ some .squote

section Step

variable (eval : Heap → Ref → Except Ylerr Heap) {a : Auto} {c : UInt8} {p : List UInt8}

def Fsa.countLine (fsa : Fsa) (c : UInt8) : Fsa :=
  { fsa with line := if c = '\n'.toUInt8 then fsa.line + 1 else fsa.line }

theorem step_of_handled {fsa : Fsa} {next : Next} (hp : a.p = c :: p) (hc : c ≠ 0)
    (h : nextChar a.fsa c a.st = .ok (true, next, fsa)) :
    step eval a = transition eval a.st p (fsa.countLine c) next := by
  rw [step, hp]
  simp only [if_neg hc, h]
  rfl

theorem step_of_unhandled {fsa : Fsa} {next : Next} (hp : a.p = c :: p) (hc : c ≠ 0)
    (h : nextChar a.fsa c a.st = .ok (false, next, fsa)) :
    step eval a = transition eval a.st a.p fsa next := by
  rw [step, hp]
  simp only [if_neg hc, h]

theorem step_of_error {e : Ylerr} (hp : a.p = c :: p) (hc : c ≠ 0)
    (h : nextChar a.fsa c a.st = .error e) : step eval a = .inr (.ret e a.fsa) := by
  rw [step, hp]
  simp only [if_neg hc, h]

theorem transition_enter {nst : Fsas}
    (h : nst ≠ .escape) (st : Fsas) (p : List UInt8) (fsa : Fsa) :
    transition eval st p fsa (.enter nst) = .inl ⟨pushState nst fsa, nst, p⟩ := by
  cases nst <;> first | rfl | exact absurd rfl h

theorem step_enter {nst : Fsas} {fsa : Fsa} (hp : a.p = c :: p) (hc : c ≠ 0)
    (hnst : nst ≠ .escape) (h : nextChar a.fsa c a.st = .ok (true, .enter nst, fsa)) :
    step eval a = .inl ⟨pushState nst (fsa.countLine c), nst, p⟩ := by
  rw [step_of_handled eval hp hc h, transition_enter eval hnst]

theorem step_enter_unhandled {nst : Fsas} {fsa : Fsa} (hp : a.p = c :: p) (hc : c ≠ 0)
    (hnst : nst ≠ .escape) (h : nextChar a.fsa c a.st = .ok (false, .enter nst, fsa)) :
    step eval a = .inl ⟨pushState nst fsa, nst, a.p⟩ := by
  rw [step_of_unhandled eval hp hc h, transition_enter eval hnst]

theorem transition_exit (st : Fsas) (p : List UInt8)
    (fsa : Fsa) : (∃ e, transition eval st p fsa .exit = .inr (.eval e)) ∨
      ∃ a', transition eval st p fsa .exit = .inl a' := by
  simp only [transition]
  split
  next e _ => exact Or.inl ⟨e, rfl⟩
  next => exact Or.inr ⟨_, rfl⟩

end Step

/-- Where the automaton gets with one character: it ends in an evaluation, or it
does what the scan does. -/
def Follows (eval : Heap → Ref → Except Ylerr Heap) (a : Auto) (c : UInt8) (p : List UInt8)
    (q : Option (Mode × ℕ)) : Prop :=
  (∃ e, Machine.Ends (step eval) a (.eval e)) ∨
    match q with
    | none => ∃ e fsa, e ≠ .ok ∧ Machine.Ends (step eval) a (.ret e fsa)
    | some (m, d) => ∃ a' fr, Machine.Reaches (step eval) a a' ∧ a'.p = p ∧ Sim a' m d fr ∧
        (kind c = .white → a'.st ≠ .squote)

section Char

variable {eval : Heap → Ref → Except Ylerr Heap} {a a' : Auto} {c : UInt8} {p : List UInt8}
  {d : ℕ} {fr : List Fsas} {q : Option (Mode × ℕ)}

theorem Follows.of_reaches (h : Machine.Reaches (step eval) a a') (h' : Follows eval a' c p q) :
    Follows eval a c p q := by
  rcases h' with ⟨e, he⟩ | h'
  · exact Or.inl ⟨e, h.ends he⟩
  · right
    cases q with
    | none =>
        obtain ⟨e, fsa, hne, he⟩ := h'
        exact ⟨e, fsa, hne, h.ends he⟩
    | some q =>
        obtain ⟨a₁, fr, h₁, h₂⟩ := h'
        exact ⟨a₁, fr, h.trans h₁, h₂⟩

theorem Follows.of_step {m : Mode} (h : step eval a = .inl a') (hp : a'.p = p)
    (hsim : Sim a' m d fr) (hst : kind c = .white → a'.st ≠ .squote) :
    Follows eval a c p (some (m, d)) :=
  Or.inr ⟨a', fr, Machine.Reaches.of_step h, hp, hsim, hst⟩

/-- A round that leaves the state on top of the stack, whatever the state that is
come back to does. -/
theorem exit_round {st : Fsas} {fsa : Fsa} (h : step eval a = transition eval st p fsa .exit) :
    (∃ e, Machine.Ends (step eval) a (.eval e)) ∨
      ∃ a', step eval a = .inl a' ∧ a'.p = p ∧ Moved st fsa a' .exit := by
  rcases transition_exit eval st p fsa with ⟨e, he⟩ | ⟨a', ha'⟩
  · exact Or.inl ⟨e, Machine.Ends.of_result (h.trans he)⟩
  · obtain ⟨hp, hmoved⟩ := transition_inl ha'
    exact Or.inr ⟨a', h.trans ha', hp, hmoved⟩

theorem Open.tail {st : Fsas} (h : Open (st :: fr)) : Open fr :=
  fun x hx => h x (List.mem_cons_of_mem _ hx)

theorem Sim.base_cases (h : Sim a .base d fr) : a.st = .init ∧ fr = [] ∨
    (∃ fr', a.st = .list ∧ fr = .list :: fr') ∨ ∃ fr', a.st = .squote ∧ fr = .squote :: fr' := by
  have hst := h.st
  rw [h.ststk] at hst
  cases fr with
  | nil => exact Or.inl ⟨hst, rfl⟩
  | cons st fr =>
      have hopen := h.isOpen st List.mem_cons_self
      cases st with
      | list => exact Or.inr (Or.inl ⟨fr, hst, rfl⟩)
      | squote => exact Or.inr (Or.inr ⟨fr, hst, rfl⟩)
      | _ => cases hopen

theorem Sim.base_st (h : Sim a .base d fr) : a.st.isBase = true := by
  rcases h.base_cases with ⟨hst, -⟩ | ⟨_, hst, -⟩ | ⟨_, hst, -⟩ <;> rw [hst] <;> rfl

/-- Between tokens, a state other than `squote` is on top; or the character is
handed on until this is so. -/
theorem leave_squotes (eval : Heap → Ref → Except Ylerr Heap) (hc : c ≠ 0)
    (hk : kind c = .rpar ∨ kind c = .semi ∨ kind c = .white) :
    ∀ {a : Auto} {fr : List Fsas}, Sim a .base d fr → a.p = c :: p →
      (∃ e, Machine.Ends (step eval) a (.eval e)) ∨
        ∃ a' fr', Machine.Reaches (step eval) a a' ∧ a'.p = c :: p ∧ Sim a' .base d fr' ∧
          (a'.st = .init ∧ fr' = [] ∨ ∃ fr'', a'.st = .list ∧ fr' = .list :: fr'') := by
  intro a fr
  induction fr generalizing a with
  | nil =>
      intro h hp
      have hst := h.st
      rw [h.ststk] at hst
      exact Or.inr ⟨a, [], Relation.ReflTransGen.refl, hp, h, Or.inl ⟨hst, rfl⟩⟩
  | cons st fr ih =>
      intro h hp
      rcases h.base_cases with ⟨-, hfr⟩ | hlist | ⟨fr', hast, hfr⟩
      · cases hfr
      · exact Or.inr ⟨a, st :: fr, Relation.ReflTransGen.refl, hp, h, Or.inr hlist⟩
      · cases hfr
        have hnext : nextChar a.fsa c a.st = .ok (false, .exit, a.fsa) := by
          rw [hast]
          rcases hk with hk | hk | hk <;> simp [nextChar, fsasSquoteNextChar, hk, Except.map]
        rcases exit_round (step_of_unhandled eval hp hc hnext) with he | ⟨a', hs, hp', hm⟩
        · exact Or.inl he
        · obtain ⟨h1, h2, h3⟩ := hm
          rw [h.ststk] at h1 h2
          have hsim : Sim a' .base d fr := by
            refine ⟨h2, by rw [h1, h2], h.isOpen.tail, ?_, ?_, trivial, by simp⟩
            · rw [← h.depth, List.count_cons_of_ne (by simp)]
            · simp [h3, hast, Fsas.isOpen, h.pestk]
          rcases ih hsim (hp'.trans hp) with ⟨e, he⟩ | ⟨a'', fr', hr, hrest⟩
          · exact Or.inl ⟨e, Machine.Ends.of_step hs he⟩
          · exact Or.inr ⟨a'', fr', Relation.ReflTransGen.head hs hr, hrest⟩

/-- The answers that all the states between tokens have in common. -/
theorem nextChar_base {st : Fsas} (hst : st.isBase = true) (fsa : Fsa) (c : UInt8) :
    (kind c = .dquo → nextChar fsa c st = .ok (true, .enter .dquote, fsa)) ∧
    (kind c = .squo → nextChar fsa c st = .ok (true, .enter .squote, fsa)) ∧
    (kind c = .esca → nextChar fsa c st = .ok (true, .enter .escape, fsa)) ∧
    (kind c = .lpar → nextChar fsa c st = .ok (true, .enter .list, fsa)) ∧
    (kind c = .other → nextChar fsa c st = .ok (false, .enter .symbol, fsa)) := by
  cases st with
  | init | list | squote =>
      refine ⟨?_, ?_, ?_, ?_, ?_⟩ <;> intro hk <;>
        simp [nextChar, fsasInitNextChar, fsasListNextChar, fsasSquoteNextChar, hk, Except.map]
  | _ => cases hst

theorem nextChar_outer {st : Fsas} (hst : st = .init ∨ st = .list) (fsa : Fsa) (c : UInt8) :
    (kind c = .semi → nextChar fsa c st = .ok (true, .enter .comment, fsa)) ∧
    (kind c = .white → nextChar fsa c st = .ok (true, .nochg, fsa)) := by
  constructor <;> intro hk <;> rcases hst with rfl | rfl <;>
    simp [nextChar, fsasInitNextChar, fsasListNextChar, hk, Except.map]

theorem nextChar_rpar (fsa : Fsa) (hk : kind c = .rpar) :
    nextChar fsa c .init = .error .syntaxParenthesis ∧
      nextChar fsa c .list = .ok (true, .exit, fsa) := by
  simp [nextChar, fsasInitNextChar, fsasListNextChar, hk, Except.map]

theorem addSymchar_of_lt {fsa : Fsa} (h : fsa.pb.length < maxSymbol) (c : UInt8) :
    fsa.addSymchar c = .ok { fsa with pb := fsa.pb ++ [c] } := if_pos h

theorem addSymchar_of_le {fsa : Fsa} (h : ¬ fsa.pb.length < maxSymbol) (c : UInt8) :
    fsa.addSymchar c = .error .internal := if_neg h

theorem nextChar_symbol (fsa : Fsa) (c : UInt8) :
    (kind c = .esca → nextChar fsa c .symbol = .ok (true, .enter .escape, fsa)) ∧
    (kind c = .other → fsa.pb.length < maxSymbol →
      nextChar fsa c .symbol = .ok (true, .nochg, { fsa with pb := fsa.pb ++ [c] })) ∧
    (kind c = .other → ¬ fsa.pb.length < maxSymbol →
      nextChar fsa c .symbol = .error .internal) ∧
    (kind c ≠ .esca → kind c ≠ .other → nextChar fsa c .symbol = .ok (false, .exit, fsa)) := by
  simp only [nextChar, fsasSymbolNextChar]
  cases kind c <;>
    simp +contextual [addIfNochg, addSymchar_of_lt, addSymchar_of_le, Except.map]

theorem nextChar_dquote (fsa : Fsa) (c : UInt8) :
    (kind c = .dquo → nextChar fsa c .dquote = .ok (true, .exit, fsa)) ∧
    (kind c = .esca → nextChar fsa c .dquote = .ok (true, .enter .escape, fsa)) ∧
    (kind c ≠ .dquo → kind c ≠ .esca → fsa.pb.length < maxSymbol →
      nextChar fsa c .dquote = .ok (true, .nochg, { fsa with pb := fsa.pb ++ [c] })) ∧
    (kind c ≠ .dquo → kind c ≠ .esca → ¬ fsa.pb.length < maxSymbol →
      nextChar fsa c .dquote = .error .internal) := by
  simp only [nextChar, fsasDquoteNextChar]
  cases kind c <;>
    simp +contextual [addIfNochg, addSymchar_of_lt, addSymchar_of_le, Except.map]

theorem nextChar_escape (fsa : Fsa) (c : UInt8) :
    (c ∉ escapable → nextChar fsa c .escape = .error .syntaxEscape) ∧
    (c ∈ escapable → ¬ fsa.pb.length < maxSymbol → nextChar fsa c .escape = .error .internal) ∧
    (fsa.pb.length < maxSymbol → ∀ ch, escaped c = some ch →
      nextChar fsa c .escape = .ok (true, .exit, { fsa with pb := fsa.pb ++ [ch] })) := by
  rw [← escaped_isSome_iff]
  simp only [nextChar, fsasEscapeNextChar]
  cases escaped c <;>
    simp +contextual [addSymchar_of_lt, addSymchar_of_le, Except.map]

/-- Entering a state that is a mode of its own, from between tokens. -/
theorem Sim.push (h : Sim a .base d fr) (m : Mode) (nst : Fsas) (fsa : Fsa)
    (hst : fsa.ststk = a.fsa.ststk) (hpe : fsa.pestk = a.fsa.pestk) (hm : m.states = [nst])
    (hopen : nst.isOpen = false) (hpb : m.Buffered (pushState nst fsa).pb.length)
    (hcomment : m = .comment → fr.head? ≠ some .squote) (p : List UInt8) :
    Sim ⟨pushState nst fsa, nst, p⟩ m d fr := by
  refine ⟨?_, ?_, h.isOpen, h.depth, ?_, hpb, hcomment⟩
  · rw [pushState_ststk, hst, h.ststk, hm]
    rfl
  · rw [pushState_ststk]
    rfl
  · rw [pushState_pestk_length, hpe, h.pestk, if_neg (by simp [hopen]), Nat.add_zero]

theorem Sim.push_open (h : Sim a .base d fr) (nst : Fsas) (fsa : Fsa)
    (hst : fsa.ststk = a.fsa.ststk) (hpe : fsa.pestk = a.fsa.pestk)
    (hopen : nst.isOpen = true) (p : List UInt8) :
    Sim ⟨pushState nst fsa, nst, p⟩ .base (d + if nst = .list then 1 else 0) (nst :: fr) := by
  refine ⟨?_, ?_, List.forall_mem_cons.2 ⟨hopen, h.isOpen⟩, ?_, ?_, trivial, by simp⟩
  · rw [pushState_ststk, hst, h.ststk]
    rfl
  · rw [pushState_ststk]
    rfl
  · rw [List.count_cons, h.depth]
    simp
  · rw [pushState_pestk_length, hpe, h.pestk, if_pos hopen, List.length_cons]

/-- Leaving a state that is a mode of its own. -/
theorem Sim.pop {m : Mode} {st : Fsas} {fsa : Fsa} (h : Sim a m d fr) (hm : m.states = [st])
    (hst : fsa.ststk = a.fsa.ststk) (hpe : fsa.pestk = a.fsa.pestk) (hopen : st.isOpen = false)
    (hmoved : Moved st fsa a' .exit) : Sim a' .base d fr := by
  obtain ⟨h1, h2, h3⟩ := hmoved
  rw [hst, h.ststk, hm] at h1 h2
  rw [hpe, if_neg (by simp [hopen])] at h3
  exact ⟨h2, by rw [h1, h2], h.isOpen, h.depth, by rw [h3, h.pestk], trivial, by simp⟩

theorem Sim.st_of_states {m : Mode} {st : Fsas} {sts : List Fsas} (h : Sim a m d fr)
    (hm : m.states = st :: sts) : a.st = st := by
  rw [h.st, h.ststk, hm]
  rfl

/-- The escape state is entered with the state it escapes for below it. -/
theorem transition_escape (eval : Heap → Ref → Except Ylerr Heap) {m : Mode} {st : Fsas}
    {fsa : Fsa} (hst : st = .symbol ∨ st = .dquote) (hstk : fsa.ststk = st :: fr ++ [.init])
    (hm : m.states = [.escape, st]) (hbuf : m.Buffered fsa.pb.length) (hopen : Open fr)
    (hdepth : fr.count .list = d) (hpe : fsa.pestk.length = fr.length) (hne : m ≠ .comment)
    (st' : Fsas) (p : List UInt8) :
    transition eval st' p fsa (.enter .escape) = .inl ⟨pushState .escape fsa, .escape, p⟩ ∧
      Sim ⟨pushState .escape fsa, .escape, p⟩ m d fr := by
  have htop : fsa.ststk.headD .init = st := by rw [hstk]; rfl
  constructor
  · rcases hst with rfl | rfl <;> simp only [transition, htop]
  · refine ⟨?_, ?_, hopen, hdepth, ?_, hbuf, fun hc => absurd hc hne⟩
    · rw [pushState_ststk, hstk, hm]
      rfl
    · rw [pushState_ststk]
      rfl
    · rw [pushState_pestk_length, hpe]
      rfl

/-- Leaving the escape state only uncovers the state below it. -/
theorem transition_escape_exit (eval : Heap → Ref → Except Ylerr Heap) {st : Fsas}
    {sts : List Fsas} (hst : st = .symbol ∨ st = .dquote) (p : List UInt8) (fsa : Fsa)
    (hstk : fsa.ststk = .escape :: st :: sts) :
    transition eval .escape p fsa .exit = .inl ⟨{ fsa with ststk := st :: sts }, st, p⟩ := by
  have htail : fsa.ststk.tail = st :: sts := congrArg List.tail hstk
  simp only [transition, exit, id_eq, htail, List.headD_cons]
  rcases hst with rfl | rfl <;> rfl

theorem Sim.enterEscape {m : Mode} {st : Fsas} (h : Sim a m d fr) (m' : Mode) (hm : m.states = [st])
    (hst : st = .symbol ∨ st = .dquote) (hm' : m'.states = [.escape, st])
    (hbuf : m'.Buffered a.fsa.pb.length) (hne : m' ≠ .comment) :
    transition eval a.st p (a.fsa.countLine c) (.enter .escape) =
        .inl ⟨pushState .escape (a.fsa.countLine c), .escape, p⟩ ∧
      Sim ⟨pushState .escape (a.fsa.countLine c), .escape, p⟩ m' d fr := by
  have hstk : (a.fsa.countLine c).ststk = st :: fr ++ [.init] := by
    rw [show (a.fsa.countLine c).ststk = a.fsa.ststk from rfl, h.ststk, hm]
    rfl
  exact transition_escape eval hst hstk hm' hbuf h.isOpen h.depth h.pestk hne a.st p

theorem Sim.enterEscapeBase (h : Sim a .base d fr) :
    transition eval a.st p (a.fsa.countLine c) (.enter .escape) =
        .inl ⟨pushState .escape (pushState .symbol (a.fsa.countLine c)), .escape, p⟩ ∧
      Sim ⟨pushState .escape (pushState .symbol (a.fsa.countLine c)), .escape, p⟩
        (.escSym 0) d fr := by
  have hpush := h.push (.sym 0) .symbol (a.fsa.countLine c) rfl rfl rfl rfl rfl (by simp) p
  have htop : (a.fsa.countLine c).ststk.headD .init = a.st := h.st.symm
  have hesc : transition eval a.st p (a.fsa.countLine c) (.enter .escape) =
      transition eval a.st p (pushState .symbol (a.fsa.countLine c)) (.enter .escape) := by
    simp only [transition, htop]
    rcases h.base_cases with ⟨hst, -⟩ | ⟨_, hst, -⟩ | ⟨_, hst, -⟩ <;> rw [hst] <;> rfl
  rw [hesc]
  exact transition_escape eval (m := .escSym 0) (Or.inl rfl) hpush.ststk rfl hpush.pb
    hpush.isOpen hpush.depth hpush.pestk (by simp) a.st p

theorem Sim.leaveEscape {m m' : Mode} {st : Fsas} (h : Sim a m d fr) (bs : List UInt8)
    (hm : m.states = [.escape, st]) (hst : st = .symbol ∨ st = .dquote) (hm' : m'.states = [st])
    (hbuf : m'.Buffered bs.length) :
    ∃ a', transition eval .escape p (Fsa.countLine { a.fsa with pb := bs } c) .exit = .inl a' ∧
      a' = ⟨{ Fsa.countLine { a.fsa with pb := bs } c with
        ststk := st :: (fr ++ [.init]) }, st, p⟩ ∧ Sim a' m' d fr := by
  have hstk : (Fsa.countLine { a.fsa with pb := bs } c).ststk =
      .escape :: st :: (fr ++ [.init]) := by
    rw [show (Fsa.countLine { a.fsa with pb := bs } c).ststk = a.fsa.ststk from rfl, h.ststk, hm]
    rfl
  have hne : m' ≠ .comment := by
    rintro rfl
    cases hm'
    rcases hst with hst | hst <;> cases hst
  refine ⟨_, transition_escape_exit eval hst p _ hstk, rfl, ?_, rfl, h.isOpen, h.depth, h.pestk,
    hbuf, fun hcm => absurd hcm hne⟩
  rw [hm']
  rfl

/-- Staying in a mode, with the bytes `bs` in the buffer. -/
theorem Sim.stay {m : Mode} {bs : List UInt8} (h : Sim a m d fr) (m' : Mode)
    (hstates : m'.states = m.states) (hbuf : m'.Buffered bs.length)
    (hcomment : m' = .comment → m = .comment) :
    Sim ⟨Fsa.countLine { a.fsa with pb := bs } c, a.st, p⟩ m' d fr := by
  refine ⟨?_, h.st, h.isOpen, h.depth, h.pestk, hbuf, fun hm => h.comment (hcomment hm)⟩
  rw [hstates]
  exact h.ststk

theorem Follows.of_error {e : Ylerr} (h : nextChar a.fsa c a.st = .error e) (hp : a.p = c :: p)
    (hc : c ≠ 0) (he : e ≠ .ok) : Follows eval a c p none :=
  Or.inr ⟨e, a.fsa, he, Machine.Ends.of_result (step_of_error eval hp hc h)⟩

theorem rpar_char (eval : Heap → Ref → Except Ylerr Heap) (h : Sim a .base d fr)
    (hp : a.p = c :: p) (hc : c ≠ 0) (hk : kind c = .rpar) :
    Follows eval a c p (scanBase d c) := by
  have hzero : scanBase 0 c = none := by simp [scanBase, hk]
  have hsucc : ∀ d, scanBase (d + 1) c = some (.base, d) := fun d => by simp [scanBase, hk]
  rcases leave_squotes eval hc (Or.inl hk) h hp with
    he | ⟨a', fr', hr, hp', h', ⟨hst, rfl⟩ | ⟨fr'', hst, rfl⟩⟩
  · exact Or.inl he
  · obtain ⟨hinit, -⟩ := nextChar_rpar a'.fsa hk
    rw [← hst] at hinit
    rw [← h'.depth, List.count_nil, hzero]
    exact (Follows.of_error hinit hp' hc (by simp)).of_reaches hr
  · obtain ⟨-, hlist⟩ := nextChar_rpar a'.fsa hk
    rw [← hst] at hlist
    apply Follows.of_reaches hr
    rw [← h'.depth, List.count_cons_self, hsucc]
    rcases exit_round (step_of_handled eval hp' hc hlist) with he | ⟨a'', hs, hp'', h1, h2, h3⟩
    · exact Or.inl he
    · have htail : (a'.fsa.countLine c).ststk.tail = fr'' ++ [.init] :=
        congrArg List.tail h'.ststk
      refine Follows.of_step hs hp'' (show Sim a'' .base _ fr'' from ⟨h2.trans htail,
        by rw [h1, h2], h'.isOpen.tail, rfl, ?_, trivial, by simp⟩) (by simp [hk])
      rw [h3, hst]
      exact (List.length_tail).trans (congrArg (· - 1) h'.pestk)

theorem semi_char (h : Sim a .base d fr) (hp : a.p = c :: p) (hc : c ≠ 0) (hk : kind c = .semi) :
    Follows eval a c p (some (.comment, d)) := by
  rcases leave_squotes eval hc (Or.inr (Or.inl hk)) h hp with
    he | ⟨a', fr', hr, hp', h', hst⟩
  · exact Or.inl he
  · have houter : a'.st = .init ∨ a'.st = .list :=
      hst.imp And.left fun ⟨_, hst, _⟩ => hst
    have hne : fr'.head? ≠ some .squote := by
      rcases hst with ⟨-, rfl⟩ | ⟨_, -, rfl⟩ <;> simp
    have hs := step_enter eval hp' hc (by simp) ((nextChar_outer houter a'.fsa c).1 hk)
    have hpush := h'.push .comment .comment (a'.fsa.countLine c)
      rfl rfl rfl rfl trivial (fun _ => hne) p
    exact (Follows.of_step hs rfl hpush (by simp [hk])).of_reaches hr

theorem white_char (h : Sim a .base d fr) (hp : a.p = c :: p) (hc : c ≠ 0)
    (hk : kind c = .white) : Follows eval a c p (some (.base, d)) := by
  rcases leave_squotes eval hc (Or.inr (Or.inr hk)) h hp with
    he | ⟨a', fr', hr, hp', h', hst⟩
  · exact Or.inl he
  · have houter : a'.st = .init ∨ a'.st = .list :=
      hst.imp And.left fun ⟨_, hst, _⟩ => hst
    have hs := step_of_handled eval hp' hc ((nextChar_outer houter a'.fsa c).2 hk)
    have hsim := h'.stay (c := c) (p := p) .base rfl h'.pb (by simp)
    refine (Follows.of_step hs rfl hsim fun _ => ?_).of_reaches hr
    rcases houter with hst | hst <;> simp [hst]

/-- The start of a bare symbol: the state is entered first, and adds the character then. -/
theorem other_char (h : Sim a .base d fr) (hp : a.p = c :: p) (hc : c ≠ 0)
    (hk : kind c = .other) : Follows eval a c p (some (.sym 1, d)) := by
  obtain ⟨-, -, -, -, hother⟩ := nextChar_base h.base_st a.fsa c
  have hs := step_enter_unhandled eval hp hc (by simp) (hother hk)
  have hpush := h.push (.sym 0) .symbol a.fsa rfl rfl rfl rfl rfl (by simp) a.p
  have hadd : nextChar (pushState .symbol a.fsa) c .symbol =
      .ok (true, .nochg, { pushState .symbol a.fsa with pb := [c] }) := by
    simp only [nextChar, fsasSymbolNextChar, hk, addIfNochg, if_true]
    rfl
  have hs' := step_of_handled eval (a := ⟨pushState .symbol a.fsa, .symbol, a.p⟩) hp hc hadd
  exact (Follows.of_step hs' rfl (hpush.stay (.sym 1) rfl rfl (by simp))
    (by simp [hk])).of_reaches (Machine.Reaches.of_step hs)

theorem base_char (h : Sim a .base d fr) (hp : a.p = c :: p) (hc : c ≠ 0) :
    Follows eval a c p (scanBase d c) := by
  obtain ⟨hdquo, hsquo, hesca, hlpar, -⟩ := nextChar_base h.base_st a.fsa c
  have hrpar := rpar_char eval h hp hc
  unfold scanBase at hrpar ⊢
  cases hk : kind c with
  | rpar => simpa only [hk] using hrpar hk
  | dquo =>
      have hs := step_enter eval hp hc (by simp) (hdquo hk)
      have hpush := h.push (.str 0) .dquote (a.fsa.countLine c)
        rfl rfl rfl rfl rfl (by simp) p
      exact Follows.of_step hs rfl hpush (by simp [hk])
  | squo =>
      have hs := step_enter eval hp hc (by simp) (hsquo hk)
      have hpush := h.push_open .squote (a.fsa.countLine c) rfl rfl rfl p
      exact Follows.of_step hs rfl hpush (by simp [hk])
  | esca =>
      obtain ⟨hs, hsim⟩ := h.enterEscapeBase (c := c)
      exact Follows.of_step ((step_of_handled eval hp hc (hesca hk)).trans hs) rfl hsim
        (by simp [hk])
  | lpar =>
      have hs := step_enter eval hp hc (by simp) (hlpar hk)
      have hpush := h.push_open .list (a.fsa.countLine c) rfl rfl rfl p
      exact Follows.of_step hs rfl hpush (by simp [hk])
  | semi => exact semi_char h hp hc hk
  | white => exact white_char h hp hc hk
  | other => exact other_char h hp hc hk

theorem sym_char {k : ℕ} (h : Sim a (.sym k) d fr) (hp : a.p = c :: p) (hc : c ≠ 0) :
    Follows eval a c p (scanStep (.sym k, d) c) := by
  have hst : a.st = .symbol := h.st_of_states rfl
  have hpb : a.fsa.pb.length = k := h.pb
  obtain ⟨hesca, hother, hfull, hexit⟩ := nextChar_symbol a.fsa c
  rw [← hst, hpb] at hother hfull
  rw [← hst] at hesca hexit
  have hdelim : kind c ≠ .esca → kind c ≠ .other → Follows eval a c p (scanBase d c) := by
    intro h1 h2
    rcases exit_round (step_of_unhandled eval hp hc (hexit h1 h2)) with he | ⟨a', hs, hp', hmoved⟩
    · exact Or.inl he
    · rw [hst] at hmoved
      exact (base_char (h.pop rfl rfl rfl rfl hmoved) (hp'.trans hp) hc).of_reaches
        (Machine.Reaches.of_step hs)
  rw [scanStep]
  cases hk : kind c with
  | other =>
      by_cases hlt : k < maxSymbol
      · simp only [if_pos hlt]
        exact Follows.of_step (step_of_handled eval hp hc (hother hk hlt)) rfl
          (h.stay (.sym (k + 1)) rfl (by simp [Mode.Buffered, hpb]) (by simp)) (by simp [hk])
      · simp only [if_neg hlt]
        exact Follows.of_error (hfull hk hlt) hp hc (by simp)
  | esca =>
      obtain ⟨hs, hsim⟩ := h.enterEscape (.escSym k) rfl (Or.inl rfl) rfl h.pb (by simp)
      exact Follows.of_step ((step_of_handled eval hp hc (hesca hk)).trans hs) rfl hsim
        (by simp [hk])
  | _ => exact hdelim (by simp [hk]) (by simp [hk])

theorem str_char {k : ℕ} (h : Sim a (.str k) d fr) (hp : a.p = c :: p) (hc : c ≠ 0) :
    Follows eval a c p (scanStep (.str k, d) c) := by
  have hst : a.st = .dquote := h.st_of_states rfl
  have hpb : a.fsa.pb.length = k := h.pb
  obtain ⟨hdquo, hesca, hother, hfull⟩ := nextChar_dquote a.fsa c
  rw [← hst, hpb] at hother hfull
  rw [← hst] at hdquo hesca
  have hchr : kind c ≠ .dquo → kind c ≠ .esca →
      Follows eval a c p (if k < maxSymbol then some (.str (k + 1), d) else none) := by
    intro h1 h2
    by_cases hlt : k < maxSymbol
    · rw [if_pos hlt]
      exact Follows.of_step (step_of_handled eval hp hc (hother h1 h2 hlt)) rfl
        (h.stay (.str (k + 1)) rfl (by simp [Mode.Buffered, hpb]) (by simp))
        fun _ => by simp [hst]
    · rw [if_neg hlt]
      exact Follows.of_error (hfull h1 h2 hlt) hp hc (by simp)
  rw [scanStep]
  cases hk : kind c with
  | dquo =>
      rcases exit_round (step_of_handled eval hp hc (hdquo hk)) with he | ⟨a', hs, hp', hmoved⟩
      · exact Or.inl he
      · rw [hst] at hmoved
        exact Follows.of_step hs hp' (h.pop rfl rfl rfl rfl hmoved) (by simp [hk])
  | esca =>
      obtain ⟨hs, hsim⟩ := h.enterEscape (.escStr k) rfl (Or.inr rfl) rfl h.pb (by simp)
      exact Follows.of_step ((step_of_handled eval hp hc (hesca hk)).trans hs) rfl hsim
        (by simp [hk])
  | _ => exact hchr (by simp [hk]) (by simp [hk])

theorem esc_char {k : ℕ} {m m' : Mode} {st : Fsas} (h : Sim a m d fr)
    (hm : m.states = [.escape, st]) (hpb : a.fsa.pb.length = k)
    (hst : st = .symbol ∨ st = .dquote) (hm' : m'.states = [st]) (hbuf : m'.Buffered (k + 1))
    (hp : a.p = c :: p) (hc : c ≠ 0) :
    Follows eval a c p (if c ∈ escapable ∧ k < maxSymbol then some (m', d) else none) := by
  have hast : a.st = .escape := h.st_of_states hm
  obtain ⟨hbad, hfull, hok⟩ := nextChar_escape a.fsa c
  rw [← hast, hpb] at hfull hok
  rw [← hast] at hbad
  by_cases hmem : c ∈ escapable
  · by_cases hlt : k < maxSymbol
    · obtain ⟨ch, hch⟩ := Option.isSome_iff_exists.1 ((escaped_isSome_iff c).2 hmem)
      have hs := step_of_handled eval hp hc (hok hlt ch hch)
      rw [hast] at hs
      obtain ⟨a', hs', rfl, hsim⟩ := h.leaveEscape (a.fsa.pb ++ [ch]) hm hst hm'
        (by simpa [hpb] using hbuf)
      rw [if_pos ⟨hmem, hlt⟩]
      refine Follows.of_step (hs.trans hs') rfl hsim fun _ => ?_
      rcases hst with rfl | rfl <;> simp
    · rw [if_neg fun hc' => hlt hc'.2]
      exact Follows.of_error (hfull hmem hlt) hp hc (by simp)
  · rw [if_neg fun hc' => hmem hc'.1]
    exact Follows.of_error (hbad hmem) hp hc (by simp)

theorem comment_char (h : Sim a .comment d fr) (hp : a.p = c :: p) (hc : c ≠ 0) :
    Follows eval a c p (scanStep (.comment, d) c) := by
  have hst : a.st = .comment := h.st_of_states rfl
  have hne := h.comment rfl
  have hnext : nextChar a.fsa c a.st =
      .ok (true, if c = '\n'.toUInt8 then .exit else .nochg, a.fsa) := by
    rw [hst]
    rfl
  rw [scanStep]
  by_cases hnl : c = '\n'.toUInt8
  · rw [if_pos hnl] at hnext ⊢
    rcases exit_round (step_of_handled eval hp hc hnext) with he | ⟨a', hs, hp', hmoved⟩
    · exact Or.inl he
    · rw [hst] at hmoved
      have hsim := h.pop rfl rfl rfl rfl hmoved
      refine Follows.of_step hs hp' hsim fun _ => ?_
      rcases hsim.base_cases with ⟨hst', -⟩ | ⟨_, hst', -⟩ | ⟨_, -, rfl⟩
      · simp [hst']
      · simp [hst']
      · exact absurd rfl hne
  · rw [if_neg hnl] at hnext ⊢
    exact Follows.of_step (step_of_handled eval hp hc hnext) rfl
      (h.stay .comment rfl trivial fun _ => rfl) fun _ => by simp [hst]

/-- One character takes the automaton where it takes the scan. -/
theorem sim_char (eval : Heap → Ref → Except Ylerr Heap) {m : Mode} (h : Sim a m d fr)
    (hp : a.p = c :: p) (hc : c ≠ 0) :
    Follows eval a c p (scanStep (m, d) c) := by
  cases m with
  | base => exact base_char h hp hc
  | comment => exact comment_char h hp hc
  | sym k => exact sym_char h hp hc
  | str k => exact str_char h hp hc
  | escSym k => exact esc_char h rfl h.pb (Or.inl rfl) rfl rfl hp hc
  | escStr k => exact esc_char h rfl h.pb (Or.inr rfl) rfl rfl hp hc

end Char

section Text

variable {m : Mode} {d : ℕ} {fr : List Fsas}

theorem sim_start (heap : Heap) (s : List UInt8) : Sim (start heap s) .base 0 [] := by
  refine ⟨?_, ?_, by simp [Open], rfl, ?_, trivial, by simp⟩
  · rw [start, pushState_ststk]
    rfl
  · rw [start, pushState_ststk]
    rfl
  · rw [start, pushState_pestk_length]
    rfl

/-- At the end of the text: the automaton is content between tokens when no list
is open. -/
theorem finish_ok_iff {a : Auto} (h : Sim a m d fr) (hst : a.st ≠ .squote) :
    ∃ e fsa, finish a.fsa = .ret e fsa ∧ (e = .ok ↔ (m, d) = (.base, 0)) := by
  have hother : ∀ {st sts}, a.fsa.ststk = st :: sts → st ≠ .init →
      finish a.fsa = .ret .syntaxUnknown a.fsa := by
    intro st sts hstk hne
    unfold finish
    rw [hstk]
    cases st <;> first | rfl | exact absurd rfl hne
  have hstk := h.ststk
  cases m with
  | base =>
      rcases h.base_cases with ⟨-, rfl⟩ | ⟨fr', -, rfl⟩ | ⟨_, hsq, -⟩
      · have hpe : a.fsa.pestk.length = 0 := h.pestk
        refine ⟨.ok, exit .init { a.fsa with ststk := [] }, ?_, by simp [← h.depth]⟩
        unfold finish
        rw [show a.fsa.ststk = [.init] from hstk]
        simp only [exit, Fsa.clearSentinel, hpe, if_true]
      · refine ⟨.syntaxUnknown, a.fsa, hother hstk (by simp), ?_⟩
        simp [← h.depth]
      · exact absurd hsq hst
  | _ => exact ⟨.syntaxUnknown, a.fsa, hother hstk (by simp), by simp⟩

/-- The automaton ends on a text as the scan does, unless an evaluation fails. -/
theorem accepts_iff_scan (eval : Heap → Ref → Except Ylerr Heap) :
    ∀ (p : List UInt8) {a : Auto} {m : Mode} {d : ℕ} {fr : List Fsas},
    Sim a m d fr → a.p = p → 0 ∉ p → (p = [] → a.st ≠ .squote) →
    (∀ q, p.getLast? = some q → kind q = .white) →
    (∃ e, Machine.Ends (step eval) a (.eval e)) ∨
      ∃ e fsa, Machine.Ends (step eval) a (.ret e fsa) ∧
        (e = .ok ↔ scan (m, d) p = some (.base, 0))
  | [], a, m, d, fr, h, hp, _, hst, _ => by
      obtain ⟨e, fsa, he, hiff⟩ := finish_ok_iff h (hst rfl)
      right
      refine ⟨e, fsa, Machine.Ends.of_result ?_, by rw [hiff, scan, Option.some.injEq]⟩
      rw [step, hp, ← he]
  | c :: p, a, m, d, fr, h, hp, h0, _, hlast => by
      rw [List.mem_cons, not_or] at h0
      rcases sim_char eval h hp (Ne.symm h0.1) with he | hq
      · exact Or.inl he
      · cases hscan : scanStep (m, d) c with
        | none =>
            rw [hscan] at hq
            obtain ⟨e, fsa, hne, hends⟩ := hq
            exact Or.inr ⟨e, fsa, hends, by simp [scan, hscan, hne]⟩
        | some q =>
            rw [hscan] at hq
            obtain ⟨a', fr', hr, hp', hsim, hwhite⟩ := hq
            have hlast' : ∀ x, p.getLast? = some x → kind x = .white := by
              intro x hx
              apply hlast
              rw [List.getLast?_cons, hx]
              rfl
            have hst' : p = [] → a'.st ≠ .squote := by
              rintro rfl
              exact hwhite (hlast c rfl)
            rcases accepts_iff_scan eval p hsim hp' h0.2 hst' hlast' with
              ⟨e, he⟩ | ⟨e, fsa, he, hiff⟩
            · exact Or.inl ⟨e, hr.ends he⟩
            · exact Or.inr ⟨e, fsa, hr.ends he, by rw [hiff, scan, hscan, Option.bind_some]⟩

/-- The automaton accepts the readable texts, and keeps its stacks in order. -/
theorem ylinterpAutomata_ok_iff (eval : Heap → Ref → Except Ylerr Heap) (heap : Heap)
    (s : List UInt8) (hs : 0 ∉ s)
    (heval : ∀ e, ylinterpAutomata eval heap s ≠ some (.eval e)) :
    ((∃ fsa, ylinterpAutomata eval heap s = some (.ret .ok fsa)) ↔ Readable s) ∧
      ∀ a, Machine.Reaches (step eval) (start heap s) a → ∃ above, Stacks a above := by
  refine ⟨?_, fun a ha => stacks_of_reaches ha⟩
  have hnl : 0 ∉ s ++ ['\n'.toUInt8] := by
    rw [List.mem_append, not_or]
    exact ⟨hs, by decide⟩
  have hlast : ∀ q, (s ++ ['\n'.toUInt8]).getLast? = some q → kind q = .white := by
    intro q hq
    rw [List.getLast?_concat] at hq
    cases hq
    rfl
  rw [readable_iff_scan]
  rcases accepts_iff_scan eval (s ++ ['\n'.toUInt8]) (sim_start heap s) rfl hnl (by simp) hlast with
    ⟨e, he⟩ | ⟨e, fsa, he, hiff⟩
  · exact absurd (ylinterpAutomata_eq_some.2 he) (heval e)
  · have hrun := ylinterpAutomata_eq_some.2 he
    rw [← hiff, hrun]
    constructor
    · rintro ⟨_, h⟩
      cases h
      rfl
    · rintro rfl
      exact ⟨fsa, rfl⟩

/-- On `'(a "b)" ; c`, with evaluations that leave the heap alone. -/
theorem ylinterpAutomata_ok_iff_quoted :
    let s := "'(a \"b)\") ; c".toList.map Char.toUInt8
    let heap : Heap := ⟨0, fun _ => .sym []⟩
    ((∃ fsa, ylinterpAutomata (fun h _ => .ok h) heap s = some (.ret .ok fsa)) ↔ Readable s) ∧
      ∀ a, Machine.Reaches (step fun h _ => .ok h) (start heap s) a → ∃ above, Stacks a above :=
  ylinterpAutomata_ok_iff _ _ _ (by decide) (fun e he => by
    have hok : ∃ fsa, ylinterpAutomata (fun h _ => .ok h) ⟨0, fun _ => .sym []⟩
        ("'(a \"b)\") ; c".toList.map Char.toUInt8) = some (.ret .ok fsa) := ⟨_, rfl⟩
    obtain ⟨fsa, hfsa⟩ := hok
    rw [hfsa] at he
    cases he)

end Text

end Parser

end Ylisp
