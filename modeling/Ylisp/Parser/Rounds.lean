import Ylisp.Parser.Accept
import Ylisp.Parser.Spine

/-!
# The automaton follows the outline

`Outlines a x` relates a state of the automaton to the outline `x` of the text,
round for round: `round_sim` is the step of the simulation. The automaton may
end earlier, in an evaluation that fails.
-/

namespace Ylisp

namespace Parser

structure Outlines (a : Auto) (x : Outline × List UInt8) : Prop where
  p : a.p = x.2
  sim : ∃ d, Sim a x.1.1 d (x.1.2.map Frame.st)
  spined : Spined a.fsa x.1.2

def Lands (eval : Heap → Ref → Except Ylerr Heap) (a : Auto) (x : Outline × List UInt8) : Prop :=
  (∃ a', step eval a = .inl a' ∧ Outlines a' x) ∨ ∃ e, step eval a = .inr (.eval e)

section Round

variable {eval : Heap → Ref → Except Ylerr Heap} {a a' : Auto} {c : UInt8} {p : List UInt8}
  {fs : List Frame} {q : Outline}

theorem map_st_bump (fs : List Frame) : (Frame.bump fs).map Frame.st = fs.map Frame.st := by
  rcases fs with _ | ⟨_ | k, fs⟩ <;> rfl

theorem Spine.length : ∀ {fs : List Frame} {ts : List ℕ} {h : Heap} {l : ℕ}, Spine h fs ts l →
    ts.length = fs.length
  | [], [], _, _, _ => rfl
  | [], _ :: _, _, _, hs => hs.elim
  | _ :: _, [], _, _, hs => hs.elim
  | _ :: _, _ :: _, _, _, ⟨_, _, hrest⟩ => congrArg Nat.succ hrest.length

theorem Spined.length {fsa : Fsa} (h : Spined fsa fs) : fsa.pestk.length = fs.length := by
  cases fs with
  | nil => rw [h.1]; rfl
  | cons f fs =>
      obtain ⟨l, -, -, hs⟩ := h
      exact hs.length

theorem Outlines.base (hp : a.p = p) (hstk : a.fsa.ststk = fs.map Frame.st ++ [.init])
    (hst : a.st = a.fsa.ststk.headD .init) (hsp : Spined a.fsa fs) :
    Outlines a ((.base, fs), p) := by
  refine ⟨hp, ⟨_, hstk, hst, ?_, rfl, ?_, trivial, by simp⟩, hsp⟩
  · intro st hmem
    obtain ⟨f, -, rfl⟩ := List.mem_map.1 hmem
    cases f <;> rfl
  · rw [hsp.length, List.length_map]

theorem comeBack_spined (eval : Heap → Ref → Except Ylerr Heap) {fsa : Fsa} (h : Spined fsa fs) :
    ∃ fsa', comeBack eval ((fs.map Frame.st ++ [Fsas.init]).headD .init) fsa = .ok fsa' ∧
      fsa'.ststk = fsa.ststk ∧ Spined fsa' fs := by
  rcases fs with _ | ⟨_ | k, fs⟩
  · refine ⟨{ fsa.clearSentinel with pe := .sentinel }, ?_, rfl, h.1, rfl⟩
    simp [comeBack, fsasInitComeBack, h.2]
  · exact ⟨fsa, rfl, rfl, h⟩
  · exact ⟨fsa, rfl, rfl, h⟩

theorem lands_spined {st : Fsas} {fsa : Fsa}
    (hs : step eval a = transition eval st p fsa .exit)
    (hstk : fsa.ststk.tail = fs.map Frame.st ++ [.init]) (hspined : Spined (exit st fsa) fs) :
    Lands eval a ((.base, fs), p) := by
  have htail : (exit st fsa).ststk.tail = fs.map Frame.st ++ [.init] := by
    rw [exit_ststk, hstk]
  simp only [transition, htail] at hs
  have hspined' : Spined { exit st fsa with ststk := fs.map Frame.st ++ [.init] } fs :=
    hspined.congr rfl rfl rfl
  obtain ⟨fsa', hback, hststk, hfs⟩ := comeBack_spined eval hspined'
  rw [hback] at hs
  exact Or.inl ⟨_, hs, Outlines.base rfl hststk (by rw [hststk]) hfs⟩

/-- The state that is come back to after an element. -/
theorem lands_added {st : Fsas} {fsa : Fsa}
    (hs : step eval a = transition eval st p fsa .exit)
    (hstk : fsa.ststk.tail = fs.map Frame.st ++ [.init]) (hadded : Added (exit st fsa) fs) :
    Lands eval a ((.base, fs), p) := by
  cases fs with
  | cons f fs => exact lands_spined hs hstk hadded
  | nil =>
      obtain ⟨hps, hpe⟩ := hadded
      have htail : (exit st fsa).ststk.tail = [.init] := by rw [exit_ststk, hstk]; rfl
      simp only [transition, htail, List.headD_cons, comeBack, fsasInitComeBack, if_pos hpe] at hs
      split at hs
      · rename_i e heval
        split at heval
        · cases heval
          exact Or.inr ⟨_, hs⟩
        · cases heval
      · rename_i fsa' heval
        split at heval
        · cases heval
        · cases heval
          exact Or.inl ⟨_, hs, Outlines.base rfl rfl rfl ⟨hps, rfl⟩⟩

/-- The open states below the mode, and the state on top. -/
theorem Outlines.base_cases (h : Outlines a ((.base, fs), p)) : a.st = .init ∧ fs = [] ∨
    (∃ fs', a.st = .list ∧ fs = .list :: fs') ∨ ∃ k fs', a.st = .squote ∧ fs = .quote k :: fs' := by
  obtain ⟨d, hsim⟩ := h.sim
  rcases hsim.base_cases with ⟨hst, hfs⟩ | ⟨_, hst, hfs⟩ | ⟨_, hst, hfs⟩
  · exact Or.inl ⟨hst, List.map_eq_nil_iff.1 hfs⟩
  · rcases fs with _ | ⟨_ | k, fs'⟩
    · cases hfs
    · exact Or.inr (Or.inl ⟨fs', hst, rfl⟩)
    · cases hfs
  · rcases fs with _ | ⟨_ | k, fs'⟩
    · cases hfs
    · cases hfs
    · exact Or.inr (Or.inr ⟨k, fs', hst, rfl⟩)

theorem spined_pushState {fsa : Fsa} (h : Spined fsa fs) {st : Fsas} (hst : st.isBase = false) :
    Spined (pushState st fsa) fs := by
  cases st <;> first | exact h.congr rfl rfl rfl | cases hst

def RoundSim (eval : Heap → Ref → Except Ylerr Heap) (a : Auto) (c : UInt8) (p : List UInt8) :
    Option (Bool × Outline) → Prop
  | none => ∃ e, e ≠ .ok ∧ e ≠ .syntaxUnknown ∧ step eval a = .inr (.ret e a.fsa)
  | some (handled, q) => Lands eval a (q, if handled then p else c :: p)

theorem RoundSim.of_error {e : Ylerr} (h : nextChar a.fsa c a.st = .error e) (hp : a.p = c :: p)
    (hc : c ≠ 0) (he : e ≠ .ok) (he' : e ≠ .syntaxUnknown) : RoundSim eval a c p none :=
  ⟨e, he, he', step_of_error eval hp hc h⟩

theorem lands_quote {k : ℕ} (h : Outlines a ((.base, .quote k :: fs), c :: p)) (hc : c ≠ 0)
    (hk : (kind c).closes = true) : Lands eval a ((.base, fs), c :: p) := by
  obtain ⟨d, hsim⟩ := h.sim
  have hst : a.st = .squote := by
    rw [hsim.st, hsim.ststk]
    rfl
  have hnext : nextChar a.fsa c a.st = .ok (false, .exit, a.fsa) := by
    rw [hst]
    simp only [nextChar, fsasSquoteNextChar]
    cases hkind : kind c <;> rw [hkind] at hk <;> first | rfl | cases hk
  have hs := step_of_unhandled eval h.p hc hnext
  rw [hst] at hs
  have htail : a.fsa.ststk.tail = fs.map Frame.st ++ [.init] := congrArg List.tail hsim.ststk
  have hland := lands_added (p := a.p) hs htail h.spined.squoteExit
  rw [h.p] at hland
  exact hland

theorem round_rpar (eval : Heap → Ref → Except Ylerr Heap)
    (h : Outlines a ((.base, fs), c :: p)) (hc : c ≠ 0) (hk : kind c = .rpar) :
    (fs = [] → RoundSim eval a c p none) ∧
      ∀ fs', fs = .list :: fs' → Lands eval a ((.base, fs'), p) := by
  obtain ⟨d, hsim⟩ := h.sim
  obtain ⟨hinit, hlist⟩ := nextChar_rpar a.fsa hk
  constructor
  · rintro rfl
    have hst : a.st = .init := by rw [hsim.st, hsim.ststk]; rfl
    rw [← hst] at hinit
    exact RoundSim.of_error hinit h.p hc (by simp) (by simp)
  · rintro fs' rfl
    have hst : a.st = .list := by rw [hsim.st, hsim.ststk]; rfl
    rw [← hst] at hlist
    have hs := step_of_handled eval h.p hc hlist
    rw [hst] at hs
    have htail : (a.fsa.countLine c).ststk.tail = fs'.map Frame.st ++ [.init] :=
      congrArg List.tail hsim.ststk
    have hline : Spined (a.fsa.countLine c) (.list :: fs') := h.spined.congr rfl rfl rfl
    exact lands_added hs htail hline.listExit

theorem lands_semi (h : Outlines a ((.base, fs), c :: p)) (hc : c ≠ 0) (hk : kind c = .semi)
    (hst : a.st = .init ∨ a.st = .list) : Lands eval a ((.comment, fs), p) := by
  obtain ⟨d, hsim⟩ := h.sim
  have hne : (fs.map Frame.st).head? ≠ some .squote := by
    intro hhead
    rcases h.base_cases with ⟨-, rfl⟩ | ⟨_, -, rfl⟩ | ⟨_, _, hst', rfl⟩
    · cases hhead
    · cases hhead
    · rw [hst'] at hst
      rcases hst with hst | hst <;> cases hst
  have hs := step_enter eval h.p hc (by simp) ((nextChar_outer hst a.fsa c).1 hk)
  have hpush := hsim.push .comment .comment (a.fsa.countLine c) rfl rfl rfl rfl trivial
    (fun _ => hne) p
  have hline : Spined (a.fsa.countLine c) fs := h.spined.congr rfl rfl rfl
  exact Or.inl ⟨_, hs, rfl, ⟨d, hpush⟩, spined_pushState hline rfl⟩

theorem lands_white (h : Outlines a ((.base, fs), c :: p)) (hc : c ≠ 0) (hk : kind c = .white)
    (hst : a.st = .init ∨ a.st = .list) : Lands eval a ((.base, fs), p) := by
  obtain ⟨d, hsim⟩ := h.sim
  have hs := step_of_handled eval h.p hc ((nextChar_outer hst a.fsa c).2 hk)
  exact Or.inl ⟨_, hs, Outlines.base rfl hsim.ststk hsim.st (h.spined.congr rfl rfl rfl)⟩

theorem round_base (h : Outlines a ((.base, fs), c :: p)) (hc : c ≠ 0) :
    RoundSim eval a c p (roundBase c fs) := by
  obtain ⟨d, hsim⟩ := h.sim
  obtain ⟨hdquo, hsquo, hesca, hlpar, hother⟩ := nextChar_base hsim.base_st a.fsa c
  have hp : a.p = c :: p := h.p
  have hline : Spined (a.fsa.countLine c) fs := h.spined.congr rfl rfl rfl
  unfold roundBase
  cases hk : kind c with
  | dquo =>
      have hs := step_enter eval hp hc (by simp) (hdquo hk)
      have hpush := hsim.push (.str 0) .dquote (a.fsa.countLine c) rfl rfl rfl rfl rfl (by simp) p
      exact Or.inl ⟨_, hs, rfl, ⟨d, hpush⟩, spined_pushState hline rfl⟩
  | squo =>
      have hs := step_enter eval hp hc (by simp) (hsquo hk)
      have hpush := hsim.push_open .squote (a.fsa.countLine c) rfl rfl rfl p
      rw [← map_st_bump] at hpush
      have hopen : Spined { a.fsa.countLine c with
          ststk := .squote :: (a.fsa.countLine c).ststk } fs := hline.congr rfl rfl rfl
      exact Or.inl ⟨_, hs, rfl, ⟨_, hpush⟩, hopen.openList (Or.inr ⟨rfl, rfl⟩)⟩
  | esca =>
      obtain ⟨hs, hsim'⟩ := hsim.enterEscapeBase (c := c)
      exact Or.inl ⟨_, (step_of_handled eval hp hc (hesca hk)).trans hs, rfl, ⟨d, hsim'⟩,
        spined_pushState (spined_pushState hline rfl) rfl⟩
  | lpar =>
      have hs := step_enter eval hp hc (by simp) (hlpar hk)
      have hpush := hsim.push_open .list (a.fsa.countLine c) rfl rfl rfl p
      rw [← map_st_bump] at hpush
      have hopen : Spined { a.fsa.countLine c with
          ststk := .list :: (a.fsa.countLine c).ststk } fs := hline.congr rfl rfl rfl
      exact Or.inl ⟨_, hs, rfl, ⟨_, hpush⟩, hopen.openList (Or.inl rfl)⟩
  | other =>
      have hs := step_enter_unhandled eval hp hc (by simp) (hother hk)
      have hpush := hsim.push (.sym 0) .symbol a.fsa rfl rfl rfl rfl rfl (by simp) a.p
      exact Or.inl ⟨_, hs, hp, ⟨d, hpush⟩, spined_pushState h.spined rfl⟩
  | rpar =>
      obtain ⟨hinit, hlist⟩ := round_rpar eval h hc hk
      rcases h.base_cases with ⟨-, rfl⟩ | ⟨fs', -, rfl⟩ | ⟨k, fs', -, rfl⟩
      · exact hinit rfl
      · exact hlist fs' rfl
      · exact lands_quote h hc (by rw [hk]; rfl)
  | semi =>
      rcases h.base_cases with ⟨hst, rfl⟩ | ⟨fs', hst, rfl⟩ | ⟨k, fs', -, rfl⟩
      · exact lands_semi h hc hk (Or.inl hst)
      · exact lands_semi h hc hk (Or.inr hst)
      · exact lands_quote h hc (by rw [hk]; rfl)
  | white =>
      rcases h.base_cases with ⟨hst, rfl⟩ | ⟨fs', hst, rfl⟩ | ⟨k, fs', -, rfl⟩
      · exact lands_white h hc hk (Or.inl hst)
      · exact lands_white h hc hk (Or.inr hst)
      · exact lands_quote h hc (by rw [hk]; rfl)

theorem lands_symbol {m : Mode} {st : Fsas} {fsa : Fsa} {d : ℕ} (p' : List UInt8)
    (hsim : Sim a m d (fs.map Frame.st)) (hspined : Spined fsa fs) (hm : m.states = [st])
    (hst : st = .symbol ∨ st = .dquote) (hstk : fsa.ststk = a.fsa.ststk)
    (hs : step eval a = transition eval st p' fsa .exit) :
    Lands eval a ((.base, Frame.bump fs), p') := by
  have htail : fsa.ststk.tail = (Frame.bump fs).map Frame.st ++ [.init] := by
    rw [hstk, hsim.ststk, hm, map_st_bump]
    rfl
  refine lands_added hs htail ?_
  rcases hst with rfl | rfl <;> exact hspined.symbolExit

/-- Staying in a mode, with the bytes `bs` in the buffer. -/
theorem lands_stay {m : Mode} {d : ℕ} {bs : List UInt8} (m' : Mode)
    (hsim : Sim a m d (fs.map Frame.st)) (hspined : Spined a.fsa fs)
    (hstates : m'.states = m.states) (hbuf : m'.Buffered bs.length)
    (hcomment : m' = .comment → m = .comment)
    (hs : step eval a =
      transition eval a.st p (Fsa.countLine { a.fsa with pb := bs } c) .nochg) :
    Lands eval a ((m', fs), p) :=
  Or.inl ⟨_, hs, rfl, ⟨d, hsim.stay m' hstates hbuf hcomment⟩, hspined.congr rfl rfl rfl⟩

theorem round_sym {k : ℕ} (h : Outlines a ((.sym k, fs), c :: p)) (hc : c ≠ 0) :
    RoundSim eval a c p (round c (.sym k, fs)) := by
  obtain ⟨d, hsim⟩ := h.sim
  have hp : a.p = c :: p := h.p
  have hst : a.st = .symbol := hsim.st_of_states rfl
  have hpb : a.fsa.pb.length = k := hsim.pb
  have hline : Spined (a.fsa.countLine c) fs := h.spined.congr rfl rfl rfl
  obtain ⟨hesca, hother, hfull, hexit⟩ := nextChar_symbol a.fsa c
  rw [← hst, hpb] at hother hfull
  rw [← hst] at hesca hexit
  have hdelim : kind c ≠ .esca → kind c ≠ .other →
      Lands eval a ((.base, Frame.bump fs), c :: p) := by
    intro h1 h2
    have hs := step_of_unhandled eval hp hc (hexit h1 h2)
    rw [hst, hp] at hs
    exact lands_symbol _ hsim h.spined rfl (Or.inl rfl) rfl hs
  rw [round]
  cases hk : kind c with
  | other =>
      by_cases hlt : k < maxSymbol
      · simp only [if_pos hlt]
        exact lands_stay (.sym (k + 1)) hsim h.spined rfl (by simp [Mode.Buffered, hpb])
          (by simp) (step_of_handled eval hp hc (hother hk hlt))
      · simp only [if_neg hlt]
        exact RoundSim.of_error (hfull hk hlt) hp hc (by simp) (by simp)
  | esca =>
      obtain ⟨hs, hsim'⟩ := hsim.enterEscape (.escSym k) rfl (Or.inl rfl) rfl hsim.pb (by simp)
      exact Or.inl ⟨_, (step_of_handled eval hp hc (hesca hk)).trans hs, rfl, ⟨d, hsim'⟩,
        spined_pushState hline rfl⟩
  | _ => exact hdelim (by simp [hk]) (by simp [hk])

theorem round_str {k : ℕ} (h : Outlines a ((.str k, fs), c :: p)) (hc : c ≠ 0) :
    RoundSim eval a c p (round c (.str k, fs)) := by
  obtain ⟨d, hsim⟩ := h.sim
  have hp : a.p = c :: p := h.p
  have hst : a.st = .dquote := hsim.st_of_states rfl
  have hpb : a.fsa.pb.length = k := hsim.pb
  have hline : Spined (a.fsa.countLine c) fs := h.spined.congr rfl rfl rfl
  obtain ⟨hdquo, hesca, hother, hfull⟩ := nextChar_dquote a.fsa c
  rw [← hst, hpb] at hother hfull
  rw [← hst] at hdquo hesca
  have hchr : kind c ≠ .dquo → kind c ≠ .esca → RoundSim eval a c p
      (if k < maxSymbol then some (true, .str (k + 1), fs) else none) := by
    intro h1 h2
    by_cases hlt : k < maxSymbol
    · rw [if_pos hlt]
      exact lands_stay (.str (k + 1)) hsim h.spined rfl (by simp [Mode.Buffered, hpb])
        (by simp) (step_of_handled eval hp hc (hother h1 h2 hlt))
    · rw [if_neg hlt]
      exact RoundSim.of_error (hfull h1 h2 hlt) hp hc (by simp) (by simp)
  rw [round]
  cases hk : kind c with
  | dquo =>
      have hs := step_of_handled eval hp hc (hdquo hk)
      rw [hst] at hs
      exact lands_symbol p hsim hline rfl (Or.inr rfl) rfl hs
  | esca =>
      obtain ⟨hs, hsim'⟩ := hsim.enterEscape (.escStr k) rfl (Or.inr rfl) rfl hsim.pb (by simp)
      exact Or.inl ⟨_, (step_of_handled eval hp hc (hesca hk)).trans hs, rfl, ⟨d, hsim'⟩,
        spined_pushState hline rfl⟩
  | _ => exact hchr (by simp [hk]) (by simp [hk])

theorem round_esc {k : ℕ} {m m' : Mode} {st : Fsas} (h : Outlines a ((m, fs), c :: p))
    (hm : m.states = [.escape, st]) (hpb : a.fsa.pb.length = k)
    (hst : st = .symbol ∨ st = .dquote) (hm' : m'.states = [st]) (hbuf : m'.Buffered (k + 1))
    (hc : c ≠ 0) :
    RoundSim eval a c p
      (if c ∈ escapable ∧ k < maxSymbol then some (true, m', fs) else none) := by
  obtain ⟨d, hsim⟩ := h.sim
  have hp : a.p = c :: p := h.p
  have hast : a.st = .escape := hsim.st_of_states hm
  obtain ⟨hbad, hfull, hok⟩ := nextChar_escape a.fsa c
  rw [← hast, hpb] at hfull hok
  rw [← hast] at hbad
  by_cases hmem : c ∈ escapable
  · by_cases hlt : k < maxSymbol
    · obtain ⟨ch, hch⟩ := Option.isSome_iff_exists.1 ((escaped_isSome_iff c).2 hmem)
      have hs := step_of_handled eval hp hc (hok hlt ch hch)
      rw [hast] at hs
      obtain ⟨a', hs', rfl, hsim'⟩ := hsim.leaveEscape (a.fsa.pb ++ [ch]) hm hst hm'
        (by simpa [hpb] using hbuf)
      rw [if_pos ⟨hmem, hlt⟩]
      exact Or.inl ⟨_, hs.trans hs', rfl, ⟨d, hsim'⟩, h.spined.congr rfl rfl rfl⟩
    · rw [if_neg fun hc' => hlt hc'.2]
      exact RoundSim.of_error (hfull hmem hlt) hp hc (by simp) (by simp)
  · rw [if_neg fun hc' => hmem hc'.1]
    exact RoundSim.of_error (hbad hmem) hp hc (by simp) (by simp)

theorem round_comment (h : Outlines a ((.comment, fs), c :: p)) (hc : c ≠ 0) :
    RoundSim eval a c p (round c (.comment, fs)) := by
  obtain ⟨d, hsim⟩ := h.sim
  have hp : a.p = c :: p := h.p
  have hst : a.st = .comment := hsim.st_of_states rfl
  have hnext : nextChar a.fsa c a.st =
      .ok (true, if c = '\n'.toUInt8 then .exit else .nochg, a.fsa) := by
    rw [hst]
    rfl
  rw [round]
  by_cases hnl : c = '\n'.toUInt8
  · rw [if_pos hnl] at hnext ⊢
    have hs := step_of_handled eval hp hc hnext
    rw [hst] at hs
    have htail : (a.fsa.countLine c).ststk.tail = fs.map Frame.st ++ [.init] :=
      congrArg List.tail hsim.ststk
    exact lands_spined hs htail (h.spined.congr rfl rfl rfl)
  · rw [if_neg hnl] at hnext ⊢
    exact lands_stay .comment hsim h.spined rfl trivial (fun _ => rfl)
      (step_of_handled eval hp hc hnext)

variable (eval) in
theorem round_sim (h : Outlines a (q, c :: p)) (hc : c ≠ 0) :
    RoundSim eval a c p (round c q) := by
  obtain ⟨m, fs⟩ := q
  cases m with
  | base => exact round_base h hc
  | comment => exact round_comment h hc
  | sym k => exact round_sym h hc
  | str k => exact round_str h hc
  | escSym k =>
      obtain ⟨d, hsim⟩ := h.sim
      exact round_esc h rfl hsim.pb (Or.inl rfl) rfl rfl hc
  | escStr k =>
      obtain ⟨d, hsim⟩ := h.sim
      exact round_esc h rfl hsim.pb (Or.inr rfl) rfl rfl hc

/-- At the end of the text the automaton is content between tokens, with nothing open. -/
theorem finish_outline (h : Outlines a (q, p)) :
    ∃ fsa, finish a.fsa = .ret (if q = (.base, []) then .ok else .syntaxUnknown) fsa := by
  obtain ⟨m, fs⟩ := q
  obtain ⟨d, hsim⟩ := h.sim
  have hstk : a.fsa.ststk = m.states ++ fs.map Frame.st ++ [.init] := hsim.ststk
  have hother : ∀ st sts, a.fsa.ststk = st :: sts → st ≠ .init → (m, fs) ≠ (.base, []) →
      ∃ fsa, finish a.fsa = .ret (if (m, fs) = (.base, []) then .ok else .syntaxUnknown) fsa := by
    intro st sts hst hne hq
    refine ⟨a.fsa, ?_⟩
    rw [if_neg hq, finish, hst]
    cases st <;> first | rfl | exact absurd rfl hne
  cases m with
  | base =>
      rcases fs with _ | ⟨_ | k, fs⟩
      · obtain ⟨hps, -⟩ := h.spined
        refine ⟨exit .init { a.fsa with ststk := [] }, ?_⟩
        rw [finish, show a.fsa.ststk = [.init] from hstk]
        simp [exit, Fsa.clearSentinel, hps]
      · exact hother _ _ hstk (by simp [Frame.st]) (by simp)
      · exact hother _ _ hstk (by simp [Frame.st]) (by simp)
  | _ => exact hother _ _ hstk (by simp) (by simp)

end Round

section Step

variable {eval : Heap → Ref → Except Ylerr Heap} {a a' : Auto} {x x' : Outline × List UInt8}

variable (eval) in
theorem lands_of_outlineStep (h : Outlines a x) (hs : outlineStep x = .inl x') :
    Lands eval a x' := by
  obtain ⟨q, p⟩ := x
  cases p with
  | nil => cases hs
  | cons c p =>
      rw [outlineStep] at hs
      dsimp only at hs
      split_ifs at hs with hc
      have hsim := round_sim eval h hc
      revert hs hsim
      cases round c q with
      | none =>
          intro hs
          cases hs
      | some r =>
          intro hs hsim
          cases hs
          exact hsim

variable (eval) in
theorem ret_of_outlineStep {r : Option Outline} (h : Outlines a x)
    (hs : outlineStep x = .inr r) :
    ∃ e fsa, step eval a = .inr (.ret e fsa) ∧
      (match r with
        | none => e ≠ .ok ∧ e ≠ .syntaxUnknown
        | some q => q = x.1 ∧ e = if q = (.base, []) then .ok else .syntaxUnknown) := by
  obtain ⟨q, p⟩ := x
  have hp : a.p = p := h.p
  obtain ⟨fsa, hfinish⟩ := finish_outline h
  cases p with
  | nil =>
      obtain rfl := Sum.inr.inj hs
      refine ⟨_, fsa, ?_, rfl, rfl⟩
      rw [step, hp]
      exact congrArg Sum.inr hfinish
  | cons c p =>
      rw [outlineStep] at hs
      dsimp only at hs
      split_ifs at hs with hc
      · obtain rfl := Sum.inr.inj hs
        refine ⟨_, fsa, ?_, rfl, rfl⟩
        rw [step, hp]
        dsimp only
        rw [if_pos hc]
        exact congrArg Sum.inr hfinish
      · have hsim := round_sim eval h hc
        revert hs hsim
        cases round c q with
        | none =>
            intro hs hsim
            obtain rfl := Sum.inr.inj hs
            obtain ⟨e, he, he', hstep⟩ := hsim
            exact ⟨e, _, hstep, he, he'⟩
        | some r =>
            intro hs
            cases hs

theorem outlineStep_of_inl (h : Outlines a x) (hs : step eval a = .inl a') :
    ∃ x', outlineStep x = .inl x' ∧ Outlines a' x' := by
  cases hx : outlineStep x with
  | inl x' =>
      rcases lands_of_outlineStep eval h hx with ⟨a₁, hs₁, h₁⟩ | ⟨e, he⟩
      · rw [hs] at hs₁
        obtain rfl := Sum.inl.inj hs₁
        exact ⟨x', rfl, h₁⟩
      · rw [hs] at he
        cases he
  | inr r =>
      obtain ⟨e, fsa, he, -⟩ := ret_of_outlineStep eval h hx
      rw [hs] at he
      cases he

def Succeeds (eval : Heap → Ref → Except Ylerr Heap) : Prop := ∀ h r, ∃ h', eval h r = .ok h'

theorem comeBack_error {st : Fsas} {fsa : Fsa} {e : Ylerr} (h : comeBack eval st fsa = .error e) :
    ∃ heap r, eval heap r = .error e := by
  cases st with
  | init =>
      rw [comeBack, fsasInitComeBack] at h
      split_ifs at h
      · split at h
        · cases h
          exact ⟨_, _, ‹_›⟩
        · cases h
  | _ => cases h

theorem transition_ne_eval (heval : Succeeds eval) (st : Fsas) (p : List UInt8) (fsa : Fsa)
    (next : Next) (e : Ylerr) : transition eval st p fsa next ≠ .inr (.eval e) := by
  cases next with
  | nochg => simp [transition]
  | exit =>
      intro h
      simp only [transition] at h
      split at h
      · rename_i e' hback
        obtain ⟨heap, r, hfail⟩ := comeBack_error hback
        obtain ⟨h', hok⟩ := heval heap r
        rw [hok] at hfail
        cases hfail
      · cases h
  | enter nst => cases nst <;> simp [transition]

theorem step_ne_eval (heval : Succeeds eval) (e : Ylerr) : step eval a ≠ .inr (.eval e) := by
  have hfinish : ∀ fsa, finish fsa ≠ .eval e := by
    intro fsa h
    obtain ⟨e', fsa', hret, -⟩ := finish_evals fsa
    rw [hret] at h
    cases h
  intro h
  rw [step] at h
  split at h
  · exact hfinish _ (Sum.inr.inj h)
  next c p _ =>
    by_cases hc : c = 0
    · rw [if_pos hc] at h
      exact hfinish _ (Sum.inr.inj h)
    · rw [if_neg hc] at h
      split at h
      · cases h
      · exact transition_ne_eval heval _ _ _ _ e h
      · exact transition_ne_eval heval _ _ _ _ e h

theorem inl_of_outlineStep (heval : Succeeds eval) (h : Outlines a x)
    (hs : outlineStep x = .inl x') : ∃ a', step eval a = .inl a' ∧ Outlines a' x' := by
  rcases lands_of_outlineStep eval h hs with ha | ⟨e, he⟩
  · exact ha
  · exact absurd he (step_ne_eval heval e)

end Step

section Start

def startOn (heap : Heap) (p : List UInt8) : Auto := { start heap [] with p := p }

theorem start_eq (heap : Heap) (s : List UInt8) :
    start heap s = startOn heap (s ++ ['\n'.toUInt8]) := rfl

theorem outlines_startOn (heap : Heap) (p : List UInt8) :
    Outlines (startOn heap p) (outlineStart p) :=
  Outlines.base rfl rfl rfl ⟨rfl, rfl⟩

/-- The rounds suffice for the text with or without the line feed. -/
theorem startOn_ends (eval : Heap → Ref → Except Ylerr Heap) (heap : Heap) {s p : List UInt8}
    (hp : p.length ≤ s.length + 1) :
    (Machine.run (step eval) (rounds s) (startOn heap p)).isSome := by
  obtain ⟨h1, h2, h3, h4⟩ := stacks_start heap []
  have hstacks : Stacks (startOn heap p) [] := ⟨h1, h2, h3, h4⟩
  exact Option.isSome_iff_exists.2 (rounds_suffice eval hstacks hp)

theorem outline_ends {s p : List UInt8} (hp : p.length ≤ s.length + 1) :
    ∃ r, Machine.run outlineStep (rounds s) (outlineStart p) = some r := by
  have heval : Succeeds fun h _ => .ok h := fun h _ => ⟨h, rfl⟩
  have hrun := Machine.run_of_lockstep (fun a x => Outlines a x)
    (fun a x x' h hs => inl_of_outlineStep heval h hs) (rounds s)
    (startOn ⟨0, fun _ => .sym []⟩ p) (outlineStart p) (outlines_startOn _ p)
    (startOn_ends _ _ hp)
  exact Option.isSome_iff_exists.1 hrun

end Start

end Parser

end Ylisp
