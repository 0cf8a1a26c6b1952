import Ylisp.Parser.Rounds

/-!
# The lists of single quotes

The list of a quote is complete when the automaton leaves the state `squote`.
`quotesBuilt_iff` says for which texts all these lists have two elements, the
quote symbol and one datum.
-/

namespace Ylisp

namespace Parser

def LeavesQuote (a : Auto) : Prop :=
  a.st = .squote ∧ ∃ c p fsa, a.p = c :: p ∧ nextChar a.fsa c .squote = .ok (false, .exit, fsa)

def QuoteBuilt (a : Auto) : Prop :=
  LeavesQuote a → ∀ t ∈ a.fsa.pestk.head?, Quoted a.fsa.heap (a.fsa.heap.ylpcar (.blk t))

/-- Every list that the reader builds for a quote has two elements, and a text at whose end a
quote is still open is a syntax error. -/
structure QuotesBuilt (eval : Heap → Ref → Except Ylerr Heap) (heap : Heap) (s : List UInt8) :
    Prop where
  two : ∀ a, Machine.Reaches (step eval) (start heap s) a → QuoteBuilt a
  unclosed : ∀ a e fsa, Machine.Reaches (step eval) (start heap s) a →
    step eval a = .inr (.ret e fsa) → .squote ∈ a.fsa.ststk → e ≠ .ok

section Outline

variable {a : Auto} {x : Outline × List UInt8}

theorem nextChar_squote_exit_iff (fsa fsa' : Fsa) (c : UInt8) :
    nextChar fsa c .squote = .ok (false, .exit, fsa') ↔
      (kind c).closes = true ∧ fsa' = fsa := by
  rw [nextChar, fsasSquoteNextChar]
  cases kind c <;> simp [Except.map, Kind.closes, eq_comm]

theorem outline_squote (h : Outlines a x) (hst : a.st = .squote) :
    ∃ k fs, x.1 = (.base, .quote k :: fs) := by
  obtain ⟨⟨m, fs⟩, p⟩ := x
  obtain ⟨d, hsim⟩ := h.sim
  cases m with
  | base =>
      rcases h.base_cases with ⟨hst', -⟩ | ⟨fs', hst', -⟩ | ⟨k, fs', -, rfl⟩
      · rw [hst] at hst'
        cases hst'
      · rw [hst] at hst'
        cases hst'
      · exact ⟨k, fs', rfl⟩
  | _ =>
      have htop := hsim.st_of_states rfl
      rw [hst] at htop
      cases htop

theorem leavesQuote_iff (h : Outlines a x) :
    LeavesQuote a ↔
      ∃ k fs c p, x = ((.base, .quote k :: fs), c :: p) ∧ (kind c).closes = true := by
  constructor
  · rintro ⟨hst, c, p, fsa, hp, hnext⟩
    obtain ⟨k, fs, hq⟩ := outline_squote h hst
    have hp' : x.2 = c :: p := h.p.symm.trans hp
    exact ⟨k, fs, c, p, Prod.ext hq hp', ((nextChar_squote_exit_iff _ _ _).1 hnext).1⟩
  · rintro ⟨k, fs, c, p, rfl, hk⟩
    obtain ⟨d, hsim⟩ := h.sim
    have hst : a.st = .squote := by
      rw [hsim.st, hsim.ststk]
      rfl
    exact ⟨hst, c, p, a.fsa, h.p, (nextChar_squote_exit_iff _ _ _).2 ⟨hk, rfl⟩⟩

/-- The list of the innermost quote has two elements when one datum has been counted. -/
theorem quoted_of_spined {fsa : Fsa} {k : ℕ} {fs : List Frame}
    (h : Spined fsa (.quote k :: fs)) :
    (∀ t ∈ fsa.pestk.head?, Quoted fsa.heap (fsa.heap.ylpcar (.blk t))) ↔ k = 1 := by
  obtain ⟨l, -, hlast, hs⟩ := h
  cases hps : fsa.pestk with
  | nil =>
      rw [hps] at hs
      exact hs.elim
  | cons t ts =>
      rw [hps] at hs
      obtain ⟨-, ⟨s, -, ht, hq, hc⟩, -⟩ := hs
      rw [← quoted_iff hq hc hlast.2, ← ht]
      simp

/-- The quote that is left is well built if and only if one datum has been counted. -/
theorem quoteBuilt_iff (h : Outlines a x) : QuoteBuilt a ↔ wellQuoted x = true := by
  by_cases hl : LeavesQuote a
  · obtain ⟨k, fs, c, p, rfl, hk⟩ := (leavesQuote_iff h).1 hl
    rw [QuoteBuilt, imp_iff_right hl, quoted_of_spined h.spined]
    simp [wellQuoted, hk]
  · refine iff_of_true (fun h' => absurd h' hl) ?_
    rw [leavesQuote_iff h] at hl
    unfold wellQuoted
    split
    next k fs c p =>
      have hk : (kind c).closes ≠ true := fun hk => hl ⟨k, fs, c, p, rfl, hk⟩
      simp [hk]
    · rfl

end Outline

section Text

variable {eval : Heap → Ref → Except Ylerr Heap} {heap : Heap} {s : List UInt8}

theorem outlines_of_reaches {a : Auto} (h : Machine.Reaches (step eval) (start heap s) a) :
    ∃ x, Machine.Reaches outlineStep (outlineStart (s ++ ['\n'.toUInt8])) x ∧ Outlines a x :=
  h.follow (fun a x => Outlines a x) (fun _ _ _ hR hs => outlineStep_of_inl hR hs)
    (outlines_startOn heap _)

theorem reaches_of_outline (heval : Succeeds eval) (heap : Heap) {x : Outline × List UInt8}
    (h : Machine.Reaches outlineStep (outlineStart (s ++ ['\n'.toUInt8])) x) :
    ∃ a, Machine.Reaches (step eval) (start heap s) a ∧ Outlines a x :=
  h.follow (fun x a => Outlines a x) (fun _ _ _ hR hs => inl_of_outlineStep heval hR hs)
    (outlines_startOn heap _)

theorem oneDatum_iff (s : List UInt8) : OneDatum s ↔
    ∀ x, Machine.Reaches outlineStep (outlineStart (s ++ ['\n'.toUInt8])) x →
      wellQuoted x = true := by
  obtain ⟨r, hr⟩ := outline_ends (s := s) (p := s ++ ['\n'.toUInt8]) (by simp)
  exact Machine.checks_iff hr

/-- At the end of the text an open quote is a syntax error, whatever the text. -/
theorem unclosed_quote {a : Auto} {e : Ylerr} {fsa : Fsa}
    (h : Machine.Reaches (step eval) (start heap s) a) (hs : step eval a = .inr (.ret e fsa))
    (hq : .squote ∈ a.fsa.ststk) : e ≠ .ok := by
  obtain ⟨x, -, hx⟩ := outlines_of_reaches h
  cases hout : outlineStep x with
  | inl x' =>
      rcases lands_of_outlineStep eval hx hout with ⟨a', hs', -⟩ | ⟨e', hs'⟩
      · rw [hs] at hs'
        cases hs'
      · rw [hs] at hs'
        cases hs'
  | inr r =>
      obtain ⟨e', fsa', hs', hr⟩ := ret_of_outlineStep eval hx hout
      rw [hs] at hs'
      cases hs'
      cases r with
      | none => exact hr.1
      | some q =>
          obtain ⟨rfl, rfl⟩ := hr
          rw [if_neg]
          · simp
          · intro hbase
            obtain ⟨d, hsim⟩ := hx.sim
            rw [hsim.ststk, hbase] at hq
            simp [Mode.states] at hq

theorem quotesBuilt_of_oneDatum (eval : Heap → Ref → Except Ylerr Heap) (heap : Heap)
    (h : OneDatum s) : QuotesBuilt eval heap s := by
  refine ⟨fun a ha => ?_, fun a e fsa ha hs hq => unclosed_quote ha hs hq⟩
  obtain ⟨x, hx, hout⟩ := outlines_of_reaches ha
  exact (quoteBuilt_iff hout).2 ((oneDatum_iff s).1 h x hx)

theorem oneDatum_of_quotesBuilt (heval : Succeeds eval) (h : QuotesBuilt eval heap s) :
    OneDatum s := by
  refine (oneDatum_iff s).2 fun x hx => ?_
  obtain ⟨a, ha, hout⟩ := reaches_of_outline heval heap hx
  exact (quoteBuilt_iff hout).1 (h.two a ha)

end Text

/-- Every quote gets a list of two elements, whatever the evaluations do, if and only if in the
text each quote that is left has one datum behind it; and with evaluations that do not fail this
is so for each of them. -/
theorem quotesBuilt_iff (s : List UInt8) :
    ((∀ eval heap, QuotesBuilt eval heap s) ↔ OneDatum s) ∧
      ∀ eval heap, Succeeds eval → (QuotesBuilt eval heap s ↔ OneDatum s) := by
  refine ⟨⟨fun h => ?_, fun h eval heap => quotesBuilt_of_oneDatum eval heap h⟩,
    fun eval heap heval => ⟨oneDatum_of_quotesBuilt heval, quotesBuilt_of_oneDatum eval heap⟩⟩
  have heval : Succeeds fun h _ => .ok h := fun h _ => ⟨h, rfl⟩
  exact oneDatum_of_quotesBuilt heval (h (fun h _ => .ok h) ⟨0, fun _ => .sym []⟩)

/-- The quote in `(a ')` gets a list of one element, and the one in `'a(b)` a list of three. -/
theorem not_quotesBuilt :
    let eval : Heap → Ref → Except Ylerr Heap := fun h _ => .ok h
    let heap : Heap := ⟨0, fun _ => .sym []⟩
    (¬ QuotesBuilt eval heap ("(a ')".toList.map Char.toUInt8)) ∧
      ¬ QuotesBuilt eval heap ("'a(b)".toList.map Char.toUInt8) := by
  intro eval heap
  have heval : Succeeds eval := fun h _ => ⟨h, rfl⟩
  constructor
  · exact fun h => absurd (oneDatum_of_quotesBuilt heval h) (by decide)
  · exact fun h => absurd (oneDatum_of_quotesBuilt heval h) (by decide)

end Parser

end Ylisp
