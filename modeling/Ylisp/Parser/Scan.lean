import Ylisp.Parser.Lex

/-!
# A scanner for readable texts

`scan` is a small automaton without stacks: it keeps a mode and the number of
open parentheses. It ends between tokens with no open parenthesis exactly on the
readable texts (`readable_iff_scan`).
-/

namespace Ylisp

namespace Parser

inductive Mode where
  | base | comment
  | sym (k : ℕ)
  | str (k : ℕ)
  | escSym (k : ℕ)
  | escStr (k : ℕ)
  deriving DecidableEq

def scanBase (d : ℕ) (c : UInt8) : Option (Mode × ℕ) :=
  match kind c with
  | .dquo => some (.str 0, d)
  | .esca => some (.escSym 0, d)
  | .lpar => some (.base, d + 1)
  | .rpar => match d with
      | 0 => none
      | d + 1 => some (.base, d)
  | .semi => some (.comment, d)
  | .other => some (.sym 1, d)
  | .squo | .white => some (.base, d)

def scanStep : Mode × ℕ → UInt8 → Option (Mode × ℕ)
  | (.base, d), c => scanBase d c
  | (.comment, d), c => some (if c = '\n'.toUInt8 then .base else .comment, d)
  | (.sym k, d), c =>
      match kind c with
      | .other => if k < maxSymbol then some (.sym (k + 1), d) else none
      | .esca => some (.escSym k, d)
      | _ => scanBase d c
  | (.str k, d), c =>
      match kind c with
      | .dquo => some (.base, d)
      | .esca => some (.escStr k, d)
      | _ => if k < maxSymbol then some (.str (k + 1), d) else none
  | (.escSym k, d), c =>
      if c ∈ escapable ∧ k < maxSymbol then some (.sym (k + 1), d) else none
  | (.escStr k, d), c =>
      if c ∈ escapable ∧ k < maxSymbol then some (.str (k + 1), d) else none

def scan : Mode × ℕ → List UInt8 → Option (Mode × ℕ)
  | q, [] => some q
  | q, c :: p => (scanStep q c).bind fun q' => scan q' p

theorem scan_append (q : Mode × ℕ) (p p' : List UInt8) :
    scan q (p ++ p') = (scan q p).bind fun q' => scan q' p' := by
  induction p generalizing q with
  | nil => rfl
  | cons c p ih =>
      rw [List.cons_append, scan, scan]
      cases scanStep q c with
      | none => rfl
      | some q' => exact ih q'

section Complete

theorem scanStep_sym_delim {c : UInt8} (h1 : kind c ≠ .other) (h2 : kind c ≠ .esca)
    (k d : ℕ) : scanStep (.sym k, d) c = scanBase d c := by
  rw [scanStep]
  cases hk : kind c <;> simp_all

/-- Between tokens the scan moves as in a bare symbol that is still empty. -/
theorem scanStep_base (d : ℕ) (c : UInt8) : scanStep (.base, d) c = scanStep (.sym 0, d) c := by
  rw [scanStep, scanStep]
  cases hk : kind c <;> simp [scanBase, hk, maxSymbol]

theorem scan_base_cons (d : ℕ) (c : UInt8) (p : List UInt8) :
    scan (.base, d) (c :: p) = scan (.sym 0, d) (c :: p) := by
  rw [scan, scan, scanStep_base]

theorem scan_chr_sym {c : UInt8} (hc : c ∉ specials) {k : ℕ} (hk : k < maxSymbol) (d : ℕ) :
    scan (.sym k, d) [c] = some (.sym (k + 1), d) := by
  simp [scan, scanStep, (kind_eq_other_iff c).2 hc, hk]

theorem scan_chr_str {c : UInt8} (h1 : c ≠ '"'.toUInt8) (h2 : c ≠ '\\'.toUInt8) {k : ℕ}
    (hk : k < maxSymbol) (d : ℕ) : scan (.str k, d) [c] = some (.str (k + 1), d) := by
  have hmem := mem_chars_kind (c := c)
  simp only [scan, scanStep]
  cases hc : kind c with
  | dquo => simp [hc, Kind.chars, h1] at hmem
  | esca => simp [hc, Kind.chars, h2] at hmem
  | _ => simp [hk]

theorem scan_items (m : ℕ → Mode) (P : Item → Prop) (d : ℕ)
    (hstep : ∀ i k, P i → k < maxSymbol → scan (m k, d) i.text = some (m (k + 1), d))
    (items : List Item) (hitems : ∀ i ∈ items, P i) :
    ∀ k, k + items.length ≤ maxSymbol →
      scan (m k, d) (items.flatMap Item.text) = some (m (k + items.length), d) := by
  induction items with
  | nil => exact fun k _ => rfl
  | cons i items ih =>
      intro k hk
      rw [List.length_cons] at hk ⊢
      have hrest := ih (fun i hi => hitems i (List.mem_cons_of_mem _ hi)) (k + 1) (by omega)
      rw [List.flatMap_cons, scan_append, hstep i k (hitems i List.mem_cons_self) (by omega),
        Option.bind_some, hrest, Nat.add_assoc, Nat.add_comm 1]

theorem scan_symItems (d : ℕ) (items : List Item) (hitems : ∀ i ∈ items, i.InSym) :
    ∀ k, k + items.length ≤ maxSymbol →
      scan (.sym k, d) (items.flatMap Item.text) = some (.sym (k + items.length), d) := by
  refine scan_items Mode.sym Item.InSym d ?_ items hitems
  intro i k hi hk
  cases i with
  | chr c => exact scan_chr_sym hi hk d
  | esc c => simp [Item.text, scan, scanStep, show kind '\\'.toUInt8 = .esca from rfl,
      show c ∈ escapable from hi, hk]

theorem scan_strItems (d : ℕ) (items : List Item) (hitems : ∀ i ∈ items, i.InStr) :
    ∀ k, k + items.length ≤ maxSymbol →
      scan (.str k, d) (items.flatMap Item.text) = some (.str (k + items.length), d) := by
  refine scan_items Mode.str Item.InStr d ?_ items hitems
  intro i k hi hk
  cases i with
  | chr c => exact scan_chr_str hi.1 hi.2 hk d
  | esc c => simp [Item.text, scan, scanStep, show kind '\\'.toUInt8 = .esca from rfl,
      show c ∈ escapable from hi, hk]

theorem scan_comment (d : ℕ) (body : List UInt8) (hbody : '\n'.toUInt8 ∉ body) :
    scan (.comment, d) body = some (.comment, d) := by
  induction body with
  | nil => rfl
  | cons c body ih =>
      rw [List.mem_cons, not_or] at hbody
      rw [scan, scanStep, if_neg (Ne.symm hbody.1), Option.bind_some, ih hbody.2]

def Token.after : Token → Mode
  | comment _ => .comment
  | sym items => .sym items.length
  | _ => .base

/-- The token can be read in the mode that its predecessor leaves. -/
def Mode.Ready : Mode → Token → Prop
  | .base, _ => True
  | .comment, t => t = .white '\n'.toUInt8
  | .sym _, t => ∀ items, t ≠ .sym items
  | _, _ => False

theorem Token.Adj.ready {t t' : Token} (h : t.Adj t') : t.after.Ready t' := by
  cases t <;> cases t' <;> first | trivial | exact h | exact h.elim | (intro _ hc; cases hc)

theorem scan_token_base {t : Token} (ht : t.Ok) (d : ℕ) :
    scan (.base, d) t.text = (t.move d).map fun d' => (t.after, d') := by
  cases t with
  | white c =>
      have hc : kind c = .white := kind_eq_of_mem ht
      simp [Token.text, Token.move, Token.after, scan, scanStep, scanBase, hc]
  | comment body =>
      have hc : kind ';'.toUInt8 = .semi := rfl
      simp [Token.text, Token.move, Token.after, scan, scanStep, scanBase, hc,
        scan_comment d body ht]
  | quote => rfl
  | lpar => rfl
  | rpar => cases d <;> rfl
  | str items =>
      have hc : kind '"'.toUInt8 = .dquo := rfl
      have hitems := scan_strItems d items ht.1 0 (by simpa using ht.2)
      simp [Token.text, Token.move, Token.after, scan, scanStep, scanBase, hc, scan_append, hitems]
  | sym items =>
      have hitems := scan_symItems d items ht.2.1 0 (by simpa using ht.2.2)
      cases htext : items.flatMap Item.text with
      | nil =>
          cases items with
          | nil => exact absurd rfl ht.1
          | cons i items => cases i <;> simp [Item.text] at htext
      | cons c p =>
          rw [Token.text, htext, scan_base_cons, ← htext, hitems]
          simp [Token.move, Token.after]

/-- Whatever its predecessor, a token that may follow it is read as between
tokens. -/
theorem scan_token {t : Token} (ht : t.Ok) {m : Mode} (hm : m.Ready t) (d : ℕ) :
    scan (m, d) t.text = scan (.base, d) t.text := by
  cases m with
  | base => rfl
  | comment =>
      subst hm
      rfl
  | sym k =>
      have hdelim : ∀ c p, kind c ≠ .other → kind c ≠ .esca →
          scan (.sym k, d) (c :: p) = scan (.base, d) (c :: p) := by
        intro c p h1 h2
        rw [scan, scan, scanStep_sym_delim h1 h2]
        rfl
      cases t with
      | white c =>
          have hc : kind c = .white := kind_eq_of_mem ht
          exact hdelim _ _ (by simp [hc]) (by simp [hc])
      | sym items => exact absurd rfl (hm items)
      | _ => exact hdelim _ _ (by decide) (by decide)
  | _ => exact hm.elim

theorem scan_tokens : ∀ (ts : List Token) (m : Mode) (d : ℕ), (∀ t ∈ ts, t.Ok) →
    ts.IsChain Token.Adj → (∀ t ∈ ts.head?, m.Ready t) → (ts = [] → ∃ t, m.Ready t) →
    scan (m, d) (ts.flatMap Token.text ++ ['\n'.toUInt8]) = (depth d ts).map fun d' => (.base, d')
  | [], m, d, _, _, _, hm => by
      obtain ⟨t, hm⟩ := hm rfl
      cases m with
      | base => rfl
      | comment => rfl
      | sym k => rfl
      | _ => exact hm.elim
  | t :: ts, m, d, hok, hchain, hm, _ => by
      rw [List.flatMap_cons, List.append_assoc, scan_append,
        scan_token (hok t List.mem_cons_self) (hm t rfl),
        scan_token_base (hok t List.mem_cons_self), depth]
      cases hmove : t.move d with
      | none => rfl
      | some d' =>
          rw [Option.map_some, Option.bind_some, Option.bind_some]
          rw [List.isChain_cons] at hchain
          apply scan_tokens ts t.after d' (fun t ht => hok t (List.mem_cons_of_mem _ ht)) hchain.2
          · exact fun t' ht' => (hchain.1 t' ht').ready
          · intro _
            exact ⟨.white '\n'.toUInt8, by cases t <;> first | trivial | (intro _ hc; cases hc)⟩

end Complete

section Sound

def RestBase (d : ℕ) (p : List UInt8) : Prop :=
  ∃ ts : List Token, ts.flatMap Token.text = p ∧ (∀ t ∈ ts, t.Ok) ∧
    ts.IsChain Token.Adj ∧ depth d ts = some 0

def RestComment (d : ℕ) (p : List UInt8) : Prop :=
  ∃ (body : List UInt8) (ts : List Token),
    body ++ ts.flatMap Token.text = p ∧ '\n'.toUInt8 ∉ body ∧ (∀ t ∈ ts, t.Ok) ∧
    ts.IsChain Token.Adj ∧ depth d ts = some 0 ∧ ∀ t ∈ ts.head?, t = .white '\n'.toUInt8

def RestSym (k d : ℕ) (p : List UInt8) : Prop :=
  ∃ (items : List Item) (ts : List Token),
    items.flatMap Item.text ++ ts.flatMap Token.text = p ∧ (∀ i ∈ items, i.InSym) ∧
    k + items.length ≤ maxSymbol ∧ (∀ t ∈ ts, t.Ok) ∧ ts.IsChain Token.Adj ∧
    depth d ts = some 0 ∧ ∀ t ∈ ts.head?, ∀ items, t ≠ .sym items

def RestStr (k d : ℕ) (p : List UInt8) : Prop :=
  ∃ (items : List Item) (ts : List Token),
    items.flatMap Item.text ++ '"'.toUInt8 :: ts.flatMap Token.text = p ∧
    (∀ i ∈ items, i.InStr) ∧ k + items.length ≤ maxSymbol ∧ (∀ t ∈ ts, t.Ok) ∧
    ts.IsChain Token.Adj ∧ depth d ts = some 0

/-- What the rest of a text is, for a scan that is in a mode and accepts it. -/
def Rest (d : ℕ) (p : List UInt8) : Mode → Prop
  | .base => RestBase d p
  | .comment => RestComment d p
  | .sym k => k ≤ maxSymbol → RestSym k d p
  | .str k => k ≤ maxSymbol → RestStr k d p
  | .escSym k => ∃ c p', p = c :: p' ∧ c ∈ escapable ∧ k < maxSymbol ∧ RestSym (k + 1) d p'
  | .escStr k => ∃ c p', p = c :: p' ∧ c ∈ escapable ∧ k < maxSymbol ∧ RestStr (k + 1) d p'

theorem RestBase.cons {d d' : ℕ} {p : List UInt8} (h : RestBase d' p) {t : Token} (ht : t.Ok)
    (hmove : t.move d = some d') (hadj : ∀ t', t.Adj t') : RestBase d (t.text ++ p) := by
  obtain ⟨ts, rfl, hok, hchain, hdepth⟩ := h
  refine ⟨t :: ts, rfl, ?_, ?_, ?_⟩
  · exact List.forall_mem_cons.2 ⟨ht, hok⟩
  · exact List.isChain_cons.2 ⟨fun t' _ => hadj t', hchain⟩
  · rw [depth, hmove]
    exact hdepth

theorem RestComment.base {d : ℕ} {p : List UInt8} (h : RestComment d p) :
    RestBase d (';'.toUInt8 :: p) := by
  obtain ⟨body, ts, rfl, hbody, hok, hchain, hdepth, hhead⟩ := h
  refine ⟨.comment body :: ts, rfl, ?_, ?_, hdepth⟩
  · exact List.forall_mem_cons.2 ⟨hbody, hok⟩
  · exact List.isChain_cons.2 ⟨hhead, hchain⟩

theorem RestComment.cons {d : ℕ} {p : List UInt8} (h : RestComment d p) {c : UInt8}
    (hc : c ≠ '\n'.toUInt8) : RestComment d (c :: p) := by
  obtain ⟨body, ts, rfl, hbody, hrest⟩ := h
  exact ⟨c :: body, ts, rfl, by simp [hbody, hc.symm], hrest⟩

theorem RestSym.cons {k d : ℕ} {p : List UInt8} (h : RestSym (k + 1) d p) {i : Item}
    (hi : i.InSym) : RestSym k d (i.text ++ p) := by
  obtain ⟨items, ts, rfl, hitems, hlen, hrest⟩ := h
  refine ⟨i :: items, ts, by simp, List.forall_mem_cons.2 ⟨hi, hitems⟩, ?_, hrest⟩
  rw [List.length_cons]
  omega

theorem RestSym.base {d : ℕ} {p : List UInt8} (h : RestSym 1 d p) {i : Item}
    (hi : i.InSym) : RestBase d (i.text ++ p) := by
  obtain ⟨items, ts, rfl, hitems, hlen, hok, hchain, hdepth, hhead⟩ := h
  refine ⟨.sym (i :: items) :: ts, by simp [Token.text], ?_, ?_, hdepth⟩
  · refine List.forall_mem_cons.2 ⟨⟨by simp, List.forall_mem_cons.2 ⟨hi, hitems⟩, ?_⟩, hok⟩
    rw [List.length_cons]
    omega
  · refine List.isChain_cons.2 ⟨fun t ht => ?_, hchain⟩
    have hne := hhead t ht
    cases t with
    | sym items' => exact absurd rfl (hne items')
    | _ => trivial

theorem RestStr.cons {k d : ℕ} {p : List UInt8} (h : RestStr (k + 1) d p) {i : Item}
    (hi : i.InStr) : RestStr k d (i.text ++ p) := by
  obtain ⟨items, ts, rfl, hitems, hlen, hrest⟩ := h
  refine ⟨i :: items, ts, by simp, List.forall_mem_cons.2 ⟨hi, hitems⟩, ?_, hrest⟩
  rw [List.length_cons]
  omega

theorem RestStr.base {d : ℕ} {p : List UInt8} (h : RestStr 0 d p) :
    RestBase d ('"'.toUInt8 :: p) := by
  obtain ⟨items, ts, rfl, hitems, hlen, hok, hchain, hdepth⟩ := h
  refine ⟨.str items :: ts, by simp [Token.text], ?_, ?_, hdepth⟩
  · exact List.forall_mem_cons.2 ⟨⟨hitems, by omega⟩, hok⟩
  · exact List.isChain_cons.2 ⟨fun _ _ => trivial, hchain⟩

/-- A text that starts with a delimiter does not start with a bare symbol. -/
theorem RestBase.sym {k d : ℕ} {c : UInt8} {p : List UInt8} (h : RestBase d (c :: p))
    (hk : k ≤ maxSymbol) (h1 : kind c ≠ .other) (h2 : kind c ≠ .esca) :
    RestSym k d (c :: p) := by
  obtain ⟨ts, htext, hok, hchain, hdepth⟩ := h
  refine ⟨[], ts, htext, by simp, by simpa using hk, hok, hchain, hdepth, ?_⟩
  rintro t ht items rfl
  cases ts with
  | nil => cases ht
  | cons t ts =>
      cases ht
      obtain ⟨hne, hitems, -⟩ := hok (.sym items) List.mem_cons_self
      cases items with
      | nil => exact hne rfl
      | cons i items =>
          have hi := hitems i List.mem_cons_self
          cases i with
          | chr x =>
              have hx : x = c := by
                simp only [List.flatMap_cons, Token.text, Item.text, List.cons_append] at htext
                exact (List.cons.inj htext).1
              exact h1 ((kind_eq_other_iff c).2 (hx ▸ hi))
          | esc x =>
              have hx : '\\'.toUInt8 = c := by
                simp only [List.flatMap_cons, Token.text, Item.text, List.cons_append] at htext
                exact (List.cons.inj htext).1
              exact h2 (hx ▸ rfl)

theorem eq_of_kind {c x : UInt8} {k : Kind} (hk : kind c = k) (hne : k ≠ .other)
    (hx : k.chars = [x]) : c = x := by
  have hmem := mem_chars_kind (hk ▸ hne)
  rw [hk, hx] at hmem
  exact List.mem_singleton.1 hmem

/-- The step between tokens, for a rest `p` on which the scan is understood. -/
theorem restBase_of_scanBase {d : ℕ} {c : UInt8} {p : List UInt8}
    (ih : ∀ m d, scan (m, d) (p ++ ['\n'.toUInt8]) = some (.base, 0) → Rest d p m)
    (h : ((scanBase d c).bind fun q => scan q (p ++ ['\n'.toUInt8])) = some (.base, 0)) :
    RestBase d (c :: p) := by
  unfold scanBase at h
  cases hk : kind c <;> rw [hk] at h
  case dquo =>
    obtain rfl := eq_of_kind hk (by decide) rfl
    exact (ih _ _ h (Nat.zero_le _)).base
  case squo =>
    obtain rfl := eq_of_kind hk (by decide) rfl
    exact RestBase.cons (t := .quote) (ih _ _ h) trivial rfl fun _ => trivial
  case esca =>
    obtain rfl := eq_of_kind hk (by decide) rfl
    obtain ⟨c', p', rfl, hc', -, hrest⟩ := ih _ _ h
    exact hrest.base (i := .esc c') hc'
  case lpar =>
    obtain rfl := eq_of_kind hk (by decide) rfl
    exact RestBase.cons (t := .lpar) (ih _ _ h) trivial rfl fun _ => trivial
  case rpar =>
    obtain rfl := eq_of_kind hk (by decide) rfl
    cases d with
    | zero => cases h
    | succ d => exact RestBase.cons (t := .rpar) (ih _ _ h) trivial rfl fun _ => trivial
  case semi =>
    obtain rfl := eq_of_kind hk (by decide) rfl
    exact RestComment.base (ih _ _ h)
  case white =>
    have hmem := mem_chars_kind (c := c) (by simp [hk])
    rw [hk] at hmem
    exact RestBase.cons (t := .white c) (ih _ _ h) hmem rfl fun _ => trivial
  case other =>
    exact RestSym.base (i := .chr c) (ih _ _ h (by decide)) ((kind_eq_other_iff c).1 hk)

theorem restComment_of_scanStep {d : ℕ} {c : UInt8} {p : List UInt8}
    (ih : ∀ m d, scan (m, d) (p ++ ['\n'.toUInt8]) = some (.base, 0) → Rest d p m)
    (h : ((scanStep (.comment, d) c).bind fun q => scan q (p ++ ['\n'.toUInt8])) =
      some (.base, 0)) :
    RestComment d (c :: p) := by
  rw [scanStep, Option.bind_some] at h
  by_cases hc : c = '\n'.toUInt8
  · rw [if_pos hc] at h
    subst hc
    obtain ⟨ts, rfl, hok, hchain, hdepth⟩ := ih _ _ h
    refine ⟨[], .white '\n'.toUInt8 :: ts, rfl, by simp, ?_, ?_, hdepth, by simp⟩
    · exact List.forall_mem_cons.2 ⟨(by decide : '\n'.toUInt8 ∈ whites), hok⟩
    · exact List.isChain_cons.2 ⟨fun _ _ => trivial, hchain⟩
  · rw [if_neg hc] at h
    exact RestComment.cons (ih _ _ h) hc

theorem restSym_of_scanStep {k d : ℕ} {c : UInt8} {p : List UInt8}
    (ih : ∀ m d, scan (m, d) (p ++ ['\n'.toUInt8]) = some (.base, 0) → Rest d p m)
    (h : ((scanStep (.sym k, d) c).bind fun q => scan q (p ++ ['\n'.toUInt8])) =
      some (.base, 0)) (hk : k ≤ maxSymbol) :
    RestSym k d (c :: p) := by
  rw [scanStep] at h
  cases hkind : kind c with
  | other =>
      rw [hkind] at h
      by_cases hlt : k < maxSymbol
      · simp only [if_pos hlt, Option.bind_some] at h
        exact RestSym.cons (i := .chr c) (ih _ _ h hlt) ((kind_eq_other_iff c).1 hkind)
      · simp [hlt] at h
  | esca =>
      rw [hkind] at h
      obtain ⟨c', p', rfl, hc', -, hrest⟩ := ih _ _ h
      obtain rfl := eq_of_kind hkind (by decide) rfl
      exact hrest.cons (i := .esc c') hc'
  -- All others are delimiters, which leave the symbol as it is.
  | _ =>
      simp only [hkind] at h
      exact (restBase_of_scanBase ih h).sym hk (by simp [hkind]) (by simp [hkind])

theorem inStr_of_kind {c : UInt8} (h1 : kind c ≠ .dquo) (h2 : kind c ≠ .esca) :
    (Item.chr c).InStr := by
  constructor
  · rintro rfl
    exact h1 rfl
  · rintro rfl
    exact h2 rfl

theorem restStr_of_scanStep {k d : ℕ} {c : UInt8} {p : List UInt8}
    (ih : ∀ m d, scan (m, d) (p ++ ['\n'.toUInt8]) = some (.base, 0) → Rest d p m)
    (h : ((scanStep (.str k, d) c).bind fun q => scan q (p ++ ['\n'.toUInt8])) =
      some (.base, 0)) (hk : k ≤ maxSymbol) :
    RestStr k d (c :: p) := by
  rw [scanStep] at h
  cases hkind : kind c with
  | dquo =>
      rw [hkind] at h
      obtain rfl := eq_of_kind hkind (by decide) rfl
      obtain ⟨ts, rfl, hrest⟩ := ih _ _ h
      exact ⟨[], ts, rfl, by simp, by simpa using hk, hrest⟩
  | esca =>
      rw [hkind] at h
      obtain ⟨c', p', rfl, hc', -, hrest⟩ := ih _ _ h
      obtain rfl := eq_of_kind hkind (by decide) rfl
      exact hrest.cons (i := .esc c') hc'
  | _ =>
      simp only [hkind] at h
      by_cases hlt : k < maxSymbol
      · simp only [if_pos hlt, Option.bind_some] at h
        exact RestStr.cons (i := .chr c) (ih _ _ h hlt)
          (inStr_of_kind (by simp [hkind]) (by simp [hkind]))
      · simp [hlt] at h

/-- The character behind a backslash, in a symbol (`m = .sym`) or in a string. -/
theorem escaped_of_scanStep {m : ℕ → Mode} {k d : ℕ} {c : UInt8} {t : List UInt8}
    (h : (((if c ∈ escapable ∧ k < maxSymbol then some (m (k + 1), d) else none) :
      Option (Mode × ℕ)).bind fun q => scan q t) = some (.base, 0)) :
    c ∈ escapable ∧ k < maxSymbol ∧ scan (m (k + 1), d) t = some (.base, 0) := by
  by_cases hc : c ∈ escapable ∧ k < maxSymbol
  · rw [if_pos hc, Option.bind_some] at h
    exact ⟨hc.1, hc.2, h⟩
  · rw [if_neg hc] at h
    cases h

/-- At the end of the text only the line feed is left. -/
theorem rest_nil {m : Mode} {d : ℕ} (h : scan (m, d) ['\n'.toUInt8] = some (.base, 0)) :
    Rest d [] m := by
  cases m with
  | base =>
      cases h
      exact ⟨[], rfl, by simp, List.IsChain.nil, rfl⟩
  | comment =>
      cases h
      exact ⟨[], [], rfl, by simp, by simp, List.IsChain.nil, rfl, by simp⟩
  | sym k =>
      cases h
      exact fun hk => ⟨[], [], rfl, by simp, by simpa using hk, by simp, List.IsChain.nil,
        rfl, by simp⟩
  | str k =>
      have hk : kind '\n'.toUInt8 = .white := rfl
      simp only [scan, scanStep, hk] at h
      split at h <;> cases h
  | escSym k | escStr k =>
      have hesc : '\n'.toUInt8 ∉ escapable := by decide
      simp [scan, scanStep, hesc] at h

theorem rest_of_scan (p : List UInt8) : ∀ m d,
    scan (m, d) (p ++ ['\n'.toUInt8]) = some (.base, 0) → Rest d p m := by
  induction p with
  | nil => exact fun m d h => rest_nil h
  | cons c p ih =>
      intro m d h
      rw [List.cons_append, scan] at h
      cases m with
      | base => exact restBase_of_scanBase ih h
      | comment => exact restComment_of_scanStep ih h
      | sym k => exact restSym_of_scanStep ih h
      | str k => exact restStr_of_scanStep ih h
      | escSym k =>
          obtain ⟨hc, hk, hscan⟩ := escaped_of_scanStep h
          exact ⟨c, p, rfl, hc, hk, ih _ _ hscan hk⟩
      | escStr k =>
          obtain ⟨hc, hk, hscan⟩ := escaped_of_scanStep h
          exact ⟨c, p, rfl, hc, hk, ih _ _ hscan hk⟩

end Sound

theorem readable_iff_scan (s : List UInt8) :
    Readable s ↔ scan (.base, 0) (s ++ ['\n'.toUInt8]) = some (.base, 0) := by
  constructor
  · rintro ⟨ts, rfl, hok, hchain, hbal⟩
    rw [scan_tokens ts .base 0 hok hchain (fun _ _ => trivial) fun _ => ⟨.quote, trivial⟩,
      (balanced_iff_depth ts).1 hbal]
    rfl
  · intro h
    obtain ⟨ts, rfl, hok, hchain, hdepth⟩ := rest_of_scan s _ _ h
    exact ⟨ts, rfl, hok, hchain, (balanced_iff_depth ts).2 hdepth⟩

instance (s : List UInt8) : Decidable (Readable s) :=
  decidable_of_iff _ (readable_iff_scan s).symm

example : Readable ("(a '(\"x y\") \\\\) ; end".toList.map Char.toUInt8) := by decide

end Parser

end Ylisp
