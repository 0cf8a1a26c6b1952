import Ylisp.Parser.Accept
import Ylisp.Parser.Zipper

/-!
# Reading undoes writing

`At a fs log` is a state between tokens: the lists `fs` are open, and the
expressions `log` have been evaluated. Reading an expression adds it to the
innermost open list, or evaluates it when there is none (`read_expr`, by
recursion on the expression).
-/

namespace Ylisp

namespace Parser

def Logged (fsa : Fsa) (log : List Expr) : Prop :=
  List.Forall₂ (fun x e => Reads x.1 x.2 e) fsa.evals log

def lists (k : ℕ) : List Fsas := List.replicate k .list ++ [.init]

structure At (a : Auto) (fs : List (List Expr)) (log : List Expr) : Prop where
  ststk : a.fsa.ststk = lists fs.length
  st : a.st = (lists fs.length).headD .init
  zip : Zipped a.fsa fs
  log : Logged a.fsa log

structure InString (a : Auto) (fs : List (List Expr)) (log : List Expr) (bs : List UInt8) :
    Prop where
  ststk : a.fsa.ststk = .dquote :: lists fs.length
  st : a.st = .dquote
  zip : Zipped a.fsa fs
  log : Logged a.fsa log
  pb : a.fsa.pb = bs

def addTo (e : Expr) : List (List Expr) → List (List Expr)
  | [] => []
  | es :: fs => (es ++ [e]) :: fs

def logAfter (e : Expr) (log : List Expr) : List (List Expr) → List Expr
  | [] => log ++ [e]
  | _ :: _ => log

def Gets (eval : Heap → Ref → Except Ylerr Heap) (a : Auto) (q : List UInt8) (P : Auto → Prop) :
    Prop :=
  (∃ x, Machine.Ends (step eval) a (.eval x)) ∨
    ∃ a', Machine.Reaches (step eval) a a' ∧ a'.p = q ∧ P a'

section Read

variable {eval : Heap → Ref → Except Ylerr Heap} {a a' : Auto} {q q' : List UInt8}
  {P : Auto → Prop} {fs : List (List Expr)} {log : List Expr}

theorem Gets.refl (hp : a.p = q) (h : P a) : Gets eval a q P :=
  Or.inr ⟨a, Relation.ReflTransGen.refl, hp, h⟩

theorem Gets.of_step (h : step eval a = .inl a') (h' : Gets eval a' q P) : Gets eval a q P := by
  rcases h' with ⟨x, hx⟩ | ⟨a₁, hr, hrest⟩
  · exact Or.inl ⟨x, Machine.Ends.of_step h hx⟩
  · exact Or.inr ⟨a₁, Relation.ReflTransGen.head h hr, hrest⟩

theorem Gets.trans {Q : Auto → Prop} (h : Gets eval a q Q)
    (h' : ∀ a', a'.p = q → Q a' → Gets eval a' q' P) : Gets eval a q' P := by
  rcases h with hx | ⟨a₁, hr, hp, hQ⟩
  · exact Or.inl hx
  · rcases h' a₁ hp hQ with ⟨x, hx⟩ | ⟨a₂, hr', hrest⟩
    · exact Or.inl ⟨x, hr.ends hx⟩
    · exact Or.inr ⟨a₂, hr.trans hr', hrest⟩

theorem At.st_cases (h : At a fs log) : a.st = .init ∨ a.st = .list := by
  rw [h.st]
  cases fs with
  | nil => exact Or.inl rfl
  | cons es fs => exact Or.inr rfl

theorem read_white (h : At a fs log) {c : UInt8} (hc : kind c = .white) (hp : a.p = c :: q) :
    Gets eval a q fun a' => At a' fs log := by
  have hc0 : c ≠ 0 := by
    rintro rfl
    cases hc
  have hnext : nextChar a.fsa c a.st = .ok (true, .nochg, a.fsa) :=
    (nextChar_outer h.st_cases a.fsa c).2 hc
  exact Gets.of_step (step_of_handled eval hp hc0 hnext)
    (Gets.refl rfl ⟨h.ststk, h.st, h.zip.congr rfl rfl rfl rfl, h.log⟩)

/-- The state that is come back to after an expression: a list goes on, and
`init` evaluates. -/
theorem read_exit {st : Fsas} {fsa : Fsa} {e : Expr}
    (hs : step eval a = transition eval st q fsa .exit)
    (hstk : (exit st fsa).ststk.tail = lists fs.length) (hung : Hung (exit st fsa) fs e)
    (hlog : Logged (exit st fsa) log) :
    Gets eval a q fun a' => At a' (addTo e fs) (logAfter e log fs) := by
  simp only [transition, hstk] at hs
  cases fs with
  | cons es fs =>
      have hzip := hung.zipped
      exact Gets.of_step hs (Gets.refl rfl ⟨rfl, rfl, hzip.congr rfl rfl rfl rfl, hlog⟩)
  | nil =>
      obtain ⟨hreads, hps, hpe⟩ := hung.reads
      have hcadr : ({ exit st fsa with ststk := lists 0 } : Fsa).cadrSentinel =
          (exit st fsa).cadrSentinel := rfl
      simp only [List.length_nil, show (lists 0).headD .init = Fsas.init from rfl, comeBack,
        fsasInitComeBack, if_pos hpe, hcadr] at hs
      cases heval : eval (exit st fsa).heap (exit st fsa).cadrSentinel with
      | error x =>
          rw [heval] at hs
          exact Or.inl ⟨x, Machine.Ends.of_result hs⟩
      | ok heap =>
          rw [heval] at hs
          refine Gets.of_step hs (Gets.refl rfl ⟨rfl, rfl, zipped_nil rfl hps, ?_⟩)
          exact List.rel_append hlog (List.Forall₂.cons hreads List.Forall₂.nil)

theorem read_byte {bs : List UInt8} {c : UInt8} (h : InString a fs log bs) (hc : c ≠ 0)
    (hlen : bs.length < maxSymbol) (hp : a.p = writeByte c ++ q) :
    Gets eval a q fun a' => InString a' fs log (bs ++ [c]) := by
  have hlt : a.fsa.pb.length < maxSymbol := by rw [h.pb]; exact hlen
  unfold writeByte at hp
  split at hp
  next hspecial =>
    have hesc : escaped c = some c := if_pos hspecial
    have hnext : nextChar a.fsa '\\'.toUInt8 a.st = .ok (true, .enter .escape, a.fsa) := by
      rw [h.st]
      rfl
    have hs := step_of_handled eval hp (by decide) hnext
    have htop : (a.fsa.countLine '\\'.toUInt8).ststk.headD .init = .dquote := by
      rw [show (a.fsa.countLine '\\'.toUInt8).ststk = _ from h.ststk]
      rfl
    simp only [transition, htop] at hs
    apply Gets.of_step hs
    obtain ⟨-, -, hok⟩ := nextChar_escape (pushState .escape (a.fsa.countLine '\\'.toUInt8)) c
    have hnext' := hok hlt c hesc
    have hs' := (step_of_handled eval (a := ⟨_, .escape, c :: q⟩) rfl hc hnext').trans
      (transition_escape_exit eval (Or.inr rfl) q (Fsa.countLine
        { pushState .escape (a.fsa.countLine '\\'.toUInt8) with pb := a.fsa.pb ++ [c] } c)
        (congrArg (List.cons Fsas.escape) h.ststk))
    refine Gets.of_step hs' (Gets.refl rfl ⟨rfl, rfl, h.zip.congr rfl rfl rfl rfl, h.log, ?_⟩)
    exact congrArg (· ++ [c]) h.pb
  next hplain =>
    rw [not_or] at hplain
    obtain ⟨-, -, hadd, -⟩ := nextChar_dquote a.fsa c
    rw [← h.st] at hadd
    have hmem := mem_chars_kind (c := c)
    have hdquo : kind c ≠ .dquo := fun hk => by simp [hk, Kind.chars, hplain.1] at hmem
    have hesca : kind c ≠ .esca := fun hk => by simp [hk, Kind.chars, hplain.2] at hmem
    have hnext := hadd hdquo hesca hlt
    refine Gets.of_step (step_of_handled eval hp hc hnext)
      (Gets.refl rfl ⟨h.ststk, h.st, h.zip.congr rfl rfl rfl rfl, h.log, ?_⟩)
    exact congrArg (· ++ [c]) h.pb

theorem read_bytes : ∀ (cs : List UInt8) {a : Auto} {bs : List UInt8}, InString a fs log bs →
    0 ∉ cs → bs.length + cs.length ≤ maxSymbol → a.p = cs.flatMap writeByte ++ q →
    Gets eval a q fun a' => InString a' fs log (bs ++ cs)
  | [], a, bs, h, _, _, hp => Gets.refl hp (by rwa [List.append_nil])
  | c :: cs, a, bs, h, h0, hlen, hp => by
      rw [List.mem_cons, not_or] at h0
      rw [List.length_cons] at hlen
      rw [List.flatMap_cons, List.append_assoc] at hp
      refine (read_byte h (Ne.symm h0.1) (by omega) hp).trans fun a' hp' h' => ?_
      have hrest : Gets eval a' q _ := read_bytes cs h' h0.2
        (by rw [List.length_append, List.length_singleton]; omega) hp'
      rwa [List.append_assoc] at hrest

theorem read_sym (s : Symbol) (h : At a fs log) (hp : a.p = (Expr.sym s).write ++ q) :
    Gets eval a q fun a' => At a' (addTo (.sym s) fs) (logAfter (.sym s) log fs) := by
  rw [Expr.write, List.cons_append, List.cons_append, List.append_assoc] at hp
  have hnext : nextChar a.fsa '"'.toUInt8 a.st = .ok (true, .enter .dquote, a.fsa) := by
    rcases h.st_cases with hst | hst <;> rw [hst] <;> rfl
  have hs := step_enter eval hp (by decide) (by simp) hnext
  apply Gets.of_step hs
  have hin : InString ⟨pushState .dquote (a.fsa.countLine '"'.toUInt8), .dquote,
      s.1.flatMap writeByte ++ (['"'.toUInt8] ++ q)⟩ fs log [] :=
    ⟨congrArg (List.cons Fsas.dquote) h.ststk, rfl, h.zip.congr rfl rfl rfl rfl, h.log, rfl⟩
  refine (read_bytes s.1 hin s.2.1 (by simpa using s.2.2) rfl).trans fun a' hp' h' => ?_
  have hnext' : nextChar a'.fsa '"'.toUInt8 a'.st = .ok (true, .exit, a'.fsa) := by
    rw [h'.st]
    rfl
  have hs' := step_of_handled eval hp' (by decide) hnext'
  rw [h'.st] at hs'
  have hzip : Zipped (a'.fsa.countLine '"'.toUInt8) fs := h'.zip.congr rfl rfl rfl rfl
  refine read_exit hs' ?_ (hzip.symbolExit (s := s) h'.pb) ?_
  · rw [exit_ststk, show (a'.fsa.countLine '"'.toUInt8).ststk = _ from h'.ststk]
    rfl
  · rw [Logged, exit_evals]
    exact h'.log

theorem read_open (h : At a fs log) (hp : a.p = '('.toUInt8 :: q) :
    Gets eval a q fun a' => At a' ([] :: fs) log := by
  have hnext : nextChar a.fsa '('.toUInt8 a.st = .ok (true, .enter .list, a.fsa) := by
    rcases h.st_cases with hst | hst <;> rw [hst] <;> rfl
  have hs := step_enter eval hp (by decide) (by simp) hnext
  have hzip : Zipped (a.fsa.countLine '('.toUInt8) fs := h.zip.congr rfl rfl rfl rfl
  refine Gets.of_step hs (Gets.refl rfl ⟨?_, rfl, ?_, ?_⟩)
  · rw [pushState_ststk]
    exact congrArg (List.cons Fsas.list) h.ststk
  · have hstk : Zipped { a.fsa.countLine '('.toUInt8 with
        ststk := .list :: (a.fsa.countLine '('.toUInt8).ststk } fs := hzip.congr rfl rfl rfl rfl
    exact hstk.listEnter
  · rw [Logged, pushState_evals]
    exact h.log

theorem read_close {es : List Expr} (h : At a (es :: fs) log) (hp : a.p = ')'.toUInt8 :: q) :
    Gets eval a q fun a' => At a' (addTo (.list es) fs) (logAfter (.list es) log fs) := by
  have hst : a.st = .list := h.st
  have hnext : nextChar a.fsa ')'.toUInt8 a.st = .ok (true, .exit, a.fsa) := by
    rw [hst]
    rfl
  have hs := step_of_handled eval hp (by decide) hnext
  rw [hst] at hs
  have hzip : Zipped (a.fsa.countLine ')'.toUInt8) (es :: fs) := h.zip.congr rfl rfl rfl rfl
  refine read_exit hs ?_ hzip.listExit ?_
  · rw [exit_ststk, show (a.fsa.countLine ')'.toUInt8).ststk = _ from h.ststk]
    rfl
  · rw [Logged, exit_evals]
    exact h.log

mutual

theorem read_expr (eval : Heap → Ref → Except Ylerr Heap) :
    ∀ (e : Expr) {a : Auto} {q : List UInt8} {fs : List (List Expr)} {log : List Expr},
      At a fs log → a.p = e.write ++ q →
        Gets eval a q fun a' => At a' (addTo e fs) (logAfter e log fs)
  | .sym s, _, _, _, _, h, hp => read_sym s h hp
  | .list es, a, q, fs, log, h, hp => by
      rw [Expr.write, List.cons_append, List.cons_append, List.append_assoc] at hp
      refine (read_open h hp).trans fun a₁ hp₁ h₁ => ?_
      refine (read_elems eval es h₁ hp₁).trans fun a₂ hp₂ h₂ => ?_
      exact read_close h₂ hp₂

theorem read_elems (eval : Heap → Ref → Except Ylerr Heap) :
    ∀ (es : List Expr) {a : Auto} {q : List UInt8} {es₀ : List Expr} {fs : List (List Expr)}
      {log : List Expr}, At a (es₀ :: fs) log → a.p = writeElems es ++ q →
        Gets eval a q fun a' => At a' ((es₀ ++ es) :: fs) log
  | [], _, _, _, _, _, h, hp => Gets.refl hp (by rwa [List.append_nil])
  | e :: es, a, q, es₀, fs, log, h, hp => by
      rw [writeElems, List.append_assoc] at hp
      refine (read_expr eval e h hp).trans fun a₁ hp₁ h₁ => ?_
      have hrest := read_rest eval es h₁ hp₁
      rwa [List.append_assoc] at hrest

theorem read_rest (eval : Heap → Ref → Except Ylerr Heap) :
    ∀ (es : List Expr) {a : Auto} {q : List UInt8} {es₀ : List Expr} {fs : List (List Expr)}
      {log : List Expr}, At a (es₀ :: fs) log → a.p = writeRest es ++ q →
        Gets eval a q fun a' => At a' ((es₀ ++ es) :: fs) log
  | [], _, _, _, _, _, h, hp => Gets.refl hp (by rwa [List.append_nil])
  | e :: es, a, q, es₀, fs, log, h, hp => by
      rw [writeRest, List.cons_append, List.append_assoc] at hp
      refine (read_white h rfl hp).trans fun a₁ hp₁ h₁ => ?_
      refine (read_expr eval e h₁ hp₁).trans fun a₂ hp₂ h₂ => ?_
      have hrest := read_rest eval es h₂ hp₂
      rwa [List.append_assoc] at hrest

end

/-- A sequence of expressions, each with a line feed behind it. -/
theorem read_lines (eval : Heap → Ref → Except Ylerr Heap) :
    ∀ (es : List Expr) {a : Auto} {log : List Expr}, At a [] log →
      a.p = es.flatMap (fun e => e.write ++ ['\n'.toUInt8]) →
        Gets eval a [] fun a' => At a' [] (log ++ es)
  | [], _, _, h, hp => Gets.refl hp (by rwa [List.append_nil])
  | e :: es, a, log, h, hp => by
      rw [List.flatMap_cons, List.append_assoc] at hp
      refine (read_expr eval e h hp).trans fun a₁ hp₁ h₁ => ?_
      refine (read_white h₁ rfl hp₁).trans fun a₂ hp₂ h₂ => ?_
      have hrest := read_lines eval es h₂ hp₂
      rwa [logAfter, List.append_assoc] at hrest

end Read

theorem intercalate_line : ∀ s (ss : List (List UInt8)),
    List.intercalate ['\n'.toUInt8] (s :: ss) ++ ['\n'.toUInt8] =
      (s :: ss).flatMap (· ++ ['\n'.toUInt8])
  | s, [] => by simp
  | s, s' :: ss => by
      have ih := intercalate_line s' ss
      rw [List.flatMap_cons, ← ih]
      simp [List.intercalate]

theorem writeAll_newline (e : Expr) (es : List Expr) :
    writeAll (e :: es) ++ ['\n'.toUInt8] =
      (e :: es).flatMap fun e => e.write ++ ['\n'.toUInt8] := by
  rw [writeAll, List.map_cons, intercalate_line, ← List.map_cons, List.flatMap_map]

theorem at_start (heap : Heap) (s : List UInt8) : At (start heap s) [] [] := by
  refine ⟨?_, rfl, zipped_nil rfl rfl, List.Forall₂.nil⟩
  rw [start, pushState_ststk]
  rfl

/-- When a text has been read to its end, the automaton has passed on what is logged. -/
theorem ends_of_gets {eval : Heap → Ref → Except Ylerr Heap} {heap : Heap} {s : List UInt8}
    {es : List Expr} (h : Gets eval (start heap s) [] fun a' => At a' [] es) :
    (∃ x, ylinterpAutomata eval heap s = some (.eval x)) ∨
      ∃ fsa, ylinterpAutomata eval heap s = some (.ret .ok fsa) ∧
        List.Forall₂ (fun x e => Reads x.1 x.2 e) fsa.evals es := by
  rcases h with ⟨x, hx⟩ | ⟨a, hr, hp, h⟩
  · exact Or.inl ⟨x, ylinterpAutomata_eq_some.2 hx⟩
  · have hps : a.fsa.pestk = [] := by
      have hzip := h.zip.zip
      cases hps : a.fsa.pestk with
      | nil => rfl
      | cons p ps =>
          rw [hps] at hzip
          exact hzip.elim
    have hfinish : step eval a =
        .inr (.ret .ok { { a.fsa with ststk := [] } with sentinel := none }) := by
      rw [step, hp]
      simp only [finish, show a.fsa.ststk = [.init] from h.ststk, exit, Fsa.clearSentinel, hps,
        List.length_nil, if_true]
    exact Or.inr ⟨_, ylinterpAutomata_eq_some.2 (hr.ends (Machine.Ends.of_result hfinish)), h.log⟩

/-- The automaton on a written text, unless an evaluation fails: it ends with
YLOk and has passed the expressions to evaluation, each once and in order. -/
theorem ylinterpAutomata_writeAll (eval : Heap → Ref → Except Ylerr Heap) (heap : Heap)
    (es : List Expr)
    (heval : ∀ x, ylinterpAutomata eval heap (writeAll es) ≠ some (.eval x)) :
    ∃ fsa, ylinterpAutomata eval heap (writeAll es) = some (.ret .ok fsa) ∧
      List.Forall₂ (fun x e => Reads x.1 x.2 e) fsa.evals es := by
  have hread : Gets eval (start heap (writeAll es)) [] fun a' => At a' [] es := by
    cases es with
    | nil => exact read_white (at_start heap _) rfl rfl
    | cons e es => exact read_lines eval (e :: es) (at_start heap _) (writeAll_newline e es)
  rcases ends_of_gets hread with ⟨x, hx⟩ | hret
  · exact absurd hx (heval x)
  · exact hret

/-- For the text of `"a" ("b\"" ())`, one expression a line. -/
theorem ylinterpAutomata_writeAll_two :
    let es := [Expr.sym ⟨[97], by decide⟩, .list [.sym ⟨[98, 34], by decide⟩, .list []]]
    let eval : Heap → Ref → Except Ylerr Heap := fun h _ => .ok h
    ∃ fsa, ylinterpAutomata eval ⟨0, fun _ => .sym []⟩ (writeAll es) = some (.ret .ok fsa) ∧
      List.Forall₂ (fun x e => Reads x.1 x.2 e) fsa.evals es :=
  ylinterpAutomata_writeAll _ _ _ fun x hx => by
    have hok : ∃ fsa, ylinterpAutomata (fun h _ => .ok h) ⟨0, fun _ => .sym []⟩
        (writeAll [Expr.sym ⟨[97], by decide⟩, .list [.sym ⟨[98, 34], by decide⟩, .list []]]) =
          some (.ret .ok fsa) := ⟨_, rfl⟩
    obtain ⟨fsa, hfsa⟩ := hok
    rw [hfsa] at hx
    cases hx

end Parser

end Ylisp
