import Mathlib.Data.Fintype.Card
import Ylisp.Lisp.Print

/-!
# Expressions as trees

An expression without cycles unfolds to a tree. `ylechain_print` prints that tree, and no mark
of a cycle, if and only if the car of no pair can be reached from its cdr: the address of the
car is still in the map while the cdr is printed.
-/

namespace Ylisp

namespace Lisp

inductive Tree (E : Type*) where
  | null
  | atom (e : E)
  | pair (car cdr : Tree E)

def Tree.size {E : Type*} : Tree E → ℕ
  | null => 0
  | atom _ => 0
  | pair car cdr => car.size + cdr.size + 1

namespace Exprs

variable {E : Type*} (h : Exprs E)

inductive Unfolds : Option E → Tree E → Prop
  | null : Unfolds none .null
  | atom {e : E} (he : h.pair e = none) : Unfolds (some e) (.atom e)
  | pair {e : E} {carE cdrE : Option E} {t t' : Tree E} (he : h.pair e = some (carE, cdrE))
      (hcar : Unfolds carE t) (hcdr : Unfolds cdrE t') : Unfolds (some e) (.pair t t')

/-- The text of a tree, with the marks of a car or of a cdr. -/
def text : Tree E → Marks E → List Piece
  | .null, m => m.null
  | .atom e, m => m.atom e
  | .pair car cdr, m => m.sub (text car h.carMarks ++ text cdr h.cdrMarks)

inductive Sub : Option E → E → Prop
  | here {x : E} (hx : h.pair x ≠ none) : Sub (some x) x
  | car {x y : E} {carE cdrE : Option E} (hx : h.pair x = some (carE, cdrE)) (hy : Sub carE y) :
      Sub (some x) y
  | cdr {x y : E} {carE cdrE : Option E} (hx : h.pair x = some (carE, cdrE)) (hy : Sub cdrE y) :
      Sub (some x) y

/-- No pair that can be reached from the field can be reached from its own car or cdr. -/
def Acyclic (f : Option E) : Prop :=
  ∀ x carE cdrE, h.Sub f x → h.pair x = some (carE, cdrE) → ¬ h.Sub carE x ∧ ¬ h.Sub cdrE x

/-- No car of a pair that can be reached from the field can be reached from its cdr. -/
def Apart (f : Option E) : Prop :=
  ∀ x c cdrE, h.Sub f x → h.pair x = some (some c, cdrE) → ¬ h.Sub cdrE c

/-- What is promised for an expression: without cycles, its tree is printed, and the mark of a
cycle is a true one. -/
def Printed (e : E) : Prop :=
  (h.Acyclic (some e) → ∃ t, h.Unfolds (some e) t ∧ ∀ k, Nat.card E < k →
    ∃ out, h.ylechainPrint k e = some out ∧ .cycle ∉ out ∧
      written out = written (h.text t h.carMarks)) ∧
    ∀ k out, h.ylechainPrint k e = some out → .cycle ∈ out → ¬ h.Acyclic (some e)

section Trees

variable {h} {e x y : E} {f carE cdrE : Option E} {t t' : Tree E}

theorem Sub.pair (hs : h.Sub f x) : h.pair x ≠ none := by
  induction hs with
  | here hx => exact hx
  | car _ _ ih => exact ih
  | cdr _ _ ih => exact ih

theorem Sub.trans (hs : h.Sub f x) (hs' : h.Sub (some x) y) : h.Sub f y := by
  induction hs with
  | here _ => exact hs'
  | car hx _ ih => exact .car hx (ih hs')
  | cdr hx _ ih => exact .cdr hx (ih hs')

theorem Unfolds.unique (ht : h.Unfolds f t) : ∀ {t'}, h.Unfolds f t' → t' = t := by
  induction ht with
  | null =>
      intro t' ht'
      cases ht'
      rfl
  | atom he =>
      intro t' ht'
      cases ht' with
      | atom _ => rfl
      | pair he' _ _ => rw [he] at he'; cases he'
  | pair he _ _ ihcar ihcdr =>
      intro t' ht'
      cases ht' with
      | atom he' => rw [he] at he'; cases he'
      | pair he' hcar hcdr =>
          rw [he] at he'
          cases he'
          rw [ihcar hcar, ihcdr hcdr]

/-- A pair that can be reached has a tree, which is not larger. -/
theorem Unfolds.sub (ht : h.Unfolds f t) (hs : h.Sub f x) :
    ∃ t', h.Unfolds (some x) t' ∧ t'.size ≤ t.size := by
  induction hs generalizing t with
  | here _ => exact ⟨t, ht, le_rfl⟩
  | car hx _ ih =>
      cases ht with
      | atom he => rw [hx] at he; cases he
      | pair he hcar _ =>
          rw [hx] at he
          cases he
          obtain ⟨t', ht', hle⟩ := ih hcar
          exact ⟨t', ht', by rw [Tree.size]; omega⟩
  | cdr hx _ ih =>
      cases ht with
      | atom he => rw [hx] at he; cases he
      | pair he _ hcdr =>
          rw [hx] at he
          cases he
          obtain ⟨t', ht', hle⟩ := ih hcdr
          exact ⟨t', ht', by rw [Tree.size]; omega⟩

theorem Unfolds.not_sub (hx : h.pair x = some (carE, cdrE)) (hcar : h.Unfolds carE t)
    (hcdr : h.Unfolds cdrE t') : ¬ h.Sub carE x ∧ ¬ h.Sub cdrE x := by
  have hpair : h.Unfolds (some x) (.pair t t') := .pair hx hcar hcdr
  constructor
  · intro hs
    obtain ⟨t₁, ht₁, hle⟩ := hcar.sub hs
    rw [hpair.unique ht₁, Tree.size] at hle
    omega
  · intro hs
    obtain ⟨t₁, ht₁, hle⟩ := hcdr.sub hs
    rw [hpair.unique ht₁, Tree.size] at hle
    omega

theorem Unfolds.acyclic (ht : h.Unfolds f t) : h.Acyclic f := by
  intro x carE cdrE hs he
  obtain ⟨t', ht', -⟩ := ht.sub hs
  cases ht' with
  | atom he' => rw [he] at he'; cases he'
  | pair he' hcar hcdr =>
      rw [he] at he'
      cases he'
      exact Unfolds.not_sub he hcar hcdr

def Below (h : Exprs E) (x y : E) : Prop :=
  ∃ carE cdrE, h.pair x = some (carE, cdrE) ∧ (h.Sub carE y ∨ h.Sub cdrE y)

theorem sub_iff_below (hx : h.pair x ≠ none) : h.Sub (some x) y ↔ y = x ∨ h.Below x y := by
  constructor
  · intro hs
    cases hs with
    | here _ => exact Or.inl rfl
    | car he hy => exact Or.inr ⟨_, _, he, Or.inl hy⟩
    | cdr he hy => exact Or.inr ⟨_, _, he, Or.inr hy⟩
  · rintro (rfl | ⟨carE, cdrE, he, hy | hy⟩)
    · exact .here hx
    · exact .car he hy
    · exact .cdr he hy

theorem Below.trans {z : E} (hxy : h.Below x y) (hyz : h.Below y z) : h.Below x z := by
  obtain ⟨carE, cdrE, he, hy⟩ := hxy
  have hpair : h.pair y ≠ none := hy.elim Sub.pair Sub.pair
  have hs := (sub_iff_below hpair).2 (Or.inr hyz)
  exact ⟨carE, cdrE, he, hy.imp (·.trans hs) (·.trans hs)⟩

theorem exists_unfolds_field (hf : ∀ x, f = some x → h.pair x ≠ none → ∃ t, h.Unfolds (some x) t) :
    ∃ t, h.Unfolds f t := by
  cases f with
  | none => exact ⟨.null, .null⟩
  | some x =>
      by_cases hx : h.pair x = none
      · exact ⟨.atom x, .atom hx⟩
      · exact hf x rfl hx

/-- In a finite heap, an expression without cycles has a tree. -/
theorem exists_unfolds [Finite E] (ha : h.Acyclic f) : ∃ t, h.Unfolds f t := by
  let r : E → E → Prop := fun y x => h.Sub f x ∧ h.Below x y
  have htrans : IsTrans E r := ⟨fun _ _ _ hzy hyx => ⟨hyx.1, hyx.2.trans hzy.2⟩⟩
  have hirrefl : Std.Irrefl r := ⟨fun x hx => by
    obtain ⟨hs, carE, cdrE, he, hx⟩ := hx
    obtain ⟨hcar, hcdr⟩ := ha x carE cdrE hs he
    exact hx.elim hcar hcdr⟩
  have hwf : WellFounded r := Finite.wellFounded_of_trans_of_irrefl r
  have hsub : ∀ x, h.Sub f x → ∃ t, h.Unfolds (some x) t := by
    intro x
    induction x using hwf.induction with
    | _ x ih =>
        intro hs
        obtain ⟨⟨carE, cdrE⟩, he⟩ := Option.ne_none_iff_exists'.1 hs.pair
        obtain ⟨t, ht⟩ := exists_unfolds_field (f := carE) fun c hc hpair => by
          subst hc
          exact ih c ⟨hs, _, _, he, Or.inl (.here hpair)⟩ (hs.trans (.car he (.here hpair)))
        obtain ⟨t', ht'⟩ := exists_unfolds_field (f := cdrE) fun d hd hpair => by
          subst hd
          exact ih d ⟨hs, _, _, he, Or.inr (.here hpair)⟩ (hs.trans (.cdr he (.here hpair)))
        exact ⟨_, .pair he ht ht'⟩
  exact exists_unfolds_field fun x hx hpair => hsub x (hx ▸ .here hpair)

end Trees

section Output

variable {h} {e : E} {f carE cdrE : Option E} {t t' : Tree E}

def View.Clean : View E → Prop
  | .cycle => False
  | .sub _ out => .cycle ∉ out
  | _ => True

theorem cycle_notMem_aprint (h : Exprs E) (e : E) : Piece.cycle ∉ h.aprint e := by
  rw [aprint]
  cases h.toString e <;> simp [lit]

theorem clean_car (v : View E) : .cycle ∉ v.pieces h.carMarks ↔ v.Clean := by
  cases v with
  | null => simp [View.pieces, View.Clean, carMarks, lit]
  | atom e => simp [View.pieces, View.Clean, carMarks, cycle_notMem_aprint]
  | cycle => simp [View.pieces, View.Clean]
  | sub x out => simp [View.pieces, View.Clean, carMarks, lit]

theorem clean_cdr (v : View E) : .cycle ∉ v.pieces h.cdrMarks ↔ v.Clean := by
  cases v with
  | null => simp [View.pieces, View.Clean, cdrMarks, lit]
  | atom e =>
      simp only [View.pieces, View.Clean, cdrMarks]
      split <;> simp [lit, cycle_notMem_aprint]
  | cycle => simp [View.pieces, View.Clean]
  | sub x out => simp [View.pieces, View.Clean, cdrMarks, lit]

theorem View.mem_after {v : View E} {M : Set E} {y : E} :
    y ∈ v.after M ↔ y ∈ M ∨ ∃ out, v = .sub y out := by
  cases v with
  | sub x out => simp [View.after, or_comm, eq_comm]
  | _ => simp [View.after]

def FieldSpec (h : Exprs E) (f : Option E) (t : Tree E) : Prop :=
  ∀ k M v, Sees h (PrintsBy h (h.eprint k)) M f v →
    (v.Clean ↔ (∀ y, h.Sub f y → y ∉ M) ∧ h.Apart f) ∧
      (v.Clean → ∀ m, v.pieces m = h.text t m)

theorem apart_iff (he : h.pair e = some (carE, cdrE)) :
    h.Apart (some e) ↔
      h.Apart carE ∧ h.Apart cdrE ∧ ∀ c, carE = some c → ¬ h.Sub cdrE c := by
  constructor
  · refine fun ha => ⟨fun x c d hx => ha x c d (.car he hx), fun x c d hx => ha x c d (.cdr he hx),
      ?_⟩
    rintro c rfl
    exact ha e c cdrE (.here (by rw [he]; exact Option.some_ne_none _)) he
  · rintro ⟨hcar, hcdr, hc⟩ x c d hx hpair
    cases hx with
    | here _ =>
        rw [he] at hpair
        cases hpair
        exact hc c rfl
    | car he' hx =>
        rw [he] at he'
        cases he'
        exact hcar x c d hx hpair
    | cdr he' hx =>
        rw [he] at he'
        cases he'
        exact hcdr x c d hx hpair

theorem eprint_pair_spec {k : ℕ} {S : Set E} {map map' : Trie Unit} {out : List Piece}
    (he : h.pair e = some (carE, cdrE)) (hcar : FieldSpec h carE t) (hcdr : FieldSpec h cdrE t')
    (hm : Holds h map S) (hr : h.eprint k e map = some (out, map')) :
    (.cycle ∉ out ↔ (∀ y, h.Below e y → y ∉ S) ∧ h.Apart (some e)) ∧
      (.cycle ∉ out → out = h.text t h.carMarks ++ h.text t' h.cdrMarks) := by
  cases k with
  | zero => cases hr
  | succ k =>
      obtain ⟨v, v', hv, hv', rfl, -⟩ := eprint_succ (restores_eprint k) he hm hr
      obtain ⟨hclean, htext⟩ := hcar k S v hv
      obtain ⟨hclean', htext'⟩ := hcdr k (v.after S) v' hv'
      have hout : .cycle ∉ v.pieces h.carMarks ++ v'.pieces h.cdrMarks ↔ v.Clean ∧ v'.Clean := by
        rw [List.mem_append, not_or, clean_car, clean_cdr]
      rw [hout]
      refine ⟨?_, fun hc => by rw [htext hc.1, htext' hc.2]⟩
      rw [hclean, hclean', apart_iff he]
      constructor
      · rintro ⟨⟨hS, ha⟩, hS', ha'⟩
        refine ⟨fun y hy => ?_, ha, ha', fun c hc hs => ?_⟩
        · obtain ⟨carE', cdrE', he', hy⟩ := hy
          rw [he] at he'
          cases he'
          exact hy.elim (hS y) fun hy hmem => hS' y hy (View.mem_after.2 (Or.inl hmem))
        · -- The car is in the map while the cdr is printed.
          subst hc
          have hvclean := hclean.2 ⟨hS, ha⟩
          cases hv with
          | atom hatom => exact hs.pair hatom
          | cycle => exact hvclean
          | sub => exact hS' c hs (Set.mem_insert c S)
      · rintro ⟨hS, ha, ha', hc⟩
        refine ⟨⟨fun y hy => hS y ⟨_, _, he, Or.inl hy⟩, ha⟩, fun y hy hmem => ?_, ha'⟩
        rcases View.mem_after.1 hmem with hmem | ⟨out, rfl⟩
        · exact hS y ⟨_, _, he, Or.inr hy⟩ hmem
        · cases hv
          exact hc y rfl hy

theorem not_sub_of_atom {y : E} (he : h.pair e = none) : ¬ h.Sub (some e) y := by
  intro hs
  cases hs with
  | here hx => exact hx he
  | car hx _ => rw [he] at hx; cases hx
  | cdr hx _ => rw [he] at hx; cases hx

theorem fieldSpec (ht : h.Unfolds f t) : FieldSpec h f t := by
  induction ht with
  | null =>
      intro k M v hv
      cases hv
      exact ⟨iff_of_true trivial ⟨nofun, nofun⟩, fun _ _ => rfl⟩
  | atom he =>
      intro k M v hv
      cases hv with
      | atom _ =>
          refine ⟨iff_of_true trivial ⟨fun y hy => ?_, fun x c d hx => ?_⟩, fun _ _ => rfl⟩
          · exact absurd hy (not_sub_of_atom he)
          · exact absurd hx (not_sub_of_atom he)
      | cycle hx _ => exact absurd he hx
      | sub hx _ _ => exact absurd he hx
  | @pair e _ _ _ _ he hcar hcdr ihcar ihcdr =>
      intro k M v hv
      have hpair : h.pair e ≠ none := by
        rw [he]
        exact Option.some_ne_none _
      cases hv with
      | atom hatom => exact absurd hatom hpair
      | cycle _ hM => exact ⟨iff_of_false id fun hc => hc.1 e (.here hpair) hM, nofun⟩
      | sub _ hM hout =>
          obtain ⟨map, map', hm, hr⟩ := hout
          obtain ⟨hclean, htext⟩ := eprint_pair_spec he ihcar ihcdr hm hr
          refine ⟨hclean.trans (and_congr_left fun _ => ?_), fun hc m => ?_⟩
          · constructor
            · intro hS y hy
              rcases (sub_iff_below hpair).1 hy with rfl | hy
              · exact hM
              · exact fun hmem => hS y hy (Set.mem_insert_of_mem e hmem)
            · rintro hS y hy (rfl | hmem)
              · obtain ⟨carE', cdrE', he', hy⟩ := hy
                rw [he] at he'
                cases he'
                obtain ⟨hcar', hcdr'⟩ := Unfolds.not_sub he hcar hcdr
                exact hy.elim hcar' hcdr'
              · exact hS y ((sub_iff_below hpair).2 (Or.inr hy)) hmem
          · rw [View.pieces, htext hc, text]

theorem ylechainPrint_spec (ht : h.Unfolds (some e) t) {k : ℕ} {out : List Piece}
    (hr : h.ylechainPrint k e = some out) :
    (.cycle ∉ out ↔ h.Apart (some e)) ∧ (.cycle ∉ out → out = h.text t h.carMarks) := by
  cases ht with
  | atom he =>
      rw [ylechainPrint, if_pos (yleisAtom_iff.2 he)] at hr
      cases hr
      refine ⟨iff_of_true (cycle_notMem_aprint h e) fun x c d hx => ?_, fun _ => rfl⟩
      exact absurd hx (not_sub_of_atom he)
  | pair he hcar hcdr =>
      have hpair : ¬ h.yleisAtom e = true := by
        rw [yleisAtom_iff, he]
        exact Option.some_ne_none _
      rw [ylechainPrint, if_neg hpair] at hr
      obtain ⟨⟨o, map'⟩, ho, ho'⟩ := Option.map_eq_some_iff.1 hr
      cases ho'
      obtain ⟨hclean, htext⟩ :=
        eprint_pair_spec he (fieldSpec hcar) (fieldSpec hcdr) (holds_create h) ho
      have hmem : .cycle ∉ lit "(" :: (o ++ [lit ")"]) ↔ .cycle ∉ o := by simp [lit]
      rw [hmem, hclean]
      refine ⟨and_iff_right fun _ _ => Set.notMem_empty _, fun hc => ?_⟩
      rw [text, carMarks, htext (hclean.2 hc)]
      rfl

end Output

/-- The expression `((a) a)`, whose cdr is its car. -/
def shared : Exprs (Fin 6) where
  pair := fun e =>
    if e = 0 then some (some 1, some 1) else if e = 1 then some (some 2, some 3) else none
  yleisNil := fun e => e = 3
  toString := fun _ => some [97]
  addr := fun e => [0, 0, 0, 0, 0, 0, 0, UInt8.ofNat e.val]
  length_addr := fun _ => rfl
  addr_injective := by decide

inductive Couple where
  | whole | tail | a | b | nil
  deriving DecidableEq

instance : Fintype Couple where
  elems := {.whole, .tail, .a, .b, .nil}
  complete := fun e => by cases e <;> decide

def couple : Exprs Couple where
  pair := fun
    | .whole => some (some .a, some .tail)
    | .tail => some (some .b, some .nil)
    | _ => none
  yleisNil := fun e => e = .nil
  toString := fun e => some (if e = .a then [97] else [98])
  addr := fun e => [0, 0, 0, 0, 0, 0, 0, UInt8.ofNat e.ctorIdx]
  length_addr := fun _ => rfl
  addr_injective := by decide

end Exprs

end Lisp

end Ylisp
