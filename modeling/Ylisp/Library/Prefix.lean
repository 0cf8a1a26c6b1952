import Mathlib.Data.List.Infix
import Mathlib.Data.Set.Basic

/-!
# The longest common prefix

`IsLongest S w` says that `w` is the longest list that all lists of `S` start with. It is
unique, there is one unless `S` is empty, and it is found letter by letter: `isLongest_cons`
as long as all lists go on with the same letter, `isLongest_nil_of_mem` and
`isLongest_nil_of_ne` where they do not.
-/

namespace Prefix

variable {β : Type*} {S : Set (List β)} {w w' : List β}

structure IsLongest (S : Set (List β)) (w : List β) : Prop where
  common : ∀ k ∈ S, w <+: k
  longest : ∀ w', (∀ k ∈ S, w' <+: k) → w' <+: w

theorem IsLongest.unique (h : IsLongest S w) (h' : IsLongest S w') : w = w' :=
  (h'.longest w h.common).eq_of_length_le (h.longest w' h'.common).length_le

theorem isLongest_nil_of_mem (h : [] ∈ S) : IsLongest S [] where
  common := fun _ _ => List.nil_prefix
  longest := fun _ h' => h' [] h

theorem isLongest_nil_of_ne {a b : β} {p q : List β} (hp : a :: p ∈ S) (hq : b :: q ∈ S)
    (hab : a ≠ b) : IsLongest S [] where
  common := fun _ _ => List.nil_prefix
  longest := by
    intro w' h
    cases w' with
    | nil => exact List.nil_prefix
    | cons c w' =>
        have ha := (List.cons_prefix_cons.1 (h _ hp)).1
        have hb := (List.cons_prefix_cons.1 (h _ hq)).1
        exact absurd (ha.symm.trans hb) hab

theorem isLongest_cons {c : β} (hS : S.Nonempty) (hc : ∀ k ∈ S, ∃ p, k = c :: p)
    (h : IsLongest {p | c :: p ∈ S} w) : IsLongest S (c :: w) where
  common := by
    intro k hk
    obtain ⟨p, rfl⟩ := hc k hk
    exact List.cons_prefix_cons.2 ⟨rfl, h.common p hk⟩
  longest := by
    intro w' h'
    cases w' with
    | nil => exact List.nil_prefix
    | cons b w' =>
        obtain ⟨k, hk⟩ := hS
        obtain ⟨p, rfl⟩ := hc k hk
        obtain rfl := (List.cons_prefix_cons.1 (h' _ hk)).1
        refine List.cons_prefix_cons.2 ⟨rfl, h.longest w' fun q hq => ?_⟩
        exact (List.cons_prefix_cons.1 (h' _ hq)).2

theorem exists_isLongest : ∀ {k : List β} {S : Set (List β)}, k ∈ S → ∃ w, IsLongest S w
  | [], _, hk => ⟨[], isLongest_nil_of_mem hk⟩
  | c :: p, S, hk => by
      by_cases hc : ∀ k ∈ S, ∃ q, k = c :: q
      · obtain ⟨w, hw⟩ := exists_isLongest (S := {q | c :: q ∈ S}) hk
        exact ⟨c :: w, isLongest_cons ⟨_, hk⟩ hc hw⟩
      · simp only [not_forall] at hc
        obtain ⟨k, hkS, hne⟩ := hc
        refine ⟨[], ?_⟩
        cases k with
        | nil => exact isLongest_nil_of_mem hkS
        | cons b q =>
            refine isLongest_nil_of_ne hk hkS ?_
            rintro rfl
            exact hne ⟨q, rfl⟩

/-! ### Its computation -/

section Common

variable [DecidableEq β]

def common : List β → List β → List β
  | [], _ => []
  | _ :: _, [] => []
  | a :: k, b :: k' => if a = b then a :: common k k' else []

def commonAll : List (List β) → List β
  | [] => []
  | [k] => k
  | k :: k' :: ks => common k (commonAll (k' :: ks))

theorem prefix_common_iff {k k' : List β} : w <+: common k k' ↔ w <+: k ∧ w <+: k' := by
  induction k generalizing w k' with
  | nil =>
      rw [common]
      exact ⟨fun h => ⟨h, h.trans List.nil_prefix⟩, fun h => h.1⟩
  | cons a k ih =>
      cases k' with
      | nil =>
          rw [common]
          exact ⟨fun h => ⟨h.trans List.nil_prefix, h⟩, fun h => h.2⟩
      | cons b k' =>
          cases w with
          | nil => simp
          | cons c w =>
              rw [common, List.cons_prefix_cons, List.cons_prefix_cons]
              split
              next hab =>
                rw [List.cons_prefix_cons, ih, ← hab]
                tauto
              next hab =>
                refine iff_of_false (fun h => List.cons_ne_nil c w (List.prefix_nil.1 h)) ?_
                rintro ⟨⟨rfl, -⟩, rfl, -⟩
                exact hab rfl

theorem prefix_commonAll_iff : ∀ {ks : List (List β)}, ks ≠ [] →
    (w <+: commonAll ks ↔ ∀ k ∈ ks, w <+: k)
  | [], h => absurd rfl h
  | [k], _ => by simp [commonAll]
  | k :: k' :: ks, _ => by
      rw [commonAll, prefix_common_iff, prefix_commonAll_iff (List.cons_ne_nil k' ks),
        List.forall_mem_cons (l := k' :: ks)]

theorem isLongest_commonAll {ks : List (List β)} (h : ks ≠ []) :
    IsLongest {k | k ∈ ks} (commonAll ks) where
  common := (prefix_commonAll_iff h).1 List.prefix_rfl
  longest := fun _ h' => (prefix_commonAll_iff h).2 h'

end Common

end Prefix
