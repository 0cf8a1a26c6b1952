import Mathlib.Data.List.Infix
import Mathlib.Order.Bounds.Basic

/-!
# Occurrences of a list in a list

`OccursAt t s i` says that `t` occurs in `s` at the position `i`. A search is asked for an
extremal position of a set: `Picks IsLeast S` and `Picks IsGreatest S` are its answers, `none`
for the empty set. `replaceAll` replaces the occurrences from left to right.
-/

namespace Occurrence

variable {α : Type*} {s t : List α} {i : ℕ}

def OccursAt (t s : List α) (i : ℕ) : Prop := t <+: s.drop i

instance [DecidableEq α] : Decidable (OccursAt t s i) :=
  inferInstanceAs (Decidable (t <+: s.drop i))

theorem OccursAt.length_le (h : OccursAt t s i) : t.length ≤ s.length - i := by
  have hlen : t.length ≤ (s.drop i).length := List.IsPrefix.length_le h
  rwa [List.length_drop] at hlen

theorem OccursAt.add_length_le (h : OccursAt t s i) (ht : t ≠ []) : i + t.length ≤ s.length := by
  have hlen := h.length_le
  have hpos := List.length_pos_iff.2 ht
  omega

theorem occursAt_iff_take : OccursAt t s i ↔ (s.drop i).take t.length = t :=
  List.prefix_iff_eq_take.trans eq_comm

/-- The element of `S` that `best` singles out; `none` if `S` is empty. -/
def Picks (best : Set ℕ → ℕ → Prop) (S : Set ℕ) : Option ℕ → Prop
  | some i => best S i
  | none => S = ∅

theorem Picks.unique {best : Set ℕ → ℕ → Prop} (hmem : ∀ S i, best S i → i ∈ S)
    (hbest : ∀ S i j, best S i → best S j → i = j) {S : Set ℕ} {r r' : Option ℕ}
    (h : Picks best S r) (h' : Picks best S r') : r = r' := by
  have hempty : ∀ i, best S i → S ≠ ∅ := fun i hi he => by
    have hi := hmem S i hi
    rw [he] at hi
    exact hi
  cases r with
  | none =>
      cases r' with
      | none => rfl
      | some i' => exact absurd h (hempty i' h')
  | some i =>
      cases r' with
      | none => exact absurd h' (hempty i h)
      | some i' => exact congrArg some (hbest S i i' h h')

theorem Picks.unique_least {S : Set ℕ} {r r' : Option ℕ} (h : Picks IsLeast S r)
    (h' : Picks IsLeast S r') : r = r' :=
  @Picks.unique IsLeast (fun _ _ h => h.1) (fun _ _ _ => IsLeast.unique) S r r' h h'

theorem Picks.unique_greatest {S : Set ℕ} {r r' : Option ℕ} (h : Picks IsGreatest S r)
    (h' : Picks IsGreatest S r') : r = r' :=
  @Picks.unique IsGreatest (fun _ _ h => h.1) (fun _ _ _ => IsGreatest.unique) S r r' h h'

section Replace

variable [DecidableEq α] {old new : List α}

/-- The leftmost occurrences of `old`, none of which overlaps the one before, are replaced. -/
def replaceAll (old new s : List α) : List α :=
  if old = [] then s
  else match s with
    | [] => []
    | c :: s' =>
        if old <+: c :: s' then new ++ replaceAll old new (s'.drop (old.length - 1))
        else c :: replaceAll old new s'
termination_by s.length
decreasing_by
  · exact Nat.lt_succ_of_le (List.drop_suffix _ _).length_le
  · exact Nat.lt_succ_self _

theorem replaceAll_nil_old (s : List α) : replaceAll [] new s = s := by
  rw [replaceAll.eq_def, if_pos rfl]

theorem replaceAll_nil : replaceAll old new [] = [] := by
  rw [replaceAll.eq_def]
  split <;> rfl

theorem replaceAll_of_isPrefix (hold : old ≠ []) (h : old <+: s) :
    replaceAll old new s = new ++ replaceAll old new (s.drop old.length) := by
  cases s with
  | nil => exact absurd (List.prefix_nil.1 h) hold
  | cons c s =>
      obtain ⟨n, hn⟩ := Nat.exists_eq_succ_of_ne_zero (List.length_pos_iff.2 hold).ne'
      rw [replaceAll.eq_def, if_neg hold]
      dsimp only
      rw [if_pos h, hn, List.drop_succ_cons, Nat.succ_sub_one]

theorem replaceAll_cons {c : α} (h : ¬ old <+: c :: s) :
    replaceAll old new (c :: s) = c :: replaceAll old new s := by
  by_cases hold : old = []
  · exact absurd (hold ▸ List.nil_prefix) h
  · rw [replaceAll.eq_def, if_neg hold]
    dsimp only
    rw [if_neg h]

theorem replaceAll_of_length_lt (h : s.length < old.length) : replaceAll old new s = s := by
  induction s with
  | nil => exact replaceAll_nil
  | cons c s ih =>
      have hno : ¬ old <+: c :: s := fun hp => Nat.not_lt.2 hp.length_le h
      rw [replaceAll_cons hno, ih (Nat.lt_of_succ_lt h)]

theorem replaceAll_drop_of_occursAt (hold : old ≠ []) (h : OccursAt old s i) :
    replaceAll old new (s.drop i) = new ++ replaceAll old new (s.drop (i + old.length)) := by
  rw [replaceAll_of_isPrefix hold h, List.drop_drop]

theorem replaceAll_drop_of_not {c : α} (hc : s[i]? = some c) (h : ¬ OccursAt old s i) :
    replaceAll old new (s.drop i) = c :: replaceAll old new (s.drop (i + 1)) := by
  obtain ⟨hi, rfl⟩ := List.getElem?_eq_some_iff.1 hc
  rw [OccursAt, List.drop_eq_getElem_cons hi] at h
  rw [List.drop_eq_getElem_cons hi, replaceAll_cons h]

end Replace

end Occurrence
